import RegexStepper.Proofs.AutomatonSize
import RegexStepper.Proofs.CompiledAutomaton
import RegexStepper.Proofs.DrawnLabels
import RegexStepper.Proofs.DrawnPlayback
import RegexStepper.Proofs.EpsilonClosure
import RegexStepper.Proofs.FiredTransitions
import RegexStepper.Proofs.HistoryTable
import RegexStepper.Proofs.Leftover
import RegexStepper.Proofs.Pattern.Tiling
import RegexStepper.Proofs.Printing.Joined
import RegexStepper.Proofs.Printing.Reread
import RegexStepper.Proofs.RunToEnd
import RegexStepper.Proofs.Session.Atomicity
import RegexStepper.Proofs.Session.Pages
import RegexStepper.Proofs.Session.Sharing
import RegexStepper.Proofs.Session.TypedPattern
import RegexStepper.Proofs.Session.Verdict
import RegexStepper.Proofs.Thompson.Atomicity
import RegexStepper.Proofs.Thompson.Renumbering
import RegexStepper.Proofs.Thompson.Reuse
import RegexStepper.Text.Quoted
