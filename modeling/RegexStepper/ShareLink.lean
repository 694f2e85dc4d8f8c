import RegexStepper.Base64

/-!
# Sharing a pattern by a link

The parameter of a link holds a pattern as the Base64 text of its UTF-8 bytes. A parameter may have
been written by anyone: one that is not ASCII, not Base64 or not UTF-8 holds no pattern.
-/

namespace RegexStepper

/-- The pattern to start with. -/
def defaultPattern : String := "a(b|c)*d"

namespace ShareLink

/-- The parameter that holds a pattern. -/
def encode (pattern : String) : String :=
  String.ofList (Base64.encode pattern.toUTF8.data.toList)

/-- The pattern that a parameter holds. -/
def decode? (parameter : String) : Option String := do
  guard (parameter.toList.all fun c => c.toNat < 128)
  let bytes ← Base64.decode parameter.toList
  String.fromUTF8? ⟨bytes.toArray⟩

/-- The pattern that a parameter holds, or another where it holds none. -/
def decode (parameter fallback : String) : String :=
  (decode? parameter).getD fallback

end ShareLink

end RegexStepper
