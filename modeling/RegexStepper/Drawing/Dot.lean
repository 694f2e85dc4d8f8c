/-!
# Graph descriptions in DOT

A graph description is a list of statements, written one a line (`render`). A value stands as it is
if it is a name, a numeral or a markup text in angle brackets, or one of these and a line feed; any
other value, and each word that the language reserves, stands in double quotes. Within the quotes
only a double quote is escaped, unless a backslash already escapes it; everything else is kept as it
is.
-/

namespace RegexStepper

namespace Dot

/-! ## Values -/

/-- A letter of a name. -/
def isNameStart (c : Char) : Bool :=
  c.isAlpha || c == '_'

/-- A name: letters, digits and underscores, no digit first. -/
def isName : List Char → Bool
  | [] => false
  | c :: rest => isNameStart c && rest.all fun d => isNameStart d || d.isDigit

/-- A numeral without a sign: digits, with at most one point before, between or after them. -/
def isUnsigned (cs : List Char) : Bool :=
  let whole := cs.takeWhile Char.isDigit
  match cs.dropWhile Char.isDigit with
  | [] => !whole.isEmpty
  | '.' :: fraction => fraction.all Char.isDigit && !(whole.isEmpty && fraction.isEmpty)
  | _ => false

/-- A numeral: at most one minus sign, then one without a sign. -/
def isNumeral : List Char → Bool
  | '-' :: rest => isUnsigned rest
  | cs => isUnsigned cs

/-- A markup text: angle brackets around anything. -/
def isMarkup : List Char → Bool
  | '<' :: rest => rest.getLast? == some '>'
  | _ => false

/-- The words that are never plain values, in lower case. -/
def reservedWords : List String :=
  ["node", "edge", "graph", "digraph", "subgraph", "strict"]

/-- A word of the language, in whatever case. -/
def isReserved (cs : List Char) : Bool :=
  reservedWords.contains (String.ofList (cs.map Char.toLower))

/-- A value up to the line feed it ends in, or all of it if it ends in none. -/
def unterminated (cs : List Char) : List Char :=
  if cs.getLast? = some '\n' then cs.dropLast else cs

/-- A value that needs no quotes. Its form is that of the value up to a final line feed; reserved
words are reserved only without one. -/
def isPlain (cs : List Char) : Bool :=
  let form := unterminated cs
  isMarkup form || (isName form || isNumeral form) && !isReserved cs

/-- The text between the quotes: a double quote after an even number of backslashes gets one more.
`odd` tells whether the characters just before are an odd number of backslashes. -/
def escapeQuotes (odd : Bool) : List Char → List Char
  | [] => []
  | '\\' :: rest => '\\' :: escapeQuotes (!odd) rest
  | '"' :: rest =>
    if odd then '"' :: escapeQuotes false rest else '\\' :: '"' :: escapeQuotes false rest
  | c :: rest => c :: escapeQuotes false rest

/-- A text in double quotes. -/
def quoted (cs : List Char) : List Char :=
  '"' :: escapeQuotes false cs ++ ['"']

/-- A value as it is written. -/
def value (text : String) : String :=
  if isPlain text.toList then text else String.ofList (quoted text.toList)

/-! ## Statements -/

/-- A named property of a node or an edge. -/
structure Attribute where
  name : String
  value : String
deriving DecidableEq, Repr

/-- One line of a description. -/
inductive Statement where
  /-- A property of the graph. -/
  | setting (property : Attribute)
  /-- Properties of everything of one sort. -/
  | defaults (sort : String) (properties : List Attribute)
  /-- A node. -/
  | node (id : String) (properties : List Attribute)
  /-- An edge. -/
  | edge (tail head : String) (properties : List Attribute)
deriving DecidableEq, Repr

namespace Attribute

/-- A property as it is written. -/
def render (a : Attribute) : String :=
  a.name ++ "=" ++ Dot.value a.value

end Attribute

/-- Properties in brackets, after a blank; nothing if there are none. -/
def renderProperties (properties : List Attribute) : String :=
  if properties.isEmpty then ""
  else " [" ++ " ".intercalate (properties.map Attribute.render) ++ "]"

namespace Statement

/-- A statement as it is written. -/
def render : Statement → String
  | setting a => a.render
  | defaults sort properties => sort ++ renderProperties properties
  | node id properties => Dot.value id ++ renderProperties properties
  | edge tail head properties =>
    Dot.value tail ++ " -> " ++ Dot.value head ++ renderProperties properties

end Statement

/-- The description of a directed graph. -/
def render (statements : List Statement) : String :=
  "digraph \x7b\n" ++ String.join (statements.map fun s => "\t" ++ s.render ++ "\n") ++ "\x7d\n"

/-! ## Plain values -/

theorem unterminated_append (cs : List Char) : unterminated (cs ++ ['\n']) = cs := by
  unfold unterminated
  rw [List.getLast?_concat, if_pos rfl, List.dropLast_concat]

theorem unterminated_eq_self {cs : List Char} (h : cs.getLast? ≠ some '\n') :
    unterminated cs = cs :=
  if_neg h

/-! ## What stands between the quotes -/

@[simp] theorem escapeQuotes_nil (odd : Bool) : escapeQuotes odd [] = [] := by
  cases odd <;> rfl

theorem escapeQuotes_plain {c : Char} (hb : c ≠ '\\') (hq : c ≠ '"') (odd : Bool)
    (rest : List Char) : escapeQuotes odd (c :: rest) = c :: escapeQuotes false rest := by
  rw [escapeQuotes]
  · exact hb
  · exact hq

/-- A text without double quotes stands between the quotes as it is. -/
theorem escapeQuotes_eq_self {cs : List Char} (h : '"' ∉ cs) (odd : Bool) :
    escapeQuotes odd cs = cs := by
  induction cs generalizing odd with
  | nil => exact escapeQuotes_nil odd
  | cons c rest ih =>
    have hrest : '"' ∉ rest := fun hm => h (List.mem_cons_of_mem c hm)
    have hq : c ≠ '"' := fun e => h (e ▸ List.mem_cons_self)
    by_cases hb : c = '\\'
    · subst hb
      rw [escapeQuotes, ih hrest]
    · rw [escapeQuotes_plain hb hq, ih hrest]

end Dot

end RegexStepper
