/-!
# The text of a configuration document

A configuration document is written in YAML: one mapping, whose values are scalars or mappings of
scalars.

* `Yaml.Scalar` and `Yaml.Value` are what a document holds, `Yaml.Style` how a scalar is written.
* `Yaml.isAllowed` says which characters may stand in a document, `Yaml.isBreak` and `Yaml.isBlank`
  which of them separate lines and words, and `Yaml.unifyBreaks` makes different line ends equal.
* `Yaml.foldGap` says what a gap between the words of a scalar stands for.
* `Yaml.isMarker` recognises the lines `---` and `...` that start and end a document, and
  `Yaml.endLine?` the end of a line.
-/

namespace TensorCost.Yaml

/-- How the text of a scalar is set off: not at all, by quotes, or as a block of lines of its own
that keep their line breaks or are folded. -/
inductive Style
  | plain | singleQuoted | doubleQuoted | literal | folded
  deriving DecidableEq, Repr

/-- A scalar: its text, how it is written, and the tag that says of which type it is, if it has
one. A plain text can stand for a number, a truth value or nothing; any other text stands for
itself. -/
structure Scalar where
  text : String
  style : Style
  tag : Option String
  deriving DecidableEq, Repr

/-- A value in a document. -/
inductive Value
  | scalar (s : Scalar)
  | mapping (entries : List (Scalar × Scalar))
  deriving DecidableEq, Repr

/-- Whether a character may stand in a document: no controls but tab and line ends, and no
noncharacters. -/
def isAllowed (c : Char) : Bool :=
  c == '\t' || c == '\n' || c == '\r' || c == '\u0085'
    || (0x20 ≤ c.toNat && c.toNat ≤ 0x7e) || (0xa0 ≤ c.toNat && c.toNat ≤ 0xfffd)
    || 0x10000 ≤ c.toNat

/-- Whether `c` ends a line, once line ends have been made equal. -/
def isBreak (c : Char) : Bool := c == '\n' || c == '\u2028' || c == '\u2029'

/-- Whether `c` separates words on a line. -/
def isBlank (c : Char) : Bool := c == ' ' || c == '\t'

/-- Whether a text ends here or goes on with a blank or a new line. -/
def isGapOrEnd : List Char → Bool
  | [] => true
  | c :: _ => isBlank c || isBreak c

/-- Whether `c` can stand in a name: a letter or digit of ASCII, `_` or `-`. -/
def isWordChar (c : Char) : Bool := c.isAlphanum || c == '_' || c == '-'

/-- Writes the ends of lines that leave no mark of their own as line feeds. -/
def unifyBreaks : List Char → List Char
  | [] => []
  | '\r' :: '\n' :: rest => '\n' :: unifyBreaks rest
  | c :: rest => (if c == '\r' || c == '\u0085' then '\n' else c) :: unifyBreaks rest

/-- Whether a line starts with three times `c` and nothing joins on. -/
def isMarkerOf (c : Char) : List Char → Bool
  | a :: b :: d :: rest => a == c && b == c && d == c && isGapOrEnd rest
  | _ => false

/-- Whether a line starts with a mark that starts or ends a document. -/
def isMarker (line : List Char) : Bool := isMarkerOf '-' line || isMarkerOf '.' line

/-- The text that a gap of blanks and line breaks inside of a scalar stands for. Blanks on one line
stand for themselves. One line break joins two lines with a blank; of several, the first is left
out. A line break with a mark of its own is always kept. -/
def foldGap (gap : List Char) : List Char :=
  match gap.filter isBreak with
  | [] => gap
  | '\n' :: [] => [' ']
  | '\n' :: more => more
  | breaks => breaks

/-- How many characters of a gap stand after its last line break. -/
def columnAfter (gap : List Char) : Nat := (gap.reverse.takeWhile fun c => !isBreak c).length

/-- What follows when the line ends here: blanks and a comment may stand before. -/
def endLine? (s : List Char) : Option (List Char) :=
  let s := s.dropWhile isBlank
  let s := if s.head? == some '#' then s.dropWhile (!isBreak ·) else s
  match s with
  | [] => some []
  | c :: rest => if isBreak c then some rest else none

theorem length_endLine?_le {s rest : List Char} (h : endLine? s = some rest) :
    rest.length ≤ s.length := by
  unfold endLine? at h
  extract_lets words t at h
  have hwords : words.length ≤ s.length := (List.dropWhile_sublist isBlank).length_le
  have ht : t.length ≤ words.length := by
    unfold t
    split
    · exact (List.dropWhile_sublist _).length_le
    · exact Nat.le_refl _
  refine Nat.le_trans ?_ (Nat.le_trans ht hwords)
  clear_value t
  cases t with
  | nil =>
    obtain rfl := Option.some.inj h
    exact Nat.le_refl _
  | cons c tail =>
    simp only at h
    split at h
    · obtain rfl := Option.some.inj h
      exact Nat.le_succ _
    · contradiction

end TensorCost.Yaml
