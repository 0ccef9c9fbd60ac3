import TensorCost.Yaml.Basic
import TensorCost.Yaml.Numeral

/-!
# Writing scalars

A text is written plain if it then reads back as itself, and else in single quotes, in which a quote
is written twice. A text of several lines is written as a block. What neither single quotes nor a
block can show is written in double quotes with escapes.

* `Yaml.style` chooses the style of a text.
* `Yaml.isShown` says which characters can be shown as they are, and `Yaml.isMarked` and
  `Yaml.hasBareEdge` which layouts need quotes.
* `Yaml.printText` writes a text.
-/

namespace TensorCost.Yaml

/-- The words that are taken for nothing or for a truth value. -/
def reservedWords : List String :=
  ["", "~", "null", "Null", "NULL", "true", "True", "TRUE", "false", "False", "FALSE"]

/-- Whether a text would be read as something else than a text if it were written plain. -/
def isAmbiguous (s : String) : Bool := reservedWords.contains s || readsAsNumber s

/-- Whether a character can be shown as it is: line feeds and printing characters, of which the byte
order mark is none. -/
def isShown (c : Char) : Bool :=
  c == '\n' || (0x20 ≤ c.toNat && c.toNat ≤ 0x7e)
    || (0xa0 ≤ c.toNat && c.toNat ≤ 0xfffd && c.toNat != 0xfeff) || 0x10000 ≤ c.toNat

/-- Whether `c` cannot begin a plain text. -/
def isIndicator (c : Char) : Bool :=
  c ∈ ['#', ',', '[', ']', '\x7b', '\x7d', '&', '*', '!', '|', '>', '\'', '"', '%', '@', '\x60']

/-- Whether `c` cannot begin a plain text if a blank follows. -/
def isBlankIndicator (c : Char) : Bool := c == '?' || c == ':' || c == '-'

/-- Whether a colon at the end of a word, or a number sign at the start of one, cuts a text off. -/
def isCut : List Char → Bool
  | [] => false
  | ':' :: rest => isGapOrEnd rest || isCut rest
  | c :: rest => ((isBlank c || isBreak c) && rest.head? == some '#') || isCut rest

/-- Whether a plain text would be read differently for a mark in it. -/
def isMarked (s : List Char) : Bool :=
  ['-', '-', '-'].isPrefixOf s || ['.', '.', '.'].isPrefixOf s
    || s.head?.any isIndicator
    || (s.head?.any isBlankIndicator && isGapOrEnd s.tail)
    || isCut s

/-- Whether a blank begins or ends a text. -/
def hasBareEdge (s : List Char) : Bool := s.head? == some ' ' || s.getLast? == some ' '

/-- Whether somewhere in a text a character of the first kind is followed by one of the second. -/
def hasPair (first second : Char → Bool) : List Char → Bool
  | a :: b :: rest => (first a && second b) || hasPair first second (b :: rest)
  | _ => false

/-- Whether a blank that is followed by a line break would be lost. -/
def hasBlankBeforeBreak (s : List Char) : Bool := hasPair (· == ' ') isBreak s

/-- Whether a text can be written plain. -/
def fitsPlain (s : List Char) : Bool :=
  s.all (fun c => isShown c && !isBreak c) && !hasBareEdge s && !isMarked s

/-- Whether single quotes can show a text. -/
def fitsQuotes (s : List Char) : Bool :=
  s.all isShown && !hasBlankBeforeBreak s && !hasPair isBreak (· == ' ') s

/-- Whether a block of lines can show a text. -/
def fitsBlock (s : List Char) : Bool :=
  s.all isShown && !hasBlankBeforeBreak s && s.getLast? != some ' '

/-- The style in which a text reads back as itself. -/
def style (text : String) : Style :=
  let s := text.toList
  if s.contains '\n' then
    if fitsBlock s then .literal else .doubleQuoted
  else if !isAmbiguous text && fitsPlain s then .plain
  else if fitsQuotes s then .singleQuoted
  else .doubleQuoted

/-- Digits in base sixteen with capital letters, filled up with zeros to the given width. -/
def hexDigits (width n : Nat) : List Char :=
  let digits := (Nat.toDigits 16 n).map Char.toUpper
  List.replicate (width - digits.length) '0' ++ digits

/-- The form of a character between double quotes. -/
def escape (c : Char) : List Char :=
  match c with
  | '\x00' => ['\\', '0']
  | '\x07' => ['\\', 'a']
  | '\x08' => ['\\', 'b']
  | '\t' => ['\\', 't']
  | '\n' => ['\\', 'n']
  | '\x0b' => ['\\', 'v']
  | '\x0c' => ['\\', 'f']
  | '\r' => ['\\', 'r']
  | '\x1b' => ['\\', 'e']
  | '"' => ['\\', '"']
  | '\\' => ['\\', '\\']
  | '\u0085' => ['\\', 'N']
  | '\u2028' => ['\\', 'L']
  | '\u2029' => ['\\', 'P']
  | c =>
    if isShown c then [c]
    else if c.toNat ≤ 0xff then '\\' :: 'x' :: hexDigits 2 c.toNat
    else if c.toNat ≤ 0xffff then '\\' :: 'u' :: hexDigits 4 c.toNat
    else '\\' :: 'U' :: hexDigits 8 c.toNat

/-- The blanks that begin a line which goes on with a text. -/
def indentation : List Char := [' ', ' ']

/-- A text and the closing one of single quotes. A line that does not begin the text is indented. -/
def printQuoted (lineStart : Bool) : List Char → List Char
  | [] => (if lineStart then indentation else []) ++ ['\'']
  | c :: rest =>
    if isBreak c then c :: printQuoted true rest
    else (if lineStart then indentation else []) ++ (if c == '\'' then ['\'', '\''] else [c])
      ++ printQuoted false rest

/-- The lines of a block, indented if they are not empty; the last of them is ended. -/
def printBlock (lineStart : Bool) : List Char → List Char
  | [] => if lineStart then [] else ['\n']
  | c :: rest =>
    if isBreak c then c :: printBlock true rest
    else (if lineStart then indentation else []) ++ c :: printBlock false rest

/-- What stands before a block: how deep its lines are indented, if the first of them does not show
it, and which line breaks at its end belong to the text. -/
def blockHeader (s : List Char) : List Char :=
  let depth := if s.head?.any fun c => c == ' ' || isBreak c then ['2'] else []
  let ending :=
    if !s.getLast?.any isBreak then ['-']
    else if s.dropLast.getLast?.all isBreak then ['+']
    else []
  '|' :: depth ++ ending ++ ['\n']

/-- A text in the given style, with the end of its line. -/
def printStyled (s : List Char) : Style → List Char
  | .plain => s ++ ['\n']
  | .singleQuoted => '\'' :: printQuoted false s ++ ['\n']
  | .doubleQuoted => '"' :: s.flatMap escape ++ ['"', '\n']
  | .literal | .folded => blockHeader s ++ printBlock true s

/-- A text in the style in which it reads back as itself, with the end of its line. -/
def printText (s : String) : List Char := printStyled s.toList (style s)

end TensorCost.Yaml
