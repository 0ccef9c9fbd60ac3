import TensorCost.Json.Basic

/-!
# Writing JSON

* `Json.print` writes a value in a given `Layout`.
* `Layout.lines` puts each item and each member on a line of its own, two blanks deeper than the
  brackets around it; `Layout.tight` writes no blank at all.
* In a string, quote, backslash and controls are escaped, and every other character stands for
  itself.
-/

namespace TensorCost.Json

/-- What is written between tokens. -/
structure Layout where
  /-- Before an item or a member at this depth, and before the bracket that closes it. -/
  lineBreak : Nat → List Char
  /-- Between the name of a member and its value. -/
  colon : List Char

namespace Layout

/-- A line for each item and member, indented by two blanks for each level. -/
def lines : Layout where
  lineBreak depth := '\n' :: List.replicate (2 * depth) ' '
  colon := [':', ' ']

/-- Everything on one line. -/
def tight : Layout where
  lineBreak _ := []
  colon := [':']

end Layout

/-- The digit for a value below sixteen. -/
def hexDigit (n : Nat) : Char := Nat.digitChar n

/-- The form of a character in a string. -/
def escape (c : Char) : List Char :=
  match c with
  | '"' => ['\\', '"']
  | '\\' => ['\\', '\\']
  | '\x08' => ['\\', 'b']
  | '\x0c' => ['\\', 'f']
  | '\n' => ['\\', 'n']
  | '\r' => ['\\', 'r']
  | '\t' => ['\\', 't']
  | c =>
    if c < ' ' then ['\\', 'u', '0', '0', hexDigit (c.toNat / 16), hexDigit (c.toNat % 16)] else [c]

/-- A string in quotes. -/
def quote (s : List Char) : List Char := '"' :: s.flatMap escape ++ ['"']

/-- The form of a text; a string that names none is shown as a replacement character. -/
def printText (t : Text) : List Char := quote (t.elim ['\ufffd'] String.toList)

/-- The digits of an integer, after a minus sign if it is negative. -/
def printInteger : Int → List Char
  | .ofNat n => Nat.toDigits 10 n
  | .negSucc n => '-' :: Nat.toDigits 10 (n + 1)

/-- Entries between brackets, each of which has been written with a comma before it. The first comma
is left out, and so are the line breaks if there is no entry. -/
def enclose (layout : Layout) (depth : Nat) (opening closing : Char) : List Char → List Char
  | [] => [opening, closing]
  | _ :: entries => opening :: entries ++ layout.lineBreak depth ++ [closing]

mutual

/-- Writes a value whose opening bracket, if it has one, stands at the given depth. -/
def print (layout : Layout) (depth : Nat) : Json → List Char
  | null => ['n', 'u', 'l', 'l']
  | bool true => ['t', 'r', 'u', 'e']
  | bool false => ['f', 'a', 'l', 's', 'e']
  | integer n => printInteger n
  | decimal written => written.toList
  | string s => printText s
  | array items => enclose layout depth '[' ']' (printItems layout (depth + 1) items)
  | object members =>
    enclose layout depth '\x7b' '\x7d' (printMembers layout (depth + 1) members)

/-- Writes items with a comma before each. -/
def printItems (layout : Layout) (depth : Nat) : List Json → List Char
  | [] => []
  | item :: rest =>
    ',' :: layout.lineBreak depth ++ print layout depth item ++ printItems layout depth rest

/-- Writes members with a comma before each. -/
def printMembers (layout : Layout) (depth : Nat) : List (Text × Json) → List Char
  | [] => []
  | m :: rest =>
    ',' :: layout.lineBreak depth ++ printMember layout depth m ++ printMembers layout depth rest

/-- Writes a member: its name, a colon and its value. -/
def printMember (layout : Layout) (depth : Nat) : Text × Json → List Char
  | (name, value) => printText name ++ layout.colon ++ print layout depth value

end

/-- The text of a value, spread over lines. -/
def pretty (j : Json) : String := String.ofList (print .lines 0 j)

/-- The text of a value on one line. -/
def compact (j : Json) : String := String.ofList (print .tight 0 j)

end TensorCost.Json
