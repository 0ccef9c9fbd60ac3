import TensorCost.Text.Shapeless

/-!
# Quoted text in diagnostics

A diagnostic shows a string between double quotes, so that its ends can be seen. A quote and a
backslash inside it take a backslash, the usual controls take their letter, and any other character
without a shape of its own is shown by its number.

* `Text.quoted` is the quoted form of a string.
* `Text.hexDigits` writes a number in base sixteen, with small letters and no leading zeros.
-/

namespace TensorCost.Text

/-- A number in base sixteen, without leading zeros. -/
def hexDigits (n : Nat) : String := String.ofList (Nat.toDigits 16 n)

/-- The form of one character inside double quotes. -/
def quotedChar (c : Char) : String :=
  match c with
  | '"' => "\\\""
  | '\\' => "\\\\"
  | '\n' => "\\n"
  | '\r' => "\\r"
  | '\t' => "\\t"
  | '\x00' => "\\0"
  | c => if shapeless c then "\\u\x7b" ++ hexDigits c.toNat ++ "\x7d" else c.toString

/-- A string between double quotes. -/
def quoted (s : String) : String :=
  "\"" ++ String.join (s.toList.map quotedChar) ++ "\""

end TensorCost.Text
