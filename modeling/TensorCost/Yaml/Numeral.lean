import TensorCost.Json.Reader

/-!
# Texts that read as numbers

A text without quotes may be taken for a number by whoever reads it.

* `Yaml.natural?` reads a count that is written without quotes.
* `Yaml.readsAsNumber` tells which texts are numbers to a reader that knows integers of 128 bits and
  binary floating point numbers of 64 bits, and so have to be quoted where they are meant as text.
-/

namespace TensorCost.Yaml

/-- The number that digits of the given base write; there has to be one. -/
def digits? (base : Nat) (s : List Char) : Option Nat :=
  if s.isEmpty then none
  else s.foldlM (fun n c => do
    let d ← Json.hexValue? c
    if d < base then some (base * n + d) else none) 0

/-- Digits after the mark of their base. -/
def radixDigits? : List Char → Option Nat
  | '0' :: 'x' :: rest => digits? 16 rest
  | '0' :: 'o' :: rest => digits? 8 rest
  | '0' :: 'b' :: rest => digits? 2 rest
  | _ => none

/-- A text without its plus sign. -/
def dropPlus : List Char → List Char
  | '+' :: rest => rest
  | s => s

/-- Whether a text consists of digits that begin with a superfluous zero, after a sign or none. -/
def isPadded (s : List Char) : Bool :=
  let digits := match s with
    | '+' :: rest => rest
    | '-' :: rest => rest
    | _ => s
  digits.length > 1 && digits.head? == some '0' && digits.all Char.isDigit

/-- The count that a text writes: in base ten without superfluous zeros, or after `0x`, `0o` or `0b`
in the base that it marks. A plus sign may stand before. -/
def natural? (s : List Char) : Option Nat :=
  match radixDigits? (dropPlus s) with
  | some n => some n
  | none => if isPadded s then none else digits? 10 (dropPlus s)

/-- Whether a text writes an integer of at most 128 bits in a base that it marks. -/
def isRadixInteger (s : List Char) : Bool :=
  match s with
  | '-' :: rest => (radixDigits? rest).any fun n => n ≤ 1 <<< 127
  | _ => (radixDigits? (dropPlus s)).any fun n => n < 1 <<< 128

/-- Whether `mantissa` times this power of ten rounds to a finite binary number of 64 bits: whether
it lies below the middle between the greatest of these and the power of two that would follow it. -/
def isFinite (mantissa : Nat) (exponent : Int) : Bool :=
  let bound := (1 <<< 1024) - (1 <<< 970)
  let magnitude := (Nat.toDigits 10 mantissa).length + exponent
  if mantissa == 0 || magnitude ≤ 308 then true
  else if magnitude > 309 then false
  else match exponent with
    | .ofNat e => mantissa * Nat.pow 10 e < bound
    | .negSucc e => mantissa < bound * Nat.pow 10 (e + 1)

/-- The exponent at the end of a decimal number, zero if nothing is written. -/
def exponent? : List Char → Option Int
  | [] => some 0
  | e :: rest =>
    if e == 'e' || e == 'E' then
      match rest with
      | '-' :: digits => (digits? 10 digits).map fun n => -(n : Int)
      | digits => (digits? 10 (dropPlus digits)).map Int.ofNat
    else none

/-- Whether a text writes a decimal number that rounds to a finite binary one: digits, of which
there has to be one, with a point among or beside them or none, and an exponent or none. -/
def isFiniteDecimal (s : List Char) : Bool :=
  let unsigned := match s with
    | '-' :: rest => rest
    | _ => s
  let whole := unsigned.takeWhile Char.isDigit
  let afterWhole := unsigned.dropWhile Char.isDigit
  let (fraction, tail) := match afterWhole with
    | '.' :: rest => (rest.takeWhile Char.isDigit, rest.dropWhile Char.isDigit)
    | _ => ([], afterWhole)
  match digits? 10 (whole ++ fraction), exponent? tail with
  | some mantissa, some e => isFinite mantissa (e - fraction.length)
  | _, _ => false

/-- The words for infinity and for what is not a number. -/
def isSpecialNumber (s : String) : Bool :=
  s ∈ [".inf", ".Inf", ".INF", "+.inf", "+.Inf", "+.INF", "-.inf", "-.Inf", "-.INF", ".nan", ".NaN",
    ".NAN"]

/-- Whether a text reads as a number, or as digits with superfluous zeros. -/
def readsAsNumber (s : String) : Bool :=
  let cs := s.toList
  isSpecialNumber s || isPadded cs || isRadixInteger cs
    || match cs with
      | '+' :: '-' :: _ => false
      | '+' :: '+' :: _ => false
      | _ => isFiniteDecimal (dropPlus cs)

end TensorCost.Yaml
