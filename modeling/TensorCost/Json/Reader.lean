import TensorCost.Json.Basic

/-!
# Reading JSON

* `Json.parse?` reads a text that is one JSON value, with blanks around it.
* `Json.readValue` reads a value at the start of a text and gives what is left. It is stated on
  lists of characters; what it gives comes with a proof that the rest is shorter, on which the
  recursion over nested values rests.
* A string is read in two steps: `Json.readPieces` takes its characters and escapes apart, and
  `Json.joinPieces` joins surrogate pairs.
-/

namespace TensorCost.Json

/-- Something read at the start of `s`, and what is left. -/
structure Read (α : Type) (s : List Char) where
  value : α
  rest : List Char
  shorter : rest.length < s.length

/-- The blanks between tokens. -/
def isBlank (c : Char) : Bool := c == ' ' || c == '\t' || c == '\n' || c == '\r'

/-- What is left after leading blanks. -/
def skipBlanks (s : List Char) : List Char := s.dropWhile isBlank

theorem length_skipBlanks_le (s : List Char) : (skipBlanks s).length ≤ s.length :=
  (List.dropWhile_suffix isBlank).length_le

/-! ## Strings -/

/-- The value of a digit in base sixteen, of either case. -/
def hexValue? (c : Char) : Option Nat :=
  if c.isDigit then some (c.toNat - '0'.toNat)
  else if 'a' ≤ c ∧ c ≤ 'f' then some (c.toNat - 'a'.toNat + 10)
  else if 'A' ≤ c ∧ c ≤ 'F' then some (c.toNat - 'A'.toNat + 10)
  else none

/-- The number that digits in base sixteen write. -/
def hexNumber? (digits : List Char) : Option Nat :=
  digits.foldlM (fun n c => (hexValue? c).map (16 * n + ·)) 0

/-- The character that a backslash and a letter stand for. -/
def simpleEscape? : Char → Option Char
  | '"' => some '"'
  | '\\' => some '\\'
  | '/' => some '/'
  | 'b' => some '\x08'
  | 'f' => some '\x0c'
  | 'n' => some '\n'
  | 'r' => some '\r'
  | 't' => some '\t'
  | _ => none

/-- A part of a string: a character, or a unit of 16 bits that an escape names by its number. -/
inductive Piece
  | char (c : Char)
  | unit (u : Nat)
  deriving DecidableEq, Repr

/-- The pieces of a string after its opening quote, and what is left after its closing one. -/
def readPieces : List Char → Option (List Piece × List Char)
  | [] => none
  | '"' :: rest => some ([], rest)
  | '\\' :: 'u' :: a :: b :: c :: d :: rest => do
    let u ← hexNumber? [a, b, c, d]
    let (pieces, rest') ← readPieces rest
    return (.unit u :: pieces, rest')
  | '\\' :: c :: rest => do
    let e ← simpleEscape? c
    let (pieces, rest') ← readPieces rest
    return (.char e :: pieces, rest')
  | c :: rest =>
    if c < ' ' then none
    else do
      let (pieces, rest') ← readPieces rest
      return (.char c :: pieces, rest')

/-- Whether a unit is the first half of a surrogate pair. -/
def isHighHalf (u : Nat) : Bool := 0xd800 ≤ u && u < 0xdc00

/-- Whether a unit is the second half of a surrogate pair. -/
def isLowHalf (u : Nat) : Bool := 0xdc00 ≤ u && u < 0xe000

/-- The characters that pieces name: two halves of a surrogate pair are one character, and half of a
pair alone is none. -/
def joinPieces : List Piece → Option (List Char)
  | [] => some []
  | .char c :: rest => (joinPieces rest).map (c :: ·)
  | .unit u :: .unit v :: rest =>
    if isHighHalf u then
      if isLowHalf v then
        (joinPieces rest).map (Char.ofNat (0x10000 + (u - 0xd800) * 0x400 + (v - 0xdc00)) :: ·)
      else none
    else if isLowHalf u then none
    else (joinPieces (.unit v :: rest)).map (Char.ofNat u :: ·)
  | .unit u :: rest =>
    if isHighHalf u || isLowHalf u then none else (joinPieces rest).map (Char.ofNat u :: ·)

/-- The text that pieces name. -/
def textOfPieces (pieces : List Piece) : Text := (joinPieces pieces).map String.ofList

theorem length_readPieces_lt {s rest : List Char} {pieces : List Piece}
    (h : readPieces s = some (pieces, rest)) : rest.length < s.length := by
  fun_induction readPieces s generalizing pieces rest with
  | case1 => simp at h
  | case2 r =>
    obtain ⟨-, rfl⟩ := by simpa using h
    simp
  | case3 a b c d r ih =>
    simp only [Option.bind_eq_bind, Option.bind_eq_some_iff, Option.pure_def, Option.some.injEq,
      Prod.mk.injEq] at h
    obtain ⟨u, -, ⟨ps, r'⟩, hr, -, hrest⟩ := h
    have := ih hr
    subst hrest
    simp only [List.length_cons]
    omega
  | case4 c r _ ih =>
    simp only [Option.bind_eq_bind, Option.bind_eq_some_iff, Option.pure_def, Option.some.injEq,
      Prod.mk.injEq] at h
    obtain ⟨e, -, ⟨ps, r'⟩, hr, -, hrest⟩ := h
    have := ih hr
    subst hrest
    simp only [List.length_cons]
    omega
  | case5 => simp at h
  | case6 c r _ _ _ _ ih =>
    simp only [Option.bind_eq_bind, Option.bind_eq_some_iff, Option.pure_def, Option.some.injEq,
      Prod.mk.injEq] at h
    obtain ⟨⟨ps, r'⟩, hr, -, hrest⟩ := h
    have := ih hr
    subst hrest
    simp only [List.length_cons]
    omega

/-- The string after an opening quote. -/
def readString (s : List Char) : Option (Read Text s) :=
  match h : readPieces s with
  | some (pieces, rest) => some ⟨textOfPieces pieces, rest, length_readPieces_lt h⟩
  | none => none

/-! ## Numbers -/

/-- The characters that numbers are written with. -/
def isNumberChar (c : Char) : Bool :=
  c.isDigit || c == '-' || c == '+' || c == '.' || c == 'e' || c == 'E'

/-- Whether `s` consists of digits, at least one. -/
def isDigits (s : List Char) : Bool := !s.isEmpty && s.all Char.isDigit

/-- Whether `s` is an exponent, or nothing. -/
def isExponent (s : List Char) : Bool :=
  match s with
  | [] => true
  | e :: '+' :: digits => (e == 'e' || e == 'E') && isDigits digits
  | e :: '-' :: digits => (e == 'e' || e == 'E') && isDigits digits
  | e :: digits => (e == 'e' || e == 'E') && isDigits digits

/-- Whether `s` is a fraction and an exponent, either of which may be left out. -/
def isTail (s : List Char) : Bool :=
  match s with
  | '.' :: rest =>
    !(rest.takeWhile Char.isDigit).isEmpty && isExponent (rest.dropWhile Char.isDigit)
  | _ => isExponent s

/-- Whether `s` writes a whole number: digits, and no others after a leading zero. -/
def isWhole (s : List Char) : Bool := isDigits s && (s.head? != some '0' || s == ['0'])

/-- The number that `s` writes without a sign. -/
def unsignedNumber? (negative : Bool) (s : List Char) : Option Json :=
  let whole := s.takeWhile Char.isDigit
  let tail := s.dropWhile Char.isDigit
  let n := Nat.ofDigitChars 10 whole 0
  if !isWhole whole || !isTail tail then none
  else if tail.isEmpty && !(negative && n == 0) then
    some (integer (if negative then -(n : Int) else n))
  else some (decimal (String.ofList (if negative then '-' :: s else s)))

/-- The number that `s` writes. -/
def number? (s : List Char) : Option Json :=
  match s with
  | '-' :: rest => unsignedNumber? true rest
  | _ => unsignedNumber? false s

/-- A number at the start of a text. -/
def readNumber (s : List Char) : Option (Read Json s) :=
  if h : s.takeWhile isNumberChar = [] then none
  else (number? (s.takeWhile isNumberChar)).map fun j =>
    ⟨j, s.dropWhile isNumberChar, by
      have := congrArg List.length (List.takeWhile_append_dropWhile (p := isNumberChar) (l := s))
      have := List.length_pos_iff.2 h
      rw [List.length_append] at *
      omega⟩

/-! ## Values -/

/-- What follows an item of an array or a member of an object. -/
inductive Separator (close : Char) (s : List Char)
  /-- A comma: another item follows. -/
  | more (rest : List Char) (shorter : rest.length < s.length)
  /-- The closing bracket. -/
  | last (rest : List Char) (shorter : rest.length < s.length)

/-- The first character of a text after blanks. -/
def readChar (s : List Char) : Option (Read Char s) :=
  match h : skipBlanks s with
  | c :: rest =>
    some ⟨c, rest, by
      have := length_skipBlanks_le s
      rwa [h] at this⟩
  | [] => none

/-- The comma or the closing bracket at the start of a text, after blanks. -/
def readSeparator (close : Char) (s : List Char) : Option (Separator close s) := do
  let first ← readChar s
  if first.value == ',' then some (.more first.rest first.shorter)
  else if first.value == close then some (.last first.rest first.shorter)
  else none

/-- A fixed text at the start of `s`, which is not empty. -/
def readWord (word : List Char) (hword : 0 < word.length) (value : Json) (s : List Char) :
    Option (Read Json s) :=
  if h : word <+: s then
    some ⟨value, s.drop word.length, by
      have := h.length_le
      simp only [List.length_drop]
      omega⟩
  else none

/-- The name of a member and the colon after it, after blanks. -/
def readName (s : List Char) : Option (Read Text s) := do
  let quote ← readChar s
  if quote.value == '"' then
    let name ← readString quote.rest
    let colon ← readChar name.rest
    if colon.value == ':' then
      some ⟨name.value, colon.rest,
        Nat.lt_trans colon.shorter (Nat.lt_trans name.shorter quote.shorter)⟩
    else none
  else none

/-- What was read after `s` had been shortened to `t`. -/
def Read.ofShorter {α : Type} {s t : List Char} (h : t.length ≤ s.length) (r : Read α t) :
    Read α s :=
  ⟨r.value, r.rest, Nat.lt_of_lt_of_le r.shorter h⟩

mutual

/-- A value at the start of a text, after blanks. -/
def readValue (s : List Char) : Option (Read Json s) := do
  let ⟨c, rest, hlt⟩ ← readChar s
  have hle : rest.length ≤ s.length := Nat.le_of_lt hlt
  match c with
  | '"' => do
    let text ← readString rest
    return .ofShorter hle { text with value := string text.value }
  | '[' =>
    match readSeparator ']' rest with
    | some (.last rest' hlt') => some ⟨array [], rest', Nat.lt_trans hlt' hlt⟩
    | _ => do
      let items ← readItems rest
      return .ofShorter hle { items with value := array items.value }
  | '\x7b' =>
    match readSeparator '\x7d' rest with
    | some (.last rest' hlt') => some ⟨object [], rest', Nat.lt_trans hlt' hlt⟩
    | _ => do
      let members ← readMembers rest
      return .ofShorter hle { members with value := object members.value }
  | 'n' => (readWord ['u', 'l', 'l'] (by decide) null rest).map (.ofShorter hle)
  | 't' => (readWord ['r', 'u', 'e'] (by decide) (bool true) rest).map (.ofShorter hle)
  | 'f' => (readWord ['a', 'l', 's', 'e'] (by decide) (bool false) rest).map (.ofShorter hle)
  | d =>
    have hd : (d :: rest).length ≤ s.length := hlt
    (readNumber (d :: rest)).map (.ofShorter hd)
termination_by (s.length, 0)

/-- The items of an array up to its closing bracket; there is at least one. -/
def readItems (s : List Char) : Option (Read (List Json) s) := do
  let item ← readValue s
  match ← readSeparator ']' item.rest with
  | .last rest hlt => some ⟨[item.value], rest, Nat.lt_trans hlt item.shorter⟩
  | .more rest hlt =>
    have hlt' : rest.length < s.length := Nat.lt_trans hlt item.shorter
    let items ← readItems rest
    return .ofShorter (Nat.le_of_lt hlt') { items with value := item.value :: items.value }
termination_by (s.length, 1)

/-- The members of an object up to its closing bracket; there is at least one. -/
def readMembers (s : List Char) : Option (Read (List (Text × Json)) s) := do
  let name ← readName s
  have hname := name.shorter
  let item ← readValue name.rest
  match ← readSeparator '\x7d' item.rest with
  | .last rest hlt =>
    some ⟨[(name.value, item.value)], rest, Nat.lt_trans hlt (Nat.lt_trans item.shorter hname)⟩
  | .more rest hlt =>
    have hlt' : rest.length < s.length := Nat.lt_trans hlt (Nat.lt_trans item.shorter hname)
    let members ← readMembers rest
    return .ofShorter (Nat.le_of_lt hlt')
      { members with value := (name.value, item.value) :: members.value }
termination_by (s.length, 1)

end

/-- The value that a text writes, if it writes exactly one. -/
def parse? (text : String) : Option Json := do
  let r ← readValue text.toList
  if (skipBlanks r.rest).isEmpty then some r.value else none

end TensorCost.Json
