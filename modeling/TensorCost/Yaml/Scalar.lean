import TensorCost.Json.Reader
import TensorCost.Yaml.Basic

/-!
# Reading scalars on a line

Scalars that are plain or in quotes. They may go on over more lines, which are then folded.

* `Yaml.readPlain` reads a plain scalar. It ends before a colon or a number sign that is set off by
  a blank, at the end of its block, and in flow style before a bracket or a comma.
* `Yaml.scanSingle` and `Yaml.scanDouble` take the text between quotes apart and `Yaml.joinPieces`
  folds its lines.
* `Yaml.readSingle` and `Yaml.readDouble` read the text after an opening quote.
-/

namespace TensorCost.Yaml

/-! ## Scalars without quotes -/

/-- Whether a scalar without quotes can begin with this text. -/
def startsPlain (flow : Bool) : List Char → Bool
  | [] => false
  | c :: rest =>
    if c == '-' then !isGapOrEnd rest
    else if c == '?' || c == ':' then !flow && !isGapOrEnd rest
    else !(isBlank c || isBreak c || c ∈ [',', '[', ']', '\x7b', '\x7d', '#', '&', '*', '!', '|',
      '>', '\'', '"', '%', '@', '\x60'])

/-- Whether `c` has a meaning of its own between the brackets of flow style. -/
def isFlowMark (c : Char) : Bool := c ∈ [',', '[', ']', '\x7b', '\x7d']

/-- Whether a scalar without quotes ends after the gap, before a text that starts with `c`. In block
style its lines stand at column `indent` at least. -/
def endsPlain (flow : Bool) (indent : Nat) (gap : List Char) (c : Char) (rest : List Char) : Bool :=
  (gap.any isBreak && ((!flow && columnAfter gap < indent)
      || (columnAfter gap == 0 && isMarker (c :: rest))))
    || (c == '#' && !gap.isEmpty)
    || (c == ':' && isGapOrEnd rest)
    || (flow && isFlowMark c)

/-- A scalar without quotes, taken apart. -/
structure PlainText where
  text : List Char
  /-- The gap between the scalar and what follows. -/
  gap : List Char
  rest : List Char

/-- Reads on in a scalar without quotes; `gap` is what separates it from the word that comes next. A
tab before the column `indent` of a new line is refused, and so is, in flow style, a colon that
touches a mark. -/
def readPlain (flow : Bool) (indent : Nat) : (gap s : List Char) → Option PlainText
  | gap, [] => some ⟨[], gap, []⟩
  | gap, c :: rest =>
    if isBlank c || isBreak c then
      if c == '\t' && gap.any isBreak && columnAfter gap < indent then none
      else readPlain flow indent (gap ++ [c]) rest
    else if endsPlain flow indent gap c rest then some ⟨[], gap, c :: rest⟩
    else if flow && c == ':' && (rest.head?.any fun d => d == '?' || isFlowMark d) then none
    else (readPlain flow indent [] rest).map fun t => { t with text := foldGap gap ++ c :: t.text }

theorem length_readPlain_le {flow : Bool} {indent : Nat} {gap s : List Char} {t : PlainText}
    (h : readPlain flow indent gap s = some t) : t.rest.length ≤ s.length := by
  fun_induction readPlain flow indent gap s generalizing t with
  | case1 =>
    obtain rfl := Option.some.inj h
    exact Nat.le_refl _
  | case2 => contradiction
  | case3 _ _ _ _ _ ih => exact Nat.le_succ_of_le (ih h)
  | case4 =>
    obtain rfl := Option.some.inj h
    exact Nat.le_refl _
  | case5 => contradiction
  | case6 _ _ _ _ _ _ ih =>
    obtain ⟨u, hu, rfl⟩ := Option.map_eq_some_iff.1 h
    exact Nat.le_succ_of_le (ih (t := u) hu)

/-! ## Scalars in quotes -/

/-- A part of a text in quotes. -/
inductive Piece
  /-- A character that stands for itself or is named by an escape. -/
  | char (c : Char)
  /-- A blank or a line break. -/
  | space (c : Char)
  /-- A line break that is escaped: the lines join without a blank. -/
  | join
  deriving DecidableEq, Repr

/-- Takes the text after a single quote apart, up to the closing one; two quotes stand for one. No
mark that starts or ends a document may begin a line. -/
def scanSingle (lineStart : Bool) : List Char → Option (List Piece × List Char)
  | [] => none
  | '\'' :: '\'' :: rest => do
    let (pieces, rest') ← scanSingle false rest
    return (.char '\'' :: pieces, rest')
  | '\'' :: rest => some ([], rest)
  | c :: rest =>
    if isBlank c || isBreak c then do
      let (pieces, rest') ← scanSingle (isBreak c) rest
      return (.space c :: pieces, rest')
    else if lineStart && isMarker (c :: rest) then none
    else do
      let (pieces, rest') ← scanSingle false rest
      return (.char c :: pieces, rest')

/-- The character that a backslash and a letter stand for. -/
def escaped? : Char → Option Char
  | '0' => some '\x00'
  | 'a' => some '\x07'
  | 'b' => some '\x08'
  | 't' => some '\t'
  | '\t' => some '\t'
  | 'n' => some '\n'
  | 'v' => some '\x0b'
  | 'f' => some '\x0c'
  | 'r' => some '\r'
  | 'e' => some '\x1b'
  | ' ' => some ' '
  | '"' => some '"'
  | '/' => some '/'
  | '\\' => some '\\'
  | 'N' => some '\u0085'
  | '_' => some '\u00a0'
  | 'L' => some '\u2028'
  | 'P' => some '\u2029'
  | _ => none

/-- The character with the number that digits in base sixteen write. -/
def charOfHex? (digits : List Char) : Option Char := do
  let n ← Json.hexNumber? digits
  if n.isValidChar then some (Char.ofNat n) else none

/-- Takes the text after a double quote apart, up to the closing one. -/
def scanDouble (lineStart : Bool) : List Char → Option (List Piece × List Char)
  | [] => none
  | '"' :: rest => some ([], rest)
  | '\\' :: 'x' :: a :: b :: rest => do
    let c ← charOfHex? [a, b]
    let (pieces, rest') ← scanDouble false rest
    return (.char c :: pieces, rest')
  | '\\' :: 'u' :: a :: b :: c :: d :: rest => do
    let c ← charOfHex? [a, b, c, d]
    let (pieces, rest') ← scanDouble false rest
    return (.char c :: pieces, rest')
  | '\\' :: 'U' :: a :: b :: c :: d :: e :: f :: g :: h :: rest => do
    let c ← charOfHex? [a, b, c, d, e, f, g, h]
    let (pieces, rest') ← scanDouble false rest
    return (.char c :: pieces, rest')
  | '\\' :: c :: rest =>
    if isBreak c then do
      let (pieces, rest') ← scanDouble true rest
      return (.join :: pieces, rest')
    else do
      let e ← escaped? c
      let (pieces, rest') ← scanDouble false rest
      return (.char e :: pieces, rest')
  | c :: rest =>
    if isBlank c || isBreak c then do
      let (pieces, rest') ← scanDouble (isBreak c) rest
      return (.space c :: pieces, rest')
    else if lineStart && isMarker (c :: rest) then none
    else do
      let (pieces, rest') ← scanDouble false rest
      return (.char c :: pieces, rest')

/-- The text that a gap between quotes stands for; `joined` tells that it begins with an escaped
line break, of which nothing is left. -/
def quotedGap (joined : Bool) (gap : List Char) : List Char :=
  if joined then gap.filter isBreak else foldGap gap

/-- The text that pieces stand for, after a gap. -/
def joinPieces (joined : Bool) (gap : List Char) : List Piece → List Char
  | [] => quotedGap joined gap
  | .space c :: rest => joinPieces joined (gap ++ [c]) rest
  | .join :: rest => quotedGap joined gap ++ joinPieces true [] rest
  | .char c :: rest => quotedGap joined gap ++ c :: joinPieces false [] rest

/-- A text that is read with a piece before it ends where it does without. -/
theorem exists_of_cons {x : Piece} {o : Option (List Piece × List Char)} {xs : List Piece}
    {rest : List Char} (h : (do let (ys, r) ← o; return (x :: ys, r)) = some (xs, rest)) :
    ∃ ys, o = some (ys, rest) := by
  obtain ⟨⟨ys, r⟩, ho, he⟩ := Option.bind_eq_some_iff.1 h
  cases he
  exact ⟨ys, ho⟩

theorem length_scanSingle_le {lineStart : Bool} {s rest : List Char} {pieces : List Piece}
    (h : scanSingle lineStart s = some (pieces, rest)) : rest.length ≤ s.length := by
  fun_induction scanSingle lineStart s generalizing pieces with
  | case1 => contradiction
  | case2 _ _ ih =>
    obtain ⟨ps, hps⟩ := exists_of_cons h
    exact Nat.le_succ_of_le (Nat.le_succ_of_le (ih hps))
  | case3 =>
    cases h
    exact Nat.le_succ _
  | case4 _ _ _ _ _ _ ih =>
    obtain ⟨ps, hps⟩ := exists_of_cons h
    exact Nat.le_succ_of_le (ih hps)
  | case5 => contradiction
  | case6 _ _ _ _ _ _ _ ih =>
    obtain ⟨ps, hps⟩ := exists_of_cons h
    exact Nat.le_succ_of_le (ih hps)

theorem length_scanDouble_le {lineStart : Bool} {s rest : List Char} {pieces : List Piece}
    (h : scanDouble lineStart s = some (pieces, rest)) : rest.length ≤ s.length := by
  fun_induction scanDouble lineStart s generalizing pieces with
  | case1 => contradiction
  | case2 =>
    cases h
    exact Nat.le_succ _
  | case3 _ _ _ _ ih =>
    obtain ⟨_, -, h⟩ := Option.bind_eq_some_iff.1 h
    obtain ⟨ps, hps⟩ := exists_of_cons h
    exact Nat.le_trans (ih hps) (Nat.le_add_right _ 4)
  | case4 _ _ _ _ _ _ ih =>
    obtain ⟨_, -, h⟩ := Option.bind_eq_some_iff.1 h
    obtain ⟨ps, hps⟩ := exists_of_cons h
    exact Nat.le_trans (ih hps) (Nat.le_add_right _ 6)
  | case5 _ _ _ _ _ _ _ _ _ _ ih =>
    obtain ⟨_, -, h⟩ := Option.bind_eq_some_iff.1 h
    obtain ⟨ps, hps⟩ := exists_of_cons h
    exact Nat.le_trans (ih hps) (Nat.le_add_right _ 10)
  | case6 _ _ _ _ _ _ _ ih =>
    obtain ⟨ps, hps⟩ := exists_of_cons h
    exact Nat.le_trans (ih hps) (Nat.le_add_right _ 2)
  | case7 _ _ _ _ _ _ _ ih =>
    obtain ⟨_, -, h⟩ := Option.bind_eq_some_iff.1 h
    obtain ⟨ps, hps⟩ := exists_of_cons h
    exact Nat.le_trans (ih hps) (Nat.le_add_right _ 2)
  | case8 _ _ _ _ _ _ _ _ _ ih =>
    obtain ⟨ps, hps⟩ := exists_of_cons h
    exact Nat.le_succ_of_le (ih hps)
  | case9 => contradiction
  | case10 _ _ _ _ _ _ _ _ _ _ ih =>
    obtain ⟨ps, hps⟩ := exists_of_cons h
    exact Nat.le_succ_of_le (ih hps)

/-- The text after a single quote, and what follows the closing one. -/
def readSingle (s : List Char) : Option (List Char × List Char) :=
  (scanSingle false s).map fun r => (joinPieces false [] r.1, r.2)

/-- The text after a double quote, and what follows the closing one. -/
def readDouble (s : List Char) : Option (List Char × List Char) :=
  (scanDouble false s).map fun r => (joinPieces false [] r.1, r.2)

theorem length_readSingle_le {s text rest : List Char} (h : readSingle s = some (text, rest)) :
    rest.length ≤ s.length := by
  obtain ⟨r, hr, he⟩ := Option.map_eq_some_iff.1 h
  cases he
  exact length_scanSingle_le hr

theorem length_readDouble_le {s text rest : List Char} (h : readDouble s = some (text, rest)) :
    rest.length ≤ s.length := by
  obtain ⟨r, hr, he⟩ := Option.map_eq_some_iff.1 h
  cases he
  exact length_scanDouble_le hr

end TensorCost.Yaml
