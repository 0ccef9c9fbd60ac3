import TensorCost.Yaml.Basic

/-!
# Reading scalars in blocks of lines

A block begins with a header and goes on over the lines below it that are indented as deep as its
first line, or as the header says.

* `Yaml.BlockHeader.read?` reads the header, and `Yaml.BlockHeader.indent?` tells from it and from
  the lines how deep these are indented.
* `Yaml.unindent` takes the indentation from the lines.
* `Yaml.foldLines` joins lines that are folded: those that are not indented deeper than the others.
* `Yaml.Ending.apply` says which line breaks at the end belong to the text.
* `Yaml.readBlock` reads a block.
-/

namespace TensorCost.Yaml

/-- Which line breaks at the end of a block belong to its text: none, the first, or all of them. -/
inductive Ending
  | strip | clip | keep
  deriving DecidableEq, Repr

/-- The ending that a sign in a header stands for. -/
def Ending.ofChar? : Char → Option Ending
  | '-' => some .strip
  | '+' => some .keep
  | _ => none

/-- The depth that a digit in a header stands for. -/
def depthOfChar? (c : Char) : Option Nat :=
  if '1' ≤ c ∧ c ≤ '9' then some (c.toNat - '0'.toNat) else none

/-- What the header of a block says. -/
structure BlockHeader where
  ending : Ending
  /-- How much deeper than the mapping around it the block is indented; if this is left out, the
  first line shows it. -/
  depth : Option Nat

/-- Reads the rest of a header after the mark of its style: a sign and a digit, both of which may be
left out, in any order, and the end of the line. -/
def BlockHeader.read? (s : List Char) : Option (BlockHeader × List Char) :=
  let ending := match s with
    | a :: b :: _ => Ending.ofChar? a <|> ((depthOfChar? a).bind fun _ => Ending.ofChar? b)
    | a :: [] => Ending.ofChar? a
    | [] => none
  let depth := match s with
    | a :: b :: _ => depthOfChar? a <|> ((Ending.ofChar? a).bind fun _ => depthOfChar? b)
    | a :: [] => depthOfChar? a
    | [] => none
  let rest := s.drop (ending.toList.length + depth.toList.length)
  (endLine? rest).map fun body => (⟨ending.getD .clip, depth⟩, body)

/-- How many blanks the deepest begins with of the lines up to the first that holds a text. A tab
is no indentation, and is refused where the text begins. -/
def deepestStart (column : Nat) : List Char → Option Nat
  | [] => some column
  | c :: rest =>
    if c == ' ' then deepestStart (column + 1) rest
    else if c == '\t' then none
    else if isBreak c then (deepestStart 0 rest).map (max column)
    else some column

/-- The lines that are indented by `indent` blanks, without these, and what follows. Lines that hold
nothing else may be indented less; `column` tells how many blanks have been passed. -/
def unindent (indent : Nat) : (column : Nat) → (s : List Char) → Option (List Char × List Char)
  | _, [] => some ([], [])
  | column, c :: rest =>
    if isBreak c then (unindent indent 0 rest).map fun r => (c :: r.1, r.2)
    else if indent ≤ column then (unindent indent column rest).map fun r => (c :: r.1, r.2)
    else if c == ' ' then unindent indent (column + 1) rest
    else if c == '\t' then none
    else some ([], c :: rest)

theorem length_unindent_le {indent column : Nat} {s text rest : List Char}
    (h : unindent indent column s = some (text, rest)) : rest.length ≤ s.length := by
  fun_induction unindent indent column s generalizing text with
  | case1 =>
    cases h
    exact Nat.le_refl _
  | case2 _ _ _ _ ih | case3 _ _ _ _ _ ih =>
    obtain ⟨r, hr, he⟩ := Option.map_eq_some_iff.1 h
    cases he
    exact Nat.le_succ_of_le (ih hr)
  | case4 _ _ _ _ _ _ ih => exact Nat.le_succ_of_le (ih h)
  | case5 => contradiction
  | case6 =>
    cases h
    exact Nat.le_refl _

/-- Folds lines. `gap` holds the line breaks before the line that comes next, and `indented` says
whether the line before them begins with a blank: around such a line, all line breaks are kept. -/
def foldLines (indented : Bool) (gap : List Char) : List Char → List Char
  | [] => gap
  | c :: rest =>
    if isBreak c then foldLines indented (gap ++ [c]) rest
    else if gap.isEmpty then c :: foldLines indented [] rest
    else (if indented || isBlank c then gap else foldGap gap) ++ c :: foldLines (isBlank c) [] rest

/-- The text of a block with lines that are folded. The line breaks before its first line are
kept. -/
def foldBlock (s : List Char) : List Char :=
  let body := s.dropWhile isBreak
  s.takeWhile isBreak ++ foldLines (body.head?.any isBlank) [] body

/-- A text, apart from the line breaks at its end. -/
def dropBreaks (s : List Char) : List Char := (s.reverse.dropWhile isBreak).reverse

/-- The line breaks at the end of a block that belong to its text. A block without any other text
has no first line that could end. -/
def Ending.apply (ending : Ending) (s : List Char) : List Char :=
  let breaks := s.drop (dropBreaks s).length
  match ending with
  | .strip => []
  | .clip => if (dropBreaks s).isEmpty then [] else breaks.take 1
  | .keep => breaks

/-- How many blanks the lines of a block begin with; `block` is the column of the mapping around
it. -/
def BlockHeader.indent? (header : BlockHeader) (block : Option Nat) (body : List Char) :
    Option Nat :=
  match header.depth with
  | some depth => some (block.getD 0 + depth)
  | none => (deepestStart 0 body).map fun n => max n (max 1 (block.elim 0 (· + 1)))

/-- The text of a block after the mark of its style, and what follows it. -/
def readBlock (folded : Bool) (block : Option Nat) (s : List Char) :
    Option (List Char × List Char) := do
  let (header, body) ← BlockHeader.read? s
  let indent ← header.indent? block body
  let (lines, rest) ← unindent indent 0 body
  let text := dropBreaks lines
  return ((if folded then foldBlock text else text) ++ header.ending.apply lines, rest)

theorem length_readBlock_le {folded : Bool} {block : Option Nat} {s text rest : List Char}
    (h : readBlock folded block s = some (text, rest)) : rest.length ≤ s.length := by
  simp only [readBlock, Option.bind_eq_bind, Option.bind_eq_some_iff, Option.pure_def,
    Option.some.injEq, Prod.mk.injEq, Prod.exists] at h
  obtain ⟨header, body, h₁, _, _, lines, rest', h₂, _, rfl⟩ := h
  have h₃ := length_unindent_le h₂
  simp only [BlockHeader.read?, Option.map_eq_some_iff, Prod.mk.injEq] at h₁
  obtain ⟨_, h₄, _, rfl⟩ := h₁
  have h₅ := length_endLine?_le h₄
  simp only [List.length_drop] at h₅
  omega

end TensorCost.Yaml
