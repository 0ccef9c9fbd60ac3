import TensorCost.Yaml.Token

/-!
# The layout of a document

Indentation says where mappings in block style begin and end, and a colon says that what stands
before it is a key. The layout of the text that has been read knows the mappings that are open, and
the places where keys may have begun; with each token it moves on.

* `Yaml.Layout` is the layout and the tokens so far.
* `Yaml.Layout.push?` moves on over a token.
* `Yaml.tokens?` lists the tokens of a text, with the marks that its layout implies.
-/

namespace TensorCost.Yaml

/-- A place where a key may begin; a colon after it tells that it does. -/
structure Candidate where
  place : Place
  /-- How many tokens stand before it. -/
  index : Nat
  /-- Whether nothing but a key can begin here. -/
  required : Bool
  deriving DecidableEq, Repr

/-- The greatest distance from the start of a key to its colon. -/
def maxKeyLength : Nat := 1024

/-- Whether a colon at `p` comes too late: on another line, or too far from the start of the key. -/
def Candidate.isPassed (k : Candidate) (p : Place) : Bool :=
  k.place.line < p.line || k.place.column + maxKeyLength < p.column

/-- What the text so far says about what comes next. -/
structure Layout where
  tokens : Array Token.Written
  /-- The columns of the open mappings in block style, the innermost first. -/
  blocks : List Nat
  /-- Where the entry that is open may begin with a key. -/
  candidate : Option Candidate
  /-- The same for each pair of braces that is open, seen from outside, the innermost first. -/
  outer : List (Option Candidate)
  /-- Whether a key may begin here. -/
  keyAllowed : Bool

namespace Layout

/-- The layout before any text. -/
def start : Layout := ⟨#[], [], none, [], true⟩

/-- Whether braces are open. -/
def inFlow (l : Layout) : Bool := !l.outer.isEmpty

/-- Appends a token. -/
def add (l : Layout) (t : Token.Written) : Layout := { l with tokens := l.tokens.push t }

/-- Puts a mark before the token with this number. -/
def insert (l : Layout) (index : Nat) (m : Mark) : Layout :=
  { l with tokens := l.tokens.insertIdxIfInBounds index (.mark m) }

/-- Begins a mapping in block style at a column, before the token with this number, unless one has
begun there. -/
def beginBlock (l : Layout) (column index : Nat) : Layout :=
  if l.inFlow || l.blocks.head?.any (column ≤ ·) then l
  else { l.insert index .blockStart with blocks := column :: l.blocks }

/-- Ends the innermost mappings in block style as long as their columns are such. -/
def endBlocks (l : Layout) (isEnded : Nat → Bool) : Layout :=
  if l.inFlow then l
  else { l with
    tokens := l.tokens ++ Array.replicate (l.blocks.takeWhile isEnded).length (.mark .blockEnd)
    blocks := l.blocks.dropWhile isEnded }

/-- Gives up the place where a key may have begun, if there need not be one. -/
def giveUp? (l : Layout) : Option Layout :=
  if l.candidate.any (·.required) then none else some { l with candidate := none }

/-- Notes that a key may begin at `p`. At the column of the mapping around it, it has to. -/
def note? (l : Layout) (p : Place) : Option Layout :=
  if l.keyAllowed then
    l.giveUp?.map fun l => { l with
      candidate := some ⟨p, l.tokens.size, !l.inFlow && l.blocks.head? == some p.column⟩ }
  else some l

/-- Moves on to the next token, which begins at `p`: mappings end that are indented deeper. The
place of a key outside of open braces can wait until these are closed, as what is passed stays
passed. -/
def moveTo? (l : Layout) (p : Place) : Option Layout :=
  let moved := if l.candidate.any (·.isPassed p) then l.giveUp? else some l
  moved.map fun l => l.endBlocks (p.column < ·)

/-- Moves on over the mark of a key, or of a value before which no key stands. In block style, this
is where an entry begins. -/
def beginEntry? (l : Layout) (p : Place) : Option Layout :=
  if l.inFlow then some { l with keyAllowed := false }
  else if l.keyAllowed then some (l.beginBlock p.column l.tokens.size)
  else none

/-- Moves on over the mark of a value. If a key may have begun before it, then it has. -/
def beginValue? (l : Layout) (p : Place) : Option Layout :=
  match l.candidate with
  | some k =>
    let l := (l.insert k.index .key).beginBlock k.place.column k.index
    some { l with candidate := none, keyAllowed := false }
  | none => l.beginEntry? p

/-- Moves on over the mark of the end of a mapping in flow style. -/
def endFlow? (l : Layout) : Option Layout :=
  match l.outer with
  | [] => none
  | k :: outer => some { l with candidate := k, outer, keyAllowed := false }

/-- Moves on over a mark that begins at `p`. -/
def pushMark? (l : Layout) (p : Place) : Mark → Option Layout
  | .documentStart | .documentEnd =>
    (l.endBlocks fun _ => true).giveUp?.map fun l => { l with keyAllowed := false }
  | .flowStart => (l.note? p).map fun l =>
    { l with candidate := none, outer := l.candidate :: l.outer, keyAllowed := true }
  | .flowEnd => l.endFlow?
  | .comma => l.giveUp?.map fun l => { l with keyAllowed := true }
  | .key => (l.beginEntry? p).bind giveUp?
  | .value => l.beginValue? p
  | .blockStart | .blockEnd => none

/-- Moves on over a token that begins at `p`. A directive ends all mappings, as the start of a
document does. A key can begin with a scalar on a line or with what stands before it, and it may
begin after a block. -/
def push? (l : Layout) (p : Place) (lexeme : Lexeme) : Option Layout :=
  let moved : Option Layout := match lexeme.token with
    | .directive _ => l.pushMark? p .documentStart
    | .mark m => l.pushMark? p m
    | .scalar _ .literal | .scalar _ .folded =>
      l.giveUp?.map fun l => { l with keyAllowed := true }
    | _ => (l.note? p).map fun l => { l with keyAllowed := lexeme.opensLine }
  moved.map (·.add lexeme.token)

/-- The tokens of a text that ends here. -/
def finish? (l : Layout) : Option (List Token.Written) :=
  (l.endBlocks fun _ => true).giveUp?.map fun l => l.tokens.toList

end Layout

/-- The tokens up to the end of a text. -/
def tokensFrom (l : Layout) (p : Place) (s : List Char) : Option (List Token.Written) :=
  let gap := skipGap l.inFlow l.keyAllowed false p s
  match _h : gap.rest with
  | [] => l.finish?
  | c :: rest =>
    match { l with keyAllowed := gap.keyAllowed }.moveTo? gap.place with
    | none => none
    | some l' =>
      match _h' : Token.read? l'.inFlow (gap.place.column == 0) l'.blocks.head? c rest with
      | none => none
      | some lexeme =>
        let taken := c :: rest.take (rest.length - lexeme.rest.length)
        (l'.push? gap.place lexeme).bind fun next =>
          tokensFrom next (gap.place.after taken) lexeme.rest
termination_by s.length
decreasing_by
  have h₁ := length_skipGap_le l.inFlow l.keyAllowed false p s
  have h₂ := Token.length_read?_le _h'
  simp only [gap] at _h
  simp only [_h, List.length_cons] at h₁
  omega

/-- The tokens of a text. -/
def tokens? (s : List Char) : Option (List Token.Written) := tokensFrom .start ⟨0, 0⟩ s

end TensorCost.Yaml
