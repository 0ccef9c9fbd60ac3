import TensorCost.Yaml.Block
import TensorCost.Yaml.Scalar
import TensorCost.Yaml.Tag

/-!
# Tokens

* `Yaml.Token` is a part of a document: a mark, a scalar, or a name that belongs to a node.
* `Yaml.Token.read?` reads the token at the start of a text, and `Yaml.skipGap` moves over what may
  stand between two tokens.
* `Yaml.Token.resolve?` numbers the anchors of a document and looks up the handles of its tags.
-/

namespace TensorCost.Yaml

/-- The marks that structure a document. A mapping in block style has no marks of its own for its
start and end, and its keys and those of a mapping in flow style have none either, as a rule: these
marks stand where the layout and the colons imply them. -/
inductive Mark
  | documentStart | documentEnd
  | blockStart | blockEnd
  | flowStart | flowEnd
  | comma | key | value
  deriving DecidableEq, Repr

/-- A part of a document. -/
inductive Token (Anchor Tag : Type)
  | directive (d : Directive)
  | mark (m : Mark)
  | anchor (a : Anchor)
  | alias (a : Anchor)
  | tag (t : Tag)
  | scalar (text : String) (style : Style)
  deriving DecidableEq, Repr

namespace Token

/-- A token as it is written: anchors have names, and tags may have handles. -/
abbrev Written := Token String Yaml.Tag

/-- A token with everything looked up that it names. -/
abbrev Resolved := Token Nat String

end Token

/-! ## Gaps -/

/-- A place in a text. -/
structure Place where
  line : Nat
  column : Nat
  deriving DecidableEq, Repr

/-- The place after a text that begins here. -/
def Place.after (p : Place) (s : List Char) : Place :=
  s.foldl (fun p c => if isBreak c then ⟨p.line + 1, 0⟩ else ⟨p.line, p.column + 1⟩) p

/-- What follows after a gap. -/
structure GapEnd where
  /-- Whether a key may begin here. -/
  keyAllowed : Bool
  place : Place
  rest : List Char

/-- Moves over blanks, comments, line ends, and byte order marks that begin a line. In block style,
a key may begin on a new line, and where it may, a tab is no indentation. `comment` tells whether a
comment has begun. -/
def skipGap (flow keyAllowed comment : Bool) (p : Place) : (s : List Char) → GapEnd
  | [] => ⟨keyAllowed, p, []⟩
  | c :: rest =>
    let next := p.after [c]
    if isBreak c then skipGap flow (keyAllowed || !flow) false next rest
    else if comment || c == ' ' || (c == '\t' && (flow || !keyAllowed))
        || (c == '\ufeff' && p.column == 0) then
      skipGap flow keyAllowed comment next rest
    else if c == '#' then skipGap flow keyAllowed true next rest
    else ⟨keyAllowed, p, c :: rest⟩

theorem length_skipGap_le (flow keyAllowed comment : Bool) (p : Place) (s : List Char) :
    (skipGap flow keyAllowed comment p s).rest.length ≤ s.length := by
  fun_induction skipGap flow keyAllowed comment p s with
  | case1 => exact Nat.le_refl _
  | case2 _ _ _ _ _ _ _ ih | case3 _ _ _ _ _ _ _ _ ih | case4 _ _ _ _ _ _ _ _ _ ih =>
    exact Nat.le_succ_of_le ih
  | case5 => exact Nat.le_refl _

/-! ## Reading a token -/

/-- A token that has been read. -/
structure Lexeme where
  token : Token.Written
  /-- Whether the token goes on to the start of a line, on which a key may begin. -/
  opensLine : Bool
  rest : List Char

/-- Reads the name of an anchor, which has to be set off. -/
def readName? (s : List Char) : Option (String × List Char) :=
  let name := s.takeWhile isWordChar
  let rest := s.dropWhile isWordChar
  let isSetOff := isGapOrEnd rest
    || rest.head?.any (· ∈ ['?', ':', ',', ']', '\x7d', '%', '@', '\x60'])
  if name.isEmpty || !isSetOff then none else some (String.ofList name, rest)

/-- Reads the text of a scalar that begins with `c`. In block style, the lines of the scalar are
indented deeper than `block`, the column of the mapping around it. -/
def readScalar? (flow : Bool) (block : Option Nat) (c : Char) (rest : List Char) :
    Option Lexeme :=
  let scalar (style : Style) (r : List Char × List Char) : Lexeme :=
    ⟨.scalar (String.ofList r.1) style, style == .literal || style == .folded, r.2⟩
  if c == '\'' then (readSingle rest).map (scalar .singleQuoted)
  else if c == '"' then (readDouble rest).map (scalar .doubleQuoted)
  else if c == '|' && !flow then (readBlock false block rest).map (scalar .literal)
  else if c == '>' && !flow then (readBlock true block rest).map (scalar .folded)
  else if startsPlain flow (c :: rest) then
    (readPlain flow (block.elim 0 (· + 1)) [] rest).map fun t =>
      ⟨.scalar (String.ofList (c :: t.text)) .plain, t.gap.any isBreak, t.rest⟩
  else none

/-- The mark that a character is. In block style, the marks of keys and values are set off. -/
def Mark.ofChar? (flow : Bool) (c : Char) (rest : List Char) : Option Mark :=
  if c == '\x7b' then some .flowStart
  else if c == '\x7d' then some .flowEnd
  else if c == ',' then some .comma
  else if c == '?' && (flow || isGapOrEnd rest) then some .key
  else if c == ':' && (flow || isGapOrEnd rest) then some .value
  else none

/-- Reads a mark that begins a line: it starts or ends a document, or begins a directive. -/
def readLineMark? (c : Char) (rest : List Char) : Option Lexeme :=
  if c == '%' then (Directive.read? rest).map fun r => ⟨.directive r.1, false, r.2⟩
  else if isMarkerOf '-' (c :: rest) then some ⟨.mark .documentStart, false, rest.drop 2⟩
  else if isMarkerOf '.' (c :: rest) then some ⟨.mark .documentEnd, false, rest.drop 2⟩
  else none

/-- Reads a name that belongs to a node. -/
def readProperty? (flow : Bool) (c : Char) (rest : List Char) : Option Lexeme :=
  if c == '&' then (readName? rest).map fun r => ⟨.anchor r.1, false, r.2⟩
  else if c == '*' then (readName? rest).map fun r => ⟨.alias r.1, false, r.2⟩
  else if c == '!' then (Tag.read? flow rest).map fun r => ⟨.tag r.1, false, r.2⟩
  else none

/-- Reads the token that begins with `c`. Sequences are no part of any document, and so their marks
are no tokens. -/
def Token.read? (flow lineStart : Bool) (block : Option Nat) (c : Char) (rest : List Char) :
    Option Lexeme :=
  if lineStart && (c == '%' || isMarker (c :: rest)) then readLineMark? c rest
  else if c == '&' || c == '*' || c == '!' then readProperty? flow c rest
  else match Mark.ofChar? flow c rest with
    | some m => some ⟨.mark m, false, rest⟩
    | none => readScalar? flow block c rest

theorem length_readName?_le {s rest : List Char} {name : String}
    (h : readName? s = some (name, rest)) : rest.length ≤ s.length := by
  unfold readName? at h
  dsimp only at h
  split at h
  · contradiction
  · cases h
    exact (List.dropWhile_sublist isWordChar).length_le

theorem length_readScalar?_le {flow : Bool} {block : Option Nat} {c : Char} {rest : List Char}
    {lexeme : Lexeme} (h : readScalar? flow block c rest = some lexeme) :
    lexeme.rest.length ≤ rest.length := by
  simp only [readScalar?] at h
  repeat' split at h
  all_goals
    first
    | contradiction
    | obtain ⟨r, hr, rfl⟩ := Option.map_eq_some_iff.1 h
  · exact length_readSingle_le hr
  · exact length_readDouble_le hr
  · exact length_readBlock_le hr
  · exact length_readBlock_le hr
  · exact length_readPlain_le hr

theorem length_readLineMark?_le {c : Char} {rest : List Char} {lexeme : Lexeme}
    (h : readLineMark? c rest = some lexeme) : lexeme.rest.length ≤ rest.length := by
  unfold readLineMark? at h
  split at h
  · obtain ⟨r, hr, rfl⟩ := Option.map_eq_some_iff.1 h
    exact Directive.length_read?_le hr
  have hdrop : (rest.drop 2).length ≤ rest.length := (List.drop_sublist 2 rest).length_le
  split at h
  · obtain rfl := Option.some.inj h
    exact hdrop
  · split at h
    · obtain rfl := Option.some.inj h
      exact hdrop
    · contradiction

theorem length_readProperty?_le {flow : Bool} {c : Char} {rest : List Char} {lexeme : Lexeme}
    (h : readProperty? flow c rest = some lexeme) : lexeme.rest.length ≤ rest.length := by
  unfold readProperty? at h
  repeat' split at h
  · obtain ⟨r, hr, rfl⟩ := Option.map_eq_some_iff.1 h
    exact length_readName?_le hr
  · obtain ⟨r, hr, rfl⟩ := Option.map_eq_some_iff.1 h
    exact length_readName?_le hr
  · obtain ⟨r, hr, rfl⟩ := Option.map_eq_some_iff.1 h
    exact Tag.length_read?_le hr
  · contradiction

theorem Token.length_read?_le {flow lineStart : Bool} {block : Option Nat} {c : Char}
    {rest : List Char} {lexeme : Lexeme}
    (h : Token.read? flow lineStart block c rest = some lexeme) :
    lexeme.rest.length ≤ rest.length := by
  unfold Token.read? at h
  split at h
  · exact length_readLineMark?_le h
  · split at h
    · exact length_readProperty?_le h
    · split at h
      · obtain rfl := Option.some.inj h
        exact Nat.le_refl _
      · exact length_readScalar?_le h

/-! ## Names -/

/-- A token with its anchor numbered or its tag expanded, and the names of anchors with it. The
number of an anchor tells how many names there have been before it; the number of an alias is that
of the anchor that had its name last. -/
def Token.resolveOne? (handles : List (List Char × List Char)) (names : List (String × Nat)) :
    Token.Written → Option (Token.Resolved × List (String × Nat))
  | .directive _ => none
  | .mark m => some (.mark m, names)
  | .scalar text style => some (.scalar text style, names)
  | .tag t => (t.expand? handles).map fun t => (.tag (String.ofList t.suffix), names)
  | .alias name => (names.lookup name).map fun n => (.alias n, names)
  | .anchor name =>
    let n := names.length
    some (.anchor n, (name, n) :: names.filter (·.1 != name))

/-- Numbers the anchors and expands the tags of a document. -/
def Token.resolve? (handles : List (List Char × List Char)) :
    (names : List (String × Nat)) → List Token.Written → Option (List Token.Resolved)
  | _, [] => some []
  | names, token :: rest => do
    let (token, names) ← token.resolveOne? handles names
    (Token.resolve? handles names rest).map (token :: ·)

end TensorCost.Yaml
