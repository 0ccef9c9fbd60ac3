import TensorCost.Yaml.Token

/-!
# Nodes

The nodes of a document: scalars, mappings, and aliases of nodes. The document is a mapping whose
values are scalars or mappings of scalars, and nodes of other shapes are refused.

* `Yaml.Leaf` is a scalar or an alias, and `Yaml.Node` a leaf or a mapping.
* `Yaml.readLeaf` and `Yaml.readNode` read a node from the tokens of a document.
* `Yaml.readBlockEntries` and `Yaml.readFlowEntries` read the entries of a mapping.
* `Yaml.Node.ofTokens?` is the node that a whole document consists of.
-/

namespace TensorCost.Yaml

/-- A scalar or an alias. -/
inductive Leaf
  | scalar (anchor : Option Nat) (s : Scalar)
  | alias (anchor : Nat)
  deriving DecidableEq, Repr

/-- A leaf or a mapping with values of type `α`. -/
inductive Node (α : Type)
  | leaf (l : Leaf)
  | mapping (anchor : Option Nat) (entries : List (Leaf × α))

/-- The scalar that is meant where nothing is written. -/
def Scalar.absent : Scalar := ⟨"", .plain, none⟩

/-- The leaf that is meant where nothing is written. -/
def Leaf.absent : Leaf := .scalar none .absent

/-- Something read from the start of a list of tokens, and the tokens after it. -/
structure Parsed (α : Type) (s : List Token.Resolved) where
  value : α
  rest : List Token.Resolved
  le : rest.length ≤ s.length

/-- Reads values, which may be left out. -/
structure ValueReader (α : Type) where
  /-- The value that is meant where nothing is written. -/
  absent : α
  read? : (s : List Token.Resolved) → Option (Parsed α s)

/-! ## Leaves -/

/-- What stands before a node. -/
structure Properties where
  anchor : Option Nat
  tag : Option String
  deriving DecidableEq, Repr

/-- Reads what stands before a node: an anchor and a tag, in any order, or one of them, or none. -/
def readProperties : (s : List Token.Resolved) → Parsed Properties s
  | .anchor a :: .tag t :: rest => ⟨⟨some a, some t⟩, rest, by simp; omega⟩
  | .tag t :: .anchor a :: rest => ⟨⟨some a, some t⟩, rest, by simp; omega⟩
  | .anchor a :: rest => ⟨⟨some a, none⟩, rest, by simp⟩
  | .tag t :: rest => ⟨⟨none, some t⟩, rest, by simp⟩
  | rest => ⟨⟨none, none⟩, rest, Nat.le_refl _⟩

/-- A scalar with these properties. -/
def Properties.leaf (p : Properties) (text : String) (style : Style) : Leaf :=
  .scalar p.anchor ⟨text, style, p.tag⟩

/-- Reads a leaf. After an anchor or a tag, the scalar may be left out. -/
def readLeaf (s : List Token.Resolved) : Option (Parsed Leaf s) :=
  let p := readProperties s
  match h : p.rest with
  | .scalar text style :: rest => some ⟨p.value.leaf text style, rest, by
      have := p.le
      simp only [h, List.length_cons] at this
      omega⟩
  | .alias a :: rest =>
    if p.value = ⟨none, none⟩ then some ⟨.alias a, rest, by
      have := p.le
      simp only [h, List.length_cons] at this
      omega⟩
    else none
  | .mark .blockStart :: _ => none
  | .mark .flowStart :: _ => none
  | rest =>
    if p.value = ⟨none, none⟩ then none
    else some ⟨p.value.leaf "" .plain, rest, h ▸ p.le⟩

/-! ## Mappings -/

/-- Whether a mark of a mapping stands where a node could stand. -/
def isLeftOut : List Token.Resolved → Bool
  | .mark m :: _ => m ∈ [.key, .value, .comma, .blockEnd, .flowEnd]
  | _ => false

namespace ValueReader

variable {α : Type}

/-- Reads leaves. -/
def leaf : ValueReader Leaf := ⟨.absent, readLeaf⟩

/-- Reads a value that may be left out. -/
def readOrAbsent (r : ValueReader α) (s : List Token.Resolved) : Option (Parsed α s) :=
  if isLeftOut s then some ⟨r.absent, s, Nat.le_refl _⟩ else r.read? s

/-- Reads a value and the mark before it, which may both be left out. -/
def readAfterKey (r : ValueReader α) : (s : List Token.Resolved) → Option (Parsed α s)
  | .mark .value :: rest =>
    (r.readOrAbsent rest).map fun v => ⟨v.value, v.rest, Nat.le_succ_of_le v.le⟩
  | s => some ⟨r.absent, s, Nat.le_refl _⟩

end ValueReader

/-- Reads the entries of a mapping in block style, and the mark of its end. -/
def readBlockEntries {α : Type} (r : ValueReader α) :
    (s : List Token.Resolved) → Option (Parsed (List (Leaf × α)) s)
  | .mark .blockEnd :: rest => some ⟨[], rest, by simp⟩
  | .mark .key :: s => do
    let k ← ValueReader.leaf.readOrAbsent s
    let v ← r.readAfterKey k.rest
    have hle : v.rest.length ≤ s.length := Nat.le_trans v.le k.le
    let more ← readBlockEntries r v.rest
    return ⟨(k.value, v.value) :: more.value, more.rest, by
      have := more.le
      simp only [List.length_cons]
      omega⟩
  | _ => none
termination_by s => s.length

/-- Reads an entry of a mapping in flow style. Without a mark before it, a key stands alone. -/
def readFlowEntry {α : Type} (r : ValueReader α) :
    (s : List Token.Resolved) → Option (Parsed (Leaf × α) s)
  | .mark .key :: s => do
    let k ← ValueReader.leaf.readOrAbsent s
    let v ← r.readAfterKey k.rest
    return ⟨(k.value, v.value), v.rest, Nat.le_succ_of_le (Nat.le_trans v.le k.le)⟩
  | s => (readLeaf s).map fun k => ⟨(k.value, r.absent), k.rest, k.le⟩

/-- Reads the entries of a mapping in flow style, and the mark of its end. A comma may stand after
the last entry. -/
def readFlowEntries {α : Type} (r : ValueReader α) (s : List Token.Resolved) :
    Option (Parsed (List (Leaf × α)) s) :=
  match s with
  | .mark .flowEnd :: rest => some ⟨[], rest, by simp⟩
  | s =>
    match readFlowEntry r s with
    | none => none
    | some entry =>
      match h : entry.rest with
      | .mark .flowEnd :: rest => some ⟨[entry.value], rest, by
          have := entry.le
          simp only [h, List.length_cons] at this
          omega⟩
      | .mark .comma :: rest =>
        have hlt : rest.length < s.length := by
          have := entry.le
          simp only [h, List.length_cons] at this
          omega
        (readFlowEntries r rest).map fun more =>
          ⟨entry.value :: more.value, more.rest, Nat.le_trans more.le (Nat.le_of_lt hlt)⟩
      | _ => none
termination_by s.length

/-- Reads a leaf, or a mapping with values that `r` reads. -/
def readNode {α : Type} (r : ValueReader α) (s : List Token.Resolved) :
    Option (Parsed (Node α) s) :=
  let p := readProperties s
  let mapping {t : List Token.Resolved} (h : t.length ≤ p.rest.length)
      (entries : Parsed (List (Leaf × α)) t) : Parsed (Node α) s :=
    ⟨.mapping p.value.anchor entries.value, entries.rest,
      Nat.le_trans entries.le (Nat.le_trans h p.le)⟩
  match h : p.rest with
  | .mark .blockStart :: rest => (readBlockEntries r rest).map (mapping (by simp [h]))
  | .mark .flowStart :: rest => (readFlowEntries r rest).map (mapping (by simp [h]))
  | _ => (readLeaf s).map fun l => ⟨.leaf l.value, l.rest, l.le⟩

/-! ## Documents -/

/-- Reads values of a document. -/
def ValueReader.node : ValueReader (Node Leaf) := ⟨.leaf .absent, readNode .leaf⟩

/-- The node that a document consists of. A document may begin with a mark, and nothing but marks
that end it may follow. -/
def Node.ofTokens? (s : List Token.Resolved) : Option (Node (Node Leaf)) :=
  let isEnd (rest : List Token.Resolved) : Bool := rest.all (· == .mark .documentEnd)
  let root (s : List Token.Resolved) : Option (Node (Node Leaf)) := do
    let r ← readNode .node s
    if isEnd r.rest then some r.value else none
  match s with
  | [] => some (.leaf .absent)
  | .mark .documentStart :: rest => if isEnd rest then some (.leaf .absent) else root rest
  | s => root s

end TensorCost.Yaml
