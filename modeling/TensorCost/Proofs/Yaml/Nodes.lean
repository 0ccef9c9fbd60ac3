import TensorCost.Yaml.Reader

/-!
# The nodes of printed values

A value that has no tags is spelled by tokens, and read back from them.

* `Yaml.Value.tokens` spells a value, and `Yaml.blockTokens` a mapping in block style; both give
  tokens as they are written and tokens in which names have been looked up.
* `Yaml.Value.node` is the node of a value.
* `Yaml.Reads` says what is read from tokens, and which of them are left.
* `Yaml.Resolves` says that looking up names succeeds.

Results:
* `readBlockEntries_entries`: the entries of a mapping are read, if its values are.
* `readOrAbsent_tokens`: a value is read as its node.
* `readDocument_of_tokens`: a document with the tokens of some entries holds these entries.
-/

namespace TensorCost.Yaml

/-- Reading succeeds with this value and these tokens left. -/
def Reads {α : Type} {s : List Token.Resolved} (r : Option (Parsed α s)) (value : α)
    (rest : List Token.Resolved) : Prop :=
  ∃ le, r = some ⟨value, rest, le⟩

/-! ## The tokens of a value -/

section Tokens

variable {Anchor Tag : Type}

/-- The token of a scalar. -/
def Scalar.token (s : Scalar) : Token Anchor Tag := .scalar s.text s.style

/-- The tokens of an entry of a mapping. -/
def entryTokens (key : Scalar) (value : List (Token Anchor Tag)) : List (Token Anchor Tag) :=
  .mark .key :: key.token :: .mark .value :: value

/-- The tokens of a mapping in block style; `tokens` gives those of its values. -/
def blockTokens {α : Type} (tokens : α → List (Token Anchor Tag)) (entries : List (Scalar × α)) :
    List (Token Anchor Tag) :=
  .mark .blockStart :: entries.flatMap (fun e => entryTokens e.1 (tokens e.2)) ++ [.mark .blockEnd]

/-- The tokens of a value. An empty mapping stands between braces, any other is in block style. -/
def Value.tokens : Value → List (Token Anchor Tag)
  | .scalar s => [s.token]
  | .mapping [] => [.mark .flowStart, .mark .flowEnd]
  | .mapping (e :: entries) => blockTokens (fun s => [s.token]) (e :: entries)

end Tokens

/-! ## Their nodes -/

/-- Whether the scalars of a value have no tags. -/
def Value.IsBare : Value → Prop
  | .scalar s => s.tag = none
  | .mapping entries => ∀ e ∈ entries, e.1.tag = none ∧ e.2.tag = none

/-- The leaf of a scalar that has no anchor. -/
def Scalar.leaf (s : Scalar) : Leaf := .scalar none s

/-- The node of a value without anchors. -/
def Value.node : Value → Node Leaf
  | .scalar s => .leaf s.leaf
  | .mapping entries => .mapping none (entries.map fun e => (e.1.leaf, e.2.leaf))

theorem readLeaf_token {s : Scalar} (hs : s.tag = none) (rest : List Token.Resolved) :
    Reads (readLeaf (s.token :: rest)) s.leaf rest := by
  obtain ⟨text, style, tag⟩ := s
  obtain rfl : tag = none := hs
  exact ⟨_, rfl⟩

theorem readOrAbsent_leaf {s : Scalar} (hs : s.tag = none) (rest : List Token.Resolved) :
    Reads (ValueReader.leaf.readOrAbsent (s.token :: rest)) s.leaf rest :=
  readLeaf_token hs rest

theorem readBlockEntries_end {α : Type} (r : ValueReader α) (rest : List Token.Resolved) :
    Reads (readBlockEntries r (.mark .blockEnd :: rest)) [] rest := by
  rw [readBlockEntries]
  exact ⟨_, rfl⟩

/-- An entry is read, if its value is. -/
theorem readBlockEntries_entry {α : Type} {r : ValueReader α} {key : Scalar}
    {value tail rest : List Token.Resolved} {v : α} {more : List (Leaf × α)}
    (hkey : key.tag = none) (hvalue : Reads (r.readOrAbsent value) v tail)
    (hmore : Reads (readBlockEntries r tail) more rest) :
    Reads (readBlockEntries r (entryTokens key value)) ((key.leaf, v) :: more) rest := by
  obtain ⟨_, hkey⟩ := readOrAbsent_leaf hkey (.mark .value :: value)
  obtain ⟨_, hvalue⟩ := hvalue
  obtain ⟨_, hmore⟩ := hmore
  rw [entryTokens, readBlockEntries, hkey]
  simp only [ValueReader.readAfterKey, hvalue, hmore, Option.bind_eq_bind, Option.bind_some,
    Option.map_some]
  exact ⟨_, rfl⟩

/-- **The entries of a mapping** in block style are read with the mark of its end, if each of its
values is read. -/
theorem readBlockEntries_entries {α β : Type} {r : ValueReader β}
    (tokens : α → List Token.Resolved) (node : α → β) {entries : List (Scalar × α)}
    (hkeys : ∀ e ∈ entries, e.1.tag = none)
    (hvalues : ∀ e ∈ entries, ∀ rest, Reads (r.readOrAbsent (tokens e.2 ++ rest)) (node e.2) rest)
    (rest : List Token.Resolved) :
    Reads (readBlockEntries r (entries.flatMap (fun e => entryTokens e.1 (tokens e.2)) ++
        .mark .blockEnd :: rest))
      (entries.map fun e => (e.1.leaf, node e.2)) rest := by
  induction entries with
  | nil => exact readBlockEntries_end r rest
  | cons e entries ih =>
    have hmore := ih (fun e' he' => hkeys e' (List.mem_cons_of_mem _ he'))
      fun e' he' => hvalues e' (List.mem_cons_of_mem _ he')
    rw [List.flatMap_cons, List.append_assoc]
    exact readBlockEntries_entry (hkeys e List.mem_cons_self)
      (hvalues e List.mem_cons_self _) hmore

theorem readNode_block {α : Type} {r : ValueReader α} {s rest : List Token.Resolved}
    {entries : List (Leaf × α)} (h : Reads (readBlockEntries r s) entries rest) :
    Reads (readNode r (.mark .blockStart :: s)) (.mapping none entries) rest := by
  obtain ⟨_, h⟩ := h
  have hmap : readNode r (.mark .blockStart :: s) =
      (readBlockEntries r s).map fun e => ⟨.mapping none e.value, e.rest, Nat.le_succ_of_le e.le⟩ :=
    rfl
  rw [hmap, h]
  exact ⟨_, rfl⟩

theorem readNode_braces {α : Type} (r : ValueReader α) (rest : List Token.Resolved) :
    Reads (readNode r (.mark .flowStart :: .mark .flowEnd :: rest)) (.mapping none []) rest := by
  have hmap (s : List Token.Resolved) : readNode r (.mark .flowStart :: s) =
      (readFlowEntries r s).map fun e => ⟨.mapping none e.value, e.rest, Nat.le_succ_of_le e.le⟩ :=
    rfl
  rw [hmap, readFlowEntries]
  exact ⟨_, rfl⟩

/-- **A value** is read as its node. -/
theorem readOrAbsent_tokens {v : Value} (hv : v.IsBare) (rest : List Token.Resolved) :
    Reads (ValueReader.node.readOrAbsent (v.tokens ++ rest)) v.node rest := by
  cases v with
  | scalar s =>
    obtain ⟨text, style, tag⟩ := s
    obtain rfl : tag = none := hv
    exact ⟨_, rfl⟩
  | mapping entries =>
    cases entries with
    | nil => exact readNode_braces .leaf rest
    | cons e entries =>
      have hread := readBlockEntries_entries (fun s => [s.token]) Scalar.leaf
        (fun e' he' => (hv e' he').1) (fun e' he' => readOrAbsent_leaf (hv e' he').2) rest
      rw [Value.tokens, blockTokens, List.append_assoc]
      exact readNode_block hread

/-! ## Documents -/

/-- Whether looking up names turns tokens into others, whatever follows. -/
def Resolves (written : List Token.Written) (resolved : List Token.Resolved) : Prop :=
  ∀ handles names rest, Token.resolve? handles names (written ++ rest) =
    (Token.resolve? handles names rest).map (resolved ++ ·)

namespace Resolves

variable {written written' : List Token.Written} {resolved resolved' : List Token.Resolved}

theorem nil : Resolves [] [] := fun handles names rest => by simp

theorem mark (m : Mark) (h : Resolves written resolved) :
    Resolves (.mark m :: written) (.mark m :: resolved) := fun handles names rest => by
  rw [List.cons_append, Token.resolve?, Token.resolveOne?]
  simp [h handles names rest, Function.comp_def]

theorem scalar (s : Scalar) (h : Resolves written resolved) :
    Resolves (s.token :: written) (s.token :: resolved) := fun handles names rest => by
  rw [List.cons_append, Token.resolve?, Scalar.token, Token.resolveOne?]
  simp [h handles names rest, Function.comp_def, Scalar.token]

theorem append (h : Resolves written resolved) (h' : Resolves written' resolved') :
    Resolves (written ++ written') (resolved ++ resolved') := fun handles names rest => by
  rw [List.append_assoc, h, h']
  simp [Function.comp_def]

theorem entries {α : Type} {tokens : α → List Token.Written} {tokens' : α → List Token.Resolved}
    (h : ∀ a, Resolves (tokens a) (tokens' a)) (entries : List (Scalar × α)) :
    Resolves (blockTokens tokens entries) (blockTokens tokens' entries) := by
  refine .mark _ (.append ?_ (.mark _ .nil))
  induction entries with
  | nil => exact .nil
  | cons e entries ih => exact .append (.mark _ (.scalar _ (.mark _ (h e.2)))) ih

theorem value : ∀ v : Value, Resolves v.tokens v.tokens
  | .scalar s => .scalar s .nil
  | .mapping [] => .mark _ (.mark _ .nil)
  | .mapping (e :: es) => entries (fun s => .scalar s .nil) (e :: es)

end Resolves

theorem ofTokens?_of_reads {s : List Token.Resolved} {node : Node (Node Leaf)}
    (h : Reads (readNode .node (.mark .blockStart :: s)) node []) :
    Node.ofTokens? (.mark .blockStart :: s) = some node := by
  obtain ⟨_, h⟩ := h
  simp only [Node.ofTokens?, h, Option.bind_eq_bind, Option.bind_some]
  rfl

/-- No directive is among tokens in which names can be looked up. -/
theorem directive_notMem_of_resolve? {handles : List (List Char × List Char)}
    {names : List (String × Nat)} {written : List Token.Written} {resolved : List Token.Resolved}
    (h : Token.resolve? handles names written = some resolved) (d : Directive) :
    .directive d ∉ written := by
  induction written generalizing names resolved with
  | nil => exact List.not_mem_nil
  | cons token written ih =>
    simp only [Token.resolve?, Option.bind_eq_bind, Option.bind_eq_some_iff, Prod.exists,
      Option.map_eq_some_iff] at h
    obtain ⟨token', names', hone, resolved', hrest, -⟩ := h
    rw [List.mem_cons, not_or]
    refine ⟨?_, ih hrest⟩
    rintro rfl
    cases hone

theorem entries?_map {α β : Type} (value? : α → Option β) (node : β → α) (anchored : Anchored)
    (h : ∀ b, value? (node b) = some b) (entries : List (Scalar × β)) :
    entries? anchored value? (entries.map fun e => (e.1.leaf, node e.2)) = some entries := by
  induction entries with
  | nil => rfl
  | cons e entries ih =>
    rw [entries?] at ih
    rw [entries?, List.map_cons, List.mapM_cons, ih, h]
    rfl

/-- The value of a node without anchors. -/
theorem value?_node (anchored : Anchored) (v : Value) : v.node.value? anchored = some v := by
  cases v with
  | scalar s => rfl
  | mapping entries =>
    have hmap := entries?_map (Leaf.scalar? anchored) Scalar.leaf anchored (fun _ => rfl) entries
    rw [Value.node, Node.value?, hmap]
    rfl

/-- **A document** is read that consists of the tokens of its entries. -/
theorem readDocument_of_tokens {s : List Char} {entries : List (Scalar × Value)}
    (hbare : ∀ e ∈ entries, e.1.tag = none ∧ e.2.IsBare)
    (hs : tokens? s = some (blockTokens Value.tokens entries)) :
    (readDocument s).bind Node.document? = some entries := by
  have hresolve (handles : List (List Char × List Char)) :
      Token.resolve? handles [] (blockTokens Value.tokens entries) =
        some (blockTokens Value.tokens entries) := by
    simpa [Token.resolve?] using Resolves.entries Resolves.value entries handles [] []
  have hnode : Node.ofTokens? (blockTokens Value.tokens entries) =
      some (.mapping none (entries.map fun e => (e.1.leaf, e.2.node))) := by
    have hread := readNode_block (readBlockEntries_entries Value.tokens Value.node
      (fun e he => (hbare e he).1) (fun e he => readOrAbsent_tokens (hbare e he).2) [])
    exact ofTokens?_of_reads hread
  have hdocument : Node.document? (.mapping none (entries.map fun e => (e.1.leaf, e.2.node))) =
      some entries :=
    entries?_map _ Value.node _ (value?_node _) entries
  obtain ⟨handles, hhandles⟩ : ∃ handles, handles? [] = some handles := ⟨_, rfl⟩
  rw [readDocument, hs]
  simp only [Option.bind_eq_bind, Option.bind_some]
  rw [List.filterMap_eq_nil_iff.mpr fun token htoken => ?_]
  · simp [hhandles, hresolve, hnode, hdocument]
  · split
    · exact absurd htoken (directive_notMem_of_resolve? (hresolve []) _)
    · rfl

end TensorCost.Yaml
