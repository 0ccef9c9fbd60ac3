import TensorCost.Proofs.Pool.Expression
import TensorCost.Proofs.Session.HashConsing

/-!
# Scope

The loop variables that are open in an expression, said of the expression alone. A kind of node
mentions the variables that stand in its own entries, binds those that it sums over or turns into
axes, and passes on all others.

* `Tree.openOccurrences` lists the open variables from left to right, once for each occurrence, by
  the kind of the outermost node.
* `Kind.Mentions` and `Kind.Binds` are what a kind does to a variable, and `Tree.Descends` says that
  a path through operands meets no node that binds it.

Results:
* `Tree.mem_occurrences_iff`: a variable is open iff a path that does not bind it leads to a node
  that mentions it.
* `WellFormed.openOccurrences_eq`: in a pool that is in order, the list by kinds is the one that
  filters the operands' variables and the node's own together.
* `Reachable.freeIndices_scope`: the free indices of a node are the first of these occurrences.
-/

namespace TensorCost

/-! ## Scopes of expressions -/

namespace Kind

/-- Whether the loop variable `i` stands in the entries of a node of this kind. -/
def Mentions (i : Index) : Kind → Prop
  | indexed items => .free i ∈ items
  | flexiblyIndexed dims => ∃ d ∈ dims, ∃ stride, (i, stride) ∈ d.strides
  | delta a b => a = .free i ∨ b = .free i
  | _ => False

/-- Whether a node of this kind closes the loop variable `i`. -/
def Binds (i : Index) : Kind → Prop
  | indexSum bound | componentTensor bound => i ∈ bound
  | _ => False

variable {i : Index} {k : Kind}

theorem mem_filterMap_free? {items : List (IndexItem Index)} :
    i ∈ items.filterMap IndexItem.free? ↔ .free i ∈ items := by
  rw [List.mem_filterMap]
  constructor
  · rintro ⟨item, hitem, hfree⟩
    cases item with
    | free j =>
      obtain rfl := Option.some.inj hfree
      exact hitem
    | fixed position => simp [IndexItem.free?] at hfree
  · intro h
    exact ⟨.free i, h, rfl⟩

theorem mem_ownIndices_iff : i ∈ k.ownIndices ↔ k.Mentions i := by
  cases k with
  | indexed items => exact mem_filterMap_free?
  | flexiblyIndexed dims => simp [ownIndices, Mentions]
  | delta a b =>
    refine mem_filterMap_free?.trans ?_
    simp [Mentions, eq_comm]
  | _ => exact iff_of_false List.not_mem_nil id

theorem mem_boundIndices_iff : i ∈ k.boundIndices ↔ k.Binds i := by
  cases k with
  | indexSum bound => exact Iff.rfl
  | componentTensor bound => exact Iff.rfl
  | _ => exact iff_of_false List.not_mem_nil id

/-- No kind both mentions and binds a loop variable. -/
theorem Mentions.not_binds (h : k.Mentions i) : ¬ k.Binds i := by
  cases k with
  | indexSum bound => exact absurd h id
  | componentTensor bound => exact absurd h id
  | _ => exact id

end Kind

namespace Tree

variable {i : Index} {t u : Tree} {ts : List Tree}

mutual

/-- The open loop variables of an expression, from left to right, once for each occurrence. -/
def openOccurrences : Tree → List Index
  | node (.literal ..) _ | node (.zero ..) _ | node (.identity ..) _ | node (.variable ..) _
  | node (.failure ..) _ => []
  | node .sum ts | node .product ts | node .division ts | node .power ts
  | node (.mathFunction ..) ts | node (.comparison ..) ts | node .logicalNot ts
  | node .logicalAnd ts | node .logicalOr ts | node .conditional ts | node .listTensor ts =>
    openOccurrencesAll ts
  | node (.indexed items) ts => openOccurrencesAll ts ++ items.filterMap IndexItem.free?
  | node (.flexiblyIndexed dims) _ => dims.flatMap fun d => d.strides.map Prod.fst
  | node (.delta i j) _ => [i, j].filterMap IndexItem.free?
  | node (.indexSum bound) ts | node (.componentTensor bound) ts =>
    (openOccurrencesAll ts).filter fun i => i ∉ bound

/-- The open loop variables of several expressions, one after the other. -/
def openOccurrencesAll : List Tree → List Index
  | [] => []
  | t :: rest => openOccurrences t ++ openOccurrencesAll rest

end

/-- Whether a path from an expression down to another one leaves no node that binds `i`. -/
inductive Descends (i : Index) : Tree → Tree → Prop
  | refl (t : Tree) : Descends i t t
  | step {t u v : Tree} (unbound : ¬ t.kind.Binds i) (operand : u ∈ t.operands)
    (rest : Descends i u v) : Descends i t v

/-! ## Paths to occurrences -/

theorem mem_occurrencesAll_iff : i ∈ occurrencesAll ts ↔ ∃ t ∈ ts, i ∈ t.occurrences := by
  induction ts with
  | nil => simp [occurrencesAll]
  | cons t ts ih => simp [occurrencesAll, ih]

theorem mem_occurrences_node_iff {k : Kind} :
    i ∈ (node k ts).occurrences ↔
      k.Mentions i ∨ ¬ k.Binds i ∧ ∃ t ∈ ts, i ∈ t.occurrences := by
  rw [occurrences, List.mem_filter, List.mem_append, mem_occurrencesAll_iff,
    Kind.mem_ownIndices_iff, Bool.not_eq_true', ← Bool.not_eq_true, List.contains_iff_mem,
    Kind.mem_boundIndices_iff]
  constructor
  · rintro ⟨hbelow | hown, hbound⟩
    · exact .inr ⟨hbound, hbelow⟩
    · exact .inl hown
  · rintro (hown | ⟨hbound, hbelow⟩)
    · exact ⟨.inr hown, hown.not_binds⟩
    · exact ⟨.inl hbelow, hbound⟩

theorem Descends.mem_occurrences (h : t.Descends i u) (hu : u.kind.Mentions i) :
    i ∈ t.occurrences := by
  induction h with
  | refl t =>
    obtain ⟨k, ts⟩ := t
    exact mem_occurrences_node_iff.mpr (.inl hu)
  | @step t u v hunbound hoperand _ ih =>
    obtain ⟨k, ts⟩ := t
    exact mem_occurrences_node_iff.mpr (.inr ⟨hunbound, u, hoperand, ih hu⟩)

mutual

theorem exists_descends (i : Index) :
    (t : Tree) → i ∈ t.occurrences → ∃ u, t.Descends i u ∧ u.kind.Mentions i
  | node k ts => fun h => by
    rcases mem_occurrences_node_iff.mp h with hown | ⟨hunbound, u, hu, hi⟩
    · exact ⟨_, .refl _, hown⟩
    · obtain ⟨v, hdescends, hv⟩ := exists_descendsAll i ts u hu hi
      exact ⟨v, .step hunbound hu hdescends, hv⟩

theorem exists_descendsAll (i : Index) :
    (ts : List Tree) → ∀ t ∈ ts, i ∈ t.occurrences → ∃ u, t.Descends i u ∧ u.kind.Mentions i
  | [] => fun _ ht => absurd ht List.not_mem_nil
  | _ :: ts => List.forall_mem_cons.mpr ⟨exists_descends i _, exists_descendsAll i ts⟩

end

/-- **A loop variable is open** iff a path that does not bind it leads to a node that mentions
it. -/
theorem mem_occurrences_iff :
    i ∈ t.occurrences ↔ ∃ u, t.Descends i u ∧ u.kind.Mentions i :=
  ⟨exists_descends i t, fun ⟨_, hdescends, hu⟩ => hdescends.mem_occurrences hu⟩

/-! ## Occurrences by kind -/

theorem openOccurrencesAll_eq (h : ∀ t ∈ ts, t.openOccurrences = t.occurrences) :
    openOccurrencesAll ts = occurrencesAll ts := by
  induction ts with
  | nil => rfl
  | cons t ts ih =>
    rw [openOccurrencesAll, occurrencesAll, h t List.mem_cons_self,
      ih fun u hu => h u (List.mem_cons_of_mem _ hu)]

theorem openOccurrences_of_isTerminal (h : t.kind.isTerminal = true) :
    t.openOccurrences = [] := by
  obtain ⟨k, ts⟩ := t
  cases k <;> first | rfl | exact absurd h Bool.false_ne_true

theorem openOccurrencesAll_of_isTerminal (h : ∀ t ∈ ts, t.kind.isTerminal = true) :
    openOccurrencesAll ts = [] := by
  induction ts with
  | nil => rfl
  | cons t ts ih =>
    rw [openOccurrencesAll, openOccurrences_of_isTerminal (h t List.mem_cons_self),
      ih fun u hu => h u (List.mem_cons_of_mem _ hu), List.nil_append]

end Tree

/-! ## Scopes of nodes -/

namespace Pool

variable {H : NodeHash} {p : Pool} {held : Multiset NodeId} {n : NodeId} {t : Tree}

/-- Filtering the operands' variables and the node's own together comes to the same as going by the
kind: terminals have no operands, what is accessed by strides is a terminal, and nodes that bind
mention nothing. -/
theorem WellFormed.openOccurrences_eq (hp : p.WellFormed H held) (ht : p.tree? n = some t) :
    t.openOccurrences = t.occurrences := by
  induction n using Nat.strongRecOn generalizing t with
  | ind n ih =>
    obtain ⟨k, ts⟩ := t
    obtain ⟨ops, hnode, hops⟩ := hp.closed.tree?_eq_some_iff.mp ht
    have hadmits := hp.admitted hnode
    have hall : Tree.openOccurrencesAll ts = Tree.occurrencesAll ts := by
      obtain ⟨-, hden⟩ := hp.closed.denotes_operands ht
      refine Tree.openOccurrencesAll_eq fun u hu => ?_
      obtain ⟨m, hm, hmu⟩ := hden.exists_node hu
      exact ih m (mem_operands_lt hm) hmu
    have hleaf : ops = [] → ts = [] := by
      rintro rfl
      exact List.forall₂_nil_left_iff.mp hops
    rw [Tree.occurrences, ← hall]
    cases k with
    | literal bits shape =>
      obtain rfl := hleaf hadmits.1
      rfl
    | zero _ | identity _ | «variable» _ _ | failure _ _ =>
      obtain rfl := hleaf hadmits
      rfl
    | delta i j =>
      obtain rfl := hleaf hadmits
      simp [Tree.openOccurrences, Tree.openOccurrencesAll, Kind.ownIndices, Kind.boundIndices]
    | flexiblyIndexed dims =>
      have hterminal : ∀ u ∈ ts, u.kind.isTerminal = true := by
        intro u hu
        obtain ⟨m, hm, hmu⟩ := Denotes.exists_node (p := p) hops hu
        obtain ⟨k, hk, hterminal⟩ := hadmits.2.2 m hm
        have hkind := (hp.closed.denotes_operands hmu).1
        obtain rfl := Option.some.inj (hkind.symm.trans hk)
        exact hterminal
      rw [Tree.openOccurrencesAll_of_isTerminal hterminal]
      simp [Tree.openOccurrences, Kind.ownIndices, Kind.boundIndices]
    | _ => simp [Tree.openOccurrences, Kind.ownIndices, Kind.boundIndices]

/-- The free indices of a node are the first of the open occurrences in its expression. -/
theorem WellFormed.openIndices_of_tree (hp : p.WellFormed H held) (ht : p.tree? n = some t) :
    p.openIndices n = t.openOccurrences.eraseDups := by
  rw [hp.closed.openIndices_of_tree ht, Tree.openIndices_eq, hp.openOccurrences_eq ht]

end Pool

/-! ## Free indices in sessions -/

namespace Session

variable {H : NodeHash} {s : Session} {n : NodeId}

/-- **Scope.** In a reachable session, the free indices of a living node are the open variables of
its expression, each once and in the order of first occurrences. A loop variable is one of them iff
some path from the node leads to a mention of it and leaves no node that binds it. -/
theorem Reachable.freeIndices_scope (h : s.Reachable H) (hn : s.pool.Alive n) :
    ∃ t, s.pool.tree? n = some t ∧
      (s.pool.freeIndices n).1 = t.openOccurrences.eraseDups ∧
      (s.pool.freeIndices n).1.Nodup ∧
      (∀ before i after, t.openOccurrences = before ++ i :: after → i ∉ before →
        before.eraseDups ++ [i] <+: (s.pool.freeIndices n).1) ∧
      ∀ i, i ∈ (s.pool.freeIndices n).1 ↔ ∃ u, t.Descends i u ∧ u.kind.Mentions i := by
  have hpool := h.wellFormed.pool
  obtain ⟨t, ht⟩ := hpool.closed.exists_tree hn
  have hfree : (s.pool.freeIndices n).1 = t.openOccurrences.eraseDups := by
    rw [(hpool.freeIndices_spec n).free_eq, hpool.openIndices_of_tree ht]
  refine ⟨t, ht, hfree, ?_, fun before i after heq hi => ?_, fun i => ?_⟩
  · rw [hfree]
    exact nodup_eraseDups _
  · rw [hfree, heq]
    exact eraseDups_concat_prefix hi
  · rw [hfree, List.mem_eraseDups, hpool.openOccurrences_eq ht]
    exact Tree.mem_occurrences_iff

/-- A product in which one factor sums over an index that is open in the other. -/
theorem freeIndices_of_bound_and_open :
    let H : NodeHash := fun _ _ => 0
    let i : Index := ⟨0, none, 2, by decide⟩
    let j : Index := ⟨1, none, 3, by decide⟩
    let x : Tree := .node (.indexed [.free i, .free j]) [.node (.variable "A" [2, 3]) []]
    ∃ (s : Session) (n : NodeId), s.Reachable H ∧ s.pool.Alive n ∧
      s.pool.tree? n = some (.node .product [.node (.indexSum [i]) [x], x]) ∧
      (s.pool.freeIndices n).1 = [j, i] := by
  intro H i j x
  have hi : Reachable H { indices := [("i", i)] } :=
    Reachable.start.step (.index (some "i") (.chosen 0 2))
  have hj : Reachable H { indices := [("j", j), ("i", i)] } :=
    hi.step (.index (some "j") (.chosen 1 3))
  let p : Pool := (Pool.empty.construct H (.variable "A" [2, 3])).2
  let q : Pool := (p.construct H (.indexed 0 [.free i, .free j])).2
  have ha : Reachable H
      { pool := p, indices := [("j", j), ("i", i)], nodes := [("a", 0)] } :=
    hj.construct (c := .variable "A" [2, 3]) rfl rfl (by decide +kernel) rfl
  have hx : Reachable H
      { pool := q, indices := [("j", j), ("i", i)], nodes := [("x", 1), ("a", 0)] } :=
    ha.construct (c := .indexed "a" [.free "i", .free "j"]) rfl rfl (by decide +kernel) rfl
  have hxtree : q.tree? 1 = some x := by decide +kernel
  have hopen : q.openIndices 1 = [i, j] := by
    rw [hx.wellFormed.pool.openIndices_of_tree hxtree]
    decide
  have hsome : [1].mapM q.tree? = some [x] := by simp [hxtree]
  -- the sum is over an index that is free in its operand
  have hadmits : q.Admits (.indexSum [i]) [1] :=
    ⟨List.cons_ne_nil _ _, rfl, fun a ha k hk => by
      rw [List.mem_singleton.mp ha, List.mem_singleton.mp hk, hopen]
      exact List.mem_cons_self⟩
  obtain ⟨e, r, he, hold, hsum⟩ := hx.exists_construct "e" (c := .indexSum "x" ["i"])
    (d := .indexSum 1 [i]) rfl rfl rfl hadmits hsome rfl
  have hxtree' : r.tree? 1 = some x := (hold 1 (by decide +kernel)).trans hxtree
  have hboth : [e, 1].mapM r.tree? = some [.node (.indexSum [i]) [x], x] := by
    simp [he, hxtree']
  obtain ⟨f, u, hf, -, hs⟩ := hsum.exists_construct "f" (c := .product "e" "x")
    (d := .product e 1) rfl rfl rfl rfl hboth rfl
  have halive := Pool.alive_of_tree hf
  refine ⟨_, f, hs, halive, hf, ?_⟩
  obtain ⟨t, ht, hfree, -⟩ := hs.freeIndices_scope halive
  obtain rfl := Option.some.inj (hf.symm.trans ht)
  rw [hfree]
  decide

end Session

end TensorCost
