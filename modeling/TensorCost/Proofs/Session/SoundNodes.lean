import Mathlib.Algebra.BigOperators.Group.List.Basic
import TensorCost.Proofs.Index
import TensorCost.Proofs.Scope

/-!
# Sound nodes

Each constructor checks some of the conditions under which a kind and operands make a node, and the
others hold by the way in which it is called. Here they are said together, of a node rather than of
a call, with the free indices as a session answers them.

* `Kind.arity` is the number of operands that a kind asks for, `Pool.Sound` says that a kind and
  operands are fit for each other, and `Pool.IsOperand` is the relation of a node to its users.

Results:
* `WellFormed.sound_iff`: over living operands, these conditions are the ones that constructors
  check.
* `Closed.not_isOperand_self`: no node is below itself.
* `Index.Request.grant_iff`: a request for an index is answered iff the extent is one at least.
* `Reachable.sound_nodes`: every living node is sound, and what is sound can be constructed.
-/

namespace TensorCost

/-- How many operands nodes of a kind have. -/
inductive Arity
  | exactly (count : Nat)
  | oneOrMore

/-- Whether a node may have `n` operands. -/
def Arity.Allows (n : Nat) : Arity → Prop
  | exactly count => n = count
  | oneOrMore => 1 ≤ n

/-- The number of operands of the nodes of a kind. -/
def Kind.arity : Kind → Arity
  | literal .. | zero .. | identity .. | .variable .. | failure .. | delta .. => .exactly 0
  | logicalNot | indexed _ | flexiblyIndexed _ | indexSum _ | componentTensor _ => .exactly 1
  | sum | product | division | power | comparison _ | logicalAnd | logicalOr => .exactly 2
  | conditional => .exactly 3
  | mathFunction _ | listTensor => .oneOrMore

/-! ## Indices -/

namespace Index

theorem make_iff {id extent : Nat} {name : Option String} :
    (∃ i, make id name extent = .ok i ∧ i.extent = extent) ↔ 1 ≤ extent := by
  unfold make
  split
  · rename_i hpos
    exact iff_of_true ⟨_, rfl, rfl⟩ hpos
  · rename_i hzero
    exact iff_of_false (by simp) hzero

/-- A request is answered, by an index of the extent that it asks for, iff that is one at least. -/
theorem Request.grant_iff (r : Request) (next : Nat) :
    (∃ i, (r.grant next).1 = .ok i ∧ i.extent = r.extent) ↔ 1 ≤ r.extent := by
  cases r <;> exact make_iff

end Index

namespace Pool

/-- The conditions under which a kind and operands make a node. -/
structure Sound (p : Pool) (k : Kind) (ops : List NodeId) : Prop where
  arity : k.arity.Allows ops.length
  /-- A literal gives a value for each place of its shape. The number of places is the product as a
  word of 64 bits holds it, and so the product itself where that fits. -/
  literal : ∀ ⦃bits shape⦄, k = .literal bits shape → bits.length = shape.prod % UInt64.size
  indexed : ∀ ⦃items⦄, k = .indexed items → items ≠ []
  /-- Strided access has a dimension, and reaches into a terminal. -/
  strided : ∀ ⦃dims⦄, k = .flexiblyIndexed dims → dims ≠ [] ∧
    ∀ a ∈ ops, (∃ l, p.kind? a = some l ∧ l.isTerminal = true) ∧ (p.freeIndices a).1 = []
  /-- A binder has an index, and all of its indices are free in the operand. -/
  binder : ∀ ⦃bound⦄, k = .indexSum bound ∨ k = .componentTensor bound → bound ≠ [] ∧
    ∀ a ∈ ops, ∀ i ∈ bound, i ∈ (p.freeIndices a).1
  extent : ∀ ⦃i⦄, k.Mentions i ∨ k.Binds i → 1 ≤ i.extent

/-- Whether `m` is an operand of the living node `n`. -/
def IsOperand (p : Pool) (m n : NodeId) : Prop := ∃ c, p.cell? n = some c ∧ m ∈ c.operands

variable {H : NodeHash} {p q : Pool} {held : Multiset NodeId} {n m : NodeId} {k : Kind}
  {ops : List NodeId} {c : Construction NodeId Index}

/-! ## Operands -/

theorem Closed.lt_of_transGen (hp : p.Closed) (h : Relation.TransGen p.IsOperand m n) :
    m < n := by
  induction h with
  | single hoperand =>
    obtain ⟨c, hc, hm⟩ := hoperand
    exact (hp hc _ hm).1
  | tail _ hoperand ih =>
    obtain ⟨c, hc, hm⟩ := hoperand
    exact ih.trans (hp hc _ hm).1

/-- **No node is below itself.** -/
theorem Closed.not_isOperand_self (hp : p.Closed) (n : NodeId) :
    ¬ Relation.TransGen p.IsOperand n n := fun h => Nat.lt_irrefl n (hp.lt_of_transGen h)

/-- Nothing is free in data. -/
theorem WellFormed.freeIndices_of_isTerminal (hp : p.WellFormed H held)
    (hk : p.kind? n = some k) (hterminal : k.isTerminal = true) : (p.freeIndices n).1 = [] := by
  have hn : p.Alive n := by
    rw [kind?, Option.map_eq_some_iff] at hk
    obtain ⟨c, hc, -⟩ := hk
    exact alive_of_cell hc
  obtain ⟨t, ht⟩ := hp.closed.exists_tree hn
  obtain ⟨hkind, -⟩ := hp.closed.denotes_operands ht
  obtain rfl := Option.some.inj (hk.symm.trans hkind)
  rw [(hp.freeIndices_spec n).free_eq, hp.openIndices_of_tree ht,
    Tree.openOccurrences_of_isTerminal hterminal]
  rfl

/-! ## Checks of constructors -/

theorem places_eq_prod_mod (shape : List Nat) : places shape = shape.prod % UInt64.size := by
  rw [places, List.prod_eq_foldl]

theorem Admits.arity (h : p.Admits k ops) : k.arity.Allows ops.length := by
  cases k with
  | literal bits shape => exact List.length_eq_zero_iff.mpr h.1
  | zero _ | identity _ | «variable» _ _ | failure _ _ | delta _ _ =>
    exact List.length_eq_zero_iff.mpr h
  | mathFunction _ | listTensor => exact List.length_pos_of_ne_nil h
  | indexed items => exact h.2
  | flexiblyIndexed dims => exact h.2.1
  | indexSum bound => exact h.2.1
  | componentTensor bound => exact h.2.1
  | _ => exact h

/-- Constructors check that an operand is a terminal where nothing may be free in it. -/
theorem WellFormed.sound_of_admits (hp : p.WellFormed H held) (h : p.Admits k ops) :
    p.Sound k ops where
  arity := h.arity
  literal := by
    rintro bits shape rfl
    exact h.2.trans (places_eq_prod_mod shape)
  indexed := by
    rintro items rfl
    exact h.1
  strided := by
    rintro dims rfl
    refine ⟨h.1, fun a ha => ⟨h.2.2 a ha, ?_⟩⟩
    obtain ⟨l, hl, hterminal⟩ := h.2.2 a ha
    exact hp.freeIndices_of_isTerminal hl hterminal
  binder := by
    rintro bound hbound
    simp only [(hp.freeIndices_spec _).free_eq]
    rcases hbound with rfl | rfl
    · exact ⟨h.1, h.2.2⟩
    · exact ⟨h.1, h.2.2⟩
  extent i _ := i.extent_pos

theorem WellFormed.admits_of_sound (hp : p.WellFormed H held) (h : p.Sound k ops) :
    p.Admits k ops := by
  obtain ⟨harity, hliteral, hindexed, hstrided, hbinder, -⟩ := h
  simp only [(hp.freeIndices_spec _).free_eq] at hbinder
  cases k with
  | literal bits shape =>
    exact ⟨List.length_eq_zero_iff.mp harity, (hliteral rfl).trans (places_eq_prod_mod _).symm⟩
  | zero _ | identity _ | «variable» _ _ | failure _ _ | delta _ _ =>
    exact List.length_eq_zero_iff.mp harity
  | mathFunction _ | listTensor => exact List.ne_nil_of_length_pos harity
  | indexed items => exact ⟨hindexed rfl, harity⟩
  | flexiblyIndexed dims =>
    exact ⟨(hstrided rfl).1, harity, fun a ha => ((hstrided rfl).2 a ha).1⟩
  | indexSum bound => exact ⟨(hbinder (.inl rfl)).1, harity, (hbinder (.inl rfl)).2⟩
  | componentTensor bound => exact ⟨(hbinder (.inr rfl)).1, harity, (hbinder (.inr rfl)).2⟩
  | _ => exact harity

/-- **Sound nodes** are those that constructors accept. -/
theorem WellFormed.sound_iff (hp : p.WellFormed H held) : p.Sound k ops ↔ p.Admits k ops :=
  ⟨hp.admits_of_sound, hp.sound_of_admits⟩

/-- **A construction over living operands** makes a node iff what it asks for is sound, and the node
is the one that it asks for. -/
theorem WellFormed.construct_iff_sound (hp : p.WellFormed H held)
    (halive : ∀ m ∈ c.operands, p.Alive m) :
    (∃ n q, p.construct H c = (.ok n, q) ∧ q.node? n = some (k, c.operands)) ↔
      c.kind? = some k ∧ p.Sound k c.operands := by
  rw [hp.sound_iff]
  constructor
  · rintro ⟨n, q, hmade, hn⟩
    obtain ⟨l, hl, hadmits, hnode, -⟩ := hp.node?_construct halive hmade
    rw [hn] at hnode
    obtain ⟨rfl, -⟩ := Prod.mk.inj (Option.some.inj hnode)
    exact ⟨hl, hadmits⟩
  · rintro ⟨hk, hadmits⟩
    obtain ⟨n, q, hmade⟩ := hp.exists_construct halive hk hadmits
    obtain ⟨l, hl, -, hnode, -⟩ := hp.node?_construct halive hmade
    obtain rfl := Option.some.inj (hl.symm.trans hk)
    exact ⟨n, q, hmade, hnode⟩

end Pool

namespace Session

variable {H : NodeHash} {s : Session}

/-- **Sound nodes.** In a reachable session every living node is sound, over living operands, and no
node is below itself. Conversely a construction over living operands is answered with a node of a
certain kind over these iff it asks for that kind and the two are sound. An index can be had of any
extent that is one at least, and of no other. -/
theorem Reachable.sound_nodes (h : s.Reachable H) :
    (∀ n k ops, s.pool.node? n = some (k, ops) →
      s.pool.Sound k ops ∧ ∀ m ∈ ops, s.pool.Alive m) ∧
    (∀ n, ¬ Relation.TransGen s.pool.IsOperand n n) ∧
    (∀ c : Construction NodeId Index, (∀ m ∈ c.operands, s.pool.Alive m) → ∀ k,
      (∃ n q, s.pool.construct H c = (.ok n, q) ∧ q.node? n = some (k, c.operands)) ↔
        c.kind? = some k ∧ s.pool.Sound k c.operands) ∧
    ∀ (r : Index.Request) (next : Nat),
      (∃ i, (r.grant next).1 = .ok i ∧ i.extent = r.extent) ↔ 1 ≤ r.extent := by
  have hpool := h.wellFormed.pool
  refine ⟨fun n k ops hn => ⟨hpool.sound_iff.mpr (hpool.admitted hn), ?_⟩,
    hpool.closed.not_isOperand_self, fun c halive k => hpool.construct_iff_sound halive,
    Index.Request.grant_iff⟩
  obtain ⟨c, hc, -, rfl⟩ := Pool.node?_eq_some_iff.mp hn
  exact fun m hm => (hpool.closed hc m hm).2

/-- A sum over the index of a strided access is sound. The index can be turned into an axis of the
access as well, and an index without extent cannot be had. -/
theorem sound_nodes_of_strided_sum :
    let H : NodeHash := fun _ _ => 0
    let i : Index := ⟨0, none, 2, by decide⟩
    ∃ (s : Session) (n : NodeId) (ops : List NodeId), s.Reachable H ∧
      s.pool.node? n = some (.indexSum [i], ops) ∧ s.pool.Sound (.indexSum [i]) ops ∧
      ¬ Relation.TransGen s.pool.IsOperand n n ∧
      (∃ m q, s.pool.construct H (.componentTensor 1 [i]) = (.ok m, q) ∧
        q.node? m = some (.componentTensor [i], [1])) ∧
      ¬ ∃ j, ((Index.Request.fresh 0).grant 1).1 = .ok j ∧ j.extent = 0 := by
  intro H i
  let dims : List (Dimension Index) := [⟨0, [(i, 3)]⟩]
  let x : Tree := .node (.flexiblyIndexed dims) [.node (.variable "w" [8]) []]
  let p : Pool := (Pool.empty.construct H (.variable "w" [8])).2
  let q : Pool := (p.construct H (.flexiblyIndexed 0 dims)).2
  have hi : Reachable H { indices := [("i", i)] } :=
    Reachable.start.step (.index (some "i") (.chosen 0 2))
  have hw : Reachable H { pool := p, indices := [("i", i)], nodes := [("w", 0)] } :=
    hi.construct (c := .variable "w" [8]) rfl rfl (by decide +kernel) rfl
  have hx : Reachable H { pool := q, indices := [("i", i)], nodes := [("x", 1), ("w", 0)] } :=
    hw.construct (c := .flexiblyIndexed "w" [⟨0, [("i", 3)]⟩]) rfl rfl (by decide +kernel) rfl
  have hxtree : q.tree? 1 = some x := by decide +kernel
  have hsome : [1].mapM q.tree? = some [x] := by simp [hxtree]
  -- the index is free in the access, whatever has been made since
  have hbound : ∀ {u : Session}, u.Reachable H → u.pool.tree? 1 = some x →
      ∀ a ∈ [1], ∀ k ∈ [i], k ∈ u.pool.openIndices a := by
    intro u hu hutree a ha k hk
    rw [List.mem_singleton.mp ha, List.mem_singleton.mp hk,
      hu.wellFormed.pool.openIndices_of_tree hutree]
    decide
  obtain ⟨e, r, he, hold, hsum⟩ := hx.exists_construct "e" (c := .indexSum "x" ["i"])
    (d := .indexSum 1 [i]) rfl rfl rfl ⟨List.cons_ne_nil _ _, rfl, hbound hx hxtree⟩
    hsome rfl
  have hxtree' : r.tree? 1 = some x := (hold 1 (by decide +kernel)).trans hxtree
  obtain ⟨hsound, hacyclic, hconverse, hindex⟩ := hsum.sound_nodes
  have hpool := hsum.wellFormed.pool
  obtain ⟨ops, hnode, -⟩ := hpool.closed.tree?_eq_some_iff.mp he
  have halive : ∀ m ∈ [1], r.Alive m := fun m hm =>
    List.mem_singleton.mp hm ▸ Pool.alive_of_tree hxtree'
  have hfit := hpool.sound_of_admits (k := .componentTensor [i])
    ⟨List.cons_ne_nil _ _, rfl, hbound hsum hxtree'⟩
  exact ⟨_, e, ops, hsum, hnode, (hsound _ _ _ hnode).1, hacyclic e,
    (hconverse (.componentTensor 1 [i]) halive _).mpr ⟨rfl, hfit⟩,
    mt (hindex (.fresh 0) 1).mp (Nat.not_succ_le_zero 0)⟩

end Session

end TensorCost
