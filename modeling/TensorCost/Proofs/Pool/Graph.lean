import TensorCost.Proofs.Lists
import TensorCost.Tree

/-!
# The graph in a pool

What expressions mean depends on the kinds and operands of living nodes alone, not on hashes, holds,
buckets or kept free indices. `Pool.node?` reads this graph off a pool.

* `Pool.Alive` says that a node is alive, `Pool.Closed` that operands of living nodes are alive and
  older, and `Pool.Within` that one graph is a part of another.
* `Pool.openIndices` derives the free indices of a node from scratch.

Results:
* `tree?_eq_some_iff`: an expression is a kind over the expressions of the operands.
* `Within.tree?_eq`, `Within.openIndices_eq`: a graph that grows or shrinks around a living node
  leaves its expression and its free indices as they are.
* `exists_tree`: every living node stands for an expression.
-/

namespace TensorCost.Pool

/-- The kind and the operands of a living node. -/
def node? (p : Pool) (n : NodeId) : Option (Kind × List NodeId) :=
  (p.cell? n).map fun c => (c.kind, c.operands)

/-- Whether a node is alive. -/
def Alive (p : Pool) (n : NodeId) : Prop := (p.cell? n).isSome

instance (p : Pool) (n : NodeId) : Decidable (p.Alive n) :=
  inferInstanceAs (Decidable (_ = true))

/-- Operands of living nodes are alive, and were made before the nodes that use them. -/
def Closed (p : Pool) : Prop :=
  ∀ ⦃n c⦄, p.cell? n = some c → ∀ m ∈ c.operands, m < n ∧ p.Alive m

/-- Every living node of `p` is one of `q`, of the same kind and over the same operands. -/
def Within (p q : Pool) : Prop := ∀ ⦃n x⦄, p.node? n = some x → q.node? n = some x

/-- The free indices of a node, derived without any that are kept. -/
def openIndices (p : Pool) (n : NodeId) : List Index :=
  match p.cell? n with
  | none => []
  | some c => c.kind.openIndices ((p.operands n).attach.flatMap fun m => p.openIndices m.1)
termination_by n
decreasing_by exact mem_operands_lt m.2

variable {p q : Pool} {n m : NodeId} {c d : Cell}

/-! ## Look-ups -/

theorem alive_iff_cell : p.Alive n ↔ ∃ c, p.cell? n = some c := Option.isSome_iff_exists

theorem alive_of_cell (h : p.cell? n = some c) : p.Alive n := alive_iff_cell.mpr ⟨c, h⟩

theorem not_alive_iff : ¬ p.Alive n ↔ p.cell? n = none := by
  unfold Alive
  rw [Option.isSome_iff_ne_none, Decidable.not_not]

theorem alive_iff_node : p.Alive n ↔ ∃ x, p.node? n = some x := by
  rw [← Option.isSome_iff_exists, node?, Option.isSome_map]
  rfl

theorem node?_of_cell (h : p.cell? n = some c) : p.node? n = some (c.kind, c.operands) := by
  rw [node?, h]
  rfl

theorem node?_eq_some_iff {k : Kind} {ops : List NodeId} :
    p.node? n = some (k, ops) ↔ ∃ c, p.cell? n = some c ∧ c.kind = k ∧ c.operands = ops := by
  simp [node?]

theorem kind?_eq_node : p.kind? n = (p.node? n).map Prod.fst := by
  rw [kind?, node?, Option.map_map]
  rfl

theorem operands_eq_node :
    p.operands n = (p.node? n).elim [] fun x => x.2.filter (· < n) := by
  unfold operands node?
  cases p.cell? n <;> rfl

theorem lt_allocated (h : p.Alive n) : n < p.allocated := by
  obtain ⟨c, hc⟩ := alive_iff_cell.mp h
  exact (Array.getElem?_eq_some_iff.mp (cell?_eq_some_iff.mp hc)).1

/-- In a closed graph the operands of a node are those that it was made with. -/
theorem Closed.operands_eq (hp : p.Closed) (h : p.cell? n = some c) :
    p.operands n = c.operands := by
  rw [operands_eq_node, node?_of_cell h]
  exact List.filter_eq_self.mpr fun m hm => decide_eq_true (hp h m hm).1

/-! ## Expressions and free indices -/

theorem tree?_eq_mapM :
    p.tree? n = (p.node? n).bind fun x => ((p.operands n).mapM p.tree?).map (.node x.1) := by
  rw [tree?, node?]
  cases p.cell? n with
  | none => rfl
  | some c => simp

theorem openIndices_eq_flatMap :
    p.openIndices n =
      (p.node? n).elim [] fun x => x.1.openIndices ((p.operands n).flatMap p.openIndices) := by
  rw [openIndices, node?]
  cases p.cell? n with
  | none => rfl
  | some c => simp

/-- The free indices of a living node come from those of its operands. -/
theorem Closed.openIndices_eq (hp : p.Closed) (h : p.cell? n = some c) :
    p.openIndices n = c.kind.openIndices (c.operands.flatMap p.openIndices) := by
  rw [openIndices_eq_flatMap, node?_of_cell h, hp.operands_eq h]
  rfl

/-- **The expression of a node** is its kind over the expressions of its operands. -/
theorem Closed.tree?_eq_some_iff (hp : p.Closed) {t : Tree} :
    p.tree? n = some t ↔ ∃ ops, p.node? n = some (t.kind, ops) ∧
      List.Forall₂ (fun m u => p.tree? m = some u) ops t.operands := by
  rw [tree?_eq_mapM]
  obtain ⟨k, ts⟩ := t
  constructor
  · intro h
    obtain ⟨⟨k', ops⟩, hnode, h⟩ := Option.bind_eq_some_iff.mp h
    obtain ⟨us, hus, heq⟩ := Option.map_eq_some_iff.mp h
    obtain ⟨c, hc, rfl, rfl⟩ := node?_eq_some_iff.mp hnode
    obtain ⟨rfl, rfl⟩ := Tree.node.inj heq
    rw [hp.operands_eq hc] at hus
    exact ⟨c.operands, hnode, mapM_eq_some_iff.mp hus⟩
  · rintro ⟨ops, hnode, hall⟩
    obtain ⟨c, hc, hk, rfl⟩ := node?_eq_some_iff.mp hnode
    rw [hnode, hp.operands_eq hc, Option.bind_some, mapM_eq_some_iff.mpr hall]
    rfl

/-- Every living node stands for an expression. -/
theorem Closed.exists_tree (hp : p.Closed) (hn : p.Alive n) : ∃ t, p.tree? n = some t := by
  induction n using Nat.strongRecOn with
  | ind n ih =>
    obtain ⟨c, hc⟩ := alive_iff_cell.mp hn
    have hops : ∀ m ∈ c.operands, ∃ u, p.tree? m = some u := fun m hm =>
      ih m (hp hc m hm).1 (hp hc m hm).2
    obtain ⟨ts, hts⟩ := exists_mapM_eq_some hops
    exact ⟨.node c.kind ts,
      hp.tree?_eq_some_iff.mpr ⟨c.operands, node?_of_cell hc, mapM_eq_some_iff.mp hts⟩⟩

theorem alive_of_tree {t : Tree} (h : p.tree? n = some t) : p.Alive n := by
  rw [tree?_eq_mapM] at h
  obtain ⟨x, hx, -⟩ := Option.bind_eq_some_iff.mp h
  exact alive_iff_node.mpr ⟨x, hx⟩

/-! ## Graphs that grow and shrink -/

theorem Within.of_eq (h : ∀ n, q.node? n = p.node? n) : p.Within q := fun n x hx => by
  rw [h n, hx]

theorem Within.trans {r : Pool} (h : p.Within q) (h' : q.Within r) : p.Within r :=
  fun _ _ hx => h' (h hx)

theorem Within.alive (h : p.Within q) (hn : p.Alive n) : q.Alive n := by
  obtain ⟨x, hx⟩ := alive_iff_node.mp hn
  exact alive_iff_node.mpr ⟨x, h hx⟩

theorem Within.node?_eq (h : p.Within q) (hn : p.Alive n) : q.node? n = p.node? n := by
  obtain ⟨x, hx⟩ := alive_iff_node.mp hn
  rw [h hx, hx]

theorem Within.operands_eq (h : p.Within q) (hn : p.Alive n) : q.operands n = p.operands n := by
  rw [operands_eq_node, operands_eq_node, h.node?_eq hn]

theorem Closed.alive_operands (hp : p.Closed) (h : m ∈ p.operands n) : p.Alive m := by
  unfold operands at h
  split at h
  · rename_i c hc
    exact (hp hc m (List.mem_filter.mp h).1).2
  · exact absurd h List.not_mem_nil

theorem Within.openIndices_eq (h : p.Within q) (hp : p.Closed) (hn : p.Alive n) :
    q.openIndices n = p.openIndices n := by
  induction n using Nat.strongRecOn with
  | ind n ih =>
    rw [openIndices_eq_flatMap, openIndices_eq_flatMap, h.node?_eq hn, h.operands_eq hn]
    have hops : (p.operands n).flatMap q.openIndices = (p.operands n).flatMap p.openIndices :=
      List.flatMap_congr fun m hm => ih m (mem_operands_lt hm) (hp.alive_operands hm)
    rw [hops]

theorem Within.tree?_eq (h : p.Within q) (hp : p.Closed) (hn : p.Alive n) :
    q.tree? n = p.tree? n := by
  induction n using Nat.strongRecOn with
  | ind n ih =>
    rw [tree?_eq_mapM, tree?_eq_mapM, h.node?_eq hn, h.operands_eq hn]
    rw [mapM_congr_left fun m hm => ih m (mem_operands_lt hm) (hp.alive_operands hm)]

end TensorCost.Pool
