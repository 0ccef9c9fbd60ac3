import Mathlib.Algebra.BigOperators.Group.Finset.Basic
import Mathlib.Algebra.Order.BigOperators.Group.Multiset
import TensorCost.Proofs.Pool.Update

/-!
# What holds of every pool

`Pool.WellFormed H p held` says that the pool `p`, whose nodes were hashed by `H` and whose holds
from outside are those of the multiset `held`, is in order. It consists of one condition for each
thing that a pool keeps:

* `Pool.Closed`: operands are alive and older;
* `Pool.Counted`: the holds on a node are those from outside and one for each operand position, and
  there is one at least;
* `Pool.Listed`: a bucket lists the living nodes of its hash, each once;
* `Pool.Canonical`: no two living nodes agree in kind and operands;
* `Pool.Derived`: free indices that are kept are the derived ones, and are kept of the operands too;
* `Pool.Admitted`: kind and operands of each node are fit for each other, as `Pool.Admits` says.

Results:
* `wellFormed_empty`: the pool without nodes is in order.
* `find?_eq_some_iff`: a look-up by hash, kind and operands finds the node that agrees in kind and
  operands, whatever else has the same hash.
-/

namespace TensorCost.Pool

/-- The nodes at the operand positions of living nodes. -/
def slots (p : Pool) : Multiset NodeId :=
  ∑ n ∈ Finset.range p.allocated, (p.node? n).elim 0 fun x => (x.2 : Multiset NodeId)

/-- Whether `ops` can be the operands of a node of kind `k`. -/
def Admits (p : Pool) : Kind → List NodeId → Prop
  | .literal bits shape, ops => ops = [] ∧ bits.length = places shape
  | .zero _, ops | .identity _, ops | .variable _ _, ops | .failure _ _, ops
  | .delta _ _, ops => ops = []
  | .sum, ops | .product, ops | .division, ops | .power, ops | .comparison _, ops
  | .logicalAnd, ops | .logicalOr, ops => ops.length = 2
  | .mathFunction _, ops | .listTensor, ops => ops ≠ []
  | .logicalNot, ops => ops.length = 1
  | .conditional, ops => ops.length = 3
  | .indexed items, ops => items ≠ [] ∧ ops.length = 1
  | .flexiblyIndexed dims, ops =>
    dims ≠ [] ∧ ops.length = 1 ∧ ∀ a ∈ ops, ∃ k, p.kind? a = some k ∧ k.isTerminal = true
  | .indexSum bound, ops | .componentTensor bound, ops =>
    bound ≠ [] ∧ ops.length = 1 ∧ ∀ a ∈ ops, ∀ i ∈ bound, i ∈ p.openIndices a

/-- Every hold is accounted for. -/
structure Counted (p : Pool) (held : Multiset NodeId) : Prop where
  alive : ∀ n ∈ held, p.Alive n
  holds_eq : ∀ ⦃n c⦄, p.cell? n = some c → c.holds = (held + p.slots).count n
  holds_pos : ∀ ⦃n c⦄, p.cell? n = some c → 0 < c.holds

/-- Every living node can be found by its hash. -/
structure Listed (H : NodeHash) (p : Pool) : Prop where
  hash_eq : ∀ ⦃n c⦄, p.cell? n = some c → c.hash = H c.kind (c.operands.map p.hashOf)
  mem_bucket_iff : ∀ n hash, n ∈ p.bucket hash ↔ ∃ c, p.cell? n = some c ∧ c.hash = hash
  nodup : ∀ hash, (p.bucket hash).Nodup
  noEmptyBucket : p.NoEmptyBucket

/-- No two living nodes agree in kind and operands. -/
def Canonical (p : Pool) : Prop := ∀ ⦃a b x⦄, p.node? a = some x → p.node? b = some x → a = b

/-- Free indices that are kept are right, and are kept of every node below as well. -/
structure Derived (p : Pool) : Prop where
  eq : ∀ ⦃n free⦄, p.derived? n = some free → free = p.openIndices n
  operands : ∀ ⦃n⦄, (p.derived? n).isSome → ∀ m ∈ p.operands n, (p.derived? m).isSome

/-- Every living node has operands that are fit for its kind. -/
def Admitted (p : Pool) : Prop := ∀ ⦃n k ops⦄, p.node? n = some (k, ops) → p.Admits k ops

/-- The pool is in order, and `held` are the holds on it from outside. -/
structure WellFormed (H : NodeHash) (p : Pool) (held : Multiset NodeId) : Prop where
  closed : p.Closed
  counted : p.Counted held
  listed : p.Listed H
  canonical : p.Canonical
  derived : p.Derived
  admitted : p.Admitted

variable {H : NodeHash} {p q : Pool} {held : Multiset NodeId} {n m : NodeId} {c : Cell}
  {k : Kind} {ops : List NodeId}

theorem cell?_empty (n : NodeId) : empty.cell? n = none := by
  simp [cell?, empty]

theorem wellFormed_empty : WellFormed H empty 0 where
  closed n c h := by simp [cell?_empty] at h
  counted :=
    { alive := fun n hn => absurd hn (Multiset.notMem_zero n)
      holds_eq := fun n c h => by simp [cell?_empty] at h
      holds_pos := fun n c h => by simp [cell?_empty] at h }
  listed :=
    { hash_eq := fun n c h => by simp [cell?_empty] at h
      mem_bucket_iff := fun n hash => by
        simp only [cell?_empty]
        simp [bucket, empty]
      nodup := fun hash => by simp [bucket, empty]
      noEmptyBucket := fun hash => by simp [empty] }
  canonical a b x h := by simp [node?, cell?_empty] at h
  derived :=
    { eq := fun n free h => by simp [derived?, cell?_empty] at h
      operands := fun n h => by simp [derived?, cell?_empty] at h }
  admitted n k ops h := by simp [node?, cell?_empty] at h

/-! ## Operand positions -/

theorem slots_congr (hallocated : q.allocated = p.allocated) (hnode : ∀ n, q.node? n = p.node? n) :
    q.slots = p.slots := by
  unfold slots
  rw [hallocated]
  exact Finset.sum_congr rfl fun n _ => by rw [hnode n]

theorem mem_slots_iff : m ∈ p.slots ↔ ∃ n c, p.cell? n = some c ∧ m ∈ c.operands := by
  unfold slots
  rw [Multiset.mem_sum]
  constructor
  · rintro ⟨n, -, hm⟩
    unfold node? at hm
    cases hc : p.cell? n with
    | none =>
      rw [hc] at hm
      exact absurd hm (Multiset.notMem_zero m)
    | some c =>
      rw [hc] at hm
      exact ⟨n, c, hc, hm⟩
  · rintro ⟨n, c, hc, hm⟩
    refine ⟨n, Finset.mem_range.mpr (lt_allocated (alive_of_cell hc)), ?_⟩
    rw [node?_of_cell hc]
    exact hm

/-- The operand positions of a node that dies are given up, and no others. -/
theorem slots_remove (hc : p.cell? n = some c) (hash : UInt64) :
    p.slots = (c.operands : Multiset NodeId) + (p.remove n hash).slots := by
  have hn : n ∈ Finset.range p.allocated :=
    Finset.mem_range.mpr (lt_allocated (alive_of_cell hc))
  unfold slots
  rw [allocated_remove, ← Finset.add_sum_erase _ _ hn, ← Finset.add_sum_erase _ _ hn,
    node?_of_cell hc]
  have hdead : (p.remove n hash).node? n = none := by
    rw [node?, cell?_remove, if_pos rfl]
    rfl
  rw [hdead]
  simp only [Option.elim_none, Option.elim_some, zero_add]
  congr 1
  refine Finset.sum_congr rfl fun m hm => ?_
  rw [node?, node?, cell?_remove, if_neg (Finset.ne_of_mem_erase hm)]

/-- A new node takes its operand positions. -/
theorem slots_of_push (hallocated : q.allocated = p.allocated + 1)
    (hnode : ∀ m, q.node? m = if m = p.allocated then some (k, ops) else p.node? m) :
    q.slots = p.slots + (ops : Multiset NodeId) := by
  unfold slots
  rw [hallocated, Finset.sum_range_succ, hnode p.allocated, if_pos rfl]
  congr 1
  refine Finset.sum_congr rfl fun m hm => ?_
  rw [hnode m, if_neg (Nat.ne_of_lt (Finset.mem_range.mp hm))]

/-! ## Looking nodes up by kind and operands -/

theorem Listed.find?_eq_some_iff (hl : p.Listed H) (hcan : p.Canonical) :
    p.find? (H k (ops.map p.hashOf)) k ops = some n ↔ p.node? n = some (k, ops) := by
  obtain ⟨agrees, hfind, hagree⟩ : ∃ agrees : NodeId → Bool,
      p.find? (H k (ops.map p.hashOf)) k ops =
        (p.bucket (H k (ops.map p.hashOf))).find? agrees ∧
      ∀ m, agrees m = true ↔ p.node? m = some (k, ops) := by
    refine ⟨_, rfl, fun m => ?_⟩
    unfold node?
    cases p.cell? m with
    | none => simp
    | some c => simp
  rw [hfind]
  constructor
  · intro h
    have hn := List.find?_some h
    exact (hagree n).mp hn
  · intro h
    obtain ⟨c, hc, rfl, rfl⟩ := node?_eq_some_iff.mp h
    have hmem : n ∈ p.bucket (H c.kind (c.operands.map p.hashOf)) :=
      (hl.mem_bucket_iff _ _).mpr ⟨c, hc, hl.hash_eq hc⟩
    -- some node of the bucket agrees, and by canonicity it is `n`
    cases hf : (p.bucket (H c.kind (c.operands.map p.hashOf))).find? agrees with
    | none => exact absurd ((hagree n).mpr h) (List.find?_eq_none.mp hf n hmem)
    | some m =>
      have hm := List.find?_some hf
      have hm : p.node? m = some (c.kind, c.operands) := (hagree m).mp hm
      exact congrArg some (hcan hm h)

/-! ## Fitness of operands -/

/-- Fitness depends on the operands and on what is below them. -/
theorem Within.admits_iff (h : p.Within q) (hp : p.Closed) (hops : ∀ m ∈ ops, p.Alive m) :
    q.Admits k ops ↔ p.Admits k ops := by
  have hkind : ∀ a ∈ ops, q.kind? a = p.kind? a := fun a ha => by
    rw [kind?_eq_node, kind?_eq_node, h.node?_eq (hops a ha)]
  have hfree : ∀ a ∈ ops, q.openIndices a = p.openIndices a := fun a ha =>
    h.openIndices_eq hp (hops a ha)
  cases k with
  | flexiblyIndexed dims =>
    refine and_congr Iff.rfl (and_congr Iff.rfl (forall₂_congr fun a ha => ?_))
    rw [hkind a ha]
  | indexSum bound =>
    refine and_congr Iff.rfl (and_congr Iff.rfl (forall₂_congr fun a ha => ?_))
    rw [hfree a ha]
  | componentTensor bound =>
    refine and_congr Iff.rfl (and_congr Iff.rfl (forall₂_congr fun a ha => ?_))
    rw [hfree a ha]
  | _ => exact Iff.rfl

/-! ## Updates outside of the graph -/

theorem SameRecords.closed (h : SameRecords p q) (hp : p.Closed) : q.Closed := by
  intro n d hd m hm
  obtain ⟨c, hc, -, hops, -⟩ := h.cell hd
  rw [hops] at hm
  exact ⟨(hp hc m hm).1, h.within.alive (hp hc m hm).2⟩

theorem SameRecords.listed (h : SameRecords p q) (hp : p.Listed H) : q.Listed H where
  hash_eq n d hd := by
    obtain ⟨c, hc, hk, hops, hhash⟩ := h.cell hd
    rw [hk, hops, hhash, hp.hash_eq hc]
    congr 1
    exact List.map_congr_left fun m _ => (h.hashOf_eq m).symm
  mem_bucket_iff n hash := by
    unfold bucket
    rw [h.buckets]
    refine (hp.mem_bucket_iff n hash).trans ⟨?_, ?_⟩
    · rintro ⟨c, hc, rfl⟩
      obtain ⟨d, hd, -, -, hhash⟩ := h.symm.cell hc
      exact ⟨d, hd, hhash.symm⟩
    · rintro ⟨d, hd, rfl⟩
      obtain ⟨c, hc, -, -, hhash⟩ := h.cell hd
      exact ⟨c, hc, hhash.symm⟩
  nodup hash := by
    unfold bucket
    rw [h.buckets]
    exact hp.nodup hash
  noEmptyBucket hash := by
    rw [h.buckets]
    exact hp.noEmptyBucket hash

theorem SameRecords.canonical (h : SameRecords p q) (hp : p.Canonical) : q.Canonical := by
  intro a b x ha hb
  rw [h.node?_eq] at ha hb
  exact hp ha hb

theorem SameRecords.admitted (h : SameRecords p q) (hclosed : p.Closed) (hp : p.Admitted) :
    q.Admitted := by
  intro n k ops hn
  rw [h.node?_eq] at hn
  obtain ⟨c, hc, rfl, rfl⟩ := node?_eq_some_iff.mp hn
  exact (h.within.admits_iff hclosed fun m hm => (hclosed hc m hm).2).mpr (hp hn)

theorem SameRecords.slots (h : SameRecords p q) : q.slots = p.slots :=
  slots_congr h.allocated h.node?_eq

/-- An update of holds and kept free indices keeps a pool in order if it keeps these in order. -/
theorem SameRecords.wellFormed {held' : Multiset NodeId} (h : SameRecords p q)
    (hp : p.WellFormed H held) (hcounted : q.Counted held') (hderived : q.Derived) :
    q.WellFormed H held' where
  closed := h.closed hp.closed
  counted := hcounted
  listed := h.listed hp.listed
  canonical := h.canonical hp.canonical
  derived := hderived
  admitted := h.admitted hp.closed hp.admitted

end TensorCost.Pool
