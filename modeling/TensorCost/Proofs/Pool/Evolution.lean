import TensorCost.PostOrder
import TensorCost.Proofs.Pool.Move

/-!
# Pools over time

Numbers are not used twice, so a node can be followed from a pool to a later one. As long as it
lives, its kind and its operands stay what they are, and so do its free indices once they are kept.

* `Pool.Evolves` says that one pool came later than another.

Results:
* `Moves.evolves`: operations lead to later pools.
* `Evolves.node?_of_reaches`: a node that lives on keeps everything below it.
* `releaseAll_within`: giving up holds adds nothing.
-/

namespace TensorCost.Pool

variable {H : NodeHash} {p q r : Pool} {held : Multiset NodeId} {n m : NodeId} {k : Kind}
  {ops : List NodeId}

/-- Whether `q` is what has become of `p`. -/
structure Evolves (p q : Pool) : Prop where
  allocated_le : p.allocated ≤ q.allocated
  /-- A number that had been given is that of the same node, or of none. -/
  node? : ∀ ⦃n x⦄, n < p.allocated → q.node? n = some x → p.node? n = some x
  /-- Free indices that were kept are kept as long as their node lives. -/
  kept : ∀ ⦃n free⦄, p.derived? n = some free → q.Alive n → q.derived? n = some free

theorem Evolves.refl (p : Pool) : Evolves p p := ⟨Nat.le_refl _, fun _ _ _ h => h, fun _ _ h _ => h⟩

theorem Evolves.alive (h : Evolves p q) (hn : n < p.allocated) (hq : q.Alive n) : p.Alive n := by
  obtain ⟨x, hx⟩ := alive_iff_node.mp hq
  exact alive_iff_node.mpr ⟨x, h.node? hn hx⟩

theorem Evolves.trans (h : Evolves p q) (h' : Evolves q r) : Evolves p r where
  allocated_le := Nat.le_trans h.allocated_le h'.allocated_le
  node? _ _ hn hx := h.node? hn (h'.node? (Nat.lt_of_lt_of_le hn h.allocated_le) hx)
  kept n free hfree hr := by
    have hn : n < p.allocated := lt_allocated (alive_of_derived (by simp [hfree]))
    have hq : q.Alive n := h'.alive (Nat.lt_of_lt_of_le hn h.allocated_le) hr
    exact h'.kept (h.kept hfree hq) hr

theorem Evolves.node?_eq (h : Evolves p q) (hp : p.Alive n) (hq : q.Alive n) :
    q.node? n = p.node? n := by
  obtain ⟨x, hx⟩ := alive_iff_node.mp hq
  rw [hx, h.node? (lt_allocated hp) hx]

theorem Closed.alive_of_reaches (hp : p.Closed) (hn : p.Alive n) (h : p.Reaches n m) :
    p.Alive m := by
  induction h with
  | refl => exact hn
  | step hoperand _ ih => exact ih (hp.alive_operands hoperand)

/-- **A node that lives on** keeps everything below it. -/
theorem Evolves.node?_of_reaches (h : Evolves p q) (hpclosed : p.Closed) (hqclosed : q.Closed)
    (hp : p.Alive n) (hq : q.Alive n) (hreach : p.Reaches n m) :
    q.Alive m ∧ q.node? m = p.node? m := by
  induction hreach with
  | refl => exact ⟨hq, h.node?_eq hp hq⟩
  | step hoperand _ ih =>
    have hsame := h.node?_eq hp hq
    have hoperand' := hoperand
    rw [operands_eq_node, ← hsame, ← operands_eq_node] at hoperand'
    exact ih (hpclosed.alive_operands hoperand) (hqclosed.alive_operands hoperand')

/-! ## Operations -/

/-- An update of holds and kept free indices that changes none that were kept. -/
theorem SameRecords.evolves (h : SameRecords p q)
    (hkept : ∀ ⦃n free⦄, p.derived? n = some free → q.derived? n = some free) : Evolves p q where
  allocated_le := Nat.le_of_eq h.allocated.symm
  node? n _ _ hx := by rwa [h.node?_eq] at hx
  kept _ _ hfree _ := hkept hfree

theorem evolves_retain : Evolves p (p.retain n) :=
  sameRecords_retain.evolves fun m free hfree => by rwa [derived?_retain]

theorem evolves_drop {c : Cell} (hc : p.cell? n = some c) :
    Evolves p (p.setCell n { c with holds := c.holds - 1 }) := by
  refine (sameRecords_setHolds hc _).evolves fun m free hfree => ?_
  rwa [derived?_of_map (cell?_setCell_map hc (fun c => { c with holds := c.holds - 1 }) m)]
  intro c
  split <;> rfl

theorem evolves_remove (hash : UInt64) : Evolves p (p.remove n hash) where
  allocated_le := Nat.le_of_eq (allocated_remove hash).symm
  node? _ _ _ hx := within_of_remove hash hx
  kept _ _ hfree hm := by rwa [derived?_of_remove hm]

/-- Keeping free indices that are right changes none that are kept already. -/
theorem DerivationStep.evolves (h : DerivationStep p q) (hp : p.Derived) : Evolves p q := by
  obtain @⟨n, -⟩ := h
  refine (sameRecords_setFree _).evolves fun m free hfree => ?_
  by_cases hn : p.Alive n
  · rw [derived?_setFree hn]
    split
    · rename_i hm
      rw [hp.eq hfree, hm]
    · exact hfree
  · rwa [setFree, not_alive_iff.mp hn]

theorem evolves_allocate (hash : UInt64) : Evolves p (p.allocate hash k ops).2 where
  allocated_le := by
    rw [allocated_allocate]
    exact Nat.le_succ _
  node? n x hn hx := by rwa [node?_allocate, if_neg (Nat.ne_of_lt hn)] at hx
  kept n free hfree _ := by rwa [derived?_allocate]

theorem evolves_counters (lookups hits : Nat) :
    Evolves p { p with lookups := lookups, hits := hits } :=
  (sameRecords_counters lookups hits).evolves fun _ _ hfree => hfree

theorem WellFormed.evolves_intern (hp : p.WellFormed H held) (k : Kind) (ops : List NodeId) :
    Evolves p (p.intern H k ops).2 := by
  by_cases hfound : ∃ n, p.node? n = some (k, ops)
  · obtain ⟨n, hn⟩ := hfound
    rw [hp.intern_of_node hn]
    exact (evolves_counters _ _).trans evolves_retain
  · rw [hp.intern_of_forall_ne fun n hn => hfound ⟨n, hn⟩]
    exact (evolves_counters (p.lookups + 1) p.hits).trans (evolves_allocate _)

theorem Move.evolves {x y : Pool × Multiset NodeId} (h : Move H x y)
    (hx : x.1.WellFormed H x.2) : Evolves x.1 y.1 := by
  cases h with
  | retain alive => exact evolves_retain
  | drop cell several => exact evolves_drop cell
  | die cell last => exact evolves_remove _
  | derive step => exact step.evolves hx.derived
  | intern alive admits => exact hx.evolves_intern _ _

/-- **Operations lead to later pools.** -/
theorem Moves.evolves {x y : Pool × Multiset NodeId} (h : Moves H x y)
    (hx : x.1.WellFormed H x.2) : Evolves x.1 y.1 := by
  induction h with
  | refl => exact .refl _
  | tail hmoves hmove ih => exact ih.trans (hmove.evolves (Moves.wellFormed hmoves hx))

/-! ## Giving up holds -/

/-- Giving up holds adds no node and changes none. -/
theorem releaseAll_within (p : Pool) (work : List NodeId) : (p.releaseAll work).Within p := by
  fun_induction p.releaseAll work with
  | case1 p => exact fun _ _ hx => hx
  | case2 p n rest hdead ih => exact ih
  | case3 p n rest c hc hlast ih => exact ih.trans (within_of_remove _)
  | case4 p n rest c hc hlast ih => exact ih.trans (sameRecords_setHolds hc _).symm.within

/-- In a smaller pool, a living node reaches what it reached before. -/
theorem Within.reaches_iff (h : q.Within p) (hq : q.Closed) (hn : q.Alive n) :
    q.Reaches n m ↔ p.Reaches n m := by
  constructor
  · intro hreach
    induction hreach with
    | refl => exact .refl _
    | step hoperand _ ih =>
      rw [← h.operands_eq hn] at hoperand
      exact .step hoperand (ih (hq.alive_operands (h.operands_eq hn ▸ hoperand)))
  · intro hreach
    induction hreach with
    | refl => exact .refl _
    | step hoperand _ ih =>
      rw [h.operands_eq hn] at hoperand
      exact .step hoperand (ih (hq.alive_operands hoperand))

end TensorCost.Pool
