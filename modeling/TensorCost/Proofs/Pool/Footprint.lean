import TensorCost.PostOrder
import TensorCost.Proofs.Pool.Derivation

/-!
# Where free indices come to be kept

Asking for the free indices of a node keeps them at the node and at every node below it, and at no
other, however much was kept before.

* `Pool.Keeps` says that free indices are kept of a node.

Results:
* `Derived.of_reaches`: what is kept of a node is kept of every node below.
* `freeIndices_of_keeps`: asking for free indices that are kept changes nothing.
* `keeps_freeIndices_iff`: what is kept once the free indices of a node have been asked for.
-/

namespace TensorCost.Pool

/-- Whether free indices are kept of a node. -/
def Keeps (p : Pool) (n : NodeId) : Prop := (p.derived? n).isSome

instance (p : Pool) (n : NodeId) : Decidable (p.Keeps n) :=
  inferInstanceAs (Decidable (_ = true))

variable {p q : Pool} {n m : NodeId}

theorem keeps_iff_cell : p.Keeps n ↔ ∃ c, p.cell? n = some c ∧ c.free.value?.isSome := by
  unfold Keeps derived?
  cases p.cell? n <;> simp

/-- Free indices are kept of every node below one of which they are kept. -/
theorem Derived.of_reaches (hp : p.Derived) (hn : p.Keeps n) (h : p.Reaches n m) : p.Keeps m := by
  induction h with
  | refl => exact hn
  | step hoperand _ ih => exact ih (hp.operands hn _ hoperand)

theorem Derivation.keeps (h : Derivation p q) (hn : p.Keeps n) : q.Keeps n :=
  h.derived?_isSome hn

/-- What is kept is answered, and nothing changes. -/
theorem freeIndices_of_keeps (hn : p.Keeps n) : (p.freeIndices n).2 = p := by
  obtain ⟨c, hc, hfree⟩ := keeps_iff_cell.mp hn
  obtain ⟨free, hfree⟩ := Option.isSome_iff_exists.mp hfree
  rw [freeIndices_eq_of_cell hc, hfree]

/-! ## Nodes below -/

theorem reaches_iff_eq_or : p.Reaches n m ↔ m = n ∨ ∃ x ∈ p.operands n, p.Reaches x m := by
  constructor
  · intro h
    cases h with
    | refl => exact .inl rfl
    | step hoperand hrest => exact .inr ⟨_, hoperand, hrest⟩
  · rintro (rfl | ⟨x, hx, hrest⟩)
    · exact .refl m
    · exact .step hx hrest

theorem SameRecords.reaches_iff (h : SameRecords p q) : q.Reaches n m ↔ p.Reaches n m := by
  have hsub : ∀ {r s : Pool}, SameRecords r s → s.Reaches n m → r.Reaches n m := by
    intro r s hrs hreach
    induction hreach with
    | refl => exact .refl _
    | step hoperand _ ih => exact .step (hrs.operands_eq _ ▸ hoperand) ih
  exact ⟨hsub h, hsub h.symm⟩

/-! ## Asking for free indices -/

/-- Asking in turn keeps what is kept by each. -/
theorem keeps_freeIndicesAll_iff {ns : List NodeId}
    (ih : ∀ n ∈ ns, ∀ {p : Pool}, p.Closed → p.Derived →
      ((p.freeIndices n).2.Keeps m ↔ p.Keeps m ∨ p.Alive n ∧ p.Reaches n m))
    (hclosed : p.Closed) (hp : p.Derived) (halive : ∀ n ∈ ns, p.Alive n) :
    (p.freeIndicesAll ns).2.Keeps m ↔ p.Keeps m ∨ ∃ n ∈ ns, p.Reaches n m := by
  induction ns generalizing p with
  | nil => simp [freeIndicesAll]
  | cons n ns ihs =>
    have hder := (freeIndices_spec hclosed hp n).derivation
    have hfirst := ih n List.mem_cons_self hclosed hp
    have hrest := ihs (fun x hx => ih x (List.mem_cons_of_mem _ hx)) (hder.closed hclosed)
      (hder.derived hclosed hp) fun x hx =>
        hder.sameRecords.within.alive (halive x (List.mem_cons_of_mem _ hx))
    rw [and_iff_right (halive n List.mem_cons_self)] at hfirst
    simp only [freeIndicesAll, hrest, hfirst, hder.sameRecords.reaches_iff,
      List.exists_mem_cons_iff, or_assoc]

/-- **Asking for the free indices of a node** keeps them at the node and at every node below it, and
at no other. -/
theorem keeps_freeIndices_iff (hclosed : p.Closed) (hp : p.Derived) :
    (p.freeIndices n).2.Keeps m ↔ p.Keeps m ∨ p.Alive n ∧ p.Reaches n m := by
  induction n using Nat.strongRecOn generalizing p with
  | ind n ih =>
    by_cases hn : p.Alive n
    · rw [and_iff_right hn]
      by_cases hkept : p.Keeps n
      -- what is kept at a node is kept at all nodes below it
      · rw [freeIndices_of_keeps hkept]
        exact (or_iff_left_of_imp (hp.of_reaches hkept)).symm
      · obtain ⟨c, hc⟩ := alive_iff_cell.mp hn
        have hnone : c.free.value? = none := by
          rw [keeps_iff_cell, not_exists] at hkept
          simpa [hc] using hkept c
        have halive : ∀ x ∈ p.operands n, p.Alive x := fun x hx => hclosed.alive_operands hx
        have hops : (p.freeIndicesAll (p.operands n)).2.Keeps m ↔
            p.Keeps m ∨ ∃ x ∈ p.operands n, p.Reaches x m :=
          keeps_freeIndicesAll_iff (fun x hx _ => ih x (mem_operands_lt hx)) hclosed hp halive
        have hder : Derivation p (p.freeIndicesAll (p.operands n)).2 :=
          (freeIndicesAll_spec (fun x _ _ hclosed hp => freeIndices_spec hclosed hp x) hclosed hp
            halive).2.1
        rw [freeIndices_eq_of_cell hc, hnone, reaches_iff_eq_or]
        simp only
        unfold Keeps at hops ⊢
        rw [derived?_setFree (hder.sameRecords.within.alive hn)]
        by_cases hm : m = n
        · simp [hm]
        · rw [if_neg hm, hops, or_iff_right hm]
    · rw [freeIndices_of_not_alive hn]
      simp [hn]

end TensorCost.Pool
