import Mathlib.Logic.Relation
import TensorCost.Proofs.Pool.Invariant

/-!
# Deriving free indices

Queries about free indices and prices, and constructors that bind indices, change a pool in one way
only: they keep free indices that were not kept before. A `Derivation` is such a change, put
together from steps that keep the free indices of one node when those of its operands are kept.

Results:
* `Derivation.sameRecords`, `Derivation.derived`: a derivation leaves the graph and the holds alone,
  and what is kept stays right.
* `freeIndices_spec`: asking for the free indices of a node answers what would be derived from
  scratch, by a derivation that keeps them.
-/

namespace TensorCost.Pool

variable {p q r : Pool} {n m : NodeId} {c : Cell}

/-- One derivation step: the free indices of a node are kept once those of its operands are. -/
inductive DerivationStep : Pool → Pool → Prop
  | keep {p : Pool} {n : NodeId} (operands : ∀ m ∈ p.operands n, (p.derived? m).isSome) :
    DerivationStep p (p.setFree n (p.openIndices n))

/-- Free indices have been derived and kept at some nodes, operands first. -/
abbrev Derivation : Pool → Pool → Prop := Relation.ReflTransGen DerivationStep

/-! ## Kept free indices -/

theorem alive_of_derived (h : (p.derived? n).isSome) : p.Alive n := by
  unfold derived? at h
  cases hc : p.cell? n with
  | none => simp [hc] at h
  | some c => exact alive_of_cell hc

theorem derived?_of_map {f : Cell → Cell} (h : q.cell? m = (p.cell? m).map f)
    (hf : ∀ c, (f c).free = c.free) : q.derived? m = p.derived? m := by
  unfold derived?
  rw [h]
  cases p.cell? m with
  | none => rfl
  | some c => simp [hf]

theorem derived?_setFree (hn : p.Alive n) (free : List Index) (m : NodeId) :
    (p.setFree n free).derived? m = if m = n then some free else p.derived? m := by
  obtain ⟨c, hc⟩ := alive_iff_cell.mp hn
  unfold derived?
  rw [cell?_setFree]
  by_cases hm : m = n
  · subst hm
    simp [hc, Memo.done]
  · simp [hm]

/-- Kept free indices stay right when the graph stays the same. -/
theorem SameRecords.derived (h : SameRecords p q) (hclosed : p.Closed) (hp : p.Derived)
    (hd : ∀ m, q.derived? m = p.derived? m) : q.Derived where
  eq n free hn := by
    rw [hd] at hn
    rw [hp.eq hn]
    exact (h.within.openIndices_eq hclosed (alive_of_derived (by simp [hn]))).symm
  operands n hn m hm := by
    rw [hd] at hn
    rw [h.within.operands_eq (alive_of_derived hn)] at hm
    rw [hd]
    exact hp.operands hn m hm

/-- Keeping the right free indices of a node is right if those of its operands are kept. -/
theorem Derived.setFree (hclosed : p.Closed) (hp : p.Derived)
    (hops : ∀ m ∈ p.operands n, (p.derived? m).isSome) :
    (p.setFree n (p.openIndices n)).Derived := by
  have hsame : SameRecords p (p.setFree n (p.openIndices n)) := sameRecords_setFree _
  by_cases hn : p.Alive n
  · have hd := derived?_setFree hn (p.openIndices n)
    refine ⟨fun m free hm => ?_, fun m hm x hx => ?_⟩
    · have halive : p.Alive m := hsame.alive_iff.mp (alive_of_derived (by simp [hm]))
      rw [hsame.within.openIndices_eq hclosed halive]
      rw [hd] at hm
      split at hm
      · rename_i hmn
        rw [hmn]
        exact (Option.some.inj hm).symm
      · exact hp.eq hm
    · have halive : p.Alive m := hsame.alive_iff.mp (alive_of_derived hm)
      rw [hsame.within.operands_eq halive] at hx
      have hkept : (p.derived? x).isSome := by
        rw [hd] at hm
        split at hm
        · rename_i hmn
          exact hops x (hmn ▸ hx)
        · exact hp.operands hm x hx
      rw [hd]
      split
      · rfl
      · exact hkept
  · -- nothing is kept of a dead node
    have hset : p.setFree n (p.openIndices n) = p := by
      rw [Pool.setFree, not_alive_iff.mp hn]
    rw [hset]
    exact hp

/-! ## What a derivation leaves alone -/

theorem Derivation.sameRecords (h : Derivation p q) : SameRecords p q := by
  induction h with
  | refl => exact ⟨rfl, rfl, fun _ => rfl⟩
  | tail _ hstep ih =>
    cases hstep
    exact ih.trans (sameRecords_setFree _)

theorem Derivation.closed (h : Derivation p q) (hclosed : p.Closed) : q.Closed :=
  h.sameRecords.closed hclosed

theorem Derivation.derived (h : Derivation p q) (hclosed : p.Closed) (hp : p.Derived) :
    q.Derived := by
  induction h with
  | refl => exact hp
  | tail hsteps hstep ih =>
    cases hstep with
    | keep hops => exact ih.setFree (Derivation.closed hsteps hclosed) hops

/-- What is kept stays kept. -/
theorem Derivation.derived?_isSome (h : Derivation p q) (hm : (p.derived? m).isSome) :
    (q.derived? m).isSome := by
  induction h with
  | refl => exact hm
  | @tail q r _ hstep ih =>
    cases hstep with
    | @keep n _ =>
      by_cases hn : q.Alive n
      · rw [derived?_setFree hn]
        split
        · rfl
        · exact ih
      · rwa [setFree, not_alive_iff.mp hn]

theorem Derivation.openIndices_eq (h : Derivation p q) (hclosed : p.Closed) (hn : p.Alive n) :
    q.openIndices n = p.openIndices n :=
  h.sameRecords.within.openIndices_eq hclosed hn

/-! ## Asking for free indices -/

/-- The free indices of several nodes, asked for from left to right. -/
def freeIndicesAll (p : Pool) : List NodeId → List Index × Pool
  | [] => ([], p)
  | n :: ns =>
    let rest := (p.freeIndices n).2.freeIndicesAll ns
    ((p.freeIndices n).1 ++ rest.1, rest.2)

theorem foldl_freeIndices (ns : List NodeId) (acc : List Index) :
    ns.foldl (fun (state : List Index × Pool) m =>
        (state.1 ++ (state.2.freeIndices m).1, (state.2.freeIndices m).2)) (acc, p) =
      (acc ++ (p.freeIndicesAll ns).1, (p.freeIndicesAll ns).2) := by
  induction ns generalizing acc p with
  | nil => simp [freeIndicesAll]
  | cons n ns ih => rw [List.foldl_cons, ih, freeIndicesAll, List.append_assoc]

theorem freeIndices_eq_of_cell (hc : p.cell? n = some c) :
    p.freeIndices n =
      match c.free.value? with
      | some free => (free, p)
      | none =>
        (c.kind.openIndices (p.freeIndicesAll (p.operands n)).1,
          (p.freeIndicesAll (p.operands n)).2.setFree n
            (c.kind.openIndices (p.freeIndicesAll (p.operands n)).1)) := by
  rw [freeIndices]
  split
  · rename_i hnone
    rw [hc] at hnone
    exact absurd hnone (by simp)
  · rename_i d hd
    rw [hc] at hd
    obtain rfl := Option.some.inj hd
    cases hfree : c.free.value? with
    | some free => rfl
    | none =>
      have hfold := List.foldl_attach (l := p.operands n) (b := (([], p) : List Index × Pool))
        (f := fun (state : List Index × Pool) m =>
          (state.1 ++ (state.2.freeIndices m).1, (state.2.freeIndices m).2))
      rw [foldl_freeIndices, List.nil_append] at hfold
      simp only [hfold]

theorem freeIndices_of_not_alive (hn : ¬ p.Alive n) : p.freeIndices n = ([], p) := by
  rw [freeIndices]
  split
  · rfl
  · rename_i c hc
    exact absurd (alive_of_cell hc) hn

theorem openIndices_of_not_alive (hn : ¬ p.Alive n) : p.openIndices n = [] := by
  rw [openIndices, not_alive_iff.mp hn]

/-- What asking for free indices has to do. -/
structure Answers (p : Pool) (n : NodeId) (free : List Index) (q : Pool) : Prop where
  free_eq : free = p.openIndices n
  derivation : Derivation p q
  kept : p.Alive n → (q.derived? n).isSome

theorem freeIndicesAll_spec {ns : List NodeId}
    (ih : ∀ n ∈ ns, ∀ {p : Pool}, p.Closed → p.Derived →
      Answers p n (p.freeIndices n).1 (p.freeIndices n).2)
    (hclosed : p.Closed) (hp : p.Derived) (halive : ∀ n ∈ ns, p.Alive n) :
    (p.freeIndicesAll ns).1 = ns.flatMap p.openIndices ∧
      Derivation p (p.freeIndicesAll ns).2 ∧
      ∀ n ∈ ns, ((p.freeIndicesAll ns).2.derived? n).isSome := by
  induction ns generalizing p with
  | nil => exact ⟨rfl, .refl, fun n hn => absurd hn List.not_mem_nil⟩
  | cons n ns ihs =>
    obtain ⟨hfree, hder, hkept⟩ := ih n List.mem_cons_self hclosed hp
    have halive' : ∀ m ∈ ns, (p.freeIndices n).2.Alive m := fun m hm =>
      hder.sameRecords.within.alive (halive m (List.mem_cons_of_mem _ hm))
    obtain ⟨hfree', hder', hkept'⟩ := ihs (fun m hm => ih m (List.mem_cons_of_mem _ hm))
      (hder.closed hclosed) (hder.derived hclosed hp) halive'
    refine ⟨?_, hder.trans hder', fun m hm => ?_⟩
    · have hrest : ns.flatMap (p.freeIndices n).2.openIndices = ns.flatMap p.openIndices :=
        List.flatMap_congr fun m hm =>
          Derivation.openIndices_eq hder hclosed (halive m (List.mem_cons_of_mem _ hm))
      simp only [freeIndicesAll]
      rw [hfree, hfree', hrest, List.flatMap_cons]
    · rcases List.mem_cons.mp hm with rfl | hm
      · exact hder'.derived?_isSome (hkept (halive m List.mem_cons_self))
      · exact hkept' m hm

/-- **Asking for the free indices of a node** answers what would be derived from scratch, and keeps
it. -/
theorem freeIndices_spec (hclosed : p.Closed) (hp : p.Derived) (n : NodeId) :
    Answers p n (p.freeIndices n).1 (p.freeIndices n).2 := by
  induction n using Nat.strongRecOn generalizing p with
  | ind n ih =>
    by_cases hn : p.Alive n
    · obtain ⟨c, hc⟩ := alive_iff_cell.mp hn
      rw [freeIndices_eq_of_cell hc]
      cases hfree : c.free.value? with
      | some free =>
        have hkept : p.derived? n = some free := by simp [derived?, hc, hfree]
        exact ⟨hp.eq hkept, .refl, fun _ => by simp [hkept]⟩
      | none =>
        have halive : ∀ m ∈ p.operands n, p.Alive m := fun m hm => hclosed.alive_operands hm
        obtain ⟨hinner, hder, hkept⟩ := freeIndicesAll_spec
          (fun m hm _ hclosed hp => ih m (mem_operands_lt hm) hclosed hp) hclosed hp halive
        set q := (p.freeIndicesAll (p.operands n)).2
        -- the graph is that of `p` still, and so are the free indices derived from scratch
        have hopen : c.kind.openIndices (p.freeIndicesAll (p.operands n)).1 = p.openIndices n := by
          rw [hinner, hclosed.operands_eq hc, ← hclosed.openIndices_eq hc]
        have hq : q.openIndices n = p.openIndices n := hder.openIndices_eq hclosed hn
        have hqn : q.Alive n := hder.sameRecords.within.alive hn
        refine ⟨hopen, ?_, fun _ => ?_⟩
        · have hops : ∀ m ∈ q.operands n, (q.derived? m).isSome := fun m hm =>
            hkept m (by rwa [hder.sameRecords.within.operands_eq hn] at hm)
          have hstep := DerivationStep.keep hops
          rw [hq, ← hopen] at hstep
          exact hder.tail hstep
        · rw [derived?_setFree hqn, if_pos rfl]
          rfl
    · rw [freeIndices_of_not_alive hn]
      exact ⟨(openIndices_of_not_alive hn).symm, .refl, fun h => absurd h hn⟩

end TensorCost.Pool
