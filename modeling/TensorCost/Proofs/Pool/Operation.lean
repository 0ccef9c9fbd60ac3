import TensorCost.Proofs.Pool.Construction
import TensorCost.Proofs.Pool.Move

/-!
# Operations are moves

Adding and giving up holds, deriving free indices and making nodes are each a sequence of moves,
from the holds before to the holds after.

Results:
* `retainAll_moves`, `releaseAll_moves`: holds are added and given up one by one; a cascade of
  deaths hands the holds of a dying node on to its operands.
* `Derivation.moves`: deriving free indices leaves the holds as they are.
* `construct_moves`, `chain_moves`: a construction adds a hold on what it makes; a chain moves one
  on.
-/

namespace TensorCost.Pool

variable {H : NodeHash} {p q : Pool} {held : Multiset NodeId}

/-! ## Holds -/

theorem retainAll_moves {ns : List NodeId} (halive : ∀ n ∈ ns, p.Alive n) :
    Moves H (p, held) (p.retainAll ns, (ns : Multiset NodeId) + held) := by
  induction ns generalizing p held with
  | nil =>
    rw [Multiset.coe_nil, zero_add]
    exact .refl
  | cons n ns ih =>
    have hn : Move H (p, held) (p.retain n, n ::ₘ held) :=
      .retain (halive n List.mem_cons_self)
    have hrest : Moves H (p.retain n, n ::ₘ held)
        ((p.retain n).retainAll ns, (ns : Multiset NodeId) + n ::ₘ held) :=
      ih fun m hm => sameRecords_retain.within.alive (halive m (List.mem_cons_of_mem _ hm))
    rw [← Multiset.cons_coe, Multiset.cons_add, ← Multiset.add_cons]
    exact .head hn hrest

theorem releaseAll_nil (p : Pool) : p.releaseAll [] = p := by
  rw [releaseAll]

/-- Giving up the holds of a work list, and those of the nodes that die of it. -/
theorem releaseAll_moves {work : List NodeId}
    (hp : p.WellFormed H ((work : Multiset NodeId) + held)) :
    Moves H (p, (work : Multiset NodeId) + held) (p.releaseAll work, held) := by
  fun_induction p.releaseAll work with
  | case1 p =>
    rw [Multiset.coe_nil, zero_add]
  | case2 p n rest hdead ih =>
    -- a node on the work list is held, so it cannot be dead
    have halive : p.Alive n := hp.counted.alive n (by simp)
    exact absurd halive (not_alive_iff.mpr hdead)
  | case3 p n rest c hc hlast ih =>
    rw [← Multiset.cons_coe, Multiset.cons_add] at hp ⊢
    have hdie : Move H (p, n ::ₘ (↑rest + held))
        (p.remove n c.hash, ↑c.operands + (↑rest + held)) :=
      .die hc hlast
    have hp' := hdie.wellFormed hp
    rw [← add_assoc, Multiset.coe_add] at hdie hp'
    exact .head hdie (ih hp')
  | case4 p n rest c hc hlast ih =>
    rw [← Multiset.cons_coe, Multiset.cons_add] at hp ⊢
    have hdrop : Move H (p, n ::ₘ (↑rest + held))
        (p.setCell n { c with holds := c.holds - 1 }, ↑rest + held) :=
      .drop hc (Nat.lt_of_not_le hlast)
    exact .head hdrop (ih (hdrop.wellFormed hp))

theorem release_moves {n : NodeId} (hp : p.WellFormed H (n ::ₘ held)) :
    Moves H (p, n ::ₘ held) (p.release n, held) := by
  rw [← Multiset.singleton_add, ← Multiset.coe_singleton] at hp ⊢
  exact releaseAll_moves hp

/-! ## Free indices -/

theorem Derivation.moves (h : Derivation p q) : Moves H (p, held) (q, held) := by
  induction h with
  | refl => exact .refl
  | tail _ hstep ih => exact ih.tail (.derive hstep)

theorem WellFormed.freeIndices_spec (hp : p.WellFormed H held) (n : NodeId) :
    Answers p n (p.freeIndices n).1 (p.freeIndices n).2 :=
  Pool.freeIndices_spec hp.closed hp.derived n

/-! ## Constructions -/

/-- The hold that comes with the result of a construction. -/
def heldBy : Except Error NodeId → Multiset NodeId
  | .ok n => {n}
  | .error _ => 0

theorem build_moves {k : Kind} {ops : List NodeId} (halive : ∀ m ∈ ops, p.Alive m)
    (hadmits : p.Admits k ops) :
    Moves H (p, held) ((p.build H k ops).2, heldBy (p.build H k ops).1 + held) :=
  .single (.intern halive hadmits)

variable {c : Construction NodeId Index}

theorem WellFormed.examined (hp : p.WellFormed H held) (c : Construction NodeId Index) :
    (p.examined c).WellFormed H held :=
  have hmoves : Moves H (p, held) (p.examined c, held) :=
    (examined_derivation hp.closed hp.derived c).moves
  hmoves.wellFormed hp

/-- A construction over living operands adds a hold on what it makes. -/
theorem construct_moves (hp : p.WellFormed H held) (halive : ∀ m ∈ c.operands, p.Alive m) :
    Moves H (p, held) ((p.construct H c).2, heldBy (p.construct H c).1 + held) := by
  have hder := examined_derivation hp.closed hp.derived c
  rcases construct_cases (H := H) hp.closed hp.derived halive with
    ⟨k, -, hadmits, hbuild⟩ | ⟨-, e, herror⟩
  · have halive' : ∀ m ∈ c.operands, (p.examined c).Alive m := fun m hm =>
      hder.sameRecords.within.alive (halive m hm)
    have hadmits' : (p.examined c).Admits k c.operands :=
      (hder.sameRecords.within.admits_iff hp.closed halive).mpr hadmits
    rw [hbuild]
    exact hder.moves.trans (build_moves halive' hadmits')
  · rw [herror, heldBy, zero_add]
    exact hder.moves

theorem mem_operands_link {e o m : NodeId} {c : Chain} (hm : m ∈ (c.link e o).operands) :
    m = e ∨ m = o := by
  cases c <;> simp only [Chain.link, Construction.operands, List.mem_cons, List.not_mem_nil,
    or_false] at hm <;> tauto

/-- The operands of a link are alive, since the caller holds them. -/
theorem alive_operands_link {c : Chain} {other? : Option NodeId} {e : NodeId}
    (hp : p.WellFormed H (e ::ₘ held)) (hother : ∀ o ∈ other?, o ∈ held) :
    ∀ m ∈ (c.link e (other?.getD e)).operands, p.Alive m := by
  intro m hm
  rcases mem_operands_link hm with rfl | rfl
  · exact hp.counted.alive _ (Multiset.mem_cons_self _ _)
  · cases other? with
    | none => exact hp.counted.alive _ (Multiset.mem_cons_self _ _)
    | some o => exact hp.counted.alive _ (Multiset.mem_cons_of_mem (hother o rfl))

/-- A chain moves the hold on its first node on to the last one. -/
theorem chain_moves {chain : Chain} {other? : Option NodeId} {times : Nat} {e : NodeId}
    (hp : p.WellFormed H (e ::ₘ held)) (hother : ∀ o ∈ other?, o ∈ held) :
    Moves H (p, e ::ₘ held)
      ((chain.run H other? times e p).2, heldBy (chain.run H other? times e p).1 + held) := by
  induction times generalizing e p with
  | zero => exact .refl
  | succ times ih =>
    have halive := alive_operands_link (c := chain) hp hother
    have hlink := construct_moves hp halive
    have hp' := hlink.wellFormed hp
    unfold Chain.run
    split
    · rename_i n q hmade
      rw [hmade] at hlink hp'
      simp only [heldBy, Multiset.singleton_add] at hlink hp'
      rw [Multiset.cons_swap] at hlink hp'
      have hrelease := release_moves hp'
      exact (hlink.trans hrelease).trans (ih (hrelease.wellFormed hp'))
    · rename_i err q hmade
      rw [hmade] at hlink hp'
      simp only [heldBy, zero_add] at hlink hp' ⊢
      exact hlink.trans (release_moves hp')

end TensorCost.Pool
