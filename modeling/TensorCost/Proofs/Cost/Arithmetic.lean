import TensorCost.Proofs.Cost.Breakdown
import TensorCost.Proofs.Cost.Footprint
import TensorCost.Proofs.Cost.Hotspots

/-!
# What is free

A report is free if its total is zero. No loop runs zero times, so a node that computes something
costs one flop at least, and a total that fits has not wrapped: it is zero only where all of its
parts are. So a free report says that nothing below the roots computes anything.

* `Pool.computing` is the set of the nodes below the roots that compute something.

Results:
* `flops_pos_iff`: a node that has a price costs something iff it computes something.
* `totalFlops_eq_zero_iff`: nodes cost nothing together iff each of them costs nothing.
* `costly_perm`: the nodes that cost something are those that compute something.
* `Reachable.free_iff`: which reports are free, and that hotspots with room for it list all
  arithmetic.
-/

namespace TensorCost

namespace Pool

variable {p : Pool} {roots ns : List NodeId} {n : NodeId} {flops : Nat}

/-! ## Costs and computing -/

theorem cost_of_computes (h : p.Computes n) (hcost : p.cost n = .ok flops) : 0 < flops := by
  obtain ⟨k, hk, hcomputes⟩ := computes_iff_kind.mp h
  obtain ⟨bound, hrule⟩ := Kind.computes_iff.mp hcomputes
  rw [cost_of_loops hk hrule] at hcost
  split at hcost
  · exact Except.ok.inj hcost ▸ Index.prod_extent_pos _
  · cases hcost

/-- A node that computes nothing costs nothing. -/
theorem flops_of_not_computes (h : ¬ p.Computes n) : p.flops n = 0 := by
  unfold Pool.flops cost
  cases hk : p.kind? n with
  | none => rfl
  | some k =>
    cases hrule : k.costRule with
    | noWork => simp only [hrule]
    | unpriced => simp only [hrule]
    | loops bound =>
      exact absurd (computes_iff_kind.mpr ⟨k, hk, Kind.computes_iff.mpr ⟨bound, hrule⟩⟩) h

/-- **A node that has a price** costs something iff it computes something. -/
theorem flops_pos_iff (hn : p.Priced n) : 0 < p.flops n ↔ p.Computes n := by
  constructor
  · intro hpos
    by_contra h
    exact Nat.ne_of_gt hpos (flops_of_not_computes h)
  · exact fun h => cost_of_computes h hn.cost_eq

theorem totalFlops_eq_zero_iff : p.totalFlops ns = 0 ↔ ∀ n ∈ ns, p.flops n = 0 := by
  induction ns with
  | nil => simp [totalFlops]
  | cons n ns ih => rw [totalFlops_cons, Nat.add_eq_zero_iff, ih, List.forall_mem_cons]

/-! ## The nodes that compute something -/

/-- The nodes below the roots that compute something. -/
def computing (p : Pool) (roots : List NodeId) : Finset NodeId :=
  (p.reached roots).filter p.Computes

theorem mem_computing_iff : n ∈ p.computing roots ↔ p.ReachedFrom roots n ∧ p.Computes n := by
  rw [computing, Finset.mem_filter, mem_reached_iff]

theorem map_fst_costly (p : Pool) (ns : List NodeId) :
    (p.costly ns).map Prod.fst = ns.filter fun n => 0 < p.flops n := by
  have hpos : (fun x : NodeId × Nat => decide (0 < p.flops x.1)) =
      (fun n => decide (0 < p.flops n)) ∘ Prod.fst := rfl
  rw [costly, hpos, ← List.filter_map, List.zipIdx_map_fst]

/-- **The nodes that cost something** below the roots are those that compute something. -/
theorem costly_perm (hpriced : ∀ n ∈ p.traverse roots, p.Priced n) :
    ((p.costly (p.traverse roots)).map Prod.fst).Perm (p.computing roots).toList := by
  rw [map_fst_costly]
  refine (List.perm_ext_iff_of_nodup ((p.inOrder_traverse roots).nodup.filter _)
    (Finset.nodup_toList _)).mpr fun n => ?_
  rw [List.mem_filter, decide_eq_true_iff, Finset.mem_toList, mem_computing_iff,
    ← mem_traverse_iff]
  exact and_congr_right fun hn => flops_pos_iff (hpriced n hn)

theorem length_costly (hpriced : ∀ n ∈ p.traverse roots, p.Priced n) :
    (p.costly (p.traverse roots)).length = (p.computing roots).card := by
  have hlength := (costly_perm hpriced).length_eq
  rwa [List.length_map, Finset.length_toList] at hlength

end Pool

/-! ## Free reports -/

namespace Session

variable {H : NodeHash} {s : Session} {roots : List NodeId} {a : Analyzer} {r : Report}

/-- **Free reports.** Whenever an analysis in a reachable session succeeds, its report is free iff
no node below the roots is a sum, product, quotient, power, comparison, function or sum over
indices. Each node below the roots has a price. Wherever they stand, nodes of these kinds cost one
flop at least if they have a price, and all others that have one cost nothing. If there is room for
as many hotspots as there are such nodes below the roots then the hotspots list these, each once,
and no others. -/
theorem Reachable.free_iff (h : s.Reachable H) (hr : (a.analyze s.pool roots).1 = .ok r) :
    let p := s.pool
    (r.isFree = true ↔ ∀ n, p.ReachedFrom roots n → ¬ p.Computes n) ∧
    (∀ n, p.ReachedFrom roots n → ∃ flops, (p.price n).1 = .ok flops) ∧
    (∀ n flops, (p.price n).1 = .ok flops →
      (p.Computes n → 1 ≤ flops) ∧ (¬ p.Computes n → flops = 0)) ∧
    ((p.computing roots).card ≤ a.config.hotspotLimit.toNat →
      ∃ listed : List (NodeId × Nat), List.Forall₂ (p.IsHotspot roots) r.hotspots listed ∧
        (listed.map Prod.fst).Nodup ∧
        ∀ n, n ∈ listed.map Prod.fst ↔ p.ReachedFrom roots n ∧ p.Computes n) := by
  intro p
  have hpool := h.wellFormed.pool
  have hcost : ∀ n, (p.price n).1 = p.cost n := fun n =>
    (Pool.price_spec hpool.closed hpool.derived n).1
  obtain ⟨hpriced, -, rfl⟩ := (a.analyze_eq_ok_iff hpool.closed hpool.derived).mp hr
  obtain ⟨htotal, -⟩ := a.report_gathered (p.referenceCounts roots) p (p.traverse roots)
  have hperm := Pool.costly_perm hpriced
  have hranking : ((p.ranking (p.traverse roots)).map Prod.fst).Perm (p.computing roots).toList :=
    ((p.ranking_perm _).map Prod.fst).trans hperm
  refine ⟨?_, fun n hn => ?_, fun n flops hflops => ⟨fun hn => ?_, fun hn => ?_⟩, fun hroom => ?_⟩
  · rw [Report.isFree, beq_iff_eq, htotal, Pool.totalFlops_eq_zero_iff]
    constructor
    · intro hzero n hn hcomputes
      rw [← Pool.mem_traverse_iff] at hn
      exact ((Pool.flops_pos_iff (hpriced n hn)).mpr hcomputes).ne' (hzero n hn)
    · intro hnone n hn
      exact Pool.flops_of_not_computes (hnone n (Pool.mem_traverse_iff.mp hn))
  · obtain ⟨flops, hflops⟩ := hpriced n (Pool.mem_traverse_iff.mpr hn)
    exact ⟨flops, (hcost n).trans hflops⟩
  · exact Pool.cost_of_computes hn ((hcost n).symm.trans hflops)
  · exact (Pool.price_of_not_computes hn).2 flops hflops
  · refine ⟨p.ranking (p.traverse roots), ?_, hranking.nodup_iff.mpr (Finset.nodup_toList _),
      fun n => ?_⟩
    · have hall : (p.ranking (p.traverse roots)).length ≤ a.config.hotspotLimit.toNat := by
        rw [(p.ranking_perm _).length_eq, Pool.length_costly hpriced]
        exact hroom
      rw [a.hotspots_gathered, Analyzer.selectHotspots_candidates, List.take_of_length_le hall,
        List.forall₂_map_left_iff, List.forall₂_same]
      exact fun x hx => Pool.isHotspot_of_mem_ranking hpool.closed hpool.derived hpriced hx
    · rw [hranking.mem_iff, Finset.mem_toList, Pool.mem_computing_iff]

/-- With room for three hotspots, the sum of the matrix and the product and the sum of its entry are
all listed. The entry by itself is free. -/
theorem free_iff_of_entries :
    let a : Analyzer := ⟨⟨3, false⟩, by decide⟩
    (∃ r, (a.analyze matrixAndEntries.pool [2, 3, 4]).1 = .ok r ∧ r.isFree = false ∧
      r.hotspots.length = 3) ∧
      ∃ r, (a.analyze matrixAndEntries.pool [1]).1 = .ok r ∧ r.isFree = true := by
  intro a
  have hs := reachable_matrixAndEntries
  have hpool := hs.wellFormed.pool
  constructor
  · obtain ⟨r, hr, -⟩ := a.exists_report count_matrixAndEntries
    obtain ⟨hfree, -, -, hlisted⟩ := hs.free_iff hr
    have hcomputing : matrixAndEntries.pool.computing [2, 3, 4] = {2, 3, 4} := by
      rw [Pool.computing, Pool.reached, traverse_matrixAndEntries]
      decide +kernel
    obtain ⟨listed, hentries, hnodup, hmem⟩ := hlisted (by rw [hcomputing]; decide)
    refine ⟨r, hr, ?_, ?_⟩
    · rw [Bool.eq_false_iff, ne_eq, hfree]
      exact fun hnone => hnone 2 ⟨2, by decide, .refl 2⟩ (by decide +kernel)
    · have hperm : (listed.map Prod.fst).Perm [2, 3, 4] :=
        (List.perm_ext_iff_of_nodup hnodup (by decide)).mpr fun n => by
          rw [hmem, ← Pool.mem_computing_iff, hcomputing]
          simp
      rw [hentries.length_eq, ← List.length_map, hperm.length_eq]
      rfl
  · have hwalk : matrixAndEntries.pool.traverse [1] = [0, 1] := by
      rw [Pool.traverse_eq_postOrder]
      decide +kernel
    have hcount : (matrixAndEntries.pool.count [1]).1 = .ok 0 := by
      obtain ⟨⟨h₀, f₀⟩, ⟨h₁, f₁⟩, -⟩ := by simpa using flops_matrixAndEntries
      rw [Pool.count_eq_ok_iff hpool.closed hpool.derived, hwalk]
      simp [Pool.Priced, h₀, h₁, Pool.totalFlops, f₀, f₁]
    obtain ⟨r, hr, -⟩ := a.exists_report hcount
    refine ⟨r, hr, (hs.free_iff hr).1.mpr fun n hn => ?_⟩
    rw [← Pool.mem_traverse_iff, hwalk] at hn
    have hentry : ∀ n ∈ [0, 1], ¬ matrixAndEntries.pool.Computes n := by decide +kernel
    exact hentry n hn

end Session

end TensorCost
