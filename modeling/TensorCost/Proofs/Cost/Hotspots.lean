import TensorCost.Proofs.Cost.Reduction
import TensorCost.Proofs.Cost.Totals

/-!
# Hotspots

The hotspots of a report are the first of the nodes that cost something, ranked by what they cost.
The candidates are collected in the order of the walk and sorted by their flops alone; sorting is
stable, so nodes that cost the same stay in the order of the walk.

* `Pool.ranking` ranks the nodes of a list that cost something, and `Pool.Outranks` is the order.
* `Pool.IsHotspot` says what the entry of a node tells.

Results:
* `pairwise_ranking`: the ranking is in order, the earlier of two nodes that cost the same first.
* `cost_eq_iterations`: a node that costs something costs as many flops as its loops have
  iterations.
* `Reachable.hotspots_ranked`: the hotspots are the first nodes of the ranking.
-/

namespace TensorCost

/-- Loops that a price counts beside the free indices are those of a sum over indices. -/
theorem Kind.reduction?_of_loops {k : Kind} {bound : List Index} (h : k.costRule = .loops bound) :
    k.reduction?.getD [] = bound := by
  cases k <;> cases h <;> rfl

namespace Pool

variable {p : Pool} {roots ns : List NodeId} {n : NodeId} {x y : NodeId × Nat}

/-! ## Rankings -/

/-- Whether a node, given with its position, comes before another: it costs more, or it costs the
same and its position is the earlier one. -/
def Outranks (p : Pool) (x y : NodeId × Nat) : Prop :=
  p.flops y.1 < p.flops x.1 ∨ p.flops x.1 = p.flops y.1 ∧ x.2 < y.2

/-- The nodes of a list that cost something, the most expensive first. -/
def ranking (p : Pool) (ns : List NodeId) : List (NodeId × Nat) :=
  (p.costly ns).mergeSort fun x y => decide (p.flops y.1 ≤ p.flops x.1)

theorem ranking_perm (p : Pool) (ns : List NodeId) : (p.ranking ns).Perm (p.costly ns) :=
  List.mergeSort_perm _ _

theorem pairwise_costly (p : Pool) (ns : List NodeId) :
    (p.costly ns).Pairwise fun x y => x.2 < y.2 := by
  have hpositions : (ns.zipIdx.map Prod.snd).Pairwise (· < ·) := by
    rw [List.zipIdx_map_snd]
    exact List.pairwise_lt_range'
  exact (List.pairwise_map.mp hpositions).filter _

/-- **The ranking is in order**, also among nodes that cost the same. -/
theorem pairwise_ranking (p : Pool) (ns : List NodeId) : (p.ranking ns).Pairwise p.Outranks := by
  let flops : NodeId × Nat → Nat := fun x => p.flops x.1
  have hsorted := pairwise_mergeSort_of_tied (falling_trans flops) (falling_total flops)
    (p.pairwise_costly ns)
  refine hsorted.imp fun {x y} h => ?_
  obtain ⟨hle, htied⟩ := h
  rcases Nat.lt_or_eq_of_le (of_decide_eq_true hle) with hlt | heq
  · exact .inl hlt
  · exact .inr ⟨heq.symm, htied (decide_eq_true heq.ge)⟩

/-- **There is one ranking**: a node never comes before one that comes before it. -/
theorem eq_ranking_iff {order : List (NodeId × Nat)} :
    order.Perm (p.costly ns) ∧ order.Pairwise p.Outranks ↔ order = p.ranking ns := by
  constructor
  · rintro ⟨hperm, horder⟩
    refine (hperm.trans (p.ranking_perm ns).symm).eq_of_pairwise ?_ horder (p.pairwise_ranking ns)
    intro x y _ _ hxy hyx
    unfold Outranks at hxy hyx
    omega
  · rintro rfl
    exact ⟨p.ranking_perm ns, p.pairwise_ranking ns⟩

theorem nodup_ranking (p : Pool) (ns : List NodeId) : ((p.ranking ns).map Prod.snd).Nodup :=
  ((p.ranking_perm ns).map _).nodup_iff.mpr
    (List.pairwise_map.mpr ((p.pairwise_costly ns).imp Nat.ne_of_lt))

theorem mem_ranking_iff :
    x ∈ p.ranking ns ↔ ns[x.2]? = some x.1 ∧ 0 < p.flops x.1 := by
  rw [(p.ranking_perm ns).mem_iff, costly, List.mem_filter, List.mem_zipIdx_iff_getElem?,
    decide_eq_true_iff]

/-! ## Entries -/

/-- Whether `h` is the entry of a node of a walk over the roots, given with its position: it tells
the kind and the price of the node and the extents of its indices, and the price is the number of
iterations of the loops over these. -/
structure IsHotspot (p : Pool) (roots : List NodeId) (h : Hotspot) (x : NodeId × Nat) : Prop where
  position : h.position = x.2
  node : (p.traverse roots)[h.position]? = some x.1
  kind : (p.kind? x.1).map Kind.name = some h.kind
  flops : (p.price x.1).1 = .ok h.flops
  freeExtents : h.freeExtents = (p.freeIndices x.1).1.map Index.extent
  reductionExtents :
    h.reductionExtents = (((p.kind? x.1).bind Kind.reduction?).getD []).map Index.extent
  iterations : h.flops = h.freeExtents.prod * h.reductionExtents.prod

/-- **A node that costs something** costs one flop for each iteration of the loops over its free
indices and over those it sums over. -/
theorem cost_eq_iterations (hcost : p.cost n = .ok (p.flops n)) (hpos : 0 < p.flops n) :
    ∃ k, p.kind? n = some k ∧ p.flops n =
      ((p.openIndices n).map Index.extent).prod *
        ((k.reduction?.getD []).map Index.extent).prod := by
  cases hk : p.kind? n with
  | none =>
    rw [cost, hk] at hcost
    exact absurd (Except.ok.inj hcost) hpos.ne
  | some k =>
    refine ⟨k, rfl, ?_⟩
    cases hrule : k.costRule with
    | noWork =>
      simp only [cost, hk, hrule] at hcost
      exact absurd (Except.ok.inj hcost) hpos.ne
    | unpriced =>
      simp only [cost, hk, hrule] at hcost
      cases hcost
    | loops bound =>
      rw [cost_of_loops hk hrule] at hcost
      split at hcost
      · rw [← Except.ok.inj hcost, List.map_append, List.prod_append, Nat.mul_comm,
          Kind.reduction?_of_loops hrule]
      · cases hcost

theorem isHotspot_of_mem_ranking (hclosed : p.Closed) (hp : p.Derived)
    (hpriced : ∀ n ∈ p.traverse roots, p.Priced n) (hx : x ∈ p.ranking (p.traverse roots)) :
    p.IsHotspot roots (Analyzer.hotspot p x.2 x.1 (p.flops x.1)) x := by
  obtain ⟨hnode, hpos⟩ := mem_ranking_iff.mp hx
  have hx : p.Priced x.1 := hpriced x.1 (List.mem_of_getElem? hnode)
  obtain ⟨k, hk, hiterations⟩ := cost_eq_iterations hx.cost_eq hpos
  refine ⟨rfl, hnode, ?_, hx.price_eq hclosed hp, rfl, rfl, ?_⟩
  · rw [Analyzer.hotspot, kindName, hk]
    rfl
  · rw [Analyzer.hotspot, (freeIndices_spec hclosed hp x.1).free_eq, hk]
    exact hiterations

end Pool

/-- **The hotspots selected** from a list of nodes are the entries of the first in the ranking. -/
theorem Analyzer.selectHotspots_candidates (limit : UInt64) (p : Pool) (ns : List NodeId) :
    selectHotspots limit (candidates p ns) =
      ((p.ranking ns).take limit.toNat).map fun x => hotspot p x.2 x.1 (p.flops x.1) := by
  rw [selectHotspots, candidates, List.map_take, Pool.ranking, List.map_mergeSort]
  intro x _ y _
  rfl

namespace Session

variable {H : NodeHash} {s : Session} {roots : List NodeId} {a : Analyzer} {r : Report}

/-- **Hotspots are ranked.** Whenever an analysis in a reachable session succeeds, each node of the
walk has a price. Those that cost something have one order in which the more expensive comes first,
and of two that cost the same the one that is visited first. The hotspots are the entries of the
first of them, as many as the limit allows and as there are, at different positions. -/
theorem Reachable.hotspots_ranked (h : s.Reachable H)
    (hr : (a.analyze s.pool roots).1 = .ok r) :
    let costly := s.pool.costly (s.pool.traverse roots)
    let count := min a.config.hotspotLimit.toNat costly.length
    (∀ n ∈ s.pool.traverse roots, (s.pool.price n).1 = .ok (s.pool.flops n)) ∧
    ∃ ranking : List (NodeId × Nat),
      (∀ order : List (NodeId × Nat),
        order.Perm costly ∧ order.Pairwise s.pool.Outranks ↔ order = ranking) ∧
      List.Forall₂ (s.pool.IsHotspot roots) r.hotspots (ranking.take count) ∧
      r.hotspots.length = count ∧ (r.hotspots.map Hotspot.position).Nodup := by
  intro costly count
  have hpool := h.wellFormed.pool
  obtain ⟨hpriced, -, rfl⟩ := (a.analyze_eq_ok_iff hpool.closed hpool.derived).mp hr
  let ranking := s.pool.ranking (s.pool.traverse roots)
  have hlength : ranking.length = costly.length := (s.pool.ranking_perm _).length_eq
  have hhotspots := a.hotspots_gathered (s.pool.referenceCounts roots) s.pool
    (s.pool.traverse roots)
  have htake : ranking.take a.config.hotspotLimit.toNat = ranking.take count := by
    rw [List.take_eq_take_min, hlength]
  rw [Analyzer.selectHotspots_candidates, htake] at hhotspots
  rw [hhotspots]
  refine ⟨fun n hn => (hpriced n hn).price_eq hpool.closed hpool.derived, ranking,
    fun order => Pool.eq_ranking_iff, ?_, ?_, ?_⟩
  · rw [List.forall₂_map_left_iff, List.forall₂_same]
    exact fun x hx => Pool.isHotspot_of_mem_ranking hpool.closed hpool.derived hpriced
      (List.mem_of_mem_take hx)
  · rw [List.length_map, List.length_take, hlength, Nat.min_eq_left (Nat.min_le_right _ _)]
  · rw [List.map_map]
    exact (s.pool.nodup_ranking _).sublist ((List.take_sublist _ _).map _)

/-- A matrix with its entry at open indices, the sum of the matrix with itself, and the product and
the sum of the entry with itself. -/
def matrixAndEntries : Session :=
  let H : NodeHash := fun _ _ => 0
  let p : Pool := (entryOfMatrix.pool.construct H (.sum 0 0)).2
  let q : Pool := (p.construct H (.product 1 1)).2
  { entryOfMatrix with
    pool := (q.construct H (.sum 1 1)).2
    nodes := [("s", 4), ("e", 3), ("b", 2)] ++ entryOfMatrix.nodes }

theorem reachable_matrixAndEntries : matrixAndEntries.Reachable fun _ _ => 0 := by
  unfold matrixAndEntries
  extract_lets H p q
  have hb : Reachable H { entryOfMatrix with
      pool := p, nodes := ("b", 2) :: entryOfMatrix.nodes } :=
    reachable_entryOfMatrix.1.construct (c := .sum "a" "a") rfl rfl (by decide +kernel) rfl
  have he : Reachable H { entryOfMatrix with
      pool := q, nodes := ("e", 3) :: ("b", 2) :: entryOfMatrix.nodes } :=
    hb.construct (c := .product "x" "x") rfl rfl (by decide +kernel) rfl
  have hmade : (q.construct H (.sum 1 1)).1 = .ok 4 := by decide +kernel
  -- from here on nothing is looked up in the pool
  clear_value q
  exact he.construct (c := .sum "x" "x") rfl rfl hmade rfl

/-- The sum of the matrix with itself costs one, the product and the sum of its entry as many as
there are entries. -/
theorem flops_matrixAndEntries :
    ∀ x ∈ [(0, 0), (1, 0), (2, 1), (3, 6), (4, 6)],
      matrixAndEntries.pool.cost x.1 = .ok x.2 ∧ matrixAndEntries.pool.flops x.1 = x.2 := by
  have hclosed := reachable_matrixAndEntries.wellFormed.pool.closed
  let i : Index := ⟨0, none, 2, by decide⟩
  let j : Index := ⟨1, none, 3, by decide⟩
  let entry : Tree := .node (.indexed [.free i, .free j]) [.node (.variable "A" [2, 3]) []]
  have hproduct : matrixAndEntries.pool.tree? 3 = some (.node .product [entry, entry]) := by
    decide +kernel
  have hsum : matrixAndEntries.pool.tree? 4 = some (.node .sum [entry, entry]) := by
    decide +kernel
  have hcost : ∀ x ∈ [(0, 0), (1, 0), (2, 1), (3, 6), (4, 6)],
      matrixAndEntries.pool.cost x.1 = .ok x.2 := by
    simp only [List.forall_mem_cons]
    refine ⟨by decide +kernel, by decide +kernel, by decide +kernel, ?_, ?_, by simp⟩
    · rw [hclosed.cost_of_tree hproduct, Tree.addPrice, Tree.price?, Tree.openIndices_eq]
      decide
    · rw [hclosed.cost_of_tree hsum, Tree.addPrice, Tree.price?, Tree.openIndices_eq]
      decide
  exact fun x hx => ⟨hcost x hx, Pool.flops_of_cost (hcost x hx)⟩

theorem traverse_matrixAndEntries : matrixAndEntries.pool.traverse [2, 3, 4] = [0, 2, 1, 3, 4] := by
  rw [Pool.traverse_eq_postOrder]
  decide +kernel

theorem count_matrixAndEntries : (matrixAndEntries.pool.count [2, 3, 4]).1 = .ok 13 := by
  have hpool := reachable_matrixAndEntries.wellFormed.pool
  obtain ⟨⟨h₀, f₀⟩, ⟨h₁, f₁⟩, ⟨h₂, f₂⟩, ⟨h₃, f₃⟩, ⟨h₄, f₄⟩⟩ := by
    simpa using flops_matrixAndEntries
  rw [Pool.count_eq_ok_iff hpool.closed hpool.derived, traverse_matrixAndEntries]
  simp [Pool.Priced, h₀, h₁, h₂, h₃, h₄, Pool.totalFlops, f₀, f₁, f₂, f₃, f₄, Checked.limit]

/-- With room for two, the product and the sum that cost the same are listed as they are visited,
and the sum that is visited before them but costs less is not. -/
theorem hotspots_ranked_of_entries :
    let a : Analyzer := ⟨⟨2, true⟩, by decide⟩
    ∃ r, (a.analyze matrixAndEntries.pool [2, 3, 4]).1 = .ok r ∧
      r.hotspots.map Hotspot.position = [3, 4] ∧ r.hotspots.map Hotspot.flops = [6, 6] := by
  intro a
  have hs := reachable_matrixAndEntries
  have hpool := hs.wellFormed.pool
  obtain ⟨⟨-, f₀⟩, ⟨-, f₁⟩, ⟨-, f₂⟩, ⟨h₃, f₃⟩, ⟨h₄, f₄⟩⟩ := by
    simpa using flops_matrixAndEntries
  have hcostly : matrixAndEntries.pool.costly [0, 2, 1, 3, 4] = [(2, 1), (3, 3), (4, 4)] := by
    simp [Pool.costly, List.zipIdx, f₀, f₁, f₂, f₃, f₄]
  obtain ⟨r, hr, -⟩ := a.exists_report count_matrixAndEntries
  obtain ⟨-, ranking, hranking, hentries, -, -⟩ := hs.hotspots_ranked hr
  rw [traverse_matrixAndEntries, hcostly] at hranking hentries
  obtain rfl : [(3, 3), (4, 4), (2, 1)] = ranking :=
    (hranking _).mp ⟨by decide, by simp [Pool.Outranks, f₂, f₃, f₄]⟩
  -- there is room for the first two of three
  have htwo : List.Forall₂ (matrixAndEntries.pool.IsHotspot [2, 3, 4]) r.hotspots
      [(3, 3), (4, 4)] := hentries
  obtain ⟨product, _, hproduct, hrest, heq⟩ := List.forall₂_cons_right_iff.mp htwo
  obtain ⟨sum, _, hsum, hnil, rfl⟩ := List.forall₂_cons_right_iff.mp hrest
  obtain rfl := List.forall₂_nil_right_iff.mp hnil
  have hprice : ∀ n, (matrixAndEntries.pool.price n).1 = matrixAndEntries.pool.cost n := fun n =>
    (Pool.price_spec hpool.closed hpool.derived n).1
  have hfirst : product.flops = 6 :=
    Except.ok.inj (hproduct.flops.symm.trans ((hprice 3).trans h₃))
  have hsecond : sum.flops = 6 := Except.ok.inj (hsum.flops.symm.trans ((hprice 4).trans h₄))
  refine ⟨r, hr, ?_, ?_⟩
  · simp [heq, hproduct.position, hsum.position]
  · simp [heq, hfirst, hsecond]

end Session

end TensorCost
