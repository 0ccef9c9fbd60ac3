import TensorCost.Cost.Analysis
import TensorCost.Proofs.Extent
import TensorCost.Proofs.Pool.Derivation

/-!
# Prices without effects

Pricing derives free indices as it goes. `Pool.cost` is the price of a node from its kind and from
free indices that are derived from scratch, and leaves the pool alone; a fold over prices that goes
from pool to pool is a fold over these costs on one and the same pool.

Results:
* `cost_of_loops`, `addFlops_eq`: what does not fit is refused, and all else is exact.
* `price_spec`: the price of a node is its cost, found by a derivation.
* `foldPrices_spec`: the same for prices in turn, for any step that reads no more of a pool than a
  derivation leaves alone.
* `count_spec`, `analyze_spec`: totals and reports are of this sort.
-/

namespace TensorCost

namespace Pool

/-- The price of a node, with free indices derived from scratch. -/
def cost (p : Pool) (n : NodeId) : Except Error Nat :=
  match p.kind? n with
  | none => .ok 0
  | some kind =>
    match kind.costRule with
    | .noWork => .ok 0
    | .unpriced => .error (.unsupportedKind kind.name)
    | .loops bound =>
      match Index.extentProduct (bound ++ p.openIndices n) with
      | some flops => .ok flops
      | none => .error (.costOverflow kind.name)

variable {p q : Pool} {n : NodeId} {σ : Type} {step : Pool → σ → NodeId → Nat → Except Error σ}

/-- **The cost of loops** is the number of their iterations, if it fits. -/
theorem cost_of_loops {k : Kind} {bound : List Index} (hk : p.kind? n = some k)
    (hrule : k.costRule = .loops bound) :
    p.cost n =
      if ((bound ++ p.openIndices n).map Index.extent).prod ≤ Checked.limit then
        .ok ((bound ++ p.openIndices n).map Index.extent).prod
      else .error (.costOverflow k.name) := by
  rw [cost, hk]
  simp only [hrule]
  cases hproduct : Index.extentProduct (bound ++ p.openIndices n) with
  | none => rw [if_neg (Nat.not_le.mpr (Index.extentProduct_eq_none_iff.mp hproduct))]
  | some flops =>
    obtain ⟨rfl, hfit⟩ := Index.extentProduct_eq_some_iff.mp hproduct
    rw [if_pos hfit]

/-- **Adding flops to a total** gives the exact sum, if it fits. -/
theorem addFlops_eq (p : Pool) (total : Nat) (n : NodeId) (flops : Nat) :
    p.addFlops total n flops =
      if total + flops ≤ Checked.limit then .ok (total + flops)
      else .error (.costOverflow (p.kindName n)) := by
  rw [addFlops]
  cases hadd : Checked.add? total flops with
  | none => rw [if_neg (Nat.not_le.mpr (Checked.add?_eq_none_iff.mp hadd))]
  | some t =>
    obtain ⟨rfl, hfit⟩ := Checked.add?_eq_some_iff.mp hadd
    rw [if_pos hfit]

theorem SameRecords.kind?_eq (h : SameRecords p q) (n : NodeId) : q.kind? n = p.kind? n := by
  rw [kind?_eq_node, kind?_eq_node, h.node?_eq]

theorem SameRecords.kindName_eq (h : SameRecords p q) (n : NodeId) :
    q.kindName n = p.kindName n := by
  rw [kindName, kindName, h.kind?_eq]

theorem SameRecords.openIndices_eq (h : SameRecords p q) (hclosed : p.Closed) (n : NodeId) :
    q.openIndices n = p.openIndices n := by
  by_cases hn : p.Alive n
  · exact h.within.openIndices_eq hclosed hn
  · have hqn : ¬ q.Alive n := fun hq => hn (h.alive_iff.mp hq)
    rw [openIndices_of_not_alive hn, openIndices_of_not_alive hqn]

theorem SameRecords.cost_eq (h : SameRecords p q) (hclosed : p.Closed) (n : NodeId) :
    q.cost n = p.cost n := by
  rw [cost, cost, h.kind?_eq, h.openIndices_eq hclosed]

theorem SameRecords.addFlops_eq (h : SameRecords p q) : q.addFlops = p.addFlops := by
  funext total n flops
  rw [addFlops, addFlops, h.kindName_eq]

theorem Derivation.kind?_eq (h : Derivation p q) (n : NodeId) : q.kind? n = p.kind? n :=
  h.sameRecords.kind?_eq n

theorem Derivation.openIndices_congr (h : Derivation p q) (hclosed : p.Closed) (n : NodeId) :
    q.openIndices n = p.openIndices n :=
  h.sameRecords.openIndices_eq hclosed n

theorem Derivation.freeIndices_eq (h : Derivation p q) (hclosed : p.Closed) (hp : p.Derived)
    (n : NodeId) : (q.freeIndices n).1 = (p.freeIndices n).1 := by
  rw [(freeIndices_spec (h.closed hclosed) (h.derived hclosed hp) n).free_eq,
    (freeIndices_spec hclosed hp n).free_eq, h.openIndices_congr hclosed]

theorem Derivation.cost_eq (h : Derivation p q) (hclosed : p.Closed) (n : NodeId) :
    q.cost n = p.cost n :=
  h.sameRecords.cost_eq hclosed n

/-- **The price of a node is its cost.** -/
theorem price_spec (hclosed : p.Closed) (hp : p.Derived) (n : NodeId) :
    (p.price n).1 = p.cost n ∧ Derivation p (p.price n).2 := by
  obtain ⟨hfree, hder, -⟩ := freeIndices_spec hclosed hp n
  unfold price cost
  cases p.kind? n with
  | none => exact ⟨rfl, .refl⟩
  | some kind =>
    simp only
    cases kind.costRule with
    | noWork => exact ⟨rfl, .refl⟩
    | unpriced => exact ⟨rfl, .refl⟩
    | loops bound =>
      simp only [hfree]
      cases Index.extentProduct (bound ++ p.openIndices n) with
      | none => exact ⟨rfl, hder⟩
      | some flops => exact ⟨rfl, hder⟩

/-- Costs in turn, each given to `step`. -/
def foldCosts (step : Pool → σ → NodeId → Nat → Except Error σ) (p : Pool) (s : σ)
    (ns : List NodeId) : Except Error σ :=
  ns.foldlM (fun s n => do step p s n (← p.cost n)) s

theorem foldCosts_cons (s : σ) (n : NodeId) (ns : List NodeId) :
    foldCosts step p s (n :: ns) =
      (do foldCosts step p (← step p s n (← p.cost n)) ns) := by
  unfold foldCosts
  rw [List.foldlM_cons]
  cases p.cost n <;> rfl

theorem foldCosts_append (s : σ) (ns ms : List NodeId) :
    foldCosts step p s (ns ++ ms) = (do foldCosts step p (← foldCosts step p s ns) ms) :=
  List.foldlM_append

/-- Whether `step` does not see what a derivation changes. -/
def Blind (step : Pool → σ → NodeId → Nat → Except Error σ) : Prop :=
  ∀ ⦃p q⦄, p.Closed → p.Derived → Derivation p q → step q = step p

theorem foldCosts_congr (hstep : Blind step) (hclosed : p.Closed) (hp : p.Derived)
    (h : Derivation p q) (s : σ) (ns : List NodeId) :
    foldCosts step q s ns = foldCosts step p s ns := by
  unfold foldCosts
  rw [hstep hclosed hp h]
  congr 1
  funext s n
  rw [h.cost_eq hclosed]

/-- **Folding prices is folding costs.** -/
theorem foldPrices_spec (hstep : Blind step) (hclosed : p.Closed) (hp : p.Derived) (s : σ)
    (ns : List NodeId) :
    (foldPrices step p s ns).1 = foldCosts step p s ns ∧
      Derivation p (foldPrices step p s ns).2 := by
  induction ns generalizing p s with
  | nil => exact ⟨rfl, .refl⟩
  | cons n ns ih =>
    obtain ⟨hprice, hder⟩ := price_spec hclosed hp n
    rw [foldCosts_cons, ← hprice]
    unfold foldPrices
    cases hpq : p.price n with
    | mk price q =>
      rw [hpq] at hder
      cases price with
      | error e => exact ⟨rfl, hder⟩
      | ok flops =>
        simp only
        rw [hstep hclosed hp hder]
        cases hs : step p s n flops with
        | error e => exact ⟨by simp only [bind, Except.bind, hs], hder⟩
        | ok s' =>
          obtain ⟨hrest, hder'⟩ := ih (hder.closed hclosed) (hder.derived hclosed hp) s'
          refine ⟨?_, hder.trans hder'⟩
          simp only [bind, Except.bind, hs]
          rw [hrest, foldCosts_congr hstep hclosed hp hder]

theorem addFlops_blind : Blind addFlops := fun _ _ _ _ h => h.sameRecords.addFlops_eq

theorem count_spec (hclosed : p.Closed) (hp : p.Derived) (roots : List NodeId) :
    (p.count roots).1 = foldCosts addFlops p 0 (p.traverse roots) ∧
      Derivation p (p.count roots).2 :=
  foldPrices_spec addFlops_blind hclosed hp 0 (p.traverse roots)

end Pool

namespace Analyzer

open Pool

variable {p q : Pool}

theorem hotspot_congr (h : SameRecords p q)
    (hfree : ∀ n, (q.freeIndices n).1 = (p.freeIndices n).1) : hotspot q = hotspot p := by
  funext position n flops
  rw [hotspot, hotspot, hfree, h.kindName_eq, h.kind?_eq]

/-- What is added to a draft depends on the graph and on free indices. -/
theorem addNode_congr (h : SameRecords p q)
    (hfree : ∀ n, (q.freeIndices n).1 = (p.freeIndices n).1) (c : Config)
    (counts : Std.HashMap NodeId Nat) : addNode c counts q = addNode c counts p := by
  have hkind : addToKind q = addToKind p := by
    funext t n flops
    rw [addToKind, addToKind, h.kindName_eq, h.addFlops_eq]
  funext d n flops
  unfold addNode
  rw [h.addFlops_eq, hkind, hotspot_congr h hfree]

theorem addNode_blind (c : Config) (counts : Std.HashMap NodeId Nat) :
    Blind (addNode c counts) := fun _ _ hclosed hp h =>
  addNode_congr h.sameRecords (h.freeIndices_eq hclosed hp) c counts

/-- The draft of a report, put together without effects. -/
def draft (a : Analyzer) (p : Pool) (roots : List NodeId) : Except Error Draft :=
  foldCosts (addNode a.config (p.referenceCounts roots)) p {} (p.traverse roots)

/-- What a draft says once its hotspots have been selected. -/
def Draft.report (a : Analyzer) (d : Draft) : Report where
  totalFlops := d.total
  nodeCount := d.nodes
  sharedNodeCount := d.shared
  byKind := d.byKind
  hotspots := selectHotspots a.config.hotspotLimit d.candidates.toList

theorem analyze_spec (a : Analyzer) (hclosed : p.Closed) (hp : p.Derived) (roots : List NodeId) :
    (a.analyze p roots).1 = (a.draft p roots).map (Draft.report a) ∧
      Derivation p (a.analyze p roots).2 := by
  obtain ⟨hfold, hder⟩ := foldPrices_spec (addNode_blind a.config (p.referenceCounts roots))
    hclosed hp {} (p.traverse roots)
  refine ⟨?_, hder⟩
  unfold analyze draft
  rw [← hfold]
  rfl

end Analyzer

end TensorCost
