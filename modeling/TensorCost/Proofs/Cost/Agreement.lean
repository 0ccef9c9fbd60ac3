import TensorCost.Proofs.Cost.Exact

/-!
# Reports and counts

A report takes the same steps as a count and adds up more beside the total. What it adds up by kind
can fail by itself, but the flops of one kind are never more than the total, so they fit whenever
the total does.

* `Agree` says that two results are the same error, or related values.
* `Draft.Bounded` is the invariant of a report in the making.

Results:
* `foldPrices_agree`: two folds over prices agree if their steps do.
* `analyze_agrees`: a report fails as the count does, and has the same total if neither does; adding
  up by kind does not fail.
* `Reachable.report_total`: the total of a report that a session answers is the count after it.
-/

namespace TensorCost

namespace KindTable

theorem lookup_insertEntry (kind : String) (cost : KindCost) (entries : List (String × KindCost))
    (k : String) :
    (insertEntry kind cost entries).lookup k =
      if k = kind then some cost else entries.lookup k := by
  have hcons : ∀ (l : String) (c : KindCost) (es : List (String × KindCost)),
      ((l, c) :: es).lookup k = if k = l then some c else es.lookup k := by
    intro l c es
    rw [List.lookup_cons]
    by_cases hk : k = l
    · rw [if_pos hk, beq_iff_eq.mpr hk]
    · rw [if_neg hk, beq_eq_false_iff_ne.mpr hk]
  induction entries with
  | nil => exact hcons kind cost []
  | cons e entries ih =>
    obtain ⟨l, c⟩ := e
    unfold insertEntry
    split
    · exact hcons kind cost _
    · split
      · rename_i heq
        subst heq
        rw [hcons, hcons]
        split <;> rfl
      · rename_i hne
        rw [hcons, hcons, ih]
        by_cases hk : k = l
        · rw [if_pos hk, if_neg fun h => hne (h.symm.trans hk), if_pos hk]
        · rw [if_neg hk, if_neg hk]

theorem get?_insert (t : KindTable) (kind : String) (cost : KindCost) (k : String) :
    (t.insert kind cost).get? k = if k = kind then some cost else t.get? k :=
  lookup_insertEntry kind cost t.entries k

end KindTable

/-! ## Folds that agree -/

/-- The same error on both sides, or values in the relation `R`. -/
inductive Agree {σ τ : Type} (R : σ → τ → Prop) : Except Error σ → Except Error τ → Prop
  | ok {s : σ} {t : τ} (related : R s t) : Agree R (.ok s) (.ok t)
  | error (e : Error) : Agree R (.error e) (.error e)

/-- Results that agree come to the same where related values do. -/
theorem Agree.map_congr {σ τ α : Type} {R : σ → τ → Prop} {x : Except Error σ} {y : Except Error τ}
    {f : σ → α} {g : τ → α} (h : Agree R x y) (hfg : ∀ s t, R s t → f s = g t) :
    x.map f = y.map g := by
  cases h with
  | ok hst => exact congrArg Except.ok (hfg _ _ hst)
  | error e => rfl

namespace Pool

variable {σ τ : Type} {R : σ → τ → Prop} {f : Pool → σ → NodeId → Nat → Except Error σ}
  {g : Pool → τ → NodeId → Nat → Except Error τ}

/-- **Two folds over prices agree** if their steps do; they end in the same pool. -/
theorem foldPrices_agree
    (hstep : ∀ p s t n flops, R s t → Agree R (f p s n flops) (g p t n flops)) (p : Pool) {s : σ}
    {t : τ} (hst : R s t) (ns : List NodeId) :
    Agree R (foldPrices f p s ns).1 (foldPrices g p t ns).1 ∧
      (foldPrices f p s ns).2 = (foldPrices g p t ns).2 := by
  induction ns generalizing p s t with
  | nil => exact ⟨.ok hst, rfl⟩
  | cons n ns ih =>
    unfold foldPrices
    cases p.price n with
    | mk price q =>
      cases price with
      | error e => exact ⟨.error e, rfl⟩
      | ok flops =>
        simp only
        have hnext := hstep q s t n flops hst
        cases hf : f q s n flops <;> cases hg : g q t n flops <;> rw [hf, hg] at hnext <;>
          cases hnext
        · exact ⟨.error _, rfl⟩
        · rename_i h
          exact ih q h

end Pool

/-! ## Drafts -/

namespace Analyzer

open Pool

variable {p : Pool} {d : Draft} {n : NodeId} {flops total : Nat}

/-- No kind has more flops than all kinds together. -/
def Draft.Bounded (d : Draft) : Prop := ∀ kind c, d.byKind.get? kind = some c → c.flops ≤ d.total

theorem addFlops_eq_ok_iff {t : Nat} :
    p.addFlops total n flops = .ok t ↔ total + flops = t ∧ total + flops ≤ Checked.limit := by
  rw [addFlops_eq]
  by_cases hfit : total + flops ≤ Checked.limit
  · simp [hfit]
  · simp [hfit]

/-- **Adding up by kind** does not fail if the total does not, and stays below it. -/
theorem addToKind_of_addFlops (hd : d.Bounded) (h : p.addFlops d.total n flops = .ok total) :
    ∃ t, addToKind p d.byKind n flops = .ok t ∧
      ∀ kind c, t.get? kind = some c → c.flops ≤ total := by
  obtain ⟨rfl, hfit⟩ := addFlops_eq_ok_iff.mp h
  -- before this node, its kind had no more flops than all kinds together
  have hbefore : ((d.byKind.get? (p.kindName n)).getD ⟨0, 0⟩).flops ≤ d.total := by
    cases hget : d.byKind.get? (p.kindName n) with
    | none => exact Nat.zero_le _
    | some c => exact hd _ c hget
  set cost := (d.byKind.get? (p.kindName n)).getD ⟨0, 0⟩ with hcost
  have hkind : p.addFlops cost.flops n flops = .ok (cost.flops + flops) :=
    addFlops_eq_ok_iff.mpr
      ⟨rfl, Nat.le_trans (Nat.add_le_add_right hbefore flops) hfit⟩
  refine ⟨d.byKind.insert (p.kindName n) ⟨cost.nodes + 1, cost.flops + flops⟩, ?_, ?_⟩
  · rw [addToKind, ← hcost, hkind]
    rfl
  · intro kind c hget
    rw [KindTable.get?_insert] at hget
    split at hget
    · obtain rfl := Option.some.inj hget
      exact Nat.add_le_add_right hbefore flops
    · exact Nat.le_trans (hd kind c hget) (Nat.le_add_right _ _)

/-- A draft with no kind beyond the total, and that total. -/
def Draft.Has (d : Draft) (total : Nat) : Prop := d.total = total ∧ d.Bounded

/-- A node is added to a draft iff its flops can be added to the total. -/
theorem addNode_agree (c : Config) (counts : Std.HashMap NodeId Nat) (p : Pool) (d : Draft)
    (total : Nat) (n : NodeId) (flops : Nat) (hd : d.Has total) :
    Agree Draft.Has (addNode c counts p d n flops) (p.addFlops total n flops) := by
  obtain ⟨rfl, hbounded⟩ := hd
  unfold addNode
  cases htotal : p.addFlops d.total n flops with
  | error e => exact .error e
  | ok total =>
    by_cases hbreakdown : c.kindBreakdown
    · obtain ⟨t, ht, hle⟩ := addToKind_of_addFlops hbounded htotal
      simp only [bind, Except.bind, if_pos hbreakdown, ht]
      exact .ok ⟨rfl, hle⟩
    · simp only [bind, Except.bind, if_neg hbreakdown]
      obtain ⟨rfl, -⟩ := addFlops_eq_ok_iff.mp htotal
      exact .ok ⟨rfl, fun kind c hget =>
        Nat.le_trans (hbounded kind c hget) (Nat.le_add_right _ _)⟩

theorem has_start : ({} : Draft).Has 0 :=
  ⟨rfl, fun kind c h => by simp [KindTable.get?, KindTable.empty] at h⟩

theorem foldPrices_addNode_agree (c : Config) (counts : Std.HashMap NodeId Nat) (p : Pool)
    (ns : List NodeId) :
    Agree Draft.Has (foldPrices (addNode c counts) p {} ns).1 (foldPrices addFlops p 0 ns).1 ∧
      (foldPrices (addNode c counts) p {} ns).2 = (foldPrices addFlops p 0 ns).2 :=
  foldPrices_agree (addNode_agree c counts) p has_start ns

/-- A report has the total of a count or fails as it does. -/
theorem map_totalFlops_analyze (a : Analyzer) (p : Pool) (roots : List NodeId) :
    (a.analyze p roots).1.map Report.totalFlops = (p.count roots).1 := by
  obtain ⟨hagree, -⟩ :=
    foldPrices_addNode_agree a.config (p.referenceCounts roots) p (p.traverse roots)
  have htotal := hagree.map_congr (f := Draft.total) (g := id) fun _ _ hd => hd.1
  rw [Except.map_id, id_eq] at htotal
  rw [count, ← htotal]
  unfold analyze
  simp only
  cases (foldPrices (addNode a.config (p.referenceCounts roots)) p {} (p.traverse roots)).1 <;> rfl

/-- **Where the limit is zero** nothing needs to be collected for hotspots to be selected from. -/
theorem selectHotspots_collected (limit : UInt64) (candidates : Array Hotspot) :
    selectHotspots limit (if 0 < limit then candidates else #[]).toList =
      selectHotspots limit candidates.toList := by
  by_cases hlimit : 0 < limit
  · rw [if_pos hlimit]
  · have hzero : limit.toNat = 0 := by
      rw [UInt64.lt_iff_toNat_lt] at hlimit
      exact Nat.eq_zero_of_not_pos hlimit
    simp only [selectHotspots, hzero, List.take_zero]

/-- What can be counted can be reported on. -/
theorem exists_report (a : Analyzer) {roots : List NodeId}
    (hcount : (p.count roots).1 = .ok total) :
    ∃ r, (a.analyze p roots).1 = .ok r ∧ r.totalFlops = total := by
  have htotal := a.map_totalFlops_analyze p roots
  rw [hcount] at htotal
  cases hr : (a.analyze p roots).1 with
  | error e =>
    rw [hr] at htotal
    cases htotal
  | ok r =>
    rw [hr] at htotal
    exact ⟨r, rfl, Except.ok.inj htotal⟩

/-- A draft that has come about from the nodes walked over so far is bounded. -/
theorem bounded_of_foldPrices {c : Config} {counts : Std.HashMap NodeId Nat} {q : Pool}
    {ns : List NodeId} (h : foldPrices (addNode c counts) p {} ns = (.ok d, q)) : d.Bounded := by
  obtain ⟨hagree, -⟩ := foldPrices_addNode_agree c counts p ns
  rw [h] at hagree
  cases hcount : (foldPrices addFlops p 0 ns).1 with
  | error e =>
    rw [hcount] at hagree
    cases hagree
  | ok total =>
    rw [hcount] at hagree
    cases hagree with
    | ok hd => exact hd.2

/-- **A report agrees with a count**, whatever the configuration: it has the same total, or fails
with the same error. At no node of the walk does adding up by kind fail after the total has been
found to fit. -/
theorem analyze_agrees (a : Analyzer) (p : Pool) (roots : List NodeId) :
    (a.analyze p roots).1.map Report.totalFlops = (p.count roots).1 ∧
      (a.analyze p roots).2 = (p.count roots).2 ∧
      ∀ before n after d q flops q' total, p.traverse roots = before ++ n :: after →
        foldPrices (addNode a.config (p.referenceCounts roots)) p {} before = (.ok d, q) →
        q.price n = (.ok flops, q') → q'.addFlops d.total n flops = .ok total →
        ∃ t, addToKind q' d.byKind n flops = .ok t := by
  refine ⟨map_totalFlops_analyze a p roots, ?_, ?_⟩
  · exact (foldPrices_addNode_agree a.config (p.referenceCounts roots) p (p.traverse roots)).2
  · intro before n after d q flops q' total _ hbefore _ htotal
    obtain ⟨t, ht, -⟩ := addToKind_of_addFlops (bounded_of_foldPrices hbefore) htotal
    exact ⟨t, ht⟩

end Analyzer

/-! ## Reports in sessions -/

/-- Counting is not changed by free indices that are kept. -/
theorem Pool.Derivation.count_eq {p q : Pool} (h : Derivation p q) (hclosed : p.Closed)
    (hp : p.Derived) (roots : List NodeId) : (q.count roots).1 = (p.count roots).1 := by
  rw [(count_spec (h.closed hclosed) (h.derived hclosed hp) roots).1,
    (count_spec hclosed hp roots).1, h.sameRecords.traverse_eq,
    foldCosts_congr addFlops_blind hclosed hp h]

/-- **A report in a session** comes with its own total as the count, and is refused only as the
analysis is. -/
theorem Session.Reachable.report_total {H : NodeHash} {s : Session} (h : s.Reachable H)
    (roots : List NodeId) (a : Analyzer) :
    (s.report roots a).1 =
      ((a.analyze s.pool roots).1.map fun r => .report r r.totalFlops).mapError .expression := by
  have hpool := h.wellFormed.pool
  obtain ⟨-, hder⟩ := a.analyze_spec hpool.closed hpool.derived roots
  have hcount := a.map_totalFlops_analyze s.pool roots
  rw [← hder.count_eq hpool.closed hpool.derived] at hcount
  unfold Session.report
  cases hresult : a.analyze s.pool roots with
  | mk result q =>
    rw [hresult] at hcount
    cases result with
    | error e => rfl
    | ok r =>
      simp only [ofPool]
      rw [← hcount]
      rfl

end TensorCost
