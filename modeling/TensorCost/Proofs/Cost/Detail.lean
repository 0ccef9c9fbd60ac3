import TensorCost.Proofs.Cost.Agreement

/-!
# What a configuration decides

An analysis does the same work whatever its configuration, which decides only how much of the
outcome is kept. So two analyses of the same roots are two views of a third one that keeps
everything, and they can be compared through it although their drafts differ at every node.

* `Config.everything` keeps all detail, and `Draft.shown` is what a draft with all detail comes to
  under another configuration.
* `Report.SameButDetail` compares reports under two configurations.

Results:
* `addNode_shows`: adding a node and leaving detail out can be done in either order.
* `hotspots_shown`: the hotspots under a configuration are the first ones of the complete ranking,
  also where the limit is zero and none is collected.
* `analyze_detail`: analyses under two configurations fail alike, or report the same but for detail.
-/

namespace TensorCost

/-- The configuration under which a draft keeps everything. -/
def Config.everything : Config := ⟨Config.maxHotspotLimit, true⟩

/-- Two reports on the same roots under the configurations `c` and `c'`: what cannot be configured
is the same, totals by kind are left out or the same, and the smaller number of hotspots is the
beginning of the greater one. -/
structure Report.SameButDetail (c c' : Config) (r r' : Report) : Prop where
  totalFlops : r.totalFlops = r'.totalFlops
  nodeCount : r.nodeCount = r'.nodeCount
  sharedNodeCount : r.sharedNodeCount = r'.sharedNodeCount
  byKind_left_out : c.kindBreakdown = false → r.byKind = .empty
  byKind_left_out' : c'.kindBreakdown = false → r'.byKind = .empty
  byKind : c.kindBreakdown = true → c'.kindBreakdown = true → r.byKind = r'.byKind
  hotspots : c.hotspotLimit ≤ c'.hotspotLimit →
    r.hotspots = r'.hotspots.take (min c.hotspotLimit.toNat r'.hotspots.length)

namespace Analyzer

open Pool

/-- What a draft with all detail comes to under the configuration `c`. -/
def Draft.shown (c : Config) (d : Draft) : Draft :=
  { d with
    byKind := if c.kindBreakdown then d.byKind else .empty
    candidates := if 0 < c.hotspotLimit then d.candidates else #[] }

/-- The draft `d` under `c` is what the complete draft `full` comes to, and no kind of `full` has
more flops than all kinds together. -/
def Draft.Shows (c : Config) (d full : Draft) : Prop := d = full.shown c ∧ full.Bounded

variable {p : Pool} {d full : Draft} {n : NodeId} {flops : Nat}

theorem shows_start (c : Config) : Draft.Shows c {} {} := by
  refine ⟨?_, has_start.2⟩
  unfold Draft.shown
  simp

/-- **Adding a node** to a draft under any configuration is adding it to the complete draft and
leaving detail out. -/
theorem addNode_shows (c : Config) (counts : Std.HashMap NodeId Nat) (p : Pool) (d full : Draft)
    (n : NodeId) (flops : Nat) (hd : d.Shows c full) :
    Agree (Draft.Shows c) (addNode c counts p d n flops)
      (addNode Config.everything counts p full n flops) := by
  obtain ⟨rfl, hbounded⟩ := hd
  have hshown : (full.shown c).total = full.total := rfl
  unfold addNode
  rw [hshown]
  cases htotal : p.addFlops full.total n flops with
  | error e => exact .error e
  | ok total =>
    -- adding up by kind goes well, so leaving it out does not turn a failure into a success
    obtain ⟨t, ht, hle⟩ := addToKind_of_addFlops hbounded htotal
    have hpos : 0 < Config.everything.hotspotLimit := by decide
    have hon : Config.everything.kindBreakdown = true := rfl
    by_cases hbreakdown : c.kindBreakdown <;> by_cases hlimit : 0 < c.hotspotLimit <;>
      simp only [bind, Except.bind, pure, Except.pure, Draft.shown, hbreakdown, hlimit, hpos, hon,
        ht, if_true, Bool.false_eq_true, if_false, true_and, false_and]
    all_goals exact .ok ⟨by simp [Draft.shown, hbreakdown, hlimit], hle⟩

/-- The complete draft of an analysis. -/
def fullDraft (p : Pool) (roots : List NodeId) : Except Error Draft :=
  (foldPrices (addNode Config.everything (p.referenceCounts roots)) p {} (p.traverse roots)).1

/-- An analysis fails as the complete draft does, or reports what it comes to. -/
theorem analyze_eq_shown (a : Analyzer) (p : Pool) (roots : List NodeId) :
    (a.analyze p roots).1 =
      (fullDraft p roots).map fun full => Draft.report a (full.shown a.config) := by
  obtain ⟨hagree, -⟩ := foldPrices_agree (addNode_shows a.config (p.referenceCounts roots)) p
    (shows_start a.config) (p.traverse roots)
  refine hagree.map_congr (f := Draft.report a) fun d full hd => ?_
  rw [hd.1]

/-- All candidates of a draft, the most expensive first. -/
def Draft.ranking (d : Draft) : List Hotspot :=
  d.candidates.toList.mergeSort fun a b => decide (b.flops ≤ a.flops)

/-- **The hotspots under a configuration** are the first ones of the complete ranking. -/
theorem hotspots_shown (a : Analyzer) (full : Draft) :
    (Draft.report a (full.shown a.config)).hotspots =
      full.ranking.take a.config.hotspotLimit.toNat :=
  selectHotspots_collected a.config.hotspotLimit full.candidates

theorem report_sameButDetail (a b : Analyzer) (full : Draft) :
    (Draft.report a (full.shown a.config)).SameButDetail a.config b.config
      (Draft.report b (full.shown b.config)) where
  totalFlops := rfl
  nodeCount := rfl
  sharedNodeCount := rfl
  byKind_left_out hoff := if_neg (by simp [hoff])
  byKind_left_out' hoff := if_neg (by simp [hoff])
  byKind hon hon' := (if_pos hon).trans (if_pos hon').symm
  hotspots hle := by
    have hmin : min a.config.hotspotLimit.toNat b.config.hotspotLimit.toNat =
        a.config.hotspotLimit.toNat := Nat.min_eq_left (UInt64.le_iff_toNat_le.mp hle)
    rw [hotspots_shown, hotspots_shown, ← List.take_eq_take_min, List.take_take, hmin]

/-- **A configuration decides about detail alone.** Analyses of the same roots under two valid
configurations fail with the same error, or they both succeed, and their reports have the same
total, the same number of nodes and the same number of shared nodes. Totals by kind are missing
where they are not asked for and the same where both ask for them. Under the smaller limit, the
hotspots are the first ones of those under the greater limit. The pool is the same afterwards. -/
theorem analyze_detail (a b : Analyzer) (p : Pool) (roots : List NodeId) :
    ((∃ e, (a.analyze p roots).1 = .error e ∧ (b.analyze p roots).1 = .error e) ∨
      ∃ r r', (a.analyze p roots).1 = .ok r ∧ (b.analyze p roots).1 = .ok r' ∧
        r.SameButDetail a.config b.config r') ∧
    (a.analyze p roots).2 = (b.analyze p roots).2 := by
  constructor
  · rw [analyze_eq_shown, analyze_eq_shown]
    cases fullDraft p roots with
    | error e => exact .inl ⟨e, rfl, rfl⟩
    | ok full => exact .inr ⟨_, _, rfl, rfl, report_sameButDetail a b full⟩
  · have hcount : ∀ c : Analyzer, (c.analyze p roots).2 = (p.count roots).2 := fun c =>
      (foldPrices_addNode_agree c.config (p.referenceCounts roots) p (p.traverse roots)).2
    rw [hcount a, hcount b]

end Analyzer

end TensorCost
