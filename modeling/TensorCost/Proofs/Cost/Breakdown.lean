import TensorCost.Proofs.Composition
import TensorCost.Proofs.References

/-!
# Reports broken down

A report counts the nodes below the roots all together, those that are referred to more than once,
and those of each kind. The nodes are a set, so whatever is added up over them, the nodes of each
kind come to the same as all nodes together, and no node is counted for each path that leads to it.

* `Pool.reachedOfKind` is the set of the nodes of a kind below the roots.

Results:
* `mem_entries_tally`: the entries of a table are the kinds that occur, each with its nodes.
* `sum_entries`: what is given by kind adds up to what is given by node.
* `Reachable.references_counted`: counts of references, shared nodes, and their number in a report.
* `Reachable.kinds_add_up`: the entries by kind of a report, which add up to its totals.
-/

namespace TensorCost

namespace Pool

variable {p : Pool} {roots : List NodeId} {n : NodeId} {kind : String}

/-- The nodes of a kind below the roots. -/
def reachedOfKind (p : Pool) (roots : List NodeId) (kind : String) : Finset NodeId :=
  (p.reached roots).filter fun n => p.kindName n = kind

/-- A list without repetitions costs what the set of its nodes does. -/
theorem totalFlops_of_nodup {ns : List NodeId} (hns : ns.Nodup) :
    p.totalFlops ns = ∑ n ∈ ns.toFinset, p.flops n := by
  rw [List.sum_toFinset _ hns, totalFlops, List.sum_eq_foldr]

theorem totalFlops_traverse (p : Pool) (roots : List NodeId) :
    p.totalFlops (p.traverse roots) = ∑ n ∈ p.reached roots, p.flops n :=
  totalFlops_of_nodup (p.inOrder_traverse roots).nodup

theorem toFinset_ofKind (p : Pool) (roots : List NodeId) (kind : String) :
    (Analyzer.ofKind p kind (p.traverse roots)).toFinset = p.reachedOfKind roots kind := by
  rw [Analyzer.ofKind, List.toFinset_filter, reachedOfKind, reached]
  simp only [decide_eq_true_eq]

theorem nodup_ofKind (p : Pool) (roots : List NodeId) (kind : String) :
    (Analyzer.ofKind p kind (p.traverse roots)).Nodup :=
  (p.inOrder_traverse roots).nodup.filter _

theorem card_reachedOfKind (p : Pool) (roots : List NodeId) (kind : String) :
    (p.reachedOfKind roots kind).card = (Analyzer.ofKind p kind (p.traverse roots)).length := by
  rw [← toFinset_ofKind, List.toFinset_card_of_nodup (p.nodup_ofKind roots kind)]

theorem sum_reachedOfKind (p : Pool) (roots : List NodeId) (kind : String) :
    ∑ n ∈ p.reachedOfKind roots kind, p.flops n =
      p.totalFlops (Analyzer.ofKind p kind (p.traverse roots)) := by
  rw [← toFinset_ofKind, totalFlops_of_nodup (p.nodup_ofKind roots kind)]

end Pool

namespace Analyzer

open Pool

variable {p : Pool} {roots ns : List NodeId} {kind : String}

/-- **The entries of a table** are the kinds that occur, each with the number and the total of its
nodes. -/
theorem mem_entries_tally {cost : KindCost} :
    (kind, cost) ∈ (tally p ns).entries ↔ kind ∈ ns.map p.kindName ∧
      cost = ⟨(ofKind p kind ns).length, p.totalFlops (ofKind p kind ns)⟩ := by
  rw [← KindTable.lookup_eq_some_iff (tally p ns).sorted]
  show (tally p ns).get? kind = some cost ↔ _
  rw [get?_tally]
  by_cases hkind : kind ∈ ns.map p.kindName
  · simp [hkind, eq_comm]
  · simp [hkind]

theorem mem_kinds_tally : kind ∈ (tally p ns).entries.map Prod.fst ↔ kind ∈ ns.map p.kindName := by
  constructor
  · intro hkind
    obtain ⟨e, he, rfl⟩ := List.mem_map.mp hkind
    exact (mem_entries_tally.mp he).1
  · intro hkind
    exact List.mem_map.mpr ⟨(kind, _), mem_entries_tally.mpr ⟨hkind, rfl⟩, rfl⟩

/-- **What is given by kind** adds up to what is given by node: each node is of one kind. -/
theorem sum_entries {given : KindCost → Nat} {f : NodeId → Nat}
    (hgiven : ∀ e ∈ (tally p (p.traverse roots)).entries,
      given e.2 = ∑ n ∈ p.reachedOfKind roots e.1, f n) :
    ((tally p (p.traverse roots)).entries.map fun e => given e.2).sum =
      ∑ n ∈ p.reached roots, f n := by
  set t := tally p (p.traverse roots) with ht
  have hkind : ∀ n ∈ p.reached roots, p.kindName n ∈ (t.entries.map Prod.fst).toFinset := by
    intro n hn
    rw [List.mem_toFinset, ht, mem_kinds_tally]
    exact List.mem_map_of_mem (List.mem_toFinset.mp hn)
  calc (t.entries.map fun e => given e.2).sum
      = ((t.entries.map Prod.fst).map fun kind => ∑ n ∈ p.reachedOfKind roots kind, f n).sum := by
        rw [List.map_map, List.map_congr_left hgiven]
        rfl
    _ = ∑ kind ∈ (t.entries.map Prod.fst).toFinset, ∑ n ∈ p.reachedOfKind roots kind, f n :=
        (List.sum_toFinset _ t.nodup_kinds).symm
    _ = ∑ n ∈ p.reached roots, f n := Finset.sum_fiberwise_of_maps_to hkind f

end Analyzer

namespace Session

variable {H : NodeHash} {s : Session} {roots : List NodeId} {a : Analyzer} {r : Report}

/-- **References are counted.** In a reachable session, where the operand positions of a node are
those it was built with, there are counts of references for the nodes of a traversal and for no
others. Each count is the number of occurrences among the roots and in operand positions of the
distinct nodes below the roots, and one at least. All counts come to the number of roots and of
operand positions. The shared nodes are those of the traversal with two references or more, in its
order, and every report gives their number. -/
theorem Reachable.references_counted (h : s.Reachable H) (roots : List NodeId) :
    let counts := s.pool.referenceCounts roots
    let references := fun n =>
      roots.count n + ∑ m ∈ s.pool.reached roots, (s.pool.operands m).count n
    (∀ m k ops, s.pool.node? m = some (k, ops) → s.pool.operands m = ops) ∧
    (∀ m, m ∈ s.pool.reached roots ↔ s.pool.ReachedFrom roots m) ∧
    (∀ n, n ∈ counts ↔ n ∈ s.pool.traverse roots) ∧
    (∀ n ∈ s.pool.traverse roots, counts[n]? = some (references n) ∧ 1 ≤ references n) ∧
    (counts.toList.map Prod.snd).sum =
      roots.length + ∑ m ∈ s.pool.reached roots, (s.pool.operands m).length ∧
    s.pool.sharedNodes roots = (s.pool.traverse roots).filter (fun n => 2 ≤ references n) ∧
    ∀ (a : Analyzer) (r : Report), (a.analyze s.pool roots).1 = .ok r →
      r.sharedNodeCount = (s.pool.sharedNodes roots).length := by
  have hpool := h.wellFormed.pool
  refine ⟨fun m k ops hm => ?_, fun m => Pool.mem_reached_iff,
    fun n => Pool.mem_referenceCounts_iff, fun n hn => ?_, s.pool.sum_referenceCounts roots,
    s.pool.sharedNodes_eq roots, fun a r hr => ?_⟩
  · obtain ⟨c, hc, -, rfl⟩ := Pool.node?_eq_some_iff.mp hm
    exact hpool.closed.operands_eq hc
  · exact ⟨Pool.getElem?_referenceCounts hn, Pool.referencesTo_pos hn⟩
  · obtain ⟨-, -, rfl⟩ := (a.analyze_eq_ok_iff hpool.closed hpool.derived).mp hr
    rfl

/-- The sum is a root twice and the product once; both apply to one inner sum, twice each. -/
theorem references_counted_of_sum_and_product :
    (sumUsedTwice.pool.referenceCounts [2, 3, 2])[1]? = some 4 ∧
      ((sumUsedTwice.pool.referenceCounts [2, 3, 2]).toList.map Prod.snd).sum = 9 ∧
      sumUsedTwice.pool.sharedNodes [2, 3, 2] = [0, 1, 2] := by
  obtain ⟨-, -, -, hcount, hsum, hshared, -⟩ := reachable_sumUsedTwice.references_counted [2, 3, 2]
  have hwalk : sumUsedTwice.pool.traverse [2, 3, 2] = [0, 1, 2, 3] := by
    rw [Pool.traverse_eq_postOrder]
    decide +kernel
  have hreached : sumUsedTwice.pool.reached [2, 3, 2] = {0, 1, 2, 3} := by
    rw [Pool.reached, hwalk]
    rfl
  rw [hwalk, hreached] at hcount hshared
  rw [hreached] at hsum
  refine ⟨(hcount 1 (by simp)).1.trans ?_, hsum.trans ?_, hshared.trans ?_⟩
  · decide +kernel
  · decide +kernel
  · decide +kernel

/-- **Kinds add up.** Whenever an analysis in a reachable session gives totals by kind, there is one
entry for each kind of the nodes below the roots, whatever they cost, and no other. It gives the
number of these nodes of that kind and the total of their prices. The entries' numbers add up to the
number of nodes, which is that of the distinct nodes below the roots, and their flops to the
total. -/
theorem Reachable.kinds_add_up (h : s.Reachable H) (hon : a.config.kindBreakdown = true)
    (hr : (a.analyze s.pool roots).1 = .ok r) :
    (∀ m, m ∈ s.pool.reached roots ↔ s.pool.ReachedFrom roots m) ∧
    (∀ n ∈ s.pool.reached roots, (s.pool.price n).1 = .ok (s.pool.flops n)) ∧
    (r.byKind.entries.map Prod.fst).Nodup ∧
    (∀ kind, kind ∈ r.byKind.entries.map Prod.fst ↔
      ∃ n ∈ s.pool.traverse roots, s.pool.kindName n = kind) ∧
    (∀ e ∈ r.byKind.entries, e.2.nodes = (s.pool.reachedOfKind roots e.1).card ∧
      e.2.flops = ∑ n ∈ s.pool.reachedOfKind roots e.1, s.pool.flops n) ∧
    (r.byKind.entries.map fun e => e.2.nodes).sum = r.nodeCount ∧
    r.nodeCount = (s.pool.reached roots).card ∧
    (r.byKind.entries.map fun e => e.2.flops).sum = r.totalFlops := by
  have hpool := h.wellFormed.pool
  obtain ⟨hpriced, -, rfl⟩ := (a.analyze_eq_ok_iff hpool.closed hpool.derived).mp hr
  obtain ⟨htotal, hnodes, hkind, -⟩ :=
    a.report_gathered (s.pool.referenceCounts roots) s.pool (s.pool.traverse roots)
  rw [if_pos hon] at hkind
  rw [htotal, hnodes, hkind]
  have hentries : ∀ e ∈ (Analyzer.tally s.pool (s.pool.traverse roots)).entries,
      e.2.nodes = (s.pool.reachedOfKind roots e.1).card ∧
        e.2.flops = ∑ n ∈ s.pool.reachedOfKind roots e.1, s.pool.flops n := by
    intro e he
    rw [(Analyzer.mem_entries_tally.mp he).2, s.pool.card_reachedOfKind, s.pool.sum_reachedOfKind]
    exact ⟨rfl, rfl⟩
  refine ⟨fun m => Pool.mem_reached_iff, fun n hn => ?_, KindTable.nodup_kinds _, fun kind => ?_,
    hentries, ?_, (s.pool.card_reached roots).symm, ?_⟩
  · exact (hpriced n (List.mem_toFinset.mp hn)).price_eq hpool.closed hpool.derived
  · rw [Analyzer.mem_kinds_tally, List.mem_map]
  · rw [← s.pool.card_reached, Finset.card_eq_sum_ones]
    refine Analyzer.sum_entries fun e he => ?_
    rw [(hentries e he).1, Finset.card_eq_sum_ones]
  · rw [s.pool.totalFlops_traverse]
    exact Analyzer.sum_entries fun e he => (hentries e he).2

/-- Both sums are in one entry, and the variable has an entry though it costs nothing. -/
theorem kinds_add_up_of_sums_and_product :
    ∃ r, (Analyzer.standard.analyze sumUsedTwice.pool [2, 3]).1 = .ok r ∧
      "Variable" ∈ r.byKind.entries.map Prod.fst ∧
      (∀ cost, ("Sum", cost) ∈ r.byKind.entries → cost.nodes = 2 ∧ cost.flops = 2) ∧
      (r.byKind.entries.map fun e => e.2.nodes).sum = 4 := by
  have hpool := reachable_sumUsedTwice.wellFormed.pool
  have hwalk : sumUsedTwice.pool.traverse [2, 3] = [0, 1, 2, 3] := by
    rw [Pool.traverse_eq_postOrder]
    decide +kernel
  have hcount : (sumUsedTwice.pool.count [2, 3]).1 = .ok 3 := by
    rw [(Pool.count_spec hpool.closed hpool.derived [2, 3]).1, hwalk]
    decide +kernel
  obtain ⟨r, hr, -⟩ := Analyzer.standard.exists_report hcount
  obtain ⟨-, -, -, hkinds, hentries, hnodes, hcard, -⟩ :=
    reachable_sumUsedTwice.kinds_add_up (a := .standard) rfl hr
  have hreached : sumUsedTwice.pool.reached [2, 3] = {0, 1, 2, 3} := by
    rw [Pool.reached, hwalk]
    rfl
  have hsums : sumUsedTwice.pool.reachedOfKind [2, 3] "Sum" = {1, 2} := by
    rw [Pool.reachedOfKind, hreached]
    decide +kernel
  refine ⟨r, hr, (hkinds _).mpr ⟨0, ?_, by decide +kernel⟩, fun cost he => ?_, ?_⟩
  · rw [hwalk]
    exact List.mem_cons_self
  · obtain ⟨hnodes, hflops⟩ := hentries _ he
    rw [hsums] at hnodes hflops
    exact ⟨hnodes, hflops.trans (by decide +kernel)⟩
  · rw [hnodes, hcard, hreached]
    rfl

end Session

end TensorCost
