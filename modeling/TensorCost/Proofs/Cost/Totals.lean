import Mathlib.Data.List.Perm.Basic
import Mathlib.Data.List.Sort
import TensorCost.Proofs.Cost.Agreement

/-!
# What a report adds up

A draft of a report grows with every node of a walk. Which node comes first decides at which node an
analysis fails, and the positions of hotspots, but neither whether it fails nor what it adds up.

* `Pool.flops` is what a node costs, zero if it has no price, and `Pool.totalFlops` adds this up.
* `Pool.costly` lists the nodes that cost something, each with its position.
* `Draft.gather` adds a node to a draft when nothing fails, and `tally` adds nodes up by kind.
* `Draft.gathered` is what a draft has gathered from a list of nodes, part by part.
* `Report.SameCosts` says that two reports differ in positions and in what is shared at most.

Results:
* `foldCosts_addFlops_eq_ok_iff`, `foldCosts_addNode_eq_ok_iff`: nodes are counted, or gathered, iff
  each has a price and the exact total fits.
* `get?_tally`: the entry of a kind is the number and the total of the nodes of that kind.
* `foldl_gather`: gathering one node after the other comes to what is gathered from the list.
* `map_flops_selectHotspots`: the flops of hotspots are the greatest, in falling order.
* `Reachable.cost_of_reached`: costs depend on which nodes the roots reach, and on nothing else.
-/

namespace TensorCost

namespace Pool

variable {p : Pool} {n : NodeId} {ns ms : List NodeId} {total t k : Nat}

/-- The flops of a node, zero if it has no price. -/
def flops (p : Pool) (n : NodeId) : Nat :=
  match p.cost n with
  | .ok flops => flops
  | .error _ => 0

/-- Whether a node has a price that fits. -/
def Priced (p : Pool) (n : NodeId) : Prop := ∃ flops, p.cost n = .ok flops

theorem flops_of_cost (h : p.cost n = .ok k) : p.flops n = k := by
  unfold Pool.flops
  rw [h]

theorem Priced.cost_eq (h : p.Priced n) : p.cost n = .ok (p.flops n) := by
  obtain ⟨flops, hflops⟩ := h
  rw [hflops, flops_of_cost hflops]

theorem Priced.price_eq (h : p.Priced n) (hclosed : p.Closed) (hp : p.Derived) :
    (p.price n).1 = .ok (p.flops n) := (price_spec hclosed hp n).1.trans h.cost_eq

/-- The flops of all nodes in a list. -/
def totalFlops (p : Pool) (ns : List NodeId) : Nat := (ns.map p.flops).foldr (· + ·) 0

theorem totalFlops_cons (p : Pool) (n : NodeId) (ns : List NodeId) :
    p.totalFlops (n :: ns) = p.flops n + p.totalFlops ns := rfl

theorem totalFlops_append (p : Pool) (ns ms : List NodeId) :
    p.totalFlops (ns ++ ms) = p.totalFlops ns + p.totalFlops ms := by
  induction ns with
  | nil => exact (Nat.zero_add _).symm
  | cons n ns ih => rw [List.cons_append, totalFlops_cons, totalFlops_cons, ih, Nat.add_assoc]

theorem totalFlops_perm (h : ns.Perm ms) : p.totalFlops ns = p.totalFlops ms := by
  induction h with
  | nil => rfl
  | cons n _ ih => rw [totalFlops_cons, totalFlops_cons, ih]
  | swap n m ns =>
    simp only [totalFlops_cons]
    omega
  | trans _ _ ih₁ ih₂ => exact ih₁.trans ih₂

/-- **Counting nodes** succeeds iff each has a price and the exact total fits. -/
theorem foldCosts_addFlops_eq_ok_iff (hfit : total ≤ Checked.limit) :
    foldCosts addFlops p total ns = .ok t ↔
      (∀ n ∈ ns, p.Priced n) ∧ total + p.totalFlops ns ≤ Checked.limit ∧
        t = total + p.totalFlops ns := by
  induction ns generalizing total with
  | nil =>
    show Except.ok total = .ok t ↔ _
    simp [totalFlops, hfit, eq_comm]
  | cons n ns ih =>
    rw [foldCosts_cons, bind_eq_ok_iff, totalFlops_cons, List.forall_mem_cons, ← Nat.add_assoc]
    constructor
    · rintro ⟨flops, hcost, h⟩
      obtain ⟨total', hadd, hrest⟩ := bind_eq_ok_iff.mp h
      obtain ⟨rfl, hle⟩ := Analyzer.addFlops_eq_ok_iff.mp hadd
      rw [flops_of_cost hcost]
      obtain ⟨hpriced, hrest⟩ := (ih hle).mp hrest
      exact ⟨⟨⟨flops, hcost⟩, hpriced⟩, hrest⟩
    · rintro ⟨⟨hn, hns⟩, hle, rfl⟩
      have hle' : total + p.flops n ≤ Checked.limit := Nat.le_trans (Nat.le_add_right _ _) hle
      exact ⟨_, hn.cost_eq, bind_eq_ok_iff.mpr
        ⟨_, Analyzer.addFlops_eq_ok_iff.mpr ⟨rfl, hle'⟩, (ih hle').mpr ⟨hns, hle, rfl⟩⟩⟩

/-- The nodes of a list that cost something, each with its position in the list. -/
def costly (p : Pool) (ns : List NodeId) : List (NodeId × Nat) :=
  ns.zipIdx.filter fun x => 0 < p.flops x.1

theorem count_eq_ok_iff (hclosed : p.Closed) (hp : p.Derived) {roots : List NodeId} :
    (p.count roots).1 = .ok t ↔
      (∀ n ∈ p.traverse roots, p.Priced n) ∧ p.totalFlops (p.traverse roots) ≤ Checked.limit ∧
        t = p.totalFlops (p.traverse roots) := by
  rw [(count_spec hclosed hp roots).1, foldCosts_addFlops_eq_ok_iff (Nat.zero_le _), Nat.zero_add]

end Pool

/-! ## Tables -/

namespace KindTable

/-- In ascending order, the first entry of a kind is the only one. -/
theorem lookup_eq_some_iff {entries : List (String × KindCost)}
    (h : entries.Pairwise fun a b => a.1 < b.1) {kind : String} {cost : KindCost} :
    entries.lookup kind = some cost ↔ (kind, cost) ∈ entries := by
  induction entries with
  | nil => simp
  | cons e entries ih =>
    obtain ⟨k, c⟩ := e
    obtain ⟨hk, hrest⟩ := List.pairwise_cons.mp h
    rw [List.lookup_cons, List.mem_cons]
    by_cases heq : kind = k
    · subst heq
      have hnot : (kind, cost) ∉ entries := fun hmem => String.lt_irrefl kind (hk _ hmem)
      simp [hnot, eq_comm]
    · rw [beq_eq_false_iff_ne.mpr heq, ih hrest]
      simp [heq]

/-- A table has one entry for each of its kinds. -/
theorem nodup_kinds (t : KindTable) : (t.entries.map Prod.fst).Nodup :=
  List.pairwise_map.mpr (t.sorted.imp String.ne_of_lt)

/-- A table is known by what it says about each kind. -/
theorem ext_get? {t u : KindTable} (h : ∀ kind, t.get? kind = u.get? kind) : t = u := by
  have hnodup : ∀ v : KindTable, v.entries.Nodup := fun v => v.nodup_kinds.of_map _
  have hmem : ∀ e, e ∈ t.entries ↔ e ∈ u.entries := fun ⟨kind, cost⟩ => by
    rw [← lookup_eq_some_iff t.sorted, ← lookup_eq_some_iff u.sorted]
    show t.get? kind = _ ↔ u.get? kind = _
    rw [h]
  have hperm := (List.perm_ext_iff_of_nodup (hnodup t) (hnodup u)).mpr hmem
  have hentries : t.entries = u.entries := hperm.eq_of_pairwise
    (fun a b _ _ hab hba => absurd hab (String.lt_asymm hba)) t.sorted u.sorted
  cases t
  cases u
  simpa using hentries

end KindTable

namespace Analyzer

open Pool

variable {p : Pool} {d : Draft} {c : Config} {counts : Std.HashMap NodeId Nat} {n : NodeId}
  {ns ms : List NodeId}

/-- The table with a node more. -/
def tallyNode (p : Pool) (t : KindTable) (n : NodeId) : KindTable :=
  let cost := (t.get? (p.kindName n)).getD ⟨0, 0⟩
  t.insert (p.kindName n) ⟨cost.nodes + 1, cost.flops + p.flops n⟩

/-- The totals by kind of a list of nodes. -/
def tally (p : Pool) (ns : List NodeId) : KindTable := ns.foldl (tallyNode p) .empty

theorem tally_concat (p : Pool) (ns : List NodeId) (n : NodeId) :
    tally p (ns ++ [n]) = tallyNode p (tally p ns) n := List.foldl_concat ..

/-- The nodes of a kind. -/
def ofKind (p : Pool) (kind : String) (ns : List NodeId) : List NodeId :=
  ns.filter fun n => p.kindName n = kind

/-- **The entry of a kind** is the number and the total of its nodes; there is one iff there are
nodes. -/
theorem get?_tally (p : Pool) (ns : List NodeId) (kind : String) :
    (tally p ns).get? kind =
      if kind ∈ ns.map p.kindName then
        some ⟨(ofKind p kind ns).length, p.totalFlops (ofKind p kind ns)⟩
      else none := by
  induction ns using List.reverseRecOn with
  | nil => rfl
  | append_singleton ns n ih =>
    have hmem : kind ∈ (ns ++ [n]).map p.kindName ↔
        kind ∈ ns.map p.kindName ∨ kind = p.kindName n := by simp
    rw [tally_concat, tallyNode, KindTable.get?_insert, if_congr hmem rfl rfl]
    by_cases hkind : kind = p.kindName n
    · have hof : ofKind p kind (ns ++ [n]) = ofKind p kind ns ++ [n] := by
        simp [ofKind, hkind]
      -- before the first node of its kind, the entry that counts as zero has to be right
      have hbefore : ((tally p ns).get? kind).getD ⟨0, 0⟩ =
          ⟨(ofKind p kind ns).length, p.totalFlops (ofKind p kind ns)⟩ := by
        rw [ih]
        split
        · rfl
        · rename_i hnot
          have hnil : ofKind p kind ns = [] := List.filter_eq_nil_iff.mpr fun m hm hmk =>
            hnot (List.mem_map.mpr ⟨m, hm, of_decide_eq_true hmk⟩)
          rw [hnil]
          rfl
      rw [← hkind, if_pos rfl, if_pos (Or.inr rfl), hbefore, hof, totalFlops_append,
        List.length_append]
      rfl
    · have hof : ofKind p kind (ns ++ [n]) = ofKind p kind ns := by
        simp [ofKind, Ne.symm hkind]
      rw [if_neg hkind, ih, hof, if_congr (or_iff_left hkind) rfl rfl]

theorem tally_perm (h : ns.Perm ms) : tally p ns = tally p ms := by
  refine KindTable.ext_get? fun kind => ?_
  have hkind : (ofKind p kind ns).Perm (ofKind p kind ms) := h.filter _
  rw [get?_tally, get?_tally, hkind.length_eq, totalFlops_perm hkind]
  simp only [(h.map p.kindName).mem_iff]

/-! ## Drafts -/

/-- A draft with a node more, if nothing fails. -/
def Draft.gather (c : Config) (counts : Std.HashMap NodeId Nat) (p : Pool) (d : Draft)
    (n : NodeId) : Draft where
  total := d.total + p.flops n
  nodes := d.nodes + 1
  shared := d.shared + if Pool.isShared counts n then 1 else 0
  byKind := if c.kindBreakdown then tallyNode p d.byKind n else d.byKind
  candidates :=
    if 0 < c.hotspotLimit ∧ 0 < p.flops n then d.candidates.push (hotspot p d.nodes n (p.flops n))
    else d.candidates

theorem Draft.Bounded.gather (hd : d.Bounded) : (d.gather c counts p n).Bounded := by
  intro kind cost hget
  unfold Draft.gather tallyNode at hget ⊢
  simp only at hget ⊢
  split at hget
  · rw [KindTable.get?_insert] at hget
    split at hget
    · obtain rfl := Option.some.inj hget
      cases hbefore : d.byKind.get? (p.kindName n) with
      | none => exact Nat.add_le_add_right (Nat.zero_le _) _
      | some cost => exact Nat.add_le_add_right (hd _ cost hbefore) _
    · exact Nat.le_trans (hd kind cost hget) (Nat.le_add_right _ _)
  · exact Nat.le_trans (hd kind cost hget) (Nat.le_add_right _ _)

/-- Adding a node to a draft is gathering it, if the total fits. -/
theorem addNode_eq_ok_iff (hd : d.Bounded) {d' : Draft} :
    addNode c counts p d n (p.flops n) = .ok d' ↔
      d.total + p.flops n ≤ Checked.limit ∧ d' = d.gather c counts p n := by
  by_cases hfit : d.total + p.flops n ≤ Checked.limit
  · have htotal : p.addFlops d.total n (p.flops n) = .ok (d.total + p.flops n) :=
      addFlops_eq_ok_iff.mpr ⟨rfl, hfit⟩
    have hkind : addToKind p d.byKind n (p.flops n) = .ok (tallyNode p d.byKind n) := by
      obtain ⟨t, ht, -⟩ := addToKind_of_addFlops hd htotal
      rw [ht]
      unfold addToKind at ht
      obtain ⟨total, hadd, hinsert⟩ := bind_eq_ok_iff.mp ht
      obtain ⟨rfl, -⟩ := addFlops_eq_ok_iff.mp hadd
      exact hinsert.symm
    have hnode : addNode c counts p d n (p.flops n) = .ok (d.gather c counts p n) := by
      unfold addNode Draft.gather
      rw [htotal, hkind]
      by_cases hbreakdown : c.kindBreakdown
      · simp only [bind, Except.bind, if_pos hbreakdown]
        rfl
      · simp only [bind, Except.bind, if_neg hbreakdown]
        rfl
    rw [hnode]
    simp [hfit, eq_comm]
  · have htotal : ∀ t, p.addFlops d.total n (p.flops n) ≠ .ok t := fun t ht =>
      hfit (addFlops_eq_ok_iff.mp ht).2
    refine iff_of_false (fun h => ?_) fun h => hfit h.1
    obtain ⟨t, ht, -⟩ := bind_eq_ok_iff.mp h
    exact htotal t ht

/-- **Gathering nodes** succeeds iff each has a price and the exact total fits. -/
theorem foldCosts_addNode_eq_ok_iff (hd : d.Bounded) (hfit : d.total ≤ Checked.limit)
    {d' : Draft} :
    foldCosts (addNode c counts) p d ns = .ok d' ↔
      (∀ n ∈ ns, p.Priced n) ∧ d.total + p.totalFlops ns ≤ Checked.limit ∧
        d' = ns.foldl (Draft.gather c counts p) d := by
  induction ns generalizing d with
  | nil =>
    show Except.ok d = .ok d' ↔ _
    simp [totalFlops, hfit, eq_comm]
  | cons n ns ih =>
    rw [foldCosts_cons, bind_eq_ok_iff, totalFlops_cons, List.forall_mem_cons, ← Nat.add_assoc]
    constructor
    · rintro ⟨flops, hcost, h⟩
      obtain rfl := flops_of_cost hcost
      obtain ⟨d₁, hadd, hrest⟩ := bind_eq_ok_iff.mp h
      obtain ⟨hle, rfl⟩ := (addNode_eq_ok_iff hd).mp hadd
      obtain ⟨hpriced, hrest⟩ := (ih hd.gather hle).mp hrest
      exact ⟨⟨⟨_, hcost⟩, hpriced⟩, hrest⟩
    · rintro ⟨⟨hn, hns⟩, hle, rfl⟩
      have hle' : d.total + p.flops n ≤ Checked.limit := Nat.le_trans (Nat.le_add_right _ _) hle
      exact ⟨_, hn.cost_eq, bind_eq_ok_iff.mpr
        ⟨_, (addNode_eq_ok_iff hd).mpr ⟨hle', rfl⟩, (ih hd.gather hle').mpr ⟨hns, hle, rfl⟩⟩⟩

/-- The entries of the nodes of a list that cost something, in the order of the list. -/
def candidates (p : Pool) (ns : List NodeId) : List Hotspot :=
  (p.costly ns).map fun x => hotspot p x.2 x.1 (p.flops x.1)

/-- What is gathered from the nodes of a list. -/
def Draft.gathered (c : Config) (counts : Std.HashMap NodeId Nat) (p : Pool)
    (ns : List NodeId) : Draft where
  total := p.totalFlops ns
  nodes := ns.length
  shared := (ns.filter (Pool.isShared counts)).length
  byKind := if c.kindBreakdown then tally p ns else .empty
  candidates := if 0 < c.hotspotLimit then (Analyzer.candidates p ns).toArray else #[]

theorem candidates_concat (p : Pool) (ns : List NodeId) (n : NodeId) :
    candidates p (ns ++ [n]) =
      candidates p ns ++ if 0 < p.flops n then [hotspot p ns.length n (p.flops n)] else [] := by
  have hlast : [n].zipIdx ns.length = [(n, ns.length)] := rfl
  unfold candidates costly
  rw [List.zipIdx_append, Nat.zero_add, hlast, List.filter_append, List.map_append]
  by_cases hpos : 0 < p.flops n <;> simp [hpos]

/-- **Gathering one more node** from what has been gathered from a list. -/
theorem gather_gathered (c : Config) (counts : Std.HashMap NodeId Nat) (p : Pool)
    (ns : List NodeId) (n : NodeId) :
    (Draft.gathered c counts p ns).gather c counts p n =
      Draft.gathered c counts p (ns ++ [n]) := by
  unfold Draft.gather Draft.gathered
  rw [Draft.mk.injEq]
  refine ⟨(p.totalFlops_append ns [n]).symm, ?_, ?_, ?_, ?_⟩
  · rw [List.length_append, List.length_singleton]
  · by_cases hn : Pool.isShared counts n <;> simp [hn]
  · rw [tally_concat]
    split <;> rfl
  · rw [candidates_concat]
    by_cases hlimit : 0 < c.hotspotLimit <;> by_cases hpos : 0 < p.flops n <;> simp [hlimit, hpos]

theorem foldl_gather (c : Config) (counts : Std.HashMap NodeId Nat) (p : Pool)
    (ns : List NodeId) :
    ns.foldl (Draft.gather c counts p) {} = Draft.gathered c counts p ns := by
  induction ns using List.reverseRecOn with
  | nil =>
    unfold Draft.gathered
    simp [totalFlops, tally, candidates, costly]
  | append_singleton ns n ih => rw [List.foldl_concat, ih, gather_gathered]

theorem map_flops_candidates (p : Pool) (ns : List NodeId) :
    (candidates p ns).map Hotspot.flops = (ns.map p.flops).filter (0 < ·) := by
  have hflops : Hotspot.flops ∘ (fun x : NodeId × Nat => hotspot p x.2 x.1 (p.flops x.1)) =
      p.flops ∘ Prod.fst := rfl
  have hpos : (fun x : NodeId × Nat => decide (0 < p.flops x.1)) =
      (fun k => decide (0 < k)) ∘ (p.flops ∘ Prod.fst) := rfl
  rw [candidates, costly, List.map_map, hflops, hpos, ← List.filter_map, ← List.map_map,
    List.zipIdx_map_fst]

/-- **The flops of hotspots** are the greatest, in falling order. -/
theorem map_flops_selectHotspots (limit : UInt64) (candidates : List Hotspot) :
    (selectHotspots limit candidates).map Hotspot.flops =
      ((candidates.map Hotspot.flops).mergeSort fun a b => decide (b ≤ a)).take limit.toNat := by
  rw [selectHotspots, List.map_take, List.map_mergeSort]
  intro a _ b _
  rfl

/-- In falling order, numbers stand in one way only. -/
theorem mergeSort_congr {as bs : List Nat} (h : as.Perm bs) :
    (as.mergeSort fun a b => decide (b ≤ a)) = bs.mergeSort fun a b => decide (b ≤ a) := by
  let falling : Nat → Nat → Bool := fun a b => decide (b ≤ a)
  have hsorted : ∀ cs : List Nat, (cs.mergeSort falling).Pairwise fun a b => falling a b :=
    List.pairwise_mergeSort (falling_trans id) (falling_total id)
  have hperm : (as.mergeSort falling).Perm (bs.mergeSort falling) :=
    (List.mergeSort_perm as falling).trans (h.trans (List.mergeSort_perm bs falling).symm)
  exact hperm.eq_of_pairwise (fun a b _ _ hab hba =>
    Nat.le_antisymm (of_decide_eq_true hba) (of_decide_eq_true hab)) (hsorted as) (hsorted bs)

/-! ## Reports -/

/-- **An analysis** succeeds iff each node below the roots has a price and the exact total fits. -/
theorem analyze_eq_ok_iff (a : Analyzer) (hclosed : p.Closed) (hp : p.Derived)
    {roots : List NodeId} {r : Report} :
    (a.analyze p roots).1 = .ok r ↔
      (∀ n ∈ p.traverse roots, p.Priced n) ∧ p.totalFlops (p.traverse roots) ≤ Checked.limit ∧
        r = Draft.report a
          (Draft.gathered a.config (p.referenceCounts roots) p (p.traverse roots)) := by
  have hdraft : ∀ d, a.draft p roots = .ok d ↔ _ := fun d =>
    foldCosts_addNode_eq_ok_iff has_start.2 (Nat.zero_le _)
  rw [(a.analyze_spec hclosed hp roots).1, ← foldl_gather]
  constructor
  · intro h
    cases hd : a.draft p roots with
    | error e =>
      rw [hd] at h
      cases h
    | ok d =>
      rw [hd] at h
      obtain ⟨hpriced, hfit, rfl⟩ := (hdraft d).mp hd
      rw [Nat.zero_add] at hfit
      exact ⟨hpriced, hfit, (Except.ok.inj h).symm⟩
  · rintro ⟨hpriced, hfit, rfl⟩
    rw [(hdraft _).mpr ⟨hpriced, by rwa [Nat.zero_add], rfl⟩]
    rfl

/-- **The hotspots** are selected from the nodes that cost something, also where the limit is zero
and none of them is collected. -/
theorem hotspots_gathered (a : Analyzer) (counts : Std.HashMap NodeId Nat) (p : Pool)
    (ns : List NodeId) :
    (Draft.report a (Draft.gathered a.config counts p ns)).hotspots =
      selectHotspots a.config.hotspotLimit (candidates p ns) := by
  have hlist : (candidates p ns).toArray.toList = candidates p ns := rfl
  rw [← hlist, ← selectHotspots_collected]
  rfl

/-- What a report says of a walk over the nodes of a list, but for what depends on their order. -/
theorem report_gathered (a : Analyzer) (counts : Std.HashMap NodeId Nat) (p : Pool)
    (ns : List NodeId) :
    let r := Draft.report a (Draft.gathered a.config counts p ns)
    r.totalFlops = p.totalFlops ns ∧ r.nodeCount = ns.length ∧
      r.byKind = (if a.config.kindBreakdown then tally p ns else .empty) ∧
      r.hotspots.map Hotspot.flops =
        (((ns.map p.flops).filter (0 < ·)).mergeSort
          fun a b => decide (b ≤ a)).take a.config.hotspotLimit.toNat := by
  refine ⟨rfl, rfl, rfl, ?_⟩
  rw [hotspots_gathered, map_flops_selectHotspots, map_flops_candidates]

end Analyzer

/-- Reports that give the same costs, though hotspots may stand at other positions and other nodes
may be shared. -/
structure Report.SameCosts (r r' : Report) : Prop where
  totalFlops : r.totalFlops = r'.totalFlops
  nodeCount : r.nodeCount = r'.nodeCount
  byKind : r.byKind = r'.byKind
  hotspots : r.hotspots.map Hotspot.flops = r'.hotspots.map Hotspot.flops

/-- **The order of nodes** does not matter for the costs in a report. -/
theorem Analyzer.report_sameCosts {p : Pool} {ns ms : List NodeId} (h : ns.Perm ms) (a : Analyzer)
    (counts counts' : Std.HashMap NodeId Nat) :
    (Draft.report a (Draft.gathered a.config counts p ns)).SameCosts
      (Draft.report a (Draft.gathered a.config counts' p ms)) := by
  obtain ⟨htotal, hnodes, hkind, hflops⟩ := report_gathered a counts p ns
  obtain ⟨htotal', hnodes', hkind', hflops'⟩ := report_gathered a counts' p ms
  have hperm : ((ns.map p.flops).filter (0 < ·)).Perm ((ms.map p.flops).filter (0 < ·)) :=
    (h.map p.flops).filter _
  refine ⟨?_, ?_, ?_, ?_⟩
  · rw [htotal, htotal', Pool.totalFlops_perm h]
  · rw [hnodes, hnodes', h.length_eq]
  · rw [hkind, hkind', tally_perm h]
  · rw [hflops, hflops', mergeSort_congr hperm]

/-! ## Costs in sessions -/

/-- Two results are both errors, or both values in relation, if the second is a value in relation
whenever the first is a value, and the first is a value whenever the second is. -/
theorem ok_and_ok_or_error {ε α β : Type} {R : α → β → Prop} {x : Except ε α} {y : Except ε β}
    (hxy : ∀ a, x = .ok a → ∃ b, y = .ok b ∧ R a b) (hyx : ∀ b, y = .ok b → ∃ a, x = .ok a) :
    (∃ a b, x = .ok a ∧ y = .ok b ∧ R a b) ∨ ∃ e e', x = .error e ∧ y = .error e' := by
  cases x with
  | ok a =>
    obtain ⟨b, hb, hab⟩ := hxy a rfl
    exact .inl ⟨a, b, rfl, hb, hab⟩
  | error e =>
    cases y with
    | ok b =>
      obtain ⟨a, ha⟩ := hyx b rfl
      cases ha
    | error e' => exact .inr ⟨e, e', rfl, rfl⟩

/-- Roots that reach the same nodes are walked over in different orders at most. -/
theorem Pool.traverse_perm {p : Pool} {roots roots' : List NodeId}
    (h : ∀ m, p.ReachedFrom roots m ↔ p.ReachedFrom roots' m) :
    (p.traverse roots).Perm (p.traverse roots') := by
  have hnodup := (p.inOrder_traverse roots).nodup
  have hnodup' := (p.inOrder_traverse roots').nodup
  refine (List.perm_ext_iff_of_nodup hnodup hnodup').mpr fun m => ?_
  rw [mem_traverse_iff, mem_traverse_iff, h]

/-- **Costs depend on which nodes are reached**, and on nothing else. In a reachable session, if two
lists of roots reach the same nodes, then both counts give the same total or both fail. With the
same configuration, both analyses fail, or they give the same total, number of nodes and totals by
kind, and hotspots with the same flops in the same order. -/
theorem Session.Reachable.cost_of_reached {H : NodeHash} {s : Session} (h : s.Reachable H)
    {roots roots' : List NodeId}
    (hreached : ∀ m, s.pool.ReachedFrom roots m ↔ s.pool.ReachedFrom roots' m) :
    ((∃ total, (s.pool.count roots).1 = .ok total ∧ (s.pool.count roots').1 = .ok total) ∨
      ∃ e e', (s.pool.count roots).1 = .error e ∧ (s.pool.count roots').1 = .error e') ∧
    ∀ a : Analyzer,
      (∃ r r', (a.analyze s.pool roots).1 = .ok r ∧ (a.analyze s.pool roots').1 = .ok r' ∧
        r.SameCosts r') ∨
      ∃ e e', (a.analyze s.pool roots).1 = .error e ∧
        (a.analyze s.pool roots').1 = .error e' := by
  have hpool := h.wellFormed.pool
  have hperm := Pool.traverse_perm hreached
  have htotal := Pool.totalFlops_perm (p := s.pool) hperm
  have hpriced : (∀ n ∈ s.pool.traverse roots, s.pool.Priced n) ↔
      ∀ n ∈ s.pool.traverse roots', s.pool.Priced n := by
    simp only [hperm.mem_iff]
  constructor
  · have hiff : ∀ t, (s.pool.count roots).1 = .ok t ↔ (s.pool.count roots').1 = .ok t := fun t => by
      rw [Pool.count_eq_ok_iff hpool.closed hpool.derived,
        Pool.count_eq_ok_iff hpool.closed hpool.derived, hpriced, htotal]
    rcases ok_and_ok_or_error (R := (· = ·)) (fun t ht => ⟨t, (hiff t).mp ht, rfl⟩)
      (fun t ht => ⟨t, (hiff t).mpr ht⟩) with ⟨t, _, ht, ht', rfl⟩ | herror
    · exact .inl ⟨t, ht, ht'⟩
    · exact .inr herror
  · intro a
    have hreport : ∀ rs r, (a.analyze s.pool rs).1 = .ok r ↔ _ := fun rs r =>
      a.analyze_eq_ok_iff hpool.closed hpool.derived
    refine ok_and_ok_or_error (fun r hr => ?_) fun r' hr' => ?_
    · obtain ⟨hp, hfit, rfl⟩ := (hreport roots r).mp hr
      exact ⟨_, (hreport roots' _).mpr ⟨hpriced.mp hp, htotal ▸ hfit, rfl⟩,
        a.report_sameCosts hperm _ _⟩
    · obtain ⟨hp, hfit, -⟩ := (hreport roots' r').mp hr'
      exact ⟨_, (hreport roots _).mpr ⟨hpriced.mpr hp, htotal ▸ hfit, rfl⟩⟩

/-- A sum and its operand, asked for in two orders and with repetitions. -/
theorem Session.cost_of_reached_of_nested_sums :
    let H : NodeHash := fun _ _ => 0
    let p : Pool := (Pool.empty.construct H (.variable "x" [])).2
    let q : Pool := (p.construct H (.sum 0 0)).2
    let r : Pool := (q.construct H (.sum 1 1)).2
    let s : Session := { pool := r, nodes := [("f", 2), ("e", 1), ("x", 0)] }
    s.Reachable H ∧ (∀ m, s.pool.ReachedFrom [1, 2, 1] m ↔ s.pool.ReachedFrom [2] m) ∧
      (s.pool.count [2]).1 = .ok 2 ∧ (s.pool.count [1, 2, 1]).1 = .ok 2 := by
  intro H p q r s
  have hx : Reachable H { pool := p, nodes := [("x", 0)] } :=
    Reachable.start.construct (c := .variable "x" []) rfl rfl (by decide +kernel) rfl
  have he : Reachable H { pool := q, nodes := [("e", 1), ("x", 0)] } :=
    hx.construct (c := .sum "x" "x") rfl rfl (by decide +kernel) rfl
  have hs : s.Reachable H := he.construct (c := .sum "e" "e") rfl rfl (by decide +kernel) rfl
  have hoperand : 1 ∈ s.pool.operands 2 := by decide +kernel
  have hreached : ∀ m, s.pool.ReachedFrom [1, 2, 1] m ↔ s.pool.ReachedFrom [2] m := by
    intro m
    constructor
    · rintro ⟨n, hn, hreach⟩
      obtain rfl | rfl : n = 1 ∨ n = 2 := by simpa [or_comm] using hn
      · exact ⟨2, by simp, .step hoperand hreach⟩
      · exact ⟨2, by simp, hreach⟩
    · rintro ⟨n, hn, hreach⟩
      obtain rfl := List.mem_singleton.mp hn
      exact ⟨2, by simp, hreach⟩
  have hcount : (s.pool.count [2]).1 = .ok 2 := by
    rw [(Pool.count_spec hs.wellFormed.pool.closed hs.wellFormed.pool.derived [2]).1,
      Pool.traverse_eq_postOrder]
    decide +kernel
  refine ⟨hs, hreached, hcount, ?_⟩
  rcases (hs.cost_of_reached hreached).1 with ⟨t, ht, ht'⟩ | ⟨e, e', -, herror⟩
  · rw [ht, ← ht', hcount]
  · rw [hcount] at herror
    cases herror

end TensorCost
