import TensorCost.Proofs.Cost.Exact
import TensorCost.Proofs.References

/-!
# Alike nodes

Nodes of two pools are alike if they stand for the same expression. Their numbers may differ, they
may be shared with different nodes, and free indices may be kept of one and not of the other.

* `Pool.Alike` relates the nodes of one pool to those of another.

Results, for pools that are in order:
* `alike_biUnique`: alike nodes can be told apart alike.
* `Alike.kind?_eq`, `Alike.freeIndices_eq`, `Alike.cost_eq`, `Alike.operands`: alike nodes agree in
  all that does not mention numbers, and their operands are alike.
* `traverse_alike`, `references_alike`: traversals and references below alike roots are alike.
-/

namespace TensorCost.Pool

/-- Whether the node `n` of `p` stands for the same expression as the node `m` of `q`. -/
def Alike (p q : Pool) (n m : NodeId) : Prop := ∃ t, p.tree? n = some t ∧ q.tree? m = some t

variable {H H' : NodeHash} {p q : Pool} {held held' : Multiset NodeId} {n m : NodeId}
  {ns ms : List NodeId} {ts : List Tree}

theorem Denotes.alike (h : p.Denotes ns ts) (h' : q.Denotes ms ts) :
    List.Forall₂ (p.Alike q) ns ms := by
  induction h generalizing ms with
  | nil =>
    obtain rfl := List.forall₂_nil_right_iff.mp h'
    exact .nil
  | @cons n t ns ts hnt _ ih =>
    obtain ⟨m, ms, hmt, hrest, rfl⟩ := List.forall₂_cons_right_iff.mp h'
    exact .cons ⟨t, hnt, hmt⟩ (ih hrest)

theorem exists_denotes_of_alike (h : List.Forall₂ (p.Alike q) ns ms) :
    ∃ ts, p.Denotes ns ts ∧ q.Denotes ms ts := by
  induction h with
  | nil => exact ⟨[], .nil, .nil⟩
  | cons hnm _ ih =>
    obtain ⟨t, hn, hm⟩ := hnm
    obtain ⟨ts, hns, hms⟩ := ih
    exact ⟨t :: ts, .cons hn hns, .cons hm hms⟩

section

variable (hp : p.WellFormed H held) (hq : q.WellFormed H' held')

include hp hq

/-- **Alike nodes can be told apart alike.** -/
theorem alike_biUnique : Relator.BiUnique (p.Alike q) := by
  constructor
  · rintro a b c ⟨t, ha, hc⟩ ⟨u, hb, hc'⟩
    obtain rfl := Option.some.inj (hc.symm.trans hc')
    exact hp.tree_inj ha hb
  · rintro a b c ⟨t, ha, hb⟩ ⟨u, ha', hc⟩
    obtain rfl := Option.some.inj (ha.symm.trans ha')
    exact hq.tree_inj hb hc

theorem Alike.kind?_eq (h : p.Alike q n m) : p.kind? n = q.kind? m := by
  obtain ⟨t, hn, hm⟩ := h
  rw [(hp.closed.denotes_operands hn).1, (hq.closed.denotes_operands hm).1]

theorem Alike.kindName_eq (h : p.Alike q n m) : p.kindName n = q.kindName m := by
  rw [kindName, kindName, h.kind?_eq hp hq]

theorem Alike.operands (h : p.Alike q n m) :
    List.Forall₂ (p.Alike q) (p.operands n) (q.operands m) := by
  obtain ⟨t, hn, hm⟩ := h
  exact (hp.closed.denotes_operands hn).2.alike (hq.closed.denotes_operands hm).2

/-- **Alike nodes have the same free indices**, whether these are kept or derived. -/
theorem Alike.freeIndices_eq (h : p.Alike q n m) : (p.freeIndices n).1 = (q.freeIndices m).1 := by
  obtain ⟨t, hn, hm⟩ := h
  rw [(hp.freeIndices_spec n).free_eq, (hq.freeIndices_spec m).free_eq,
    hp.closed.openIndices_of_tree hn, hq.closed.openIndices_of_tree hm]

theorem Alike.cost_eq (h : p.Alike q n m) : p.cost n = q.cost m := by
  obtain ⟨t, hn, hm⟩ := h
  rw [hp.closed.cost_of_tree hn, hq.closed.cost_of_tree hm]

/-- **Traversals from alike roots are alike**: both list the distinct subexpressions of these. -/
theorem traverse_alike (h : List.Forall₂ (p.Alike q) ns ms) :
    List.Forall₂ (p.Alike q) (p.traverse ns) (q.traverse ms) := by
  obtain ⟨ts, hns, hms⟩ := exists_denotes_of_alike h
  exact (traverse_denotes hp.closed hp.faithful hns).alike
    (traverse_denotes hq.closed hq.faithful hms)

theorem references_alike (h : List.Forall₂ (p.Alike q) ns ms) :
    List.Forall₂ (p.Alike q) (p.references ns) (q.references ms) :=
  List.rel_append h (List.rel_flatMap (traverse_alike hp hq h) fun _ _ hnm => hnm.operands hp hq)

/-- Alike nodes are referred to as often. -/
theorem getD_referenceCounts_alike (h : List.Forall₂ (p.Alike q) ns ms) (hnm : p.Alike q n m) :
    (p.referenceCounts ns).getD n 0 = (q.referenceCounts ms).getD m 0 := by
  rw [getD_referenceCounts, getD_referenceCounts]
  exact count_eq_of_forall₂ (alike_biUnique hp hq) (references_alike hp hq h) hnm

theorem isShared_alike (h : List.Forall₂ (p.Alike q) ns ms) (hnm : p.Alike q n m) :
    isShared (p.referenceCounts ns) n = isShared (q.referenceCounts ms) m := by
  rw [isShared, isShared, getD_referenceCounts_alike hp hq h hnm]

/-- The nodes that are shared below alike roots are alike. -/
theorem sharedNodes_alike (h : List.Forall₂ (p.Alike q) ns ms) :
    List.Forall₂ (p.Alike q) (p.sharedNodes ns) (q.sharedNodes ms) :=
  List.rel_filter (fun _ _ hnm => Bool.eq_iff_iff.mp (isShared_alike hp hq h hnm))
    (traverse_alike hp hq h)

/-- Alike nodes have the same position in the traversals from alike roots. -/
theorem getElem?_positions_alike (h : List.Forall₂ (p.Alike q) ns ms) (hnm : p.Alike q n m) :
    (Session.positions (p.traverse ns))[n]? = (Session.positions (q.traverse ms))[m]? := by
  rw [Session.getElem?_positions (p.inOrder_traverse ns).nodup,
    Session.getElem?_positions (q.inOrder_traverse ms).nodup]
  exact idxOf?_eq_of_forall₂ (alike_biUnique hp hq) (traverse_alike hp hq h) hnm

variable {σ : Type} {step step' : Pool → σ → NodeId → Nat → Except Error σ}

/-- Costs fold to the same over alike nodes if the steps do the same at these. -/
theorem foldCosts_alike (h : List.Forall₂ (p.Alike q) ns ms)
    (hstep : ∀ s n m flops, p.Alike q n m → step p s n flops = step' q s m flops) (s : σ) :
    foldCosts step p s ns = foldCosts step' q s ms := by
  refine foldlM_eq_of_forall₂ h (fun s n m hnm => ?_) s
  rw [hnm.cost_eq hp hq]
  exact congrArg _ (funext fun flops => hstep s n m flops hnm)

theorem addFlops_alike (hnm : p.Alike q n m) (total flops : Nat) :
    p.addFlops total n flops = q.addFlops total m flops := by
  rw [addFlops, addFlops, hnm.kindName_eq hp hq]

/-- **Counts of alike roots** are the same, and so are the failures. -/
theorem count_alike (h : List.Forall₂ (p.Alike q) ns ms) : (p.count ns).1 = (q.count ms).1 := by
  rw [(count_spec hp.closed hp.derived ns).1, (count_spec hq.closed hq.derived ms).1]
  exact foldCosts_alike hp hq (traverse_alike hp hq h)
    (fun total n m flops hnm => addFlops_alike hp hq hnm total flops) 0

end

end TensorCost.Pool

namespace TensorCost.Analyzer

open Pool

variable {H H' : NodeHash} {p q : Pool} {held held' : Multiset NodeId} {n m : NodeId}
  {ns ms : List NodeId} (hp : p.WellFormed H held) (hq : q.WellFormed H' held')

include hp hq

theorem hotspot_alike (hnm : p.Alike q n m) (position flops : Nat) :
    hotspot p position n flops = hotspot q position m flops := by
  rw [hotspot, hotspot, hnm.kindName_eq hp hq, hnm.kind?_eq hp hq, hnm.freeIndices_eq hp hq]

theorem addNode_alike (h : List.Forall₂ (p.Alike q) ns ms) (hnm : p.Alike q n m) (c : Config)
    (d : Draft) (flops : Nat) :
    addNode c (p.referenceCounts ns) p d n flops =
      addNode c (q.referenceCounts ms) q d m flops := by
  unfold addNode addToKind
  simp only [addFlops_alike hp hq hnm, hnm.kindName_eq hp hq, isShared_alike hp hq h hnm,
    hotspot_alike hp hq hnm]

/-- **Reports on alike roots** are the same, and so are the failures. -/
theorem analyze_alike (a : Analyzer) (h : List.Forall₂ (p.Alike q) ns ms) :
    (a.analyze p ns).1 = (a.analyze q ms).1 := by
  rw [(a.analyze_spec hp.closed hp.derived ns).1, (a.analyze_spec hq.closed hq.derived ms).1]
  unfold draft
  rw [foldCosts_alike hp hq (traverse_alike hp hq h)
    (fun d n m flops hnm => addNode_alike hp hq h hnm a.config d flops) {}]

end TensorCost.Analyzer
