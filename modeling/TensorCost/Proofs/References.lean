import Mathlib.Algebra.BigOperators.Group.Finset.Basic
import Mathlib.Data.List.Nodup
import Mathlib.Data.List.Perm.Basic
import TensorCost.Proofs.Traversal
import TensorCost.References
import TensorCost.Session.Basic

/-!
# Counting references

The references to nodes below the roots are the roots themselves and the operands of these nodes,
each of which is looked at once. Counting them goes through a hash map, and so do the positions of
nodes in a list; here both are said without one.

* `Pool.references` lists the references.
* `Pool.reached` is the set of the nodes below the roots, and `Pool.referencesTo` the number of
  references to a node as a sum over this set.

Results:
* `getD_referenceCounts`: the count of a node is the number of its entries in this list.
* `size_referenceCounts`: there are counts for the nodes of the traversal and for no others.
* `count_references`, `sum_referenceCounts`: a node is counted once for each root and each operand
  position that holds it, and all counts come to the number of roots and of operand positions.
* `sharedNodes_eq`: the nodes of the traversal with two references or more are the shared ones.
* `getElem?_positions`: the position of a node is that of its only occurrence.
-/

namespace TensorCost

namespace Pool

variable {p : Pool} {roots ns : List NodeId} {n : NodeId} {counts : Std.HashMap NodeId Nat}

/-- The references to nodes below the roots: the roots, and the operands of each of these nodes. -/
def references (p : Pool) (roots : List NodeId) : List NodeId :=
  roots ++ (p.traverse roots).flatMap p.operands

theorem getD_foldl_countReference :
    (ns.foldl countReference counts).getD n 0 = counts.getD n 0 + ns.count n := by
  induction ns generalizing counts with
  | nil => rfl
  | cons m ns ih =>
    rw [List.foldl_cons, ih, countReference, Std.HashMap.getD_insert, List.count_cons]
    by_cases hm : m = n
    · subst hm
      simp only [beq_self_eq_true, if_true]
      omega
    · simp [hm]

theorem mem_foldl_countReference :
    n ∈ ns.foldl countReference counts ↔ n ∈ counts ∨ n ∈ ns := by
  induction ns generalizing counts with
  | nil => simp
  | cons m ns ih =>
    rw [List.foldl_cons, ih, countReference, Std.HashMap.mem_insert, beq_iff_eq, List.mem_cons,
      eq_comm, or_assoc, or_left_comm]

/-- **The count of a node** is the number of references to it. -/
theorem getD_referenceCounts (p : Pool) (roots : List NodeId) (n : NodeId) :
    (p.referenceCounts roots).getD n 0 = (p.references roots).count n := by
  unfold referenceCounts
  rw [getD_foldl_countReference, Std.HashMap.getD_empty, Nat.zero_add]
  rfl

/-- What is reached is where one started from or an operand of something reached. -/
theorem Reaches.eq_or_operand {m : NodeId} (h : p.Reaches m n) :
    m = n ∨ ∃ k, p.Reaches m k ∧ n ∈ p.operands k := by
  induction h with
  | refl m => exact .inl rfl
  | @step m l n hoperand _ ih =>
    rcases ih with rfl | ⟨k, hreach, hn⟩
    · exact .inr ⟨m, .refl m, hoperand⟩
    · exact .inr ⟨k, .step hoperand hreach, hn⟩

/-- What is referred to is what is reached. -/
theorem mem_references_iff : n ∈ p.references roots ↔ n ∈ p.traverse roots := by
  rw [references, List.mem_append, List.mem_flatMap]
  simp only [mem_traverse_iff]
  constructor
  · rintro (hroot | ⟨m, ⟨r, hr, hreach⟩, hoperand⟩)
    · exact ⟨n, hroot, .refl n⟩
    · exact ⟨r, hr, hreach.trans (.step hoperand (.refl n))⟩
  · rintro ⟨r, hr, hreach⟩
    rcases hreach.eq_or_operand with rfl | ⟨m, hm, hoperand⟩
    · exact .inl hr
    · exact .inr ⟨m, ⟨r, hr, hm⟩, hoperand⟩

theorem mem_referenceCounts_iff : n ∈ p.referenceCounts roots ↔ n ∈ p.traverse roots := by
  rw [← mem_references_iff]
  unfold referenceCounts
  rw [mem_foldl_countReference, or_iff_right Std.HashMap.not_mem_empty]
  rfl

/-- **There are counts** for the nodes of the traversal and for no others. -/
theorem size_referenceCounts (p : Pool) (roots : List NodeId) :
    (p.referenceCounts roots).size = (p.traverse roots).length := by
  have hperm : (p.referenceCounts roots).keys.Perm (p.traverse roots) :=
    (List.perm_ext_iff_of_nodup Std.HashMap.nodup_keys (p.inOrder_traverse roots).nodup).mpr
      fun n => Std.HashMap.mem_keys.trans mem_referenceCounts_iff
  rw [← Std.HashMap.length_keys, hperm.length_eq]

/-! ## Sums over the nodes below the roots -/

/-- The nodes below the roots. -/
def reached (p : Pool) (roots : List NodeId) : Finset NodeId := (p.traverse roots).toFinset

theorem mem_reached_iff : n ∈ p.reached roots ↔ p.ReachedFrom roots n := by
  rw [reached, List.mem_toFinset, mem_traverse_iff]

theorem card_reached (p : Pool) (roots : List NodeId) :
    (p.reached roots).card = (p.traverse roots).length :=
  List.toFinset_card_of_nodup (p.inOrder_traverse roots).nodup

/-- A sum over the nodes below the roots runs over the traversal. -/
theorem sum_reached (p : Pool) (roots : List NodeId) (f : NodeId → Nat) :
    ∑ m ∈ p.reached roots, f m = ((p.traverse roots).map f).sum :=
  List.sum_toFinset f (p.inOrder_traverse roots).nodup

/-- How often a node is referred to: once for each of its occurrences among the roots, and once for
each operand position that holds it in one of the nodes below the roots. -/
def referencesTo (p : Pool) (roots : List NodeId) (n : NodeId) : Nat :=
  roots.count n + ∑ m ∈ p.reached roots, (p.operands m).count n

/-- **The references to a node** are its occurrences among the roots and in operand positions. -/
theorem count_references (p : Pool) (roots : List NodeId) (n : NodeId) :
    (p.references roots).count n = p.referencesTo roots n := by
  rw [references, List.count_append, List.count_flatMap, referencesTo, sum_reached]
  rfl

/-- All references are the roots and the operand positions. -/
theorem length_references (p : Pool) (roots : List NodeId) :
    (p.references roots).length = roots.length + ∑ m ∈ p.reached roots, (p.operands m).length := by
  rw [references, List.length_append, List.length_flatMap, sum_reached]

/-- There is a reference to each node below the roots. -/
theorem referencesTo_pos (hn : n ∈ p.traverse roots) : 0 < p.referencesTo roots n := by
  rw [← count_references]
  exact List.count_pos_iff.mpr (mem_references_iff.mpr hn)

theorem getElem?_referenceCounts (hn : n ∈ p.traverse roots) :
    (p.referenceCounts roots)[n]? = some (p.referencesTo roots n) := by
  rw [← count_references, ← getD_referenceCounts]
  exact Std.HashMap.getElem?_eq_some_getD (mem_referenceCounts_iff.mpr hn)

/-- **The counts add up** to the number of roots and of operand positions. -/
theorem sum_referenceCounts (p : Pool) (roots : List NodeId) :
    ((p.referenceCounts roots).toList.map Prod.snd).sum =
      roots.length + ∑ m ∈ p.reached roots, (p.operands m).length := by
  have hvalue : ∀ e ∈ (p.referenceCounts roots).toList, e.2 = (p.references roots).count e.1 := by
    rintro ⟨n, count⟩ he
    have hsome := Std.HashMap.mem_toList_iff_getElem?_eq_some.mp he
    rw [← getD_referenceCounts, Std.HashMap.getD_eq_getD_getElem?, hsome]
    rfl
  have hkeys : (p.referenceCounts roots).keys.toFinset = (p.references roots).toFinset := by
    ext n
    rw [List.mem_toFinset, List.mem_toFinset, Std.HashMap.mem_keys, mem_referenceCounts_iff,
      mem_references_iff]
  calc ((p.referenceCounts roots).toList.map Prod.snd).sum
      = ((p.referenceCounts roots).keys.map (p.references roots).count).sum := by
        rw [List.map_congr_left hvalue, ← Std.HashMap.map_fst_toList_eq_keys, List.map_map]
        rfl
    _ = ∑ n ∈ (p.references roots).toFinset, (p.references roots).count n := by
        rw [← List.sum_toFinset _ Std.HashMap.nodup_keys, hkeys]
    _ = (p.references roots).length := List.sum_toFinset_count_eq_length _
    _ = _ := p.length_references roots

theorem isShared_iff :
    isShared (p.referenceCounts roots) n = true ↔ 2 ≤ p.referencesTo roots n := by
  rw [isShared, decide_eq_true_iff, getD_referenceCounts, count_references]

/-- **The shared nodes** are those with two references or more. -/
theorem sharedNodes_eq (p : Pool) (roots : List NodeId) :
    p.sharedNodes roots = (p.traverse roots).filter fun n => 2 ≤ p.referencesTo roots n :=
  List.filter_congr fun n _ => by rw [Bool.eq_iff_iff, isShared_iff, decide_eq_true_iff]

end Pool

/-- **The position of a node** in a list without repetitions. -/
theorem Session.getElem?_positions {ns : List NodeId} (hns : ns.Nodup) (n : NodeId) :
    (positions ns)[n]? = ns.idxOf? n := by
  unfold positions
  cases h : ns.idxOf? n with
  | none =>
    refine Std.HashMap.getElem?_ofList_of_contains_eq_false ?_
    simpa using List.idxOf?_eq_none_iff.mp h
  | some i =>
    obtain ⟨hi, hn, -⟩ := List.idxOf?_eq_some_iff.mp h
    have hdistinct : (ns.zipIdx.map Prod.fst).Nodup := by rwa [List.zipIdx_map_fst]
    refine Std.HashMap.getElem?_ofList_of_mem (beq_self_eq_true n) ?_ ?_
    · exact (List.pairwise_map.mp hdistinct).imp fun hne => beq_eq_false_iff_ne.mpr hne
    · exact List.mem_zipIdx_iff_getElem?.mpr (List.getElem?_eq_some_iff.mpr ⟨hi, hn⟩)

end TensorCost
