import TensorCost.Proofs.Pool.Evolution
import TensorCost.Proofs.Traversal

/-!
# Walks that are advanced bit by bit

A suspended walk has made the first visits of its order and stands for all of it. What it holds
reaches the nodes of the order and no others, so it keeps alive just what it has visited and what it
still has to visit. Between two advances the pool may change, as long as these nodes stay as they
are.

* `Walk.Follows` says that a walk makes its visits in a given order, and how far it has come.

Results:
* `Follows.next`: an advance makes the next visit of the order, or none after the last.
* `Follows.drain`: what is finished at any point has visited the whole order.
* `Follows.mem_iff`: the walk holds what reaches the nodes of its order.
* `Follows.evolves`: changes of the pool around the nodes that a walk holds do not lead it astray.
-/

namespace TensorCost.Walk

variable {p q : Pool} {w : Walk} {n m : NodeId} {visited order : List NodeId} {f : Frame}
  {fs : List Frame} {k : Nat}

/-! ## What a stack stands for -/

theorem subset_finish (p : Pool) (visited : List NodeId) (f : Frame) :
    visited ⊆ finish p visited f := by
  unfold finish
  split
  · split
    · exact List.Subset.refl _
    · exact List.subset_append_left _ _
  · exact (Pool.visits_visit p visited f.node).kept.subset

theorem mem_finish_self : f.node ∈ finish p visited f := by
  unfold finish
  split
  · split
    · assumption
    · exact List.mem_append_right _ (List.mem_singleton_self _)
  · exact (Pool.visits_visit p visited f.node).done _ (List.mem_singleton_self _)

theorem reaches_of_mem_finish (h : m ∈ finish p visited f) :
    m ∈ visited ∨ p.Reaches f.node m := by
  unfold finish at h
  split at h
  · split at h
    · exact .inl h
    · refine (List.mem_append.mp h).imp_right fun hm => ?_
      rw [List.mem_singleton.mp hm]
      exact .refl _
  · refine ((Pool.visits_visit p visited f.node).only m h).imp_right ?_
    rintro ⟨r, hr, hreach⟩
    rwa [List.mem_singleton.mp hr] at hreach

/-- What the frames of a stack stand for, one after the other: nothing is lost, the nodes of the
frames are put in, and nothing else but what they reach. -/
theorem foldl_finish_spec (p : Pool) (fs : List Frame) (visited : List NodeId) :
    (∀ n, n ∈ visited ∨ n ∈ fs.map Frame.node → n ∈ fs.foldl (finish p) visited) ∧
      ∀ m ∈ fs.foldl (finish p) visited, m ∈ visited ∨ p.ReachedFrom (fs.map Frame.node) m := by
  induction fs generalizing visited with
  | nil => exact ⟨fun n hn => hn.resolve_right List.not_mem_nil, fun m hm => .inl hm⟩
  | cons f fs ih =>
    obtain ⟨hin, hout⟩ := ih (finish p visited f)
    refine ⟨fun n hn => hin n ?_, fun m hm => ?_⟩
    · rcases hn with hn | hn
      · exact .inl (subset_finish p visited f hn)
      · rcases List.mem_cons.mp hn with rfl | hn
        · exact .inl mem_finish_self
        · exact .inr hn
    · rcases hout m hm with hm | ⟨r, hr, hreach⟩
      · refine (reaches_of_mem_finish hm).imp_right fun hreach => ?_
        exact ⟨f.node, List.mem_cons_self, hreach⟩
      · exact .inr ⟨r, List.mem_cons_of_mem _ hr, hreach⟩

theorem mem_result_of_mem_held (h : n ∈ w.held) : n ∈ w.result p :=
  (foldl_finish_spec p w.stack w.visited.toList).1 n (List.mem_append.mp h).symm

theorem reachedFrom_of_mem_result (h : m ∈ w.result p) : p.ReachedFrom w.held m := by
  rcases (foldl_finish_spec p w.stack w.visited.toList).2 m h with hm | ⟨r, hr, hreach⟩
  · exact ⟨m, List.mem_append_right _ hm, .refl m⟩
  · exact ⟨r, List.mem_append_left _ hr, hreach⟩

/-- What a walk stands for depends on the nodes that it holds and those below. -/
theorem result_congr (h : ∀ m, p.ReachedFrom w.held m → q.operands m = p.operands m) :
    w.result q = w.result p := by
  refine List.foldl_ext _ _ _ fun visited f hf => ?_
  have hheld : f.node ∈ w.held := List.mem_append_left _ (List.mem_map_of_mem hf)
  have hvisit : q.visit visited f.node = p.visit visited f.node :=
    Pool.visit_congr (fun m hreach => h m ⟨f.node, hheld, hreach⟩) visited
  rw [finish, finish, hvisit]

theorem step_congr (h : ∀ m, q.operands m = p.operands m) (w : Walk) : w.step q = w.step p := by
  unfold step
  simp only [h]

/-- Pools with the same operands take a walk to the same places. -/
theorem next_congr (h : ∀ m, q.operands m = p.operands m) (w : Walk) : w.next q = w.next p := by
  fun_induction w.next p with
  | case1 w w' hstep => rw [next, step_congr h, hstep]
  | case2 w n w' hstep => rw [next, step_congr h, hstep]
  | case3 w e w' hvisit hstep ih =>
    rw [next, step_congr h, hstep]
    cases e with
    | visit n => exact absurd rfl (hvisit n)
    | skip => exact ih
    | expand n => exact ih

theorem drain_congr (h : ∀ m, q.operands m = p.operands m) (w : Walk) : w.drain q = w.drain p := by
  fun_induction w.drain p with
  | case1 w w' hstep => rw [drain, step_congr h, hstep]
  | case2 w e w' hstep ih =>
    rw [drain, step_congr h, hstep]
    exact ih

/-! ## Following an order -/

/-- Whether the walk makes its visits in the order `order`, and has made `k` of them, or all if
there are not so many. -/
structure Follows (p : Pool) (w : Walk) (order : List NodeId) (k : Nat) : Prop where
  consistent : w.visited.Consistent
  inOrder : p.InOrder order
  result : w.result p = order
  visited : w.visited.toList = order.take k

theorem follows_start (p : Pool) (roots : List NodeId) :
    (start roots).Follows p (p.traverse roots) 0 where
  consistent := OrderedSet.consistent_empty
  inOrder := p.inOrder_traverse roots
  result := by rw [p.traverse_eq_postOrder, result_start]
  visited := rfl

/-- **What a walk holds** reaches the nodes of its order and no others. -/
theorem Follows.mem_iff (h : w.Follows p order k) : p.ReachedFrom w.held m ↔ m ∈ order := by
  constructor
  · rintro ⟨r, hr, hreach⟩
    exact h.inOrder.mem_of_reaches (h.result ▸ mem_result_of_mem_held hr) hreach
  · intro hm
    rw [← h.result] at hm
    exact reachedFrom_of_mem_result hm

/-- **An advance** makes the next visit of the order, or none after the last. -/
theorem Follows.next (h : w.Follows p order k) :
    (w.next p).1 = order[k]? ∧ (w.next p).2.Follows p order (k + 1) := by
  rcases next_cases p w h.consistent with
    ⟨w', hnext, hw', hlist, hresult, hdone⟩ | ⟨n, w', hnext, hw', hlist, hresult⟩
  · rw [hnext]
    rw [h.result, h.visited, eq_comm, List.take_eq_self_iff] at hdone
    have hnone : order[k]? = none := List.getElem?_eq_none hdone
    refine ⟨hnone.symm, hw', h.inOrder, hresult.trans h.result, ?_⟩
    rw [hlist, h.visited, List.take_add_one, hnone, Option.toList_none, List.append_nil]
  · rw [hnext]
    -- the order goes on with the new visit where it was left
    have horder : order = order.take k ++ n :: w'.visits p := by
      rw [← h.visited, List.append_cons, ← hlist, visits_spec p w' hw', hresult, h.result]
    have hlength : (order.take k).length = k := by
      have hle := congrArg List.length horder
      rw [List.length_append, List.length_cons, List.length_take] at hle
      rw [List.length_take]
      omega
    have hsome : order[k]? = some n := by
      rw [horder, List.getElem?_append_right (Nat.le_of_eq hlength), hlength, Nat.sub_self]
      rfl
    refine ⟨hsome.symm, hw', h.inOrder, hresult.trans h.result, ?_⟩
    rw [hlist, h.visited, List.take_add_one, hsome, Option.toList_some]

/-- **What is finished** has visited the whole order. -/
theorem Follows.drain (h : w.Follows p order k) : (w.drain p).visited.toList = order := by
  rw [drain_spec p w h.consistent, h.result]

theorem Follows.congr (h : w.Follows p order k)
    (hops : ∀ m ∈ order, q.operands m = p.operands m) : w.Follows q order k where
  consistent := h.consistent
  inOrder :=
    { nodup := h.inOrder.nodup
      operands := fun before n after heq m hm => by
        have hn : n ∈ order := heq ▸ List.mem_append_right _ List.mem_cons_self
        rw [hops n hn] at hm
        exact h.inOrder.operands heq m hm }
  result := by rw [result_congr fun m hm => hops m (h.mem_iff.mp hm), h.result]
  visited := h.visited

/-- **Changes around a walk** do not lead it astray, as long as the nodes that it holds live on. -/
theorem Follows.evolves (h : w.Follows p order k) (hpq : p.Evolves q) (hpclosed : p.Closed)
    (hqclosed : q.Closed) (hp : ∀ n ∈ w.held, p.Alive n) (hq : ∀ n ∈ w.held, q.Alive n) :
    w.Follows q order k := by
  refine h.congr fun m hm => ?_
  obtain ⟨r, hr, hreach⟩ := h.mem_iff.mpr hm
  rw [Pool.operands_eq_node, Pool.operands_eq_node,
    (hpq.node?_of_reaches hpclosed hqclosed (hp r hr) (hq r hr) hreach).2]

end TensorCost.Walk
