import TensorCost.PostOrder
import TensorCost.Walk
import TensorCost.Proofs.Session.Reachable

/-!
# Walks and post-order

A walk with a stack of frames visits the nodes in the order of the recursion `Pool.postOrder`. Every
frame stands for something that is still to be done to the list of visited nodes, and so does the
stack; a turn of the loop changes the stack and the list but not what comes out in the end.

* `Pool.InOrder` says that a list has no repetitions and lists every node after its operands.
* `Walk.finish` is what a frame stands for, and `Walk.visits` lists the visits that are left.

Results:
* `inOrder_postOrder`, `mem_postOrder_iff`: the recursion lists the nodes below the roots, in order.
* `drain_spec`: draining a walk does what its stack stands for.
* `traverse_eq_postOrder`, `visits_start`: walks visit in post-order.
* `Reachable.traversal`: in a reachable session, a walk visits each node below its roots once, after
  its operands, as the recursion does.
-/

namespace TensorCost

/-! ## The recursion -/

namespace Pool

variable {p : Pool} {visited : List NodeId} {n m : NodeId}

theorem visit_eq (p : Pool) (visited : List NodeId) (n : NodeId) :
    p.visit visited n =
      if n ∈ visited then visited else (p.operands n).foldl p.visit visited ++ [n] := by
  rw [visit]
  have hfold := List.foldl_attach (l := p.operands n) (f := p.visit) (b := visited)
  rw [hfold]

theorem visit_of_mem (h : n ∈ visited) : p.visit visited n = visited := by
  rw [visit_eq, if_pos h]

theorem visit_of_not_mem (h : n ∉ visited) :
    p.visit visited n = (p.operands n).foldl p.visit visited ++ [n] := by
  rw [visit_eq, if_neg h]

/-- A list of nodes without repetitions, each after its operands. -/
structure InOrder (p : Pool) (visited : List NodeId) : Prop where
  nodup : visited.Nodup
  operands : ∀ ⦃before n after⦄, visited = before ++ n :: after → ∀ m ∈ p.operands n, m ∈ before

theorem inOrder_nil : p.InOrder [] where
  nodup := List.nodup_nil
  operands before n after h := by simp at h

theorem InOrder.concat (h : p.InOrder visited) (hn : n ∉ visited)
    (hops : ∀ m ∈ p.operands n, m ∈ visited) : p.InOrder (visited ++ [n]) where
  nodup := List.nodup_append.mpr ⟨h.nodup, List.nodup_singleton n, fun a ha b hb => by
    rw [List.mem_singleton] at hb
    rintro rfl
    exact hn (hb ▸ ha)⟩
  operands before k after heq := by
    rcases List.eq_nil_or_concat after with rfl | ⟨after, b, rfl⟩
    · obtain ⟨rfl, hk⟩ := List.append_inj' heq rfl
      obtain rfl := List.singleton_inj.mp hk
      exact hops
    · rw [List.concat_eq_append, ← List.cons_append, ← List.append_assoc] at heq
      obtain ⟨hv, -⟩ := List.append_inj' heq rfl
      exact h.operands hv

theorem InOrder.mem_of_reaches (h : p.InOrder visited) (hn : n ∈ visited)
    (hreach : p.Reaches n m) : m ∈ visited := by
  induction hreach with
  | refl => exact hn
  | step hoperand _ ih =>
    obtain ⟨before, after, rfl⟩ := List.append_of_mem hn
    exact ih (List.mem_append_left _ (h.operands rfl _ hoperand))

/-- What visiting nodes one after the other does to a list of visited nodes. -/
structure Visits (p : Pool) (visited ns visited' : List NodeId) : Prop where
  kept : visited <+: visited'
  done : ∀ n ∈ ns, n ∈ visited'
  only : ∀ m ∈ visited', m ∈ visited ∨ p.ReachedFrom ns m
  inOrder : p.InOrder visited → p.InOrder visited'

theorem visits_foldl {ns : List NodeId}
    (ih : ∀ n ∈ ns, ∀ visited, p.Visits visited [n] (p.visit visited n)) :
    p.Visits visited ns (ns.foldl p.visit visited) := by
  induction ns generalizing visited with
  | nil => exact ⟨List.prefix_rfl, fun n hn => absurd hn List.not_mem_nil, fun m hm => .inl hm, id⟩
  | cons n ns ihs =>
    have hn := ih n List.mem_cons_self visited
    have hns : p.Visits (p.visit visited n) ns (ns.foldl p.visit (p.visit visited n)) :=
      ihs fun m hm => ih m (List.mem_cons_of_mem _ hm)
    refine ⟨hn.kept.trans hns.kept, fun m hm => ?_, fun m hm => ?_, hns.inOrder ∘ hn.inOrder⟩
    · rcases List.mem_cons.mp hm with rfl | hm
      · exact hns.kept.subset (hn.done _ (List.mem_singleton_self _))
      · exact hns.done m hm
    · rcases hns.only m hm with hm | ⟨r, hr, hreach⟩
      · rcases hn.only m hm with hm | ⟨r, hr, hreach⟩
        · exact .inl hm
        · obtain rfl := List.mem_singleton.mp hr
          exact .inr ⟨_, List.mem_cons_self, hreach⟩
      · exact .inr ⟨r, List.mem_cons_of_mem _ hr, hreach⟩

/-- The operands of a node put nothing into the list that is as large as the node itself, so a node
that is missing is still missing after them. -/
theorem Visits.not_mem_operands {visited' : List NodeId}
    (h : p.Visits visited (p.operands n) visited') (hn : n ∉ visited) : n ∉ visited' := by
  intro hmem
  rcases h.only n hmem with hmem | ⟨r, hr, hreach⟩
  · exact hn hmem
  · exact Nat.lt_irrefl n (Nat.lt_of_le_of_lt hreach.le (mem_operands_lt hr))

/-- **Visiting a node** puts what is missing below it at the end of the list, in order. -/
theorem visits_visit (p : Pool) (visited : List NodeId) (n : NodeId) :
    p.Visits visited [n] (p.visit visited n) := by
  induction n using Nat.strongRecOn generalizing visited with
  | ind n ih =>
    by_cases hn : n ∈ visited
    · rw [visit_of_mem hn]
      exact ⟨List.prefix_rfl, fun m hm => List.mem_singleton.mp hm ▸ hn, fun m hm => .inl hm, id⟩
    · rw [visit_of_not_mem hn]
      have hops : p.Visits visited (p.operands n) ((p.operands n).foldl p.visit visited) :=
        visits_foldl fun m hm visited => ih m (mem_operands_lt hm) visited
      refine ⟨hops.kept.trans (List.prefix_append _ _), fun m hm => ?_, fun m hm => ?_, fun h => ?_⟩
      · exact List.mem_append_right _ hm
      · rcases List.mem_append.mp hm with hm | hm
        · rcases hops.only m hm with hm | ⟨r, hr, hreach⟩
          · exact .inl hm
          · exact .inr ⟨n, List.mem_singleton_self n, .step hr hreach⟩
        · obtain rfl := List.mem_singleton.mp hm
          exact .inr ⟨_, List.mem_singleton_self _, .refl _⟩
      · exact (hops.inOrder h).concat (hops.not_mem_operands hn) hops.done

theorem visits_postOrder (p : Pool) (roots : List NodeId) :
    p.Visits [] roots (p.postOrder roots) :=
  visits_foldl fun n _ visited => visits_visit p visited n

theorem inOrder_postOrder (p : Pool) (roots : List NodeId) : p.InOrder (p.postOrder roots) :=
  (visits_postOrder p roots).inOrder inOrder_nil

/-- **The recursion lists the nodes below the roots** and no others. -/
theorem mem_postOrder_iff {roots : List NodeId} :
    m ∈ p.postOrder roots ↔ p.ReachedFrom roots m := by
  have hvisits := visits_postOrder p roots
  constructor
  · intro hm
    rcases hvisits.only m hm with hm | hm
    · exact absurd hm List.not_mem_nil
    · exact hm
  · rintro ⟨r, hr, hreach⟩
    exact (inOrder_postOrder p roots).mem_of_reaches (hvisits.done r hr) hreach

/-- Nodes that have been visited before can be left out. -/
theorem foldl_visit_filter {visited visited' : List NodeId} (h : visited ⊆ visited')
    {keep : NodeId → Bool} (hkeep : ∀ m, keep m = false → m ∈ visited) (ns : List NodeId) :
    (ns.filter keep).foldl p.visit visited' = ns.foldl p.visit visited' := by
  induction ns generalizing visited' with
  | nil => rfl
  | cons n ns ih =>
    have hnext : visited ⊆ p.visit visited' n :=
      List.Subset.trans h (visits_visit p visited' n).kept.subset
    rw [List.foldl_cons]
    cases hn : keep n with
    | true => rw [List.filter_cons_of_pos hn, List.foldl_cons, ih hnext]
    | false =>
      rw [List.filter_cons_of_neg (by simp [hn]), visit_of_mem (h (hkeep n hn)), ih h]

end Pool

/-! ## Walks -/

namespace Walk

variable {p : Pool} {w w' : Walk} {e : Event} {n : NodeId}

/-- What a frame stands for: an expanded node is still to be put into the list itself, any other is
still to be visited. -/
def finish (p : Pool) (visited : List NodeId) (f : Frame) : List NodeId :=
  if f.expanded then if f.node ∈ visited then visited else visited ++ [f.node]
  else p.visit visited f.node

/-- What a walk stands for: the list of visited nodes in the end. -/
def result (p : Pool) (w : Walk) : List NodeId := w.stack.foldl (finish p) w.visited.toList

theorem finish_of_mem {visited : List NodeId} {f : Frame} (h : f.node ∈ visited) :
    finish p visited f = visited := by
  by_cases hexpanded : f.expanded
  · rw [finish, if_pos hexpanded, if_pos h]
  · rw [finish, if_neg hexpanded, Pool.visit_of_mem h]

theorem foldl_finish_map (p : Pool) (visited ns : List NodeId) :
    (ns.map (⟨·, false⟩)).foldl (finish p) visited = ns.foldl p.visit visited := by
  rw [List.foldl_map]
  rfl

/-- The node visited in a turn of the loop, if there is one. -/
def Event.visited : Event → List NodeId
  | skip | expand _ => []
  | visit n => [n]

theorem visited_step (h : w.step p = (some e, w')) (hw : w.visited.Consistent) :
    w'.visited.Consistent ∧ w'.visited.toList = w.visited.toList ++ e.visited := by
  obtain ⟨n, expanded, rest, -, ⟨-, rfl, rfl⟩ | ⟨hn, -, rfl, rfl⟩ | ⟨-, -, rfl, rfl⟩⟩ :=
    step_cases h
  · exact ⟨hw, (List.append_nil _).symm⟩
  · refine ⟨hw.add n, ?_⟩
    rw [hw.toList_add, if_neg ((hw.contains_eq_false_iff n).mp hn)]
    rfl
  · exact ⟨hw, (List.append_nil _).symm⟩

/-- **A turn of the loop** leaves alone what the walk stands for. -/
theorem result_step (h : w.step p = (some e, w')) (hw : w.visited.Consistent) :
    w'.result p = w.result p := by
  obtain ⟨n, expanded, rest, hstack, hcases⟩ := step_cases h
  unfold result
  rw [hstack, List.foldl_cons]
  rcases hcases with ⟨hn, -, rfl⟩ | ⟨hn, rfl, -, rfl⟩ | ⟨hn, rfl, -, rfl⟩
  · rw [finish_of_mem ((hw.contains_iff n).mp hn)]
  · rw [hw.toList_add, finish, if_pos rfl]
  · have hmissing : n ∉ w.visited.toList := (hw.contains_eq_false_iff n).mp hn
    -- the frames for operands that are missing do what visiting all operands does
    have hfresh : ((p.operands n).filter fun m => !w.visited.contains m).foldl p.visit
        w.visited.toList = (p.operands n).foldl p.visit w.visited.toList :=
      Pool.foldl_visit_filter (List.Subset.refl _)
        (fun m hm => (hw.contains_iff m).mp (by simpa using hm)) _
    have hops : p.Visits w.visited.toList (p.operands n) _ :=
      Pool.visits_foldl fun m _ visited => Pool.visits_visit p visited m
    rw [List.foldl_append, foldl_finish_map, hfresh, List.foldl_cons]
    rw [finish, if_pos rfl, if_neg (hops.not_mem_operands hmissing)]
    rw [finish, if_neg Bool.false_ne_true, Pool.visit_of_not_mem hmissing]

/-- **Draining a walk** does what the walk stands for. -/
theorem drain_spec (p : Pool) (w : Walk) (hw : w.visited.Consistent) :
    (w.drain p).visited.toList = w.result p := by
  rw [drain]
  split
  · rename_i w' h
    obtain ⟨hstack, rfl⟩ := stack_of_step h
    rw [result, hstack]
    rfl
  · rename_i e w' h
    rw [drain_spec p w' (visited_step h hw).1, result_step h hw]
termination_by w.weight p
decreasing_by exact step_weight_lt ‹_›

theorem next_weight_lt {w : Walk} (h : w.next p = (some n, w')) : w'.weight p < w.weight p := by
  rw [next] at h
  split at h
  · simp at h
  · rename_i m v hstep
    obtain ⟨-, rfl⟩ := Prod.mk.inj h
    exact step_weight_lt hstep
  · rename_i e v _ hstep
    exact Nat.lt_trans (next_weight_lt h) (step_weight_lt hstep)
termination_by w.weight p
decreasing_by exact step_weight_lt ‹_›

/-- **An advance** finds that nothing is left, or puts one more node into the list, and leaves alone
what the walk stands for. -/
theorem next_cases (p : Pool) (w : Walk) (hw : w.visited.Consistent) :
    (∃ w', w.next p = (none, w') ∧ w'.visited.Consistent ∧
        w'.visited.toList = w.visited.toList ∧ w'.result p = w.result p ∧
        w.result p = w.visited.toList) ∨
      ∃ n w', w.next p = (some n, w') ∧ w'.visited.Consistent ∧
        w'.visited.toList = w.visited.toList ++ [n] ∧ w'.result p = w.result p := by
  rw [next]
  split
  · rename_i w' hstep
    obtain ⟨hstack, rfl⟩ := stack_of_step hstep
    refine .inl ⟨_, rfl, hw, rfl, rfl, ?_⟩
    rw [result, hstack]
    rfl
  · rename_i n w' hstep
    obtain ⟨hw', hlist⟩ := visited_step hstep hw
    exact .inr ⟨n, w', rfl, hw', hlist, result_step hstep hw⟩
  · rename_i e v hnovisit hstep
    obtain ⟨hv, hlist⟩ := visited_step hstep hw
    have he : e.visited = [] := by
      cases e with
      | visit n => exact absurd rfl (hnovisit n)
      | _ => rfl
    rw [he, List.append_nil] at hlist
    rw [← hlist, ← result_step hstep hw]
    exact next_cases p v hv
termination_by w.weight p
decreasing_by exact step_weight_lt ‹_›

/-- The visits that are left, when the walk is advanced until nothing is left. -/
def visits (p : Pool) (w : Walk) : List NodeId :=
  match _h : w.next p with
  | (none, _) => []
  | (some n, w') => n :: w'.visits p
termination_by w.weight p
decreasing_by exact next_weight_lt _h

theorem visits_spec (p : Pool) (w : Walk) (hw : w.visited.Consistent) :
    w.visited.toList ++ w.visits p = w.result p := by
  rw [visits]
  rcases next_cases p w hw with ⟨w', hnext, -, -, -, hdone⟩ | ⟨n, w', hnext, hw', hlist, hresult⟩
  · split
    · rw [hdone, List.append_nil]
    · rename_i n v h
      rw [hnext] at h
      simp at h
  · split
    · rename_i v h
      rw [hnext] at h
      simp at h
    · rename_i m v h
      rw [hnext] at h
      obtain ⟨hn, rfl⟩ := Prod.mk.inj h
      obtain rfl := Option.some.inj hn
      rw [← hresult, ← visits_spec p w' hw', hlist, List.append_assoc]
      rfl
termination_by w.weight p
decreasing_by exact next_weight_lt ‹_›

theorem result_start (p : Pool) (roots : List NodeId) :
    (start roots).result p = p.postOrder roots :=
  foldl_finish_map p [] roots

/-- **The visits of a walk** are in post-order. -/
theorem visits_start (p : Pool) (roots : List NodeId) :
    (start roots).visits p = p.postOrder roots := by
  have h := visits_spec p (start roots) OrderedSet.consistent_empty
  rwa [result_start] at h

end Walk

/-! ## Traversals in sessions -/

/-- **Draining a walk** gives the nodes in post-order. -/
theorem Pool.traverse_eq_postOrder (p : Pool) (roots : List NodeId) :
    p.traverse roots = p.postOrder roots := by
  rw [Pool.traverse, Walk.drain_spec p _ OrderedSet.consistent_empty, Walk.result_start]

theorem Pool.inOrder_traverse (p : Pool) (roots : List NodeId) : p.InOrder (p.traverse roots) := by
  rw [traverse_eq_postOrder]
  exact p.inOrder_postOrder roots

theorem Pool.mem_traverse_iff {p : Pool} {roots : List NodeId} {m : NodeId} :
    m ∈ p.traverse roots ↔ p.ReachedFrom roots m := by
  rw [traverse_eq_postOrder, mem_postOrder_iff]

/-- The order of a traversal depends on the operands of the nodes below and on nothing else. -/
theorem Pool.visit_congr {p q : Pool} {n : NodeId}
    (h : ∀ m, p.Reaches n m → q.operands m = p.operands m) (visited : List NodeId) :
    q.visit visited n = p.visit visited n := by
  induction n using Nat.strongRecOn generalizing visited with
  | ind n ih =>
    have hfold : (p.operands n).foldl q.visit visited = (p.operands n).foldl p.visit visited :=
      List.foldl_ext _ _ visited fun visited m hm =>
        ih m (mem_operands_lt hm) (fun k hreach => h k (.step hm hreach)) visited
    rw [visit_eq, visit_eq, h n (.refl n), hfold]

theorem Pool.traverse_congr {p q : Pool} {roots : List NodeId}
    (h : ∀ m, p.ReachedFrom roots m → q.operands m = p.operands m) :
    q.traverse roots = p.traverse roots := by
  rw [traverse_eq_postOrder, traverse_eq_postOrder]
  exact List.foldl_ext _ _ [] fun visited r hr =>
    visit_congr (fun m hreach => h m ⟨r, hr, hreach⟩) visited

theorem Pool.SameRecords.traverse_eq {p q : Pool} (h : SameRecords p q) (roots : List NodeId) :
    q.traverse roots = p.traverse roots :=
  traverse_congr fun n _ => h.operands_eq n

/-- **Traversal.** In a reachable session, where the operands of a node are those it was built with,
a walk from any roots makes its visits as the recursion does, and it ends with the same list. So it
visits each node below the roots once, and no other, and each after all of its operands. -/
theorem Session.Reachable.traversal {H : NodeHash} {s : Session} (h : s.Reachable H)
    (roots : List NodeId) :
    (∀ n c, s.pool.cell? n = some c → s.pool.operands n = c.operands) ∧
      (Walk.start roots).visits s.pool = s.pool.postOrder roots ∧
      s.pool.traverse roots = s.pool.postOrder roots ∧
      (s.pool.postOrder roots).Nodup ∧
      (∀ m, m ∈ s.pool.postOrder roots ↔ s.pool.ReachedFrom roots m) ∧
      ∀ before n after, s.pool.postOrder roots = before ++ n :: after →
        ∀ m ∈ s.pool.operands n, m ∈ before := by
  have horder := s.pool.inOrder_postOrder roots
  refine ⟨fun n c hc => h.wellFormed.pool.closed.operands_eq hc, Walk.visits_start _ _,
    s.pool.traverse_eq_postOrder roots, horder.nodup, fun m => Pool.mem_postOrder_iff, ?_⟩
  intro before n after heq
  exact horder.operands heq

/-- A node with a repeated operand, asked for twice and together with that operand. -/
theorem Session.traversal_of_shared_operand :
    let H : NodeHash := fun _ _ => 0
    let p : Pool := (Pool.empty.construct H (.variable "x" [])).2
    let q : Pool := (p.construct H (.sum 0 0)).2
    let s : Session := { pool := q, nodes := [("e", 1), ("x", 0)] }
    s.Reachable H ∧ (Walk.start [1, 0, 1]).visits q = [0, 1] := by
  intro H p q s
  have hx : Reachable H { pool := p, nodes := [("x", 0)] } :=
    Reachable.start.construct (c := .variable "x" []) rfl rfl (by decide +kernel) rfl
  have hs : s.Reachable H := hx.construct (c := .sum "x" "x") rfl rfl (by decide +kernel) rfl
  refine ⟨hs, ?_⟩
  obtain ⟨-, hvisits, -⟩ := hs.traversal [1, 0, 1]
  rw [hvisits]
  decide +kernel

end TensorCost
