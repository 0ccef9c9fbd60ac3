import Mathlib.Algebra.Order.BigOperators.Group.Finset
import TensorCost.Proofs.References
import TensorCost.Proofs.Walk

/-!
# How many turns a walk takes

A node may have many frames on the stack of a walk, one for each operand position by which it has
been met, and paths may lead to it in numbers that grow exponentially. The loop does linear work all
the same: each node is expanded once, so each operand position puts one frame on the stack at most.

What makes a node be expanded once is the order of the stack. Frames above the expanded frame of a
node belong to nodes below it, so a node that is in progress is not met again before it has been
visited, and later frames of it are dropped.

* `Walk.Turns` says that turns of the loop lead from one walk to another, and lists what they do.
* `Walk.begun` are the nodes expanded so far, and `Walk.Layered` says that the stack is in order.

Results:
* `Layered.step`, `Turns.layered`: a turn, and several turns, keep the stack in order.
* `Layered.begun_step`, `Turns.begun`: they expand nodes that have not been expanded before.
* `length_step_le`, `Turns.length_le`: they push no more frames than what they expand has room for.
* `turns_drain`, `turns_iterate_next`: draining a walk and advancing it are turns of the loop.
* `turns_le`: from any roots, the number of turns is linear in the size of the graph.
-/

namespace TensorCost.Walk

variable {p : Pool} {w w' : Walk} {e : Event} {es : List Event} {n m : NodeId}
  {roots : List NodeId}

/-- Whether turns of the loop in which `es` happen lead from one walk to another. -/
inductive Turns (p : Pool) : Walk → List Event → Walk → Prop
  | none (w : Walk) : Turns p w [] w
  | cons {w w' w'' : Walk} {e : Event} {es : List Event} (first : w.step p = (some e, w'))
      (rest : Turns p w' es w'') : Turns p w (e :: es) w''

/-- The node expanded in a turn of the loop, if there is one. -/
def Event.expanded : Event → List NodeId
  | skip | visit _ => []
  | expand n => [n]

/-- The nodes expanded in some turns, in order. -/
def expansions (es : List Event) : List NodeId := es.flatMap Event.expanded

theorem expansions_cons (e : Event) (es : List Event) :
    expansions (e :: es) = e.expanded ++ expansions es := List.flatMap_cons

/-! ## The order of the stack -/

/-- The nodes that have been expanded but not visited, the one expanded last first. -/
def inProgress (w : Walk) : List NodeId := (w.stack.filter Frame.expanded).map Frame.node

/-- The nodes expanded so far: those in progress and those visited. -/
def begun (w : Walk) : List NodeId := w.inProgress ++ w.visited.toList

/-- Whether frames above an expanded one belong to nodes below its node, and no node in progress has
been visited. -/
structure Layered (w : Walk) : Prop where
  consistent : w.visited.Consistent
  above : w.stack.Pairwise fun f g => g.expanded = true → f.node < g.node
  unvisited : ∀ n ∈ w.inProgress, n ∉ w.visited.toList

theorem mem_inProgress_iff : n ∈ w.inProgress ↔ ⟨n, true⟩ ∈ w.stack := by
  rw [inProgress, List.mem_map]
  constructor
  · rintro ⟨⟨m, expanded⟩, hf, rfl⟩
    obtain ⟨hmem, rfl⟩ := List.mem_filter.mp hf
    exact hmem
  · exact fun h => ⟨_, List.mem_filter.mpr ⟨h, rfl⟩, rfl⟩

/-- A frame that waits to be expanded adds nothing to what is in progress. -/
theorem inProgress_waiting (ns : List NodeId) (rest : List Frame) (visited : OrderedSet NodeId) :
    inProgress ⟨ns.map (⟨·, false⟩) ++ rest, visited⟩ = inProgress ⟨rest, visited⟩ := by
  induction ns with
  | nil => rfl
  | cons n ns ih => exact ih

theorem not_mem_waiting (n : NodeId) (ns : List NodeId) :
    (⟨n, true⟩ : Frame) ∉ ns.map (⟨·, false⟩) := by
  intro h
  obtain ⟨m, -, hm⟩ := List.mem_map.mp h
  exact Bool.false_ne_true (congrArg Frame.expanded hm)

theorem pairwise_waiting (ns : List NodeId) :
    (ns.map (Frame.mk · false)).Pairwise fun f g => g.expanded = true → f.node < g.node :=
  List.pairwise_map.mpr (List.pairwise_of_forall fun _ _ h => absurd h Bool.false_ne_true)

theorem layered_start (roots : List NodeId) : (start roots).Layered where
  consistent := OrderedSet.consistent_empty
  above := pairwise_waiting roots
  unvisited n hn := absurd (mem_inProgress_iff.mp hn) (not_mem_waiting n roots)

theorem begun_start (roots : List NodeId) : (start roots).begun = [] := by
  have hwaiting := inProgress_waiting roots [] OrderedSet.empty
  rw [List.append_nil] at hwaiting
  show inProgress ⟨roots.map (⟨·, false⟩), .empty⟩ ++ _ = []
  rw [hwaiting]
  rfl

/-- No node has been expanded twice. -/
theorem Layered.nodup_begun (hw : w.Layered) : w.begun.Nodup := by
  refine List.nodup_append.mpr ⟨?_, hw.consistent.nodup, fun n hn m hm heq => ?_⟩
  · refine List.pairwise_map.mpr ((List.pairwise_filter.mpr (hw.above.imp ?_)))
    exact fun {f g} h _ hg => Nat.ne_of_lt (h hg)
  · exact hw.unvisited n hn (heq ▸ hm)

/-- **A turn keeps the stack in order**: operands have smaller numbers than the node that they are
operands of, and this node is below all nodes in progress. -/
theorem Layered.step (hw : w.Layered) (h : w.step p = (some e, w')) : w'.Layered := by
  have hconsistent := (visited_step h hw.consistent).1
  obtain ⟨n, expanded, rest, hstack, hcases⟩ := step_cases h
  have habove := hw.above
  rw [hstack] at habove
  obtain ⟨htop, hrest⟩ := List.pairwise_cons.mp habove
  have hunvisited : ∀ m, ⟨m, true⟩ ∈ rest → m ∉ w.visited.toList := fun m hm =>
    hw.unvisited m (mem_inProgress_iff.mpr (hstack ▸ List.mem_cons_of_mem _ hm))
  rcases hcases with ⟨-, -, rfl⟩ | ⟨-, rfl, -, rfl⟩ | ⟨hn, rfl, -, rfl⟩
  · exact ⟨hconsistent, hrest, fun m hm => hunvisited m (mem_inProgress_iff.mp hm)⟩
  · refine ⟨hconsistent, hrest, fun m hm => ?_⟩
    rw [mem_inProgress_iff] at hm
    -- the node that is visited is below all that stay in progress
    have hlt : n < m := htop _ hm rfl
    intro hmem
    rcases OrderedSet.mem_of_mem_toList_add hmem with hmem | rfl
    · exact hunvisited m hm hmem
    · exact Nat.lt_irrefl _ hlt
  · refine ⟨hconsistent, ?_, fun m hm => ?_⟩
    · refine List.pairwise_append.mpr
        ⟨pairwise_waiting _, List.pairwise_cons.mpr ⟨htop, hrest⟩, ?_⟩
      intro f hf g hg hexpanded
      obtain ⟨m, hm, rfl⟩ := List.mem_map.mp hf
      have hlt : m < n := Pool.mem_operands_lt (List.mem_filter.mp hm).1
      rcases List.mem_cons.mp hg with rfl | hg
      · exact hlt
      · exact Nat.lt_trans hlt (htop g hg hexpanded)
    · rw [mem_inProgress_iff, List.mem_append, List.mem_cons] at hm
      rcases hm with hm | hm | hm
      · exact absurd hm (not_mem_waiting m _)
      · obtain rfl : m = n := congrArg Frame.node hm
        exact (hw.consistent.contains_eq_false_iff m).mp hn
      · exact hunvisited m hm

/-- **A turn expands** a node that has not been expanded before, or none. -/
theorem Layered.begun_step (hw : w.Layered) (h : w.step p = (some e, w')) :
    w'.begun.Perm (e.expanded ++ w.begun) := by
  have hvisited := (visited_step h hw.consistent).2
  have hbegun : ∀ {ns}, w'.inProgress = ns →
      w'.begun = ns ++ (w.visited.toList ++ e.visited) := by
    rintro ns rfl
    rw [begun, hvisited]
  obtain ⟨n, expanded, rest, hstack, hcases⟩ := step_cases h
  have hold : w.inProgress = inProgress ⟨⟨n, expanded⟩ :: rest, w.visited⟩ := by
    rw [inProgress, hstack, inProgress]
  rcases hcases with ⟨hn, rfl, rfl⟩ | ⟨-, rfl, rfl, rfl⟩ | ⟨-, rfl, rfl, rfl⟩
  · -- the frame of a node that has been visited is not an expanded one
    cases expanded with
    | true =>
      have hmem : n ∈ w.inProgress := mem_inProgress_iff.mpr (hstack ▸ List.mem_cons_self)
      exact absurd ((hw.consistent.contains_iff n).mp hn) (hw.unvisited n hmem)
    | false =>
      rw [hbegun rfl, begun, hold]
      exact (List.append_nil w.visited.toList).symm ▸ List.Perm.refl _
  · rw [hbegun rfl, begun, hold]
    show (inProgress ⟨rest, w.visited⟩ ++ (w.visited.toList ++ [n])).Perm
      (n :: inProgress ⟨rest, w.visited⟩ ++ w.visited.toList)
    rw [← List.append_assoc]
    exact List.perm_append_singleton n _
  · rw [hbegun (inProgress_waiting _ _ _), begun, hold]
    exact (List.append_nil w.visited.toList).symm ▸ List.Perm.refl _

/-! ## Runs of turns -/

theorem Turns.append {w'' : Walk} {es' : List Event} (h : w.Turns p es w')
    (h' : w'.Turns p es' w'') : w.Turns p (es ++ es') w'' := by
  induction h with
  | none => exact h'
  | cons first _ ih => exact .cons first (ih h')

theorem Turns.layered (h : w.Turns p es w') (hw : w.Layered) : w'.Layered := by
  induction h with
  | none => exact hw
  | cons first _ ih => exact ih (hw.step first)

/-- **Turns expand** nodes that have not been expanded before. -/
theorem Turns.begun (h : w.Turns p es w') (hw : w.Layered) :
    w'.begun.Perm (expansions es ++ w.begun) := by
  induction h with
  | none => exact .refl _
  | @cons w v w'' e es first _ ih =>
    have hrest : w''.begun.Perm (expansions es ++ (e.expanded ++ w.begun)) :=
      (ih (hw.step first)).trans ((hw.begun_step first).append_left _)
    rw [expansions_cons]
    exact hrest.trans (by
      rw [← List.append_assoc]
      exact List.perm_append_comm.append_right _)

theorem Turns.result (h : w.Turns p es w') (hw : w.Layered) : w'.result p = w.result p := by
  induction h with
  | none => rfl
  | cons first _ ih => rw [ih (hw.step first), result_step first hw.consistent]

/-- How many frames there is room for when some nodes are expanded: one for each node, and one for
each of its operand positions. -/
def room (p : Pool) (ns : List NodeId) : Nat := (ns.map fun n => 1 + (p.operands n).length).sum

/-- **A turn** takes a frame off the stack and pushes no more than it has room for. -/
theorem length_step_le (h : w.step p = (some e, w')) :
    1 + w'.stack.length ≤ w.stack.length + room p e.expanded := by
  obtain ⟨n, expanded, rest, hstack, hcases⟩ := step_cases h
  rw [hstack, List.length_cons]
  rcases hcases with ⟨-, rfl, rfl⟩ | ⟨-, -, rfl, rfl⟩ | ⟨-, -, rfl, rfl⟩
  · exact Nat.le_of_eq (Nat.add_comm _ _)
  · exact Nat.le_of_eq (Nat.add_comm _ _)
  · have hfresh : ((p.operands n).filter fun m => !w.visited.contains m).length ≤
        (p.operands n).length := List.length_filter_le _ _
    have hroom : room p [n] = 1 + (p.operands n).length := Nat.add_zero _
    rw [List.length_append, List.length_map, List.length_cons, Event.expanded, hroom]
    omega

theorem room_append (p : Pool) (ns ms : List NodeId) :
    room p (ns ++ ms) = room p ns + room p ms := by
  rw [room, List.map_append, List.sum_append]
  rfl

/-- **Each turn pops a frame**, which was on the stack or has been pushed on the way. -/
theorem Turns.length_le (h : w.Turns p es w') :
    es.length + w'.stack.length ≤ w.stack.length + room p (expansions es) := by
  induction h with
  | none => exact Nat.le_of_eq (Nat.add_comm _ _)
  | cons first _ ih =>
    have hfirst := length_step_le first
    rw [List.length_cons, expansions_cons, room_append]
    omega

theorem turns_drain (p : Pool) (w : Walk) : ∃ es, w.Turns p es (w.drain p) := by
  rw [drain]
  split
  · rename_i w' hstep
    obtain ⟨-, rfl⟩ := stack_of_step hstep
    exact ⟨[], .none _⟩
  · rename_i e w' hstep
    obtain ⟨es, hes⟩ := turns_drain p w'
    exact ⟨e :: es, .cons hstep hes⟩
termination_by w.weight p
decreasing_by exact step_weight_lt ‹_›

theorem stack_drain (p : Pool) (w : Walk) : (w.drain p).stack = [] := by
  rw [drain]
  split
  · rename_i w' hstep
    obtain ⟨hstack, rfl⟩ := stack_of_step hstep
    exact hstack
  · rename_i e w' hstep
    exact stack_drain p w'
termination_by w.weight p
decreasing_by exact step_weight_lt ‹_›

/-- An advance takes turns up to the next visit, or to the end. -/
theorem turns_next (p : Pool) (w : Walk) : ∃ es, w.Turns p es (w.next p).2 := by
  rw [next]
  split
  · rename_i w' hstep
    obtain ⟨-, rfl⟩ := stack_of_step hstep
    exact ⟨[], .none _⟩
  · rename_i n w' hstep
    exact ⟨[.visit n], .cons hstep (.none _)⟩
  · rename_i e w' hvisit hstep
    obtain ⟨es, hes⟩ := turns_next p w'
    exact ⟨e :: es, .cons hstep hes⟩
termination_by w.weight p
decreasing_by exact step_weight_lt ‹_›

/-- Any number of advances are turns of the loop. -/
theorem turns_iterate_next (p : Pool) (w : Walk) (k : Nat) :
    ∃ es, w.Turns p es ((fun v => (v.next p).2)^[k] w) := by
  induction k with
  | zero => exact ⟨[], .none w⟩
  | succ k ih =>
    obtain ⟨es, hes⟩ := ih
    obtain ⟨es', hes'⟩ := turns_next p ((fun v => (v.next p).2)^[k] w)
    rw [Function.iterate_succ_apply']
    exact ⟨es ++ es', hes.append hes'⟩

/-! ## Walks from roots -/

theorem Turns.begun_perm (h : (start roots).Turns p es w) : w.begun.Perm (expansions es) := by
  have hperm := h.begun (layered_start roots)
  rwa [begun_start, List.append_nil] at hperm

/-- What has been expanded on a walk from some roots can be reached from them. -/
theorem Turns.reachedFrom (h : (start roots).Turns p es w) (hn : n ∈ expansions es) :
    p.ReachedFrom roots n := by
  have hheld : n ∈ w.held := by
    have hbegun := List.mem_append.mp (h.begun_perm.mem_iff.mpr hn)
    refine List.mem_append.mpr (hbegun.imp_left fun hn => ?_)
    exact List.mem_map.mpr ⟨_, mem_inProgress_iff.mp hn, rfl⟩
  have hresult := mem_result_of_mem_held (p := p) hheld
  rwa [h.result (layered_start roots), result_start, Pool.mem_postOrder_iff] at hresult

theorem Turns.nodup_expansions (h : (start roots).Turns p es w) : (expansions es).Nodup :=
  h.begun_perm.nodup_iff.mp (h.layered (layered_start roots)).nodup_begun

/-- A frame of a node that has been expanded comes up only after the node has been visited. -/
theorem Turns.mem_visited {rest : List Frame} (h : (start roots).Turns p es w)
    (htop : w.stack = ⟨n, false⟩ :: rest) (hn : n ∈ expansions es) : n ∈ w.visited.toList := by
  have hbegun := List.mem_append.mp (h.begun_perm.mem_iff.mpr hn)
  refine hbegun.resolve_left fun hprogress => ?_
  have hbelow : ⟨n, true⟩ ∈ rest := by
    rw [mem_inProgress_iff, htop, List.mem_cons] at hprogress
    exact hprogress.resolve_left fun heq => Bool.false_ne_true (congrArg Frame.expanded heq).symm
  have habove := (h.layered (layered_start roots)).above
  rw [htop] at habove
  exact Nat.lt_irrefl n ((List.pairwise_cons.mp habove).1 _ hbelow rfl)

/-- **The number of turns** from any roots is at most that of the roots, of the nodes below them and
of the operand positions of these. -/
theorem turns_le (h : (start roots).Turns p es w) :
    es.length ≤ roots.length + (p.reached roots).card +
      ∑ m ∈ p.reached roots, (p.operands m).length := by
  have hlength := h.length_le
  have hroots : (start roots).stack.length = roots.length := List.length_map _
  have hsub : (expansions es).toFinset ⊆ p.reached roots := by
    intro n hn
    exact Pool.mem_reached_iff.mpr (h.reachedFrom (List.mem_toFinset.mp hn))
  have hroom : room p (expansions es) ≤
      ∑ m ∈ p.reached roots, (1 + (p.operands m).length) := by
    rw [room, ← List.sum_toFinset _ h.nodup_expansions]
    exact Finset.sum_le_sum_of_subset hsub
  rw [Finset.sum_add_distrib, ← Finset.card_eq_sum_ones] at hroom
  omega

/-- **What has been expanded** when a walk has come to its end are the nodes of the traversal. -/
theorem Turns.expansions_perm (h : (start roots).Turns p es w) (hend : w.stack = []) :
    (expansions es).Perm (p.traverse roots) := by
  have hdone : w.begun = w.result p := by
    rw [Walk.begun, Walk.inProgress, Walk.result, hend]
    rfl
  rw [p.traverse_eq_postOrder, ← result_start, ← h.result (layered_start roots), ← hdone]
  exact h.begun_perm.symm

end TensorCost.Walk
