import TensorCost.Pool.Basic

/-!
# Walks in post-order

A walk visits every node that can be reached from its roots once, operands from left to right and
each node after its operands. It keeps a stack of frames: a node that is met for the first time is
expanded, which puts it back below frames for its operands, and it is visited when it comes up
again.

* `Walk.start`, `Walk.next` and `Walk.drain` start a walk, advance it by one visit and finish it.
* `Walk.step` is one turn of the loop, `Walk.Event` what happens in it.
* `Pool.traverse` is the list of nodes that a walk visits.
* `Pool.unsharedTurns` lists the turns for a node if nothing is shared, and `Walk.weight` counts
  those that a walk has left.
* `Walk.held` lists the holds by which a suspended walk keeps its nodes alive.

Results:
* `step_cases`: a turn of the loop drops a frame, makes a visit or expands a node.
* `step_weight_lt`: each turn makes a walk lighter, so it ends however nodes are shared.
-/

namespace TensorCost

/-- The turns for a node that is still to be expanded, each given by the node that it is about, if
nothing is shared: those for the operands stand between the expansion of the node and its visit. -/
def Pool.unsharedTurns (p : Pool) (n : NodeId) : List NodeId :=
  n :: (p.operands n).attach.flatMap (fun m => p.unsharedTurns m.1) ++ [n]
termination_by n
decreasing_by exact Pool.mem_operands_lt m.2

theorem Pool.unsharedTurns_eq (p : Pool) (n : NodeId) :
    p.unsharedTurns n = n :: (p.operands n).flatMap p.unsharedTurns ++ [n] := by
  rw [unsharedTurns, ← List.flatMap_map Subtype.val p.unsharedTurns, List.attach_map_subtype_val]

/-- A node on the stack of a walk. -/
structure Frame where
  node : NodeId
  /-- Whether the node's operands have been put on the stack above it. -/
  expanded : Bool
  deriving DecidableEq, Repr

/-- A walk between two visits. -/
structure Walk where
  /-- What is still to be done, the next frame first. -/
  stack : List Frame
  /-- The nodes visited so far. -/
  visited : OrderedSet NodeId

namespace Walk

/-- A walk that has visited nothing yet. -/
def start (roots : List NodeId) : Walk := ⟨roots.map (⟨·, false⟩), .empty⟩

/-- What one turn of the loop does. -/
inductive Event
  /-- Drops a frame whose node has been visited. -/
  | skip
  /-- Puts frames for the operands of a node on top of it. -/
  | expand (n : NodeId)
  | visit (n : NodeId)
  deriving DecidableEq, Repr

/-- One turn of the loop; there is no event when nothing is left to do. -/
def step (p : Pool) : Walk → Option Event × Walk
  | ⟨[], visited⟩ => (none, ⟨[], visited⟩)
  | ⟨⟨n, expanded⟩ :: rest, visited⟩ =>
    if visited.contains n then (some .skip, ⟨rest, visited⟩)
    else if expanded then (some (.visit n), ⟨rest, visited.add n⟩)
    else
      let fresh := (p.operands n).filter fun m => !visited.contains m
      (some (.expand n), ⟨fresh.map (⟨·, false⟩) ++ ⟨n, true⟩ :: rest, visited⟩)

/-- A walk without a next turn has nothing left on its stack. -/
theorem stack_of_step {p : Pool} {w w' : Walk} (h : w.step p = (none, w')) :
    w.stack = [] ∧ w' = w := by
  unfold step at h
  split at h
  · exact ⟨rfl, (Prod.mk.inj h).2.symm⟩
  · split at h
    · simp at h
    · split at h <;> simp at h

/-- What a turn of the loop does: it drops the next frame if its node has been visited, makes the
visit if the node has been expanded, and expands it if not. -/
theorem step_cases {p : Pool} {w w' : Walk} {e : Event} (h : w.step p = (some e, w')) :
    ∃ n expanded rest, w.stack = ⟨n, expanded⟩ :: rest ∧
      (w.visited.contains n = true ∧ e = .skip ∧ w' = ⟨rest, w.visited⟩ ∨
        w.visited.contains n = false ∧ expanded = true ∧ e = .visit n ∧
          w' = ⟨rest, w.visited.add n⟩ ∨
        w.visited.contains n = false ∧ expanded = false ∧ e = .expand n ∧
          w' = ⟨((p.operands n).filter fun m => !w.visited.contains m).map (⟨·, false⟩) ++
            ⟨n, true⟩ :: rest, w.visited⟩) := by
  obtain ⟨stack, visited⟩ := w
  cases stack with
  | nil => simp [step] at h
  | cons f rest =>
    obtain ⟨n, expanded⟩ := f
    refine ⟨n, expanded, rest, rfl, ?_⟩
    unfold step at h
    cases hn : visited.contains n with
    | true =>
      simp only [hn, if_true, Prod.mk.injEq, Option.some.injEq] at h
      exact .inl ⟨rfl, h.1.symm, h.2.symm⟩
    | false =>
      cases expanded with
      | true =>
        simp only [hn, Bool.false_eq_true, if_false, if_true, Prod.mk.injEq,
          Option.some.injEq] at h
        exact .inr (.inl ⟨rfl, rfl, h.1.symm, h.2.symm⟩)
      | false =>
        simp only [hn, Bool.false_eq_true, if_false, Prod.mk.injEq, Option.some.injEq] at h
        exact .inr (.inr ⟨rfl, rfl, h.1.symm, h.2.symm⟩)

/-- The turns for a frame, if nothing is shared. -/
def frameTurns (p : Pool) (f : Frame) : List NodeId :=
  if f.expanded then [f.node] else p.unsharedTurns f.node

/-- The weight of a walk is the number of turns that it has left, if nothing is shared. -/
def weight (p : Pool) (w : Walk) : Nat := (w.stack.flatMap (frameTurns p)).length

theorem frameTurns_ne_nil (p : Pool) (f : Frame) : frameTurns p f ≠ [] := by
  unfold frameTurns
  split
  · exact List.cons_ne_nil _ _
  · rw [Pool.unsharedTurns_eq]
    exact List.cons_ne_nil _ _

/-- A frame that is dropped takes its turns along. -/
theorem weight_tail_lt (p : Pool) (f : Frame) (rest : List Frame)
    (visited visited' : OrderedSet NodeId) :
    weight p ⟨rest, visited'⟩ < weight p ⟨f :: rest, visited⟩ := by
  have hpos : 0 < (frameTurns p f).length := List.length_pos_iff.mpr (frameTurns_ne_nil p f)
  rw [weight, weight, List.flatMap_cons, List.length_append]
  exact Nat.lt_add_of_pos_left hpos

theorem length_flatMap_filter_le {α β : Type} (keep : α → Bool) (f : α → List β) (as : List α) :
    ((as.filter keep).flatMap f).length ≤ (as.flatMap f).length := by
  induction as with
  | nil => exact Nat.le_refl _
  | cons a rest ih =>
    rw [List.flatMap_cons, List.length_append]
    by_cases h : keep a
    · rw [List.filter_cons_of_pos h, List.flatMap_cons, List.length_append]
      exact Nat.add_le_add_left ih _
    · rw [List.filter_cons_of_neg h]
      exact Nat.le_trans ih (Nat.le_add_left ..)

/-- The turn that expands a node is gone, and operands visited before take no turns. -/
theorem weight_expand_lt (p : Pool) (n : NodeId) (rest : List Frame)
    (visited : OrderedSet NodeId) :
    weight p ⟨((p.operands n).filter fun m => !visited.contains m).map (⟨·, false⟩) ++
      ⟨n, true⟩ :: rest, visited⟩ < weight p ⟨⟨n, false⟩ :: rest, visited⟩ := by
  generalize hfresh : (p.operands n).filter (fun m => !visited.contains m) = fresh
  have hle : (fresh.flatMap p.unsharedTurns).length ≤
      ((p.operands n).flatMap p.unsharedTurns).length := by
    rw [← hfresh]
    exact length_flatMap_filter_le ..
  have hturns : (fresh.map (⟨·, false⟩)).flatMap (frameTurns p) = fresh.flatMap p.unsharedTurns :=
    List.flatMap_map ..
  have hn : frameTurns p ⟨n, false⟩ = n :: (p.operands n).flatMap p.unsharedTurns ++ [n] :=
    p.unsharedTurns_eq n
  have hvisit : frameTurns p ⟨n, true⟩ = [n] := rfl
  simp only [weight, List.flatMap_append, List.flatMap_cons, hturns, hn, hvisit,
    List.length_append, List.length_cons, List.length_nil]
  omega

/-- **Each turn** makes a walk lighter. -/
theorem step_weight_lt {p : Pool} {w w' : Walk} {e : Event} (h : w.step p = (some e, w')) :
    w'.weight p < w.weight p := by
  obtain ⟨n, expanded, rest, hstack, hcases⟩ := step_cases h
  obtain ⟨stack, visited⟩ := w
  obtain rfl : stack = ⟨n, expanded⟩ :: rest := hstack
  rcases hcases with ⟨-, -, rfl⟩ | ⟨-, -, -, rfl⟩ | ⟨-, rfl, -, rfl⟩
  · exact weight_tail_lt ..
  · exact weight_tail_lt ..
  · exact weight_expand_lt ..

/-- Advances a walk to its next visit; none when everything has been visited. -/
def next (p : Pool) (w : Walk) : Option NodeId × Walk :=
  match _h : w.step p with
  | (none, w') => (none, w')
  | (some (.visit n), w') => (some n, w')
  | (some _, w') => w'.next p
termination_by w.weight p
decreasing_by exact step_weight_lt _h

/-- Advances a walk until everything has been visited. -/
def drain (p : Pool) (w : Walk) : Walk :=
  match _h : w.step p with
  | (none, w') => w'
  | (some _, w') => w'.drain p
termination_by w.weight p
decreasing_by exact step_weight_lt _h

/-- The nodes that a walk holds, one entry for each frame and each visited node. -/
def held (w : Walk) : List NodeId := w.stack.map Frame.node ++ w.visited.toList

end Walk

/-- The nodes that can be reached from `roots`, each once and after its operands. -/
def Pool.traverse (p : Pool) (roots : List NodeId) : List NodeId :=
  ((Walk.start roots).drain p).visited.toList

end TensorCost
