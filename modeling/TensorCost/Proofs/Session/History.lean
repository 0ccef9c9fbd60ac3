import TensorCost.Proofs.Pool.Recipe
import TensorCost.Proofs.Session.Reachable

/-!
# Independence of history

What a session says about an expression does not depend on what happened in it before: which nodes
are alive, which ones have died, which free indices are kept, and what the counters have come to.

* `Session.Answers` are the answers about the nodes below some roots, and `Session.answers` gives
  those of a session. Nodes appear in them by position, not by number.

Results:
* `answers_alike`: sessions give the same answers about alike roots.
* `Reachable.same_answers`: an expression built in two sessions is refused for the same reason, or
  both give the same answers about it.
-/

namespace TensorCost.Session

open Pool

/-- What a session answers about the nodes below some roots. -/
structure Answers where
  /-- The kinds of the nodes in the order of traversal, with the positions of their operands. -/
  listing : Listing
  /-- The free indices of the roots. -/
  rootIndices : List (List Index)
  /-- The free indices of the nodes in the order of traversal. -/
  freeIndices : List (List Index)
  count : Except Error Nat
  /-- Kind and number of references of the nodes in the order of traversal. -/
  references : List (String × Nat)
  /-- The number of nodes that references are counted of. -/
  counted : Nat
  /-- Kind and position in the traversal of the shared nodes. -/
  shared : List (String × Nat)
  report : Except Error Report

/-- The answers of a session about the nodes below `roots`, with reports by the analyzer `a`. -/
def answers (s : Session) (roots : List NodeId) (a : Analyzer) : Answers where
  listing := s.listing (s.pool.traverse roots)
  rootIndices := roots.map fun n => (s.pool.freeIndices n).1
  freeIndices := (s.pool.traverse roots).map fun n => (s.pool.freeIndices n).1
  count := (s.pool.count roots).1
  references := (s.pool.traverse roots).map fun n =>
    (s.pool.kindName n, (s.pool.referenceCounts roots).getD n 0)
  counted := (s.pool.referenceCounts roots).size
  shared := (s.pool.sharedNodes roots).map fun n =>
    (s.pool.kindName n, (positions (s.pool.traverse roots)).getD n 0)
  report := (a.analyze s.pool roots).1

variable {H H' : NodeHash} {s t : Session} {held held' : Multiset NodeId} {ns ms : List NodeId}

/-- Listings of the nodes below alike roots are the same. -/
theorem listing_alike (hs : s.pool.WellFormed H held) (ht : t.pool.WellFormed H' held')
    (h : List.Forall₂ (s.pool.Alike t.pool) ns ms) :
    s.listing (s.pool.traverse ns) = t.listing (t.pool.traverse ms) := by
  refine filterMap_eq_of_forall₂ (traverse_alike hs ht h) fun n m hnm => ?_
  have hoperands : (s.pool.operands n).map (positions (s.pool.traverse ns)).get? =
      (t.pool.operands m).map (positions (t.pool.traverse ms)).get? :=
    map_eq_of_forall₂ (hnm.operands hs ht) fun _ _ => getElem?_positions_alike hs ht h
  rw [hnm.kind?_eq hs ht, hoperands]

/-- **Sessions give the same answers** about alike roots. -/
theorem answers_alike (hs : s.pool.WellFormed H held) (ht : t.pool.WellFormed H' held')
    (h : List.Forall₂ (s.pool.Alike t.pool) ns ms) (a : Analyzer) :
    s.answers ns a = t.answers ms a := by
  have htraverse := traverse_alike hs ht h
  simp only [answers, Answers.mk.injEq]
  refine ⟨listing_alike hs ht h, ?_, ?_, count_alike hs ht h, ?_, ?_, ?_, a.analyze_alike hs ht h⟩
  · exact map_eq_of_forall₂ h fun _ _ hnm => hnm.freeIndices_eq hs ht
  · exact map_eq_of_forall₂ htraverse fun _ _ hnm => hnm.freeIndices_eq hs ht
  · refine map_eq_of_forall₂ htraverse fun _ _ hnm => ?_
    rw [hnm.kindName_eq hs ht, getD_referenceCounts_alike hs ht h hnm]
  · rw [size_referenceCounts, size_referenceCounts, htraverse.length_eq]
  · refine map_eq_of_forall₂ (sharedNodes_alike hs ht h) fun _ _ hnm => ?_
    rw [hnm.kindName_eq hs ht, Std.HashMap.getD_eq_getD_getElem?,
      Std.HashMap.getD_eq_getD_getElem?, getElem?_positions_alike hs ht h hnm]

/-- **Results do not depend on history.** A sequence of constructor calls, made in two reachable
sessions, fails with the same error in both, or it succeeds in both, and then both give the same
answers about whatever has been made. -/
theorem Reachable.same_answers (h : s.Reachable H) (h' : t.Reachable H') {k : Nat} (r : Recipe k) :
    (∃ e, (r.follow H s.pool).1 = .error e ∧ (r.follow H' t.pool).1 = .error e) ∨
    ∃ made made', (r.follow H s.pool).1 = .ok made ∧ (r.follow H' t.pool).1 = .ok made' ∧
      ∀ (roots : List (Fin k)) (a : Analyzer),
        { s with pool := (r.follow H s.pool).2 }.answers (roots.map made.get) a =
          { t with pool := (r.follow H' t.pool).2 }.answers (roots.map made'.get) a := by
  have hs := h.wellFormed.pool
  have ht := h'.wellFormed.pool
  rcases r.follow_alike hs ht with hfailed | ⟨made, made', hmade, hmade', halike⟩
  · exact .inl hfailed
  · refine .inr ⟨made, made', hmade, hmade', fun roots a => ?_⟩
    have hs' := (r.follow_moves hs).wellFormed hs
    have ht' := (r.follow_moves ht).wellFormed ht
    refine answers_alike hs' ht' ?_ a
    rw [List.forall₂_map_left_iff, List.forall₂_map_right_iff, List.forall₂_same]
    exact fun i _ => halike i

/-- A sum of an access with itself, built in a new session and in one that has the access already,
with its free indices, and has dropped a node of its own. -/
theorem same_answers_of_new_session :
    let H : NodeHash := fun _ _ => 0
    let i : Index := ⟨0, none, 2, by decide⟩
    let r : Recipe 3 := ((Recipe.start.call (.variable "A" [2])).call (.indexed 0 [.free i])).call
      (.sum 1 1)
    let cs : List Command := [.index (some "i") (.chosen 0 2),
      .construct (some "w") (.variable "w" []), .construct (some "a") (.variable "A" [2]),
      .construct (some "x") (.indexed "a" [.free "i"]), .freeIndices "x", .drop "w"]
    let s : Session := {}
    let t : Session := (s.run H cs).2
    s.Reachable H ∧ t.Reachable H ∧
      ∃ made made', (r.follow H s.pool).1 = .ok made ∧ (r.follow H t.pool).1 = .ok made' ∧
        { s with pool := (r.follow H s.pool).2 }.answers [made.get 2] .standard =
          { t with pool := (r.follow H t.pool).2 }.answers [made'.get 2] .standard := by
  intro H i r cs s t
  have hs : s.Reachable H := .start
  have ht : t.Reachable H := hs.run cs
  have hmakes : (r.follow H s.pool).1.toOption.isSome = true := by decide +kernel
  refine ⟨hs, ht, ?_⟩
  rcases hs.same_answers ht r with ⟨e, he, -⟩ | ⟨made, made', hmade, hmade', hsame⟩
  · rw [he] at hmakes
    exact absurd hmakes Bool.false_ne_true
  · exact ⟨made, made', hmade, hmade', hsame [2] .standard⟩

end TensorCost.Session
