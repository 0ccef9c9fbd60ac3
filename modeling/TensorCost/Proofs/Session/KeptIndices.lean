import TensorCost.Proofs.Pool.Footprint
import TensorCost.Proofs.Scope

/-!
# Kept free indices

Free indices are derived on demand by queries, prices, reports and the checks of constructors, and
kept at the nodes, which are shared between expressions. Nothing ever makes them wrong.

Results:
* `Reachable.kept_freeIndices`: what is kept at a node is what its expression says, it is kept at
  every node below as well, and it stays as long as the node lives.
-/

namespace TensorCost

namespace Session

variable {H : NodeHash} {s : Session}

/-- **Kept free indices.** In a reachable session, free indices that are kept of a node are kept of
every node below. They are those that would be derived anew, and those of the node's expression.
Whatever commands follow, also such that fail, a node that lives on is the same node, and what is
kept of it stays. -/
theorem Reachable.kept_freeIndices (h : s.Reachable H) :
    (∀ n m, (s.pool.derived? n).isSome → s.pool.Reaches n m → (s.pool.derived? m).isSome) ∧
    (∀ n free, s.pool.derived? n = some free →
      free = s.pool.openIndices n ∧
        ∃ t, s.pool.tree? n = some t ∧ free = t.openOccurrences.eraseDups) ∧
    ∀ cs n, s.pool.Alive n → (s.run H cs).2.pool.Alive n →
      (s.run H cs).2.pool.node? n = s.pool.node? n ∧
        ∀ free, s.pool.derived? n = some free →
          (s.run H cs).2.pool.derived? n = some free := by
  have hpool := h.wellFormed.pool
  refine ⟨fun n m hn hreach => hpool.derived.of_reaches hn hreach, fun n free hfree => ?_,
    fun cs n hn hlives => ?_⟩
  · have hright : free = s.pool.openIndices n := hpool.derived.eq hfree
    have hsome : (s.pool.derived? n).isSome := by simp [hfree]
    obtain ⟨t, ht⟩ := hpool.closed.exists_tree (Pool.alive_of_derived hsome)
    refine ⟨hright, t, ht, ?_⟩
    rw [hright, hpool.openIndices_of_tree ht]
  · have hevolves := h.evolves cs
    exact ⟨hevolves.node?_eq hn hlives, fun free hfree => hevolves.kept hfree hlives⟩

/-- Asking for the free indices of a sum keeps those of its operand, and they stay when
another construction is refused, the sum is asked for again and both its names are dropped. -/
theorem kept_freeIndices_of_operand :
    let H : NodeHash := fun _ _ => 0
    let i : Index := ⟨0, none, 2, by decide⟩
    let p : Pool := (Pool.empty.construct H (.variable "A" [2])).2
    let q : Pool := (p.construct H (.indexed 0 [.free i])).2
    let r : Pool := (q.construct H (.sum 1 1)).2
    let s : Session :=
      { pool := (r.freeIndices 2).2, indices := [("i", i)],
        nodes := [("e", 2), ("x", 1), ("a", 0)] }
    let cs : List Command := [.construct none (.indexSum "a" ["i"]),
      .construct (some "f") (.sum "x" "x"), .drop "e", .drop "f"]
    s.Reachable H ∧ s.pool.derived? 1 = some [i] ∧ (s.run H cs).2.pool.Alive 1 ∧
      (s.run H cs).2.pool.derived? 1 = some [i] := by
  intro H i p q r s cs
  have hi : Reachable H { indices := [("i", i)] } :=
    Reachable.start.step (.index (some "i") (.chosen 0 2))
  have ha : Reachable H { pool := p, indices := [("i", i)], nodes := [("a", 0)] } :=
    hi.construct (c := .variable "A" [2]) rfl rfl (by decide +kernel) rfl
  have hx : Reachable H { pool := q, indices := [("i", i)], nodes := [("x", 1), ("a", 0)] } :=
    ha.construct (c := .indexed "a" [.free "i"]) rfl rfl (by decide +kernel) rfl
  have he : Reachable H
      { pool := r, indices := [("i", i)], nodes := [("e", 2), ("x", 1), ("a", 0)] } :=
    hx.construct (c := .sum "x" "x") rfl rfl (by decide +kernel) rfl
  have hoperand : 1 ∈ r.operands 2 := by decide +kernel
  have htree : r.tree? 1 = some (.node (.indexed [.free i]) [.node (.variable "A" [2]) []]) := by
    decide +kernel
  have hnamed : (s.run H cs).2.nodes.lookup "x" = some 1 := by decide +kernel
  -- from here on nothing is looked up in the pool
  clear_value r
  have hasked : Pool.Answers r 2 _ s.pool := he.wellFormed.pool.freeIndices_spec 2
  have hsame := hasked.derivation.sameRecords
  have hs : s.Reachable H := he.freeIndices (n := 2) "e" rfl
  obtain ⟨hbelow, hright, hkept⟩ := hs.kept_freeIndices
  have hnode : (s.run H cs).2.node "x" = .ok 1 := by rw [node, hnamed]
  have hlives : (s.run H cs).2.pool.Alive 1 := (hs.run cs).wellFormed.alive (mem_held_of_node hnode)
  have hsum : r.Alive 2 := he.wellFormed.alive (by simp [held, Bindings.held])
  have hreach : s.pool.Reaches 2 1 := by
    rw [← hsame.within.operands_eq hsum] at hoperand
    exact .step hoperand (.refl 1)
  have htree' : s.pool.tree? 1 = _ := (hsame.tree?_eq he.wellFormed.pool.closed 1).trans htree
  obtain ⟨free, hfree⟩ := Option.isSome_iff_exists.mp (hbelow 2 1 (hasked.kept hsum) hreach)
  obtain ⟨-, t, ht, heq⟩ := hright 1 free hfree
  obtain rfl := Option.some.inj (htree'.symm.trans ht)
  obtain rfl : free = [i] := by
    rw [heq]
    decide
  exact ⟨hs, hfree, hlives, (hkept cs 1 (Pool.alive_of_tree ht) hlives).2 [i] hfree⟩

end Session

end TensorCost
