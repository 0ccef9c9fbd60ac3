import TensorCost.Pool.Basic

/-!
# Holding and releasing nodes

A hold keeps a node alive. When the last hold on a node is released the node dies: it leaves its
bucket and releases its own operands, which may die in turn.

* `Pool.retain` adds a hold and `Pool.retainAll` one for each entry of a list.
* `Pool.releaseAll` takes one hold off for each entry of a list, and follows the nodes that die.

Results:
* `liveCount_remove_lt`: a node that dies makes the pool smaller, so a cascade of deaths ends.
-/

namespace TensorCost.Pool

/-- Adds a hold on a living node. -/
def retain (p : Pool) (n : NodeId) : Pool :=
  match p.cell? n with
  | some c => p.setCell n { c with holds := c.holds + 1 }
  | none => p

/-- Adds a hold for each entry of a list. -/
def retainAll (p : Pool) (ns : List NodeId) : Pool := ns.foldl retain p

/-- Takes a node out of the bucket of its hash; a bucket without nodes is not kept. -/
def unlist (p : Pool) (n : NodeId) (hash : UInt64) : Pool :=
  { p with buckets := p.buckets.alter hash fun bucket =>
      match (bucket.getD []).erase n with
      | [] => none
      | rest => some rest }

/-- Takes away the cell of a node. -/
def clearCell (p : Pool) (n : NodeId) : Pool :=
  { p with cells := p.cells.setIfInBounds n none }

/-- Lets a node die; its operands are still held. -/
def remove (p : Pool) (n : NodeId) (hash : UInt64) : Pool := (p.unlist n hash).clearCell n

theorem liveCount_remove_lt {p : Pool} {n : NodeId} {c : Cell} {hash : UInt64}
    (h : p.cell? n = some c) : (p.remove n hash).liveCount < p.liveCount := by
  obtain ⟨hn, hc⟩ := Array.getElem?_eq_some_iff.1 (cell?_eq_some_iff.1 h)
  have hpos : 0 < p.cells.countP Option.isSome :=
    Array.countP_pos_iff.2 ⟨_, Array.getElem_mem hn, by simp [hc]⟩
  change (p.cells.setIfInBounds n none).countP Option.isSome < p.cells.countP Option.isSome
  rw [Array.setIfInBounds, dif_pos hn, Array.countP_set, hc]
  simp only [Option.isSome_some, Option.isSome_none, Bool.false_eq_true, if_true, if_false]
  omega

/-- Takes one hold off each node of the list. A node that is left without holds dies, and the holds
on its operands join the list. -/
def releaseAll (p : Pool) : List NodeId → Pool
  | [] => p
  | n :: rest =>
    match _h : p.cell? n with
    | none => p.releaseAll rest
    | some c =>
      if c.holds ≤ 1 then (p.remove n c.hash).releaseAll (c.operands ++ rest)
      else (p.setCell n { c with holds := c.holds - 1 }).releaseAll rest
termination_by work => (p.liveCount, work.length)
decreasing_by
  · exact Prod.Lex.right _ (by simp)
  · exact Prod.Lex.left _ _ (liveCount_remove_lt _h)
  · rw [liveCount_setCell _h]
    exact Prod.Lex.right _ (by simp)

/-- Takes one hold off a node. -/
def release (p : Pool) (n : NodeId) : Pool := p.releaseAll [n]

end TensorCost.Pool
