import TensorCost.Pool.Basic

/-!
# Post-order by recursion

The order in which a walk visits nodes, defined without a stack: to visit a node, visit its operands
from left to right and then put the node at the end of the list, unless it stands there already.

* `Pool.visit` visits one node and `Pool.postOrder` the roots one after the other.
* `Pool.Reaches` says that one node can be reached from another through operands.
-/

namespace TensorCost.Pool

/-- The nodes visited once `n` has been visited, when those in `visited` have been before. -/
def visit (p : Pool) (visited : List NodeId) (n : NodeId) : List NodeId :=
  if n ∈ visited then visited
  else (p.operands n).attach.foldl (fun visited m => p.visit visited m.1) visited ++ [n]
termination_by n
decreasing_by exact mem_operands_lt m.2

/-- The nodes below the roots, each once and after its operands. -/
def postOrder (p : Pool) (roots : List NodeId) : List NodeId := roots.foldl p.visit []

/-- Whether `m` is `n` or can be reached from it through operands. -/
inductive Reaches (p : Pool) : NodeId → NodeId → Prop
  | refl (n : NodeId) : Reaches p n n
  | step {n m k : NodeId} (operand : m ∈ p.operands n) (rest : Reaches p m k) : Reaches p n k

/-- Whether `m` can be reached from one of the roots. -/
def ReachedFrom (p : Pool) (roots : List NodeId) (m : NodeId) : Prop := ∃ r ∈ roots, p.Reaches r m

theorem Reaches.trans {p : Pool} {a b c : NodeId} (hab : p.Reaches a b) (hbc : p.Reaches b c) :
    p.Reaches a c := by
  induction hab with
  | refl => exact hbc
  | step h _ ih => exact .step h (ih hbc)

/-- What a node reaches has no greater number. -/
theorem Reaches.le {p : Pool} {n m : NodeId} (h : p.Reaches n m) : m ≤ n := by
  induction h with
  | refl => exact Nat.le_refl _
  | step h _ ih => exact Nat.le_trans ih (Nat.le_of_lt (mem_operands_lt h))

end TensorCost.Pool
