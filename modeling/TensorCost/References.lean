import TensorCost.Walk

/-!
# References to nodes

A node is referred to once for each of its occurrences among the roots, and once for each operand
position that holds it in a distinct node below the roots. A node with two references or more is
shared: its value is worth keeping.

* `Pool.referenceCounts` counts the references to every node below the roots.
* `Pool.sharedNodes` lists the shared nodes in the order of traversal.
-/

namespace TensorCost.Pool

/-- Counts one more reference to a node. -/
def countReference (counts : Std.HashMap NodeId Nat) (n : NodeId) : Std.HashMap NodeId Nat :=
  counts.insert n (counts.getD n 0 + 1)

/-- The number of references to each node that can be reached from the roots. -/
def referenceCounts (p : Pool) (roots : List NodeId) : Std.HashMap NodeId Nat :=
  (roots ++ (p.traverse roots).flatMap p.operands).foldl countReference ∅

/-- Whether a count makes its node a shared one. -/
def isShared (counts : Std.HashMap NodeId Nat) (n : NodeId) : Bool := 2 ≤ counts.getD n 0

/-- The nodes with two references or more, in the order of traversal. -/
def sharedNodes (p : Pool) (roots : List NodeId) : List NodeId :=
  (p.traverse roots).filter (isShared (p.referenceCounts roots))

end TensorCost.Pool
