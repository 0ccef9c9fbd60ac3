import TensorCost.Pool.Basic

/-!
# Free indices

The free indices of a node are the loop variables that are open at it, in the order of their first
occurrences. They are derived when they are first asked for, from the operands' free indices, and
kept in the node's cell; so deriving those of a node also keeps those of every node below it.

* `Pool.freeIndices` answers the free indices of a node and gives the pool that keeps them.
-/

namespace TensorCost.Pool

/-- Keeps the free indices of a living node. -/
def setFree (p : Pool) (n : NodeId) (free : List Index) : Pool :=
  match p.cell? n with
  | some c => p.setCell n { c with free := .done free }
  | none => p

/-- The free indices of a node, derived from its operands from left to right unless they are kept
already. -/
def freeIndices (p : Pool) (n : NodeId) : List Index × Pool :=
  match p.cell? n with
  | none => ([], p)
  | some c =>
    match c.free.value? with
    | some free => (free, p)
    | none =>
      let (inner, q) := (p.operands n).attach.foldl
        (fun (state : List Index × Pool) m =>
          let (free, q) := state.2.freeIndices m.1
          (state.1 ++ free, q))
        ([], p)
      let free := c.kind.openIndices inner
      (free, q.setFree n free)
termination_by n
decreasing_by exact mem_operands_lt m.2

end TensorCost.Pool
