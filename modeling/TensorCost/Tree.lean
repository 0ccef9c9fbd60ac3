import TensorCost.Cost.Price

/-!
# Expressions as trees

A node of a pool stands for an expression. Written out without sharing, the expression is a `Tree`,
in which a subexpression occurs as often as paths lead to it. A tree says what a node means without
any mention of the pool: which loop variables are open at it, and what it costs.

* `Pool.tree?` is the expression of a living node.
* `Tree.occurrences` lists the loop variables that occur open in an expression, with repetitions.
* `Tree.price?` is the price of the outermost node of an expression, in numbers without bound.
-/

namespace TensorCost

/-- An expression without sharing. -/
inductive Tree
  | node (kind : Kind) (operands : List Tree)

namespace Tree

/-- The kind of the outermost node. -/
def kind : Tree → Kind
  | node k _ => k

/-- The expressions that the outermost node is applied to. -/
def operands : Tree → List Tree
  | node _ ts => ts

mutual

/-- The open loop variables of an expression, from left to right, once for each occurrence: those of
the operands, then those that the node opens, without those that it closes. -/
def occurrences : Tree → List Index
  | node k ts =>
    (occurrencesAll ts ++ k.ownIndices).filter fun i => !k.boundIndices.contains i

/-- The open loop variables of several expressions, one after the other. -/
def occurrencesAll : List Tree → List Index
  | [] => []
  | t :: rest => occurrences t ++ occurrencesAll rest

end

/-- The open loop variables of an expression, each once, in the order of first occurrences. -/
def openIndices (t : Tree) : List Index := (OrderedSet.ofList t.occurrences).toList

/-- The price of the outermost node of an expression, without bound; none if its kind has no
price. -/
def price? (t : Tree) : Option Nat :=
  match t.kind.costRule with
  | .noWork => some 0
  | .unpriced => none
  | .loops bound => some (((bound ++ t.openIndices).map Index.extent).foldr (· * ·) 1)

end Tree

/-- The expression that a living node stands for. -/
def Pool.tree? (p : Pool) (n : NodeId) : Option Tree :=
  match p.cell? n with
  | none => none
  | some c => ((p.operands n).attach.mapM fun m => p.tree? m.1).map (.node c.kind)
termination_by n
decreasing_by exact Pool.mem_operands_lt m.2

end TensorCost
