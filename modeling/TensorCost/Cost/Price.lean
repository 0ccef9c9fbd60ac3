import TensorCost.Walk
import TensorCost.Pool.FreeIndices

/-!
# Prices

The price of a node is the number of scalar operations that a nested loop performs at it, apart from
its operands: arithmetic takes one operation for each iteration of the loops over the free indices,
a sum over indices one for each iteration of the loops over these and over the free indices, and
data, access and logic take none. The total of a graph counts each distinct node once.

* `CostRule` says how the nodes of a kind are priced and `Kind.costRule` is the cost table.
* `Pool.price` is the price of one node. It derives free indices where the price depends on them.
* `Pool.foldPrices` prices nodes in turn and stops at the first failure.
* `Pool.count` is the total of the nodes below the roots.
-/

namespace TensorCost

/-- How the nodes of a kind are priced. -/
inductive CostRule
  /-- Nothing is computed. -/
  | noWork
  /-- One operation for each iteration of the loops over the given indices and the free ones. -/
  | loops (bound : List Index)
  /-- There is no price. -/
  | unpriced

/-- The cost table. -/
def Kind.costRule : Kind → CostRule
  | .literal .. | .zero .. | .identity .. | .variable .. | .failure .. => .noWork
  | .indexed .. | .flexiblyIndexed .. | .listTensor => .noWork
  | .logicalNot | .logicalAnd | .logicalOr | .conditional => .noWork
  | .sum | .product | .division | .power | .comparison .. | .mathFunction .. => .loops []
  | .indexSum bound => .loops bound
  | .componentTensor .. | .delta .. => .unpriced

namespace Pool

/-- The price of a node. -/
def price (p : Pool) (n : NodeId) : Except Error Nat × Pool :=
  match p.kind? n with
  | none => (.ok 0, p)
  | some kind =>
    match kind.costRule with
    | .noWork => (.ok 0, p)
    | .unpriced => (.error (.unsupportedKind kind.name), p)
    | .loops bound =>
      let (free, q) := p.freeIndices n
      match Index.extentProduct (bound ++ free) with
      | some flops => (.ok flops, q)
      | none => (.error (.costOverflow kind.name), q)

/-- The name of a node's kind. -/
def kindName (p : Pool) (n : NodeId) : String := ((p.kind? n).map Kind.name).getD ""

/-- Prices nodes from left to right and gives each price to `step`, together with the pool as it is
after pricing. Stops at the first node that has no price or that `step` refuses. -/
def foldPrices {σ : Type} (step : Pool → σ → NodeId → Nat → Except Error σ) :
    Pool → σ → List NodeId → Except Error σ × Pool
  | p, s, [] => (.ok s, p)
  | p, s, n :: rest =>
    match p.price n with
    | (.error e, q) => (.error e, q)
    | (.ok flops, q) =>
      match step q s n flops with
      | .error e => (.error e, q)
      | .ok s' => foldPrices step q s' rest

/-- A total with the flops of one more node; an overflow is blamed on that node's kind. -/
def addFlops (p : Pool) (total : Nat) (n : NodeId) (flops : Nat) : Except Error Nat :=
  match Checked.add? total flops with
  | some t => .ok t
  | none => .error (.costOverflow (p.kindName n))

/-- The total price of the distinct nodes that can be reached from the roots. -/
def count (p : Pool) (roots : List NodeId) : Except Error Nat × Pool :=
  foldPrices addFlops p 0 (p.traverse roots)

end Pool

end TensorCost
