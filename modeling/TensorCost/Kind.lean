import TensorCost.Index
import TensorCost.OrderedSet

/-!
# Kinds of expression nodes

A `Kind` is what a node is apart from its operands: an operator, a terminal with its data, or a
binder with its indices.

* `Kind.name` names a kind in errors and reports.
* `Kind.ownIndices` are the loop variables that a node opens itself and `Kind.boundIndices` those
  that it closes; `Kind.openIndices` puts them together with the indices open in the operands.
-/

namespace TensorCost

/-- Order relations between two scalars. -/
inductive Comparison
  | lt | le | eq | ne | gt | ge
  deriving DecidableEq, Hashable, Repr

namespace Comparison

/-- Every comparison. -/
def all : List Comparison := [lt, le, eq, ne, gt, ge]

/-- The name of a comparison. -/
def name : Comparison → String
  | lt => "Lt"
  | le => "Le"
  | eq => "Eq"
  | ne => "Ne"
  | gt => "Gt"
  | ge => "Ge"

/-- The symbol of a comparison. -/
def symbol : Comparison → String
  | lt => "<"
  | le => "<="
  | eq => "=="
  | ne => "!="
  | gt => ">"
  | ge => ">="

/-- The comparison with the given symbol. -/
def ofSymbol (s : String) : Except Error Comparison :=
  match all.find? fun c => c.symbol == s with
  | some c => .ok c
  | none => .error (.invalidNode (.unknownComparison s))

instance : Inspect Comparison := ⟨name⟩

end Comparison

/-- What a node is apart from its operands. -/
inductive Kind
  /-- A constant tensor: the bit patterns of its values, row by row, and its shape. -/
  | literal (bits : List UInt64) (shape : List Nat)
  | zero (shape : List Nat)
  | identity (dim : Nat)
  | variable (name : String) (shape : List Nat)
  /-- A tensor that could not be built, with the reason. -/
  | failure (shape : List Nat) (message : String)
  | sum
  | product
  | division
  | power
  | mathFunction (name : String)
  | comparison (op : Comparison)
  | logicalNot
  | logicalAnd
  | logicalOr
  | conditional
  | indexed (items : List (IndexItem Index))
  | flexiblyIndexed (dims : List (Dimension Index))
  | listTensor
  | indexSum (bound : List Index)
  | componentTensor (bound : List Index)
  | delta (i j : IndexItem Index)
  deriving DecidableEq, Hashable

namespace Kind

/-- The name of a kind. -/
def name : Kind → String
  | literal .. => "Literal"
  | zero .. => "Zero"
  | identity .. => "Identity"
  | .variable .. => "Variable"
  | failure .. => "Failure"
  | sum => "Sum"
  | product => "Product"
  | division => "Division"
  | power => "Power"
  | mathFunction .. => "MathFunction"
  | comparison .. => "Comparison"
  | logicalNot => "LogicalNot"
  | logicalAnd => "LogicalAnd"
  | logicalOr => "LogicalOr"
  | conditional => "Conditional"
  | indexed .. => "Indexed"
  | flexiblyIndexed .. => "FlexiblyIndexed"
  | listTensor => "ListTensor"
  | indexSum .. => "IndexSum"
  | componentTensor .. => "ComponentTensor"
  | delta .. => "Delta"

/-- Whether nodes of this kind are data rather than computations. -/
def isTerminal : Kind → Bool
  | literal .. | zero .. | identity .. | .variable .. | failure .. => true
  | _ => false

/-- The loop variables that a sum over indices runs over. -/
def reduction? : Kind → Option (List Index)
  | indexSum bound => some bound
  | _ => none

/-- The loop variables that a node of this kind opens itself, in the order of writing. -/
def ownIndices : Kind → List Index
  | indexed items => items.filterMap IndexItem.free?
  | flexiblyIndexed dims => dims.flatMap fun d => d.strides.map Prod.fst
  | delta i j => [i, j].filterMap IndexItem.free?
  | _ => []

/-- The loop variables that a node of this kind closes. -/
def boundIndices : Kind → List Index
  | indexSum bound | componentTensor bound => bound
  | _ => []

/-- The indices open at a node of this kind whose operands have the open indices `inner`, in the
order of their first occurrences. -/
def openIndices (k : Kind) (inner : List Index) : List Index :=
  (OrderedSet.ofList (inner ++ k.ownIndices)).toList.filter fun i => !k.boundIndices.contains i

instance : Inspect Kind where
  inspect
    | literal bits shape => Inspect.tuple "Literal"
        [Inspect.record "LiteralData" [("bits", inspect bits), ("shape", inspect shape)]]
    | zero shape => Inspect.record "Zero" [("shape", inspect shape)]
    | identity dim => Inspect.record "Identity" [("dim", inspect dim)]
    | .variable name shape =>
      Inspect.record "Variable" [("name", inspect name), ("shape", inspect shape)]
    | failure shape message =>
      Inspect.record "Failure" [("shape", inspect shape), ("message", inspect message)]
    | mathFunction name => Inspect.record "MathFunction" [("name", inspect name)]
    | comparison op => Inspect.record "Comparison" [("op", inspect op)]
    | indexed items => Inspect.record "Indexed" [("multiindex", inspect items)]
    | flexiblyIndexed dims => Inspect.record "FlexiblyIndexed" [("dim2idxs", inspect dims)]
    | indexSum bound => Inspect.record "IndexSum" [("multiindex", inspect bound)]
    | componentTensor bound => Inspect.record "ComponentTensor" [("multiindex", inspect bound)]
    | delta i j => Inspect.record "Delta" [("i", inspect i), ("j", inspect j)]
    | k => k.name

end Kind

end TensorCost
