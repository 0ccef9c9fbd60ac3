import TensorCost.Config.Error

/-!
# Why an operation on expressions fails

* `Defect` lists what can be wrong with the arguments of a node constructor.
* `Error` lists the causes of failure: a defect, a malformed index, a node without a price, a cost
  that does not fit, or a refused configuration. `Error.message` words them.
-/

namespace TensorCost

/-- What is wrong with the arguments of a node constructor. -/
inductive Defect
  /-- The shape of a literal asks for a different number of values. -/
  | literalSize (shape : List Nat) (expected given : Nat)
  | functionWithoutArguments (name : String)
  | unknownComparison (symbol : String)
  /-- A node of this kind was given no index to bind or to open. -/
  | emptyMultiindex (kind : String)
  | noDimensions
  | noItems
  /-- Strided access reaches into a terminal only. -/
  | operandNotTerminal (kind : String)
  /-- An index to be bound does not occur free in the operand. -/
  | indexNotFree (kind index : String)
  /-- A defect that is known by its wording alone. -/
  | described (text : String)
  deriving DecidableEq, Repr

namespace Defect

/-- The wording of a defect. -/
def message : Defect → String
  | literalSize shape expected given =>
    "literal of shape [" ++ String.intercalate ", " (shape.map toString) ++ "] needs "
      ++ s!"{expected} values, got {given}"
  | functionWithoutArguments name => s!"math function '{name}' needs at least one argument"
  | unknownComparison symbol => s!"unknown comparison operator '{symbol}'"
  | emptyMultiindex kind => s!"{kind} needs a non-empty multiindex"
  | noDimensions => "FlexiblyIndexed needs at least one dimension"
  | noItems => "ListTensor needs at least one item"
  | operandNotTerminal kind => s!"FlexiblyIndexed needs a terminal child, got {kind}"
  | indexNotFree kind index => s!"{kind} over index {index} which is not free in its operand"
  | described text => text

end Defect

/-- The causes for which an operation on expressions fails. -/
inductive Error
  /-- The cost table has no price for this kind of node. -/
  | unsupportedKind (kind : String)
  /-- A loop has to run at least once. -/
  | malformedIndex (extent : Nat)
  /-- The arguments of a constructor do not make a node. -/
  | invalidNode (defect : Defect)
  /-- A price, or the running total when this node is added, does not fit. -/
  | costOverflow (kind : String)
  /-- A configuration is refused. -/
  | config (cause : ConfigError)
  deriving DecidableEq, Repr

namespace Error

/-- The wording of a cause, if it has one. -/
def message : Error → Option String
  | unsupportedKind kind => some s!"Unsupported node kind: {kind}"
  | malformedIndex extent => some s!"Malformed index: extent must be >= 1, got {extent}"
  | invalidNode defect => some s!"Invalid node: {defect.message}"
  | costOverflow kind => some s!"Flop count overflow at {kind} node"
  | config cause => cause.message.map ("Configuration error: " ++ ·)

/-- Whether the cost table lacks a price for the kind of node at hand. -/
def isUnsupportedKind : Error → Bool
  | unsupportedKind _ => true
  | _ => false

end Error

end TensorCost
