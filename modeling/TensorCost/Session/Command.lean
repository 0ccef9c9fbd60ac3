import TensorCost.Config.Source
import TensorCost.Pool.Construct
import TensorCost.Report

/-!
# What a session is asked and what it answers

In a session, indices, nodes and suspended walks have names.

* `Command` is a request, `Reply` an answer and `Failure` the reason why there is none.
* `Listing` shows nodes with the positions of their operands among them.
-/

namespace TensorCost

/-- The name of an index, a node or a walk. -/
abbrev Name := String

/-- A request to a session. `as?` is the name that the result is given, if it is given one. -/
inductive Command
  | index (as? : Option Name) (request : Index.Request)
  | compareIndices (i j : Name)
  | indexSet (indices : List Name)
  | extentProduct (indices : List Name)
  | construct (as? : Option Name) (c : Construction Name Name)
  | chain (as? : Option Name) (a : Name) (times : Nat) (c : Chain) (other? : Option Name)
  | describe (a : Name)
  | freeIndices (a : Name)
  | isDerived (a : Name)
  | compareNodes (a b : Name)
  | inspect (a : Name)
  | price (a : Name)
  | count (roots : List Name)
  | traverse (roots : List Name)
  | kinds (roots : List Name)
  | references (roots : List Name)
  | shared (roots : List Name)
  /-- A report, by the standard configuration if no other is given. -/
  | report (roots : List Name) (source? : Option Config.Source)
  | walk (as? : Option Name) (roots : List Name)
  | next (h : Name)
  | visited (h : Name)
  /-- Finishes a walk and forgets it. -/
  | finish (h : Name)
  | stats
  /-- Forgets the node and the walk of a name. -/
  | drop (h : Name)

/-- Nodes with their kinds and the positions of their operands in the list itself, where they have
one. -/
abbrev Listing := List (Kind × List (Option Nat))

/-- An answer of a session. -/
inductive Reply
  | index (i : Index)
  | indexOrder (equal : Bool) (order : Ordering)
  | indices (is : List Index)
  | extentProduct (p : Option Nat)
  /-- The kind of a node that was made or found, and by how much the pool's counters grew. -/
  | built (kind : String) (lookups hits : Nat)
  /-- The kind of a node and the names of its operands' kinds. -/
  | description (kind : Kind) (operands : List String)
  /-- Whether the free indices had been derived before, and the free indices. -/
  | freeIndices (wasDerived : Bool) (free : List Index)
  | derived (b : Bool)
  /-- Whether two nodes are one, and whether they are equal. -/
  | nodeOrder (identical equal : Bool)
  | text (t : String)
  | flops (n : Nat)
  | listing (nodes : Listing)
  | kinds (names : List String)
  /-- Kind and number of references of each node, and the number of nodes. -/
  | references (counts : List (String × Nat)) (size : Nat)
  /-- Kind and position in the traversal of each shared node. -/
  | shared (nodes : List (String × Nat))
  /-- A report, and the total counted once more. -/
  | report (r : Report) (count : Nat)
  | live (n : Nat)
  /-- The node visited, if there was one left, and how many have been visited. -/
  | visit (kind : Option Kind) (visited : Nat)
  | stats (lookups hits live : Nat)
  | dropped (found : Bool) (live : Nat)
  deriving DecidableEq

/-- Why a session gives no answer. -/
inductive Failure
  /-- Nothing has this name. -/
  | unknownName (name : Name)
  | expression (cause : Error)
  | config (cause : ConfigError)
  /-- A text given as JSON, or a JSON value, is not of the kind that was asked for. -/
  | malformedJson
  deriving DecidableEq, Repr

/-- A failure to get a configuration. -/
def Failure.ofSource : Config.SourceError → Failure
  | .config cause => .config cause
  | .malformedOverrides => .malformedJson

end TensorCost
