import TensorCost.Yaml.Layout
import TensorCost.Yaml.Node

/-!
# Reading configuration documents

* `Yaml.readDocument` finds the node that a text consists of.
* `Yaml.Node.anchored` lists the nodes that aliases can stand for, and `Yaml.Leaf.scalar?` finds the
  one that is meant.
* `Yaml.parse?` reads a document. A text that is empty but for comments holds the empty mapping.
-/

namespace TensorCost.Yaml

/-- The node that a text consists of, whose characters are allowed and whose line ends are equal.
Directives may stand before a document, if the mark that starts it follows. -/
def readDocument (s : List Char) : Option (Node (Node Leaf)) := do
  let tokens ← tokens? s
  let directives := tokens.filterMap fun
    | .directive d => some d
    | _ => none
  let document := tokens.drop directives.length
  let handles ← handles? directives
  if directives.isEmpty || document.head? == some (.mark .documentStart) then
    (Token.resolve? handles [] document).bind Node.ofTokens?
  else none

/-! ## Aliases -/

/-- Nodes with the numbers of their anchors, in the order of the document; a node that is a mapping
is left out. -/
abbrev Anchored := List (Nat × Option Scalar)

/-- The anchor of a leaf, if it has one. -/
def Leaf.anchored : Leaf → Anchored
  | .scalar (some a) s => [(a, some s)]
  | _ => []

/-- The anchors of a node; `value` lists those of a value in it. -/
def Node.anchored {α : Type} (value : α → Anchored) : Node α → Anchored
  | .leaf l => l.anchored
  | .mapping anchor entries =>
    (anchor.map (·, none)).toList ++ entries.flatMap fun e => e.1.anchored ++ value e.2

/-- The scalar that a leaf is or stands for: the one that had the number last. An alias of a mapping
stands for none. -/
def Leaf.scalar? (anchored : Anchored) : Leaf → Option Scalar
  | .scalar _ s => some s
  | .alias a => (anchored.reverse.lookup a).join

/-- The entries of a mapping; `value?` says what the values are. -/
def entries? {α β : Type} (anchored : Anchored) (value? : α → Option β)
    (entries : List (Leaf × α)) : Option (List (Scalar × β)) :=
  entries.mapM fun e => do return (← e.1.scalar? anchored, ← value? e.2)

/-- The value that a node in a document is. -/
def Node.value? (anchored : Anchored) : Node Leaf → Option Value
  | .leaf l => (l.scalar? anchored).map .scalar
  | .mapping _ entries => (entries? anchored (Leaf.scalar? anchored) entries).map .mapping

/-- The entries of a document. If nothing is written, there are none. -/
def Node.document? (root : Node (Node Leaf)) : Option (List (Scalar × Value)) :=
  let anchored := root.anchored (Node.anchored Leaf.anchored)
  match root with
  | .mapping _ entries => entries? anchored (Node.value? anchored) entries
  | .leaf (.scalar _ s) => if s.style = .plain ∧ s.text = "" then some [] else none
  | .leaf (.alias _) => none

/-- The entries of the document that a text writes. -/
def parse? (text : String) : Option (List (Scalar × Value)) :=
  let s := text.toList
  if s.all isAllowed then (readDocument (unifyBreaks s)).bind Node.document? else none

end TensorCost.Yaml
