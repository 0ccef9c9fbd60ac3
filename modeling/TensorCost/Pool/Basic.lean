import Std.Data.HashMap
import TensorCost.Kind
import TensorCost.Memo

/-!
# The pool of expression nodes

Expressions are directed acyclic graphs. Every node lives in a `Pool`, which numbers nodes in the
order of their construction and never uses a number twice, so operands have smaller numbers than the
nodes that use them. A node lives as long as it is held, by a node that uses it as an operand or
from outside of the pool; the pool itself holds nothing.

* `Cell` is what the pool keeps of a living node: kind, operands, hash, the number of holds, and a
  slot for its free indices.
* `Pool.cell?` looks a node up and `Pool.operands` lists its operands.
* `Pool.liveCount` is the number of living nodes and `Pool.allocated` that of all nodes so far.
* `Pool.same` compares two nodes by kind and operands, without following the operands.

Results:
* `mem_operands_lt`: operands have smaller numbers, the measure of every recursion over a pool.
-/

namespace TensorCost

/-- The number of a node: how many nodes the pool had made before it. -/
abbrev NodeId := Nat

/-- A living node. -/
structure Cell where
  kind : Kind
  /-- The operands, from left to right. -/
  operands : List NodeId
  /-- A hash of the kind and of the operands' hashes. -/
  hash : UInt64
  /-- The number of holds on the node: operand positions of living nodes, and holds from outside. -/
  holds : Nat
  /-- The free indices, once they have been derived. -/
  free : Memo (List Index)

/-- Living nodes by number, and the buckets by which equal nodes are found. -/
structure Pool where
  /-- The node of each number given so far, `none` once it has died. -/
  cells : Array (Option Cell)
  /-- The living nodes of each hash. -/
  buckets : Std.HashMap UInt64 (List NodeId)
  /-- How often a node was asked for. -/
  lookups : Nat
  /-- How often it was there already. -/
  hits : Nat

namespace Pool

/-- The pool without nodes. -/
def empty : Pool := ⟨#[], ∅, 0, 0⟩

instance : Inhabited Pool := ⟨empty⟩

/-- The living node of a number. -/
def cell? (p : Pool) (n : NodeId) : Option Cell := p.cells[n]?.join

/-- The kind of a living node. -/
def kind? (p : Pool) (n : NodeId) : Option Kind := (p.cell? n).map Cell.kind

/-- The operands of a node, none if it is dead. An operand was made before the node that uses it, so
the test on numbers lets all of them pass. -/
def operands (p : Pool) (n : NodeId) : List NodeId :=
  match p.cell? n with
  | some c => c.operands.filter (· < n)
  | none => []

/-- The hash of a living node. -/
def hashOf (p : Pool) (n : NodeId) : UInt64 := ((p.cell? n).map Cell.hash).getD 0

/-- The number of living nodes. -/
def liveCount (p : Pool) : Nat := p.cells.countP Option.isSome

/-- The number of nodes made so far, dead ones included. -/
def allocated (p : Pool) : Nat := p.cells.size

/-- The free indices of a node, if they have been derived. -/
def derived? (p : Pool) (n : NodeId) : Option (List Index) :=
  (p.cell? n).bind fun c => c.free.value?

/-- Whether two nodes are one, or agree in hash, kind and operands. -/
def same (p : Pool) (a b : NodeId) : Bool :=
  a == b || match p.cell? a, p.cell? b with
    | some c, some d => c.hash == d.hash && c.kind == d.kind && c.operands == d.operands
    | _, _ => false

/-- Puts a cell in the place of a node's present one. -/
def setCell (p : Pool) (n : NodeId) (c : Cell) : Pool :=
  { p with cells := p.cells.setIfInBounds n (some c) }

/-- The diagnostic text of a node: its kind, the number of its operands and its free indices. -/
def inspectNode (p : Pool) (n : NodeId) : Option String :=
  (p.cell? n).map fun c => Inspect.record "Node" [("kind", inspect c.kind),
    ("children", inspect c.operands.length), ("free_indices", inspect c.free)]

theorem mem_operands_lt {p : Pool} {n m : NodeId} (h : m ∈ p.operands n) : m < n := by
  unfold operands at h
  split at h
  next => simpa using (List.mem_filter.1 h).2
  next => simp at h

theorem cell?_eq_some_iff {p : Pool} {n : NodeId} {c : Cell} :
    p.cell? n = some c ↔ p.cells[n]? = some (some c) := by
  simp [cell?, Option.join_eq_some_iff]

theorem liveCount_setCell {p : Pool} {n : NodeId} {c d : Cell} (h : p.cell? n = some d) :
    (p.setCell n c).liveCount = p.liveCount := by
  obtain ⟨hn, hd⟩ := Array.getElem?_eq_some_iff.1 (cell?_eq_some_iff.1 h)
  have hpos : 0 < p.cells.countP Option.isSome :=
    Array.countP_pos_iff.2 ⟨_, Array.getElem_mem hn, by simp [hd]⟩
  change (p.cells.setIfInBounds n (some c)).countP Option.isSome = p.cells.countP Option.isSome
  rw [Array.setIfInBounds, dif_pos hn, Array.countP_set, hd]
  simp only [Option.isSome_some, if_true]
  omega

end Pool

end TensorCost
