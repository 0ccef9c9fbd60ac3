import TensorCost.Pool.Release

/-!
# Making nodes

Two living nodes never have the same kind and the same operands: a node that is asked for again is
answered with the one that is there. Equal nodes are found through the bucket of their hash, which
is computed from the kind and the operands' hashes and so never walks the graph.

* `NodeHash` is the type of such hash functions. Nothing but speed depends on the choice of one.
* `Pool.find?` looks for a living node with a given kind and operands.
* `Pool.intern` answers with that node, or makes it, and adds a hold on it for the caller.
-/

namespace TensorCost

/-- A hash of a node from its kind and the hashes of its operands. -/
abbrev NodeHash := Kind → List UInt64 → UInt64

/-- Mixes the kind and the operands' hashes in turn. -/
def NodeHash.mixed : NodeHash := fun kind operands => mixHash (hash kind) (hash operands)

namespace Pool

/-- The living node with the given hash, kind and operands. -/
def find? (p : Pool) (hash : UInt64) (kind : Kind) (operands : List NodeId) : Option NodeId :=
  (p.buckets.getD hash []).find? fun n =>
    match p.cell? n with
    | some c => c.kind == kind && c.operands == operands
    | none => false

/-- Makes a node that is held once, and holds its operands. -/
def allocate (p : Pool) (hash : UInt64) (kind : Kind) (operands : List NodeId) : NodeId × Pool :=
  let q := p.retainAll operands
  let n := q.cells.size
  (n,
    { q with
      cells := q.cells.push (some ⟨kind, operands, hash, 1, .pending⟩)
      buckets := q.buckets.alter hash fun bucket => some (bucket.getD [] ++ [n]) })

/-- The node with the given kind and operands, with a new hold on it: the living one if there is
one, else a new one. -/
def intern (H : NodeHash) (p : Pool) (kind : Kind) (operands : List NodeId) : NodeId × Pool :=
  let hash := H kind (operands.map p.hashOf)
  match p.find? hash kind operands with
  | some n => (n, { p with lookups := p.lookups + 1, hits := p.hits + 1 }.retain n)
  | none => { p with lookups := p.lookups + 1 }.allocate hash kind operands

end Pool

end TensorCost
