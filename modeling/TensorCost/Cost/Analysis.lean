import TensorCost.Config.Basic
import TensorCost.Cost.Price
import TensorCost.References
import TensorCost.Report

/-!
# Analysis of costs

An analysis walks over the nodes below the roots as `Pool.count` does and gathers, beside the total,
the detail that its configuration asks for.

* `Analyzer` is a configuration that has been found valid; `Analyzer.ofConfig` checks it.
* `Analyzer.analyze` makes the report. Hotspots are ordered by falling flops, nodes of equal flops
  in the order of traversal.
-/

namespace TensorCost

/-- A valid configuration. -/
structure Analyzer where
  config : Config
  valid : config.hotspotLimit ≤ Config.maxHotspotLimit

namespace Analyzer

/-- Accepts a valid configuration. -/
def ofConfig (c : Config) : Except Error Analyzer :=
  if h : c.hotspotLimit ≤ Config.maxHotspotLimit then .ok ⟨c, h⟩
  else .error (.config c.rangeError)

/-- The analyzer with the standard configuration. -/
def standard : Analyzer := ⟨.standard, by decide⟩

/-- What an analysis has gathered so far. -/
structure Draft where
  total : Nat := 0
  nodes : Nat := 0
  shared : Nat := 0
  byKind : KindTable := .empty
  /-- The nodes with flops, in the order of traversal. -/
  candidates : Array Hotspot := #[]

/-- The entry of a node in the list of hotspots. -/
def hotspot (p : Pool) (position : Nat) (n : NodeId) (flops : Nat) : Hotspot where
  position := position
  kind := p.kindName n
  flops := flops
  freeExtents := (p.freeIndices n).1.map Index.extent
  reductionExtents := (((p.kind? n).bind Kind.reduction?).getD []).map Index.extent

/-- The table with one more node of a kind. -/
def addToKind (p : Pool) (t : KindTable) (n : NodeId) (flops : Nat) : Except Error KindTable := do
  let kind := p.kindName n
  let cost := (t.get? kind).getD ⟨0, 0⟩
  let total ← p.addFlops cost.flops n flops
  return t.insert kind ⟨cost.nodes + 1, total⟩

/-- Adds one node to a draft. -/
def addNode (c : Config) (counts : Std.HashMap NodeId Nat) (p : Pool) (d : Draft) (n : NodeId)
    (flops : Nat) : Except Error Draft := do
  let total ← p.addFlops d.total n flops
  let byKind ← if c.kindBreakdown then addToKind p d.byKind n flops else .ok d.byKind
  return {
    total
    nodes := d.nodes + 1
    shared := d.shared + if Pool.isShared counts n then 1 else 0
    byKind
    candidates :=
      if 0 < c.hotspotLimit ∧ 0 < flops then d.candidates.push (hotspot p d.nodes n flops)
      else d.candidates }

/-- The candidates with the most flops, at most as many as the limit says. -/
def selectHotspots (limit : UInt64) (candidates : List Hotspot) : List Hotspot :=
  (candidates.mergeSort fun a b => decide (b.flops ≤ a.flops)).take limit.toNat

/-- The report on the expressions at the roots. -/
def analyze (a : Analyzer) (p : Pool) (roots : List NodeId) : Except Error Report × Pool :=
  let counts := p.referenceCounts roots
  let (result, q) := Pool.foldPrices (addNode a.config counts) p {} (p.traverse roots)
  (result.map fun d =>
    { totalFlops := d.total
      nodeCount := d.nodes
      sharedNodeCount := d.shared
      byKind := d.byKind
      hotspots := selectHotspots a.config.hotspotLimit d.candidates.toList }, q)

end Analyzer

end TensorCost
