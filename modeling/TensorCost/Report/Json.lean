import TensorCost.Json.Printer
import TensorCost.Json.Reader
import TensorCost.Report

/-!
# Reports as JSON

* `Report.toJson` and `Report.render` write a report; totals by kind become an object, whose members
  are in the order of the table.
* `Report.ofJson?` and `Report.parse?` read one. Totals by kind and hotspots may be left out, and
  members of other names are passed over. Where an object gives a kind twice, the last one counts.
-/

namespace TensorCost

namespace KindCost

/-- The fields of a kind's totals. -/
def format : Json.RecordFormat := ⟨["nodes", "flops"], false, 2⟩

/-- Writes the totals of a kind. -/
def toJson (c : KindCost) : Json :=
  .ofMembers [("nodes", .ofNat c.nodes), ("flops", .ofNat c.flops)]

/-- Reads the totals of a kind. -/
def ofJson? (j : Json) : Option KindCost := do
  let [nodes, flops] ← j.fields? format | none
  return {
    nodes := ← Json.required Json.count? nodes
    flops := ← Json.required Json.count? flops }

end KindCost

namespace Hotspot

/-- The fields of a hotspot. -/
def format : Json.RecordFormat :=
  ⟨["position", "kind", "flops", "free_extents", "reduction_extents"], false, 5⟩

/-- Writes a hotspot. -/
def toJson (h : Hotspot) : Json :=
  .ofMembers [
    ("position", .ofNat h.position),
    ("kind", .ofText h.kind),
    ("flops", .ofNat h.flops),
    ("free_extents", .array (h.freeExtents.map .ofNat)),
    ("reduction_extents", .array (h.reductionExtents.map .ofNat))]

/-- Reads a hotspot. -/
def ofJson? (j : Json) : Option Hotspot := do
  let [position, kind, flops, free, reduction] ← j.fields? format | none
  return {
    position := ← Json.required Json.count? position
    kind := ← Json.required Json.text? kind
    flops := ← Json.required Json.count? flops
    freeExtents := ← Json.required (Json.items? Json.count?) free
    reductionExtents := ← Json.required (Json.items? Json.count?) reduction }

end Hotspot

namespace KindTable

/-- Writes a table. -/
def toJson (t : KindTable) : Json := .ofMembers (t.entries.map fun e => (e.1, e.2.toJson))

/-- The table with the given entries; a later entry replaces an earlier one of its kind. -/
def ofEntries (entries : List (String × KindCost)) : KindTable :=
  entries.foldl (fun t e => t.insert e.1 e.2) .empty

/-- Reads a table. -/
def ofJson? (j : Json) : Option KindTable := (j.members? KindCost.ofJson?).map ofEntries

end KindTable

namespace Report

/-- The fields of a report. -/
def format : Json.RecordFormat :=
  ⟨["total_flops", "node_count", "shared_node_count", "by_kind", "hotspots"], false, 3⟩

/-- Writes a report. -/
def toJson (r : Report) : Json :=
  .ofMembers [
    ("total_flops", .ofNat r.totalFlops),
    ("node_count", .ofNat r.nodeCount),
    ("shared_node_count", .ofNat r.sharedNodeCount),
    ("by_kind", r.byKind.toJson),
    ("hotspots", .array (r.hotspots.map Hotspot.toJson))]

/-- Reads a report. -/
def ofJson? (j : Json) : Option Report := do
  let [total, nodes, shared, byKind, hotspots] ← j.fields? format | none
  return {
    totalFlops := ← Json.required Json.count? total
    nodeCount := ← Json.required Json.count? nodes
    sharedNodeCount := ← Json.required Json.count? shared
    byKind := ← Json.orElse .empty KindTable.ofJson? byKind
    hotspots := ← Json.orElse [] (Json.items? Hotspot.ofJson?) hotspots }

/-- The text of a report. -/
def render (r : Report) : String := r.toJson.pretty

/-- The report that a text writes. -/
def parse? (text : String) : Option Report := (Json.parse? text).bind ofJson?

end Report

end TensorCost
