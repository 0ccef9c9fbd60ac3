import TensorCost.Config.Document
import TensorCost.Json.Printer
import TensorCost.Json.Reader

/-!
# Configurations as JSON

* `Config`, `Overrides` and `Document` are records; the first passes members of other names over,
  the other two refuse them. No range is checked: that is for `Config.validate`.
* A preset is the string of its name, in exactly this spelling.
-/

namespace TensorCost

/-- A count of 64 bits. -/
def Json.word64? (j : Json) : Option UInt64 := (j.natural? Checked.limit).map UInt64.ofNat

/-- A count of 32 bits. -/
def Json.word32? (j : Json) : Option UInt32 := (j.natural? 0xFFFF_FFFF).map UInt32.ofNat

namespace Preset

/-- Reads a preset: the string of its name, or an object that gives this name the value `null`. -/
def ofJson? : Json → Option Preset
  | .string name => name.bind ofName?
  | .object [(name, .null)] => name.bind ofName?
  | _ => none

/-- Writes a preset. -/
def toJson (p : Preset) : Json := .ofText p.name

end Preset

namespace Config

/-- The fields of a configuration. -/
def format : Json.RecordFormat := ⟨["hotspot_limit", "kind_breakdown"], false, 0⟩

/-- Writes a configuration. -/
def toJson (c : Config) : Json :=
  .ofMembers
    [("hotspot_limit", .ofNat c.hotspotLimit.toNat), ("kind_breakdown", .bool c.kindBreakdown)]

/-- Reads a configuration; a field that is left out has its standard value. -/
def ofJson? (j : Json) : Option Config := do
  let [limit, breakdown] ← j.fields? format | none
  return {
    hotspotLimit := ← Json.orElse standard.hotspotLimit Json.word64? limit
    kindBreakdown := ← Json.orElse standard.kindBreakdown Json.bool? breakdown }

/-- The configuration that a text writes. -/
def parseJson? (text : String) : Option Config := (Json.parse? text).bind ofJson?

end Config

namespace Overrides

/-- The fields of overrides; an array has to give both. -/
def format : Json.RecordFormat := ⟨["hotspot_limit", "kind_breakdown"], true, 2⟩

/-- Writes overrides; a field that is not overridden is left out. -/
def toJson (o : Overrides) : Json :=
  .ofMembers ((o.hotspotLimit.map fun n => ("hotspot_limit", .ofNat n.toNat)).toList
    ++ (o.kindBreakdown.map fun b => ("kind_breakdown", .bool b)).toList)

/-- Reads overrides; a field that is `null` or left out is not overridden. -/
def ofJson? (j : Json) : Option Overrides := do
  let [limit, breakdown] ← j.fields? format | none
  return {
    hotspotLimit := ← Json.orElse none (Json.optional? Json.word64?) limit
    kindBreakdown := ← Json.orElse none (Json.optional? Json.bool?) breakdown }

/-- The overrides that a text writes. -/
def parseJson? (text : String) : Option Overrides := (Json.parse? text).bind ofJson?

end Overrides

namespace Document

/-- The fields of a document. -/
def format : Json.RecordFormat := ⟨["version", "preset", "overrides"], true, 0⟩

/-- Writes a document; the version is always written, the other fields only if they are given. -/
def toJson (d : Document) : Json :=
  .ofMembers (("version", d.version.elim .null fun v => .ofNat v.toNat)
    :: (d.preset.map fun s => ("preset", .ofText s)).toList
    ++ (d.overrides.map fun o => ("overrides", o.toJson)).toList)

/-- Reads a document; a field that is `null` or left out is not given. -/
def ofJson? (j : Json) : Option Document := do
  let [version, preset, overrides] ← j.fields? format | none
  return {
    version := ← Json.orElse none (Json.optional? Json.word32?) version
    preset := ← Json.orElse none (Json.optional? Json.text?) preset
    overrides := ← Json.orElse none (Json.optional? Overrides.ofJson?) overrides }

/-- The document that a text writes. -/
def parseJson? (text : String) : Option Document := (Json.parse? text).bind ofJson?

end Document

end TensorCost
