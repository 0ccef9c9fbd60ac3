import TensorCost.Config.Preset

/-!
# Configuration of reports

The total of a report cannot be configured; a configuration only says how much detail comes with it.

* `Config` is a configuration, `Overrides` a partial one, and `Config.override` lays one over the
  other.
* `Config.validate` refuses a configuration that asks for too many hotspots.
-/

namespace TensorCost

/-- How much detail a report carries. -/
structure Config where
  /-- How many of the most expensive nodes are listed. -/
  hotspotLimit : UInt64
  /-- Whether nodes and flops are also totalled by kind. -/
  kindBreakdown : Bool
  deriving DecidableEq, Repr

/-- The fields of a configuration that are to be replaced. -/
structure Overrides where
  hotspotLimit : Option UInt64 := none
  kindBreakdown : Option Bool := none
  deriving DecidableEq, Repr

namespace Config

/-- The configuration that a preset stands for. -/
def ofPreset : Preset → Config
  | .fast => ⟨0, false⟩
  | .balanced => ⟨10, true⟩
  | .thorough => ⟨100, true⟩

/-- The configuration of the standard preset. -/
def standard : Config := ofPreset .standard

/-- Replaces the fields that `o` gives. -/
def override (c : Config) (o : Overrides) : Config where
  hotspotLimit := o.hotspotLimit.getD c.hotspotLimit
  kindBreakdown := o.kindBreakdown.getD c.kindBreakdown

/-- The greatest number of hotspots that can be listed. -/
def maxHotspotLimit : UInt64 := 10000

/-- What a configuration without a name of its own is called in messages. -/
def genericName : String := "Config"

/-- What this configuration is called in messages. -/
def name : String := "FlopCountConfig"

/-- Why a configuration that asks for too many hotspots is refused. -/
def rangeError (c : Config) : ConfigError :=
  .outOfRange "hotspot_limit" c.hotspotLimit.toNat 0 maxHotspotLimit.toNat
    s!"{name} reports at most {maxHotspotLimit.toNat} hotspots"

/-- Refuses a configuration that asks for more hotspots than can be listed. -/
def validate (c : Config) : Except ConfigError Unit :=
  if c.hotspotLimit ≤ maxHotspotLimit then .ok () else .error c.rangeError

end Config

end TensorCost
