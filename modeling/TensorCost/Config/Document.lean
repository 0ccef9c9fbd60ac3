import TensorCost.Config.Basic

/-!
# Configuration documents

A configuration document says in which version of the format it is written, and may name a preset
and override fields of it. Version 1 is the only one.

* `Document.load` is the configuration that a document stands for. Its checks come in the order
  version, preset, range.
* `Config.toDocument` writes a configuration as the standard preset with both fields overridden.
-/

namespace TensorCost

/-- A configuration document. -/
structure Document where
  version : Option UInt32 := none
  preset : Option String := none
  overrides : Option Overrides := none
  deriving DecidableEq, Repr

namespace Document

/-- The versions of the format that can be loaded. -/
def supportedVersions : List UInt32 := [1]

/-- Checks the version of a document. -/
def checkVersion (d : Document) : Except ConfigError Unit :=
  match d.version with
  | none => .error .missingVersion
  | some v =>
    if v ∈ supportedVersions then .ok ()
    else .error (.unsupportedVersion v.toNat (supportedVersions.map UInt32.toNat))

/-- The preset that a document builds on. -/
def basePreset (d : Document) : Except ConfigError Preset :=
  match d.preset with
  | none => .ok .standard
  | some name => Preset.read name

/-- The configuration that a document stands for. -/
def load (d : Document) : Except ConfigError Config := do
  d.checkVersion
  let preset ← d.basePreset
  let config := (Config.ofPreset preset).override (d.overrides.getD {})
  config.validate
  return config

end Document

/-- The document of a configuration. -/
def Config.toDocument (c : Config) : Document where
  version := some 1
  preset := some Preset.standard.name
  overrides := some { hotspotLimit := some c.hotspotLimit, kindBreakdown := some c.kindBreakdown }

end TensorCost
