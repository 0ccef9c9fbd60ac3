import TensorCost.Config.Json
import TensorCost.Config.Yaml

/-!
# Where a configuration comes from

A configuration is loaded from a document, or put together from a preset, fields set one by one, and
overrides that are given as JSON.

* `Config.Source` says which, and `Config.Source.config` is the configuration.
-/

namespace TensorCost

/-- Why there is no configuration. -/
inductive Config.SourceError
  /-- A document, or a part of it, is refused. -/
  | config (cause : ConfigError)
  /-- The overrides are not a JSON value of their kind. -/
  | malformedOverrides
  deriving DecidableEq, Repr

/-- Where a configuration comes from. -/
inductive Config.Source
  /-- The text of a document. -/
  | document (text : String)
  /-- A preset, the standard one if none is named, then fields that are set, then overrides. -/
  | parts (preset : Option String) (fields : Overrides) (overrides : Option Json)

namespace Config.Source

/-- The configuration that comes from a source. -/
def config : Source → Except SourceError Config
  | document text => (Config.parse text).mapError .config
  | parts preset fields overrides => do
    let base ← match preset with
      | none => .ok Preset.standard
      | some name => (Preset.read name).mapError SourceError.config
    let c := (Config.ofPreset base).override fields
    match overrides with
    | none => return c
    | some j =>
      match Overrides.ofJson? j with
      | some o => return c.override o
      | none => .error .malformedOverrides

end Config.Source

end TensorCost
