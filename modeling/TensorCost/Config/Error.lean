/-!
# Why a configuration is refused

* `ConfigError` lists the causes and `ConfigError.message` words them. A file that cannot be read
  and a text that is not a configuration document have no wording of their own: what is wrong with
  them is for the reader of the file or of the text to say.
-/

namespace TensorCost

/-- The causes for which a configuration is refused. -/
inductive ConfigError
  /-- A field lies outside its closed range. -/
  | outOfRange (field : String) (value least greatest : Int) (hint : String)
  /-- The document does not say which version of the format it is written in. -/
  | missingVersion
  /-- The document is written in a version that is not supported. -/
  | unsupportedVersion (found : Nat) (supported : List Nat)
  /-- No preset has this name. -/
  | unknownPreset (name : String)
  /-- The file cannot be read as text. -/
  | unreadableFile
  /-- The text is not a configuration document. -/
  | malformedDocument
  deriving DecidableEq, Repr

namespace ConfigError

/-- The wording of a cause, if it has one. -/
def message : ConfigError → Option String
  | outOfRange field value least greatest hint =>
    some s!"Invalid range for field '{field}': {value} not in {least}..={greatest}. {hint}"
  | missingVersion =>
    some ("Missing 'version' field in configuration file. "
      ++ "Add 'version: 1' to the top of your YAML file.")
  | unsupportedVersion found supported =>
    some (s!"Unsupported configuration version {found}. Supported versions: "
      ++ String.intercalate ", " (supported.map toString))
  | unknownPreset name =>
    some s!"Unknown preset '{name}'. Valid presets: fast, balanced, thorough"
  | unreadableFile => none
  | malformedDocument => none

end ConfigError

end TensorCost
