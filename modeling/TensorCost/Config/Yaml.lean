import TensorCost.Config.Document
import TensorCost.Yaml.Printer
import TensorCost.Yaml.Reader

/-!
# Configurations as YAML

* `Document.render` writes a document and `Config.render` the document of a configuration.
* `Document.parse?` reads a document. Every key has to be known and may be given once. A field that
  is empty, or `null`, is not given; numbers and truth values are written without quotes, or as
  blocks with a tag, and any scalar will do for the name of a preset.
* `Config.parse` and `Config.ofFile` load the document in a text and in a file.
-/

namespace TensorCost

namespace Yaml

namespace Scalar

/-- The tag of a type that documents know. -/
def typeTag (name : String) : String := "tag:yaml.org,2002:" ++ name

/-- The words for nothing. -/
def nullWords : List String := ["~", "null", "Null", "NULL"]

/-- Whether a scalar stands for nothing. One whose tag says so has to. -/
def isNull? (s : Scalar) : Option Bool :=
  if s.style != .plain then some false
  else match s.tag with
    | none => some (s.text.isEmpty || nullWords.contains s.text)
    | some tag =>
      if tag != typeTag "null" then some false
      else if nullWords.contains s.text then some true else none

/-- Whether a scalar can stand for a value of the named type: if it is plain, or a block with the
tag of the type. -/
def fits (s : Scalar) (name : String) : Bool :=
  s.style == .plain || (s.style == .literal && s.tag == some (typeTag name))

/-- The count of at most `greatest` that a scalar writes. -/
def natural? (greatest : Nat) (s : Scalar) : Option Nat :=
  if s.fits "int" then (Yaml.natural? s.text.toList).filter (· ≤ greatest) else none

/-- The truth value that a scalar writes. -/
def bool? (s : Scalar) : Option Bool :=
  if !s.fits "bool" then none
  else if ["true", "True", "TRUE"].contains s.text then some true
  else if ["false", "False", "FALSE"].contains s.text then some false
  else none

end Scalar

/-- Reads the scalar of a field, which may be left out or stand for nothing. -/
def optionalScalar? {α : Type} (read : Scalar → Option α) : Option Scalar → Option (Option α)
  | none => some none
  | some s => do if ← s.isNull? then some none else (read s).map some

/-- A value as a scalar. -/
def Value.scalar? : Value → Option Scalar
  | scalar s => some s
  | mapping _ => none

/-- The values of the named fields of a mapping, in order; every key has to be among the names, and
none may be given twice. -/
def fields? {α : Type} (names : List String) (entries : List (Scalar × α)) :
    Option (List (Option α)) :=
  if entries.all fun e => names.contains e.1.text then
    names.mapM fun name =>
      match entries.filter fun e => e.1.text == name with
      | [] => some none
      | [e] => some (some e.2)
      | _ => none
  else none

end Yaml

namespace Overrides

/-- Reads the entries of a mapping as overrides. -/
def ofEntries? (entries : List (Yaml.Scalar × Yaml.Scalar)) : Option Overrides := do
  let [limit, breakdown] ← Yaml.fields? ["hotspot_limit", "kind_breakdown"] entries | none
  let limit ← Yaml.optionalScalar? (Yaml.Scalar.natural? Checked.limit) limit
  let breakdown ← Yaml.optionalScalar? Yaml.Scalar.bool? breakdown
  return { hotspotLimit := limit.map UInt64.ofNat, kindBreakdown := breakdown }

/-- Reads a value as overrides, which stand for nothing if the value does. An empty text that has a
tag stands for overrides without fields. -/
def ofValue? : Yaml.Value → Option (Option Overrides)
  | .scalar s => do
    if ← s.isNull? then some none
    else if s.style == .plain && s.text.isEmpty then some (some {})
    else none
  | .mapping entries => (ofEntries? entries).map some

/-- The lines of overrides below their key; a field that is not overridden is left out. -/
def lines (o : Overrides) : List (List Char) :=
  (o.hotspotLimit.map fun n =>
      "  hotspot_limit: ".toList ++ Nat.toDigits 10 n.toNat ++ ['\n']).toList
    ++ (o.kindBreakdown.map fun b =>
      "  kind_breakdown: ".toList ++ (if b then "true" else "false").toList ++ ['\n']).toList

end Overrides

namespace Document

/-- Reads the entries of a mapping as a document. -/
def ofEntries? (entries : List (Yaml.Scalar × Yaml.Value)) : Option Document := do
  let [version, preset, overrides] ← Yaml.fields? ["version", "preset", "overrides"] entries | none
  let version ← version.mapM Yaml.Value.scalar?
  let version ← Yaml.optionalScalar? (Yaml.Scalar.natural? 0xFFFF_FFFF) version
  let preset ← preset.mapM Yaml.Value.scalar?
  let preset ← Yaml.optionalScalar? (fun s => some s.text) preset
  let overrides ← overrides.mapM Overrides.ofValue?
  return { version := version.map UInt32.ofNat, preset, overrides := overrides.join }

/-- The document that a text writes. -/
def parse? (text : String) : Option Document := (Yaml.parse? text).bind ofEntries?

/-- The lines of a document. The version is always written, the other fields only if they are
given. -/
def lines (d : Document) : List (List Char) :=
  ("version: ".toList ++ (d.version.elim "null".toList fun v => Nat.toDigits 10 v.toNat) ++ ['\n'])
    :: (d.preset.map fun s => "preset: ".toList ++ Yaml.printText s).toList
    ++ match d.overrides with
      | none => []
      | some o =>
        match o.lines with
        | [] => ["overrides: \x7b\x7d\n".toList]
        | lines => "overrides:\n".toList :: lines

/-- The text of a document. -/
def render (d : Document) : String := String.ofList d.lines.flatten

end Document

namespace Config

/-- The text of a configuration. -/
def render (c : Config) : String := c.toDocument.render

/-- The configuration that a text stands for. -/
def parse (text : String) : Except ConfigError Config :=
  match Document.parse? text with
  | some d => d.load
  | none => .error .malformedDocument

/-- The configuration that a file stands for, given its bytes if there is such a file. -/
def ofFile (bytes? : Option ByteArray) : Except ConfigError Config :=
  match bytes?.bind fun bytes => String.fromUTF8? bytes with
  | some text => parse text
  | none => .error .unreadableFile

end Config

end TensorCost
