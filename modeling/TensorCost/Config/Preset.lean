import TensorCost.Config.Error

/-!
# Presets

A preset names a level of detail. Its name is written in small letters, and read without regard to
case.
-/

namespace TensorCost

/-- A named level of detail. -/
inductive Preset
  | fast | balanced | thorough
  deriving DecidableEq, Repr

namespace Preset

/-- Every preset. -/
def all : List Preset := [fast, balanced, thorough]

/-- The name of a preset. -/
def name : Preset → String
  | fast => "fast"
  | balanced => "balanced"
  | thorough => "thorough"

/-- The preset that is meant where none is named. -/
def standard : Preset := balanced

/-- The preset with exactly this name. -/
def ofName? (s : String) : Option Preset := all.find? fun p => p.name == s

/-- The preset with this name in any case. No letter outside of ASCII has a letter of these names as
its small form, so small ASCII letters are enough. -/
def read (s : String) : Except ConfigError Preset :=
  match ofName? (s.map Char.toLower) with
  | some p => .ok p
  | none => .error (.unknownPreset s)

end Preset

end TensorCost
