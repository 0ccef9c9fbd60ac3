import TensorCost.Text.Quoted

/-!
# Diagnostic text

`Inspect α` is the text that shows a value of `α` to a reader of a diagnostic: numbers in decimal,
strings quoted and escaped, lists in square brackets, and records with their field names.

* `Inspect.list` and `Inspect.record` are the two shapes that the instances are put together from.
-/

namespace TensorCost

/-- A type whose values have a diagnostic text. -/
class Inspect (α : Type) where
  /-- The diagnostic text of a value. -/
  inspect : α → String

export Inspect (inspect)

namespace Inspect

/-- Parts in square brackets, a comma and a blank between them. -/
def list (parts : List String) : String :=
  "[" ++ String.intercalate ", " parts ++ "]"

/-- Parts in round brackets after the name of a constructor, which is empty for a tuple. -/
def tuple (name : String) (parts : List String) : String :=
  name ++ "(" ++ String.intercalate ", " parts ++ ")"

/-- A record: its name, then its fields with their names, in braces. -/
def record (name : String) (fields : List (String × String)) : String :=
  name ++ " \x7b " ++ String.intercalate ", " (fields.map fun f => f.1 ++ ": " ++ f.2) ++ " \x7d"

instance : Inspect Nat := ⟨fun n => toString n⟩

instance : Inspect Int := ⟨fun n => toString n⟩

instance : Inspect UInt64 := ⟨fun n => toString n.toNat⟩

instance : Inspect String := ⟨Text.quoted⟩

instance {α : Type} [Inspect α] : Inspect (List α) := ⟨fun xs => list (xs.map inspect)⟩

instance {α : Type} [Inspect α] : Inspect (Option α) where
  inspect
    | none => "None"
    | some a => tuple "Some" [inspect a]

instance {α β : Type} [Inspect α] [Inspect β] : Inspect (α × β) :=
  ⟨fun p => tuple "" [inspect p.1, inspect p.2]⟩

end Inspect

end TensorCost
