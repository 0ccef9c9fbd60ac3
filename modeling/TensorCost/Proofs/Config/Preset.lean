import Mathlib.Data.List.Forall2
import TensorCost.Config.Preset
import TensorCost.Proofs.Numerals

/-!
# Names of presets

* `Preset.Names` says which texts name a preset, without regard to case.

Results:
* `Preset.read_eq_ok_iff`: such a text is read as the preset.
* `Preset.read_of_forall_not`: a text that names no preset is refused, and the refusal shows it.
-/

namespace TensorCost

/-- Whether a text names a preset: it is the name, with any of the letters written as capitals. -/
def Preset.Names (p : Preset) (s : String) : Prop :=
  List.Forall₂ (fun letter c => c = letter ∨ c = letter.toUpper) p.name.toList s.toList

theorem map_toLower_eq_iff {name s : List Char} (h : ∀ letter ∈ name, letter.isLower = true) :
    s.map Char.toLower = name ↔
      List.Forall₂ (fun letter c => c = letter ∨ c = letter.toUpper) name s := by
  induction s generalizing name with
  | nil =>
    cases name <;> simp [List.forall₂_nil_right_iff]
  | cons c s ih =>
    cases name with
    | nil => simp [List.forall₂_nil_left_iff]
    | cons letter name =>
      rw [List.map_cons, List.cons.injEq, List.forall₂_cons,
        toLower_eq_iff (h letter List.mem_cons_self),
        ih fun l hl => h l (List.mem_cons_of_mem _ hl)]

namespace Preset

theorem isLower_name (p : Preset) : ∀ letter ∈ p.name.toList, letter.isLower = true := by
  cases p <;> exact List.all_eq_true.mp rfl

theorem ofName?_eq_some_iff {s : String} {p : Preset} : ofName? s = some p ↔ s = p.name := by
  constructor
  · intro h
    have hname := List.find?_some h
    exact (beq_iff_eq.mp hname).symm
  · rintro rfl
    cases p <;> rfl

/-- A preset is found by the names that it has. -/
theorem names_iff (p : Preset) (s : String) :
    p.Names s ↔ ofName? (s.map Char.toLower) = some p := by
  rw [Names, ← map_toLower_eq_iff p.isLower_name, ofName?_eq_some_iff, ← String.toList_inj,
    String.toList_map]

theorem read_eq_ok_iff (p : Preset) (s : String) : Preset.read s = .ok p ↔ p.Names s := by
  rw [names_iff, Preset.read]
  split
  · rename_i hfound
    simp [hfound]
  · rename_i hnone
    simp [hnone]

theorem names_name (p : Preset) : p.Names p.name := List.forall₂_same.mpr fun _ _ => .inl rfl

theorem read_name (p : Preset) : read p.name = .ok p := (read_eq_ok_iff p _).mpr p.names_name

theorem read_of_forall_not {s : String} (h : ∀ p : Preset, ¬ p.Names s) :
    Preset.read s = .error (.unknownPreset s) := by
  rw [Preset.read]
  split
  · rename_i p hfound
    exact absurd ((names_iff p s).mpr hfound) (h p)
  · rfl

end Preset

end TensorCost
