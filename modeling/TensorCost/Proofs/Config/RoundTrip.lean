import TensorCost.Proofs.Config.Entries
import TensorCost.Proofs.Config.Preset

/-!
# Configurations read back from their text

A document is read back from the text that is written for it, whatever its preset is called.

Results:
* `Document.parse?_render_eq_some`: a document is read back as it was.
* `Config.parse_render`: a configuration is read back, or refused for the range of its hotspots.
-/

namespace TensorCost

/-! ## Reading entries -/

section Fields

open Yaml

/-- The entries of a document have no tags. -/
theorem bare_entries (d : Document) : ∀ e ∈ d.entries, e.1.tag = none ∧ e.2.IsBare := by
  intro e he
  rcases List.mem_cons.mp he with rfl | he
  · exact ⟨rfl, rfl⟩
  rcases List.mem_append.mp he with he | he
  · obtain ⟨s, -, rfl⟩ := Option.map_eq_some_iff.mp (Option.mem_toList.mp he)
    exact ⟨rfl, rfl⟩
  · obtain ⟨o, -, rfl⟩ := Option.map_eq_some_iff.mp (Option.mem_toList.mp he)
    refine ⟨rfl, fun field hfield => ?_⟩
    rw [o.entries_eq] at hfield
    obtain ⟨e, -, rfl⟩ := List.mem_map.mp hfield
    exact ⟨rfl, rfl⟩

/-- The text of a document is read as its entries. -/
theorem parse?_render_entries (d : Document) : Yaml.parse? d.render = some d.entries := by
  have hshown := isShown_of_mem_lines d
  have hallowed : d.lines.flatten.all isAllowed = true :=
    List.all_eq_true.mpr fun c hc => isAllowed_of_isShown (hshown c hc)
  rw [Yaml.parse?, Document.render, String.toList_ofList, if_pos hallowed,
    unifyBreaks_of_isShown hshown]
  exact readDocument_of_tokens (bare_entries d) (tokens?_lines d)

theorem isNull?_of_digits {s : List Char} (hne : s ≠ []) (h : ∀ c ∈ s, c.isDigit = true) :
    (Scalar.plain (String.ofList s)).isNull? = some false := by
  have hempty : (String.ofList s).isEmpty = false := by simpa using hne
  have hword : Scalar.nullWords.contains (String.ofList s) = false := by
    rw [← Bool.not_eq_true, List.contains_iff_mem]
    intro hmem
    have hletter : ∀ word ∈ Scalar.nullWords, (word.toList.any fun c => !c.isDigit) = true := by
      decide
    obtain ⟨c, hc, hdigit⟩ := List.any_eq_true.mp (hletter _ hmem)
    rw [String.toList_ofList] at hc
    simp [h c hc] at hdigit
  show some ((String.ofList s).isEmpty || Scalar.nullWords.contains (String.ofList s)) = _
  rw [hempty, hword]
  rfl

/-- What is written without quotes can be taken for nothing else than a text. -/
theorem isAmbiguous_of_style_eq_plain {s : String} (h : style s = .plain) :
    isAmbiguous s = false := by
  unfold style at h
  dsimp only at h
  split at h
  · split at h <;> cases h
  · split at h
    · rename_i hfits
      simpa using (Bool.and_eq_true_iff.mp hfits).1
    · split at h <;> cases h

/-- A text that stands for nothing without quotes is not written without. -/
theorem isNull?_text (s : String) : Scalar.isNull? ⟨s, style s, none⟩ = some false := by
  by_cases hplain : style s = .plain
  · have hword : s ∉ reservedWords := by
      have hclear := (Bool.or_eq_false_iff.mp (isAmbiguous_of_style_eq_plain hplain)).1
      simpa using hclear
    simp only [reservedWords, List.mem_cons, not_or] at hword
    have hempty : s.isEmpty = false := by simpa using hword.1
    have hnull : Scalar.nullWords.contains s = false := by
      simp [Scalar.nullWords, hword]
    rw [hplain]
    show some (s.isEmpty || Scalar.nullWords.contains s) = _
    rw [hempty, hnull]
    rfl
  · simp [Scalar.isNull?, hplain]

/-- A count that is written without quotes is read. -/
theorem optional_natural {greatest n : Nat} (h : n ≤ greatest) :
    optionalScalar? (Scalar.natural? greatest) (some (.plain (String.ofList (Nat.toDigits 10 n)))) =
      some (some n) := by
  have hnull := isNull?_of_digits (s := Nat.toDigits 10 n) Nat.toDigits_ne_nil
    fun _ => isDigit_of_mem_toDigits
  have hread : Scalar.natural? greatest (.plain (String.ofList (Nat.toDigits 10 n))) = some n := by
    show (Yaml.natural? (String.ofList (Nat.toDigits 10 n)).toList).filter _ = _
    rw [String.toList_ofList, natural?_toDigits]
    simp [Option.filter, h]
  simp [optionalScalar?, hnull, hread]

theorem optional_bool (b : Bool) :
    optionalScalar? Scalar.bool? (some (.plain (if b then "true" else "false"))) =
      some (some b) := by
  cases b <;> rfl

/-- A text is read, even one that stands for nothing without quotes. -/
theorem optional_text (s : String) :
    optionalScalar? (fun s => some s.text) (some ⟨s, style s, none⟩) = some (some s) := by
  simp [optionalScalar?, isNull?_text]

/-- A field that is left out if it has no value is read, if its values are. -/
theorem optionalScalar?_map {α β : Type} {read : Scalar → Option β} {write : α → Scalar}
    {value : α → β} (h : ∀ a, optionalScalar? read (some (write a)) = some (some (value a)))
    (field : Option α) : optionalScalar? read (field.map write) = some (field.map value) := by
  cases field with
  | none => rfl
  | some a => exact h a

/-- The entries of overrides are read as these overrides. -/
theorem overrides_ofEntries?_entries (o : Overrides) : Overrides.ofEntries? o.entries = some o := by
  obtain ⟨limit, breakdown⟩ := o
  have hfields :
      fields? ["hotspot_limit", "kind_breakdown"] (Overrides.entries ⟨limit, breakdown⟩) =
      some [limit.map fun n => .plain (String.ofList (Nat.toDigits 10 n.toNat)),
        breakdown.map fun b => .plain (if b then "true" else "false")] := by
    cases limit <;> cases breakdown <;> rfl
  have hbound (n : UInt64) : n.toNat ≤ Checked.limit := Nat.le_pred_of_lt n.toNat_lt
  have hlimit : optionalScalar? (Scalar.natural? Checked.limit)
      (limit.map fun n => .plain (String.ofList (Nat.toDigits 10 n.toNat))) =
      some (limit.map UInt64.toNat) :=
    optionalScalar?_map (fun n => optional_natural (hbound n)) limit
  have hbreakdown : optionalScalar? Scalar.bool?
      (breakdown.map fun b => .plain (if b then "true" else "false")) = some breakdown :=
    (optionalScalar?_map optional_bool breakdown).trans (congrArg some Option.map_id')
  have hofNat : (limit.map UInt64.toNat).map UInt64.ofNat = limit := by
    cases limit <;> simp
  simp only [Overrides.ofEntries?, hfields, hlimit, hbreakdown, hofNat, Option.bind_eq_bind,
    Option.bind_some]
  rfl

/-- The entries of a document are read as this document. -/
theorem ofEntries?_entries (d : Document) : Document.ofEntries? d.entries = some d := by
  obtain ⟨version, preset, overrides⟩ := d
  let number : Scalar := .plain (String.ofList (Document.versionText ⟨version, preset, overrides⟩))
  have hfields : fields? ["version", "preset", "overrides"]
      (Document.entries ⟨version, preset, overrides⟩) =
      some [some (.scalar number), preset.map fun s => .scalar ⟨s, style s, none⟩,
        overrides.map fun o => .mapping o.entries] := by
    cases preset <;> cases overrides <;> rfl
  have hnumber : (some (Value.scalar number)).mapM Value.scalar? = some (some number) := rfl
  have hversion : optionalScalar? (Scalar.natural? 0xFFFF_FFFF) (some number) =
      some (version.map UInt32.toNat) := by
    cases version with
    | none => rfl
    | some v => exact optional_natural (Nat.le_pred_of_lt v.toNat_lt)
  have hofNat : (version.map UInt32.toNat).map UInt32.ofNat = version := by
    cases version <;> simp
  have hscalar : (preset.map fun s => Value.scalar ⟨s, style s, none⟩).mapM Value.scalar? =
      some (preset.map fun s => ⟨s, style s, none⟩) := by
    cases preset <;> rfl
  have hpreset : optionalScalar? (fun s => some s.text)
      (preset.map fun s => ⟨s, style s, none⟩) = some preset :=
    (optionalScalar?_map optional_text preset).trans (congrArg some Option.map_id')
  have hoverrides : (overrides.map fun o => Value.mapping o.entries).mapM Overrides.ofValue? =
      some (overrides.map some) := by
    cases overrides with
    | none => rfl
    | some o => simp [Overrides.ofValue?, overrides_ofEntries?_entries]
  have hjoin : (overrides.map some).join = overrides := by
    cases overrides <;> rfl
  simp only [Document.ofEntries?, hfields, hnumber, hversion, hscalar, hpreset, hoverrides, hofNat,
    hjoin, Option.bind_eq_bind, Option.bind_some]
  rfl

end Fields

/-- **A document** is read back from its text. -/
theorem Document.parse?_render_eq_some (d : Document) : Document.parse? d.render = some d := by
  rw [Document.parse?, parse?_render_entries, Option.bind_some, ofEntries?_entries]

/-! ## Loading -/

theorem Config.validate_map (c : Config) :
    (c.validate.map fun _ => c) =
      if c.hotspotLimit ≤ 10000 then .ok c
      else .error (.outOfRange "hotspot_limit" c.hotspotLimit.toNat 0 10000
        "FlopCountConfig reports at most 10000 hotspots") := by
  by_cases h : c.hotspotLimit ≤ maxHotspotLimit
  · rw [if_pos (show c.hotspotLimit ≤ 10000 from h), validate, if_pos h]
    rfl
  · rw [if_neg (show ¬ c.hotspotLimit ≤ 10000 from h), validate, if_neg h]
    rfl

/-- What a document stands for, once its version has been checked and its preset is known. -/
theorem Document.load_of_basePreset {d : Document} {p : Preset} (hversion : d.checkVersion = .ok ())
    (hpreset : d.basePreset = .ok p) :
    d.load = ((Config.ofPreset p).override (d.overrides.getD {})).validate.map fun _ =>
      (Config.ofPreset p).override (d.overrides.getD {}) := by
  rw [load, hversion, hpreset]
  rfl

/-- The document of a configuration stands for this configuration, if it is valid: where both fields
are overridden, nothing of the preset is left. -/
theorem Config.load_toDocument (c : Config) : c.toDocument.load = c.validate.map fun _ => c := by
  have hpreset : c.toDocument.basePreset = .ok .balanced := Preset.read_name .balanced
  have hoverride : (ofPreset .balanced).override (c.toDocument.overrides.getD {}) = c := rfl
  rw [Document.load_of_basePreset rfl hpreset, hoverride]

/-- **A configuration** is read back from its text. If it asks for too many hotspots, then this is
why it is refused. -/
theorem Config.parse_render (c : Config) :
    parse c.render =
      if c.hotspotLimit ≤ 10000 then .ok c
      else .error (.outOfRange "hotspot_limit" c.hotspotLimit.toNat 0 10000
        "FlopCountConfig reports at most 10000 hotspots") := by
  rw [parse, render, Document.parse?_render_eq_some]
  exact c.load_toDocument.trans c.validate_map

end TensorCost
