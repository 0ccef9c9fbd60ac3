import TensorCost.Cost.Analysis
import TensorCost.Proofs.Config.RoundTrip

/-!
# What comes of a configuration document

The rules of the schema are stated as a relation between a document and what comes of it. They say
in which order a document can be refused.

* `Overrides.Overlay` says what overrides leave of a configuration.
* `Document.Outcome` is the relation.

Results:
* `Document.load_eq_iff`: the relation has one outcome for every document, which is what is loaded.
* `Config.parse_eq_iff_outcome`: so it is if a document is written and read in between, and what is
  loaded is accepted by an analyzer.
-/

namespace TensorCost

/-! ## The rules of the schema -/

/-- What overrides leave of a configuration: exactly the fields that they give are replaced. -/
structure Overrides.Overlay (o : Overrides) (base c : Config) : Prop where
  limit_given : ∀ n, o.hotspotLimit = some n → c.hotspotLimit = n
  limit_kept : o.hotspotLimit = none → c.hotspotLimit = base.hotspotLimit
  breakdown_given : ∀ b, o.kindBreakdown = some b → c.kindBreakdown = b
  breakdown_kept : o.kindBreakdown = none → c.kindBreakdown = base.kindBreakdown

theorem Overrides.overlay_iff {o : Overrides} {base c : Config} :
    o.Overlay base c ↔ base.override o = c := by
  constructor
  · intro h
    have hlimit : o.hotspotLimit.getD base.hotspotLimit = c.hotspotLimit := by
      cases ho : o.hotspotLimit with
      | none => exact (h.limit_kept ho).symm
      | some n => exact (h.limit_given n ho).symm
    have hbreakdown : o.kindBreakdown.getD base.kindBreakdown = c.kindBreakdown := by
      cases ho : o.kindBreakdown with
      | none => exact (h.breakdown_kept ho).symm
      | some b => exact (h.breakdown_given b ho).symm
    rw [Config.override, hlimit, hbreakdown]
  · rintro rfl
    exact
      { limit_given := fun n ho => by simp [Config.override, ho]
        limit_kept := fun ho => by simp [Config.override, ho]
        breakdown_given := fun b ho => by simp [Config.override, ho]
        breakdown_kept := fun ho => by simp [Config.override, ho] }

namespace Document

/-- The preset that a document builds on: the one that it names, or the balanced one. -/
inductive Builds (d : Document) : Preset → Prop
  | balanced (h : d.preset = none) : Builds d .balanced
  | named {s : String} {p : Preset} (h : d.preset = some s) (hname : p.Names s) : Builds d p

/-- Whether a document of version 1 says what is in a configuration. -/
structure Describes (d : Document) (c : Config) : Prop where
  version : d.version = some 1
  overlay : ∃ p, d.Builds p ∧ (d.overrides.getD {}).Overlay (Config.ofPreset p) c

/-- **The rules of the schema**, in the order in which they apply. -/
inductive Outcome (d : Document) : Except ConfigError Config → Prop
  | missingVersion (h : d.version = none) : Outcome d (.error .missingVersion)
  | unsupportedVersion {v : UInt32} (h : d.version = some v) (hv : v ≠ 1) :
    Outcome d (.error (.unsupportedVersion v.toNat [1]))
  | unknownPreset {s : String} (h : d.version = some 1) (hs : d.preset = some s)
    (hname : ∀ p : Preset, ¬ p.Names s) : Outcome d (.error (.unknownPreset s))
  | outOfRange {c : Config} (h : d.Describes c) (hc : 10000 < c.hotspotLimit) :
    Outcome d (.error (.outOfRange "hotspot_limit" c.hotspotLimit.toNat 0 10000
      "FlopCountConfig reports at most 10000 hotspots"))
  | loaded {c : Config} (h : d.Describes c) (hc : c.hotspotLimit ≤ 10000) :
    Outcome d (.ok c)

theorem basePreset_eq_ok_iff {d : Document} {p : Preset} : d.basePreset = .ok p ↔ d.Builds p := by
  unfold basePreset
  constructor
  · intro h
    split at h
    · rename_i hnone
      cases h
      exact .balanced hnone
    · rename_i hname
      exact .named hname ((Preset.read_eq_ok_iff p _).mp h)
  · rintro (hnone | ⟨hname, hp⟩)
    · rw [hnone]
      rfl
    · rw [hname]
      exact (Preset.read_eq_ok_iff p _).mpr hp

theorem checkVersion_of_eq_one {d : Document} (h : d.version = some 1) :
    d.checkVersion = .ok () := by
  rw [checkVersion, h]
  rfl

theorem Describes.load_eq {d : Document} {c : Config} (h : d.Describes c) :
    d.load = c.validate.map fun _ => c := by
  obtain ⟨hversion, p, hp, hoverlay⟩ := h
  rw [load_of_basePreset (checkVersion_of_eq_one hversion) (basePreset_eq_ok_iff.mpr hp),
    Overrides.overlay_iff.mp hoverlay]

theorem Outcome.load_eq {d : Document} {r : Except ConfigError Config} (h : d.Outcome r) :
    d.load = r := by
  cases h with
  | missingVersion h =>
    rw [load, checkVersion, h]
    rfl
  | unsupportedVersion h hv =>
    rw [load, checkVersion, h]
    dsimp only
    rw [if_neg (by simpa [supportedVersions] using hv)]
    rfl
  | unknownPreset h hs hname =>
    rw [load, checkVersion_of_eq_one h, basePreset, hs]
    dsimp only
    rw [Preset.read_of_forall_not hname]
    rfl
  | outOfRange h hc => rw [h.load_eq, Config.validate_map, if_neg (UInt64.not_le.mpr hc)]
  | loaded h hc => rw [h.load_eq, Config.validate_map, if_pos hc]

/-- Every document has an outcome. -/
theorem exists_outcome (d : Document) : ∃ r, d.Outcome r := by
  cases hversion : d.version with
  | none => exact ⟨_, .missingVersion hversion⟩
  | some v =>
    by_cases hv : v = 1
    · subst hv
      by_cases hp : ∃ p, d.Builds p
      · obtain ⟨p, hp⟩ := hp
        have hdescribes : d.Describes ((Config.ofPreset p).override (d.overrides.getD {})) :=
          ⟨hversion, p, hp, Overrides.overlay_iff.mpr rfl⟩
        rcases UInt64.le_or_lt _ 10000 with hc | hc
        · exact ⟨_, .loaded hdescribes hc⟩
        · exact ⟨_, .outOfRange hdescribes hc⟩
      · cases hpreset : d.preset with
        | none => exact absurd ⟨_, .balanced hpreset⟩ hp
        | some s =>
          exact ⟨_, .unknownPreset hversion hpreset fun p hname => hp ⟨p, .named hpreset hname⟩⟩
    · exact ⟨_, .unsupportedVersion hversion hv⟩

/-- What a document stands for is its outcome. -/
theorem load_eq_iff {d : Document} {r : Except ConfigError Config} :
    d.load = r ↔ d.Outcome r := by
  constructor
  · rintro rfl
    obtain ⟨r, h⟩ := d.exists_outcome
    exact h.load_eq ▸ h
  · exact Outcome.load_eq

end Document

/-- Only a configuration that is in range is loaded. -/
theorem Document.valid_of_load {d : Document} {c : Config} (h : d.load = .ok c) :
    c.hotspotLimit ≤ Config.maxHotspotLimit := by
  cases Document.load_eq_iff.mp h with
  | loaded _ hc => exact hc

theorem Config.valid_of_parse {text : String} {c : Config} (h : Config.parse text = .ok c) :
    c.hotspotLimit ≤ Config.maxHotspotLimit := by
  rw [Config.parse] at h
  split at h
  · exact Document.valid_of_load h
  · cases h

theorem Config.valid_of_ofFile {bytes? : Option ByteArray} {c : Config}
    (h : Config.ofFile bytes? = .ok c) : c.hotspotLimit ≤ Config.maxHotspotLimit := by
  rw [Config.ofFile] at h
  split at h
  · exact Config.valid_of_parse h
  · cases h

theorem Analyzer.exists_ofConfig {c : Config} (h : c.hotspotLimit ≤ Config.maxHotspotLimit) :
    ∃ a, Analyzer.ofConfig c = .ok a ∧ a.config = c :=
  ⟨⟨c, h⟩, dif_pos h, rfl⟩

/-- **What comes of a document** that is written and read again is what the rules of the schema say
of it, and no configuration that is loaded from a text or a file is refused by an analyzer. -/
theorem Config.parse_eq_iff_outcome (d : Document) :
    (∀ r, Config.parse d.render = r ↔ d.Outcome r) ∧
      (∀ text c, Config.parse text = .ok c →
        ∃ a, Analyzer.ofConfig c = .ok a ∧ a.config = c) ∧
      ∀ bytes? c, Config.ofFile bytes? = .ok c →
        ∃ a, Analyzer.ofConfig c = .ok a ∧ a.config = c := by
  refine ⟨fun r => ?_, fun _ _ h => Analyzer.exists_ofConfig (valid_of_parse h),
    fun _ _ h => Analyzer.exists_ofConfig (valid_of_ofFile h)⟩
  have hload : Config.parse d.render = d.load := by
    rw [Config.parse, d.parse?_render_eq_some]
  rw [hload]
  exact Document.load_eq_iff

/-- A preset in capitals, with the greatest number of hotspots. -/
theorem Config.parse_of_capitals :
    let d : Document := ⟨some 1, some "FAST", some { hotspotLimit := some 10000 }⟩
    Config.parse d.render = .ok ⟨10000, false⟩ ∧
      ∃ a, Analyzer.ofConfig ⟨10000, false⟩ = .ok a ∧ a.config = ⟨10000, false⟩ := by
  intro d
  have hname : Preset.fast.Names "FAST" :=
    .cons (.inr rfl) (.cons (.inr rfl) (.cons (.inr rfl) (.cons (.inr rfl) .nil)))
  have hdescribes : d.Describes ⟨10000, false⟩ :=
    ⟨rfl, .fast, .named rfl hname, Overrides.overlay_iff.mpr rfl⟩
  obtain ⟨houtcome, haccepted, -⟩ := Config.parse_eq_iff_outcome d
  have hparse := (houtcome _).mpr (.loaded hdescribes (by decide))
  exact ⟨hparse, haccepted _ _ hparse⟩

end TensorCost
