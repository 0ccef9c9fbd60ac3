import TensorCost.Config.Yaml
import TensorCost.Proofs.Yaml.Lines
import TensorCost.Proofs.Yaml.Shown

/-!
# The entries of a configuration document

A configuration document is written line by line. Its lines spell a mapping.

* `Overrides.entries` and `Document.entries` are the entries that the lines spell.
* `Overrides.texts` are the keys and values on the lines of overrides, which are plain.

Results:
* `tokens?_lines`: the tokens of the lines are those of the entries.
* `isShown_of_mem_lines`: the lines hold nothing that has to be escaped.
-/

namespace TensorCost

/-! ## The entries of a document -/

/-- The entries that overrides are written as. -/
def Overrides.entries (o : Overrides) : List (Yaml.Scalar × Yaml.Scalar) :=
  (o.hotspotLimit.map fun n =>
      (.plain "hotspot_limit", .plain (String.ofList (Nat.toDigits 10 n.toNat)))).toList
    ++ (o.kindBreakdown.map fun b =>
      (.plain "kind_breakdown", .plain (if b then "true" else "false"))).toList

/-- The keys and the values that stand on the lines of overrides. -/
def Overrides.texts (o : Overrides) : List (List Char × List Char) :=
  (o.hotspotLimit.map fun n => ("hotspot_limit".toList, Nat.toDigits 10 n.toNat)).toList
    ++ (o.kindBreakdown.map fun b =>
      ("kind_breakdown".toList, (if b then "true" else "false").toList)).toList

theorem Overrides.entries_eq (o : Overrides) : o.entries = o.texts.map Yaml.plainEntry := by
  obtain ⟨limit, breakdown⟩ := o
  cases limit <;> cases breakdown <;> simp [entries, texts, Yaml.plainEntry]

theorem Overrides.lines_flatten (o : Overrides) : o.lines.flatten = Yaml.plainLines 2 o.texts := by
  obtain ⟨limit, breakdown⟩ := o
  cases limit <;> cases breakdown <;>
    simp [lines, texts, Yaml.plainLines, Yaml.entryLine, List.replicate]

namespace Document

/-- The entry of the preset of a document, if it names one. -/
def presetEntries (d : Document) : List (Yaml.Scalar × Yaml.Value) :=
  (d.preset.map fun s => (.plain "preset", .scalar ⟨s, Yaml.style s, none⟩)).toList

/-- The entry of the overrides of a document, if it has any. -/
def overridesEntries (d : Document) : List (Yaml.Scalar × Yaml.Value) :=
  (d.overrides.map fun o => (.plain "overrides", .mapping o.entries)).toList

/-- The text of the version of a document. -/
def versionText (d : Document) : List Char :=
  d.version.elim "null".toList fun v => Nat.toDigits 10 v.toNat

/-- The entries that a document is written as. -/
def entries (d : Document) : List (Yaml.Scalar × Yaml.Value) :=
  (.plain "version", .scalar (.plain (String.ofList d.versionText)))
    :: (d.presetEntries ++ d.overridesEntries)

/-- The line of the preset of a document, if it names one. -/
def presetText (d : Document) : List Char :=
  (d.preset.map fun s => "preset: ".toList ++ Yaml.printText s).toList.flatten

/-- The lines of the overrides of a document, if it has any. -/
def overridesText (d : Document) : List Char :=
  match d.overrides with
  | none => []
  | some o =>
    match o.lines with
    | [] => "overrides: \x7b\x7d\n".toList
    | lines => "overrides:\n".toList ++ lines.flatten

theorem lines_flatten (d : Document) :
    d.lines.flatten = Yaml.entryLine 0 "version".toList (d.versionText ++ ['\n']) ++
      (d.presetText ++ d.overridesText) := by
  have hversion : Yaml.entryLine 0 "version".toList (d.versionText ++ ['\n']) =
      "version: ".toList ++ d.versionText ++ ['\n'] := (List.append_assoc _ _ _).symm
  have hoverrides : d.overridesText = (match d.overrides with
      | none => []
      | some o =>
        match o.lines with
        | [] => ["overrides: \x7b\x7d\n".toList]
        | lines => "overrides:\n".toList :: lines).flatten := by
    unfold overridesText
    split
    · rfl
    · split <;> simp
  rw [lines, List.flatten_append, List.flatten_cons, hversion, hoverrides, List.append_assoc]
  rfl

end Document

/-! ## The tokens of its lines -/

section Tokens

open Yaml

variable (tokens : List Token.Written) {p : Place} {rest : List Char}

theorem fitsPlain_bool (b : Bool) : fitsPlain (if b then "true" else "false").toList = true := by
  cases b <;> decide

theorem fitsPlain_versionText (d : Document) : fitsPlain d.versionText = true := by
  unfold Document.versionText
  cases d.version with
  | none => decide
  | some v => exact fitsPlain_toDigits _

theorem versionText_ne_nil (d : Document) : d.versionText ≠ [] := by
  unfold Document.versionText
  cases d.version with
  | none => decide
  | some v => exact Nat.toDigits_ne_nil

theorem isPlainEntry_of_mem_texts {o : Overrides} {e : List Char × List Char} (he : e ∈ o.texts) :
    IsPlainEntry e := by
  rcases List.mem_append.mp he with he | he
  · obtain ⟨n, -, rfl⟩ := Option.map_eq_some_iff.mp (Option.mem_toList.mp he)
    exact ⟨rfl, Nat.toDigits_ne_nil, fitsPlain_toDigits _⟩
  · obtain ⟨b, -, rfl⟩ := Option.map_eq_some_iff.mp (Option.mem_toList.mp he)
    exact ⟨rfl, by cases b <;> decide, fitsPlain_bool b⟩

theorem lines_eq_nil_iff (o : Overrides) : o.lines = [] ↔ o.entries = [] := by
  obtain ⟨limit, breakdown⟩ := o
  cases limit <;> cases breakdown <;> simp [Overrides.lines, Overrides.entries]

/-- **Overrides** with a field are read as a mapping, at the end of a document. -/
theorem tokensFrom_overrides (o : Overrides) (hne : o.lines ≠ []) (hp : p.column = 0) :
    tokensFrom (.between tokens [0] true) p o.lines.flatten =
      some (tokens ++ blockTokens (fun s => [s.token]) o.entries ++ [.mark .blockEnd]) := by
  have htexts : o.texts ≠ [] := fun h => hne (by simpa [lines_eq_nil_iff, o.entries_eq] using h)
  rw [o.lines_flatten, tokensFrom_plainLines tokens htexts (fun _ => isPlainEntry_of_mem_texts) hp
    (by simp), ← o.entries_eq]
  simp [blockTokens, Layout.opening, Layout.opened, List.replicate]

theorem beginsWord_presetText (d : Document) (hrest : BeginsWord rest) :
    BeginsWord (d.presetText ++ rest) := by
  unfold Document.presetText
  cases d.preset with
  | none => exact hrest
  | some s => exact .cons (c := 'p') rfl _

theorem beginsWord_overridesText (d : Document) : BeginsWord d.overridesText := by
  unfold Document.overridesText
  split
  · exact .nil
  · split
    · exact .cons (c := 'o') rfl _
    · exact .cons (c := 'o') rfl _

/-- **The preset** of a document is read as its entry. -/
theorem tokensFrom_presetText (d : Document) (hp : p.column = 0) (hrest : BeginsWord rest) :
    ∃ q : Place, q.column = 0 ∧
      tokensFrom (.between tokens [0] true) p (d.presetText ++ rest) =
        tokensFrom (.between
          (tokens ++ d.presetEntries.flatMap fun e => entryTokens e.1 e.2.tokens) [0] true)
          q rest := by
  unfold Document.presetText Document.presetEntries
  cases d.preset with
  | none => exact ⟨p, hp, by simp⟩
  | some s =>
    have hline := tokensFrom_textLine tokens s (by decide : isKey "preset".toList = true) hp hrest
    have hcolumn : (p.after (entryLine 0 "preset".toList (printText s))).column = 0 := by
      rw [entryLine, Place.after_append]
      exact column_after_printStyled _ _ _
    refine ⟨_, hcolumn, ?_⟩
    rw [String.ofList_toList] at hline
    simpa [entryLine, Value.tokens] using hline

/-- **The overrides** of a document are read as their entry, and the document ends. -/
theorem tokensFrom_overridesText (d : Document) (hp : p.column = 0) :
    tokensFrom (.between tokens [0] true) p d.overridesText =
      some (tokens ++ (d.overridesEntries.flatMap fun e => entryTokens e.1 e.2.tokens) ++
        [.mark .blockEnd]) := by
  have hkey : isKey "overrides".toList = true := by decide
  unfold Document.overridesText Document.overridesEntries
  cases d.overrides with
  | none => simpa using tokensFrom_between_nil tokens [0] true p
  | some o =>
    dsimp only
    split
    · rename_i hnil
      have hline := tokensFrom_bracesLine tokens [] hkey hp
      rw [tokensFrom_between_nil, String.ofList_toList] at hline
      simpa [entryLine, (lines_eq_nil_iff o).mp hnil] using hline
    · rename_i hlines
      have hne : o.entries ≠ [] := fun h => hlines ((lines_eq_nil_iff o).mpr h)
      have htokens : (entryTokens (.plain "overrides") (Value.mapping o.entries).tokens :
          List Token.Written) =
          entryTokens (.plain "overrides") [] ++ blockTokens (fun s => [s.token]) o.entries := by
        obtain ⟨e, entries, hentries⟩ := List.exists_cons_of_ne_nil hne
        rw [hentries]
        rfl
      have hcolumn : (p.after ("overrides".toList ++ [':', '\n'])).column = 0 :=
        Place.after_lineFeed p ("overrides".toList ++ [':'])
      have hline := tokensFrom_keyLine tokens o.lines.flatten hkey hp
      rw [tokensFrom_overrides _ o hlines hcolumn, String.ofList_toList] at hline
      simpa [htokens] using hline

/-- **The tokens of a document** are those of its entries. -/
theorem tokens?_lines (d : Document) :
    tokens? d.lines.flatten = some (blockTokens Value.tokens d.entries) := by
  have hrest := beginsWord_presetText d (beginsWord_overridesText d)
  have hcolumn := column_after_entryLine ⟨0, 0⟩ 0 "version".toList d.versionText
  have hversion := tokensFrom_plainLine [] (by decide : isKey "version".toList = true)
    (versionText_ne_nil d) (fitsPlain_versionText d) (show (Place.mk 0 0).column = 0 from rfl)
    (show ∀ b ∈ [].head?, b ≤ 0 by simp) hrest (Nat.le_refl 0)
  obtain ⟨q, hq, hpreset⟩ := tokensFrom_presetText
    ([] ++ Layout.opening [] 0 ++ entryTokens (.plain (String.ofList "version".toList))
      [(Scalar.plain (String.ofList d.versionText)).token])
    d hcolumn (beginsWord_overridesText d)
  rw [d.lines_flatten]
  refine (hversion.trans hpreset).trans ?_
  rw [tokensFrom_overridesText _ d hq]
  simp [Layout.opening, Document.entries, blockTokens, Value.tokens]

end Tokens

/-! ## Their characters -/

section Characters

open Yaml

theorem isShown_of_mem_overridesLines (o : Overrides) :
    ∀ c ∈ o.lines.flatten, isShown c = true := by
  intro c hc
  rw [o.lines_flatten] at hc
  obtain ⟨e, he, hc⟩ := List.mem_flatMap.mp hc
  exact isShown_of_mem_plainLine (isPlainEntry_of_mem_texts he) 2 c hc

/-- A document is written in characters that can be shown. -/
theorem isShown_of_mem_lines (d : Document) : ∀ c ∈ d.lines.flatten, isShown c = true := by
  have hversion : ∀ c ∈ entryLine 0 "version".toList (d.versionText ++ ['\n']), isShown c = true :=
    isShown_of_mem_plainLine (e := ("version".toList, d.versionText))
      ⟨rfl, versionText_ne_nil d, fitsPlain_versionText d⟩ 0
  have hpreset : ∀ c ∈ d.presetText, isShown c = true := by
    intro c hc
    obtain ⟨line, hline, hc⟩ := List.mem_flatten.mp hc
    obtain ⟨s, -, rfl⟩ := Option.map_eq_some_iff.mp (Option.mem_toList.mp hline)
    rcases List.mem_append.mp hc with hc | hc
    · exact List.all_eq_true.mp (show "preset: ".toList.all isShown = true from rfl) c hc
    · exact isShown_of_mem_printText s c hc
  have hoverrides : ∀ c ∈ d.overridesText, isShown c = true := by
    unfold Document.overridesText
    split
    · exact List.forall_mem_nil _
    · split
      · exact List.all_eq_true.mp rfl
      · exact List.forall_mem_append.mpr
          ⟨List.all_eq_true.mp rfl, isShown_of_mem_overridesLines _⟩
  rw [d.lines_flatten]
  exact List.forall_mem_append.mpr ⟨hversion, List.forall_mem_append.mpr ⟨hpreset, hoverrides⟩⟩

end Characters

end TensorCost
