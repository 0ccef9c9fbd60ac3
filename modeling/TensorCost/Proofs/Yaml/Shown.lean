import TensorCost.Proofs.Yaml.Plain

/-!
# Printed texts can stand in a document

Whatever a text holds, in its printed form there are only characters that can be shown as they are.

Results:
* `isAllowed_of_isShown`, `unifyBreaks_of_isShown`: a reader takes such characters as they are.
* `isShown_of_mem_printText`: a printed text consists of such characters.
-/

namespace TensorCost.Yaml

/-! ## What is shown -/

theorem isAllowed_of_isShown {c : Char} (h : isShown c = true) : isAllowed c = true := by
  simp only [isShown, isAllowed, Bool.or_eq_true, Bool.and_eq_true, decide_eq_true_eq] at h ⊢
  tauto

/-- No line end that can be shown is changed. -/
theorem unifyBreaks_of_isShown {s : List Char} (h : ∀ c ∈ s, isShown c = true) :
    unifyBreaks s = s := by
  induction s with
  | nil => rfl
  | cons c s ih =>
    have hc := h c List.mem_cons_self
    have hreturn : c ≠ '\r' := by
      rintro rfl
      exact absurd hc (by decide)
    have hnext : c ≠ '\u0085' := by
      rintro rfl
      exact absurd hc (by decide)
    have hs := ih fun d hd => h d (List.mem_cons_of_mem _ hd)
    rw [unifyBreaks]
    · simp [hreturn, hnext, hs]
    · exact fun _ h => absurd h hreturn

/-! ## What is printed -/

theorem isShown_of_mem_hexDigits {width n : Nat} {c : Char} (h : c ∈ hexDigits width n) :
    isShown c = true := by
  have hdigit : ∀ d < 16, isShown (Nat.digitChar d).toUpper = true := by decide
  rcases List.mem_append.mp h with hc | hc
  · rw [List.eq_of_mem_replicate hc]
    rfl
  · obtain ⟨_, hmem, rfl⟩ := List.mem_map.mp hc
    obtain ⟨d, hd, rfl⟩ := exists_digitChar_of_mem_toDigits (by decide) hmem
    exact hdigit d hd

theorem isShown_of_mem_escape (c : Char) : ∀ d ∈ escape c, isShown d = true := by
  have hnumber (l : Char) (hl : isShown l = true) (width : Nat) :
      ∀ d ∈ '\\' :: l :: hexDigits width c.toNat, isShown d = true :=
    List.forall_mem_cons.mpr ⟨rfl, List.forall_mem_cons.mpr ⟨hl, fun _ => isShown_of_mem_hexDigits⟩⟩
  unfold escape
  split
  iterate 14 exact List.all_eq_true.mp rfl
  split
  · rename_i hshown
    exact List.forall_mem_singleton.mpr hshown
  · split
    · exact hnumber 'x' rfl 2
    · split
      · exact hnumber 'u' rfl 4
      · exact hnumber 'U' rfl 8

theorem isShown_of_mem_indent (lineStart : Bool) :
    ∀ c ∈ (if lineStart then indentation else []), isShown c = true := by
  cases lineStart <;> exact List.all_eq_true.mp rfl

theorem isShown_of_mem_printQuoted {s : List Char} (hs : ∀ c ∈ s, isShown c = true)
    (lineStart : Bool) : ∀ c ∈ printQuoted lineStart s, isShown c = true := by
  induction s generalizing lineStart with
  | nil => cases lineStart <;> exact List.all_eq_true.mp rfl
  | cons c s ih =>
    obtain ⟨hc, hs⟩ := List.forall_mem_cons.mp hs
    rw [printQuoted]
    split
    · exact List.forall_mem_cons.mpr ⟨hc, ih hs true⟩
    · refine List.forall_mem_append.mpr ⟨List.forall_mem_append.mpr ⟨?_, ?_⟩, ih hs false⟩
      · exact isShown_of_mem_indent lineStart
      · split
        · exact List.all_eq_true.mp rfl
        · exact List.forall_mem_singleton.mpr hc

theorem isShown_of_mem_printBlock {s : List Char} (hs : ∀ c ∈ s, isShown c = true)
    (lineStart : Bool) : ∀ c ∈ printBlock lineStart s, isShown c = true := by
  induction s generalizing lineStart with
  | nil => cases lineStart <;> exact List.all_eq_true.mp rfl
  | cons c s ih =>
    obtain ⟨hc, hs⟩ := List.forall_mem_cons.mp hs
    rw [printBlock]
    split
    · exact List.forall_mem_cons.mpr ⟨hc, ih hs true⟩
    · exact List.forall_mem_append.mpr
        ⟨isShown_of_mem_indent lineStart, List.forall_mem_cons.mpr ⟨hc, ih hs false⟩⟩

theorem isShown_of_mem_blockHeader (s : List Char) : ∀ c ∈ blockHeader s, isShown c = true := by
  unfold blockHeader
  dsimp only
  split <;> split <;> try split
  all_goals exact List.all_eq_true.mp rfl

/-- **A printed text** holds nothing that has to be escaped. -/
theorem isShown_of_mem_printText (s : String) : ∀ c ∈ printText s, isShown c = true := by
  have hdouble : ∀ c ∈ printStyled s.toList .doubleQuoted, isShown c = true := by
    refine List.forall_mem_append.mpr
      ⟨List.forall_mem_cons.mpr ⟨rfl, fun c hc => ?_⟩, List.all_eq_true.mp rfl⟩
    obtain ⟨d, -, hd⟩ := List.mem_flatMap.mp hc
    exact isShown_of_mem_escape d c hd
  unfold printText style
  dsimp only
  split
  · split
    · rename_i hfits
      simp only [fitsBlock, Bool.and_eq_true, List.all_eq_true] at hfits
      exact List.forall_mem_append.mpr
        ⟨isShown_of_mem_blockHeader _, isShown_of_mem_printBlock hfits.1.1 true⟩
    · exact hdouble
  · split
    · rename_i hfits
      have hshown := (of_fitsPlain (Bool.and_eq_true_iff.mp hfits).2).1
      exact List.forall_mem_append.mpr ⟨fun c hc => (hshown c hc).1, List.all_eq_true.mp rfl⟩
    · split
      · rename_i hfits
        simp only [fitsQuotes, Bool.and_eq_true, List.all_eq_true] at hfits
        exact List.forall_mem_append.mpr
          ⟨List.forall_mem_cons.mpr ⟨rfl, isShown_of_mem_printQuoted hfits.1.1 false⟩,
            List.all_eq_true.mp rfl⟩
      · exact hdouble

end TensorCost.Yaml
