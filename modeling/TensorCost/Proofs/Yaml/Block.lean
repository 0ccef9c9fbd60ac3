import Mathlib.Data.List.Induction
import TensorCost.Proofs.Yaml.Plain
import TensorCost.Yaml.Block

/-!
# Scalars in blocks of lines read back

* `Yaml.BlockHeader.ofText` is what the header of a printed block says.

Results:
* `unindent_printBlock`: the lines of a block are read without their indentation.
* `dropBreaks_append_apply`: the header says which of the line breaks at the end belong to the text.
* `readBlock_printBlock`: a text that can be shown is read from a block in a mapping at the margin.
-/

namespace TensorCost.Yaml

/-! ## The lines of a block -/

theorem isBreak_getLast?_cons (c : Char) (s : List Char) (b : Bool) :
    (c :: s).getLast?.elim b isBreak = s.getLast?.elim (isBreak c) isBreak := by
  cases s with
  | nil => rfl
  | cons d s => rw [List.getLast?_cons_cons, List.getLast?_cons]; rfl

/-- The lines of a block are read up to a line that is not indented, and lose their indentation. The
induction is on what is left of the text; `lineStart` tells whether a line begins here. -/
theorem unindent_printBlock {rest : List Char} (hrest : BeginsWord rest) (s : List Char)
    (lineStart : Bool) :
    unindent 2 (if lineStart then 0 else 2) (printBlock lineStart s ++ rest) =
      some (s ++ if s.getLast?.elim lineStart isBreak then [] else ['\n'], rest) := by
  have hend : unindent 2 0 rest = some ([], rest) := by
    cases rest with
    | nil => rfl
    | cons c rest =>
      obtain ⟨-, hblank, hbreak, -⟩ := isShown_of_isAlphanum (isAlphanum_of_isAlpha (hrest c rfl))
      simp only [isBlank, Bool.or_eq_false_iff] at hblank
      simp [unindent, hbreak, hblank]
  induction s generalizing lineStart with
  | nil =>
    cases lineStart with
    | true => exact hend
    | false => simp [printBlock, unindent, isBreak, hend]
  | cons c s ih =>
    rw [isBreak_getLast?_cons, printBlock]
    by_cases hbreak : isBreak c = true
    · have hstep := ih true
      rw [if_pos rfl] at hstep
      rw [if_pos hbreak, List.cons_append, unindent, if_pos hbreak, hstep, hbreak]
      rfl
    · rw [Bool.not_eq_true] at hbreak
      have hstep := ih false
      rw [if_neg (by decide)] at hstep
      have hchar : unindent 2 2 (c :: (printBlock false s ++ rest)) =
          some (c :: s ++ if s.getLast?.elim (isBreak c) isBreak then [] else ['\n'], rest) := by
        rw [unindent, if_neg (by simp [hbreak]), if_pos (Nat.le_refl _), hstep, hbreak]
        rfl
      rw [if_neg (show ¬ isBreak c = true by simp [hbreak])]
      cases lineStart with
      | true =>
        rw [if_pos rfl, if_pos rfl, List.append_assoc, List.cons_append]
        show unindent 2 0 (' ' :: ' ' :: c :: (printBlock false s ++ rest)) = _
        rw [unindent, if_neg (by decide), if_neg (by decide), if_pos (by decide), unindent,
          if_neg (by decide), if_neg (by decide), if_pos (by decide), hchar]
      | false => exact hchar

/-! ## The line breaks at its end -/

theorem dropBreaks_concat {c : Char} (h : isBreak c = true) (s : List Char) :
    dropBreaks (s ++ [c]) = dropBreaks s := by
  simp [dropBreaks, h]

theorem dropBreaks_eq_self {s : List Char} (h : ∀ c ∈ s.getLast?, isBreak c = false) :
    dropBreaks s = s := by
  induction s using List.reverseRecOn with
  | nil => rfl
  | append_singleton s c => simp [dropBreaks, h c (by simp)]

theorem dropBreaks_append_drop (s : List Char) :
    dropBreaks s ++ s.drop (dropBreaks s).length = s := by
  have hprefix := List.reverse_prefix.mpr (List.dropWhile_suffix isBreak (l := s.reverse))
  rw [List.reverse_reverse] at hprefix
  exact List.prefix_iff_eq_append.mp hprefix

/-! ## Headers -/

/-- What the header of the block of a text says. -/
def BlockHeader.ofText (s : List Char) : BlockHeader where
  ending :=
    if !s.getLast?.any isBreak then .strip
    else if s.dropLast.getLast?.all isBreak then .keep
    else .clip
  depth := if s.head?.any fun c => c == ' ' || isBreak c then some 2 else none

theorem read?_blockHeader (s body : List Char) :
    ∃ signs, blockHeader s = '|' :: signs ∧
      BlockHeader.read? (signs ++ body) = some (.ofText s, body) := by
  refine ⟨_, rfl, ?_⟩
  have hline : endLine? ('\n' :: body) = some body := rfl
  unfold BlockHeader.ofText
  split
  all_goals
    split
    · simp [BlockHeader.read?, Ending.ofChar?, depthOfChar?, hline]
    · split
      · simp [BlockHeader.read?, Ending.ofChar?, depthOfChar?, hline]
      · cases body <;> simp [BlockHeader.read?, Ending.ofChar?, depthOfChar?, hline]

/-- The lines of a block give the text that it was printed for, with the breaks that its header
lets them keep. -/
theorem dropBreaks_append_apply {s : List Char} (hne : s ≠ []) :
    let lines := s ++ if s.getLast?.any isBreak then [] else ['\n']
    dropBreaks lines ++ (BlockHeader.ofText s).ending.apply lines = s := by
  induction s using List.reverseRecOn with
  | nil => exact absurd rfl hne
  | append_singleton s c =>
    simp only [BlockHeader.ofText, List.getLast?_concat, Option.any_some, List.dropLast_concat]
    by_cases hc : isBreak c = true
    · rw [if_pos hc, if_neg (by simp [hc]), List.append_nil]
      by_cases hs : s.getLast?.all isBreak = true
      · rw [if_pos hs]
        exact dropBreaks_append_drop _
      · -- the text before the only break is no break and not empty
        have hlast : ∀ d ∈ s.getLast?, isBreak d = false := fun d hd => by
          rw [hd] at hs
          simpa using hs
        have hempty : s.isEmpty = false := by
          cases s with
          | nil => exact absurd rfl hs
          | cons d s => rfl
        rw [if_neg hs, dropBreaks_concat hc, dropBreaks_eq_self hlast, Ending.apply,
          dropBreaks_concat hc, dropBreaks_eq_self hlast, List.drop_left]
        simp [hempty]
    · rw [Bool.not_eq_true] at hc
      have hlast : ∀ d ∈ (s ++ [c]).getLast?, isBreak d = false := by simpa using hc
      rw [if_neg (by simp [hc]), if_pos (by simp [hc]), dropBreaks_concat (by decide),
        dropBreaks_eq_self hlast]
      exact List.append_nil _

theorem indent?_ofText {s rest : List Char} (hne : s ≠ []) (hshown : ∀ c ∈ s, isShown c = true) :
    (BlockHeader.ofText s).indent? (some 0) (printBlock true s ++ rest) = some 2 := by
  obtain ⟨c, s, rfl⟩ := List.exists_cons_of_ne_nil hne
  have htab : c ≠ '\t' := by
    rintro rfl
    exact absurd (hshown _ List.mem_cons_self) (by decide)
  have hdepth : (BlockHeader.ofText (c :: s)).depth =
      if c == ' ' || isBreak c then some 2 else none := rfl
  rw [BlockHeader.indent?, hdepth]
  by_cases hc : (c == ' ' || isBreak c) = true
  · rw [if_pos hc]
    rfl
  · simp only [Bool.not_eq_true, Bool.or_eq_false_iff, beq_eq_false_iff_ne] at hc
    rw [if_neg (by simp [hc]), printBlock, if_neg (by simp [hc]), if_pos rfl]
    simp [indentation, deepestStart, hc, htab]

/-- **A text in a block of lines** is read with all its line breaks. -/
theorem readBlock_printBlock {s rest : List Char} (hne : s ≠ [])
    (hshown : ∀ c ∈ s, isShown c = true) (hrest : BeginsWord rest) :
    ∃ signs, blockHeader s = '|' :: signs ∧
      readBlock false (some 0) (signs ++ (printBlock true s ++ rest)) = some (s, rest) := by
  obtain ⟨signs, hsigns, hread⟩ := read?_blockHeader s (printBlock true s ++ rest)
  have hlines := unindent_printBlock hrest s true
  have hgetLast : s.getLast?.elim true isBreak = s.getLast?.any isBreak := by
    rw [List.getLast?_eq_some_getLast hne]
    rfl
  rw [if_pos rfl, hgetLast] at hlines
  refine ⟨signs, hsigns, ?_⟩
  simp only [readBlock, hread, indent?_ofText hne hshown, hlines, Option.bind_eq_bind,
    Option.bind_some]
  exact congrArg (fun text => some (text, rest)) (dropBreaks_append_apply hne)

end TensorCost.Yaml
