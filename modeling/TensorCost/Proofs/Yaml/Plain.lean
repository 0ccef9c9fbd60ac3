import Mathlib.Data.List.Basic
import TensorCost.Proofs.Numerals
import TensorCost.Yaml.Printer
import TensorCost.Yaml.Scalar

/-!
# Plain scalars read back

A scalar without quotes is read to the end of its line if none of its characters means something
else, and no blank begins or ends it.

* `Yaml.BeginsWord` says of what follows a line that it is over or begins with a letter, in which
  case the line is no part of a scalar that goes on.

Results:
* `readPlain_append`: a scalar that `fitsPlain` is read, with the indentation of the next line.
* `startsPlain_of_fitsPlain`: it is taken for a plain scalar.
* `fitsPlain_of_alphanum`: letters and digits can be written plain.
* `natural?_toDigits`: the digits of a count read as this count.
-/

namespace TensorCost.Yaml

/-! ## Characters and gaps -/

/-- A text that is over, or goes on with a word. -/
def BeginsWord (s : List Char) : Prop := ∀ c ∈ s.head?, c.isAlpha = true

theorem BeginsWord.nil : BeginsWord [] := fun _ hc => absurd hc (Option.not_mem_none _)

theorem BeginsWord.cons {c : Char} (hc : c.isAlpha = true) (s : List Char) : BeginsWord (c :: s) :=
  fun _ hd => Option.mem_some.mp hd ▸ hc

/-- The characters that mean something else than themselves somewhere in a document. -/
def signs : List Char :=
  ['#', ',', '[', ']', '\x7b', '\x7d', '&', '*', '!', '|', '>', '\'', '"', '%', '@', '\x60', '?',
    ':', '-', '.']

/-- Letters and digits can be shown, and mean nothing else. -/
theorem isShown_of_isAlphanum {c : Char} (h : c.isAlphanum = true) :
    isShown c = true ∧ isBlank c = false ∧ isBreak c = false ∧ c ∉ signs := by
  have hall : ∀ n < 128, (Char.ofNat n).isAlphanum = true →
      isShown (Char.ofNat n) = true ∧ isBlank (Char.ofNat n) = false ∧
        isBreak (Char.ofNat n) = false ∧ Char.ofNat n ∉ signs := by
    decide +kernel
  simpa only [Char.ofNat_toNat] using
    hall c.toNat (toNat_lt_of_isAlphanum h) (by simpa only [Char.ofNat_toNat] using h)

/-- Of the characters that can be shown, only the space separates words. -/
theorem eq_space_of_isBlank {c : Char} (hshown : isShown c = true) (hblank : isBlank c = true) :
    c = ' ' := by
  simp only [isBlank, Bool.or_eq_true, beq_iff_eq] at hblank
  rcases hblank with rfl | rfl
  · rfl
  · exact absurd hshown (by decide)

/-- Spaces are no line breaks. -/
theorem isBreak_of_mem_replicate {k : Nat} {c : Char} (h : c ∈ List.replicate k ' ') :
    isBreak c = false := by
  rw [List.eq_of_mem_replicate h]
  rfl

theorem columnAfter_newLine (k : Nat) : columnAfter ('\n' :: List.replicate k ' ') = k := by
  have hspaces : ∀ c ∈ List.replicate k ' ', (!isBreak c) = true := fun c hc => by
    rw [isBreak_of_mem_replicate hc]
    rfl
  have hbreak : ∀ c ∈ ['\n'].head?, (!isBreak c) = false := by
    rintro _ ⟨⟩
    rfl
  rw [columnAfter, List.reverse_cons, List.reverse_replicate,
    (takeWhile_append_of_all hspaces hbreak).1, List.length_replicate]

theorem foldGap_of_no_break {gap : List Char} (h : ∀ c ∈ gap, isBreak c = false) :
    foldGap gap = gap := by
  have hnone : gap.filter isBreak = [] := List.filter_eq_nil_iff.mpr fun c hc => by simp [h c hc]
  rw [foldGap, hnone]

theorem foldGap_replicate (k : Nat) : foldGap (List.replicate k ' ') = List.replicate k ' ' :=
  foldGap_of_no_break fun _ => isBreak_of_mem_replicate

/-! ## Scalars without quotes -/

theorem isCut_of_append {s rest : List Char} (h : isCut (s ++ rest) = false) :
    isCut rest = false := by
  induction s with
  | nil => exact h
  | cons c s ih =>
    refine ih ?_
    rw [List.cons_append] at h
    by_cases hc : c = ':'
    · rw [hc, isCut] at h
      exact (Bool.or_eq_false_iff.mp h).2
    · rw [isCut] at h
      · exact (Bool.or_eq_false_iff.mp h).2
      · exact hc

/-- No number sign follows a blank where nothing is cut off. -/
theorem ne_sign_of_isCut {c : Char} {s : List Char} (h : isCut (' ' :: c :: s) = false) :
    c ≠ '#' := by
  rintro rfl
  simp [isCut, isBlank] at h

/-- No colon ends a word where nothing is cut off. -/
theorem not_gap_of_isCut {s : List Char} (h : isCut (':' :: s) = false) : isGapOrEnd s = false :=
  (Bool.or_eq_false_iff.mp h).1

theorem isGapOrEnd_append {s rest : List Char} (h : isGapOrEnd s = false) :
    isGapOrEnd (s ++ rest) = false := by
  cases s with
  | nil => exact absurd h (by decide)
  | cons c s => exact h

/-- The indentation of the next line is taken with a plain scalar that ends before it. -/
theorem readPlain_newLine {indent : Nat} {r : List Char} (hr : BeginsWord r) (j k : Nat)
    (hk : j + k < indent) :
    readPlain false indent ('\n' :: List.replicate j ' ') (List.replicate k ' ' ++ r) =
      some ⟨[], '\n' :: List.replicate (j + k) ' ', r⟩ := by
  induction k generalizing j with
  | zero =>
    cases r with
    | nil => rfl
    | cons c r =>
      obtain ⟨-, hblank, hbreak, -⟩ := isShown_of_isAlphanum (isAlphanum_of_isAlpha (hr c rfl))
      have hcolumn : columnAfter ('\n' :: List.replicate j ' ') < indent := by
        rw [columnAfter_newLine]
        exact hk
      have hends : endsPlain false indent ('\n' :: List.replicate j ' ') c r = true := by
        simp [endsPlain, isBreak, hcolumn]
      simp [readPlain, hblank, hbreak, hends]
  | succ k ih =>
    have hstep := ih (j + 1) (by omega)
    rw [List.replicate_succ, List.cons_append, readPlain, if_pos (by decide), if_neg (by simp),
      List.cons_append, ← List.replicate_succ', hstep, Nat.add_right_comm, Nat.add_assoc]

/-- **A plain scalar** is read to the end of its line. -/
theorem readPlain_append {indent k : Nat} {r : List Char} (hr : BeginsWord r) (hk : k < indent)
    (s : List Char) (j : Nat) (hshown : ∀ c ∈ s, isShown c = true ∧ isBreak c = false)
    (hcut : isCut (List.replicate j ' ' ++ s) = false)
    (hlast : (List.replicate j ' ' ++ s).getLast? ≠ some ' ') :
    readPlain false indent (List.replicate j ' ') (s ++ '\n' :: (List.replicate k ' ' ++ r)) =
      some ⟨List.replicate j ' ' ++ s, '\n' :: List.replicate k ' ', r⟩ := by
  induction s generalizing j with
  | nil =>
    -- a gap before the end would be a blank that ends the text
    obtain rfl : j = 0 := by
      by_contra hj
      obtain ⟨j, rfl⟩ := Nat.exists_eq_succ_of_ne_zero hj
      exact hlast (by simp [List.replicate_succ'])
    have hstep := readPlain_newLine hr 0 k (Nat.zero_add k ▸ hk)
    rw [Nat.zero_add] at hstep
    simpa [readPlain, isBlank, isBreak] using hstep
  | cons c s ih =>
    have hc := hshown c List.mem_cons_self
    have hs : ∀ d ∈ s, isShown d = true ∧ isBreak d = false :=
      fun d hd => hshown d (List.mem_cons_of_mem _ hd)
    by_cases hblank : isBlank c = true
    · -- spaces are kept back until a character shows that they belong to the scalar
      obtain rfl := eq_space_of_isBlank hc.1 hblank
      have hjoin : List.replicate j ' ' ++ ' ' :: s = List.replicate (j + 1) ' ' ++ s := by
        rw [List.replicate_succ', List.append_assoc]
        rfl
      rw [hjoin] at hcut hlast ⊢
      rw [List.cons_append, readPlain, if_pos (by decide), if_neg (by simp),
        ← List.replicate_succ', ih (j + 1) hs hcut hlast]
    · have hends : endsPlain false indent (List.replicate j ' ') c
          (s ++ '\n' :: (List.replicate k ' ' ++ r)) = false := by
        have hbreaks : (List.replicate j ' ').any isBreak = false :=
          List.any_eq_false.mpr fun d hd => by simp [isBreak_of_mem_replicate hd]
        have hsign : c = '#' → j = 0 := fun hc' => by
          cases j with
          | zero => rfl
          | succ j =>
            rw [List.replicate_succ', List.append_assoc] at hcut
            exact absurd hc' (ne_sign_of_isCut (isCut_of_append hcut))
        have hcolon :
            (c == ':' && isGapOrEnd (s ++ '\n' :: (List.replicate k ' ' ++ r))) = false := by
          by_cases hc' : c = ':'
          · subst hc'
            simp [isGapOrEnd_append (not_gap_of_isCut (isCut_of_append hcut))]
          · simp [hc']
        simpa [endsPlain, hbreaks, hcolon] using hsign
      have hcut' : isCut s = false :=
        isCut_of_append (s := List.replicate j ' ' ++ [c]) (by simpa using hcut)
      have hlast' : s.getLast? ≠ some ' ' := by
        cases s with
        | nil => simp
        | cons d s => simpa [List.getLast?_append, List.getLast?_cons] using hlast
      have hstep := ih 0 hs (by simpa using hcut') (by simpa using hlast')
      rw [List.replicate_zero, List.nil_append] at hstep
      rw [List.cons_append, readPlain, if_neg (by simp [hblank, hc.2]), hends, if_neg (by simp),
        if_neg (by simp), hstep, Option.map_some, foldGap_replicate]

theorem of_fitsPlain {s : List Char} (h : fitsPlain s = true) :
    (∀ c ∈ s, isShown c = true ∧ isBreak c = false) ∧ s.head? ≠ some ' ' ∧
      s.getLast? ≠ some ' ' ∧ isCut s = false := by
  simp only [fitsPlain, hasBareEdge, isMarked, Bool.and_eq_true, Bool.not_eq_true',
    Bool.or_eq_false_iff, List.all_eq_true, beq_eq_false_iff_ne] at h
  obtain ⟨⟨hshown, hhead, hlast⟩, -, hcut⟩ := h
  exact ⟨hshown, hhead, hlast, hcut⟩

theorem isBlank_of_fitsPlain {c : Char} {s : List Char} (h : fitsPlain (c :: s) = true) :
    isBlank c = false := by
  obtain ⟨hshown, hhead, -, -⟩ := of_fitsPlain h
  by_contra hblank
  have hspace := eq_space_of_isBlank (hshown c List.mem_cons_self).1 (Bool.not_eq_false _ ▸ hblank)
  exact hhead (congrArg some hspace)

/-- The characters after the first one of a plain scalar, up to the next line. -/
theorem readPlain_of_fitsPlain {indent k : Nat} {c : Char} {s rest : List Char}
    (h : fitsPlain (c :: s) = true) (hrest : BeginsWord rest) (hk : k < indent) :
    readPlain false indent [] (s ++ '\n' :: (List.replicate k ' ' ++ rest)) =
      some ⟨s, '\n' :: List.replicate k ' ', rest⟩ := by
  obtain ⟨hshown, -, hlast, hcut⟩ := of_fitsPlain h
  refine readPlain_append hrest hk s 0 (fun d hd => hshown d (List.mem_cons_of_mem _ hd))
    (isCut_of_append (s := [c]) hcut) ?_
  cases s with
  | nil => simp
  | cons d s => simpa [List.getLast?_cons] using hlast

/-- What can be written plain begins a plain scalar, whatever follows. -/
theorem startsPlain_of_fitsPlain {s : List Char} (hne : s ≠ []) (h : fitsPlain s = true)
    (rest : List Char) : startsPlain false (s ++ rest) = true := by
  obtain ⟨c, s, rfl⟩ := List.exists_cons_of_ne_nil hne
  have hblank : isBlank c = false := isBlank_of_fitsPlain h
  simp only [fitsPlain, isMarked, Bool.and_eq_true, Bool.not_eq_true', Bool.or_eq_false_iff,
    List.all_cons, List.head?_cons, Option.any_some, List.tail_cons] at h
  obtain ⟨⟨⟨⟨-, hbreak⟩, -⟩, -⟩, ⟨⟨-, hindicator⟩, hgap⟩, -⟩ := h
  have hmore (hc : isBlankIndicator c = true) : isGapOrEnd (s ++ rest) = false :=
    isGapOrEnd_append (by simpa [hc] using hgap)
  simp only [isIndicator, List.mem_cons, List.not_mem_nil, or_false, decide_eq_false_iff_not,
    not_or] at hindicator
  rw [List.cons_append, startsPlain]
  split
  · rename_i hc
    simp [hmore (by simp [isBlankIndicator, beq_iff_eq.mp hc])]
  · split
    · rename_i hc
      rcases Bool.or_eq_true_iff.mp hc with hc | hc <;>
        simp [hmore (by simp [isBlankIndicator, beq_iff_eq.mp hc])]
    · simp [hblank, hbreak, hindicator]

theorem isCut_of_no_sign {s : List Char} (h : ∀ c ∈ s, c ≠ ':' ∧ c ≠ '#') : isCut s = false := by
  induction s with
  | nil => rfl
  | cons c s ih =>
    obtain ⟨hcolon, -⟩ := h c List.mem_cons_self
    have hs := ih fun d hd => h d (List.mem_cons_of_mem _ hd)
    have hhead : (s.head? == some '#') = false := by
      cases s with
      | nil => rfl
      | cons d s => simpa using (h d (by simp)).2
    rw [isCut, hhead, hs, Bool.and_false, Bool.or_false]
    exact hcolon

/-- **A word** of letters and digits can be written plain. -/
theorem fitsPlain_of_alphanum {s : List Char} (h : ∀ c ∈ s, c.isAlphanum = true) :
    fitsPlain s = true := by
  have hword := fun c hc => isShown_of_isAlphanum (h c hc)
  have hshown : s.all (fun c => isShown c && !isBreak c) = true :=
    List.all_eq_true.mpr fun c hc => by simp [hword c hc]
  have hcut : isCut s = false := isCut_of_no_sign fun c hc =>
    ⟨fun h => (hword c hc).2.2.2 (h ▸ by decide), fun h => (hword c hc).2.2.2 (h ▸ by decide)⟩
  have hlast : s.getLast? ≠ some ' ' := fun hl => by
    have := (hword ' ' (List.mem_of_getLast? hl)).2.1
    exact absurd this (by decide)
  cases s with
  | nil => rfl
  | cons c s =>
    obtain ⟨-, hblank, -, hsign⟩ := hword c List.mem_cons_self
    have hspace : c ≠ ' ' := fun h => by
      rw [h] at hblank
      exact absurd hblank (by decide)
    have hindicator : isIndicator c = false ∧ isBlankIndicator c = false := by
      simp only [signs, List.mem_cons, not_or] at hsign
      simp [isIndicator, isBlankIndicator, hsign]
    have hdot : '.' ≠ c := fun h => hsign (h ▸ by decide)
    have hdash : '-' ≠ c := fun h => hsign (h ▸ by decide)
    simp [fitsPlain, hshown, hasBareEdge, isMarked, hcut, hindicator, hlast, hspace,
      List.isPrefixOf, hdot, hdash]

/-! ## Numbers -/

theorem fitsPlain_toDigits (n : Nat) : fitsPlain (Nat.toDigits 10 n) = true :=
  fitsPlain_of_alphanum fun _ hc => isAlphanum_of_isDigit (isDigit_of_mem_toDigits hc)

theorem isPadded_toDigits (n : Nat) : isPadded (Nat.toDigits 10 n) = false := by
  obtain ⟨c, cs, hcs⟩ := List.exists_cons_of_ne_nil (Nat.toDigits_ne_nil (b := 10) (n := n))
  have hc : c.isDigit = true := isDigit_of_mem_toDigits (hcs ▸ List.mem_cons_self)
  by_cases hzero : n = 0
  · rw [hzero]
    rfl
  · have hhead : c ≠ '0' := fun h => hzero ((head?_toDigits_eq_zero_iff n).mp (by rw [hcs, h]; rfl))
    have hplus : c ≠ '+' := by
      rintro rfl
      exact absurd hc (by decide)
    have hminus : c ≠ '-' := by
      rintro rfl
      exact absurd hc (by decide)
    rw [hcs]
    simp [isPadded, hhead, hplus, hminus]

/-- The mark of a base is no digit. -/
theorem radixDigits?_of_digits {s : List Char} (h : ∀ c ∈ s, c.isDigit = true) :
    radixDigits? s = none := by
  unfold radixDigits?
  split
  · exact absurd (h 'x' (by simp)) (by decide)
  · exact absurd (h 'o' (by simp)) (by decide)
  · exact absurd (h 'b' (by simp)) (by decide)
  · rfl

theorem dropPlus_of_digits {s : List Char} (h : ∀ c ∈ s, c.isDigit = true) : dropPlus s = s := by
  unfold dropPlus
  split
  · exact absurd (h '+' List.mem_cons_self) (by decide)
  · rfl

/-- **A count** reads back from its digits. -/
theorem natural?_toDigits (n : Nat) : natural? (Nat.toDigits 10 n) = some n := by
  have hall : ∀ c ∈ Nat.toDigits 10 n, c.isDigit = true := fun _ => isDigit_of_mem_toDigits
  have hdigits : digits? 10 (Nat.toDigits 10 n) = some n := by
    have hread := foldlM_toDigits (show 1 < 10 by decide)
      (f := fun n c => do
        let d ← Json.hexValue? c
        if d < 10 then some (10 * n + d) else none)
      (fun m d hd => by simp [hexValue?_digitChar d (by omega), hd]) n
    rw [digits?, if_neg (by simp [Nat.toDigits_ne_nil]), hread]
  rw [natural?, dropPlus_of_digits hall, radixDigits?_of_digits hall, isPadded_toDigits, hdigits]
  rfl

end TensorCost.Yaml
