import TensorCost.Proofs.Yaml.Plain

/-!
# Scalars in quotes read back

* `Yaml.lineIndent` is what is printed between single quotes before the first word of a line.
* `Yaml.GapBefore` says what has been read of a gap between single quotes.
* `Yaml.pieceOf` is the piece that a character between double quotes is read as.

Results:
* `readSingle_printQuoted`: a text that `fitsQuotes` and has no line feed is read from single
  quotes.
* `readDouble_escape`: every text is read from double quotes.
-/

namespace TensorCost.Yaml

/-- Line breaks with a mark of their own are all that is left of a gap that they begin. -/
theorem foldGap_of_marked_breaks {breaks : List Char} (hne : breaks ≠ [])
    (h : ∀ c ∈ breaks, isBreak c = true ∧ c ≠ '\n') : foldGap (breaks ++ indentation) = breaks := by
  have hkeep : (breaks ++ indentation).filter isBreak = breaks := by
    have hnone : indentation.filter isBreak = [] := rfl
    rw [List.filter_append, hnone, List.append_nil, List.filter_eq_self]
    exact fun c hc => (h c hc).1
  obtain ⟨c, breaks, rfl⟩ := List.exists_cons_of_ne_nil hne
  have hmarked : c ≠ '\n' := (h c List.mem_cons_self).2
  rw [foldGap, hkeep]
  split
  · next heq => cases heq
  · next heq => exact absurd (List.cons.inj heq).1 hmarked
  · next heq => exact absurd (List.cons.inj heq).1 hmarked
  · rfl

/-! ## Single quotes -/

/-- The spaces that stand before the first word of a line, if a line begins. -/
def lineIndent (lineStart : Bool) : List Char := if lineStart then indentation else []

section Single

variable (lineStart : Bool) (rest : List Char)

theorem scanSingle_space {c : Char} (h : isBlank c = true ∨ isBreak c = true) :
    scanSingle lineStart (c :: rest) =
      (scanSingle (isBreak c) rest).map fun r => (.space c :: r.1, r.2) := by
  have hquote : c ≠ '\'' := by
    rintro rfl
    exact absurd h (by decide)
  rw [scanSingle]
  · rw [if_pos (Bool.or_eq_true_iff.mpr h)]
    cases scanSingle (isBreak c) rest <;> rfl
  all_goals simp [hquote]

/-- The indentation of a line is part of the gap before its first word. -/
theorem scanSingle_lineIndent :
    scanSingle lineStart (lineIndent lineStart ++ rest) =
      (scanSingle false rest).map fun r => ((lineIndent lineStart).map .space ++ r.1, r.2) := by
  cases lineStart with
  | false => exact Option.map_id'.symm
  | true =>
    have hspace : isBreak ' ' = false := rfl
    show scanSingle true (' ' :: ' ' :: rest) = _
    rw [scanSingle_space _ _ (.inl rfl), hspace, scanSingle_space _ _ (.inl rfl), hspace,
      Option.map_map]
    rfl

theorem scanSingle_end (hrest : rest.head? ≠ some '\'') :
    scanSingle lineStart ('\'' :: rest) = some ([], rest) := by
  rw [scanSingle]
  rintro _ rfl
  exact hrest rfl

/-- A character that is no space reads back, whether it is written once or twice. -/
theorem scanSingle_char {c : Char} (hblank : isBlank c = false) (hbreak : isBreak c = false) :
    scanSingle false ((if c == '\'' then ['\'', '\''] else [c]) ++ rest) =
      (scanSingle false rest).map fun r => (.char c :: r.1, r.2) := by
  split
  · rename_i hc
    obtain rfl := beq_iff_eq.mp hc
    show scanSingle false ('\'' :: '\'' :: rest) = _
    rw [scanSingle]
    cases scanSingle false rest <;> rfl
  · rename_i hc
    rw [beq_iff_eq] at hc
    rw [List.singleton_append, scanSingle]
    · rw [if_neg (by simp [hblank, hbreak]), if_neg (by simp)]
      cases scanSingle false rest <;> rfl
    all_goals simp [hc]

end Single

theorem joinPieces_map_space (gap spaces : List Char) (pieces : List Piece) :
    joinPieces false gap (spaces.map .space ++ pieces) =
      joinPieces false (gap ++ spaces) pieces := by
  induction spaces generalizing gap with
  | nil => rw [List.append_nil]; rfl
  | cons c spaces ih =>
    rw [List.map_cons, List.cons_append, joinPieces, ih, List.append_assoc, List.singleton_append]

/-- Two characters that follow each other are no pair where there is none. -/
theorem not_of_hasPair_cons {first second : Char → Bool} {c : Char} {s : List Char}
    (h : hasPair first second (c :: s) = false) (hc : first c = true) :
    ∀ d ∈ s.head?, second d = false := by
  cases s with
  | nil => simp
  | cons d s =>
    rintro _ ⟨⟩
    simpa [hc] using (Bool.or_eq_false_iff.mp h).1

theorem hasPair_tail {first second : Char → Bool} {c : Char} {s : List Char}
    (h : hasPair first second (c :: s) = false) : hasPair first second s = false := by
  cases s with
  | nil => rfl
  | cons d s => exact (Bool.or_eq_false_iff.mp h).2

/-- A gap that has been read before the text `s`: blanks on a line, or line breaks with marks of
their own. Blanks and line breaks do not meet. -/
inductive GapBefore (s : List Char) : (lineStart : Bool) → (gap : List Char) → Prop
  | blanks {gap : List Char} (hgap : ∀ c ∈ gap, c = ' ')
    (hs : gap ≠ [] → ∀ c ∈ s.head?, isBreak c = false) : GapBefore s false gap
  | breaks {gap : List Char} (hne : gap ≠ []) (hgap : ∀ c ∈ gap, isBreak c = true ∧ c ≠ '\n')
    (hs : ∀ c ∈ s.head?, c ≠ ' ') : GapBefore s true gap

namespace GapBefore

variable {s gap : List Char} {lineStart : Bool}

theorem nil (s : List Char) : GapBefore s false [] :=
  .blanks (fun _ hc => absurd hc List.not_mem_nil) fun h => absurd rfl h

/-- With the indentation of the line, the gap folds to itself. -/
theorem foldGap_eq (h : GapBefore s lineStart gap) :
    foldGap (gap ++ lineIndent lineStart) = gap := by
  cases h with
  | blanks hgap _ =>
    have hnone : ∀ c ∈ gap, isBreak c = false := fun c hc => by
      rw [hgap c hc]
      rfl
    rw [lineIndent, if_neg (by decide), List.append_nil, foldGap_of_no_break hnone]
  | breaks hne hgap _ => exact foldGap_of_marked_breaks hne hgap

/-- A line break goes on with a gap of line breaks. -/
theorem append_break {c : Char} (h : GapBefore (c :: s) lineStart gap) (hbreak : isBreak c = true)
    (hmarked : c ≠ '\n') (hafter : hasPair isBreak (· == ' ') (c :: s) = false) :
    GapBefore s true (gap ++ [c]) := by
  have hgap : ∀ d ∈ gap, isBreak d = true ∧ d ≠ '\n' := by
    cases h with
    | blanks _ hs =>
      intro d hd
      have hnot : isBreak c = false := hs (List.ne_nil_of_mem hd) c rfl
      exact absurd hbreak (hnot ▸ Bool.false_ne_true)
    | breaks _ hgap _ => exact hgap
  refine .breaks (by simp) (fun d hd => ?_) fun d hd => ?_
  · rcases List.mem_append.mp hd with hd | hd
    · exact hgap d hd
    · exact List.mem_singleton.mp hd ▸ ⟨hbreak, hmarked⟩
  · simpa using not_of_hasPair_cons hafter hbreak d hd

/-- A space goes on with a gap of blanks. -/
theorem append_space (h : GapBefore (' ' :: s) lineStart gap)
    (hbefore : hasPair (· == ' ') isBreak (' ' :: s) = false) :
    lineStart = false ∧ GapBefore s false (gap ++ [' ']) := by
  cases h with
  | blanks hgap _ =>
    refine ⟨rfl, .blanks (fun d hd => ?_) fun _ => not_of_hasPair_cons hbefore rfl⟩
    rcases List.mem_append.mp hd with hd | hd
    · exact hgap d hd
    · exact List.mem_singleton.mp hd
  | breaks _ _ hs => exact absurd rfl (hs ' ' rfl)

end GapBefore

/-- **A text in single quotes** is taken apart and joined again. The induction is on what is left of
the text, with the gap that has been read before it. -/
theorem exists_pieces_printQuoted {s rest : List Char} {lineStart : Bool} {gap : List Char}
    (hgap : GapBefore s lineStart gap) (hshown : ∀ c ∈ s, isShown c = true ∧ c ≠ '\n')
    (hbefore : hasPair (· == ' ') isBreak s = false) (hafter : hasPair isBreak (· == ' ') s = false)
    (hrest : rest.head? ≠ some '\'') :
    ∃ pieces, scanSingle lineStart (printQuoted lineStart s ++ rest) = some (pieces, rest) ∧
      joinPieces false gap pieces = gap ++ s := by
  induction s generalizing lineStart gap with
  | nil =>
    have hprint : printQuoted lineStart [] ++ rest = lineIndent lineStart ++ '\'' :: rest := by
      cases lineStart <;> rfl
    refine ⟨(lineIndent lineStart).map .space ++ [], ?_, ?_⟩
    · rw [hprint, scanSingle_lineIndent, scanSingle_end _ rest hrest]
      rfl
    · rw [joinPieces_map_space, joinPieces, quotedGap, if_neg (by decide), hgap.foldGap_eq,
        List.append_nil]
  | cons c s ih =>
    have hc := hshown c List.mem_cons_self
    have hs : ∀ d ∈ s, isShown d = true ∧ d ≠ '\n' :=
      fun d hd => hshown d (List.mem_cons_of_mem _ hd)
    replace ih := fun {b : Bool} {g : List Char} (hg : GapBefore s b g) =>
      ih hg hs (hasPair_tail hbefore) (hasPair_tail hafter)
    by_cases hbreak : isBreak c = true
    · -- a line break goes on with the gap
      obtain ⟨pieces, hscan, hpieces⟩ := ih (hgap.append_break hbreak hc.2 hafter)
      refine ⟨.space c :: pieces, ?_, ?_⟩
      · rw [printQuoted, if_pos hbreak, List.cons_append, scanSingle_space _ _ (.inr hbreak),
          hbreak, hscan]
        rfl
      · rw [joinPieces, hpieces, List.append_assoc, List.singleton_append]
    · rw [Bool.not_eq_true] at hbreak
      have hprint : printQuoted lineStart (c :: s) ++ rest =
          lineIndent lineStart ++
            ((if c == '\'' then ['\'', '\''] else [c]) ++ (printQuoted false s ++ rest)) := by
        rw [printQuoted, if_neg (by simp [hbreak]), List.append_assoc, List.append_assoc]
        rfl
      by_cases hspace : c = ' '
      · -- so does a space
        subst hspace
        obtain ⟨rfl, hnext⟩ := hgap.append_space hbefore
        obtain ⟨pieces, hscan, hpieces⟩ := ih hnext
        refine ⟨.space ' ' :: pieces, ?_, ?_⟩
        · rw [hprint]
          show scanSingle false (' ' :: (printQuoted false s ++ rest)) = _
          rw [scanSingle_space _ _ (.inl rfl), hbreak, hscan]
          rfl
        · rw [joinPieces, hpieces, List.append_assoc, List.singleton_append]
      · -- any other character ends it
        have hblank : isBlank c = false := by
          by_contra hb
          exact hspace (eq_space_of_isBlank hc.1 (Bool.not_eq_false _ ▸ hb))
        obtain ⟨pieces, hscan, hpieces⟩ := ih (.nil s)
        refine ⟨(lineIndent lineStart).map .space ++ .char c :: pieces, ?_, ?_⟩
        · rw [hprint, scanSingle_lineIndent, scanSingle_char _ hblank hbreak, hscan]
          rfl
        · rw [joinPieces_map_space, joinPieces, quotedGap, if_neg (by decide), hgap.foldGap_eq,
            hpieces, List.nil_append]

theorem readSingle_printQuoted {s rest : List Char} (h : fitsQuotes s = true)
    (hbreak : '\n' ∉ s) (hrest : rest.head? ≠ some '\'') :
    readSingle (printQuoted false s ++ rest) = some (s, rest) := by
  simp only [fitsQuotes, Bool.and_eq_true, Bool.not_eq_true', List.all_eq_true,
    hasBlankBeforeBreak] at h
  obtain ⟨⟨hshown, hbefore⟩, hafter⟩ := h
  obtain ⟨pieces, hscan, hjoin⟩ := exists_pieces_printQuoted (.nil s)
    (fun c hc => ⟨hshown c hc, fun h => hbreak (h ▸ hc)⟩) hbefore hafter hrest
  rw [readSingle, hscan, Option.map_some, hjoin, List.nil_append]

/-! ## Numbers in base sixteen -/

theorem hexNumber?_hexDigits (width n : Nat) : Json.hexNumber? (hexDigits width n) = some n := by
  have hzeros (k : Nat) : (List.replicate k '0').foldlM
      (fun n c => (Json.hexValue? c).map (16 * n + ·)) 0 = some 0 := by
    induction k with
    | zero => rfl
    | succ k ih => exact ih
  have hdigits := foldlM_toDigits (show 1 < 16 by decide)
    (f := fun n c => (Json.hexValue? c.toUpper).map (16 * n + ·))
    (fun m d hd => by rw [hexValue?_toUpper_digitChar d hd]; rfl) n
  rw [Json.hexNumber?, hexDigits, List.foldlM_append, hzeros, Option.bind_eq_bind, Option.bind_some,
    List.foldlM_map, hdigits]

/-- Digits are filled up to the width, if there are no more of them. -/
theorem length_hexDigits {width n : Nat} (h : (Nat.toDigits 16 n).length ≤ width) :
    (hexDigits width n).length = width := by
  simp only [hexDigits, List.length_append, List.length_replicate, List.length_map]
  omega

/-! ## Double quotes -/

section Double

variable (rest : List Char)

/-- The piece that a character between double quotes is read as. -/
def pieceOf (c : Char) : Piece := if c = ' ' then .space ' ' else .char c

theorem joinPieces_map_pieceOf (s : List Char) (j : Nat) :
    joinPieces false (List.replicate j ' ') (s.map pieceOf) = List.replicate j ' ' ++ s := by
  have hfold (j : Nat) : quotedGap false (List.replicate j ' ') = List.replicate j ' ' :=
    foldGap_replicate j
  induction s generalizing j with
  | nil => simpa [joinPieces] using hfold j
  | cons c s ih =>
    rw [List.map_cons, pieceOf]
    split
    · rename_i hc
      rw [joinPieces, ← List.replicate_succ', ih, List.replicate_succ', List.append_assoc, hc]
      rfl
    · have hstep := ih 0
      rw [List.replicate_zero, List.nil_append] at hstep
      rw [joinPieces, hfold, hstep]

theorem scanDouble_letter {l c : Char} (h : escaped? l = some c) (hbreak : isBreak l = false)
    (hx : l ≠ 'x') (hu : l ≠ 'u') (hU : l ≠ 'U') :
    scanDouble false ('\\' :: l :: rest) =
      (scanDouble false rest).map fun r => (.char c :: r.1, r.2) := by
  rw [scanDouble]
  · rw [if_neg (by simp [hbreak]), h]
    cases scanDouble false rest <;> rfl
  all_goals simp [hx, hu, hU]

theorem scanDouble_shown {c : Char} (hquote : c ≠ '"') (hslash : c ≠ '\\')
    (hshown : isShown c = true) (hbreak : isBreak c = false) :
    scanDouble false (c :: rest) =
      (scanDouble false rest).map fun r => (pieceOf c :: r.1, r.2) := by
  rw [scanDouble]
  · by_cases hblank : isBlank c = true
    · obtain rfl := eq_space_of_isBlank hshown hblank
      rw [if_pos (by decide), hbreak]
      cases scanDouble false rest <;> rfl
    · have hspace : c ≠ ' ' := by
        rintro rfl
        exact hblank rfl
      rw [if_neg (by simp [hbreak, hblank]), if_neg (by simp), pieceOf, if_neg hspace]
      cases scanDouble false rest <;> rfl
  all_goals simp [hquote, hslash]

/-- The character with a number reads back from the digits of this number. -/
theorem charOfHex?_hexDigits (c : Char) (width : Nat) :
    charOfHex? (hexDigits width c.toNat) = some c := by
  have hvalid : c.toNat.isValidChar := c.valid
  rw [charOfHex?, hexNumber?_hexDigits, Option.bind_eq_bind, Option.bind_some, if_pos hvalid,
    Char.ofNat_toNat]

/-- A character that is named by two, four or eight digits reads back. -/
theorem scanDouble_number {l c : Char} {width : Nat}
    (hl : (l, width) ∈ [('x', 2), ('u', 4), ('U', 8)])
    (hc : (Nat.toDigits 16 c.toNat).length ≤ width) :
    scanDouble false ('\\' :: l :: hexDigits width c.toNat ++ rest) =
      (scanDouble false rest).map fun r => (.char c :: r.1, r.2) := by
  have hnumber : charOfHex? (hexDigits width c.toNat) = some c := charOfHex?_hexDigits c width
  have hlength : (hexDigits width c.toNat).length = width := length_hexDigits hc
  -- the rules take two, four or eight digits apart
  generalize hexDigits width c.toNat = digits at hnumber hlength
  simp only [List.mem_cons, Prod.mk.injEq, List.not_mem_nil, or_false] at hl
  rcases hl with ⟨rfl, rfl⟩ | ⟨rfl, rfl⟩ | ⟨rfl, rfl⟩
  · match digits, hlength, hnumber with
    | [a, b], _, hnumber =>
      show scanDouble false ('\\' :: 'x' :: a :: b :: rest) = _
      rw [scanDouble, hnumber]
      cases scanDouble false rest <;> rfl
  · match digits, hlength, hnumber with
    | [a, b, c, d], _, hnumber =>
      show scanDouble false ('\\' :: 'u' :: a :: b :: c :: d :: rest) = _
      rw [scanDouble, hnumber]
      cases scanDouble false rest <;> rfl
  · match digits, hlength, hnumber with
    | [a, b, c, d, e, f, g, h], _, hnumber =>
      show scanDouble false ('\\' :: 'U' :: a :: b :: c :: d :: e :: f :: g :: h :: rest) = _
      rw [scanDouble, hnumber]
      cases scanDouble false rest <;> rfl

/-- **A character between double quotes** is read as one piece. -/
theorem scanDouble_escape (c : Char) :
    scanDouble false (escape c ++ rest) =
      (scanDouble false rest).map fun r => (pieceOf c :: r.1, r.2) := by
  unfold escape
  split
  iterate 14 exact scanDouble_letter rest rfl rfl (by decide) (by decide) (by decide)
  · rename_i hfeed _ _ _ _ hquote hslash _ hline hparagraph
    by_cases hshown : isShown c = true
    · have hbreak : isBreak c = false := by
        simp only [isBreak, Bool.or_eq_false_iff, beq_eq_false_iff_ne]
        exact ⟨⟨hfeed, hline⟩, hparagraph⟩
      rw [if_pos hshown, List.singleton_append]
      exact scanDouble_shown rest hquote hslash hshown hbreak
    · have hspace : c ≠ ' ' := by
        rintro rfl
        exact hshown rfl
      have hvalid : c.toNat < 0x110000 := by
        rcases c.valid with hlow | ⟨-, hhigh⟩
        · exact Nat.lt_trans hlow (by decide)
        · exact hhigh
      have hlength {width : Nat} (hpos : 0 < width) (hlt : c.toNat < 16 ^ width) :
          (Nat.toDigits 16 c.toNat).length ≤ width :=
        (Nat.length_toDigits_le_iff (by decide) hpos).mpr hlt
      rw [if_neg hshown, pieceOf, if_neg hspace]
      split
      · exact scanDouble_number rest (by decide) (hlength (by decide) (by omega))
      · split
        · exact scanDouble_number rest (by decide) (hlength (by decide) (by omega))
        · exact scanDouble_number rest (by decide) (hlength (by decide) (by omega))

/-- **A text in double quotes** is taken apart and joined again. -/
theorem readDouble_escape (s : List Char) :
    readDouble (s.flatMap escape ++ '"' :: rest) = some (s, rest) := by
  have hscan : scanDouble false (s.flatMap escape ++ '"' :: rest) = some (s.map pieceOf, rest) := by
    induction s with
    | nil => rfl
    | cons c s ih =>
      rw [List.flatMap_cons, List.append_assoc, scanDouble_escape, ih]
      rfl
  have hjoin := joinPieces_map_pieceOf s 0
  rw [List.replicate_zero, List.nil_append] at hjoin
  rw [readDouble, hscan, Option.map_some, hjoin]

end Double

end TensorCost.Yaml
