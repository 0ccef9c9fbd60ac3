import TensorCost.Proofs.Yaml.Block
import TensorCost.Proofs.Yaml.Layout
import TensorCost.Proofs.Yaml.Nodes
import TensorCost.Proofs.Yaml.Quoted

/-!
# The tokens of printed lines

A value is read with the end of its line, and reading goes on at the start of the next line.

* `Yaml.entryLine` is the line of an entry, and `Yaml.Scalar.plain` a scalar written without quotes.
* `Yaml.plainLines` are the lines of entries with such values.

Results:
* `tokensFrom_blank`, `tokensFrom_lineFeed`, `tokensFrom_blanks`: what may stand around a value.
* `tokensFrom_plain`, `tokensFrom_singleQuoted`, `tokensFrom_doubleQuoted`, `tokensFrom_literal`: a
  text is one token in any of its styles.
* `tokensFrom_printText`: so it is in the style that has been chosen for it.
* `tokensFrom_braces`: an empty mapping.
* `tokensFrom_entryLine`: an entry is read, if its value is.
* `tokensFrom_plainLine`, `tokensFrom_textLine`, `tokensFrom_bracesLine`: entries with such values.
* `tokensFrom_keyLine`: a key whose value begins on the next line.
* `tokensFrom_plainLines`: the lines that end a document with a mapping of plain values.
* `column_after_printStyled`, `column_after_entryLine`: after each of these, a line begins.
-/

namespace TensorCost.Yaml

/-! ## Values -/

namespace Layout

/-- No key begins with a scalar where none may begin. -/
theorem push?_scalar (tokens : List Token.Written) (blocks : List Nat) (p : Place) (text : String)
    {style : Style} {opensLine : Bool} (rest : List Char)
    (hopens : style = .literal ∨ style = .folded → opensLine = true) :
    (between tokens blocks false).push? p ⟨.scalar text style, opensLine, rest⟩ =
      some (between (tokens ++ [.scalar text style]) blocks opensLine) := by
  have hadd : (between tokens blocks opensLine).add (.scalar text style) =
      between (tokens ++ [.scalar text style]) blocks opensLine := by
    simp [between, add]
  cases style with
  | plain | singleQuoted | doubleQuoted => exact congrArg some hadd
  | literal =>
    obtain rfl := hopens (.inl rfl)
    exact congrArg some hadd
  | folded =>
    obtain rfl := hopens (.inr rfl)
    exact congrArg some hadd

end Layout

section Values

variable (tokens : List Token.Written) {blocks : List Nat} {p : Place} {rest : List Char}

/-- The blank before a value is passed over. -/
theorem tokensFrom_blank (blocks : List Nat) (p : Place) (rest : List Char) :
    tokensFrom (.between tokens blocks false) p (' ' :: rest) =
      tokensFrom (.between tokens blocks false) (p.after [' ']) rest :=
  tokensFrom_between_congr (skipGap_blank _ _ _ _)

/-- After the end of a line, a key may begin. -/
theorem tokensFrom_lineFeed (blocks : List Nat) (k : Bool) (p : Place) (rest : List Char) :
    tokensFrom (.between tokens blocks k) p ('\n' :: rest) =
      tokensFrom (.between tokens blocks true) (p.after ['\n']) rest :=
  tokensFrom_between_congr (skipGap_lineFeed _ _ _)

/-- A line may be indented. -/
theorem tokensFrom_blanks (blocks : List Nat) (k : Nat) (p : Place) (rest : List Char) :
    tokensFrom (.between tokens blocks true) p (List.replicate k ' ' ++ rest) =
      tokensFrom (.between tokens blocks true) (p.after (List.replicate k ' ')) rest :=
  tokensFrom_between_congr (skipGap_blanks _ _ _ _ _)

theorem tokensFrom_scalar {c : Char} {word : List Char} {text : String} {style : Style}
    {opensLine : Bool} (hc : isBlank c = false ∧ isBreak c = false ∧ c ≠ '#' ∧ c ≠ '\ufeff')
    (hread : Token.read? false false blocks.head? c (word ++ rest) =
      some ⟨.scalar text style, opensLine, rest⟩)
    (hopens : style = .literal ∨ style = .folded → opensLine = true)
    (hpos : p.column ≠ 0) (hcolumn : ∀ b ∈ blocks.head?, b ≤ p.column) :
    tokensFrom (.between tokens blocks false) p (c :: (word ++ rest)) =
      tokensFrom (.between (tokens ++ [.scalar text style]) blocks opensLine) (p.after (c :: word))
        rest := by
  have hgap : skipGap false false false p (c :: (word ++ rest)) = ⟨false, p, c :: (word ++ rest)⟩ :=
    skipGap_eq_self _ _ _ _ hc.1 hc.2.1 hc.2.2.1 hc.2.2.2
  have hline : Token.read? false (p.column == 0) blocks.head? c (word ++ rest) =
      some ⟨.scalar text style, opensLine, rest⟩ := by
    rw [beq_false_of_ne hpos]
    exact hread
  exact tokensFrom_eq_of_read (.between tokens blocks false) hgap
    (Layout.moveTo?_eq_some_self rfl hcolumn) hline
    (Layout.push?_scalar tokens blocks p text rest hopens)

/-- **A plain value** is read with the end of its line. -/
theorem tokensFrom_plain {s : List Char} {k : Nat} (hne : s ≠ []) (hfits : fitsPlain s = true)
    (hrest : BeginsWord rest) (hk : k < blocks.head?.elim 0 (· + 1)) (hpos : p.column ≠ 0)
    (hcolumn : ∀ b ∈ blocks.head?, b ≤ p.column) :
    tokensFrom (.between tokens blocks false) p (s ++ '\n' :: (List.replicate k ' ' ++ rest)) =
      tokensFrom (.between (tokens ++ [.scalar (String.ofList s) .plain]) blocks true)
        (p.after (s ++ ['\n'])) (List.replicate k ' ' ++ rest) := by
  obtain ⟨c, s, rfl⟩ := List.exists_cons_of_ne_nil hne
  have hstart : startsPlain false (c :: (s ++ '\n' :: (List.replicate k ' ' ++ rest))) = true :=
    startsPlain_of_fitsPlain hne hfits _
  obtain ⟨hshown, hbreak⟩ := (of_fitsPlain hfits).1 c List.mem_cons_self
  have hsign : c ≠ '#' := by
    rintro rfl
    exact absurd hstart (by simp [startsPlain])
  have hread : Token.read? false false blocks.head? c
      ((s ++ '\n' :: List.replicate k ' ') ++ rest) =
      some ⟨.scalar (String.ofList (c :: s)) .plain, true, rest⟩ := by
    rw [List.append_assoc, List.cons_append, Token.read?_plain hstart (by simp),
      readPlain_of_fitsPlain hfits hrest hk]
    rfl
  have hstep := tokensFrom_scalar tokens
    ⟨isBlank_of_fitsPlain hfits, hbreak, hsign, ne_mark_of_isShown hshown⟩ hread (by simp) hpos
    hcolumn
  -- the scalar takes the indentation of the next line, which could as well be left
  have hplace : p.after (c :: (s ++ '\n' :: List.replicate k ' ')) =
      (p.after (c :: s ++ ['\n'])).after (List.replicate k ' ') := by
    rw [← Place.after_append]
    simp
  rw [hplace, ← tokensFrom_blanks] at hstep
  simpa using hstep

/-- A text in quotes is read with the end of its line. -/
theorem tokensFrom_quoted {text : String} {c : Char} {word : List Char} {style : Style}
    (hc : isBlank c = false ∧ isBreak c = false ∧ c ≠ '#' ∧ c ≠ '\ufeff')
    (hread : Token.read? false false blocks.head? c (word ++ '\n' :: rest) =
      some ⟨.scalar text style, false, '\n' :: rest⟩)
    (hstyle : style ≠ .literal ∧ style ≠ .folded) (hpos : p.column ≠ 0)
    (hcolumn : ∀ b ∈ blocks.head?, b ≤ p.column) :
    tokensFrom (.between tokens blocks false) p (c :: word ++ ['\n'] ++ rest) =
      tokensFrom (.between (tokens ++ [.scalar text style]) blocks true)
        (p.after (c :: word ++ ['\n'])) rest := by
  have hstep := tokensFrom_scalar tokens hc hread (by simp [hstyle]) hpos hcolumn
  rw [tokensFrom_lineFeed, ← Place.after_append] at hstep
  simpa using hstep

theorem tokensFrom_doubleQuoted (rest s : List Char) (hpos : p.column ≠ 0)
    (hcolumn : ∀ b ∈ blocks.head?, b ≤ p.column) :
    tokensFrom (.between tokens blocks false) p (printStyled s .doubleQuoted ++ rest) =
      tokensFrom (.between (tokens ++ [.scalar (String.ofList s) .doubleQuoted]) blocks true)
        (p.after (printStyled s .doubleQuoted)) rest := by
  have hread : Token.read? false false blocks.head? '"'
      ((s.flatMap escape ++ ['"']) ++ '\n' :: rest) =
      some ⟨.scalar (String.ofList s) .doubleQuoted, false, '\n' :: rest⟩ := by
    rw [List.append_assoc]
    show (readDouble (s.flatMap escape ++ '"' :: '\n' :: rest)).map _ = _
    rw [readDouble_escape]
    rfl
  have hstep := tokensFrom_quoted tokens (by decide) hread (by decide) hpos hcolumn
  simpa [printStyled] using hstep

theorem tokensFrom_singleQuoted (rest : List Char) {s : List Char}
    (hfits : fitsQuotes s = true) (hbreak : '\n' ∉ s) (hpos : p.column ≠ 0)
    (hcolumn : ∀ b ∈ blocks.head?, b ≤ p.column) :
    tokensFrom (.between tokens blocks false) p (printStyled s .singleQuoted ++ rest) =
      tokensFrom (.between (tokens ++ [.scalar (String.ofList s) .singleQuoted]) blocks true)
        (p.after (printStyled s .singleQuoted)) rest := by
  have hread : Token.read? false false blocks.head? '\'' (printQuoted false s ++ '\n' :: rest) =
      some ⟨.scalar (String.ofList s) .singleQuoted, false, '\n' :: rest⟩ := by
    show (readSingle (printQuoted false s ++ '\n' :: rest)).map _ = _
    rw [readSingle_printQuoted hfits hbreak (by simp)]
    rfl
  exact tokensFrom_quoted tokens (by decide) hread (by decide) hpos hcolumn

/-- A block of lines is read up to the line that follows. -/
theorem tokensFrom_literal {s : List Char} (hne : s ≠ []) (hshown : ∀ c ∈ s, isShown c = true)
    (hrest : BeginsWord rest) (hpos : p.column ≠ 0) :
    tokensFrom (.between tokens [0] false) p (printStyled s .literal ++ rest) =
      tokensFrom (.between (tokens ++ [.scalar (String.ofList s) .literal]) [0] true)
        (p.after (printStyled s .literal)) rest := by
  obtain ⟨signs, hsigns, hblock⟩ := readBlock_printBlock hne hshown hrest
  have hread : Token.read? false false [0].head? '|' ((signs ++ printBlock true s) ++ rest) =
      some ⟨.scalar (String.ofList s) .literal, true, rest⟩ := by
    rw [List.append_assoc]
    show (readBlock false (some 0) (signs ++ (printBlock true s ++ rest))).map _ = _
    rw [hblock]
    rfl
  have hstep := tokensFrom_scalar tokens (by decide) hread (fun _ => rfl) hpos (by simp)
  simpa [printStyled, hsigns] using hstep

/-- **A text** is read with the end of its line, in the style that has been chosen for it. -/
theorem tokensFrom_printText (s : String) (hrest : BeginsWord rest) (hpos : p.column ≠ 0) :
    tokensFrom (.between tokens [0] false) p (printText s ++ rest) =
      tokensFrom (.between (tokens ++ [.scalar s (style s)]) [0] true) (p.after (printText s))
        rest := by
  have hcolumn : ∀ b ∈ [0].head?, b ≤ p.column := by simp
  have hdouble := tokensFrom_doubleQuoted tokens rest s.toList hpos hcolumn
  have hs : String.ofList s.toList = s := String.ofList_toList
  unfold printText style
  dsimp only
  rw [hs] at hdouble
  split
  · rename_i hbreak
    have hne : s.toList ≠ [] := fun h => by simp [h] at hbreak
    split
    · rename_i hfits
      simp only [fitsBlock, Bool.and_eq_true, List.all_eq_true] at hfits
      have hliteral := tokensFrom_literal tokens hne hfits.1.1 hrest hpos
      rwa [hs] at hliteral
    · exact hdouble
  · rename_i hbreak
    split
    · rename_i hfits
      obtain ⟨hclear, hfits⟩ := Bool.and_eq_true_iff.mp hfits
      have hne : s.toList ≠ [] := fun h => by
        rw [String.toList_eq_nil_iff.mp h] at hclear
        exact absurd hclear (by decide)
      have hplain := tokensFrom_plain tokens (k := 0) hne hfits hrest (by simp) hpos
        hcolumn
      simpa [hs, printStyled] using hplain
    · split
      · rename_i hfits
        have hsingle := tokensFrom_singleQuoted tokens rest hfits
          (by simpa using hbreak) hpos hcolumn
        rwa [hs] at hsingle
      · exact hdouble

theorem column_after_printBlock (s : List Char) (p : Place) {lineStart : Bool}
    (h : lineStart = true → p.column = 0) : (p.after (printBlock lineStart s)).column = 0 := by
  induction s generalizing p lineStart with
  | nil =>
    cases lineStart with
    | true => exact h rfl
    | false => rfl
  | cons c s ih =>
    rw [printBlock]
    split
    · rename_i hbreak
      rw [← List.singleton_append, Place.after_append]
      exact ih _ fun _ => by simp [Place.after, hbreak]
    · rw [← List.singleton_append, Place.after_append, Place.after_append]
      exact ih _ (by simp)

/-- After a printed text, a line begins. -/
theorem column_after_printStyled (p : Place) (s : List Char) (style : Style) :
    (p.after (printStyled s style)).column = 0 := by
  have hblock : (p.after (blockHeader s ++ printBlock true s)).column = 0 := by
    rw [Place.after_append]
    exact column_after_printBlock s _ fun _ => Place.after_lineFeed p _
  cases style with
  | plain => exact Place.after_lineFeed p s
  | singleQuoted => exact Place.after_lineFeed p _
  | doubleQuoted =>
    have hsplit : printStyled s .doubleQuoted = '"' :: s.flatMap escape ++ ['"'] ++ ['\n'] := by
      simp [printStyled]
    rw [hsplit]
    exact Place.after_lineFeed p _
  | literal => exact hblock
  | folded => exact hblock

/-- **An empty mapping** between braces. -/
theorem tokensFrom_braces (hpos : p.column ≠ 0) (hcolumn : ∀ b ∈ blocks.head?, b ≤ p.column) :
    tokensFrom (.between tokens blocks false) p ('\x7b' :: '\x7d' :: rest) =
      tokensFrom (.between (tokens ++ [.mark .flowStart, .mark .flowEnd]) blocks false)
        (p.after ['\x7b', '\x7d']) rest := by
  let inside : Layout := ⟨tokens.toArray.push (.mark .flowStart), blocks, none, [none], true⟩
  have hopen : tokensFrom (.between tokens blocks false) p ('\x7b' :: ([] ++ '\x7d' :: rest)) =
      tokensFrom inside (p.after ['\x7b']) ('\x7d' :: rest) := by
    have hread : Token.read? false (p.column == 0) blocks.head? '\x7b' ([] ++ '\x7d' :: rest) =
        some ⟨.mark .flowStart, false, '\x7d' :: rest⟩ := by
      rw [beq_false_of_ne hpos]
      rfl
    exact tokensFrom_eq_of_read (.between tokens blocks false)
      (skipGap_eq_self _ _ _ _ rfl rfl (by decide) (by decide))
      (Layout.moveTo?_eq_some_self rfl hcolumn) hread rfl
  have hclose : tokensFrom inside (p.after ['\x7b']) ('\x7d' :: ([] ++ rest)) =
      tokensFrom (.between (tokens ++ [.mark .flowStart, .mark .flowEnd]) blocks false)
        ((p.after ['\x7b']).after ['\x7d']) rest := by
    have hread :
        Token.read? true ((p.after ['\x7b']).column == 0) blocks.head? '\x7d' ([] ++ rest) =
          some ⟨.mark .flowEnd, false, rest⟩ := rfl
    have hpush : inside.push? (p.after ['\x7b']) ⟨.mark .flowEnd, false, rest⟩ =
        some (.between (tokens ++ [.mark .flowStart, .mark .flowEnd]) blocks false) := by
      simp [inside, Layout.push?, Layout.pushMark?, Layout.endFlow?, Layout.add, Layout.between]
    exact tokensFrom_eq_of_read inside
      (skipGap_eq_self _ _ _ _ rfl rfl (by decide) (by decide))
      (Layout.moveTo?_eq_some_self rfl fun b hb => Nat.le_succ_of_le (hcolumn b hb)) hread hpush
  exact hopen.trans hclose

end Values

/-! ## Lines -/

section Lines

variable (tokens : List Token.Written) {blocks : List Nat} {p : Place} {key value rest : List Char}

/-- A scalar that is written without quotes. -/
def Scalar.plain (text : String) : Scalar := ⟨text, .plain, none⟩

/-- The line of an entry; the end of the line belongs to the value. -/
def entryLine (indent : Nat) (key value : List Char) : List Char :=
  List.replicate indent ' ' ++ (key ++ [':', ' ']) ++ value

theorem column_after_entryLine (p : Place) (indent : Nat) (key value : List Char) :
    (p.after (entryLine indent key (value ++ ['\n']))).column = 0 := by
  rw [entryLine, ← List.append_assoc]
  exact Place.after_lineFeed p _

theorem Layout.head?_opened {column : Nat} (h : ∀ b ∈ blocks.head?, b ≤ column) :
    (Layout.opened blocks column).head? = some column := by
  unfold Layout.opened
  split
  · rename_i hdeep
    cases blocks with
    | nil => simp at hdeep
    | cons b blocks =>
      have hle : b ≤ column := h b rfl
      have hge : column ≤ b := by simpa using hdeep
      rw [List.head?_cons, Nat.le_antisymm hle hge]
  · rfl

theorem Layout.opening_opened {column : Nat} (h : ∀ b ∈ blocks.head?, b ≤ column) :
    Layout.opening (Layout.opened blocks column) column = [] := by
  rw [Layout.opening, Layout.head?_opened h, if_pos (by simp)]

theorem Layout.opened_opened {column : Nat} (h : ∀ b ∈ blocks.head?, b ≤ column) :
    Layout.opened (Layout.opened blocks column) column = Layout.opened blocks column := by
  rw [Layout.opened, Layout.head?_opened h, if_pos (by simp)]

/-- **An entry** is read, if its value is. -/
theorem tokensFrom_entryLine {indent : Nat} {valueTokens : List Token.Written}
    (hkey : isKey key = true) (hp : p.column = 0) (hblocks : ∀ b ∈ blocks.head?, b ≤ indent)
    (hvalue : ∀ (tokens : List Token.Written) (q : Place), indent < q.column →
      tokensFrom (.between tokens (Layout.opened blocks indent) false) q (value ++ rest) =
        tokensFrom (.between (tokens ++ valueTokens) (Layout.opened blocks indent) true)
          (q.after value) rest) :
    tokensFrom (.between tokens blocks true) p (entryLine indent key value ++ rest) =
      tokensFrom (.between (tokens ++ Layout.opening blocks indent ++
          entryTokens (.plain (String.ofList key)) valueTokens)
        (Layout.opened blocks indent) true) (p.after (entryLine indent key value)) rest := by
  have hindent : p.after (List.replicate indent ' ') = ⟨p.line, indent⟩ := by
    rw [p.after_of_no_break fun _ => isBreak_of_mem_replicate, hp]
    simp
  have hplace : (p.after (List.replicate indent ' ')).after (key ++ [':', ' ']) =
      ⟨p.line, indent + (key.length + 2)⟩ := by
    rw [hindent, Place.after_of_no_break]
    · simp
    · have hsigns : ∀ c ∈ [':', ' '], isBreak c = false := by simp [isBreak]
      exact List.forall_mem_append.mpr ⟨fun c hc => (isShown_of_isKey hkey c hc).2, hsigns⟩
  have hstep := hvalue
    (tokens ++ Layout.opening blocks indent ++
      [.mark .key, .scalar (String.ofList key) .plain, .mark .value])
    ((p.after (List.replicate indent ' ')).after (key ++ [':', ' ']))
    (by rw [hplace]; exact Nat.lt_add_of_pos_right (Nat.succ_pos _))
  have hcolumn : (p.after (List.replicate indent ' ')).column = indent := by rw [hindent]
  have htext : entryLine indent key value ++ rest =
      List.replicate indent ' ' ++ (key ++ ':' :: ' ' :: (value ++ rest)) := by
    simp [entryLine]
  have htokens : tokens ++ Layout.opening blocks indent ++
      entryTokens (.plain (String.ofList key)) valueTokens =
      tokens ++ Layout.opening blocks indent ++
        [.mark .key, .scalar (String.ofList key) .plain, .mark .value] ++ valueTokens := by
    simp [entryTokens, Scalar.token, Scalar.plain]
  rw [htext, htokens, tokensFrom_blanks, tokensFrom_key hkey rfl (hcolumn.symm ▸ hblocks), hcolumn,
    tokensFrom_blank, ← Place.after_append, List.append_assoc key, entryLine,
    Place.after_append p (List.replicate indent ' ' ++ _), Place.after_append p]
  exact hstep

/-- The line of an entry with a plain value, before a line that is not indented deeper. -/
theorem tokensFrom_plainLine {s : List Char} {indent k : Nat} (hkey : isKey key = true)
    (hne : s ≠ []) (hfits : fitsPlain s = true) (hp : p.column = 0)
    (hblocks : ∀ b ∈ blocks.head?, b ≤ indent) (hrest : BeginsWord rest) (hk : k ≤ indent) :
    tokensFrom (.between tokens blocks true) p
        (entryLine indent key (s ++ ['\n']) ++ (List.replicate k ' ' ++ rest)) =
      tokensFrom (.between (tokens ++ Layout.opening blocks indent ++
          entryTokens (.plain (String.ofList key)) [(Scalar.plain (String.ofList s)).token])
        (Layout.opened blocks indent) true)
        (p.after (entryLine indent key (s ++ ['\n']))) (List.replicate k ' ' ++ rest) := by
  refine tokensFrom_entryLine tokens hkey hp hblocks fun tokens q hq => ?_
  have hopened := Layout.head?_opened hblocks
  rw [List.append_assoc]
  refine tokensFrom_plain tokens hne hfits hrest ?_ (Nat.ne_zero_of_lt hq) fun b hb => ?_
  · rw [hopened]
    exact Nat.lt_succ_of_le hk
  · rw [hopened] at hb
    cases hb
    exact Nat.le_of_lt hq

/-- Whether a key and a text can be written as they are on a line. -/
def IsPlainEntry (e : List Char × List Char) : Prop :=
  isKey e.1 = true ∧ e.2 ≠ [] ∧ fitsPlain e.2 = true

/-- The entry that a key and a text spell. -/
def plainEntry (e : List Char × List Char) : Scalar × Scalar :=
  (.plain (String.ofList e.1), .plain (String.ofList e.2))

/-- The lines of entries with plain values. -/
def plainLines (indent : Nat) (entries : List (List Char × List Char)) : List Char :=
  entries.flatMap fun e => entryLine indent e.1 (e.2 ++ ['\n'])

theorem isShown_of_mem_plainLine {e : List Char × List Char} (he : IsPlainEntry e) (indent : Nat) :
    ∀ c ∈ entryLine indent e.1 (e.2 ++ ['\n']), isShown c = true := by
  obtain ⟨hkey, -, hfits⟩ := he
  have hindent : ∀ c ∈ List.replicate indent ' ', isShown c = true := fun c hc => by
    rw [List.eq_of_mem_replicate hc]
    rfl
  have hname : ∀ c ∈ e.1 ++ [':', ' '], isShown c = true :=
    List.forall_mem_append.mpr ⟨fun c hc => (isShown_of_isKey hkey c hc).1, List.all_eq_true.mp rfl⟩
  have hvalue : ∀ c ∈ e.2 ++ ['\n'], isShown c = true :=
    List.forall_mem_append.mpr
      ⟨fun c hc => ((of_fitsPlain hfits).1 c hc).1, List.all_eq_true.mp rfl⟩
  exact List.forall_mem_append.mpr ⟨List.forall_mem_append.mpr ⟨hindent, hname⟩, hvalue⟩

/-- **The last lines of a document**, if their values are plain: after them, all mappings end. The
first of the lines may open a mapping; the others go on with it. -/
theorem tokensFrom_plainLines {indent : Nat} {entries : List (List Char × List Char)}
    (hne : entries ≠ []) (hentries : ∀ e ∈ entries, IsPlainEntry e) (hp : p.column = 0)
    (hblocks : ∀ b ∈ blocks.head?, b ≤ indent) :
    tokensFrom (.between tokens blocks true) p (plainLines indent entries) =
      some (tokens ++ Layout.opening blocks indent ++
        (entries.map plainEntry).flatMap (fun e => entryTokens e.1 [e.2.token]) ++
        List.replicate (Layout.opened blocks indent).length (.mark .blockEnd)) := by
  induction entries generalizing tokens blocks p with
  | nil => exact absurd rfl hne
  | cons e entries ih =>
    obtain ⟨⟨hkey, hvalue, hfits⟩, hentries⟩ := List.forall_mem_cons.mp hentries
    cases entries with
    | nil =>
      have hline := tokensFrom_plainLine tokens hkey hvalue hfits hp hblocks .nil
        (Nat.zero_le indent)
      simpa [tokensFrom_between_nil, plainLines, plainEntry] using hline
    | cons e' entries =>
      have hnext := beginsWord_of_isKey (hentries e' List.mem_cons_self).1
        ([':', ' '] ++ (e'.2 ++ ['\n']) ++ plainLines indent entries)
      have hlines : plainLines indent (e' :: entries) = List.replicate indent ' ' ++
          (e'.1 ++ ([':', ' '] ++ (e'.2 ++ ['\n']) ++ plainLines indent entries)) := by
        simp [plainLines, entryLine]
      have hline := tokensFrom_plainLine tokens hkey hvalue hfits hp hblocks hnext
        (Nat.le_refl indent)
      have hopened : ∀ b ∈ (Layout.opened blocks indent).head?, b ≤ indent := fun b hb => by
        rw [Layout.head?_opened hblocks] at hb
        exact Nat.le_of_eq (Option.mem_some.mp hb).symm
      rw [← hlines, ih _ (List.cons_ne_nil _ _) hentries (column_after_entryLine _ _ _ _) hopened,
        Layout.opening_opened hblocks, Layout.opened_opened hblocks] at hline
      simpa [plainLines, plainEntry] using hline

/-- An entry at the margin goes on with the mapping that is open. -/
theorem tokensFrom_marginLine {valueTokens : List Token.Written} (hkey : isKey key = true)
    (hp : p.column = 0)
    (hvalue : ∀ (tokens : List Token.Written) (q : Place), q.column ≠ 0 →
      tokensFrom (.between tokens [0] false) q (value ++ rest) =
        tokensFrom (.between (tokens ++ valueTokens) [0] true) (q.after value) rest) :
    tokensFrom (.between tokens [0] true) p (entryLine 0 key value ++ rest) =
      tokensFrom
        (.between (tokens ++ entryTokens (.plain (String.ofList key)) valueTokens) [0] true)
        (p.after (entryLine 0 key value)) rest := by
  have hline : tokensFrom (.between tokens [0] true) p (entryLine 0 key value ++ rest) =
      tokensFrom
        (.between (tokens ++ [] ++ entryTokens (.plain (String.ofList key)) valueTokens) [0] true)
        (p.after (entryLine 0 key value)) rest :=
    tokensFrom_entryLine tokens hkey hp (by simp) fun tokens q hq =>
      hvalue tokens q (Nat.ne_zero_of_lt hq)
  rwa [List.append_nil] at hline

/-- The line of an entry with a text. -/
theorem tokensFrom_textLine (s : String) (hkey : isKey key = true) (hp : p.column = 0)
    (hrest : BeginsWord rest) :
    tokensFrom (.between tokens [0] true) p (entryLine 0 key (printText s) ++ rest) =
      tokensFrom (.between (tokens ++
          entryTokens (.plain (String.ofList key)) [Scalar.token ⟨s, style s, none⟩]) [0] true)
        (p.after (entryLine 0 key (printText s))) rest :=
  tokensFrom_marginLine tokens hkey hp fun tokens _ => tokensFrom_printText tokens s hrest

/-- The line of an entry that is an empty mapping. -/
theorem tokensFrom_bracesLine (rest : List Char) (hkey : isKey key = true) (hp : p.column = 0) :
    tokensFrom (.between tokens [0] true) p (entryLine 0 key ['\x7b', '\x7d', '\n'] ++ rest) =
      tokensFrom (.between (tokens ++
          entryTokens (.plain (String.ofList key)) (Value.mapping []).tokens) [0] true)
        (p.after (entryLine 0 key ['\x7b', '\x7d', '\n'])) rest := by
  refine tokensFrom_marginLine tokens hkey hp fun tokens q hq => ?_
  show tokensFrom (.between tokens [0] false) q ('\x7b' :: '\x7d' :: '\n' :: rest) = _
  rw [tokensFrom_braces tokens hq (by simp), tokensFrom_lineFeed, ← Place.after_append]
  rfl

/-- The line of a key whose value begins on the next line, at the margin. -/
theorem tokensFrom_keyLine (rest : List Char) (hkey : isKey key = true) (hp : p.column = 0) :
    tokensFrom (.between tokens [0] true) p (key ++ [':', '\n'] ++ rest) =
      tokensFrom (.between (tokens ++ entryTokens (.plain (String.ofList key)) []) [0] true)
        (p.after (key ++ [':', '\n'])) rest := by
  have hread : tokensFrom (.between tokens [0] true) p (key ++ ':' :: '\n' :: rest) = _ :=
    tokensFrom_key hkey rfl (by simp)
  rw [hp, tokensFrom_lineFeed, ← Place.after_append] at hread
  simpa [entryTokens, Scalar.token, Scalar.plain, Layout.opening, Layout.opened] using hread

end Lines

end TensorCost.Yaml
