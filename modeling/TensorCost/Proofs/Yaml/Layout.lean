import Mathlib.Data.List.TakeWhile
import TensorCost.Proofs.Yaml.Plain
import TensorCost.Yaml.Layout

/-!
# Moving from token to token

The layout moves on over a document piece by piece. Each lemma says with which layout and at which
place the reading goes on.

* `Yaml.tokensAfter` is what `Yaml.tokensFrom` does after a gap.
* `Yaml.Layout.between` is the layout between the keys and values of mappings in block style, and
  `Yaml.Layout.pending` the one after a word that may be a key.
* `Yaml.isKey` says which words are found to be keys.

Results:
* `tokensFrom_eq_of_read`: one step, over a gap and a token.
* `Token.read?_plain`: a plain scalar is read where one can begin.
* `tokensFrom_key`: a key opens a mapping, if it is indented deeper than the one around it.
* `tokensFrom_between_nil`: at the end of the text, all mappings end.
-/

namespace TensorCost.Yaml

/-! ## Places -/

theorem Place.after_append (p : Place) (s t : List Char) :
    p.after (s ++ t) = (p.after s).after t :=
  List.foldl_append

theorem Place.after_lineFeed (p : Place) (s : List Char) : (p.after (s ++ ['\n'])).column = 0 := by
  rw [Place.after_append]
  rfl

/-- On a line, places are columns apart. -/
theorem Place.after_of_no_break (p : Place) {s : List Char} (h : ∀ c ∈ s, isBreak c = false) :
    p.after s = ⟨p.line, p.column + s.length⟩ := by
  induction s generalizing p with
  | nil => rfl
  | cons c s ih =>
    have hc : p.after [c] = ⟨p.line, p.column + 1⟩ := by
      simp [Place.after, h c List.mem_cons_self]
    rw [← List.singleton_append, Place.after_append, hc, ih _ fun d hd => h d (by simp [hd])]
    simp [Nat.add_comm, Nat.add_left_comm]

/-! ## From token to token -/

/-- The tokens of a text after a gap in it. -/
def tokensAfter (l : Layout) (gap : GapEnd) : Option (List Token.Written) :=
  match gap.rest with
  | [] => l.finish?
  | c :: rest => do
    let l' ← { l with keyAllowed := gap.keyAllowed }.moveTo? gap.place
    let lexeme ← Token.read? l'.inFlow (gap.place.column == 0) l'.blocks.head? c rest
    let next ← l'.push? gap.place lexeme
    let taken := c :: rest.take (rest.length - lexeme.rest.length)
    tokensFrom next (gap.place.after taken) lexeme.rest

theorem tokensFrom_eq_tokensAfter (l : Layout) (p : Place) (s : List Char) :
    tokensFrom l p s = tokensAfter l (skipGap l.inFlow l.keyAllowed false p s) := by
  rw [tokensFrom.eq_def]
  dsimp only
  split
  · rename_i hrest
    simp only [tokensAfter, hrest]
  · rename_i hrest
    simp only [tokensAfter, hrest]
    split
    · rename_i hmove
      simp only [hmove, Option.bind_eq_bind, Option.bind_none]
    · rename_i hmove
      simp only [hmove, Option.bind_eq_bind, Option.bind_some]
      split
      · rename_i hread
        simp only [hread, Option.bind_none]
      · rename_i hread
        simp only [hread, Option.bind_some]

/-- **A step** over a gap and over a token that consists of `c` and `word`. -/
theorem tokensFrom_eq_of_read (l : Layout) {l' next : Layout} {p q : Place}
    {s word rest : List Char} {c : Char} {keyAllowed opensLine : Bool} {token : Token.Written}
    (hgap : skipGap l.inFlow l.keyAllowed false p s = ⟨keyAllowed, q, c :: (word ++ rest)⟩)
    (hmove : { l with keyAllowed }.moveTo? q = some l')
    (hread : Token.read? l'.inFlow (q.column == 0) l'.blocks.head? c (word ++ rest) =
      some ⟨token, opensLine, rest⟩)
    (hpush : l'.push? q ⟨token, opensLine, rest⟩ = some next) :
    tokensFrom l p s = tokensFrom next (q.after (c :: word)) rest := by
  have htaken : (word ++ rest).take ((word ++ rest).length - rest.length) = word := by simp
  rw [tokensFrom_eq_tokensAfter, hgap]
  simp only [tokensAfter, hmove, hread, hpush, htaken, Option.bind_eq_bind, Option.bind_some]

namespace Layout

/-- A layout outside of braces that has read `tokens`, when no key may have begun. -/
def between (tokens : List Token.Written) (blocks : List Nat) (keyAllowed : Bool) : Layout :=
  ⟨tokens.toArray, blocks, none, [], keyAllowed⟩

theorem endBlocks_eq_self {l : Layout} {isEnded : Nat → Bool}
    (h : ∀ b ∈ l.blocks.head?, isEnded b = false) : l.endBlocks isEnded = l := by
  have hstay : l.blocks.takeWhile isEnded = [] ∧ l.blocks.dropWhile isEnded = l.blocks := by
    cases hb : l.blocks with
    | nil => simp
    | cons b bs => simp [h b (by simp [hb])]
  unfold endBlocks
  split
  · rfl
  · simp [hstay]

theorem moveTo?_eq_some_self {l : Layout} {p : Place}
    (hcandidate : l.candidate.any (·.isPassed p) = false)
    (hblocks : ∀ b ∈ l.blocks.head?, b ≤ p.column) : l.moveTo? p = some l := by
  have hstay : l.endBlocks (p.column < ·) = l :=
    endBlocks_eq_self fun b hb => by simpa using hblocks b hb
  rw [moveTo?, if_neg (by simp [hcandidate]), Option.map_some, hstay]

end Layout

/-- A gap may be passed beforehand. -/
theorem tokensFrom_between_congr {tokens : List Token.Written} {blocks : List Nat} {k k' : Bool}
    {p p' : Place} {s s' : List Char}
    (h : skipGap false k false p s = skipGap false k' false p' s') :
    tokensFrom (.between tokens blocks k) p s = tokensFrom (.between tokens blocks k') p' s' := by
  rw [tokensFrom_eq_tokensAfter, tokensFrom_eq_tokensAfter]
  show tokensAfter _ (skipGap false k false p s) = tokensAfter _ (skipGap false k' false p' s')
  rw [h]
  rfl

/-- The tokens at the end of a text: the mappings that are open end. -/
theorem tokensFrom_between_nil (tokens : List Token.Written) (blocks : List Nat) (k : Bool)
    (p : Place) :
    tokensFrom (.between tokens blocks k) p [] =
      some (tokens ++ List.replicate blocks.length (.mark .blockEnd)) := by
  rw [tokensFrom_eq_tokensAfter]
  show (Layout.between tokens blocks k).finish? = _
  have hall : blocks.takeWhile (fun _ => true) = blocks :=
    List.takeWhile_eq_self_iff.mpr fun _ _ => rfl
  simp [hall, Layout.finish?, Layout.endBlocks, Layout.between, Layout.inFlow, Layout.giveUp?]

/-! ## Gaps -/

section Gaps

variable (flow keyAllowed : Bool) (p : Place)

theorem skipGap_blank (rest : List Char) :
    skipGap flow keyAllowed false p (' ' :: rest) =
      skipGap flow keyAllowed false (p.after [' ']) rest := by
  rw [skipGap]
  rfl

theorem skipGap_blanks (k : Nat) (rest : List Char) :
    skipGap flow keyAllowed false p (List.replicate k ' ' ++ rest) =
      skipGap flow keyAllowed false (p.after (List.replicate k ' ')) rest := by
  induction k generalizing p with
  | zero => rfl
  | succ k ih => rw [List.replicate_succ, List.cons_append, skipGap_blank, ih]; rfl

theorem skipGap_lineFeed (rest : List Char) :
    skipGap false keyAllowed false p ('\n' :: rest) =
      skipGap false true false (p.after ['\n']) rest := by
  rw [skipGap]
  simp [isBreak]

/-- A gap ends where a character stands that is no space and begins no comment. -/
theorem skipGap_eq_self {c : Char} (rest : List Char) (hblank : isBlank c = false)
    (hbreak : isBreak c = false) (hsign : c ≠ '#') (hmark : c ≠ '\ufeff') :
    skipGap flow keyAllowed false p (c :: rest) = ⟨keyAllowed, p, c :: rest⟩ := by
  simp only [isBlank, Bool.or_eq_false_iff, beq_eq_false_iff_ne] at hblank
  simp [skipGap, hblank, hbreak, hsign, hmark]

end Gaps

/-- The byte order mark is not shown. -/
theorem ne_mark_of_isShown {c : Char} (h : isShown c = true) : c ≠ '\ufeff' := by
  rintro rfl
  exact absurd h (by decide)

/-- A mark of a document consists of dashes or of dots. -/
theorem isMarker_of_ne {c : Char} (s : List Char) (hdash : c ≠ '-') (hdot : c ≠ '.') :
    isMarker (c :: s) = false := by
  have hnot {d : Char} (h : c ≠ d) : isMarkerOf d (c :: s) = false := by
    unfold isMarkerOf
    split
    · rename_i heq
      cases heq
      simp [h]
    · rfl
  simp [isMarker, hnot hdash, hnot hdot]

/-! ## Plain scalars -/

/-- A plain scalar is read where one can begin, unless a mark of a document begins the line. -/
theorem Token.read?_plain {lineStart : Bool} {c : Char} {rest : List Char}
    (hstart : startsPlain false (c :: rest) = true)
    (hline : lineStart = true → isMarker (c :: rest) = false) (block : Option Nat) :
    Token.read? false lineStart block c rest =
      (readPlain false (block.elim 0 (· + 1)) [] rest).map fun t =>
        ⟨.scalar (String.ofList (c :: t.text)) .plain, t.gap.any isBreak, t.rest⟩ := by
  -- no other token begins with a character that begins a plain scalar
  have hmark : c ∉ ['%', '&', '*', '!', '\x7b', '\x7d', ',', '\'', '"', '|', '>'] := fun hc => by
    simp only [List.mem_cons, List.not_mem_nil, or_false] at hc
    rcases hc with rfl | rfl | rfl | rfl | rfl | rfl | rfl | rfl | rfl | rfl | rfl <;>
      exact absurd hstart (by simp [startsPlain])
  simp only [List.mem_cons, List.not_mem_nil, or_false, not_or] at hmark
  have hset (hc : c = '?' ∨ c = ':') : isGapOrEnd rest = false := by
    rcases hc with rfl | rfl <;> simpa [startsPlain] using hstart
  have hnone : Mark.ofChar? false c rest = none := by
    have hkey : ¬ (c = '?' ∧ isGapOrEnd rest = true) := fun h =>
      Bool.false_ne_true ((hset (.inl h.1)).symm.trans h.2)
    have hvalue : ¬ (c = ':' ∧ isGapOrEnd rest = true) := fun h =>
      Bool.false_ne_true ((hset (.inr h.1)).symm.trans h.2)
    simp [Mark.ofChar?, hmark, hkey, hvalue]
  have hlineMark : (lineStart && (c == '%' || isMarker (c :: rest))) = false := by
    cases lineStart with
    | false => rfl
    | true => simp [hmark, hline rfl]
  rw [Token.read?, if_neg (by simp [hlineMark]), if_neg (by simp [hmark]), hnone]
  simp [readScalar?, hmark, hstart]

/-! ## Keys -/

/-- Whether a text can be a key of a document: a word, and so short that its colon is found. -/
def isKey (s : List Char) : Bool :=
  s.head?.any Char.isAlpha && s.all (fun c => c.isAlpha || c == '_') && s.length ≤ maxKeyLength

theorem isShown_of_isKey {key : List Char} (h : isKey key = true) :
    ∀ c ∈ key, isShown c = true ∧ isBreak c = false := fun c hc => by
  simp only [isKey, Bool.and_eq_true, List.all_eq_true, Bool.or_eq_true, beq_iff_eq] at h
  rcases h.1.2 c hc with hletter | rfl
  · obtain ⟨hshown, -, hbreak, -⟩ := isShown_of_isAlphanum (isAlphanum_of_isAlpha hletter)
    exact ⟨hshown, hbreak⟩
  · decide

/-- A line may go on with a key. -/
theorem beginsWord_of_isKey {key : List Char} (h : isKey key = true) (rest : List Char) :
    BeginsWord (key ++ rest) := by
  cases key with
  | nil => exact absurd h (by decide)
  | cons c key =>
    simp only [isKey, List.head?_cons, Option.any_some, Bool.and_eq_true] at h
    exact .cons h.1.1 _

theorem readPlain_key {rest : List Char} (hrest : isGapOrEnd rest = true) (indent : Nat)
    {key : List Char} (hkey : ∀ c ∈ key, c.isAlpha = true ∨ c = '_') :
    readPlain false indent [] (key ++ ':' :: rest) = some ⟨key, [], ':' :: rest⟩ := by
  induction key with
  | nil => simp [readPlain, isBlank, isBreak, endsPlain, hrest]
  | cons c key ih =>
    have hspace : isBlank c = false ∧ isBreak c = false := by
      rcases hkey c List.mem_cons_self with hc | rfl
      · obtain ⟨-, hblank, hbreak, -⟩ := isShown_of_isAlphanum (isAlphanum_of_isAlpha hc)
        exact ⟨hblank, hbreak⟩
      · decide
    have hends : endsPlain false indent [] c (key ++ ':' :: rest) = false := by
      have hcolon : c ≠ ':' := by
        rintro rfl
        exact absurd (hkey ':' List.mem_cons_self) (by decide)
      simp [endsPlain, hcolon]
    rw [List.cons_append, readPlain, if_neg (by simp [hspace]), hends, if_neg (by simp),
      if_neg (by simp), ih fun d hd => hkey d (List.mem_cons_of_mem _ hd)]
    rfl

namespace Layout

/-- The mappings that are open after a key at a column: one more, if it stands deeper. -/
def opened (blocks : List Nat) (column : Nat) : List Nat :=
  if blocks.head?.any (column ≤ ·) then blocks else column :: blocks

/-- The mark of a mapping that begins with a key at a column, if it does. -/
def opening (blocks : List Nat) (column : Nat) : List Token.Written :=
  if blocks.head?.any (column ≤ ·) then [] else [.mark .blockStart]

theorem insertIdx_length_append {α : Type} (as bs : List α) (a : α) :
    (as ++ bs).insertIdx as.length a = as ++ a :: bs := by
  induction as with
  | nil => simp
  | cons b as ih => simp [ih]

/-- A layout outside of braces that has read `tokens` and then a token at `p`, with which a key may
have begun. -/
def pending (tokens : List Token.Written) (token : Token.Written) (blocks : List Nat)
    (p : Place) : Layout :=
  ⟨(tokens ++ [token]).toArray, blocks,
    some ⟨p, tokens.length, blocks.head? == some p.column⟩, [], false⟩

theorem push?_scalar_of_keyAllowed (tokens : List Token.Written) (blocks : List Nat) (p : Place)
    (text : String) (rest : List Char) :
    (between tokens blocks true).push? p ⟨.scalar text .plain, false, rest⟩ =
      some (pending tokens (.scalar text .plain) blocks p) := by
  simp [push?, note?, giveUp?, between, pending, inFlow, add]

/-- A colon makes what stands before it a key. -/
theorem push?_value_pending (tokens : List Token.Written) (token : Token.Written)
    (blocks : List Nat) (p q : Place) (rest : List Char) :
    (pending tokens token blocks p).push? q ⟨.mark .value, false, rest⟩ =
      some (.between (tokens ++ opening blocks p.column ++ [.mark .key, token, .mark .value])
        (opened blocks p.column) false) := by
  simp only [push?, pushMark?, beginValue?, insert, beginBlock, inFlow, add, List.isEmpty_nil,
    Bool.not_true, Bool.false_or, List.insertIdxIfInBounds_toArray, insertIdx_length_append,
    Option.map_some, opening, opened, between, pending]
  split <;> simp

end Layout

section Keys

variable {tokens : List Token.Written} {blocks : List Nat} {p q : Place} {rest : List Char}

/-- A word is read that may be a key. -/
theorem tokensFrom_word {c : Char} {word : List Char} (hc : c.isAlpha = true)
    (hword : ∀ d ∈ word, d.isAlpha = true ∨ d = '_') (hrest : isGapOrEnd rest = true)
    (hcolumn : ∀ b ∈ blocks.head?, b ≤ p.column) :
    tokensFrom (.between tokens blocks true) p (c :: (word ++ ':' :: rest)) =
      tokensFrom (.pending tokens (.scalar (String.ofList (c :: word)) .plain) blocks p)
        (p.after (c :: word)) (':' :: rest) := by
  obtain ⟨hshown, hblank, hbreak, hsign⟩ := isShown_of_isAlphanum (isAlphanum_of_isAlpha hc)
  have hgap : skipGap false true false p (c :: (word ++ ':' :: rest)) =
      ⟨true, p, c :: (word ++ ':' :: rest)⟩ :=
    skipGap_eq_self _ _ _ _ hblank hbreak (fun h => hsign (h ▸ by decide))
      (ne_mark_of_isShown hshown)
  have hstart : startsPlain false (c :: (word ++ ':' :: rest)) = true := by
    refine startsPlain_of_fitsPlain (s := [c]) (List.cons_ne_nil _ _) ?_ _
    exact fitsPlain_of_alphanum fun d hd => List.mem_singleton.mp hd ▸ isAlphanum_of_isAlpha hc
  have hmarker : isMarker (c :: (word ++ ':' :: rest)) = false :=
    isMarker_of_ne _ (fun h => hsign (h ▸ by decide)) fun h => hsign (h ▸ by decide)
  have hread : Token.read? false (p.column == 0) blocks.head? c (word ++ ':' :: rest) =
      some ⟨.scalar (String.ofList (c :: word)) .plain, false, ':' :: rest⟩ := by
    rw [Token.read?_plain hstart fun _ => hmarker, readPlain_key hrest _ hword]
    rfl
  exact tokensFrom_eq_of_read (.between tokens blocks true) hgap
    (Layout.moveTo?_eq_some_self rfl hcolumn) hread
    (Layout.push?_scalar_of_keyAllowed tokens blocks p _ _)

/-- A colon on the same line, not too far away, is read as the mark of a value. -/
theorem tokensFrom_colon {token : Token.Written} (hline : q.line = p.line)
    (hlt : p.column < q.column) (hle : q.column ≤ p.column + maxKeyLength)
    (hrest : isGapOrEnd rest = true) (hcolumn : ∀ b ∈ blocks.head?, b ≤ p.column) :
    tokensFrom (.pending tokens token blocks p) q (':' :: rest) =
      tokensFrom (.between (tokens ++ Layout.opening blocks p.column ++
          [.mark .key, token, .mark .value])
        (Layout.opened blocks p.column) false) (q.after [':']) rest := by
  have hgap : skipGap false false false q (':' :: rest) = ⟨false, q, ':' :: ([] ++ rest)⟩ :=
    skipGap_eq_self _ _ _ rest rfl rfl (by decide) (by decide)
  have hread : Token.read? false (q.column == 0) blocks.head? ':' ([] ++ rest) =
      some ⟨.mark .value, false, rest⟩ := by
    have hzero : q.column ≠ 0 := by omega
    simp [hzero, Token.read?, Mark.ofChar?, hrest]
  have hcandidate :
      (Layout.pending tokens token blocks p).candidate.any (·.isPassed q) = false := by
    simp [Layout.pending, Candidate.isPassed, hline, hle]
  exact tokensFrom_eq_of_read (.pending tokens token blocks p) hgap
    (Layout.moveTo?_eq_some_self hcandidate fun b hb => by
      have := hcolumn b hb
      omega) hread
    (Layout.push?_value_pending tokens token blocks p q rest)

/-- **A key** is read with its colon. -/
theorem tokensFrom_key {key : List Char} (hkey : isKey key = true) (hrest : isGapOrEnd rest = true)
    (hcolumn : ∀ b ∈ blocks.head?, b ≤ p.column) :
    tokensFrom (.between tokens blocks true) p (key ++ ':' :: rest) =
      tokensFrom (.between (tokens ++ Layout.opening blocks p.column ++
          [.mark .key, .scalar (String.ofList key) .plain, .mark .value])
        (Layout.opened blocks p.column) false) (p.after (key ++ [':'])) rest := by
  have hbreaks : ∀ c ∈ key, isBreak c = false := fun c hc => (isShown_of_isKey hkey c hc).2
  simp only [isKey, Bool.and_eq_true, List.all_eq_true, Bool.or_eq_true, beq_iff_eq,
    decide_eq_true_eq] at hkey
  obtain ⟨⟨hhead, hword⟩, hlength⟩ := hkey
  cases key with
  | nil => exact absurd hhead (by decide)
  | cons c word =>
    have hplace : p.after (c :: word) = ⟨p.line, p.column + (word.length + 1)⟩ :=
      p.after_of_no_break hbreaks
    rw [List.length_cons] at hlength
    -- the word is read as a scalar, which its colon makes a key
    rw [List.cons_append, tokensFrom_word hhead (fun d hd => hword d (List.mem_cons_of_mem _ hd))
      hrest hcolumn, Place.after_append p (c :: word)]
    refine tokensFrom_colon ?_ ?_ ?_ hrest hcolumn <;> rw [hplace]
    · exact Nat.lt_add_of_pos_right (Nat.succ_pos _)
    · exact Nat.add_le_add_left hlength _

end Keys

end TensorCost.Yaml
