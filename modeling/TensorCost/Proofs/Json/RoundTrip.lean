import TensorCost.Json.Printer
import TensorCost.Proofs.Numerals

/-!
# Printed JSON reads back

Whatever is printed is read as the value it was printed for. Tokens are taken one by one: each says
what it reads and what it leaves, and blanks before it do not matter.

* `Json.Reads` says what is read at the start of a text, and what is left.
* `Json.Layout.Neutral` says that a layout puts nothing but blanks between tokens.
* `Json.Exact` says that a value has one printed form: each string names a text, and no number is
  written with a fraction or an exponent.

Results:
* `exists_pieces`: a text between quotes reads back, whatever characters it holds.
* `number?_printInteger`: so does an integer.
* `Exact.readsBack`: so does a value, with blanks before it.
* `Exact.parse?_pretty`: the text of a value is read as this value.
-/

namespace TensorCost.Json

/-- Reading succeeds with this value and this rest. -/
def Reads {α : Type} {s : List Char} (r : Option (Read α s)) (value : α) (rest : List Char) :
    Prop :=
  ∃ shorter, r = some ⟨value, rest, shorter⟩

/-! ## Strings -/

theorem readPieces_escape {c e : Char} (h : simpleEscape? c = some e) (rest : List Char) :
    readPieces ('\\' :: c :: rest) = (readPieces rest).map fun r => (.char e :: r.1, r.2) := by
  have hu : c ≠ 'u' := by
    rintro rfl
    simp [simpleEscape?] at h
  rw [readPieces]
  · rw [h]
    cases readPieces rest <;> rfl
  · simp [hu]

theorem readPieces_unit {a b c d : Char} {u : Nat} (h : hexNumber? [a, b, c, d] = some u)
    (rest : List Char) :
    readPieces ('\\' :: 'u' :: a :: b :: c :: d :: rest) =
      (readPieces rest).map fun r => (.unit u :: r.1, r.2) := by
  rw [readPieces, h]
  cases readPieces rest <;> rfl

theorem readPieces_char {c : Char} (hquote : c ≠ '"') (hbackslash : c ≠ '\\') (hlt : ¬ c < ' ')
    (rest : List Char) :
    readPieces (c :: rest) = (readPieces rest).map fun r => (.char c :: r.1, r.2) := by
  rw [readPieces]
  · rw [if_neg hlt]
    cases readPieces rest <;> rfl
  all_goals simp [hquote, hbackslash]

theorem joinPieces_unit {u : Nat} (hhigh : isHighHalf u = false) (hlow : isLowHalf u = false)
    (pieces : List Piece) :
    joinPieces (.unit u :: pieces) = (joinPieces pieces).map (Char.ofNat u :: ·) := by
  cases pieces with
  | nil => simp [joinPieces, hhigh, hlow]
  | cons piece pieces => cases piece <;> simp [joinPieces, hhigh, hlow]

/-- The number of a control is written with two digits after two zeros. -/
theorem hexNumber?_control {n : Nat} (h : n < 32) :
    hexNumber? ['0', '0', hexDigit (n / 16), hexDigit (n % 16)] = some n := by
  have hzero : hexValue? '0' = some 0 := rfl
  have hhigh : hexValue? (hexDigit (n / 16)) = some (n / 16) := hexValue?_digitChar _ (by omega)
  have hlow : hexValue? (hexDigit (n % 16)) = some (n % 16) := hexValue?_digitChar _ (by omega)
  simp only [hexNumber?, List.foldlM_cons, List.foldlM_nil, hzero, hhigh, hlow, Option.map_some,
    Option.bind_eq_bind, Option.bind_some, Option.pure_def, Option.some.injEq]
  omega

/-- **A character in a string** is read as one piece, which names it. -/
theorem exists_piece (c : Char) :
    ∃ piece,
      (∀ rest, readPieces (escape c ++ rest) =
        (readPieces rest).map fun r => (piece :: r.1, r.2)) ∧
      ∀ pieces, joinPieces (piece :: pieces) = (joinPieces pieces).map (c :: ·) := by
  have hletter : ∀ {l e : Char}, simpleEscape? l = some e →
      ∃ piece,
        (∀ rest, readPieces (['\\', l] ++ rest) =
          (readPieces rest).map fun r => (piece :: r.1, r.2)) ∧
        ∀ pieces, joinPieces (piece :: pieces) = (joinPieces pieces).map (e :: ·) :=
    fun h => ⟨_, readPieces_escape h, fun _ => rfl⟩
  unfold escape
  split
  · exact hletter rfl
  · exact hletter rfl
  · exact hletter rfl
  · exact hletter rfl
  · exact hletter rfl
  · exact hletter rfl
  · exact hletter rfl
  · rename_i hquote hbackslash _ _ _ _ _
    by_cases hlt : c < ' '
    · have hcontrol : c.toNat < 32 := hlt
      have hhigh : isHighHalf c.toNat = false := by
        simp [isHighHalf]
        omega
      have hlow : isLowHalf c.toNat = false := by
        simp [isLowHalf]
        omega
      rw [if_pos hlt]
      refine ⟨.unit c.toNat, readPieces_unit (hexNumber?_control hcontrol), fun pieces => ?_⟩
      rw [joinPieces_unit hhigh hlow, Char.ofNat_toNat]
    · rw [if_neg hlt]
      exact ⟨.char c, readPieces_char hquote hbackslash hlt, fun _ => rfl⟩

/-- **A text between quotes** is read as pieces that name it. -/
theorem exists_pieces (s rest : List Char) :
    ∃ pieces, readPieces (s.flatMap escape ++ '"' :: rest) = some (pieces, rest) ∧
      joinPieces pieces = some s := by
  induction s with
  | nil => exact ⟨[], rfl, rfl⟩
  | cons c s ih =>
    obtain ⟨pieces, hread, hjoin⟩ := ih
    obtain ⟨piece, hpiece, hname⟩ := exists_piece c
    refine ⟨piece :: pieces, ?_, ?_⟩
    · rw [List.flatMap_cons, List.append_assoc, hpiece, hread]
      rfl
    · rw [hname, hjoin]
      rfl

theorem reads_string (s rest : List Char) :
    Reads (readString (s.flatMap escape ++ '"' :: rest)) (some (String.ofList s)) rest := by
  obtain ⟨pieces, hread, hjoin⟩ := exists_pieces s rest
  unfold readString
  split
  · rename_i pieces' rest' heq
    obtain ⟨rfl, rfl⟩ := Prod.mk.inj (Option.some.inj (hread.symm.trans heq))
    refine ⟨length_readPieces_lt heq, ?_⟩
    simp only [textOfPieces, hjoin, Option.map_some]
  · rename_i heq
    rw [hread] at heq
    cases heq

/-! ## Blanks -/

/-- A text that consists of blanks. -/
def Blanks (s : List Char) : Prop := ∀ c ∈ s, isBlank c = true

theorem blanks_nil : Blanks [] := fun _ h => absurd h List.not_mem_nil

variable {blanks rest : List Char} {c : Char}

theorem skipBlanks_append (hblanks : Blanks blanks) (hc : isBlank c = false) (rest : List Char) :
    skipBlanks (blanks ++ c :: rest) = c :: rest :=
  (takeWhile_append_of_all hblanks fun d hd => by
    obtain rfl := Option.some.inj hd
    exact hc).2

theorem reads_char (hblanks : Blanks blanks) (hc : isBlank c = false) (rest : List Char) :
    Reads (readChar (blanks ++ c :: rest)) c rest := by
  have hskip := skipBlanks_append hblanks hc rest
  unfold readChar
  split
  · rename_i heq
    rw [hskip] at heq
    cases heq
    exact ⟨_, rfl⟩
  · rename_i heq
    rw [hskip] at heq
    cases heq

theorem readSeparator_comma (close : Char) (rest : List Char) :
    ∃ h, readSeparator close (',' :: rest) = some (.more rest h) := by
  obtain ⟨h, hread⟩ : Reads (readChar (',' :: rest)) ',' rest := reads_char blanks_nil rfl rest
  refine ⟨h, ?_⟩
  rw [readSeparator, hread]
  rfl

theorem readSeparator_close (hblanks : Blanks blanks) (close : Char)
    (hblank : isBlank close = false) (hcomma : close ≠ ',') (rest : List Char) :
    ∃ h, readSeparator close (blanks ++ close :: rest) = some (.last rest h) := by
  obtain ⟨h, hread⟩ := reads_char hblanks hblank rest
  refine ⟨h, ?_⟩
  rw [readSeparator, hread]
  simp [hcomma]

/-- Where a value begins, no item or member ends. -/
theorem readSeparator_none (hblanks : Blanks blanks) (close : Char) (hblank : isBlank c = false)
    (hcomma : c ≠ ',') (hclose : c ≠ close) (rest : List Char) :
    readSeparator close (blanks ++ c :: rest) = none := by
  obtain ⟨h, hread⟩ := reads_char hblanks hblank rest
  rw [readSeparator, hread]
  simp [hcomma, hclose]

/-! ## Numbers -/

/-- A text that does not go on with a number. -/
def EndsNumber (s : List Char) : Prop := ∀ c ∈ s.head?, isNumberChar c = false

theorem endsNumber_cons (hc : isNumberChar c = false) (s : List Char) : EndsNumber (c :: s) := by
  intro d hd
  obtain rfl := Option.some.inj hd
  exact hc

theorem ne_of_isNumberChar (h : isNumberChar c = true) (d : Char) (hd : isNumberChar d = false) :
    c ≠ d := by
  rintro rfl
  rw [h] at hd
  cases hd

theorem isBlank_of_isNumberChar (h : isNumberChar c = true) : isBlank c = false := by
  have hne := ne_of_isNumberChar h
  simp [isBlank, hne ' ' rfl, hne '\t' rfl, hne '\n' rfl, hne '\r' rfl]

theorem Blanks.endsNumber (h : Blanks blanks) (hc : isNumberChar c = false) (s : List Char) :
    EndsNumber (blanks ++ c :: s) := by
  cases blanks with
  | nil => exact endsNumber_cons hc s
  | cons b blanks =>
    refine endsNumber_cons ?_ _
    cases hb : isNumberChar b with
    | false => rfl
    | true =>
      have hblank := h b List.mem_cons_self
      rw [isBlank_of_isNumberChar hb] at hblank
      cases hblank

theorem isWhole_toDigits (n : Nat) : isWhole (Nat.toDigits 10 n) = true := by
  have hdigits : (Nat.toDigits 10 n).all Char.isDigit = true :=
    List.all_eq_true.mpr fun c hc => isDigit_of_mem_toDigits hc
  unfold isWhole isDigits
  by_cases hn : n = 0
  · subst hn
    decide
  · have hhead : (Nat.toDigits 10 n).head? ≠ some '0' := fun h =>
      hn ((head?_toDigits_eq_zero_iff n).mp h)
    simp [hdigits, hhead, Nat.toDigits_ne_nil]

theorem unsignedNumber?_toDigits (negative : Bool) (n : Nat) (h : negative = true → n ≠ 0) :
    unsignedNumber? negative (Nat.toDigits 10 n) =
      some (integer (if negative then -(n : Int) else n)) := by
  obtain ⟨htake, hdrop⟩ := @takeWhile_append_of_all Char.isDigit (Nat.toDigits 10 n) []
    (fun c hc => isDigit_of_mem_toDigits hc) (by simp)
  rw [List.append_nil] at htake hdrop
  unfold unsignedNumber?
  simp only [htake, hdrop, isWhole_toDigits, Nat.ofDigitChars_ten_toDigits]
  cases negative with
  | false => simp [isTail, isExponent]
  | true => simp [isTail, isExponent, h rfl]

/-- **An integer** is read from its digits. -/
theorem number?_printInteger (n : Int) : number? (printInteger n) = some (integer n) := by
  unfold number? printInteger
  cases n with
  | ofNat n =>
    simp only
    split
    · rename_i rest heq
      have hminus : '-' ∈ Nat.toDigits 10 n := heq ▸ List.mem_cons_self
      exact absurd (isDigit_of_mem_toDigits hminus) (by decide)
    · exact unsignedNumber?_toDigits false n (by simp)
  | negSucc n => exact unsignedNumber?_toDigits true (n + 1) (by simp)

theorem isNumberChar_of_mem_printInteger {n : Int} (h : c ∈ printInteger n) :
    isNumberChar c = true := by
  have hdigits : ∀ {m : Nat}, c ∈ Nat.toDigits 10 m → isNumberChar c = true := fun hc => by
    simp [isNumberChar, isDigit_of_mem_toDigits hc]
  unfold printInteger at h
  split at h
  · exact hdigits h
  · rcases List.mem_cons.mp h with rfl | h
    · rfl
    · exact hdigits h

theorem printInteger_ne_nil (n : Int) : printInteger n ≠ [] := by
  cases n with
  | ofNat n => exact Nat.toDigits_ne_nil
  | negSucc n => exact List.cons_ne_nil _ _

theorem printInteger_eq_cons (n : Int) :
    ∃ c cs, printInteger n = c :: cs ∧ isNumberChar c = true := by
  obtain ⟨c, cs, h⟩ := List.exists_cons_of_ne_nil (printInteger_ne_nil n)
  exact ⟨c, cs, h, isNumberChar_of_mem_printInteger (h ▸ List.mem_cons_self)⟩

theorem reads_integer (n : Int) (hrest : EndsNumber rest) :
    Reads (readNumber (printInteger n ++ rest)) (integer n) rest := by
  obtain ⟨htake, hdrop⟩ :=
    takeWhile_append_of_all (fun c hc => isNumberChar_of_mem_printInteger hc) hrest
  have hne : (printInteger n ++ rest).takeWhile isNumberChar ≠ [] := by
    rw [htake]
    exact printInteger_ne_nil n
  have hnumber : number? ((printInteger n ++ rest).takeWhile isNumberChar) = some (integer n) := by
    rw [htake, number?_printInteger]
  unfold readNumber
  rw [dif_neg hne, hnumber]
  simp only [Option.map_some, hdrop]
  refine ⟨?_, rfl⟩
  have := List.length_pos_iff.mpr (printInteger_ne_nil n)
  rw [List.length_append]
  omega

/-! ## Values -/

/-- A layout that puts nothing but blanks between tokens. -/
structure Layout.Neutral (layout : Layout) : Prop where
  lineBreak : ∀ depth, Blanks (layout.lineBreak depth)
  colon : ∃ gap, Blanks gap ∧ layout.colon = ':' :: gap

theorem Layout.neutral_lines : Layout.lines.Neutral where
  lineBreak depth c hc := by
    rcases List.mem_cons.mp hc with rfl | hc
    · rfl
    · rw [List.eq_of_mem_replicate hc]
      rfl
  colon := ⟨[' '], fun c hc => by rw [List.mem_singleton.mp hc]; rfl, rfl⟩

/-- A value with one printed form. -/
inductive Exact : Json → Prop
  | null : Exact .null
  | bool (b : Bool) : Exact (.bool b)
  | integer (n : Int) : Exact (.integer n)
  | text (s : String) : Exact (.ofText s)
  | array {items : List Json} (exact : ∀ item ∈ items, Exact item) : Exact (.array items)
  | object {members : List (String × Json)} (exact : ∀ m ∈ members, Exact m.2) :
    Exact (.ofMembers members)

/-- What can begin a value, and neither separates values nor closes a bracket. -/
def StartsValue (c : Char) : Prop := isBlank c = false ∧ c ≠ ',' ∧ c ≠ ']' ∧ c ≠ '\x7d'

theorem enclose_eq_cons (layout : Layout) (depth : Nat) (opening closing : Char) (s : List Char) :
    ∃ cs, enclose layout depth opening closing s = opening :: cs := by
  cases s with
  | nil => exact ⟨_, rfl⟩
  | cons c s => exact ⟨_, rfl⟩

theorem Exact.print_eq_cons {j : Json} (h : j.Exact) (layout : Layout) (depth : Nat) :
    ∃ c cs, print layout depth j = c :: cs ∧ StartsValue c := by
  have hstarts : ∀ c ∈ ['n', 't', 'f', '"', '[', '\x7b'], StartsValue c := by
    simp [StartsValue, isBlank]
  cases h with
  | null => exact ⟨'n', _, by rw [print], hstarts _ (by simp)⟩
  | bool b =>
    cases b
    · exact ⟨'f', _, by rw [print], hstarts _ (by simp)⟩
    · exact ⟨'t', _, by rw [print], hstarts _ (by simp)⟩
  | integer n =>
    obtain ⟨c, cs, hcs, hc⟩ := printInteger_eq_cons n
    have hne := ne_of_isNumberChar hc
    exact ⟨c, cs, by rw [print, hcs],
      isBlank_of_isNumberChar hc, hne _ rfl, hne _ rfl, hne _ rfl⟩
  | text s => exact ⟨'"', _, by rw [ofText, print, printText, quote]; rfl, hstarts _ (by simp)⟩
  | @array items _ =>
    obtain ⟨cs, hcs⟩ := enclose_eq_cons layout depth '[' ']' (printItems layout (depth + 1) items)
    exact ⟨'[', cs, by rw [print, hcs], hstarts _ (by simp)⟩
  | @object members _ =>
    obtain ⟨cs, hcs⟩ := enclose_eq_cons layout depth '\x7b' '\x7d'
      (printMembers layout (depth + 1) (members.map fun m => (some m.1, m.2)))
    exact ⟨'\x7b', cs, by rw [ofMembers, print, hcs], hstarts _ (by simp)⟩

variable {layout : Layout}

/-- Whether a value is read from its printed form, at any depth and after any blanks. -/
def ReadsBack (layout : Layout) (j : Json) : Prop :=
  ∀ depth ⦃blanks⦄, Blanks blanks → ∀ ⦃rest⦄, EndsNumber rest →
    Reads (readValue (blanks ++ (print layout depth j ++ rest))) j rest

theorem readsBack_null : ReadsBack layout .null := by
  intro depth blanks hblanks rest _
  obtain ⟨hlt, hchar⟩ := reads_char hblanks (c := 'n') rfl ('u' :: 'l' :: 'l' :: rest)
  have hprint : print layout depth .null ++ rest = 'n' :: 'u' :: 'l' :: 'l' :: rest := by
    rw [print]
    rfl
  rw [hprint, readValue, hchar]
  simp [readWord, Read.ofShorter, Reads]
  omega

theorem readsBack_bool (b : Bool) : ReadsBack layout (.bool b) := by
  intro depth blanks hblanks rest _
  cases b with
  | true =>
    obtain ⟨hlt, hchar⟩ := reads_char hblanks (c := 't') rfl ('r' :: 'u' :: 'e' :: rest)
    have hprint : print layout depth (.bool true) ++ rest = 't' :: 'r' :: 'u' :: 'e' :: rest := by
      rw [print]
      rfl
    rw [hprint, readValue, hchar]
    simp [readWord, Read.ofShorter, Reads]
    omega
  | false =>
    obtain ⟨hlt, hchar⟩ := reads_char hblanks (c := 'f') rfl ('a' :: 'l' :: 's' :: 'e' :: rest)
    have hprint : print layout depth (.bool false) ++ rest =
        'f' :: 'a' :: 'l' :: 's' :: 'e' :: rest := by
      rw [print]
      rfl
    rw [hprint, readValue, hchar]
    simp [readWord, Read.ofShorter, Reads]
    omega

theorem readsBack_integer (n : Int) : ReadsBack layout (.integer n) := by
  intro depth blanks hblanks rest hrest
  obtain ⟨c, cs, hcs, hc⟩ := printInteger_eq_cons n
  have hne : ∀ d, isNumberChar d = false → c ≠ d := ne_of_isNumberChar hc
  have hnumber := reads_integer n hrest
  rw [hcs] at hnumber
  obtain ⟨_, hnumber⟩ : Reads (readNumber (c :: (cs ++ rest))) (.integer n) rest := hnumber
  obtain ⟨_, hchar⟩ := reads_char hblanks (isBlank_of_isNumberChar hc) (cs ++ rest)
  rw [print, hcs, List.cons_append, readValue, hchar]
  simp only [Option.bind_eq_bind, Option.bind_some]
  -- no other value begins with a character of a number
  split
  · exact absurd rfl (hne _ rfl)
  · exact absurd rfl (hne _ rfl)
  · exact absurd rfl (hne _ rfl)
  · exact absurd rfl (hne _ rfl)
  · exact absurd rfl (hne _ rfl)
  · exact absurd rfl (hne _ rfl)
  · rw [hnumber]
    exact ⟨_, rfl⟩

theorem readsBack_text (s : String) : ReadsBack layout (.ofText s) := by
  intro depth blanks hblanks rest _
  have hprint : print layout depth (.ofText s) ++ rest =
      '"' :: (s.toList.flatMap escape ++ '"' :: rest) := by
    simp [ofText, print, printText, quote]
  obtain ⟨_, hchar⟩ := reads_char hblanks (c := '"') rfl (s.toList.flatMap escape ++ '"' :: rest)
  obtain ⟨_, hstring⟩ := reads_string s.toList rest
  rw [hprint, readValue, hchar]
  simp only [Option.bind_eq_bind, Option.bind_some, hstring, String.ofList_toList]
  exact ⟨_, rfl⟩

/-! ## Arrays -/

/-- The items after the first, the bracket that closes an array, and what follows it. -/
def arrayTail (layout : Layout) (depth : Nat) (ending rest : List Char) (items : List Json) :
    List Char :=
  printItems layout depth items ++ (ending ++ ']' :: rest)

theorem arrayTail_cons (depth : Nat) (ending : List Char) (item : Json) (items : List Json) :
    arrayTail layout depth ending rest (item :: items) =
      ',' :: (layout.lineBreak depth ++
        (print layout depth item ++ arrayTail layout depth ending rest items)) := by
  simp [arrayTail, printItems]

/-- **The items of an array** are read one after the other. -/
theorem reads_items (hlayout : layout.Neutral) {item : Json} {items : List Json}
    (h : ∀ i ∈ item :: items, ReadsBack layout i) (depth : Nat) {ending : List Char}
    (hblanks : Blanks blanks) (hending : Blanks ending) (rest : List Char) :
    Reads (readItems (blanks ++
      (print layout depth item ++ arrayTail layout depth ending rest items)))
      (item :: items) rest := by
  have hitem := h item List.mem_cons_self depth hblanks
  induction items generalizing item blanks with
  | nil =>
    obtain ⟨_, hitem⟩ := hitem (hending.endsNumber (c := ']') rfl rest)
    obtain ⟨_, hlast⟩ := readSeparator_close hending ']' rfl (by decide) rest
    rw [arrayTail, printItems, List.nil_append, readItems, hitem]
    simp only [Option.bind_eq_bind, Option.bind_some, hlast]
    exact ⟨_, rfl⟩
  | cons next items ih =>
    have hnext : ∀ i ∈ next :: items, ReadsBack layout i := fun i hi =>
      h i (List.mem_cons_of_mem _ hi)
    have hbreak := hlayout.lineBreak depth
    have hitems := ih hnext hbreak (hnext next List.mem_cons_self depth hbreak)
    rw [arrayTail_cons]
    -- what follows the comma matters only in that it is read as the items that are left
    generalize layout.lineBreak depth ++ (print layout depth next ++
      arrayTail layout depth ending rest items) = tail at hitems ⊢
    obtain ⟨_, hitems⟩ := hitems
    obtain ⟨_, hitem⟩ := hitem (endsNumber_cons (c := ',') rfl tail)
    obtain ⟨_, hmore⟩ := readSeparator_comma ']' tail
    rw [readItems, hitem]
    simp only [Option.bind_eq_bind, Option.bind_some, hmore, hitems]
    exact ⟨_, rfl⟩

theorem readsBack_array (hlayout : layout.Neutral) {items : List Json}
    (hexact : ∀ i ∈ items, i.Exact) (h : ∀ i ∈ items, ReadsBack layout i) :
    ReadsBack layout (.array items) := by
  intro depth blanks hblanks rest _
  cases items with
  | nil =>
    have hprint : print layout depth (.array []) ++ rest = '[' :: ']' :: rest := by
      rw [print, printItems]
      rfl
    obtain ⟨_, hchar⟩ := reads_char hblanks (c := '[') rfl (']' :: rest)
    obtain ⟨_, hlast⟩ : ∃ h, readSeparator ']' (']' :: rest) = some (.last rest h) :=
      readSeparator_close blanks_nil ']' rfl (by decide) rest
    rw [hprint, readValue, hchar]
    simp only [Option.bind_eq_bind, Option.bind_some, hlast]
    exact ⟨_, rfl⟩
  | cons item items =>
    have hbreak := hlayout.lineBreak (depth + 1)
    have hprint : print layout depth (.array (item :: items)) ++ rest =
        '[' :: (layout.lineBreak (depth + 1) ++ (print layout (depth + 1) item ++
          arrayTail layout (depth + 1) (layout.lineBreak depth) rest items)) := by
      simp [print, printItems, enclose, arrayTail]
    obtain ⟨_, hitems⟩ :=
      reads_items hlayout h (depth + 1) hbreak (hlayout.lineBreak depth) rest
    obtain ⟨c, cs, hcs, hblank, hcomma, hclose, -⟩ :=
      (hexact item List.mem_cons_self).print_eq_cons layout (depth + 1)
    have hnone := readSeparator_none hbreak ']' hblank hcomma hclose
      (cs ++ arrayTail layout (depth + 1) (layout.lineBreak depth) rest items)
    rw [← List.cons_append, ← hcs] at hnone
    obtain ⟨_, hchar⟩ := reads_char hblanks (c := '[') rfl (layout.lineBreak (depth + 1) ++
      (print layout (depth + 1) item ++
        arrayTail layout (depth + 1) (layout.lineBreak depth) rest items))
    rw [hprint, readValue, hchar]
    simp only [Option.bind_eq_bind, Option.bind_some, hnone, hitems]
    exact ⟨_, rfl⟩

/-! ## Objects -/

/-- The members after the first, the bracket that closes an object, and what follows it. -/
def objectTail (layout : Layout) (depth : Nat) (ending rest : List Char)
    (members : List (Text × Json)) : List Char :=
  printMembers layout depth members ++ (ending ++ '\x7d' :: rest)

theorem objectTail_cons (depth : Nat) (ending : List Char) (m : Text × Json)
    (members : List (Text × Json)) :
    objectTail layout depth ending rest (m :: members) =
      ',' :: (layout.lineBreak depth ++
        (printMember layout depth m ++ objectTail layout depth ending rest members)) := by
  simp [objectTail, printMembers]

theorem printText_append (name : String) (s : List Char) :
    printText (some name) ++ s = '"' :: (name.toList.flatMap escape ++ '"' :: s) := by
  simp [printText, quote]

theorem reads_name (hblanks : Blanks blanks) (name : String) (rest : List Char) :
    Reads (readName (blanks ++ (printText (some name) ++ ':' :: rest))) (some name) rest := by
  rw [printText_append]
  obtain ⟨_, hquote⟩ := reads_char hblanks (c := '"') rfl
    (name.toList.flatMap escape ++ '"' :: ':' :: rest)
  obtain ⟨_, hstring⟩ := reads_string name.toList (':' :: rest)
  obtain ⟨_, hcolon⟩ : Reads (readChar (':' :: rest)) ':' rest := reads_char blanks_nil rfl rest
  rw [readName, hquote]
  simp only [Option.bind_eq_bind, Option.bind_some, hstring, hcolon, String.ofList_toList]
  exact ⟨_, rfl⟩

/-- **The members of an object** are read one after the other. -/
theorem reads_members (hlayout : layout.Neutral) {m : String × Json} {ms : List (String × Json)}
    (h : ∀ m' ∈ m :: ms, ReadsBack layout m'.2) (depth : Nat) {ending : List Char}
    (hblanks : Blanks blanks) (hending : Blanks ending) (rest : List Char) :
    Reads (readMembers (blanks ++ (printMember layout depth (some m.1, m.2) ++
      objectTail layout depth ending rest (ms.map fun m => (some m.1, m.2)))))
      ((m :: ms).map fun m => (some m.1, m.2)) rest := by
  obtain ⟨gap, hgap, hcolon⟩ := hlayout.colon
  have hmember : ∀ (m : String × Json) tail, printMember layout depth (some m.1, m.2) ++ tail =
      printText (some m.1) ++ ':' :: (gap ++ (print layout depth m.2 ++ tail)) := by
    simp [printMember, hcolon]
  have hvalue := h m List.mem_cons_self depth hgap
  rw [hmember]
  induction ms generalizing m blanks with
  | nil =>
    obtain ⟨_, hvalue⟩ := hvalue (hending.endsNumber (c := '\x7d') rfl rest)
    obtain ⟨_, hlast⟩ := readSeparator_close hending '\x7d' rfl (by decide) rest
    rw [List.map_nil, objectTail, printMembers, List.nil_append]
    obtain ⟨_, hname⟩ :=
      reads_name hblanks m.1 (gap ++ (print layout depth m.2 ++ (ending ++ '\x7d' :: rest)))
    rw [readMembers, hname]
    simp only [Option.bind_eq_bind, Option.bind_some, hvalue, hlast]
    exact ⟨_, rfl⟩
  | cons next ms ih =>
    have hnext : ∀ m ∈ next :: ms, ReadsBack layout m.2 := fun m hm =>
      h m (List.mem_cons_of_mem _ hm)
    have hmembers := ih hnext (hlayout.lineBreak depth) (hnext next List.mem_cons_self depth hgap)
    rw [← hmember] at hmembers
    rw [List.map_cons, objectTail_cons]
    -- what follows the comma matters only in that it is read as the members that are left
    generalize layout.lineBreak depth ++ (printMember layout depth (some next.1, next.2) ++
      objectTail layout depth ending rest (ms.map fun m => (some m.1, m.2))) = tail at hmembers ⊢
    obtain ⟨_, hmembers⟩ := hmembers
    obtain ⟨_, hvalue⟩ := hvalue (endsNumber_cons (c := ',') rfl tail)
    obtain ⟨_, hmore⟩ := readSeparator_comma '\x7d' tail
    obtain ⟨_, hname⟩ := reads_name hblanks m.1 (gap ++ (print layout depth m.2 ++ ',' :: tail))
    rw [readMembers, hname]
    simp only [Option.bind_eq_bind, Option.bind_some, hvalue, hmore, hmembers]
    exact ⟨_, rfl⟩

theorem readsBack_object (hlayout : layout.Neutral) {members : List (String × Json)}
    (h : ∀ m ∈ members, ReadsBack layout m.2) : ReadsBack layout (.ofMembers members) := by
  intro depth blanks hblanks rest _
  cases members with
  | nil =>
    have hprint : print layout depth (.ofMembers []) ++ rest = '\x7b' :: '\x7d' :: rest := by
      rw [ofMembers, print, List.map_nil, printMembers]
      rfl
    obtain ⟨_, hchar⟩ := reads_char hblanks (c := '\x7b') rfl ('\x7d' :: rest)
    obtain ⟨_, hlast⟩ : ∃ h, readSeparator '\x7d' ('\x7d' :: rest) = some (.last rest h) :=
      readSeparator_close blanks_nil '\x7d' rfl (by decide) rest
    rw [hprint, readValue, hchar]
    simp only [Option.bind_eq_bind, Option.bind_some, hlast]
    exact ⟨_, rfl⟩
  | cons m members =>
    have hbreak := hlayout.lineBreak (depth + 1)
    have hprint : print layout depth (.ofMembers (m :: members)) ++ rest =
        '\x7b' :: (layout.lineBreak (depth + 1) ++
          (printMember layout (depth + 1) (some m.1, m.2) ++
            objectTail layout (depth + 1) (layout.lineBreak depth) rest
              (members.map fun m => (some m.1, m.2)))) := by
      simp [ofMembers, print, printMembers, enclose, objectTail]
    obtain ⟨_, hmembers⟩ :=
      reads_members hlayout h (depth + 1) hbreak (hlayout.lineBreak depth) rest
    obtain ⟨cs, hcs⟩ : ∃ cs, printMember layout (depth + 1) (some m.1, m.2) = '"' :: cs :=
      ⟨_, by rw [printMember, List.append_assoc, printText_append]⟩
    have hnone := readSeparator_none hbreak (c := '"') '\x7d' rfl (by decide) (by decide)
      (cs ++ objectTail layout (depth + 1) (layout.lineBreak depth) rest
        (members.map fun m => (some m.1, m.2)))
    rw [← List.cons_append, ← hcs] at hnone
    obtain ⟨_, hchar⟩ := reads_char hblanks (c := '\x7b') rfl (layout.lineBreak (depth + 1) ++
      (printMember layout (depth + 1) (some m.1, m.2) ++
        objectTail layout (depth + 1) (layout.lineBreak depth) rest
          (members.map fun m => (some m.1, m.2))))
    rw [hprint, readValue, hchar]
    simp only [Option.bind_eq_bind, Option.bind_some, hnone, hmembers]
    exact ⟨_, rfl⟩

/-! ## Texts -/

/-- **A value reads back** from its printed form. -/
theorem Exact.readsBack (hlayout : layout.Neutral) {j : Json} (h : j.Exact) :
    ReadsBack layout j := by
  induction h with
  | null => exact readsBack_null
  | bool b => exact readsBack_bool b
  | integer n => exact readsBack_integer n
  | text s => exact readsBack_text s
  | array hexact ih => exact readsBack_array hlayout hexact ih
  | object _ ih => exact readsBack_object hlayout ih

/-- **The text of a value** is read as this value. -/
theorem Exact.parse?_pretty {j : Json} (h : j.Exact) : Json.parse? j.pretty = some j := by
  have hend : EndsNumber [] := fun c hc => by simp at hc
  have hread := h.readsBack Layout.neutral_lines 0 blanks_nil hend
  rw [List.nil_append, List.append_nil] at hread
  obtain ⟨_, hread⟩ := hread
  rw [Json.parse?, pretty, String.toList_ofList, hread]
  rfl

end TensorCost.Json
