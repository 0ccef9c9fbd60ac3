import TensorCost.Json.Reader

/-!
# Digits

Facts about the digits that numbers are written with, in any base up to sixteen, and about the
words that a text begins with.

Results:
* `takeWhile_append_of_all`: the leading characters of a kind are cut off where the kind ends.
* `head?_toDigits_eq_zero_iff`: only the number zero begins with a zero.
* `exists_digitChar_of_mem_toDigits`: what is written are digits of the base.
* `hexValue?_digitChar`, `hexValue?_toUpper_digitChar`: a digit that is written is read with its
  value.
* `foldlM_toDigits`: digits that are read one by one give the number they write.
* `toLower_eq_iff`: which characters have a small letter as their small form.
-/

namespace TensorCost

/-- The leading characters of a kind, and what is left after them. -/
theorem takeWhile_append_of_all {p : Char → Bool} {s rest : List Char} (hs : ∀ c ∈ s, p c = true)
    (hrest : ∀ c ∈ rest.head?, p c = false) :
    (s ++ rest).takeWhile p = s ∧ (s ++ rest).dropWhile p = rest := by
  rw [List.takeWhile_append_of_pos hs, List.dropWhile_append_of_pos hs]
  cases rest with
  | nil => simp
  | cons c rest =>
    have hc : p c = false := hrest c rfl
    simp [hc]

theorem isDigit_of_mem_toDigits {n : Nat} {c : Char} (h : c ∈ Nat.toDigits 10 n) :
    c.isDigit = true :=
  Nat.isDigit_of_mem_toDigits (by decide) (by decide) h

/-- Only the number zero begins with a zero. -/
theorem head?_toDigits_eq_zero_iff (n : Nat) : (Nat.toDigits 10 n).head? = some '0' ↔ n = 0 := by
  induction n using Nat.strongRecOn with
  | ind n ih =>
    rw [Nat.toDigits_eq_if (by decide)]
    split
    · simp
    · rename_i hle
      have hne : Nat.toDigits 10 (n / 10) ≠ [] := Nat.toDigits_ne_nil
      obtain ⟨c, cs, hcs⟩ := List.exists_cons_of_ne_nil hne
      have hrest := ih (n / 10) (by omega)
      rw [hcs] at hrest ⊢
      rw [List.cons_append, List.head?_cons, ← List.head?_cons (l := cs), hrest]
      omega

/-- What is written are digits of the base. -/
theorem exists_digitChar_of_mem_toDigits {base : Nat} (hbase : 1 < base) {n : Nat} {c : Char}
    (h : c ∈ Nat.toDigits base n) : ∃ d < base, c = Nat.digitChar d := by
  induction n using Nat.strongRecOn with
  | ind n ih =>
    rw [Nat.toDigits_eq_if hbase] at h
    split at h
    · rename_i hlt
      exact ⟨n, hlt, List.mem_singleton.mp h⟩
    · rename_i hle
      rcases List.mem_append.mp h with h | h
      · exact ih (n / base) (Nat.div_lt_self (by omega) hbase) h
      · exact ⟨n % base, Nat.mod_lt _ (by omega), List.mem_singleton.mp h⟩

theorem hexValue?_digitChar : ∀ d, d < 16 → Json.hexValue? (Nat.digitChar d) = some d := by
  decide

/-- A function that takes digits one by one, from the first on, finds the number they write. -/
theorem foldlM_toDigits {base : Nat} (hbase : 1 < base) {f : Nat → Char → Option Nat}
    (hf : ∀ m d, d < base → f m (Nat.digitChar d) = some (base * m + d)) (n : Nat) :
    (Nat.toDigits base n).foldlM f 0 = some n := by
  induction n using Nat.strongRecOn with
  | ind n ih =>
    rw [Nat.toDigits_eq_if hbase]
    split
    · rename_i hlt
      simp [hf 0 n hlt]
    · rename_i hle
      have hmod : n % base < base := Nat.mod_lt _ (by omega)
      have hdiv : base * (n / base) + n % base = n := Nat.div_add_mod n base
      rw [List.foldlM_append, ih (n / base) (Nat.div_lt_self (by omega) hbase)]
      simp [hf _ _ hmod, hdiv]

theorem hexValue?_toUpper_digitChar :
    ∀ d < 16, Json.hexValue? (Nat.digitChar d).toUpper = some d := by
  decide

/-! ## Letters and digits -/

theorem toNat_lt_of_isAlphanum {c : Char} (h : c.isAlphanum = true) : c.toNat < 128 := by
  have hcases : ((c.isUpper || c.isLower) || c.isDigit) = true := h
  rcases Bool.or_eq_true_iff.mp hcases with hletter | hdigit
  · rcases Bool.or_eq_true_iff.mp hletter with hupper | hlower
    · have hle : 'A'.val ≤ c.val ∧ c.val ≤ 'Z'.val := of_decide_eq_true hupper
      exact Nat.lt_of_le_of_lt (UInt32.le_iff_toNat_le.mp hle.2) (by decide)
    · have hle : c.val ≤ 'z'.val := of_decide_eq_true (Bool.and_eq_true_iff.mp hlower).2
      exact Nat.lt_of_le_of_lt (UInt32.le_iff_toNat_le.mp hle) (by decide)
  · have hle : c.val ≤ '9'.val := of_decide_eq_true (Bool.and_eq_true_iff.mp hdigit).2
    exact Nat.lt_of_le_of_lt (UInt32.le_iff_toNat_le.mp hle) (by decide)

theorem isAlphanum_of_isAlpha {c : Char} (h : c.isAlpha = true) : c.isAlphanum = true :=
  Bool.or_eq_true_iff.mpr (.inl h)

theorem isAlphanum_of_isDigit {c : Char} (h : c.isDigit = true) : c.isAlphanum = true :=
  Bool.or_eq_true_iff.mpr (.inr h)

theorem isAlpha_of_isUpper {c : Char} (h : c.isUpper = true) : c.isAlpha = true :=
  Bool.or_eq_true_iff.mpr (.inl h)

theorem isAlpha_of_isLower {c : Char} (h : c.isLower = true) : c.isAlpha = true :=
  Bool.or_eq_true_iff.mpr (.inr h)

/-- A small letter is the small form of itself and of its capital, and of nothing else. -/
theorem toLower_eq_iff {letter c : Char} (h : letter.isLower = true) :
    c.toLower = letter ↔ c = letter ∨ c = letter.toUpper := by
  have hupper : ∀ n < 128, (Char.ofNat n).isUpper = true →
      (Char.ofNat n).toLower.toUpper = Char.ofNat n := by
    decide +kernel
  have hlower : ∀ n < 128, (Char.ofNat n).isLower = true →
      (Char.ofNat n).toLower = Char.ofNat n ∧
        (Char.ofNat n).toUpper.toLower = Char.ofNat n := by
    decide +kernel
  have hletter := hlower letter.toNat
    (toNat_lt_of_isAlphanum (isAlphanum_of_isAlpha (isAlpha_of_isLower h)))
  rw [Char.ofNat_toNat] at hletter
  constructor
  · intro hc
    by_cases hcapital : c.isUpper = true
    · have hback := hupper c.toNat
        (toNat_lt_of_isAlphanum (isAlphanum_of_isAlpha (isAlpha_of_isUpper hcapital)))
      rw [Char.ofNat_toNat] at hback
      exact .inr (hc ▸ (hback hcapital).symm)
    · have hsame : c.toLower = c := dif_neg fun hc => hcapital (decide_eq_true hc)
      exact .inl (hsame ▸ hc)
  · rintro (rfl | rfl)
    · exact (hletter h).1
    · exact (hletter h).2

end TensorCost
