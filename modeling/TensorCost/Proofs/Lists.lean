import Mathlib.Data.List.Forall2
import Mathlib.Data.List.Nodup

/-!
# Lists

Facts about lists that have nothing to do with expressions: first occurrences, and functions that
are mapped or folded over a list and may fail.

Results:
* `eraseDups_filter`, `eraseDups_append_congr`: first occurrences may be taken before or after a
  filter, and part by part, as long as they are taken again at the end.
* `pairwise_mergeSort_of_tied`: sorting leaves elements that are tied in the order they had.
* `mapM_eq_some_iff`: a list of results is related to the list of arguments position by position.
* `foldlM_eq_error_iff`: a fold that fails does so at one element.
* `count_eq_of_forall₂`, `idxOf?_eq_of_forall₂`: counts and positions are kept by a relation under
  which elements can be told apart alike.
-/

namespace TensorCost

/-! ## First occurrences -/

section FirstOccurrences

variable {α : Type} [BEq α] [LawfulBEq α]

/-- The first occurrences of a list are distinct. -/
theorem nodup_eraseDups : ∀ as : List α, as.eraseDups.Nodup
  | [] => by simp
  | a :: as => by
    rw [List.eraseDups_cons, List.nodup_cons]
    refine ⟨fun h => ?_, nodup_eraseDups _⟩
    simpa using (List.mem_filter.mp (List.mem_eraseDups.mp h)).2
termination_by as => as.length
decreasing_by all_goals exact Nat.lt_succ_of_le (List.length_filter_le _ _)

/-- A list without repetitions is the list of its first occurrences. -/
theorem eraseDups_of_nodup {as : List α} (h : as.Nodup) : as.eraseDups = as := by
  induction as with
  | nil => rfl
  | cons a as ih =>
    obtain ⟨ha, has⟩ := List.nodup_cons.mp h
    have hkeep : as.filter (fun b => !b == a) = as := by
      refine List.filter_eq_self.mpr fun b hb => ?_
      have hne : b ≠ a := fun hba => ha (hba ▸ hb)
      simpa using hne
    rw [List.eraseDups_cons, hkeep, ih has]

/-- A filter may be applied before or after first occurrences are taken. -/
theorem eraseDups_filter (keep : α → Bool) :
    ∀ as : List α, (as.filter keep).eraseDups = as.eraseDups.filter keep
  | [] => by simp
  | a :: as => by
    rw [List.eraseDups_cons]
    by_cases ha : keep a = true
    · rw [List.filter_cons_of_pos ha, List.filter_cons_of_pos ha, List.eraseDups_cons,
        List.filter_comm, eraseDups_filter keep]
    · rw [List.filter_cons_of_neg ha, List.filter_cons_of_neg ha, ← eraseDups_filter keep,
        List.filter_filter]
      -- an element that is filtered out cannot be the one that `a` would have hidden
      congr 1
      refine List.filter_congr fun b _ => ?_
      by_cases hb : b = a
      · simp [hb, ha]
      · simp [hb]
termination_by as => as.length
decreasing_by all_goals exact Nat.lt_succ_of_le (List.length_filter_le _ _)

/-- First occurrences of an appended list depend on the parts through their first occurrences. -/
theorem eraseDups_append_congr {as as' bs bs' : List α} (ha : as.eraseDups = as'.eraseDups)
    (hb : bs.eraseDups = bs'.eraseDups) : (as ++ bs).eraseDups = (as' ++ bs').eraseDups := by
  have hmem : ∀ x, x ∈ as ↔ x ∈ as' := fun x => by
    rw [← List.mem_eraseDups (l := as), ha, List.mem_eraseDups]
  rw [List.eraseDups_append, List.eraseDups_append, ha]
  unfold List.removeAll
  have helem : (fun x => !as.elem x) = fun x => !as'.elem x := by
    funext x
    rw [Bool.eq_iff_iff]
    simp [hmem]
  rw [eraseDups_filter, eraseDups_filter, hb, helem]

/-- What has been met before is no first occurrence. -/
theorem eraseDups_append_of_subset {as bs : List α}
    (h : ∀ b ∈ bs, b ∈ as) : (as ++ bs).eraseDups = as.eraseDups := by
  have hnone : bs.removeAll as = [] := List.filter_eq_nil_iff.mpr fun b hb => by simp [h b hb]
  rw [List.eraseDups_append, hnone]
  simp

theorem eraseDups_concat {as : List α} {a : α} (h : a ∉ as) :
    (as ++ [a]).eraseDups = as.eraseDups ++ [a] := by
  have hall : [a].removeAll as = [a] := List.filter_eq_self.mpr fun b hb => by
    rw [List.mem_singleton.mp hb]
    simp [h]
  rw [List.eraseDups_append, hall]
  rfl

/-- An element comes after the distinct elements that stand before its first occurrence. -/
theorem eraseDups_concat_prefix {before after : List α} {a : α} (h : a ∉ before) :
    before.eraseDups ++ [a] <+: (before ++ a :: after).eraseDups := by
  rw [List.append_cons before a after, List.eraseDups_append, eraseDups_concat h]
  exact List.prefix_append _ _

end FirstOccurrences

/-! ## Sorting -/

section Sorting

variable {α : Type} {le : α → α → Bool} {as : List α}

/-- Elements that are in order already stand in the sorted list as they did before. -/
theorem filter_mergeSort (htrans : ∀ a b c, le a b = true → le b c = true → le a c = true)
    (htotal : ∀ a b, (le a b || le b a) = true) {keep : α → Bool}
    (h : (as.filter keep).Pairwise fun a b => le a b = true) :
    (as.mergeSort le).filter keep = as.filter keep := by
  have hkept : (as.filter keep).Sublist ((as.mergeSort le).filter keep) := by
    simpa using (List.sublist_mergeSort htrans htotal h List.filter_sublist).filter keep
  have hperm : ((as.mergeSort le).filter keep).Perm (as.filter keep) :=
    (List.mergeSort_perm as le).filter keep
  exact (hkept.eq_of_length hperm.length_eq.symm).symm

/-- **Sorting is stable**: what holds of elements in their old order still holds of those that are
tied. -/
theorem pairwise_mergeSort_of_tied
    (htrans : ∀ a b c, le a b = true → le b c = true → le a c = true)
    (htotal : ∀ a b, (le a b || le b a) = true) {R : α → α → Prop} (h : as.Pairwise R) :
    (as.mergeSort le).Pairwise fun a b => le a b = true ∧ (le b a = true → R a b) := by
  refine List.pairwise_iff_forall_sublist.mpr fun {a b} hab => ?_
  have hle : le a b = true :=
    List.pairwise_iff_forall_sublist.mp (List.pairwise_mergeSort htrans htotal as) hab
  refine ⟨hle, fun hba => ?_⟩
  -- those that are tied with `a` are in order, whichever comes first
  have htied : (as.mergeSort le).filter (fun c => le a c && le c a) =
      as.filter fun c => le a c && le c a := by
    refine filter_mergeSort htrans htotal (List.pairwise_of_forall_mem_list fun c hc d hd => ?_)
    obtain ⟨-, hca⟩ := Bool.and_eq_true_iff.mp (List.mem_filter.mp hc).2
    obtain ⟨had, -⟩ := Bool.and_eq_true_iff.mp (List.mem_filter.mp hd).2
    exact htrans c a d hca had
  have haa : le a a = true := by simpa using htotal a a
  have hpair : [a, b].Sublist (as.filter fun c => le a c && le c a) := by
    rw [← htied]
    simpa [haa, hle, hba] using hab.filter fun c => le a c && le c a
  exact List.pairwise_iff_forall_sublist.mp h (hpair.trans List.filter_sublist)

/-- Falling order by a number is transitive. -/
theorem falling_trans (f : α → Nat) (a b c : α) (hab : decide (f b ≤ f a) = true)
    (hbc : decide (f c ≤ f b) = true) : decide (f c ≤ f a) = true :=
  decide_eq_true (Nat.le_trans (of_decide_eq_true hbc) (of_decide_eq_true hab))

/-- Falling order by a number is total. -/
theorem falling_total (f : α → Nat) (a b : α) :
    (decide (f b ≤ f a) || decide (f a ≤ f b)) = true := by
  simp [Nat.le_total]

end Sorting

/-! ## Looking past the end -/

/-- Looking up the first `k` positions of a list gives its elements, and nothing past its end. -/
theorem map_getElem?_range {α : Type} (as : List α) (k : Nat) :
    (List.range k).map (fun i => as[i]?) =
      (as.take k).map some ++ List.replicate (k - as.length) none := by
  induction as generalizing k with
  | nil => simp
  | cons a as ih =>
    cases k with
    | zero => simp
    | succ k =>
      rw [List.range_succ_eq_map, List.map_cons, List.map_map, List.take_succ_cons, List.map_cons,
        List.length_cons, Nat.add_sub_add_right, List.cons_append, ← ih k]
      rfl

/-! ## Functions that may fail -/

section Failures

variable {ε σ α β : Type}

theorem mapM_eq_some_iff {f : α → Option β} {as : List α} {bs : List β} :
    as.mapM f = some bs ↔ List.Forall₂ (fun a b => f a = some b) as bs := by
  induction as generalizing bs with
  | nil => cases bs <;> simp
  | cons a as ih =>
    cases bs with
    | nil => simp [Option.bind_eq_some_iff]
    | cons b bs =>
      rw [List.forall₂_cons, ← ih]
      simp only [List.mapM_cons, bind, Option.bind_eq_some_iff, pure, Option.some.injEq,
        List.cons.injEq]
      constructor
      · rintro ⟨b', hb, bs', hbs, rfl, rfl⟩
        exact ⟨hb, hbs⟩
      · rintro ⟨hb, hbs⟩
        exact ⟨b, hb, bs, hbs, rfl, rfl⟩

theorem exists_mapM_eq_some {f : α → Option β} {as : List α}
    (h : ∀ a ∈ as, ∃ b, f a = some b) : ∃ bs, as.mapM f = some bs := by
  induction as with
  | nil => exact ⟨[], rfl⟩
  | cons a as ih =>
    obtain ⟨b, hb⟩ := h a List.mem_cons_self
    obtain ⟨bs, hbs⟩ := ih fun a' ha' => h a' (List.mem_cons_of_mem _ ha')
    exact ⟨b :: bs, by simp [hb, hbs]⟩

theorem mapM_congr_left {f g : α → Option β} {as : List α}
    (h : ∀ a ∈ as, f a = g a) : as.mapM f = as.mapM g := by
  induction as with
  | nil => rfl
  | cons a as ih =>
    rw [List.mapM_cons, List.mapM_cons, h a List.mem_cons_self,
      ih fun a' ha' => h a' (List.mem_cons_of_mem _ ha')]

theorem eq_of_forall₂ {R : α → β → Prop} {as as' : List α} {bs : List β}
    (h : List.Forall₂ R as bs) (h' : List.Forall₂ R as' bs)
    (hinj : ∀ a ∈ as, ∀ a' b, R a b → R a' b → a = a') : as = as' := by
  induction h generalizing as' with
  | nil => exact (List.forall₂_nil_right_iff.mp h').symm
  | @cons a b as bs hab _ ih =>
    obtain ⟨a', as', hab', hrest, rfl⟩ := List.forall₂_cons_right_iff.mp h'
    have hhead : a = a' := hinj a List.mem_cons_self a' b hab hab'
    have htail : as = as' := ih hrest fun x hx => hinj x (List.mem_cons_of_mem _ hx)
    rw [hhead, htail]

theorem bind_eq_ok_iff {x : Except ε α} {f : α → Except ε β} {b : β} :
    x >>= f = .ok b ↔ ∃ a, x = .ok a ∧ f a = .ok b := by
  cases x with
  | error e => simp [bind, Except.bind]
  | ok a => simp [bind, Except.bind]

theorem exists_of_mem_mapM {f : α → Except ε β} {as : List α} {bs : List β}
    (h : as.mapM f = .ok bs) : ∀ b ∈ bs, ∃ a ∈ as, f a = .ok b := by
  induction as generalizing bs with
  | nil =>
    obtain rfl : bs = [] := by simpa [pure, Except.pure] using h.symm
    exact fun b hb => absurd hb List.not_mem_nil
  | cons a as ih =>
    rw [List.mapM_cons, bind_eq_ok_iff] at h
    obtain ⟨b, hb, h⟩ := h
    obtain ⟨bs', hbs, h⟩ := bind_eq_ok_iff.mp h
    obtain rfl : b :: bs' = bs := by simpa [pure, Except.pure] using h
    intro b' hb'
    rcases List.mem_cons.mp hb' with rfl | hb'
    · exact ⟨a, List.mem_cons_self, hb⟩
    · obtain ⟨a', ha', hab⟩ := ih hbs b' hb'
      exact ⟨a', List.mem_cons_of_mem _ ha', hab⟩

/-- **A fold that fails** does so at one element, after it has succeeded on those before. -/
theorem foldlM_eq_error_iff {f : σ → α → Except ε σ} {as : List α} {s : σ} {e : ε} :
    as.foldlM f s = .error e ↔
      ∃ before a after s', as = before ++ a :: after ∧ before.foldlM f s = .ok s' ∧
        f s' a = .error e := by
  constructor
  · intro h
    induction as generalizing s with
    | nil => exact absurd h (by simp [pure, Except.pure])
    | cons a as ih =>
      rw [List.foldlM_cons] at h
      cases hs : f s a with
      | error e' =>
        rw [hs] at h
        exact ⟨[], a, as, s, rfl, rfl, hs.trans h⟩
      | ok s' =>
        rw [hs] at h
        obtain ⟨before, b, after, t, rfl, hbefore, hb⟩ := ih h
        refine ⟨a :: before, b, after, t, rfl, ?_, hb⟩
        rw [List.foldlM_cons, hs]
        exact hbefore
  · rintro ⟨before, a, after, s', rfl, hbefore, ha⟩
    rw [List.foldlM_append, hbefore]
    show (a :: after).foldlM f s' = .error e
    rw [List.foldlM_cons, ha]
    rfl

end Failures

/-! ## Related lists -/

section Related

variable {ε σ α β γ : Type} {R : α → β → Prop} {as : List α} {bs : List β} {a : α} {b : β}

theorem map_eq_of_forall₂ {f : α → γ} {g : β → γ} (h : List.Forall₂ R as bs)
    (hfg : ∀ a b, R a b → f a = g b) : as.map f = bs.map g := by
  rw [← List.forall₂_eq_eq_eq, List.forall₂_map_left_iff, List.forall₂_map_right_iff]
  exact h.imp hfg

theorem filterMap_eq_of_forall₂ {f : α → Option γ} {g : β → Option γ} (h : List.Forall₂ R as bs)
    (hfg : ∀ a b, R a b → f a = g b) : as.filterMap f = bs.filterMap g := by
  induction h with
  | nil => rfl
  | @cons a b as bs hab _ ih => rw [List.filterMap_cons, List.filterMap_cons, hfg a b hab, ih]

theorem foldlM_eq_of_forall₂ {f : σ → α → Except ε σ} {g : σ → β → Except ε σ}
    (h : List.Forall₂ R as bs) (hfg : ∀ s a b, R a b → f s a = g s b) (s : σ) :
    as.foldlM f s = bs.foldlM g s := by
  induction h generalizing s with
  | nil => rfl
  | @cons a b as bs hab _ ih =>
    rw [List.foldlM_cons, List.foldlM_cons, hfg s a b hab]
    exact congrArg _ (funext ih)

/-- Related lists are of one length, and related position by position. -/
theorem getElem?_of_forall₂ (h : List.Forall₂ R as bs) (i : Nat) :
    (as[i]? = none ∧ bs[i]? = none) ∨ ∃ a b, as[i]? = some a ∧ bs[i]? = some b ∧ R a b := by
  induction h generalizing i with
  | nil => exact .inl ⟨rfl, rfl⟩
  | @cons a b _ _ hab _ ih =>
    cases i with
    | zero => exact .inr ⟨a, b, rfl, rfl, hab⟩
    | succ i => exact ih i

theorem set_of_forall₂ (h : List.Forall₂ R as bs) (hab : R a b) (i : Nat) :
    List.Forall₂ R (as.set i a) (bs.set i b) := by
  induction h generalizing i with
  | nil => exact .nil
  | cons hcd hrest ih =>
    cases i with
    | zero => exact .cons hab hrest
    | succ i => exact .cons hcd (ih i)

variable [DecidableEq α] [DecidableEq β]

theorem count_eq_of_forall₂ (hR : Relator.BiUnique R) (h : List.Forall₂ R as bs) (hab : R a b) :
    as.count a = bs.count b := by
  induction h with
  | nil => rfl
  | @cons c d cs ds hcd _ ih =>
    rw [List.count_cons, List.count_cons, ih]
    simp only [beq_iff_eq, Relator.rel_eq hR hcd hab]

theorem idxOf?_eq_of_forall₂ (hR : Relator.BiUnique R) (h : List.Forall₂ R as bs) (hab : R a b) :
    as.idxOf? a = bs.idxOf? b := by
  induction h with
  | nil => rfl
  | @cons c d cs ds hcd _ ih =>
    rw [List.idxOf?_cons, List.idxOf?_cons, ih]
    simp only [beq_iff_eq, Relator.rel_eq hR hcd hab]

end Related

end TensorCost
