import TensorCost.OrderedSet
import TensorCost.Proofs.Lists

/-!
# Ordered sets are lists

An `OrderedSet` keeps its elements twice, in an array for their order and in a hash set for
membership. The two stay in step with a plain list in which nothing stands twice. Elements are told
apart by `==`, which need not be equality: of two elements that are alike the one that came first is
kept.

* `Plain.add` and `Plain.discard` add an element to a plain list and take one out.
* `Tracks` relates an ordered set to the list that it stands for. `Consistent` says that there is
  one, where elements are told apart by equality.

Results:
* `Tracks.add`, `Tracks.discard`: the two halves of a set stay in step with the list.
* `toList_ofList`: the set made from a list holds the first occurrence of each of its elements.
-/

namespace TensorCost.OrderedSet

/-! ## Plain lists -/

section Plain

variable {α : Type} [BEq α]

/-- The list with `a` at its end, unless it is in the list. -/
def Plain.add (as : List α) (a : α) : List α := if as.contains a then as else as ++ [a]

/-- The list without `a`. -/
def Plain.discard (as : List α) (a : α) : List α := as.filter fun b => !(b == a)

theorem beq_eq_false_of_not_contains [EquivBEq α] {as : List α} {a b : α}
    (h : ¬ as.contains a = true) (hb : b ∈ as) : (b == a) = false := by
  rw [BEq.comm]
  exact Bool.eq_false_iff.mpr fun hab => h (List.contains_iff_exists_mem_beq.mpr ⟨b, hb, hab⟩)

/-- In a list in which nothing stands twice, the first element alike to `a` is the only one. -/
theorem erase_eq_discard [EquivBEq α] {as : List α}
    (has : as.Pairwise fun a b => (a == b) = false) (a : α) : as.erase a = Plain.discard as a := by
  induction as with
  | nil => rfl
  | cons b as ih =>
    obtain ⟨hb, hrest⟩ := List.pairwise_cons.mp has
    unfold Plain.discard
    rw [List.erase_cons]
    by_cases hba : b == a
    · rw [if_pos hba, List.filter_cons_of_neg (by simpa using hba)]
      refine (List.filter_eq_self.mpr fun c hc => ?_).symm
      rw [← BEq.congr_right hba, BEq.comm, hb c hc]
      rfl
    · rw [if_neg hba, List.filter_cons_of_pos (by simpa using hba), ih hrest]
      rfl

end Plain

/-! ## The two halves of a set -/

variable {α : Type} [BEq α] [Hashable α]

/-- An ordered set that stands for a list in which nothing stands twice: the order is that of the
list, and the members are its elements. -/
structure Tracks (s : OrderedSet α) (as : List α) : Prop where
  order : s.toList = as
  members : s.members.toList.Perm as
  distinct : as.Pairwise fun a b => (a == b) = false

variable {s : OrderedSet α} {as : List α}

theorem tracks_withCapacity (n : Nat) : Tracks (withCapacity n : OrderedSet α) [] where
  order := rfl
  members := by rw [withCapacity, Std.HashSet.toList_emptyWithCapacity]
  distinct := .nil

theorem tracks_empty : Tracks (empty : OrderedSet α) [] where
  order := rfl
  members := by rw [empty, Std.HashSet.toList_empty]
  distinct := .nil

section Alike

variable [EquivBEq α] [LawfulHashable α]

/-- Membership, which the hash set answers, is membership in the list. -/
theorem Tracks.contains_eq (h : Tracks s as) (a : α) : s.contains a = as.contains a := by
  unfold OrderedSet.contains
  rw [← Std.HashSet.contains_toList, h.members.contains_eq]

theorem Tracks.add (h : Tracks s as) (a : α) : Tracks (s.add a) (Plain.add as a) := by
  have hmem := h.contains_eq a
  unfold OrderedSet.add Plain.add
  by_cases ha : as.contains a
  · rw [if_pos (hmem.trans ha), if_pos ha]
    exact h
  · rw [if_neg (hmem ▸ ha), if_neg ha]
    refine ⟨?_, ?_, ?_⟩
    · rw [← h.order]
      exact Array.toList_push
    · have hinsert := Std.HashSet.toList_insert_perm (m := s.members) (k := a)
      rw [if_neg fun hm : a ∈ s.members => ha (hmem.symm.trans hm)] at hinsert
      exact hinsert.trans ((h.members.cons a).trans (List.perm_append_singleton a as).symm)
    · refine List.pairwise_append.mpr ⟨h.distinct, List.pairwise_singleton _ _, fun b hb c hc => ?_⟩
      rw [List.mem_singleton.mp hc]
      exact beq_eq_false_of_not_contains ha hb

theorem Tracks.extend (h : Tracks s as) (bs : List α) :
    Tracks (s.extend bs) (bs.foldl Plain.add as) := by
  induction bs generalizing s as with
  | nil => exact h
  | cons b bs ih => exact ih (h.add b)

/-- Looking up after an element has been erased, or after all that is alike to it is left out. -/
theorem get?_erase_eq_filter (m : Std.HashSet α) (a b : α) :
    (m.erase a).get? b = (m.filter fun c => !(c == a)).get? b := by
  rw [Std.HashSet.get?_erase, Std.HashSet.get?_filter]
  cases hget : m.get? b with
  | none => rw [ite_self, Option.filter_none]
  | some c =>
    have hcb : c == b := by
      have hall := Std.HashSet.get?_beq (m := m) (k := b)
      rwa [hget] at hall
    rw [Option.filter_some, BEq.congr_left hcb, BEq.comm (a := b)]
    cases a == b <;> rfl

theorem Tracks.discard (h : Tracks s as) (a : α) : Tracks (s.discard a) (Plain.discard as a) := by
  have hmem := h.contains_eq a
  unfold OrderedSet.discard
  by_cases ha : as.contains a
  · rw [if_pos (hmem.trans ha)]
    refine ⟨?_, ?_, h.distinct.filter _⟩
    · rw [← erase_eq_discard h.distinct, ← h.order]
      have herase : s.order.toList.toArray.erase a = (s.order.toList.erase a).toArray :=
        List.erase_toArray
      exact congrArg Array.toList herase
    · have herase : (s.members.erase a).Equiv (s.members.filter fun b => !(b == a)) :=
        .of_forall_get?_eq fun b => get?_erase_eq_filter s.members a b
      exact herase.toList_perm.trans (Std.HashSet.toList_filter.trans (h.members.filter _))
  · rw [if_neg (hmem ▸ ha)]
    have hself : Plain.discard as a = as := List.filter_eq_self.mpr fun b hb => by
      rw [beq_eq_false_of_not_contains ha hb]
      rfl
    rwa [hself]

/-- What has been discarded goes to the end when it is added again. -/
theorem Tracks.toList_add_discard (h : Tracks s as) (a : α) :
    ((s.discard a).add a).toList = Plain.discard as a ++ [a] := by
  rw [((h.discard a).add a).order]
  refine if_neg fun hmem => ?_
  obtain ⟨b, hb, hab⟩ := List.contains_iff_exists_mem_beq.mp hmem
  have hba := (List.mem_filter.mp hb).2
  rw [BEq.comm, hab] at hba
  cases hba

end Alike

/-! ## Elements told apart by equality -/

/-- The members of a set are the elements of its order, in which none stands twice. -/
structure Consistent (s : OrderedSet α) : Prop where
  contains_iff : ∀ a, s.contains a = true ↔ a ∈ s.toList
  nodup : s.toList.Nodup

theorem toList_empty : (empty : OrderedSet α).toList = [] := rfl

theorem mem_of_mem_toList_add {s : OrderedSet α} {a b : α} (h : b ∈ (s.add a).toList) :
    b ∈ s.toList ∨ b = a := by
  unfold add at h
  split at h
  · exact Or.inl h
  · rw [toList, Array.toList_push, List.mem_append, List.mem_singleton] at h
    exact h

theorem Consistent.contains_eq_false_iff {s : OrderedSet α} (hs : s.Consistent) (a : α) :
    s.contains a = false ↔ a ∉ s.toList := by
  rw [← Bool.not_eq_true, hs.contains_iff]

variable [LawfulBEq α]

/-- A set is consistent iff it stands for the list in its order. -/
theorem consistent_iff : s.Consistent ↔ Tracks s s.toList := by
  constructor
  · intro hs
    have hmembers : s.members.toList.Nodup :=
      Std.HashSet.distinct_toList.imp fun hne => ne_of_beq_false hne
    refine ⟨rfl, (List.perm_ext_iff_of_nodup hmembers hs.nodup).mpr fun a => ?_,
      hs.nodup.imp beq_false_of_ne⟩
    rw [Std.HashSet.mem_toList, ← hs.contains_iff]
    rfl
  · intro h
    refine ⟨fun a => ?_, h.distinct.imp fun hne => ne_of_beq_false hne⟩
    rw [h.contains_eq, List.contains_iff_mem]

theorem Tracks.consistent (h : Tracks s as) : s.Consistent :=
  consistent_iff.mpr (h.order ▸ h)

theorem consistent_empty : (empty : OrderedSet α).Consistent := tracks_empty.consistent

theorem Consistent.add (hs : s.Consistent) (a : α) : (s.add a).Consistent :=
  ((consistent_iff.mp hs).add a).consistent

/-- Adding an element puts it at the end unless it is there. -/
theorem Consistent.toList_add (hs : s.Consistent) (a : α) :
    (s.add a).toList = if a ∈ s.toList then s.toList else s.toList ++ [a] := by
  rw [((consistent_iff.mp hs).add a).order, Plain.add]
  simp only [List.contains_iff_mem]

/-- Adding a list of elements puts the new ones at the end, in the order of first occurrences. -/
theorem Consistent.toList_extend (hs : s.Consistent) (as : List α) :
    (s.extend as).toList =
      s.toList ++ (as.filter fun a => !s.toList.elem a).eraseDups := by
  induction as generalizing s with
  | nil => simp [extend]
  | cons a as ih =>
    have hstep : s.extend (a :: as) = (s.add a).extend as := rfl
    rw [hstep, ih (hs.add a), hs.toList_add]
    by_cases ha : a ∈ s.toList
    · rw [if_pos ha, List.filter_cons_of_neg (by simpa using ha)]
    · rw [if_neg ha, List.filter_cons_of_pos (by simpa using ha), List.eraseDups_cons,
        List.append_assoc, List.singleton_append, List.filter_filter]
      congr 4
      funext b
      rw [Bool.eq_iff_iff]
      simp [and_comm]

/-- **A set made from a list** lists the first occurrences of its elements. -/
theorem toList_ofList (as : List α) : (ofList as).toList = as.eraseDups := by
  unfold ofList
  rw [consistent_empty.toList_extend, toList_empty]
  simp

end TensorCost.OrderedSet
