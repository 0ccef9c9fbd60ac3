import TensorCost.Proofs.OrderedSet

/-!
# Ordered sets answer like plain lists

A program works with several ordered sets, some of them copies of others that go their own ways. It
gets the answers that it would get if each of them were a plain list in which nothing stands twice.

* `Plain.run` performs an operation on a plain list.
* `RowOp` is what a program does with a row of sets. `Keeping` says how one set is kept, and
  `Keeping.runAll` runs a program: `Keeping.hashed` keeps ordered sets, `Keeping.plain` lists.
* `Simulates` relates two ways of keeping sets to each other.

Results:
* `Tracks.run`: an operation on one set is answered as by the list that it stands for.
* `Simulates.step`, `Simulates.runAll`: what holds of one operation on one set holds of a program.
* `runAll_hashed`: ordered sets give the answers of plain lists.
-/

namespace TensorCost.OrderedSet

/-! ## Operations on plain lists -/

/-- Performs an operation on a plain list. -/
def Plain.run {α : Type} [BEq α] [Inspect α] (as : List α) : Op α → Answer α × List α
  | .add a => (.flag (!as.contains a), Plain.add as a)
  | .discard a => (.flag (as.contains a), Plain.discard as a)
  | .contains a => (.flag (as.contains a), as)
  | .extend bs => (.count (bs.foldl Plain.add as).length, bs.foldl Plain.add as)
  | .size => (.count as.length, as)
  | .isEmpty => (.flag as.isEmpty, as)
  | .elements => (.elements as, as)
  | .inspect => (.text (Inspect.tuple "OrderedSet" [inspect as]), as)
  | .discardFromCopy a => (.copy (as.contains a) (Plain.discard as a), as)
  | .clear => (.nothing, [])

/-! ## Programs on several sets -/

/-- What a program does with sets, which are named by the order in which they were made. -/
inductive RowOp (α : Type)
  | new
  | withCapacity (n : Nat)
  | ofList (as : List α)
  /-- Makes a copy of a set. -/
  | copy (slot : Nat)
  | on (slot : Nat) (op : Op α)

/-- A way to keep a set as a `σ`: how sets are made, and how an operation is performed on one. -/
structure Keeping (α σ : Type) where
  empty : σ
  withCapacity : Nat → σ
  ofList : List α → σ
  run : σ → Op α → Answer α × σ

namespace Keeping

variable {α σ : Type}

/-- Performs one operation on a row of sets. Nothing happens to a set that does not exist. -/
def step (k : Keeping α σ) (row : List σ) : RowOp α → Answer α × List σ
  | .new => (.nothing, row ++ [k.empty])
  | .withCapacity n => (.nothing, row ++ [k.withCapacity n])
  | .ofList as => (.nothing, row ++ [k.ofList as])
  | .copy slot => (.nothing, row ++ row[slot]?.toList)
  | .on slot op =>
    match row[slot]? with
    | none => (.nothing, row)
    | some s => ((k.run s op).1, row.set slot (k.run s op).2)

theorem step_on_none {k : Keeping α σ} {row : List σ} {slot : Nat} (h : row[slot]? = none)
    (op : Op α) : k.step row (.on slot op) = (.nothing, row) := by
  simp only [step, h]

theorem step_on_some {k : Keeping α σ} {row : List σ} {slot : Nat} {s : σ}
    (h : row[slot]? = some s) (op : Op α) :
    k.step row (.on slot op) = ((k.run s op).1, row.set slot (k.run s op).2) := by
  simp only [step, h]

/-- Performs operations one after the other, and gives the answers and the sets in the end. -/
def runAll (k : Keeping α σ) (row : List σ) : List (RowOp α) → List (Answer α) × List σ
  | [] => ([], row)
  | op :: ops =>
    let (answer, row') := k.step row op
    let (answers, row'') := k.runAll row' ops
    (answer :: answers, row'')

/-- Sets kept as ordered sets. -/
def hashed [BEq α] [Hashable α] [Inspect α] : Keeping α (OrderedSet α) where
  empty := .empty
  withCapacity := .withCapacity
  ofList := .ofList
  run := OrderedSet.run

/-- Sets kept as plain lists. -/
def plain [BEq α] [Inspect α] : Keeping α (List α) where
  empty := []
  withCapacity _ := []
  ofList as := as.foldl Plain.add []
  run := Plain.run

end Keeping

/-- Two ways to keep sets that give the same answers, on sets in relation `R`. -/
structure Simulates {α σ τ : Type} (R : σ → τ → Prop) (k : Keeping α σ) (k' : Keeping α τ) :
    Prop where
  empty : R k.empty k'.empty
  withCapacity : ∀ n, R (k.withCapacity n) (k'.withCapacity n)
  ofList : ∀ as, R (k.ofList as) (k'.ofList as)
  run : ∀ ⦃s t⦄, R s t → ∀ op, (k.run s op).1 = (k'.run t op).1 ∧ R (k.run s op).2 (k'.run t op).2

section Simulation

variable {α σ τ : Type} {R : σ → τ → Prop} {k : Keeping α σ} {k' : Keeping α τ} {row : List σ}
  {row' : List τ}

/-- **One operation** on rows of related sets gives the same answer and related sets. -/
theorem Simulates.step (h : Simulates R k k') (hrow : List.Forall₂ R row row') (op : RowOp α) :
    (k.step row op).1 = (k'.step row' op).1 ∧
      List.Forall₂ R (k.step row op).2 (k'.step row' op).2 := by
  cases op with
  | new => exact ⟨rfl, List.rel_append hrow (.cons h.empty .nil)⟩
  | withCapacity n => exact ⟨rfl, List.rel_append hrow (.cons (h.withCapacity n) .nil)⟩
  | ofList as => exact ⟨rfl, List.rel_append hrow (.cons (h.ofList as) .nil)⟩
  | copy slot =>
    refine ⟨rfl, List.rel_append hrow ?_⟩
    rcases getElem?_of_forall₂ hrow slot with ⟨hs, ht⟩ | ⟨s, t, hs, ht, hst⟩
    · rw [hs, ht]
      exact .nil
    · rw [hs, ht]
      exact .cons hst .nil
  | on slot op =>
    rcases getElem?_of_forall₂ hrow slot with ⟨hs, ht⟩ | ⟨s, t, hs, ht, hst⟩
    · rw [Keeping.step_on_none hs, Keeping.step_on_none ht]
      exact ⟨rfl, hrow⟩
    · obtain ⟨hanswer, hnext⟩ := h.run hst op
      rw [Keeping.step_on_some hs, Keeping.step_on_some ht]
      exact ⟨hanswer, set_of_forall₂ hrow hnext slot⟩

/-- **A program** gets the same answers. -/
theorem Simulates.runAll (h : Simulates R k k') (hrow : List.Forall₂ R row row')
    (ops : List (RowOp α)) :
    (k.runAll row ops).1 = (k'.runAll row' ops).1 ∧
      List.Forall₂ R (k.runAll row ops).2 (k'.runAll row' ops).2 := by
  induction ops generalizing row row' with
  | nil => exact ⟨rfl, hrow⟩
  | cons op ops ih =>
    obtain ⟨hanswer, hnext⟩ := h.step hrow op
    obtain ⟨hanswers, hrest⟩ := ih hnext
    exact ⟨congrArg₂ List.cons hanswer hanswers, hrest⟩

end Simulation

/-! ## Ordered sets and lists -/

variable {α : Type} [BEq α] [Hashable α] [EquivBEq α] [LawfulHashable α] {s : OrderedSet α}
  {as : List α}

/-- **An operation** on an ordered set answers like one on the list that it stands for, and the two
go on in step. -/
theorem Tracks.run [Inspect α] (h : Tracks s as) (op : Op α) :
    (s.run op).1 = (Plain.run as op).1 ∧ Tracks (s.run op).2 (Plain.run as op).2 := by
  have hlength : ∀ {t : OrderedSet α} {bs : List α}, Tracks t bs → t.size = bs.length :=
    fun ht => congrArg List.length ht.order
  cases op with
  | add a => exact ⟨congrArg (fun held => Answer.flag !held) (h.contains_eq a), h.add a⟩
  | discard a => exact ⟨congrArg Answer.flag (h.contains_eq a), h.discard a⟩
  | contains a => exact ⟨congrArg Answer.flag (h.contains_eq a), h⟩
  | extend bs => exact ⟨congrArg Answer.count (hlength (h.extend bs)), h.extend bs⟩
  | size => exact ⟨congrArg Answer.count (hlength h), h⟩
  | isEmpty =>
    refine ⟨congrArg Answer.flag ?_, h⟩
    rw [← h.order]
    exact Array.isEmpty_toList.symm
  | elements => exact ⟨congrArg Answer.elements h.order, h⟩
  | inspect =>
    refine ⟨congrArg Answer.text ?_, h⟩
    rw [← h.order]
    rfl
  | discardFromCopy a => exact ⟨congrArg₂ Answer.copy (h.contains_eq a) (h.discard a).order, h⟩
  | clear => exact ⟨rfl, tracks_empty⟩

theorem simulates_plain [Inspect α] :
    Simulates Tracks (Keeping.hashed : Keeping α (OrderedSet α)) Keeping.plain where
  empty := tracks_empty
  withCapacity := tracks_withCapacity
  ofList := tracks_empty.extend
  run _ _ h := h.run

/-- **Ordered sets answer like plain lists.** A program that works with any number of ordered sets,
some of them made as copies of others, gets the answers that it gets if it works with plain lists,
and the orders in the end are those lists. Then, and so after each operation on the way, the members
of a set are the elements of its order, no two of these are alike, and an element that is discarded
and added again goes to the end. -/
theorem runAll_hashed [Inspect α] (ops : List (RowOp α)) :
    (Keeping.hashed.runAll [] ops).1 = (Keeping.plain.runAll [] ops).1 ∧
      (Keeping.hashed.runAll [] ops).2.map toList = (Keeping.plain.runAll [] ops).2 ∧
      ∀ s ∈ (Keeping.hashed.runAll [] ops).2,
        s.members.toList.Perm s.toList ∧ (s.toList.Pairwise fun a b => (a == b) = false) ∧
          ∀ a, ((s.discard a).add a).toList = (s.toList.filter fun b => !(b == a)) ++ [a] := by
  obtain ⟨hanswers, hrow⟩ := simulates_plain.runAll .nil ops
  have horder : (Keeping.hashed.runAll [] ops).2.map toList =
      (Keeping.plain.runAll [] ops).2.map id :=
    map_eq_of_forall₂ hrow fun s as h => h.order
  rw [List.map_id] at horder
  refine ⟨hanswers, horder, ((List.forall₂_and_left _ _).mp (hrow.imp fun s as h => ⟨?_, h⟩)).1⟩
  rw [h.order]
  exact ⟨h.members, h.distinct, h.toList_add_discard⟩

/-- Two copies of a set, one of which loses an element and gets it back. -/
theorem runAll_hashed_of_copies :
    let ops : List (RowOp Nat) :=
      [.ofList [3, 1, 3], .copy 0, .on 0 (.discard 3), .on 1 (.add 2), .on 0 (.add 3),
        .on 0 .elements, .on 1 .elements]
    EquivBEq Nat ∧ LawfulHashable Nat ∧
      (Keeping.hashed.runAll [] ops).1 = [.nothing, .nothing, .flag true, .flag true, .flag true,
        .elements [1, 3], .elements [3, 1, 2]] ∧
      (Keeping.hashed.runAll [] ops).2.map toList = [[1, 3], [3, 1, 2]] := by
  intro ops
  obtain ⟨hanswers, horders, -⟩ := runAll_hashed ops
  exact ⟨inferInstance, inferInstance, hanswers.trans rfl, horders.trans rfl⟩

end TensorCost.OrderedSet
