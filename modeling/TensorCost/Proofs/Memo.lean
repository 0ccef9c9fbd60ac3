import Mathlib.Data.List.Induction
import TensorCost.Memo

/-!
# What slots return

Slots are made empty or as copies of others, and values are asked for in any order. What a slot
returns can be told from the history of the operations alone: from the first value that it was
offered since it was made, unless it was made as a copy of a slot that had a value by then.

* `Bank.runAll` performs operations one after the other, and `Bank.Fits` says that they name slots
  that exist.
* `Bank.Recalls` says which value a slot has after a history, if it has one.
* `Bank.callsOn` is the number of computations run on a slot.

Results:
* `run_cases`: an operation makes a slot, runs a computation on an empty one or changes nothing.
* `slots_run`, `slots_runAll`: a slot keeps its value, or takes the first one that it is offered.
* `Recalls.slots`, `slots_iff`: slots have the values that the history says.
* `callsOn_le_one`: at most one computation is run on a slot.
* `memoises`: answers, computations and copies over whole histories.
-/

namespace TensorCost.Memo.Bank

variable {α : Type}

/-! ## Histories -/

namespace Op

/-- The slot that an operation names. -/
def slot? : Op α → Option Nat
  | new => none
  | copy i | compute i _ | get i | isComputed i | inspect i => some i

/-- Whether an operation makes a slot. -/
def makes : Op α → Bool
  | new | copy _ => true
  | compute _ _ | get _ | isComputed _ | inspect _ => false

/-- The value that a slot is offered by an operation: the one that comes of its computation. -/
def offers (i : Nat) : Op α → Option α
  | compute j a => if j = i then some a else none
  | new | copy _ | get _ | isComputed _ | inspect _ => none

/-- The answer to an operation, by the number of slots and the value of the slot that it names. -/
def reply [Inspect α] (size : Nat) (value? : Option α) : Op α → Answer α
  | new | copy _ => .slot size
  | compute _ a => .value (some (value?.getD a))
  | get _ => .value value?
  | isComputed _ => .flag value?.isSome
  | inspect _ => .text (TensorCost.inspect (⟨value?⟩ : Memo α))

/-- A slot is offered something only by operations that name it. -/
theorem offers_eq_none {op : Op α} {i : Nat} (h : op.slot? ≠ some i) : op.offers i = none := by
  cases op with
  | compute j a => exact if_neg fun heq => h (congrArg some heq)
  | _ => rfl

end Op

/-- The number of slots after a history that starts with one. -/
def made (ops : List (Op α)) : Nat := 1 + ops.countP Op.makes

/-- The first value that a slot is offered in a history. -/
def given (i : Nat) (ops : List (Op α)) : Option α := ops.findSome? (Op.offers i)

/-- Whether operations name slots that exist when there are `size` of them to begin with. -/
def Fits : Nat → List (Op α) → Prop
  | _, [] => True
  | size, op :: ops => (∀ i ∈ op.slot?, i < size) ∧ Fits (size + if op.makes then 1 else 0) ops

/-- The value of a slot after a history, none if it is empty: the value that its source had when it
was made as a copy, or else the first one that it has been offered since it was made. -/
inductive Recalls : List (Op α) → Nat → Option α → Prop
  | first (ops : List (Op α)) : Recalls ops 0 (given 0 ops)
  | new (before after : List (Op α)) :
      Recalls (before ++ .new :: after) (made before) (given (made before) after)
  | copy {before : List (Op α)} {j : Nat} {value? : Option α} (source : Recalls before j value?)
      (after : List (Op α)) :
      Recalls (before ++ .copy j :: after) (made before)
        (value?.or (given (made before) after))

variable {i : Nat} {op : Op α} {ops before mid after : List (Op α)} {value? : Option α}

theorem made_append (before after : List (Op α)) :
    made (before ++ after) = made before + after.countP Op.makes := by
  rw [made, made, List.countP_append, Nat.add_assoc]

theorem given_append (i : Nat) (before after : List (Op α)) :
    given i (before ++ after) = (given i before).or (given i after) := List.findSome?_append

theorem fits_append {size : Nat} :
    Fits size (before ++ after) ↔
      Fits size before ∧ Fits (size + before.countP Op.makes) after := by
  induction before generalizing size with
  | nil => exact (true_and _).symm.to_iff
  | cons op before ih =>
    rw [List.cons_append, Fits, Fits, ih, List.countP_cons, Nat.add_comm (before.countP _),
      Nat.add_assoc, and_assoc]

/-- A history that goes on: the slot keeps its value, or takes the first one that it is offered. -/
theorem Recalls.append (h : Recalls before i value?) (after : List (Op α)) :
    Recalls (before ++ after) i (value?.or (given i after)) := by
  cases h with
  | first =>
    rw [← given_append]
    exact .first _
  | new before mid =>
    rw [← given_append, List.append_assoc]
    exact .new before _
  | copy source mid =>
    rw [Option.or_assoc, ← given_append, List.append_assoc]
    exact .copy source _

/-- **There is something to recall** for every slot that a history has made. -/
theorem exists_recalls (h : Fits 1 ops) (hi : i < made ops) : ∃ value?, Recalls ops i value? := by
  induction ops using List.reverseRecOn generalizing i with
  | nil =>
    obtain rfl : i = 0 := Nat.lt_one_iff.mp hi
    exact ⟨_, .first []⟩
  | append_singleton ops op ih =>
    obtain ⟨hops, hop, -⟩ := fits_append.mp h
    rw [made_append, List.countP_singleton] at hi
    by_cases hold : i < made ops
    · obtain ⟨value?, hvalue⟩ := ih hops hold
      exact ⟨_, hvalue.append [op]⟩
    · cases op with
      | new =>
        obtain rfl : i = made ops := Nat.le_antisymm (Nat.lt_succ_iff.mp hi) (Nat.not_lt.mp hold)
        exact ⟨_, .new ops []⟩
      | copy j =>
        obtain rfl : i = made ops := Nat.le_antisymm (Nat.lt_succ_iff.mp hi) (Nat.not_lt.mp hold)
        obtain ⟨value?, hvalue⟩ := ih hops (hop j rfl)
        exact ⟨_, .copy hvalue []⟩
      | _ => exact absurd hi hold

/-! ## One operation -/

variable {b b' : Bank α} {answer : Answer α}

/-- A slot has one value, or none. -/
theorem value_unique {other? : Option α} (h : b.slots[i]? = some ⟨value?⟩)
    (h' : b.slots[i]? = some ⟨other?⟩) : value? = other? :=
  congrArg Memo.value? (Option.some.inj (h.symm.trans h'))

/-- An operation that looks at a slot leaves everything as it is. -/
theorem looks_cases {f : Memo α → Answer α}
    (h : (do let s ← b.slots[i]?; return (f s, b)) = some (answer, b')) :
    ∃ value?, b.slots[i]? = some ⟨value?⟩ ∧ answer = f ⟨value?⟩ ∧ b' = b := by
  obtain ⟨⟨value?⟩, hs, h⟩ := Option.bind_eq_some_iff.mp h
  obtain ⟨rfl, rfl⟩ := Prod.mk.inj (Option.some.inj h)
  exact ⟨value?, hs, rfl, rfl⟩

variable [Inspect α]

/-- What an operation does: it makes an empty slot or a copy, it runs a computation on an empty
slot, or it leaves everything as it is. -/
theorem run_cases (h : b.run op = some (answer, b')) :
    op = .new ∧ answer = .slot b.slots.size ∧ b' = ⟨b.slots.push pending, b.calls⟩ ∨
    (∃ j s, op = .copy j ∧ b.slots[j]? = some s ∧ answer = .slot b.slots.size ∧
      b' = ⟨b.slots.push s, b.calls⟩) ∨
    (∃ i a, op = .compute i a ∧ b.slots[i]? = some pending ∧ answer = .value (some a) ∧
      b' = ⟨b.slots.setIfInBounds i (done a), b.calls + 1⟩) ∨
    ∃ i value?, op.slot? = some i ∧ op.makes = false ∧ b.slots[i]? = some ⟨value?⟩ ∧
      value?.or (op.offers i) = value? ∧ answer = op.reply b.slots.size value? ∧ b' = b := by
  cases op with
  | new =>
    obtain ⟨rfl, rfl⟩ := Prod.mk.inj (Option.some.inj h)
    exact .inl ⟨rfl, rfl, rfl⟩
  | copy j =>
    obtain ⟨s, hs, h⟩ := Option.bind_eq_some_iff.mp h
    obtain ⟨rfl, rfl⟩ := Prod.mk.inj (Option.some.inj h)
    exact .inr (.inl ⟨j, s, rfl, hs, rfl, rfl⟩)
  | compute i a =>
    obtain ⟨⟨value?⟩, hs, h⟩ := Option.bind_eq_some_iff.mp h
    cases value? with
    | none =>
      obtain ⟨rfl, rfl⟩ := Prod.mk.inj (Option.some.inj h)
      exact .inr (.inr (.inl ⟨i, a, rfl, hs, rfl, rfl⟩))
    | some v =>
      obtain ⟨rfl, rfl⟩ := Prod.mk.inj (Option.some.inj h)
      have hsame : b.slots.setIfInBounds i ⟨some v⟩ = b.slots := by
        obtain ⟨hi, hget⟩ := Array.getElem?_eq_some_iff.mp hs
        rw [← hget, Array.setIfInBounds_def, dif_pos hi, Array.set_getElem_self]
      refine .inr (.inr (.inr ⟨i, some v, rfl, rfl, hs, rfl, rfl, ?_⟩))
      exact congrArg (Bank.mk · b.calls) hsame
  | get i =>
    obtain ⟨value?, hs, rfl, rfl⟩ := looks_cases h
    exact .inr (.inr (.inr ⟨i, value?, rfl, rfl, hs, Option.or_none, rfl, rfl⟩))
  | isComputed i =>
    obtain ⟨value?, hs, rfl, rfl⟩ := looks_cases h
    exact .inr (.inr (.inr ⟨i, value?, rfl, rfl, hs, Option.or_none, rfl, rfl⟩))
  | inspect i =>
    obtain ⟨value?, hs, rfl, rfl⟩ := looks_cases h
    exact .inr (.inr (.inr ⟨i, value?, rfl, rfl, hs, Option.or_none, rfl, rfl⟩))

/-- There is an answer to an operation on a slot that exists. -/
theorem exists_run (h : ∀ i ∈ op.slot?, i < b.slots.size) :
    ∃ answer b', b.run op = some (answer, b') := by
  have hsome : (b.run op).isSome = true := by
    cases op with
    | new => rfl
    | _ =>
      rw [run, Array.getElem?_eq_getElem (h _ rfl)]
      rfl
  obtain ⟨⟨answer, b'⟩, hrun⟩ := Option.isSome_iff_exists.mp hsome
  exact ⟨answer, b', hrun⟩

theorem size_run (h : b.run op = some (answer, b')) :
    b'.slots.size = b.slots.size + if op.makes then 1 else 0 := by
  rcases run_cases h with ⟨rfl, -, rfl⟩ | ⟨j, s, rfl, -, -, rfl⟩ | ⟨i, a, rfl, -, -, rfl⟩ |
    ⟨i, value?, -, hmakes, -, -, -, rfl⟩
  · exact Array.size_push _
  · exact Array.size_push _
  · exact Array.size_setIfInBounds
  · rw [hmakes]
    rfl

/-- **A slot keeps its value**, or takes the one that it is offered. -/
theorem slots_run (h : b.run op = some (answer, b')) (hi : b.slots[i]? = some ⟨value?⟩) :
    b'.slots[i]? = some ⟨value?.or (op.offers i)⟩ := by
  have hlt : i < b.slots.size := (Array.getElem?_eq_some_iff.mp hi).1
  have hpush : ∀ s, (b.slots.push s)[i]? = some ⟨value?.or none⟩ := fun s => by
    rw [Array.getElem?_push_lt hlt, Option.or_none, ← hi, Array.getElem?_eq_getElem hlt]
  rcases run_cases h with ⟨rfl, -, rfl⟩ | ⟨j, s, rfl, -, -, rfl⟩ | ⟨j, a, rfl, hempty, -, rfl⟩ |
    ⟨j, kept?, hslot, -, hj, hkept, -, rfl⟩
  · exact hpush _
  · exact hpush _
  · by_cases hij : j = i
    · subst hij
      obtain rfl : value? = none := value_unique hi hempty
      rw [Op.offers, if_pos rfl]
      exact Array.getElem?_setIfInBounds_self_of_lt hlt
    · rw [Op.offers, if_neg hij, Option.or_none, ← hi]
      exact Array.getElem?_setIfInBounds_ne hij
  · by_cases hij : j = i
    · subst hij
      obtain rfl : value? = kept? := value_unique hi hj
      rw [hkept, hi]
    · rw [Op.offers_eq_none fun heq => hij (Option.some.inj (hslot.symm.trans heq)),
        Option.or_none, hi]

/-- The answer depends on the slot that is named, or tells the number of slots where one is made. -/
theorem reply_run (h : b.run op = some (answer, b'))
    (hvalue : ∀ i ∈ op.slot?, b.slots[i]? = some ⟨value?⟩) :
    answer = op.reply b.slots.size value? := by
  rcases run_cases h with ⟨rfl, rfl, -⟩ | ⟨j, s, rfl, -, rfl, -⟩ | ⟨j, a, rfl, hempty, rfl, -⟩ |
    ⟨j, kept?, hslot, -, hj, -, rfl, -⟩
  · rfl
  · rfl
  · obtain rfl : value? = none := value_unique (hvalue j rfl) hempty
    rfl
  · obtain rfl : value? = kept? := value_unique (hvalue j hslot) hj
    rfl

/-- **A computation is run** in an operation that asks an empty slot for one, and in no other. -/
theorem calls_run (h : b.run op = some (answer, b')) :
    b'.calls = b.calls + 1 ∧ (∃ i a, op = .compute i a ∧ b.slots[i]? = some pending) ∨
      b'.calls = b.calls ∧ ¬ ∃ i a, op = .compute i a ∧ b.slots[i]? = some pending := by
  rcases run_cases h with ⟨rfl, -, rfl⟩ | ⟨j, s, rfl, -, -, rfl⟩ | ⟨j, a, rfl, hempty, -, rfl⟩ |
    ⟨j, kept?, hslot, -, hj, hkept, -, rfl⟩
  · exact .inr ⟨rfl, nofun⟩
  · exact .inr ⟨rfl, nofun⟩
  · exact .inl ⟨rfl, j, a, rfl, hempty⟩
  · refine .inr ⟨rfl, ?_⟩
    rintro ⟨i, a, rfl, hempty⟩
    obtain rfl : i = j := Option.some.inj hslot
    obtain rfl : kept? = none := value_unique hj hempty
    rw [Op.offers, if_pos rfl] at hkept
    exact absurd hkept (Option.some_ne_none a)

/-! ## Whole histories -/

/-- Performs operations one after the other; there are no answers when one of them names a slot that
does not exist. -/
def runAll (b : Bank α) : List (Op α) → Option (List (Answer α) × Bank α)
  | [] => some ([], b)
  | op :: ops => do
    let (answer, b) ← b.run op
    let (answers, b) ← b.runAll ops
    return (answer :: answers, b)

variable {answers : List (Answer α)}

theorem runAll_cons_iff :
    b.runAll (op :: ops) = some (answers, b') ↔
      ∃ answer c rest, b.run op = some (answer, c) ∧ c.runAll ops = some (rest, b') ∧
        answers = answer :: rest := by
  rw [runAll, Option.bind_eq_bind, Option.bind_eq_some_iff]
  constructor
  · rintro ⟨⟨answer, c⟩, hrun, h⟩
    obtain ⟨⟨rest, d⟩, hrest, h⟩ := Option.bind_eq_some_iff.mp h
    obtain ⟨rfl, rfl⟩ := Prod.mk.inj (Option.some.inj h)
    exact ⟨answer, c, rest, hrun, hrest, rfl⟩
  · rintro ⟨answer, c, rest, hrun, hrest, rfl⟩
    exact ⟨(answer, c), hrun, Option.bind_eq_some_iff.mpr ⟨(rest, b'), hrest, rfl⟩⟩

theorem runAll_append_iff :
    b.runAll (before ++ after) = some (answers, b') ↔
      ∃ first c rest, b.runAll before = some (first, c) ∧ c.runAll after = some (rest, b') ∧
        answers = first ++ rest := by
  induction before generalizing b answers with
  | nil =>
    constructor
    · exact fun h => ⟨[], b, answers, rfl, h, rfl⟩
    · rintro ⟨first, c, rest, hfirst, hrest, rfl⟩
      obtain ⟨rfl, rfl⟩ := Prod.mk.inj (Option.some.inj hfirst)
      exact hrest
  | cons op before ih =>
    rw [List.cons_append, runAll_cons_iff]
    constructor
    · rintro ⟨answer, c, rest, hrun, hrest, rfl⟩
      obtain ⟨first, d, last, hfirst, hlast, rfl⟩ := ih.mp hrest
      exact ⟨answer :: first, d, last,
        runAll_cons_iff.mpr ⟨answer, c, first, hrun, hfirst, rfl⟩, hlast, rfl⟩
    · rintro ⟨first, d, last, hfirst, hlast, rfl⟩
      obtain ⟨answer, c, rest, hrun, hrest, rfl⟩ := runAll_cons_iff.mp hfirst
      exact ⟨answer, c, rest ++ last, hrun, ih.mpr ⟨rest, d, last, hrest, hlast, rfl⟩, rfl⟩

/-- There are answers to operations on slots that exist. -/
theorem exists_runAll (h : Fits b.slots.size ops) :
    ∃ answers b', b.runAll ops = some (answers, b') := by
  induction ops generalizing b with
  | nil => exact ⟨[], b, rfl⟩
  | cons op ops ih =>
    obtain ⟨hop, hops⟩ := h
    obtain ⟨answer, c, hrun⟩ := exists_run hop
    obtain ⟨rest, b', hrest⟩ := ih (size_run hrun ▸ hops)
    exact ⟨answer :: rest, b', runAll_cons_iff.mpr ⟨answer, c, rest, hrun, hrest, rfl⟩⟩

theorem size_runAll (h : b.runAll ops = some (answers, b')) :
    b'.slots.size = b.slots.size + ops.countP Op.makes := by
  induction ops generalizing b answers with
  | nil =>
    obtain ⟨-, rfl⟩ := Prod.mk.inj (Option.some.inj h)
    rfl
  | cons op ops ih =>
    obtain ⟨answer, c, rest, hrun, hrest, rfl⟩ := runAll_cons_iff.mp h
    rw [ih hrest, size_run hrun, List.countP_cons, Nat.add_comm (ops.countP _), Nat.add_assoc]

/-- **A slot keeps its value**, or takes the first one that it is offered. -/
theorem slots_runAll (h : b.runAll ops = some (answers, b')) (hi : b.slots[i]? = some ⟨value?⟩) :
    b'.slots[i]? = some ⟨value?.or (given i ops)⟩ := by
  induction ops generalizing b answers value? with
  | nil =>
    obtain ⟨-, rfl⟩ := Prod.mk.inj (Option.some.inj h)
    rw [given, List.findSome?_nil, Option.or_none, hi]
  | cons op ops ih =>
    obtain ⟨answer, c, rest, hrun, hrest, rfl⟩ := runAll_cons_iff.mp h
    have hgiven : given i (op :: ops) = (op.offers i).or (given i ops) := by
      rw [given, List.findSome?_cons]
      cases op.offers i <;> rfl
    rw [ih hrest (slots_run hrun hi), Option.or_assoc, hgiven]

theorem size_start_runAll (h : start.runAll ops = some (answers, b)) : b.slots.size = made ops :=
  size_runAll h

/-- **What the history says** is what the slots have. -/
theorem Recalls.slots (hvalue : Recalls ops i value?) (h : start.runAll ops = some (answers, b)) :
    b.slots[i]? = some ⟨value?⟩ := by
  induction hvalue generalizing answers b with
  | first ops =>
    have hempty : (start : Bank α).slots[0]? = some ⟨none⟩ := rfl
    have hfirst := slots_runAll h hempty
    rwa [Option.none_or] at hfirst
  | new before after =>
    obtain ⟨first, c, rest, hfirst, hrest, rfl⟩ := runAll_append_iff.mp h
    obtain ⟨answer, d, last, hrun, hlast, rfl⟩ := runAll_cons_iff.mp hrest
    obtain ⟨rfl, rfl⟩ := Prod.mk.inj (Option.some.inj hrun)
    have hpending : (c.slots.push pending)[made before]? = some ⟨none⟩ := by
      rw [← size_start_runAll hfirst, Array.getElem?_push_size]
      rfl
    have hlater := slots_runAll hlast hpending
    rwa [Option.none_or] at hlater
  | @copy before j value? _ after ih =>
    obtain ⟨first, c, rest, hfirst, hrest, rfl⟩ := runAll_append_iff.mp h
    obtain ⟨answer, d, last, hrun, hlast, rfl⟩ := runAll_cons_iff.mp hrest
    obtain ⟨s, hs, hrun⟩ := Option.bind_eq_some_iff.mp hrun
    obtain ⟨rfl, rfl⟩ := Prod.mk.inj (Option.some.inj hrun)
    obtain rfl := Option.some.inj (hs.symm.trans (ih hfirst))
    have hcopied : (c.slots.push ⟨value?⟩)[made before]? = some ⟨value?⟩ := by
      rw [← size_start_runAll hfirst, Array.getElem?_push_size]
    exact slots_runAll hlast hcopied

/-- **The slots** have the values that the history says, and no others. -/
theorem slots_iff (hfits : Fits 1 ops) (h : start.runAll ops = some (answers, b)) :
    b.slots[i]? = some ⟨value?⟩ ↔ Recalls ops i value? := by
  refine ⟨fun hi => ?_, fun hvalue => hvalue.slots h⟩
  have hlt : i < made ops := size_start_runAll h ▸ (Array.getElem?_eq_some_iff.mp hi).1
  obtain ⟨kept?, hkept⟩ := exists_recalls hfits hlt
  obtain rfl : value? = kept? := value_unique hi (hkept.slots h)
  exact hkept

/-- The number of computations run by operations on a slot. -/
def callsOn (i : Nat) (b : Bank α) : List (Op α) → Nat
  | [] => 0
  | op :: ops =>
    match b.run op with
    | none => 0
    | some (_, b') => (if op.slot? = some i then b'.calls - b.calls else 0) + callsOn i b' ops

/-- **At most one computation** is run on a slot, and none on one that has a value. -/
theorem callsOn_le_one (i : Nat) (b : Bank α) (ops : List (Op α)) :
    callsOn i b ops ≤ 1 ∧ ∀ a, b.slots[i]? = some (done a) → callsOn i b ops = 0 := by
  induction ops generalizing b with
  | nil => exact ⟨Nat.zero_le _, fun _ _ => rfl⟩
  | cons op ops ih =>
    cases hrun : b.run op with
    | none =>
      rw [callsOn, hrun]
      exact ⟨Nat.zero_le _, fun _ _ => rfl⟩
    | some r =>
      obtain ⟨answer, c⟩ := r
      obtain ⟨hle, hzero⟩ := ih c
      have hkept : ∀ a, b.slots[i]? = some (done a) → callsOn i c ops = 0 :=
        fun a ha => hzero a (slots_run hrun ha)
      have hcalls : callsOn i b (op :: ops) =
          (if op.slot? = some i then c.calls - b.calls else 0) + callsOn i c ops := by
        rw [callsOn, hrun]
      rw [hcalls]
      by_cases hop : op.slot? = some i
      · rw [if_pos hop]
        rcases calls_run hrun with ⟨hmore, j, a, rfl, hempty⟩ | ⟨hsame, -⟩
        · obtain rfl : j = i := Option.some.inj hop
          -- the slot has a value from now on
          have hvalue := slots_run hrun hempty
          rw [Op.offers, if_pos rfl, Option.none_or] at hvalue
          rw [hmore, hzero a hvalue, Nat.add_sub_cancel_left]
          refine ⟨Nat.le_refl 1, fun v hv => ?_⟩
          exact absurd (value_unique hv hempty) (Option.some_ne_none v)
        · rw [hsame, Nat.sub_self, Nat.zero_add]
          exact ⟨hle, hkept⟩
      · rw [if_neg hop, Nat.zero_add]
        exact ⟨hle, hkept⟩

/-- **Memoising.** Operations on slots that exist are answered. The slots have the values that the
history says: the one that the source had when the slot was made as a copy, or else the first one
that it has been offered since. Each answer is that of the value of the slot that is named. A
computation is run in an operation that asks an empty slot for one, and in no other, so at most once
on each slot. A copy that was made of an empty slot and its source have at any later time what each
of them has been offered since, whatever the other has been offered. -/
theorem memoises (h : Fits 1 ops) :
    ∃ answers b, start.runAll ops = some (answers, b) ∧
      (∀ i value?, b.slots[i]? = some ⟨value?⟩ ↔ Recalls ops i value?) ∧
      (∀ before op after, ops = before ++ op :: after →
        ∃ first c answer d last, start.runAll before = some (first, c) ∧
          c.run op = some (answer, d) ∧ answers = first ++ answer :: last ∧
          (∀ value?, (∀ i ∈ op.slot?, Recalls before i value?) →
            answer = op.reply (made before) value?) ∧
          (d.calls = c.calls + 1 ∧ (∃ i a, op = .compute i a ∧ Recalls before i none) ∨
            d.calls = c.calls ∧ ¬ ∃ i a, op = .compute i a ∧ Recalls before i none)) ∧
      (∀ i, callsOn i start ops ≤ 1) ∧
      ∀ before j mid after, ops = before ++ .copy j :: mid ++ after → Recalls before j none →
        ∃ first c, start.runAll (before ++ .copy j :: mid) = some (first, c) ∧
          c.slots[made before]? = some ⟨given (made before) mid⟩ ∧
          c.slots[j]? = some ⟨given j mid⟩ := by
  obtain ⟨answers, b, hrun⟩ := exists_runAll (b := start) h
  refine ⟨answers, b, hrun, fun i value? => slots_iff h hrun, ?_,
    fun i => (callsOn_le_one i start ops).1, ?_⟩
  · rintro before op after rfl
    obtain ⟨first, c, rest, hfirst, hrest, rfl⟩ := runAll_append_iff.mp hrun
    obtain ⟨answer, d, last, hop, -, rfl⟩ := runAll_cons_iff.mp hrest
    refine ⟨first, c, answer, d, last, hfirst, hop, rfl, fun value? hvalue => ?_, ?_⟩
    · rw [← size_start_runAll hfirst]
      exact reply_run hop fun i hi => (hvalue i hi).slots hfirst
    · have hslots : ∀ i, c.slots[i]? = some pending ↔ Recalls before i none := fun i =>
        slots_iff (fits_append.mp h).1 hfirst
      simp only [← hslots]
      exact calls_run hop
  · rintro before j mid after rfl hempty
    obtain ⟨first, c, -, hfirst, -, -⟩ := runAll_append_iff.mp hrun
    have hcopy := (hempty.copy mid).slots hfirst
    have hsource := (hempty.append (.copy j :: mid)).slots hfirst
    rw [Option.none_or] at hcopy hsource
    exact ⟨first, c, hfirst, hcopy, hsource⟩

/-- A copy made while its source is empty has the value that it is offered itself, and one made
later has the value of its source. -/
theorem memoises_copies :
    let ops : List (Op Nat) := [.copy 0, .compute 0 7, .copy 0, .compute 2 9, .compute 1 5]
    ∃ answers b, start.runAll ops = some (answers, b) ∧ b.slots[0]? = some (done 7) ∧
      b.slots[1]? = some (done 5) ∧ b.slots[2]? = some (done 7) ∧
      .value (some 7) ∈ answers ∧ ∀ i, callsOn i start ops ≤ 1 := by
  intro ops
  have hfits : Fits 1 ops := by simp [ops, Fits, Op.slot?, Op.makes]
  obtain ⟨answers, b, hrun, hslots, hanswers, hcalls, -⟩ := memoises hfits
  have hlate : Recalls [.copy 0, .compute 0 7, .copy 0] 2 (some 7) :=
    (Recalls.first [.copy 0, .compute 0 7]).copy []
  refine ⟨answers, b, hrun, (hslots 0 _).mpr (.first ops),
    (hslots 1 _).mpr ((Recalls.first []).copy _), (hslots 2 _).mpr (hlate.append _), ?_, hcalls⟩
  obtain ⟨first, c, answer, d, last, -, -, rfl, hreply, -⟩ :=
    hanswers [.copy 0, .compute 0 7, .copy 0] (.compute 2 9) [.compute 1 5] rfl
  rw [hreply (some 7) fun i hi => Option.some.inj hi ▸ hlate]
  exact List.mem_append_right _ List.mem_cons_self

end TensorCost.Memo.Bank
