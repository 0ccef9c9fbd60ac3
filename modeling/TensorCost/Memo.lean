import TensorCost.Inspect

/-!
# Values computed at most once

A `Memo` is a slot for a value that is computed when it is first asked for and kept from then on.

* `Memo.getOrCompute` answers the kept value, or runs the computation and keeps its result.
* `Memo.Bank` is a growing row of slots together with the number of computations run so far, and
  `Memo.Bank.run` performs one operation on it. A copied slot takes the value of its source at the
  time of copying, and the two go their own ways afterwards.
-/

namespace TensorCost

/-- A slot for a value that is computed on demand. -/
structure Memo (α : Type) where
  /-- The value, once it has been computed. -/
  value? : Option α := none

namespace Memo

variable {α : Type}

/-- A slot whose value has not been computed. -/
def pending : Memo α := {}

instance : Inhabited (Memo α) := ⟨pending⟩

/-- A slot that holds `a`. -/
def done (a : α) : Memo α := ⟨some a⟩

/-- Whether the value has been computed. -/
def isComputed (m : Memo α) : Bool := m.value?.isSome

/-- The kept value if there is one, else the result of the computation, which is run for it and
then kept. -/
def getOrCompute {m : Type → Type} [Monad m] (s : Memo α) (compute : m α) : m (α × Memo α) :=
  match s.value? with
  | some a => return (a, s)
  | none => do
    let a ← compute
    return (a, done a)

instance [Inspect α] : Inspect (Memo α) where
  inspect m := Inspect.tuple "CachedAttr" [match m.value? with
    | some a => inspect a
    | none => "<pending>"]

/-- Slots in the order in which they were made, and the number of computations run on them. -/
structure Bank (α : Type) where
  slots : Array (Memo α)
  calls : Nat

namespace Bank

/-- One empty slot. -/
def start : Bank α := ⟨#[pending], 0⟩

/-- An operation on a bank; slots are named by their position. -/
inductive Op (α : Type)
  | new
  | copy (slot : Nat)
  | compute (slot : Nat) (a : α)
  | get (slot : Nat)
  | isComputed (slot : Nat)
  | inspect (slot : Nat)

/-- What an operation answers. -/
inductive Answer (α : Type)
  /-- The position of the slot that was appended. -/
  | slot (n : Nat)
  | value (a : Option α)
  | flag (b : Bool)
  | text (t : String)

/-- A computation of `a` that counts how often it is run. -/
def counted (a : α) : StateM Nat α := do
  modify (· + 1)
  return a

/-- Performs one operation; there is no answer when it names a slot that does not exist. -/
def run [Inspect α] (b : Bank α) : Op α → Option (Answer α × Bank α)
  | .new => some (.slot b.slots.size, { b with slots := b.slots.push pending })
  | .copy i => do
    let m ← b.slots[i]?
    return (.slot b.slots.size, { b with slots := b.slots.push m })
  | .compute i a => do
    let m ← b.slots[i]?
    let ((v, m'), calls) := (m.getOrCompute (counted a)).run b.calls
    return (.value (some v), { slots := b.slots.setIfInBounds i m', calls })
  | .get i => do
    let m ← b.slots[i]?
    return (.value m.value?, b)
  | .isComputed i => do
    let m ← b.slots[i]?
    return (.flag m.isComputed, b)
  | .inspect i => do
    let m ← b.slots[i]?
    return (.text (TensorCost.inspect m), b)

end Bank

end Memo

end TensorCost
