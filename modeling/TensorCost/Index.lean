import TensorCost.Checked
import TensorCost.Error
import TensorCost.Inspect

/-!
# Loop indices

An `Index` is a loop variable of a tensor expression: a number that tells it from other indices, a
name for display, and an extent, the number of iterations of its loop. A loop runs at least once.

* `Index.Request` asks for an index: fresh or fresh with a name, both numbered by a counter, or with
  a number that the caller chooses. `Index.Request.grant` answers it and moves the counter on.
* `IndexItem` is an entry of an indexing expression, an open loop variable or a fixed position, and
  `Dimension` an axis of a strided access. Both leave open how loop variables are given.
* `Index.extentProduct` is the number of iterations of a loop nest, if it fits.
-/

namespace TensorCost

/-- A loop variable. Two indices are equal iff number, name and extent agree. -/
structure Index where
  id : Nat
  name : Option String
  extent : Nat
  extent_pos : 0 < extent
  deriving DecidableEq

namespace Index

instance : Hashable Index := ⟨fun i => mixHash (hash i.id) (mixHash (hash i.name) (hash i.extent))⟩

/-- By number, then by name with nameless indices first, then by extent. -/
instance : Ord Index where
  compare i j :=
    (compare i.id j.id).then ((compare i.name j.name).then (compare i.extent j.extent))

/-- How an index is shown: by its name, or by its number if it has none. -/
def display (i : Index) : String :=
  match i.name with
  | some name => name
  | none => s!"i_{i.id}"

instance : Inspect Index where
  inspect i := Inspect.record "Index"
    [("id", inspect i.id), ("name", inspect i.name), ("extent", inspect i.extent)]

/-- An index with the given parts; an extent of zero is malformed. -/
def make (id : Nat) (name : Option String) (extent : Nat) : Except Error Index :=
  if h : 0 < extent then .ok ⟨id, name, extent, h⟩ else .error (.malformedIndex extent)

/-- A request for an index. -/
inductive Request
  /-- The next number of the counter, and no name. -/
  | fresh (extent : Nat)
  /-- The next number of the counter, and a name. -/
  | named (name : String) (extent : Nat)
  /-- A number of the caller's choice, and no name. -/
  | chosen (id extent : Nat)
  deriving DecidableEq

/-- Answers a request when `next` is the next number of the counter, and gives the counter's next
number afterwards. A counted number is used up even if the request fails. -/
def Request.grant (next : Nat) : Request → Except Error Index × Nat
  | .fresh extent => (make next none extent, next + 1)
  | .named name extent => (make next (some name) extent, next + 1)
  | .chosen id extent => (make id none extent, next)

/-- The number of iterations of the loop nest over `is`, if it fits. -/
def extentProduct (is : List Index) : Option Nat := Checked.product? (is.map extent)

end Index

/-- An entry of an indexing expression whose loop variables are given as `ι`. -/
inductive IndexItem (ι : Type)
  /-- An open loop variable. -/
  | free (index : ι)
  /-- A fixed position along the axis. -/
  | fixed (position : Nat)
  deriving DecidableEq, Hashable

namespace IndexItem

variable {ι : Type}

/-- The loop variable of an entry that is open. -/
def free? : IndexItem ι → Option ι
  | free index => some index
  | fixed _ => none

instance [Inspect ι] : Inspect (IndexItem ι) where
  inspect
    | free index => Inspect.tuple "Free" [inspect index]
    | fixed position => Inspect.tuple "Fixed" [inspect position]

end IndexItem

/-- One dimension of a strided access: an offset, and loop variables with their strides. -/
structure Dimension (ι : Type) where
  offset : Nat
  strides : List (ι × Nat)
  deriving DecidableEq, Hashable

instance {ι : Type} [Inspect ι] : Inspect (Dimension ι) :=
  ⟨fun d => inspect (d.offset, d.strides)⟩

end TensorCost
