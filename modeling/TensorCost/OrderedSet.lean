import Std.Data.HashSet
import TensorCost.Inspect

/-!
# Sets that remember the order of insertion

An `OrderedSet` holds each element once and lists its elements in the order in which they came.
Membership is answered by a hash set kept beside the list.

* `add`, `discard`, `contains`, `extend`, `size` and `toList` are its operations. An element that is
  discarded and added again goes to the end.
* `OrderedSet.Op` names the operations and `OrderedSet.run` performs one and answers it, so that a
  sequence of operations is a value.
-/

namespace TensorCost

/-- Distinct elements in insertion order. -/
structure OrderedSet (α : Type) [BEq α] [Hashable α] where
  /-- The elements, oldest first. -/
  order : Array α
  /-- The same elements, for membership. -/
  members : Std.HashSet α

namespace OrderedSet

variable {α : Type} [BEq α] [Hashable α]

/-- The set without elements. -/
def empty : OrderedSet α := ⟨#[], ∅⟩

/-- The empty set with room for `n` elements. -/
def withCapacity (n : Nat) : OrderedSet α :=
  ⟨Array.emptyWithCapacity n, Std.HashSet.emptyWithCapacity n⟩

instance : Inhabited (OrderedSet α) := ⟨empty⟩

/-- Whether `a` is an element. -/
def contains (s : OrderedSet α) (a : α) : Bool := s.members.contains a

/-- Puts `a` at the end unless it is an element already. -/
def add (s : OrderedSet α) (a : α) : OrderedSet α :=
  if s.contains a then s else ⟨s.order.push a, s.members.insert a⟩

/-- Takes `a` out and leaves the other elements in their order. -/
def discard (s : OrderedSet α) (a : α) : OrderedSet α :=
  if s.contains a then ⟨s.order.erase a, s.members.erase a⟩ else s

/-- Adds the elements of a list from left to right. -/
def extend (s : OrderedSet α) (as : List α) : OrderedSet α := as.foldl add s

/-- The distinct elements of a list, in the order of their first occurrences. -/
def ofList (as : List α) : OrderedSet α := empty.extend as

/-- The elements, oldest first. -/
def toList (s : OrderedSet α) : List α := s.order.toList

/-- The number of elements. -/
def size (s : OrderedSet α) : Nat := s.order.size

/-- Whether there is no element. -/
def isEmpty (s : OrderedSet α) : Bool := s.order.isEmpty

instance [Inspect α] : Inspect (OrderedSet α) :=
  ⟨fun s => Inspect.tuple "OrderedSet" [inspect s.toList]⟩

/-- An operation on one set. -/
inductive Op (α : Type)
  | add (a : α)
  | discard (a : α)
  | contains (a : α)
  | extend (as : List α)
  | size
  | isEmpty
  | elements
  | inspect
  /-- Makes a copy and discards an element from the copy alone. -/
  | discardFromCopy (a : α)
  | clear

/-- What an operation answers. -/
inductive Answer (α : Type)
  | flag (b : Bool)
  | count (n : Nat)
  | elements (as : List α)
  | text (t : String)
  /-- Whether the copy held the element, and the elements of the copy afterwards. -/
  | copy (held : Bool) (as : List α)
  | nothing

/-- Performs one operation: `add` and `discard` answer whether they changed the set, and `extend`
answers its new size. -/
def run [Inspect α] (s : OrderedSet α) : Op α → Answer α × OrderedSet α
  | .add a => (.flag (!s.contains a), s.add a)
  | .discard a => (.flag (s.contains a), s.discard a)
  | .contains a => (.flag (s.contains a), s)
  | .extend as => let t := s.extend as; (.count t.size, t)
  | .size => (.count s.size, s)
  | .isEmpty => (.flag s.isEmpty, s)
  | .elements => (.elements s.toList, s)
  | .inspect => (.text (TensorCost.inspect s), s)
  | .discardFromCopy a => (.copy (s.contains a) (s.discard a).toList, s)
  | .clear => (.nothing, empty)

end OrderedSet

end TensorCost
