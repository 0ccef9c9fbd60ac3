import TensorCost.Checked

/-!
# JSON values

* `Json` is a JSON value as it was written: the members of an object keep their order and may repeat
  a name, and a number is an integer only if it is written without fraction and exponent.
* `Json.Text` is the text of a string. The escapes of a string can name half of a surrogate pair;
  such a string is well formed, and may be passed over, but names no text.
* `Json.natural?`, `Json.bool?`, `Json.text?`, `Json.items?` and `Json.optional?` read a value as
  something narrower.
* `Json.fields?` reads a record, written as an object or as an array of its fields in order.
-/

namespace TensorCost

/-- The text that a string names, if it names one. -/
abbrev Json.Text := Option String

/-- A JSON value. -/
inductive Json
  | null
  | bool (b : Bool)
  /-- A number written without fraction and exponent, and not as `-0`. -/
  | integer (n : Int)
  /-- Any other number, as it was written. -/
  | decimal (written : String)
  | string (s : Json.Text)
  | array (items : List Json)
  | object (members : List (Json.Text × Json))

namespace Json

instance : Inhabited Json := ⟨null⟩

/-- The string of a text. -/
def ofText (s : String) : Json := string (some s)

/-- The number of a count. -/
def ofNat (n : Nat) : Json := integer n

/-- The object with the given members. -/
def ofMembers (members : List (String × Json)) : Json :=
  object (members.map fun m => (some m.1, m.2))

/-- The value as a count of at most `greatest`. -/
def natural? (greatest : Nat) : Json → Option Nat
  | integer (.ofNat n) => if n ≤ greatest then some n else none
  | _ => none

/-- The value as a count that fits in 64 bits. -/
def count? : Json → Option Nat := natural? Checked.limit

/-- The value as a truth value. -/
def bool? : Json → Option Bool
  | bool b => some b
  | _ => none

/-- The value as a text. -/
def text? : Json → Option String
  | string s => s
  | _ => none

/-- The items of an array, each read by `read`. -/
def items? {α : Type} (read : Json → Option α) : Json → Option (List α)
  | array items => items.mapM read
  | _ => none

/-- The members of an object, each read by `read`. -/
def members? {α : Type} (read : Json → Option α) : Json → Option (List (String × α))
  | object members => members.mapM fun (name, value) => return (← name, ← read value)
  | _ => none

/-- `null`, or a value read by `read`. -/
def optional? {α : Type} (read : Json → Option α) : Json → Option (Option α)
  | null => some none
  | value => (read value).map some

/-- A field that may be left out, in which case it is `other`. -/
def orElse {α : Type} (other : α) (read : Json → Option α) : Option Json → Option α
  | none => some other
  | some value => read value

/-- A field that has to be there. -/
def required {α : Type} (read : Json → Option α) : Option Json → Option α
  | none => none
  | some value => read value

/-- The value of the only member of that name; the outer `none` says that there are more. -/
def uniqueMember? (members : List (Text × Json)) (name : String) : Option (Option Json) :=
  match members.filter fun m => m.1 == some name with
  | [] => some none
  | [m] => some (some m.2)
  | _ => none

/-- How a record is read. -/
structure RecordFormat where
  /-- The names of the fields, in order. -/
  names : List String
  /-- Whether members of other names are refused; otherwise they are passed over. -/
  closed : Bool
  /-- How many fields an array has to give at least. -/
  leastItems : Nat

/-- The fields of a record, in order, `none` for a field that is left out. An object may give each
field once, in any order; an array gives the first fields. -/
def fields? (format : RecordFormat) : Json → Option (List (Option Json))
  | object members =>
    if members.any fun m => m.1.isNone then none
    else if format.closed
        && members.any fun m => !format.names.any fun name => m.1 == some name then none
    else format.names.mapM (uniqueMember? members)
  | array items =>
    if format.leastItems ≤ items.length ∧ items.length ≤ format.names.length then
      some (items.map some ++ List.replicate (format.names.length - items.length) none)
    else none
  | _ => none

end Json

end TensorCost
