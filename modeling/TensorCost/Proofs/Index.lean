import Mathlib.Data.List.Basic
import TensorCost.Index

/-!
# Numbers of indices

Indices get their numbers from two sources: a counter, which also moves on when a request fails, and
callers that choose one. The counter never gives a number twice, so indices that it has numbered can
be told apart. It knows nothing of numbers that were chosen, though, and nobody asks whether a
number has been chosen before, perhaps with another extent. Only where these two things do not
happen is an index the only one of its number.

* `Index.grantAll` answers requests one after the other.
* `Index.Granted` says which index a request is answered with.
* `Index.ChosenApart` says that chosen numbers are none of the counter's, and come with one extent.

Results:
* `Granted.id_lt_of_counted`: numbers of the counter rise.
* `Granted.eq_iff_of_counted`: the only index that the counter can make again is a chosen one.
* `ChosenApart.id_ne_of_counted`, `ChosenApart.eq_of_id_eq`: where chosen numbers are apart, indices
  of the counter are new, and an index is told by its number.
-/

namespace TensorCost.Index

namespace Request

/-- Whether the number comes from the counter. -/
def counted : Request → Bool
  | fresh _ | named _ _ => true
  | chosen _ _ => false

/-- The number of the index that is asked for, when `next` is the next one of the counter. -/
def number (next : Nat) : Request → Nat
  | fresh _ | named _ _ => next
  | chosen id _ => id

/-- The name of the index that is asked for. -/
def name? : Request → Option String
  | named name _ => some name
  | fresh _ | chosen _ _ => none

/-- The extent that a request asks for. -/
def extent : Request → Nat
  | fresh extent | named _ extent | chosen _ extent => extent

theorem grant_eq (next : Nat) (r : Request) :
    r.grant next =
      (make (r.number next) r.name? r.extent, next + if r.counted then 1 else 0) := by
  cases r <;> rfl

end Request

/-- Answers requests one after the other, and gives the counter's next number afterwards. -/
def grantAll (next : Nat) : List Request → List (Except Error Index) × Nat
  | [] => ([], next)
  | r :: rs =>
    let (made, next) := r.grant next
    let (rest, last) := grantAll next rs
    (made :: rest, last)

/-- How many numbers requests take from the counter. -/
def drawn (rs : List Request) : Nat := rs.countP Request.counted

variable {next j k : Nat} {rs : List Request} {r r' : Request} {i i' : Index}

theorem drawn_cons (r : Request) (rs : List Request) :
    drawn (r :: rs) = (if r.counted then 1 else 0) + drawn rs := by
  rw [drawn, List.countP_cons, Nat.add_comm]
  rfl

/-- The numbers that are taken up to a request, and the one that it takes itself. -/
theorem drawn_take_succ (h : rs[k]? = some r) :
    drawn (rs.take (k + 1)) = drawn (rs.take k) + if r.counted then 1 else 0 := by
  rw [List.take_add_one, h, drawn, List.countP_append, Option.toList_some, List.countP_singleton]
  rfl

theorem drawn_take_le (h : j ≤ k) : drawn (rs.take j) ≤ drawn (rs.take k) :=
  (List.take_sublist_take_left h).countP_le

/-! ## Answers -/

theorem getElem?_grantAll (next : Nat) (rs : List Request) (k : Nat) :
    (grantAll next rs).1[k]? = rs[k]?.map fun r => (r.grant (next + drawn (rs.take k))).1 := by
  induction rs generalizing next k with
  | nil => rfl
  | cons r rs ih =>
    cases k with
    | zero => rfl
    | succ k =>
      simp only [grantAll, List.getElem?_cons_succ, ih, List.take_succ_cons, drawn_cons, r.grant_eq,
        Nat.add_assoc]

/-- The request at position `k` is `r`, and is answered with the index `i`. -/
structure Granted (next : Nat) (rs : List Request) (k : Nat) (r : Request) (i : Index) : Prop where
  request : rs[k]? = some r
  answer : (grantAll next rs).1[k]? = some (.ok i)

theorem exists_granted (h : .ok i ∈ (grantAll next rs).1) : ∃ k r, Granted next rs k r i := by
  obtain ⟨k, hk⟩ := List.mem_iff_getElem?.mp h
  have hmade := hk
  rw [getElem?_grantAll] at hmade
  obtain ⟨r, hr, -⟩ := Option.map_eq_some_iff.mp hmade
  exact ⟨k, r, hr, hk⟩

/-- What an index that is granted consists of. -/
theorem Granted.parts (h : Granted next rs k r i) :
    i.id = r.number (next + drawn (rs.take k)) ∧ i.name = r.name? ∧ i.extent = r.extent := by
  have hmade := h.answer
  rw [getElem?_grantAll, h.request, Option.map_some, r.grant_eq, make] at hmade
  split at hmade
  · obtain rfl := Except.ok.inj (Option.some.inj hmade)
    exact ⟨rfl, rfl, rfl⟩
  · cases hmade

theorem Granted.id_eq (h : Granted next rs k r i) :
    i.id = r.number (next + drawn (rs.take k)) := h.parts.1

theorem Granted.name_eq (h : Granted next rs k r i) : i.name = r.name? := h.parts.2.1

theorem Granted.extent_eq (h : Granted next rs k r i) : i.extent = r.extent := h.parts.2.2

theorem eq_of_parts (hid : i.id = i'.id) (hname : i.name = i'.name)
    (hextent : i.extent = i'.extent) : i = i' := by
  obtain ⟨id, name, extent, hpos⟩ := i
  obtain ⟨id', name', extent', hpos'⟩ := i'
  obtain rfl : id = id' := hid
  obtain rfl : name = name' := hname
  obtain rfl : extent = extent' := hextent
  rfl

/-- A request is answered with one index. -/
theorem Granted.unique (h : Granted next rs k r i) (h' : Granted next rs k r' i') : i = i' := by
  obtain rfl := Option.some.inj (h.request.symm.trans h'.request)
  exact eq_of_parts (h.id_eq.trans h'.id_eq.symm) (h.name_eq.trans h'.name_eq.symm)
    (h.extent_eq.trans h'.extent_eq.symm)

theorem Granted.mem (h : Granted next rs k r i) : r ∈ rs := List.mem_of_getElem? h.request

theorem Granted.id_eq_of_counted (h : Granted next rs k r i) (hr : r.counted = true) :
    i.id = next + drawn (rs.take k) := by
  rw [h.id_eq]
  cases r with
  | chosen id extent => cases hr
  | _ => rfl

/-- The number of the counter that a request takes is one of those taken by all requests. -/
theorem Granted.lt_drawn (h : Granted next rs k r i) (hr : r.counted = true) :
    drawn (rs.take k) < drawn rs := by
  have hsucc := drawn_take_succ h.request
  rw [if_pos hr] at hsucc
  have hle : drawn (rs.take (k + 1)) ≤ drawn rs := (List.take_sublist (k + 1) rs).countP_le
  omega

/-- **Numbers of the counter rise.** -/
theorem Granted.id_lt_of_counted (h : Granted next rs j r i) (h' : Granted next rs k r' i')
    (hr : r.counted = true) (hr' : r'.counted = true) (hjk : j < k) : i.id < i'.id := by
  have hsucc := drawn_take_succ h.request
  rw [if_pos hr] at hsucc
  have hle : drawn (rs.take (j + 1)) ≤ drawn (rs.take k) := drawn_take_le hjk
  rw [h.id_eq_of_counted hr, h'.id_eq_of_counted hr']
  omega

/-- The counter gives a number that an earlier index has only where that number was chosen. -/
theorem Granted.id_eq_iff_of_counted (h : Granted next rs j r i) (h' : Granted next rs k r' i')
    (hr' : r'.counted = true) (hjk : j < k) : i.id = i'.id ↔ r = .chosen i'.id i.extent := by
  constructor
  · intro hid
    cases r with
    | chosen id extent => rw [← hid, h.id_eq, h.extent_eq]; rfl
    | fresh extent => exact absurd hid (Nat.ne_of_lt (h.id_lt_of_counted h' rfl hr' hjk))
    | named name extent => exact absurd hid (Nat.ne_of_lt (h.id_lt_of_counted h' rfl hr' hjk))
  · intro hr
    rw [h.id_eq, hr]
    rfl

/-- The counter makes an index that there is already only where all of it was chosen. -/
theorem Granted.eq_iff_of_counted (h : Granted next rs j r i) (h' : Granted next rs k r' i')
    (hr' : r'.counted = true) (hjk : j < k) :
    i = i' ↔ r = .chosen i'.id i'.extent ∧ i'.name = none := by
  constructor
  · intro hi
    subst hi
    have hr := (h.id_eq_iff_of_counted h' hr' hjk).mp rfl
    refine ⟨hr, ?_⟩
    rw [h.name_eq, hr]
    rfl
  · rintro ⟨hr, hname⟩
    have hextent : i.extent = i'.extent := by rw [h.extent_eq, hr]; rfl
    have hid : i.id = i'.id :=
      (h.id_eq_iff_of_counted h' hr' hjk).mpr (hextent ▸ hr)
    refine eq_of_parts hid ?_ hextent
    rw [h.name_eq, hr, hname]
    rfl

/-! ## Chosen numbers -/

/-- Whether the numbers that are chosen in requests are none of those that the counter gives to
them, and no number is chosen for two extents. Requests that fail do not matter. -/
structure ChosenApart (next : Nat) (rs : List Request) : Prop where
  counter : ∀ id extent, .chosen id extent ∈ rs → 0 < extent → id < next ∨ next + drawn rs ≤ id
  extents : ∀ id x y, .chosen id x ∈ rs → .chosen id y ∈ rs → 0 < x → 0 < y → x = y

/-- An index that the counter numbers has another number than one whose number is chosen. -/
theorem ChosenApart.id_ne (hrs : ChosenApart next rs) (h : Granted next rs j r i)
    (h' : Granted next rs k r' i') (hr : r.counted = false) (hr' : r'.counted = true) :
    i.id ≠ i'.id := by
  cases r with
  | chosen id extent =>
    have hid : i.id = id := h.id_eq
    have hpos : 0 < extent := Nat.lt_of_lt_of_eq i.extent_pos h.extent_eq
    have hapart := hrs.counter id extent h.mem hpos
    have hlt := h'.lt_drawn hr'
    rw [hid, h'.id_eq_of_counted hr']
    omega
  | fresh extent => cases hr
  | named name extent => cases hr

/-- **Indices of the counter are new**: no earlier index has the number. -/
theorem ChosenApart.id_ne_of_counted (hrs : ChosenApart next rs) (h : Granted next rs j r i)
    (h' : Granted next rs k r' i') (hr' : r'.counted = true) (hjk : j < k) : i.id ≠ i'.id := by
  cases hr : r.counted with
  | true => exact Nat.ne_of_lt (h.id_lt_of_counted h' hr hr' hjk)
  | false => exact hrs.id_ne h h' hr hr'

/-- **An index is told by its number** where chosen numbers are apart. -/
theorem ChosenApart.eq_of_id_eq (hrs : ChosenApart next rs) (h : Granted next rs j r i)
    (h' : Granted next rs k r' i') (hid : i.id = i'.id) : i = i' := by
  -- the numbers of a chosen and a counted index differ, so both have been chosen or both counted
  cases hr : r.counted <;> cases hr' : r'.counted
  · cases r with
    | chosen id x =>
      cases r' with
      | chosen id' y =>
        obtain rfl : id = id' := h.id_eq.symm.trans (hid.trans h'.id_eq)
        have hextent : x = y := hrs.extents id x y h.mem h'.mem
          (Nat.lt_of_lt_of_eq i.extent_pos h.extent_eq)
          (Nat.lt_of_lt_of_eq i'.extent_pos h'.extent_eq)
        exact eq_of_parts hid (h.name_eq.trans h'.name_eq.symm)
          (h.extent_eq.trans (hextent.trans h'.extent_eq.symm))
      | fresh extent => cases hr'
      | named name extent => cases hr'
    | fresh extent => cases hr
    | named name extent => cases hr
  · exact absurd hid (hrs.id_ne h h' hr hr')
  · exact absurd hid.symm (hrs.id_ne h' h hr' hr)
  · rcases Nat.lt_trichotomy j k with hjk | rfl | hjk
    · exact absurd hid (Nat.ne_of_lt (h.id_lt_of_counted h' hr hr' hjk))
    · exact h.unique h'
    · exact absurd hid (Nat.ne_of_gt (h'.id_lt_of_counted h hr' hr hjk))

end TensorCost.Index
