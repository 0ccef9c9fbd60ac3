import TensorCost.Proofs.Pool.Alike

/-!
# Recipes

An expression can be given by the calls that build it, without any pool: each call is that of a
constructor on results of calls before it. Followed in two pools, whatever these hold already, such
a recipe fails at the same call for the same reason, or makes alike nodes.

* `Recipe k` is a sequence of `k` calls, and `Recipe.follow` carries it out. The results are held
  until the end, and released if a call fails.
* `Construction.mapOperands` gives a construction other operands.

Results:
* `Alike.construct_congr`: whether a construction is refused, and why, is decided by the kinds and
  the free indices of its operands.
* `Recipe.follow_moves`: following a recipe adds holds on what it makes.
* `Recipe.follow_alike`: a recipe fails alike in two pools that are in order, or makes alike nodes.
-/

namespace TensorCost

namespace Construction

variable {ν μ ι : Type} (f : ν → μ)

/-- The same construction on other operands. -/
def mapOperands : Construction ν ι → Construction μ ι
  | literal bits shape => .literal bits shape
  | scalar bits => .scalar bits
  | zero shape => .zero shape
  | identity dim => .identity dim
  | .variable name shape => .variable name shape
  | failure shape message => .failure shape message
  | sum a b => .sum (f a) (f b)
  | product a b => .product (f a) (f b)
  | division a b => .division (f a) (f b)
  | power a b => .power (f a) (f b)
  | mathFunction name args => .mathFunction name (args.map f)
  | comparison symbol a b => .comparison symbol (f a) (f b)
  | logicalNot a => .logicalNot (f a)
  | logicalAnd a b => .logicalAnd (f a) (f b)
  | logicalOr a b => .logicalOr (f a) (f b)
  | conditional c a b => .conditional (f c) (f a) (f b)
  | indexed a items => .indexed (f a) items
  | flexiblyIndexed a dims => .flexiblyIndexed (f a) dims
  | listTensor items => .listTensor (items.map f)
  | indexSum a bound => .indexSum (f a) bound
  | componentTensor a bound => .componentTensor (f a) bound
  | delta i j => .delta i j

@[simp] theorem operands_mapOperands (c : Construction ν ι) :
    (c.mapOperands f).operands = c.operands.map f := by
  cases c <;> rfl

@[simp] theorem kind?_mapOperands (c : Construction ν Index) :
    (c.mapOperands f).kind? = c.kind? := by
  cases c <;> rfl

end Construction

/-! ## One call in two pools -/

namespace Pool

variable {H H' : NodeHash} {p q : Pool} {held held' : Multiset NodeId} {n m : NodeId}

theorem Alike.tree?_eq (h : p.Alike q n m) : p.tree? n = q.tree? m := by
  obtain ⟨t, hn, hm⟩ := h
  rw [hn, hm]

theorem Alike.alive (h : p.Alike q n m) : p.Alive n := by
  obtain ⟨t, hn, -⟩ := h
  exact alive_of_tree hn

theorem Alike.alive' (h : p.Alike q n m) : q.Alive m := by
  obtain ⟨t, -, hm⟩ := h
  exact alive_of_tree hm

theorem checkBound_congr (h : (p.freeIndices n).1 = (q.freeIndices m).1) (kind : String)
    (bound : List Index) :
    (p.checkBound kind n bound).1 = (q.checkBound kind m bound).1 := by
  unfold checkBound
  simp only [h]
  split
  · rfl
  · split <;> rfl

/-- How a construction ends, apart from the node that it makes. -/
def outcome (result : Except Error NodeId × Pool) : Except Error Unit := result.1.map fun _ => ()

theorem outcome_buildBinder (k : Kind) (n : NodeId) (bound : List Index) :
    outcome (p.buildBinder H k n bound) = (p.checkBound k.name n bound).1 := by
  unfold buildBinder
  split
  · rename_i q h
    rw [h]
    rfl
  · rename_i e q h
    rw [h]
    rfl

theorem outcome_ok_iff {result : Except Error NodeId × Pool} :
    outcome result = .ok () ↔ ∃ n, result.1 = .ok n := by
  unfold outcome
  cases result.1 <;> simp [Except.map]

theorem outcome_error_iff {result : Except Error NodeId × Pool} {e : Error} :
    outcome result = .error e ↔ result.1 = .error e := by
  unfold outcome
  cases result.1 <;> simp [Except.map]

section

variable {ν : Type} {f g : ν → NodeId} {c : Construction ν Index}

/-- **How a construction ends** is decided by the kinds and the free indices of its operands. -/
theorem construct_congr (hkind : ∀ a ∈ c.operands, p.kind? (f a) = q.kind? (g a))
    (hfree : ∀ a ∈ c.operands, (p.freeIndices (f a)).1 = (q.freeIndices (g a)).1) :
    outcome (p.construct H (c.mapOperands f)) = outcome (q.construct H' (c.mapOperands g)) := by
  cases c with
  | literal bits shape =>
    simp only [Construction.mapOperands, construct]
    split <;> rfl
  | mathFunction name args =>
    simp only [Construction.mapOperands, construct, List.isEmpty_map]
    split <;> rfl
  | listTensor items =>
    simp only [Construction.mapOperands, construct, List.isEmpty_map]
    split <;> rfl
  | indexed a items =>
    simp only [Construction.mapOperands, construct]
    split <;> rfl
  | comparison symbol a b =>
    simp only [Construction.mapOperands, construct]
    cases Comparison.ofSymbol symbol <;> rfl
  | flexiblyIndexed a dims =>
    simp only [Construction.mapOperands, construct, hkind a List.mem_cons_self]
    split
    · rfl
    · split <;> rfl
  | indexSum a bound =>
    have hcheck := checkBound_congr (hfree a List.mem_cons_self) (Kind.indexSum bound).name bound
    exact (outcome_buildBinder ..).trans (hcheck.trans (outcome_buildBinder ..).symm)
  | componentTensor a bound =>
    have hcheck :=
      checkBound_congr (hfree a List.mem_cons_self) (Kind.componentTensor bound).name bound
    exact (outcome_buildBinder ..).trans (hcheck.trans (outcome_buildBinder ..).symm)
  | _ => rfl

theorem tree?_mapOperands_congr (htree : ∀ a ∈ c.operands, p.tree? (f a) = q.tree? (g a)) :
    (c.mapOperands f).tree? p = (c.mapOperands g).tree? q := by
  have hmapM : (c.operands.map f).mapM p.tree? = (c.operands.map g).mapM q.tree? := by
    rw [List.mapM_map, List.mapM_map]
    exact mapM_congr_left htree
  unfold Construction.tree?
  rw [Construction.kind?_mapOperands, Construction.kind?_mapOperands,
    Construction.operands_mapOperands, Construction.operands_mapOperands, hmapM]

variable (hp : p.WellFormed H held) (hq : q.WellFormed H' held')

include hp hq

/-- **A construction in two pools** on operands that are alike is refused for the same reason in
both, or makes alike nodes. What was alike stays alike. -/
theorem construct_alike (h : ∀ a ∈ c.operands, p.Alike q (f a) (g a)) :
    (∃ e, (p.construct H (c.mapOperands f)).1 = .error e ∧
      (q.construct H' (c.mapOperands g)).1 = .error e) ∨
    ∃ n m, (p.construct H (c.mapOperands f)).1 = .ok n ∧
      (q.construct H' (c.mapOperands g)).1 = .ok m ∧
      (p.construct H (c.mapOperands f)).2.Alike (q.construct H' (c.mapOperands g)).2 n m ∧
      ∀ a b, p.Alike q a b →
        (p.construct H (c.mapOperands f)).2.Alike (q.construct H' (c.mapOperands g)).2 a b := by
  have hout : outcome (p.construct H (c.mapOperands f)) =
      outcome (q.construct H' (c.mapOperands g)) :=
    construct_congr (fun a ha => (h a ha).kind?_eq hp hq) fun a ha =>
      (h a ha).freeIndices_eq hp hq
  have halive : ∀ n ∈ (c.mapOperands f).operands, p.Alive n := by
    simp only [Construction.operands_mapOperands, List.forall_mem_map]
    exact fun a ha => (h a ha).alive
  have halive' : ∀ m ∈ (c.mapOperands g).operands, q.Alive m := by
    simp only [Construction.operands_mapOperands, List.forall_mem_map]
    exact fun a ha => (h a ha).alive'
  cases hmade : p.construct H (c.mapOperands f) with
  | mk result u =>
  cases hmade' : q.construct H' (c.mapOperands g) with
  | mk result' u' =>
  rw [hmade, hmade'] at hout
  cases result with
  | error e => exact .inl ⟨e, rfl, outcome_error_iff.mp hout.symm⟩
  | ok n =>
    obtain ⟨m, hm⟩ := outcome_ok_iff.mp hout.symm
    obtain rfl : result' = .ok m := hm
    obtain ⟨t, ht, hnt, -, -, hold⟩ := hp.construct_spec halive hmade
    obtain ⟨t', ht', hmt, -, -, hold'⟩ := hq.construct_spec halive' hmade'
    rw [tree?_mapOperands_congr fun a ha => (h a ha).tree?_eq, ht'] at ht
    obtain rfl := Option.some.inj ht
    refine .inr ⟨n, m, rfl, rfl, ⟨t', hnt, hmt⟩, ?_⟩
    rintro a b ⟨v, ha, hb⟩
    exact ⟨v, (hold a (alive_of_tree ha)).trans ha, (hold' b (alive_of_tree hb)).trans hb⟩

end

end Pool

/-! ## Recipes -/

/-- A sequence of `k` calls of constructors, each on results of the calls before it. -/
inductive Recipe : Nat → Type
  | start : Recipe 0
  | call {k : Nat} (before : Recipe k) (c : Construction (Fin k) Index) : Recipe (k + 1)

namespace Recipe

open Pool

variable {H H' : NodeHash} {p q : Pool} {held held' : Multiset NodeId} {k : Nat}
  {made : Vector NodeId k} {n : NodeId}

/-- Carries out the calls of a recipe one after the other, and holds all results. If a call fails,
the results before it are released. -/
def follow (H : NodeHash) (p : Pool) : {k : Nat} → Recipe k → Except Error (Vector NodeId k) × Pool
  | _, start => (.ok #v[], p)
  | _, call before c =>
    match before.follow H p with
    | (.error e, q) => (.error e, q)
    | (.ok made, q) =>
      match q.construct H (c.mapOperands made.get) with
      | (.error e, r) => (.error e, r.releaseAll made.toList)
      | (.ok n, r) => (.ok (made.push n), r)

/-- The result of the last call. -/
theorem get_push_last : (made.push n).get (Fin.last k) = n :=
  Vector.getElem_push_eq

/-- The result of an earlier call. -/
theorem get_push_castSucc (i : Fin k) : (made.push n).get i.castSucc = made.get i :=
  Vector.getElem_push_lt _

section

variable {before : Recipe k} {c : Construction (Fin k) Index} {e : Error}

theorem follow_call_of_failed (h : (before.follow H p).1 = .error e) :
    ((before.call c).follow H p).1 = .error e := by
  unfold follow
  split
  · rename_i e' q hbefore
    rw [hbefore] at h
    obtain rfl := Except.error.inj h
    rfl
  · rename_i made q hbefore
    rw [hbefore] at h
    exact absurd h (by simp)

theorem follow_call_of_ok (h : (before.follow H p).1 = .ok made) :
    (before.call c).follow H p =
      match (before.follow H p).2.construct H (c.mapOperands made.get) with
      | (.error e, r) => (.error e, r.releaseAll made.toList)
      | (.ok n, r) => (.ok (made.push n), r) := by
  rw [follow]
  cases hbefore : before.follow H p with
  | mk result q =>
    rw [hbefore] at h
    obtain rfl : result = .ok made := h
    rfl

theorem follow_call_of_refused (h : (before.follow H p).1 = .ok made)
    (he : ((before.follow H p).2.construct H (c.mapOperands made.get)).1 = .error e) :
    ((before.call c).follow H p).1 = .error e := by
  rw [follow_call_of_ok h]
  split
  · rename_i e' r hmade
    rw [hmade] at he
    obtain rfl := Except.error.inj he
    rfl
  · rename_i n r hmade
    rw [hmade] at he
    exact absurd he (by simp)

theorem follow_call_of_made (h : (before.follow H p).1 = .ok made)
    (hn : ((before.follow H p).2.construct H (c.mapOperands made.get)).1 = .ok n) :
    (before.call c).follow H p =
      (.ok (made.push n),
        ((before.follow H p).2.construct H (c.mapOperands made.get)).2) := by
  rw [follow_call_of_ok h]
  split
  · rename_i e r hmade
    rw [hmade] at hn
    exact absurd hn (by simp)
  · rename_i m r hmade
    rw [hmade] at hn
    obtain rfl := Except.ok.inj hn
    rw [hmade]

/-- A recipe that does not fail has not failed before its last call, which is not refused. -/
theorem exists_of_follow_call {result : Vector NodeId (k + 1)}
    (h : ((before.call c).follow H p).1 = .ok result) :
    ∃ made n, (before.follow H p).1 = .ok made ∧
      ((before.follow H p).2.construct H (c.mapOperands made.get)).1 = .ok n ∧
      (before.call c).follow H p =
        (.ok (made.push n),
          ((before.follow H p).2.construct H (c.mapOperands made.get)).2) := by
  cases hbefore : (before.follow H p).1 with
  | error e =>
    rw [follow_call_of_failed hbefore] at h
    exact absurd h (by simp)
  | ok made =>
    cases hn : ((before.follow H p).2.construct H (c.mapOperands made.get)).1 with
    | error e =>
      rw [follow_call_of_refused hbefore hn] at h
      exact absurd h (by simp)
    | ok n => exact ⟨made, n, rfl, hn, follow_call_of_made hbefore hn⟩

end

/-- The holds on what has been made. -/
def heldBy : Except Error (Vector NodeId k) → Multiset NodeId
  | .ok made => made.toList
  | .error _ => 0

theorem alive_of_made (hq : q.WellFormed H ((made.toList : Multiset NodeId) + held)) (i : Fin k) :
    q.Alive (made.get i) := by
  have hmem : made.get i ∈ made.toList := Vector.mem_toList_iff.mpr (made.getElem_mem i.2)
  exact hq.counted.alive _ (Multiset.mem_add.mpr (.inl hmem))

theorem alive_operands (hq : q.WellFormed H ((made.toList : Multiset NodeId) + held))
    (c : Construction (Fin k) Index) :
    ∀ m ∈ (c.mapOperands made.get).operands, q.Alive m := by
  rw [Construction.operands_mapOperands]
  intro m hm
  obtain ⟨i, -, rfl⟩ := List.mem_map.mp hm
  exact alive_of_made hq i

/-- **Following a recipe** adds holds on what it makes, and none if it fails. -/
theorem follow_moves (hp : p.WellFormed H held) (r : Recipe k) :
    Moves H (p, held) ((r.follow H p).2, heldBy (r.follow H p).1 + held) := by
  induction r with
  | start =>
    have hheld : heldBy (start.follow H p).1 + held = held := zero_add held
    rw [hheld]
    exact .refl
  | @call k before c ih =>
    unfold follow
    split
    · rename_i e q h
      rwa [h] at ih
    · rename_i made q h
      rw [h] at ih
      have hq : q.WellFormed H ((made.toList : Multiset NodeId) + held) := ih.wellFormed hp
      have hcall := construct_moves hq (alive_operands hq c)
      split
      · rename_i e u hmade
        rw [hmade, Pool.heldBy, zero_add] at hcall
        rw [heldBy, zero_add]
        exact (ih.trans hcall).trans (releaseAll_moves (hcall.wellFormed hq))
      · rename_i n u hmade
        rw [hmade, Pool.heldBy, ← add_assoc, add_comm ({n} : Multiset NodeId)] at hcall
        rw [heldBy, Vector.toList_push, ← Multiset.coe_add, Multiset.coe_singleton]
        exact ih.trans hcall

/-- **A recipe followed in two pools** that are in order fails for the same reason in both, or makes
alike nodes. -/
theorem follow_alike (hp : p.WellFormed H held) (hq : q.WellFormed H' held') (r : Recipe k) :
    (∃ e, (r.follow H p).1 = .error e ∧ (r.follow H' q).1 = .error e) ∨
      ∃ made made', (r.follow H p).1 = .ok made ∧ (r.follow H' q).1 = .ok made' ∧
        ∀ i : Fin k, (r.follow H p).2.Alike (r.follow H' q).2 (made.get i) (made'.get i) := by
  induction r with
  | start => exact .inr ⟨_, _, rfl, rfl, fun i => i.elim0⟩
  | @call k before c ih =>
    have hu := (before.follow_moves hp).wellFormed hp
    have hu' := (before.follow_moves hq).wellFormed hq
    rcases ih with ⟨e, he, he'⟩ | ⟨made, made', hmade, hmade', halike⟩
    · exact .inl ⟨e, follow_call_of_failed he, follow_call_of_failed he'⟩
    · rcases construct_alike hu hu' (c := c) fun i _ => halike i with
        ⟨e, he, he'⟩ | ⟨n, m, hn, hm, hnew, hold⟩
      · exact .inl ⟨e, follow_call_of_refused hmade he, follow_call_of_refused hmade' he'⟩
      · rw [follow_call_of_made hmade hn, follow_call_of_made hmade' hm]
        refine .inr ⟨_, _, rfl, rfl, fun i => ?_⟩
        induction i using Fin.lastCases with
        | last => simpa only [get_push_last] using hnew
        | cast i => simpa only [get_push_castSucc] using hold _ _ (halike i)

end Recipe

end TensorCost
