import TensorCost.Proofs.Cost.Reduction

/-!
# Binding indices in stages

Sums over indices and component tensors bind indices that are free in their operand. Whether a
further binder is accepted depends on what the binders below it have left free, so indices can be
bound in several stages iff each stage binds some, all of them are free in the operand at the
bottom, and no two stages share one. The order of the stages does not matter then, nor does it
matter how the indices are spread over them.

* `Binder` is a constructor that binds indices; `Pool.bindAll` applies several in turn.
* `Bindable` says which lists of indices can be bound one after the other.

Results:
* `bindable_cons`: what is left to be bound after the first stage.
* `WellFormed.exists_bindAll_iff`, `WellFormed.openIndices_bindAll`: when stages are accepted, and
  what they leave free.
* `Reachable.bind_twice`: two stages in a session, against one and against the other order.
-/

namespace TensorCost

/-- A constructor that binds indices of its operand. -/
inductive Binder
  | indexSum | componentTensor
  deriving DecidableEq, Repr

namespace Binder

variable {ν ι : Type}

/-- The call of a binder. -/
def construction : Binder → ν → List ι → Construction ν ι
  | indexSum, a, bound => .indexSum a bound
  | componentTensor, a, bound => .componentTensor a bound

/-- The kind of the nodes that a binder makes. -/
def kind : Binder → List Index → Kind
  | indexSum, bound => .indexSum bound
  | componentTensor, bound => .componentTensor bound

variable (b : Binder) (a : ν)

theorem operands_construction (bound : List ι) : (b.construction a bound).operands = [a] := by
  cases b <;> rfl

theorem kind?_construction (bound : List Index) :
    (b.construction a bound).kind? = some (b.kind bound) := by
  cases b <;> rfl

theorem ownIndices_kind (bound : List Index) : (b.kind bound).ownIndices = [] := by
  cases b <;> rfl

theorem boundIndices_kind (bound : List Index) : (b.kind bound).boundIndices = bound := by
  cases b <;> rfl

theorem admits_kind_iff {p : Pool} {m : NodeId} {bound : List Index} :
    p.Admits (b.kind bound) [m] ↔ bound ≠ [] ∧ ∀ i ∈ bound, i ∈ p.openIndices m := by
  cases b <;> exact Pool.admits_binder_iff

end Binder

/-! ## Lists of indices that can be bound in turn -/

/-- Whether the lists can be bound one after the other where `free` are the free indices. -/
structure Bindable (free : List Index) (lists : List (List Index)) : Prop where
  nonempty : ∀ is ∈ lists, is ≠ []
  free : ∀ is ∈ lists, ∀ i ∈ is, i ∈ free
  disjoint : lists.Pairwise List.Disjoint

section Bindable

variable {free is js : List Index} {lists lists' : List (List Index)}

theorem bindable_nil (free : List Index) : Bindable free [] where
  nonempty _ h := absurd h List.not_mem_nil
  free _ h := absurd h List.not_mem_nil
  disjoint := .nil

/-- **After the first stage** the others have to do with what it leaves free. -/
theorem bindable_cons :
    Bindable free (is :: lists) ↔
      (is ≠ [] ∧ ∀ i ∈ is, i ∈ free) ∧ Bindable (free.filter (· ∉ is)) lists := by
  constructor
  · rintro ⟨hne, hfree, hdis⟩
    obtain ⟨hfirst, hrest⟩ := List.pairwise_cons.mp hdis
    refine ⟨⟨hne is List.mem_cons_self, hfree is List.mem_cons_self⟩, ?_, ?_, hrest⟩
    · exact fun js hjs => hne js (List.mem_cons_of_mem _ hjs)
    · intro js hjs i hi
      refine List.mem_filter.mpr ⟨hfree js (List.mem_cons_of_mem _ hjs) i hi, ?_⟩
      exact decide_eq_true fun hbound => hfirst js hjs hbound hi
  · rintro ⟨⟨hne, hfree⟩, hrest⟩
    have hleft : ∀ js ∈ lists, ∀ i ∈ js, i ∈ free ∧ i ∉ is := fun js hjs i hi => by
      simpa using hrest.free js hjs i hi
    refine ⟨?_, ?_, List.pairwise_cons.mpr ⟨?_, hrest.disjoint⟩⟩
    · intro js hjs
      rcases List.mem_cons.mp hjs with rfl | hjs
      · exact hne
      · exact hrest.nonempty js hjs
    · intro js hjs
      rcases List.mem_cons.mp hjs with rfl | hjs
      · exact hfree
      · exact fun i hi => (hleft js hjs i hi).1
    · exact fun js hjs i hbound hi => (hleft js hjs i hi).2 hbound

/-- The order of the stages does not matter. -/
theorem Bindable.perm (h : Bindable free lists) (hperm : lists.Perm lists') :
    Bindable free lists' where
  nonempty is his := h.nonempty is (hperm.mem_iff.mpr his)
  free is his := h.free is (hperm.mem_iff.mpr his)
  disjoint := (hperm.pairwise_iff fun hd => List.Disjoint.symm hd).mp h.disjoint

/-- What can be bound in stages can be bound at once. -/
theorem Bindable.flatten (h : Bindable free lists) (hne : lists ≠ []) :
    Bindable free [lists.flatten] := by
  obtain ⟨is, rest, rfl⟩ := List.exists_cons_of_ne_nil hne
  refine bindable_cons.mpr ⟨⟨?_, fun i hi => ?_⟩, bindable_nil _⟩
  · intro hnil
    exact h.nonempty is List.mem_cons_self (List.append_eq_nil_iff.mp hnil).1
  · obtain ⟨js, hjs, hi⟩ := List.mem_flatten.mp hi
    exact h.free js hjs i hi

theorem bindable_pair :
    Bindable free [is, js] ↔ is ≠ [] ∧ js ≠ [] ∧ (∀ i ∈ is ++ js, i ∈ free) ∧ is.Disjoint js := by
  constructor
  · rintro ⟨hne, hfree, hdis⟩
    refine ⟨hne is (by simp), hne js (by simp), fun i hi => ?_, List.pairwise_pair.mp hdis⟩
    rcases List.mem_append.mp hi with hi | hi
    · exact hfree is (by simp) i hi
    · exact hfree js (by simp) i hi
  · rintro ⟨his, hjs, hfree, hdis⟩
    refine ⟨?_, ?_, List.pairwise_pair.mpr hdis⟩
    · intro ks hks
      rcases List.mem_pair.mp hks with rfl | rfl
      · exact his
      · exact hjs
    · intro ks hks i hi
      rcases List.mem_pair.mp hks with rfl | rfl
      · exact hfree i (List.mem_append_left _ hi)
      · exact hfree i (List.mem_append_right _ hi)

end Bindable

/-! ## Stages -/

namespace Pool

/-- Binds indices over a node in stages, each of them over the node made by the one before. -/
def bindAll (H : NodeHash) (p : Pool) (a : NodeId) :
    List (Binder × List Index) → Except Error NodeId × Pool
  | [] => (.ok a, p)
  | (b, bound) :: rest =>
    match p.construct H (b.construction a bound) with
    | (.ok n, q) => q.bindAll H n rest
    | (.error e, q) => (.error e, q)

variable {H : NodeHash} {p q : Pool} {held : Multiset NodeId} {a n : NodeId} {b : Binder}
  {bound : List Index} {stages : List (Binder × List Index)}

/-- One stage is accepted iff there is something to bind and all of it is free. -/
theorem WellFormed.exists_construct_binder_iff (hp : p.WellFormed H held) (ha : p.Alive a) :
    (∃ n q, p.construct H (b.construction a bound) = (.ok n, q)) ↔
      bound ≠ [] ∧ ∀ i ∈ bound, i ∈ p.openIndices a := by
  have halive : ∀ m ∈ (b.construction a bound).operands, p.Alive m := by
    rw [b.operands_construction]
    exact fun m hm => List.mem_singleton.mp hm ▸ ha
  rw [← b.admits_kind_iff]
  constructor
  · rintro ⟨n, q, hmade⟩
    obtain ⟨k, hk, hadmits, -⟩ := hp.node?_construct halive hmade
    obtain rfl := Option.some.inj ((b.kind?_construction a bound).symm.trans hk)
    rwa [b.operands_construction] at hadmits
  · intro hadmits
    refine hp.exists_construct halive (b.kind?_construction a bound) ?_
    rwa [b.operands_construction]

/-- One stage leaves what was free and is not bound. -/
theorem WellFormed.construct_binder (hp : p.WellFormed H held) (ha : p.Alive a)
    (hmade : p.construct H (b.construction a bound) = (.ok n, q)) :
    q.WellFormed H (n ::ₘ held) ∧ q.Alive n ∧
      q.openIndices n = (p.openIndices a).filter (· ∉ bound) := by
  have halive : ∀ m ∈ (b.construction a bound).operands, p.Alive m := by
    rw [b.operands_construction]
    exact fun m hm => List.mem_singleton.mp hm ▸ ha
  obtain ⟨k, hk, -, hnode, hwithin, -⟩ := hp.node?_construct halive hmade
  obtain rfl := Option.some.inj ((b.kind?_construction a bound).symm.trans hk)
  rw [b.operands_construction] at hnode
  have hmoves := construct_moves hp halive
  rw [hmade, heldBy, Multiset.singleton_add] at hmoves
  have hq := hmoves.wellFormed hp
  refine ⟨hq, alive_iff_node.mpr ⟨_, hnode⟩, ?_⟩
  rw [hq.closed.openIndices_of_binder hnode (b.ownIndices_kind bound),
    hwithin.openIndices_eq hp.closed ha, b.boundIndices_kind]

/-- **Stages are accepted** iff their lists can be bound one after the other. -/
theorem WellFormed.exists_bindAll_iff (hp : p.WellFormed H held) (ha : p.Alive a) :
    (∃ n q, p.bindAll H a stages = (.ok n, q)) ↔
      Bindable (p.openIndices a) (stages.map Prod.snd) := by
  induction stages generalizing p held a with
  | nil => exact iff_of_true ⟨a, p, rfl⟩ (bindable_nil _)
  | cons stage stages ih =>
    obtain ⟨b, bound⟩ := stage
    rw [List.map_cons, bindable_cons, ← hp.exists_construct_binder_iff (b := b) ha, bindAll]
    cases hresult : p.construct H (b.construction a bound) with
    | mk made q =>
      cases made with
      | error e => simp
      | ok m =>
        obtain ⟨hq, hm, hopen⟩ := hp.construct_binder ha hresult
        rw [← hopen, ← ih hq hm]
        simp

/-- **What stages leave free** is what was free and is bound in none of them. -/
theorem WellFormed.openIndices_bindAll (hp : p.WellFormed H held) (ha : p.Alive a)
    (hmade : p.bindAll H a stages = (.ok n, q)) :
    (∃ held', q.WellFormed H held') ∧
      q.openIndices n = (p.openIndices a).filter (· ∉ (stages.map Prod.snd).flatten) := by
  induction stages generalizing p held a with
  | nil =>
    obtain ⟨hn, rfl⟩ := Prod.mk.inj hmade
    obtain rfl := Except.ok.inj hn
    exact ⟨⟨held, hp⟩, (List.filter_eq_self.mpr fun _ _ => by simp).symm⟩
  | cons stage stages ih =>
    obtain ⟨b, bound⟩ := stage
    rw [bindAll] at hmade
    split at hmade
    · rename_i m r hfirst
      obtain ⟨hr, hm, hopen⟩ := hp.construct_binder ha hfirst
      obtain ⟨hq, hrest⟩ := ih hr hm hmade
      refine ⟨hq, ?_⟩
      -- the other stages take from what the first one has left
      rw [hrest, hopen, List.filter_filter]
      refine List.filter_congr fun i _ => ?_
      simp only [List.map_cons, List.flatten_cons, List.mem_append, not_or, Bool.decide_and,
        Bool.and_comm]
    · exact absurd (congrArg Prod.fst hmade) (by simp)

/-- The free indices that are answered after stages that are accepted. -/
theorem WellFormed.freeIndices_bindAll (hp : p.WellFormed H held) (ha : p.Alive a)
    (hmade : p.bindAll H a stages = (.ok n, q)) :
    (q.freeIndices n).1 = (p.openIndices a).filter (· ∉ (stages.map Prod.snd).flatten) := by
  obtain ⟨⟨held', hq⟩, hopen⟩ := hp.openIndices_bindAll ha hmade
  rw [(hq.freeIndices_spec n).free_eq, hopen]

/-- Any stages that bind the same indices leave the same ones free, in the same order. -/
theorem WellFormed.exists_bindAll_of_mem_iff {others : List (Binder × List Index)}
    (hp : p.WellFormed H held) (ha : p.Alive a) (hmade : p.bindAll H a stages = (.ok n, q))
    (hothers : Bindable (p.openIndices a) (others.map Prod.snd))
    (hmem : ∀ i, i ∈ (others.map Prod.snd).flatten ↔ i ∈ (stages.map Prod.snd).flatten) :
    ∃ m r, p.bindAll H a others = (.ok m, r) ∧ (r.freeIndices m).1 = (q.freeIndices n).1 := by
  obtain ⟨m, r, hmade'⟩ := (hp.exists_bindAll_iff ha).mpr hothers
  refine ⟨m, r, hmade', ?_⟩
  rw [hp.freeIndices_bindAll ha hmade, hp.freeIndices_bindAll ha hmade']
  exact List.filter_congr fun i _ => decide_eq_decide.mpr (not_congr (hmem i))

end Pool

namespace Session

variable {H : NodeHash} {s : Session} {a : NodeId}

/-- **Binding in two stages.** In a reachable session, indices `is` can be bound over a living node
and then `js` over the result iff neither list is empty, all indices of both are free in the node,
and the lists have none in common. What is left free is then what binding `is ++ js` at once leaves,
and what binding `js` first and `is` second leaves, in the same order, whichever binders are used at
the stages. -/
theorem Reachable.bind_twice (h : s.Reachable H) (ha : s.pool.Alive a) (b c : Binder)
    (is js : List Index) :
    let free := (s.pool.freeIndices a).1
    ((∃ n q, s.pool.bindAll H a [(b, is), (c, js)] = (.ok n, q)) ↔
        is ≠ [] ∧ js ≠ [] ∧ (∀ i ∈ is ++ js, i ∈ free) ∧ is.Disjoint js) ∧
      ∀ n q, s.pool.bindAll H a [(b, is), (c, js)] = (.ok n, q) →
        (q.freeIndices n).1 = free.filter (· ∉ is ++ js) ∧
        (∀ d, ∃ m r, s.pool.bindAll H a [(d, is ++ js)] = (.ok m, r) ∧
          (r.freeIndices m).1 = (q.freeIndices n).1) ∧
        ∀ d e, ∃ m r, s.pool.bindAll H a [(d, js), (e, is)] = (.ok m, r) ∧
          (r.freeIndices m).1 = (q.freeIndices n).1 := by
  intro free
  have hpool := h.wellFormed.pool
  have hfree : free = s.pool.openIndices a := (hpool.freeIndices_spec a).free_eq
  rw [hfree]
  refine ⟨(hpool.exists_bindAll_iff ha).trans bindable_pair, fun n q hmade => ⟨?_, ?_, ?_⟩⟩
  · rw [hpool.freeIndices_bindAll ha hmade]
    simp
  all_goals have hstages := (hpool.exists_bindAll_iff ha).mp ⟨n, q, hmade⟩
  · intro d
    refine hpool.exists_bindAll_of_mem_iff ha hmade ?_ fun i => by simp
    simpa using hstages.flatten (by simp)
  · intro d e
    refine hpool.exists_bindAll_of_mem_iff ha hmade ?_ fun i => by simp [or_comm]
    exact hstages.perm (List.Perm.swap js is [])

/-- The entry of a matrix is summed over its rows, and the sum is made a vector over the columns. -/
theorem bind_rows_then_columns :
    let H : NodeHash := fun _ _ => 0
    let i : Index := ⟨0, none, 2, by decide⟩
    let j : Index := ⟨1, none, 3, by decide⟩
    entryOfMatrix.Reachable H ∧ entryOfMatrix.pool.Alive 1 ∧
      ∃ n q, entryOfMatrix.pool.bindAll H 1 [(.indexSum, [i]), (.componentTensor, [j])] =
        (.ok n, q) ∧ (q.freeIndices n).1 = [] := by
  intro H i j
  obtain ⟨hs, halive, hfree, -⟩ := reachable_entryOfMatrix
  obtain ⟨haccepted, hleft⟩ := hs.bind_twice halive .indexSum .componentTensor [i] [j]
  rw [hfree] at haccepted hleft
  obtain ⟨n, q, hmade⟩ := haccepted.mpr
    ⟨List.cons_ne_nil _ _, List.cons_ne_nil _ _, fun _ hk => hk, by simp [i, j]⟩
  refine ⟨hs, halive, n, q, hmade, ?_⟩
  rw [(hleft n q hmade).1]
  decide

end Session

end TensorCost
