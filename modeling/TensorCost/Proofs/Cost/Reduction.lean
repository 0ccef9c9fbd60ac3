import Mathlib.Algebra.BigOperators.Group.Finset.Basic
import TensorCost.Proofs.Cost.Exact
import TensorCost.Proofs.Session.HashConsing

/-!
# Reductions

A sum over indices is priced from two lists, the indices as they are listed in the sum and those
that are left free. Together they are the indices free in the operand, so the price is the number of
iterations of the loops over these, whichever of them are summed over and in whatever order. An
index that is listed more than once is a loop inside a loop over the same index, and counts as often
as it is listed.

* `Index.loopNest` lists the iterations of a loop nest, and `Index.iterations` counts those of a
  sum.

Results:
* `prod_append_filter`: a product over some elements of a list and over the others is one over the
  list.
* `WellFormed.cost_indexSum`: what a sum over indices costs.
* `Reachable.price_indexSum`: the price of every sum that can be constructed in a session.
-/

namespace TensorCost

/-! ## Loop nests -/

/-- A product over some elements of a list, as often as they are given, and over the others once. -/
theorem prod_append_filter {α : Type} [DecidableEq α] (f : α → Nat) {as bs : List α}
    (has : as.Nodup) (hbs : ∀ b ∈ bs, b ∈ as) :
    ((bs ++ as.filter (· ∉ bs)).map f).prod = (as.map fun a => f a ^ max 1 (bs.count a)).prod := by
  have hgiven : (as.filter (· ∈ bs)).toFinset = bs.toFinset := by
    ext a
    simpa using hbs a
  have hbound : (bs.map f).prod = ((as.filter (· ∈ bs)).map fun a => f a ^ bs.count a).prod := by
    rw [Finset.prod_list_map_count, ← hgiven, List.prod_toFinset _ (has.filter _)]
  have hpower : ∀ a ∈ as, f a ^ max 1 (bs.count a) = if a ∈ bs then f a ^ bs.count a else f a := by
    intro a _
    split
    next ha => rw [Nat.max_eq_right (List.count_pos_iff.mpr ha)]
    next ha => rw [List.count_eq_zero.mpr ha, Nat.max_eq_left Nat.one_pos.le, Nat.pow_one]
  calc ((bs ++ as.filter (· ∉ bs)).map f).prod
      = (bs.map f).prod * ((as.filter (· ∉ bs)).map f).prod := by
        rw [List.map_append, List.prod_append]
    _ = (as.map fun a => if a ∈ bs then f a ^ bs.count a else f a).prod := by
        rw [hbound, List.prod_map_ite]
    _ = (as.map fun a => f a ^ max 1 (bs.count a)).prod := by
        rw [List.map_congr_left hpower]

namespace Index

/-- The iterations of a loop nest, each given by the positions of the loops, outermost first. -/
def loopNest : List Index → List (List Nat)
  | [] => [[]]
  | i :: is => (List.range i.extent).flatMap fun position => (loopNest is).map (position :: ·)

/-- The number of iterations of a sum over `bound` whose operand has the free indices `free`. There
is a loop for each time that an index is listed, and one for each index that is left free. -/
def iterations (bound free : List Index) : Nat :=
  (free.map fun i => i.extent ^ max 1 (bound.count i)).prod

variable {bound free : List Index}

theorem length_loopNest (is : List Index) : (loopNest is).length = (is.map extent).prod := by
  induction is with
  | nil => rfl
  | cons i is ih => simp [loopNest, List.length_flatMap, ih]

/-- A sum that lists no index twice runs through the loops over the free indices of its operand. -/
theorem iterations_of_nodup (hbound : bound.Nodup) :
    iterations bound free = (free.map extent).prod := by
  have honce : ∀ i ∈ free, i.extent ^ max 1 (bound.count i) = i.extent := fun i _ => by
    rw [Nat.max_eq_left (List.nodup_iff_count_le_one.mp hbound i), Nat.pow_one]
  rw [iterations, List.map_congr_left honce]

end Index

/-! ## Sums over indices -/

namespace Pool

variable {H : NodeHash} {p q : Pool} {held : Multiset NodeId} {n a : NodeId} {bound : List Index}

/-- What is free in a node that opens no indices of its own is what is free in its operand and not
bound by it. -/
theorem Closed.openIndices_of_binder {k : Kind} (hp : p.Closed) (hn : p.node? n = some (k, [a]))
    (hown : k.ownIndices = []) :
    p.openIndices n = (p.openIndices a).filter (· ∉ k.boundIndices) := by
  obtain ⟨c, hc, hkind, hops⟩ := node?_eq_some_iff.mp hn
  rw [hp.openIndices_eq hc, hkind, hops, List.flatMap_singleton, Kind.openIndices,
    OrderedSet.toList_ofList, hown, List.append_nil, eraseDups_of_nodup (nodup_openIndices p a)]
  simp

/-- **The cost of a sum over indices** is the number of its iterations, if it fits. -/
theorem WellFormed.cost_indexSum (hp : p.WellFormed H held)
    (hn : p.node? n = some (.indexSum bound, [a])) :
    p.cost n =
      if Index.iterations bound (p.openIndices a) ≤ Checked.limit then
        .ok (Index.iterations bound (p.openIndices a))
      else .error (.costOverflow "IndexSum") := by
  have hfree : ∀ i ∈ bound, i ∈ p.openIndices a :=
    (hp.admitted hn).2.2 a (List.mem_singleton_self a)
  have hopen : p.openIndices n = (p.openIndices a).filter (· ∉ bound) :=
    hp.closed.openIndices_of_binder hn rfl
  have hproduct : ((bound ++ p.openIndices n).map Index.extent).prod =
      Index.iterations bound (p.openIndices a) := by
    rw [hopen, prod_append_filter Index.extent (nodup_openIndices p a) hfree, Index.iterations]
  have hkind : p.kind? n = some (.indexSum bound) := by
    rw [kind?_eq_node, hn]
    rfl
  rw [cost_of_loops hkind rfl, hproduct]
  rfl

/-- The price of a sum over indices that has just been constructed. -/
theorem WellFormed.price_construct_indexSum (hp : p.WellFormed H held) (ha : p.Alive a)
    (hmade : p.construct H (.indexSum a bound) = (.ok n, q)) :
    (q.price n).1 =
      if Index.iterations bound (p.freeIndices a).1 ≤ Checked.limit then
        .ok (Index.iterations bound (p.freeIndices a).1)
      else .error (.costOverflow "IndexSum") := by
  have halive : ∀ m ∈ (.indexSum a bound : Construction NodeId Index).operands, p.Alive m :=
    fun m hm => List.mem_singleton.mp hm ▸ ha
  obtain ⟨k, hk, -, hnode, hwithin, -⟩ := hp.node?_construct halive hmade
  obtain rfl := Option.some.inj hk
  have hmoves := construct_moves hp halive
  rw [hmade] at hmoves
  have hq := hmoves.wellFormed hp
  rw [(price_spec hq.closed hq.derived n).1, hq.cost_indexSum hnode,
    hwithin.openIndices_eq hp.closed ha, (hp.freeIndices_spec a).free_eq]

end Pool

namespace Session

variable {H : NodeHash} {s : Session} {a n : NodeId} {q : Pool} {bound : List Index}

/-- **The price of a reduction.** Whenever a sum over `bound` of a living node can be constructed in
a reachable session, its price is the number of its iterations, or an overflow iff that number
exceeds the limit. Each index free in the operand is a loop, and as many loops as it is listed if it
is listed more than once. If none is, it does not matter which of them are summed over. -/
theorem Reachable.price_indexSum (h : s.Reachable H) (ha : s.pool.Alive a)
    (hmade : s.pool.construct H (.indexSum a bound) = (.ok n, q)) :
    let free := (s.pool.freeIndices a).1
    let iterations := (free.map fun i => i.extent ^ max 1 (bound.count i)).prod
    (∀ flops, (q.price n).1 = .ok flops ↔ flops = iterations ∧ iterations ≤ Checked.limit) ∧
      (∀ e, (q.price n).1 = .error e ↔
        e = .costOverflow "IndexSum" ∧ Checked.limit < iterations) ∧
      (bound.Nodup → iterations = (free.map Index.extent).prod ∧
        iterations = (Index.loopNest free).length) := by
  intro free iterations
  have hprice : (q.price n).1 = if iterations ≤ Checked.limit then .ok iterations
      else .error (.costOverflow "IndexSum") :=
    h.wellFormed.pool.price_construct_indexSum ha hmade
  rw [hprice]
  refine ⟨fun flops => ?_, fun e => ?_, fun hbound => ?_⟩
  · by_cases hfit : iterations ≤ Checked.limit
    · simp [hfit, eq_comm]
    · simp [hfit]
  · by_cases hfit : iterations ≤ Checked.limit
    · simp [hfit]
    · simp [hfit, Nat.lt_of_not_le hfit, eq_comm]
  · have hloops : iterations = (free.map Index.extent).prod := Index.iterations_of_nodup hbound
    exact ⟨hloops, hloops.trans (Index.length_loopNest free).symm⟩

/-- A matrix of two rows and three columns, with its entry at open indices. -/
def entryOfMatrix : Session :=
  let H : NodeHash := fun _ _ => 0
  let i : Index := ⟨0, none, 2, by decide⟩
  let j : Index := ⟨1, none, 3, by decide⟩
  let p : Pool := (Pool.empty.construct H (.variable "A" [2, 3])).2
  { pool := (p.construct H (.indexed 0 [.free i, .free j])).2
    indices := [("j", j), ("i", i)]
    nodes := [("x", 1), ("a", 0)] }

/-- The session with a matrix can be reached, and the entry can be summed over any of its
indices. -/
theorem reachable_entryOfMatrix :
    let H : NodeHash := fun _ _ => 0
    let i : Index := ⟨0, none, 2, by decide⟩
    let j : Index := ⟨1, none, 3, by decide⟩
    entryOfMatrix.Reachable H ∧ entryOfMatrix.pool.Alive 1 ∧
      (entryOfMatrix.pool.freeIndices 1).1 = [i, j] ∧
      ∀ bound, bound ≠ [] → (∀ k ∈ bound, k ∈ [i, j]) →
        ∃ n q, entryOfMatrix.pool.construct H (.indexSum 1 bound) = (.ok n, q) := by
  intro H i j
  let p : Pool := (Pool.empty.construct H (.variable "A" [2, 3])).2
  have hi : Reachable H { indices := [("i", i)] } :=
    Reachable.start.step (.index (some "i") (.chosen 0 2))
  have hj : Reachable H { indices := [("j", j), ("i", i)] } :=
    hi.step (.index (some "j") (.chosen 1 3))
  have ha : Reachable H { pool := p, indices := [("j", j), ("i", i)], nodes := [("a", 0)] } :=
    hj.construct (c := .variable "A" [2, 3]) rfl rfl (by decide +kernel) rfl
  have hx : entryOfMatrix.Reachable H :=
    ha.construct (c := .indexed "a" [.free "i", .free "j"]) rfl rfl (by decide +kernel) rfl
  have hpool := hx.wellFormed.pool
  have htree : entryOfMatrix.pool.tree? 1 =
      some (.node (.indexed [.free i, .free j]) [.node (.variable "A" [2, 3]) []]) := by
    decide +kernel
  have hopen : entryOfMatrix.pool.openIndices 1 = [i, j] := by
    rw [hpool.closed.openIndices_of_tree htree, Tree.openIndices_eq]
    decide
  have halive := Pool.alive_of_tree htree
  refine ⟨hx, halive, (hpool.freeIndices_spec 1).free_eq.trans hopen, fun bound hne hbound => ?_⟩
  refine hpool.exists_construct (k := .indexSum bound) (fun m hm => ?_) rfl ⟨hne, rfl, ?_⟩
  · exact List.mem_singleton.mp hm ▸ halive
  · intro m hm k hk
    rw [List.mem_singleton.mp hm, hopen]
    exact hbound k hk

/-- Summing the entry of a matrix over its rows takes as many steps as there are entries. -/
theorem price_indexSum_of_rows :
    let H : NodeHash := fun _ _ => 0
    let i : Index := ⟨0, none, 2, by decide⟩
    ∃ n q, entryOfMatrix.Reachable H ∧ entryOfMatrix.pool.Alive 1 ∧
      entryOfMatrix.pool.construct H (.indexSum 1 [i]) = (.ok n, q) ∧ (q.price n).1 = .ok 6 := by
  intro H i
  obtain ⟨hs, halive, hfree, hmakes⟩ := reachable_entryOfMatrix
  obtain ⟨n, q, hmade⟩ := hmakes [i] (List.cons_ne_nil _ _) (by simp [i])
  obtain ⟨hok, -⟩ := hs.price_indexSum halive hmade
  refine ⟨n, q, hs, halive, hmade, (hok 6).mpr ?_⟩
  rw [hfree]
  decide

/-- **A loop inside itself.** If the rows are listed twice then the sum is priced above the loops
over the free indices of its operand. -/
theorem price_indexSum_of_repeated_rows :
    let H : NodeHash := fun _ _ => 0
    let i : Index := ⟨0, none, 2, by decide⟩
    ∃ n q, entryOfMatrix.Reachable H ∧ entryOfMatrix.pool.Alive 1 ∧
      entryOfMatrix.pool.construct H (.indexSum 1 [i, i]) = (.ok n, q) ∧
      ((entryOfMatrix.pool.freeIndices 1).1.map Index.extent).prod = 6 ∧
      (q.price n).1 = .ok 12 := by
  intro H i
  obtain ⟨hs, halive, hfree, hmakes⟩ := reachable_entryOfMatrix
  obtain ⟨n, q, hmade⟩ := hmakes [i, i] (List.cons_ne_nil _ _) (by simp [i])
  refine ⟨n, q, hs, halive, hmade, ?_, ?_⟩
  · rw [hfree]
    decide
  · rw [hs.wellFormed.pool.price_construct_indexSum halive hmade, hfree]
    rfl

end Session

end TensorCost
