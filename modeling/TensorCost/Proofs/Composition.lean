import TensorCost.Proofs.Cost.Totals

/-!
# Roots taken together

What is done for some roots and then for others, and what is done for all of them at once. The walk
that goes on to further roots meets nodes that it has visited before; it leaves them out, and
everything below them, and visits the rest in the order in which it would have without them.

* `Pool.common` lists the nodes that two lists of roots both reach. Which nodes a list of roots
  reaches is decided by the recursion that lists them.

Results:
* `visit_after`: visiting a node after others is visiting it on its own, less the others.
* `traverse_append`, `traverse_singleton`: a traversal is put together from those of its parts.
* `Reachable.traverse_composes`: these in a reachable session, also for a walk visit by visit.
* `Reachable.count_append`: the total of two lists of roots and of what both reach come to the same
  as the totals of the two lists.
* `count_singleton`, `Reachable.count_node`: a node adds its own price to the count of its operands.
-/

namespace TensorCost

namespace Pool

variable {p : Pool} {before visited roots ns : List NodeId} {n m : NodeId}

instance : Decidable (p.ReachedFrom roots m) := decidable_of_iff _ mem_postOrder_iff

/-! ## Traversals -/

/-- Visiting nodes again changes nothing. -/
theorem foldl_visit_of_subset (h : ∀ n ∈ ns, n ∈ visited) : ns.foldl p.visit visited = visited := by
  have hnone : ns.filter (· ∉ visited) = [] := List.filter_eq_nil_iff.mpr fun n hn => by
    simpa using h n hn
  have hsame : (ns.filter (· ∉ visited)).foldl p.visit visited = ns.foldl p.visit visited :=
    foldl_visit_filter (List.Subset.refl visited) (fun m hm => by simpa using hm) ns
  rw [← hsame, hnone]
  rfl

/-- Visiting nodes one after the other keeps what visiting each of them does. -/
theorem foldl_visit_after
    (ih : ∀ n ∈ ns, ∀ visited, p.visit (before ++ visited.filter (· ∉ before)) n =
      before ++ (p.visit visited n).filter (· ∉ before)) :
    ns.foldl p.visit (before ++ visited.filter (· ∉ before)) =
      before ++ (ns.foldl p.visit visited).filter (· ∉ before) := by
  induction ns generalizing visited with
  | nil => rfl
  | cons n ns ihs =>
    rw [List.foldl_cons, List.foldl_cons, ih n List.mem_cons_self,
      ihs fun m hm => ih m (List.mem_cons_of_mem _ hm)]

/-- **Visiting a node after others** is visiting it on its own, except that what is among the others
is left out. By induction on the node: if it is among the others then so are its operands, and
nothing is left of it. -/
theorem visit_after (hbefore : p.InOrder before) (visited : List NodeId) (n : NodeId) :
    p.visit (before ++ visited.filter (· ∉ before)) n =
      before ++ (p.visit visited n).filter (· ∉ before) := by
  induction n using Nat.strongRecOn generalizing visited with
  | ind n ih =>
    have hops : (p.operands n).foldl p.visit (before ++ visited.filter (· ∉ before)) =
        before ++ ((p.operands n).foldl p.visit visited).filter (· ∉ before) :=
      foldl_visit_after fun m hm visited => ih m (mem_operands_lt hm) visited
    by_cases hvisited : n ∈ visited
    · have hmem : n ∈ before ++ visited.filter (· ∉ before) := by
        by_cases hn : n ∈ before <;> simp [hn, hvisited]
      rw [visit_of_mem hvisited, visit_of_mem hmem]
    · rw [visit_of_not_mem hvisited, List.filter_append]
      by_cases hn : n ∈ before
      · have hsame : (p.operands n).foldl p.visit (before ++ visited.filter (· ∉ before)) =
            before ++ visited.filter (· ∉ before) :=
          foldl_visit_of_subset fun m hm =>
            List.mem_append_left _ (hbefore.mem_of_reaches hn (.step hm (.refl m)))
        have hnone : [n].filter (· ∉ before) = [] := by simp [hn]
        rw [visit_of_mem (List.mem_append_left _ hn), hnone, List.append_nil, ← hops, hsame]
      · have hmem : n ∉ before ++ visited.filter (· ∉ before) := by simp [hn, hvisited]
        have hkept : [n].filter (· ∉ before) = [n] := by simp [hn]
        rw [visit_of_not_mem hmem, hops, hkept, List.append_assoc]

/-- **A traversal of two lists of roots** is that of the first, and then that of the second less the
nodes that the first reaches. -/
theorem traverse_append (p : Pool) (as bs : List NodeId) :
    p.traverse (as ++ bs) =
      p.traverse as ++ (p.traverse bs).filter fun m => ¬ p.ReachedFrom as m := by
  have hafter : bs.foldl p.visit (p.postOrder as ++ [].filter (· ∉ p.postOrder as)) =
      p.postOrder as ++ (p.postOrder bs).filter (· ∉ p.postOrder as) :=
    foldl_visit_after fun n _ visited => visit_after (p.inOrder_postOrder as) visited n
  rw [List.filter_nil, List.append_nil] at hafter
  rw [traverse_eq_postOrder, traverse_eq_postOrder, traverse_eq_postOrder, postOrder,
    List.foldl_append]
  simp only [← mem_postOrder_iff]
  exact hafter

/-- **A traversal of one node** is that of its operands, and then the node. -/
theorem traverse_singleton (p : Pool) (n : NodeId) :
    p.traverse [n] = p.traverse (p.operands n) ++ [n] := by
  rw [traverse_eq_postOrder, traverse_eq_postOrder]
  exact visit_of_not_mem List.not_mem_nil

/-! ## Totals -/

variable {as bs : List NodeId} {t : Nat}

/-- The nodes that both of two lists of roots reach, in the order of a traversal of the second. -/
def common (p : Pool) (as bs : List NodeId) : List NodeId :=
  (p.traverse bs).filter fun m => p.ReachedFrom as m

theorem nodup_common (p : Pool) (as bs : List NodeId) : (p.common as bs).Nodup :=
  (p.inOrder_traverse bs).nodup.filter _

theorem mem_common_iff : m ∈ p.common as bs ↔ p.ReachedFrom as m ∧ p.ReachedFrom bs m := by
  rw [common, List.mem_filter, mem_traverse_iff, decide_eq_true_iff, and_comm]

theorem reachedFrom_append :
    p.ReachedFrom (as ++ bs) m ↔ p.ReachedFrom as m ∨ p.ReachedFrom bs m := by
  simp only [ReachedFrom, List.mem_append, or_and_right, exists_or]

theorem totalFlops_filter (p : Pool) (keep : NodeId → Prop) [DecidablePred keep]
    (ns : List NodeId) :
    p.totalFlops (ns.filter fun n => keep n) + p.totalFlops (ns.filter fun n => ¬ keep n) =
      p.totalFlops ns := by
  have hperm := List.filter_append_perm (fun n => decide (keep n)) ns
  simp only [decide_not, ← totalFlops_append]
  exact totalFlops_perm hperm

/-- What both lists of roots reach is left out of the total once. -/
theorem totalFlops_traverse_append (p : Pool) (as bs : List NodeId) :
    p.totalFlops (p.traverse (as ++ bs)) + p.totalFlops (p.common as bs) =
      p.totalFlops (p.traverse as) + p.totalFlops (p.traverse bs) := by
  rw [traverse_append, totalFlops_append, ← p.totalFlops_filter (p.ReachedFrom as) (p.traverse bs)]
  show _ + p.totalFlops (p.common as bs) = _ + (p.totalFlops (p.common as bs) + _)
  omega

/-- The order of two lists of roots does not matter for their total. -/
theorem count_append_comm (hclosed : p.Closed) (hp : p.Derived)
    (hcount : (p.count (as ++ bs)).1 = .ok t) : (p.count (bs ++ as)).1 = .ok t := by
  have hperm : (p.traverse (as ++ bs)).Perm (p.traverse (bs ++ as)) := traverse_perm fun m => by
    rw [reachedFrom_append, reachedFrom_append, or_comm]
  rw [count_eq_ok_iff hclosed hp] at hcount ⊢
  rw [← totalFlops_perm hperm]
  exact ⟨fun n hn => hcount.1 n (hperm.mem_iff.mpr hn), hcount.2⟩

/-- **The count of one node** goes on from the count of its operands, by the node alone. -/
theorem count_singleton (hclosed : p.Closed) (hp : p.Derived) (n : NodeId) :
    (p.count [n]).1 = (do
      let below ← (p.count (p.operands n)).1
      let own ← (p.price n).1
      p.addFlops below n own) := by
  rw [(count_spec hclosed hp [n]).1, (count_spec hclosed hp (p.operands n)).1,
    (price_spec hclosed hp n).1, traverse_singleton, foldCosts_append]
  cases foldCosts addFlops p 0 (p.traverse (p.operands n)) with
  | error e => rfl
  | ok below =>
    show foldCosts addFlops p below [n] = p.cost n >>= p.addFlops below n
    rw [foldCosts_cons]
    cases p.cost n with
    | error e => rfl
    | ok own => exact bind_pure (p.addFlops below n own)

/-- What is counted together with other roots can be counted alone, and comes to no more. -/
theorem count_left_of_append (hclosed : p.Closed) (hp : p.Derived)
    (hcount : (p.count (as ++ bs)).1 = .ok t) :
    (p.count as).1 = .ok (p.totalFlops (p.traverse as)) ∧ p.totalFlops (p.traverse as) ≤ t := by
  obtain ⟨hpriced, hfit, rfl⟩ := (count_eq_ok_iff hclosed hp).mp hcount
  rw [traverse_append] at hpriced
  have hle : p.totalFlops (p.traverse as) ≤ p.totalFlops (p.traverse (as ++ bs)) := by
    rw [traverse_append, totalFlops_append]
    exact Nat.le_add_right _ _
  have has : ∀ n ∈ p.traverse as, p.Priced n := fun n hn => hpriced n (List.mem_append_left _ hn)
  exact ⟨(count_eq_ok_iff hclosed hp).mpr ⟨has, hle.trans hfit, rfl⟩, hle⟩

end Pool

namespace Session

variable {H : NodeHash} {s : Session} {as bs ops : List NodeId} {n : NodeId} {k : Kind} {t : Nat}

/-! ## Roots in sessions -/

/-- **Traversals are put together from those of their parts.** In a reachable session, a walk over
two lists of roots visits what one over the first visits, and then what one over the second visits
and the first does not reach, in the order of the second. A walk from one node visits what a walk
over its operands visits, and then the node. -/
theorem Reachable.traverse_composes (h : s.Reachable H) :
    (∀ as bs, s.pool.traverse (as ++ bs) =
      s.pool.traverse as ++ (s.pool.traverse bs).filter fun m => ¬ s.pool.ReachedFrom as m) ∧
    (∀ n k ops, s.pool.node? n = some (k, ops) →
      s.pool.traverse [n] = s.pool.traverse ops ++ [n]) ∧
    ∀ roots, (Walk.start roots).visits s.pool = s.pool.traverse roots := by
  refine ⟨s.pool.traverse_append, fun n k ops hn => ?_, fun roots => ?_⟩
  · obtain ⟨c, hc, -, rfl⟩ := Pool.node?_eq_some_iff.mp hn
    rw [Pool.traverse_singleton, h.wellFormed.pool.closed.operands_eq hc]
  · rw [Walk.visits_start, Pool.traverse_eq_postOrder]

/-- A sum `x + x`, and the sum and the product of this sum with itself. -/
def sumUsedTwice : Session :=
  let H : NodeHash := fun _ _ => 0
  let p : Pool := (Pool.empty.construct H (.variable "x" [])).2
  let q : Pool := (p.construct H (.sum 0 0)).2
  let r : Pool := (q.construct H (.sum 1 1)).2
  { pool := (r.construct H (.product 1 1)).2
    nodes := [("g", 3), ("f", 2), ("e", 1), ("x", 0)] }

theorem reachable_sumUsedTwice : sumUsedTwice.Reachable fun _ _ => 0 := by
  unfold sumUsedTwice
  extract_lets H p q r
  have hx : Reachable H { pool := p, nodes := [("x", 0)] } :=
    Reachable.start.construct (c := .variable "x" []) rfl rfl (by decide +kernel) rfl
  have he : Reachable H { pool := q, nodes := [("e", 1), ("x", 0)] } :=
    hx.construct (c := .sum "x" "x") rfl rfl (by decide +kernel) rfl
  have hf : Reachable H { pool := r, nodes := [("f", 2), ("e", 1), ("x", 0)] } :=
    he.construct (c := .sum "e" "e") rfl rfl (by decide +kernel) rfl
  have hmade : (r.construct H (.product 1 1)).1 = .ok 3 := by decide +kernel
  -- from here on nothing is looked up in the pool
  clear_value r
  exact hf.construct (c := .product "e" "e") rfl rfl hmade rfl

/-- The product adds itself to what the sum has reached, and is visited after its own operand. -/
theorem traverse_composes_of_product :
    sumUsedTwice.pool.traverse [2, 3] = [0, 1, 2] ++ [3] ∧
      sumUsedTwice.pool.traverse [3] = sumUsedTwice.pool.traverse [1, 1] ++ [3] := by
  obtain ⟨happend, hsingle, -⟩ := reachable_sumUsedTwice.traverse_composes
  refine ⟨?_, hsingle 3 .product [1, 1] (by decide +kernel)⟩
  have hboth := happend [2] [3]
  rw [Pool.traverse_eq_postOrder _ [2], Pool.traverse_eq_postOrder _ [3]] at hboth
  rw [← List.singleton_append, hboth]
  decide +kernel

/-- **Inclusion and exclusion.** In a reachable session, whenever two lists of roots can be counted
together then each can be counted alone. The total, and the price of the nodes that both reach,
come to the same as the two totals. So it is at least the greater of these and at most their
sum. -/
theorem Reachable.count_append (h : s.Reachable H)
    (hcount : (s.pool.count (as ++ bs)).1 = .ok t) :
    ∃ a b both, (s.pool.count as).1 = .ok a ∧ (s.pool.count bs).1 = .ok b ∧
      both.Nodup ∧ (∀ m, m ∈ both ↔ s.pool.ReachedFrom as m ∧ s.pool.ReachedFrom bs m) ∧
      (∀ m ∈ both, (s.pool.price m).1 = .ok (s.pool.flops m)) ∧
      t + s.pool.totalFlops both = a + b ∧ max a b ≤ t ∧ t ≤ a + b := by
  have hpool := h.wellFormed.pool
  obtain ⟨has, hleft⟩ := Pool.count_left_of_append hpool.closed hpool.derived hcount
  obtain ⟨hbs, hright⟩ := Pool.count_left_of_append hpool.closed hpool.derived
    (Pool.count_append_comm hpool.closed hpool.derived hcount)
  obtain ⟨hpriced, -, rfl⟩ := (Pool.count_eq_ok_iff hpool.closed hpool.derived).mp hcount
  have hboth := s.pool.totalFlops_traverse_append as bs
  refine ⟨_, _, s.pool.common as bs, has, hbs, s.pool.nodup_common as bs,
    fun m => Pool.mem_common_iff, fun m hm => ?_, hboth, Nat.max_le.mpr ⟨hleft, hright⟩,
    hboth ▸ Nat.le_add_right _ _⟩
  have hmem : m ∈ s.pool.traverse (as ++ bs) :=
    Pool.mem_traverse_iff.mpr (Pool.reachedFrom_append.mpr (.inl (Pool.mem_common_iff.mp hm).1))
  rw [(Pool.price_spec hpool.closed hpool.derived m).1, (hpriced m hmem).cost_eq]

/-- The sum and the product cost two together with what they share, and three with each other. -/
theorem count_append_of_product :
    (sumUsedTwice.pool.count ([2] ++ [3])).1 = .ok 3 ∧
      ∃ both, (∀ m, m ∈ both ↔
        sumUsedTwice.pool.ReachedFrom [2] m ∧ sumUsedTwice.pool.ReachedFrom [3] m) ∧
        sumUsedTwice.pool.totalFlops both = 1 := by
  have hpool := reachable_sumUsedTwice.wellFormed.pool
  have hcount : ∀ roots, (sumUsedTwice.pool.count roots).1 =
      Pool.foldCosts Pool.addFlops sumUsedTwice.pool 0 (sumUsedTwice.pool.postOrder roots) := by
    intro roots
    rw [← Pool.traverse_eq_postOrder, (Pool.count_spec hpool.closed hpool.derived roots).1]
  have hsum : (sumUsedTwice.pool.count [2]).1 = .ok 2 := by
    rw [hcount]
    decide +kernel
  have hproduct : (sumUsedTwice.pool.count [3]).1 = .ok 2 := by
    rw [hcount]
    decide +kernel
  have htotal : (sumUsedTwice.pool.count ([2] ++ [3])).1 = .ok 3 := by
    rw [hcount]
    decide +kernel
  obtain ⟨a, b, both, ha, hb, -, hreached, -, heq, -⟩ := reachable_sumUsedTwice.count_append htotal
  obtain rfl := Except.ok.inj (hsum.symm.trans ha)
  obtain rfl := Except.ok.inj (hproduct.symm.trans hb)
  exact ⟨htotal, both, hreached, by omega⟩

/-- **A node adds its own price.** In a reachable session, counting a node fails as counting its
operands does. If they can be counted then it fails as pricing the node does. If the node can be
priced then its count is that of the operands and the price together, or an overflow of the node's
kind iff the two together exceed the limit. The operands may be any, in any number, and each may
occur more than once and be reached from others. -/
theorem Reachable.count_node (h : s.Reachable H) (hn : s.pool.node? n = some (k, ops)) :
    (s.pool.count [n]).1 =
      match (s.pool.count ops).1, (s.pool.price n).1 with
      | .error e, _ => .error e
      | .ok _, .error e => .error e
      | .ok below, .ok own =>
        if below + own ≤ Checked.limit then .ok (below + own)
        else .error (.costOverflow k.name) := by
  have hpool := h.wellFormed.pool
  obtain ⟨c, hc, rfl, rfl⟩ := Pool.node?_eq_some_iff.mp hn
  have hname : s.pool.kindName n = c.kind.name := by
    rw [Pool.kindName, Pool.kind?_eq_node, hn]
    rfl
  rw [Pool.count_singleton hpool.closed hpool.derived, hpool.closed.operands_eq hc]
  cases (s.pool.count c.operands).1 with
  | error e => rfl
  | ok below =>
    cases (s.pool.price n).1 with
    | error e => rfl
    | ok own =>
      show s.pool.addFlops below n own = _
      rw [Pool.addFlops_eq, hname]

/-- A sum of a sum with itself adds one to the count of its two operands, which are one node. -/
theorem count_node_of_sum_of_sums :
    sumUsedTwice.pool.node? 2 = some (.sum, [1, 1]) ∧
      (sumUsedTwice.pool.count [1, 1]).1 = .ok 1 ∧ (sumUsedTwice.pool.price 2).1 = .ok 1 ∧
      (sumUsedTwice.pool.count [2]).1 = .ok 2 := by
  have hpool := reachable_sumUsedTwice.wellFormed.pool
  have hn : sumUsedTwice.pool.node? 2 = some (.sum, [1, 1]) := by decide +kernel
  have hbelow : (sumUsedTwice.pool.count [1, 1]).1 = .ok 1 := by
    rw [(Pool.count_spec hpool.closed hpool.derived [1, 1]).1, Pool.traverse_eq_postOrder]
    decide +kernel
  have hown : (sumUsedTwice.pool.price 2).1 = .ok 1 := by
    rw [(Pool.price_spec hpool.closed hpool.derived 2).1]
    decide +kernel
  refine ⟨hn, hbelow, hown, ?_⟩
  rw [reachable_sumUsedTwice.count_node hn, hbelow, hown]
  rfl

end Session

end TensorCost
