import TensorCost.Proofs.Cost.Price
import TensorCost.Proofs.Extent
import TensorCost.Proofs.Pool.Expression

/-!
# Exact totals

The total of a graph is that of its distinct subexpressions in numbers without bound, as long as
every number on the way fits. All extents and prices only make a number larger, so if the last one
fits then all do, and if it does not then the first one that does not is found.

* `Tree.price` is the price of an expression without bound, `Tree.Unsupported` says that there is
  none, and `Tree.total` is the total of several prices.

Results:
* `cost_of_tree`: the cost of a node is the price of its expression.
* `Reachable.count_exact`: what is counted in a reachable session, and why counting fails.
-/

namespace TensorCost

/-! ## Prices of expressions -/

namespace Tree

variable {u : Tree} {us : List Tree} {sum t : Nat} {e : Error}

/-- The price of the outermost node of an expression without bound, zero if there is none. -/
def price (u : Tree) : Nat := u.price?.getD 0

/-- Whether the kind of the outermost node has no price. -/
def Unsupported (u : Tree) : Prop :=
  (∃ bound, u.kind = .componentTensor bound) ∨ ∃ i j, u.kind = .delta i j

/-- Whether the outermost node has a price and the price fits. -/
def Priceable (u : Tree) : Prop := ¬ u.Unsupported ∧ u.price ≤ Checked.limit

/-- The total of prices without bound. -/
def total (us : List Tree) : Nat := (us.map price).foldr (· + ·) 0

theorem total_cons (u : Tree) (us : List Tree) :
    Tree.total (u :: us) = u.price + Tree.total us := rfl

theorem price_le_total (hu : u ∈ us) : u.price ≤ Tree.total us := by
  induction us with
  | nil => exact absurd hu List.not_mem_nil
  | cons v us ih =>
    rw [total_cons]
    rcases List.mem_cons.mp hu with rfl | hu
    · exact Nat.le_add_right _ _
    · exact Nat.le_trans (ih hu) (Nat.le_add_left _ _)

theorem forall_priceable_iff (hfit : Tree.total us ≤ Checked.limit) :
    (∀ u ∈ us, u.Priceable) ↔ ∀ u ∈ us, ¬ u.Unsupported :=
  forall₂_congr fun _ hu => and_iff_left (Nat.le_trans (price_le_total hu) hfit)

theorem price?_eq_none_iff : u.price? = none ↔ u.Unsupported := by
  unfold price? Unsupported
  cases u.kind <;> simp [Kind.costRule]

/-- A total with the price of one more expression. -/
def addPrice (sum : Nat) (u : Tree) : Except Error Nat :=
  match u.price? with
  | none => .error (.unsupportedKind u.kind.name)
  | some flops =>
    if sum + flops ≤ Checked.limit then .ok (sum + flops)
    else .error (.costOverflow u.kind.name)

theorem addPrice_eq_ok_iff :
    addPrice sum u = .ok t ↔
      ¬ u.Unsupported ∧ sum + u.price = t ∧ sum + u.price ≤ Checked.limit := by
  rw [← price?_eq_none_iff, price]
  unfold addPrice
  cases u.price? with
  | none => simp
  | some flops =>
    by_cases hfit : sum + flops ≤ Checked.limit
    · simp [hfit]
    · simp [hfit]

theorem addPrice_eq_error_iff :
    addPrice sum u = .error e ↔
      u.Unsupported ∧ e = .unsupportedKind u.kind.name ∨
        ¬ u.Unsupported ∧ Checked.limit < sum + u.price ∧ e = .costOverflow u.kind.name := by
  rw [← price?_eq_none_iff, price]
  unfold addPrice
  cases u.price? with
  | none => simp [eq_comm]
  | some flops =>
    by_cases hfit : sum + flops ≤ Checked.limit
    · simp [hfit]
    · simp [hfit, Nat.lt_of_not_le hfit, eq_comm]

/-- Adding prices up succeeds iff every kind has a price and the exact total fits. -/
theorem foldlM_addPrice_eq_ok_iff (hfit : sum ≤ Checked.limit) :
    us.foldlM addPrice sum = .ok t ↔
      (∀ u ∈ us, ¬ u.Unsupported) ∧ sum + Tree.total us = t ∧
        sum + Tree.total us ≤ Checked.limit := by
  induction us generalizing sum with
  | nil =>
    show Except.ok sum = .ok t ↔ _
    simp [Tree.total, hfit]
  | cons u us ih =>
    rw [List.foldlM_cons, bind_eq_ok_iff, total_cons, List.forall_mem_cons, ← Nat.add_assoc]
    constructor
    · rintro ⟨sum', hu, hus⟩
      obtain ⟨hkind, rfl, hle⟩ := addPrice_eq_ok_iff.mp hu
      obtain ⟨hkinds, hrest⟩ := (ih hle).mp hus
      exact ⟨⟨hkind, hkinds⟩, hrest⟩
    · rintro ⟨⟨hkind, hkinds⟩, ht, hle⟩
      have hle' : sum + u.price ≤ Checked.limit := Nat.le_trans (Nat.le_add_right _ _) hle
      exact ⟨_, addPrice_eq_ok_iff.mpr ⟨hkind, rfl, hle'⟩, (ih hle').mpr ⟨hkinds, ht, hle⟩⟩

end Tree

/-! ## Costs of nodes -/

namespace Pool

variable {p : Pool} {n : NodeId} {t : Tree} {ns : List NodeId} {us : List Tree}

/-- **The cost of a node** is the price of its expression, if it fits. -/
theorem Closed.cost_of_tree (hp : p.Closed) (ht : p.tree? n = some t) :
    p.cost n = Tree.addPrice 0 t := by
  obtain ⟨hkind, -⟩ := hp.denotes_operands ht
  rw [Tree.addPrice, Tree.price?]
  cases hrule : t.kind.costRule with
  | noWork => simp only [cost, hkind, hrule, Nat.zero_add, Nat.zero_le, if_true]
  | unpriced => simp only [cost, hkind, hrule]
  | loops bound =>
    simp only [cost_of_loops hkind hrule, hp.openIndices_of_tree ht, List.prod_eq_foldr,
      Nat.zero_add]

/-- Adding the cost of a node is adding the price of its expression: a price that does not fit by
itself does not fit in a total either, and the error is the same. -/
theorem Closed.addFlops_of_tree (hp : p.Closed) (ht : p.tree? n = some t) (total : Nat) :
    (do p.addFlops total n (← p.cost n)) = Tree.addPrice total t := by
  obtain ⟨hkind, -⟩ := hp.denotes_operands ht
  rw [hp.cost_of_tree ht, Tree.addPrice, Tree.addPrice]
  cases t.price? with
  | none => rfl
  | some flops =>
    simp only [Nat.zero_add]
    by_cases hflops : flops ≤ Checked.limit
    · rw [if_pos hflops]
      show p.addFlops total n flops = _
      rw [addFlops_eq, kindName, hkind]
      rfl
    · rw [if_neg hflops, if_neg fun h => hflops (Nat.le_trans (Nat.le_add_left _ _) h)]
      rfl

theorem Closed.foldCosts_addFlops (hp : p.Closed) (h : p.Denotes ns us) (total : Nat) :
    foldCosts addFlops p total ns = us.foldlM Tree.addPrice total := by
  induction h generalizing total with
  | nil => rfl
  | @cons n u ns us hnu _ ih =>
    rw [foldCosts_cons, List.foldlM_cons, ← hp.addFlops_of_tree hnu]
    cases p.cost n with
    | error e => rfl
    | ok flops =>
      show (p.addFlops total n flops >>= fun s => foldCosts addFlops p s ns) =
        p.addFlops total n flops >>= fun s => us.foldlM Tree.addPrice s
      congr 1
      funext s
      exact ih s

/-- Counting adds up the prices of the distinct subexpressions of the roots. -/
theorem count_of_trees (hclosed : p.Closed) (hp : p.Derived) (hinj : p.Faithful)
    {roots : List NodeId} {ts : List Tree} (hts : p.Denotes roots ts) :
    (p.count roots).1 = (Tree.distinct ts).foldlM Tree.addPrice 0 := by
  rw [(count_spec hclosed hp roots).1]
  exact hclosed.foldCosts_addFlops (traverse_denotes hclosed hinj hts) 0

end Pool

/-! ## Counting in sessions -/

/-- **Counting is exact.** In a reachable session, the roots stand for expressions `ts`, and the
nodes of a traversal for the subexpressions of these, each once. Counting answers `total` iff each
of the distinct subexpressions can be priced and `total` is their exact total and fits. Otherwise it
fails, with an error that names the first of them that has no price or at which the total, as it
runs, no longer fits. -/
theorem Session.Reachable.count_exact {H : NodeHash} {s : Session} {roots : List NodeId}
    (h : s.Reachable H) (hroots : ∀ r ∈ roots, s.pool.Alive r) :
    ∃ ts, roots.mapM s.pool.tree? = some ts ∧
      (s.pool.traverse roots).mapM s.pool.tree? = some (Tree.distinct ts) ∧
      (Tree.distinct ts).Nodup ∧ (∀ u, u ∈ Tree.distinct ts ↔ ∃ t ∈ ts, u ∈ t.subexpressions) ∧
      (∀ total, (s.pool.count roots).1 = .ok total ↔
        (∀ u ∈ Tree.distinct ts, u.Priceable) ∧
          Tree.total (Tree.distinct ts) ≤ Checked.limit ∧ total = Tree.total (Tree.distinct ts)) ∧
      ∀ e, (s.pool.count roots).1 = .error e ↔
        ∃ before u after, Tree.distinct ts = before ++ u :: after ∧
          (∀ v ∈ before, v.Priceable) ∧ Tree.total before ≤ Checked.limit ∧
          (u.Unsupported ∧ e = .unsupportedKind u.kind.name ∨
            ¬ u.Unsupported ∧ Checked.limit < Tree.total before + u.price ∧
              e = .costOverflow u.kind.name) := by
  have hpool := h.wellFormed.pool
  have hinj : s.pool.Faithful := fun a b t ha hb => hpool.tree_inj ha hb
  obtain ⟨ts, hts⟩ := exists_mapM_eq_some fun r hr => hpool.closed.exists_tree (hroots r hr)
  have hden := Pool.denotes_iff.mpr hts
  have htraverse := Pool.traverse_denotes hpool.closed hinj hden
  refine ⟨ts, hts, Pool.denotes_iff.mp htraverse, Tree.nodup_distinct ts,
    fun u => Tree.mem_distinct, fun total => ?_, fun e => ?_⟩
  all_goals rw [Pool.count_of_trees hpool.closed hpool.derived hinj hden]
  · rw [Tree.foldlM_addPrice_eq_ok_iff (Nat.zero_le _), Nat.zero_add]
    constructor
    · rintro ⟨hkinds, rfl, hfit⟩
      exact ⟨(Tree.forall_priceable_iff hfit).mpr hkinds, hfit, rfl⟩
    · rintro ⟨hpriceable, hfit, rfl⟩
      exact ⟨(Tree.forall_priceable_iff hfit).mp hpriceable, rfl, hfit⟩
  · rw [foldlM_eq_error_iff]
    constructor
    · rintro ⟨before, u, after, sum, heq, hbefore, hu⟩
      rw [Tree.foldlM_addPrice_eq_ok_iff (Nat.zero_le _), Nat.zero_add] at hbefore
      obtain ⟨hkinds, rfl, hfit⟩ := hbefore
      exact ⟨before, u, after, heq, (Tree.forall_priceable_iff hfit).mpr hkinds, hfit,
        Tree.addPrice_eq_error_iff.mp hu⟩
    · rintro ⟨before, u, after, heq, hpriceable, hfit, hu⟩
      refine ⟨before, u, after, Tree.total before, heq, ?_, Tree.addPrice_eq_error_iff.mpr hu⟩
      rw [Tree.foldlM_addPrice_eq_ok_iff (Nat.zero_le _), Nat.zero_add]
      exact ⟨(Tree.forall_priceable_iff hfit).mp hpriceable, rfl, hfit⟩

/-- Two sums, one inside the other, however often they are asked for and paths lead to the inner. -/
theorem Session.count_exact_of_nested_sums :
    let H : NodeHash := fun _ _ => 0
    let p : Pool := (Pool.empty.construct H (.variable "x" [])).2
    let q : Pool := (p.construct H (.sum 0 0)).2
    let r : Pool := (q.construct H (.sum 1 1)).2
    let s : Session := { pool := r, nodes := [("f", 2), ("e", 1), ("x", 0)] }
    s.Reachable H ∧ (∀ n ∈ [2, 1, 2], s.pool.Alive n) ∧ (s.pool.count [2, 1, 2]).1 = .ok 2 := by
  intro H p q r s
  have hx : Reachable H { pool := p, nodes := [("x", 0)] } :=
    Reachable.start.construct (c := .variable "x" []) rfl rfl (by decide +kernel) rfl
  have he : Reachable H { pool := q, nodes := [("e", 1), ("x", 0)] } :=
    hx.construct (c := .sum "x" "x") rfl rfl (by decide +kernel) rfl
  have hs : s.Reachable H := he.construct (c := .sum "e" "e") rfl rfl (by decide +kernel) rfl
  have halive : ∀ n ∈ [2, 1, 2], s.pool.Alive n := by decide +kernel
  refine ⟨hs, halive, ?_⟩
  obtain ⟨ts, hts, -, -, -, hok, -⟩ := hs.count_exact halive
  let x : Tree := .node (.variable "x" []) []
  let e : Tree := .node .sum [x, x]
  let f : Tree := .node .sum [e, e]
  have htrees : [2, 1, 2].mapM s.pool.tree? = some [f, e, f] := by decide +kernel
  rw [htrees] at hts
  obtain rfl := Option.some.inj hts
  have hdistinct : Tree.distinct [f, e, f] = [x, e, f] := by decide
  have htotal : Tree.total [x, e, f] = 2 := by decide
  rw [hok, hdistinct, htotal]
  refine ⟨(Tree.forall_priceable_iff (by rw [htotal]; decide)).mpr fun u hu => ?_, by decide, rfl⟩
  rw [← Tree.price?_eq_none_iff]
  revert u
  decide

end TensorCost
