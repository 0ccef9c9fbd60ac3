import Mathlib.Data.Fintype.EquivFin
import TensorCost.Proofs.Composition
import TensorCost.Proofs.Pool.Expression
import TensorCost.Proofs.Session.HashConsing
import TensorCost.Proofs.Walk.Turns

/-!
# Linear work

A walk takes no more turns than there are roots, nodes below them and operand positions of these,
however many paths lead from the roots to the nodes. A variable that is added to itself, the sum to
itself, and so on, has one node more with each sum and twice as many paths.

* `Tree.doubled` is a variable that has been doubled a number of times.

Results:
* `distinct_doubled`, `length_subexpressions_doubled`: it has few distinct subexpressions, which
  occur exponentially often.
* `exists_doubled`: it can be built.
* `Reachable.linear_work`: walks end and do linear work.
-/

namespace TensorCost

namespace Tree

/-- A variable that has been doubled `k` times. -/
def doubled : Nat → Tree
  | 0 => node (.variable "x" []) []
  | k + 1 => node .sum [doubled k, doubled k]

theorem subexpressions_doubled (k : Nat) :
    (doubled (k + 1)).subexpressions =
      (doubled k).subexpressions ++ (doubled k).subexpressions ++ [doubled (k + 1)] := by
  simp only [doubled, subexpressions, subexpressionsAll, List.append_nil]

/-- With each doubling there are twice as many occurrences of subexpressions, and one more. -/
theorem length_subexpressions_doubled (k : Nat) :
    (doubled k).subexpressions.length + 1 = 2 ^ (k + 1) := by
  induction k with
  | zero => rfl
  | succ k ih =>
    rw [subexpressions_doubled, List.length_append, List.length_append, List.length_singleton,
      Nat.pow_succ]
    omega

theorem length_le_of_mem_subexpressions_doubled {k : Nat} {t : Tree}
    (ht : t ∈ (doubled k).subexpressions) :
    t.subexpressions.length ≤ (doubled k).subexpressions.length := by
  induction k with
  | zero =>
    obtain rfl := List.mem_singleton.mp ht
    exact Nat.le_refl _
  | succ k ih =>
    rw [subexpressions_doubled, List.mem_append, List.mem_append, or_self,
      List.mem_singleton] at ht
    rcases ht with ht | rfl
    · refine Nat.le_trans (ih ht) ?_
      rw [subexpressions_doubled, List.append_assoc, List.length_append]
      exact Nat.le_add_right _ _
    · exact Nat.le_refl _

/-- **Each doubling** has one distinct subexpression more. -/
theorem distinct_doubled (k : Nat) :
    distinct [doubled k] = (List.range (k + 1)).map doubled := by
  have hsingle : ∀ t, distinct [t] = t.subexpressions.eraseDups := fun t => by
    rw [distinct, subexpressionsAll, subexpressionsAll, List.append_nil]
  rw [hsingle]
  induction k with
  | zero => rfl
  | succ k ih =>
    have hnew : doubled (k + 1) ∉ (doubled k).subexpressions ++ (doubled k).subexpressions := by
      intro hmem
      have hle := length_le_of_mem_subexpressions_doubled ((List.mem_append.mp hmem).elim id id)
      have hlength := length_subexpressions_doubled k
      have hlength' := length_subexpressions_doubled (k + 1)
      have hpos : 0 < 2 ^ (k + 1) := Nat.two_pow_pos _
      rw [Nat.pow_succ] at hlength'
      omega
    rw [subexpressions_doubled, eraseDups_concat hnew, eraseDups_append_of_subset fun _ h => h, ih,
      List.range_succ (n := k + 1), List.map_append]
    rfl

/-- A doubled expression has two operands. -/
theorem sum_operands_doubled (k : Nat) :
    (((List.range (k + 1)).map doubled).map fun t => t.operands.length).sum = 2 * k := by
  induction k with
  | zero => rfl
  | succ k ih =>
    rw [List.range_succ, List.map_append, List.map_append, List.sum_append, ih]
    rfl

end Tree

namespace Pool

variable {p : Pool} {n : NodeId}

/-- The nodes below a variable that has been doubled `k` times, and their operand positions. -/
theorem reached_doubled {H : NodeHash} {held : Multiset NodeId} {k : Nat}
    (hp : p.WellFormed H held) (hn : p.tree? n = some (Tree.doubled k)) :
    (p.reached [n]).card = k + 1 ∧ ∑ m ∈ p.reached [n], (p.operands m).length = 2 * k := by
  have hdenotes := traverse_denotes hp.closed hp.faithful (.cons hn .nil)
  rw [Tree.distinct_doubled] at hdenotes
  constructor
  · rw [card_reached, hdenotes.length_eq, List.length_map, List.length_range]
  · rw [sum_reached, ← Tree.sum_operands_doubled]
    exact congrArg List.sum (map_eq_of_forall₂ hdenotes fun m t hm =>
      (hp.closed.denotes_operands hm).2.length_eq)

end Pool

namespace Session

variable {H : NodeHash} {s : Session}

/-- **A variable that has been doubled** any number of times can be built. -/
theorem exists_doubled (H : NodeHash) (k : Nat) :
    ∃ (s : Session) (name : Name) (n : NodeId), s.Reachable H ∧ s.nodes.lookup name = some n ∧
      s.pool.tree? n = some (Tree.doubled k) := by
  induction k with
  | zero =>
    obtain ⟨n, q, hn, -, hq⟩ := (Reachable.start : Reachable H {}).exists_construct "x"
      (c := .variable "x" []) (d := .variable "x" []) rfl rfl rfl rfl rfl rfl
    exact ⟨_, "x", n, hq, Bindings.lookup_set_self, hn⟩
  | succ k ih =>
    obtain ⟨s, name, n, hs, hname, hn⟩ := ih
    obtain ⟨fresh, hfresh⟩ := Infinite.exists_notMem_finset (s.nodes.map Prod.fst).toFinset
    have hnode : s.node name = .ok n := by rw [node, hname]
    have hresolve : (Construction.sum name name : Construction Name Name).resolve s.node s.index =
        .ok (.sum n n) := by
      rw [Construction.resolve, hnode]
      rfl
    have hoperands : [n, n].mapM s.pool.tree? = some [Tree.doubled k, Tree.doubled k] :=
      mapM_eq_some_iff.mpr (.cons hn (.cons hn .nil))
    have hfree : s.nodes.lookup fresh = none := by
      refine List.lookup_eq_none_iff.mpr fun e he => bne_iff_ne.mpr ?_
      rintro rfl
      exact hfresh (List.mem_toFinset.mpr (List.mem_map_of_mem he))
    obtain ⟨m, q, hm, -, hq⟩ :=
      hs.exists_construct fresh rfl hresolve rfl rfl hoperands hfree
    exact ⟨_, fresh, m, hq, Bindings.lookup_set_self, hm⟩

/-- **Linear work.** In a reachable session, whose nodes have the operands that they were built
with, each turn of a walk pops one frame. From any roots there are no more turns than roots, nodes
below them and operand positions of these. No node is expanded twice, and a frame of a node that has
been expanded comes up only after the node has been visited. Advancing a walk any number of times
and draining it are turns. Draining leaves no frame, and when none is left each node below the roots
has been expanded once and no other has been.

Paths may be exponentially many all the same: a variable that has been doubled `k` times has at
least `2 ^ k` occurrences of subexpressions, one for each path that leads down from it, and no walk
from it takes more than `3 * k + 2` turns. -/
theorem Reachable.linear_work (h : s.Reachable H) (roots : List NodeId) :
    (∀ n c, s.pool.cell? n = some c → s.pool.operands n = c.operands) ∧
    (∀ m, m ∈ s.pool.reached roots ↔ s.pool.ReachedFrom roots m) ∧
    (∀ es w, (Walk.start roots).Turns s.pool es w →
      es.length ≤ roots.length + (s.pool.reached roots).card +
        ∑ m ∈ s.pool.reached roots, (s.pool.operands m).length ∧
      (Walk.expansions es).Nodup ∧
      (∀ n rest, w.stack = ⟨n, false⟩ :: rest → n ∈ Walk.expansions es → n ∈ w.visited.toList) ∧
      (w.stack = [] →
        ∀ m, (Walk.expansions es).count m = if m ∈ s.pool.reached roots then 1 else 0)) ∧
    (∀ k, ∃ es, (Walk.start roots).Turns s.pool es
      ((fun w => (w.next s.pool).2)^[k] (Walk.start roots))) ∧
    (∃ es, (Walk.start roots).Turns s.pool es ((Walk.start roots).drain s.pool)) ∧
    ((Walk.start roots).drain s.pool).stack = [] ∧
    ∀ k, ∃ (t : Session) (n : NodeId) (e : Tree), t.Reachable H ∧ t.pool.tree? n = some e ∧
      2 ^ k ≤ e.subexpressions.length ∧
      ∀ es w, (Walk.start [n]).Turns t.pool es w → es.length ≤ 3 * k + 2 := by
  refine ⟨fun n c hc => h.wellFormed.pool.closed.operands_eq hc, fun m => Pool.mem_reached_iff,
    fun es w hturns => ⟨Walk.turns_le hturns, hturns.nodup_expansions,
      fun n rest => hturns.mem_visited, fun hend m => ?_⟩,
    Walk.turns_iterate_next _ _, Walk.turns_drain _ _, Walk.stack_drain _ _, fun k => ?_⟩
  · rw [hturns.nodup_expansions.count, Pool.reached]
    simp only [(hturns.expansions_perm hend).mem_iff, List.mem_toFinset]
  · obtain ⟨t, name, n, ht, -, hn⟩ := exists_doubled H k
    refine ⟨t, n, Tree.doubled k, ht, hn, ?_, fun es w hturns => ?_⟩
    · have hlength := Tree.length_subexpressions_doubled k
      have hpos : 0 < 2 ^ k := Nat.two_pow_pos k
      rw [Nat.pow_succ] at hlength
      omega
    · have hle := Walk.turns_le hturns
      obtain ⟨hcard, hsum⟩ := Pool.reached_doubled ht.wellFormed.pool hn
      rw [List.length_singleton] at hle
      omega

/-- The sum and the product of `x + x` with itself are walked in at most twelve turns, and the sum
`x + x` is expanded once although four operand positions hold it. -/
theorem linear_work_of_sumUsedTwice :
    ∃ es, (Walk.start [2, 3]).Turns sumUsedTwice.pool es
        ((Walk.start [2, 3]).drain sumUsedTwice.pool) ∧
      es.length ≤ 12 ∧ (Walk.expansions es).count 1 = 1 := by
  obtain ⟨-, -, hturns, -, ⟨es, hes⟩, hend, -⟩ := reachable_sumUsedTwice.linear_work [2, 3]
  obtain ⟨hlength, -, -, hcount⟩ := hturns es _ hes
  have horder : sumUsedTwice.pool.traverse [2, 3] = [0, 1, 2, 3] := by
    rw [Pool.traverse_eq_postOrder]
    decide +kernel
  have hoperands : ([0, 1, 2, 3].map fun m => (sumUsedTwice.pool.operands m).length).sum = 6 := by
    decide +kernel
  rw [Pool.sum_reached, Pool.card_reached, horder, hoperands] at hlength
  refine ⟨es, hes, hlength, ?_⟩
  rw [hcount hend, Pool.reached, horder]
  rfl

end Session

end TensorCost
