import TensorCost.Proofs.Pool.Canonicity
import TensorCost.Proofs.Traversal

/-!
# Graphs and unfolded expressions

A graph in order says the same as the expressions that its nodes stand for, written out without any
sharing.

* `Tree.subexpressions` lists the subexpressions of an expression as often as they occur, and
  `Tree.distinct` those of several expressions, each once, in the order of first occurrences.
* `Pool.Denotes` says which expressions the nodes of a list stand for, and `Pool.Faithful` that
  living nodes can be told apart by their expressions.

Results:
* `Closed.openIndices_of_tree`: the free indices of a node are the open indices of its expression.
* `traverse_denotes`: the nodes of a traversal stand for the distinct subexpressions of the roots.
-/

namespace TensorCost

/-! ## Subexpressions -/

namespace Tree

mutual

/-- Whether two expressions are the same. -/
def decEq : (t u : Tree) → Decidable (t = u)
  | node k ts, node l us =>
    match decEqAll ts us with
    | isTrue hts =>
      if hk : k = l then isTrue (by rw [hk, hts])
      else isFalse fun h => hk (node.inj h).1
    | isFalse hts => isFalse fun h => hts (node.inj h).2

/-- Whether two lists of expressions are the same. -/
def decEqAll : (ts us : List Tree) → Decidable (ts = us)
  | [], [] => isTrue rfl
  | [], u :: us => isFalse (List.cons_ne_nil u us).symm
  | t :: ts, [] => isFalse (List.cons_ne_nil t ts)
  | t :: ts, u :: us =>
    match decEq t u, decEqAll ts us with
    | isTrue ht, isTrue hts => isTrue (by rw [ht, hts])
    | isFalse ht, _ => isFalse fun h => ht (List.cons.inj h).1
    | _, isFalse hts => isFalse fun h => hts (List.cons.inj h).2

end

instance : DecidableEq Tree := decEq

mutual

/-- The subexpressions of an expression, once for each occurrence, each after its own operands. -/
def subexpressions : Tree → List Tree
  | node k ts => subexpressionsAll ts ++ [node k ts]

/-- The subexpressions of several expressions, one after the other. -/
def subexpressionsAll : List Tree → List Tree
  | [] => []
  | t :: rest => subexpressions t ++ subexpressionsAll rest

end

/-- The distinct subexpressions of several expressions, each after its own operands. -/
def distinct (ts : List Tree) : List Tree := (subexpressionsAll ts).eraseDups

theorem mem_subexpressionsAll {u : Tree} {ts : List Tree} :
    u ∈ subexpressionsAll ts ↔ ∃ t ∈ ts, u ∈ t.subexpressions := by
  induction ts with
  | nil => simp [subexpressionsAll]
  | cons t ts ih => simp [subexpressionsAll, ih]

theorem mem_distinct {u : Tree} {ts : List Tree} :
    u ∈ distinct ts ↔ ∃ t ∈ ts, u ∈ t.subexpressions := by
  rw [distinct, List.mem_eraseDups, mem_subexpressionsAll]

theorem nodup_distinct (ts : List Tree) : (distinct ts).Nodup := nodup_eraseDups _

theorem openIndices_eq (t : Tree) : t.openIndices = t.occurrences.eraseDups :=
  OrderedSet.toList_ofList _

end Tree

namespace Pool

variable {p : Pool} {n m : NodeId} {t u : Tree} {ns : List NodeId} {ts : List Tree}

/-- Node by node, `ns` stand for `ts`. -/
def Denotes (p : Pool) (ns : List NodeId) (ts : List Tree) : Prop :=
  List.Forall₂ (fun n t => p.tree? n = some t) ns ts

/-- Whether living nodes can be told apart by their expressions. -/
def Faithful (p : Pool) : Prop := ∀ ⦃a b t⦄, p.tree? a = some t → p.tree? b = some t → a = b

theorem WellFormed.faithful {H : NodeHash} {held : Multiset NodeId} (hp : p.WellFormed H held) :
    p.Faithful := fun _ _ _ ha hb => hp.tree_inj ha hb

theorem denotes_iff : p.Denotes ns ts ↔ ns.mapM p.tree? = some ts := mapM_eq_some_iff.symm

theorem Denotes.exists_tree (h : p.Denotes ns ts) (hn : n ∈ ns) :
    ∃ t ∈ ts, p.tree? n = some t := by
  induction h with
  | nil => exact absurd hn List.not_mem_nil
  | @cons a b as bs hab _ ih =>
    rcases List.mem_cons.mp hn with rfl | hn
    · exact ⟨b, List.mem_cons_self, hab⟩
    · obtain ⟨t, ht, hnt⟩ := ih hn
      exact ⟨t, List.mem_cons_of_mem _ ht, hnt⟩

theorem Denotes.exists_node (h : p.Denotes ns ts) (ht : t ∈ ts) :
    ∃ n ∈ ns, p.tree? n = some t := by
  induction h with
  | nil => exact absurd ht List.not_mem_nil
  | @cons a b as bs hab _ ih =>
    rcases List.mem_cons.mp ht with rfl | ht
    · exact ⟨a, List.mem_cons_self, hab⟩
    · obtain ⟨n, hn, hnt⟩ := ih ht
      exact ⟨n, List.mem_cons_of_mem _ hn, hnt⟩

theorem Closed.denotes_operands (hp : p.Closed) (ht : p.tree? n = some t) :
    p.kind? n = some t.kind ∧ p.Denotes (p.operands n) t.operands := by
  obtain ⟨ops, hnode, hall⟩ := hp.tree?_eq_some_iff.mp ht
  obtain ⟨c, hc, hk, rfl⟩ := node?_eq_some_iff.mp hnode
  rw [hp.operands_eq hc, kind?_eq_node, hnode]
  exact ⟨rfl, hall⟩

/-! ## Free indices -/

theorem nodup_openIndices (p : Pool) (n : NodeId) : (p.openIndices n).Nodup := by
  rw [openIndices_eq_flatMap]
  cases p.node? n with
  | none => exact List.nodup_nil
  | some x =>
    show ((OrderedSet.ofList _).toList.filter _).Nodup
    rw [OrderedSet.toList_ofList]
    exact (nodup_eraseDups _).filter _

theorem Denotes.eraseDups_openIndices (h : p.Denotes ns ts)
    (heq : ∀ m ∈ ns, ∀ u, p.tree? m = some u → p.openIndices m = u.openIndices) :
    (ns.flatMap p.openIndices).eraseDups = (Tree.occurrencesAll ts).eraseDups := by
  induction h with
  | nil => rfl
  | @cons m u ms us hmu _ ih =>
    rw [List.flatMap_cons, Tree.occurrencesAll]
    refine eraseDups_append_congr ?_ (ih fun x hx => heq x (List.mem_cons_of_mem _ hx))
    rw [heq m List.mem_cons_self u hmu, Tree.openIndices_eq]
    exact eraseDups_of_nodup (nodup_eraseDups _)

/-- **The free indices of a node** are the open indices of its expression. At every node the first
occurrences are taken anew, and closed indices are left out afterwards rather than before. -/
theorem Closed.openIndices_of_tree (hp : p.Closed) (ht : p.tree? n = some t) :
    p.openIndices n = t.openIndices := by
  induction n using Nat.strongRecOn generalizing t with
  | ind n ih =>
    obtain ⟨k, ts⟩ := t
    obtain ⟨hkind, hops⟩ := hp.denotes_operands ht
    have hinner := hops.eraseDups_openIndices fun m hm u hu => ih m (mem_operands_lt hm) hu
    obtain ⟨x, hx⟩ := alive_iff_node.mp (alive_of_tree ht)
    rw [kind?_eq_node, hx] at hkind
    obtain rfl := Option.some.inj hkind
    rw [openIndices_eq_flatMap, hx, Tree.openIndices_eq, Tree.occurrences, eraseDups_filter]
    show ((OrderedSet.ofList _).toList.filter _ : List Index) = _
    rw [OrderedSet.toList_ofList, eraseDups_append_congr hinner rfl]
    rfl

/-! ## Subexpressions -/

theorem Denotes.nodup (h : p.Denotes ns ts) (hinj : p.Faithful) (hns : ns.Nodup) : ts.Nodup := by
  induction h with
  | nil => exact List.nodup_nil
  | @cons n t ns ts hnt h ih =>
    obtain ⟨hn, hns⟩ := List.nodup_cons.mp hns
    refine List.nodup_cons.mpr ⟨fun ht => hn ?_, ih hns⟩
    obtain ⟨m, hm, hmt⟩ := Denotes.exists_node h ht
    rwa [hinj hnt hmt]

/-- What occurs in the expression of a node is the expression of a node below. -/
theorem Closed.exists_reaches (hp : p.Closed) (ht : p.tree? n = some t)
    (hu : u ∈ t.subexpressions) : ∃ m, p.Reaches n m ∧ p.tree? m = some u := by
  induction n using Nat.strongRecOn generalizing t with
  | ind n ih =>
    obtain ⟨k, ts⟩ := t
    obtain ⟨-, hops⟩ := hp.denotes_operands ht
    rw [Tree.subexpressions, List.mem_append, List.mem_singleton] at hu
    rcases hu with hu | rfl
    · obtain ⟨s, hs, hu⟩ := Tree.mem_subexpressionsAll.mp hu
      obtain ⟨m, hm, hms⟩ := hops.exists_node hs
      obtain ⟨x, hreach, hx⟩ := ih m (mem_operands_lt hm) hms hu
      exact ⟨x, .step hm hreach, hx⟩
    · exact ⟨n, .refl n, ht⟩

variable {visited : List NodeId} {us : List Tree}

theorem denotes_foldl (hinj : p.Faithful)
    (ih : ∀ n ∈ ns, ∀ visited us t, p.InOrder visited → p.Denotes visited us →
      p.tree? n = some t → p.Denotes (p.visit visited n) (us ++ t.subexpressions).eraseDups)
    (hvisited : p.InOrder visited) (hus : p.Denotes visited us) (hts : p.Denotes ns ts) :
    p.Denotes (ns.foldl p.visit visited) (us ++ Tree.subexpressionsAll ts).eraseDups := by
  induction hts generalizing visited us with
  | nil =>
    rw [Tree.subexpressionsAll, List.append_nil,
      eraseDups_of_nodup (hus.nodup hinj hvisited.nodup)]
    exact hus
  | @cons n t ns ts hnt _ ihs =>
    have hvisit := ih n List.mem_cons_self visited us t hvisited hus hnt
    have hnext : p.InOrder (p.visit visited n) := (visits_visit p visited n).inOrder hvisited
    have hrest := ihs (fun m hm => ih m (List.mem_cons_of_mem _ hm)) hnext hvisit
    rw [eraseDups_append_congr (eraseDups_of_nodup (nodup_eraseDups _)) rfl,
      List.append_assoc] at hrest
    exact hrest

/-- **Visiting a node** adds the subexpressions that are missing. If the node has been visited, none
is; if not, its operands add theirs, and its own expression is larger than these. -/
theorem denotes_visit (hclosed : p.Closed) (hinj : p.Faithful) (hvisited : p.InOrder visited)
    (hus : p.Denotes visited us) (ht : p.tree? n = some t) :
    p.Denotes (p.visit visited n) (us ++ t.subexpressions).eraseDups := by
  induction n using Nat.strongRecOn generalizing visited us t with
  | ind n ih =>
    by_cases hn : n ∈ visited
    · have hall : ∀ u ∈ t.subexpressions, u ∈ us := by
        intro u hu
        obtain ⟨m, hreach, hm⟩ := hclosed.exists_reaches ht hu
        obtain ⟨v, hv, hmv⟩ := hus.exists_tree (hvisited.mem_of_reaches hn hreach)
        rw [hm] at hmv
        exact Option.some.inj hmv ▸ hv
      rw [visit_of_mem hn, eraseDups_append_of_subset hall,
        eraseDups_of_nodup (hus.nodup hinj hvisited.nodup)]
      exact hus
    · obtain ⟨k, ts⟩ := t
      obtain ⟨-, hops⟩ := hclosed.denotes_operands ht
      have hrest := denotes_foldl hinj
        (fun m hm _ _ _ hvisited hus ht => ih m (mem_operands_lt hm) hvisited hus ht)
        hvisited hus hops
      have hvisits : p.Visits visited (p.operands n) ((p.operands n).foldl p.visit visited) :=
        visits_foldl fun m _ visited => visits_visit p visited m
      have hfresh : .node k ts ∉ us ++ Tree.subexpressionsAll ts := by
        intro hmem
        obtain ⟨m, hm, hmt⟩ := hrest.exists_node (List.mem_eraseDups.mpr hmem)
        rw [hinj hmt ht] at hm
        exact hvisits.not_mem_operands hn hm
      rw [visit_of_not_mem hn, Tree.subexpressions, ← List.append_assoc, eraseDups_concat hfresh]
      exact List.rel_append hrest (.cons ht .nil)

/-- **The nodes of a traversal** stand for the distinct subexpressions of the roots, in the order
in which these are met in the unfolded expressions. -/
theorem traverse_denotes (hclosed : p.Closed) (hinj : p.Faithful) {roots : List NodeId}
    (hts : p.Denotes roots ts) : p.Denotes (p.traverse roots) (Tree.distinct ts) := by
  rw [traverse_eq_postOrder]
  exact denotes_foldl hinj
    (fun _ _ _ _ _ hvisited hus ht => denotes_visit hclosed hinj hvisited hus ht)
    inOrder_nil .nil hts

end Pool

end TensorCost
