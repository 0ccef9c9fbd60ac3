import TensorCost.Pool.Construct
import TensorCost.Proofs.Pool.Derivation

/-!
# What a constructor asks for

A construction asks for a node of a certain kind over certain operands. It is refused iff there is
no such kind, or the operands are not fit for it, and looks at nothing but the free indices of an
operand in order to tell.

* `Construction.kind?` and `Construction.operands` are what a construction asks for, and
  `Construction.tree?` is the expression that it writes down.
* `Pool.examined` is the pool once the arguments have been looked at.

Results:
* `construct_cases`: a construction whose operands are fit is answered with the node that it asks
  for, and any other is refused and leaves the pool as it was examined.
* `examined_derivation`: looking at the arguments derives free indices and does nothing else.
-/

namespace TensorCost

namespace Construction

variable {ν ι : Type}

/-- The operands of a construction, from left to right. -/
def operands : Construction ν ι → List ν
  | literal .. | scalar _ | zero _ | identity _ | .variable .. | failure .. | delta .. => []
  | logicalNot a | indexed a _ | flexiblyIndexed a _ | indexSum a _ | componentTensor a _ => [a]
  | sum a b | product a b | division a b | power a b | comparison _ a b | logicalAnd a b
  | logicalOr a b => [a, b]
  | conditional c a b => [c, a, b]
  | mathFunction _ args | listTensor args => args

/-- The kind of node that a construction asks for, if it names one. -/
def kind? : Construction ν Index → Option Kind
  | literal bits shape => some (.literal bits shape)
  | scalar bits => some (.literal [bits] [])
  | zero shape => some (.zero shape)
  | identity dim => some (.identity dim)
  | .variable name shape => some (.variable name shape)
  | failure shape message => some (.failure shape message)
  | sum _ _ => some .sum
  | product _ _ => some .product
  | division _ _ => some .division
  | power _ _ => some .power
  | mathFunction name _ => some (.mathFunction name)
  | comparison symbol _ _ => (Comparison.ofSymbol symbol).toOption.map .comparison
  | logicalNot _ => some .logicalNot
  | logicalAnd _ _ => some .logicalAnd
  | logicalOr _ _ => some .logicalOr
  | conditional _ _ _ => some .conditional
  | indexed _ items => some (.indexed items)
  | flexiblyIndexed _ dims => some (.flexiblyIndexed dims)
  | listTensor _ => some .listTensor
  | indexSum _ bound => some (.indexSum bound)
  | componentTensor _ bound => some (.componentTensor bound)
  | delta i j => some (.delta i j)

/-- The expression that a construction writes down over the expressions of its operands. -/
def tree? (p : Pool) (c : Construction NodeId Index) : Option Tree := do
  let k ← c.kind?
  let ts ← c.operands.mapM p.tree?
  return .node k ts

theorem tree?_eq {p : Pool} {c : Construction NodeId Index} {k : Kind} {ts : List Tree}
    (hk : c.kind? = some k) (hts : c.operands.mapM p.tree? = some ts) :
    c.tree? p = some (.node k ts) := by
  rw [tree?, hk, hts]
  rfl

end Construction

namespace Pool

/-- The pool once the arguments of a construction have been looked at. -/
def examined (p : Pool) : Construction NodeId Index → Pool
  | .indexSum a bound | .componentTensor a bound =>
    if bound.isEmpty then p else (p.freeIndices a).2
  | _ => p

variable {p : Pool} {c : Construction NodeId Index}

theorem examined_derivation (hclosed : p.Closed) (hp : p.Derived)
    (c : Construction NodeId Index) : Derivation p (p.examined c) := by
  unfold examined
  split
  case h_3 => exact .refl
  all_goals
    split
    · exact .refl
    · exact (freeIndices_spec hclosed hp _).derivation

/-- Indices can be bound iff there is one, and all are free in the operand. -/
theorem checkBound_cases (hclosed : p.Closed) (hp : p.Derived) (name : String) (a : NodeId)
    (bound : List Index) :
    (bound ≠ [] ∧ (∀ i ∈ bound, i ∈ p.openIndices a) ∧
        p.checkBound name a bound = (.ok (), (p.freeIndices a).2)) ∨
      (¬ (bound ≠ [] ∧ ∀ i ∈ bound, i ∈ p.openIndices a) ∧
        ∃ e, p.checkBound name a bound =
          (.error e, if bound.isEmpty then p else (p.freeIndices a).2)) := by
  have hfree : (p.freeIndices a).1 = p.openIndices a := (freeIndices_spec hclosed hp a).free_eq
  unfold checkBound
  simp only [hfree]
  by_cases hbound : bound.isEmpty
  · right
    rw [if_pos hbound, if_pos hbound]
    exact ⟨fun h => h.1 (List.isEmpty_iff.mp hbound), _, rfl⟩
  · rw [if_neg hbound, if_neg hbound]
    have hne : bound ≠ [] := fun h => hbound (List.isEmpty_iff.mpr h)
    split
    · rename_i i hi
      right
      refine ⟨fun h => ?_, _, rfl⟩
      have hnot : (p.openIndices a).contains i = false := by simpa using List.find?_some hi
      have hmem := h.2 i (List.mem_of_find?_eq_some hi)
      rw [← List.contains_iff_mem, hnot] at hmem
      exact Bool.false_ne_true hmem
    · rename_i hnone
      left
      refine ⟨hne, fun i hi => ?_, rfl⟩
      have hnot := List.find?_eq_none.mp hnone i hi
      rwa [Bool.not_eq_true', Bool.not_eq_false, List.contains_iff_mem] at hnot

variable {H : NodeHash}

/-- A binder is made iff its indices can be bound. -/
theorem buildBinder_cases (hclosed : p.Closed) (hp : p.Derived) (k : Kind) (a : NodeId)
    (bound : List Index) :
    (bound ≠ [] ∧ (∀ i ∈ bound, i ∈ p.openIndices a) ∧
        p.buildBinder H k a bound = (p.freeIndices a).2.build H k [a]) ∨
      (¬ (bound ≠ [] ∧ ∀ i ∈ bound, i ∈ p.openIndices a) ∧
        ∃ e, p.buildBinder H k a bound =
          (.error e, if bound.isEmpty then p else (p.freeIndices a).2)) := by
  unfold buildBinder
  rcases checkBound_cases hclosed hp k.name a bound with
    ⟨hne, hall, hok⟩ | ⟨hnot, e, herr⟩
  · exact .inl ⟨hne, hall, by rw [hok]⟩
  · exact .inr ⟨hnot, e, by rw [herr]⟩

/-- The two ways in which a construction can end. -/
inductive Decided (H : NodeHash) (p : Pool) (c : Construction NodeId Index) : Prop
  /-- The operands are fit for the kind that is asked for, and the node is built. -/
  | built (k : Kind) (kind : c.kind? = some k) (admits : p.Admits k c.operands)
    (result : p.construct H c = (p.examined c).build H k c.operands)
  /-- There is no such kind, or the operands are not fit for it. -/
  | refused (unfit : ∀ k, c.kind? = some k → ¬ p.Admits k c.operands) (e : Error)
    (result : p.construct H c = (.error e, p.examined c))

/-- A construction that looks at nothing but its own arguments and refuses some of them. -/
theorem decided_of_test {k : Kind} {e : Error} {test : Prop} [Decidable test]
    (hkind : c.kind? = some k) (hexamined : p.examined c = p)
    (hadmits : p.Admits k c.operands ↔ ¬ test)
    (hresult : p.construct H c = if test then (.error e, p) else p.build H k c.operands) :
    Decided H p c := by
  by_cases htest : test
  · refine .refused (fun k' hk' h => ?_) e (by rw [hresult, if_pos htest, hexamined])
    obtain rfl := Option.some.inj (hkind.symm.trans hk')
    exact hadmits.mp h htest
  · exact .built k hkind (hadmits.mpr htest) (by rw [hresult, if_neg htest, hexamined])

/-- A construction that binds indices over one operand. -/
theorem decided_of_binder {k : Kind} {a : NodeId} {bound : List Index} (hclosed : p.Closed)
    (hp : p.Derived) (hkind : c.kind? = some k) (hops : c.operands = [a])
    (hexamined : p.examined c = if bound.isEmpty then p else (p.freeIndices a).2)
    (hadmits : p.Admits k [a] ↔ bound ≠ [] ∧ ∀ i ∈ bound, i ∈ p.openIndices a)
    (hresult : p.construct H c = p.buildBinder H k a bound) : Decided H p c := by
  rw [← hops] at hadmits
  rcases buildBinder_cases (H := H) hclosed hp k a bound with
    ⟨hne, hall, hbuild⟩ | ⟨hnot, e, herror⟩
  · refine .built k hkind (hadmits.mpr ⟨hne, hall⟩) ?_
    rw [hresult, hbuild, hexamined, if_neg fun h => hne (List.isEmpty_iff.mp h), hops]
  · refine .refused (fun k' hk' h => ?_) e (by rw [hresult, herror, hexamined])
    obtain rfl := Option.some.inj (hkind.symm.trans hk')
    exact hnot (hadmits.mp h)

theorem admits_binder_iff {a : NodeId} {bound : List Index} :
    (bound ≠ [] ∧ [a].length = 1 ∧ ∀ m ∈ [a], ∀ i ∈ bound, i ∈ p.openIndices m) ↔
      bound ≠ [] ∧ ∀ i ∈ bound, i ∈ p.openIndices a := by
  simp

/-- **A construction over living operands** is answered with the node that it asks for, iff these
are fit for it. -/
theorem construct_cases (hclosed : p.Closed) (hp : p.Derived)
    (halive : ∀ m ∈ c.operands, p.Alive m) : Decided H p c := by
  cases c with
  | literal bits shape =>
    by_cases hsize : bits.length = places shape
    · exact .built _ rfl ⟨rfl, hsize⟩ (if_pos hsize)
    · refine .refused (fun k hk h => ?_) _ (if_neg hsize)
      obtain rfl := Option.some.inj hk
      exact hsize h.2
  | mathFunction name args =>
    exact decided_of_test rfl rfl (not_congr List.isEmpty_iff.symm) rfl
  | listTensor items =>
    exact decided_of_test rfl rfl (not_congr List.isEmpty_iff.symm) rfl
  | indexed a items =>
    have hadmits : p.Admits (.indexed items) [a] ↔ ¬ items.isEmpty = true :=
      (and_iff_left rfl).trans (not_congr List.isEmpty_iff.symm)
    exact decided_of_test rfl rfl hadmits rfl
  | comparison symbol a b =>
    cases hsymbol : Comparison.ofSymbol symbol with
    | ok op =>
      refine .built (.comparison op) (by simp [Construction.kind?, hsymbol, Except.toOption]) rfl ?_
      simp only [construct, hsymbol]
      rfl
    | error e =>
      refine .refused (fun k hk => ?_) e (by simp only [construct, hsymbol]; rfl)
      simp [Construction.kind?, hsymbol, Except.toOption] at hk
  | flexiblyIndexed a dims =>
    obtain ⟨⟨k, ops⟩, hnode⟩ := alive_iff_node.mp (halive a (by simp [Construction.operands]))
    have hkind : p.kind? a = some k := by rw [kind?_eq_node, hnode]; rfl
    by_cases hterminal : k.isTerminal = true
    · have hnone : ((p.kind? a).filter fun k => !k.isTerminal) = none := by
        rw [hkind, Option.filter_some, if_neg (by simp [hterminal])]
      have hadmits : p.Admits (.flexiblyIndexed dims) [a] ↔ ¬ dims.isEmpty = true := by
        rw [List.isEmpty_iff]
        exact and_iff_left ⟨rfl, fun m hm => ⟨k, List.mem_singleton.mp hm ▸ hkind, hterminal⟩⟩
      exact decided_of_test rfl rfl hadmits (by simp only [construct, hnone]; rfl)
    · have hsome : ((p.kind? a).filter fun k => !k.isTerminal) = some k := by
        rw [hkind, Option.filter_some, if_pos (by simpa using hterminal)]
      refine .refused (fun k' hk h => ?_) _ (by simp only [construct, hsome]; rfl)
      obtain rfl := Option.some.inj hk
      obtain ⟨k', hk', hterminal'⟩ := h.2.2 a (List.mem_singleton_self a)
      obtain rfl := Option.some.inj (hkind.symm.trans hk')
      exact hterminal hterminal'
  | indexSum a bound => exact decided_of_binder hclosed hp rfl rfl rfl admits_binder_iff rfl
  | componentTensor a bound => exact decided_of_binder hclosed hp rfl rfl rfl admits_binder_iff rfl
  | scalar bits => exact .built _ rfl ⟨rfl, rfl⟩ rfl
  | _ => exact .built _ rfl rfl rfl

end Pool

end TensorCost
