import TensorCost.Proofs.OrderedSet
import TensorCost.Proofs.Pool.Operation
import TensorCost.Session.Basic

/-!
# The holds of a session

A session holds the nodes that have names and the nodes of its named walks, once for each name,
frame and visit.

* `Session.held` is the multiset of these holds.

Results:
* `Bindings.held_eq_add_erase`: forgetting a name gives up the holds of its value and no others.
* `mem_held_of_node`, `mem_operands_of_resolve`: what a command names is held.
* `mem_held_of_step`: what a walk holds after a turn was held before, or is an operand of what was.
* `alive_of_mem_next`: a walk that is advanced holds living nodes if it held living nodes before.
-/

namespace TensorCost

/-- The operands of a construction are what its operands' names stand for. -/
theorem Construction.mem_operands_of_resolve {ε ν μ ι κ : Type} {node : ν → Except ε μ}
    {index : ι → Except ε κ} {c : Construction ν ι} {d : Construction μ κ}
    (h : c.resolve node index = .ok d) : ∀ m ∈ d.operands, ∃ a, node a = .ok m := by
  intro m hm
  cases c with
  | mathFunction name args =>
    obtain ⟨ms, hms, h⟩ := bind_eq_ok_iff.mp h
    obtain rfl := Except.ok.inj h
    obtain ⟨a, -, ha⟩ := exists_of_mem_mapM hms m hm
    exact ⟨a, ha⟩
  | listTensor args =>
    obtain ⟨ms, hms, h⟩ := bind_eq_ok_iff.mp h
    obtain rfl := Except.ok.inj h
    obtain ⟨a, -, ha⟩ := exists_of_mem_mapM hms m hm
    exact ⟨a, ha⟩
  | conditional c a b =>
    obtain ⟨c', hc, h⟩ := bind_eq_ok_iff.mp h
    obtain ⟨a', ha, h⟩ := bind_eq_ok_iff.mp h
    obtain ⟨b', hb, h⟩ := bind_eq_ok_iff.mp h
    obtain rfl := Except.ok.inj h
    simp only [operands, List.mem_cons, List.not_mem_nil, or_false] at hm
    rcases hm with rfl | rfl | rfl
    · exact ⟨c, hc⟩
    · exact ⟨a, ha⟩
    · exact ⟨b, hb⟩
  | logicalNot a =>
    obtain ⟨a', ha, h⟩ := bind_eq_ok_iff.mp h
    obtain rfl := Except.ok.inj h
    obtain rfl := List.mem_singleton.mp hm
    exact ⟨a, ha⟩
  | indexed a _ | flexiblyIndexed a _ | indexSum a _ | componentTensor a _ =>
    obtain ⟨a', ha, h⟩ := bind_eq_ok_iff.mp h
    obtain ⟨_, _, h⟩ := bind_eq_ok_iff.mp h
    obtain rfl := Except.ok.inj h
    obtain rfl := List.mem_singleton.mp hm
    exact ⟨a, ha⟩
  | sum a b | product a b | division a b | power a b | comparison _ a b | logicalAnd a b
  | logicalOr a b =>
    obtain ⟨a', ha, h⟩ := bind_eq_ok_iff.mp h
    obtain ⟨b', hb, h⟩ := bind_eq_ok_iff.mp h
    obtain rfl := Except.ok.inj h
    simp only [operands, List.mem_cons, List.not_mem_nil, or_false] at hm
    rcases hm with rfl | rfl
    · exact ⟨a, ha⟩
    · exact ⟨b, hb⟩
  | delta i j =>
    obtain ⟨_, _, h⟩ := bind_eq_ok_iff.mp h
    obtain ⟨_, _, h⟩ := bind_eq_ok_iff.mp h
    obtain rfl := Except.ok.inj h
    exact absurd hm List.not_mem_nil
  | _ =>
    obtain rfl := Except.ok.inj h
    exact absurd hm List.not_mem_nil

/-! ## Names and their holds -/

namespace Bindings

variable {α : Type} {b : Bindings α} {name other : Name} {a : α}

/-- Whether no name stands for two values. -/
def Distinct (b : Bindings α) : Prop := (b.map Prod.fst).Nodup

/-- The nodes held by the values of all names. -/
def held (holds : α → List NodeId) (b : Bindings α) : Multiset NodeId :=
  (b.flatMap fun e => holds e.2 : List NodeId)

theorem mem_of_lookup (h : b.lookup name = some a) : (name, a) ∈ b := by
  induction b with
  | nil => simp at h
  | cons e b ih =>
    obtain ⟨k, v⟩ := e
    rw [List.lookup_cons] at h
    split at h
    · rename_i hk
      obtain rfl := Option.some.inj h
      rw [beq_iff_eq] at hk
      exact hk ▸ List.mem_cons_self
    · exact List.mem_cons_of_mem _ (ih h)

theorem erase_eq_filter (name : Name) : b.erase name = b.filter fun e => !(name == e.1) :=
  List.filter_congr fun e _ => by rw [bne, Bool.beq_comm]

theorem erase_of_lookup_eq_none (h : b.lookup name = none) : b.erase name = b := by
  rw [List.lookup_eq_none_iff] at h
  refine List.filter_eq_self.mpr fun e he => ?_
  rw [bne_comm]
  exact h e he

theorem lookup_set_self : (b.set name a).lookup name = some a := List.lookup_cons_self

theorem lookup_erase_of_ne (h : (other == name) = false) :
    (b.erase other).lookup name = b.lookup name := by
  induction b with
  | nil => rfl
  | cons e b ih =>
    obtain ⟨key, v⟩ := e
    by_cases hkey : key = other
    · subst hkey
      rw [erase, List.filter_cons_of_neg (by simp), List.lookup_cons, Bool.beq_comm, h]
      exact ih
    · rw [erase, List.filter_cons_of_pos (by simpa using hkey), List.lookup_cons, List.lookup_cons]
      split
      · rfl
      · exact ih

theorem lookup_set_of_ne (h : (other == name) = false) :
    (b.set other a).lookup name = b.lookup name := by
  rw [set, List.lookup_cons, Bool.beq_comm, h]
  exact lookup_erase_of_ne h

theorem erase_set : (b.set name a).erase name = b.erase name := by
  rw [set, erase, List.filter_cons_of_neg (by simp), erase, List.filter_filter]
  simp

theorem not_mem_names_erase : name ∉ (b.erase name).map Prod.fst := by
  intro h
  obtain ⟨e, he, rfl⟩ := List.mem_map.mp h
  simpa using (List.mem_filter.mp he).2

theorem Distinct.erase (hb : b.Distinct) (name : Name) : (b.erase name).Distinct :=
  (List.filter_sublist.map Prod.fst).nodup hb

theorem Distinct.set (hb : b.Distinct) (name : Name) (a : α) : (b.set name a).Distinct :=
  List.nodup_cons.mpr ⟨not_mem_names_erase, hb.erase name⟩

/-- **Forgetting a name** gives up the holds of its value and no others. -/
theorem held_eq_add_erase (holds : α → List NodeId) (hb : b.Distinct) (name : Name) :
    b.held holds =
      (((b.lookup name).map holds).getD [] : List NodeId) + (b.erase name).held holds := by
  induction b with
  | nil => rfl
  | cons e b ih =>
    obtain ⟨k, v⟩ := e
    obtain ⟨hk, hb⟩ := List.nodup_cons.mp hb
    have hcons : held holds ((k, v) :: b) = (holds v : Multiset NodeId) + held holds b := rfl
    rw [hcons, List.lookup_cons]
    by_cases hkey : name = k
    · subst hkey
      -- the name stands for nothing further on
      have hfilter : Bindings.erase b name = b := List.filter_eq_self.mpr fun e he => by
        have hne : e.1 ≠ name := fun heq => hk (List.mem_map.mpr ⟨e, he, heq⟩)
        simpa using hne
      have herase : Bindings.erase ((name, v) :: b) name = b := by
        rw [erase, List.filter_cons_of_neg (by simp)]
        exact hfilter
      rw [herase]
      simp
    · have herase : Bindings.erase ((k, v) :: b) name = (k, v) :: Bindings.erase b name :=
        List.filter_cons_of_pos (by simpa using Ne.symm hkey)
      have hcons' : held holds ((k, v) :: Bindings.erase b name) =
          (holds v : Multiset NodeId) + held holds (Bindings.erase b name) := rfl
      rw [herase, hcons', ih hb]
      simp only [beq_eq_false_iff_ne.mpr hkey]
      rw [add_left_comm]

theorem held_set (holds : α → List NodeId) (name : Name) (a : α) :
    (b.set name a).held holds = (holds a : Multiset NodeId) + (b.erase name).held holds := rfl

theorem mem_held_of_lookup {holds : α → List NodeId} (h : b.lookup name = some a) :
    ∀ n ∈ holds a, n ∈ b.held holds := by
  intro n hn
  exact Multiset.mem_coe.mpr (List.mem_flatMap.mpr ⟨(name, a), mem_of_lookup h, hn⟩)

end Bindings

namespace Session

variable {s : Session} {name : Name} {n : NodeId} {w : Walk}

/-- The holds of a session: its named nodes, and the nodes of its named walks. -/
def held (s : Session) : Multiset NodeId :=
  s.nodes.held (fun n => [n]) + s.walks.held Walk.held

theorem mem_held_of_node (h : s.node name = .ok n) : n ∈ s.held := by
  unfold node at h
  split at h
  · rename_i m hm
    obtain rfl := Except.ok.inj h
    have hheld : m ∈ s.nodes.held fun n => [n] :=
      Bindings.mem_held_of_lookup hm m (List.mem_singleton_self m)
    exact Multiset.mem_add.mpr (Or.inl hheld)
  · simp at h

theorem mem_held_of_mapM_node {names : List Name} {ns : List NodeId}
    (h : names.mapM s.node = .ok ns) : ∀ n ∈ ns, n ∈ s.held := by
  intro n hn
  obtain ⟨name, -, hname⟩ := exists_of_mem_mapM h n hn
  exact mem_held_of_node hname

theorem mem_held_of_walk (h : s.walk name = .ok w) : ∀ n ∈ w.held, n ∈ s.held := by
  unfold walk at h
  split at h
  · rename_i v hv
    obtain rfl := Except.ok.inj h
    exact fun n hn => Multiset.mem_add.mpr (Or.inr (Bindings.mem_held_of_lookup hv n hn))
  · simp at h

end Session

/-! ## Walks -/

namespace Walk

variable {p : Pool}

/-- A walk that has not been advanced holds its roots. -/
theorem held_start (roots : List NodeId) : (start roots).held = roots := by
  rw [held, start, List.map_map, OrderedSet.toList_empty, List.append_nil]
  exact List.map_id roots

/-- What a walk holds after a turn was held before, or is an operand of what was held. -/
theorem mem_held_of_step {w w' : Walk} {e : Event} {m : NodeId} (h : w.step p = (some e, w'))
    (hm : m ∈ w'.held) : m ∈ w.held ∨ ∃ n ∈ w.held, m ∈ p.operands n := by
  obtain ⟨n, expanded, rest, hstack, hcases⟩ := step_cases h
  have hheld : w.held = n :: (rest.map Frame.node ++ w.visited.toList) := by
    rw [held, hstack]
    rfl
  have hrest : ∀ {visited : OrderedSet NodeId}, m ∈ held ⟨rest, visited⟩ →
      m ∈ w.held ∨ m ∈ visited.toList := fun hm => by
    rw [hheld]
    exact (List.mem_append.mp hm).imp_left fun hm =>
      List.mem_cons_of_mem _ (List.mem_append_left _ hm)
  have hvisited : m ∈ w.visited.toList → m ∈ w.held := fun hm => List.mem_append_right _ hm
  have hn : n ∈ w.held := hheld ▸ List.mem_cons_self
  rcases hcases with ⟨-, -, rfl⟩ | ⟨-, -, -, rfl⟩ | ⟨-, -, -, rfl⟩
  · exact .inl ((hrest hm).elim id hvisited)
  · refine .inl ((hrest hm).elim id fun hm => ?_)
    rcases OrderedSet.mem_of_mem_toList_add hm with hm | rfl
    · exact hvisited hm
    · exact hn
  · rw [held, List.map_append, List.map_cons, List.append_assoc, List.mem_append,
      List.map_map] at hm
    rcases hm with hm | hm
    · obtain ⟨x, hx, rfl⟩ := List.mem_map.mp hm
      exact .inr ⟨n, hn, (List.mem_filter.mp hx).1⟩
    · exact .inl (hheld ▸ hm)

/-- A walk that is advanced goes on holding living nodes. -/
theorem alive_of_mem_next {w : Walk} (hp : p.Closed) (hw : ∀ m ∈ w.held, p.Alive m) :
    ∀ m ∈ (w.next p).2.held, p.Alive m := by
  have hstep : ∀ {e w'}, w.step p = (some e, w') → ∀ m ∈ w'.held, p.Alive m := fun h m hm =>
    (mem_held_of_step h hm).elim (hw m) fun ⟨_, _, hoperand⟩ => hp.alive_operands hoperand
  rw [next]
  split
  · rename_i w' h
    obtain ⟨-, rfl⟩ := stack_of_step h
    exact hw
  · rename_i n w' h
    exact hstep h
  · rename_i e w' he h
    exact alive_of_mem_next hp (hstep h)
termination_by w.weight p
decreasing_by exact step_weight_lt ‹_›

end Walk

end TensorCost
