import TensorCost.Proofs.Index
import TensorCost.Proofs.Scope
import TensorCost.Proofs.Session.Release

/-!
# Indices of a session

A session has no indices but those that it has been asked for, by name or in the nodes that were
built with them. So what can be said of the indices that were granted in a run can be said of the
free indices of every node.

* `Session.Uses` says that all indices of a session are of a certain sort.
* `Command.request?` is the index that a command asks for, and `answered` lists the answers to such
  commands.

Results:
* `Uses.step`, `Uses.run`: a session goes on using indices of a sort if it is granted no others.
* `answered_run`: a run answers its requests for indices as they would be answered by themselves.
* `index_identity`: when indices of a run are told by their numbers, and free indices as well.
-/

namespace TensorCost

open Index (Request Granted grantAll)

/-! ## Indices in nodes -/

theorem IndexItem.exists_index_of_resolve {ε ι κ : Type} {index : ι → Except ε κ}
    {item : IndexItem ι} {i : κ} (h : item.resolve index = .ok (.free i)) :
    ∃ j, index j = .ok i := by
  cases item with
  | free j =>
    obtain ⟨i', hi', h⟩ := bind_eq_ok_iff.mp h
    obtain rfl := IndexItem.free.inj (Except.ok.inj h)
    exact ⟨j, hi'⟩
  | fixed position => cases Except.ok.inj h

theorem Dimension.exists_index_of_resolve {ε ι κ : Type} {index : ι → Except ε κ}
    {d : Dimension ι} {d' : Dimension κ} {i : κ} {stride : Nat} (h : d.resolve index = .ok d')
    (hi : (i, stride) ∈ d'.strides) : ∃ j, index j = .ok i := by
  obtain ⟨strides, hstrides, h⟩ := bind_eq_ok_iff.mp h
  obtain rfl := Except.ok.inj h
  obtain ⟨⟨j, stride'⟩, -, hj⟩ := exists_of_mem_mapM hstrides _ hi
  obtain ⟨i', hi', hj⟩ := bind_eq_ok_iff.mp hj
  obtain ⟨rfl, -⟩ := Prod.mk.inj (Except.ok.inj hj)
  exact ⟨j, hi'⟩

/-- The indices that a node mentions are those that its construction was given. -/
theorem Construction.exists_index_of_mentions {ε ν : Type} {node : ν → Except ε NodeId} {ι : Type}
    {index : ι → Except ε Index} {c : Construction ν ι} {d : Construction NodeId Index} {k : Kind}
    {i : Index} (h : c.resolve node index = .ok d) (hk : d.kind? = some k) (hi : k.Mentions i) :
    ∃ j, index j = .ok i := by
  cases c with
  | indexed a items =>
    obtain ⟨a', -, h⟩ := bind_eq_ok_iff.mp h
    obtain ⟨items', hitems, h⟩ := bind_eq_ok_iff.mp h
    obtain rfl := Except.ok.inj h
    obtain rfl := Option.some.inj hk
    obtain ⟨item, -, hitem⟩ := exists_of_mem_mapM hitems _ hi
    exact IndexItem.exists_index_of_resolve hitem
  | flexiblyIndexed a dims =>
    obtain ⟨a', -, h⟩ := bind_eq_ok_iff.mp h
    obtain ⟨dims', hdims, h⟩ := bind_eq_ok_iff.mp h
    obtain rfl := Except.ok.inj h
    obtain rfl := Option.some.inj hk
    obtain ⟨dim', hdim', stride, hstride⟩ := hi
    obtain ⟨dim, -, hdim⟩ := exists_of_mem_mapM hdims _ hdim'
    exact Dimension.exists_index_of_resolve hdim hstride
  | delta a b =>
    obtain ⟨a', ha, h⟩ := bind_eq_ok_iff.mp h
    obtain ⟨b', hb, h⟩ := bind_eq_ok_iff.mp h
    obtain rfl := Except.ok.inj h
    obtain rfl := Option.some.inj hk
    rcases hi with rfl | rfl
    · exact IndexItem.exists_index_of_resolve ha
    · exact IndexItem.exists_index_of_resolve hb
  | comparison symbol a b =>
    obtain ⟨a', -, h⟩ := bind_eq_ok_iff.mp h
    obtain ⟨b', -, h⟩ := bind_eq_ok_iff.mp h
    obtain rfl := Except.ok.inj h
    obtain ⟨op, -, rfl⟩ := Option.map_eq_some_iff.mp hk
    exact absurd hi id
  | conditional a b c =>
    obtain ⟨a', -, h⟩ := bind_eq_ok_iff.mp h
    obtain ⟨b', -, h⟩ := bind_eq_ok_iff.mp h
    obtain ⟨c', -, h⟩ := bind_eq_ok_iff.mp h
    obtain rfl := Except.ok.inj h
    obtain rfl := Option.some.inj hk
    exact absurd hi id
  | sum a b | product a b | division a b | power a b | logicalAnd a b | logicalOr a b
  | indexSum a bound | componentTensor a bound =>
    obtain ⟨a', -, h⟩ := bind_eq_ok_iff.mp h
    obtain ⟨b', -, h⟩ := bind_eq_ok_iff.mp h
    obtain rfl := Except.ok.inj h
    obtain rfl := Option.some.inj hk
    exact absurd hi id
  | logicalNot a | mathFunction name args | listTensor items =>
    obtain ⟨a', -, h⟩ := bind_eq_ok_iff.mp h
    obtain rfl := Except.ok.inj h
    obtain rfl := Option.some.inj hk
    exact absurd hi id
  | _ =>
    obtain rfl := Except.ok.inj h
    obtain rfl := Option.some.inj hk
    exact absurd hi id

namespace Pool

variable {H : NodeHash} {p q : Pool} {held : Multiset NodeId} {n : NodeId} {P : Index → Prop}
  {i : Index}

/-- Whether the indices that nodes mention are all in `P`. -/
def Uses (P : Index → Prop) (p : Pool) : Prop :=
  ∀ ⦃n k ops⦄, p.node? n = some (k, ops) → ∀ i, k.Mentions i → P i

theorem uses_empty : empty.Uses P := fun n k ops h => by
  rw [node?, cell?_empty] at h
  cases h

theorem Uses.within (h : p.Uses P) (hq : q.Within p) : q.Uses P := fun _ _ _ hn => h (hq hn)

theorem Uses.derivation (h : p.Uses P) (hq : Derivation p q) : q.Uses P :=
  h.within hq.sameRecords.symm.within

/-- Indices that are open at a node are mentioned in it or below. -/
theorem Uses.of_mem_openIndices (h : p.Uses P) (hi : i ∈ p.openIndices n) : P i := by
  induction n using Nat.strongRecOn with
  | ind n ih =>
    rw [openIndices_eq_flatMap] at hi
    cases hn : p.node? n with
    | none =>
      rw [hn] at hi
      exact absurd hi List.not_mem_nil
    | some x =>
      obtain ⟨k, ops⟩ := x
      rw [hn, Option.elim_some, Kind.openIndices, OrderedSet.toList_ofList] at hi
      have hi := List.mem_eraseDups.mp (List.mem_filter.mp hi).1
      rcases List.mem_append.mp hi with hi | hi
      · obtain ⟨m, hm, hi⟩ := List.mem_flatMap.mp hi
        exact ih m (mem_operands_lt hm) hi
      · exact h hn i (Kind.mem_ownIndices_iff.mp hi)

/-- A construction mentions what it was given. -/
theorem WellFormed.uses_construct {c : Construction NodeId Index} (hp : p.WellFormed H held)
    (halive : ∀ m ∈ c.operands, p.Alive m) (h : p.Uses P)
    (hc : ∀ k i, c.kind? = some k → k.Mentions i → P i) : (p.construct H c).2.Uses P := by
  rcases construct_cases (H := H) hp.closed hp.derived halive with
    ⟨k, hk, -, hbuild⟩ | ⟨-, e, herror⟩
  · have hexamined := h.derivation (examined_derivation hp.closed hp.derived c)
    rw [hbuild]
    intro n k' ops hn
    rw [show ((p.examined c).build H k c.operands).2 = ((p.examined c).intern H k c.operands).2
      from rfl, (hp.examined c).node?_intern] at hn
    split at hn
    · obtain ⟨rfl, -⟩ := Prod.mk.inj (Option.some.inj hn)
      exact fun i hi => hc k i hk hi
    · exact hexamined hn
  · rw [herror]
    exact h.derivation (examined_derivation hp.closed hp.derived c)

/-- The links of a chain mention no indices. -/
theorem not_mentions_link {c : Chain} {e o : NodeId} {k : Kind}
    (hk : (c.link e o).kind? = some k) : ¬ k.Mentions i := by
  cases c <;> (obtain rfl := Option.some.inj hk; exact id)

theorem WellFormed.uses_chain {c : Chain} {other? : Option NodeId} {times : Nat} {e : NodeId}
    (hp : p.WellFormed H (e ::ₘ held)) (hother : ∀ o ∈ other?, o ∈ held) (h : p.Uses P) :
    (c.run H other? times e p).2.Uses P := by
  induction times generalizing e p with
  | zero => exact h
  | succ times ih =>
    have halive := alive_operands_link (c := c) hp hother
    have hlink := (construct_moves hp halive).wellFormed hp
    have hmade := hp.uses_construct halive h fun k i hk hi => absurd hi (not_mentions_link hk)
    unfold Chain.run
    cases hresult : p.construct H (c.link e (other?.getD e)) with
    | mk result q =>
    rw [hresult] at hlink hmade
    have hreleased : (q.release e).Uses P := hmade.within (releaseAll_within q [e])
    cases result with
    | error err => exact hreleased
    | ok n =>
      simp only [heldBy, Multiset.singleton_add] at hlink
      rw [Multiset.cons_swap] at hlink
      exact ih ((release_moves hlink).wellFormed hlink) hreleased

end Pool

/-! ## Requests in a run -/

/-- The index that a command asks for, if it asks for one. -/
def Command.request? : Command → Option Request
  | .index _ request => some request
  | _ => none

namespace Session

variable {H : NodeHash} {s t : Session} {P : Index → Prop} {c : Command}

/-- Nothing but the pool, nodes and walks changes. -/
theorem indices_andThen {α : Type} {found : Except Failure α} {f : α → Step}
    (h : ∀ a, (f a).2.nextIndex = s.nextIndex ∧ (f a).2.indices = s.indices) :
    (s.andThen found f).2.nextIndex = s.nextIndex ∧ (s.andThen found f).2.indices = s.indices :=
  andThen_cases (Q := fun x => x.2.nextIndex = s.nextIndex ∧ x.2.indices = s.indices)
    (fun _ => ⟨rfl, rfl⟩) fun a _ => h a

theorem indices_built (as? : Option Name) (result : Except Error NodeId × Pool) :
    (s.built as? result).2.nextIndex = s.nextIndex ∧
      (s.built as? result).2.indices = s.indices := by
  obtain ⟨made, q⟩ := result
  cases made with
  | error e => exact ⟨rfl, rfl⟩
  | ok n => cases as? <;> exact ⟨rfl, rfl⟩

theorem indices_report (roots : List NodeId) (a : Analyzer) :
    (s.report roots a).2.nextIndex = s.nextIndex ∧ (s.report roots a).2.indices = s.indices := by
  rw [report_snd]
  exact ⟨rfl, rfl⟩

/-- Commands that ask for no index leave the counter and the named indices alone. -/
theorem indices_step (hc : c.request? = none) :
    (s.step H c).2.nextIndex = s.nextIndex ∧ (s.step H c).2.indices = s.indices := by
  cases c with
  | index as? request => cases hc
  | compareIndices _ _ | describe _ | compareNodes _ _ =>
    exact indices_andThen fun _ => indices_andThen fun _ => ⟨rfl, rfl⟩
  | construct as? c => exact indices_andThen fun _ => indices_andThen fun _ => indices_built as? _
  | chain as? a times c other? =>
    exact indices_andThen fun _ => indices_andThen fun _ => indices_built as? _
  | report roots source? =>
    exact indices_andThen fun _ => indices_andThen fun a => indices_report _ a
  | walk as? roots =>
    refine indices_andThen fun ns => ?_
    cases as? <;> exact ⟨rfl, rfl⟩
  | stats => exact ⟨rfl, rfl⟩
  | drop name => exact ⟨rfl, rfl⟩
  | _ => exact indices_andThen fun _ => ⟨rfl, rfl⟩

theorem exists_name_of_request {r : Request} (hc : c.request? = some r) :
    ∃ as?, c = .index as? r := by
  cases c with
  | index as? r' =>
    obtain rfl := Option.some.inj hc
    exact ⟨as?, rfl⟩
  | _ => cases hc

/-- A command that asks for an index is answered as the request is. -/
theorem step_index (as? : Option Name) (r : Request) :
    (s.step H (.index as? r)).1 =
        ((r.grant s.nextIndex).1.map Reply.index).mapError .expression ∧
      (s.step H (.index as? r)).2.nextIndex = (r.grant s.nextIndex).2 := by
  simp only [step]
  cases (r.grant s.nextIndex).1 with
  | error e => exact ⟨rfl, rfl⟩
  | ok i => cases as? <;> exact ⟨rfl, rfl⟩

/-- The answers to the commands that ask for an index. -/
def answered : List Command → List (Except Failure Reply) → List (Except Failure Reply)
  | c :: cs, reply :: replies =>
    if c.request?.isSome then reply :: answered cs replies else answered cs replies
  | _, _ => []

/-- **A run answers its requests** as if they were all that it was asked. -/
theorem answered_run (s : Session) (cs : List Command) :
    answered cs (s.run H cs).1 =
      (grantAll s.nextIndex (cs.filterMap Command.request?)).1.map fun made =>
        (made.map Reply.index).mapError .expression := by
  induction cs generalizing s with
  | nil => rfl
  | cons c cs ih =>
    rw [run, answered, ih]
    cases hc : c.request? with
    | none =>
      rw [List.filterMap_cons_none hc, (indices_step hc).1]
      rfl
    | some r =>
      obtain ⟨as?, rfl⟩ := exists_name_of_request hc
      obtain ⟨hreply, hnext⟩ := step_index (H := H) (s := s) as? r
      rw [List.filterMap_cons_some hc, hreply, hnext]
      rfl

/-! ## Indices in use -/

/-- Whether the indices of a session, by name and in nodes, are all in `P`. -/
structure Uses (P : Index → Prop) (s : Session) : Prop where
  named : ∀ name i, s.index name = .ok i → P i
  pool : s.pool.Uses P

theorem uses_start : ({} : Session).Uses P where
  named name i h := by cases h
  pool := Pool.uses_empty

theorem uses_andThen {α : Type} {found : Except Failure α} {f : α → Step} (h : s.pool.Uses P)
    (hf : ∀ a, found = .ok a → (f a).2.pool.Uses P) : (s.andThen found f).2.pool.Uses P :=
  andThen_cases (Q := fun x => x.2.pool.Uses P) (fun _ => h) hf

theorem uses_built (as? : Option Name) {result : Except Error NodeId × Pool}
    (h : result.2.Uses P) : (s.built as? result).2.pool.Uses P := by
  obtain ⟨made, q⟩ := result
  cases made with
  | error e => exact h
  | ok n => cases as? <;> exact h.within (Pool.releaseAll_within q _)

theorem uses_bindWalk (h : s.pool.Uses P) (name : Name) (w : Walk) :
    (s.bindWalk name w).pool.Uses P :=
  h.within ((Pool.releaseAll_within _ _).trans (Pool.sameRecords_retainAll _).symm.within)

/-- **A command** makes no nodes that mention other indices than the named ones. -/
theorem Uses.pool_step (h : s.Uses P) (hs : s.WellFormed H) (c : Command) :
    (s.step H c).2.pool.Uses P := by
  have hclosed := hs.pool.closed
  have hderived := hs.pool.derived
  cases c with
  | index as? request =>
    simp only [step]
    cases (request.grant s.nextIndex).1 with
    | error e => exact h.pool
    | ok i => cases as? <;> exact h.pool
  | compareIndices _ _ | describe _ | compareNodes _ _ =>
    exact uses_andThen h.pool fun _ _ => uses_andThen h.pool fun _ _ => h.pool
  | construct as? c =>
    refine uses_andThen h.pool fun _ _ => uses_andThen h.pool fun d hd => uses_built as? ?_
    -- the indices of a new node were given by their names
    refine hs.pool.uses_construct (hs.alive_operands hd) h.pool fun k i hk hi => ?_
    obtain ⟨name, hname⟩ := Construction.exists_index_of_mentions hd hk hi
    exact h.named name i hname
  | chain as? a times c other? =>
    refine uses_andThen h.pool fun e he => uses_andThen h.pool fun o ho => uses_built as? ?_
    have hretained := hs.pool.retain (hs.alive (mem_held_of_node he))
    exact hretained.uses_chain (mem_held_of_other ho)
      (h.pool.within Pool.sameRecords_retain.symm.within)
  | freeIndices a =>
    exact uses_andThen h.pool fun n _ =>
      h.pool.derivation (Pool.freeIndices_spec hclosed hderived n).derivation
  | price a =>
    exact uses_andThen h.pool fun n _ => h.pool.derivation (Pool.price_spec hclosed hderived n).2
  | count roots =>
    exact uses_andThen h.pool fun ns _ => h.pool.derivation (Pool.count_spec hclosed hderived ns).2
  | report roots source? =>
    exact uses_andThen h.pool fun ns _ => uses_andThen h.pool fun a _ =>
      h.pool.derivation (hs.report_derivation ns a)
  | walk as? roots =>
    refine uses_andThen h.pool fun ns _ => ?_
    cases as? with
    | none => exact h.pool
    | some name => exact uses_bindWalk h.pool name _
  | next name => exact uses_andThen h.pool fun w _ => uses_bindWalk h.pool name _
  | finish name => exact uses_andThen h.pool fun w _ => h.pool.within (Pool.releaseAll_within _ _)
  | stats => exact h.pool
  | drop name =>
    exact (h.pool.within (Pool.releaseAll_within _ _)).within (Pool.releaseAll_within _ _)
  | _ => exact uses_andThen h.pool fun _ _ => h.pool

/-- **A command** leaves a session with indices in `P` if it is granted no others. -/
theorem Uses.step (h : s.Uses P) (hs : s.WellFormed H)
    (hnew : ∀ r i, c.request? = some r → (r.grant s.nextIndex).1 = .ok i → P i) :
    (s.step H c).2.Uses P := by
  refine ⟨?_, h.pool_step hs c⟩
  cases hc : c.request? with
  | none =>
    intro name i hi
    unfold index at hi
    rw [(indices_step hc).2] at hi
    exact h.named name i hi
  | some r =>
    cases c with
    | index as? r' =>
      obtain rfl := Option.some.inj hc
      simp only [Session.step]
      cases hmade : (r'.grant s.nextIndex).1 with
      | error e => exact h.named
      | ok i =>
        cases as? with
        | none => exact h.named
        | some name =>
          intro other j hj
          by_cases hname : other = name
          · subst hname
            simp only [index, Bindings.lookup_set_self] at hj
            obtain rfl := Except.ok.inj hj
            exact hnew r' i rfl hmade
          · have hne : (name == other) = false := beq_eq_false_iff_ne.mpr (Ne.symm hname)
            simp only [index, Bindings.lookup_set_of_ne hne] at hj
            exact h.named other j hj
    | _ => cases hc

/-- **A run** leaves a session with indices in `P` if it is granted no others. -/
theorem Uses.run {cs : List Command} (h : s.Uses P) (hs : s.Reachable H)
    (hnew : ∀ i, .ok i ∈ (grantAll s.nextIndex (cs.filterMap Command.request?)).1 → P i) :
    (s.run H cs).2.Uses P := by
  induction cs generalizing s with
  | nil => exact h
  | cons c cs ih =>
    change ((s.step H c).2.run H cs).2.Uses P
    cases hc : c.request? with
    | none =>
      rw [List.filterMap_cons_none hc] at hnew
      have hstep : (s.step H c).2.Uses P :=
        h.step hs.wellFormed fun r i hr => by cases hc.symm.trans hr
      have hnext : (s.step H c).2.nextIndex = s.nextIndex := (indices_step hc).1
      refine ih hstep (hs.step c) fun i hi => hnew i ?_
      rwa [hnext] at hi
    | some r =>
      obtain ⟨as?, rfl⟩ := exists_name_of_request hc
      rw [List.filterMap_cons_some hc] at hnew
      have hstep : (s.step H (.index as? r)).2.Uses P :=
        h.step hs.wellFormed fun r' i hr hi => by
          obtain rfl := Option.some.inj hr
          exact hnew i (hi ▸ List.mem_cons_self)
      have hnext : (s.step H (.index as? r)).2.nextIndex = (r.grant s.nextIndex).2 :=
        (step_index as? r).2
      refine ih hstep (hs.step (.index as? r)) fun i hi => hnew i (List.mem_cons_of_mem _ ?_)
      rwa [hnext] at hi

/-! ## Numbers of indices in a run -/

/-- A matrix that is accessed at two indices. -/
def accessAt (r r' : Request) : List Command :=
  [.index (some "i") r, .index (some "j") r', .construct (some "a") (.variable "A" [3, 4]),
    .construct (some "x") (.indexed "a" [.free "i", .free "j"])]

/-- The free indices of a matrix at two indices are those, unless they are one. -/
theorem freeIndices_accessAt {r r' : Request} {i j : Index} {next last : Nat}
    (hi : r.grant 0 = (.ok i, next)) (hj : r'.grant next = (.ok j, last)) :
    let H : NodeHash := fun _ _ => 0
    let p : Pool := (Pool.empty.construct H (.variable "A" [3, 4])).2
    let x : Except Error NodeId × Pool := p.construct H (.indexed 0 [.free i, .free j])
    x.1 = .ok 1 →
      x.2.tree? 1 =
        some (.node (.indexed [.free i, .free j]) [.node (.variable "A" [3, 4]) []]) →
      ((run H {} (accessAt r r')).2.pool.freeIndices 1).1 = [i, j].eraseDups := by
  intro H p x hmade htree
  let s : Session := { nextIndex := last, indices := [("j", j), ("i", i)] }
  have hs : (run H {} [.index (some "i") r, .index (some "j") r']).2 = s := by
    simp only [run, step, hi, hj]
    rfl
  have hvariable : (Pool.empty.construct H (.variable "A" [3, 4])).1 = .ok 0 := by decide +kernel
  have ha : (s.step H (.construct (some "a") (.variable "A" [3, 4]))).2 =
      { s with pool := p, nodes := [("a", 0)] } :=
    step_construct rfl rfl hvariable rfl
  have hx : (({ s with pool := p, nodes := [("a", 0)] } : Session).step H
      (.construct (some "x") (.indexed "a" [.free "i", .free "j"]))).2 =
      { s with pool := x.2, nodes := [("x", 1), ("a", 0)] } :=
    step_construct rfl rfl hmade rfl
  have hrun : (run H {} (accessAt r r')).2 =
      { s with pool := x.2, nodes := [("x", 1), ("a", 0)] } := by
    rw [← hx, ← ha, ← hs]
    rfl
  have hpool := (Reachable.start.run (H := H) (accessAt r r')).wellFormed.pool
  rw [hrun] at hpool ⊢
  rw [(hpool.freeIndices_spec 1).free_eq, hpool.openIndices_of_tree htree]
  rfl

/-- **Identity of indices.** The requests for indices in a run are answered in turn; those that fail
take a number from the counter all the same. Of two indices numbered by the counter the later one
has the greater number. It has the number of an earlier one, or is the earlier one, only where that
was chosen. If the numbers that are chosen are none of the counter's, and none is chosen for two
extents, then an index numbered by the counter is unlike any before, an index is told by its number,
and so no two free indices of a node have one number. -/
theorem index_identity (H : NodeHash) (cs : List Command) :
    let rs := cs.filterMap Command.request?
    let t := (run H {} cs).2
    answered cs (run H {} cs).1 =
        (grantAll 0 rs).1.map (fun made => (made.map Reply.index).mapError .expression) ∧
    (∀ j k r r' i i', Granted 0 rs j r i → Granted 0 rs k r' i' → j < k → r'.counted = true →
      (r.counted = true → i.id < i'.id) ∧
      (i.id = i'.id ↔ r = .chosen i'.id i.extent) ∧
      (i = i' ↔ r = .chosen i'.id i'.extent ∧ i'.name = none)) ∧
    (Index.ChosenApart 0 rs →
      (∀ j k r r' i i', Granted 0 rs j r i → Granted 0 rs k r' i' → j < k →
        r'.counted = true → i.id ≠ i'.id ∧ i ≠ i') ∧
      (∀ j k r r' i i', Granted 0 rs j r i → Granted 0 rs k r' i' → (i.id = i'.id ↔ i = i')) ∧
      ∀ n, ((t.pool.freeIndices n).1.map Index.id).Nodup) := by
  intro rs t
  refine ⟨answered_run {} cs, fun j k r r' i i' h h' hjk hr' =>
      ⟨fun hr => h.id_lt_of_counted h' hr hr' hjk, h.id_eq_iff_of_counted h' hr' hjk,
        h.eq_iff_of_counted h' hr' hjk⟩,
    fun hrs => ⟨fun j k r r' i i' h h' hjk hr' => ?_,
      fun j k r r' i i' h h' => ⟨hrs.eq_of_id_eq h h', congrArg Index.id⟩, fun n => ?_⟩⟩
  · have hne := hrs.id_ne_of_counted h h' hr' hjk
    exact ⟨hne, fun heq => hne (congrArg Index.id heq)⟩
  · have ht : t.Reachable H := Reachable.start.run cs
    have huses : t.Uses fun i => .ok i ∈ (grantAll 0 rs).1 :=
      uses_start.run Reachable.start fun i hi => hi
    rw [(ht.wellFormed.pool.freeIndices_spec n).free_eq]
    -- free indices are listed once each, and all of them have been granted
    refine (Pool.nodup_openIndices t.pool n).map_on fun i hi i' hi' hid => ?_
    obtain ⟨j, r, h⟩ := Index.exists_granted (huses.pool.of_mem_openIndices hi)
    obtain ⟨k, r', h'⟩ := Index.exists_granted (huses.pool.of_mem_openIndices hi')
    exact hrs.eq_of_id_eq h h' hid

/-- A run that asks for a fresh index, for one of number 7, for one without iterations and for one
with a name. The last one gets the number 2, and the indices of the matrix that is accessed at all
three of them have different numbers. -/
theorem index_identity_of_apart :
    let H : NodeHash := fun _ _ => 0
    let cs : List Command :=
      [.index (some "i") (.fresh 3), .index (some "j") (.chosen 7 3), .index none (.fresh 0),
        .index (some "k") (.named "k" 4), .construct (some "a") (.variable "A" [3, 3, 4]),
        .construct (some "x") (.indexed "a" [.free "i", .free "j", .free "k"])]
    let rs := cs.filterMap Command.request?
    let i : Index := ⟨0, none, 3, by decide⟩
    let k : Index := ⟨2, some "k", 4, by decide⟩
    Granted 0 rs 0 (.fresh 3) i ∧ Granted 0 rs 3 (.named "k" 4) k ∧ i.id < k.id ∧
      Index.ChosenApart 0 rs ∧
      (((run H {} cs).2.pool.freeIndices 1).1.map Index.id).Nodup := by
  intro H cs rs i k
  have hi : Granted 0 rs 0 (.fresh 3) i := ⟨rfl, rfl⟩
  have hk : Granted 0 rs 3 (.named "k" 4) k := ⟨rfl, rfl⟩
  have hapart : Index.ChosenApart 0 rs := by
    have hrs : rs = [.fresh 3, .chosen 7 3, .fresh 0, .named "k" 4] := rfl
    have hdrawn : Index.drawn rs = 3 := rfl
    constructor
    · intro id extent hmem _
      obtain ⟨rfl, -⟩ : id = 7 ∧ extent = 3 := by simpa [hrs] using hmem
      exact .inr (hdrawn ▸ by decide)
    · intro id x y hx hy _ _
      obtain ⟨-, rfl⟩ : id = 7 ∧ x = 3 := by simpa [hrs] using hx
      obtain ⟨-, rfl⟩ : id = 7 ∧ y = 3 := by simpa [hrs] using hy
      rfl
  obtain ⟨-, hcounted, hidentity⟩ := index_identity H cs
  obtain ⟨-, -, hnodup⟩ := hidentity hapart
  obtain ⟨hlt, -⟩ := hcounted 0 3 _ _ i k hi hk (by decide) rfl
  exact ⟨hi, hk, hlt rfl, hapart, hnodup 1⟩

/-- **Numbers do not tell indices apart.** A number may be chosen for two extents, and then a matrix
has two free indices of one number. A fresh index may be one that had been chosen before, and then a
matrix that is accessed at both has one free index. -/
theorem freeIndices_of_chosen_numbers :
    let H : NodeHash := fun _ _ => 0
    let i : Index := ⟨7, none, 3, by decide⟩
    let j : Index := ⟨7, none, 4, by decide⟩
    let k : Index := ⟨0, none, 3, by decide⟩
    let cs := accessAt (.chosen 7 3) (.chosen 7 4)
    let ds := accessAt (.chosen 0 3) (.fresh 3)
    answered cs (run H {} cs).1 = [.ok (.index i), .ok (.index j)] ∧ i.id = j.id ∧ i ≠ j ∧
      ((run H {} cs).2.pool.freeIndices 1).1 = [i, j] ∧
      answered ds (run H {} ds).1 = [.ok (.index k), .ok (.index k)] ∧
      ((run H {} ds).2.pool.freeIndices 1).1 = [k] := by
  intro H i j k cs ds
  refine ⟨by decide +kernel, rfl, by decide, ?_, by decide +kernel, ?_⟩
  · rw [freeIndices_accessAt (i := i) (j := j) rfl rfl (by decide +kernel) (by decide +kernel)]
    decide
  · rw [freeIndices_accessAt (i := k) (j := k) rfl rfl (by decide +kernel) (by decide +kernel)]
    decide

end Session

end TensorCost
