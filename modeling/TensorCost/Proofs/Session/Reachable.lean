import Mathlib.Tactic.Abel
import TensorCost.Proofs.Cost.Price
import TensorCost.Proofs.Pool.Evolution
import TensorCost.Proofs.Session.Holds

/-!
# Reachable sessions

A session is reachable if some commands lead to it from the session that holds nothing. The commands
may be any, those that fail included.

* `Session.WellFormed` says that a session is in order: its names are distinct, and its pool is in
  order with the holds of these names and no others.
* `Session.Proper` is what a command does to a session.

Results:
* `step_proper`: a command is a sequence of moves of the pool that ends with the holds of the
  session after it.
* `Reachable.wellFormed`: every reachable session is in order.
* `Reachable.evolves`: a run leads to a later pool.
* `reachable_iff_exists_run`: the reachable sessions are those at the ends of runs.
-/

namespace TensorCost.Session

open Pool (Moves)

variable {H : NodeHash} {s t u : Session} {n : NodeId} {w : Walk}

/-- The session is in order. -/
structure WellFormed (H : NodeHash) (s : Session) : Prop where
  nodes : s.nodes.Distinct
  walks : s.walks.Distinct
  pool : s.pool.WellFormed H s.held

/-- Names stay distinct, and the pool moves along with the holds. -/
structure Proper (H : NodeHash) (s t : Session) : Prop where
  nodes : t.nodes.Distinct
  walks : t.walks.Distinct
  moves : Moves H (s.pool, s.held) (t.pool, t.held)

theorem wellFormed_start : ({} : Session).WellFormed H where
  nodes := List.nodup_nil
  walks := List.nodup_nil
  pool := Pool.wellFormed_empty

theorem Proper.wellFormed (h : Proper H s t) (hs : s.WellFormed H) : t.WellFormed H where
  nodes := h.nodes
  walks := h.walks
  pool := h.moves.wellFormed hs.pool

theorem WellFormed.proper_refl (hs : s.WellFormed H) : Proper H s s := ⟨hs.nodes, hs.walks, .refl⟩

theorem Proper.trans (h : Proper H s t) (h' : Proper H t u) : Proper H s u :=
  ⟨h'.nodes, h'.walks, h.moves.trans h'.moves⟩

/-! ## Looking names up and answering -/

/-- What holds if a look-up fails, and of each way to go on, holds of the step. -/
theorem andThen_cases {α : Type} {found : Except Failure α} {f : α → Step} {Q : Step → Prop}
    (herror : ∀ e, Q (.error e, s)) (hok : ∀ a, found = .ok a → Q (f a)) :
    Q (s.andThen found f) := by
  cases found with
  | error e => exact herror e
  | ok a => exact hok a rfl

/-- What follows on a look-up that fails does not happen. -/
theorem WellFormed.andThen {α : Type} (hs : s.WellFormed H) {found : Except Failure α}
    {f : α → Step} (h : ∀ a, found = .ok a → Proper H s (f a).2) :
    Proper H s (s.andThen found f).2 :=
  andThen_cases (Q := fun x => Proper H s x.2) (fun _ => hs.proper_refl) h

theorem WellFormed.derivation (hs : s.WellFormed H) {q : Pool} (h : Pool.Derivation s.pool q) :
    Proper H s { s with pool := q } :=
  ⟨hs.nodes, hs.walks, h.moves⟩

theorem WellFormed.alive (hs : s.WellFormed H) (hn : n ∈ s.held) : s.pool.Alive n :=
  hs.pool.counted.alive n hn

/-! ## Giving names and taking them away -/

theorem heldBy_eq (name : Name) :
    s.heldBy name = ((s.walks.lookup name).map Walk.held).getD [] := rfl

theorem toList_lookup_eq (name : Name) :
    (s.nodes.lookup name).toList = ((s.nodes.lookup name).map fun n => [n]).getD [] := by
  cases s.nodes.lookup name <;> rfl

theorem WellFormed.dropWalk (hs : s.WellFormed H) (name : Name) :
    Proper H s (s.dropWalk name) := by
  have hheld : s.held = (s.heldBy name : Multiset NodeId) + (s.dropWalk name).held := by
    rw [held, held, Bindings.held_eq_add_erase Walk.held hs.walks name, ← heldBy_eq]
    exact add_left_comm ..
  have hpool := hs.pool
  rw [hheld] at hpool
  refine ⟨hs.nodes, hs.walks.erase name, ?_⟩
  rw [hheld]
  exact Pool.releaseAll_moves hpool

theorem WellFormed.dropNode (hs : s.WellFormed H) (name : Name) :
    Proper H s (s.dropNode name) := by
  have hheld : s.held =
      ((s.nodes.lookup name).toList : Multiset NodeId) + (s.dropNode name).held := by
    rw [held, held, Bindings.held_eq_add_erase _ hs.nodes name, ← toList_lookup_eq]
    exact add_assoc ..
  have hpool := hs.pool
  rw [hheld] at hpool
  refine ⟨hs.nodes.erase name, hs.walks, ?_⟩
  rw [hheld]
  exact Pool.releaseAll_moves hpool

/-- A named walk holds its nodes before the walk that had the name gives up its own. -/
theorem WellFormed.bindWalk (hs : s.WellFormed H) (name : Name)
    (hw : ∀ n ∈ w.held, s.pool.Alive n) : Proper H s (s.bindWalk name w) := by
  have hretain : Moves H (s.pool, s.held)
      (s.pool.retainAll w.held, (w.held : Multiset NodeId) + s.held) := Pool.retainAll_moves hw
  have hheld : (w.held : Multiset NodeId) + s.held =
      (s.heldBy name : Multiset NodeId) + (s.bindWalk name w).held := by
    rw [held, held, Bindings.held_eq_add_erase Walk.held hs.walks name, ← heldBy_eq]
    rw [Session.bindWalk, Bindings.held_set]
    abel
  have hpool := hretain.wellFormed hs.pool
  rw [hheld] at hretain hpool
  exact ⟨hs.nodes, hs.walks.set name w, hretain.trans (Pool.releaseAll_moves hpool)⟩

/-- A node that is held for its name is named, or released if it gets none. -/
theorem bindNode_moves (hs : s.nodes.Distinct) (as? : Option Name)
    (hpool : s.pool.WellFormed H (n ::ₘ s.held)) :
    Moves H (s.pool, n ::ₘ s.held) ((s.bindNode as? n).pool, (s.bindNode as? n).held) := by
  cases as? with
  | none => exact Pool.release_moves hpool
  | some name =>
    have hheld : n ::ₘ s.held =
        ((s.nodes.lookup name).toList : Multiset NodeId) + (s.bindNode (some name) n).held := by
      rw [held, held, Bindings.held_eq_add_erase _ hs name, ← toList_lookup_eq]
      rw [bindNode, Bindings.held_set, Multiset.coe_singleton, ← Multiset.singleton_add]
      abel
    rw [hheld] at hpool ⊢
    exact Pool.releaseAll_moves hpool

theorem distinct_bindNode (hs : s.nodes.Distinct) (as? : Option Name) :
    (s.bindNode as? n).nodes.Distinct := by
  cases as? with
  | none => exact hs
  | some name => exact hs.set name n

theorem walks_bindNode (as? : Option Name) : (s.bindNode as? n).walks = s.walks := by
  cases as? <;> rfl

/-- What is made under a hold of its own is named or released. -/
theorem WellFormed.built (hs : s.WellFormed H) (as? : Option Name)
    {result : Except Error NodeId × Pool}
    (h : Moves H (s.pool, s.held) (result.2, Pool.heldBy result.1 + s.held)) :
    Proper H s (s.built as? result).2 := by
  obtain ⟨made, q⟩ := result
  cases made with
  | error e =>
    rw [Pool.heldBy, zero_add] at h
    exact ⟨hs.nodes, hs.walks, h⟩
  | ok n =>
    rw [Pool.heldBy, Multiset.singleton_add] at h
    let t : Session := { s with pool := q }
    have ht : t.nodes.Distinct := hs.nodes
    have hwalks : (t.bindNode as? n).walks.Distinct := by
      rw [walks_bindNode]
      exact hs.walks
    have hbind : Moves H (t.pool, n ::ₘ t.held) _ := bindNode_moves ht as? (h.wellFormed hs.pool)
    exact ⟨distinct_bindNode ht as?, hwalks, h.trans hbind⟩

/-- A report and the count that comes with it derive free indices. -/
theorem WellFormed.report_derivation (hs : s.WellFormed H) (roots : List NodeId) (a : Analyzer) :
    Pool.Derivation s.pool (s.report roots a).2.pool := by
  obtain ⟨-, hder⟩ := a.analyze_spec hs.pool.closed hs.pool.derived roots
  unfold Session.report
  split
  · rename_i e q h
    rwa [h] at hder
  · rename_i r q h
    rw [h] at hder
    obtain ⟨-, hder'⟩ := Pool.count_spec (hder.closed hs.pool.closed)
      (hder.derived hs.pool.closed hs.pool.derived) roots
    exact hder.trans hder'

theorem report_snd (roots : List NodeId) (a : Analyzer) :
    (s.report roots a).2 = { s with pool := (s.report roots a).2.pool } := by
  unfold Session.report
  split <;> rfl

theorem WellFormed.report (hs : s.WellFormed H) (roots : List NodeId) (a : Analyzer) :
    Proper H s (s.report roots a).2 := by
  rw [report_snd]
  exact hs.derivation (hs.report_derivation roots a)

/-! ## Commands -/

/-- The operands of a construction are held by their names. -/
theorem WellFormed.alive_operands (hs : s.WellFormed H) {c : Construction Name Name}
    {d : Construction NodeId Index} (hd : c.resolve s.node s.index = .ok d) :
    ∀ m ∈ d.operands, s.pool.Alive m := by
  intro m hm
  obtain ⟨name, hname⟩ := Construction.mem_operands_of_resolve hd m hm
  exact hs.alive (mem_held_of_node hname)

/-- So is the other node of a chain's links. -/
theorem mem_held_of_other {other? : Option Name} {o? : Option NodeId}
    (ho : other?.mapM s.node = .ok o?) : ∀ o ∈ o?, o ∈ s.held := by
  intro m hm
  cases other? with
  | none =>
    obtain rfl : o? = none := by simpa [pure, Except.pure] using ho.symm
    exact absurd hm (Option.not_mem_none m)
  | some name =>
    obtain ⟨m', hm', hsome⟩ := bind_eq_ok_iff.mp ho
    obtain rfl : some m' = o? := by simpa [pure, Except.pure] using hsome
    obtain rfl := Option.mem_some_iff.mp hm
    exact mem_held_of_node hm'

/-- **A command** moves the pool along with the holds of the session. -/
theorem step_proper (hs : s.WellFormed H) (c : Command) : Proper H s (s.step H c).2 := by
  have hclosed := hs.pool.closed
  have hderived := hs.pool.derived
  cases c with
  | index as? request =>
    simp only [step]
    cases (request.grant s.nextIndex).1 with
    | error e => exact ⟨hs.nodes, hs.walks, .refl⟩
    | ok i => cases as? <;> exact ⟨hs.nodes, hs.walks, .refl⟩
  | compareIndices i j => exact hs.andThen fun i _ => hs.andThen fun j _ => hs.proper_refl
  | indexSet indices => exact hs.andThen fun is _ => hs.proper_refl
  | extentProduct indices => exact hs.andThen fun is _ => hs.proper_refl
  | construct as? c =>
    exact hs.andThen fun _ _ => hs.andThen fun d hd =>
      hs.built as? (Pool.construct_moves hs.pool (hs.alive_operands hd))
  | chain as? a times c other? =>
    refine hs.andThen fun e he => hs.andThen fun o ho => hs.built as? ?_
    have hretain : Moves H (s.pool, s.held) (s.pool.retain e, e ::ₘ s.held) :=
      .single (.retain (hs.alive (mem_held_of_node he)))
    exact hretain.trans (Pool.chain_moves (hretain.wellFormed hs.pool) (mem_held_of_other ho))
  | describe a => exact hs.andThen fun n _ => hs.andThen fun k _ => hs.proper_refl
  | freeIndices a =>
    exact hs.andThen fun n _ => hs.derivation (Pool.freeIndices_spec hclosed hderived n).derivation
  | isDerived a => exact hs.andThen fun n _ => hs.proper_refl
  | compareNodes a b => exact hs.andThen fun m _ => hs.andThen fun n _ => hs.proper_refl
  | inspect a => exact hs.andThen fun n _ => hs.proper_refl
  | price a => exact hs.andThen fun n _ => hs.derivation (Pool.price_spec hclosed hderived n).2
  | count roots =>
    exact hs.andThen fun ns _ => hs.derivation (Pool.count_spec hclosed hderived ns).2
  | traverse roots => exact hs.andThen fun ns _ => hs.proper_refl
  | kinds roots => exact hs.andThen fun ns _ => hs.proper_refl
  | references roots => exact hs.andThen fun ns _ => hs.proper_refl
  | shared roots => exact hs.andThen fun ns _ => hs.proper_refl
  | report roots source? => exact hs.andThen fun ns _ => hs.andThen fun a _ => hs.report ns a
  | walk as? roots =>
    refine hs.andThen fun ns hns => ?_
    cases as? with
    | none => exact hs.proper_refl
    | some name =>
      refine hs.bindWalk name fun n hn => hs.alive (mem_held_of_mapM_node hns n ?_)
      rwa [Walk.held_start] at hn
  | next h =>
    refine hs.andThen fun w hw => hs.bindWalk h (Walk.alive_of_mem_next hclosed fun n hn => ?_)
    exact hs.alive (mem_held_of_walk hw n hn)
  | visited h => exact hs.andThen fun w _ => hs.proper_refl
  | finish h => exact hs.andThen fun w _ => hs.dropWalk h
  | stats => exact hs.proper_refl
  | drop h =>
    have hnode := hs.dropNode h
    exact hnode.trans ((hnode.wellFormed hs).dropWalk h)

/-! ## Runs -/

/-- Whether some commands lead to the session, starting from the one that holds nothing. -/
inductive Reachable (H : NodeHash) : Session → Prop
  | start : Reachable H {}
  | step {s : Session} (before : Reachable H s) (c : Command) : Reachable H (s.step H c).2

/-- **Every reachable session is in order.** -/
theorem Reachable.wellFormed (h : Reachable H s) : s.WellFormed H := by
  induction h with
  | start => exact wellFormed_start
  | step _ c ih => exact (step_proper ih c).wellFormed ih

/-- A construction under a new name adds the name to the session and takes none away. -/
theorem step_construct {name : Name} {c : Construction Name Name} {d : Construction NodeId Index}
    (hsymbol : c.checkSymbol = .ok ()) (hresolve : c.resolve s.node s.index = .ok d)
    (hmade : (s.pool.construct H d).1 = .ok n) (hfresh : s.nodes.lookup name = none) :
    (s.step H (.construct (some name) c)).2 =
      { s with pool := (s.pool.construct H d).2, nodes := s.nodes.set name n } := by
  cases hresult : s.pool.construct H d with
  | mk made q =>
    rw [hresult] at hmade
    obtain rfl : made = .ok n := hmade
    simp only [Session.step, hsymbol, hresolve, andThen, built, hresult, bindNode, hfresh,
      Except.mapError, Option.toList_none, Pool.releaseAll_nil]

theorem Reachable.construct {name : Name} {c : Construction Name Name}
    {d : Construction NodeId Index} (h : Reachable H s) (hsymbol : c.checkSymbol = .ok ())
    (hresolve : c.resolve s.node s.index = .ok d) (hmade : (s.pool.construct H d).1 = .ok n)
    (hfresh : s.nodes.lookup name = none) :
    Reachable H { s with pool := (s.pool.construct H d).2, nodes := s.nodes.set name n } := by
  rw [← step_construct hsymbol hresolve hmade hfresh]
  exact h.step (.construct (some name) c)

/-- Asking for the free indices of a node changes the pool alone. -/
theorem Reachable.freeIndices (h : Reachable H s) (name : Name) (hn : s.node name = .ok n) :
    Reachable H { s with pool := (s.pool.freeIndices n).2 } := by
  have hstep : (s.step H (.freeIndices name)).2 = { s with pool := (s.pool.freeIndices n).2 } := by
    simp only [Session.step, hn, andThen]
  rw [← hstep]
  exact h.step (.freeIndices name)

theorem step_walk {name : Name} {roots : List Name} {ns : List NodeId}
    (hroots : roots.mapM s.node = .ok ns) :
    (s.step H (.walk (some name) roots)).2 = s.bindWalk name (Walk.start ns) := by
  simp only [Session.step, hroots, andThen, answer]

/-- A walk under a new name holds its roots. -/
theorem Reachable.walk {ns : List NodeId} (h : Reachable H s) (name : Name) (roots : List Name)
    (hroots : roots.mapM s.node = .ok ns) (hfresh : s.walks.lookup name = none) :
    Reachable H
      { s with pool := s.pool.retainAll ns, walks := s.walks.set name (Walk.start ns) } := by
  have hstep : (s.step H (.walk (some name) roots)).2 =
      { s with pool := s.pool.retainAll ns, walks := s.walks.set name (Walk.start ns) } := by
    simp only [step_walk hroots, Session.bindWalk, heldBy, hfresh, Walk.held_start,
      Option.map_none, Option.getD_none, Pool.releaseAll_nil]
  rw [← hstep]
  exact h.step (.walk (some name) roots)

theorem Reachable.run (h : Reachable H s) (cs : List Command) : Reachable H (s.run H cs).2 := by
  induction cs generalizing s with
  | nil => exact h
  | cons c cs ih => exact ih (h.step c)

/-- **Runs lead to later pools.** -/
theorem Reachable.evolves (h : Reachable H s) (cs : List Command) :
    s.pool.Evolves (s.run H cs).2.pool := by
  induction cs generalizing s with
  | nil => exact .refl _
  | cons c cs ih =>
    exact ((step_proper h.wellFormed c).moves.evolves h.wellFormed.pool).trans (ih (h.step c))

theorem run_concat (cs : List Command) (c : Command) :
    (s.run H (cs ++ [c])).2 = ((s.run H cs).2.step H c).2 := by
  induction cs generalizing s with
  | nil => rfl
  | cons c' cs ih => exact ih

theorem reachable_iff_exists_run : Reachable H s ↔ ∃ cs, (run H {} cs).2 = s := by
  constructor
  · intro h
    induction h with
    | start => exact ⟨[], rfl⟩
    | step _ c ih =>
      obtain ⟨cs, rfl⟩ := ih
      exact ⟨cs ++ [c], run_concat cs c⟩
  · rintro ⟨cs, rfl⟩
    exact Reachable.start.run cs

end TensorCost.Session
