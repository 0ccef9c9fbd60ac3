import TensorCost.Proofs.Session.Release
import TensorCost.Proofs.Walk

/-!
# Walks among other commands

A walk is started on some nodes and advanced later, with any commands in between: nodes are made and
forgotten, their free indices are asked for, other walks come and go. None of this matters to the
walk, since it holds whatever it has not visited yet.

* `Command.advances` marks the commands that advance the walk of a name.
* `Session.visits` lists what these visit in the course of a run.
* `Session.holdersBeside` lists what a session holds without the walk of a name.

Results:
* `lookup_walks_step`: a walk is changed by its own advances alone.
* `Reachable.run_follows`: a walk keeps to its order through any run.
* `Reachable.walk_isolated`: whatever else is done, a walk visits what a traversal of its roots
  would have visited when it was started, and keeps these nodes alive and no others.
-/

namespace TensorCost

namespace Command

/-- Whether the command advances the walk of a name. -/
def advances (name : Name) : Command → Bool
  | next h => h == name
  | _ => false

theorem advances_iff {c : Command} {name : Name} : c.advances name = true ↔ c = .next name := by
  cases c with
  | next h => simp [advances]
  | _ => simp [advances]

end Command

namespace Session

variable {H : NodeHash} {s t : Session} {name : Name} {c : Command} {w : Walk} {n m : NodeId}
  {ns order : List NodeId} {k : Nat}

/-! ## One walk -/

theorem lookup_walks_andThen {α : Type} {found : Except Failure α} {f : α → Step}
    (h : ∀ a, (f a).2.walks.lookup name = s.walks.lookup name) :
    (s.andThen found f).2.walks.lookup name = s.walks.lookup name :=
  andThen_cases (Q := fun x => x.2.walks.lookup name = s.walks.lookup name) (fun _ => rfl)
    fun a _ => h a

theorem walks_built (as? : Option Name) (result : Except Error NodeId × Pool) :
    (s.built as? result).2.walks = s.walks := by
  obtain ⟨made, q⟩ := result
  cases made with
  | error e => rfl
  | ok n => exact walks_bindNode as?

theorem walks_report (roots : List NodeId) (a : Analyzer) :
    (s.report roots a).2.walks = s.walks := by
  unfold Session.report
  split <;> rfl

/-- **A walk is changed** by commands that advance it or end it, and by no others. -/
theorem lookup_walks_step (hadvances : c.advances name = false) (hends : c.endsWalk name = false) :
    (s.step H c).2.walks.lookup name = s.walks.lookup name := by
  cases c with
  | index as? request =>
    simp only [step]
    cases (request.grant s.nextIndex).1 with
    | error e => rfl
    | ok i => cases as? <;> rfl
  | compareIndices _ _ | describe _ | compareNodes _ _ =>
    exact lookup_walks_andThen fun _ => lookup_walks_andThen fun _ => rfl
  | construct _ _ | chain _ _ _ _ =>
    exact lookup_walks_andThen fun _ => lookup_walks_andThen fun _ => by rw [walks_built]
  | report roots source? =>
    exact lookup_walks_andThen fun _ => lookup_walks_andThen fun a => by rw [walks_report]
  | walk as? roots =>
    refine lookup_walks_andThen fun ns => ?_
    cases as? with
    | none => rfl
    | some other => exact Bindings.lookup_set_of_ne hends
  | next other => exact lookup_walks_andThen fun w => Bindings.lookup_set_of_ne hadvances
  | finish other =>
    rw [step_finish]
    exact Bindings.lookup_erase_of_ne hends
  | stats => rfl
  | drop other => exact Bindings.lookup_erase_of_ne hends
  | _ => exact lookup_walks_andThen fun _ => rfl

theorem walk_eq_ok_iff : s.walk name = .ok w ↔ s.walks.lookup name = some w := by
  unfold Session.walk
  cases s.walks.lookup name <;> simp

theorem step_next (hw : s.walk name = .ok w) :
    s.step H (.next name) =
      (.ok (.visit ((w.next s.pool).1.bind s.pool.kind?) (w.next s.pool).2.visited.size),
        s.bindWalk name (w.next s.pool).2) := by
  simp only [step, hw, andThen]

/-! ## Runs -/

/-- What the walk of a name would visit next, if there is such a walk and a visit left. -/
def nextVisit (s : Session) (name : Name) : Option NodeId :=
  (s.walks.lookup name).bind fun w => (w.next s.pool).1

/-- What the advances of the walk of a name visit while commands are carried out: one entry for each
advance, none if nothing was left. -/
def visits (H : NodeHash) (name : Name) (s : Session) : List Command → List (Option NodeId)
  | [] => []
  | c :: cs =>
    let rest := (s.step H c).2.visits H name cs
    if c.advances name then s.nextVisit name :: rest else rest

/-- **A command** leaves a walk on its way. -/
theorem Reachable.step_follows (hs : s.Reachable H) (hw : s.walk name = .ok w)
    (hfollows : w.Follows s.pool order k) (hends : c.endsWalk name = false) :
    ∃ w', (s.step H c).2.walk name = .ok w' ∧
      w'.Follows (s.step H c).2.pool order (k + if c.advances name then 1 else 0) := by
  have hclosed := hs.wellFormed.pool.closed
  have halive : ∀ n ∈ w.held, s.pool.Alive n := fun n hn =>
    hs.wellFormed.alive (mem_held_of_walk hw n hn)
  -- before the pool changes, the walk makes its visit if it is advanced, else it stays
  have hwalk : ∃ w', (s.step H c).2.walk name = .ok w' ∧
      w'.Follows s.pool order (k + if c.advances name then 1 else 0) ∧
      ∀ n ∈ w'.held, s.pool.Alive n := by
    cases hadvances : c.advances name with
    | true =>
      obtain rfl := Command.advances_iff.mp hadvances
      refine ⟨(w.next s.pool).2, ?_, hfollows.next.2, Walk.alive_of_mem_next hclosed halive⟩
      rw [step_next hw, walk_eq_ok_iff]
      exact Bindings.lookup_set_self
    | false =>
      refine ⟨w, ?_, hfollows, halive⟩
      rw [walk_eq_ok_iff, lookup_walks_step hadvances hends, ← walk_eq_ok_iff]
      exact hw
  obtain ⟨w', hw', hfollows', halive'⟩ := hwalk
  have ht := (hs.step c).wellFormed
  exact ⟨w', hw', hfollows'.evolves (hs.evolves [c]) hclosed ht.pool.closed halive'
    fun n hn => ht.alive (mem_held_of_walk hw' n hn)⟩

/-- **A run** leaves a walk on its way, and each advance makes the next visit. -/
theorem Reachable.run_follows {cs : List Command} (hs : s.Reachable H) (hw : s.walk name = .ok w)
    (hfollows : w.Follows s.pool order k) (hcs : ∀ c ∈ cs, c.endsWalk name = false) :
    s.visits H name cs =
        (List.range' k (cs.countP fun c => c.advances name)).map (fun i => order[i]?) ∧
      ∃ w', (s.run H cs).2.walk name = .ok w' ∧
        w'.Follows (s.run H cs).2.pool order (k + cs.countP fun c => c.advances name) := by
  induction cs generalizing s w k with
  | nil => exact ⟨rfl, w, hw, hfollows⟩
  | cons c cs ih =>
    obtain ⟨w', hw', hfollows'⟩ := hs.step_follows hw hfollows (hcs c List.mem_cons_self)
    obtain ⟨hvisits, w'', hw'', hfollows''⟩ :=
      ih (hs.step c) hw' hfollows' fun c' hc' => hcs c' (List.mem_cons_of_mem _ hc')
    rw [List.countP_cons, Nat.add_comm (cs.countP _), ← Nat.add_assoc]
    refine ⟨?_, w'', hw'', hfollows''⟩
    rw [visits, hvisits]
    split
    · have hnext : s.nextVisit name = order[k]? := by
        rw [nextVisit, walk_eq_ok_iff.mp hw, Option.bind_some, hfollows.next.1]
      rw [hnext, Nat.add_comm 1, List.range'_succ, List.map_cons]
    · rw [Nat.add_zero, Nat.zero_add]

/-- Starting a walk puts it at the beginning of the traversal of its roots. -/
theorem Reachable.follows_walk {roots : List Name} (hs : s.Reachable H) (name : Name)
    (hroots : roots.mapM s.node = .ok ns) :
    let t := (s.step H (.walk (some name) roots)).2
    t.walk name = .ok (Walk.start ns) ∧ (Walk.start ns).Follows t.pool (s.pool.traverse ns) 0 := by
  intro t
  have ht : t.WellFormed H := (hs.step _).wellFormed
  have hwalk : t.walk name = .ok (Walk.start ns) := by
    rw [walk_eq_ok_iff, show t = _ from step_walk hroots]
    exact Bindings.lookup_set_self
  have halive : ∀ n ∈ (Walk.start ns).held, s.pool.Alive n := fun n hn => by
    rw [Walk.held_start] at hn
    exact hs.wellFormed.alive (mem_held_of_mapM_node hroots n hn)
  exact ⟨hwalk, (Walk.follows_start s.pool ns).evolves (hs.evolves [.walk (some name) roots])
    hs.wellFormed.pool.closed ht.pool.closed halive
    fun n hn => ht.alive (mem_held_of_walk hwalk n hn)⟩

/-! ## What a walk keeps alive -/

theorem Reachable.alive_of_reachedFrom {roots : List Name} (hs : s.Reachable H)
    (hroots : roots.mapM s.node = .ok ns) (hm : s.pool.ReachedFrom ns m) : s.pool.Alive m := by
  obtain ⟨r, hr, hreach⟩ := hm
  have hroot : s.pool.Alive r := hs.wellFormed.alive (mem_held_of_mapM_node hroots r hr)
  exact hs.wellFormed.pool.closed.alive_of_reaches hroot hreach

/-- The nodes that a session holds without the walk of a name. -/
def holdersBeside (s : Session) (name : Name) : List NodeId :=
  { s with walks := s.walks.erase name }.holders

theorem WellFormed.mem_holders_iff (hs : s.WellFormed H) (hw : s.walk name = .ok w) :
    n ∈ s.holders ↔ n ∈ w.held ∨ n ∈ s.holdersBeside name := by
  have hheld : (s.holders : Multiset NodeId) =
      (w.held : Multiset NodeId) + (s.holdersBeside name : Multiset NodeId) := by
    rw [holdersBeside, coe_holders, coe_holders, held, held,
      Bindings.held_eq_add_erase Walk.held hs.walks name, walk_eq_ok_iff.mp hw]
    exact add_left_comm ..
  rw [← Multiset.mem_coe, hheld, Multiset.mem_add, Multiset.mem_coe, Multiset.mem_coe]

/-- What lives is what the walk is still to give or has given, and what others hold. -/
theorem Reachable.alive_iff_of_follows (hs : s.Reachable H) (hw : s.walk name = .ok w)
    (hfollows : w.Follows s.pool order k) :
    s.pool.Alive m ↔ m ∈ order ∨ s.pool.ReachedFrom (s.holdersBeside name) m := by
  rw [hs.pool_holders.alive_iff, ← hfollows.mem_iff]
  simp only [Pool.ReachedFrom, hs.wellFormed.mem_holders_iff hw, or_and_right, exists_or]

/-- **An advance** lets no node die and makes none: the walk holds what it has to visit, before and
after. -/
theorem Reachable.alive_next_iff (hs : s.Reachable H) (hw : s.walk name = .ok w)
    (hfollows : w.Follows s.pool order k) :
    (s.step H (.next name)).2.pool.Alive m ↔ s.pool.Alive m := by
  obtain ⟨w', hw', hfollows'⟩ := hs.step_follows hw hfollows (c := .next name) rfl
  have ht := hs.step (.next name)
  have hclosed := ht.wellFormed.pool.closed
  have hstep : (s.step H (.next name)).2 = s.bindWalk name (w.next s.pool).2 := by
    rw [step_next hw]
  have hbeside : (s.step H (.next name)).2.holdersBeside name = s.holdersBeside name := by
    rw [hstep]
    simp only [holdersBeside, holders, bindWalk, Bindings.erase_set]
  have hwithin : (s.step H (.next name)).2.pool.Within s.pool := by
    rw [hstep]
    exact (Pool.releaseAll_within _ _).trans (Pool.sameRecords_retainAll _).symm.within
  rw [ht.alive_iff_of_follows hw' hfollows', hs.alive_iff_of_follows hw hfollows, ← hbeside]
  -- the other holders reach what they reached before
  refine or_congr_right (exists_congr fun r => and_congr_right fun hr => ?_)
  refine hwithin.reaches_iff hclosed ?_
  rw [ht.alive_iff_of_follows hw' hfollows']
  exact .inr ⟨r, hr, .refl r⟩

theorem listing_congr (h : ∀ n ∈ ns, t.pool.node? n = s.pool.node? n) :
    t.listing ns = s.listing ns := by
  unfold listing
  refine List.filterMap_congr fun n hn => ?_
  rw [Pool.kind?_eq_node, Pool.kind?_eq_node, Pool.operands_eq_node, Pool.operands_eq_node, h n hn]

theorem step_traverse {roots : List Name} (hroots : roots.mapM s.node = .ok ns) :
    (s.step H (.traverse roots)).1 = .ok (.listing (s.listing (s.pool.traverse ns))) := by
  simp only [step, hroots, andThen, answer]

/-- What a walk answers is told by its order and by how far it has come, and may be looked up in an
earlier session in which the nodes of its order are the same. -/
theorem answers_of_follows (hw : t.walk name = .ok w) (hfollows : w.Follows t.pool order k)
    (hsame : ∀ m ∈ order, t.pool.node? m = s.pool.node? m) :
    (t.step H (.next name)).1 =
        .ok (.visit (order[k]?.bind s.pool.kind?) (order.take (k + 1)).length) ∧
      (t.step H (.visited name)).1 = .ok (.listing (s.listing (order.take k))) ∧
      (t.step H (.finish name)).1 = .ok (.listing (s.listing order)) := by
  refine ⟨?_, ?_, ?_⟩
  · obtain ⟨hnext, hfollows'⟩ := hfollows.next
    have hkind : order[k]?.bind t.pool.kind? = order[k]?.bind s.pool.kind? := by
      cases hvisit : order[k]? with
      | none => rfl
      | some m =>
        rw [Option.bind_some, Option.bind_some, Pool.kind?_eq_node, Pool.kind?_eq_node,
          hsame m (List.mem_of_getElem? hvisit)]
    rw [step_next hw, hnext, hkind, OrderedSet.size, ← Array.length_toList, ← hfollows'.visited]
    rfl
  · simp only [step, hw, andThen, answer, hfollows.visited]
    rw [listing_congr fun m hm => hsame m (List.mem_of_mem_take hm)]
  · simp only [step, hw, andThen, hfollows.drain]
    rw [listing_congr hsame]

/-- **Walks are isolated.** Let a walk be started on some roots, and let any commands follow that do
not end this walk. Its advances visit the nodes of the traversal of its roots at its start, one
after the other, and then nothing. So what it has visited are the first nodes of the traversal, and
if it is finished, it answers as the traversal would have at the start. It holds what reaches the
nodes below its roots and no others: these stay as they were, besides them only those live that
other holders reach, and an advance lets none die. -/
theorem Reachable.walk_isolated {roots : List Name} (hs : s.Reachable H) (name : Name)
    (cs : List Command) (hroots : roots.mapM s.node = .ok ns)
    (hcs : ∀ c ∈ cs, c.endsWalk name = false) :
    let started := (s.step H (.walk (some name) roots)).2
    let t := (started.run H cs).2
    let order := s.pool.traverse ns
    let k := cs.countP fun c => c.advances name
    started.visits H name cs = (order.take k).map some ++ List.replicate (k - order.length) none ∧
    (∃ w, t.walk name = .ok w ∧ w.visited.toList = order.take k ∧
      (w.drain t.pool).visited.toList = order ∧
      ∀ m, t.pool.ReachedFrom w.held m ↔ s.pool.ReachedFrom ns m) ∧
    (t.step H (.next name)).1 =
      .ok (.visit (order[k]?.bind s.pool.kind?) (order.take (k + 1)).length) ∧
    (t.step H (.visited name)).1 = .ok (.listing (s.listing (order.take k))) ∧
    (t.step H (.finish name)).1 = (s.step H (.traverse roots)).1 ∧
    (∀ m, s.pool.ReachedFrom ns m → t.pool.node? m = s.pool.node? m) ∧
    (∀ m, t.pool.Alive m ↔
      s.pool.ReachedFrom ns m ∨ t.pool.ReachedFrom (t.holdersBeside name) m) ∧
    (t.step H (.next name)).2.pool.liveCount = t.pool.liveCount := by
  intro started t order k
  obtain ⟨hwalk, hstart⟩ := hs.follows_walk name hroots
  have hstarted : started.Reachable H := hs.step _
  obtain ⟨hvisits, w, hw, hfollows⟩ : _ ∧ ∃ w, t.walk name = .ok w ∧
      w.Follows t.pool order (0 + k) := hstarted.run_follows hwalk hstart hcs
  rw [Nat.zero_add] at hfollows
  have ht : t.Reachable H := hstarted.run cs
  have horder : ∀ m, m ∈ order ↔ s.pool.ReachedFrom ns m := fun m => Pool.mem_traverse_iff
  have hsame : ∀ m ∈ order, t.pool.node? m = s.pool.node? m := by
    intro m hm
    have hbefore : s.pool.Alive m := hs.alive_of_reachedFrom hroots ((horder m).mp hm)
    have hafter : t.pool.Alive m := (ht.alive_iff_of_follows hw hfollows).mpr (.inl hm)
    exact (hs.evolves (.walk (some name) roots :: cs)).node?_eq hbefore hafter
  obtain ⟨hnext, hvisited, hfinish⟩ := answers_of_follows (H := H) hw hfollows hsame
  refine ⟨?_, ⟨w, hw, hfollows.visited, hfollows.drain, fun m => ?_⟩, hnext, hvisited, ?_,
    fun m hm => ?_, fun m => ?_, ?_⟩
  · rw [hvisits, ← List.range_eq_range', map_getElem?_range]
  · rw [hfollows.mem_iff, horder]
  · rw [hfinish, step_traverse hroots]
  · exact hsame m ((horder m).mpr hm)
  · rw [ht.alive_iff_of_follows hw hfollows, horder]
  · exact Pool.liveCount_congr fun m => ht.alive_next_iff hw hfollows

/-- A walk is started on a sum, whose name and whose operand's name are dropped between its advances
while a new node is made. It visits the operand, then the sum, then nothing; both are alive in the
end, and what they are called is forgotten. -/
theorem walk_isolated_from_drops :
    let H : NodeHash := fun _ _ => 0
    let p : Pool := (Pool.empty.construct H (.variable "x" [])).2
    let q : Pool := (p.construct H (.sum 0 0)).2
    let s : Session := { pool := q, nodes := [("e", 1), ("x", 0)] }
    let cs : List Command := [.next "w", .drop "e", .drop "x",
      .construct (some "y") (.variable "y" []), .next "w", .next "w"]
    let started := (s.step H (.walk (some "w") ["e"])).2
    let t := (started.run H cs).2
    s.Reachable H ∧ started.visits H "w" cs = [some 0, some 1, none] ∧
      t.pool.Alive 0 ∧ t.pool.Alive 1 ∧ t.node "e" = .error (.unknownName "e") ∧
      (t.step H (.finish "w")).1 = (s.step H (.traverse ["e"])).1 := by
  intro H p q s cs started t
  have hx : Reachable H { pool := p, nodes := [("x", 0)] } :=
    Reachable.start.construct (c := .variable "x" []) rfl rfl (by decide +kernel) rfl
  have hs : s.Reachable H := hx.construct (c := .sum "x" "x") rfl rfl (by decide +kernel) rfl
  have hoperand : 0 ∈ s.pool.operands 1 := by decide +kernel
  have horder : s.pool.traverse [1] = [0, 1] := by
    rw [Pool.traverse_eq_postOrder]
    decide +kernel
  have hforgotten : t.node "e" = .error (.unknownName "e") := by decide +kernel
  have hroots : ["e"].mapM s.node = .ok [1] := rfl
  obtain ⟨hvisits, -, -, -, hfinish, -, halive, -⟩ := hs.walk_isolated "w" cs hroots (by decide)
  rw [horder] at hvisits
  refine ⟨hs, hvisits, ?_, ?_, hforgotten, hfinish⟩
  · exact (halive 0).mpr (.inl ⟨1, by decide, .step hoperand (.refl 0)⟩)
  · exact (halive 1).mpr (.inl ⟨1, by decide, .refl 1⟩)

end Session

end TensorCost
