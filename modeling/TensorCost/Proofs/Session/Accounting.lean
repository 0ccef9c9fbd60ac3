import TensorCost.Proofs.Pool.Rebuild
import TensorCost.Proofs.Session.Reachable

/-!
# Accounting

The counters of a session can be told from its commands and their replies alone: nodes are asked for
by constructions that succeed and by nothing else.

* `Command.calls` is the number of constructor calls that a command stands for, `Session.calls` that
  of the successful ones in a run, and `Session.freed` the number of nodes that die in it.

Results:
* `step_asks`: a command counts its calls as look-ups if it succeeds, and none if it fails.
* `run_lookups`, `run_liveCount`: the same for runs, and what a run makes lives on or is freed.
* `accounting`: the counters of a session at the end of a run, what the next construction counts,
  and what it costs to build an expression again.
-/

namespace TensorCost

/-- The number of constructor calls that a command stands for. -/
def Command.calls : Command → Nat
  | construct _ _ => 1
  | chain _ _ times _ _ => times
  | _ => 0

namespace Session

open Pool

variable {H : NodeHash} {s : Session} {k : Nat} {held : Multiset NodeId}

/-- How many of `k` constructor calls have been successful, by the reply to them. -/
def succeeded (k : Nat) : Except Failure Reply → Nat
  | .ok _ => k
  | .error _ => 0

/-- The number of successful constructor calls in a run. -/
def calls (H : NodeHash) (s : Session) : List Command → Nat
  | [] => 0
  | c :: rest => succeeded c.calls (s.step H c).1 + (s.step H c).2.calls H rest

/-- The number of nodes that die in a run. -/
def freed (H : NodeHash) (s : Session) : List Command → Nat
  | [] => 0
  | c :: rest =>
    (died s.pool (s.step H c).2.pool).length + (s.step H c).2.freed H rest

/-! ## Commands -/

/-- Whether a step counts `k` look-ups if it succeeds, and none if it fails. -/
def Asks (s : Session) (k : Nat) (x : Step) : Prop :=
  x.2.pool.lookups = s.pool.lookups + succeeded k x.1

theorem asks_of_lookups {x : Step} (h : x.2.pool.lookups = s.pool.lookups) : s.Asks 0 x := by
  have hnone : succeeded 0 x.1 = 0 := by cases x.1 <;> rfl
  rw [Asks, hnone, h]
  rfl

theorem asks_andThen {α : Type} {found : Except Failure α} {f : α → Step}
    (h : ∀ a, found = .ok a → s.Asks k (f a)) : s.Asks k (s.andThen found f) :=
  andThen_cases (fun _ => rfl) h

theorem asks_answer (r : Reply) : s.Asks 0 (s.answer r) := rfl

theorem lookups_bindNode (as? : Option Name) (n : NodeId) :
    (s.bindNode as? n).pool.lookups = s.pool.lookups := by
  cases as? with
  | none => exact (counts_releaseAll s.pool [n]).lookups
  | some name => exact (counts_releaseAll s.pool _).lookups

theorem lookups_bindWalk (name : Name) (w : Walk) :
    (s.bindWalk name w).pool.lookups = s.pool.lookups :=
  ((counts_retainAll w.held).trans (counts_releaseAll _ (s.heldBy name))).lookups

theorem lookups_dropWalk (name : Name) : (s.dropWalk name).pool.lookups = s.pool.lookups :=
  (counts_releaseAll s.pool _).lookups

theorem lookups_dropNode (name : Name) : (s.dropNode name).pool.lookups = s.pool.lookups :=
  (counts_releaseAll s.pool _).lookups

/-- What is made with `k` look-ups, or refused with none, is named or released with no more. -/
theorem asks_built {as? : Option Name} {result : Except Error NodeId × Pool}
    (hok : ∀ n, result.1 = .ok n → result.2.lookups = s.pool.lookups + k)
    (herror : ∀ e, result.1 = .error e → result.2.lookups = s.pool.lookups) :
    s.Asks k (s.built as? result) := by
  obtain ⟨made, q⟩ := result
  cases made with
  | error e => exact herror e rfl
  | ok n => exact (lookups_bindNode as? n).trans (hok n rfl)

/-- Links of a chain are not refused. -/
theorem construct_link (c : Chain) (e o : NodeId) (p : Pool) :
    ∃ kind ops, p.construct H (c.link e o) = p.build H kind ops := by
  cases c <;> exact ⟨_, _, rfl⟩

theorem chain_asks (c : Chain) (other? : Option NodeId) (times : Nat) (e : NodeId) (p : Pool) :
    (∃ n, (c.run H other? times e p).1 = .ok n) ∧
      (c.run H other? times e p).2.lookups = p.lookups + times := by
  induction times generalizing e p with
  | zero => exact ⟨⟨e, rfl⟩, rfl⟩
  | succ times ih =>
    obtain ⟨kind, ops, hlink⟩ := construct_link (H := H) c e (other?.getD e) p
    have hintern := lookups_intern (H := H) p kind ops
    have hrelease := counts_releaseAll (p.intern H kind ops).2 [e]
    obtain ⟨hok, hlookups⟩ := ih (p.intern H kind ops).1 ((p.intern H kind ops).2.release e)
    rw [Chain.run, hlink]
    refine ⟨hok, hlookups.trans ?_⟩
    rw [release, hrelease.lookups, hintern]
    omega

/-- **A command** counts its calls as look-ups if it succeeds, and none if it fails. -/
theorem step_asks (hs : s.WellFormed H) (c : Command) : s.Asks c.calls (s.step H c) := by
  have hclosed := hs.pool.closed
  have hderived := hs.pool.derived
  cases c with
  | index as? request =>
    simp only [step]
    cases (request.grant s.nextIndex).1 with
    | error e => rfl
    | ok i => cases as? <;> rfl
  | compareIndices i j => exact asks_andThen fun i _ => asks_andThen fun j _ => asks_answer _
  | indexSet indices => exact asks_andThen fun is _ => asks_answer _
  | extentProduct indices => exact asks_andThen fun is _ => asks_answer _
  | construct as? c =>
    refine asks_andThen fun _ _ => asks_andThen fun d hd => ?_
    have halive : ∀ m ∈ d.operands, s.pool.Alive m := hs.alive_operands hd
    refine asks_built (fun n hn => ?_) fun e he => ?_
    · exact (hs.pool.construct_counts halive (Prod.ext hn rfl)).lookups
    · exact (hs.pool.construct_refused halive (Prod.ext he rfl)).lookups
  | chain as? a times c other? =>
    refine asks_andThen fun e _ => asks_andThen fun o _ => ?_
    obtain ⟨⟨n, hn⟩, hlookups⟩ := chain_asks (H := H) c o times e (s.pool.retain e)
    rw [counts_retain.lookups] at hlookups
    refine asks_built (fun _ _ => hlookups) fun err herr => ?_
    rw [hn] at herr
    exact absurd herr (by simp)
  | describe a => exact asks_andThen fun n _ => asks_andThen fun k _ => asks_answer _
  | freeIndices a =>
    exact asks_andThen fun n _ =>
      asks_of_lookups (freeIndices_spec hclosed hderived n).derivation.counts.lookups
  | isDerived a => exact asks_andThen fun n _ => asks_answer _
  | compareNodes a b => exact asks_andThen fun m _ => asks_andThen fun n _ => asks_answer _
  | inspect a => exact asks_andThen fun n _ => asks_answer _
  | price a =>
    exact asks_andThen fun n _ =>
      asks_of_lookups (price_spec hclosed hderived n).2.counts.lookups
  | count roots =>
    exact asks_andThen fun ns _ =>
      asks_of_lookups (count_spec hclosed hderived ns).2.counts.lookups
  | traverse roots => exact asks_andThen fun ns _ => asks_answer _
  | kinds roots => exact asks_andThen fun ns _ => asks_answer _
  | references roots => exact asks_andThen fun ns _ => asks_answer _
  | shared roots => exact asks_andThen fun ns _ => asks_answer _
  | report roots source? =>
    exact asks_andThen fun ns _ => asks_andThen fun a _ =>
      asks_of_lookups (hs.report_derivation ns a).counts.lookups
  | walk as? roots =>
    refine asks_andThen fun ns _ => ?_
    cases as? with
    | none => exact asks_answer _
    | some name => exact asks_of_lookups (lookups_bindWalk name _)
  | next h => exact asks_andThen fun w _ => asks_of_lookups (lookups_bindWalk h _)
  | visited h => exact asks_andThen fun w _ => asks_answer _
  | finish h => exact asks_andThen fun w _ => asks_of_lookups (lookups_dropWalk h)
  | stats => exact asks_answer _
  | drop h => exact asks_of_lookups ((lookups_dropWalk h).trans (lookups_dropNode h))

/-! ## Runs -/

/-- **The look-ups of a run** are its successful constructor calls. -/
theorem Reachable.run_lookups (h : s.Reachable H) (cs : List Command) :
    (s.run H cs).2.pool.lookups = s.pool.lookups + s.calls H cs := by
  induction cs generalizing s with
  | nil => rfl
  | cons c cs ih =>
    have hstep : s.Asks c.calls (s.step H c) := step_asks h.wellFormed c
    have hrest := ih (h.step c)
    rw [hstep, Nat.add_assoc] at hrest
    exact hrest

/-- **What is made in a run** lives on or is freed, as what lived before. -/
theorem Reachable.run_liveCount (h : s.Reachable H) (cs : List Command) :
    (s.run H cs).2.pool.liveCount + s.freed H cs + s.pool.allocated =
      s.pool.liveCount + (s.run H cs).2.pool.allocated := by
  induction cs generalizing s with
  | nil => rfl
  | cons c cs ih =>
    have hstep := h.evolves [c]
    have hdied : (s.step H c).2.pool.liveCount + (died s.pool (s.step H c).2.pool).length =
        s.pool.liveCount + ((s.step H c).2.pool.allocated - s.pool.allocated) :=
      hstep.liveCount_add_died
    have hle : s.pool.allocated ≤ (s.step H c).2.pool.allocated := hstep.allocated_le
    have hrest := ih (h.step c)
    show ((s.step H c).2.run H cs).2.pool.liveCount +
        ((died s.pool (s.step H c).2.pool).length + (s.step H c).2.freed H cs) +
        s.pool.allocated = s.pool.liveCount + ((s.step H c).2.run H cs).2.pool.allocated
    omega

theorem Reachable.balanced (h : s.Reachable H) : s.pool.Balanced := by
  induction h with
  | start => exact balanced_empty
  | step before c ih =>
    exact (step_proper before.wellFormed c).moves.balanced before.wellFormed.pool ih

/-- **Accounting.** At the end of a run, the look-ups are the successful constructor calls in it.
They are the hits and the nodes made, and the nodes made are those that live and those that have
been freed. A construction that succeeds counts one look-up, and a hit iff the node was alive, else
it makes one; one that is refused counts nothing and changes nothing but what is kept of free
indices. An expression of `k` calls that is built again while its nodes are alive, whatever has
happened since they were made, costs `k` look-ups and `k` hits, gives the same nodes and leaves the
living ones as they are. -/
theorem accounting (H : NodeHash) (cs : List Command) :
    let s := (({} : Session).run H cs).2
    s.pool.lookups = ({} : Session).calls H cs ∧
    s.pool.hits + s.pool.allocated = s.pool.lookups ∧
    s.pool.liveCount + ({} : Session).freed H cs = s.pool.allocated ∧
    (∀ c, (∀ m ∈ c.operands, s.pool.Alive m) →
      (∀ n q, s.pool.construct H c = (.ok n, q) →
        Counts s.pool q 1 (if s.pool.Alive n then 1 else 0) (if s.pool.Alive n then 0 else 1)) ∧
      ∀ e q, s.pool.construct H c = (.error e, q) → SameButKept s.pool q) ∧
    (∀ k (r : Recipe k) made, (r.follow H s.pool).1 = .ok made →
      ∀ q rest,
        Moves H ((r.follow H s.pool).2, (made.toList : Multiset NodeId) + s.held) (q, rest) →
        (∀ n ∈ made.toList, q.Alive n) → r.FoundIn H q made) ∧
    ∀ k (r : Recipe k) made, r.Built s.pool made →
      ∀ cs', (∀ n ∈ made.toList, (s.run H cs').2.pool.Alive n) →
        r.FoundIn H (s.run H cs').2.pool made := by
  intro s
  have hs : s.Reachable H := Reachable.start.run cs
  have hpool := hs.wellFormed.pool
  have hlookups := Reachable.start.run_lookups (H := H) cs
  have hlive := Reachable.start.run_liveCount (H := H) cs
  refine ⟨hlookups.trans (Nat.zero_add _), hs.balanced, hlive.trans (Nat.zero_add _),
    fun c halive => ⟨fun n q hmade => hpool.construct_counts halive hmade,
      fun e q herror => hpool.construct_refused halive herror⟩, ?_, ?_⟩
  · intro k r made hmade q rest hmoves halive
    have hfollow := r.follow_moves hpool
    rw [hmade] at hfollow
    have hmadePool := hfollow.wellFormed hpool
    exact ((Recipe.follow_built hpool hmade).evolves (hmoves.evolves hmadePool) halive).foundIn
      (hmoves.wellFormed hmadePool)
  · intro k r made hbuilt cs' halive
    exact (hbuilt.evolves (hs.evolves cs') halive).foundIn (hs.run cs').wellFormed.pool

/-- Two constructions are two look-ups and make two nodes. Built again, the two are found. -/
theorem accounting_of_sum_built_again :
    let H : NodeHash := fun _ _ => 0
    let cs : List Command :=
      [.construct (some "x") (.variable "x" []), .construct (some "e") (.sum "x" "x")]
    let r : Recipe 2 := (Recipe.start.call (.variable "x" [])).call (.sum 0 0)
    let s := (({} : Session).run H cs).2
    ({} : Session).calls H cs = 2 ∧ s.pool.hits = 0 ∧ ({} : Session).freed H cs = 0 ∧
      r.Built s.pool #v[0, 1] ∧ r.FoundIn H s.pool #v[0, 1] := by
  intro H cs r s
  let p : Pool := (Pool.empty.construct H (.variable "x" [])).2
  let q : Pool := (p.construct H (.sum 0 0)).2
  have hx : (({} : Session).step H (.construct (some "x") (.variable "x" []))).2 =
      { pool := p, nodes := [("x", 0)] } :=
    step_construct rfl rfl (by decide +kernel) rfl
  have he : (({ pool := p, nodes := [("x", 0)] } : Session).step H
      (.construct (some "e") (.sum "x" "x"))).2 = { pool := q, nodes := [("e", 1), ("x", 0)] } :=
    step_construct rfl rfl (by decide +kernel) rfl
  have hs : s = { pool := q, nodes := [("e", 1), ("x", 0)] } := by
    show ((({} : Session).step H (.construct (some "x") (.variable "x" []))).2.step H
      (.construct (some "e") (.sum "x" "x"))).2 = _
    rw [hx, he]
  have hcounters : q.lookups = 2 ∧ q.allocated = 2 ∧ q.liveCount = 2 := by decide +kernel
  have hnodes : q.node? 0 = some (.variable "x" [], []) ∧ q.node? 1 = some (.sum, [0, 0]) := by
    decide +kernel
  have hbuilt : r.Built s.pool #v[0, 1] := by
    rw [hs]
    have hfirst : (Recipe.start.call (.variable "x" [])).Built q #v[0] :=
      .call .start rfl hnodes.1
    have hboth : r.Built q (#v[0].push 1) := hfirst.call rfl hnodes.2
    exact hboth
  obtain ⟨hlookups, hbalanced, hlive, -, -, hagain⟩ := accounting H cs
  have hfound : r.FoundIn H s.pool #v[0, 1] := hagain 2 r _ hbuilt [] hbuilt.alive
  change s.pool.lookups = _ at hlookups
  change s.pool.hits + s.pool.allocated = s.pool.lookups at hbalanced
  change s.pool.liveCount + _ = s.pool.allocated at hlive
  rw [hs] at hlookups hbalanced hlive
  simp only [hcounters] at hlookups hbalanced hlive
  refine ⟨hlookups.symm, ?_, ?_, hbuilt, hfound⟩
  · rw [hs]
    exact Nat.add_right_cancel (hbalanced.trans (Nat.zero_add 2).symm)
  · exact Nat.add_left_cancel (hlive.trans (Nat.add_zero 2).symm)

end Session

end TensorCost
