import TensorCost.Proofs.Cost.Reduction
import TensorCost.Proofs.Pool.KeepsMore
import TensorCost.Proofs.Session.Isolation

/-!
# Refused constructions

A constructor looks at its arguments before it touches the pool, so a call that is refused leaves no
trace, save that the free indices of an operand may be kept that had to be known in order to refuse
it. Whatever is done afterwards goes as it would have gone without the call.

* `Session.KeepsMore` says that a session is another with free indices kept of some more nodes.
* `Reply.unkept` is an answer without what it tells about free indices being kept.

Results:
* `KeepsMore.step`, `KeepsMore.run`: such sessions give the same answers to the same commands, and
  differ afterwards as they did before.
* `Reachable.refused`: what a refused construction leaves, and that nothing comes of it later.
-/

namespace TensorCost

/-- The answer without what it tells about free indices being kept, or not yet. -/
def Reply.unkept : Reply → Reply
  | .freeIndices _ free => .freeIndices false free
  | .derived _ => .derived false
  | .text _ => .text ""
  | r => r

namespace Session

open Pool (SameButKept Moves)

variable {H : NodeHash} {more : NodeId → Prop} {s t : Session} {ns : List NodeId}

/-- Whether `t` is `s` with free indices kept of the nodes in `more` as well, as long as these
live. -/
structure KeepsMore (more : NodeId → Prop) (s t : Session) : Prop where
  rest : t = { s with pool := t.pool }
  pool : s.pool.KeepsMore more t.pool

theorem KeepsMore.exists_pool (h : KeepsMore more s t) : ∃ q, t = { s with pool := q } :=
  ⟨_, h.rest⟩

/-- Whether two answers are the same but for what they tell about free indices being kept, and are
given in sessions that are the same but for these. -/
structure Agrees (more : NodeId → Prop) (x y : Step) : Prop where
  reply : y.1.map Reply.unkept = x.1.map Reply.unkept
  session : KeepsMore more x.2 y.2

theorem KeepsMore.andThen {α : Type} {found found' : Except Failure α} {f g : α → Step}
    (h : KeepsMore more s t) (hfound : found' = found)
    (hfg : ∀ a, found = .ok a → Agrees more (f a) (g a)) :
    Agrees more (s.andThen found f) (t.andThen found' g) := by
  subst hfound
  cases found' with
  | error e => exact ⟨rfl, h⟩
  | ok a => exact hfg a rfl

theorem fst_andThen_congr {α : Type} {found found' : Except Failure α} {f g : α → Step}
    (hfound : found' = found) (hfg : ∀ a, found = .ok a → (g a).1 = (f a).1) :
    (t.andThen found' g).1 = (s.andThen found f).1 := by
  subst hfound
  cases found' with
  | error e => rfl
  | ok a => exact hfg a rfl

theorem KeepsMore.answer {r r' : Reply} (h : KeepsMore more s t) (hr : r'.unkept = r.unkept) :
    Agrees more (s.answer r) (t.answer r') :=
  ⟨congrArg Except.ok hr, h⟩

/-- The same session around pools of which one keeps more. -/
theorem keepsMore_of_pool {p q : Pool} (h : p.KeepsMore more q) :
    KeepsMore more { s with pool := p } { s with pool := q } :=
  ⟨rfl, h⟩

/-! ## Answers -/

theorem KeepsMore.ofPool {α : Type} {x y : Except Error α × Pool} (h : KeepsMore more s t)
    (hxy : y.1 = x.1) (hpool : x.2.KeepsMore more y.2) (f : α → Reply) :
    Agrees more (s.ofPool x f) (t.ofPool y f) := by
  obtain ⟨q, rfl⟩ := h.exists_pool
  refine ⟨?_, keepsMore_of_pool hpool⟩
  simp only [Session.ofPool, hxy]

theorem KeepsMore.bindNode (h : KeepsMore more s t) (as? : Option Name) (n : NodeId) :
    KeepsMore more (s.bindNode as? n) (t.bindNode as? n) := by
  obtain ⟨q, rfl⟩ := h.exists_pool
  cases as? with
  | none => exact ⟨rfl, h.pool.releaseAll _⟩
  | some name => exact ⟨rfl, h.pool.releaseAll _⟩

/-- **What is built** is named in the same way, and the answer is the same. -/
theorem KeepsMore.built {x y : Except Error NodeId × Pool} (h : KeepsMore more s t)
    (hxy : y.1 = x.1) (hpool : x.2.KeepsMore more y.2) (as? : Option Name) :
    (t.built as? y).1 = (s.built as? x).1 ∧
      KeepsMore more (s.built as? x).2 (t.built as? y).2 := by
  obtain ⟨q, rfl⟩ := h.exists_pool
  obtain ⟨made, p'⟩ := x
  obtain ⟨made', q'⟩ := y
  obtain rfl : made' = made := hxy
  have hbefore : SameButKept s.pool q := h.pool.same
  have hafter : SameButKept p' q' := hpool.same
  cases made' with
  | error e => exact ⟨rfl, keepsMore_of_pool hpool⟩
  | ok n =>
    refine ⟨?_, (keepsMore_of_pool hpool).bindNode as? n⟩
    simp only [Session.built, hafter.sameRecords.kindName_eq, hafter.lookups, hafter.hits,
      hbefore.lookups, hbefore.hits]

theorem KeepsMore.bindWalk (h : KeepsMore more s t) (name : Name) (w : Walk) :
    KeepsMore more (s.bindWalk name w) (t.bindWalk name w) := by
  obtain ⟨q, rfl⟩ := h.exists_pool
  exact ⟨rfl, (h.pool.retainAll _).releaseAll _⟩

theorem KeepsMore.dropWalk (h : KeepsMore more s t) (name : Name) :
    KeepsMore more (s.dropWalk name) (t.dropWalk name) := by
  obtain ⟨q, rfl⟩ := h.exists_pool
  exact ⟨rfl, h.pool.releaseAll _⟩

theorem KeepsMore.dropNode (h : KeepsMore more s t) (name : Name) :
    KeepsMore more (s.dropNode name) (t.dropNode name) := by
  obtain ⟨q, rfl⟩ := h.exists_pool
  exact ⟨rfl, h.pool.releaseAll _⟩

theorem KeepsMore.liveCount_eq (h : KeepsMore more s t) : t.pool.liveCount = s.pool.liveCount :=
  Pool.liveCount_congr fun _ => h.pool.alive_iff

theorem KeepsMore.listing_eq (h : KeepsMore more s t) (ns : List NodeId) :
    t.listing ns = s.listing ns :=
  listing_congr fun n _ => h.pool.same.sameRecords.node?_eq n

theorem KeepsMore.report (h : KeepsMore more s t) (hs : s.WellFormed H) (ht : t.WellFormed H)
    (roots : List NodeId) (a : Analyzer) :
    Agrees more (s.report roots a) (t.report roots a) := by
  obtain ⟨hresult, hpool⟩ := h.pool.analyze hs.pool ht.pool a roots
  have hder : Moves H (s.pool, s.held) ((a.analyze s.pool roots).2, s.held) :=
    (a.analyze_spec hs.pool.closed hs.pool.derived roots).2.moves
  have hder' : Moves H (t.pool, t.held) ((a.analyze t.pool roots).2, t.held) :=
    (a.analyze_spec ht.pool.closed ht.pool.derived roots).2.moves
  have hcount := hpool.count (hder.wellFormed hs.pool) (hder'.wellFormed ht.pool) roots
  obtain ⟨q, rfl⟩ := h.exists_pool
  unfold Session.report
  cases hs' : a.analyze s.pool roots with
  | mk result p' =>
  cases ht' : a.analyze q roots with
  | mk result' q' =>
  rw [hs', ht'] at hresult hpool hcount
  obtain rfl : result' = result := hresult
  cases result' with
  | error e => exact ⟨rfl, keepsMore_of_pool hpool⟩
  | ok r => exact (keepsMore_of_pool hpool).ofPool hcount.1 hcount.2 (.report r)

/-! ## Commands -/

/-- **A command** is answered in the same way, and leaves sessions that differ as they did. -/
theorem KeepsMore.step (h : KeepsMore more s t) (hs : s.WellFormed H) (ht : t.WellFormed H)
    (c : Command) : Agrees more (s.step H c) (t.step H c) := by
  have hsame := h.pool.same.sameRecords
  obtain ⟨q, rfl⟩ := h.exists_pool
  cases c with
  | index as? request =>
    simp only [Session.step]
    cases (request.grant s.nextIndex).1 with
    | error e => exact ⟨rfl, rfl, h.pool⟩
    | ok i => cases as? <;> exact ⟨rfl, rfl, h.pool⟩
  | compareIndices i j =>
    exact h.andThen rfl fun i _ => h.andThen rfl fun j _ => h.answer rfl
  | indexSet indices => exact h.andThen rfl fun is _ => h.answer rfl
  | extentProduct indices => exact h.andThen rfl fun is _ => h.answer rfl
  | construct as? c =>
    refine h.andThen rfl fun _ _ => h.andThen rfl fun d hd => ?_
    obtain ⟨hmade, hpool⟩ := h.pool.construct hs.pool ht.pool (hs.alive_operands hd)
    obtain ⟨hreply, hsession⟩ := h.built hmade hpool as?
    exact ⟨congrArg _ hreply, hsession⟩
  | chain as? a times c other? =>
    refine h.andThen rfl fun e he => h.andThen rfl fun o ho => ?_
    have hheld := mem_held_of_other ho
    have hretained := hs.pool.retain (hs.alive (mem_held_of_node he))
    have hretained' := ht.pool.retain (ht.alive (mem_held_of_node he))
    obtain ⟨hmade, hpool⟩ := (h.pool.retain e).chain hretained hretained' hheld
    obtain ⟨hreply, hsession⟩ := h.built hmade hpool as?
    exact ⟨congrArg _ hreply, hsession⟩
  | describe a =>
    refine h.andThen rfl fun n _ => h.andThen ?_ fun k _ => h.answer ?_
    · rw [hsame.kind?_eq]
    · rw [hsame.operands_eq, funext hsame.kindName_eq]
  | freeIndices a =>
    refine h.andThen rfl fun n _ => ?_
    obtain ⟨hfree, hpool⟩ := h.pool.freeIndices hs.pool ht.pool n
    exact ⟨congrArg (fun free => Except.ok (Reply.freeIndices false free)) hfree,
      keepsMore_of_pool hpool⟩
  | isDerived a => exact h.andThen rfl fun n _ => h.answer rfl
  | compareNodes a b =>
    refine h.andThen rfl fun m _ => h.andThen rfl fun n _ => h.answer ?_
    rw [Bool.eq_iff_iff.mpr (ht.pool.same_iff.trans hs.pool.same_iff.symm)]
  | inspect a => exact h.andThen rfl fun n _ => h.answer rfl
  | price a =>
    refine h.andThen rfl fun n _ => ?_
    obtain ⟨hprice, hpool⟩ := h.pool.price hs.pool ht.pool n
    exact h.ofPool hprice hpool .flops
  | count roots =>
    refine h.andThen rfl fun ns _ => ?_
    obtain ⟨hcount, hpool⟩ := h.pool.count hs.pool ht.pool ns
    exact h.ofPool hcount hpool .flops
  | traverse roots =>
    refine h.andThen rfl fun ns _ => h.answer ?_
    rw [h.listing_eq, hsame.traverse_eq]
  | kinds roots =>
    refine h.andThen rfl fun ns _ => h.answer ?_
    rw [hsame.traverse_eq, funext hsame.kindName_eq]
  | references roots =>
    refine h.andThen rfl fun ns _ => h.answer ?_
    simp only [hsame.traverse_eq, hsame.referenceCounts_eq, hsame.kindName_eq]
  | shared roots =>
    refine h.andThen rfl fun ns _ => h.answer ?_
    simp only [hsame.traverse_eq, hsame.referenceCounts_eq, hsame.kindName_eq, Pool.sharedNodes]
  | report roots source? =>
    exact h.andThen rfl fun ns _ => h.andThen rfl fun a _ => h.report hs ht ns a
  | walk as? roots =>
    refine h.andThen rfl fun ns _ => ?_
    cases as? with
    | none => exact h.answer (by rw [h.liveCount_eq])
    | some name => exact (h.bindWalk name _).answer (by rw [(h.bindWalk name _).liveCount_eq])
  | next name =>
    refine h.andThen rfl fun w _ => ?_
    rw [Walk.next_congr hsame.operands_eq w, funext hsame.kind?_eq]
    exact ⟨rfl, h.bindWalk name _⟩
  | visited name =>
    refine h.andThen rfl fun w _ => h.answer ?_
    rw [h.listing_eq]
  | finish name =>
    refine h.andThen rfl fun w _ => ?_
    rw [Walk.drain_congr hsame.operands_eq w, h.listing_eq]
    exact ⟨rfl, h.dropWalk name⟩
  | stats => exact h.answer (by rw [h.pool.same.lookups, h.pool.same.hits, h.liveCount_eq])
  | drop name =>
    have hdropped := (h.dropNode name).dropWalk name
    exact hdropped.answer (by rw [hdropped.liveCount_eq])

/-! ## Runs -/

/-- **A run** is answered in the same way, and leaves sessions that differ as they did. -/
theorem KeepsMore.run (h : KeepsMore more s t) (hs : s.Reachable H) (ht : t.Reachable H)
    (cs : List Command) :
    (t.run H cs).1.map (Except.map Reply.unkept) = (s.run H cs).1.map (Except.map Reply.unkept) ∧
      KeepsMore more (s.run H cs).2 (t.run H cs).2 := by
  induction cs generalizing s t with
  | nil => exact ⟨rfl, h⟩
  | cons c cs ih =>
    obtain ⟨hreply, hsession⟩ := h.step hs.wellFormed ht.wellFormed c
    obtain ⟨hreplies, hend⟩ := ih hsession (hs.step c) (ht.step c)
    exact ⟨List.cons_eq_cons.mpr ⟨hreply, hreplies⟩, hend⟩

/-- Constructions are answered in the same way to the letter. -/
theorem KeepsMore.reply_construct (h : KeepsMore more s t) (hs : s.WellFormed H)
    (ht : t.WellFormed H) (as? : Option Name) (c : Construction Name Name) :
    (t.step H (.construct as? c)).1 = (s.step H (.construct as? c)).1 := by
  obtain ⟨q, rfl⟩ := h.exists_pool
  refine fst_andThen_congr rfl fun _ _ => fst_andThen_congr rfl fun d hd => ?_
  obtain ⟨hmade, hpool⟩ := h.pool.construct hs.pool ht.pool (hs.alive_operands hd)
  exact (h.built hmade hpool as?).1

/-! ## Refusals -/

/-- What names an unknown symbol asks for no free indices. -/
theorem asks?_eq_none_of_checkSymbol {c : Construction Name Name} {d : Construction NodeId Index}
    {e : Error} (hsymbol : c.checkSymbol = .error e) (hd : c.resolve s.node s.index = .ok d) :
    d.asks? = none := by
  cases c with
  | comparison symbol a b =>
    obtain ⟨a', -, hd⟩ := bind_eq_ok_iff.mp hd
    obtain ⟨b', -, hd⟩ := bind_eq_ok_iff.mp hd
    obtain rfl := Except.ok.inj hd
    rfl
  | _ => cases hsymbol

/-- A call that is refused leaves the pool as it was when the arguments had been looked at. -/
theorem WellFormed.refused_cases (hs : s.WellFormed H) {as? : Option Name}
    {c : Construction Name Name} {f : Failure}
    (hrefused : (s.step H (.construct as? c)).1 = .error f) :
    (s.step H (.construct as? c)).2 = s ∧
        (∀ d, c.resolve s.node s.index = .ok d → d.asks? = none) ∨
      ∃ d, c.resolve s.node s.index = .ok d ∧
        (s.step H (.construct as? c)).2 = { s with pool := s.pool.examined d } := by
  cases hsymbol : c.checkSymbol with
  | error e =>
    refine .inl ⟨?_, fun d hd => asks?_eq_none_of_checkSymbol hsymbol hd⟩
    simp only [Session.step, hsymbol, Session.andThen, Except.mapError]
  | ok _ =>
    cases hd : c.resolve s.node s.index with
    | error e =>
      refine .inl ⟨?_, fun d hd' => by cases hd'⟩
      simp only [Session.step, hsymbol, hd, Session.andThen, Except.mapError]
    | ok d =>
      refine .inr ⟨d, rfl, ?_⟩
      simp only [Session.step, hsymbol, hd, Session.andThen, Except.mapError] at hrefused ⊢
      rcases Pool.construct_cases (H := H) hs.pool.closed hs.pool.derived (hs.alive_operands hd)
        with ⟨k, -, -, hbuild⟩ | ⟨-, e, herror⟩
      -- a call that comes to the pool is not refused any more
      · rw [hbuild] at hrefused
        cases hrefused
      · rw [herror]
        rfl

/-- The pool that a refused call leaves, and what is kept in it. -/
theorem WellFormed.exists_pool_of_refused (hs : s.WellFormed H) {as? : Option Name}
    {c : Construction Name Name} {f : Failure}
    (hrefused : (s.step H (.construct as? c)).1 = .error f) :
    ∃ q, (s.step H (.construct as? c)).2 = { s with pool := q } ∧ Pool.Derivation s.pool q ∧
      (∀ m, q.Keeps m ↔ s.pool.Keeps m ∨
        ∃ d a, c.resolve s.node s.index = .ok d ∧ d.asks? = some a ∧ s.pool.Reaches a m) ∧
      ((∀ d, c.resolve s.node s.index = .ok d → d.asks? = none) → q = s.pool) := by
  rcases hs.refused_cases hrefused with ⟨hsame, hnone⟩ | ⟨d, hd, hsame⟩
  · refine ⟨s.pool, hsame, .refl, fun m => (or_iff_left ?_).symm, fun _ => rfl⟩
    rintro ⟨d, a, hd, hasks, -⟩
    rw [hnone d hd] at hasks
    cases hasks
  · refine ⟨s.pool.examined d, hsame, Pool.examined_derivation hs.pool.closed hs.pool.derived d,
      fun m => ?_, fun hnone => by rw [Pool.examined_eq, hnone d hd]⟩
    rw [Pool.keeps_examined_iff hs.pool.closed hs.pool.derived (hs.alive_operands hd), hd]
    simp

/-- **A refused construction.** Let a constructor call fail in a reachable session. It leaves the
session as it was: names, walks, counters and buckets are the same, every node has the kind, the
operands and the holds that it had, and as many live. All that may have changed is what is kept of
free indices. If the call was to bind indices, at least one, over a node, then free indices are now
kept of this node and of those below it beside those of which they were kept, each as it would be
answered before; else the session is the same.

Whatever commands follow, they are answered as they would have been without the call, except where
they ask whether free indices are kept, and constructions are so without exception. In the end free
indices are kept of the nodes of which they would be kept and of those that live still and had them
kept by the call, and this is the only difference. -/
theorem Reachable.refused (h : s.Reachable H) {as? : Option Name} {c : Construction Name Name}
    {f : Failure} (hrefused : (s.step H (.construct as? c)).1 = .error f) :
    let t := (s.step H (.construct as? c)).2
    t = { s with pool := t.pool } ∧
    s.pool.SameButKept t.pool ∧ t.pool.liveCount = s.pool.liveCount ∧
    (∀ m, t.pool.Keeps m ↔ s.pool.Keeps m ∨
      ∃ d a, c.resolve s.node s.index = .ok d ∧ d.asks? = some a ∧ s.pool.Reaches a m) ∧
    (∀ m free, t.pool.derived? m = some free → free = (s.pool.freeIndices m).1) ∧
    ((∀ d, c.resolve s.node s.index = .ok d → d.asks? = none) → t = s) ∧
    ∀ cs,
      (t.run H cs).1.map (Except.map Reply.unkept) =
        (s.run H cs).1.map (Except.map Reply.unkept) ∧
      (∀ as' c', ((t.run H cs).2.step H (.construct as' c')).1 =
        ((s.run H cs).2.step H (.construct as' c')).1) ∧
      KeepsMore t.pool.Keeps (s.run H cs).2 (t.run H cs).2 := by
  intro t
  have hs := h.wellFormed
  have ht : t.Reachable H := h.step _
  obtain ⟨q, hq, hder, hkeeps, hnone⟩ := hs.exists_pool_of_refused hrefused
  obtain rfl : t.pool = q := congrArg Session.pool hq
  have hmore : KeepsMore t.pool.Keeps s t := by
    refine ⟨hq, hder.sameButKept, fun m => ?_, fun m hm => ?_⟩
    · have halive : t.pool.Keeps m → s.pool.Alive m := fun hm =>
        hder.sameRecords.alive_iff.mp (Pool.alive_of_derived hm)
      exact ⟨fun hm => .inr ⟨halive hm, hm⟩, fun hm => hm.elim hder.keeps And.right⟩
    · rw [← hder.sameRecords.allocated]
      exact Pool.lt_allocated (Pool.alive_of_derived hm)
  refine ⟨hq, hder.sameButKept, hmore.liveCount_eq, hkeeps, fun m free hm => ?_, fun hask => ?_,
    fun cs => ?_⟩
  · rw [ht.wellFormed.pool.derived.eq hm, hder.openIndices_congr hs.pool.closed,
      (hs.pool.freeIndices_spec m).free_eq]
  · exact hq.trans (by rw [hnone hask])
  · obtain ⟨hreplies, hend⟩ := hmore.run h ht cs
    exact ⟨hreplies, fun as' c' =>
      hend.reply_construct (h.run cs).wellFormed (ht.run cs).wellFormed as' c', hend⟩

/-- A sum of a matrix over the index of its rows is refused, since a matrix is not an entry of it.
It is known of the matrix then that no indices are free in it, and of the entry it is not. The sum
of the entry is made as if nothing had been asked before. -/
theorem refused_sum_of_matrix :
    let H : NodeHash := fun _ _ => 0
    let c : Construction Name Name := .indexSum "a" ["i"]
    let d : Construction Name Name := .indexSum "x" ["i"]
    let s := entryOfMatrix
    let t := (s.step H (.construct none c)).2
    s.Reachable H ∧
      (s.step H (.construct none c)).1 =
        .error (.expression (.invalidNode (.indexNotFree "IndexSum" "i_0"))) ∧
      ¬ s.pool.Keeps 0 ∧ t.pool.Keeps 0 ∧ ¬ t.pool.Keeps 1 ∧
      (t.step H (.construct none d)).1 = (s.step H (.construct none d)).1 := by
  intro H c d s t
  obtain ⟨hs, -⟩ := reachable_entryOfMatrix
  have hrefused : (s.step H (.construct none c)).1 =
      .error (.expression (.invalidNode (.indexNotFree "IndexSum" "i_0"))) := by decide +kernel
  obtain ⟨-, -, -, hkeeps, -, -, hlater⟩ := hs.refused hrefused
  have hnone : ∀ n, n ≤ 1 → ¬ s.pool.Keeps n := by decide +kernel
  refine ⟨hs, hrefused, hnone 0 (Nat.zero_le 1), ?_, ?_, (hlater []).2.1 none d⟩
  · exact (hkeeps 0).mpr (.inr ⟨_, 0, rfl, rfl, .refl 0⟩)
  · rw [hkeeps]
    rintro (hkept | ⟨e, a, he, ha, hreach⟩)
    · exact hnone 1 (Nat.le_refl 1) hkept
    · obtain rfl := Except.ok.inj he
      obtain rfl := Option.some.inj ha
      exact absurd hreach.le (by decide)

end Session

end TensorCost
