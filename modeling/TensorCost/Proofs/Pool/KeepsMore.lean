import TensorCost.Proofs.Cost.Footprint
import TensorCost.Proofs.Pool.Recipe

/-!
# Pools that differ in what is kept

Two pools that are the same but for free indices kept in one of them stay so when the same is done
in both: every operation gives the same result, and what is kept in the one alone is kept there
until the node dies.

* `Pool.KeepsMore` says that one pool is another with free indices kept of some more nodes.

Results, for two such pools:
* `KeepsMore.retain`, `KeepsMore.releaseAll`, `KeepsMore.intern`: holding nodes, releasing and
  making them.
* `KeepsMore.derive`: any operation that derives the free indices of the same nodes in both.
* `KeepsMore.construct`, `KeepsMore.chain`, `KeepsMore.price`, `KeepsMore.count`: the results are
  equal, and the pools differ as before.
-/

namespace TensorCost

namespace Construction

variable {ν ι : Type}

/-- The operand whose free indices a construction asks for, if it does. -/
def asks? : Construction ν ι → Option ν
  | indexSum a bound | componentTensor a bound => if bound.isEmpty then none else some a
  | _ => none

theorem mem_operands_of_asks? {c : Construction ν ι} {a : ν} (h : c.asks? = some a) :
    a ∈ c.operands := by
  cases c with
  | indexSum b bound | componentTensor b bound =>
    simp only [asks?] at h
    split at h
    · cases h
    · obtain rfl := Option.some.inj h
      exact List.mem_singleton_self _
  | _ => cases h

theorem mapOperands_id (c : Construction ν ι) : c.mapOperands id = c := by
  cases c <;> simp [mapOperands]

end Construction

namespace Pool

variable {H : NodeHash} {more : NodeId → Prop} {p q p' q' : Pool} {held held' : Multiset NodeId}
  {n m : NodeId} {ns : List NodeId} {k : Kind} {ops : List NodeId}

/-- Whether `q` is `p` with free indices kept of the nodes in `more` as well, as long as these
live. -/
structure KeepsMore (more : NodeId → Prop) (p q : Pool) : Prop where
  same : SameButKept p q
  keeps_iff : ∀ n, q.Keeps n ↔ p.Keeps n ∨ p.Alive n ∧ more n
  old : ∀ n, more n → n < p.allocated

/-! ## Cells without what is kept -/

theorem SameButKept.sameRecords (h : SameButKept p q) : SameRecords p q where
  buckets := h.buckets
  allocated := h.allocated
  record n := by
    have hn := congrArg (Option.map fun c : Cell => (c.kind, c.operands, c.hash)) (h.cells n)
    rw [Option.map_map, Option.map_map] at hn
    exact hn

theorem SameButKept.cell {c : Cell} (h : SameButKept p q) (hc : p.cell? n = some c) :
    ∃ d, q.cell? n = some d ∧ d.unkept = c.unkept := by
  have hn := h.cells n
  rw [hc, Option.map_some] at hn
  exact Option.map_eq_some_iff.mp hn

theorem SameRecords.referenceCounts_eq (h : SameRecords p q) (roots : List NodeId) :
    q.referenceCounts roots = p.referenceCounts roots := by
  unfold referenceCounts
  rw [h.traverse_eq, funext h.operands_eq]

/-- Nothing but kept free indices changes on either side. -/
theorem SameButKept.congr (h : SameButKept p q) (hp : SameButKept p p') (hq : SameButKept q q') :
    SameButKept p' q' where
  cells n := (hq.cells n).trans ((h.cells n).trans (hp.cells n).symm)
  allocated := hq.allocated.trans (h.allocated.trans hp.allocated.symm)
  buckets := hq.buckets.trans (h.buckets.trans hp.buckets.symm)
  lookups := hq.lookups.trans (h.lookups.trans hp.lookups.symm)
  hits := hq.hits.trans (h.hits.trans hp.hits.symm)

theorem map_unkept_congr {f : Cell → Cell} (hf : ∀ c, (f c).unkept = (f c.unkept).unkept)
    {x y : Option Cell} (h : x.map Cell.unkept = y.map Cell.unkept) :
    (x.map f).map Cell.unkept = (y.map f).map Cell.unkept := by
  cases x <;> cases y <;> simp only [Option.map_none, Option.map_some, Option.some.injEq,
    reduceCtorEq] at h ⊢
  rename_i c d
  rw [hf c, h, ← hf d]

/-! ## Turns of a cascade -/

theorem releaseAll_cons_of_dead (hn : p.cell? n = none) :
    p.releaseAll (n :: ns) = p.releaseAll ns := by
  rw [releaseAll]
  split
  · rfl
  · rename_i c hc
    rw [hn] at hc
    cases hc

theorem releaseAll_cons_of_cell {c : Cell} (hc : p.cell? n = some c) :
    p.releaseAll (n :: ns) =
      if c.holds ≤ 1 then (p.remove n c.hash).releaseAll (c.operands ++ ns)
      else (p.setCell n { c with holds := c.holds - 1 }).releaseAll ns := by
  rw [releaseAll]
  split
  · rename_i hn
    rw [hc] at hn
    cases hn
  · rename_i d hd
    rw [hc] at hd
    obtain rfl := Option.some.inj hd
    rfl

theorem buckets_allocate (hash : UInt64) :
    (p.allocate hash k ops).2.buckets =
      p.buckets.alter hash fun bucket => some (bucket.getD [] ++ [p.allocated]) := by
  have hsame : SameRecords p (p.retainAll ops) := sameRecords_retainAll ops
  rw [← hsame.buckets, ← hsame.allocated]
  rfl

theorem alive_allocate_iff (hash : UInt64) :
    (p.allocate hash k ops).2.Alive m ↔ m = p.allocated ∨ p.Alive m := by
  unfold Alive
  rw [cell?_allocate]
  split
  · rename_i hm
    simp [hm]
  · rename_i hm
    simp [hm]

theorem examined_eq (c : Construction NodeId Index) :
    p.examined c = match c.asks? with
      | none => p
      | some a => (p.freeIndices a).2 := by
  cases c with
  | indexSum a bound | componentTensor a bound =>
    by_cases hbound : bound.isEmpty = true <;> simp [examined, Construction.asks?, hbound]
  | _ => rfl

/-- **Looking at the arguments** of a construction keeps free indices of the operand that it asks
about, and of the nodes below. -/
theorem keeps_examined_iff {c : Construction NodeId Index} (hclosed : p.Closed) (hp : p.Derived)
    (halive : ∀ m ∈ c.operands, p.Alive m) :
    (p.examined c).Keeps m ↔ p.Keeps m ∨ ∃ a, c.asks? = some a ∧ p.Reaches a m := by
  rw [examined_eq]
  cases hasks : c.asks? with
  | none => simp
  | some a =>
    rw [keeps_freeIndices_iff hclosed hp]
    simp [halive a (Construction.mem_operands_of_asks? hasks)]

namespace KeepsMore

theorem alive_iff (h : KeepsMore more p q) : q.Alive n ↔ p.Alive n := h.same.sameRecords.alive_iff

/-! ## Holds -/

/-- An update of holds that is the same in both pools. -/
theorem of_map {f : NodeId → Cell → Cell} (h : KeepsMore more p q)
    (hp : ∀ m, p'.cell? m = (p.cell? m).map (f m)) (hq : ∀ m, q'.cell? m = (q.cell? m).map (f m))
    (hf : ∀ m c, (f m c).unkept = (f m c.unkept).unkept) (hfree : ∀ m c, (f m c).free = c.free)
    (hpcounts : Counts p p' 0 0 0) (hqcounts : Counts q q' 0 0 0)
    (hpbuckets : p'.buckets = p.buckets) (hqbuckets : q'.buckets = q.buckets) :
    KeepsMore more p' q' where
  same :=
    { cells := fun m => by
        rw [hp, hq]
        exact map_unkept_congr (hf m) (h.same.cells m)
      allocated := hqcounts.allocated.trans (h.same.allocated.trans hpcounts.allocated.symm)
      buckets := hqbuckets.trans (h.same.buckets.trans hpbuckets.symm)
      lookups := hqcounts.lookups.trans (h.same.lookups.trans hpcounts.lookups.symm)
      hits := hqcounts.hits.trans (h.same.hits.trans hpcounts.hits.symm) }
  keeps_iff m := by
    have halive : p'.Alive m ↔ p.Alive m := by
      unfold Alive
      rw [hp, Option.isSome_map]
    unfold Keeps
    rw [derived?_of_map (hp m) (hfree m), derived?_of_map (hq m) (hfree m), halive]
    exact h.keeps_iff m
  old m hm := by
    rw [hpcounts.allocated]
    exact h.old m hm

theorem retain (h : KeepsMore more p q) (n : NodeId) :
    KeepsMore more (p.retain n) (q.retain n) := by
  refine h.of_map cell?_retain cell?_retain (fun m c => ?_) (fun m c => ?_) counts_retain
    counts_retain sameRecords_retain.buckets sameRecords_retain.buckets
  all_goals split <;> rfl

theorem retainAll (h : KeepsMore more p q) (ns : List NodeId) :
    KeepsMore more (p.retainAll ns) (q.retainAll ns) := by
  induction ns generalizing p q with
  | nil => exact h
  | cons n ns ih => exact ih (h.retain n)

theorem drop {c d : Cell} (h : KeepsMore more p q) (hc : p.cell? n = some c)
    (hd : q.cell? n = some d) :
    KeepsMore more (p.setCell n { c with holds := c.holds - 1 })
      (q.setCell n { d with holds := d.holds - 1 }) := by
  let f : Cell → Cell := fun c => { c with holds := c.holds - 1 }
  refine h.of_map (cell?_setCell_map hc f) (cell?_setCell_map hd f) (fun m c => ?_) (fun m c => ?_)
    (counts_setCell n _) (counts_setCell n _) rfl rfl
  all_goals split <;> rfl

/-- A node dies in both pools. -/
theorem remove (h : KeepsMore more p q) (n : NodeId) (hash : UInt64) :
    KeepsMore more (p.remove n hash) (q.remove n hash) where
  same :=
    { cells := fun m => by
        rw [cell?_remove, cell?_remove]
        split
        · rfl
        · exact h.same.cells m
      allocated := by
        rw [allocated_remove, allocated_remove, h.same.allocated]
      buckets := by
        show q.buckets.alter hash _ = p.buckets.alter hash _
        rw [h.same.buckets]
      lookups := h.same.lookups
      hits := h.same.hits }
  keeps_iff m := by
    unfold Keeps Alive derived?
    rw [cell?_remove, cell?_remove]
    split
    · simp
    · exact h.keeps_iff m
  old m hm := by
    rw [allocated_remove]
    exact h.old m hm

theorem releaseAll (h : KeepsMore more p q) (work : List NodeId) :
    KeepsMore more (p.releaseAll work) (q.releaseAll work) := by
  -- the cascade takes the same turns in both pools, since holds and operands are the same
  fun_induction p.releaseAll work generalizing q with
  | case1 p =>
    rw [releaseAll_nil]
    exact h
  | case2 p n rest hdead ih =>
    have hdead' : q.cell? n = none := not_alive_iff.mp fun hn =>
      not_alive_iff.mpr hdead (h.alive_iff.mp hn)
    rw [releaseAll_cons_of_dead hdead']
    exact ih h
  | case3 p n rest c hc hlast ih =>
    obtain ⟨d, hd, hdc⟩ := h.same.cell hc
    obtain ⟨-, hops, hhash, hholds, -⟩ := Cell.mk.inj hdc
    rw [releaseAll_cons_of_cell hd, if_pos (hholds ▸ hlast), hops, hhash]
    exact ih (h.remove n c.hash)
  | case4 p n rest c hc hlast ih =>
    obtain ⟨d, hd, hdc⟩ := h.same.cell hc
    obtain ⟨-, -, -, hholds, -⟩ := Cell.mk.inj hdc
    rw [releaseAll_cons_of_cell hd, if_neg (hholds ▸ hlast)]
    exact ih (h.drop hc hd)

/-! ## Making nodes -/

theorem counters (h : KeepsMore more p q) (lookups hits : Nat) :
    KeepsMore more { p with lookups := lookups, hits := hits }
      { q with lookups := lookups, hits := hits } where
  same := ⟨h.same.cells, h.same.allocated, h.same.buckets, rfl, rfl⟩
  keeps_iff := h.keeps_iff
  old := h.old

theorem allocate (h : KeepsMore more p q) (hash : UInt64) (k : Kind) (ops : List NodeId) :
    KeepsMore more (p.allocate hash k ops).2 (q.allocate hash k ops).2 where
  same :=
    { cells := fun m => by
        rw [cell?_allocate, cell?_allocate, h.same.allocated]
        split
        · rfl
        · exact map_unkept_congr (fun _ => rfl) (h.same.cells m)
      allocated := by
        rw [allocated_allocate, allocated_allocate, h.same.allocated]
      buckets := by
        rw [buckets_allocate, buckets_allocate, h.same.buckets, h.same.allocated]
      lookups := (counts_retainAll ops).lookups.trans
        (h.same.lookups.trans (counts_retainAll ops).lookups.symm)
      hits := (counts_retainAll ops).hits.trans
        (h.same.hits.trans (counts_retainAll ops).hits.symm) }
  keeps_iff m := by
    unfold Keeps
    rw [derived?_allocate, derived?_allocate, alive_allocate_iff]
    -- the new node has a number that none of those in `more` has
    have hnew : m = p.allocated → ¬ more m := fun hm hmore =>
      Nat.ne_of_lt (h.old m hmore) hm
    refine (h.keeps_iff m).trans (or_congr_right (and_congr_left fun hmore => ?_))
    exact (or_iff_right fun hm => hnew hm hmore).symm
  old m hm := by
    rw [allocated_allocate]
    exact Nat.lt_succ_of_lt (h.old m hm)

/-- **Asking for a node** finds or makes the same one in both pools. -/
theorem intern (h : KeepsMore more p q) (hp : p.WellFormed H held) (hq : q.WellFormed H held')
    (k : Kind) (ops : List NodeId) :
    (q.intern H k ops).1 = (p.intern H k ops).1 ∧
      KeepsMore more (p.intern H k ops).2 (q.intern H k ops).2 := by
  have hsame := h.same.sameRecords
  by_cases hfound : ∃ n, p.node? n = some (k, ops)
  · obtain ⟨n, hn⟩ := hfound
    rw [hp.intern_of_node hn, hq.intern_of_node ((hsame.node?_eq n).trans hn), h.same.lookups,
      h.same.hits]
    exact ⟨rfl, (h.counters _ _).retain n⟩
  · have hmiss : ∀ n, p.node? n ≠ some (k, ops) := fun n hn => hfound ⟨n, hn⟩
    have hhash : q.hashOf = p.hashOf := funext hsame.hashOf_eq
    rw [hp.intern_of_forall_ne hmiss, hq.intern_of_forall_ne fun n => hsame.node?_eq n ▸ hmiss n,
      hhash, h.same.lookups, h.same.hits, allocate_fst, allocate_fst]
    have hcounted := h.counters (p.lookups + 1) p.hits
    exact ⟨hcounted.same.allocated, hcounted.allocate _ k ops⟩

/-! ## Deriving free indices -/

/-- **Deriving in both pools** the free indices of the same nodes. -/
theorem derive {asked : NodeId → Prop} (h : KeepsMore more p q) (hp : Derivation p p')
    (hq : Derivation q q') (hpkeeps : ∀ m, p'.Keeps m ↔ p.Keeps m ∨ asked m)
    (hqkeeps : ∀ m, q'.Keeps m ↔ q.Keeps m ∨ asked m) : KeepsMore more p' q' where
  same := h.same.congr hp.sameButKept hq.sameButKept
  keeps_iff m := by
    rw [hqkeeps, hpkeeps, h.keeps_iff, hp.sameRecords.alive_iff, or_right_comm]
  old m hm := by
    rw [hp.sameRecords.allocated]
    exact h.old m hm

/-- The free indices of a node are the same in both pools, and are kept in both then. -/
theorem freeIndices (h : KeepsMore more p q) (hp : p.WellFormed H held)
    (hq : q.WellFormed H held') (n : NodeId) :
    (q.freeIndices n).1 = (p.freeIndices n).1 ∧
      KeepsMore more (p.freeIndices n).2 (q.freeIndices n).2 := by
  have hsame := h.same.sameRecords
  refine ⟨?_, ?_⟩
  · rw [(hq.freeIndices_spec n).free_eq, (hp.freeIndices_spec n).free_eq,
      hsame.openIndices_eq hp.closed]
  · refine h.derive (hp.freeIndices_spec n).derivation (hq.freeIndices_spec n).derivation
      (fun m => keeps_freeIndices_iff hp.closed hp.derived) fun m => ?_
    rw [keeps_freeIndices_iff hq.closed hq.derived, h.alive_iff, hsame.reaches_iff]

theorem examined (h : KeepsMore more p q) (hp : p.WellFormed H held) (hq : q.WellFormed H held')
    (c : Construction NodeId Index) : KeepsMore more (p.examined c) (q.examined c) := by
  rw [examined_eq, examined_eq]
  cases c.asks? with
  | none => exact h
  | some a => exact (h.freeIndices hp hq a).2

theorem price (h : KeepsMore more p q) (hp : p.WellFormed H held) (hq : q.WellFormed H held')
    (n : NodeId) :
    (q.price n).1 = (p.price n).1 ∧ KeepsMore more (p.price n).2 (q.price n).2 := by
  have hsame := h.same.sameRecords
  obtain ⟨hprice, hder⟩ := price_spec hp.closed hp.derived n
  obtain ⟨hprice', hder'⟩ := price_spec hq.closed hq.derived n
  refine ⟨?_, ?_⟩
  · rw [hprice, hprice', hsame.cost_eq hp.closed]
  · refine h.derive hder hder' (fun m => keeps_price_iff hp.closed hp.derived) fun m => ?_
    rw [keeps_price_iff hq.closed hq.derived, hsame.reaches_iff]
    unfold Computes
    rw [hsame.kind?_eq]

/-! ## Operations -/

/-- **A construction** is refused for the same reason in both pools, or answered with the same
node. -/
theorem construct {c : Construction NodeId Index} (h : KeepsMore more p q)
    (hp : p.WellFormed H held) (hq : q.WellFormed H held') (halive : ∀ m ∈ c.operands, p.Alive m) :
    (q.construct H c).1 = (p.construct H c).1 ∧
      KeepsMore more (p.construct H c).2 (q.construct H c).2 := by
  have hsame := h.same.sameRecords
  have hout : outcome (q.construct H c) = outcome (p.construct H c) := by
    rw [← c.mapOperands_id]
    exact construct_congr (fun a _ => hsame.kind?_eq a) fun a _ => (h.freeIndices hp hq a).1
  have hexamined := h.examined hp hq c
  rcases construct_cases (H := H) hp.closed hp.derived halive with
    ⟨k, hk, -, hbuild⟩ | ⟨-, e, herror⟩
  · rcases construct_cases (H := H) hq.closed hq.derived fun m hm => h.alive_iff.mpr (halive m hm)
      with ⟨k', hk', -, hbuild'⟩ | ⟨-, e, herror⟩
    · obtain rfl := Option.some.inj (hk.symm.trans hk')
      obtain ⟨hnode, hmore⟩ := hexamined.intern (hp.examined c) (hq.examined c) k c.operands
      rw [hbuild, hbuild']
      exact ⟨congrArg Except.ok hnode, hmore⟩
    · rw [hbuild, herror] at hout
      cases hout
  · rcases construct_cases (H := H) hq.closed hq.derived fun m hm => h.alive_iff.mpr (halive m hm)
      with ⟨k', hk', -, hbuild'⟩ | ⟨-, e', herror'⟩
    · rw [hbuild', herror] at hout
      cases hout
    · rw [herror, herror'] at hout ⊢
      exact ⟨congrArg Except.error (Except.error.inj hout), hexamined⟩

/-- A chain makes the same links in both pools. -/
theorem chain {c : Chain} {other? : Option NodeId} {times : Nat} {e : NodeId}
    (h : KeepsMore more p q) (hp : p.WellFormed H (e ::ₘ held)) (hq : q.WellFormed H (e ::ₘ held))
    (hother : ∀ o ∈ other?, o ∈ held) :
    (c.run H other? times e q).1 = (c.run H other? times e p).1 ∧
      KeepsMore more (c.run H other? times e p).2 (c.run H other? times e q).2 := by
  induction times generalizing e p q with
  | zero => exact ⟨rfl, h⟩
  | succ times ih =>
    have halive := alive_operands_link (c := c) hp hother
    have hlink := (construct_moves hp halive).wellFormed hp
    have hlink' := (construct_moves hq fun m hm => h.alive_iff.mpr (halive m hm)).wellFormed hq
    obtain ⟨hmade, hmore⟩ := h.construct hp hq halive
    unfold Chain.run
    cases hresult : p.construct H (c.link e (other?.getD e)) with
    | mk result r =>
    cases hresult' : q.construct H (c.link e (other?.getD e)) with
    | mk result' r' =>
    rw [hresult] at hlink hmade hmore
    rw [hresult'] at hlink' hmade hmore
    obtain rfl : result' = result := hmade
    cases result' with
    | error err => exact ⟨rfl, hmore.releaseAll [e]⟩
    | ok n =>
      simp only [heldBy, Multiset.singleton_add] at hlink hlink'
      rw [Multiset.cons_swap] at hlink hlink'
      exact ih (hmore.releaseAll [e]) ((release_moves hlink).wellFormed hlink)
        ((release_moves hlink').wellFormed hlink')

/-- Totals added up from the same number on. -/
theorem foldPrices_addFlops (h : KeepsMore more p q) (hp : p.WellFormed H held)
    (hq : q.WellFormed H held') (total : Nat) (ns : List NodeId) :
    (foldPrices addFlops q total ns).1 = (foldPrices addFlops p total ns).1 ∧
      KeepsMore more (foldPrices addFlops p total ns).2 (foldPrices addFlops q total ns).2 := by
  induction ns generalizing p q total with
  | nil => exact ⟨rfl, h⟩
  | cons n ns ih =>
    have hder : Moves H (p, held) ((p.price n).2, held) :=
      (price_spec hp.closed hp.derived n).2.moves
    have hder' : Moves H (q, held') ((q.price n).2, held') :=
      (price_spec hq.closed hq.derived n).2.moves
    obtain ⟨hprice, hmore⟩ := h.price hp hq n
    unfold foldPrices
    cases hresult : p.price n with
    | mk result r =>
    cases hresult' : q.price n with
    | mk result' r' =>
    rw [hresult] at hder hprice hmore
    rw [hresult'] at hder' hprice hmore
    obtain rfl : result' = result := hprice
    cases result' with
    | error e => exact ⟨rfl, hmore⟩
    | ok flops =>
      simp only [hmore.same.sameRecords.addFlops_eq]
      cases r.addFlops total n flops with
      | error e => exact ⟨rfl, hmore⟩
      | ok total' => exact ih hmore (hder.wellFormed hp) (hder'.wellFormed hq) total'

/-- **A count** comes to the same in both pools. -/
theorem count (h : KeepsMore more p q) (hp : p.WellFormed H held) (hq : q.WellFormed H held')
    (roots : List NodeId) :
    (q.count roots).1 = (p.count roots).1 ∧ KeepsMore more (p.count roots).2 (q.count roots).2 := by
  unfold Pool.count
  rw [h.same.sameRecords.traverse_eq]
  exact h.foldPrices_addFlops hp hq 0 _

/-- **An analysis** makes the same report in both pools. -/
theorem analyze (h : KeepsMore more p q) (hp : p.WellFormed H held) (hq : q.WellFormed H held')
    (a : Analyzer) (roots : List NodeId) :
    (a.analyze q roots).1 = (a.analyze p roots).1 ∧
      KeepsMore more (a.analyze p roots).2 (a.analyze q roots).2 := by
  have hsame := h.same.sameRecords
  refine ⟨?_, ?_⟩
  · rw [(a.analyze_spec hp.closed hp.derived roots).1,
      (a.analyze_spec hq.closed hq.derived roots).1]
    unfold Analyzer.draft foldCosts
    rw [hsame.traverse_eq, hsame.referenceCounts_eq,
      Analyzer.addNode_congr hsame fun n => (h.freeIndices hp hq n).1,
      funext (hsame.cost_eq hp.closed)]
  · rw [a.analyze_snd, a.analyze_snd]
    exact (h.count hp hq roots).2

end KeepsMore

end Pool

end TensorCost
