import TensorCost.Proofs.Pool.Liveness
import TensorCost.Proofs.Pool.Operation

/-!
# Counters

A pool counts how often a node was asked for and how often it was there already, before it is known
whether a node has to be made. Nothing else touches these counters, so together with the number of
nodes made so far they are in balance at all times; and a node that has been made either lives or
has died, and dies once only.

* `Pool.Counts` says by how much the counters grow, and `Pool.SameButKept` that nothing changes but
  the free indices that are kept.
* `Pool.Balanced`: every node that was asked for was there or was made.
* `Pool.died` lists the nodes that die between two pools.

Results:
* `WellFormed.construct_counts`, `WellFormed.construct_refused`: what a construction counts, and
  what one that is refused leaves.
* `Moves.balanced`: operations keep the counters in balance.
* `Evolves.liveCount_add_died`: what lived or was made lives on or has died.
-/

namespace TensorCost

/-- The cell without the free indices kept in it. -/
def Cell.unkept (c : Cell) : Cell := { c with free := .pending }

namespace Pool

/-- The counters grow by the given numbers. -/
structure Counts (p q : Pool) (lookups hits made : Nat) : Prop where
  lookups : q.lookups = p.lookups + lookups
  hits : q.hits = p.hits + hits
  allocated : q.allocated = p.allocated + made

/-- Whether `q` differs from `p` at most in the free indices that are kept. -/
structure SameButKept (p q : Pool) : Prop where
  cells : ∀ n, (q.cell? n).map Cell.unkept = (p.cell? n).map Cell.unkept
  allocated : q.allocated = p.allocated
  buckets : q.buckets = p.buckets
  lookups : q.lookups = p.lookups
  hits : q.hits = p.hits

/-- Whether every node that was asked for was there or was made. -/
def Balanced (p : Pool) : Prop := p.hits + p.allocated = p.lookups

/-- The nodes that lived in `p` or have been made since, and do not live in `q`. -/
def died (p q : Pool) : List NodeId :=
  (p.living ++ List.range' p.allocated (q.allocated - p.allocated)).filter fun n => !q.Alive n

variable {H : NodeHash} {p q r : Pool} {held : Multiset NodeId} {n : NodeId} {k : Kind}
  {ops : List NodeId} {c : Construction NodeId Index}

/-! ## Updates that count nothing -/

theorem Counts.trans {l h m l' h' m' : Nat} (hpq : Counts p q l h m) (hqr : Counts q r l' h' m') :
    Counts p r (l + l') (h + h') (m + m') where
  lookups := by rw [hqr.lookups, hpq.lookups, Nat.add_assoc]
  hits := by rw [hqr.hits, hpq.hits, Nat.add_assoc]
  allocated := by rw [hqr.allocated, hpq.allocated, Nat.add_assoc]

theorem counts_refl (p : Pool) : Counts p p 0 0 0 := ⟨rfl, rfl, rfl⟩

theorem counts_setCell (n : NodeId) (d : Cell) : Counts p (p.setCell n d) 0 0 0 :=
  ⟨rfl, rfl, allocated_setCell⟩

theorem counts_retain : Counts p (p.retain n) 0 0 0 := by
  unfold retain
  split
  · exact counts_setCell n _
  · exact counts_refl p

theorem counts_retainAll (ns : List NodeId) : Counts p (p.retainAll ns) 0 0 0 := by
  induction ns generalizing p with
  | nil => exact counts_refl p
  | cons n ns ih => exact counts_retain.trans (ih (p := p.retain n))

theorem counts_remove (hash : UInt64) : Counts p (p.remove n hash) 0 0 0 :=
  ⟨rfl, rfl, allocated_remove hash⟩

theorem counts_setFree (free : List Index) : Counts p (p.setFree n free) 0 0 0 := by
  unfold setFree
  split
  · exact counts_setCell n _
  · exact counts_refl p

theorem counts_releaseAll (p : Pool) (work : List NodeId) :
    Counts p (p.releaseAll work) 0 0 0 := by
  fun_induction p.releaseAll work with
  | case1 p => exact counts_refl p
  | case2 p n rest hdead ih => exact ih
  | case3 p n rest c hc hlast ih => exact (counts_remove c.hash).trans ih
  | case4 p n rest c hc hlast ih => exact (counts_setCell n _).trans ih

theorem sameButKept_setFree (free : List Index) : SameButKept p (p.setFree n free) where
  cells m := by
    rw [cell?_setFree, Option.map_map]
    congr 1
    funext c
    simp only [Function.comp_apply]
    split <;> rfl
  allocated := (counts_setFree free).allocated
  buckets := (sameRecords_setFree free).buckets
  lookups := (counts_setFree free).lookups
  hits := (counts_setFree free).hits

theorem Derivation.sameButKept (h : Derivation p q) : SameButKept p q := by
  induction h with
  | refl => exact ⟨fun _ => rfl, rfl, rfl, rfl, rfl⟩
  | @tail q r _ hstep ih =>
    cases hstep with
    | @keep n _ =>
      have hlast : SameButKept q (q.setFree n (q.openIndices n)) := sameButKept_setFree _
      exact ⟨fun m => (hlast.cells m).trans (ih.cells m), hlast.allocated.trans ih.allocated,
        hlast.buckets.trans ih.buckets, hlast.lookups.trans ih.lookups, hlast.hits.trans ih.hits⟩

theorem Derivation.counts (h : Derivation p q) : Counts p q 0 0 0 :=
  ⟨h.sameButKept.lookups, h.sameButKept.hits, h.sameButKept.allocated⟩

/-! ## Making nodes -/

theorem lookups_intern (p : Pool) (k : Kind) (ops : List NodeId) :
    (p.intern H k ops).2.lookups = p.lookups + 1 := by
  unfold intern
  simp only
  split
  · exact counts_retain.lookups
  · exact (counts_retainAll ops).lookups

/-- Asking for a node counts a look-up, and a hit or a new node. -/
theorem WellFormed.counts_intern (hp : p.WellFormed H held) (k : Kind) (ops : List NodeId) :
    Counts p (p.intern H k ops).2 1 (if p.Alive (p.intern H k ops).1 then 1 else 0)
      (if p.Alive (p.intern H k ops).1 then 0 else 1) := by
  by_cases hfound : ∃ n, p.node? n = some (k, ops)
  · rw [if_pos ((hp.alive_intern_iff k ops).mpr hfound),
      if_pos ((hp.alive_intern_iff k ops).mpr hfound)]
    obtain ⟨n, hn⟩ := hfound
    rw [hp.intern_of_node hn]
    have hcounters : Counts p { p with lookups := p.lookups + 1, hits := p.hits + 1 } 1 1 0 :=
      ⟨rfl, rfl, rfl⟩
    exact hcounters.trans counts_retain
  · rw [if_neg (mt (hp.alive_intern_iff k ops).mp hfound),
      if_neg (mt (hp.alive_intern_iff k ops).mp hfound),
      hp.intern_of_forall_ne fun n hn => hfound ⟨n, hn⟩]
    have hretain := counts_retainAll (p := { p with lookups := p.lookups + 1 }) ops
    exact ⟨hretain.lookups, hretain.hits, allocated_allocate⟩

/-- **A construction that is not refused** counts one look-up, and a hit iff the node that it
answers with was alive before; if not, it makes one node. -/
theorem WellFormed.construct_counts (hp : p.WellFormed H held)
    (halive : ∀ m ∈ c.operands, p.Alive m) (hmade : p.construct H c = (.ok n, q)) :
    Counts p q 1 (if p.Alive n then 1 else 0) (if p.Alive n then 0 else 1) := by
  have hder := examined_derivation hp.closed hp.derived c
  rcases construct_cases (H := H) hp.closed hp.derived halive with
    ⟨k, -, -, hbuild⟩ | ⟨-, e, herror⟩
  · have hintern := (hp.examined c).counts_intern k c.operands
    rw [intern_eq_of_build (hbuild ▸ hmade)] at hintern
    simp only [hder.sameRecords.alive_iff] at hintern
    simpa only [Nat.zero_add] using hder.counts.trans hintern
  · rw [hmade] at herror
    exact absurd (congrArg Prod.fst herror) (by simp)

/-- **A construction that is refused** changes nothing but what is kept of free indices. -/
theorem WellFormed.construct_refused {e : Error} (hp : p.WellFormed H held)
    (halive : ∀ m ∈ c.operands, p.Alive m) (h : p.construct H c = (.error e, q)) :
    SameButKept p q := by
  rcases construct_cases (H := H) hp.closed hp.derived halive with
    ⟨k, -, -, hbuild⟩ | ⟨-, e', herror⟩
  · rw [h] at hbuild
    exact absurd (congrArg Prod.fst hbuild) (by simp [build])
  · rw [h] at herror
    rw [(Prod.mk.inj herror).2]
    exact (examined_derivation hp.closed hp.derived c).sameButKept

/-- A node that is there is found, and nothing changes but the counters and its holds. -/
theorem WellFormed.construct_of_node (hp : p.WellFormed H held) (hkind : c.kind? = some k)
    (hn : p.node? n = some (k, c.operands)) :
    ∃ q, p.construct H c = (.ok n, q) ∧ SameRecords p q ∧ Counts p q 1 1 0 := by
  obtain ⟨d, hd, -, hops⟩ := node?_eq_some_iff.mp hn
  have halive : ∀ m ∈ c.operands, p.Alive m := fun m hm => (hp.closed hd m (hops ▸ hm)).2
  have hder := examined_derivation hp.closed hp.derived c
  rcases construct_cases (H := H) hp.closed hp.derived halive with
    ⟨k', hk', -, hbuild⟩ | ⟨hunfit, -⟩
  · obtain rfl := Option.some.inj (hkind.symm.trans hk')
    have hn' : (p.examined c).node? n = some (k, c.operands) := by
      rw [hder.sameRecords.node?_eq, hn]
    have hintern := (hp.examined c).intern_of_node hn'
    rw [build, hintern] at hbuild
    refine ⟨_, hbuild, ?_, ?_⟩
    · exact hder.sameRecords.trans ((sameRecords_counters _ _).trans sameRecords_retain)
    · have hcounters : Counts (p.examined c)
          { p.examined c with
            lookups := (p.examined c).lookups + 1
            hits := (p.examined c).hits + 1 } 1 1 0 := ⟨rfl, rfl, rfl⟩
      exact hder.counts.trans (hcounters.trans counts_retain)
  · exact absurd (hp.admitted hn) (hunfit k hkind)

/-! ## Balance -/

theorem balanced_empty : Balanced empty := rfl

theorem Counts.balanced {l h m : Nat} (hpq : Counts p q l h m) (hbalance : h + m = l)
    (hp : p.Balanced) : q.Balanced := by
  unfold Balanced at *
  rw [hpq.hits, hpq.allocated, hpq.lookups]
  omega

theorem Move.balanced {x y : Pool × Multiset NodeId} (h : Move H x y)
    (hx : x.1.WellFormed H x.2) (hbalanced : x.1.Balanced) : y.1.Balanced := by
  cases h with
  | retain alive => exact counts_retain.balanced rfl hbalanced
  | drop cell several => exact (counts_setCell _ _).balanced rfl hbalanced
  | die cell last => exact (counts_remove _).balanced rfl hbalanced
  | derive step => exact (Derivation.counts (.single step)).balanced rfl hbalanced
  | intern alive admits =>
    refine (hx.counts_intern _ _).balanced ?_ hbalanced
    split <;> rfl

/-- **Operations keep the counters in balance.** -/
theorem Moves.balanced {x y : Pool × Multiset NodeId} (h : Moves H x y)
    (hx : x.1.WellFormed H x.2) (hbalanced : x.1.Balanced) : y.1.Balanced := by
  induction h with
  | refl => exact hbalanced
  | tail hmoves hmove ih => exact hmove.balanced (Moves.wellFormed hmoves hx) ih

/-! ## Deaths -/

/-- The nodes that lived in `p` or have been made since. -/
theorem mem_living_or_made :
    n ∈ p.living ++ List.range' p.allocated (q.allocated - p.allocated) ↔
      p.Alive n ∨ p.allocated ≤ n ∧ n < p.allocated + (q.allocated - p.allocated) := by
  rw [List.mem_append, mem_living, List.mem_range'_1]

theorem nodup_living_or_made :
    (p.living ++ List.range' p.allocated (q.allocated - p.allocated)).Nodup := by
  refine List.nodup_append.mpr ⟨p.nodup_living, List.nodup_range', fun a ha b hb => ?_⟩
  have hlt : a < p.allocated := lt_allocated (mem_living.mp ha)
  exact Nat.ne_of_lt (Nat.lt_of_lt_of_le hlt (List.mem_range'_1.mp hb).1)

/-- **What lived or was made** lives on or has died. -/
theorem Evolves.liveCount_add_died (h : Evolves p q) :
    q.liveCount + (died p q).length = p.liveCount + (q.allocated - p.allocated) := by
  set all := p.living ++ List.range' p.allocated (q.allocated - p.allocated) with hall
  have hlength : all.length = p.liveCount + (q.allocated - p.allocated) := by
    rw [hall, List.length_append, length_living, List.length_range']
  have hlives : q.liveCount = (all.filter fun n => q.Alive n).length := by
    refine liveCount_eq_length (nodup_living_or_made.filter _) fun n => ?_
    rw [List.mem_filter, decide_eq_true_iff, hall, mem_living_or_made,
      Nat.add_sub_cancel' h.allocated_le]
    refine and_iff_right_of_imp fun hn => ?_
    by_cases hold : n < p.allocated
    · exact .inl (h.alive hold hn)
    · exact .inr ⟨Nat.le_of_not_lt hold, lt_allocated hn⟩
  rw [hlives, ← hlength, died, ← hall]
  exact (List.length_eq_length_filter_add _).symm

end Pool

end TensorCost
