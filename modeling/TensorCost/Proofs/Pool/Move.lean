import TensorCost.Proofs.Pool.Derivation

/-!
# What can happen to a pool

Every operation on a pool, also one that fails, is a sequence of `Move`s. A move changes the pool
and the holds on it from outside together:

* `retain` adds a hold on a living node;
* `drop` gives up a hold of several, and `die` the last one on a node, which then passes the holds
  on its operands on;
* `derive` keeps the free indices of a node whose operands have theirs kept;
* `intern` asks for a node and holds it.

Results:
* `Move.wellFormed`, `Moves.wellFormed`: a pool that is in order stays in order.
* `node?_intern`: asking for a node gives one with that kind and these operands, and leaves all
  other nodes as they are; `alive_intern_iff`: it is a living one iff there is one.
-/

namespace TensorCost.Pool

variable {H : NodeHash} {p q : Pool} {held : Multiset NodeId} {n m : NodeId} {c d : Cell}
  {k : Kind} {ops : List NodeId}

/-- One change of a pool together with the holds on it from outside. -/
inductive Move (H : NodeHash) : Pool × Multiset NodeId → Pool × Multiset NodeId → Prop
  | retain {p : Pool} {held : Multiset NodeId} {n : NodeId} (alive : p.Alive n) :
    Move H (p, held) (p.retain n, n ::ₘ held)
  | drop {p : Pool} {held : Multiset NodeId} {n : NodeId} {c : Cell} (cell : p.cell? n = some c)
    (several : 1 < c.holds) :
    Move H (p, n ::ₘ held) (p.setCell n { c with holds := c.holds - 1 }, held)
  | die {p : Pool} {held : Multiset NodeId} {n : NodeId} {c : Cell} (cell : p.cell? n = some c)
    (last : c.holds ≤ 1) :
    Move H (p, n ::ₘ held) (p.remove n c.hash, (c.operands : Multiset NodeId) + held)
  | derive {p q : Pool} {held : Multiset NodeId} (step : DerivationStep p q) :
    Move H (p, held) (q, held)
  | intern {p : Pool} {held : Multiset NodeId} {k : Kind} {ops : List NodeId}
    (alive : ∀ m ∈ ops, p.Alive m) (admits : p.Admits k ops) :
    Move H (p, held) ((p.intern H k ops).2, (p.intern H k ops).1 ::ₘ held)

/-- Any number of moves. -/
abbrev Moves (H : NodeHash) : Pool × Multiset NodeId → Pool × Multiset NodeId → Prop :=
  Relation.ReflTransGen (Move H)

/-! ## Holds -/

theorem derived?_retain (m : NodeId) : (p.retain n).derived? m = p.derived? m :=
  derived?_of_map (cell?_retain m) fun c => by split <;> rfl

theorem WellFormed.retain (hp : p.WellFormed H held) (hn : p.Alive n) :
    (p.retain n).WellFormed H (n ::ₘ held) := by
  have hsame : SameRecords p (p.retain n) := sameRecords_retain
  refine hsame.wellFormed hp ⟨fun m hm => ?_, fun m d hd => ?_, fun m d hd => ?_⟩
    (hsame.derived hp.closed hp.derived derived?_retain)
  · rcases Multiset.mem_cons.mp hm with rfl | hm
    · exact hsame.within.alive hn
    · exact hsame.within.alive (hp.counted.alive m hm)
  · rw [cell?_retain] at hd
    obtain ⟨c, hc, rfl⟩ := Option.map_eq_some_iff.mp hd
    have hholds := hp.counted.holds_eq hc
    rw [hsame.slots, Multiset.cons_add]
    by_cases hm : m = n
    · subst hm
      rw [if_pos rfl, Multiset.count_cons_self, ← hholds]
    · rw [if_neg hm, Multiset.count_cons_of_ne hm, ← hholds]
  · rw [cell?_retain] at hd
    obtain ⟨c, hc, rfl⟩ := Option.map_eq_some_iff.mp hd
    have hpos := hp.counted.holds_pos hc
    split
    · exact Nat.succ_pos _
    · exact hpos

theorem WellFormed.drop (hp : p.WellFormed H (n ::ₘ held)) (hc : p.cell? n = some c)
    (hseveral : 1 < c.holds) :
    (p.setCell n { c with holds := c.holds - 1 }).WellFormed H held := by
  have hsame := sameRecords_setHolds hc (c.holds - 1)
  have hcell := cell?_setCell_map hc fun c => { c with holds := c.holds - 1 }
  refine hsame.wellFormed hp ⟨fun m hm => ?_, fun m d hd => ?_, fun m d hd => ?_⟩
    (hsame.derived hp.closed hp.derived fun m => derived?_of_map (hcell m) fun c => by
      split <;> rfl)
  · exact hsame.within.alive (hp.counted.alive m (Multiset.mem_cons_of_mem hm))
  · rw [cell?_setCell hc] at hd
    rw [hsame.slots]
    by_cases hm : m = n
    · subst hm
      rw [if_pos rfl] at hd
      have hholds := hp.counted.holds_eq hc
      rw [Multiset.cons_add, Multiset.count_cons_self] at hholds
      obtain rfl := Option.some.inj hd
      exact Nat.sub_eq_of_eq_add hholds
    · rw [if_neg hm] at hd
      have hholds := hp.counted.holds_eq hd
      rwa [Multiset.cons_add, Multiset.count_cons_of_ne hm] at hholds
  · rw [cell?_setCell hc] at hd
    by_cases hm : m = n
    · rw [if_pos hm] at hd
      obtain rfl := Option.some.inj hd
      exact Nat.sub_pos_of_lt hseveral
    · rw [if_neg hm] at hd
      exact hp.counted.holds_pos hd

/-! ## Deaths -/

/-- A node with one hold, which is from outside, is neither held once more nor an operand. -/
theorem Counted.unused (hp : p.Counted (n ::ₘ held)) (hc : p.cell? n = some c)
    (hlast : c.holds ≤ 1) : n ∉ held ∧ n ∉ p.slots := by
  have hholds := hp.holds_eq hc
  rw [Multiset.cons_add, Multiset.count_cons_self, Multiset.count_add] at hholds
  rw [← Multiset.count_eq_zero, ← Multiset.count_eq_zero]
  omega

theorem within_of_remove (hash : UInt64) : (p.remove n hash).Within p := by
  intro m x hm
  rw [node?, cell?_remove] at hm
  split at hm
  · exact absurd hm (by simp)
  · exact hm

theorem cell?_of_remove {hash : UInt64} (hd : (p.remove n hash).cell? m = some d) :
    m ≠ n ∧ p.cell? m = some d := by
  rw [cell?_remove] at hd
  split at hd
  · exact absurd hd (by simp)
  · rename_i hm
    exact ⟨hm, hd⟩

theorem alive_remove {hash : UInt64} (hm : p.Alive m) (hne : m ≠ n) :
    (p.remove n hash).Alive m := by
  obtain ⟨d, hd⟩ := alive_iff_cell.mp hm
  exact alive_of_cell (c := d) (by rw [cell?_remove, if_neg hne, hd])

theorem Closed.remove (hp : p.Closed) (hslots : n ∉ p.slots) (hash : UInt64) :
    (p.remove n hash).Closed := by
  intro m d hd x hx
  have hd' := (cell?_of_remove hd).2
  refine ⟨(hp hd' x hx).1, alive_remove (hp hd' x hx).2 fun hxn => ?_⟩
  exact hslots (mem_slots_iff.mpr ⟨m, d, hd', hxn ▸ hx⟩)

theorem Counted.remove (hclosed : p.Closed) (hp : p.Counted (n ::ₘ held))
    (hc : p.cell? n = some c) (hlast : c.holds ≤ 1) :
    (p.remove n c.hash).Counted ((c.operands : Multiset NodeId) + held) where
  alive m hm := by
    rcases Multiset.mem_add.mp hm with hm | hm
    · obtain ⟨hlt, halive⟩ := hclosed hc m (Multiset.mem_coe.mp hm)
      exact alive_remove halive (Nat.ne_of_lt hlt)
    · refine alive_remove (hp.alive m (Multiset.mem_cons_of_mem hm)) ?_
      rintro rfl
      exact (hp.unused hc hlast).1 hm
  holds_eq m d hd := by
    obtain ⟨hne, hd⟩ := cell?_of_remove hd
    have hholds := hp.holds_eq hd
    rw [Multiset.cons_add, Multiset.count_cons_of_ne hne, slots_remove hc c.hash] at hholds
    rw [hholds]
    congr 1
    rw [add_left_comm, add_assoc]
  holds_pos m d hd := hp.holds_pos (cell?_of_remove hd).2

theorem Listed.remove (hclosed : (p.remove n c.hash).Closed) (hp : p.Listed H)
    (hc : p.cell? n = some c) : (p.remove n c.hash).Listed H where
  hash_eq m d hd := by
    rw [hp.hash_eq (cell?_of_remove hd).2]
    congr 1
    refine List.map_congr_left fun x hx => ?_
    obtain ⟨e, he⟩ := alive_iff_cell.mp (hclosed hd x hx).2
    rw [hashOf, hashOf, he, (cell?_of_remove he).2]
  mem_bucket_iff m hash := by
    have hmem : m ∈ (p.remove n c.hash).bucket hash ↔ m ∈ p.bucket hash ∧ m ≠ n := by
      rw [bucket_remove]
      by_cases hh : hash = c.hash
      · rw [if_pos hh, (hp.nodup hash).mem_erase_iff, and_comm]
      · rw [if_neg hh]
        refine ⟨fun hm => ⟨hm, ?_⟩, fun hm => hm.1⟩
        rintro rfl
        obtain ⟨d, hd, hdh⟩ := (hp.mem_bucket_iff _ _).mp hm
        rw [hc] at hd
        obtain rfl := Option.some.inj hd
        exact hh hdh.symm
    rw [hmem, hp.mem_bucket_iff]
    constructor
    · rintro ⟨⟨d, hd, hdh⟩, hne⟩
      exact ⟨d, by rw [cell?_remove, if_neg hne, hd], hdh⟩
    · rintro ⟨d, hd, hdh⟩
      obtain ⟨hne, hd⟩ := cell?_of_remove hd
      exact ⟨⟨d, hd, hdh⟩, hne⟩
  nodup hash := by
    rw [bucket_remove]
    split
    · exact (hp.nodup hash).erase n
    · exact hp.nodup hash
  noEmptyBucket := hp.noEmptyBucket.remove

theorem derived?_of_remove {hash : UInt64} (hm : (p.remove n hash).Alive m) :
    (p.remove n hash).derived? m = p.derived? m := by
  obtain ⟨d, hd⟩ := alive_iff_cell.mp hm
  rw [derived?, derived?, hd, (cell?_of_remove hd).2]

/-- Kept free indices stay right when the graph loses a node that none uses. -/
theorem Derived.remove {hash : UInt64} (hclosed : (p.remove n hash).Closed) (hp : p.Derived) :
    (p.remove n hash).Derived where
  eq m free hm := by
    have halive : (p.remove n hash).Alive m := alive_of_derived (by simp [hm])
    rw [derived?_of_remove halive] at hm
    rw [hp.eq hm]
    exact (within_of_remove hash).openIndices_eq hclosed halive
  operands m hm x hx := by
    have halive : (p.remove n hash).Alive m := alive_of_derived hm
    rw [derived?_of_remove halive] at hm
    rw [derived?_of_remove (hclosed.alive_operands hx)]
    rw [← (within_of_remove hash).operands_eq halive] at hx
    exact hp.operands hm x hx

theorem WellFormed.die (hp : p.WellFormed H (n ::ₘ held)) (hc : p.cell? n = some c)
    (hlast : c.holds ≤ 1) :
    (p.remove n c.hash).WellFormed H ((c.operands : Multiset NodeId) + held) := by
  have hclosed : (p.remove n c.hash).Closed :=
    hp.closed.remove (hp.counted.unused hc hlast).2 c.hash
  have hwithin : (p.remove n c.hash).Within p := within_of_remove c.hash
  refine ⟨hclosed, hp.counted.remove hp.closed hc hlast, hp.listed.remove hclosed hc,
    fun a b x ha hb => hp.canonical (hwithin ha) (hwithin hb), hp.derived.remove hclosed,
    fun m k ops hm => ?_⟩
  obtain ⟨d, hd, rfl, rfl⟩ := node?_eq_some_iff.mp hm
  exact (hwithin.admits_iff hclosed fun x hx => (hclosed hd x hx).2).mp
    (hp.admitted (hwithin hm))

/-! ## Free indices -/

theorem WellFormed.derive (hp : p.WellFormed H held) (h : DerivationStep p q) :
    q.WellFormed H held := by
  obtain @⟨n, hops⟩ := h
  have hsame : SameRecords p (p.setFree n (p.openIndices n)) := sameRecords_setFree _
  refine hsame.wellFormed hp ⟨fun m hm => hsame.within.alive (hp.counted.alive m hm),
    fun m d hd => ?_, fun m d hd => ?_⟩ (hp.derived.setFree hp.closed hops)
  · rw [cell?_setFree] at hd
    obtain ⟨c, hc, rfl⟩ := Option.map_eq_some_iff.mp hd
    rw [hsame.slots, ← hp.counted.holds_eq hc]
    split <;> rfl
  · rw [cell?_setFree] at hd
    obtain ⟨c, hc, rfl⟩ := Option.map_eq_some_iff.mp hd
    have hpos := hp.counted.holds_pos hc
    split <;> exact hpos

/-! ## New nodes -/

theorem not_alive_allocated : ¬ p.Alive p.allocated := fun h => Nat.lt_irrefl _ (lt_allocated h)

theorem node?_allocate (hash : UInt64) (m : NodeId) :
    (p.allocate hash k ops).2.node? m =
      if m = p.allocated then some (k, ops) else p.node? m := by
  rw [node?, cell?_allocate]
  split
  · rfl
  · rw [Option.map_map]
    rfl

theorem within_allocate (hash : UInt64) : p.Within (p.allocate hash k ops).2 := by
  intro m x hm
  rw [node?_allocate, if_neg, hm]
  rintro rfl
  exact not_alive_allocated (alive_iff_node.mpr ⟨x, hm⟩)

theorem derived?_allocate (hash : UInt64) (m : NodeId) :
    (p.allocate hash k ops).2.derived? m = p.derived? m := by
  by_cases hm : m = p.allocated
  · rw [derived?, derived?, cell?_allocate, if_pos hm,
      not_alive_iff.mp (hm ▸ not_alive_allocated : ¬ p.Alive m)]
    rfl
  · refine derived?_of_map (f := fun c => { c with holds := c.holds + ops.count m }) ?_
      fun _ => rfl
    rw [cell?_allocate, if_neg hm]

theorem hashOf_allocate (hash : UInt64) (hm : p.Alive m) :
    (p.allocate hash k ops).2.hashOf m = p.hashOf m := by
  obtain ⟨c, hc⟩ := alive_iff_cell.mp hm
  rw [hashOf, hashOf, cell?_allocate, if_neg, hc]
  · rfl
  · rintro rfl
    exact not_alive_allocated hm

theorem Closed.allocate (hp : p.Closed) (hops : ∀ m ∈ ops, p.Alive m) (hash : UInt64) :
    (p.allocate hash k ops).2.Closed := by
  intro m d hd x hx
  rw [cell?_allocate] at hd
  split at hd
  · rename_i hm
    obtain rfl := Option.some.inj hd
    exact ⟨hm ▸ lt_allocated (hops x hx), (within_allocate hash).alive (hops x hx)⟩
  · obtain ⟨c, hc, rfl⟩ := Option.map_eq_some_iff.mp hd
    exact ⟨(hp hc x hx).1, (within_allocate hash).alive (hp hc x hx).2⟩

theorem Counted.allocate (hclosed : p.Closed) (hp : p.Counted held)
    (hops : ∀ m ∈ ops, p.Alive m) (hash : UInt64) :
    (p.allocate hash k ops).2.Counted (p.allocated ::ₘ held) where
  alive m hm := by
    rcases Multiset.mem_cons.mp hm with rfl | hm
    · exact alive_of_cell (by rw [cell?_allocate, if_pos rfl])
    · exact (within_allocate hash).alive (hp.alive m hm)
  holds_eq m d hd := by
    rw [slots_of_push allocated_allocate (node?_allocate hash), Multiset.cons_add]
    rw [cell?_allocate] at hd
    split at hd
    · rename_i hm
      subst hm
      obtain rfl := Option.some.inj hd
      -- the new number is neither held nor an operand of a node
      have hheld : p.allocated ∉ held := fun h => not_alive_allocated (hp.alive _ h)
      have hslots : p.allocated ∉ p.slots := fun h => by
        obtain ⟨n, c, hc, hm⟩ := mem_slots_iff.mp h
        exact not_alive_allocated (hclosed hc _ hm).2
      have hnew : p.allocated ∉ (ops : Multiset NodeId) := fun h =>
        not_alive_allocated (hops _ (Multiset.mem_coe.mp h))
      rw [Multiset.count_cons_self, Multiset.count_add, Multiset.count_add,
        Multiset.count_eq_zero.mpr hheld, Multiset.count_eq_zero.mpr hslots,
        Multiset.count_eq_zero.mpr hnew]
    · rename_i hm
      obtain ⟨c, hc, rfl⟩ := Option.map_eq_some_iff.mp hd
      rw [Multiset.count_cons_of_ne hm, ← add_assoc, Multiset.count_add,
        ← hp.holds_eq hc, Multiset.coe_count]
  holds_pos m d hd := by
    rw [cell?_allocate] at hd
    split at hd
    · obtain rfl := Option.some.inj hd
      exact Nat.one_pos
    · obtain ⟨c, hc, rfl⟩ := Option.map_eq_some_iff.mp hd
      exact Nat.add_pos_left (hp.holds_pos hc) _

theorem Listed.allocate (hclosed : p.Closed) (hp : p.Listed H) (hops : ∀ m ∈ ops, p.Alive m) :
    (p.allocate (H k (ops.map p.hashOf)) k ops).2.Listed H where
  hash_eq m d hd := by
    have hmap : ∀ {xs : List NodeId}, (∀ x ∈ xs, p.Alive x) →
        xs.map (p.allocate (H k (ops.map p.hashOf)) k ops).2.hashOf = xs.map p.hashOf :=
      fun hxs => List.map_congr_left fun x hx => hashOf_allocate _ (hxs x hx)
    rw [cell?_allocate] at hd
    split at hd
    · obtain rfl := Option.some.inj hd
      simp only
      rw [hmap hops]
    · obtain ⟨c, hc, rfl⟩ := Option.map_eq_some_iff.mp hd
      simp only
      rw [hmap fun x hx => (hclosed hc x hx).2, hp.hash_eq hc]
  mem_bucket_iff m hash := by
    have hmem : m ∈ (p.allocate (H k (ops.map p.hashOf)) k ops).2.bucket hash ↔
        m ∈ p.bucket hash ∨ hash = H k (ops.map p.hashOf) ∧ m = p.allocated := by
      rw [bucket_allocate]
      by_cases hh : hash = H k (ops.map p.hashOf)
      · rw [if_pos hh, List.mem_append, List.mem_singleton]
        simp [hh]
      · rw [if_neg hh]
        simp [hh]
    rw [hmem, hp.mem_bucket_iff]
    by_cases hm : m = p.allocated
    · have hdead : p.cell? m = none := not_alive_iff.mp (hm ▸ not_alive_allocated)
      rw [cell?_allocate, if_pos hm, hdead]
      simp [hm, eq_comm]
    · rw [cell?_allocate, if_neg hm]
      simp [hm]
  nodup hash := by
    rw [bucket_allocate]
    split
    · refine List.nodup_append.mpr ⟨hp.nodup hash, List.nodup_singleton _, ?_⟩
      intro a ha b hb
      rw [List.mem_singleton] at hb
      rintro rfl
      obtain ⟨c, hc, -⟩ := (hp.mem_bucket_iff _ _).mp ha
      exact not_alive_allocated (hb ▸ alive_of_cell hc)
    · exact hp.nodup hash
  noEmptyBucket := hp.noEmptyBucket.allocate

theorem Canonical.allocate (hp : p.Canonical) (hmiss : ∀ n, p.node? n ≠ some (k, ops))
    (hash : UInt64) : (p.allocate hash k ops).2.Canonical := by
  intro a b x ha hb
  rw [node?_allocate] at ha hb
  split at ha <;> split at hb
  · rename_i ha' hb'
    exact ha'.trans hb'.symm
  · exact absurd (hb.trans ha.symm) (hmiss b)
  · exact absurd (ha.trans hb.symm) (hmiss a)
  · exact hp ha hb

theorem Derived.allocate (hclosed : p.Closed) (hp : p.Derived) (hash : UInt64) :
    (p.allocate hash k ops).2.Derived where
  eq m free hm := by
    rw [derived?_allocate] at hm
    rw [hp.eq hm]
    exact ((within_allocate hash).openIndices_eq hclosed (alive_of_derived (by simp [hm]))).symm
  operands m hm x hx := by
    rw [derived?_allocate] at hm
    rw [(within_allocate hash).operands_eq (alive_of_derived hm)] at hx
    rw [derived?_allocate]
    exact hp.operands hm x hx

theorem WellFormed.allocate (hp : p.WellFormed H held) (hops : ∀ m ∈ ops, p.Alive m)
    (hadmits : p.Admits k ops) (hmiss : ∀ n, p.node? n ≠ some (k, ops)) :
    (p.allocate (H k (ops.map p.hashOf)) k ops).2.WellFormed H (p.allocated ::ₘ held) := by
  refine ⟨hp.closed.allocate hops _, hp.counted.allocate hp.closed hops _,
    hp.listed.allocate hp.closed hops, hp.canonical.allocate hmiss _,
    hp.derived.allocate hp.closed _, fun m k' ops' hm => ?_⟩
  rw [node?_allocate] at hm
  split at hm
  · obtain ⟨rfl, rfl⟩ := Prod.mk.inj (Option.some.inj hm)
    exact ((within_allocate _).admits_iff hp.closed hops).mpr hadmits
  · obtain ⟨c, hc, rfl, rfl⟩ := node?_eq_some_iff.mp hm
    exact ((within_allocate _).admits_iff hp.closed fun x hx => (hp.closed hc x hx).2).mpr
      (hp.admitted hm)

/-! ## Asking for a node -/

theorem sameRecords_counters (lookups hits : Nat) :
    SameRecords p { p with lookups := lookups, hits := hits } :=
  ⟨rfl, rfl, fun _ => rfl⟩

/-- The counters of look-ups are no part of what has to be in order. -/
theorem WellFormed.counters (hp : p.WellFormed H held) (lookups hits : Nat) :
    { p with lookups := lookups, hits := hits }.WellFormed H held :=
  (sameRecords_counters lookups hits).wellFormed hp
    ⟨hp.counted.alive, hp.counted.holds_eq, hp.counted.holds_pos⟩
    ((sameRecords_counters lookups hits).derived hp.closed hp.derived fun _ => rfl)

/-- A node that is there is held once more. -/
theorem WellFormed.intern_of_node (hp : p.WellFormed H held) (hn : p.node? n = some (k, ops)) :
    p.intern H k ops =
      (n, { p with lookups := p.lookups + 1, hits := p.hits + 1 }.retain n) := by
  unfold intern
  simp only
  rw [(hp.listed.find?_eq_some_iff hp.canonical).mpr hn]

/-- A node that is not there is made. -/
theorem WellFormed.intern_of_forall_ne (hp : p.WellFormed H held)
    (hmiss : ∀ n, p.node? n ≠ some (k, ops)) :
    p.intern H k ops =
      { p with lookups := p.lookups + 1 }.allocate (H k (ops.map p.hashOf)) k ops := by
  unfold intern
  simp only
  cases hf : p.find? (H k (ops.map p.hashOf)) k ops with
  | none => rfl
  | some n => exact absurd ((hp.listed.find?_eq_some_iff hp.canonical).mp hf) (hmiss n)

theorem WellFormed.intern (hp : p.WellFormed H held) (hops : ∀ m ∈ ops, p.Alive m)
    (hadmits : p.Admits k ops) :
    (p.intern H k ops).2.WellFormed H ((p.intern H k ops).1 ::ₘ held) := by
  by_cases hfound : ∃ n, p.node? n = some (k, ops)
  · obtain ⟨n, hn⟩ := hfound
    rw [hp.intern_of_node hn]
    exact (hp.counters _ _).retain (alive_iff_node.mpr ⟨_, hn⟩)
  · have hmiss : ∀ n, p.node? n ≠ some (k, ops) := fun n hn => hfound ⟨n, hn⟩
    rw [hp.intern_of_forall_ne hmiss, allocate_fst]
    have hadmits' : { p with lookups := p.lookups + 1 }.Admits k ops :=
      ((sameRecords_counters _ _).within.admits_iff hp.closed hops).mpr hadmits
    exact (hp.counters (p.lookups + 1) p.hits).allocate hops hadmits' hmiss

/-- **Asking for a node** gives one with that kind and these operands, and changes no other. -/
theorem WellFormed.node?_intern (hp : p.WellFormed H held) (k : Kind) (ops : List NodeId)
    (m : NodeId) :
    (p.intern H k ops).2.node? m =
      if m = (p.intern H k ops).1 then some (k, ops) else p.node? m := by
  by_cases hfound : ∃ n, p.node? n = some (k, ops)
  · obtain ⟨n, hn⟩ := hfound
    rw [hp.intern_of_node hn]
    refine (sameRecords_retain.node?_eq m).trans ?_
    by_cases hm : m = n
    · rw [if_pos hm, hm]
      exact hn
    · rw [if_neg hm]
      rfl
  · have hmiss : ∀ n, p.node? n ≠ some (k, ops) := fun n hn => hfound ⟨n, hn⟩
    rw [hp.intern_of_forall_ne hmiss, node?_allocate, allocate_fst]
    rfl

/-- The node that is answered was alive before iff one like it was. -/
theorem WellFormed.alive_intern_iff (hp : p.WellFormed H held) (k : Kind) (ops : List NodeId) :
    p.Alive (p.intern H k ops).1 ↔ ∃ n, p.node? n = some (k, ops) := by
  constructor
  · intro h
    by_contra hfound
    have hmiss : ∀ n, p.node? n ≠ some (k, ops) := fun n hn => hfound ⟨n, hn⟩
    rw [hp.intern_of_forall_ne hmiss, allocate_fst] at h
    exact not_alive_allocated h
  · rintro ⟨n, hn⟩
    rw [hp.intern_of_node hn]
    exact alive_iff_node.mpr ⟨_, hn⟩

/-! ## Moves -/

/-- **A move keeps a pool in order.** -/
theorem Move.wellFormed {x y : Pool × Multiset NodeId} (h : Move H x y)
    (hx : x.1.WellFormed H x.2) : y.1.WellFormed H y.2 := by
  cases h with
  | retain alive => exact hx.retain alive
  | drop cell several => exact hx.drop cell several
  | die cell last => exact hx.die cell last
  | derive step => exact hx.derive step
  | intern alive admits => exact hx.intern alive admits

theorem Moves.wellFormed {x y : Pool × Multiset NodeId} (h : Moves H x y)
    (hx : x.1.WellFormed H x.2) : y.1.WellFormed H y.2 := by
  induction h with
  | refl => exact hx
  | tail _ hmove ih => exact hmove.wellFormed ih

end TensorCost.Pool
