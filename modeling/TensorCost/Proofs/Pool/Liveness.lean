import TensorCost.Proofs.Pool.Evolution
import TensorCost.Proofs.Pool.Expression

/-!
# Which nodes live

In a pool that is in order, a node lives iff it can be reached from a hold from outside. The counts
of holds see to that: a node without a hold from outside is an operand of a living node, which was
made later, so going up from user to user ends at a hold from outside.

* `Pool.living` lists the living nodes, and `Pool.entries` what stands in all buckets together.

Results:
* `WellFormed.alive_iff`: the living nodes are those that the holds reach.
* `WellFormed.liveCount_eq_length_distinct`: there are as many of them as distinct subexpressions.
* `WellFormed.length_entries`: all buckets together list them once.
-/

namespace TensorCost.Pool

variable {H : NodeHash} {p q : Pool} {held : Multiset NodeId} {n m : NodeId} {ns : List NodeId}
  {ts : List Tree}

/-! ## Holds -/

/-- A living node is held from outside or is an operand of a living node. -/
theorem WellFormed.held_or_operand (hp : p.WellFormed H held) (hm : p.Alive m) :
    m ∈ held ∨ ∃ n, p.Alive n ∧ m ∈ p.operands n := by
  obtain ⟨c, hc⟩ := alive_iff_cell.mp hm
  have hcount := hp.counted.holds_pos hc
  rw [hp.counted.holds_eq hc, Multiset.count_pos, Multiset.mem_add, mem_slots_iff] at hcount
  refine hcount.imp_right fun ⟨n, d, hd, hoperand⟩ => ⟨n, alive_of_cell hd, ?_⟩
  rwa [hp.closed.operands_eq hd]

/-- By induction on the number of nodes that were made later: a user of the node is one of these. -/
theorem WellFormed.reached_of_alive (hp : p.WellFormed H (ns : Multiset NodeId))
    (hm : p.Alive m) : p.ReachedFrom ns m := by
  induction hlater : p.allocated - m using Nat.strongRecOn generalizing m with
  | ind later ih =>
    rcases hp.held_or_operand hm with hheld | ⟨n, hn, hoperand⟩
    · exact ⟨m, hheld, .refl m⟩
    · have hfewer : p.allocated - n < later :=
        hlater ▸ Nat.sub_lt_sub_left (lt_allocated hm) (mem_operands_lt hoperand)
      obtain ⟨r, hr, hreach⟩ := ih (p.allocated - n) hfewer hn rfl
      exact ⟨r, hr, hreach.trans (.step hoperand (.refl m))⟩

/-- **The living nodes** are those that can be reached from the holds from outside. -/
theorem WellFormed.alive_iff (hp : p.WellFormed H (ns : Multiset NodeId)) :
    p.Alive m ↔ p.ReachedFrom ns m := by
  refine ⟨hp.reached_of_alive, ?_⟩
  rintro ⟨r, hr, hreach⟩
  exact hp.closed.alive_of_reaches (hp.counted.alive r hr) hreach

/-! ## Counting -/

/-- The living nodes, by number. -/
def living (p : Pool) : List NodeId := (List.range p.allocated).filter fun n => (p.cell? n).isSome

theorem mem_living : n ∈ p.living ↔ p.Alive n := by
  rw [living, List.mem_filter, List.mem_range]
  exact and_iff_right_of_imp lt_allocated

theorem nodup_living (p : Pool) : p.living.Nodup := List.nodup_range.filter _

theorem length_living (p : Pool) : p.living.length = p.liveCount := by
  have hcells : p.cells.toList.map Option.isSome =
      (List.range p.allocated).map fun n => (p.cell? n).isSome := by
    refine List.ext_getElem (by simp [allocated]) fun n h₁ h₂ => ?_
    have hn : n < p.cells.size := by simpa using h₁
    simp [cell?, hn]
  have hcount := congrArg (List.countP id) hcells
  rw [List.countP_map, List.countP_map] at hcount
  rw [living, ← List.countP_eq_length_filter, liveCount, ← Array.countP_toList]
  exact hcount.symm

/-- Any list of the living nodes without repetitions is as long as their number. -/
theorem liveCount_eq_length (hns : ns.Nodup) (h : ∀ n, n ∈ ns ↔ p.Alive n) :
    p.liveCount = ns.length := by
  have hperm : p.living.Perm ns := (List.perm_ext_iff_of_nodup p.nodup_living hns).mpr fun n =>
    mem_living.trans (h n).symm
  rw [← length_living, hperm.length_eq]

theorem liveCount_congr (h : ∀ n, q.Alive n ↔ p.Alive n) : q.liveCount = p.liveCount := by
  rw [← p.length_living]
  exact liveCount_eq_length p.nodup_living fun n => mem_living.trans (h n).symm

theorem Closed.exists_denotes (hp : p.Closed) (hns : ∀ n ∈ ns, p.Alive n) :
    ∃ ts, p.Denotes ns ts := by
  obtain ⟨ts, hts⟩ := exists_mapM_eq_some fun n hn => hp.exists_tree (hns n hn)
  exact ⟨ts, denotes_iff.mpr hts⟩

/-- **As many nodes live** as there are distinct subexpressions of what is held. -/
theorem WellFormed.liveCount_eq_length_distinct (hp : p.WellFormed H (ns : Multiset NodeId))
    (hts : p.Denotes ns ts) : p.liveCount = (Tree.distinct ts).length := by
  have hdenotes := traverse_denotes hp.closed hp.faithful hts
  rw [← hdenotes.length_eq]
  refine liveCount_eq_length (p.inOrder_traverse ns).nodup fun n => ?_
  rw [mem_traverse_iff, hp.alive_iff]

/-! ## Buckets -/

/-- The entries of all buckets. -/
def entries (p : Pool) : List NodeId := p.buckets.toList.flatMap Prod.snd

theorem bucket_of_mem_toList {hash : UInt64} (h : (hash, ns) ∈ p.buckets.toList) :
    p.bucket hash = ns := by
  rw [Std.HashMap.mem_toList_iff_getElem?_eq_some] at h
  rw [bucket, Std.HashMap.getD_eq_getD_getElem?, h, Option.getD_some]

theorem mem_entries_iff : n ∈ p.entries ↔ ∃ hash, n ∈ p.bucket hash := by
  rw [entries, List.mem_flatMap]
  constructor
  · rintro ⟨⟨hash, ns⟩, hmem, hn⟩
    exact ⟨hash, bucket_of_mem_toList hmem ▸ hn⟩
  · rintro ⟨hash, hn⟩
    rw [bucket, Std.HashMap.getD_eq_getD_getElem?] at hn
    cases hbucket : p.buckets[hash]? with
    | none =>
      rw [hbucket] at hn
      exact absurd hn List.not_mem_nil
    | some ns =>
      rw [hbucket] at hn
      exact ⟨(hash, ns), Std.HashMap.mem_toList_iff_getElem?_eq_some.mpr hbucket, hn⟩

theorem Listed.mem_entries (hp : p.Listed H) : n ∈ p.entries ↔ p.Alive n := by
  rw [mem_entries_iff, alive_iff_cell]
  simp [hp.mem_bucket_iff]

/-- A node stands in the bucket of its hash alone, and there once. -/
theorem Listed.nodup_entries (hp : p.Listed H) : p.entries.Nodup := by
  refine List.pairwise_flatMap.mpr ⟨fun ⟨hash, ns⟩ hmem => ?_, ?_⟩
  · rw [← bucket_of_mem_toList hmem]
    exact hp.nodup hash
  · refine Std.HashMap.distinct_keys_toList.imp_of_mem ?_
    rintro ⟨hash, ns⟩ ⟨hash', ns'⟩ hmem hmem' hne n hn n' hn' rfl
    rw [← bucket_of_mem_toList hmem, hp.mem_bucket_iff] at hn
    rw [← bucket_of_mem_toList hmem', hp.mem_bucket_iff] at hn'
    obtain ⟨c, hc, rfl⟩ := hn
    obtain ⟨d, hd, rfl⟩ := hn'
    rw [hc] at hd
    obtain rfl := Option.some.inj hd
    simp at hne

/-- **The buckets** together list the living nodes, each once. -/
theorem Listed.length_entries (hp : p.Listed H) : p.entries.length = p.liveCount :=
  (liveCount_eq_length hp.nodup_entries fun _ => hp.mem_entries).symm

/-- An entry of a node is in the bucket of its hash, once, and in no other. -/
theorem Listed.count_bucket (hp : p.Listed H) {c : Cell} (hc : p.cell? n = some c)
    (hash : UInt64) : (p.bucket hash).count n = if hash = c.hash then 1 else 0 := by
  rw [(hp.nodup hash).count]
  simp [hp.mem_bucket_iff, hc, eq_comm]

/-- A pool on which nothing is held is empty. -/
theorem WellFormed.eq_empty (hp : p.WellFormed H 0) :
    p.liveCount = 0 ∧ p.buckets.isEmpty = true := by
  have hdead : ∀ n, ¬ p.Alive n := by
    intro n hn
    have hnil : p.WellFormed H (([] : List NodeId) : Multiset NodeId) := hp
    obtain ⟨r, hr, -⟩ := hnil.alive_iff.mp hn
    exact absurd hr List.not_mem_nil
  refine ⟨liveCount_eq_length List.nodup_nil fun n => ?_, ?_⟩
  · exact iff_of_false List.not_mem_nil (hdead n)
  · rw [Std.HashMap.isEmpty_iff_forall_not_mem]
    intro hash hmem
    have hbucket : p.buckets[hash]? = some p.buckets[hash] :=
      Std.HashMap.getElem?_eq_some_getElem hmem
    cases hns : p.buckets[hash] with
    | nil => exact hp.listed.noEmptyBucket hash (hns ▸ hbucket)
    | cons n ns =>
      have hn : n ∈ p.bucket hash := by
        rw [bucket, Std.HashMap.getD_eq_getD_getElem?, hbucket, hns]
        exact List.mem_cons_self
      exact hdead n (hp.listed.mem_entries.mp (mem_entries_iff.mpr ⟨hash, hn⟩))

end TensorCost.Pool
