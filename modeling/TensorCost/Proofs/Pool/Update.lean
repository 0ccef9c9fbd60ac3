import TensorCost.Pool.Construct
import TensorCost.Proofs.Pool.Graph

/-!
# Updates of a pool

Every change of a pool is put together from a few updates of its cells. What each of them does is
said once here, through look-ups, and nothing later opens the array of cells.

Results:
* `cell?_setCell`, `cell?_remove`, `cell?_retain`, `cell?_retainAll`, `cell?_setFree`: a look-up
  after an update.
* `cell?_allocate`, `bucket_allocate`, `bucket_remove`: what making a node and letting one die do to
  cells and buckets.
* `SameRecords`: updates that leave kinds, operands, hashes and buckets as they are; holding nodes
  and keeping free indices are of this sort.
-/

namespace TensorCost.Pool

variable {p q : Pool} {n m : NodeId} {c d : Cell}

/-! ## Look-ups after an update -/

theorem cell?_setCell (h : p.cell? n = some d) (m : NodeId) :
    (p.setCell n c).cell? m = if m = n then some c else p.cell? m := by
  obtain ⟨hn, -⟩ := Array.getElem?_eq_some_iff.mp (cell?_eq_some_iff.mp h)
  unfold cell? setCell
  rw [Array.getElem?_setIfInBounds]
  by_cases hm : m = n
  · subst hm
    simp [hn]
  · rw [if_neg (Ne.symm hm), if_neg hm]

theorem cell?_clearCell (m : NodeId) :
    (p.clearCell n).cell? m = if m = n then none else p.cell? m := by
  unfold cell? clearCell
  rw [Array.getElem?_setIfInBounds]
  by_cases hm : m = n
  · subst hm
    by_cases hlt : m < p.cells.size <;> simp [hlt]
  · rw [if_neg (Ne.symm hm), if_neg hm]

theorem cell?_remove (hash : UInt64) (m : NodeId) :
    (p.remove n hash).cell? m = if m = n then none else p.cell? m :=
  cell?_clearCell (p := p.unlist n hash) m

/-- Replacing the cell of a living node by one that is computed from it. -/
theorem cell?_setCell_map (h : p.cell? n = some c) (f : Cell → Cell) (m : NodeId) :
    (p.setCell n (f c)).cell? m = (p.cell? m).map fun d => if m = n then f d else d := by
  rw [cell?_setCell h]
  by_cases hm : m = n
  · subst hm
    simp [h]
  · simp [hm]

theorem cell?_retain (m : NodeId) :
    (p.retain n).cell? m =
      (p.cell? m).map fun c => if m = n then { c with holds := c.holds + 1 } else c := by
  unfold retain
  split
  · rename_i c h
    exact cell?_setCell_map h (fun c => { c with holds := c.holds + 1 }) m
  · rename_i h
    by_cases hm : m = n
    · subst hm
      simp [h]
    · simp [hm]

theorem cell?_retainAll (ns : List NodeId) (m : NodeId) :
    (p.retainAll ns).cell? m =
      (p.cell? m).map fun c => { c with holds := c.holds + ns.count m } := by
  induction ns generalizing p with
  | nil => simp [retainAll]
  | cons n ns ih =>
    have hstep : p.retainAll (n :: ns) = (p.retain n).retainAll ns := rfl
    rw [hstep, ih, cell?_retain, Option.map_map]
    congr 1
    funext c
    by_cases hm : m = n
    · subst hm
      simp only [Function.comp, if_true, List.count_cons_self, Cell.mk.injEq, true_and, and_true]
      omega
    · simp [hm, List.count_cons_of_ne (Ne.symm hm)]

theorem cell?_setFree (free : List Index) (m : NodeId) :
    (p.setFree n free).cell? m =
      (p.cell? m).map fun c => if m = n then { c with free := .done free } else c := by
  unfold setFree
  split
  · rename_i c h
    exact cell?_setCell_map h (fun c => { c with free := .done free }) m
  · rename_i h
    by_cases hm : m = n
    · subst hm
      simp [h]
    · simp [hm]

theorem allocated_setCell : (p.setCell n c).allocated = p.allocated := Array.size_setIfInBounds ..

theorem allocated_remove (hash : UInt64) : (p.remove n hash).allocated = p.allocated :=
  Array.size_setIfInBounds ..

/-! ## Updates outside of the graph -/

/-- Whether `q` differs from `p` at most in holds and kept free indices. -/
structure SameRecords (p q : Pool) : Prop where
  buckets : q.buckets = p.buckets
  allocated : q.allocated = p.allocated
  record : ∀ n, (q.cell? n).map (fun c => (c.kind, c.operands, c.hash)) =
    (p.cell? n).map fun c => (c.kind, c.operands, c.hash)

theorem SameRecords.trans {r : Pool} (hpq : SameRecords p q) (hqr : SameRecords q r) :
    SameRecords p r where
  buckets := hqr.buckets.trans hpq.buckets
  allocated := hqr.allocated.trans hpq.allocated
  record n := (hqr.record n).trans (hpq.record n)

theorem SameRecords.cell (h : SameRecords p q) (hd : q.cell? n = some d) :
    ∃ c, p.cell? n = some c ∧ d.kind = c.kind ∧ d.operands = c.operands ∧ d.hash = c.hash := by
  have hn := h.record n
  rw [hd, Option.map_some] at hn
  obtain ⟨c, hc, heq⟩ := Option.map_eq_some_iff.mp hn.symm
  simp only [Prod.mk.injEq] at heq
  exact ⟨c, hc, heq.1.symm, heq.2.1.symm, heq.2.2.symm⟩

theorem SameRecords.symm (h : SameRecords p q) : SameRecords q p where
  buckets := h.buckets.symm
  allocated := h.allocated.symm
  record n := (h.record n).symm

theorem SameRecords.node?_eq (h : SameRecords p q) (n : NodeId) : q.node? n = p.node? n := by
  have hn := congrArg (Option.map fun x : Kind × List NodeId × UInt64 => (x.1, x.2.1)) (h.record n)
  rw [Option.map_map, Option.map_map] at hn
  exact hn

theorem SameRecords.operands_eq (h : SameRecords p q) (n : NodeId) :
    q.operands n = p.operands n := by
  rw [operands_eq_node, operands_eq_node, h.node?_eq]

theorem SameRecords.hashOf_eq (h : SameRecords p q) (n : NodeId) : q.hashOf n = p.hashOf n := by
  have hn := congrArg
    (fun x => (Option.map (fun x : Kind × List NodeId × UInt64 => x.2.2) x).getD 0) (h.record n)
  simp only [Option.map_map] at hn
  exact hn

theorem SameRecords.within (h : SameRecords p q) : p.Within q := Within.of_eq h.node?_eq

theorem SameRecords.alive_iff (h : SameRecords p q) : q.Alive n ↔ p.Alive n :=
  ⟨h.symm.within.alive, h.within.alive⟩

theorem sameRecords_setCell (h : p.cell? n = some d) (hc : (c.kind, c.operands, c.hash) =
    (d.kind, d.operands, d.hash)) : SameRecords p (p.setCell n c) where
  buckets := rfl
  allocated := allocated_setCell
  record m := by
    rw [cell?_setCell h]
    by_cases hm : m = n
    · subst hm
      rw [if_pos rfl, h, Option.map_some, Option.map_some, hc]
    · rw [if_neg hm]

theorem sameRecords_setHolds (h : p.cell? n = some c) (holds : Nat) :
    SameRecords p (p.setCell n { c with holds := holds }) :=
  sameRecords_setCell h rfl

theorem sameRecords_retain : SameRecords p (p.retain n) := by
  unfold retain
  split
  · rename_i c h
    exact sameRecords_setCell h rfl
  · exact ⟨rfl, rfl, fun _ => rfl⟩

theorem sameRecords_retainAll (ns : List NodeId) : SameRecords p (p.retainAll ns) := by
  induction ns generalizing p with
  | nil => exact ⟨rfl, rfl, fun _ => rfl⟩
  | cons n ns ih => exact sameRecords_retain.trans (ih (p := p.retain n))

theorem sameRecords_setFree (free : List Index) : SameRecords p (p.setFree n free) := by
  unfold setFree
  split
  · rename_i c h
    exact sameRecords_setCell h rfl
  · exact ⟨rfl, rfl, fun _ => rfl⟩

/-! ## Making nodes and letting them die -/

/-- The nodes listed under a hash. -/
def bucket (p : Pool) (hash : UInt64) : List NodeId := p.buckets.getD hash []

variable {k : Kind} {ops : List NodeId} {hash : UInt64}

theorem allocate_fst : (p.allocate hash k ops).1 = p.allocated :=
  (sameRecords_retainAll ops).allocated

theorem cell?_allocate (m : NodeId) :
    (p.allocate hash k ops).2.cell? m =
      if m = p.allocated then some ⟨k, ops, hash, 1, .pending⟩
      else (p.cell? m).map fun c => { c with holds := c.holds + ops.count m } := by
  have hsize : (p.retainAll ops).cells.size = p.allocated := (sameRecords_retainAll ops).allocated
  rw [← cell?_retainAll]
  unfold cell? allocate
  rw [Array.getElem?_push, hsize]
  by_cases hm : m = p.allocated
  · rw [if_pos hm, if_pos hm]
    rfl
  · rw [if_neg hm, if_neg hm]

theorem allocated_allocate : (p.allocate hash k ops).2.allocated = p.allocated + 1 := by
  have hsize : (p.retainAll ops).cells.size = p.allocated := (sameRecords_retainAll ops).allocated
  unfold allocated allocate
  rw [Array.size_push, hsize]
  rfl

theorem bucket_allocate (h : UInt64) :
    (p.allocate hash k ops).2.bucket h =
      if h = hash then p.bucket h ++ [p.allocated] else p.bucket h := by
  have hsize : (p.retainAll ops).cells.size = p.allocated := (sameRecords_retainAll ops).allocated
  unfold bucket allocate
  simp only
  rw [(sameRecords_retainAll ops).buckets, hsize, Std.HashMap.getD_alter]
  by_cases hh : h = hash
  · subst hh
    simp [Std.HashMap.getD_eq_getD_getElem?]
  · rw [if_neg (by simpa using Ne.symm hh), if_neg hh]

theorem bucket_remove (h : UInt64) :
    (p.remove n hash).bucket h = if h = hash then (p.bucket h).erase n else p.bucket h := by
  change (p.unlist n hash).buckets.getD h [] = _
  unfold unlist bucket
  rw [Std.HashMap.getD_alter]
  by_cases hh : h = hash
  · subst hh
    rw [if_pos (by simp), if_pos rfl, Std.HashMap.getD_eq_getD_getElem?]
    split
    · rename_i he
      rw [he, Option.getD_none]
    · rw [Option.getD_some]
  · rw [if_neg (by simpa using Ne.symm hh), if_neg hh]

/-- No bucket is kept without nodes. -/
def NoEmptyBucket (p : Pool) : Prop := ∀ hash : UInt64, p.buckets[hash]? ≠ some []

theorem NoEmptyBucket.allocate (hp : p.NoEmptyBucket) :
    (p.allocate hash k ops).2.NoEmptyBucket := by
  intro h
  unfold Pool.allocate
  simp only
  rw [(sameRecords_retainAll ops).buckets, Std.HashMap.getElem?_alter]
  split
  · simp
  · exact hp h

theorem NoEmptyBucket.remove (hp : p.NoEmptyBucket) : (p.remove n hash).NoEmptyBucket := by
  intro h
  change (p.unlist n hash).buckets[h]? ≠ some []
  unfold unlist
  rw [Std.HashMap.getElem?_alter]
  split
  · split
    · simp
    · rename_i hne
      simpa using hne
  · exact hp h

end TensorCost.Pool
