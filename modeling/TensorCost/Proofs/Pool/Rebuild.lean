import TensorCost.Proofs.Pool.Counters
import TensorCost.Proofs.Pool.Recipe

/-!
# Building again

A recipe that is followed while what it makes is alive already makes nothing: each call finds the
node that is there.

* `Recipe.Built` says which nodes of a pool a recipe comes to, and `Recipe.FoundIn` what following
  it does when they are there.

Results:
* `Recipe.follow_built`: following a recipe leaves what it comes to.
* `Recipe.Built.foundIn`: as long as this is alive, following the recipe finds it, at the cost of a
  look-up and a hit for each call.
-/

namespace TensorCost.Recipe

open Pool

variable {H : NodeHash} {p q : Pool} {held : Multiset NodeId} {k : Nat} {r : Recipe k}
  {made : Vector NodeId k}

/-- What a recipe comes to in the pool `p`: for each call a living node of the kind that it asks
for, over the nodes of the calls that it names. -/
inductive Built (p : Pool) : {k : Nat} → Recipe k → Vector NodeId k → Prop
  | start : Built p start #v[]
  | call {k : Nat} {before : Recipe k} {made : Vector NodeId k} {c : Construction (Fin k) Index}
    {kind : Kind} {n : NodeId} (rest : Built p before made) (asks : c.kind? = some kind)
    (node : p.node? n = some (kind, c.operands.map made.get)) :
    Built p (before.call c) (made.push n)

/-- Following the recipe in `p` answers with the nodes `made`, takes a look-up and a hit for each
call, and makes no node and lets none die. -/
structure FoundIn (H : NodeHash) (p : Pool) (r : Recipe k) (made : Vector NodeId k) : Prop where
  result : (r.follow H p).1 = .ok made
  counts : Counts p (r.follow H p).2 k k 0
  alive_iff : ∀ n, (r.follow H p).2.Alive n ↔ p.Alive n
  liveCount : (r.follow H p).2.liveCount = p.liveCount

/-- What a recipe comes to stays the same in pools that have its nodes. -/
theorem Built.mono (h : Built p r made) (hq : ∀ n ∈ made.toList, q.node? n = p.node? n) :
    Built q r made := by
  induction h with
  | start => exact .start
  | @call k before made c kind n _ asks node ih =>
    rw [Vector.toList_push] at hq
    refine .call (ih fun m hm => hq m (List.mem_append_left _ hm)) asks ?_
    rw [hq n (List.mem_append_right _ (List.mem_singleton_self n)), node]

theorem Built.alive (h : Built p r made) : ∀ n ∈ made.toList, p.Alive n := by
  induction h with
  | start => exact fun n hn => absurd hn List.not_mem_nil
  | @call k before made c kind n _ asks node ih =>
    intro m hm
    rw [Vector.toList_push] at hm
    rcases List.mem_append.mp hm with hm | hm
    · exact ih m hm
    · exact List.mem_singleton.mp hm ▸ alive_iff_node.mpr ⟨_, node⟩

/-- What a recipe comes to stays so in later pools, as long as it is alive. -/
theorem Built.evolves (h : Built p r made) (hpq : p.Evolves q)
    (halive : ∀ n ∈ made.toList, q.Alive n) : Built q r made :=
  h.mono fun n hn => hpq.node?_eq (h.alive n hn) (halive n hn)

/-- **Following a recipe** leaves what it comes to. -/
theorem follow_built (hp : p.WellFormed H held) (hmade : (r.follow H p).1 = .ok made) :
    Built (r.follow H p).2 r made := by
  induction r with
  | start =>
    obtain rfl := Except.ok.inj hmade
    exact .start
  | @call k before c ih =>
    obtain ⟨made', n, hbefore, hn, hfollow⟩ := exists_of_follow_call hmade
    rw [hfollow] at hmade ⊢
    obtain rfl := Except.ok.inj hmade
    have hmoves := before.follow_moves hp
    rw [hbefore] at hmoves
    have hq := hmoves.wellFormed hp
    obtain ⟨kind, hkind, -, hnode, hwithin, -⟩ :=
      hq.node?_construct (alive_operands hq c) (Prod.ext hn rfl)
    rw [Construction.kind?_mapOperands] at hkind
    rw [Construction.operands_mapOperands] at hnode
    have hrest := ih hbefore
    exact .call (hrest.mono fun m hm => hwithin.node?_eq (hrest.alive m hm)) hkind hnode

/-- Each call finds the node that is there, since those before it found theirs. -/
theorem Built.follow_eq (h : Built p r made) (hp : p.WellFormed H held) :
    ∃ q, r.follow H p = (.ok made, q) ∧ SameRecords p q ∧ Counts p q k k 0 := by
  induction h with
  | start => exact ⟨p, rfl, ⟨rfl, rfl, fun _ => rfl⟩, counts_refl p⟩
  | @call k before made c kind n _ asks node ih =>
    obtain ⟨q, hfollow, hsame, hcounts⟩ := ih
    have hmoves := before.follow_moves hp
    rw [hfollow] at hmoves
    have hq := hmoves.wellFormed hp
    rw [← hsame.node?_eq, ← Construction.operands_mapOperands] at node
    rw [← Construction.kind?_mapOperands made.get] at asks
    obtain ⟨u, hmade, hsame', hcounts'⟩ := hq.construct_of_node asks node
    have hbefore : (before.follow H p).1 = .ok made := by rw [hfollow]
    have hcall := follow_call_of_made (c := c) hbefore (by rw [hfollow, hmade])
    rw [hfollow, hmade] at hcall
    exact ⟨u, hcall, hsame.trans hsame', hcounts.trans hcounts'⟩

/-- **Building again** what is alive finds it, and makes nothing. -/
theorem Built.foundIn (h : Built p r made) (hp : p.WellFormed H held) : FoundIn H p r made := by
  obtain ⟨q, hfollow, hsame, hcounts⟩ := h.follow_eq hp
  refine ⟨?_, ?_, ?_, ?_⟩ <;> rw [hfollow]
  · exact hcounts
  · exact fun n => hsame.alive_iff
  · exact liveCount_congr fun n => hsame.alive_iff

end TensorCost.Recipe
