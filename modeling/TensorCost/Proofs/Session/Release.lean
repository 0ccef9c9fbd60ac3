import TensorCost.Proofs.Pool.Liveness
import TensorCost.Proofs.Session.Reachable

/-!
# What lives in a session

A session keeps alive what its named nodes and its named walks reach, and nothing else. Names are
forgotten by dropping them and by finishing walks; whatever the order, what dies is what no holder
reaches any longer.

* `Session.holders` lists the nodes that a session holds, once for each hold.
* `Command.isRelease` marks the commands that do nothing but forget names, `Command.dropsNode` and
  `Command.endsWalk` those that forget a particular name.

Results:
* `step_of_isRelease`: what such a command leaves.
* `Reachable.live_nodes`: as many nodes live as there are distinct subexpressions of what is held,
  the buckets list them, and releases let die what is not reached any longer.
-/

namespace TensorCost

namespace Command

/-- Whether the command does nothing but forget names. -/
def isRelease : Command → Bool
  | finish _ | drop _ => true
  | _ => false

/-- Whether the command forgets the node of a name. -/
def dropsNode (name : Name) : Command → Bool
  | drop h => h == name
  | _ => false

/-- Whether the command forgets the walk of a name. -/
def endsWalk (name : Name) : Command → Bool
  | finish h | drop h | walk (some h) _ => h == name
  | _ => false

end Command

namespace Session

variable {H : NodeHash} {s : Session} {c : Command} {n : NodeId}

/-- The nodes that a session holds: those with names, and those on the stacks of walks and among
their visits. -/
def holders (s : Session) : List NodeId :=
  s.nodes.map Prod.snd ++ s.walks.flatMap fun e => e.2.held

theorem coe_holders : (s.holders : Multiset NodeId) = s.held := by
  rw [holders, held, Bindings.held, Bindings.held, Multiset.coe_add, List.map_eq_flatMap]

theorem Reachable.pool_holders (h : s.Reachable H) :
    s.pool.WellFormed H (s.holders : Multiset NodeId) := by
  rw [coe_holders]
  exact h.wellFormed.pool

/-! ## Forgetting names -/

/-- Finishing a walk forgets it; without a walk there is nothing to forget. -/
theorem step_finish (h : Name) : (s.step H (.finish h)).2 = s.dropWalk h := by
  cases hlookup : s.walks.lookup h with
  | none =>
    have herase : s.walks.erase h = s.walks := Bindings.erase_of_lookup_eq_none hlookup
    simp only [step, Session.walk, hlookup, andThen, dropWalk, heldBy, herase, Option.map_none,
      Option.getD_none, Pool.releaseAll_nil]
  | some w => simp only [step, Session.walk, hlookup, andThen]

/-- **A release** takes the name out, and adds and changes no node. -/
theorem step_of_isRelease (hc : c.isRelease = true) :
    (s.step H c).2.nodes = s.nodes.filter (fun e => !c.dropsNode e.1) ∧
      (s.step H c).2.walks = s.walks.filter (fun e => !c.endsWalk e.1) ∧
      (s.step H c).2.pool.Within s.pool := by
  cases c with
  | finish h =>
    have hnodes : s.nodes.filter (fun _ => !false) = s.nodes :=
      List.filter_eq_self.mpr fun _ _ => rfl
    rw [step_finish]
    exact ⟨hnodes.symm, Bindings.erase_eq_filter h, Pool.releaseAll_within _ _⟩
  | drop h =>
    refine ⟨Bindings.erase_eq_filter h, Bindings.erase_eq_filter h, ?_⟩
    exact (Pool.releaseAll_within _ _).trans (Pool.releaseAll_within _ _)
  | _ => exact absurd hc Bool.false_ne_true

theorem run_of_isRelease {cs : List Command} (hcs : ∀ c ∈ cs, c.isRelease = true) :
    (s.run H cs).2.nodes = s.nodes.filter (fun e => !cs.any fun c => c.dropsNode e.1) ∧
      (s.run H cs).2.walks = s.walks.filter (fun e => !cs.any fun c => c.endsWalk e.1) ∧
      (s.run H cs).2.pool.Within s.pool := by
  induction cs generalizing s with
  | nil => exact ⟨by simp [run], by simp [run], fun _ _ hx => hx⟩
  | cons c cs ih =>
    obtain ⟨hnodes, hwalks, hwithin⟩ :=
      step_of_isRelease (s := s) (H := H) (hcs c List.mem_cons_self)
    obtain ⟨hnodes', hwalks', hwithin'⟩ :=
      ih (s := (s.step H c).2) fun c' hc' => hcs c' (List.mem_cons_of_mem _ hc')
    refine ⟨?_, ?_, hwithin'.trans hwithin⟩
    · rw [run, hnodes', hnodes, List.filter_filter]
      simp [Bool.and_comm]
    · rw [run, hwalks', hwalks, List.filter_filter]
      simp [Bool.and_comm]

/-! ## What lives -/

/-- **What lives.** In a reachable session, a node lives iff a holder reaches it, and as many nodes
live as there are distinct subexpressions of the expressions that are held. The entries of all
buckets are these nodes, and a node has one entry, in the bucket of its hash. When names are
forgotten, in any order, the nodes that remain are those that a remaining holder reaches, as they
were; without holders the pool is empty. -/
theorem Reachable.live_nodes (h : s.Reachable H) :
    (∀ n, s.pool.Alive n ↔ s.pool.ReachedFrom s.holders n) ∧
    (∃ ts, s.pool.Denotes s.holders ts ∧ s.pool.liveCount = (Tree.distinct ts).length) ∧
    (∀ n ∈ s.pool.entries, s.pool.Alive n) ∧ s.pool.entries.length = s.pool.liveCount ∧
    (∀ n c, s.pool.cell? n = some c → c.hash = H c.kind (c.operands.map s.pool.hashOf) ∧
      ∀ hash, (s.pool.bucket hash).count n = if hash = c.hash then 1 else 0) ∧
    ∀ cs : List Command, (∀ c ∈ cs, c.isRelease = true) →
      let t := (s.run H cs).2
      t.nodes = s.nodes.filter (fun e => !cs.any fun c => c.dropsNode e.1) ∧
      t.walks = s.walks.filter (fun e => !cs.any fun c => c.endsWalk e.1) ∧
      (∀ n, t.pool.Alive n ↔ s.pool.ReachedFrom t.holders n) ∧
      (∀ n, t.pool.Alive n → t.pool.node? n = s.pool.node? n) ∧
      (t.holders = [] → t.pool.liveCount = 0 ∧ t.pool.buckets.isEmpty = true) := by
  have hpool := h.pool_holders
  obtain ⟨ts, hts⟩ := hpool.closed.exists_denotes hpool.counted.alive
  refine ⟨fun n => hpool.alive_iff, ⟨ts, hts, hpool.liveCount_eq_length_distinct hts⟩,
    fun n hn => hpool.listed.mem_entries.mp hn, hpool.listed.length_entries,
    fun n c hc => ⟨hpool.listed.hash_eq hc, hpool.listed.count_bucket hc⟩, ?_⟩
  intro cs hcs t
  have ht := (h.run cs).pool_holders
  obtain ⟨hnodes, hwalks, hwithin⟩ := run_of_isRelease (s := s) (H := H) hcs
  refine ⟨hnodes, hwalks, fun n => ht.alive_iff.trans ?_, fun n hn => (hwithin.node?_eq hn).symm,
    fun hnone => ?_⟩
  · -- what the remaining holders reach, they reached before
    refine exists_congr fun r => and_congr_right fun hr => ?_
    exact hwithin.reaches_iff ht.closed (ht.counted.alive r hr)
  · rw [hnone] at ht
    exact ht.eq_empty

/-- A sum and its operand have names, and a walk has the sum on its stack. The walk keeps both alive
when the names are dropped, the name of the operand keeps the operand alone, and after both names
and the walk nothing is left. -/
theorem live_nodes_of_walk_and_names :
    let H : NodeHash := fun _ _ => 0
    let p : Pool := (Pool.empty.construct H (.variable "x" [])).2
    let q : Pool := (p.construct H (.sum 0 0)).2
    let s : Session :=
      { pool := q.retainAll [1], nodes := [("e", 1), ("x", 0)], walks := [("w", Walk.start [1])] }
    let alive (cs : List Command) (n : NodeId) : Prop := (s.run H cs).2.pool.Alive n
    s.Reachable H ∧ s.pool.liveCount = 2 ∧
      (alive [.drop "x", .drop "e"] 0 ∧ alive [.drop "x", .drop "e"] 1) ∧
      (alive [.finish "w", .drop "e"] 0 ∧ ¬ alive [.finish "w", .drop "e"] 1) ∧
      (s.run H [.drop "x", .finish "w", .drop "e"]).2.pool.liveCount = 0 := by
  intro H p q s alive
  have hx : Reachable H { pool := p, nodes := [("x", 0)] } :=
    Reachable.start.construct (c := .variable "x" []) rfl rfl (by decide +kernel) rfl
  have he : Reachable H { pool := q, nodes := [("e", 1), ("x", 0)] } :=
    hx.construct (c := .sum "x" "x") rfl rfl (by decide +kernel) rfl
  have hs : s.Reachable H := he.walk "w" ["e"] rfl rfl
  have hoperand : 0 ∈ s.pool.operands 1 := by decide +kernel
  have htrees : [1, 0, 1].mapM s.pool.tree? =
      some [.node .sum [.node (.variable "x" []) [], .node (.variable "x" []) []],
        .node (.variable "x" []) [],
        .node .sum [.node (.variable "x" []) [], .node (.variable "x" []) []]] := by decide +kernel
  obtain ⟨-, ⟨ts, hts, hcount⟩, -, -, -, hrelease⟩ := hs.live_nodes
  obtain rfl := Option.some.inj ((Pool.denotes_iff.mp hts).symm.trans htrees)
  have hlives : ∀ cs ns, (∀ c ∈ cs, c.isRelease = true) → (s.run H cs).2.holders = ns →
      ∀ n, alive cs n ↔ s.pool.ReachedFrom ns n := by
    rintro cs ns hcs rfl
    exact (hrelease cs hcs).2.2.1
  have hempty := (hrelease [.drop "x", .finish "w", .drop "e"] (by decide)).2.2.2.2
  refine ⟨hs, hcount.trans (by decide), ⟨?_, ?_⟩, ⟨?_, ?_⟩, (hempty rfl).1⟩
  · exact (hlives _ [1] (by decide) rfl 0).mpr ⟨1, by decide, .step hoperand (.refl 0)⟩
  · exact (hlives _ [1] (by decide) rfl 1).mpr ⟨1, by decide, .refl 1⟩
  · exact (hlives _ [0] (by decide) rfl 0).mpr ⟨0, by decide, .refl 0⟩
  · rw [hlives _ [0] (by decide) rfl 1]
    rintro ⟨r, hr, hreach⟩
    obtain rfl := List.mem_singleton.mp hr
    exact absurd hreach.le (by decide)

end Session

end TensorCost
