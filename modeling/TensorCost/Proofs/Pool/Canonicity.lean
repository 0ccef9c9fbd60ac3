import TensorCost.Proofs.Pool.Operation

/-!
# Nodes and expressions

In a pool that is in order, comparing kinds and operand numbers inside one bucket decides whether
two nodes stand for the same expression, however large the expressions are and whatever the hash.

Results:
* `WellFormed.tree_inj`: living nodes that stand for the same expression are one node.
* `WellFormed.same_iff`: the comparison of two nodes that does not follow operands tells whether
  they are one.
* `WellFormed.construct_spec`: a construction that is not refused answers with the node of the
  expression that it writes down, and makes one node if there is none, else none.
-/

namespace TensorCost.Pool

variable {H : NodeHash} {p q : Pool} {held : Multiset NodeId} {a b n : NodeId} {t : Tree}
  {k : Kind} {ops : List NodeId} {ts : List Tree}

/-- By induction on the first node: operands that stand for the same expressions are the same, so
the nodes agree in kind and operands. -/
theorem Canonical.tree_inj (hcan : p.Canonical) (hclosed : p.Closed) (ha : p.tree? a = some t)
    (hb : p.tree? b = some t) : a = b := by
  induction a using Nat.strongRecOn generalizing b t with
  | ind a ih =>
    obtain ⟨as, hanode, has⟩ := hclosed.tree?_eq_some_iff.mp ha
    obtain ⟨bs, hbnode, hbs⟩ := hclosed.tree?_eq_some_iff.mp hb
    obtain ⟨c, hc, -, rfl⟩ := node?_eq_some_iff.mp hanode
    have hops : c.operands = bs :=
      eq_of_forall₂ has hbs fun m hm m' u hmu hmu' => ih m (hclosed hc m hm).1 hmu hmu'
    rw [hops] at hanode
    exact hcan hanode hbnode

/-- **Nodes that stand for the same expression** are one node. -/
theorem WellFormed.tree_inj (hp : p.WellFormed H held) (ha : p.tree? a = some t)
    (hb : p.tree? b = some t) : a = b :=
  hp.canonical.tree_inj hp.closed ha hb

/-- **The comparison of two nodes** does not follow operands, but it tells whether they are one. -/
theorem WellFormed.same_iff (hp : p.WellFormed H held) : p.same a b = true ↔ a = b := by
  unfold same
  rw [Bool.or_eq_true, beq_iff_eq, or_iff_left_iff_imp]
  intro h
  split at h
  · rename_i c d hc hd
    simp only [Bool.and_eq_true, beq_iff_eq] at h
    obtain ⟨⟨-, hk⟩, hops⟩ := h
    have hanode := node?_of_cell hc
    rw [hk, hops] at hanode
    exact hp.canonical hanode (node?_of_cell hd)
  · exact absurd h Bool.false_ne_true

/-! ## Constructions -/

variable {c : Construction NodeId Index}

/-- A kind and operands are there as a node iff the expression that they write down is. -/
theorem WellFormed.exists_node_iff (hp : p.WellFormed H held)
    (hts : ops.mapM p.tree? = some ts) :
    (∃ m, p.node? m = some (k, ops)) ↔ ∃ m, p.tree? m = some (.node k ts) := by
  have hall := mapM_eq_some_iff.mp hts
  constructor
  · rintro ⟨m, hm⟩
    exact ⟨m, hp.closed.tree?_eq_some_iff.mpr ⟨ops, hm, hall⟩⟩
  · rintro ⟨m, hm⟩
    obtain ⟨ops', hm', hall'⟩ := hp.closed.tree?_eq_some_iff.mp hm
    have hops : ops' = ops := eq_of_forall₂ hall' hall fun x _ y u hx hy => hp.tree_inj hx hy
    exact ⟨m, hops ▸ hm'⟩

theorem WellFormed.node?_of_alive_intern (hp : p.WellFormed H held)
    (h : p.Alive (p.intern H k ops).1) :
    p.node? (p.intern H k ops).1 = some (k, ops) := by
  obtain ⟨n, hn⟩ := (hp.alive_intern_iff k ops).mp h
  rw [hp.intern_of_node hn]
  exact hn

theorem WellFormed.within_intern (hp : p.WellFormed H held) (k : Kind) (ops : List NodeId) :
    p.Within (p.intern H k ops).2 := by
  intro m x hm
  rw [hp.node?_intern]
  split
  · rename_i hmn
    subst hmn
    rw [← hp.node?_of_alive_intern (alive_iff_node.mpr ⟨x, hm⟩), hm]
  · exact hm

theorem SameRecords.tree?_eq (h : SameRecords p q) (hclosed : p.Closed) (m : NodeId) :
    q.tree? m = p.tree? m := by
  by_cases hm : p.Alive m
  · exact h.within.tree?_eq hclosed hm
  · have hnode : p.node? m = none := by rw [node?, not_alive_iff.mp hm, Option.map_none]
    rw [tree?_eq_mapM, tree?_eq_mapM, h.node?_eq, hnode]
    rfl

theorem WellFormed.alive_of_intern_iff (hp : p.WellFormed H held) (k : Kind) (ops : List NodeId)
    (m : NodeId) :
    (p.intern H k ops).2.Alive m ↔ m = (p.intern H k ops).1 ∨ p.Alive m := by
  rw [alive_iff_node, alive_iff_node, hp.node?_intern]
  split
  · rename_i hm
    exact iff_of_true ⟨_, rfl⟩ (.inl hm)
  · rename_i hm
    rw [or_iff_right hm]

/-- A construction over operands that are fit for what it asks for is not refused. -/
theorem WellFormed.exists_construct (hp : p.WellFormed H held)
    (halive : ∀ m ∈ c.operands, p.Alive m) (hkind : c.kind? = some k)
    (hadmits : p.Admits k c.operands) : ∃ n q, p.construct H c = (.ok n, q) := by
  rcases construct_cases (H := H) hp.closed hp.derived halive with
    ⟨k', -, -, hbuild⟩ | ⟨hunfit, e, -⟩
  · exact ⟨_, _, hbuild⟩
  · exact absurd hadmits (hunfit k hkind)

theorem intern_eq_of_build (h : p.build H k ops = (.ok n, q)) :
    p.intern H k ops = (n, q) := by
  obtain ⟨hn, hq⟩ := Prod.mk.inj h
  exact Prod.ext (Except.ok.inj hn) hq

/-- A construction that is not refused answers with a node of the kind that it asks for over its
operands, and leaves the other nodes as they are. -/
theorem WellFormed.node?_construct (hp : p.WellFormed H held)
    (halive : ∀ m ∈ c.operands, p.Alive m) (hmade : p.construct H c = (.ok n, q)) :
    ∃ k, c.kind? = some k ∧ p.Admits k c.operands ∧ q.node? n = some (k, c.operands) ∧
      p.Within q ∧ ∀ m, q.Alive m ↔ m = n ∨ p.Alive m := by
  have hsame := (examined_derivation hp.closed hp.derived c).sameRecords
  have hexamined := hp.examined c
  rcases construct_cases (H := H) hp.closed hp.derived halive with
    ⟨k, hk, hadmits, hbuild⟩ | ⟨-, e, herror⟩
  · have hnode := hexamined.node?_intern k c.operands ((p.examined c).intern H k c.operands).1
    have hwithin := hexamined.within_intern k c.operands
    have hmore := hexamined.alive_of_intern_iff k c.operands
    rw [if_pos rfl] at hnode
    rw [intern_eq_of_build (hbuild ▸ hmade)] at hnode hwithin hmore
    refine ⟨k, hk, hadmits, hnode, hsame.within.trans hwithin, fun m => ?_⟩
    rw [← hsame.alive_iff]
    exact hmore m
  · rw [hmade] at herror
    exact absurd (congrArg Prod.fst herror) (by simp)

/-- **A construction that is not refused** answers with the node of the expression that it writes
down, which was there before iff some node stood for that expression. It leaves the other nodes as
they are. -/
theorem WellFormed.construct_spec (hp : p.WellFormed H held)
    (halive : ∀ m ∈ c.operands, p.Alive m) (hmade : p.construct H c = (.ok n, q)) :
    ∃ t, c.tree? p = some t ∧ q.tree? n = some t ∧
      (p.Alive n ↔ ∃ m, p.tree? m = some t) ∧
      (∀ m, q.Alive m ↔ m = n ∨ p.Alive m) ∧
      ∀ m, p.Alive m → q.tree? m = p.tree? m := by
  obtain ⟨k, hk, -, hnode, hwithin, hmore⟩ := hp.node?_construct halive hmade
  obtain ⟨ts, hts⟩ := exists_mapM_eq_some fun m hm => hp.closed.exists_tree (halive m hm)
  have hmoves := construct_moves hp halive
  rw [hmade] at hmoves
  have hq := hmoves.wellFormed hp
  have hold : ∀ m, p.Alive m → q.tree? m = p.tree? m := fun m hm =>
    hwithin.tree?_eq hp.closed hm
  have hts' : c.operands.mapM q.tree? = some ts := by
    rw [← hts]
    exact mapM_congr_left fun m hm => hold m (halive m hm)
  have hnew : q.tree? n = some (.node k ts) :=
    hq.closed.tree?_eq_some_iff.mpr ⟨c.operands, hnode, mapM_eq_some_iff.mp hts'⟩
  refine ⟨.node k ts, Construction.tree?_eq hk hts, hnew, ?_, hmore, hold⟩
  rw [← hp.exists_node_iff hts]
  constructor
  · intro hn
    exact ⟨n, (hwithin.node?_eq hn).symm.trans hnode⟩
  · rintro ⟨m, hm⟩
    obtain rfl := hq.canonical (hwithin hm) hnode
    exact alive_iff_node.mpr ⟨_, hm⟩

end TensorCost.Pool
