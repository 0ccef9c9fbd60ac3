import TensorCost.Proofs.Pool.Canonicity
import TensorCost.Proofs.Session.Reachable

/-!
# Hash-consing

In a reachable session, being the same node, being equal and standing for the same expression are
one thing. No property of the hash is used, so this holds also if all nodes share a bucket.

Results:
* `Reachable.hash_consing`: living nodes are told apart by their expressions, and a construction
  answers with a living node iff one stands for the expression that it writes down.
* `Reachable.exists_construct`: a construction over fit operands leads on to a session in which a
  new name stands for what it writes down.
-/

namespace TensorCost.Session

open Pool

variable {H : NodeHash} {s : Session}

/-- **Hash-consing.** Two living nodes are one iff they are equal, and iff they stand for the same
expression. A construction over living nodes that is not refused answers with the node of the
expression that it writes down. That node was alive before iff some node stood for the expression,
and if not, it is the only new one. -/
theorem Reachable.hash_consing (h : s.Reachable H) :
    (∀ a b, s.pool.Alive a → s.pool.Alive b →
      ∃ t u, s.pool.tree? a = some t ∧ s.pool.tree? b = some u ∧
        (a = b ↔ s.pool.same a b = true) ∧ (a = b ↔ t = u)) ∧
    ∀ c n q, (∀ m ∈ c.operands, s.pool.Alive m) → s.pool.construct H c = (.ok n, q) →
      ∃ t, c.tree? s.pool = some t ∧ q.tree? n = some t ∧
        (s.pool.Alive n ↔ ∃ m, s.pool.tree? m = some t) ∧
        (∀ m, q.Alive m ↔ m = n ∨ s.pool.Alive m) ∧
        ∀ m, s.pool.Alive m → q.tree? m = s.pool.tree? m := by
  have hpool := h.wellFormed.pool
  refine ⟨fun a b ha hb => ?_, fun c n q halive hmade => hpool.construct_spec halive hmade⟩
  obtain ⟨t, ht⟩ := hpool.closed.exists_tree ha
  obtain ⟨u, hu⟩ := hpool.closed.exists_tree hb
  refine ⟨t, u, ht, hu, hpool.same_iff.symm, ?_, ?_⟩
  · rintro rfl
    exact Option.some.inj (ht.symm.trans hu)
  · rintro rfl
    exact hpool.tree_inj ht hu

/-- With one hash for all nodes, a variable that is asked for again is the one that is there, and a
variable of another name is a new node. -/
theorem hash_consing_of_collisions :
    let H : NodeHash := fun _ _ => 0
    let s : Session := (({} : Session).step H (.construct (some "x") (.variable "x" []))).2
    (∃ n q, s.pool.construct H (.variable "x" []) = (.ok n, q) ∧ s.pool.Alive n) ∧
      ∃ n q, s.pool.construct H (.variable "y" []) = (.ok n, q) ∧ ¬ s.pool.Alive n := by
  intro H s
  have hleaf : ∀ (p : Pool) (name : String),
      ∀ m ∈ (.variable name [] : Construction NodeId Index).operands, p.Alive m :=
    fun p name m hm => absurd hm List.not_mem_nil
  have hmakes : ∀ (p : Pool) (name : String), ∃ n q,
      p.construct H (.variable name []) = (.ok n, q) := fun p name => ⟨_, _, rfl⟩
  -- the first construction leaves one node, which stands for the variable
  obtain ⟨x, q, hq⟩ := hmakes .empty "x"
  have hs : s.pool = q := by
    show Pool.releaseAll ((Pool.empty.construct H (.variable "x" [])).2) [] = q
    rw [Pool.releaseAll, hq]
  obtain ⟨tx, hx, hnode, -, halive, -⟩ :=
    (Reachable.start : Reachable H {}).hash_consing.2 _ x q (hleaf _ "x") hq
  obtain rfl := Option.some.inj hx
  rw [← hs] at hnode halive
  have hsecond := (Reachable.start.step _ : s.Reachable H).hash_consing.2
  constructor
  · obtain ⟨n, q, hq⟩ := hmakes s.pool "x"
    obtain ⟨t, ht, -, hfound, -⟩ := hsecond _ n q (hleaf _ "x") hq
    obtain rfl := Option.some.inj ht
    exact ⟨n, q, hq, hfound.mpr ⟨x, hnode⟩⟩
  · obtain ⟨n, q, hq⟩ := hmakes s.pool "y"
    obtain ⟨t, ht, -, hfound, -⟩ := hsecond _ n q (hleaf _ "y") hq
    obtain rfl := Option.some.inj ht
    refine ⟨n, q, hq, fun hn => ?_⟩
    obtain ⟨m, hm⟩ := hfound.mp hn
    rcases (halive m).mp (Pool.alive_of_tree hm) with rfl | hempty
    · rw [hnode] at hm
      exact absurd hm (by simp)
    · exact absurd hempty (Pool.not_alive_iff.mpr (Pool.cell?_empty m))

/-- **Building.** A construction over operands that are fit for it, under a new name, leads on to a
session in which the name stands for the expression that it writes down. The other nodes stand for
what they stood for before. -/
theorem Reachable.exists_construct {c : Construction Name Name}
    {d : Construction NodeId Index} {k : Kind} {ts : List Tree} (h : s.Reachable H) (name : Name)
    (hsymbol : c.checkSymbol = .ok ()) (hresolve : c.resolve s.node s.index = .ok d)
    (hkind : d.kind? = some k) (hadmits : s.pool.Admits k d.operands)
    (hts : d.operands.mapM s.pool.tree? = some ts) (hfresh : s.nodes.lookup name = none) :
    ∃ n q, q.tree? n = some (.node k ts) ∧ (∀ m, s.pool.Alive m → q.tree? m = s.pool.tree? m) ∧
      Reachable H { s with pool := q, nodes := s.nodes.set name n } := by
  have hpool := h.wellFormed.pool
  have halive : ∀ m ∈ d.operands, s.pool.Alive m := h.wellFormed.alive_operands hresolve
  obtain ⟨n, q, hmade⟩ := hpool.exists_construct halive hkind hadmits
  obtain ⟨t, ht, hnew, -, -, hold⟩ := hpool.construct_spec halive hmade
  obtain rfl := Option.some.inj ((Construction.tree?_eq hkind hts).symm.trans ht)
  have hnext : Reachable H
      { s with pool := (s.pool.construct H d).2, nodes := s.nodes.set name n } :=
    h.construct hsymbol hresolve (by rw [hmade]) hfresh
  rw [hmade] at hnext
  exact ⟨n, q, hnew, hold, hnext⟩

end TensorCost.Session
