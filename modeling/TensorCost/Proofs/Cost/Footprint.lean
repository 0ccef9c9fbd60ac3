import TensorCost.Proofs.Cost.Agreement
import TensorCost.Proofs.Pool.Counters
import TensorCost.Proofs.Pool.Footprint
import TensorCost.Proofs.Walk

/-!
# What pricing leaves behind

Pricing asks for the free indices of the nodes that compute something, and of no others, and they
are kept then at these nodes and below. A count stops at the first node that it refuses, so what it
leaves behind is told by the nodes up to this one. An analysis asks for the free indices of hotspots
besides; these have just been priced, so there is nothing left to derive.

* `Pool.Computes` says of which nodes the free indices are asked for.
* `Pool.looked` are the nodes that a fold over prices looks at.
* `Analyzer.analyzeReading` is an analysis that puts what is kept through the look at each hotspot.

Results:
* `keeps_price_iff`, `keeps_foldPrices_iff`: what pricing one node and pricing several keep.
* `analyzeReading_eq`: looking at hotspots leaves nothing behind.
* `Reachable.pricing_footprint`: what a count and an analysis leave behind in a session.
-/

namespace TensorCost

/-- Whether nodes of the kind compute something: arithmetic, and sums over indices. -/
def Kind.computes : Kind → Bool
  | .sum | .product | .division | .power | .comparison _ | .mathFunction _ | .indexSum _ => true
  | _ => false

theorem Kind.computes_iff {k : Kind} : k.computes = true ↔ ∃ bound, k.costRule = .loops bound := by
  cases k <;> simp [computes, costRule]

namespace Pool

/-- Whether a node lives and is of a kind that computes something. -/
def Computes (p : Pool) (n : NodeId) : Prop := (p.kind? n).any Kind.computes

instance (p : Pool) (n : NodeId) : Decidable (p.Computes n) :=
  inferInstanceAs (Decidable (_ = true))

variable {p q : Pool} {n m : NodeId} {ns : List NodeId} {flops : Nat}

theorem computes_iff_kind : p.Computes n ↔ ∃ k, p.kind? n = some k ∧ k.computes = true :=
  Option.any_eq_true _ _

theorem Computes.alive (h : p.Computes n) : p.Alive n := by
  obtain ⟨k, hk, -⟩ := computes_iff_kind.mp h
  rw [kind?_eq_node] at hk
  obtain ⟨x, hx, -⟩ := Option.map_eq_some_iff.mp hk
  exact alive_iff_node.mpr ⟨x, hx⟩

theorem Derivation.computes_iff (h : Derivation p q) : q.Computes n ↔ p.Computes n := by
  unfold Computes
  rw [h.kind?_eq]

/-! ## One node -/

/-- Where something is computed, pricing asks for the free indices. -/
theorem price_of_computes (h : p.Computes n) : (p.price n).2 = (p.freeIndices n).2 := by
  obtain ⟨k, hk, hcomputes⟩ := computes_iff_kind.mp h
  obtain ⟨bound, hrule⟩ := Kind.computes_iff.mp hcomputes
  unfold price
  rw [hk]
  simp only [hrule]
  split <;> rfl

/-- Where nothing is computed, pricing leaves the pool alone, and there are no flops. -/
theorem price_of_not_computes (h : ¬ p.Computes n) :
    (p.price n).2 = p ∧ ∀ flops, (p.price n).1 = .ok flops → flops = 0 := by
  unfold price
  split
  · exact ⟨rfl, fun flops hflops => (Except.ok.inj hflops).symm⟩
  · rename_i k hk
    split
    · exact ⟨rfl, fun flops hflops => (Except.ok.inj hflops).symm⟩
    · exact ⟨rfl, fun flops hflops => by simp at hflops⟩
    · rename_i bound hrule
      exact absurd (computes_iff_kind.mpr ⟨k, hk, Kind.computes_iff.mpr ⟨bound, hrule⟩⟩) h

/-- **What pricing a node keeps**, beside what is kept already. -/
theorem keeps_price_iff (hclosed : p.Closed) (hp : p.Derived) :
    (p.price n).2.Keeps m ↔ p.Keeps m ∨ p.Computes n ∧ p.Reaches n m := by
  by_cases h : p.Computes n
  · rw [price_of_computes h, keeps_freeIndices_iff hclosed hp]
    simp only [h, h.alive]
  · rw [(price_of_not_computes h).1]
    simp [h]

/-- A node with flops has its free indices kept once it has been priced. -/
theorem keeps_of_flops_pos (hclosed : p.Closed) (hp : p.Derived)
    (hprice : (p.price n).1 = .ok flops) (hpos : 0 < flops) : (p.price n).2.Keeps n := by
  refine (keeps_price_iff hclosed hp).mpr (.inr ⟨?_, .refl n⟩)
  by_contra h
  exact Nat.ne_of_gt hpos ((price_of_not_computes h).2 flops hprice)

/-- If free indices are kept of a node that computes something, pricing changes nothing. -/
theorem price_of_keeps (h : p.Computes n → p.Keeps n) : (p.price n).2 = p := by
  by_cases hn : p.Computes n
  · rw [price_of_computes hn, freeIndices_of_keeps (h hn)]
  · exact (price_of_not_computes hn).1

/-! ## Several nodes -/

variable {σ : Type} {step : Pool → σ → NodeId → Nat → Except Error σ} {s t : σ} {e : Error}

/-- The nodes that a fold over prices looks at: all of them, or those up to the first that it
refuses. -/
def looked (step : Pool → σ → NodeId → Nat → Except Error σ) : Pool → σ → List NodeId → List NodeId
  | _, _, [] => []
  | p, s, n :: rest =>
    match p.price n with
    | (.error _, _) => [n]
    | (.ok flops, q) =>
      match step q s n flops with
      | .error _ => [n]
      | .ok s' => n :: looked step q s' rest

theorem looked_prefix (p : Pool) (s : σ) (ns : List NodeId) : looked step p s ns <+: ns := by
  induction ns generalizing p s with
  | nil => exact List.prefix_rfl
  | cons n ns ih =>
    have hone : [n] <+: n :: ns := ⟨ns, rfl⟩
    unfold looked
    split
    · exact hone
    · split
      · exact hone
      · exact List.prefix_cons_inj n |>.mpr (ih _ _)

theorem looked_of_ok (h : (foldPrices step p s ns).1 = .ok t) : looked step p s ns = ns := by
  induction ns generalizing p s with
  | nil => rfl
  | cons n ns ih =>
    unfold foldPrices at h
    unfold looked
    cases hprice : p.price n with
    | mk price q =>
      rw [hprice] at h
      cases price with
      | error e => simp at h
      | ok flops =>
        simp only at h ⊢
        cases hstep : step q s n flops with
        | error e => simp [hstep] at h
        | ok s' =>
          rw [hstep] at h
          exact congrArg (n :: ·) (ih h)

/-- **A fold that fails** does so at the last node that it looks at. -/
theorem looked_of_error (h : (foldPrices step p s ns).1 = .error e) :
    ∃ before n, looked step p s ns = before ++ [n] ∧
      (∃ t, (foldPrices step p s before).1 = .ok t) ∧
      (foldPrices step p s (before ++ [n])).1 = .error e := by
  induction ns generalizing p s with
  | nil => simp [foldPrices] at h
  | cons n ns ih =>
    unfold foldPrices at h
    unfold looked
    cases hprice : p.price n with
    | mk price q =>
      rw [hprice] at h
      cases price with
      | error e' => exact ⟨[], n, rfl, ⟨s, rfl⟩, by simpa [foldPrices, hprice] using h⟩
      | ok flops =>
        simp only at h ⊢
        cases hstep : step q s n flops with
        | error e' =>
          rw [hstep] at h
          exact ⟨[], n, rfl, ⟨s, rfl⟩, by simpa [foldPrices, hprice, hstep] using h⟩
        | ok s' =>
          rw [hstep] at h
          obtain ⟨before, m, hlooked, ⟨t, hbefore⟩, hlast⟩ := ih h
          have hcons : ∀ ms, foldPrices step p s (n :: ms) = foldPrices step q s' ms := fun ms => by
            rw [foldPrices, hprice]
            simp only [hstep]
          refine ⟨n :: before, m, congrArg (n :: ·) hlooked, ⟨t, ?_⟩, ?_⟩
          · rw [hcons, hbefore]
          · rw [List.cons_append, hcons, hlast]

/-- The nodes that are looked at are told by a place where the fold goes on no longer. -/
theorem looked_append {before after : List NodeId}
    (hbefore : (foldPrices step p s before).1 = .ok t)
    (hlast : (foldPrices step p s (before ++ [n])).1 = .error e) :
    looked step p s (before ++ n :: after) = before ++ [n] := by
  induction before generalizing p s with
  | nil =>
    rw [List.nil_append, foldPrices] at hlast
    rw [List.nil_append, looked]
    split
    · rfl
    · rename_i flops q hprice
      rw [hprice] at hlast
      simp only [foldPrices] at hlast
      split
      · rfl
      · rename_i s' hstep
        simp [hstep] at hlast
  | cons m before ih =>
    rw [foldPrices] at hbefore
    rw [List.cons_append, foldPrices] at hlast
    rw [List.cons_append, looked]
    split
    · rename_i hprice
      simp [hprice] at hbefore
    · rename_i flops q hprice
      rw [hprice] at hbefore hlast
      simp only at hbefore hlast
      split
      · rename_i hstep
        simp [hstep] at hbefore
      · rename_i s' hstep
        rw [hstep] at hbefore hlast
        exact congrArg (m :: ·) (ih hbefore hlast)

/-- **What pricing several nodes keeps**, beside what is kept already. -/
theorem keeps_foldPrices_iff (hclosed : p.Closed) (hp : p.Derived) :
    (foldPrices step p s ns).2.Keeps m ↔
      p.Keeps m ∨ ∃ n ∈ looked step p s ns, p.Computes n ∧ p.Reaches n m := by
  induction ns generalizing p s with
  | nil => simp [foldPrices, looked]
  | cons n ns ih =>
    have hfirst := keeps_price_iff hclosed hp (n := n) (m := m)
    have hder := (price_spec hclosed hp n).2
    unfold foldPrices looked
    cases hprice : p.price n with
    | mk price q =>
      rw [hprice] at hfirst hder
      cases price with
      | error e => simpa using hfirst
      | ok flops =>
        simp only
        cases step q s n flops with
        | error e => simpa using hfirst
        | ok s' =>
          rw [ih (hder.closed hclosed) (hder.derived hclosed hp), hfirst]
          simp only [hder.computes_iff, hder.sameRecords.reaches_iff, List.exists_mem_cons_iff,
            or_assoc]

/-- If free indices are kept of all nodes that compute something, a fold over prices changes
nothing. -/
theorem foldPrices_of_keeps (h : ∀ n ∈ ns, p.Computes n → p.Keeps n) :
    (foldPrices step p s ns).2 = p := by
  induction ns generalizing s with
  | nil => rfl
  | cons n ns ih =>
    have hfirst := price_of_keeps (h n List.mem_cons_self)
    unfold foldPrices
    cases hprice : p.price n with
    | mk price q =>
      rw [hprice] at hfirst
      obtain rfl : q = p := hfirst
      cases price with
      | error e => rfl
      | ok flops =>
        simp only
        cases step q s n flops with
        | error e => rfl
        | ok s' => exact ih fun m hm => h m (List.mem_cons_of_mem _ hm)

/-! ## Reading on the way -/

/-- Folds prices, with a look at each node after its step that may change what is kept. -/
def foldPricesReading (read : Pool → NodeId → Nat → Pool)
    (step : Pool → σ → NodeId → Nat → Except Error σ) :
    Pool → σ → List NodeId → Except Error σ × Pool
  | p, s, [] => (.ok s, p)
  | p, s, n :: rest =>
    match p.price n with
    | (.error e, q) => (.error e, q)
    | (.ok flops, q) =>
      match step q s n flops with
      | .error e => (.error e, q)
      | .ok s' => foldPricesReading read step (read q n flops) s' rest

/-- Looks that change nothing can be left out. -/
theorem foldPricesReading_eq {read : Pool → NodeId → Nat → Pool}
    (hread : ∀ {p : Pool} {n flops}, p.Closed → p.Derived → (p.price n).1 = .ok flops →
      read (p.price n).2 n flops = (p.price n).2)
    (hclosed : p.Closed) (hp : p.Derived) (s : σ) (ns : List NodeId) :
    foldPricesReading read step p s ns = foldPrices step p s ns := by
  induction ns generalizing p s with
  | nil => rfl
  | cons n ns ih =>
    have hder := (price_spec hclosed hp n).2
    have hlook : ∀ flops, (p.price n).1 = .ok flops → read (p.price n).2 n flops = (p.price n).2 :=
      fun flops => hread hclosed hp
    unfold foldPricesReading foldPrices
    cases hprice : p.price n with
    | mk price q =>
      rw [hprice] at hder hlook
      cases price with
      | error e => rfl
      | ok flops =>
        simp only
        cases step q s n flops with
        | error e => rfl
        | ok s' =>
          rw [hlook flops rfl]
          exact ih (hder.closed hclosed) (hder.derived hclosed hp) s'

end Pool

namespace Analyzer

open Pool

variable {p : Pool}

/-- The pool once a node has been looked at for the list of hotspots. -/
def readHotspot (c : Config) (p : Pool) (n : NodeId) (flops : Nat) : Pool :=
  if 0 < c.hotspotLimit ∧ 0 < flops then (p.freeIndices n).2 else p

/-- An analysis in which each look at a hotspot keeps the free indices that it asks for. -/
def analyzeReading (a : Analyzer) (p : Pool) (roots : List NodeId) : Except Error Report × Pool :=
  let counts := p.referenceCounts roots
  let (result, q) :=
    foldPricesReading (readHotspot a.config) (addNode a.config counts) p {} (p.traverse roots)
  (result.map (Draft.report a), q)

/-- **Looking at hotspots** leaves nothing behind that pricing has not left. -/
theorem analyzeReading_eq (a : Analyzer) (hclosed : p.Closed) (hp : p.Derived)
    (roots : List NodeId) : a.analyzeReading p roots = a.analyze p roots := by
  have hread : ∀ {p : Pool} {n flops}, p.Closed → p.Derived → (p.price n).1 = .ok flops →
      readHotspot a.config (p.price n).2 n flops = (p.price n).2 := by
    intro p n flops hclosed hp hprice
    unfold readHotspot
    -- a hotspot has a price above zero, so it computes something and has just been asked
    split
    · rename_i hlook
      exact freeIndices_of_keeps (keeps_of_flops_pos hclosed hp hprice hlook.2)
    · rfl
  unfold analyzeReading
  simp only [foldPricesReading_eq hread hclosed hp]
  rfl

theorem analyze_snd (a : Analyzer) (p : Pool) (roots : List NodeId) :
    (a.analyze p roots).2 = (p.count roots).2 :=
  (foldPrices_addNode_agree a.config (p.referenceCounts roots) p (p.traverse roots)).2

end Analyzer

namespace Session

open Pool (foldPrices addFlops)

variable {H : NodeHash} {s : Session} {roots : List NodeId}

/-- What has been counted can be counted again without a change. -/
theorem WellFormed.count_count (hs : s.WellFormed H) {total : Nat}
    (h : (s.pool.count roots).1 = .ok total) :
    ((s.pool.count roots).2.count roots).2 = (s.pool.count roots).2 := by
  have hclosed := hs.pool.closed
  have hp := hs.pool.derived
  have hder := (Pool.count_spec hclosed hp roots).2
  have horder : (s.pool.count roots).2.traverse roots = s.pool.traverse roots :=
    hder.sameRecords.traverse_eq roots
  have hall : Pool.looked addFlops s.pool 0 (s.pool.traverse roots) = s.pool.traverse roots :=
    Pool.looked_of_ok h
  refine Pool.foldPrices_of_keeps fun n hn hcomputes => ?_
  rw [horder, ← hall] at hn
  exact (Pool.keeps_foldPrices_iff hclosed hp).mpr
    (.inr ⟨n, hn, hder.computes_iff.mp hcomputes, .refl n⟩)

/-- A report leaves behind what a count does. -/
theorem WellFormed.report_eq_count (hs : s.WellFormed H) (a : Analyzer) :
    (s.report roots a).2 = { s with pool := (s.pool.count roots).2 } := by
  have hpool := a.analyze_snd s.pool roots
  have htotal := a.map_totalFlops_analyze s.pool roots
  unfold Session.report
  cases hresult : a.analyze s.pool roots with
  | mk result q =>
    rw [hresult] at hpool htotal
    obtain rfl : q = (s.pool.count roots).2 := hpool
    cases result with
    | error e => rfl
    | ok r =>
      simp only [ofPool]
      rw [hs.count_count htotal.symm]

/-- **What pricing leaves behind.** In a reachable session, let `q` be the pool after a count of any
roots. The count looks at the nodes of the traversal in turn, up to the one at which it fails if it
does. Free indices are kept in `q` of the nodes of which they were kept before, and of the nodes
below those looked at that compute something, these included, and of no others. Nothing else is
changed: nodes, buckets and counters are the same, as many nodes live, and walks go on as they would
have gone on. An analysis, whatever its configuration, leaves the same pool, also if its looks at
hotspots are allowed to keep what they ask for, and so does each of the two commands. -/
theorem Reachable.pricing_footprint (h : s.Reachable H) (roots : List NodeId) :
    let p := s.pool
    let q := (p.count roots).2
    let looked := Pool.looked addFlops p 0 (p.traverse roots)
    looked <+: p.traverse roots ∧
    (∀ total, (p.count roots).1 = .ok total → looked = p.traverse roots) ∧
    (∀ e, (p.count roots).1 = .error e → ∃ before n, looked = before ++ [n] ∧
      (∃ total, (foldPrices addFlops p 0 before).1 = .ok total) ∧
      (foldPrices addFlops p 0 (before ++ [n])).1 = .error e) ∧
    (∀ m, q.Keeps m ↔ p.Keeps m ∨ ∃ n ∈ looked, p.Computes n ∧ p.Reaches n m) ∧
    p.SameButKept q ∧ q.liveCount = p.liveCount ∧
    (∀ w : Walk, w.next q = w.next p ∧ w.drain q = w.drain p) ∧
    (∀ a : Analyzer, (a.analyze p roots).2 = q ∧ a.analyzeReading p roots = a.analyze p roots) ∧
    ∀ names, names.mapM s.node = .ok roots →
      (s.step H (.count names)).2 = { s with pool := q } ∧
      ∀ source? a, analyzer source? = .ok a →
        (s.step H (.report names source?)).2 = { s with pool := q } := by
  intro p q looked
  have hs := h.wellFormed
  have hclosed := hs.pool.closed
  have hp := hs.pool.derived
  have hder : Pool.Derivation p q := (Pool.count_spec hclosed hp roots).2
  have hops := hder.sameRecords.operands_eq
  refine ⟨Pool.looked_prefix _ _ _, fun total htotal => Pool.looked_of_ok htotal,
    fun e he => Pool.looked_of_error he, fun m => Pool.keeps_foldPrices_iff hclosed hp,
    hder.sameButKept, Pool.liveCount_congr fun n => hder.sameRecords.alive_iff,
    fun w => ⟨Walk.next_congr hops w, Walk.drain_congr hops w⟩,
    fun a => ⟨a.analyze_snd p roots, a.analyzeReading_eq hclosed hp roots⟩,
    fun names hnames => ⟨?_, fun source? a ha => ?_⟩⟩
  · simp only [Session.step, hnames, andThen, ofPool]
    rfl
  · simp only [Session.step, hnames, andThen, ha]
    exact hs.report_eq_count a

/-- A sum `x + x`, a Kronecker delta, and the product of the sum with itself. -/
def sumAndDelta : Session :=
  let H : NodeHash := fun _ _ => 0
  let p : Pool := (Pool.empty.construct H (.variable "x" [])).2
  let q : Pool := (p.construct H (.sum 0 0)).2
  let r : Pool := (q.construct H (.delta (.fixed 0) (.fixed 1))).2
  { pool := (r.construct H (.product 1 1)).2
    nodes := [("f", 3), ("d", 2), ("e", 1), ("x", 0)] }

theorem reachable_sumAndDelta : sumAndDelta.Reachable fun _ _ => 0 := by
  unfold sumAndDelta
  extract_lets H p q r
  have hx : Reachable H { pool := p, nodes := [("x", 0)] } :=
    Reachable.start.construct (c := .variable "x" []) rfl rfl (by decide +kernel) rfl
  have he : Reachable H { pool := q, nodes := [("e", 1), ("x", 0)] } :=
    hx.construct (c := .sum "x" "x") rfl rfl (by decide +kernel) rfl
  have hd : Reachable H { pool := r, nodes := [("d", 2), ("e", 1), ("x", 0)] } :=
    he.construct (c := .delta (.fixed 0) (.fixed 1)) rfl rfl (by decide +kernel) rfl
  have hmade : (r.construct H (.product 1 1)).1 = .ok 3 := by decide +kernel
  -- from here on nothing is looked up in the pool
  clear_value r
  exact hd.construct (c := .product "e" "e") rfl rfl hmade rfl

/-- The delta has no price, so a count that comes upon it before the product keeps free indices of
the sum and of its operand only. -/
theorem pricing_footprint_of_delta :
    (sumAndDelta.pool.count [1, 2, 3]).1 = .error (.unsupportedKind "Delta") ∧
      (∀ m, ¬ sumAndDelta.pool.Keeps m) ∧
      ∀ m, (sumAndDelta.pool.count [1, 2, 3]).2.Keeps m ↔ m = 0 ∨ m = 1 := by
  have hpool := reachable_sumAndDelta.wellFormed.pool
  have horder : sumAndDelta.pool.traverse [1, 2, 3] = [0, 1, 2, 3] := by
    rw [Pool.traverse_eq_postOrder]
    decide +kernel
  have hfold : ∀ ns, (foldPrices addFlops sumAndDelta.pool 0 ns).1 =
      Pool.foldCosts addFlops sumAndDelta.pool 0 ns := fun ns =>
    (Pool.foldPrices_spec Pool.addFlops_blind hpool.closed hpool.derived 0 ns).1
  have hcount : (sumAndDelta.pool.count [1, 2, 3]).1 = .error (.unsupportedKind "Delta") := by
    rw [Pool.count, hfold, horder]
    decide +kernel
  have hlooked : Pool.looked addFlops sumAndDelta.pool 0 [0, 1, 2, 3] = [0, 1, 2] := by
    show Pool.looked addFlops sumAndDelta.pool 0 ([0, 1] ++ 2 :: [3]) = [0, 1] ++ [2]
    refine Pool.looked_append (t := 1) (e := .unsupportedKind "Delta") ?_ ?_
    all_goals
      rw [hfold]
      decide +kernel
  obtain ⟨-, -, -, hkeeps, -⟩ := reachable_sumAndDelta.pricing_footprint [1, 2, 3]
  have hnone : ∀ m, ¬ sumAndDelta.pool.Keeps m := by
    intro m hm
    have hallocated : sumAndDelta.pool.allocated = 4 := by decide +kernel
    have hlt : m < 4 := hallocated ▸ Pool.lt_allocated (Pool.alive_of_derived hm)
    have hpending : ∀ m < 4, (sumAndDelta.pool.derived? m).isSome = false := by decide +kernel
    exact Bool.false_ne_true ((hpending m hlt).symm.trans hm)
  refine ⟨hcount, hnone, fun m => ?_⟩
  have hcomputes : ∀ k ∈ [0, 1, 2], sumAndDelta.pool.Computes k ↔ k = 1 := by decide +kernel
  have hsum : sumAndDelta.pool.operands 1 = [0, 0] := by decide +kernel
  have hx : sumAndDelta.pool.operands 0 = [] := by decide +kernel
  have hbelow : sumAndDelta.pool.Reaches 1 m ↔ m = 0 ∨ m = 1 := by
    rw [Pool.reaches_iff_eq_or, hsum]
    simp [Pool.reaches_iff_eq_or (n := 0), hx, or_comm]
  rw [hkeeps, or_iff_right (hnone m), horder, hlooked, ← hbelow]
  constructor
  · rintro ⟨k, hk, hcomputes', hreach⟩
    rwa [(hcomputes k hk).mp hcomputes'] at hreach
  · exact fun hreach => ⟨1, by decide, (hcomputes 1 (by decide)).mpr rfl, hreach⟩

end Session

end TensorCost
