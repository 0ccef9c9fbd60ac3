import TensorCost.Kind

/-!
# Reports

A `Report` tells what an expression costs: the total, the number of nodes, how many of them are
shared, and, as far as it was asked for, totals by kind and the most expensive nodes.

* `KindTable` holds totals by kind, in the order of the kinds' names.
* `Report.isFree`, `Report.kindCost?` and `Report.explanation` answer questions about a report.

Results:
* `KindTable.insert_sorted`: the names in a table stay in strictly ascending order.
-/

namespace TensorCost

/-- Nodes of one kind and their flops. -/
structure KindCost where
  nodes : Nat
  flops : Nat
  deriving DecidableEq, Repr

/-- One of the most expensive nodes. -/
structure Hotspot where
  /-- The position of the node in the traversal. -/
  position : Nat
  kind : String
  flops : Nat
  freeExtents : List Nat
  /-- The extents of the indices that are summed over, if any. -/
  reductionExtents : List Nat
  deriving DecidableEq, Repr

namespace KindTable

/-- The entries of a table with the one for `kind` replaced, or put in its place. -/
def insertEntry (kind : String) (cost : KindCost) :
    List (String × KindCost) → List (String × KindCost)
  | [] => [(kind, cost)]
  | (k, c) :: rest =>
    if kind < k then (kind, cost) :: (k, c) :: rest
    else if kind = k then (kind, cost) :: rest
    else (k, c) :: insertEntry kind cost rest

theorem mem_insertEntry {kind : String} {cost : KindCost} {entries : List (String × KindCost)}
    {e : String × KindCost} (h : e ∈ insertEntry kind cost entries) :
    e = (kind, cost) ∨ e ∈ entries := by
  induction entries with
  | nil => simpa [insertEntry] using h
  | cons head rest ih =>
    obtain ⟨k, c⟩ := head
    unfold insertEntry at h
    split at h
    · simpa using h
    · split at h <;> simp only [List.mem_cons] at h ⊢
      · exact h.imp_right Or.inr
      · exact h.elim (fun h => Or.inr (Or.inl h)) fun h => (ih h).imp_right Or.inr

theorem insert_sorted (kind : String) (cost : KindCost) {entries : List (String × KindCost)}
    (h : entries.Pairwise fun a b => a.1 < b.1) :
    (insertEntry kind cost entries).Pairwise fun a b => a.1 < b.1 := by
  induction entries with
  | nil => simp [insertEntry]
  | cons head rest ih =>
    obtain ⟨k, c⟩ := head
    obtain ⟨hk, hrest⟩ := List.pairwise_cons.1 h
    unfold insertEntry
    split
    next hlt =>
      exact List.pairwise_cons.2
        ⟨fun e he => (List.mem_cons.1 he).elim (fun h => h ▸ hlt)
          fun he => String.lt_trans hlt (hk e he), h⟩
    next hnlt =>
      split
      next heq => exact List.pairwise_cons.2 ⟨fun e he => heq ▸ hk e he, hrest⟩
      next hne =>
        refine List.pairwise_cons.2 ⟨fun e he => ?_, ih hrest⟩
        rcases mem_insertEntry he with rfl | he
        · exact String.not_le.1 fun hle => hne (String.le_antisymm hle (String.not_lt.1 hnlt))
        · exact hk e he

end KindTable

/-- Totals by kind, in strictly ascending order of the kinds' names. -/
structure KindTable where
  entries : List (String × KindCost)
  sorted : entries.Pairwise fun a b => a.1 < b.1
  deriving DecidableEq

namespace KindTable

/-- The table without entries. -/
def empty : KindTable := ⟨[], .nil⟩

/-- Sets the totals of a kind. -/
def insert (t : KindTable) (kind : String) (cost : KindCost) : KindTable :=
  ⟨insertEntry kind cost t.entries, insert_sorted kind cost t.sorted⟩

/-- The totals of a kind, if it has an entry. -/
def get? (t : KindTable) (kind : String) : Option KindCost := t.entries.lookup kind

end KindTable

/-- What an expression costs. -/
structure Report where
  totalFlops : Nat
  nodeCount : Nat
  /-- How many nodes are referred to twice or more. -/
  sharedNodeCount : Nat
  /-- Totals by kind, empty unless they were asked for. -/
  byKind : KindTable := .empty
  /-- The most expensive nodes, the most expensive first. -/
  hotspots : List Hotspot := []
  deriving DecidableEq

namespace Report

/-- Whether nothing is computed at all. -/
def isFree (r : Report) : Bool := r.totalFlops == 0

/-- The totals of a kind, if they were asked for and the kind occurs. -/
def kindCost? (r : Report) (kind : String) : Option KindCost := r.byKind.get? kind

/-- A summary in one sentence. -/
def explanation (r : Report) : String :=
  if r.nodeCount = 0 then "Empty expression: 0 flops"
  else s!"{r.totalFlops} flops over {r.nodeCount} distinct nodes ({r.sharedNodeCount} shared)"

end Report

end TensorCost
