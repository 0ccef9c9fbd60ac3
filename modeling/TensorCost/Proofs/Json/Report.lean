import Mathlib.Data.List.Induction
import TensorCost.Proofs.Json.RoundTrip
import TensorCost.Proofs.Lists
import TensorCost.Report.Json

/-!
# Reports read back

A report is written as an object of its fields, and read from any object that gives them, in any
order. Counts fit in 64 bits wherever a report comes from, so they are read; the names of kinds may
be any texts.

* `KindCost.Fits`, `Hotspot.Fits` and `Report.Fits` say that every count fits in 64 bits.

Results:
* `fields?_ofMembers`: an object that gives the fields of a record once each is read as these.
* `KindTable.ofEntries_entries`: entries in ascending order make up the table they come from.
* `Report.parse?_render`: the text of a report is read as this report.
-/

namespace TensorCost

namespace Json

/-! ## Parts of values -/

variable {α : Type}

theorem count?_ofNat {n : Nat} (h : n ≤ Checked.limit) : (ofNat n).count? = some n :=
  if_pos h

theorem mapM_map_eq_some {write : α → Json} {read : Json → Option α} {as : List α}
    (h : ∀ a ∈ as, read (write a) = some a) : (as.map write).mapM read = some as := by
  induction as with
  | nil => rfl
  | cons a as ih =>
    have ha := h a List.mem_cons_self
    have has := ih fun b hb => h b (List.mem_cons_of_mem _ hb)
    simp [ha, has]

theorem items?_map {write : α → Json} {read : Json → Option α} {as : List α}
    (h : ∀ a ∈ as, read (write a) = some a) : items? read (.array (as.map write)) = some as :=
  mapM_map_eq_some h

theorem members?_map {write : α → Json} {read : Json → Option α} {es : List (String × α)}
    (h : ∀ e ∈ es, read (write e.2) = some e.2) :
    members? read (.ofMembers (es.map fun e => (e.1, write e.2))) = some es := by
  unfold members? ofMembers
  induction es with
  | nil => rfl
  | cons e es ih =>
    have he := h e List.mem_cons_self
    have hes := ih fun d hd => h d (List.mem_cons_of_mem _ hd)
    simp only [List.map_cons, List.mapM_cons, Option.bind_eq_bind, Option.bind_some, he]
    simp only [Option.bind_eq_bind] at hes
    rw [hes]
    rfl

/-- Among members with distinct names, a name stands for its only member. -/
theorem uniqueMember?_of_nodup {ms : List (String × Json)} (h : (ms.map Prod.fst).Nodup)
    {m : String × Json} (hm : m ∈ ms) :
    uniqueMember? (ms.map fun m => (some m.1, m.2)) m.1 = some (some m.2) := by
  obtain ⟨before, after, rfl⟩ := List.append_of_mem hm
  rw [List.map_append, List.map_cons, List.nodup_append, List.nodup_cons] at h
  obtain ⟨-, ⟨hafter, -⟩, hbefore⟩ := h
  have hother : ∀ ns : List (String × Json), m.1 ∉ ns.map Prod.fst →
      (ns.map fun n => ((some n.1, n.2) : Text × Json)).filter (fun n => n.1 == some m.1) = [] := by
    intro ns hns
    refine List.filter_eq_nil_iff.mpr fun n hn heq => hns ?_
    obtain ⟨k, hk, rfl⟩ := List.mem_map.mp hn
    exact List.mem_map.mpr ⟨k, hk, by simpa using heq⟩
  have hnot : m.1 ∉ before.map Prod.fst := fun hmem => hbefore _ hmem _ List.mem_cons_self rfl
  unfold uniqueMember?
  rw [List.map_append, List.map_cons, List.filter_append, hother before hnot, List.nil_append,
    List.filter_cons_of_pos (by simp), hother after hafter]

/-- **A record** that gives its fields once each is read as these. -/
theorem fields?_ofMembers {format : RecordFormat} {ms : List (String × Json)}
    (hnames : ms.map Prod.fst = format.names) (hnodup : format.names.Nodup) :
    (ofMembers ms).fields? format = some (ms.map fun m => some m.2) := by
  have hnone : (ms.map fun m => ((some m.1, m.2) : Text × Json)).any
      (fun m => m.1.isNone) = false := by simp
  have hknown : (ms.map fun m => ((some m.1, m.2) : Text × Json)).any
      (fun m => !format.names.any fun name => m.1 == some name) = false := by
    rw [← hnames]
    simp only [List.any_eq_false, List.mem_map]
    rintro _ ⟨m, hm, rfl⟩
    simp only [Bool.not_eq_true, Bool.not_eq_false', List.any_eq_true]
    exact ⟨m.1, List.mem_map.mpr ⟨m, hm, rfl⟩, by simp⟩
  have hfields : format.names.mapM (uniqueMember? (ms.map fun m => (some m.1, m.2))) =
      some (ms.map fun m => some m.2) := by
    rw [← hnames] at hnodup ⊢
    rw [mapM_eq_some_iff, List.forall₂_map_left_iff, List.forall₂_map_right_iff,
      List.forall₂_same]
    exact fun m hm => uniqueMember?_of_nodup hnodup hm
  rw [ofMembers, fields?, hnone, hknown, hfields]
  simp

end Json

open Json

namespace KindCost

/-- Whether the counts fit in 64 bits. -/
structure Fits (c : KindCost) : Prop where
  nodes : c.nodes ≤ Checked.limit
  flops : c.flops ≤ Checked.limit

theorem exact_toJson (c : KindCost) : c.toJson.Exact :=
  .object (by simp [Exact.integer, ofNat])

theorem ofJson?_toJson {c : KindCost} (h : c.Fits) : ofJson? c.toJson = some c := by
  unfold ofJson? toJson
  rw [fields?_ofMembers rfl (by decide)]
  simp [required, count?_ofNat h.nodes, count?_ofNat h.flops]

end KindCost

namespace Hotspot

/-- Whether the counts fit in 64 bits. -/
structure Fits (h : Hotspot) : Prop where
  position : h.position ≤ Checked.limit
  flops : h.flops ≤ Checked.limit
  freeExtents : ∀ n ∈ h.freeExtents, n ≤ Checked.limit
  reductionExtents : ∀ n ∈ h.reductionExtents, n ≤ Checked.limit

theorem exact_toJson (h : Hotspot) : h.toJson.Exact := by
  have hcount : ∀ n, (ofNat n).Exact := fun n => .integer n
  have hcounts : ∀ ns : List Nat, (Json.array (ns.map ofNat)).Exact := fun ns =>
    .array fun i hi => by
      obtain ⟨n, -, rfl⟩ := List.mem_map.mp hi
      exact hcount n
  exact .object (by simp [hcount, hcounts, Exact.text])

theorem ofJson?_toJson {h : Hotspot} (hfits : h.Fits) : ofJson? h.toJson = some h := by
  have hfree := items?_map fun n hn => count?_ofNat (hfits.freeExtents n hn)
  have hreduction := items?_map fun n hn => count?_ofNat (hfits.reductionExtents n hn)
  unfold ofJson? toJson
  rw [fields?_ofMembers rfl (by decide)]
  simp [required, count?_ofNat hfits.position, count?_ofNat hfits.flops, hfree, hreduction, ofText,
    text?]

end Hotspot

namespace KindTable

theorem exact_toJson (t : KindTable) : t.toJson.Exact :=
  .object fun m hm => by
    obtain ⟨e, -, rfl⟩ := List.mem_map.mp hm
    exact e.2.exact_toJson

/-- An entry for a kind after all others becomes the last. -/
theorem insertEntry_of_lt {kind : String} {cost : KindCost} {entries : List (String × KindCost)}
    (h : ∀ e ∈ entries, e.1 < kind) :
    insertEntry kind cost entries = entries ++ [(kind, cost)] := by
  induction entries with
  | nil => rfl
  | cons e entries ih =>
    obtain ⟨k, c⟩ := e
    have hk : k < kind := h (k, c) List.mem_cons_self
    have hne : kind ≠ k := fun heq => String.lt_irrefl k (heq ▸ hk)
    rw [insertEntry, if_neg (String.lt_asymm hk), if_neg hne,
      ih fun e he => h e (List.mem_cons_of_mem _ he)]
    rfl

/-- **Entries in ascending order** make up the table they come from. -/
theorem ofEntries_entries (t : KindTable) : ofEntries t.entries = t := by
  have hentries : ∀ es : List (String × KindCost), (es.Pairwise fun a b => a.1 < b.1) →
      (ofEntries es).entries = es := by
    intro es hes
    induction es using List.reverseRecOn with
    | nil => rfl
    | append_singleton es e ih =>
      obtain ⟨hes, -, hlast⟩ := List.pairwise_append.mp hes
      rw [ofEntries, List.foldl_concat, ← ofEntries]
      show insertEntry e.1 e.2 (ofEntries es).entries = _
      rw [ih hes, insertEntry_of_lt fun d hd => hlast d hd e (List.mem_singleton_self e)]
  have h := hentries t.entries t.sorted
  cases ht : ofEntries t.entries
  cases t
  simpa [ht] using h

theorem ofJson?_toJson {t : KindTable} (h : ∀ e ∈ t.entries, e.2.Fits) :
    ofJson? t.toJson = some t := by
  have hmembers : t.toJson.members? KindCost.ofJson? = some t.entries :=
    members?_map fun e he => KindCost.ofJson?_toJson (h e he)
  rw [ofJson?, hmembers, Option.map_some, ofEntries_entries]

end KindTable

namespace Report

/-- Whether every count fits in 64 bits. -/
structure Fits (r : Report) : Prop where
  totalFlops : r.totalFlops ≤ Checked.limit
  nodeCount : r.nodeCount ≤ Checked.limit
  sharedNodeCount : r.sharedNodeCount ≤ Checked.limit
  byKind : ∀ e ∈ r.byKind.entries, e.2.Fits
  hotspots : ∀ h ∈ r.hotspots, h.Fits

theorem exact_toJson (r : Report) : r.toJson.Exact := by
  have hcount : ∀ n, (ofNat n).Exact := fun n => .integer n
  have hhotspots : (Json.array (r.hotspots.map Hotspot.toJson)).Exact := .array fun i hi => by
    obtain ⟨h, -, rfl⟩ := List.mem_map.mp hi
    exact h.exact_toJson
  exact .object (by simp [hcount, hhotspots, KindTable.exact_toJson])

theorem ofJson?_toJson {r : Report} (h : r.Fits) : ofJson? r.toJson = some r := by
  have hkinds := KindTable.ofJson?_toJson h.byKind
  have hhotspots := items?_map fun i hi => Hotspot.ofJson?_toJson (h.hotspots i hi)
  unfold ofJson? toJson
  rw [fields?_ofMembers rfl (by decide)]
  simp [required, orElse, count?_ofNat h.totalFlops, count?_ofNat h.nodeCount,
    count?_ofNat h.sharedNodeCount, hkinds, hhotspots]

/-- **The text of a report** is read as this report, whatever texts name its kinds. -/
theorem parse?_render {r : Report} (h : r.Fits) : parse? r.render = some r := by
  rw [parse?, render, r.exact_toJson.parse?_pretty]
  exact ofJson?_toJson h

/-- Kinds whose names need escapes, one of them empty, and the greatest counts. -/
theorem parse?_render_of_escapes :
    let r : Report := {
      totalFlops := Checked.limit
      nodeCount := 0
      sharedNodeCount := 10
      byKind := ⟨[("", ⟨0, Checked.limit⟩), ("a\"b\\", ⟨1, 2⟩), ("\u00e9", ⟨3, 4⟩)], by decide⟩
      hotspots := [⟨Checked.limit, "\x00\x1f\n\x7f\u2028", 7, [], [1, Checked.limit]⟩] }
    r.Fits ∧ parse? r.render = some r := by
  intro r
  have hfits : r.Fits := by
    refine ⟨by decide, by decide, by decide, fun e he => ?_, fun h hh => ?_⟩
    · obtain rfl | rfl | rfl : e = ("", ⟨0, Checked.limit⟩) ∨ e = ("a\"b\\", ⟨1, 2⟩) ∨
          e = ("\u00e9", ⟨3, 4⟩) := by simpa [r] using he
      · exact ⟨by decide, by decide⟩
      · exact ⟨by decide, by decide⟩
      · exact ⟨by decide, by decide⟩
    · obtain rfl : h = ⟨Checked.limit, "\x00\x1f\n\x7f\u2028", 7, [], [1, Checked.limit]⟩ := by
        simpa [r] using hh
      exact ⟨by decide, by decide, by decide, by decide⟩
  exact ⟨hfits, parse?_render hfits⟩

end Report

end TensorCost
