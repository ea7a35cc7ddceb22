import Mathlib.Algebra.Ring.Int.Defs
import Mathlib.Data.Finset.Sort
import Mathlib.Data.String.Basic

/-!
# What a coalesced repair reports

`HandleReorgRange` folds the results of its passes with `mergeReorgResults`.  The range, the
retracted ids and three counters are combined; the other fields are those of the last pass.
-/

set_option autoImplicit false

namespace SoroTrail.Ingest

open List

structure ReorgReconcileResult where
  fromLedger : Int
  toLedger : Int
  previousEventIDs : List String
  retractedEventIDs : List String
  insertedEventIDs : List String
  retractedAddressRefs : Int
  insertedAddressRefs : Int
  retractedDeadLetters : Int
  rewoundContractCursors : Int
  rewoundIngestionLedger : Int
  rewoundAuditLedger : Int

/-- The `retractedSet` of two id lists, sorted. -/
def retractedSet (a b : List String) : List String := (a.toFinset ∪ b.toFinset).sort (· ≤ ·)

def mergeReorgResults (a b : ReorgReconcileResult) : ReorgReconcileResult :=
  if a.fromLedger = 0 then b
  else
    { b with
      fromLedger := if a.fromLedger < b.fromLedger then a.fromLedger else b.fromLedger
      toLedger := if b.toLedger < a.toLedger then a.toLedger else b.toLedger
      retractedEventIDs := retractedSet a.retractedEventIDs b.retractedEventIDs
      retractedAddressRefs := a.retractedAddressRefs + b.retractedAddressRefs
      retractedDeadLetters := a.retractedDeadLetters + b.retractedDeadLetters
      rewoundContractCursors := a.rewoundContractCursors + b.rewoundContractCursors }

/-- The result of `HandleReorgRange` after passes with these results. -/
def combined (passes : List ReorgReconcileResult) : ReorgReconcileResult :=
  passes.foldl mergeReorgResults ⟨0, 0, [], [], [], 0, 0, 0, 0, 0, 0⟩

variable {a b c last r : ReorgReconcileResult} {passes earlier : List ReorgReconcileResult}

/-- The fields that `mergeReorgResults` combines. -/
structure Totals (passes : List ReorgReconcileResult) (c : ReorgReconcileResult) : Prop where
  fromLedger : (∃ r ∈ passes, r.fromLedger = c.fromLedger) ∧ ∀ r ∈ passes, c.fromLedger ≤ r.fromLedger
  toLedger : (∃ r ∈ passes, r.toLedger = c.toLedger) ∧ ∀ r ∈ passes, r.toLedger ≤ c.toLedger
  retracted : ∀ r ∈ passes, r.retractedEventIDs ⊆ c.retractedEventIDs
  addressRefs : c.retractedAddressRefs = (passes.map (·.retractedAddressRefs)).sum
  deadLetters : c.retractedDeadLetters = (passes.map (·.retractedDeadLetters)).sum
  cursors : c.rewoundContractCursors = (passes.map (·.rewoundContractCursors)).sum

/-- Of the other fields but the inserted references, `c` reports what `r` does. -/
def Repeats (c r : ReorgReconcileResult) : Prop :=
  r.previousEventIDs ⊆ c.previousEventIDs ∧ r.insertedEventIDs ⊆ c.insertedEventIDs ∧
    (0 < r.rewoundIngestionLedger → 0 < c.rewoundIngestionLedger) ∧
    (0 < r.rewoundAuditLedger → 0 < c.rewoundAuditLedger)

/-- The result reports every pass, and any grouping of the passes gives it. -/
structure ReportsEvery (passes : List ReorgReconcileResult) (c : ReorgReconcileResult) : Prop
    extends Totals passes c where
  repeats : ∀ r ∈ passes, Repeats c r
  insertedRefs : c.insertedAddressRefs = (passes.map (·.insertedAddressRefs)).sum
  grouped : ∀ groups : List (List ReorgReconcileResult), [] ∉ groups → groups.flatten = passes →
    combined (groups.map combined) = c

theorem combined_append_singleton :
    combined (earlier ++ [last]) = mergeReorgResults (combined earlier) last := by
  simp [combined]

theorem Totals.fromLedger_pos (h : Totals passes c) (hpos : ∀ r ∈ passes, 0 < r.fromLedger) :
    0 < c.fromLedger := by
  obtain ⟨⟨r, hr, heq⟩, _⟩ := h.fromLedger
  exact heq ▸ hpos r hr

theorem Totals.append_singleton (h : Totals passes c) (hc : 0 < c.fromLedger) :
    Totals (passes ++ [last]) (mergeReorgResults c last) := by
  rw [mergeReorgResults, if_neg hc.ne']
  refine ⟨?_, ?_, ?_, by simp [h.addressRefs], by simp [h.deadLetters], by simp [h.cursors]⟩
  · have hfrom := h.fromLedger
    grind
  · have hto := h.toLedger
    grind
  · intro r hr id hid
    rcases mem_append.mp hr with hr | hr
    · simp [retractedSet, h.retracted r hr hid]
    · cases mem_singleton.mp hr
      simp [retractedSet, hid]

theorem totals_combined (hpos : ∀ r ∈ passes, 0 < r.fromLedger) (hne : passes ≠ []) :
    Totals passes (combined passes) := by
  induction passes using List.reverseRecOn with
  | nil => exact absurd rfl hne
  | append_singleton earlier last ih =>
    by_cases hnil : earlier = []
    · subst hnil
      constructor <;> simp [combined, mergeReorgResults]
    · have hearlier := (forall_mem_append.mp hpos).1
      have htotals := ih hearlier hnil
      rw [combined_append_singleton]
      exact htotals.append_singleton (htotals.fromLedger_pos hearlier)

/-! ## Grouping -/

theorem retractedSet_assoc (x y z : List String) :
    retractedSet (retractedSet x y) z = retractedSet x (retractedSet y z) := by
  simp [retractedSet, Finset.union_assoc]

theorem mergeReorgResults_assoc (hb : 0 < b.fromLedger) :
    mergeReorgResults (mergeReorgResults a b) c = mergeReorgResults a (mergeReorgResults b c) := by
  by_cases ha : a.fromLedger = 0
  · simp [mergeReorgResults, ha]
  · have hab : (if a.fromLedger < b.fromLedger then a.fromLedger else b.fromLedger) ≠ 0 := by grind
    simp only [mergeReorgResults, if_neg ha, if_neg hb.ne', if_neg hab, retractedSet_assoc, Int.add_assoc]
    grind

theorem combined_append (hpos : ∀ r ∈ passes, 0 < r.fromLedger) (hne : passes ≠ []) :
    combined (earlier ++ passes) = mergeReorgResults (combined earlier) (combined passes) := by
  induction passes using List.reverseRecOn with
  | nil => exact absurd rfl hne
  | append_singleton passes last ih =>
    rw [← append_assoc, combined_append_singleton, combined_append_singleton]
    by_cases hnil : passes = []
    · subst hnil
      simp [combined, mergeReorgResults]
    · have hpasses := (forall_mem_append.mp hpos).1
      rw [ih hpasses hnil, mergeReorgResults_assoc ((totals_combined hpasses hnil).fromLedger_pos hpasses)]

theorem combined_groups (hpos : ∀ r ∈ passes, 0 < r.fromLedger) (groups : List (List ReorgReconcileResult))
    (hne : [] ∉ groups) (hgroups : groups.flatten = passes) :
    combined (groups.map combined) = combined passes := by
  subst hgroups
  induction groups using List.reverseRecOn with
  | nil => rfl
  | append_singleton groups group ih =>
    simp only [mem_append, mem_singleton, not_or] at hne
    simp only [flatten_append, flatten_singleton] at hpos ⊢
    obtain ⟨hbefore, hgroup⟩ := forall_mem_append.mp hpos
    rw [map_append, map_singleton, combined_append_singleton, ih hne.1 hbefore,
      combined_append hgroup (Ne.symm hne.2)]

/-! ## The combined result -/

theorem repeats_mergeReorgResults : Repeats (mergeReorgResults a b) r ↔ Repeats b r := by
  unfold mergeReorgResults Repeats
  split <;> rfl

theorem insertedRefs_mergeReorgResults :
    (mergeReorgResults a b).insertedAddressRefs = b.insertedAddressRefs := by
  unfold mergeReorgResults
  split <;> rfl

/-- The combined result of any passes reports every pass exactly when the last one repeats what the
earlier ones report in the fields that are not combined. -/
theorem combined_reports_every_iff (earlier : List ReorgReconcileResult) (last : ReorgReconcileResult)
    (hpos : ∀ r ∈ earlier ++ [last], 0 < r.fromLedger) :
    ReportsEvery (earlier ++ [last]) (combined (earlier ++ [last])) ↔
      (∀ r ∈ earlier, Repeats last r) ∧ (earlier.map (·.insertedAddressRefs)).sum = 0 := by
  have htotals := totals_combined hpos (by simp)
  have hgroups := combined_groups hpos
  rw [combined_append_singleton] at htotals hgroups ⊢
  constructor
  · intro h
    refine ⟨fun r hr => repeats_mergeReorgResults.mp (h.repeats r (mem_append_left _ hr)), ?_⟩
    have hrefs := h.insertedRefs
    simp only [insertedRefs_mergeReorgResults, map_append, map_cons, map_nil,
      sum_append, sum_singleton] at hrefs
    omega
  · rintro ⟨hrepeats, hsum⟩
    refine ⟨htotals, fun r hr => repeats_mergeReorgResults.mpr ?_,
      by simp [insertedRefs_mergeReorgResults, hsum], hgroups⟩
    rcases mem_append.mp hr with hr | hr
    · exact hrepeats r hr
    · cases mem_singleton.mp hr
      exact ⟨fun _ h => h, fun _ h => h, fun h => h, fun h => h⟩

/-- A pass over one ledger. -/
def ledgerPass (ledger : Int) (retracted inserted : List String) : ReorgReconcileResult :=
  ⟨ledger, ledger, [], retracted, inserted, 1, 0, 0, 0, 0, 0⟩

theorem combined_reports_every_iff_retractions :
    ∃ passes : List ReorgReconcileResult, passes.length = 2 ∧ ReportsEvery passes (combined passes) :=
  ⟨_, rfl, (combined_reports_every_iff [ledgerPass 5 ["5-1"] []] (ledgerPass 6 ["6-1"] [])
    (by decide)).mpr ⟨by simp [Repeats, ledgerPass], rfl⟩⟩

/-- The event that the first pass inserted is missing. -/
theorem combined_loses_inserted :
    ∃ passes : List ReorgReconcileResult, (∀ r ∈ passes, 0 < r.fromLedger) ∧
      ¬ ReportsEvery passes (combined passes) := by
  refine ⟨[ledgerPass 5 [] ["5-1"], ledgerPass 6 [] ["6-1"]], by decide, fun h => ?_⟩
  have hmem : "5-1" ∈ ["6-1"] := (h.repeats _ mem_cons_self).2.1 mem_cons_self
  exact absurd hmem (by decide)

end SoroTrail.Ingest
