import Mathlib.Data.List.Dedup
import SoroTrail.Store.Rows

/-!
# What a reorg reconciliation leaves

One transaction rewrites the events of a range together with everything derived
from them.  `Reconciled` says what is asked of it: the range holds the canonical
events, everything else stays, the address index follows, the positions are moved
back and a second application changes nothing.  `Reconcilable` is what the call
needs for that.
-/

set_option autoImplicit false

namespace SoroTrail.Store

open Lib Rpc List Table

variable {b : Backend}

def own (b : Backend) (o : ReorgReconcileOptions) (network : String) : Bool :=
  sameNetwork b (defaultNetwork o.network) network

def gone (b : Backend) (o : ReorgReconcileOptions) (r : Event) : Bool :=
  own b o r.network && inRange o.fromLedger o.toLedger r.ledger

def oldRows (o : ReorgReconcileOptions) (t : Tables b) : List Event :=
  t.events.rows.filter (gone b o)

def newRows (o : ReorgReconcileOptions) (t : Tables b) : List Event :=
  ((canonicalOf o).map (mergeKeptXDR (oldRows o t))).map (canonicalRow b)

def canonicalRefs (o : ReorgReconcileOptions) : List AddressRef :=
  (o.canonicalAddressRefs.filter fun r => (canonicalOf o).any fun e =>
    decide (e.id = r.eventID)).dedup

def Elsewhere (o : ReorgReconcileOptions) (t : Tables b) (id : String) : Prop :=
  ∃ x ∈ t.events.rows, x.id = id ∧ own b o x.network = false

def content (e : Event) : Event :=
  { sansXDR e with network := "" }

/-- Raw XDR the event brings is stored; where it brings none, the row has that of the old row if
the two agree in content, and none if no old row agrees. -/
structure KeepsXDR (old : List Event) (c x : Event) : Prop where
  topics : c.rawTopicXDR ≠ [] → x.rawTopicXDR = c.rawTopicXDR
  value : c.rawValueXDR ≠ "" → x.rawValueXDR = c.rawValueXDR
  kept : ∀ r ∈ old, r.id = c.id → (∀ r' ∈ old, r'.id = c.id → r' = r) →
    sameCanonicalEventContent r c = true →
    (c.rawTopicXDR = [] → x.rawTopicXDR = r.rawTopicXDR) ∧
      (c.rawValueXDR = "" → x.rawValueXDR = r.rawValueXDR)
  none : (∀ r ∈ old, r.id = c.id → sameCanonicalEventContent r c = false) →
    x.rawTopicXDR = c.rawTopicXDR ∧ x.rawValueXDR = c.rawValueXDR

structure SameRows (t t' : Tables b) : Prop where
  events : ∀ x, x ∈ t.events.rows ↔ x ∈ t'.events.rows
  eventAddresses : ∀ x, x ∈ t.eventAddresses.rows ↔ x ∈ t'.eventAddresses.rows
  deadLetters : ∀ x, x ∈ t.deadLetters.rows ↔ x ∈ t'.deadLetters.rows
  ingestionState : ∀ x, x ∈ t.ingestionState.rows ↔ x ∈ t'.ingestionState.rows
  contractCursors : ∀ x, x ∈ t.contractCursors.rows ↔ x ∈ t'.contractCursors.rows
  watchedContracts : ∀ x, x ∈ t.watchedContracts.rows ↔ x ∈ t'.watchedContracts.rows
  auditState : ∀ x, x ∈ t.auditState.rows ↔ x ∈ t'.auditState.rows

def FrontierMoved (o : ReorgReconcileOptions) (s : IngestionState) : Prop :=
  s.network = defaultNetwork o.network ∧ o.fromLedger ≤ s.lastIngestedLedger

def CursorMoved (o : ReorgReconcileOptions) (t : Tables b) (c : ContractCursor) : Prop :=
  o.fromLedger ≤ c.lastIngestedLedger ∧
    t.watchedOnlyElsewhere (defaultNetwork o.network) c.contractID = false

structure Reconciled (o : ReorgReconcileOptions) (t t' : Tables b) : Prop where
  written : ∀ c ∈ canonicalOf o, ∃ x ∈ t'.events.rows, own b o x.network = true ∧
    content x = content c ∧ KeepsXDR (oldRows o t) c x
  only : ∀ x ∈ t'.events.rows, gone b o x = true →
    (∃ c ∈ canonicalOf o, content x = content c) ∧
      ∀ y ∈ t'.events.rows, gone b o y = true → y.id = x.id → y = x
  foreign : ∀ x, own b o x.network = false → (x ∈ t'.events.rows ↔ x ∈ t.events.rows)
  outside : ∀ x, own b o x.network = true → inRange o.fromLedger o.toLedger x.ledger = false →
    (x ∈ t'.events.rows ↔ x ∈ t.events.rows)
  foreignRefs : ∀ ref, Elsewhere o t ref.eventID →
    (ref ∈ t'.eventAddresses.rows ↔ ref ∈ t.eventAddresses.rows ∨ ref ∈ canonicalRefs o)
  refs : ∀ id, (∃ x ∈ oldRows o t, x.id = id) ∨ (∃ c ∈ canonicalOf o, c.id = id) →
    ¬Elsewhere o t id → ∀ ref, ref.eventID = id →
    (ref ∈ t'.eventAddresses.rows ↔ ref ∈ canonicalRefs o)
  verified : ∀ a ∈ t'.auditState.rows, a.network = defaultNetwork o.network →
    a.verifiedThroughLedger ≤ o.fromLedger - 1
  frontier : 0 < o.newHeadLedger → ∀ s ∈ t.ingestionState.rows, FrontierMoved o s →
    ∀ s' ∈ t'.ingestionState.rows, s'.network = s.network →
    s'.lastIngestedLedger ≤ o.newHeadLedger
  cursors : 0 < o.newHeadLedger → ∀ c ∈ t.contractCursors.rows, CursorMoved o t c →
    ∀ c' ∈ t'.contractCursors.rows, c'.contractID = c.contractID →
    c'.lastIngestedLedger ≤ o.newHeadLedger
  again : SameRows (t'.reconcileReorgTx o) t'

structure Reconcilable (o : ReorgReconcileOptions) (t : Tables b) : Prop where
  network : ∀ c ∈ canonicalOf o, own b o (canonicalRow b c).network = true
  /-- No row of the network outside the range has the key of a canonical event. -/
  free : ∀ c ∈ canonicalOf o, ∀ x ∈ t.events.rows, own b o x.network = true →
    inRange o.fromLedger o.toLedger x.ledger = false →
    eventKey b x ≠ eventKey b (canonicalRow b c)
  /-- An id that is new to the range has no address refs yet but canonical ones. -/
  fresh : ∀ c ∈ canonicalOf o, (∀ x ∈ oldRows o t, x.id ≠ c.id) → ¬Elsewhere o t c.id →
    ∀ ref ∈ t.eventAddresses.rows, ref.eventID = c.id → ref ∈ canonicalRefs o
  head : 0 < o.newHeadLedger → o.rewindCursorsToFromLedger = true →
    o.newHeadLedger < o.fromLedger - 1 →
    (∀ s ∈ t.ingestionState.rows, ¬FrontierMoved o s) ∧
      ∀ c ∈ t.contractCursors.rows, ¬CursorMoved o t c

section Events

variable {o : ReorgReconcileOptions} {t : Tables b}

theorem reconcileReorgTx_events :
    (t.reconcileReorgTx o).events = overwriteAll (t.events.delete (gone b o)) (newRows o t) := rfl

variable {x : Event}

theorem mem_oldRows : x ∈ oldRows o t ↔ x ∈ t.events.rows ∧ gone b o x = true :=
  mem_filter

theorem mem_newRows :
    x ∈ newRows o t ↔
      ∃ c ∈ canonicalOf o, x = canonicalRow b (mergeKeptXDR (oldRows o t) c) := by
  simp only [newRows, mem_map]
  constructor
  · rintro ⟨_, ⟨c, hc, rfl⟩, rfl⟩
    exact ⟨c, hc, rfl⟩
  · rintro ⟨c, hc, rfl⟩
    exact ⟨_, ⟨c, hc, rfl⟩, rfl⟩

theorem gone_eq_true :
    gone b o x = true ↔
      own b o x.network = true ∧ inRange o.fromLedger o.toLedger x.ledger = true := by
  simp [gone]

theorem canonicalOf_inRange {c : Event} (hc : c ∈ canonicalOf o) :
    inRange o.fromLedger o.toLedger c.ledger = true := by
  obtain ⟨e, he, rfl⟩ := mem_map.mp (mem_dedupByID hc).1
  have hin := (mem_filter.mp he).2
  split <;> exact hin

theorem exists_canonicalOf {e : Event} (he : e ∈ o.canonicalEvents)
    (hin : inRange o.fromLedger o.toLedger e.ledger = true) : ∃ c ∈ canonicalOf o, c.id = e.id := by
  have hmem : e ∈ o.canonicalEvents.filter fun e => inRange o.fromLedger o.toLedger e.ledger :=
    mem_filter.mpr ⟨he, hin⟩
  obtain ⟨c, hc, hid⟩ := exists_dedupByID (mem_map.mpr ⟨e, hmem, rfl⟩) not_mem_nil
  refine ⟨c, hc, hid.trans ?_⟩
  split <;> rfl

theorem canonicalOf_eq_of_id {c c' : Event} (hc : c ∈ canonicalOf o) (hc' : c' ∈ canonicalOf o)
    (h : c.id = c'.id) : c = c' :=
  inj_on_of_nodup_map (pairwise_map.mpr (dedupByID_pairwise _ _)) hc hc' h

theorem sansXDR_newRow (old : List Event) (c : Event) :
    sansXDR (canonicalRow b (mergeKeptXDR old c)) = sansXDR (canonicalRow b c) :=
  sansXDR_liveRow (sansXDR_mergeKeptXDR old c)

theorem content_canonicalRow (c : Event) : content (canonicalRow b c) = content c := by
  cases b <;> rfl

theorem content_of_sansXDR {y : Event} (h : sansXDR x = sansXDR y) : content x = content y :=
  congrArg (fun e : Event => { e with network := "" }) h

theorem content_newRow (old : List Event) (c : Event) :
    content (canonicalRow b (mergeKeptXDR old c)) = content c :=
  (content_of_sansXDR (sansXDR_newRow old c)).trans (content_canonicalRow c)

theorem content_fields {y : Event} (h : content x = content y) :
    x.id = y.id ∧ x.ledger = y.ledger := by
  have hid := congrArg Event.id h
  have hledger := congrArg Event.ledger h
  exact ⟨hid, hledger⟩

theorem newRow_id (old : List Event) (c : Event) : (canonicalRow b (mergeKeptXDR old c)).id = c.id :=
  (content_fields (content_newRow old c)).1

theorem newRow_network (old : List Event) (c : Event) :
    (canonicalRow b (mergeKeptXDR old c)).network = (canonicalRow b c).network :=
  (sansXDR_fields (sansXDR_newRow old c)).2.2.1

theorem gone_row (hx : x ∈ (t.reconcileReorgTx o).events.rows) (hgone : gone b o x = true) :
    ∃ c ∈ canonicalOf o, sansXDR x = sansXDR (canonicalRow b c) := by
  rw [reconcileReorgTx_events] at hx
  rcases mem_overwriteAll hx with ⟨hold, _⟩ | ⟨e, he, hsame⟩
  · rw [(mem_delete.mp hold).2] at hgone
    cases hgone
  · obtain ⟨c, hc, rfl⟩ := mem_newRows.mp he
    exact ⟨c, hc, hsame.trans (sansXDR_newRow _ c)⟩

end Events

/-! ## The events of a reconcilable range -/

section Reconcilable

variable {o : ReorgReconcileOptions} {t : Tables b}

theorem newRows_pairwise (t : Tables b) :
    (newRows o t).Pairwise fun x y => eventKey b x ≠ eventKey b y := by
  unfold newRows
  rw [pairwise_map, pairwise_map]
  refine (dedupByID_pairwise _ _).imp ?_
  intro x y hne hkey
  refine hne ?_
  simpa only [newRow_id] using (eventKey_inj hkey).2

/-- The rows afterwards: those that were not replaced, and the canonical ones. -/
theorem Reconcilable.mem_events (h : Reconcilable o t) {x : Event} :
    x ∈ (t.reconcileReorgTx o).events.rows ↔
      (x ∈ t.events.rows ∧ gone b o x = false) ∨ x ∈ newRows o t := by
  rw [reconcileReorgTx_events, mem_overwriteAll_free (newRows_pairwise t), mem_delete]
  intro y hy e he hkey
  obtain ⟨hmem, hkept⟩ := mem_delete.mp hy
  obtain ⟨c, hc, rfl⟩ := mem_newRows.mp he
  have hkey' : eventKey b y = eventKey b (canonicalRow b c) :=
    hkey.trans (eventKey_of_sansXDR (sansXDR_newRow _ c))
  have hown : own b o y.network = true := by
    rw [(eventKey_inj hkey').1]
    exact h.network c hc
  have hout : inRange o.fromLedger o.toLedger y.ledger = false := by
    rw [gone, hown] at hkept
    exact hkept
  exact h.free c hc y hmem hown hout hkey'

theorem gone_newRow (h : Reconcilable o t) {c : Event} (hc : c ∈ canonicalOf o) :
    gone b o (canonicalRow b (mergeKeptXDR (oldRows o t) c)) = true := by
  rw [gone_eq_true, newRow_network, (content_fields (content_newRow _ c)).2]
  exact ⟨h.network c hc, canonicalOf_inRange hc⟩

theorem Reconcilable.mem_events_kept (h : Reconcilable o t) {x : Event} (hkept : gone b o x = false) :
    x ∈ (t.reconcileReorgTx o).events.rows ↔ x ∈ t.events.rows := by
  rw [h.mem_events]
  constructor
  · rintro (⟨hmem, _⟩ | hnew)
    · exact hmem
    · obtain ⟨c, hc, rfl⟩ := mem_newRows.mp hnew
      rw [gone_newRow h hc] at hkept
      cases hkept
  · exact fun hmem => .inl ⟨hmem, hkept⟩

theorem Reconcilable.mem_oldRows_after (h : Reconcilable o t) {x : Event} :
    x ∈ oldRows o (t.reconcileReorgTx o) ↔ x ∈ newRows o t := by
  rw [mem_oldRows, h.mem_events]
  constructor
  · rintro ⟨⟨_, hkept⟩ | hnew, hgone⟩
    · rw [hkept] at hgone
      cases hgone
    · exact hnew
  · intro hnew
    obtain ⟨c, hc, rfl⟩ := mem_newRows.mp hnew
    exact ⟨.inr hnew, gone_newRow h hc⟩

end Reconcilable

/-! ## Raw XDR -/

section XDR

theorem canonicalRow_xdr (e : Event) :
    (canonicalRow b e).rawTopicXDR = e.rawTopicXDR ∧
      (canonicalRow b e).rawValueXDR = e.rawValueXDR := by
  cases b <;> exact ⟨rfl, rfl⟩

variable {rows : List Event}

theorem keptXDR_eq_some {id : String} {xdr : List String × String}
    (h : keptXDR rows id = some xdr) :
    ∃ r ∈ rows, r.id = id ∧ xdr = (r.rawTopicXDR, r.rawValueXDR) := by
  obtain ⟨r, hr, rfl⟩ := Option.map_eq_some_iff.mp h
  have hid := List.find?_some hr
  rw [decide_eq_true_eq] at hid
  exact ⟨r, mem_reverse.mp (mem_of_find?_eq_some hr), hid.1, rfl⟩

theorem restoreRawXDR_of_single {r e : Event} (hr : r ∈ rows) (hid : r.id = e.id)
    (hsingle : ∀ r' ∈ rows, r'.id = e.id → r' = r) :
    restoreRawXDR rows e =
      { e with
        rawTopicXDR := if e.rawTopicXDR = [] then r.rawTopicXDR else e.rawTopicXDR
        rawValueXDR := if e.rawValueXDR = "" then r.rawValueXDR else e.rawValueXDR } := by
  unfold restoreRawXDR
  cases hkept : keptXDR rows e.id with
  | some xdr =>
    obtain ⟨r', hr', hid', rfl⟩ := keptXDR_eq_some hkept
    rw [hsingle r' hr' hid']
  | none =>
    -- the row has no raw XDR at all, so it fills in nothing
    have hnone : r.rawTopicXDR = [] ∧ r.rawValueXDR = "" := by
      unfold keptXDR at hkept
      rw [Option.map_eq_none_iff, List.find?_eq_none] at hkept
      have hr' := hkept r (mem_reverse.mpr hr)
      rw [decide_eq_true_eq] at hr'
      by_contra hany
      exact hr' ⟨hid, by tauto⟩
    have hfill {α : Type} [DecidableEq α] (x a : α) : (if x = a then a else x) = x := by
      split <;> simp_all
    rw [hnone.1, hnone.2, hfill, hfill]

theorem find_last_of_single {r : Event} {id : String} (hr : r ∈ rows) (hid : r.id = id)
    (hsingle : ∀ r' ∈ rows, r'.id = id → r' = r) :
    (rows.reverse.find? fun r => decide (r.id = id)) = some r := by
  cases hfind : rows.reverse.find? fun r => decide (r.id = id) with
  | none =>
    have := List.find?_eq_none.mp hfind r (mem_reverse.mpr hr)
    simp [hid] at this
  | some r' =>
    have hid' : r'.id = id := by simpa using List.find?_some hfind
    rw [hsingle r' (mem_reverse.mp (mem_of_find?_eq_some hfind)) hid']

theorem mergeKeptXDR_of_single {r e : Event} (hr : r ∈ rows) (hid : r.id = e.id)
    (hsingle : ∀ r' ∈ rows, r'.id = e.id → r' = r) (hsame : sameCanonicalEventContent r e = true) :
    mergeKeptXDR rows e =
      { e with
        rawTopicXDR := if e.rawTopicXDR = [] then r.rawTopicXDR else e.rawTopicXDR
        rawValueXDR := if e.rawValueXDR = "" then r.rawValueXDR else e.rawValueXDR } := by
  unfold mergeKeptXDR
  rw [find_last_of_single hr hid hsingle]
  dsimp only
  rw [if_pos hsame]
  exact restoreRawXDR_of_single hr hid hsingle

theorem mergeKeptXDR_of_disagree {e : Event}
    (h : ∀ r ∈ rows, r.id = e.id → sameCanonicalEventContent r e = false) :
    mergeKeptXDR rows e = e := by
  unfold mergeKeptXDR
  split
  · rfl
  · rename_i old hold
    have hid : old.id = e.id := by simpa using List.find?_some hold
    rw [h old (mem_reverse.mp (mem_of_find?_eq_some hold)) hid]
    rfl

theorem restoreRawXDR_xdr (rows : List Event) (e : Event) :
    (e.rawTopicXDR ≠ [] → (restoreRawXDR rows e).rawTopicXDR = e.rawTopicXDR) ∧
      (e.rawValueXDR ≠ "" → (restoreRawXDR rows e).rawValueXDR = e.rawValueXDR) := by
  unfold restoreRawXDR
  split
  · exact ⟨fun _ => rfl, fun _ => rfl⟩
  · exact ⟨fun h => if_neg h, fun h => if_neg h⟩

theorem mergeKeptXDR_xdr (rows : List Event) (e : Event) :
    (e.rawTopicXDR ≠ [] → (mergeKeptXDR rows e).rawTopicXDR = e.rawTopicXDR) ∧
      (e.rawValueXDR ≠ "" → (mergeKeptXDR rows e).rawValueXDR = e.rawValueXDR) := by
  unfold mergeKeptXDR
  split
  · exact ⟨fun _ => rfl, fun _ => rfl⟩
  · split
    · exact restoreRawXDR_xdr rows e
    · exact ⟨fun _ => rfl, fun _ => rfl⟩

theorem keepsXDR_newRow (old : List Event) (c : Event) :
    KeepsXDR old c (canonicalRow b (mergeKeptXDR old c)) := by
  have hxdr := canonicalRow_xdr (b := b) (mergeKeptXDR old c)
  refine ⟨?_, ?_, ?_, ?_⟩
  · intro hne
    exact hxdr.1.trans ((mergeKeptXDR_xdr old c).1 hne)
  · intro hne
    exact hxdr.2.trans ((mergeKeptXDR_xdr old c).2 hne)
  · intro r hr hid hsingle hsame
    rw [hxdr.1, hxdr.2, mergeKeptXDR_of_single hr hid hsingle hsame]
    exact ⟨fun h => if_pos h, fun h => if_pos h⟩
  · intro hdisagree
    rw [hxdr.1, hxdr.2, mergeKeptXDR_of_disagree hdisagree]
    exact ⟨rfl, rfl⟩

theorem canonicalJSONEqual_refl (s : String) : canonicalJSONEqual s s = true := by
  simp [canonicalJSONEqual]

theorem sameCanonicalEventContent_of_content {x c : Event} (h : content x = content c) :
    sameCanonicalEventContent x c = true := by
  have hall : x.id = c.id ∧ x.contractID = c.contractID ∧ x.ledger = c.ledger ∧ x.type = c.type ∧
      x.txHash = c.txHash ∧ x.txIndex = c.txIndex ∧ x.opIndex = c.opIndex ∧
      x.inSuccessfulCall = c.inSuccessfulCall ∧ x.topics = c.topics ∧ x.value = c.value := by
    simp only [content, sansXDR, Event.mk.injEq] at h
    tauto
  obtain ⟨h1, h2, h3, h4, h5, h6, h7, h8, h9, h10⟩ := hall
  unfold sameCanonicalEventContent
  rw [h9, h10, canonicalJSONEqual_refl, canonicalJSONEqual_refl]
  simp [h1, h2, h3, h4, h5, h6, h7, h8]

/-- Merging once more from the row just written gives that row. -/
theorem mergeKeptXDR_again {old : List Event} {c : Event}
    (hmem : canonicalRow b (mergeKeptXDR old c) ∈ rows)
    (hsingle : ∀ r ∈ rows, r.id = c.id → r = canonicalRow b (mergeKeptXDR old c)) :
    canonicalRow b (mergeKeptXDR rows c) = canonicalRow b (mergeKeptXDR old c) := by
  have hcontent := content_newRow (b := b) old c
  have hxdr := canonicalRow_xdr (b := b) (mergeKeptXDR old c)
  have hmerged : mergeKeptXDR rows c = mergeKeptXDR old c := by
    rw [mergeKeptXDR_of_single hmem (newRow_id old c) hsingle
      (sameCanonicalEventContent_of_content hcontent), hxdr.1, hxdr.2]
    have hfill {α : Type} [DecidableEq α] {x a m : α} (h : x ≠ a → m = x) :
        (if x = a then m else x) = m := by
      split
      · rfl
      · exact (h ‹_›).symm
    rw [hfill (mergeKeptXDR_xdr old c).1, hfill (mergeKeptXDR_xdr old c).2]
    have hsans := sansXDR_mergeKeptXDR old c
    generalize mergeKeptXDR old c = m at hsans
    cases m
    simp only [sansXDR, Event.mk.injEq] at hsans ⊢
    tauto
  rw [hmerged]

end XDR

/-! ## Address refs -/

section Refs

variable {o : ReorgReconcileOptions} {t : Tables b} {ref : AddressRef}

theorem mem_canonicalRefs :
    ref ∈ canonicalRefs o ↔
      ref ∈ o.canonicalAddressRefs ∧ ∃ c ∈ canonicalOf o, c.id = ref.eventID := by
  simp [canonicalRefs]

theorem mem_reconciled_refs :
    ref ∈ (t.reconcileReorgTx o).eventAddresses.rows ↔
      (ref ∈ t.eventAddresses.rows ∧
        ((∀ x ∈ oldRows o t, x.id ≠ ref.eventID) ∨ Elsewhere o t ref.eventID)) ∨
      ref ∈ canonicalRefs o := by
  have hinsert : ∀ (a : Table AddressRef id) (rs : List AddressRef),
      ref ∈ (a.insertAll rs).rows ↔ ref ∈ a.rows ∨ ref ∈ rs := by
    intro a rs
    constructor
    · exact mem_insertAll
    · rintro (h | h)
      · exact subset_insertAll h
      · obtain ⟨x, hx, hkey⟩ := exists_insertAll (t := a) h
        exact (show x = ref from hkey) ▸ hx
  have hkept : ((oldRows o t).any (fun e => decide (e.id = ref.eventID)) &&
      !(t.events.rows.any fun e => decide (e.id = ref.eventID) && !own b o e.network)) = false ↔
      (∀ x ∈ oldRows o t, x.id ≠ ref.eventID) ∨ Elsewhere o t ref.eventID := by
    rw [Bool.and_eq_false_iff]
    simp [Elsewhere]
  show ref ∈ ((t.eventAddresses.delete _).insertAll (canonicalRefs o)).rows ↔ _
  rw [hinsert, mem_delete]
  exact or_congr (and_congr_right fun _ => hkept) Iff.rfl

theorem reconciled_foreignRefs (h : Elsewhere o t ref.eventID) :
    ref ∈ (t.reconcileReorgTx o).eventAddresses.rows ↔
      ref ∈ t.eventAddresses.rows ∨ ref ∈ canonicalRefs o := by
  rw [mem_reconciled_refs]
  simp [h]

theorem Reconcilable.refs_after (h : Reconcilable o t) {id : String}
    (hid : (∃ x ∈ oldRows o t, x.id = id) ∨ ∃ c ∈ canonicalOf o, c.id = id)
    (hhere : ¬Elsewhere o t id) (href : ref.eventID = id) :
    ref ∈ (t.reconcileReorgTx o).eventAddresses.rows ↔ ref ∈ canonicalRefs o := by
  subst href
  rw [mem_reconciled_refs]
  refine ⟨?_, .inr⟩
  rintro (⟨hmem, hnew | helse⟩ | hcanonical)
  · rcases hid with ⟨x, hx, hxid⟩ | ⟨c, hc, hcid⟩
    · exact absurd hxid (hnew x hx)
    · exact h.fresh c hc (fun x hx => hcid ▸ hnew x hx) (hcid ▸ hhere) ref hmem hcid.symm
  · exact absurd helse hhere
  · exact hcanonical

end Refs

/-! ## Positions -/

section Positions

variable {o : ReorgReconcileOptions} {t : Tables b}

theorem rewindTarget_le {ledger : Int} (hhead : 0 < o.newHeadLedger)
    (h : o.rewindCursorsToFromLedger = true → o.fromLedger - 1 ≤ o.newHeadLedger) :
    rewindTarget o ledger ≤ o.newHeadLedger := by
  unfold rewindTarget
  split
  · rename_i hrewind
    exact h hrewind
  · split <;> omega

theorem rewindTarget_idem (ledger : Int) :
    rewindTarget o (rewindTarget o ledger) = rewindTarget o ledger := by
  unfold rewindTarget
  split
  · rfl
  · by_cases hover : 0 < o.newHeadLedger ∧ o.newHeadLedger < ledger
    · rw [if_neg (by omega)]
    · rw [if_neg hover, if_neg hover]

theorem reconcileCursor_ledger (c : ContractCursor) :
    (reconcileCursor o c).lastIngestedLedger = rewindTarget o c.lastIngestedLedger := by
  unfold reconcileCursor
  split
  · rfl
  · rename_i h
    push Not at h
    exact h.1.symm

theorem reconcileState_ledger (s : IngestionState) :
    (reconcileState o s).lastIngestedLedger = rewindTarget o s.lastIngestedLedger := by
  unfold reconcileState
  dsimp only
  split
  · rfl
  · rename_i h
    push Not at h
    exact h.1.symm

theorem reconcileCursor_idem (c : ContractCursor) :
    reconcileCursor o (reconcileCursor o c) = reconcileCursor o c := by
  have hcursor : (reconcileCursor o c).lastCursor = "" := by
    unfold reconcileCursor
    split
    · rfl
    · rename_i hsame
      push Not at hsame
      exact hsame.2
  generalize hc : reconcileCursor o c = c'
  have hledger : c'.lastIngestedLedger = rewindTarget o c.lastIngestedLedger :=
    hc ▸ reconcileCursor_ledger c
  rw [hc] at hcursor
  unfold reconcileCursor
  rw [hledger, rewindTarget_idem, hcursor]
  simp

theorem reconcileState_idem (s : IngestionState) :
    reconcileState o (reconcileState o s) = reconcileState o s := by
  have hcursor : (reconcileState o s).lastCursor ≠ "" →
      ¬rewindTarget o s.lastIngestedLedger ≤ o.toLedger := by
    unfold reconcileState
    dsimp only
    split
    · split
      · intro hne
        exact absurd rfl hne
      · rename_i hclear
        intro hne hle
        push Not at hclear
        have := hclear hne
        omega
    · rename_i hsame
      push Not at hsame
      intro hne hle
      have := hsame.2 hne
      omega
  generalize hs : reconcileState o s = s'
  have hledger : s'.lastIngestedLedger = rewindTarget o s.lastIngestedLedger :=
    hs ▸ reconcileState_ledger s
  rw [hs] at hcursor
  unfold reconcileState
  rw [if_neg]
  rw [hledger, rewindTarget_idem]
  push Not
  refine ⟨rfl, fun hne => ⟨?_, rfl⟩⟩
  have := hcursor hne
  omega

theorem idem_of_moves {α : Type} {g f : α → α} {moved : α → Prop} [DecidablePred moved]
    (hg : ∀ a, g a = if moved a then f a else a) (hf : ∀ a, f (f a) = f a) (a : α) : g (g a) = g a := by
  by_cases hmoved : moved a <;> simp [hg, hmoved, hf]

def movedState (o : ReorgReconcileOptions) (s : IngestionState) : IngestionState :=
  if s.network = defaultNetwork o.network ∧ o.fromLedger ≤ s.lastIngestedLedger then
    reconcileState o s
  else s

def movedCursor (o : ReorgReconcileOptions) (t : Tables b) (c : ContractCursor) : ContractCursor :=
  if o.fromLedger ≤ c.lastIngestedLedger ∧
      t.watchedOnlyElsewhere (defaultNetwork o.network) c.contractID = false then
    reconcileCursor o c
  else c

def movedAudit (o : ReorgReconcileOptions) (a : AuditState) : AuditState :=
  if a.network = defaultNetwork o.network ∧ o.fromLedger ≤ a.verifiedThroughLedger then
    { a with verifiedThroughLedger := max (o.fromLedger - 1) 0 }
  else a

variable {s : IngestionState} {c : ContractCursor}

theorem movedState_eq (h : FrontierMoved o s) : movedState o s = reconcileState o s :=
  if_pos h

theorem movedState_eq_self (h : ¬FrontierMoved o s) : movedState o s = s :=
  if_neg h

theorem movedCursor_eq (h : CursorMoved o t c) : movedCursor o t c = reconcileCursor o c :=
  if_pos h

theorem movedCursor_eq_self (h : ¬CursorMoved o t c) : movedCursor o t c = c :=
  if_neg h

theorem movedState_network (s : IngestionState) : (movedState o s).network = s.network := by
  unfold movedState
  split
  · exact reconcileState_network o s
  · rfl

theorem movedCursor_contractID (c : ContractCursor) :
    (movedCursor o t c).contractID = c.contractID := by
  unfold movedCursor
  split
  · exact reconcileCursor_contractID o c
  · rfl

theorem movedAudit_network (a : AuditState) : (movedAudit o a).network = a.network := by
  unfold movedAudit
  split <;> rfl

theorem movedState_idem (s : IngestionState) : movedState o (movedState o s) = movedState o s :=
  idem_of_moves (g := movedState o) (fun _ => rfl) reconcileState_idem s

theorem movedCursor_idem (c : ContractCursor) :
    movedCursor o t (movedCursor o t c) = movedCursor o t c :=
  idem_of_moves (g := movedCursor o t) (fun _ => rfl) reconcileCursor_idem c

theorem movedAudit_idem (a : AuditState) : movedAudit o (movedAudit o a) = movedAudit o a :=
  idem_of_moves (g := movedAudit o) (fun _ => rfl) (fun _ => rfl) a

theorem reconcileReorgTx_ingestionState :
    (t.reconcileReorgTx o).ingestionState =
      t.ingestionState.update (movedState o) movedState_network := rfl

theorem reconcileReorgTx_contractCursors :
    (t.reconcileReorgTx o).contractCursors =
      t.contractCursors.update (movedCursor o t) movedCursor_contractID := rfl

theorem reconcileReorgTx_auditState :
    (t.reconcileReorgTx o).auditState =
      t.auditState.update (movedAudit o) movedAudit_network := rfl

theorem moved_frontier {s' : IngestionState} (hs : s ∈ t.ingestionState.rows)
    (hmoved : FrontierMoved o s) (hs' : s' ∈ (t.reconcileReorgTx o).ingestionState.rows)
    (hnetwork : s'.network = s.network) :
    s'.lastIngestedLedger = rewindTarget o s.lastIngestedLedger := by
  rw [reconcileReorgTx_ingestionState] at hs'
  obtain ⟨s₀, hs₀, rfl⟩ := mem_update.mp hs'
  have hsame : s₀ = s := eq_of_key hs₀ hs ((movedState_network s₀).symm.trans hnetwork)
  subst hsame
  rw [movedState_eq hmoved]
  exact reconcileState_ledger s₀

theorem moved_cursor {c' : ContractCursor} (hc : c ∈ t.contractCursors.rows)
    (hmoved : CursorMoved o t c) (hc' : c' ∈ (t.reconcileReorgTx o).contractCursors.rows)
    (hid : c'.contractID = c.contractID) :
    c'.lastIngestedLedger = rewindTarget o c.lastIngestedLedger := by
  rw [reconcileReorgTx_contractCursors] at hc'
  obtain ⟨c₀, hc₀, rfl⟩ := mem_update.mp hc'
  have hsame : c₀ = c := eq_of_key hc₀ hc ((movedCursor_contractID c₀).symm.trans hid)
  subst hsame
  rw [movedCursor_eq hmoved]
  exact reconcileCursor_ledger c₀

theorem Reconcilable.rewind_le (h : Reconcilable o t) (hhead : 0 < o.newHeadLedger)
    (hmoved : (∃ s ∈ t.ingestionState.rows, FrontierMoved o s) ∨
      ∃ c ∈ t.contractCursors.rows, CursorMoved o t c)
    (hrewind : o.rewindCursorsToFromLedger = true) : o.fromLedger - 1 ≤ o.newHeadLedger := by
  by_contra hlt
  obtain ⟨hstates, hcursors⟩ := h.head hhead hrewind (by omega)
  rcases hmoved with ⟨s, hs, hmoved⟩ | ⟨c, hc, hmoved⟩
  · exact hstates s hs hmoved
  · exact hcursors c hc hmoved

end Positions

/-! ## Once more -/

section Again

variable {o : ReorgReconcileOptions} {t : Tables b}

theorem Reconcilable.elsewhere_after (h : Reconcilable o t) (id : String) :
    Elsewhere o (t.reconcileReorgTx o) id ↔ Elsewhere o t id := by
  refine exists_congr fun x => ?_
  constructor
  · rintro ⟨hx, hid, hown⟩
    exact ⟨(h.mem_events_kept (by simp [gone, hown])).mp hx, hid, hown⟩
  · rintro ⟨hx, hid, hown⟩
    exact ⟨(h.mem_events_kept (by simp [gone, hown])).mpr hx, hid, hown⟩

theorem Reconcilable.after (h : Reconcilable o t) : Reconcilable o (t.reconcileReorgTx o) := by
  refine ⟨h.network, ?_, ?_, ?_⟩
  · intro c hc x hx hown hout
    rcases h.mem_events.mp hx with ⟨hmem, _⟩ | hnew
    · exact h.free c hc x hmem hown hout
    · obtain ⟨c', hc', rfl⟩ := mem_newRows.mp hnew
      have hin := (gone_eq_true.mp (gone_newRow h hc')).2
      rw [hout] at hin
      cases hin
  · -- every canonical id has a row in the range by now
    intro c hc hnew
    have hrow := h.mem_oldRows_after.mpr (mem_newRows.mpr ⟨c, hc, rfl⟩)
    exact absurd (newRow_id _ c) (hnew _ hrow)
  · intro hhead hrewind hlt
    obtain ⟨hstates, hcursors⟩ := h.head hhead hrewind hlt
    refine ⟨?_, ?_⟩
    · intro s' hs' hmoved
      rw [reconcileReorgTx_ingestionState] at hs'
      obtain ⟨s, hs, rfl⟩ := mem_update.mp hs'
      rw [movedState_eq_self (hstates s hs)] at hmoved
      exact hstates s hs hmoved
    · intro c' hc' hmoved
      rw [reconcileReorgTx_contractCursors] at hc'
      obtain ⟨c, hc, rfl⟩ := mem_update.mp hc'
      rw [movedCursor_eq_self (hcursors c hc)] at hmoved
      exact hcursors c hc hmoved

theorem Reconcilable.newRows_again (h : Reconcilable o t) :
    newRows o (t.reconcileReorgTx o) = newRows o t := by
  unfold newRows
  rw [map_map, map_map]
  refine map_congr_left fun c hc => ?_
  refine mergeKeptXDR_again (h.mem_oldRows_after.mpr (mem_newRows.mpr ⟨c, hc, rfl⟩)) ?_
  intro r hr hid
  obtain ⟨c', hc', rfl⟩ := mem_newRows.mp (h.mem_oldRows_after.mp hr)
  rw [canonicalOf_eq_of_id hc' hc ((newRow_id _ c').symm.trans hid)]

theorem Reconcilable.again (h : Reconcilable o t) :
    SameRows ((t.reconcileReorgTx o).reconcileReorgTx o) (t.reconcileReorgTx o) where
  events x := by
    rw [h.after.mem_events, h.newRows_again]
    constructor
    · rintro (⟨hmem, _⟩ | hnew)
      · exact hmem
      · exact h.mem_events.mpr (.inr hnew)
    · intro hmem
      rcases h.mem_events.mp hmem with ⟨_, hkept⟩ | hnew
      · exact .inl ⟨hmem, hkept⟩
      · exact .inr hnew
  eventAddresses ref := by
    rw [mem_reconciled_refs]
    constructor
    · rintro (⟨hmem, _⟩ | hcanonical)
      · exact hmem
      · exact mem_reconciled_refs.mpr (.inr hcanonical)
    · intro hmem
      by_cases hkept : (∀ x ∈ oldRows o (t.reconcileReorgTx o), x.id ≠ ref.eventID) ∨
          Elsewhere o (t.reconcileReorgTx o) ref.eventID
      · exact .inl ⟨hmem, hkept⟩
      · push Not at hkept
        obtain ⟨⟨x, hx, hid⟩, hhere⟩ := hkept
        obtain ⟨c, hc, rfl⟩ := mem_newRows.mp (h.mem_oldRows_after.mp hx)
        rw [h.elsewhere_after] at hhere
        exact .inr ((h.refs_after (.inr ⟨c, hc, (newRow_id _ c).symm.trans hid⟩) hhere rfl).mp hmem)
  deadLetters d := by
    show d ∈ (((t.deadLetters.delete _).delete _).rows) ↔ d ∈ (t.deadLetters.delete _).rows
    rw [mem_delete, mem_delete]
    exact and_iff_left_of_imp fun hmem => hmem.2
  ingestionState _ := by
    rw [reconcileReorgTx_ingestionState]
    exact mem_update_update movedState_idem
  contractCursors _ := by
    rw [reconcileReorgTx_contractCursors]
    exact mem_update_update movedCursor_idem
  watchedContracts _ := Iff.rfl
  auditState _ := by
    rw [reconcileReorgTx_auditState]
    exact mem_update_update movedAudit_idem

end Again

/-! ## The call -/

section Call

variable {o : ReorgReconcileOptions} {t : Tables b}

theorem Reconcilable.reconciled (h : Reconcilable o t) (hfrom : 0 < o.fromLedger) :
    Reconciled o t (t.reconcileReorgTx o) where
  written c hc := by
    have hnew : canonicalRow b (mergeKeptXDR (oldRows o t) c) ∈ newRows o t :=
      mem_newRows.mpr ⟨c, hc, rfl⟩
    refine ⟨_, h.mem_events.mpr (.inr hnew), ?_, content_newRow _ c, keepsXDR_newRow _ c⟩
    exact (gone_eq_true.mp (gone_newRow h hc)).1
  only x hx hgone := by
    have hrows : ∀ y ∈ (t.reconcileReorgTx o).events.rows, gone b o y = true →
        ∃ c ∈ canonicalOf o, y = canonicalRow b (mergeKeptXDR (oldRows o t) c) :=
      fun y hy hygone => mem_newRows.mp (h.mem_oldRows_after.mp (mem_oldRows.mpr ⟨hy, hygone⟩))
    obtain ⟨c, hc, rfl⟩ := hrows x hx hgone
    refine ⟨⟨c, hc, content_newRow _ c⟩, ?_⟩
    intro y hy hygone hid
    obtain ⟨c', hc', rfl⟩ := hrows y hy hygone
    rw [canonicalOf_eq_of_id hc' hc ((newRow_id _ c').symm.trans (hid.trans (newRow_id _ c)))]
  foreign x hx := h.mem_events_kept (by simp [gone, hx])
  outside x _ hout := h.mem_events_kept (by simp [gone, hout])
  foreignRefs _ helse := reconciled_foreignRefs helse
  refs _ hid hhere _ href := h.refs_after hid hhere href
  verified a' ha' hnetwork := by
    rw [reconcileReorgTx_auditState] at ha'
    obtain ⟨a, ha, rfl⟩ := mem_update.mp ha'
    unfold movedAudit at hnetwork ⊢
    by_cases hmoved : a.network = defaultNetwork o.network ∧
        o.fromLedger ≤ a.verifiedThroughLedger
    · rw [if_pos hmoved]
      show max (o.fromLedger - 1) 0 ≤ o.fromLedger - 1
      omega
    · rw [if_neg hmoved] at hnetwork ⊢
      push Not at hmoved
      have := hmoved hnetwork
      omega
  frontier hhead s hs hmoved s' hs' hnetwork := by
    rw [moved_frontier hs hmoved hs' hnetwork]
    exact rewindTarget_le hhead (h.rewind_le hhead (.inl ⟨s, hs, hmoved⟩))
  cursors hhead c hc hmoved c' hc' hid := by
    rw [moved_cursor hc hmoved hc' hid]
    exact rewindTarget_le hhead (h.rewind_le hhead (.inr ⟨c, hc, hmoved⟩))
  again := h.again

theorem Reconciled.reconcilable (h : Reconciled o t (t.reconcileReorgTx o)) :
    Reconcilable o t := by
  have hnetwork : ∀ c ∈ canonicalOf o, own b o (canonicalRow b c).network = true := by
    intro c hc
    obtain ⟨x, hx, hown, hcontent, _⟩ := h.written c hc
    have hin : gone b o x = true := by
      rw [gone_eq_true, (content_fields hcontent).2]
      exact ⟨hown, canonicalOf_inRange hc⟩
    obtain ⟨c', hc', hsame⟩ := gone_row hx hin
    have hid : c'.id = c.id :=
      (content_fields ((content_of_sansXDR hsame).trans (content_canonicalRow c'))).1.symm.trans
        (content_fields hcontent).1
    rw [canonicalOf_eq_of_id hc' hc hid] at hsame
    rw [← (sansXDR_fields hsame).2.2.1]
    exact hown
  refine ⟨hnetwork, ?_, ?_, ?_⟩
  · -- the canonical row would have taken the place of the row outside the range
    intro c hc x hx hown hout hkey
    obtain ⟨y, hy, hykey, e, he, hsame⟩ := @overwriteAll_writes b _ (newRows o t)
      (t.events.delete (gone b o)) (mem_newRows.mpr ⟨c, hc, rfl⟩)
    have hstays := (h.outside x hown hout).mpr hx
    have hxy : x = y := by
      refine eq_of_key hstays (reconcileReorgTx_events ▸ hy) ?_
      rw [hykey, hkey]
      exact (eventKey_of_sansXDR (sansXDR_newRow _ c)).symm
    obtain ⟨c', hc', rfl⟩ := mem_newRows.mp he
    have hledger : x.ledger = c'.ledger := by
      rw [hxy]
      exact (content_fields ((content_of_sansXDR hsame).trans (content_newRow _ c'))).2
    rw [hledger, canonicalOf_inRange hc'] at hout
    cases hout
  · intro c hc hnew hhere ref href hid
    refine (h.refs c.id (.inr ⟨c, hc, rfl⟩) hhere ref hid).mp ?_
    exact mem_reconciled_refs.mpr (.inl ⟨href, .inl fun x hx => hid ▸ hnew x hx⟩)
  · intro hhead hrewind hlt
    have htarget : ∀ ledger, rewindTarget o ledger = o.fromLedger - 1 := by
      intro ledger
      rw [rewindTarget, if_pos hrewind]
    refine ⟨?_, ?_⟩
    · intro s hs hmoved
      have hs' : movedState o s ∈ (t.reconcileReorgTx o).ingestionState.rows := by
        rw [reconcileReorgTx_ingestionState]
        exact mem_update.mpr ⟨s, hs, rfl⟩
      have hle := h.frontier hhead s hs hmoved _ hs' (movedState_network s)
      rw [moved_frontier hs hmoved hs' (movedState_network s), htarget] at hle
      omega
    · intro c hc hmoved
      have hc' : movedCursor o t c ∈ (t.reconcileReorgTx o).contractCursors.rows := by
        rw [reconcileReorgTx_contractCursors]
        exact mem_update.mpr ⟨c, hc, rfl⟩
      have hle := h.cursors hhead c hc hmoved _ hc' (movedCursor_contractID c)
      rw [moved_cursor hc hmoved hc' (movedCursor_contractID c), htarget] at hle
      omega

end Call

end SoroTrail.Store
