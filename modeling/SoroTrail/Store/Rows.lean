import SoroTrail.Store.Types

/-!
# The store's writers

Each writer as one committed statement or transaction on the tables.  Where the
two backends run different statements the definition splits on the backend.
-/

set_option autoImplicit false

namespace SoroTrail.Store

open Lib Rpc List Table

variable {b : Backend}

/-! ## Events -/

/-- The row `upsertEvents` writes: only Postgres replaces an empty network here. -/
def liveRow (b : Backend) (e : Event) : Event :=
  match b with
  | .postgres => { e with network := defaultNetwork e.network }
  | .sqlite => e

def Tables.upsertEvents (events : List Event) (t : Tables b) : Tables b :=
  { t with events := t.events.insertAll (events.map (liveRow b)) }

def Tables.inserted (events : List Event) (t : Tables b) : Nat :=
  (t.upsertEvents events).events.rows.length - t.events.rows.length

/-- The row left by `ON CONFLICT … DO UPDATE`: raw XDR that arrives empty is kept. -/
def coalesceXDR (old new : Event) : Event :=
  { new with
    rawTopicXDR := if new.rawTopicXDR = [] then old.rawTopicXDR else new.rawTopicXDR
    rawValueXDR := if new.rawValueXDR = "" then old.rawValueXDR else new.rawValueXDR }

theorem eventKey_coalesceXDR (old new : Event) (h : eventKey b old = eventKey b new) :
    eventKey b (coalesceXDR old new) = eventKey b old := by
  rw [h]
  cases b <;> rfl

def overwriteAll (rows : Table Event (eventKey b)) (events : List Event) :
    Table Event (eventKey b) :=
  events.foldl (fun t e => t.merge coalesceXDR eventKey_coalesceXDR e) rows

def inRange (fromLedger toLedger : Int) (ledger : Int) : Bool :=
  decide (fromLedger ≤ ledger ∧ ledger ≤ toLedger)

/-- The raw XDR of the last listed row with this id that has any. -/
def keptXDR (rows : List Event) (id : String) : Option (List String × String) :=
  (rows.reverse.find? fun r =>
    decide (r.id = id ∧ (r.rawTopicXDR ≠ [] ∨ r.rawValueXDR ≠ ""))).map fun r =>
      (r.rawTopicXDR, r.rawValueXDR)

def restoreRawXDR (kept : List Event) (e : Event) : Event :=
  match keptXDR kept e.id with
  | none => e
  | some (topics, value) =>
    { e with
      rawTopicXDR := if e.rawTopicXDR = [] then topics else e.rawTopicXDR
      rawValueXDR := if e.rawValueXDR = "" then value else e.rawValueXDR }

/-- The rows `ReplaceEventsInRange` deletes: on Postgres those of the first event's
network as given, on SQLite those of every network. -/
def replaced (b : Backend) (events : List Event) (fromLedger toLedger : Int) (r : Event) : Bool :=
  match b, events with
  | .postgres, [] => false
  | .postgres, e :: _ => decide (r.network = e.network) && inRange fromLedger toLedger r.ledger
  | .sqlite, _ => inRange fromLedger toLedger r.ledger

def Tables.replaceEventsInRange (events : List Event) (fromLedger toLedger : Int)
    (t : Tables b) : Tables b :=
  let gone := replaced b events fromLedger toLedger
  let kept := t.events.rows.filter gone
  let rows := events.map fun e =>
    { restoreRawXDR kept e with network := defaultNetwork e.network }
  { t with events := overwriteAll (t.events.delete gone) rows }

/-! ## Progress and dead letters -/

def Tables.upsertAddressRefs (refs : List AddressRef) (t : Tables b) : Tables b :=
  { t with eventAddresses := t.eventAddresses.insertAll refs }

def Tables.deadLetterEvent (d : DeadLetter) (t : Tables b) : Tables b :=
  { t with
    deadLetters := t.deadLetters.merge
      (fun old new =>
        { old with
          error := new.error
          attempts := old.attempts + 1
          topicXDR := new.topicXDR
          valueXDR := new.valueXDR })
      (fun _ _ _ => rfl) { d with attempts := 1 } }

def Tables.saveIngestionState (s : IngestionState) (t : Tables b) : Tables b :=
  { t with ingestionState :=
      t.ingestionState.put { s with network := defaultNetwork s.network } }

def Tables.getIngestionState (network : String) (t : Tables b) : Option IngestionState :=
  t.ingestionState.get (defaultNetwork network)

def Tables.saveContractCursor (c : ContractCursor) (t : Tables b) : Tables b :=
  { t with contractCursors := t.contractCursors.put c }

def Tables.getContractCursor (contractID : String) (t : Tables b) : Option ContractCursor :=
  t.contractCursors.get contractID

/-! ## Reorg reconciliation -/

/-- The network match of the reorg statements: SQLite also takes the empty network for
`default`. -/
def sameNetwork (b : Backend) (network row : String) : Bool :=
  match b with
  | .postgres => decide (row = network)
  | .sqlite => decide (row = network) || (decide (network = "default") && decide (row = ""))

/-- Some other network watches the contract and this one does not. -/
def Tables.watchedOnlyElsewhere (network contractID : String) (t : Tables b) : Bool :=
  (t.watchedContracts.rows.any fun w =>
    decide (w.contractID = contractID) && !sameNetwork b network w.network) &&
  !(t.watchedContracts.rows.any fun w =>
    decide (w.contractID = contractID) && sameNetwork b network w.network)

structure ReorgReconcileOptions where
  network : String
  fromLedger : Int
  toLedger : Int
  canonicalEvents : List Event
  canonicalAddressRefs : List AddressRef
  newHeadLedger : Int
  rewindCursorsToFromLedger : Bool

def compactJSON : Bool → List Char → List Char
  | _, [] => []
  | true, '\\' :: c :: cs => '\\' :: c :: compactJSON true cs
  | true, '"' :: cs => '"' :: compactJSON false cs
  | true, c :: cs => c :: compactJSON true cs
  | false, '"' :: cs => '"' :: compactJSON true cs
  | false, c :: cs =>
    if c = ' ' ∨ c = '\t' ∨ c = '\n' ∨ c = '\r' then compactJSON false cs
    else c :: compactJSON false cs

def canonicalJSONEqual (x y : String) : Bool :=
  decide (x = y) || decide (compactJSON false x.toList = compactJSON false y.toList)

def sameCanonicalEventContent (x y : Event) : Bool :=
  decide (x.id = y.id ∧ x.contractID = y.contractID ∧ x.ledger = y.ledger ∧ x.type = y.type ∧
    x.txHash = y.txHash ∧ x.txIndex = y.txIndex ∧ x.opIndex = y.opIndex ∧
    x.inSuccessfulCall = y.inSuccessfulCall) &&
  canonicalJSONEqual x.topics y.topics && canonicalJSONEqual x.value y.value

def dedupByID : List String → List Event → List Event
  | _, [] => []
  | seen, e :: es =>
    if e.id ∈ seen then dedupByID seen es else e :: dedupByID (e.id :: seen) es

/-- The canonical events of the range, with the options' network where they have none. -/
def canonicalOf (o : ReorgReconcileOptions) : List Event :=
  dedupByID [] <| (o.canonicalEvents.filter fun e => inRange o.fromLedger o.toLedger e.ledger).map
    fun e => if e.network = "" ∧ o.network ≠ "" then { e with network := o.network } else e

/-- Raw XDR is carried over when the last listed row of the event's id agrees in content; it is
that of the last listed row that has any. -/
def mergeKeptXDR (existing : List Event) (e : Event) : Event :=
  match existing.reverse.find? fun r => decide (r.id = e.id) with
  | none => e
  | some old => if sameCanonicalEventContent old e then restoreRawXDR existing e else e

def rewindTarget (o : ReorgReconcileOptions) (ledger : Int) : Int :=
  if o.rewindCursorsToFromLedger then o.fromLedger - 1
  else if 0 < o.newHeadLedger ∧ o.newHeadLedger < ledger then o.newHeadLedger
  else ledger

def reconcileCursor (o : ReorgReconcileOptions) (c : ContractCursor) : ContractCursor :=
  if rewindTarget o c.lastIngestedLedger ≠ c.lastIngestedLedger ∨ c.lastCursor ≠ "" then
    { c with lastIngestedLedger := rewindTarget o c.lastIngestedLedger, lastCursor := "" }
  else c

def reconcileState (o : ReorgReconcileOptions) (s : IngestionState) : IngestionState :=
  let target := rewindTarget o s.lastIngestedLedger
  let clearCursor := s.lastCursor ≠ "" ∧
    (s.lastIngestedLedger ≤ o.toLedger ∨ target ≠ s.lastIngestedLedger)
  if target ≠ s.lastIngestedLedger ∨ clearCursor then
    { s with
      lastIngestedLedger := target
      lastCursor := if clearCursor then "" else s.lastCursor }
  else s

theorem reconcileCursor_contractID (o : ReorgReconcileOptions) (c : ContractCursor) :
    (reconcileCursor o c).contractID = c.contractID := by
  unfold reconcileCursor
  split <;> rfl

theorem reconcileState_network (o : ReorgReconcileOptions) (s : IngestionState) :
    (reconcileState o s).network = s.network := by
  unfold reconcileState
  dsimp only
  split <;> rfl

/-- The row `ReconcileReorgTx` writes for a canonical event. -/
def canonicalRow (b : Backend) (e : Event) : Event :=
  liveRow b e

def Tables.reconcileReorgTx (o : ReorgReconcileOptions) (t : Tables b) : Tables b :=
  let network := defaultNetwork o.network
  let gone := fun (r : Event) => sameNetwork b network r.network &&
    inRange o.fromLedger o.toLedger r.ledger
  let existing := t.events.rows.filter gone
  let canonical := canonicalOf o
  let refs := (o.canonicalAddressRefs.filter fun r => canonical.any fun e =>
    decide (e.id = r.eventID)).dedup
  { t with
    eventAddresses :=
      (t.eventAddresses.delete fun r =>
        (existing.any fun e => decide (e.id = r.eventID)) &&
        !(t.events.rows.any fun e => decide (e.id = r.eventID) &&
            !sameNetwork b network e.network)).insertAll refs
    events := overwriteAll (t.events.delete gone)
      ((canonical.map (mergeKeptXDR existing)).map (canonicalRow b))
    deadLetters := t.deadLetters.delete fun d =>
      inRange o.fromLedger o.toLedger d.ledger && !t.watchedOnlyElsewhere network d.contractID
    contractCursors := t.contractCursors.update
      (fun c =>
        if o.fromLedger ≤ c.lastIngestedLedger ∧
            t.watchedOnlyElsewhere network c.contractID = false then
          reconcileCursor o c
        else c)
      (by
        intro c
        split
        · exact reconcileCursor_contractID o c
        · rfl)
    ingestionState := t.ingestionState.update
      (fun s =>
        if s.network = network ∧ o.fromLedger ≤ s.lastIngestedLedger then reconcileState o s
        else s)
      (by
        intro s
        split
        · exact reconcileState_network o s
        · rfl)
    auditState := t.auditState.update
      (fun a =>
        if a.network = network ∧ o.fromLedger ≤ a.verifiedThroughLedger then
          { a with verifiedThroughLedger := max (o.fromLedger - 1) 0 }
        else a)
      (by
        intro a
        split <;> rfl) }

/-- `ReconcileReorgRange` on a SQL backend. -/
def Tables.reconcileReorgRange (o : ReorgReconcileOptions) (t : Tables b) :
    Except Err (Tables b) :=
  if o.fromLedger ≤ 0 ∨ o.toLedger ≤ 0 ∨ o.toLedger < o.fromLedger then
    .error (.other ("invalid reorg ledger range [" ++ toString o.fromLedger ++ "," ++
      toString o.toLedger ++ "]"))
  else .ok (t.reconcileReorgTx o)

/-!
# What the writers do to the events table

Every writer of `events` is a delete followed by inserts that either skip or
overwrite a taken key.  Overwriting may keep the raw XDR of the old row, so rows
are compared without it.
-/

variable {b : Backend}

def sansXDR (e : Event) : Event :=
  { e with rawTopicXDR := [], rawValueXDR := "" }

theorem sansXDR_coalesceXDR (old new : Event) : sansXDR (coalesceXDR old new) = sansXDR new := rfl

variable {x e : Event} {es : List Event} {t : Table Event (eventKey b)} {seen : List String}

theorem sansXDR_fields {y : Event} (h : sansXDR x = sansXDR y) :
    x.id = y.id ∧ x.ledger = y.ledger ∧ x.network = y.network ∧ x.contractID = y.contractID ∧
      x.txHash = y.txHash ∧ x.opIndex = y.opIndex := by
  have hid := congrArg Event.id h
  have hledger := congrArg Event.ledger h
  have hnetwork := congrArg Event.network h
  have hcontract := congrArg Event.contractID h
  have htx := congrArg Event.txHash h
  have hop := congrArg Event.opIndex h
  exact ⟨hid, hledger, hnetwork, hcontract, htx, hop⟩

theorem eventKey_of_sansXDR {y : Event} (h : sansXDR x = sansXDR y) :
    eventKey b x = eventKey b y := by
  obtain ⟨hid, hledger, hnetwork, _⟩ := sansXDR_fields h
  cases b <;> simp [eventKey, hid, hledger, hnetwork]

/-! ## Overwriting inserts -/

theorem overwriteAll_cons (t : Table Event (eventKey b)) (e : Event) (es : List Event) :
    overwriteAll t (e :: es) =
      overwriteAll (t.merge coalesceXDR eventKey_coalesceXDR e) es := rfl

theorem mem_overwriteAll (h : x ∈ (overwriteAll t es).rows) :
    (x ∈ t.rows ∧ ∀ e ∈ es, eventKey b x ≠ eventKey b e) ∨
      ∃ e ∈ es, sansXDR x = sansXDR e := by
  induction es generalizing t with
  | nil => exact .inl ⟨h, fun e he => by cases he⟩
  | cons e es ih =>
    rcases ih h with ⟨hx, hne⟩ | ⟨e', he', hsame⟩
    · rcases Table.mem_merge.mp hx with ⟨hx, hkey⟩ | ⟨rfl, _⟩ | ⟨old, _, _, rfl⟩
      · refine .inl ⟨hx, ?_⟩
        intro e' he'
        rcases mem_cons.mp he' with rfl | he'
        · exact hkey
        · exact hne e' he'
      · exact .inr ⟨x, .head _, rfl⟩
      · exact .inr ⟨e, .head _, sansXDR_coalesceXDR old e⟩
    · exact .inr ⟨e', .tail _ he', hsame⟩

theorem overwriteAll_keeps (hx : x ∈ t.rows) (hne : ∀ e ∈ es, eventKey b x ≠ eventKey b e) :
    x ∈ (overwriteAll t es).rows := by
  induction es generalizing t with
  | nil => exact hx
  | cons e es ih =>
    refine ih ?_ (fun e' he' => hne e' (.tail _ he'))
    exact Table.mem_merge.mpr (Or.inl ⟨hx, hne e mem_cons_self⟩)

theorem overwriteAll_holds (hx : x ∈ t.rows) :
    ∃ y ∈ (overwriteAll t es).rows, eventKey b y = eventKey b x ∧
      (sansXDR y = sansXDR x ∨ ∃ e ∈ es, sansXDR y = sansXDR e) := by
  induction es generalizing t x with
  | nil => exact ⟨x, hx, rfl, .inl rfl⟩
  | cons f es ih =>
    by_cases hkey : eventKey b x = eventKey b f
    · have hmerged : coalesceXDR x f ∈ (t.merge coalesceXDR eventKey_coalesceXDR f).rows :=
        Table.mem_merge.mpr (.inr (.inr ⟨x, hx, hkey, rfl⟩))
      obtain ⟨y, hy, hyk, hsame⟩ := ih hmerged
      refine ⟨y, hy, hyk.trans (eventKey_coalesceXDR x f hkey), .inr ?_⟩
      rcases hsame with hsame | ⟨e, he, hsame⟩
      · exact ⟨f, .head _, hsame.trans (sansXDR_coalesceXDR x f)⟩
      · exact ⟨e, .tail _ he, hsame⟩
    · have hkept : x ∈ (t.merge coalesceXDR eventKey_coalesceXDR f).rows :=
        Table.mem_merge.mpr (.inl ⟨hx, hkey⟩)
      obtain ⟨y, hy, hyk, hsame⟩ := ih hkept
      refine ⟨y, hy, hyk, ?_⟩
      rcases hsame with hsame | ⟨e, he, hsame⟩
      · exact .inl hsame
      · exact .inr ⟨e, .tail _ he, hsame⟩

theorem overwriteAll_writes (he : e ∈ es) :
    ∃ y ∈ (overwriteAll t es).rows, eventKey b y = eventKey b e ∧
      ∃ e' ∈ es, sansXDR y = sansXDR e' := by
  induction es generalizing t with
  | nil => cases he
  | cons f es ih =>
    rcases mem_cons.mp he with rfl | he
    · have hfirst : ∃ x ∈ (t.merge coalesceXDR eventKey_coalesceXDR e).rows,
          sansXDR x = sansXDR e := by
        by_cases htaken : eventKey b e ∈ t.rows.map (eventKey b)
        · obtain ⟨old, hold, hkey⟩ := mem_map.mp htaken
          exact ⟨coalesceXDR old e,
            Table.mem_merge.mpr (.inr (.inr ⟨old, hold, hkey, rfl⟩)), rfl⟩
        · exact ⟨e, Table.mem_merge.mpr (.inr (.inl ⟨rfl, htaken⟩)), rfl⟩
      obtain ⟨x, hx, hxe⟩ := hfirst
      obtain ⟨y, hy, hyk, hsame⟩ := @overwriteAll_holds b x es _ hx
      refine ⟨y, hy, hyk.trans (eventKey_of_sansXDR hxe), ?_⟩
      rcases hsame with hsame | ⟨e', he', hsame⟩
      · exact ⟨e, .head _, hsame.trans hxe⟩
      · exact ⟨e', .tail _ he', hsame⟩
    · obtain ⟨y, hy, hyk, e', he', hsame⟩ := ih he
      exact ⟨y, hy, hyk, e', .tail _ he', hsame⟩

/-- Inserts with different keys: each adds its row, or overwrites the row that has the key. -/
theorem mem_overwriteAll_iff (hes : es.Pairwise fun x y => eventKey b x ≠ eventKey b y) :
    x ∈ (overwriteAll t es).rows ↔
      (x ∈ t.rows ∧ ∀ e ∈ es, eventKey b x ≠ eventKey b e) ∨
        ∃ e ∈ es, (x = e ∧ eventKey b e ∉ t.rows.map (eventKey b)) ∨
          ∃ old ∈ t.rows, eventKey b old = eventKey b e ∧ x = coalesceXDR old e := by
  induction es generalizing t with
  | nil => simp [overwriteAll]
  | cons e es ih =>
    obtain ⟨hhead, htail⟩ := pairwise_cons.mp hes
    -- the rows the other inserts meet are those of `t`
    have hother : ∀ e' ∈ es, ∀ y, y ∈ (t.merge coalesceXDR eventKey_coalesceXDR e).rows ∧
        eventKey b y = eventKey b e' ↔ y ∈ t.rows ∧ eventKey b y = eventKey b e' := by
      intro e' he' y
      rw [Table.mem_merge]
      constructor
      · rintro ⟨⟨hy, _⟩ | ⟨rfl, _⟩ | ⟨old, _, hkey, rfl⟩, hey⟩
        · exact ⟨hy, hey⟩
        · exact absurd hey (hhead e' he')
        · exact absurd (hkey.symm.trans ((eventKey_coalesceXDR old e hkey).symm.trans hey)) (hhead e' he')
      · rintro ⟨hy, hey⟩
        exact ⟨.inl ⟨hy, fun hkey => hhead e' he' (hkey.symm.trans hey)⟩, hey⟩
    have hfree : ∀ e' ∈ es, (eventKey b e' ∉
        (t.merge coalesceXDR eventKey_coalesceXDR e).rows.map (eventKey b) ↔
          eventKey b e' ∉ t.rows.map (eventKey b)) := by
      intro e' he'
      simp only [mem_map, not_exists, hother e' he']
    have hstays : (x ∈ (t.merge coalesceXDR eventKey_coalesceXDR e).rows ∧
        ∀ e' ∈ es, eventKey b x ≠ eventKey b e') ↔
        (x ∈ t.rows ∧ ∀ e' ∈ e :: es, eventKey b x ≠ eventKey b e') ∨
          (x = e ∧ eventKey b e ∉ t.rows.map (eventKey b)) ∨
            ∃ old ∈ t.rows, eventKey b old = eventKey b e ∧ x = coalesceXDR old e := by
      rw [Table.mem_merge, forall_mem_cons]
      constructor
      · rintro ⟨⟨hx, hne⟩ | hnew | ⟨old, hold, hkey, rfl⟩, hes'⟩
        · exact .inl ⟨hx, hne, hes'⟩
        · exact .inr (.inl hnew)
        · exact .inr (.inr ⟨old, hold, hkey, rfl⟩)
      · rintro (⟨hx, hne, hes'⟩ | ⟨rfl, hnew⟩ | ⟨old, hold, hkey, rfl⟩)
        · exact ⟨.inl ⟨hx, hne⟩, hes'⟩
        · exact ⟨.inr (.inl ⟨rfl, hnew⟩), hhead⟩
        · refine ⟨.inr (.inr ⟨old, hold, hkey, rfl⟩), fun e' he' hsame => hhead e' he' ?_⟩
          exact hkey.symm.trans ((eventKey_coalesceXDR old e hkey).symm.trans hsame)
    rw [overwriteAll_cons, ih htail, hstays, exists_mem_cons_iff, or_assoc]
    refine or_congr Iff.rfl (or_congr Iff.rfl ?_)
    refine exists_congr fun e' => and_congr_right fun he' => or_congr ?_ ?_
    · rw [hfree e' he']
    · refine exists_congr fun old => ?_
      rw [← and_assoc, ← and_assoc, hother e' he' old]

theorem mem_overwriteAll_free (hes : es.Pairwise fun x y => eventKey b x ≠ eventKey b y)
    (hfree : ∀ x ∈ t.rows, ∀ e ∈ es, eventKey b x ≠ eventKey b e) :
    x ∈ (overwriteAll t es).rows ↔ x ∈ t.rows ∨ x ∈ es := by
  have hnew : ∀ e ∈ es, eventKey b e ∉ t.rows.map (eventKey b) := by
    intro e he htaken
    obtain ⟨y, hy, hkey⟩ := mem_map.mp htaken
    exact hfree y hy e he hkey
  rw [mem_overwriteAll_iff hes]
  constructor
  · rintro (⟨hx, _⟩ | ⟨e, he, ⟨rfl, _⟩ | ⟨old, hold, hkey, _⟩⟩)
    · exact .inl hx
    · exact .inr he
    · exact absurd hkey (hfree old hold e he)
  · rintro (hx | hx)
    · exact .inl ⟨hx, hfree x hx⟩
    · exact .inr ⟨x, hx, .inl ⟨rfl, hnew x hx⟩⟩

/-! ## The writers -/

theorem mem_upsertEvents {t : Tables b} (h : x ∈ (t.upsertEvents es).events.rows) :
    x ∈ t.events.rows ∨ ∃ e ∈ es, x = liveRow b e := by
  rcases mem_insertAll h with hx | hx
  · exact .inl hx
  · obtain ⟨e, he, rfl⟩ := mem_map.mp hx
    exact .inr ⟨e, he, rfl⟩

theorem liveRow_fields (b : Backend) (e : Event) :
    (liveRow b e).id = e.id ∧ (liveRow b e).ledger = e.ledger ∧
      (liveRow b e).contractID = e.contractID := by
  cases b <;> exact ⟨rfl, rfl, rfl⟩

theorem sansXDR_liveRow {y : Event} (h : sansXDR x = sansXDR y) :
    sansXDR (liveRow b x) = sansXDR (liveRow b y) := by
  cases b with
  | postgres =>
    exact congrArg (fun r : Event => { r with network := defaultNetwork r.network }) h
  | sqlite => exact h

theorem sansXDR_restoreRawXDR (kept : List Event) (e : Event) :
    sansXDR (restoreRawXDR kept e) = sansXDR e := by
  unfold restoreRawXDR
  split <;> rfl

theorem sansXDR_mergeKeptXDR (existing : List Event) (e : Event) :
    sansXDR (mergeKeptXDR existing e) = sansXDR e := by
  unfold mergeKeptXDR
  split
  · rfl
  · split
    · exact sansXDR_restoreRawXDR existing e
    · rfl

/-- The row `ReplaceEventsInRange` writes for an event, up to raw XDR. -/
def replacementRow (e : Event) : Event :=
  { e with network := defaultNetwork e.network }

/-- The rows written by `ReplaceEventsInRange`, with the raw XDR they keep. -/
def replacementRows (kept events : List Event) : List Event :=
  events.map fun e => { restoreRawXDR kept e with network := defaultNetwork e.network }

theorem replaceEventsInRange_events (es : List Event) (from' to' : Int) (t : Tables b) :
    (t.replaceEventsInRange es from' to').events =
      overwriteAll (t.events.delete (replaced b es from' to'))
        (replacementRows (t.events.rows.filter (replaced b es from' to')) es) := rfl

theorem mem_replacementRows {kept : List Event} (h : x ∈ replacementRows kept es) :
    ∃ e ∈ es, sansXDR x = sansXDR (replacementRow e) := by
  obtain ⟨e, he, rfl⟩ := mem_map.mp h
  refine ⟨e, he, ?_⟩
  have hsame := sansXDR_restoreRawXDR kept e
  exact congrArg (fun r : Event => { r with network := defaultNetwork e.network }) hsame

theorem exists_replacementRows {kept : List Event} (h : e ∈ es) :
    ∃ x ∈ replacementRows kept es, sansXDR x = sansXDR (replacementRow e) := by
  refine ⟨_, mem_map.mpr ⟨e, h, rfl⟩, ?_⟩
  have hsame := sansXDR_restoreRawXDR kept e
  exact congrArg (fun r : Event => { r with network := defaultNetwork e.network }) hsame

theorem mem_replaceEventsInRange {t : Tables b} {from' to' : Int}
    (h : x ∈ (t.replaceEventsInRange es from' to').events.rows) :
    (x ∈ t.events.rows ∧ replaced b es from' to' x = false) ∨
      ∃ e ∈ es, sansXDR x = sansXDR (replacementRow e) := by
  rcases mem_overwriteAll h with ⟨hx, _⟩ | ⟨e, he, hsame⟩
  · exact .inl (mem_delete.mp hx)
  · obtain ⟨e', he', hrow⟩ := mem_replacementRows he
    exact .inr ⟨e', he', hsame.trans hrow⟩

theorem mem_dedupByID (h : e ∈ dedupByID seen es) : e ∈ es ∧ e.id ∉ seen := by
  induction es generalizing seen with
  | nil => simp [dedupByID] at h
  | cons x xs ih =>
    unfold dedupByID at h
    by_cases hx : x.id ∈ seen
    · rw [if_pos hx] at h
      exact ⟨.tail _ (ih h).1, (ih h).2⟩
    · rw [if_neg hx] at h
      rcases mem_cons.mp h with rfl | h
      · exact ⟨.head _, hx⟩
      · have := ih h
        exact ⟨.tail _ this.1, fun hs => this.2 (.tail _ hs)⟩

theorem dedupByID_sublist (seen : List String) (es : List Event) :
    (dedupByID seen es).Sublist es := by
  induction es generalizing seen with
  | nil => exact List.Sublist.refl _
  | cons x xs ih =>
    unfold dedupByID
    split
    · exact (ih seen).cons x
    · exact (ih _).cons_cons x

theorem exists_dedupByID (h : e ∈ es) (hs : e.id ∉ seen) :
    ∃ x ∈ dedupByID seen es, x.id = e.id := by
  induction es generalizing seen with
  | nil => cases h
  | cons x xs ih =>
    unfold dedupByID
    by_cases hx : x.id ∈ seen
    · rw [if_pos hx]
      rcases mem_cons.mp h with rfl | h
      · exact absurd hx hs
      · exact ih h hs
    · rw [if_neg hx]
      by_cases hid : x.id = e.id
      · exact ⟨x, .head _, hid⟩
      · rcases mem_cons.mp h with rfl | h
        · exact absurd rfl hid
        · have hs' : e.id ∉ x.id :: seen := by
            rintro hmem
            rcases mem_cons.mp hmem with heq | hmem
            · exact hid heq.symm
            · exact hs hmem
          obtain ⟨y, hy, hyid⟩ := ih h hs'
          exact ⟨y, .tail _ hy, hyid⟩

theorem dedupByID_pairwise (seen : List String) (es : List Event) :
    (dedupByID seen es).Pairwise fun x y => x.id ≠ y.id := by
  induction es generalizing seen with
  | nil => exact List.Pairwise.nil
  | cons x xs ih =>
    unfold dedupByID
    split
    · exact ih seen
    · refine pairwise_cons.mpr ⟨?_, ih _⟩
      intro y hy hid
      exact (mem_dedupByID hy).2 (hid ▸ (.head _))

theorem dedupByID_eq_self (h : es.Pairwise fun x y => x.id ≠ y.id) (hseen : ∀ e ∈ es, e.id ∉ seen) :
    dedupByID seen es = es := by
  induction es generalizing seen with
  | nil => rfl
  | cons x xs ih =>
    obtain ⟨hx, hxs⟩ := pairwise_cons.mp h
    unfold dedupByID
    rw [if_neg (hseen x (.head _)), ih hxs]
    intro e he hmem
    rcases mem_cons.mp hmem with heq | hmem
    · exact hx e he heq.symm
    · exact hseen e (.tail _ he) hmem

theorem mem_canonicalOf {o : ReorgReconcileOptions} (h : e ∈ canonicalOf o) :
    ∃ e' ∈ o.canonicalEvents,
      e = if e'.network = "" ∧ o.network ≠ "" then { e' with network := o.network } else e' := by
  obtain ⟨e', he', heq⟩ := mem_map.mp (mem_dedupByID h).1
  exact ⟨e', (mem_filter.mp he').1, heq.symm⟩

theorem mem_reconcileReorgTx {t : Tables b} {o : ReorgReconcileOptions}
    (h : x ∈ (t.reconcileReorgTx o).events.rows) :
    x ∈ t.events.rows ∨ ∃ e ∈ canonicalOf o, sansXDR x = sansXDR (liveRow b e) := by
  rcases mem_overwriteAll h with ⟨hx, _⟩ | ⟨e, he, hsame⟩
  · exact .inl (mem_delete.mp hx).1
  · obtain ⟨e', he', rfl⟩ := mem_map.mp he
    obtain ⟨c, hc, rfl⟩ := mem_map.mp he'
    refine .inr ⟨c, hc, hsame.trans ?_⟩
    have hkept := sansXDR_mergeKeptXDR
      (t.events.rows.filter fun r => sameNetwork b (defaultNetwork o.network) r.network &&
        inRange o.fromLedger o.toLedger r.ledger) c
    exact sansXDR_liveRow hkept

end SoroTrail.Store
