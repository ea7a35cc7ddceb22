import SoroTrail.Store.Rows

/-!
# Replacing the events of a ledger range

`ReplaceEventsInRange` as a transaction that may fail at any statement.  On Postgres the
delete names the network of the first event as it is given; on SQLite it names no network,
runs without any event too, and the inserts overwrite a row of the network wherever its
ledger lies.  The stored rows for which this is a replacement of the events of one network
in one range are characterised.
-/

set_option autoImplicit false

namespace SoroTrail.Store

open Lib Rpc List Table

variable {b : Backend}

/-! ## The transaction -/

inductive ReplaceStatement where
  | ensureEventPartitions
  | beginTx
  | rawXDRInRange
  | deleteRange
  | insert (e : Event)
  | commit

/-- The statements in the order they are run; Postgres runs none for no events. -/
def replaceStatements (b : Backend) (events : List Event) : List ReplaceStatement :=
  let transaction : List ReplaceStatement :=
    [.beginTx, .rawXDRInRange, .deleteRange] ++ events.map .insert ++ [.commit]
  match b, events with
  | .postgres, [] => []
  | .postgres, _ :: _ => .ensureEventPartitions :: transaction
  | .sqlite, _ => transaction

def ReplaceStatement.failure (b : Backend) (events : List Event) (fromLedger toLedger : Int) :
    ReplaceStatement → String
  | .ensureEventPartitions =>
    let ledgers := events.map Event.ledger
    "ensuring event partitions for ledger range [" ++ toString (ledgers.min?.getD 0) ++ "," ++
      toString (ledgers.max?.getD 0) ++ "]"
  | .beginTx => "begin tx"
  | .rawXDRInRange =>
    "reading raw XDR in ledger range [" ++ toString fromLedger ++ "," ++ toString toLedger ++ "]"
  | .deleteRange =>
    let range := "deleting events in ledger range [" ++ toString fromLedger ++ "," ++ toString toLedger ++ "]"
    match b with
    | .postgres => range ++ " for network " ++ ((events.map Event.network).headD "")
    | .sqlite => range
  | .insert e =>
    match b with
    | .postgres => "inserting repaired events"
    | .sqlite => "inserting event " ++ e.id
  | .commit =>
    match b with
    | .postgres => "committing repair tx"
    | .sqlite => "commit replace"

/-- `ReplaceEventsInRange` on a database on which some statements fail: the first failure rolls
the transaction back. -/
def Tables.replaceEventsInRangeTx (fails : ReplaceStatement → Option Err) (events : List Event)
    (fromLedger toLedger : Int) (t : Tables b) : Except Err Unit × Tables b :=
  let failure := (replaceStatements b events).findSome? fun statement =>
    (fails statement).map (Err.wrap (statement.failure b events fromLedger toLedger))
  match failure with
  | some err => (.error err, t)
  | none => (.ok (), t.replaceEventsInRange events fromLedger toLedger)

/-! ## What it is for -/

/-- The row is of the network and in the range; an empty network stands for `default`. -/
def affected (network : String) (fromLedger toLedger : Int) (r : Event) : Bool :=
  decide (defaultNetwork r.network = network) && inRange fromLedger toLedger r.ledger

/-- What a new event has in a field, or what one of the replaced rows of its id had. -/
def Keeps {α : Type} (none : α) (field : Event → α) (old : List Event) (e r : Event) : Prop :=
  (field e ≠ none ∧ field r = field e) ∨
    (field e = none ∧ ((∃ o ∈ old, o.id = e.id ∧ field r = field o) ∨
      (∀ o ∈ old, o.id ≠ e.id) ∧ field r = none))

/-- `r` is the row of `e`, with raw XDR of the replaced rows where `e` has none. -/
structure RowOf (old : List Event) (e r : Event) : Prop where
  row : sansXDR r = sansXDR (replacementRow e)
  topics : Keeps [] Event.rawTopicXDR old e r
  value : Keeps "" Event.rawValueXDR old e r

/-- The rows of the network in the range are the events, and every other row stays. -/
structure Replaced (network : String) (events : List Event) (fromLedger toLedger : Int)
    (t t' : Tables b) : Prop where
  only : ∀ r ∈ t'.events.rows, affected network fromLedger toLedger r = true →
    ∃ e ∈ events, RowOf (t.events.rows.filter (affected network fromLedger toLedger)) e r
  each : ∀ e ∈ events, ∃ r ∈ t'.events.rows,
    RowOf (t.events.rows.filter (affected network fromLedger toLedger)) e r
  frame : ∀ r, affected network fromLedger toLedger r = false →
    (r ∈ t'.events.rows ↔ r ∈ t.events.rows)

/-- Without events there is no network, and no row changes. -/
def Replaces (events : List Event) (fromLedger toLedger : Int) (t t' : Tables b) : Prop :=
  match events with
  | [] => ∀ r, r ∈ t'.events.rows ↔ r ∈ t.events.rows
  | first :: _ => Replaced (defaultNetwork first.network) events fromLedger toLedger t t'

/-- A success replaces the events, an error changes nothing. -/
def Meets (events : List Event) (fromLedger toLedger : Int) (t : Tables b)
    (outcome : Except Err Unit × Tables b) : Prop :=
  (outcome.1 = .ok () → Replaces events fromLedger toLedger t outcome.2) ∧
    ∀ err, outcome.1 = .error err → outcome.2 = t

/-- On Postgres every row of the network in the range is deleted under the network as it is given,
or overwritten; on SQLite the range holds rows of the network only, none without any event, and
no row of the network outside the range has the id of an event. -/
def Replaceable (b : Backend) (rows events : List Event) (fromLedger toLedger : Int) : Prop :=
  match b, events with
  | .postgres, [] => True
  | .postgres, first :: _ => ∀ r ∈ rows,
      affected (defaultNetwork first.network) fromLedger toLedger r = true →
        r.network = first.network ∨ ∃ e ∈ events, eventKey .postgres r = eventKey .postgres (replacementRow e)
  | .sqlite, [] => ∀ r ∈ rows, inRange fromLedger toLedger r.ledger = false
  | .sqlite, first :: _ =>
    (∀ r ∈ rows, inRange fromLedger toLedger r.ledger = true →
      defaultNetwork r.network = defaultNetwork first.network) ∧
    ∀ r ∈ rows, inRange fromLedger toLedger r.ledger = false →
      r.network = defaultNetwork first.network → ∀ e ∈ events, r.id ≠ e.id

/-! ## Rows after a replacement -/

/-- An event as it is written, with the raw XDR of the deleted rows. -/
def replacementOf (kept : List Event) (e : Event) : Event :=
  { restoreRawXDR kept e with network := defaultNetwork e.network }

theorem eventKey_replacementOf (kept : List Event) (e : Event) :
    eventKey b (replacementOf kept e) = eventKey b (replacementRow e) := by
  have hsame : sansXDR (replacementOf kept e) = sansXDR (replacementRow e) :=
    congrArg (fun r : Event => { r with network := defaultNetwork e.network }) (sansXDR_restoreRawXDR kept e)
  exact eventKey_of_sansXDR hsame

theorem mem_replaced_iff {t : Tables b} {es : List Event} {from' to' : Int}
    (hids : es.Pairwise fun x y => x.id ≠ y.id) {x : Event} :
    x ∈ (t.replaceEventsInRange es from' to').events.rows ↔
      (x ∈ t.events.rows ∧ replaced b es from' to' x = false ∧
        ∀ e ∈ es, eventKey b x ≠ eventKey b (replacementRow e)) ∨
      ∃ e ∈ es,
        (x = replacementOf (t.events.rows.filter (replaced b es from' to')) e ∧
          ∀ r ∈ t.events.rows, replaced b es from' to' r = false →
            eventKey b r ≠ eventKey b (replacementRow e)) ∨
        ∃ old ∈ t.events.rows, replaced b es from' to' old = false ∧
          eventKey b old = eventKey b (replacementRow e) ∧
          x = coalesceXDR old (replacementOf (t.events.rows.filter (replaced b es from' to')) e) := by
  generalize hkept : t.events.rows.filter (replaced b es from' to') = kept
  have hkeys : (replacementRows kept es).Pairwise fun x y => eventKey b x ≠ eventKey b y := by
    refine pairwise_map.mpr (hids.imp fun hid hkey => hid ?_)
    have hsame := eventKey_replacementOf (b := b) kept
    exact (eventKey_inj ((hsame _).symm.trans (hkey.trans (hsame _)))).2
  rw [replaceEventsInRange_events, hkept, mem_overwriteAll_iff hkeys]
  have hfree : ∀ e : Event, (eventKey b (replacementOf kept e) ∉
      (t.events.delete (replaced b es from' to')).rows.map (eventKey b) ↔
        ∀ r ∈ t.events.rows, replaced b es from' to' r = false →
          eventKey b r ≠ eventKey b (replacementRow e)) := by
    simp [eventKey_replacementOf]
  refine or_congr ?_ ?_
  · rw [mem_delete, and_assoc]
    refine and_congr_right fun _ => and_congr_right fun _ => ?_
    rw [replacementRows, forall_mem_map]
    exact forall₂_congr fun e _ => by rw [← eventKey_replacementOf kept e]; rfl
  · constructor
    · rintro ⟨_, hmem, hrow⟩
      obtain ⟨e, he, rfl⟩ := mem_map.mp hmem
      refine ⟨e, he, hrow.imp (fun hnew => ⟨hnew.1, (hfree e).mp hnew.2⟩) ?_⟩
      rintro ⟨old, hold, hkey, rfl⟩
      obtain ⟨hmem, hgone⟩ := mem_delete.mp hold
      exact ⟨old, hmem, hgone, hkey.trans (eventKey_replacementOf kept e), rfl⟩
    · rintro ⟨e, he, hrow⟩
      refine ⟨replacementOf kept e, mem_map.mpr ⟨e, he, rfl⟩,
        hrow.imp (fun hnew => ⟨hnew.1, (hfree e).mpr hnew.2⟩) ?_⟩
      rintro ⟨old, hold, hgone, hkey, rfl⟩
      exact ⟨old, mem_delete.mpr ⟨hold, hgone⟩, hkey.trans (eventKey_replacementOf kept e).symm, rfl⟩

theorem keptXDR_spec (kept : List Event) (id : String) :
    (keptXDR kept id = none ∧ ∀ r ∈ kept, r.id = id → r.rawTopicXDR = [] ∧ r.rawValueXDR = "") ∨
      ∃ r ∈ kept, r.id = id ∧ keptXDR kept id = some (r.rawTopicXDR, r.rawValueXDR) := by
  rw [keptXDR]
  cases hfind : kept.reverse.find? fun r =>
      decide (r.id = id ∧ (r.rawTopicXDR ≠ [] ∨ r.rawValueXDR ≠ "")) with
  | none =>
    refine .inl ⟨rfl, fun r hr hid => ?_⟩
    have hnone := List.find?_eq_none.mp hfind r (mem_reverse.mpr hr)
    simpa [hid] using hnone
  | some r =>
    have hfound := List.find?_some hfind
    have hid : r.id = id := (of_decide_eq_true hfound).1
    exact .inr ⟨r, mem_reverse.mp (mem_of_find?_eq_some hfind), hid, rfl⟩

section Keeps

variable {α : Type} {none : α} {field : Event → α} {old kept : List Event} {e o r new : Event}

theorem Keeps.mono (h : Keeps none field kept e r) (hkept : ∀ o ∈ kept, o ∈ old)
    (hrest : ∀ o ∈ old, o.id = e.id → o ∈ kept) : Keeps none field old e r := by
  refine h.imp_right (And.imp_right (Or.imp ?_ ?_))
  · rintro ⟨o, ho, hid, hfield⟩
    exact ⟨o, hkept o ho, hid, hfield⟩
  · rintro ⟨hnone, hfield⟩
    exact ⟨fun o ho hid => hnone o (hrest o ho hid) hid, hfield⟩

theorem keeps_of_stored (stored : Option α) (hfield : field r = stored.getD none) (he : field e = none)
    (hstored : (stored = Option.none ∧ ∀ o ∈ kept, o.id = e.id → field o = none) ∨
      ∃ o ∈ kept, o.id = e.id ∧ stored = some (field o)) : Keeps none field kept e r := by
  refine .inr ⟨he, ?_⟩
  rcases hstored with ⟨hnone, hempty⟩ | ⟨o, ho, hid, hsome⟩
  · rw [hnone] at hfield
    by_cases hid : ∃ o ∈ kept, o.id = e.id
    · obtain ⟨o, ho, hid⟩ := hid
      exact .inl ⟨o, ho, hid, hfield.trans (hempty o ho hid).symm⟩
    · exact .inr ⟨fun o ho hid' => hid ⟨o, ho, hid'⟩, hfield⟩
  · rw [hsome] at hfield
    exact .inl ⟨o, ho, hid, hfield⟩

theorem Keeps.coalesce (h : Keeps none field kept e new) (hkept : ∀ o ∈ kept, o ∈ old) (ho : o ∈ old)
    (hid : o.id = e.id) (hempty : field new = none → field r = field o)
    (hset : field new ≠ none → field r = field new) : Keeps none field old e r := by
  by_cases hnew : field new = none
  · rcases h with ⟨hne, hsame⟩ | ⟨he, _⟩
    · exact absurd (hsame.symm.trans hnew) hne
    · exact .inr ⟨he, .inl ⟨o, ho, hid, hempty hnew⟩⟩
  · rcases h with ⟨hne, hsame⟩ | ⟨he, ⟨o', ho', hid', hsame⟩ | ⟨_, hnone⟩⟩
    · exact .inl ⟨hne, (hset hnew).trans hsame⟩
    · exact .inr ⟨he, .inl ⟨o', hkept o' ho', hid', (hset hnew).trans hsame⟩⟩
    · exact absurd hnone hnew

theorem rowOf_replacementOf (kept : List Event) (e : Event) : RowOf kept e (replacementOf kept e) := by
  have hstored := keptXDR_spec kept e.id
  have hrow : replacementOf kept e = { restoreRawXDR kept e with network := defaultNetwork e.network } := rfl
  refine ⟨congrArg (fun r : Event => { r with network := defaultNetwork e.network })
    (sansXDR_restoreRawXDR kept e), ?_, ?_⟩
  · by_cases he : e.rawTopicXDR = []
    · refine keeps_of_stored ((keptXDR kept e.id).map Prod.fst) ?_ he ?_
      · rw [hrow, restoreRawXDR]
        cases keptXDR kept e.id <;> simp [he]
      · refine hstored.imp (fun h => ⟨by rw [h.1]; rfl, fun o ho hid => (h.2 o ho hid).1⟩) ?_
        rintro ⟨o, ho, hid, hsome⟩
        exact ⟨o, ho, hid, by rw [hsome]; rfl⟩
    · refine .inl ⟨he, ?_⟩
      rw [hrow, restoreRawXDR]
      cases keptXDR kept e.id <;> simp [he]
  · by_cases he : e.rawValueXDR = ""
    · refine keeps_of_stored ((keptXDR kept e.id).map Prod.snd) ?_ he ?_
      · rw [hrow, restoreRawXDR]
        cases keptXDR kept e.id <;> simp [he]
      · refine hstored.imp (fun h => ⟨by rw [h.1]; rfl, fun o ho hid => (h.2 o ho hid).2⟩) ?_
        rintro ⟨o, ho, hid, hsome⟩
        exact ⟨o, ho, hid, by rw [hsome]; rfl⟩
    · refine .inl ⟨he, ?_⟩
      rw [hrow, restoreRawXDR]
      cases keptXDR kept e.id <;> simp [he]

theorem RowOf.mono (h : RowOf kept e r) (hkept : ∀ o ∈ kept, o ∈ old)
    (hrest : ∀ o ∈ old, o.id = e.id → o ∈ kept) : RowOf old e r :=
  ⟨h.row, h.topics.mono hkept hrest, h.value.mono hkept hrest⟩

theorem RowOf.coalesce (h : RowOf kept e new) (hkept : ∀ o ∈ kept, o ∈ old) (ho : o ∈ old)
    (hid : o.id = e.id) : RowOf old e (coalesceXDR o new) := by
  refine ⟨(sansXDR_coalesceXDR o new).trans h.row, h.topics.coalesce hkept ho hid ?_ ?_,
    h.value.coalesce hkept ho hid ?_ ?_⟩
  all_goals
    intro hnew
    simp [coalesceXDR, hnew]

theorem RowOf.key (h : RowOf kept e r) : eventKey b r = eventKey b (replacementRow e) :=
  eventKey_of_sansXDR h.row

theorem affected_of_row {from' to' : Int} (h : sansXDR r = sansXDR (replacementRow e))
    (hrange : inRange from' to' e.ledger = true) :
    affected (defaultNetwork e.network) from' to' r = true := by
  obtain ⟨_, hledger, hnetwork, _⟩ := sansXDR_fields h
  rw [affected, hnetwork, hledger]
  simp only [replacementRow, defaultNetwork_idem, decide_true, Bool.true_and]
  exact hrange

end Keeps

/-! ## When it replaces -/

section Replaced

variable {t : Tables b} {es : List Event} {from' to' : Int} {network : String}

/-- The delete takes rows of the network in the range only, the inserts overwrite such rows only,
and no such row is left over. -/
structure Exact (network : String) (es : List Event) (from' to' : Int) (t : Tables b) : Prop where
  deletes : ∀ r ∈ t.events.rows, replaced b es from' to' r = true → affected network from' to' r = true
  overwrites : ∀ r ∈ t.events.rows, replaced b es from' to' r = false → ∀ e ∈ es,
    eventKey b r = eventKey b (replacementRow e) → affected network from' to' r = true
  leaves : ∀ r ∈ t.events.rows, affected network from' to' r = true → replaced b es from' to' r = false →
    ∃ e ∈ es, eventKey b r = eventKey b (replacementRow e)

theorem Exact.replaced (h : Exact network es from' to' t) (hids : es.Pairwise fun x y => x.id ≠ y.id)
    (hrange : ∀ e ∈ es, inRange from' to' e.ledger = true)
    (hnetwork : ∀ e ∈ es, defaultNetwork e.network = network) :
    Replaced network es from' to' t (t.replaceEventsInRange es from' to') := by
  have hkept : ∀ r ∈ t.events.rows.filter (Store.replaced b es from' to'),
      r ∈ t.events.rows.filter (affected network from' to') := by
    intro r hr
    obtain ⟨hmem, hgone⟩ := mem_filter.mp hr
    exact mem_filter.mpr ⟨hmem, h.deletes r hmem hgone⟩
  -- without a conflict the replaced rows of the id have all been deleted
  have hnew : ∀ e ∈ es, (∀ r ∈ t.events.rows, Store.replaced b es from' to' r = false →
      eventKey b r ≠ eventKey b (replacementRow e)) →
      RowOf (t.events.rows.filter (affected network from' to')) e
        (replacementOf (t.events.rows.filter (Store.replaced b es from' to')) e) := by
    intro e he hfree
    refine (rowOf_replacementOf _ e).mono hkept fun o ho hid => ?_
    obtain ⟨hmem, haffected⟩ := mem_filter.mp ho
    refine mem_filter.mpr ⟨hmem, ?_⟩
    by_contra hleft
    have hleft : Store.replaced b es from' to' o = false := by simpa using hleft
    obtain ⟨e', he', hkey⟩ := h.leaves o hmem haffected hleft
    have hsame : e' = e := inj_on_of_nodup_map (pairwise_map.mpr hids) he' he
      ((eventKey_inj hkey).2.symm.trans hid)
    exact hfree o hmem hleft (hsame ▸ hkey)
  have hover : ∀ e ∈ es, ∀ old ∈ t.events.rows, Store.replaced b es from' to' old = false →
      eventKey b old = eventKey b (replacementRow e) →
      RowOf (t.events.rows.filter (affected network from' to')) e
        (coalesceXDR old (replacementOf (t.events.rows.filter (Store.replaced b es from' to')) e)) := by
    intro e he old hold hleft hkey
    exact (rowOf_replacementOf _ e).coalesce hkept
      (mem_filter.mpr ⟨hold, h.overwrites old hold hleft e he hkey⟩) (eventKey_inj hkey).2
  refine ⟨fun r hr haffected => ?_, fun e he => ?_, fun r hother => ?_⟩
  · rcases (mem_replaced_iff hids).mp hr with ⟨hmem, hleft, hne⟩ | ⟨e, he, ⟨rfl, hfree⟩ | ⟨old, hold, hleft, hkey, rfl⟩⟩
    · obtain ⟨e, he, hkey⟩ := h.leaves r hmem haffected hleft
      exact absurd hkey (hne e he)
    · exact ⟨e, he, hnew e he hfree⟩
    · exact ⟨e, he, hover e he old hold hleft hkey⟩
  · by_cases hconflict : ∃ old ∈ t.events.rows, Store.replaced b es from' to' old = false ∧
        eventKey b old = eventKey b (replacementRow e)
    · obtain ⟨old, hold, hleft, hkey⟩ := hconflict
      exact ⟨_, (mem_replaced_iff hids).mpr (.inr ⟨e, he, .inr ⟨old, hold, hleft, hkey, rfl⟩⟩),
        hover e he old hold hleft hkey⟩
    · have hfree : ∀ r ∈ t.events.rows, Store.replaced b es from' to' r = false →
          eventKey b r ≠ eventKey b (replacementRow e) :=
        fun r hr hleft hkey => hconflict ⟨r, hr, hleft, hkey⟩
      exact ⟨_, (mem_replaced_iff hids).mpr (.inr ⟨e, he, .inl ⟨rfl, hfree⟩⟩), hnew e he hfree⟩
  · have hwritten : ∀ e ∈ es, ¬ RowOf (t.events.rows.filter (affected network from' to')) e r := by
      intro e he hrow
      have haffected := affected_of_row hrow.row (hrange e he)
      rw [hnetwork e he, hother] at haffected
      cases haffected
    rw [mem_replaced_iff hids]
    constructor
    · rintro (⟨hmem, _⟩ | ⟨e, he, ⟨rfl, hfree⟩ | ⟨old, hold, hleft, hkey, rfl⟩⟩)
      · exact hmem
      · exact absurd (hnew e he hfree) (hwritten e he)
      · exact absurd (hover e he old hold hleft hkey) (hwritten e he)
    · intro hmem
      have hleft : Store.replaced b es from' to' r = false := by
        by_contra hgone
        have haffected := h.deletes r hmem (by simpa using hgone)
        rw [hother] at haffected
        cases haffected
      refine .inl ⟨hmem, hleft, fun e he hkey => ?_⟩
      have haffected := h.overwrites r hmem hleft e he hkey
      rw [hother] at haffected
      cases haffected

theorem Replaced.exact (h : Replaced network es from' to' t (t.replaceEventsInRange es from' to'))
    (hids : es.Pairwise fun x y => x.id ≠ y.id) (hrange : ∀ e ∈ es, inRange from' to' e.ledger = true)
    (hnetwork : ∀ e ∈ es, defaultNetwork e.network = network) : Exact network es from' to' t := by
  -- a row outside the range is neither deleted nor overwritten
  have hkept : ∀ r ∈ t.events.rows, affected network from' to' r = false →
      Store.replaced b es from' to' r = false ∧ ∀ e ∈ es, eventKey b r ≠ eventKey b (replacementRow e) := by
    intro r hmem hother
    have hnot : ∀ e ∈ es, sansXDR r ≠ sansXDR (replacementRow e) := by
      intro e he hrow
      have haffected := affected_of_row hrow (hrange e he)
      rw [hnetwork e he, hother] at haffected
      cases haffected
    rcases (mem_replaced_iff hids).mp ((h.frame r hother).mpr hmem) with
      ⟨_, hleft, hne⟩ | ⟨e, he, ⟨rfl, _⟩ | ⟨old, _, _, _, rfl⟩⟩
    · exact ⟨hleft, hne⟩
    · exact absurd (rowOf_replacementOf _ e).row (hnot e he)
    · exact absurd ((sansXDR_coalesceXDR old _).trans (rowOf_replacementOf _ e).row) (hnot e he)
  refine ⟨fun r hmem hgone => ?_, fun r hmem _ e he hkey => ?_, fun r hmem haffected hleft => ?_⟩
  · by_contra hother
    have hleft := (hkept r hmem (by simpa using hother)).1
    rw [hgone] at hleft
    cases hleft
  · by_contra hother
    exact (hkept r hmem (by simpa using hother)).2 e he hkey
  · by_contra hne
    have hne : ∀ e ∈ es, eventKey b r ≠ eventKey b (replacementRow e) :=
      fun e he hkey => hne ⟨e, he, hkey⟩
    obtain ⟨e, he, hrow⟩ := h.only r ((mem_replaced_iff hids).mpr (.inl ⟨hmem, hleft, hne⟩)) haffected
    exact hne e he hrow.key

end Replaced

section Backends

variable {es : List Event} {from' to' : Int} {first : Event}

/-- On Postgres the key holds the ledger, so that a delete that finds the rows is exact. -/
theorem exact_postgres_iff (t : Tables .postgres)
    (hrange : ∀ e ∈ first :: es, inRange from' to' e.ledger = true)
    (hnetwork : ∀ e ∈ first :: es, defaultNetwork e.network = defaultNetwork first.network) :
    Exact (defaultNetwork first.network) (first :: es) from' to' t ↔
      Replaceable .postgres t.events.rows (first :: es) from' to' := by
  have hgone : ∀ r : Event, replaced .postgres (first :: es) from' to' r = true ↔
      r.network = first.network ∧ inRange from' to' r.ledger = true := by
    simp [replaced]
  constructor
  · intro h r hmem haffected
    by_cases hsame : r.network = first.network
    · exact .inl hsame
    · refine .inr (h.leaves r hmem haffected ?_)
      simp [replaced, hsame]
  · intro h
    refine ⟨fun r _ hr => ?_, fun r _ _ e he hkey => ?_, fun r hmem haffected hleft => ?_⟩
    · obtain ⟨hsame, hin⟩ := (hgone r).mp hr
      simp [affected, hsame, hin]
    · have hledger : r.ledger = e.ledger := by
        simp only [eventKey, replacementRow, Prod.mk.injEq, Option.some.injEq] at hkey
        exact hkey.2.1
      have hsame : r.network = defaultNetwork e.network := (eventKey_inj hkey).1
      rw [affected, hledger, hrange e he, hsame, defaultNetwork_idem, hnetwork e he]
      simp
    · rcases h r hmem haffected with hsame | hkey
      · have hin : inRange from' to' r.ledger = true := by
          simp only [affected, Bool.and_eq_true] at haffected
          exact haffected.2
        rw [(hgone r).mpr ⟨hsame, hin⟩] at hleft
        cases hleft
      · exact hkey

/-- On SQLite the delete takes the whole range, and a row of the network elsewhere is overwritten. -/
theorem exact_sqlite_iff (t : Tables .sqlite)
    (hnetwork : ∀ e ∈ first :: es, defaultNetwork e.network = defaultNetwork first.network) :
    Exact (defaultNetwork first.network) (first :: es) from' to' t ↔
      Replaceable .sqlite t.events.rows (first :: es) from' to' := by
  have hkeys : ∀ r : Event, ∀ e ∈ first :: es, (eventKey .sqlite r = eventKey .sqlite (replacementRow e) ↔
      r.network = defaultNetwork first.network ∧ r.id = e.id) := by
    intro r e he
    simp [eventKey, replacementRow, hnetwork e he]
  have haffected : ∀ r : Event, affected (defaultNetwork first.network) from' to' r = true ↔
      defaultNetwork r.network = defaultNetwork first.network ∧ inRange from' to' r.ledger = true := by
    simp [affected]
  constructor
  · intro h
    refine ⟨fun r hmem hin => ((haffected r).mp (h.deletes r hmem hin)).1, ?_⟩
    intro r hmem hout hsame e he hid
    have hin := ((haffected r).mp (h.overwrites r hmem hout e he ((hkeys r e he).mpr ⟨hsame, hid⟩))).2
    rw [hout] at hin
    cases hin
  · rintro ⟨honly, hids⟩
    refine ⟨fun r hmem hin => (haffected r).mpr ⟨honly r hmem hin, hin⟩, ?_, ?_⟩
    · intro r hmem hout e he hkey
      obtain ⟨hsame, hid⟩ := (hkeys r e he).mp hkey
      exact absurd hid (hids r hmem hout hsame e he)
    · intro r _ hr hout
      have hin := ((haffected r).mp hr).2
      rw [show inRange from' to' r.ledger = false from hout] at hin
      cases hin

theorem replaces_nil_iff (t : Tables b) :
    Replaces [] from' to' t (t.replaceEventsInRange [] from' to') ↔
      Replaceable b t.events.rows [] from' to' := by
  have hrows : ∀ r, r ∈ (t.replaceEventsInRange [] from' to').events.rows ↔
      r ∈ t.events.rows ∧ replaced b [] from' to' r = false := fun r => mem_delete
  cases b with
  | postgres => exact iff_of_true (fun r => by simp [hrows, replaced]) trivial
  | sqlite =>
    constructor
    · intro h r hmem
      exact ((hrows r).mp ((h r).mpr hmem)).2
    · intro h r
      rw [hrows]
      exact and_iff_left_of_imp fun hmem => h r hmem

end Backends

theorem meets_iff (t : Tables b) (es : List Event) (from' to' : Int) :
    (∀ fails, Meets es from' to' t (t.replaceEventsInRangeTx fails es from' to')) ↔
      Replaces es from' to' t (t.replaceEventsInRange es from' to') := by
  constructor
  · intro h
    have hnone : (replaceStatements b es).findSome? (fun statement =>
        none.map (Err.wrap (statement.failure b es from' to'))) = none := by simp
    have hok := (h fun _ => none).1
    simp only [Tables.replaceEventsInRangeTx, hnone] at hok
    exact hok trivial
  · intro h fails
    rw [Tables.replaceEventsInRangeTx]
    split
    · exact ⟨nofun, fun _ _ => rfl⟩
    · exact ⟨fun _ => h, nofun⟩

/-- `ReplaceEventsInRange` replaces the events of one network in one range, or fails without a
trace, exactly for the stored rows its delete and its inserts are made for. -/
theorem replaceEventsInRange_meets_iff (t : Tables b) (events : List Event) (fromLedger toLedger : Int)
    (hids : events.Pairwise fun x y => x.id ≠ y.id)
    (hrange : ∀ e ∈ events, inRange fromLedger toLedger e.ledger = true)
    (hnetwork : ∀ e ∈ events, ∀ e' ∈ events, defaultNetwork e.network = defaultNetwork e'.network) :
    (∀ fails, Meets events fromLedger toLedger t
      (t.replaceEventsInRangeTx fails events fromLedger toLedger)) ↔
      Replaceable b t.events.rows events fromLedger toLedger := by
  rw [meets_iff]
  cases events with
  | nil => exact replaces_nil_iff t
  | cons first es =>
    have hfirst : ∀ e ∈ first :: es, defaultNetwork e.network = defaultNetwork first.network :=
      fun e he => hnetwork e he first (.head _)
    have hexact : Replaced (defaultNetwork first.network) (first :: es) fromLedger toLedger t
        (t.replaceEventsInRange (first :: es) fromLedger toLedger) ↔
        Exact (defaultNetwork first.network) (first :: es) fromLedger toLedger t :=
      ⟨fun h => h.exact hids hrange hfirst, fun h => h.replaced hids hrange hfirst⟩
    cases b with
    | postgres => exact hexact.trans (exact_postgres_iff t hrange hfirst)
    | sqlite => exact hexact.trans (exact_sqlite_iff t hfirst)

def rangeRow (network id : String) (ledger : Int) : Event := .sample network id "C1" ledger

def eventTables (b : Backend) (rows : Table Event (eventKey b)) : Tables b :=
  { Tables.empty b with events := rows }

/-- A row of another network and a row past the range stay on Postgres. -/
theorem replaceEventsInRange_meets_iff_testnet :
    Replaceable .postgres
      [rangeRow "testnet" "5-1" 5, rangeRow "mainnet" "5-1" 5, rangeRow "testnet" "5-2" 9]
      [rangeRow "testnet" "5-2" 5] 4 6 ∧
    ∀ fails, Meets [rangeRow "testnet" "5-2" 5] 4 6
      (eventTables .postgres
        ⟨[rangeRow "testnet" "5-1" 5, rangeRow "mainnet" "5-1" 5, rangeRow "testnet" "5-2" 9], by decide⟩)
      (Tables.replaceEventsInRangeTx fails [rangeRow "testnet" "5-2" 5] 4 6
        (eventTables .postgres
          ⟨[rangeRow "testnet" "5-1" 5, rangeRow "mainnet" "5-1" 5, rangeRow "testnet" "5-2" 9], by decide⟩)) := by
  have hrows : Replaceable .postgres
      [rangeRow "testnet" "5-1" 5, rangeRow "mainnet" "5-1" 5, rangeRow "testnet" "5-2" 9]
      [rangeRow "testnet" "5-2" 5] 4 6 := by
    intro r hr haffected
    rcases mem_cons.mp hr with rfl | hr
    · exact .inl rfl
    · simp [rangeRow] at hr
      rcases hr with rfl | rfl
      · exact absurd haffected (by decide)
      · exact absurd haffected (by decide)
  exact ⟨hrows, (replaceEventsInRange_meets_iff _ [rangeRow "testnet" "5-2" 5] 4 6 (by simp)
    (by decide) (by simp)).mpr hrows⟩

/-- On Postgres events without a network leave the stored rows of `default` in the range.  On SQLite
an empty list deletes the range, a replacement deletes the rows of another network, and it takes
a row of the network from outside the range. -/
theorem replaceEventsInRange_misses :
    (∃ t : Tables .postgres, t.events.rows = [rangeRow "default" "5-1" 5] ∧
      (t.replaceEventsInRange [rangeRow "" "5-2" 5] 4 6).events.rows =
        [rangeRow "default" "5-1" 5, rangeRow "default" "5-2" 5] ∧
      ¬ Replaces [rangeRow "" "5-2" 5] 4 6 t (t.replaceEventsInRange [rangeRow "" "5-2" 5] 4 6)) ∧
    (∃ t : Tables .sqlite, t.events.rows = [rangeRow "default" "5-1" 5] ∧
      (t.replaceEventsInRange [] 4 6).events.rows = [] ∧
      ¬ Replaces [] 4 6 t (t.replaceEventsInRange [] 4 6)) ∧
    (∃ t : Tables .sqlite, t.events.rows = [rangeRow "mainnet" "5-1" 5] ∧
      (t.replaceEventsInRange [rangeRow "testnet" "5-2" 5] 4 6).events.rows = [rangeRow "testnet" "5-2" 5] ∧
      ¬ Replaces [rangeRow "testnet" "5-2" 5] 4 6 t
        (t.replaceEventsInRange [rangeRow "testnet" "5-2" 5] 4 6)) ∧
    ∃ t : Tables .sqlite, t.events.rows = [rangeRow "testnet" "5-2" 9] ∧
      (t.replaceEventsInRange [rangeRow "testnet" "5-2" 5] 4 6).events.rows = [rangeRow "testnet" "5-2" 5] ∧
      ¬ Replaces [rangeRow "testnet" "5-2" 5] 4 6 t
        (t.replaceEventsInRange [rangeRow "testnet" "5-2" 5] 4 6) := by
  refine ⟨⟨eventTables _ ⟨[rangeRow "default" "5-1" 5], by decide⟩, rfl, by decide, fun h => ?_⟩,
    ⟨eventTables _ ⟨[rangeRow "default" "5-1" 5], by decide⟩, rfl, by decide, fun h => ?_⟩,
    ⟨eventTables _ ⟨[rangeRow "mainnet" "5-1" 5], by decide⟩, rfl, by decide, fun h => ?_⟩,
    ⟨eventTables _ ⟨[rangeRow "testnet" "5-2" 9], by decide⟩, rfl, by decide, fun h => ?_⟩⟩
  · obtain ⟨e, he, hrow⟩ := h.only (rangeRow "default" "5-1" 5) (by decide) (by decide)
    cases mem_singleton.mp he
    exact absurd (sansXDR_fields hrow.row).1 (by decide)
  · exact absurd ((h (rangeRow "default" "5-1" 5)).mpr (.head _)) (by decide)
  · exact absurd ((h.frame (rangeRow "mainnet" "5-1" 5) (by decide)).mpr (.head _)) (by decide)
  · exact absurd ((h.frame (rangeRow "testnet" "5-2" 9) (by decide)).mpr (.head _)) (by decide)

end SoroTrail.Store
