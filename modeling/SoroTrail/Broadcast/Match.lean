import SoroTrail.Api.Filter
import SoroTrail.Store.Pagination

/-!
# Live streams and stored rows

`eventMatches` decides in memory what a subscriber is sent; the same filter as a
query is the predicate of `buildEventWhereClause` on the stored row.  The two read
topics, payloads and the end of the time range differently: the stream compares
values after rounding their numbers, the column contains them; the stream takes a
`null` payload for none, the column is not NULL; the column has lost the last three
digits of the time.
-/

set_option autoImplicit false

namespace SoroTrail.Broadcast

open Lib Store Api Json Time

/-! ## The matcher -/

/-- `jsonDeepEqual` on an element of an array that has been read and on a text. -/
def jsonDeepEqual (item : Json Number) (needle : String) : Bool :=
  match item.mapNum Number.toBinary64, unmarshal needle with
  | some va, some vb => decide (va = vb)
  | _, _ => false

def topicContains (topics needle : String) : Bool :=
  match parse topics with
  | some (.arr items) => items.any fun item => jsonDeepEqual item needle
  | _ => false

def hasPayload (ev : Event) : Bool := decide (ev.value ≠ "" ∧ ev.value ≠ "null")

def eventMatches (ev : Event) (f : EventFilter) : Bool :=
  (decide (f.contractID = "" ∧ f.contractIDs = []) ||
      decide (f.contractID ≠ "" ∧ ev.contractID = f.contractID) ||
      decide (ev.contractID ∈ f.contractIDs)) &&
    (decide (f.types = []) || decide (ev.type ∈ f.types)) &&
    (decide (f.topic = "") || topicContains ev.topics f.topic) &&
    !decide (f.fromLedger > 0 ∧ ev.ledger < f.fromLedger) &&
    !decide (f.toLedger > 0 ∧ ev.ledger > f.toLedger) &&
    !decide (f.fromTime ≠ zero ∧ ev.createdAt < f.fromTime) &&
    !decide (f.toTime ≠ zero ∧ ev.createdAt > f.toTime) &&
    match f.hasValue with
    | none => true
    | some want => decide (hasPayload ev = want)

/-! ## The row -/

/-- The row PostgreSQL keeps of an event: its times have microseconds. -/
def storedRow (ev : Event) : Event :=
  { liveRow .postgres ev with createdAt := truncMicro ev.createdAt }

@[simp] theorem storedRow_contractID (ev : Event) : (storedRow ev).contractID = ev.contractID := rfl

@[simp] theorem storedRow_type (ev : Event) : (storedRow ev).type = ev.type := rfl

@[simp] theorem storedRow_ledger (ev : Event) : (storedRow ev).ledger = ev.ledger := rfl

@[simp] theorem storedRow_topics (ev : Event) : (storedRow ev).topics = ev.topics := rfl

@[simp] theorem storedRow_value (ev : Event) : (storedRow ev).value = ev.value := rfl

@[simp] theorem storedRow_createdAt (ev : Event) :
    (storedRow ev).createdAt = truncMicro ev.createdAt := rfl

def selected (lib : QueryLib) (f : EventFilter) (row : Event) : Bool :=
  (buildEventWhereClause lib f).all fun p => p row

structure Streamable (f : EventFilter) : Prop where
  contractIDPrefix : f.contractIDPrefix = ""
  txHash : f.txHash = ""
  inSuccessfulCall : f.inSuccessfulCall = none
  topicPositions : topicPositions f = []
  topicContains : f.topicContains = ""
  txIndex : f.txIndex = none
  opIndex : f.opIndex = none

/-! ## Where they differ -/

variable (jsonb : Jsonb) (ev : Event) (f : EventFilter)

/-- The conditions both evaluate alike: contracts, types, ledgers and the start of the time range. -/
def Shared : Prop :=
  (f.contractID = "" ∧ f.contractIDs = [] ∨ f.contractID ≠ "" ∧ ev.contractID = f.contractID ∨
      ev.contractID ∈ f.contractIDs) ∧
    (f.types = [] ∨ ev.type ∈ f.types) ∧
    (f.fromLedger ≤ 0 ∨ f.fromLedger ≤ ev.ledger) ∧
    (f.toLedger ≤ 0 ∨ ev.ledger ≤ f.toLedger) ∧
    (f.fromTime = zero ∨ f.fromTime ≤ ev.createdAt)

def TopicEqual : Prop := f.topic = "" ∨ topicContains ev.topics f.topic = true

def TopicWithin : Prop :=
  f.topic = "" ∨ ∃ items needle, jsonb.read ev.topics = some (.arr items) ∧
    jsonb.read f.topic = some needle ∧ ∃ item ∈ items, within needle item = true

/-- The conditions read differently, as the stream reads them. -/
structure Streamed : Prop where
  topic : TopicEqual ev f
  payload : f.hasValue = none ∨ f.hasValue = some (hasPayload ev)
  ends : f.toTime = zero ∨ ev.createdAt ≤ f.toTime

structure Stored : Prop where
  topic : TopicWithin jsonb ev f
  payload : f.hasValue = none ∨ f.hasValue = some (decide (ev.value ≠ ""))
  ends : f.toTime = zero ∨ truncMicro ev.createdAt ≤ f.toTime

/-- An element contains the topic and none has its value. -/
def PartialTopic : Prop := TopicWithin jsonb ev f ∧ ¬ TopicEqual ev f

/-- An element has the topic's value once numbers are rounded and none contains it. -/
def RoundedTopic : Prop := TopicEqual ev f ∧ ¬ TopicWithin jsonb ev f

/-- A payload is asked for or refused and the event's is `null`. -/
def NullPayload : Prop := f.hasValue.isSome ∧ ev.value = "null"

/-- The event is less than a microsecond after the end of the time range. -/
def LateInstant : Prop :=
  f.toTime ≠ zero ∧ f.toTime < ev.createdAt ∧ truncMicro ev.createdAt ≤ f.toTime

/-- One of the two accepts the event and the other trips over one of the differences. -/
def Divergent : Prop :=
  Shared ev f ∧
    (Stored jsonb ev f ∧ (PartialTopic jsonb ev f ∨ NullPayload ev f ∨ LateInstant ev f) ∨
      Streamed ev f ∧ (RoundedTopic jsonb ev f ∨ NullPayload ev f))

/-! ## Both conditions, part by part -/

theorem eventMatches_iff : eventMatches ev f = true ↔ Shared ev f ∧ Streamed ev f := by
  have hpayload : (match f.hasValue with
      | none => true
      | some want => decide (hasPayload ev = want)) = true ↔
      (f.hasValue = none ∨ f.hasValue = some (hasPayload ev)) := by
    cases f.hasValue with
    | none => simp
    | some want => simp [eq_comm]
  rw [eventMatches, Bool.and_eq_true, hpayload]
  simp only [Bool.and_eq_true, Bool.or_eq_true, decide_eq_true_eq, Bool.not_eq_true',
    decide_eq_false_iff_not, not_and, Shared, TopicEqual, not_lt, gt_iff_lt, or_assoc]
  rw [imp_iff_not_or, not_lt, imp_iff_not_or, not_lt, ← or_iff_not_imp_left, ← or_iff_not_imp_left]
  exact ⟨fun ⟨⟨⟨⟨⟨⟨⟨hids, htypes⟩, htopic⟩, hlow⟩, hhigh⟩, hstart⟩, hend⟩, hvalue⟩ =>
      ⟨⟨hids, htypes, hlow, hhigh, hstart⟩, htopic, hvalue, hend⟩,
    fun ⟨⟨hids, htypes, hlow, hhigh, hstart⟩, htopic, hvalue, hend⟩ =>
      ⟨⟨⟨⟨⟨⟨⟨hids, htypes⟩, htopic⟩, hlow⟩, hhigh⟩, hstart⟩, hend⟩, hvalue⟩⟩

theorem rank_truncMicro (t : Time) : (truncMicro t).rank + t.nano % 1000 = t.rank := by
  simp only [truncMicro, rank, clock]
  omega

theorem truncMicro_le (t : Time) : truncMicro t ≤ t := by
  rw [le_iff_rank, ← rank_truncMicro t]
  exact Nat.le_add_right _ _

theorem le_truncMicro_iff {s : Time} (hs : s.nano = 0) (t : Time) : s ≤ truncMicro t ↔ s ≤ t := by
  rw [le_iff_rank, le_iff_rank]
  simp only [truncMicro, rank, clock, hs]
  omega

theorem topic_clause_iff (htopic : UnsetOrJSON f.topic) :
    (!decide (f.topic ≠ "") || jsonb.columnContains ev.topics ("[" ++ f.topic ++ "]")) = true ↔
      TopicWithin jsonb ev f := by
  unfold TopicWithin
  by_cases hunset : f.topic = ""
  · simp [hunset]
  · rw [← jsonb.columnContains_brackets (htopic.resolve_left hunset)]
    simp [hunset]

theorem payload_clause_iff (stored : Bool) (hasValue : Option Bool) :
    (!hasValue.isSome || decide (some stored = hasValue)) = true ↔
      (hasValue = none ∨ hasValue = some stored) := by
  cases hasValue with
  | none => simp
  | some want => simp [eq_comm]

theorem selected_iff (lib : QueryLib) (haccepted : Accepted f) (honly : Streamable f)
    (hscope : f.scope.wildcard = true) :
    selected (lib.withJsonb jsonb) f (storedRow ev) = true ↔ Shared ev f ∧ Stored jsonb ev f := by
  have hclause {isSet : Prop} [Decidable isSet] {holds : Prop} [Decidable holds] :
      (!decide isSet || decide holds) = true ↔ (¬ isSet ∨ holds) := by simp
  rw [selected, buildEventWhereClause]
  -- the clauses of the fields that are not set hold of every row
  simp only [ledgerClauses, List.all_append, all_clause, honly.contractIDPrefix, honly.txHash,
    honly.inSuccessfulCall, honly.topicPositions, honly.topicContains, honly.txIndex, honly.opIndex,
    haccepted.network, hscope, Bool.and_eq_true, all_contractClause, payload_clause_iff,
    truncMicro_of_whole haccepted.fromTime, truncMicro_of_whole haccepted.toTime, hclause]
  have htopic : (!decide (f.topic ≠ "") ||
      (lib.withJsonb jsonb).jsonbContains (storedRow ev).topics ("[" ++ f.topic ++ "]")) = true ↔ _ :=
    topic_clause_iff jsonb ev f haccepted.topic
  rw [htopic]
  simp only [storedRow_value, storedRow_contractID, storedRow_type, storedRow_ledger, storedRow_createdAt,
    ge_iff_le, gt_iff_lt, not_lt, not_not, Shared, le_truncMicro_iff haccepted.fromTime, true_or, true_and,
    Bool.not_true, Bool.not_false, Bool.true_or, ne_eq, not_true_eq_false, not_false_eq_true, decide_false,
    List.map_nil, List.all_nil, Option.isSome_none, and_true]
  exact ⟨fun ⟨⟨⟨⟨⟨⟨hids, htypes⟩, htopic⟩, hvalue⟩, hlow, hhigh⟩, hstart⟩, hend⟩ =>
      ⟨⟨hids, htypes, hlow, hhigh, hstart⟩, htopic, hvalue, hend⟩,
    fun ⟨⟨hids, htypes, hlow, hhigh, hstart⟩, htopic, hvalue, hend⟩ =>
      ⟨⟨⟨⟨⟨⟨hids, htypes⟩, htopic⟩, hvalue⟩, hlow, hhigh⟩, hstart⟩, hend⟩⟩

/-! ## The differences -/

theorem payload_iff (h : ¬ NullPayload ev f) :
    (f.hasValue = none ∨ f.hasValue = some (hasPayload ev)) ↔
      (f.hasValue = none ∨ f.hasValue = some (decide (ev.value ≠ ""))) := by
  cases hvalue : f.hasValue with
  | none => simp
  | some want =>
    have hnull : ev.value ≠ "null" := fun hnull => h ⟨by simp [hvalue], hnull⟩
    simp [hasPayload, hnull]

theorem ends_iff (h : ¬ LateInstant ev f) :
    (f.toTime = zero ∨ ev.createdAt ≤ f.toTime) ↔
      (f.toTime = zero ∨ truncMicro ev.createdAt ≤ f.toTime) := by
  refine or_congr_right' fun hne => ⟨(truncMicro_le _).trans, fun hle => ?_⟩
  exact not_lt.mp fun hlt => h ⟨hne, hlt, hle⟩

theorem not_lateInstant (h : f.toTime = zero ∨ ev.createdAt ≤ f.toTime) : ¬ LateInstant ev f :=
  fun hlate => absurd (h.resolve_left hlate.1) (not_le.mpr hlate.2.1)

theorem not_streamed {jsonb : Jsonb} {ev : Event} {f : EventFilter}
    (h : PartialTopic jsonb ev f ∨ NullPayload ev f ∨ LateInstant ev f) (hstored : Stored jsonb ev f) :
    ¬ Streamed ev f := by
  intro hstreamed
  rcases h with h | ⟨hset, hnull⟩ | ⟨hne, hlate, -⟩
  · exact h.2 hstreamed.topic
  · have hstream := hstreamed.payload
    have hstore := hstored.payload
    simp only [hasPayload, hnull] at hstream
    cases hvalue : f.hasValue with
    | none => simp [hvalue] at hset
    | some want => simp_all
  · exact absurd (hstreamed.ends.resolve_left hne) (not_le.mpr hlate)

theorem not_stored {jsonb : Jsonb} {ev : Event} {f : EventFilter}
    (h : RoundedTopic jsonb ev f ∨ NullPayload ev f) (hstreamed : Streamed ev f) :
    ¬ Stored jsonb ev f := by
  intro hstored
  rcases h with h | h
  · exact h.2 hstored.topic
  · exact not_streamed (.inr (.inl h)) hstored hstreamed

/-- Without the differences each accepts what the other does. -/
theorem streamed_of_stored {jsonb : Jsonb} {ev : Event} {f : EventFilter} (hstored : Stored jsonb ev f)
    (h : ¬ (PartialTopic jsonb ev f ∨ NullPayload ev f ∨ LateInstant ev f)) : Streamed ev f := by
  simp only [not_or] at h
  exact {
    topic := not_not.mp fun hnot => h.1 ⟨hstored.topic, hnot⟩
    payload := (payload_iff ev f h.2.1).mpr hstored.payload
    ends := (ends_iff ev f h.2.2).mpr hstored.ends }

theorem stored_of_streamed {jsonb : Jsonb} {ev : Event} {f : EventFilter} (hstreamed : Streamed ev f)
    (h : ¬ (RoundedTopic jsonb ev f ∨ NullPayload ev f)) : Stored jsonb ev f := by
  simp only [not_or] at h
  exact {
    topic := not_not.mp fun hnot => h.1 ⟨hstreamed.topic, hnot⟩
    payload := (payload_iff ev f h.2).mp hstreamed.payload
    ends := (ends_iff ev f (not_lateInstant ev f hstreamed.ends)).mp hstreamed.ends }

theorem divergent_iff (hshared : Shared ev f) :
    Divergent jsonb ev f ↔ ¬ (Streamed ev f ↔ Stored jsonb ev f) := by
  constructor
  · rintro ⟨-, ⟨hstored, h⟩ | ⟨hstreamed, h⟩⟩ heq
    · exact not_streamed h hstored (heq.mpr hstored)
    · exact not_stored h hstreamed (heq.mp hstreamed)
  · intro hne
    refine ⟨hshared, ?_⟩
    by_contra hnone
    obtain ⟨hstore, hstream⟩ := not_or.mp hnone
    exact hne ⟨fun h => stored_of_streamed h fun hdiff => hstream ⟨h, hdiff⟩,
      fun h => streamed_of_stored h fun hdiff => hstore ⟨h, hdiff⟩⟩

/-- A subscriber is sent exactly the events a query would return, but for topics that only contain
the needle or only round to it, `null` payloads and the last microsecond. -/
theorem stream_selects_what_query_selects (lib : QueryLib) {env : FilterEnv} {scope : Scope} {q : Values}
    (hf : filterFromQuery env scope q = .ok f) (honly : Streamable f)
    (hscope : f.scope.wildcard = true) :
    eventMatches ev f = selected (lib.withJsonb jsonb) f (storedRow ev) ↔ ¬ Divergent jsonb ev f := by
  rw [Bool.eq_iff_iff, eventMatches_iff, selected_iff jsonb ev f lib (filterFromQuery_ok hf).1 honly hscope]
  by_cases hshared : Shared ev f
  · rw [divergent_iff jsonb ev f hshared]
    tauto
  · have hnot : ¬ Divergent jsonb ev f := fun h => hshared h.1
    simp [hshared, hnot]

def transfer (topics value : String) : Event :=
  { Event.stored "0000000000000000001-0000000000" 7 with topics := topics, value := value }

/-- Asked for in another notation and with white space, an equal topic is found by both. -/
theorem stream_selects_what_query_selects_topic :
    eventMatches (transfer "[\"a\",\x7b\"b\":1\x7d]" "1") { unfiltered with topic := "\x7b\"b\": 1.0\x7d" } =
      selected (QueryLib.verbatim.withJsonb .standard) { unfiltered with topic := "\x7b\"b\": 1.0\x7d" }
        (storedRow (transfer "[\"a\",\x7b\"b\":1\x7d]" "1")) := by
  refine (stream_selects_what_query_selects .standard _ _ QueryLib.verbatim
    (?_ : filterFromQuery (.default QueryLib.verbatim.toCursorLib) ⟨true, []⟩
      (.of [("topic", " \x7b\"b\": 1.0\x7d")]) = _) ?_ rfl).mpr ?_
  · decide +kernel
  · exact ⟨rfl, rfl, rfl, rfl, rfl, rfl, rfl⟩
  · rintro ⟨-, ⟨-, h | h | h⟩ | ⟨-, h | h⟩⟩
    · exact h.2 (.inr (by decide +kernel))
    · exact absurd h.1 (by decide)
    · exact absurd rfl h.1
    · exact h.2 ((topic_clause_iff _ _ _ (.inr (by decide +kernel))).mp (by decide +kernel))
    · exact absurd h.1 (by decide)

/-- A row with a `null` payload has a value and a topic may be asked for by part of it; the stream
sends neither event. -/
theorem stream_omits_null_and_partial :
    filterFromQuery (.default QueryLib.verbatim.toCursorLib) ⟨true, []⟩ (.of [("has_value", "true")]) =
        .ok { unfiltered with hasValue := some true } ∧
      eventMatches (transfer "[]" "null") { unfiltered with hasValue := some true } = false ∧
      selected (QueryLib.verbatim.withJsonb .standard) { unfiltered with hasValue := some true }
        (storedRow (transfer "[]" "null")) = true ∧
    filterFromQuery (.default QueryLib.verbatim.toCursorLib) ⟨true, []⟩
        (.of [("topic", "\x7b\"b\":1\x7d")]) = .ok { unfiltered with topic := "\x7b\"b\":1\x7d" } ∧
      eventMatches (transfer "[\x7b\"a\":2,\"b\":1\x7d]" "1")
        { unfiltered with topic := "\x7b\"b\":1\x7d" } = false ∧
      selected (QueryLib.verbatim.withJsonb .standard) { unfiltered with topic := "\x7b\"b\":1\x7d" }
        (storedRow (transfer "[\x7b\"a\":2,\"b\":1\x7d]" "1")) = true := by
  refine ⟨?_, ?_, ?_, ?_, ?_, ?_⟩ <;> decide +kernel

end SoroTrail.Broadcast
