import SoroTrail.Api.Filter
import SoroTrail.Store.Pagination

/-!
# Validators of list pages

`listETag` is the digest of a hand-written projection of the filter.  Filters with
one tag agree on the projected fields, up to the notation of their topics; what the
projection leaves out is the list of contracts, the success flag and the order
column.
-/

set_option autoImplicit false

namespace SoroTrail.Api

open Lib Store Function Time

/-! ## The tag -/

/-- The fields `listETag` marshals. -/
structure ListKey where
  contractID : String
  contractIDPrefix : String
  types : List String
  topic : String
  topic0 : String
  topic1 : String
  topic2 : String
  topic3 : String
  topicContains : String
  txHash : String
  hasValue : Option Bool
  txIndex : Option Int
  opIndex : Option Int
  fromLedger : Int
  toLedger : Int
  fromTime : String
  toTime : String
  cursor : String
  limit : Int
  order : String
  scope : String
  deriving DecidableEq, Repr

/-- `json.Marshal` of a raw message, the digest of the marshalled key, and the first eight bytes of
the digest of a text in hexadecimal. -/
structure TagLib (Tag : Type) where
  compact : String → String
  compact_eq_empty : ∀ x, compact x = "" ↔ x = ""
  digest : ListKey → Tag
  digest_injective : Injective digest
  shortDigest : String → String

/-- PostgreSQL reads two texts alike when they differ only in what `json.Marshal` takes away. -/
structure ReadsCompact {Tag : Type} (tags : TagLib Tag) (lib : QueryLib) : Prop where
  contains : ∀ topics x y, tags.compact x = tags.compact y →
    lib.jsonbContains topics x = lib.jsonbContains topics y
  brackets : ∀ topics x y, tags.compact x = tags.compact y →
    lib.jsonbContains topics ("[" ++ x ++ "]") = lib.jsonbContains topics ("[" ++ y ++ "]")
  position : ∀ topics i x y, tags.compact x = tags.compact y →
    lib.jsonbAt topics i x = lib.jsonbAt topics i y

def resolvedLimit (n : Int) : Int := if n ≤ 0 then defaultQueryLimit else n

def resolvedOrder (o : String) : String := if o = "" then "asc" else o

def timeOrEmpty (t : Time) : String := if t = zero then "" else String.ofList t.rfc3339Nano

section Tag

variable {Tag : Type} (tags : TagLib Tag)

/-- `Scope.Fingerprint`. -/
def fingerprint (s : Scope) : String :=
  if s.wildcard then "wildcard"
  else if s.contracts = [] then "none"
  else tags.shortDigest ("\n".intercalate s.contracts)

def listKey (f : EventFilter) : ListKey where
  contractID := f.contractID
  contractIDPrefix := f.contractIDPrefix
  types := f.types
  topic := tags.compact f.topic
  topic0 := tags.compact f.topic0
  topic1 := tags.compact f.topic1
  topic2 := tags.compact f.topic2
  topic3 := tags.compact f.topic3
  topicContains := tags.compact f.topicContains
  txHash := f.txHash
  hasValue := f.hasValue
  txIndex := f.txIndex
  opIndex := f.opIndex
  fromLedger := f.fromLedger
  toLedger := f.toLedger
  fromTime := timeOrEmpty f.fromTime
  toTime := timeOrEmpty f.toTime
  cursor := f.cursor
  limit := resolvedLimit f.limit
  order := resolvedOrder f.order
  scope := fingerprint tags f.scope

def listETag (f : EventFilter) : Tag := tags.digest (listKey tags f)

end Tag

theorem timeOrEmpty_injective : Injective timeOrEmpty := by
  have hne (t : Time) : String.ofList t.rfc3339Nano ≠ "" := by
    intro h
    have hparse := parseUTC_rfc3339Nano t
    rw [String.ofList_eq_empty_iff.mp h] at hparse
    exact absurd hparse nofun
  intro s t h
  unfold timeOrEmpty at h
  split_ifs at h with hs ht ht
  · rw [hs, ht]
  · exact absurd h.symm (hne t)
  · exact absurd h (hne s)
  · have hparse := parseUTC_rfc3339Nano s
    rw [String.ofList_injective h, parseUTC_rfc3339Nano] at hparse
    exact (Option.some.inj hparse).symm

/-! ## What the tag leaves out -/

/-- The filters agree where `listETag` does not look. -/
structure AgreeBeyondTag {Tag : Type} (tags : TagLib Tag) (b : Backend) (f g : EventFilter) : Prop where
  contracts : ∀ c, c ∈ f.contractIDs ↔ c ∈ g.contractIDs
  inSuccessfulCall : f.inSuccessfulCall = g.inSuccessfulCall
  orderBy : f.orderBy = g.orderBy ∨
    f.orderBy ∈ ["", orderByID] ∧ g.orderBy ∈ ["", orderByID]
  scope : fingerprint tags f.scope = fingerprint tags g.scope → f.scope = g.scope
  /-- SQLite compares texts, in which `<` and its escape differ. -/
  needles : b = .sqlite → f.topic = g.topic ∧ f.topic0 = g.topic0 ∧ f.topic1 = g.topic1 ∧
    f.topic2 = g.topic2 ∧ f.topic3 = g.topic3 ∧ f.topicContains = g.topicContains

/-- Everything `queryEvents` takes from a filter, with one name for the id order. -/
structure SameQuery (lib : QueryLib) (b : Backend) (f g : EventFilter) : Prop where
  deniesAll : f.scope.deniesAll = g.scope.deniesAll
  sparse : hasSparseTopicFilter f = hasSparseTopicFilter g
  fromLedger : f.fromLedger = g.fromLedger
  toLedger : f.toLedger = g.toLedger
  orderBy : f.orderBy = g.orderBy
  cursor : f.cursor = g.cursor
  descending : f.descending = g.descending
  limit : pageLimit f = pageLimit g
  conditions : whereClause lib b f = whereClause lib b g

section Congr

variable {lib : QueryLib} {b : Backend} {f g : EventFilter}

section

variable (h : SameQuery lib b f g)
include h

theorem cursorClauses_congr : cursorClauses lib b f = cursorClauses lib b g := by
  funext cursor
  cases cursor with
  | start => rfl
  | byID id => simp only [cursorClauses, ledgerBound, h.fromLedger, h.toLedger, h.descending]
  | byLedger l id => simp only [cursorClauses, h.descending]
  | byCreatedAt t id => cases b <;> simp only [cursorClauses, h.descending]

theorem sortsBefore_congr : sortsBefore b f = sortsBefore b g := by
  funext x y
  simp only [sortsBefore, sortsBefore.pair, h.orderBy, h.descending]

theorem buildQueryEvents_congr (limits : SparseLimits) :
    buildQueryEvents lib b limits f = buildQueryEvents lib b limits g := by
  simp only [buildQueryEvents, validateSparseFilterRange, decodeCursor, h.sparse, h.fromLedger,
    h.toLedger, h.orderBy, h.cursor, h.limit, h.conditions, cursorClauses_congr h, sortsBefore_congr h]

theorem queryEvents_congr (limits : SparseLimits) (db : Query → List Event) :
    queryEvents lib b limits db f = queryEvents lib b limits db g := by
  simp only [queryEvents, h.deniesAll, h.orderBy, buildQueryEvents_congr h]

end

theorem queryEvents_orderByID (horder : f.orderBy ∈ ["", orderByID]) (limits : SparseLimits)
    (db : Query → List Event) :
    queryEvents lib b limits db f = queryEvents lib b limits db { f with orderBy := orderByID } := by
  have hwhere : whereClause lib b { f with orderBy := orderByID } = whereClause lib b f := by
    cases b <;> rfl
  have hclauses : cursorClauses lib b { f with orderBy := orderByID } = cursorClauses lib b f := by
    funext cursor
    cases cursor <;> rfl
  have hledger : f.orderBy ≠ orderByLedger := by
    intro h
    rw [h] at horder
    exact absurd horder (by decide)
  have hcreated : f.orderBy ≠ orderByCreatedAt := by
    intro h
    rw [h] at horder
    exact absurd horder (by decide)
  have hid : f.orderBy = "" ∨ f.orderBy = orderByID := by simpa using horder
  have hsorts : sortsBefore b { f with orderBy := orderByID } = sortsBefore b f := by
    have hne : orderByID ≠ orderByLedger ∧ orderByID ≠ orderByCreatedAt := by decide
    funext x y
    simp only [sortsBefore, hledger, hcreated, hne.1, hne.2, if_false]
    rfl
  have hdecode : decodeCursor lib b { f with orderBy := orderByID } = decodeCursor lib b f := by
    rw [decodeCursor, decodeCursor, if_pos hid, if_pos (Or.inr rfl)]
  have hvalid : validOrderBy f.orderBy = validOrderBy orderByID := by
    rcases hid with h | h
    · rw [h]
      rfl
    · rw [h]
  have hencode (e : Event) : encodeCursorForBackend lib.toCursorLib (cursorTag b) f.orderBy e =
      encodeCursorForBackend lib.toCursorLib (cursorTag b) orderByID e := by
    rw [encodeCursorForBackend, encodeCursorForBackend, if_neg hledger, if_neg hcreated,
      if_neg (by decide), if_neg (by decide)]
  have hbuild : buildQueryEvents lib b limits { f with orderBy := orderByID } =
      buildQueryEvents lib b limits f := by
    simp only [buildQueryEvents, hwhere, hclauses, hsorts, hdecode, hvalid]
    rfl
  simp only [queryEvents, hbuild, hencode]

/-! ### Conditions -/

theorem contractClause_congr (hid : f.contractID = g.contractID)
    (hids : ∀ c, c ∈ f.contractIDs ↔ c ∈ g.contractIDs) : contractClause f = contractClause g := by
  have hempty : f.contractIDs = [] ↔ g.contractIDs = [] := by
    simp only [List.eq_nil_iff_forall_not_mem, hids]
  unfold contractClause
  by_cases hnone : f.contractIDs = []
  · simp only [hnone, hempty.mp hnone, hid]
  · rw [if_pos hnone, if_pos (fun h => hnone (hempty.mpr h))]
    simp only [List.cons.injEq, and_true, hid, hids]
    by_cases hjoin : g.contractID ≠ "" ∧ g.contractID ∉ g.contractIDs
    · simp [hjoin, hids]
    · simp only [if_neg hjoin, hids]

theorem topicClauses_eq (p : Nat → String → Event → Bool) :
    ((topicPositions f).map fun (i, topic) => p i topic) =
      clause (decide (f.topic0 ≠ "")) (p 0 f.topic0) ++ clause (decide (f.topic1 ≠ "")) (p 1 f.topic1) ++
        clause (decide (f.topic2 ≠ "")) (p 2 f.topic2) ++ clause (decide (f.topic3 ≠ "")) (p 3 f.topic3) := by
  by_cases h0 : f.topic0 = "" <;> by_cases h1 : f.topic1 = "" <;> by_cases h2 : f.topic2 = "" <;>
    by_cases h3 : f.topic3 = "" <;> simp [topicPositions, clause, h0, h1, h2, h3]

end Congr

section Validator

variable {Tag : Type} {tags : TagLib Tag} {lib : QueryLib} {b : Backend} {f g : EventFilter}

structure SameFields (f g : EventFilter) : Prop where
  contractID : f.contractID = g.contractID
  contractIDPrefix : f.contractIDPrefix = g.contractIDPrefix
  types : f.types = g.types
  txHash : f.txHash = g.txHash
  hasValue : f.hasValue = g.hasValue
  txIndex : f.txIndex = g.txIndex
  opIndex : f.opIndex = g.opIndex
  fromLedger : f.fromLedger = g.fromLedger
  toLedger : f.toLedger = g.toLedger
  fromTime : f.fromTime = g.fromTime
  toTime : f.toTime = g.toTime
  cursor : f.cursor = g.cursor

theorem sameFields_of_key (hkey : listKey tags f = listKey tags g) : SameFields f g where
  contractID := congrArg ListKey.contractID hkey
  contractIDPrefix := congrArg ListKey.contractIDPrefix hkey
  types := congrArg ListKey.types hkey
  txHash := congrArg ListKey.txHash hkey
  hasValue := congrArg ListKey.hasValue hkey
  txIndex := congrArg ListKey.txIndex hkey
  opIndex := congrArg ListKey.opIndex hkey
  fromLedger := congrArg ListKey.fromLedger hkey
  toLedger := congrArg ListKey.toLedger hkey
  fromTime := timeOrEmpty_injective (congrArg ListKey.fromTime hkey)
  toTime := timeOrEmpty_injective (congrArg ListKey.toTime hkey)
  cursor := congrArg ListKey.cursor hkey

theorem ne_empty_congr {x y : String} (h : tags.compact x = tags.compact y) : x ≠ "" ↔ y ≠ "" := by
  rw [ne_eq, ne_eq, ← tags.compact_eq_empty, ← tags.compact_eq_empty y, h]

theorem hasSparseTopicFilter_congr (hkey : listKey tags f = listKey tags g) :
    hasSparseTopicFilter f = hasSparseTopicFilter g := by
  unfold hasSparseTopicFilter
  rw [decide_eq_decide, ne_empty_congr (congrArg ListKey.topic hkey),
    ne_empty_congr (congrArg ListKey.topicContains hkey), ne_empty_congr (congrArg ListKey.topic0 hkey),
    ne_empty_congr (congrArg ListKey.topic1 hkey), ne_empty_congr (congrArg ListKey.topic2 hkey),
    ne_empty_congr (congrArg ListKey.topic3 hkey)]

theorem needle_congr {x y : String} {p : String → Event → Bool} (h : tags.compact x = tags.compact y)
    (hp : p x = p y) : clause (decide (x ≠ "")) (p x) = clause (decide (y ≠ "")) (p y) := by
  rw [hp, decide_eq_decide.mpr (ne_empty_congr h)]

theorem buildEventWhereClause_congr (hreads : ReadsCompact tags lib) (hkey : listKey tags f = listKey tags g)
    (hbeyond : AgreeBeyondTag tags .postgres f g) (hnetwork : f.network = g.network) :
    buildEventWhereClause lib f = buildEventWhereClause lib g := by
  have hsame := sameFields_of_key hkey
  have hscope : f.scope = g.scope := hbeyond.scope (congrArg ListKey.scope hkey)
  have hposition {x y : String} (i : Nat) (h : tags.compact x = tags.compact y) :
      clause (decide (x ≠ "")) (fun r => lib.jsonbAt r.topics i x) =
        clause (decide (y ≠ "")) fun r => lib.jsonbAt r.topics i y :=
    needle_congr (p := fun x r => lib.jsonbAt r.topics i x) h
      (funext fun r => hreads.position r.topics i x y h)
  have hpositions (f : EventFilter) :
      ((topicPositions f).map fun (i, topic) => fun (r : Event) => lib.jsonbAt r.topics i topic) = _ :=
    topicClauses_eq fun i topic r => lib.jsonbAt r.topics i topic
  have htopic : clause (decide (f.topic ≠ "")) (fun r => lib.jsonbContains r.topics ("[" ++ f.topic ++ "]")) =
      clause (decide (g.topic ≠ "")) fun r => lib.jsonbContains r.topics ("[" ++ g.topic ++ "]") :=
    needle_congr (p := fun x r => lib.jsonbContains r.topics ("[" ++ x ++ "]"))
      (congrArg ListKey.topic hkey)
      (funext fun r => hreads.brackets r.topics _ _ (congrArg ListKey.topic hkey))
  have hcontains : clause (decide (f.topicContains ≠ "")) (fun r => lib.jsonbContains r.topics f.topicContains) =
      clause (decide (g.topicContains ≠ "")) fun r => lib.jsonbContains r.topics g.topicContains :=
    needle_congr (p := fun x r => lib.jsonbContains r.topics x) (congrArg ListKey.topicContains hkey)
      (funext fun r => hreads.contains r.topics _ _ (congrArg ListKey.topicContains hkey))
  rw [buildEventWhereClause, buildEventWhereClause, hpositions, hpositions,
    hposition 0 (congrArg ListKey.topic0 hkey), hposition 1 (congrArg ListKey.topic1 hkey),
    hposition 2 (congrArg ListKey.topic2 hkey), hposition 3 (congrArg ListKey.topic3 hkey), htopic, hcontains,
    contractClause_congr hsame.contractID hbeyond.contracts]
  simp only [ledgerClauses, hnetwork, hscope, hsame.contractIDPrefix, hsame.types, hsame.txHash,
    hbeyond.inSuccessfulCall, hsame.hasValue, hsame.txIndex, hsame.opIndex, hsame.fromLedger, hsame.toLedger,
    hsame.fromTime, hsame.toTime]

theorem sqliteWhereClause_congr (hkey : listKey tags f = listKey tags g)
    (hbeyond : AgreeBeyondTag tags .sqlite f g) (hnetwork : f.network = g.network) :
    sqliteWhereClause lib f = sqliteWhereClause lib g := by
  have hsame := sameFields_of_key hkey
  have hscope : f.scope = g.scope := hbeyond.scope (congrArg ListKey.scope hkey)
  obtain ⟨htopic, htopic0, htopic1, htopic2, htopic3, hcontains⟩ := hbeyond.needles rfl
  rw [sqliteWhereClause, sqliteWhereClause, contractClause_congr hsame.contractID hbeyond.contracts]
  simp only [ledgerClauses, topicPositions, hnetwork, hscope, hsame.contractIDPrefix, hsame.types,
    hsame.txHash, hbeyond.inSuccessfulCall, hsame.fromLedger, hsame.toLedger, hsame.fromTime, hsame.toTime,
    htopic, htopic0, htopic1, htopic2, htopic3, hcontains]

theorem descending_congr (h : resolvedOrder f.order = resolvedOrder g.order) : f.descending = g.descending := by
  have hdesc (o : String) : o = "desc" ↔ resolvedOrder o = "desc" := by
    unfold resolvedOrder
    by_cases ho : o = "" <;> simp [ho]
  unfold EventFilter.descending
  rw [decide_eq_decide, hdesc, hdesc g.order, h]

theorem pageLimit_congr (h : resolvedLimit f.limit = resolvedLimit g.limit) : pageLimit f = pageLimit g := by
  simp only [resolvedLimit] at h
  simp only [pageLimit, h]

theorem sameQuery_of_key (hreads : ReadsCompact tags lib) (hkey : listKey tags f = listKey tags g)
    (hbeyond : AgreeBeyondTag tags b f g) (hnetwork : f.network = g.network) (orderBy : String) :
    SameQuery lib b { f with orderBy := orderBy } { g with orderBy := orderBy } where
  deniesAll := by rw [hbeyond.scope (congrArg ListKey.scope hkey)]
  sparse := show hasSparseTopicFilter f = hasSparseTopicFilter g from hasSparseTopicFilter_congr hkey
  fromLedger := (sameFields_of_key hkey).fromLedger
  toLedger := (sameFields_of_key hkey).toLedger
  orderBy := rfl
  cursor := (sameFields_of_key hkey).cursor
  descending := descending_congr (congrArg ListKey.order hkey)
  limit := pageLimit_congr (congrArg ListKey.limit hkey)
  conditions := by
    cases b with
    | postgres =>
      exact buildEventWhereClause_congr (f := f) (g := g) hreads hkey hbeyond hnetwork
    | sqlite => exact sqliteWhereClause_congr (f := f) (g := g) hkey hbeyond hnetwork

end Validator

def TagLib.key : TagLib ListKey where
  compact := id
  compact_eq_empty _ := Iff.rfl
  digest := id
  digest_injective := injective_id
  shortDigest := id

theorem readsCompact_key (lib : QueryLib) : ReadsCompact TagLib.key lib where
  contains topics _ _ h := congrArg (lib.jsonbContains topics) h
  brackets topics _ _ h := congrArg (fun x => lib.jsonbContains topics ("[" ++ x ++ "]")) h
  position topics i _ _ h := congrArg (lib.jsonbAt topics i) h

def contractOf (c : Char) : String := String.ofList ('C' :: List.replicate 55 c)

end SoroTrail.Api
