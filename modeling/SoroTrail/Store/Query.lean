import SoroTrail.Lib.Jsonb
import SoroTrail.Store.Cursor

/-!
# Querying events

`QueryEvents` of both stores: the conditions built from a filter, the conditions a
cursor adds, the order, the page and the next cursor.  A statement is kept as what
it selects and how it sorts; the database may answer with any sorted arrangement
of the selected rows.
-/

set_option autoImplicit false

namespace SoroTrail.Store

open Lib Rpc Time

/-! ## Filters -/

structure Scope where
  wildcard : Bool
  contracts : List String
  deriving DecidableEq, Repr

def Scope.deniesAll (s : Scope) : Bool := !s.wildcard && s.contracts.isEmpty

def Scope.allows (s : Scope) (contractID : String) : Bool :=
  s.wildcard || decide (contractID ∈ s.contracts)

/-- An unset text is empty, as an unset JSON value is. -/
structure EventFilter where
  network : String
  contractID : String
  contractIDs : List String
  contractIDPrefix : String
  types : List String
  topic : String
  txHash : String
  inSuccessfulCall : Option Bool
  topic0 : String
  topic1 : String
  topic2 : String
  topic3 : String
  topicContains : String
  hasValue : Option Bool
  txIndex : Option Int
  opIndex : Option Int
  fromLedger : Int
  toLedger : Int
  fromTime : Time
  toTime : Time
  cursor : String
  limit : Int
  order : String
  orderBy : String
  scope : Scope
  deriving DecidableEq, Repr

def EventFilter.all (limit : Int) (orderBy : String) : EventFilter where
  network := ""
  contractID := ""
  contractIDs := []
  contractIDPrefix := ""
  types := []
  topic := ""
  txHash := ""
  inSuccessfulCall := none
  topic0 := ""
  topic1 := ""
  topic2 := ""
  topic3 := ""
  topicContains := ""
  hasValue := none
  txIndex := none
  opIndex := none
  fromLedger := 0
  toLedger := 0
  fromTime := zero
  toTime := zero
  cursor := ""
  limit := limit
  order := "asc"
  orderBy := orderBy
  scope := { wildcard := true, contracts := [] }

def defaultQueryLimit : Int := 50

def maxQueryLimit : Int := 500

def validOrderBy (s : String) : Bool :=
  decide (s = "" ∨ s = orderByID ∨ s = orderByLedger ∨ s = orderByCreatedAt)

def hasSparseTopicFilter (f : EventFilter) : Bool :=
  decide (f.topic ≠ "" ∨ f.topicContains ≠ "" ∨ f.topic0 ≠ "" ∨ f.topic1 ≠ "" ∨ f.topic2 ≠ "" ∨
    f.topic3 ≠ "")

structure SparseLimits where
  maxSpan : Int
  globalMaxSpan : Int
  deriving DecidableEq, Repr

def validateSparseFilterRange (f : EventFilter) (limits : SparseLimits) : Except Err Unit :=
  let effectiveMax := if limits.maxSpan ≤ 0 then limits.globalMaxSpan else limits.maxSpan
  if effectiveMax ≤ 0 ∨ hasSparseTopicFilter f = false then .ok ()
  else if f.fromLedger ≤ 0 ∨ f.toLedger ≤ 0 then
    .error (.other ("ledger range [" ++ toString f.fromLedger ++ "," ++ toString f.toLedger ++
      "] for sparse topic filter requires both from_ledger and to_ledger within " ++
      toString effectiveMax ++ " ledgers (or use /events.csv or /contracts/\x7bid\x7d/export): " ++
      "sparse topic filter ledger range is too wide"))
  else if f.toLedger - f.fromLedger > effectiveMax then
    .error (.other ("ledger range [" ++ toString f.fromLedger ++ "," ++ toString f.toLedger ++
      "] spans " ++ toString (f.toLedger - f.fromLedger) ++
      " ledgers, exceeding max sparse filter span (" ++ toString effectiveMax ++
      "); narrow from_ledger/to_ledger or use /events.csv or /contracts/\x7bid\x7d/export: " ++
      "sparse topic filter ledger range is too wide"))
  else .ok ()

/-! ## Conditions -/

/-- What the databases compute on JSON text and on times, and the cursor library. -/
structure QueryLib extends CursorLib where
  jsonbContains : String → String → Bool
  jsonbAt : String → Nat → String → Bool
  /-- `topicContainsExpr` of SQLite. -/
  sqliteContains : String → String → Bool
  /-- `json_extract(topics, '$[i]') = json(value)`. -/
  sqliteAt : String → Nat → String → Bool
  jsonElements : String → Option (List String)
  /-- The `timestamptz` a text in RFC 3339 stands for. -/
  timestamptz : Time → Time
  timestamptz_micro : ∀ t, t.nano % 1000 = 0 → timestamptz t = t

/-- The database reads JSON as `jsonb` does. -/
def QueryLib.withJsonb (lib : QueryLib) (jsonb : Jsonb) : QueryLib :=
  { lib with jsonbContains := jsonb.columnContains, jsonbAt := jsonb.columnAt }

/-- `LIKE`, with `%` and `_`, and with a backslash before a literal when `escape` is set. -/
def like (escape : Bool) (same : Char → Char → Bool) : List Char → List Char → Bool
  | [], s => s.isEmpty
  | '%' :: ps, s => s.tails.any fun t => like escape same ps t
  | '_' :: ps, s =>
    match s with
    | [] => false
    | _ :: s => like escape same ps s
  | p :: ps, s =>
    match s with
    | [] => false
    | c :: s' =>
      if escape && decide (p = '\\') then
        match ps with
        | [] => false
        | q :: ps => same q c && like escape same ps s'
      else same p c && like escape same ps s'

/-- `LIKE` of PostgreSQL. -/
def likePostgres (pattern s : String) : Bool :=
  like true (fun p c => decide (p = c)) pattern.toList s.toList

/-- `LIKE` of SQLite, which ignores the case of ASCII letters. -/
def likeSQLite (pattern s : String) : Bool :=
  like false (fun p c => decide (p.toLower = c.toLower)) pattern.toList s.toList

def clause (isSet : Bool) (p : Event → Bool) : List (Event → Bool) :=
  if isSet then [p] else []

theorem all_clause (isSet : Bool) (p : Event → Bool) (row : Event) :
    ((clause isSet p).all fun p => p row) = (!isSet || p row) := by
  cases isSet <;> simp [clause]

/-- The condition on the contract: `ContractID` joins `ContractIDs` when both are set. -/
def contractClause (f : EventFilter) : List (Event → Bool) :=
  if f.contractIDs ≠ [] then
    let ids :=
      if f.contractID ≠ "" ∧ f.contractID ∉ f.contractIDs then f.contractIDs ++ [f.contractID]
      else f.contractIDs
    [fun r => decide (r.contractID ∈ ids)]
  else clause (decide (f.contractID ≠ "")) fun r => decide (r.contractID = f.contractID)

theorem all_contractClause (f : EventFilter) (row : Event) :
    ((contractClause f).all fun p => p row) = true ↔
      (f.contractID = "" ∧ f.contractIDs = [] ∨ f.contractID ≠ "" ∧ row.contractID = f.contractID ∨
        row.contractID ∈ f.contractIDs) := by
  unfold contractClause
  by_cases hids : f.contractIDs = []
  · by_cases hid : f.contractID = "" <;> simp [clause, hids, hid]
  · by_cases hid : f.contractID ≠ "" ∧ f.contractID ∉ f.contractIDs
    · simp [hid, hids, or_comm]
    · have hmem : f.contractID ≠ "" → row.contractID = f.contractID → row.contractID ∈ f.contractIDs :=
        fun hne heq => heq ▸ not_not.mp fun hnot => hid ⟨hne, hnot⟩
      rw [if_neg hid]
      simpa [hids] using hmem

def topicPositions (f : EventFilter) : List (Nat × String) :=
  [(0, f.topic0), (1, f.topic1), (2, f.topic2), (3, f.topic3)].filter fun p => decide (p.2 ≠ "")

def ledgerClauses (f : EventFilter) : List (Event → Bool) :=
  clause (decide (f.fromLedger > 0)) (fun r => decide (r.ledger ≥ f.fromLedger)) ++
    clause (decide (f.toLedger > 0)) fun r => decide (r.ledger ≤ f.toLedger)

/-- A time as pgx sends it: cut to microseconds. -/
def truncMicro (t : Time) : Time :=
  { t with
    nano := t.nano / 1000 * 1000
    bounds := by
      have h := t.bounds
      have hle : t.nano / 1000 * 1000 ≤ t.nano := Nat.div_mul_le_self _ _
      refine ⟨h.1, h.2.1, h.2.2.1, h.2.2.2.1, h.2.2.2.2.1, h.2.2.2.2.2.1, ?_⟩
      omega }

theorem truncMicro_of_whole {s : Time} (hs : s.nano = 0) : truncMicro s = s := by
  cases s
  simp_all [truncMicro]

/-- The text SQLite stores for a time; empty for the zero time. -/
def formatTime (t : Time) : List Char :=
  if t = zero then [] else t.fixedNano

variable (lib : QueryLib)

/-- `buildEventWhereClause`. -/
def buildEventWhereClause (f : EventFilter) : List (Event → Bool) :=
  clause (decide (f.network ≠ "")) (fun r => decide (r.network = defaultNetwork f.network)) ++
    clause (!f.scope.wildcard) (fun r => decide (r.contractID ∈ f.scope.contracts)) ++
    contractClause f ++
    clause (decide (f.contractIDPrefix ≠ ""))
      (fun r => likePostgres (f.contractIDPrefix ++ "%") r.contractID) ++
    clause (decide (f.types ≠ [])) (fun r => decide (r.type ∈ f.types)) ++
    clause (decide (f.txHash ≠ "")) (fun r => decide (r.txHash = f.txHash)) ++
    clause f.inSuccessfulCall.isSome (fun r => decide (some r.inSuccessfulCall = f.inSuccessfulCall)) ++
    clause (decide (f.topic ≠ "")) (fun r => lib.jsonbContains r.topics ("[" ++ f.topic ++ "]")) ++
    clause (decide (f.topicContains ≠ "")) (fun r => lib.jsonbContains r.topics f.topicContains) ++
    ((topicPositions f).map fun (i, topic) => fun (r : Event) => lib.jsonbAt r.topics i topic) ++
    clause f.hasValue.isSome (fun r => decide (some (decide (r.value ≠ "")) = f.hasValue)) ++
    clause f.txIndex.isSome (fun r => decide (some r.txIndex = f.txIndex)) ++
    clause f.opIndex.isSome (fun r => decide (some r.opIndex = f.opIndex)) ++
    ledgerClauses f ++
    clause (decide (f.fromTime ≠ zero)) (fun r => decide (r.createdAt ≥ truncMicro f.fromTime)) ++
    clause (decide (f.toTime ≠ zero)) fun r => decide (r.createdAt ≤ truncMicro f.toTime)

/-- The conditions `SQLite.QueryEvents` builds; `HasValue`, `TxIndex` and `OpIndex` are not read,
and a scope without contracts adds nothing. -/
def sqliteWhereClause (f : EventFilter) : List (Event → Bool) :=
  clause (decide (f.scope.contracts ≠ [])) (fun r => decide (r.contractID ∈ f.scope.contracts)) ++
    clause (decide (f.network ≠ "")) (fun r => decide (r.network = defaultNetwork f.network)) ++
    contractClause f ++
    clause (decide (f.contractIDPrefix ≠ ""))
      (fun r => likeSQLite (f.contractIDPrefix ++ "%") r.contractID) ++
    clause (decide (f.types ≠ [])) (fun r => decide (r.type ∈ f.types)) ++
    clause (decide (f.txHash ≠ "")) (fun r => decide (r.txHash = f.txHash)) ++
    clause f.inSuccessfulCall.isSome (fun r => decide (some r.inSuccessfulCall = f.inSuccessfulCall)) ++
    clause (decide (f.topic ≠ "")) (fun r => lib.sqliteContains r.topics f.topic) ++
    (if f.topicContains ≠ "" then
      match lib.jsonElements f.topicContains with
      | some elems => elems.map fun elem => fun (r : Event) => lib.sqliteContains r.topics elem
      | none => [fun (_ : Event) => false]
    else []) ++
    ((topicPositions f).map fun (i, topic) => fun (r : Event) => lib.sqliteAt r.topics i topic) ++
    ledgerClauses f ++
    clause (decide (f.fromTime ≠ zero))
      (fun r => decide (formatTime r.createdAt ≥ formatTime f.fromTime)) ++
    clause (decide (f.toTime ≠ zero))
      fun r => decide (formatTime r.createdAt ≤ formatTime f.toTime)

def whereClause : Backend → EventFilter → List (Event → Bool)
  | .postgres => buildEventWhereClause lib
  | .sqlite => sqliteWhereClause lib

/-! ## Cursors and order -/

def EventFilter.descending (f : EventFilter) : Bool := decide (f.order = "desc")

inductive PageCursor where
  | start
  | byID (id : String)
  | byLedger (ledger : Int) (id : String)
  | byCreatedAt (t : Time) (id : String)
  deriving DecidableEq, Repr

/-- `x > c`, or `x < c` when descending. -/
def passes {κ : Type} [LinearOrder κ] (desc : Bool) (x c : κ) : Bool :=
  if desc then decide (x < c) else decide (c < x)

/-- `x >= c`, or `x <= c` when descending. -/
def reaches {κ : Type} [LinearOrder κ] (desc : Bool) (x c : κ) : Bool :=
  if desc then decide (x ≤ c) else decide (c ≤ x)

/-- The row comparison `(x, id) > (c, cursorID)`, or `<` when descending. -/
def passesPair {κ : Type} [LinearOrder κ] (desc : Bool) (x c : κ) (id cursorID : String) : Bool :=
  passes desc x c || (decide (x = c) && passes desc id cursorID)

/-- The ledger bound of an id cursor, left out when it would lie outside the filter's range. -/
def ledgerBound (f : EventFilter) (cursorID : String) : List (Event → Bool) :=
  match cursorLedger cursorID with
  | none => []
  | some l =>
    clause (decide ((f.fromLedger ≤ 0 ∨ l ≥ f.fromLedger) ∧ (f.toLedger ≤ 0 ∨ l ≤ f.toLedger)))
      fun r => reaches f.descending r.ledger l

def cursorClauses (b : Backend) (f : EventFilter) : PageCursor → List (Event → Bool)
  | .start => []
  | .byID id => ledgerBound f id ++ [fun (r : Event) => passes f.descending r.id id]
  | .byLedger l id =>
    [fun (r : Event) => reaches f.descending r.ledger l,
      fun (r : Event) => passesPair f.descending r.ledger l r.id id]
  | .byCreatedAt t id =>
    match b with
    | .postgres => [fun (r : Event) => passesPair f.descending r.createdAt (lib.timestamptz t) r.id id]
    | .sqlite =>
      [fun (r : Event) => reaches f.descending (formatTime r.createdAt) (formatTime t),
        fun (r : Event) => passesPair f.descending (formatTime r.createdAt) (formatTime t) r.id id]

/-- The id of a cursor as a parameter of the statement; bytes that are no UTF-8 are refused. -/
def idParameter (id : List UInt8) : Except Err String :=
  match textOf id with
  | some id => .ok id
  | none => .error (.other "invalid byte sequence")

def decodeCursor (b : Backend) (f : EventFilter) : Except Err PageCursor :=
  if f.cursor = "" then .ok .start
  else if f.orderBy = "" ∨ f.orderBy = orderByID then
    match decodeEventIDCursorForBackend lib.toCursorLib (cursorTag b) f.cursor with
    | .error err => .error err
    | .ok id => .ok (.byID id)
  else
    match decodeCompositeCursorForBackend lib.toCursorLib (cursorTag b) f.cursor with
    | .error err => .error err
    | .ok (sortValue, id) =>
      if f.orderBy = orderByLedger then
        match readInt64 sortValue with
        | some l => (idParameter id).map (.byLedger l)
        | none => .error (staleCursor "ledger cursor sort value is not an integer")
      else
        match readTime lib.toCursorLib sortValue with
        | some t => (idParameter id).map (.byCreatedAt t)
        | none => .error (staleCursor "created_at cursor sort value is not RFC3339Nano")

def sortsBefore (b : Backend) (f : EventFilter) (x y : Event) : Bool :=
  if f.orderBy = orderByLedger then pair x.ledger y.ledger
  else if f.orderBy = orderByCreatedAt then
    match b with
    | .postgres => pair x.createdAt y.createdAt
    | .sqlite => pair (formatTime x.createdAt) (formatTime y.createdAt)
  else reaches f.descending y.id x.id
where
  pair {κ : Type} [LinearOrder κ] (u v : κ) : Bool :=
    passes f.descending v u || (decide (u = v) && reaches f.descending y.id x.id)

/-! ## Statements -/

structure Query where
  selects : Event → Bool
  before : Event → Event → Bool
  limit : Nat

def Query.Answers (q : Query) (rows answer : List Event) : Prop :=
  ∃ all : List Event, all.Perm (rows.filter q.selects) ∧ all.Pairwise (fun x y => q.before x y = true) ∧
    answer = all.take q.limit

def pageLimit (f : EventFilter) : Int :=
  let limit := if f.limit ≤ 0 then defaultQueryLimit else f.limit
  if limit > maxQueryLimit then maxQueryLimit else limit

def buildQueryEvents (b : Backend) (limits : SparseLimits) (f : EventFilter) : Except Err (Query × Nat) :=
  match validateSparseFilterRange f limits with
  | .error err => .error err
  | .ok () =>
    if validOrderBy f.orderBy = false then .error (.other ("unsupported order_by \"" ++ f.orderBy ++ "\""))
    else
      match decodeCursor lib b f with
      | .error err => .error err
      | .ok cursor =>
        -- one extra row tells whether a next page exists
        .ok ({ selects := fun r => (whereClause lib b f ++ cursorClauses lib b f cursor).all fun p => p r
               before := sortsBefore b f
               limit := (pageLimit f).toNat + 1 },
          (pageLimit f).toNat)

def pageQuery (b : Backend) (f : EventFilter) (cursor : PageCursor) : Query where
  selects r := (whereClause lib b f ++ cursorClauses lib b f cursor).all fun p => p r
  before := sortsBefore b f
  limit := (pageLimit f).toNat + 1

theorem buildQueryEvents_eq_ok {b : Backend} {limits : SparseLimits} {f : EventFilter} {q : Query}
    {limit : Nat} :
    buildQueryEvents lib b limits f = .ok (q, limit) ↔
      validateSparseFilterRange f limits = .ok () ∧ validOrderBy f.orderBy = true ∧
        ∃ cursor, decodeCursor lib b f = .ok cursor ∧ pageQuery lib b f cursor = q ∧
          (pageLimit f).toNat = limit := by
  unfold buildQueryEvents
  cases validateSparseFilterRange f limits with
  | error err => simp
  | ok _ =>
    cases validOrderBy f.orderBy with
    | false => simp
    | true =>
      cases decodeCursor lib b f with
      | error err => simp
      | ok cursor => simp [pageQuery]

/-- One page and the cursor of the next one, from a database that answers with `db`. -/
def queryEvents (b : Backend) (limits : SparseLimits) (db : Query → List Event) (f : EventFilter) :
    Except Err (List Event × String) :=
  if b = .postgres ∧ f.scope.deniesAll = true then .ok ([], "")
  else
    match buildQueryEvents lib b limits f with
    | .error err => .error err
    | .ok (query, limit) =>
      let events := db query
      if limit < events.length then
        match (events.take limit).getLast? with
        | some last =>
          .ok (events.take limit, encodeCursorForBackend lib.toCursorLib (cursorTag b) f.orderBy last)
        | none => .ok ([], "")
      else .ok (events, "")

/-- Pass the returned cursor on until it is empty; `dbs i` answers the `i`th page. -/
def walk (b : Backend) (limits : SparseLimits) (dbs : Nat → Query → List Event) (f : EventFilter) :
    Nat → Nat → String → Except Err (List Event)
  | 0, _, _ => .error .stillRunning
  | fuel + 1, i, cursor =>
    match queryEvents lib b limits (dbs i) { f with cursor := cursor } with
    | .error err => .error err
    | .ok (page, next) =>
      if next = "" then .ok page
      else
        match walk b limits dbs f fuel (i + 1) next with
        | .error err => .error err
        | .ok rest => .ok (page ++ rest)

/-! ## What a filter means -/

/-- The row meets every condition that is set, whatever the store. -/
def EventFilter.accepts (f : EventFilter) (r : Event) : Bool :=
  f.scope.allows r.contractID &&
    decide (f.network = "" ∨ r.network = defaultNetwork f.network) &&
    decide (f.contractIDs = [] ∧ f.contractID = "" ∨ r.contractID ∈ f.contractIDs ∨
      f.contractID ≠ "" ∧ r.contractID = f.contractID) &&
    Text.startsWith r.contractID f.contractIDPrefix &&
    decide (f.types = [] ∨ r.type ∈ f.types) &&
    decide (f.txHash = "" ∨ r.txHash = f.txHash) &&
    decide (f.inSuccessfulCall = none ∨ some r.inSuccessfulCall = f.inSuccessfulCall) &&
    (decide (f.topic = "") || lib.jsonbContains r.topics ("[" ++ f.topic ++ "]")) &&
    (decide (f.topicContains = "") || lib.jsonbContains r.topics f.topicContains) &&
    ((topicPositions f).all fun (i, topic) => lib.jsonbAt r.topics i topic) &&
    decide (f.hasValue = none ∨ some (decide (r.value ≠ "")) = f.hasValue) &&
    decide (f.txIndex = none ∨ some r.txIndex = f.txIndex) &&
    decide (f.opIndex = none ∨ some r.opIndex = f.opIndex) &&
    decide (f.fromLedger ≤ 0 ∨ f.fromLedger ≤ r.ledger) &&
    decide (f.toLedger ≤ 0 ∨ r.ledger ≤ f.toLedger) &&
    decide (f.fromTime = zero ∨ f.fromTime ≤ r.createdAt) &&
    decide (f.toTime = zero ∨ r.createdAt ≤ f.toTime)

end SoroTrail.Store
