import SoroTrail.Store.Query

/-!
# Filters of a request

`filterFromQuery`: the query parameters of a list request, parsed and checked one
by one, become an `EventFilter` with the caller's scope.  What is accepted is well
formed: its topics are JSON, its times have whole seconds, its order is known.
-/

set_option autoImplicit false

namespace SoroTrail.Api

open Lib Store List Option Decimal Json
open Rpc (Err)

/-! ## Checks -/

section Checks

variable {ε ε' α β : Type}

def ensure (ok : Bool) (err : ε) : Except ε Unit :=
  if ok then .ok () else .error err

theorem bind_eq_ok {x : Except ε α} {f : α → Except ε β} {b : β} :
    (x >>= f) = .ok b ↔ ∃ a, x = .ok a ∧ f a = .ok b := by
  cases x with
  | error err => simp [bind, Except.bind]
  | ok a => simp [bind, Except.bind]

theorem ensure_eq_ok {ok : Bool} {err : ε} {u : Unit} : ensure ok err = .ok u ↔ ok = true := by
  cases ok <;> simp [ensure]

theorem mapError_eq_ok {f : ε → ε'} {x : Except ε α} {a : α} :
    x.mapError f = .ok a ↔ x = .ok a := by
  cases x with
  | error err => simp [Except.mapError]
  | ok a => simp [Except.mapError]

end Checks

/-! ## Parameters -/

/-- `url.Values.Get`: the first value of a parameter, empty when it is absent. -/
abbrev Values := String → String

def Values.of (params : List (String × String)) : Values := fun name => (params.lookup name).getD ""

/-- A text as `%q` prints it when nothing in it is escaped. -/
def quoted (s : String) : String := "\"" ++ s ++ "\""

def isUnicodeSpace (c : Char) : Bool :=
  Text.isSpace c ||
    decide (c.toNat ∈ [0x85, 0xA0, 0x1680, 0x2028, 0x2029, 0x202F, 0x205F, 0x3000] ∨
      0x2000 ≤ c.toNat ∧ c.toNat ≤ 0x200A)

def trimSpace (s : String) : String :=
  String.ofList ((s.toList.dropWhile isUnicodeSpace).reverse.dropWhile isUnicodeSpace).reverse

/-- The parts of a comma-separated list, trimmed, without the empty ones. -/
def listParts (raw : String) : List String :=
  ((Text.split ',' raw.toList).map fun part => trimSpace (String.ofList part)).filter fun part =>
    decide (part ≠ "")

def parseLedgerParam (raw : String) : Except String Int :=
  if raw = "" then .ok 0
  else
    match parseInt64 raw.toList with
    | some n => if n ≤ 0 then .error "must be a positive integer" else .ok n
    | none => .error "must be a positive integer"

variable (lib : CursorLib)

def parseTimeParam (raw : String) : Except String Time :=
  if raw = "" then .ok Time.zero
  else
    match parseRFC3339Nano lib raw.toList with
    | some t => if t.nano ≠ 0 then .error "sub-second precision is not supported" else .ok t
    | none => .error "must be an RFC 3339 timestamp (e.g. 2026-07-21T00:00:00Z)"

def validType (t : String) : Bool := decide (t ∈ ["contract", "system", "diagnostic"])

def parseTypes (raw : String) : Except String (List String) :=
  match (listParts raw).find? fun t => !validType t with
  | some t => .error ("invalid type " ++ quoted t ++ " (want contract|system|diagnostic)")
  | none => .ok (listParts raw)

def looksLikeJSON : List Char → Bool
  | [] => false
  | c :: cs =>
    if c ∈ ['\x7b', '[', '"', '-'] ∨ Decimal.IsDigit c then true
    else decide (c :: cs = "true".toList ∨ c :: cs = "false".toList ∨ c :: cs = "null".toList)

def hexDigits (n : Nat) : List Char :=
  [n / 4096 % 16, n / 256 % 16, n / 16 % 16, n % 16].map Nat.digitChar

def quoteChar (c : Char) : List Char :=
  if c = '"' then ['\\', '"']
  else if c = '\\' then ['\\', '\\']
  else if c = '\x08' then ['\\', 'b']
  else if c = '\x0c' then ['\\', 'f']
  else if c = '\n' then ['\\', 'n']
  else if c = '\r' then ['\\', 'r']
  else if c = '\t' then ['\\', 't']
  else if c < ' ' ∨ c ∈ ['<', '>', '&', '\u2028', '\u2029'] then '\\' :: 'u' :: hexDigits c.toNat
  else [c]

/-- `json.Marshal` of a string. -/
def quoteJSON (s : String) : String :=
  String.ofList ('"' :: (s.toList.flatMap quoteChar ++ ['"']))

/-- `json.Valid`. -/
def validJSON (text : String) : Bool := (parse text).isSome

theorem hex4_hexDigits (n : Nat) : ∃ m, (match hexDigits n with
    | [a, b, c, d] => hex4 a b c d
    | _ => none) = some m := by
  have hdigit : ∀ d < 16, (hexDigit (Nat.digitChar d)).isSome := by decide
  obtain ⟨a, ha⟩ := isSome_iff_exists.mp (hdigit (n / 4096 % 16) (by omega))
  obtain ⟨b, hb⟩ := isSome_iff_exists.mp (hdigit (n / 256 % 16) (by omega))
  obtain ⟨c, hc⟩ := isSome_iff_exists.mp (hdigit (n / 16 % 16) (by omega))
  obtain ⟨d, hd⟩ := isSome_iff_exists.mp (hdigit (n % 16) (by omega))
  exact ⟨_, by simp [hexDigits, hex4, ha, hb, hc, hd]; rfl⟩

theorem readUnits_quoteChar (c : Char) {cs rest : List Char} {units : List (Nat ⊕ Char)}
    (hread : readUnits cs = some (units, rest)) :
    ∃ units', readUnits (quoteChar c ++ cs) = some (units', rest) := by
  have hescape (e d : Char) (he : escape e = some d) :
      ∃ units', readUnits ('\\' :: e :: cs) = some (units', rest) :=
    ⟨.inr d :: units, by rw [readUnits_escape he, hread]⟩
  unfold quoteChar
  split_ifs with hquote hslash hb hf hn hr ht hhex
  · exact hescape '"' _ rfl
  · exact hescape '\\' _ rfl
  · exact hescape 'b' _ rfl
  · exact hescape 'f' _ rfl
  · exact hescape 'n' _ rfl
  · exact hescape 'r' _ rfl
  · exact hescape 't' _ rfl
  · obtain ⟨m, hm⟩ := hex4_hexDigits c.toNat
    simp only [hexDigits, map_cons, map_nil] at hm
    exact ⟨.inl m :: units, by simp [hexDigits, readUnits, hm, hread]⟩
  · refine ⟨.inr c :: units, ?_⟩
    rw [singleton_append, readUnits_plain hquote hslash fun hlow => hhex (.inl hlow), hread]

theorem readUnits_quoted (s cs : List Char) :
    ∃ units, readUnits (s.flatMap quoteChar ++ '"' :: cs) = some (units, cs) := by
  induction s with
  | nil => exact ⟨[], rfl⟩
  | cons c s ih =>
    obtain ⟨units, hread⟩ := ih
    rw [flatMap_cons, append_assoc]
    exact readUnits_quoteChar c hread

theorem validJSON_quoteJSON (s : String) : validJSON (quoteJSON s) = true := by
  obtain ⟨units, hread⟩ := readUnits_quoted s.toList []
  have hskip : skipSpace ('"' :: (s.toList.flatMap quoteChar ++ ['"'])) =
      '"' :: (s.toList.flatMap quoteChar ++ ['"']) := rfl
  rw [validJSON, parse, quoteJSON, String.toList_ofList, readValue_str _ hskip,
    readString, hread]
  rfl

/-- An unset topic is empty; a bare word becomes a string. -/
def parseTopic (raw : String) : Except String String :=
  let trimmed := trimSpace raw
  if trimmed = "" then .ok ""
  else if validJSON trimmed then .ok trimmed
  else if looksLikeJSON trimmed.toList then .error "topic must be valid JSON"
  else .ok (quoteJSON trimmed)

def parseTopicContains (raw : String) : Except String String :=
  if raw = "" then .ok ""
  else if validJSON raw then .ok raw
  else .error "topic_contains must be valid JSON"

/-- `config.ValidContractID`: the shape only. -/
def validContractID (s : String) : Bool :=
  decide (s.toList.length = 56 ∧ s.toList.head? = some 'C') &&
    s.toList.tail.all fun c => decide (c ∈ "ABCDEFGHIJKLMNOPQRSTUVWXYZ234567".toList)

def validCursor (s : String) : Bool :=
  decide (s ≠ "" ∧ s.toList.length ≤ 128) &&
    s.toList.all fun c =>
      decide ('a' ≤ c ∧ c ≤ 'z' ∨ 'A' ≤ c ∧ c ≤ 'Z' ∨ '0' ≤ c ∧ c ≤ '9' ∨ c ∈ ['-', '_', '.', ':'])

def parseContractIDs (raw : String) : Except String (List String) :=
  match (listParts raw).find? fun id => !validContractID id with
  | some id => .error ("invalid contract_id " ++ quoted id)
  | none => .ok (listParts raw)

def int32 (x : Int) : Int := (x + 2 ^ 31) % 2 ^ 32 - 2 ^ 31

/-- An index that is not negative as read; it is then cut to an `int32`. -/
def parseIndex (name raw : String) : Except String (Option Int) :=
  if raw = "" then .ok none
  else
    let err := "invalid " ++ name ++ " " ++ quoted raw ++ " (want a non-negative integer)"
    match parseInt64 raw.toList with
    | some n => if n < 0 then .error err else .ok (some (int32 n))
    | none => .error err

def parseFlag (raw err : String) : Except String (Option Bool) :=
  if raw = "" then .ok none
  else if raw = "true" then .ok (some true)
  else if raw = "false" then .ok (some false)
  else .error err

def parseSize (maxLimit : Int) (raw err : String) : Except String Int :=
  match parseInt64 raw.toList with
  | some n => if n < 1 ∨ n > maxLimit then .error err else .ok n
  | none => .error err

/-! ## The filter -/

/-- `queries.BuildEventFilter`, on the filter its arguments have been copied to. -/
def buildEventFilter (f : EventFilter) : Except String EventFilter := do
  ensure (decide (f.contractID = "") || validContractID f.contractID)
    ("invalid contract_id " ++ quoted f.contractID)
  ensure (f.contractIDs.all validContractID)
    ("invalid contract_id " ++ quoted ((f.contractIDs.find? fun id => !validContractID id).getD ""))
  ensure (decide (f.contractIDPrefix = "" ∨ f.contractID = ""))
    "contract_id and contract_id_prefix cannot be combined"
  ensure (decide (f.contractIDPrefix = "" ∨ f.contractIDs = []))
    "contract_id and contract_id_prefix cannot be combined"
  ensure (decide (f.cursor = "") || validCursor f.cursor) ("invalid cursor " ++ quoted f.cursor)
  ensure (decide (0 ≤ f.txIndex.getD 0))
    ("invalid tx_index " ++ toString (f.txIndex.getD 0) ++ " (want a non-negative integer)")
  ensure (decide (0 ≤ f.opIndex.getD 0))
    ("invalid op_index " ++ toString (f.opIndex.getD 0) ++ " (want a non-negative integer)")
  ensure (f.types.all validType)
    ("invalid type " ++ quoted ((f.types.find? fun t => !validType t).getD "") ++
      " (want contract|system|diagnostic)")
  ensure (decide (f.order ∈ ["", "asc", "desc"]))
    ("invalid order " ++ quoted f.order ++ " (want asc or desc)")
  ensure (validOrderBy f.orderBy)
    ("invalid order_by " ++ quoted f.orderBy ++ " (want " ++ orderByID ++ ", " ++ orderByLedger ++
      " or " ++ orderByCreatedAt ++ ")")
  ensure (decide (f.topic = "" ∨ topicPositions f = []))
    "topic and topic0..topic3 filters cannot be combined"
  ensure (decide (f.fromLedger ≤ 0 ∨ f.toLedger ≤ 0 ∨ f.fromLedger ≤ f.toLedger))
    ("from_ledger " ++ toString f.fromLedger ++ " is after to_ledger " ++ toString f.toLedger)
  ensure (decide (f.fromTime = Time.zero ∨ f.toTime = Time.zero ∨ f.fromTime ≤ f.toTime))
    ("from_time " ++ String.ofList f.fromTime.rfc3339Nano ++ " is after to_time " ++
      String.ofList f.toTime.rfc3339Nano)
  ensure (decide (f.limit = 0 ∨ 1 ≤ f.limit ∧ f.limit ≤ maxQueryLimit))
    ("limit must be an integer in [1," ++ toString maxQueryLimit ++ "]")
  return { f with limit := if f.limit = 0 then defaultQueryLimit else f.limit }

inductive FilterError where
  | invalid (message : String)
  | forbiddenContract (contractID : String)
  | store (err : Err)
  deriving DecidableEq, Repr

structure FilterEnv where
  cursors : CursorLib
  maxLimit : Int
  maxSparseFilterLedgerSpan : Int

def FilterEnv.default (cursors : CursorLib) : FilterEnv where
  cursors := cursors
  maxLimit := 500
  maxSparseFilterLedgerSpan := 0

def recentDefaultLimit : Int := 20

def labelled {α : Type} (label : String) (x : Except String α) : Except FilterError α :=
  x.mapError fun message => .invalid (label ++ message)

def limitParam (env : FilterEnv) (q : Values) (absent : Int) : Except FilterError Int :=
  if q "limit" = "" then .ok absent
  else
    labelled "" (parseSize env.maxLimit (q "limit")
      ("limit must be an integer in [1," ++ toString env.maxLimit ++ "]"))

def argsFromQuery (env : FilterEnv) (q : Values) : Except FilterError EventFilter := do
  let fromLedger ← labelled "from_ledger " (parseLedgerParam (q "from_ledger"))
  let toLedger ← labelled "to_ledger " (parseLedgerParam (q "to_ledger"))
  let fromTime ← labelled "from_time " (parseTimeParam env.cursors (q "from_time"))
  let toTime ← labelled "to_time " (parseTimeParam env.cursors (q "to_time"))
  let types ← labelled "" (parseTypes (q "type"))
  let topic ← labelled "topic: " (parseTopic (q "topic"))
  let topic0 ← labelled "topic0: " (parseTopic (q "topic0"))
  let topic1 ← labelled "topic1: " (parseTopic (q "topic1"))
  let topic2 ← labelled "topic2: " (parseTopic (q "topic2"))
  let topic3 ← labelled "topic3: " (parseTopic (q "topic3"))
  let topicContains ← labelled "" (parseTopicContains (q "topic_contains"))
  let contractIDs ← labelled "" (parseContractIDs (q "contract_id"))
  let txIndex ← labelled "" (parseIndex "tx_index" (q "tx_index"))
  let opIndex ← labelled "" (parseIndex "op_index" (q "op_index"))
  let inSuccessfulCall ← labelled "" (parseFlag (q "in_successful_call")
    ("invalid in_successful_call " ++ quoted (q "in_successful_call") ++ " (want true or false)"))
  let hasValue ← labelled "" (parseFlag (q "has_value")
    ("has_value must be true or false, got " ++ quoted (q "has_value")))
  let limit ← limitParam env q 0
  return {
    network := ""
    -- a lone id is carried by `ContractID`, a list by `ContractIDs`
    contractID := if contractIDs.length = 1 then contractIDs.headD "" else ""
    contractIDs := if contractIDs.length = 1 then [] else contractIDs
    contractIDPrefix := q "contract_id_prefix"
    types, topic, topic0, topic1, topic2, topic3, topicContains
    txHash := q "tx_hash"
    inSuccessfulCall, hasValue, txIndex, opIndex, fromLedger, toLedger, fromTime, toTime
    cursor := q "cursor"
    limit
    order := q "order"
    orderBy := q "order_by"
    scope := { wildcard := false, contracts := [] } }

def recentParam (env : FilterEnv) (q : Values) : Except FilterError Int :=
  if q "recent" = "true" then .ok recentDefaultLimit
  else
    labelled "" (parseSize env.maxLimit (q "recent")
      ("recent must be a positive integer in [1," ++ toString env.maxLimit ++ "]"))

def applyRecent (env : FilterEnv) (q : Values) (f : EventFilter) : Except FilterError EventFilter :=
  if q "recent" = "" then .ok f
  else do
    ensure (decide (q "order" = "" ∧ q "order_by" = ""))
      (.invalid "recent cannot be combined with order or order_by")
    ensure (decide (q "limit" = "")) (.invalid "recent cannot be combined with limit")
    let n ← recentParam env q
    return { f with order := "desc", limit := n }

def checkSparse (env : FilterEnv) (f : EventFilter) : Except FilterError Unit :=
  if env.maxSparseFilterLedgerSpan > 0 then
    (validateSparseFilterRange f ⟨env.maxSparseFilterLedgerSpan, 0⟩).mapError .store
  else .ok ()

/-- `filterFromQuery` for a caller with the given scope. -/
def filterFromQuery (env : FilterEnv) (scope : Scope) (q : Values) : Except FilterError EventFilter := do
  let args ← argsFromQuery env q
  let built ← labelled "" (buildEventFilter args)
  let f := { built with scope := scope }
  ensure (decide (f.contractID = "") || f.scope.allows f.contractID) (.forbiddenContract f.contractID)
  ensure (decide (f.cursor = "") || validCursor f.cursor) (.invalid ("invalid cursor " ++ quoted f.cursor))
  let limit ← limitParam env q defaultQueryLimit
  let f ← applyRecent env q { f with limit := limit }
  checkSparse env f
  return f

/-! ## What is accepted -/

def UnsetOrJSON (text : String) : Prop := text = "" ∨ validJSON text = true

theorem parseTopic_ok {raw topic : String} (h : parseTopic raw = .ok topic) : UnsetOrJSON topic := by
  simp only [parseTopic] at h
  split_ifs at h with hempty hvalid hlooks
  · exact .inl (Except.ok.inj h).symm
  · exact .inr (Except.ok.inj h ▸ hvalid)
  · exact .inr (Except.ok.inj h ▸ validJSON_quoteJSON _)

theorem parseTopicContains_ok {raw text : String} (h : parseTopicContains raw = .ok text) :
    UnsetOrJSON text := by
  unfold parseTopicContains at h
  split_ifs at h with hempty hvalid
  · exact .inl (Except.ok.inj h).symm
  · exact .inr (Except.ok.inj h ▸ hvalid)

theorem parseTimeParam_ok {raw : String} {t : Time} (h : parseTimeParam lib raw = .ok t) :
    t.nano = 0 := by
  unfold parseTimeParam at h
  split_ifs at h with hempty
  · rw [← Except.ok.inj h]
    rfl
  · cases hparse : parseRFC3339Nano lib raw.toList with
    | none => simp [hparse] at h
    | some t' =>
      simp only [hparse] at h
      split_ifs at h with hnano
      rw [← Except.ok.inj h]
      exact not_not.mp hnano

structure Parsed (f : EventFilter) : Prop where
  network : f.network = ""
  topic : UnsetOrJSON f.topic
  topic0 : UnsetOrJSON f.topic0
  topic1 : UnsetOrJSON f.topic1
  topic2 : UnsetOrJSON f.topic2
  topic3 : UnsetOrJSON f.topic3
  topicContains : UnsetOrJSON f.topicContains
  fromTime : f.fromTime.nano = 0
  toTime : f.toTime.nano = 0

/-- What `filterFromQuery` promises. -/
structure Accepted (f : EventFilter) : Prop extends Parsed f where
  order : f.order ∈ ["", "asc", "desc"]
  orderBy : validOrderBy f.orderBy = true

variable {env : FilterEnv} {f : EventFilter} {q : Values}

theorem argsFromQuery_ok (h : argsFromQuery env q = .ok f) : Parsed f := by
  simp only [argsFromQuery, bind_eq_ok, labelled, mapError_eq_ok] at h
  obtain ⟨_, -, _, -, fromTime, hfrom, toTime, hto, _, -, topic, htopic, topic0, htopic0, topic1, htopic1,
    topic2, htopic2, topic3, htopic3, topicContains, hcontains, _, -, _, -, _, -, _, -, _, -, _, -, h⟩ := h
  cases h
  exact {
    network := rfl
    topic := parseTopic_ok htopic
    topic0 := parseTopic_ok htopic0
    topic1 := parseTopic_ok htopic1
    topic2 := parseTopic_ok htopic2
    topic3 := parseTopic_ok htopic3
    topicContains := parseTopicContains_ok hcontains
    fromTime := parseTimeParam_ok _ hfrom
    toTime := parseTimeParam_ok _ hto }

theorem buildEventFilter_ok {args : EventFilter} (h : buildEventFilter args = .ok f) :
    (∃ limit, f = { args with limit := limit }) ∧ f.order ∈ ["", "asc", "desc"] ∧
      validOrderBy f.orderBy = true := by
  simp only [buildEventFilter, bind_eq_ok, ensure_eq_ok] at h
  obtain ⟨-, -, -, -, -, -, -, -, -, -, -, -, -, -, -, -, -, horder, -, horderBy, -, -, -, -, -, -, -, -, h⟩ := h
  cases h
  exact ⟨⟨_, rfl⟩, of_decide_eq_true horder, horderBy⟩

theorem applyRecent_ok {f' : EventFilter} (h : applyRecent env q f = .ok f') :
    ∃ order limit, f' = { f with order := order, limit := limit } ∧ (order = f.order ∨ order = "desc") := by
  unfold applyRecent at h
  split_ifs at h with habsent
  · exact ⟨f.order, f.limit, (Except.ok.inj h).symm, .inl rfl⟩
  · simp only [bind_eq_ok, ensure_eq_ok] at h
    obtain ⟨-, -, -, -, n, -, h⟩ := h
    exact ⟨"desc", n, (Except.ok.inj h).symm, .inr rfl⟩

theorem filterFromQuery_ok {scope : Scope} (h : filterFromQuery env scope q = .ok f) :
    Accepted f ∧ f.scope = scope := by
  simp only [filterFromQuery, bind_eq_ok, labelled, mapError_eq_ok] at h
  obtain ⟨args, hargs, built, hbuilt, -, -, -, -, limit, -, f', hrecent, -, -, h⟩ := h
  cases h
  have hparsed := argsFromQuery_ok hargs
  obtain ⟨⟨limit', rfl⟩, horder, horderBy⟩ := buildEventFilter_ok hbuilt
  obtain ⟨order, limit'', rfl, horder'⟩ := applyRecent_ok hrecent
  refine ⟨{ hparsed with order := ?_, orderBy := horderBy }, rfl⟩
  rcases horder' with rfl | rfl
  · exact horder
  · simp

def unfiltered : EventFilter := { EventFilter.all defaultQueryLimit "" with order := "" }

end SoroTrail.Api
