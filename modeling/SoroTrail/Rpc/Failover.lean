import SoroTrail.Lib.Prog
import SoroTrail.Rpc.Types

/-!
# The memory of a failover client

A failover client keeps a health record for each provider and, for all of them
together, how far the event stream has come and which events it has seen.  Every
access to this memory is atomic and is one request here, so that the calls of
several goroutines can be interleaved between any two of them; the comparison with
the events seen before holds a mutex and is one access as well.
-/

set_option autoImplicit false

namespace SoroTrail.Rpc.Failover

open Lib Prog Fallible Text

inductive ProviderState where
  | active
  | degraded
  | down
  deriving DecidableEq, Repr

inductive ClientKind where
  /-- An `*HTTPClient`, which is also a `NetworkInspector`. -/
  | http
  | inspector
  | plain
  deriving DecidableEq, Repr

structure ProviderConfig where
  url : String
  kind : ClientKind
  deriving DecidableEq, Repr

/-- What `NewFailoverClient` fixes. -/
structure FailoverClient where
  providers : List ProviderConfig
  maxConsecutiveErrors : Int
  probationSuccesses : Int
  headSkewTolerance : Nat
  expectedPassphrase : String
  sha256Hex : String → String
  /-- `json.Marshal` of raw messages; empty when it fails. -/
  marshalJSON : List String → String

def FailoverClient.url (fc : FailoverClient) (idx : Nat) : String :=
  match fc.providers[idx]? with
  | some p => p.url
  | none => ""

def FailoverClient.kind (fc : FailoverClient) (idx : Nat) : ClientKind :=
  match fc.providers[idx]? with
  | some p => p.kind
  | none => .plain

def FailoverClient.indices (fc : FailoverClient) : List Nat :=
  List.range fc.providers.length

structure Provider where
  state : ProviderState
  errCount : Int
  okCount : Int
  latestLedger : Nat
  oldestLedger : Nat
  networkVerified : Bool
  networkInvalid : Bool
  xdrJSONUnsupported : Bool
  deriving DecidableEq, Repr

structure ObservedEvent where
  providerIdx : Nat
  id : String
  ledger : Nat
  contractID : String
  eventType : String
  txHash : String
  topicDigest : String
  value : String
  topicJSON : String
  valueJSON : String
  deriving DecidableEq, Repr

structure ObservedLedgerPrefix where
  providerIdx : Nat
  eventIDs : List String
  deriving DecidableEq, Repr

structure ProviderDivergence where
  providerURL : String
  ledger : Nat
  eventID : String
  description : String
  deriving DecidableEq, Repr

structure ClientState where
  providers : Nat → Provider
  /-- The provider of the last successful call; `none` before the first. -/
  lastActive : Option Nat
  cursorLedger : Nat
  maxObservedHead : Nat
  reanchorLedger : Nat
  allDownCount : Nat
  allDownUntil : Int
  observedByID : String → Option ObservedEvent
  observedByLgr : Nat → Option ObservedLedgerPrefix
  divergences : List ProviderDivergence

def ClientState.new : ClientState where
  providers _ :=
    { state := .active, errCount := 0, okCount := 0, latestLedger := 0, oldestLedger := 0
      networkVerified := false, networkInvalid := false, xdrJSONUnsupported := false }
  lastActive := none
  cursorLedger := 0
  maxObservedHead := 0
  reanchorLedger := 0
  allDownCount := 0
  allDownUntil := 0
  observedByID _ := none
  observedByLgr _ := none
  divergences := []

/-! ## Events seen before -/

/-- A text in double quotes, as `%q` prints it. -/
def quote (s : String) : String :=
  let escaped := s.toList.flatMap fun c => if c = '"' ∨ c = '\\' then ['\\', c] else [c]
  "\"" ++ String.ofList escaped ++ "\""

def buildObservedEvent (fc : FailoverClient) (providerIdx : Nat) (ev : Event) : ObservedEvent where
  providerIdx := providerIdx
  id := ev.id
  ledger := ev.ledger
  contractID := ev.contractID
  eventType := ev.type
  txHash := ev.txHash
  topicDigest :=
    if ev.topic = [] then ""
    else fc.sha256Hex (String.join (ev.topic.map fun t => t ++ "|"))
  value := ev.value
  topicJSON :=
    match ev.topicJSON with
    | some (t :: ts) => fc.marshalJSON (t :: ts)
    | _ => ""
  valueJSON := ev.valueJSON.getD ""

def conflict (x y : String) : Bool :=
  decide (x ≠ "" ∧ y ≠ "" ∧ x ≠ y)

/-- Why two observations of one event differ; empty when they agree. -/
def compareObservedEvents (prev cur : ObservedEvent) : String :=
  if prev.ledger ≠ cur.ledger then
    "event " ++ cur.id ++ " ledger mismatch: got " ++ toString cur.ledger ++ ", want " ++
      toString prev.ledger
  else if prev.contractID ≠ cur.contractID then
    "event " ++ cur.id ++ " contractId mismatch: got " ++ quote cur.contractID ++ ", want " ++
      quote prev.contractID
  else if prev.eventType ≠ cur.eventType then
    "event " ++ cur.id ++ " type mismatch: got " ++ quote cur.eventType ++ ", want " ++
      quote prev.eventType
  else if prev.txHash ≠ cur.txHash then
    "event " ++ cur.id ++ " txHash mismatch: got " ++ quote cur.txHash ++ ", want " ++
      quote prev.txHash
  else if conflict prev.value cur.value then
    "event " ++ cur.id ++ " value XDR mismatch: got " ++ quote cur.value ++ ", want " ++
      quote prev.value
  else if conflict prev.topicDigest cur.topicDigest then
    "event " ++ cur.id ++ " topic XDR mismatch"
  else if conflict prev.valueJSON cur.valueJSON then
    "event " ++ cur.id ++ " valueJson mismatch: got " ++ cur.valueJSON ++ ", want " ++
      prev.valueJSON
  else if conflict prev.topicJSON cur.topicJSON then
    "event " ++ cur.id ++ " topicJson mismatch: got " ++ cur.topicJSON ++ ", want " ++
      prev.topicJSON
  else ""

/-- The first event of a page that another provider served with other contents. -/
def eventDivergence (fc : FailoverClient) (observed : String → Option ObservedEvent)
    (providerIdx : Nat) : List Event → Option ProviderDivergence
  | [] => none
  | ev :: evs =>
    match observed ev.id with
    | none => eventDivergence fc observed providerIdx evs
    | some prev =>
      let reason := compareObservedEvents prev (buildObservedEvent fc providerIdx ev)
      if prev.providerIdx ≠ providerIdx ∧ reason ≠ "" then
        some { providerURL := fc.url providerIdx, ledger := ev.ledger, eventID := ev.id
               description := reason }
      else eventDivergence fc observed providerIdx evs

/-- The ids of one ledger in a page, `byLedger[ledger]` in the source. -/
def idsAt (events : List Event) (ledger : Nat) : List String :=
  (events.filter fun ev => decide (ev.ledger = ledger)).map Event.id

def pageLedgers (events : List Event) : List Nat :=
  (events.map Event.ledger).dedup

/-- The first index at which two lists of ids differ, with both ids. -/
def firstMismatch : Nat → List String → List String → Option (Nat × String × String)
  | i, got :: gots, want :: wants =>
    if got ≠ want then some (i, got, want) else firstMismatch (i + 1) gots wants
  | _, _, _ => none

/-- One ledger of a page against the ids another provider served for it. -/
def ledgerDivergence (fc : FailoverClient) (providerIdx ledger : Nat) (gotIDs : List String)
    (prev : Option ObservedLedgerPrefix) (maxLedgerInPage : Nat) (cursor : String) :
    Option ProviderDivergence :=
  match prev with
  | none => none
  | some prev =>
    if prev.providerIdx = providerIdx ∨ prev.eventIDs = [] then none
    else
      match firstMismatch 0 gotIDs prev.eventIDs with
      | some (i, got, want) =>
        some { providerURL := fc.url providerIdx, ledger := ledger, eventID := got
               description := "ledger " ++ toString ledger ++ " event index " ++ toString i ++
                 " ID mismatch: got " ++ quote got ++ ", want " ++ quote want }
      | none =>
        if gotIDs.length < prev.eventIDs.length ∧ (ledger < maxLedgerInPage ∨ cursor = "") then
          let missingID := prev.eventIDs.getD gotIDs.length ""
          some { providerURL := fc.url providerIdx, ledger := ledger, eventID := missingID
                 description := "ledger " ++ toString ledger ++
                   " missing previously observed event " ++ quote missingID ++ " (got " ++
                   toString gotIDs.length ++ " events, want >= " ++
                   toString prev.eventIDs.length ++ ")" }
        else none

/-- What `checkAndRecordEvents` finds wrong with a page.  `order` is the order in which the
source ranges over the page's ledgers. -/
def pageDivergence (fc : FailoverClient) (s : ClientState) (providerIdx startLedger : Nat)
    (hasCursor : Bool) (resp : GetEventsResponse) (order : List Nat) :
    Option ProviderDivergence :=
  match eventDivergence fc s.observedByID providerIdx resp.events with
  | some div => some div
  | none =>
    if hasCursor then none
    else
      let maxLedgerInPage := (resp.events.getLast?.map Event.ledger).getD 0
      order.findSome? fun ledger =>
        if 0 < startLedger ∧ ledger < startLedger then none
        else
          ledgerDivergence fc providerIdx ledger (idsAt resp.events ledger)
            (s.observedByLgr ledger) maxLedgerInPage resp.cursor

def appendNew (existing ids : List String) : List String :=
  ids.foldl (fun acc id => if id ∈ acc then acc else acc ++ [id]) existing

def ClientState.recordEvents (fc : FailoverClient) (s : ClientState) (providerIdx : Nat)
    (events : List Event) : ClientState :=
  { s with
    observedByID := events.foldl
      (fun seen ev => Function.update seen ev.id (some (buildObservedEvent fc providerIdx ev)))
      s.observedByID
    observedByLgr := fun ledger =>
      match idsAt events ledger, s.observedByLgr ledger with
      | [], existing => existing
      | ids, none => some { providerIdx := providerIdx, eventIDs := ids }
      | ids, some existing =>
        some { existing with eventIDs := appendNew existing.eventIDs ids } }

/-- The critical section of `checkAndRecordEvents`. -/
def ClientState.checkAndRecord (fc : FailoverClient) (s : ClientState)
    (providerIdx startLedger : Nat) (hasCursor : Bool) (resp : GetEventsResponse)
    (order : List Nat) : ClientState :=
  match pageDivergence fc s providerIdx startLedger hasCursor resp order with
  | some div => { s with divergences := s.divergences ++ [div] }
  | none => s.recordEvents fc providerIdx resp.events

/-! ## Accesses -/

inductive ProviderAccess where
  | storeState (s : ProviderState)
  | storeErrCount (n : Int)
  | addErrCount
  | storeOkCount (n : Int)
  | addOkCount
  | storeLatestLedger (n : Nat)
  | storeOldestLedger (n : Nat)
  | storeNetworkVerified
  | storeNetworkInvalid
  | storeXDRJSONUnsupported

def ProviderAccess.apply : ProviderAccess → Provider → Provider
  | .storeState s, p => { p with state := s }
  | .storeErrCount n, p => { p with errCount := n }
  | .addErrCount, p => { p with errCount := p.errCount + 1 }
  | .storeOkCount n, p => { p with okCount := n }
  | .addOkCount, p => { p with okCount := p.okCount + 1 }
  | .storeLatestLedger n, p => { p with latestLedger := n }
  | .storeOldestLedger n, p => { p with oldestLedger := n }
  | .storeNetworkVerified, p => { p with networkVerified := true }
  | .storeNetworkInvalid, p => { p with networkInvalid := true }
  | .storeXDRJSONUnsupported, p => { p with xdrJSONUnsupported := true }

inductive Access where
  | load
  | provider (idx : Nat) (u : ProviderAccess)
  /-- The compare-and-swap loop of `updateProviderRange`. -/
  | raiseMaxObservedHead (latest : Nat)
  /-- The compare-and-swap loop of `SetCursorLedger`. -/
  | raiseCursorLedger (ledger : Nat)
  | swapLastActive (idx : Nat)
  | storeReanchorLedger (ledger : Nat)
  | addAllDownCount
  | storeAllDownCount (n : Nat)
  | storeAllDownUntil (t : Int)
  /-- `checkAndRecordEvents` under `divMu`. -/
  | checkAndRecord (idx startLedger : Nat) (hasCursor : Bool) (resp : GetEventsResponse)
      (order : List Nat)

def Access.apply (fc : FailoverClient) : Access → ClientState → ClientState
  | .load, s => s
  | .provider idx u, s =>
    { s with providers := Function.update s.providers idx (u.apply (s.providers idx)) }
  | .raiseMaxObservedHead latest, s => { s with maxObservedHead := max s.maxObservedHead latest }
  | .raiseCursorLedger ledger, s => { s with cursorLedger := max s.cursorLedger ledger }
  | .swapLastActive idx, s => { s with lastActive := some idx }
  | .storeReanchorLedger ledger, s => { s with reanchorLedger := ledger }
  | .addAllDownCount, s => { s with allDownCount := s.allDownCount + 1 }
  | .storeAllDownCount n, s => { s with allDownCount := n }
  | .storeAllDownUntil t, s => { s with allDownUntil := t }
  | .checkAndRecord idx startLedger hasCursor resp order, s =>
    s.checkAndRecord fc idx startLedger hasCursor resp order

/-! ## Requests -/

structure LatestLedger where
  sequence : Nat
  deriving DecidableEq, Repr

structure NetworkInfo where
  passphrase : String
  deriving DecidableEq, Repr

structure GetLedgerEntriesResponse where
  entries : List (String × String)
  deriving DecidableEq, Repr

structure SimulateTransactionResponse where
  results : List String
  error : String
  deriving DecidableEq, Repr

inductive Act where
  | access (u : Access)
  | now
  | randN (n : Int)
  | waitLimiter (idx : Nat)
  | getEvents (idx : Nat) (req : GetEventsRequest)
  | getLatestLedger (idx : Nat)
  | getHealth (idx : Nat)
  | getNetwork (idx : Nat)
  | getLedgerEntries (idx : Nat) (keys : List String)
  | simulateTransaction (idx : Nat) (transaction : String)
  | supportsXDRJSON (idx : Nat)
  | rangeOrder (keys : List Nat)

def Ans : Act → Type
  | .access _ => ClientState
  | .now => Int
  | .randN _ => Int
  | .waitLimiter _ => Except Err Unit
  | .getEvents _ _ => Except Err GetEventsResponse
  | .getLatestLedger _ => Except Err LatestLedger
  | .getHealth _ => Except Err Health
  | .getNetwork _ => Except Err NetworkInfo
  | .getLedgerEntries _ _ => Except Err GetLedgerEntriesResponse
  | .simulateTransaction _ _ => Except Err SimulateTransactionResponse
  | .supportsXDRJSON _ => Bool
  | .rangeOrder _ => List Nat

abbrev P := Prog Act Ans

abbrev M := Fallible Act Ans Err

def access (u : Access) : P ClientState := request (Act.access u)

def load : P ClientState := access .load

def perform (u : Access) : P Unit := do
  let _ ← access u
  return ()

def timeNow : P Int := request Act.now

def randN (n : Int) : P Int := request (Act.randN n)

def supportsXDRJSON (idx : Nat) : P Bool := request (Act.supportsXDRJSON idx)

def rangeOrder (keys : List Nat) : P (List Nat) := request (Act.rangeOrder keys)

def waitLimiter (idx : Nat) : M Unit := request (Act.waitLimiter idx)

/-! The methods of a provider's own client. -/

def sendGetEvents (idx : Nat) (req : GetEventsRequest) : M GetEventsResponse :=
  request (Act.getEvents idx req)

def sendGetLatestLedger (idx : Nat) : M LatestLedger := request (Act.getLatestLedger idx)

def sendGetHealth (idx : Nat) : M Health := request (Act.getHealth idx)

def sendGetNetwork (idx : Nat) : M NetworkInfo := request (Act.getNetwork idx)

def sendGetLedgerEntries (idx : Nat) (keys : List String) : M GetLedgerEntriesResponse :=
  request (Act.getLedgerEntries idx keys)

def sendSimulateTransaction (idx : Nat) (transaction : String) :
    M SimulateTransactionResponse :=
  request (Act.simulateTransaction idx transaction)

/-!
# The failover client

`FailoverClient` routes each call to the first healthy provider.  `GetEvents` goes
on to the next one when a provider is behind, does not retain the requested ledger
or contradicts events seen before; every such provider is left out for the rest of
the call.
-/

/-! ## Health -/

/-- Demote a provider; one that is degraded already goes down. -/
def demoteProvider (idx : Nat) (targetState : ProviderState) : P Unit := do
  perform (.provider idx (.storeOkCount 0))
  let s ← load
  let targetState :=
    if (s.providers idx).state = targetState ∧ targetState = .degraded then .down else targetState
  perform (.provider idx (.storeState targetState))

def promoteProvider (idx : Nat) : P Unit := do
  perform (.provider idx (.storeOkCount 0))
  perform (.provider idx (.storeErrCount 0))
  perform (.provider idx (.storeState .active))

/-- The learned ledger bounds; zero says that a bound was not reported. -/
def updateProviderRange (idx oldest latest : Nat) : P Unit := do
  when (0 < oldest) (perform (.provider idx (.storeOldestLedger oldest)))
  when (0 < latest) do
    perform (.provider idx (.storeLatestLedger latest))
    perform (.raiseMaxObservedHead latest)

def isNetworkError (err : Err) : Bool :=
  err.isNet ||
    ["connection refused", "no such host", "i/o timeout", "deadline exceeded", "EOF",
      "connection reset", "TLS handshake timeout", "connect: connection refused"].any
      fun text => contains err.message text

def isDemotableError (err : Err) : Bool :=
  isNetworkError err || contains err.message "HTTP 5" ||
    contains err.message "rpc error -320" || contains err.message "rpc error -32603"

variable (fc : FailoverClient)

def recordProbation (idx : Nat) : P Unit := do
  let before ← access (.provider idx .addOkCount)
  when (fc.probationSuccesses ≤ (before.providers idx).okCount + 1) (promoteProvider idx)

def recordSuccess (idx : Nat) : P Unit := do
  let s ← load
  if (s.providers idx).networkInvalid then return ()
  else
    perform (.provider idx (.storeErrCount 0))
    perform (.storeAllDownCount 0)
    perform (.storeAllDownUntil 0)
    perform (.swapLastActive idx)
    let s ← load
    when ((s.providers idx).state = .degraded ∨ (s.providers idx).state = .down)
      (recordProbation fc idx)

def recordError (idx : Nat) (err : Err) : P Unit := do
  if isLedgerOutOfRange err then return ()
  else if isDemotableError err then
    perform (.provider idx (.storeOkCount 0))
    let before ← access (.provider idx .addErrCount)
    let c := (before.providers idx).errCount + 1
    let s ← load
    if (s.providers idx).state = .active ∧ fc.maxConsecutiveErrors ≤ c then
      demoteProvider idx .degraded
    else
      when ((s.providers idx).state = .degraded ∧ fc.maxConsecutiveErrors * 2 ≤ c)
        (demoteProvider idx .down)
  else return ()

/-! ## Selection -/

/-- The first of the given providers that is in a state, neither excluded nor invalid. -/
def findState (state : ProviderState) (excluded : List Nat) : List Nat → P (Option Nat)
  | [] => return none
  | i :: is => do
    if i ∈ excluded then findState state excluded is
    else
      let s ← load
      if (s.providers i).networkInvalid then findState state excluded is
      else
        let s ← load
        if (s.providers i).state = state then return some i
        else findState state excluded is

/-- Active providers first, degraded ones when no active one is left. -/
def getActiveExcluding (excluded : List Nat) : P (Option Nat) := do
  match ← findState .active excluded fc.indices with
  | some i => return some i
  | none => findState .degraded excluded fc.indices

/-- Compare the reported passphrase; a provider on another network is rejected for good. -/
def checkPassphrase (idx : Nat) (info : NetworkInfo) : M Unit := do
  let actual := String.ofList (trimSpace info.passphrase.toList)
  if actual ≠ fc.expectedPassphrase then
    perform (.provider idx .storeNetworkInvalid)
    demoteProvider idx .down
    fail (.suffix .networkPassphraseMismatch (": provider " ++ fc.url idx ++
      " reported " ++ quote actual ++ ", want " ++ quote fc.expectedPassphrase))
  else perform (.provider idx .storeNetworkVerified)

def verifyProviderNetwork (idx : Nat) : M Unit := do
  let s ← load
  if (s.providers idx).networkInvalid then fail .networkPassphraseMismatch
  else if fc.expectedPassphrase = "" then return ()
  else
    let s ← load
    if (s.providers idx).networkVerified then return ()
    else if fc.kind idx = .plain then perform (.provider idx .storeNetworkVerified)
    else
      waitLimiter idx
      match ← attempt (sendGetNetwork idx) with
      | .error err =>
        recordError fc idx err
        fail err
      | .ok info => checkPassphrase fc idx info

def second : Int := 1000000000

def backoffBase : Nat → Int → Int
  | 0, base => base
  | c + 1, base => if 30 * second < base * 2 then 30 * second else backoffBase c (base * 2)

def allDownBackoff : P Int := do
  let s ← load
  let base := backoffBase s.allDownCount second
  let jitter ← randN (base / 4)
  return base - base / 4 + jitter

/-- The backoff after every provider was found down, still running. -/
def inBackoff : P Bool := do
  let s ← load
  if s.allDownUntil = 0 then return false
  else
    let now ← timeNow
    if 0 < s.allDownUntil - now then return true
    else
      perform (.storeAllDownUntil 0)
      return false

def excludedActive (excluded : List Nat) : P (Option Nat) :=
  if excluded = [] then return none else getActiveExcluding fc []

def noneLeft (excluded : List Nat) (lastMismatchErr : Option Err) : P Err := do
  let elsewhere ← excludedActive fc excluded
  if elsewhere.isSome then return lastMismatchErr.getD .allProvidersDown
  else
    perform .addAllDownCount
    let now ← timeNow
    let backoff ← allDownBackoff
    perform (.storeAllDownUntil (now + backoff))
    match lastMismatchErr with
    | some err => return .both .allProvidersDown err
    | none => return .allProvidersDown

/-- The loop of `pickProviderExcluding`, for at most `turns` mismatches.  Every turn excludes one
more provider, so with as many turns as providers nothing is left to find at the end. -/
def pickLoop : Nat → List Nat → Option Err → M (Nat × List Nat)
  | 0, excluded, lastMismatchErr => do
    let err ← noneLeft fc excluded lastMismatchErr
    fail err
  | turns + 1, excluded, lastMismatchErr => do
    match ← getActiveExcluding fc excluded with
    | none =>
      let err ← noneLeft fc excluded lastMismatchErr
      fail err
    | some idx =>
      match ← attempt (verifyProviderNetwork fc idx) with
      | .ok _ => return (idx, excluded)
      | .error err =>
        if err.is .networkPassphraseMismatch then
          pickLoop turns (idx :: excluded) (some err)
        else fail err

def pickProviderExcluding (excluded : List Nat) : M (Nat × List Nat) := do
  if ← inBackoff then fail .allProvidersDown
  else pickLoop fc fc.providers.length excluded none

def pickProvider : M Nat := do
  let (idx, _) ← pickProviderExcluding fc []
  return idx

/-! ## Calls handed to one provider -/

/-- Pick a provider, wait for its limiter, call it and record the outcome. -/
def delegate {α : Type} (call : Nat → M α) (learn : Nat → α → P Unit) : M α := do
  let idx ← pickProvider fc
  waitLimiter idx
  match ← attempt (call idx) with
  | .error err =>
    recordError fc idx err
    fail err
  | .ok resp =>
    learn idx resp
    recordSuccess fc idx
    return resp

def getLatestLedger : M LatestLedger :=
  delegate fc sendGetLatestLedger fun idx resp => updateProviderRange idx 0 resp.sequence

def getHealth : M Health :=
  delegate fc sendGetHealth fun idx resp =>
    updateProviderRange idx resp.oldestLedger resp.latestLedger

def getLedgerEntries (keys : List String) : M GetLedgerEntriesResponse :=
  delegate fc (fun idx => sendGetLedgerEntries idx keys) fun _ _ => return ()

def simulateTransaction (transaction : String) : M SimulateTransactionResponse :=
  delegate fc (fun idx => sendSimulateTransaction idx transaction)
    fun _ _ => return ()

/-- A provider that cannot be asked is taken to be on the expected network. -/
def getNetwork : M NetworkInfo := do
  let idx ← pickProvider fc
  if fc.kind idx = .plain then return { passphrase := fc.expectedPassphrase }
  else
    waitLimiter idx
    match ← attempt (sendGetNetwork idx) with
    | .error err =>
      recordError fc idx err
      fail err
    | .ok resp =>
      recordSuccess fc idx
      return resp

/-! ## Events -/

def parseLedgerFromCursor (cursor : String) : Nat :=
  match cut '-' cursor.toList with
  | some (before, _) => (parseUint 32 before).getD 0
  | none => 0

def requiredLedgerForRequest (req : GetEventsRequest) : P Nat := do
  let s ← load
  return max (max s.cursorLedger req.startLedger) (parseLedgerFromCursor req.cursor)

def hasCandidateWithHeadAtLeast (excluded : List Nat) (selfIdx minHead : Nat) :
    List Nat → P Bool
  | [] => return false
  | i :: is => do
    if i = selfIdx ∨ i ∈ excluded then hasCandidateWithHeadAtLeast excluded selfIdx minHead is
    else
      let s ← load
      if (s.providers i).networkInvalid then
        hasCandidateWithHeadAtLeast excluded selfIdx minHead is
      else
        let s ← load
        if (s.providers i).state = .down then
          hasCandidateWithHeadAtLeast excluded selfIdx minHead is
        else
          let s ← load
          let latest := (s.providers i).latestLedger
          if latest = 0 ∨ minHead ≤ latest then return true
          else hasCandidateWithHeadAtLeast excluded selfIdx minHead is

def xdrFormatJSON : String := "json"

/-- The request as it is sent first: in JSON unless the provider has refused that. -/
def callRequest (p : Provider) (req : GetEventsRequest) : GetEventsRequest :=
  if p.xdrJSONUnsupported then { req with xdrFormat := "" }
  else if req.xdrFormat = "" then { req with xdrFormat := xdrFormatJSON }
  else req

/-- Send a request, and once more without a format when the provider rejects the format. -/
def sendWithFallback (idx : Nat) (req : GetEventsRequest) : M GetEventsResponse := do
  match ← attempt (sendGetEvents idx req) with
  | .ok resp => return resp
  | .error err =>
    if isXDRFormatRejected err then
      perform (.provider idx .storeXDRJSONUnsupported)
      sendGetEvents idx { req with xdrFormat := "" }
    else fail err

def noteXDRSupport (idx : Nat) : P Unit :=
  when (fc.kind idx = .http) do
    let supported ← supportsXDRJSON idx
    when (supported = false) (perform (.provider idx .storeXDRJSONUnsupported))

def callProviderGetEvents (idx : Nat) (req : GetEventsRequest) : M GetEventsResponse := do
  let s ← load
  let result ← attempt (sendWithFallback idx (callRequest (s.providers idx) req))
  noteXDRSupport fc idx
  ofExcept result

/-- Compare a page with the events seen before and record it when nothing differs. -/
def checkAndRecordEvents (idx startLedger : Nat) (hasCursor : Bool) (resp : GetEventsResponse) :
    P (Option ProviderDivergence) := do
  if resp.events = [] then return none
  else
    let order ← rangeOrder (pageLedgers resp.events)
    let s ← access (.checkAndRecord idx startLedger hasCursor resp order)
    return pageDivergence fc s idx startLedger hasCursor resp order

/-- Why `GetEvents` leaves a provider out. -/
inductive Refusal where
  | behind (err : Err)
  | retentionGap (err : Err)
  | divergence (err : Err)

structure Refusals where
  lastBehindErr : Option Err
  lastRetentionGapErr : Option Err
  lastDivergenceErr : Option Err

def Refusals.none : Refusals := ⟨.none, .none, .none⟩

def Refusals.record (r : Refusals) : Refusal → Refusals
  | .behind err => { r with lastBehindErr := some err }
  | .retentionGap err => { r with lastRetentionGapErr := some err }
  | .divergence err => { r with lastDivergenceErr := some err }

def Refusals.error (r : Refusals) (pickErr : Err) : Err :=
  match r.lastRetentionGapErr, r.lastBehindErr, r.lastDivergenceErr with
  | some err, _, _ => err
  | .none, some err, _ => err
  | .none, .none, some err => err
  | .none, .none, .none => pickErr

/-- A provider is behind the highest head by more than the tolerance, and another is not. -/
def lagsHead (excluded : List Nat) (idx pLatest maxHead : Nat) : P Bool :=
  if 0 < maxHead ∧ 0 < pLatest ∧ u32 (pLatest + fc.headSkewTolerance) < maxHead then
    hasCandidateWithHeadAtLeast excluded idx (u32OfInt (maxHead - fc.headSkewTolerance)) fc.indices
  else return false

def checkSelection (req : GetEventsRequest) (requiredLedger : Nat) (excluded : List Nat)
    (idx : Nat) : P (Option Refusal) := do
  let s ← load
  let pLatest := (s.providers idx).latestLedger
  if 0 < requiredLedger ∧ 0 < pLatest ∧ pLatest < requiredLedger then
    demoteProvider idx .degraded
    return some (.behind (.suffix .providerBehindCursor (": provider " ++ fc.url idx ++
      " latestLedger " ++ toString pLatest ++ " < cursor " ++ toString requiredLedger)))
  else
    let s ← load
    let maxHead := s.maxObservedHead
    if ← lagsHead fc excluded idx pLatest maxHead then
      demoteProvider idx .degraded
      return some (.behind (.suffix .providerBehindCursor (": provider " ++ fc.url idx ++
        " latestLedger " ++ toString pLatest ++ " lags head " ++ toString maxHead)))
    else
      let s ← load
      let pOldest := (s.providers idx).oldestLedger
      if req.hasCursor = false ∧ 0 < req.startLedger ∧ req.startLedger < pOldest then
        demoteProvider idx .degraded
        return some (.retentionGap (.retentionGap (fc.url idx) req.startLedger pOldest))
      else return none

def checkResponse (req : GetEventsRequest) (requiredLedger idx : Nat) (resp : GetEventsResponse) :
    P (Option Refusal) := do
  if 0 < requiredLedger ∧ 0 < resp.latestLedger ∧ resp.latestLedger < requiredLedger then
    demoteProvider idx .degraded
    return some (.behind (.suffix .providerBehindCursor (": provider " ++ fc.url idx ++
      " latestLedger " ++ toString resp.latestLedger ++ " < cursor " ++ toString requiredLedger)))
  else if req.hasCursor = false ∧ 0 < req.startLedger ∧ req.startLedger < resp.oldestLedger then
    demoteProvider idx .degraded
    return some (.retentionGap (.retentionGap (fc.url idx) req.startLedger resp.oldestLedger))
  else
    match ← checkAndRecordEvents fc idx req.startLedger req.hasCursor resp with
    | some div =>
      demoteProvider idx .down
      return some (.divergence (.suffix .providerDivergence (": " ++ div.description)))
    | none => return none

/-- A request with a cursor is about to go to another provider than the last one. -/
def switchesProvider (req : GetEventsRequest) (idx : Nat) : P Bool := do
  if req.hasCursor then
    let s ← load
    if s.lastActive = none then return false
    else
      let s ← load
      return decide (s.lastActive ≠ some idx)
  else return false

/-- The largest ledger of the page, or the one its cursor names when it has none. -/
def reachedLedger (resp : GetEventsResponse) : Nat :=
  let maxLedger := resp.events.foldl (fun l ev => max l ev.ledger) 0
  if maxLedger = 0 then parseLedgerFromCursor resp.cursor else maxLedger

def accept (req : GetEventsRequest) (idx : Nat) (resp : GetEventsResponse) :
    P GetEventsResponse := do
  when (0 < reachedLedger resp) (perform (.raiseCursorLedger (reachedLedger resp)))
  when (req.hasCursor = false) (perform (.storeReanchorLedger 0))
  recordSuccess fc idx
  return resp

/-- Keep the ledger at which a provider switch interrupts the stream. -/
def interrupt : P Unit := do
  let s ← load
  when (0 < s.cursorLedger) (perform (.storeReanchorLedger s.cursorLedger))

def askProvider (req : GetEventsRequest) (requiredLedger : Nat) (excluded : List Nat) (idx : Nat) :
    M (Except Refusal GetEventsResponse) := do
  match ← checkSelection fc req requiredLedger excluded idx with
  | some refusal => return .error refusal
  | none =>
    if ← switchesProvider req idx then
      interrupt
      fail .failoverReanchor
    else
      waitLimiter idx
      match ← attempt (callProviderGetEvents fc idx req) with
      | .error err =>
        if isLedgerOutOfRange err ∧ fc.providers.length ≠ 1 then
          demoteProvider idx .degraded
          return .error (.retentionGap err)
        else
          recordError fc idx err
          fail err
      | .ok resp =>
        updateProviderRange idx resp.oldestLedger resp.latestLedger
        match ← checkResponse fc req requiredLedger idx resp with
        | some refusal => return .error refusal
        | none =>
          let resp ← accept fc req idx resp
          return .ok resp

/-- The loop of `GetEvents`, for at most `turns` refusals.  A refused provider is excluded, so
with as many turns as providers the last selection can only fail. -/
def eventsLoop (req : GetEventsRequest) (requiredLedger : Nat) :
    Nat → List Nat → Refusals → M GetEventsResponse
  | 0, excluded, refusals => do
    if ← inBackoff then fail (refusals.error .allProvidersDown)
    else
      let err ← noneLeft fc excluded none
      fail (refusals.error err)
  | turns + 1, excluded, refusals => do
    match ← attempt (pickProviderExcluding fc excluded) with
    | .error err => fail (refusals.error err)
    | .ok (idx, excluded) =>
      match ← askProvider fc req requiredLedger excluded idx with
      | .ok resp => return resp
      | .error refusal =>
        eventsLoop req requiredLedger turns (idx :: excluded) (refusals.record refusal)

/-- The request with its start ledger moved back to a ledger that a provider switch
interrupted. -/
def reanchored (reanchor : Nat) (req : GetEventsRequest) : GetEventsRequest :=
  if req.hasCursor = false ∧ 0 < reanchor ∧ req.startLedger = u32 (reanchor + 1) then
    { req with startLedger := reanchor }
  else req

def reanchorRequest (req : GetEventsRequest) : P GetEventsRequest := do
  if req.hasCursor then return req
  else
    let s ← load
    return reanchored s.reanchorLedger req

def getEvents (req : GetEventsRequest) : M GetEventsResponse := do
  let req ← reanchorRequest req
  let requiredLedger ← requiredLedgerForRequest req
  eventsLoop fc req requiredLedger fc.providers.length [] .none

/-! ## Probes -/

def probeDownProviders : List Nat → P Unit
  | [] => return ()
  | idx :: rest => do
    probe idx
    probeDownProviders rest
where
  probe (idx : Nat) : P Unit := do
    let s ← load
    if (s.providers idx).state ≠ .down then return ()
    else
      let s ← load
      if (s.providers idx).networkInvalid then return ()
      else
        let health ← (do
          verifyProviderNetwork fc idx
          waitLimiter idx
          sendGetHealth idx : M Health)
        match health with
        | .error _ => return ()
        | .ok health =>
          updateProviderRange idx health.oldestLedger health.latestLedger
          let s ← load
          if 0 < s.cursorLedger ∧ 0 < health.latestLedger ∧
              health.latestLedger < s.cursorLedger then return ()
          else recordProbation fc idx

end SoroTrail.Rpc.Failover
