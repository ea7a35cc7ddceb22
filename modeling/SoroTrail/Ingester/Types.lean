import Mathlib.Data.List.Sort
import SoroTrail.Lib.Prog
import SoroTrail.Store.Rows

/-!
# The ingester's configuration, memory and requests

An `Ingester` is what `New` builds and never changes afterwards.  What changes
lives in `Memory` (lost when the process restarts) and in the store.  Everything
the ingester asks of the RPC client, the store, the clock, the scheduler and its
own memory is one `Act`; a cycle is a program over these requests.
-/

set_option autoImplicit false

namespace SoroTrail.Ingest

open Lib Rpc Store Prog List

structure Options where
  startLedger : Nat
  startLedgerRaw : String
  retentionLedgers : Nat
  pageLimit : Nat
  writeBatchSize : Nat
  maxEventsPerCycle : Nat
  batchSize : Nat
  batchTargetLatency : Int
  batchMaxBackoff : Int
  sweepWindow : Nat
  sweepConcurrency : Nat
  reorgConfirmationWindow : Nat
  skipContracts : List String
  network : String
  dryRun : Bool
  deriving DecidableEq, Repr

def Options.zero : Options where
  startLedger := 0
  startLedgerRaw := ""
  retentionLedgers := 0
  pageLimit := 0
  writeBatchSize := 0
  maxEventsPerCycle := 0
  batchSize := 0
  batchTargetLatency := 0
  batchMaxBackoff := 0
  sweepWindow := 0
  sweepConcurrency := 0
  reorgConfirmationWindow := 0
  skipContracts := []
  network := ""
  dryRun := false

def defaultRetentionLedgers : Nat := 17280

/-- The defaults of the fields above, as `applyDefaults` fills them in. -/
def Options.applyDefaults (o : Options) : Options :=
  { o with
    retentionLedgers := if o.retentionLedgers = 0 then defaultRetentionLedgers else o.retentionLedgers
    pageLimit := if o.pageLimit = 0 then 1000 else o.pageLimit
    writeBatchSize := if o.writeBatchSize = 0 then 1000 else o.writeBatchSize
    sweepWindow := if o.sweepWindow = 0 then 1000 else o.sweepWindow
    batchMaxBackoff := if o.batchMaxBackoff ≤ 0 then 1000000000 else o.batchMaxBackoff
    sweepConcurrency := if o.sweepConcurrency < 1 then 1 else o.sweepConcurrency }

/-- The libraries the ingester calls on an event's payload: the XDR decoder, the JSON
encoder, the time parser, the address extractor and the digest. -/
structure Codec where
  decodeScVal : String → Except Err String
  marshalJSON : List String → Except Err String
  parseRFC3339 : String → Option Time
  appendAddresses : Store.Event → List AddressRef
  sha256Hex : String → String
  /-- The half-half smoothing of two durations in floating point. -/
  smooth : Int → Int → Int

/-- A codec that takes every payload as it stands, for evaluating the model. -/
def Codec.verbatim : Codec where
  decodeScVal s := .ok s
  marshalJSON ts := .ok (String.intercalate "," ts)
  parseRFC3339 _ := none
  appendAddresses _ := []
  sha256Hex s := s
  smooth x _ := x

/-- What `New` builds. -/
structure Ingester where
  opts : Options
  codec : Codec
  deadLetterStore : Bool
  retentionLedgers_pos : 0 < opts.retentionLedgers
  pageLimit_pos : 0 < opts.pageLimit
  writeBatchSize_pos : 0 < opts.writeBatchSize
  sweepWindow_pos : 0 < opts.sweepWindow
  sweepConcurrency_pos : 0 < opts.sweepConcurrency

def new (codec : Codec) (deadLetterStore : Bool) (opts : Options) : Ingester where
  opts := opts.applyDefaults
  codec := codec
  deadLetterStore := deadLetterStore
  retentionLedgers_pos := by
    unfold Options.applyDefaults defaultRetentionLedgers
    dsimp only
    split <;> omega
  pageLimit_pos := by
    unfold Options.applyDefaults
    dsimp only
    split <;> omega
  writeBatchSize_pos := by
    unfold Options.applyDefaults
    dsimp only
    split <;> omega
  sweepWindow_pos := by
    unfold Options.applyDefaults
    dsimp only
    split <;> omega
  sweepConcurrency_pos := by
    unfold Options.applyDefaults
    dsimp only
    split <;> omega

/-! ## Memory -/

structure ReorgTracker where
  window : Nat
  highestLedger : Nat
  hashes : Nat → Option String

structure DryRunPosition where
  cursor : String
  lastIngestedLedger : Int
  deriving DecidableEq, Repr

structure Sweep where
  start : Nat
  stop : Nat
  /-- The budget left; `none` when no cap is set. -/
  remaining : Option Int
  capHit : Bool
  ledgerOutOfRange : Bool
  /-- A goroutine has failed, which cancels the others' context. -/
  canceled : Bool
  deriving DecidableEq, Repr

structure Memory where
  startOverrideApplied : Bool
  dryRunPosition : Option DryRunPosition
  tracker : ReorgTracker
  sweep : Sweep

def Memory.fresh (ing : Ingester) : Memory where
  startOverrideApplied := false
  dryRunPosition := none
  tracker := { window := ing.opts.reorgConfirmationWindow, highestLedger := 0, hashes := fun _ => none }
  sweep :=
    { start := 0, stop := 0, remaining := none, capHit := false, ledgerOutOfRange := false,
      canceled := false }

/-! ## Requests -/

inductive FetchSite where
  | singlePage
  | singlePageWatched
  | sweepBatch
  | collectBatchEventsInRange
  deriving DecidableEq, Repr

inductive ListSite where
  | runOnce
  | buildFilterBatches
  | earliestStartLedger
  | sweepOutOfRange
  /-- `windowSweepWatched`, before it saves the cursors. -/
  | sweepComplete
  deriving DecidableEq, Repr

/-- The warnings that announce a change of position outside the normal flow. -/
inductive Warning where
  | reclamp (requested oldest : Nat)
  | tipRegression (fromLedger toLedger newHead : Nat)
  | fingerprintDivergence (fromLedger toLedger latest : Nat)
  deriving DecidableEq, Repr

inductive Act where
  | getEvents (site : FetchSite) (req : GetEventsRequest)
  | getHealth
  | listWatchedContracts (site : ListSite)
  | getIngestionState
  | saveIngestionState (s : IngestionState)
  | getContractCursor (contractID : String)
  | saveContractCursor (c : ContractCursor)
  | upsertEvents (events : List Store.Event)
  | deadLetterEvent (d : DeadLetter)
  | upsertAddressRefs (refs : List AddressRef)
  | replaceEventsInRange (events : List Store.Event) (fromLedger toLedger : Int)
  | reconcileReorgRange (o : ReorgReconcileOptions)
  | resolveArchivedBoundary
  | memory (f : Memory → Memory)
  | effectiveSweepMultiplier
  | now
  /-- Answered `false` when the context ends during the sleep. -/
  | sleepCtx (d : Int)
  | ctxDone
  | rangeOrder (keys : List String)
  /-- Which of `n` runnable goroutines runs next. -/
  | schedule (n : Nat)
  | warn (w : Warning)

def Ans : Act → Type
  | .getEvents _ _ => Except Err GetEventsResponse
  | .getHealth => Except Err Health
  | .listWatchedContracts _ => Except Err (List WatchedContract)
  | .getIngestionState => Except Err IngestionState
  | .saveIngestionState _ => Except Err Unit
  | .getContractCursor _ => Except Err ContractCursor
  | .saveContractCursor _ => Except Err Unit
  | .upsertEvents _ => Except Err Nat
  | .deadLetterEvent _ => Except Err Unit
  | .upsertAddressRefs _ => Except Err Unit
  | .replaceEventsInRange _ _ _ => Except Err Unit
  | .reconcileReorgRange _ => Except Err Unit
  | .resolveArchivedBoundary => Except Err Nat
  | .memory _ => Memory
  | .effectiveSweepMultiplier => Nat
  | .now => Int
  | .sleepCtx _ => Bool
  | .ctxDone => Bool
  | .rangeOrder _ => List String
  | .schedule _ => Nat
  | .warn _ => Unit

abbrev P := Prog Act Ans

/-- A program of the ingester that returns a value or an error. -/
abbrev M := Fallible Act Ans Err

def getEvents (site : FetchSite) (req : GetEventsRequest) : M GetEventsResponse :=
  request (Act.getEvents site req)

def getHealth : M Health := request Act.getHealth

def listWatchedContracts (site : ListSite) : M (List WatchedContract) :=
  request (Act.listWatchedContracts site)

def getIngestionState : M IngestionState := request Act.getIngestionState

def saveIngestionState (s : IngestionState) : M Unit := request (Act.saveIngestionState s)

def getContractCursor (contractID : String) : M ContractCursor :=
  request (Act.getContractCursor contractID)

def saveContractCursor (c : ContractCursor) : M Unit := request (Act.saveContractCursor c)

def upsertEvents (events : List Store.Event) : M Nat := request (Act.upsertEvents events)

def deadLetterEvent (d : DeadLetter) : M Unit := request (Act.deadLetterEvent d)

def upsertAddressRefs (refs : List AddressRef) : M Unit :=
  request (Act.upsertAddressRefs refs)

def replaceEventsInRange (events : List Store.Event) (fromLedger toLedger : Int) : M Unit :=
  request (Act.replaceEventsInRange events fromLedger toLedger)

def reconcileReorgRange (o : ReorgReconcileOptions) : M Unit :=
  request (Act.reconcileReorgRange o)

def resolveArchivedBoundary : M Nat := request Act.resolveArchivedBoundary

def readMemory : P Memory := request (Act.memory fun m => m)

def updateMemory (f : Memory → Memory) : P Unit := do
  let _ ← request (Act.memory f)
  return ()

def warn (w : Warning) : P Unit := request (Act.warn w)

def effectiveSweepMultiplier : P Nat := request Act.effectiveSweepMultiplier

def clockNow : P Int := request Act.now

def sleepCtx (d : Int) : P Bool := request (Act.sleepCtx d)

def ctxDone : P Bool := request Act.ctxDone

def rangeOrder (keys : List String) : P (List String) := request (Act.rangeOrder keys)

def schedule (n : Nat) : P Nat := request (Act.schedule n)

def wrapErr {α : Type} (context : String) (p : M α) : M α := do
  match ← Fallible.attempt p with
  | .ok a => return a
  | .error e => Fallible.fail (.wrap context e)

/-!
# Filters and decoded events

How the watch list becomes getEvents filters, and how an RPC event becomes a row.
-/

def chunks {α : Type} (n : Nat) (l : List α) : List (List α) :=
  go l.length l
where
  go : Nat → List α → List (List α)
    | 0, _ => []
    | fuel + 1, l => if l.isEmpty then [] else l.take n :: go fuel (l.drop n)

variable {α : Type}

theorem chunks_go_flatten {n : Nat} (hn : 0 < n) (fuel : Nat) (l : List α)
    (h : l.length ≤ fuel) : (chunks.go n fuel l).flatten = l := by
  induction fuel generalizing l with
  | zero =>
    have : l = [] := length_eq_zero_iff.mp (by omega)
    subst this
    rfl
  | succ fuel ih =>
    unfold chunks.go
    cases l with
    | nil => rfl
    | cons x xs =>
      have hdrop : ((x :: xs).drop n).length ≤ fuel := by
        simp only [length_drop, length_cons] at h ⊢
        omega
      rw [if_neg (by simp), flatten_cons, ih _ hdrop, take_append_drop]

theorem chunks_flatten {n : Nat} (hn : 0 < n) (l : List α) :
    (chunks n l).flatten = l :=
  chunks_go_flatten hn l.length l le_rfl

theorem chunks_go_piece {n : Nat} (hn : 0 < n) (fuel : Nat) (l : List α) {piece : List α}
    (h : piece ∈ chunks.go n fuel l) : piece ≠ [] ∧ piece.length ≤ n := by
  induction fuel generalizing l with
  | zero => cases h
  | succ fuel ih =>
    unfold chunks.go at h
    split at h
    · cases h
    · rename_i hne
      rcases mem_cons.mp h with rfl | h
      · refine ⟨?_, length_take_le n l⟩
        simp only [ne_eq, take_eq_nil_iff, not_or]
        exact ⟨by omega, by simpa using hne⟩
      · exact ih _ h

theorem chunks_piece {n : Nat} (hn : 0 < n) {l piece : List α} (h : piece ∈ chunks n l) :
    piece ≠ [] ∧ piece.length ≤ n :=
  chunks_go_piece hn l.length l h

/-! ## Filters -/

variable (ing : Ingester)

def ownRows (watched : List WatchedContract) : List WatchedContract :=
  watched.filter fun wc => decide (defaultNetwork wc.network = defaultNetwork ing.opts.network)

def filterBatches (ids : List String) : List (List Rpc.EventFilter) :=
  if ids.isEmpty then [[{ type := "contract", contractIDs := [], topics := [] }]]
  else
    chunks maxFiltersPerRequest <|
      (chunks maxContractIDsPerFilter ids).map fun ids =>
        { type := "contract", contractIDs := ids, topics := [] }

def buildFilterBatches : M (List (List Rpc.EventFilter)) := do
  let watched ← listWatchedContracts .buildFilterBatches
  return filterBatches ((ownRows ing watched).map fun wc => wc.contractID)

def contractIDsFromFilters (filters : List Rpc.EventFilter) : List String :=
  firstOccurrences [] <| filters.flatMap fun f => if f.type = "contract" then f.contractIDs else []
where
  firstOccurrences : List String → List String → List String
    | _, [] => []
    | seen, id :: ids =>
      if id ∈ seen then firstOccurrences seen ids else id :: firstOccurrences (id :: seen) ids

/-! ## Rows -/

def commaJoin : List String → String
  | [] => ""
  | [s] => s
  | s :: rest => s ++ "," ++ commaJoin rest

def marshalTopicJSONSlice (topicJSON : List String) : Except Err String :=
  if topicJSON.isEmpty then .ok "[]" else ing.codec.marshalJSON topicJSON

def decodedTopics (topic : List String) : List String :=
  topic.filterMap fun t =>
    match ing.codec.decodeScVal t with
    | .ok v => some v
    | .error _ => none

def eventTopicsValue (e : Rpc.Event) : Except Err (String × String) :=
  let topics : Except Err String :=
    match e.topicJSON with
    | some ts =>
      match marshalTopicJSONSlice ing ts with
      | .ok t => .ok t
      | .error err => .error (.wrap "re-marshaling topics" err)
    | none => .ok ("[" ++ commaJoin (decodedTopics ing e.topic) ++ "]")
  match topics with
  | .error err => .error err
  | .ok topics =>
    match e.valueJSON with
    | some v => .ok (topics, v)
    | none =>
      if e.value ≠ "" then
        match ing.codec.decodeScVal e.value with
        | .ok v => .ok (topics, v)
        | .error err => .error (.wrap "decoding value" err)
      else .ok (topics, "null")

def toStoreEvent (re : Rpc.Event) : Except Err Store.Event :=
  match eventTopicsValue ing re with
  | .error err => .error (.wrap ("decoding event " ++ re.id) err)
  | .ok (topics, value) =>
    .ok
      { id := re.id
        contractID := re.contractID
        ledger := re.ledger
        type := re.type
        txHash := re.txHash
        txIndex := re.transactionIndex
        opIndex := re.operationIndex
        inSuccessfulCall := re.inSuccessfulContractCall
        topics := topics
        value := value
        createdAt :=
          if re.ledgerClosedAt ≠ "" then
            (ing.codec.parseRFC3339 re.ledgerClosedAt).getD Time.zero
          else Time.zero
        network := ""
        rawTopicXDR := re.topic
        rawValueXDR := re.value }

theorem toStoreEvent_ok {re : Rpc.Event} {ev : Store.Event} (h : toStoreEvent ing re = .ok ev) :
    ev.id = re.id ∧ ev.contractID = re.contractID ∧ ev.ledger = re.ledger ∧ ev.network = "" ∧
      ev.txHash = re.txHash ∧ ev.opIndex = re.operationIndex := by
  unfold toStoreEvent at h
  cases htv : eventTopicsValue ing re with
  | error err => simp [htv] at h
  | ok tv =>
    simp only [htv, Except.ok.injEq] at h
    subst h
    exact ⟨rfl, rfl, rfl, rfl, rfl, rfl⟩

def isSkipped (contractID : String) : Bool :=
  decide (contractID ∈ ing.opts.skipContracts)

def removeDuplicateEvents (events : List Store.Event) : List Store.Event :=
  dedupByID [] events

end SoroTrail.Ingest
