import SoroTrail.Ingester.Reorg

/-!
# Persisting a page

From a page of RPC events to rows: skipped contracts are dropped, events that do
not decode go to the dead-letter sink, the rest is written in batches, and a
batch the store rejects for one event's sake is written event by event.
-/

set_option autoImplicit false

namespace SoroTrail.Ingest

open Lib Rpc Store Fallible

variable (ing : Ingester) (fuel : Nat)

/-! ## Batch controller -/

structure BatchController where
  max : Nat
  cur : Nat
  maxBk : Int
  adaptive : Bool
  targetPerEvent : Int
  ewma : Int

def newBatchController : BatchController :=
  let perEvent := ing.opts.batchTargetLatency.tdiv ing.opts.batchSize
  let target := if perEvent ≤ 0 then 1000 else perEvent
  { max := ing.opts.batchSize
    cur := ing.opts.batchSize
    maxBk := ing.opts.batchMaxBackoff
    adaptive := decide (0 < ing.opts.batchTargetLatency)
    targetPerEvent := if 0 < ing.opts.batchTargetLatency then target else 0
    ewma := if 0 < ing.opts.batchTargetLatency then target else 0 }

/-- Feed one write's latency into the controller; the answer is how long to sleep. -/
def BatchController.recordAndBackoff (bc : BatchController) (rows : Nat) (latency : Int) :
    Int × BatchController :=
  if bc.adaptive = false ∨ rows = 0 ∨ bc.cur = 0 then (0, bc)
  else
    let perEvent := latency.tdiv rows
    let ewma := if bc.ewma ≤ 0 then perEvent else ing.codec.smooth perEvent bc.ewma
    let bc := { bc with ewma := ewma }
    let overBudget := bc.targetPerEvent < ewma
    let comfortablyUnder := ewma < bc.targetPerEvent.tdiv 2
    if overBudget ∧ 1 < bc.cur then (bc.maxBk, { bc with cur := bc.cur / 2 })
    else if comfortablyUnder ∧ bc.cur < bc.max then (0, { bc with cur := min (bc.cur * 2) bc.max })
    else if overBudget then (bc.maxBk, bc)
    else (0, bc)

/-! ## Writing -/

def storeDeadLetter (ev : Store.Event) (err : Err) : DeadLetter :=
  { eventID := ev.id, contractID := ev.contractID, ledger := ev.ledger, type := ev.type,
    txHash := ev.txHash, topicXDR := ev.rawTopicXDR, valueXDR := ev.rawValueXDR,
    error := err.message, attempts := 1 }

/-- Write the events one by one and dead-letter those the store rejects for good. -/
def isolateEvents : List Store.Event → Nat → M Nat
  | [], inserted => return inserted
  | ev :: rest, inserted => do
    match ← attempt (upsertEvents [ev]) with
    | .ok n => isolateEvents rest (inserted + n)
    | .error err =>
      if isPermanentEventError err then do
        deadLetterEvent (storeDeadLetter ev err)
        isolateEvents rest inserted
      else fail err

def upsertChunkWithIsolation (chunk : List Store.Event) : M Nat := do
  match ← attempt (upsertEvents chunk) with
  | .ok n => return n
  | .error err =>
    if ing.deadLetterStore ∧ isPermanentEventError err then isolateEvents chunk 0
    else fail err

def writeChunks : Nat → BatchController → List Store.Event → Nat → M Nat
  | 0, _, _, _ => fail .stillRunning
  | n + 1, bc, events, inserted => do
    if events = [] then return inserted
    else
      let chunk := events.take bc.cur
      let rest := events.drop bc.cur
      let started ← clockNow
      let written ← attempt (upsertChunkWithIsolation ing chunk)
      let ended ← clockNow
      match written with
      | .error err => fail err
      | .ok got =>
        let (backoff, bc) := bc.recordAndBackoff ing chunk.length (ended - started)
        if 0 < backoff ∧ rest ≠ [] then
          if ← sleepCtx backoff then writeChunks n bc rest (inserted + got)
          else fail .canceled
        else writeChunks n bc rest (inserted + got)

def writeEventsPersist (events : List Store.Event) : M Nat := do
  if events = [] ∨ ing.opts.dryRun then return 0
  else if ing.opts.batchSize = 0 then upsertChunkWithIsolation ing events
  else writeChunks ing (events.length + 1) (newBatchController ing) events 0

def persistEventBatch (events : List Store.Event) : M Unit := do
  if ing.opts.dryRun then return ()
  else
    let _ ← writeEventsPersist ing events
    indexBestEffort ing events

def persistBatches : List (List Store.Event) → M Unit
  | [] => return ()
  | batch :: rest => do
    persistEventBatch ing batch
    persistBatches rest

def decodeDeadLetter (re : Rpc.Event) (err : Err) : DeadLetter :=
  { eventID := re.id, contractID := re.contractID, ledger := re.ledger, type := re.type,
    txHash := re.txHash, topicXDR := re.topic, valueXDR := re.value, error := err.message,
    attempts := 1 }

def decodePage : List Rpc.Event → M (List Store.Event)
  | [] => return []
  | re :: rest => do
    if isSkipped ing re.contractID then decodePage rest
    else
      match toStoreEvent ing re with
      | .ok ev =>
        let evs ← decodePage rest
        return ev :: evs
      | .error err =>
        if ing.opts.dryRun then decodePage rest
        else if ing.deadLetterStore then do
          match ← attempt (deadLetterEvent (decodeDeadLetter re err)) with
          | .ok _ => decodePage rest
          | .error derr =>
            fail (.suffix
              (.wrap ("dead-lettering decode failure for event " ++ re.id) derr)
              (" (original error: " ++ err.message ++ ")"))
        else fail err

/-- Decode a page and write its rows in batches; the answer is the rows. -/
def persistRows (rpcEvents : List Rpc.Event) : M (List Store.Event) := do
  let decoded ← decodePage ing rpcEvents
  let events := removeDuplicateEvents decoded
  persistBatches ing (chunks ing.opts.writeBatchSize events)
  return events

def persistEventsWithReorgCheck (rpcEvents : List Rpc.Event) (latestLedger : Nat)
    (checkDivergence : Bool) : M Unit := do
  if rpcEvents = [] then return ()
  else
    let events ← persistRows ing rpcEvents
    if ing.opts.dryRun then return ()
    else recordIngestedLedgerFingerprints ing fuel events latestLedger checkDivergence

def persistEvents (rpcEvents : List Rpc.Event) (latestLedger : Nat) : M Unit :=
  persistEventsWithReorgCheck ing fuel rpcEvents latestLedger false

/-! ## Dry runs persist nothing -/

section DryRun

variable {ing : Ingester} (hdry : ing.opts.dryRun = true)
include hdry

theorem decodePage_dry (events : List Rpc.Event) : ∃ rows, decodePage ing events = pure rows := by
  induction events with
  | nil => exact ⟨[], rfl⟩
  | cons re rest ih =>
    obtain ⟨rows, hrows⟩ := ih
    unfold decodePage
    rw [hrows]
    split
    · exact ⟨rows, rfl⟩
    · split
      · exact ⟨_, rfl⟩
      · exact ⟨rows, rfl⟩

theorem persistBatches_dry (batches : List (List Store.Event)) :
    persistBatches ing batches = pure () := by
  induction batches with
  | nil => rfl
  | cons batch rest ih =>
    unfold persistBatches persistEventBatch
    rw [if_pos hdry, ih]
    rfl

theorem persistRows_dry (events : List Rpc.Event) : ∃ rows, persistRows ing events = pure rows := by
  obtain ⟨decoded, hdecoded⟩ := decodePage_dry hdry events
  refine ⟨removeDuplicateEvents decoded, ?_⟩
  unfold persistRows
  simp only [hdecoded, pure_bind, persistBatches_dry hdry]

theorem persistEventsWithReorgCheck_dry (fuel : Nat) (events : List Rpc.Event) (latest : Nat)
    (check : Bool) : persistEventsWithReorgCheck ing fuel events latest check = pure () := by
  obtain ⟨rows, hrows⟩ := persistRows_dry hdry events
  unfold persistEventsWithReorgCheck
  rw [hrows]
  split
  · rfl
  · rfl

end DryRun

end SoroTrail.Ingest
