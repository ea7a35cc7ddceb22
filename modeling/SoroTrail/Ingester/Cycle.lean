import SoroTrail.Ingester.Persist

/-!
# Resume positions

Where a cycle starts: the global `ingestion_state` row of unwatched mode, the
per-contract cursors of watched mode, and the functions that move them.
-/

set_option autoImplicit false

namespace SoroTrail.Ingest

open Lib Rpc Store Fallible

variable (ing : Ingester)

def setDryRunPosition (cursor : String) (lastIngestedLedger : Int) : P Unit := do
  if ing.opts.dryRun then
    updateMemory fun m => { m with dryRunPosition := some ⟨cursor, lastIngestedLedger⟩ }
  else return ()

/-! ## Global position -/

def resolveStartLedgerRaw (raw : String) (health : Health) : Except Err Nat :=
  let cs := Text.trimSpace raw.toList
  let quoted := "START_LEDGER \"" ++ String.ofList cs ++ "\""
  match Text.parseUint 32 cs with
  | some n => .ok n
  | none =>
    if "latest-".toList.isPrefixOf (cs.map Char.toLower) then
      match Text.parseUint 32 (cs.drop 7) with
      | some offset =>
        if offset = 0 then .error (.other (quoted ++ ": offset must be a positive integer"))
        else .ok (max ((health.latestLedger : Int) - offset) 2).toNat
      | none => .error (.other (quoted ++ ": offset must be a positive integer"))
    else .error (.other (quoted ++ ": not an absolute ledger number or relative offset"))

def belowOldestErr (start oldest : Nat) : Err :=
  .other ("START_LEDGER " ++ toString start ++ " is below the RPC's oldest retained ledger " ++
    toString oldest ++ "; events in the gap are unrecoverable")

def coldStartLedger (health : Health) : Except Err Nat :=
  let resolved : Except Err Nat :=
    if 0 < ing.opts.startLedger then .ok ing.opts.startLedger
    else if ing.opts.startLedgerRaw ≠ "" then resolveStartLedgerRaw ing.opts.startLedgerRaw health
    else
      .ok (max (max ((health.latestLedger : Int) - ing.opts.retentionLedgers)
        health.oldestLedger) 2).toNat
  match resolved with
  | .error err => .error err
  | .ok resolved =>
    if (0 < ing.opts.startLedger ∨ ing.opts.startLedgerRaw ≠ "") ∧ 0 < health.oldestLedger ∧
        resolved < health.oldestLedger then
      .error (belowOldestErr resolved health.oldestLedger)
    else .ok (max resolved 2)

def coldStart : M (Nat × String) := do
  let health ← wrapErr "getHealth for cold start" getHealth
  let resolved ← ofExcept (coldStartLedger ing health)
  setDryRunPosition ing "" ((resolved : Int) - 1)
  return (resolved, "")

def ledgerAfter (lastIngestedLedger : Int) : Nat :=
  u32 (u32OfInt lastIngestedLedger + 1)

def persistedPosition : M (Nat × String) := do
  match ← attempt getIngestionState with
  | .error err => if err.is .notFound then coldStart ing else fail err
  | .ok st =>
    if st.lastCursor ≠ "" then do
      setDryRunPosition ing st.lastCursor st.lastIngestedLedger
      return (0, st.lastCursor)
    else if 0 < st.lastIngestedLedger then do
      setDryRunPosition ing "" st.lastIngestedLedger
      return (ledgerAfter st.lastIngestedLedger, "")
    else coldStart ing

/-- `START_LEDGER`, which overrides the persisted position once per process. -/
def startOverride : M (Nat × String) := do
  updateMemory fun m => { m with startOverrideApplied := true }
  let health ← wrapErr "getHealth for override" getHealth
  if 0 < health.oldestLedger ∧ ing.opts.startLedger < health.oldestLedger then
    fail (belowOldestErr ing.opts.startLedger health.oldestLedger)
  else return (ing.opts.startLedger, "")

def resolvePosition : M (Nat × String) := do
  let m ← readMemory
  match ing.opts.dryRun, m.dryRunPosition with
  | true, some p =>
    if p.cursor ≠ "" then return (0, p.cursor) else return (ledgerAfter p.lastIngestedLedger, "")
  | _, _ =>
    if m.startOverrideApplied = false ∧ 0 < ing.opts.startLedger then startOverride ing
    else persistedPosition ing

/-- Drop the persisted RPC cursor and keep the ledger; errors are only logged. -/
def discardCursor : P Unit := do
  if ing.opts.dryRun then
    match (← readMemory).dryRunPosition with
    | some p => if p.cursor = "" then return () else setDryRunPosition ing "" p.lastIngestedLedger
    | none => return ()
  else
    match ← (getIngestionState : P (Except Err IngestionState)) with
    | .error _ => return ()
    | .ok st =>
      if st.lastCursor = "" then return ()
      else
        let _ ← (saveIngestionState
          { network := ing.opts.network, lastIngestedLedger := st.lastIngestedLedger,
            lastCursor := "", lastSuccessfulPoll := none } : P (Except Err Unit))
        return ()

def saveClamped (clamped : Int) : List String → M Unit
  | [] => return ()
  | id :: ids => do
    wrapErr ("clamping cursor for " ++ id) <|
      saveContractCursor { contractID := id, lastIngestedLedger := clamped, lastCursor := "" }
    saveClamped clamped ids

def reclampToOldest (requested : Nat) (contractIDs : List String) : M Unit := do
  let health ← wrapErr "getHealth while re-clamping" getHealth
  warn (.reclamp requested health.oldestLedger)
  let clamped := (health.oldestLedger : Int) - 1
  if contractIDs ≠ [] then
    if ing.opts.dryRun then return () else saveClamped clamped contractIDs
  else if ing.opts.dryRun then setDryRunPosition ing "" clamped
  else
    saveIngestionState
      { network := ing.opts.network, lastIngestedLedger := clamped, lastCursor := "",
        lastSuccessfulPoll := none }

/-! ## Per-contract positions -/

def coldStartPosition : M Nat := do
  let (startLedger, _) ← resolvePosition ing
  return startLedger

def resolveContractPosition (contractID : String) : M Nat := do
  match ← attempt (getContractCursor contractID) with
  | .error err =>
    if err.is .notFound then coldStartPosition ing
    else fail (.wrap ("loading contract cursor for " ++ contractID) err)
  | .ok cc =>
    if 0 < cc.lastIngestedLedger then return ledgerAfter cc.lastIngestedLedger
    else coldStartPosition ing

/-- The smallest position of the contracts, with `0` for none yet. -/
def earliestPosition : List String → Nat → M Nat
  | [], earliest => return earliest
  | id :: ids, earliest => do
    let start ← resolveContractPosition ing id
    earliestPosition ids (if earliest = 0 ∨ start < earliest then start else earliest)

/-- The start ledger of a filter batch; watched batches use no cursor. -/
def resolveBatchStart (contractIDs : List String) : M Nat :=
  earliestPosition ing contractIDs 0

def earliestStartLedger : M Nat := do
  let watched ← listWatchedContracts .earliestStartLedger
  let earliest ← earliestPosition ing (watched.map fun wc => wc.contractID) 0
  if earliest = 0 then coldStartPosition ing else return earliest

def latestByContract : List Rpc.Event → List (String × Nat × String)
  | events => events.foldl note []
where
  note (acc : List (String × Nat × String)) (e : Rpc.Event) : List (String × Nat × String) :=
    let cur := (acc.lookup e.contractID).getD (0, "")
    if cur.1 < e.ledger ∨ (e.ledger = cur.1 ∧ cur.2 < e.cursorValue) then
      if (acc.lookup e.contractID).isSome then
        acc.map fun entry =>
          if entry.1 = e.contractID then (entry.1, e.ledger, e.cursorValue) else entry
      else acc ++ [(e.contractID, e.ledger, e.cursorValue)]
    else acc

def saveLatest (latest : List (String × Nat × String)) : List String → M Unit
  | [] => return ()
  | id :: ids => do
    match latest.lookup id with
    | none => saveLatest latest ids
    | some (ledger, cursor) =>
      wrapErr ("saving cursor for contract " ++ id) <|
        saveContractCursor { contractID := id, lastIngestedLedger := ledger, lastCursor := cursor }
      saveLatest latest ids

def advanceContractCursors (events : List Rpc.Event) : M Unit := do
  let latest := latestByContract events
  let order ← rangeOrder (latest.map fun entry => entry.1)
  saveLatest latest order

/-!
# One cycle

`runOnce` reads the watch list and takes one of four paths: a single page or a
window sweep, each with the global position or with per-contract cursors.  A
sweep's goroutines run interleaved under the errgroup's limit and share its
budget and flags through the ingester's memory.
-/

variable (ing : Ingester) (fuel : Nat)

def effectivePageLimit : Nat :=
  if 0 < ing.opts.maxEventsPerCycle ∧ ing.opts.maxEventsPerCycle < ing.opts.pageLimit then
    ing.opts.maxEventsPerCycle
  else ing.opts.pageLimit

def newCycleBudget : Option Int :=
  if ing.opts.maxEventsPerCycle = 0 ∨ ing.opts.dryRun then none
  else some ing.opts.maxEventsPerCycle

def getEventsErr (startLedger : Nat) (err : Err) : Err :=
  .wrap ("getEvents from ledger " ++ toString startLedger) err

/-! ## Single page -/

def nextState (resp : GetEventsResponse) (pageLimit : Nat) (now : Int) : IngestionState × Bool :=
  match resp.events.getLast? with
  | some last =>
    ({ network := ""
       lastIngestedLedger := last.ledger
       lastCursor := if resp.cursor = "" then last.cursorValue else resp.cursor
       lastSuccessfulPoll := some now },
      decide (resp.events.length < pageLimit))
  | none =>
    ({ network := ""
       lastIngestedLedger := (resp.latestLedger : Int) - 1
       lastCursor := ""
       lastSuccessfulPoll := some now },
      true)

def pageState (startLedger : Nat) (state : IngestionState) : IngestionState :=
  { state with
    network := ing.opts.network
    lastIngestedLedger :=
      if state.lastCursor = "" ∧ state.lastIngestedLedger ≤ 0 then (startLedger : Int) - 1
      else state.lastIngestedLedger }

def pageRequest (startLedger : Nat) (cursor : String) (filters : List Rpc.EventFilter) :
    GetEventsRequest :=
  { startLedger := startLedger, endLedger := 0, filters := filters, cursor := cursor,
    limit := effectivePageLimit ing, xdrFormat := "" }

def singlePage (startLedger : Nat) (cursor : String) (filters : List Rpc.EventFilter) : M Bool := do
  let limit := effectivePageLimit ing
  match ← attempt (getEvents .singlePage (pageRequest ing startLedger cursor filters)) with
  | .error err =>
    if isFailoverReanchor err then do
      discardCursor ing
      fail err
    else if isLedgerOutOfRange err then do
      reclampToOldest ing startLedger []
      return false
    else fail (getEventsErr startLedger err)
  | .ok resp =>
    if ← maybeHandleTipRegression ing fuel resp.latestLedger then return true
    else
      let now ← clockNow
      let (state, caughtUp) := nextState resp limit now
      persistEventsWithReorgCheck ing fuel resp.events resp.latestLedger
        (caughtUp && decide (cursor = ""))
      let state := pageState ing startLedger state
      if ing.opts.dryRun then setDryRunPosition ing state.lastCursor state.lastIngestedLedger
      else saveIngestionState state
      return caughtUp

def singlePageWatched (filters : List Rpc.EventFilter) : M Bool := do
  let contractIDs := contractIDsFromFilters filters
  let startLedger ← resolveBatchStart ing contractIDs
  let limit := effectivePageLimit ing
  match ← attempt
      (getEvents .singlePageWatched (pageRequest ing startLedger "" filters)) with
  | .error err =>
    if isFailoverReanchor err then do
      discardCursor ing
      fail err
    else if isLedgerOutOfRange err then do
      reclampToOldest ing startLedger contractIDs
      return false
    else fail (getEventsErr startLedger err)
  | .ok resp =>
    if ← maybeHandleTipRegression ing fuel resp.latestLedger then return true
    else
      let caughtUp := decide (resp.events.length < limit)
      persistEventsWithReorgCheck ing fuel resp.events resp.latestLedger caughtUp
      advanceContractCursors resp.events
      return caughtUp

/-! ## Window sweep -/

def effectiveSweepWindow : P Nat := do
  let m ← effectiveSweepMultiplier
  return u32 (ing.opts.sweepWindow * max m 1)

def sweepPage (start stop : Nat) (filters : List Rpc.EventFilter) (cursor : String) (limit : Nat)
    (continueAt : String → M Unit) : M Unit := do
  match ← attempt (getEvents .sweepBatch
      { startLedger := start, endLedger := u32 (stop + 1), filters := filters, cursor := cursor,
        limit := limit, xdrFormat := "" }) with
  | .error err =>
    if isLedgerOutOfRange err then do
      updateMemory fun m => { m with sweep := { m.sweep with ledgerOutOfRange := true } }
      fail err
    else if isFailoverReanchor err then do
      discardCursor ing
      fail err
    else
      fail (.wrap ("getEvents sweep " ++ rangeText start stop) err)
  | .ok resp => do
    persistEvents ing fuel resp.events resp.latestLedger
    updateMemory fun m => { m with sweep := { m.sweep with
      remaining := m.sweep.remaining.map fun r => r - (resp.events.length : Int) } }
    match resp.events.getLast? with
    | none => return ()
    | some last =>
      let next := if resp.cursor = "" then last.cursorValue else resp.cursor
      if stop < last.ledger ∨ (resp.events.length < limit ∧ resp.cursor = "") ∨
          next = cursor then
        return ()
      else if ← ctxDone then fail .canceled
      else continueAt next

/-- One goroutine of a sweep: page a filter batch through `[start, stop]`. -/
def sweepBatch (start stop : Nat) (filters : List Rpc.EventFilter) : Nat → String → M Unit
  | 0, _ => fail .stillRunning
  | n + 1, cursor => do
    let before ← readMemory
    match before.sweep.remaining with
    | some r =>
      if r ≤ 0 then updateMemory fun m => { m with sweep := { m.sweep with capHit := true } }
      else
        sweepPage ing fuel start stop filters cursor (min (ing.opts.pageLimit : Int) r).toNat
          (sweepBatch start stop filters n)
    | none =>
      sweepPage ing fuel start stop filters cursor ing.opts.pageLimit
        (sweepBatch start stop filters n)

/-- A goroutine of the sweep's errgroup: its error cancels the group's context. -/
def goroutine (f : M Unit) : P (Except Err Unit) :=
  Prog.bind f fun r => match r with
    | .ok _ => .ret (.ok ())
    | .error err =>
      (updateMemory fun m => { m with sweep := { m.sweep with canceled := true } }).bind fun _ =>
        .ret (.error err)

def firstError : List (Except Err Unit) → Option Err
  | [] => none
  | .error e :: _ => some e
  | .ok _ :: rest => firstError rest

def sweepAll (start stop : Nat) (batches : List (List Rpc.EventFilter)) : M (Option Err) := do
  updateMemory fun m => { m with sweep :=
    { start := start, stop := stop, remaining := newCycleBudget ing, capHit := false,
      ledgerOutOfRange := false, canceled := false } }
  let results ← Prog.interleave ing.opts.sweepConcurrency schedule fuel
    (batches.map fun filters => goroutine (sweepBatch ing fuel start stop filters fuel "")) []
  match results with
  | none => fail .stillRunning
  | some rs => return firstError rs

/-- The last ledger a completed window has ingested: the tip itself may still grow. -/
def lastIngestedOf (stop latestLedger : Nat) : Int :=
  if latestLedger ≤ stop then (stop : Int) - 1 else stop

def saveSweepState (latestLedger stop : Nat) : M Bool := do
  let lastIngested := lastIngestedOf stop latestLedger
  let now ← clockNow
  if ing.opts.dryRun then setDryRunPosition ing "" lastIngested
  else
    saveIngestionState
      { network := ing.opts.network, lastIngestedLedger := lastIngested, lastCursor := "",
        lastSuccessfulPoll := some now }
  return decide (latestLedger ≤ stop)

def windowSweep (start : Nat) (batches : List (List Rpc.EventFilter)) : M Bool := do
  let health ← wrapErr "getHealth for sweep window" getHealth
  if ← maybeHandleTipRegression ing fuel health.latestLedger then return true
  else if health.latestLedger < start then return true
  else
    let window ← effectiveSweepWindow ing
    let stop := min (u32 (start + window + 2 ^ 32 - 1)) health.latestLedger
    let failed ← sweepAll ing fuel start stop batches
    let sweep := (← readMemory).sweep
    match failed with
    | some err =>
      if sweep.ledgerOutOfRange ∨ isLedgerOutOfRange err then do
        reclampToOldest ing start []
        return false
      else fail err
    | none =>
      if sweep.capHit then return false
      else saveSweepState ing health.latestLedger stop

def saveAll (lastIngested : Int) : List WatchedContract → M Unit
  | [] => return ()
  | wc :: rest => do
    wrapErr ("saving cursor for contract " ++ wc.contractID) <|
      saveContractCursor
        { contractID := wc.contractID, lastIngestedLedger := lastIngested, lastCursor := "" }
    saveAll lastIngested rest

def windowSweepWatched (batches : List (List Rpc.EventFilter)) : M Bool := do
  let health ← wrapErr "getHealth for sweep window" getHealth
  if ← maybeHandleTipRegression ing fuel health.latestLedger then return true
  else
    let start ← earliestStartLedger ing
    if health.latestLedger < start then return true
    else
      let window ← effectiveSweepWindow ing
      let stop := min (u32 (start + window + 2 ^ 32 - 1)) health.latestLedger
      let failed ← sweepAll ing fuel start stop batches
      let sweep := (← readMemory).sweep
      match failed with
      | some err =>
        if sweep.ledgerOutOfRange ∨ isLedgerOutOfRange err then do
          let watched ← listWatchedContracts .sweepOutOfRange
          reclampToOldest ing start (watched.map fun wc => wc.contractID)
          saveIngestionState
            { network := ing.opts.network, lastIngestedLedger := (health.oldestLedger : Int) - 1,
              lastCursor := "", lastSuccessfulPoll := none }
          return false
        else fail err
      | none =>
        if sweep.capHit then return false
        else
          let watched ← listWatchedContracts .sweepComplete
          saveAll (lastIngestedOf stop health.latestLedger) watched
          saveSweepState ing health.latestLedger stop

/-! ## The cycle -/

def runOnceUnwatched : M Bool := do
  let (startLedger, cursor) ← resolvePosition ing
  let batches ← buildFilterBatches ing
  match batches with
  | [filters] => singlePage ing fuel startLedger cursor filters
  | _ => windowSweep ing fuel startLedger batches

def runOnceWatched : M Bool := do
  let batches ← buildFilterBatches ing
  match batches with
  | [filters] => singlePageWatched ing fuel filters
  | _ => windowSweepWatched ing fuel batches

def runOnce : M Bool := do
  let watched ← listWatchedContracts .runOnce
  if watched = [] then runOnceUnwatched ing fuel else runOnceWatched ing fuel

end SoroTrail.Ingest
