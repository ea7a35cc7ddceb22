import SoroTrail.Ingester.Types

/-!
# Reorg detection and repair

The tracker of recent ledger fingerprints, the range fetch that gap repair and
reorg reconciliation share, and the two ways a reorg is detected in a cycle.
`handleReorgRange` is the path of a caller that finds no other repair running.
Loops over pages take at most `fuel` turns.
-/

set_option autoImplicit false

namespace SoroTrail.Ingest

open Lib Rpc Store Fallible

/-! ## Tracker -/

namespace ReorgTracker

/-- The rollback range, when the reported tip lies below the highest ledger seen. -/
def checkTipRegression (t : ReorgTracker) (latestLedger : Nat) : Option (Nat × Nat) :=
  if latestLedger = 0 then none
  else if latestLedger < t.highestLedger then some (u32 (latestLedger + 1), t.highestLedger)
  else none

def prune (t : ReorgTracker) : ReorgTracker :=
  if t.window = 0 ∨ t.highestLedger ≤ t.window then t
  else
    { t with hashes := fun l => if l < t.highestLedger - t.window then none else t.hashes l }

/-- Record a ledger's fingerprint; `true` when another one was recorded before. -/
def recordLedgerHash (t : ReorgTracker) (ledger : Nat) (hash : String) : Bool × ReorgTracker :=
  if ledger = 0 ∨ hash = "" then (false, t)
  else
    let mismatch := match t.hashes ledger with
      | some prev => decide (prev ≠ hash)
      | none => false
    (mismatch,
      prune
        { t with
          hashes := fun l => if l = ledger then some hash else t.hashes l
          highestLedger := max t.highestLedger ledger })

def resetAbove (t : ReorgTracker) (maxLedger : Nat) : ReorgTracker :=
  { t with
    hashes := fun l => if maxLedger < l then none else t.hashes l
    highestLedger := min t.highestLedger maxLedger }

def evaluateDepth (t : ReorgTracker) (fromLedger toLedger frontier : Nat) : Nat × Bool :=
  let depth := if fromLedger ≤ toLedger then u32 (toLedger - fromLedger + 1) else 1
  let depth := if u32 (toLedger + 1) < frontier ∧ fromLedger < frontier then
      max depth (frontier - fromLedger) else depth
  let depth := if u32 (toLedger + 1) < t.highestLedger ∧ fromLedger < t.highestLedger then
      max depth (t.highestLedger - fromLedger) else depth
  (depth, decide (0 < t.window ∧ t.window < depth))

end ReorgTracker

variable (ing : Ingester) (fuel : Nat)

def fingerprintText (ledger : Nat) (events : List Store.Event) : String :=
  let matching := (events.filter fun ev => decide (u32OfInt ev.ledger = ledger)).insertionSort
    fun x y => x.id ≤ y.id
  matching.foldl
    (fun acc ev =>
      acc ++ "id:" ++ ev.id ++ "|c:" ++ ev.contractID ++ "|tx:" ++ ev.txHash ++ "|txi:" ++
        toString ev.txIndex ++ "|opi:" ++ toString ev.opIndex ++ "|t:" ++ ev.type ++ "|ok:" ++
        toString ev.inSuccessfulCall ++ "|top:" ++ ev.topics ++ "|val:" ++ ev.value ++ ";")
    ("ledger:" ++ toString ledger ++ ";count:" ++ toString matching.length ++ ";")

def computeLedgerFingerprint (ledger : Nat) (events : List Store.Event) : String :=
  ing.codec.sha256Hex (fingerprintText ledger events)

def trackLedger (ledger : Nat) (events : List Store.Event) : P Bool := do
  let fp := computeLedgerFingerprint ing ledger
    (events.filter fun ev => decide (0 < ev.ledger ∧ u32OfInt ev.ledger = ledger))
  let before ← Prog.request (Act.memory fun m =>
    { m with tracker := (m.tracker.recordLedgerHash ledger fp).2 })
  return (before.tracker.recordLedgerHash ledger fp).1

/-! ## Fetching a range -/

def rangeText (fromLedger toLedger : Nat) : String :=
  "[" ++ toString fromLedger ++ "," ++ toString toLedger ++ "]"

def rangeRequest (fromLedger toLedger : Nat) (batch : List Rpc.EventFilter) (cursor : String) :
    GetEventsRequest :=
  { startLedger := fromLedger, endLedger := u32 (toLedger + 1), filters := batch,
    cursor := cursor, limit := ing.opts.pageLimit, xdrFormat := "" }

/-- The pages of one filter batch over `[fromLedger, toLedger]`.  `none` says that the range
has left the retention window and the caller asked to be told so. -/
def collectPages (fromLedger toLedger : Nat) (batch : List Rpc.EventFilter) (allowOutOfRange : Bool) :
    Nat → String → List Rpc.Event → M (Option (List Rpc.Event))
  | 0, _, _ => fail .stillRunning
  | n + 1, cursor, collected => do
    match ← attempt (getEvents .collectBatchEventsInRange
        (rangeRequest ing fromLedger toLedger batch cursor)) with
    | .error err =>
      if isLedgerOutOfRange err then
        if allowOutOfRange then return none
        else
          fail (.wrap ("HandleReorgRange getEvents " ++
            rangeText fromLedger toLedger) err)
      else
        fail (.wrap ("ReingestRange getEvents " ++ rangeText fromLedger toLedger) err)
    | .ok resp =>
      let collected := collected ++ resp.events.filter fun e => decide (e.ledger ≤ toLedger)
      match resp.events.getLast? with
      | none => return some collected
      | some last =>
        let next := if resp.cursor ≠ "" then resp.cursor else last.cursorValue
        if (resp.events.length < ing.opts.pageLimit ∧ resp.cursor = "") ∨
            toLedger < last.ledger ∨ next = cursor then
          return some collected
        else collectPages fromLedger toLedger batch allowOutOfRange n next collected

/-- The rows of the collected events: skipped contracts are left out, the first event that
does not decode ends the call, and each row carries the ingester's network. -/
def collectedRows : List Rpc.Event → Except Err (List Store.Event)
  | [] => .ok []
  | re :: rest =>
    if isSkipped ing re.contractID then collectedRows rest
    else
      match toStoreEvent ing re with
      | .error err => .error err
      | .ok ev =>
        match collectedRows rest with
        | .error err => .error err
        | .ok evs => .ok ({ ev with network := ing.opts.network } :: evs)

def collectBatchEventsInRange (fromLedger toLedger : Nat) (batch : List Rpc.EventFilter)
    (allowOutOfRange : Bool) : M (Option (List Store.Event)) := do
  match ← collectPages ing fromLedger toLedger batch allowOutOfRange fuel "" [] with
  | none => return none
  | some collected => do
    let rows ← ofExcept (collectedRows ing collected)
    return some rows

/-- Collect every batch; `none` as soon as one is out of range. -/
def collectBatches (fromLedger toLedger : Nat) (allowOutOfRange : Bool) :
    List (List Rpc.EventFilter) → M (Option (List Store.Event))
  | [] => return some []
  | batch :: rest => do
    match ← collectBatchEventsInRange ing fuel fromLedger toLedger batch allowOutOfRange with
    | none => return none
    | some rows =>
      match ← collectBatches fromLedger toLedger allowOutOfRange rest with
      | none => return none
      | some more => return some (rows ++ more)

def indexEventAddresses (events : List Store.Event) : M Unit := do
  if ing.opts.dryRun ∨ events = [] then return ()
  else
    let refs := events.flatMap ing.codec.appendAddresses
    if refs = [] then return () else upsertAddressRefs refs

def indexBestEffort (events : List Store.Event) : M Unit := do
  let _ ← attempt (indexEventAddresses ing events)
  return ()

/-! ## Repair -/

def errReorgDepthExceeded : Err := .other "reorg depth exceeds configured confirmation window"

def errReorgTouchesArchivedRange : Err := .other "reorg touches archived immutable ledger range"

def archivedErr (what : String) (fromLedger toLedger archivedThrough : Nat) : Err :=
  .suffix errReorgTouchesArchivedRange (": " ++ what ++ " range " ++ rangeText fromLedger toLedger ++
    " intersects archived ledgers (archived through " ++ toString archivedThrough ++ ")")

def trackRange (events : List Store.Event) : Nat → Nat → P Unit
  | _, 0 => return ()
  | first, n + 1 => do
    let _ ← trackLedger ing first events
    trackRange events (first + 1) n

def executeReorgPass (fromLedger toLedger newHeadLedger : Nat) : M Unit := do
  let filters ← buildFilterBatches ing
  match ← collectBatches ing fuel fromLedger toLedger false filters with
  | none => return ()
  | some collected =>
    let all := removeDuplicateEvents collected
    let all := if 0 < newHeadLedger ∧ newHeadLedger < toLedger then
        all.filter fun ev => decide (u32OfInt ev.ledger ≤ newHeadLedger)
      else all
    if ing.opts.dryRun then return ()
    else
      wrapErr ("ReplaceEventsInRange " ++ rangeText fromLedger toLedger) <|
        reconcileReorgRange
          { network := ing.opts.network
            fromLedger := fromLedger
            toLedger := toLedger
            canonicalEvents := all
            canonicalAddressRefs := all.flatMap ing.codec.appendAddresses
            newHeadLedger := newHeadLedger
            rewindCursorsToFromLedger := false }
      let shortened := 0 < newHeadLedger ∧ newHeadLedger < toLedger
      if shortened then
        updateMemory fun m => { m with tracker := m.tracker.resetAbove newHeadLedger }
      let maxTrack := if shortened then newHeadLedger else toLedger
      trackRange ing all fromLedger (maxTrack + 1 - fromLedger)

def handleReorgRange (fromLedger toLedger newHeadLedger : Nat) : M Unit := do
  if fromLedger = 0 ∨ toLedger = 0 ∨ toLedger < fromLedger then
    fail (.other ("HandleReorgRange: invalid range " ++ rangeText fromLedger toLedger))
  else
    let archivedThrough ← resolveArchivedBoundary
    if 0 < archivedThrough ∧ fromLedger ≤ archivedThrough then
      fail (archivedErr "reorg" fromLedger toLedger archivedThrough)
    else
      let stored := match ← attempt getIngestionState with
        | .ok st => if 0 < st.lastIngestedLedger then u32OfInt st.lastIngestedLedger else 0
        | .error _ => 0
      let m ← readMemory
      let frontier := max stored toLedger
      let (depth, exceeded) := m.tracker.evaluateDepth fromLedger toLedger frontier
      if exceeded then
        fail (.suffix errReorgDepthExceeded (": reorg depth " ++ toString depth ++
          " (range " ++ rangeText fromLedger toLedger ++ " at frontier " ++ toString frontier ++
          ") exceeds confirmation window " ++ toString m.tracker.window))
      else executeReorgPass ing fuel fromLedger toLedger newHeadLedger

def maybeHandleTipRegression (latestLedger : Nat) : M Bool := do
  if ing.opts.dryRun ∨ ing.opts.reorgConfirmationWindow = 0 ∨ latestLedger = 0 then return false
  else
    let m ← readMemory
    let seen := m.tracker.checkTipRegression latestLedger
    let range := match ← attempt getIngestionState with
      | .ok st =>
        if (latestLedger : Int) < st.lastIngestedLedger then
          match seen with
          | none => some (u32 (latestLedger + 1), u32OfInt st.lastIngestedLedger)
          | some (from', to') => some (from', max to' (u32OfInt st.lastIngestedLedger))
        else seen
      | .error _ => seen
    match range with
    | none => return false
    | some (from', to') =>
      warn (.tipRegression from' to' latestLedger)
      handleReorgRange ing fuel from' to' latestLedger
      return true

/-- Record the fingerprints of the given ledgers and return the diverged range. -/
def trackLedgers (events : List Store.Event) : List Nat → Nat × Nat → P (Nat × Nat)
  | [], range => return range
  | l :: ls, range => do
    let mismatch ← trackLedger ing l events
    let range := if mismatch then
        (if range.1 = 0 ∨ l < range.1 then l else range.1, max range.2 l)
      else range
    trackLedgers events ls range

def seenLedgers (events : List Store.Event) : List Nat :=
  ((events.filter fun ev => decide (0 < ev.ledger)).map fun ev => u32OfInt ev.ledger).dedup.insertionSort
    (· ≤ ·)

def recordIngestedLedgerFingerprints (events : List Store.Event) (latestLedger : Nat)
    (checkDivergence : Bool) : M Unit := do
  if events = [] then return ()
  else
    let (divergedFrom, divergedTo) ← trackLedgers ing events (seenLedgers events) (0, 0)
    if checkDivergence ∧ 0 < divergedFrom ∧ 0 < ing.opts.reorgConfirmationWindow ∧
        ing.opts.dryRun = false then
      let m ← readMemory
      let to' := max divergedTo m.tracker.highestLedger
      warn (.fingerprintDivergence divergedFrom to' latestLedger)
      handleReorgRange ing fuel divergedFrom to' latestLedger
    else return ()

/-! ## Gap repair -/

/-- `ReingestRange`; the answer is the number of events the RPC reported. -/
def reingestRange (fromLedger toLedger : Nat) : M Nat := do
  if toLedger < fromLedger then
    fail (.other ("ReingestRange: from " ++ toString fromLedger ++ " > " ++
      toString toLedger))
  else
    let archivedThrough ← resolveArchivedBoundary
    if 0 < archivedThrough ∧ fromLedger ≤ archivedThrough then
      fail (archivedErr "reingest" fromLedger toLedger archivedThrough)
    else
      let filters ← buildFilterBatches ing
      match ← collectBatches ing fuel fromLedger toLedger true filters with
      | none => return 0
      | some collected =>
        let all := removeDuplicateEvents collected
        if ing.opts.dryRun then return all.length
        else
          wrapErr ("ReplaceEventsInRange " ++ rangeText fromLedger toLedger) <|
            replaceEventsInRange all fromLedger toLedger
          indexBestEffort ing all
          return all.length

def rescanForReorg : M Unit := do
  if ing.opts.dryRun then return ()
  else
    let last ← match ← attempt getIngestionState with
      | .ok st => (pure st.lastIngestedLedger : M Int)
      | .error err =>
        if err.is .notFound then (pure 0 : M Int)
        else fail (.wrap "loading ingestion state for reorg rescan" err)
    if last ≤ 0 then return ()
    else
      let frontier := u32OfInt last
      if frontier ≤ ing.opts.reorgConfirmationWindow then return ()
      else
        let to' := frontier - 1
        let from' := to' - ing.opts.reorgConfirmationWindow + 1
        let _ ← wrapErr ("ReingestRange " ++ rangeText from' to') <|
          reingestRange ing fuel from' to'
        return ()

end SoroTrail.Ingest
