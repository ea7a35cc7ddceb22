import SoroTrail.Backfill.Pages
import SoroTrail.Lib.Steps

/-!
# Runs of the backfill

`Run` over the progress row and the events table, serially or with a pool of workers
that share the sub-ranges of the process.  A request to Horizon, a statement on the
store and a critical section are one step each; every one of them may fail, a failed
sub-range may be retried, and the process may stop between any two steps.
-/

set_option autoImplicit false

namespace SoroTrail.Backfill

open Lib Store

/-! ## Progress -/

inductive RangeStatus where
  | pending
  | inFlight
  | completed
  | failed
  deriving DecidableEq, Repr

structure BackfillRange where
  fromLedger : Int
  toLedger : Int
  lastLedger : Int
  status : RangeStatus
  deriving DecidableEq, Repr

def BackfillRange.resumeStartLedger (r : BackfillRange) : Int :=
  if r.lastLedger ≥ r.fromLedger then r.lastLedger + 1 else r.fromLedger

structure BackfillState where
  contractID : String
  fromLedger : Int
  toLedger : Int
  lastLedger : Int
  completed : Bool
  ranges : List BackfillRange
  deriving DecidableEq, Repr

def contiguousWatermark (expectedStart watermark : Int) : List BackfillRange → Int
  | [] => watermark
  | r :: rest =>
    if r.fromLedger > expectedStart then watermark
    else if r.status = .completed then
      contiguousWatermark (r.toLedger + 1) (max watermark r.toLedger) rest
    else if r.lastLedger ≥ r.fromLedger ∧ r.lastLedger > watermark then r.lastLedger
    else watermark

def startBackfillState (o : Options) : BackfillState :=
  ⟨o.contractID, o.fromLedger, o.toLedger, 0, false, []⟩

def saveBackfillRanges (ranges : List BackfillRange) (s : BackfillState) : BackfillState :=
  let fromLedger := match ranges with
    | [] => 0
    | r :: _ => r.fromLedger
  { s with
    ranges := ranges
    lastLedger := max s.lastLedger (contiguousWatermark fromLedger 0 ranges) }

def updateBackfillState (lastLedger : Int) (s : BackfillState) : BackfillState :=
  if lastLedger ≤ 0 then s else { s with lastLedger := max s.lastLedger lastLedger }

def completeBackfillState (s : BackfillState) : BackfillState := { s with completed := true }

/-- The loop of `SplitLedgerRanges`; it turns once for each ledger at most. -/
def splitFrom (step toLedger : Int) : Nat → Int → List BackfillRange
  | 0, _ => []
  | fuel + 1, cur =>
    if cur ≤ toLedger then
      ⟨cur, if cur + step - 1 > toLedger then toLedger else cur + step - 1, 0, .pending⟩ ::
        splitFrom step toLedger fuel (cur + step)
    else []

def splitLedgerRanges (fromLedger toLedger rangeSize : Int) (workers : Nat) : List BackfillRange :=
  if toLedger ≤ 0 ∨ toLedger ≤ fromLedger ∨ (workers ≤ 1 ∧ rangeSize ≤ 0) then
    [⟨fromLedger, toLedger, 0, .pending⟩]
  else
    let totalLedgers := toLedger - fromLedger + 1
    let step :=
      if rangeSize ≤ 0 then
        let w : Int := if workers > totalLedgers then totalLedgers else workers
        (totalLedgers + w - 1) / w
      else rangeSize
    let step := if step ≤ 0 then 1 else step
    splitFrom step toLedger totalLedgers.toNat fromLedger

/-! ## Processes -/

/-- A worker on its sub-range.  `page` is the page that was fetched last and `snapshot` the copy
of the ranges it is about to save. -/
inductive Worker where
  | waiting
  | pending
  | fetching (start : Int) (cursor : String)
  | upserting (start : Int) (page : List Transaction)
  | advancing (start : Int) (page : List Transaction)
  | updating (start : Int) (page : List Transaction) (snapshot : List BackfillRange)
  | persisting (start : Int) (page : List Transaction) (snapshot : List BackfillRange)
  | completing
  | sealing (snapshot : List BackfillRange)
  | erring
  | noting (snapshot : List BackfillRange)
  | done
  deriving DecidableEq, Repr

inductive Serial where
  | fetching (cursor : String)
  /-- `next` is the cursor of the next page, if there is one. -/
  | upserting (events : List Event) (lastLedger : Int) (next : Option String)
  | saving (lastLedger : Int) (next : Option String)
  deriving DecidableEq, Repr

inductive Run where
  | idle
  | starting
  | splitting (ranges : List BackfillRange)
  | serial (start through : Int) (phase : Serial)
  | working (ranges : List BackfillRange) (workers : List Worker) (failedRanges : Nat)
  | closing (ranges : List BackfillRange) (failedRanges : Nat)
  /-- `markTerminal` of a complete run. -/
  | completing
  deriving DecidableEq, Repr

structure Summary where
  completed : Bool
  failedRanges : Nat
  deriving DecidableEq, Repr

structure State where
  events : Table Event (eventKey .postgres)
  saved : Option BackfillState
  run : Run
  report : Option Summary

def State.init (events : Table Event (eventKey .postgres)) : State := ⟨events, none, .idle, none⟩

/-! ## Steps of the main routine -/

def Options.ranged (o : Options) : Bool :=
  decide (o.workers > 1 ∨ o.rangeSize > 0 ∨ o.maxRetries > 0)

/-- The saved row is of an unfinished run with these parameters. -/
def BackfillState.resumes (o : Options) (s : BackfillState) : Bool :=
  !s.completed && decide (s.contractID = o.contractID ∧ s.fromLedger = o.fromLedger ∧
    s.toLedger = o.toLedger)

def State.goto (s : State) (run : Run) : State := { s with run := run }

def State.finish (s : State) (completed : Bool) (failedRanges : Nat) : State :=
  { s with run := .idle, report := some ⟨completed, failedRanges⟩ }

def initialWorkers (ranges : List BackfillRange) : List Worker :=
  ranges.map fun r => if r.status = .completed then .done else .waiting

def resumedRanges (ranges : List BackfillRange) : List BackfillRange :=
  ranges.map fun r => if r.status ≠ .completed then { r with status := .pending } else r

variable (b : Backfiller)

def resumeLedger (o : Options) (s : BackfillState) : Int :=
  if s.lastLedger + 1 < o.fromLedger then o.fromLedger else s.lastLedger + 1

def begin (s : State) : State :=
  let o := b.opts
  if o.contractID = "" ∨ o.fromLedger ≤ 0 then s.finish false 0
  else match s.saved with
  | none => s.goto .starting
  | some st =>
    if st.resumes o then
      if st.ranges ≠ [] then
        s.goto (.working (resumedRanges st.ranges) (initialWorkers (resumedRanges st.ranges)) 0)
      else if o.ranged then
        s.goto (.splitting (splitLedgerRanges (resumeLedger o st) o.toLedger o.rangeSize o.workers))
      else s.goto (.serial (resumeLedger o st) 0 (.fetching ""))
    else s.goto .starting

def started (s : State) : State :=
  let o := b.opts
  let s := { s with saved := some (startBackfillState o) }
  if o.ranged then s.goto (.splitting (splitLedgerRanges o.fromLedger o.toLedger o.rangeSize o.workers))
  else s.goto (.serial o.fromLedger 0 (.fetching ""))

def continueSerial (s : State) (start through : Int) : Option String → State
  | none => s.goto .completing
  | some cursor => s.goto (.serial start through (.fetching cursor))

def nextCursor (page : List Transaction) : String :=
  match page.getLast? with
  | some tx => tx.cursor
  | none => ""

def serialPage (s : State) (start through : Int) (page : List Transaction) : State :=
  let o := b.opts
  if page = [] then s.goto .completing
  else
    let out := b.extractPage page start
    let through := if out.last > through then out.last else through
    if o.toLedger > 0 ∧ out.last > o.toLedger then
      if out.events ≠ [] then s.goto (.serial start through (.upserting out.events through none))
      else s.goto .completing
    else
      let next := if page.length < o.batchSize then none else some (nextCursor page)
      if out.events ≠ [] then s.goto (.serial start through (.upserting out.events out.last next))
      else continueSerial s start through next

def State.upsert (s : State) (events : List Event) : State :=
  { s with events := s.events.insertAll (events.map (liveRow .postgres)) }

def State.save (s : State) (f : BackfillState → BackfillState) : State :=
  { s with saved := s.saved.map f }

def serialStep (s : State) (start through : Int) : Serial → State
  | .fetching cursor =>
    serialPage b s start through (listContractTransactions b.history cursor b.opts.batchSize)
  | .upserting events lastLedger next =>
    (s.upsert events).goto (.serial start through (.saving lastLedger next))
  | .saving lastLedger next =>
    continueSerial (s.save (updateBackfillState lastLedger)) start through next

/-! ## Steps of the workers -/

inductive Choice where
  | ok
  | fail
  | retry
  | giveUp
  deriving DecidableEq, Repr

def afterPage (start : Int) (page : List Transaction) (out : PageState) : Worker :=
  if out.reachedPastEnd ∨ page.length < b.opts.batchSize then .completing
  else .fetching start (nextCursor page)

def BackfillRange.advance (r : BackfillRange) (last : Int) : BackfillRange :=
  if last > r.lastLedger then { r with lastLedger := last } else r

def BackfillRange.complete (r : BackfillRange) : BackfillRange :=
  { r with
    status := .completed
    lastLedger := if r.toLedger > r.lastLedger then r.toLedger else r.lastLedger }

/-- What a worker does next: its new phase, its range, and the rest of the state. -/
def workerStep (s : State) (ranges : List BackfillRange) (r : BackfillRange) (i : Nat) :
    Worker → Choice → Option (Worker × BackfillRange × Nat × State)
  | .pending, .ok =>
    let start := r.resumeStartLedger
    let next := if r.toLedger > 0 ∧ start > r.toLedger then .completing else .fetching start ""
    some (next, { r with status := .inFlight }, 0, s)
  | .fetching start cursor, .ok =>
    let page := listContractTransactions b.history cursor b.opts.batchSize
    let next :=
      if page = [] then .completing
      else if (b.extractSubRangePage page start r.toLedger).events ≠ [] then .upserting start page
      else .advancing start page
    some (next, r, 0, s)
  | .upserting start page, .ok =>
    some (.advancing start page, r, 0,
      s.upsert (b.extractSubRangePage page start r.toLedger).events)
  | .advancing start page, .ok =>
    let out := b.extractSubRangePage page start r.toLedger
    let r := r.advance out.last
    let next :=
      if out.events ≠ [] then .updating start page (ranges.set i r) else afterPage b start page out
    some (next, r, 0, s)
  | .updating start page snapshot, .ok =>
    some (.persisting start page snapshot, r, 0,
      s.save (updateBackfillState (b.extractSubRangePage page start r.toLedger).last))
  | .persisting start page snapshot, .ok =>
    some (afterPage b start page (b.extractSubRangePage page start r.toLedger), r, 0,
      s.save (saveBackfillRanges snapshot))
  | .completing, .ok => some (.sealing (ranges.set i r.complete), r.complete, 0, s)
  | .sealing snapshot, .ok => some (.done, r, 0, s.save (saveBackfillRanges snapshot))
  | .fetching .., .fail | .upserting .., .fail | .updating .., .fail | .persisting .., .fail
  | .sealing _, .fail => some (.erring, r, 0, s)
  | .erring, .retry => some (.pending, r, 0, s)
  | .erring, .giveUp =>
    let r := { r with status := .failed }
    some (.noting (ranges.set i r), r, 1, s)
  | .noting snapshot, .ok => some (.done, r, 0, s.save (saveBackfillRanges snapshot))
  | .noting _, .fail => some (.done, r, 0, s)
  | _, _ => none

def Worker.active (w : Worker) : Bool := decide (w ≠ .waiting ∧ w ≠ .done)

/-- The pool takes the sub-ranges in order, as many at a time as it has workers. -/
def mayStart (o : Options) (workers : List Worker) (i : Nat) : Bool :=
  decide (.waiting ∉ workers.take i) && decide (workers.countP Worker.active < o.workers)

def stepWorker (s : State) (ranges : List BackfillRange) (workers : List Worker) (failedRanges i : Nat)
    (choice : Choice) : Option State :=
  match workers[i]?, ranges[i]? with
  | some .waiting, some _ =>
    if choice = .ok ∧ mayStart b.opts workers i then
      some (s.goto (.working ranges (workers.set i .pending) failedRanges))
    else none
  | some w, some r =>
    match workerStep b s ranges r i w choice with
    | some (w', r', failures, s') =>
      some (s'.goto (.working (ranges.set i r') (workers.set i w') (failedRanges + failures)))
    | none => none
  | _, _ => none

inductive Move where
  | begin (ok : Bool)
  | main (ok : Bool)
  | worker (i : Nat) (choice : Choice)
  | stop
  deriving DecidableEq, Repr

def mainStep (s : State) : Run → Bool → Option State
  | .starting, true => some (started b s)
  | .splitting ranges, true =>
    some ((s.save (saveBackfillRanges ranges)).goto (.working ranges (initialWorkers ranges) 0))
  | .serial start through phase, true => some (serialStep b s start through phase)
  | .working ranges workers failedRanges, _ =>
    if workers.all fun w => decide (w = .done) then some (s.goto (.closing ranges failedRanges)) else none
  | .closing ranges failedRanges, ok =>
    let s := if ok then s.save (saveBackfillRanges ranges) else s
    if failedRanges > 0 then some (s.finish false failedRanges)
    else if ranges.all fun r => decide (r.status = .completed) then some (s.goto .completing)
    else some (s.finish false 0)
  -- the summary says completed even when the last statement fails
  | .completing, true => some ((s.save completeBackfillState).finish true 0)
  | .completing, false => some (s.finish true 0)
  | .starting, false | .splitting _, false | .serial .., false => some (s.finish false 0)
  | .idle, _ => none

def step (s : State) : Move → Option State
  | .begin ok =>
    match s.run with
    | .idle => if ok then some (begin b s) else some (s.finish false 0)
    | _ => none
  | .main ok => mainStep b s s.run ok
  | .worker i choice =>
    match s.run with
    | .working ranges workers failedRanges => stepWorker b s ranges workers failedRanges i choice
    | _ => none
  | .stop =>
    match s.run with
    | .idle => none
    | _ => some { s with run := .idle, report := none }

inductive Effect (s : State) : Move → State → Prop
  | begin (hphase : s.run = .idle) : Effect s (.begin true) (begin b s)
  | fail {m : Move} : Effect s m (s.finish false 0)
  | started (hphase : s.run = .starting) : Effect s (.main true) (started b s)
  | split {ranges : List BackfillRange} (hphase : s.run = .splitting ranges) :
      Effect s (.main true)
        ((s.save (saveBackfillRanges ranges)).goto (.working ranges (initialWorkers ranges) 0))
  | serial {start through : Int} {phase : Serial} (hphase : s.run = .serial start through phase) :
      Effect s (.main true) (serialStep b s start through phase)
  | joined {ok : Bool} {ranges : List BackfillRange} {workers : List Worker} {failedRanges : Nat}
      (hphase : s.run = .working ranges workers failedRanges) :
      Effect s (.main ok) (s.goto (.closing ranges failedRanges))
  | unfinished {ok : Bool} {ranges : List BackfillRange} {failedRanges : Nat}
      (hphase : s.run = .closing ranges failedRanges) (n : Nat) :
      Effect s (.main ok) ((if ok then s.save (saveBackfillRanges ranges) else s).finish false n)
  | whole {ok : Bool} {ranges : List BackfillRange} {failedRanges : Nat}
      (hphase : s.run = .closing ranges failedRanges) (hall : ∀ r ∈ ranges, r.status = .completed) :
      Effect s (.main ok) ((if ok then s.save (saveBackfillRanges ranges) else s).goto .completing)
  | completed {ok : Bool} (hphase : s.run = .completing) :
      Effect s (.main ok) ((if ok then s.save completeBackfillState else s).finish true 0)
  | takeUp {ranges : List BackfillRange} {workers : List Worker} {failedRanges i : Nat}
      (hphase : s.run = .working ranges workers failedRanges) (hw : workers[i]? = some .waiting) :
      Effect s (.worker i .ok) (s.goto (.working ranges (workers.set i .pending) failedRanges))
  | worker {ranges : List BackfillRange} {workers : List Worker} {failedRanges failures i : Nat}
      {choice : Choice} {w w' : Worker} {r r' : BackfillRange} {u : State}
      (hphase : s.run = .working ranges workers failedRanges) (hw : workers[i]? = some w)
      (hr : ranges[i]? = some r) (h : workerStep b s ranges r i w choice = some (w', r', failures, u)) :
      Effect s (.worker i choice)
        (u.goto (.working (ranges.set i r') (workers.set i w') (failedRanges + failures)))
  | stop : Effect s .stop { s with run := .idle, report := none }

theorem mainStep_effect {s s' : State} {ok : Bool} (h : mainStep b s s.run ok = some s') :
    Effect b s (.main ok) s' := by
  cases hphase : s.run <;> cases ok <;>
    simp only [hphase, mainStep, Option.some.injEq, reduceCtorEq] at h
  case starting.true => exact h ▸ .started hphase
  case splitting.true => exact h ▸ .split hphase
  case serial.true => exact h ▸ .serial hphase
  case working.false | working.true =>
    obtain ⟨-, h⟩ := Option.ite_none_right_eq_some.mp h
    exact Option.some.inj h ▸ .joined hphase
  case closing.false | closing.true =>
    split at h
    · exact Option.some.inj h ▸ .unfinished hphase _
    · split at h
      · rename_i hall
        exact Option.some.inj h ▸ .whole hphase fun r hr => by simpa using List.all_eq_true.mp hall r hr
      · exact Option.some.inj h ▸ .unfinished hphase 0
  case completing.false | completing.true => exact h ▸ .completed hphase
  all_goals exact h ▸ .fail

theorem step_effect {s s' : State} {m : Move} (h : step b s m = some s') : Effect b s m s' := by
  cases m with simp only [step] at h
  | begin ok =>
    split at h
    · rename_i hphase
      cases ok with
      | false => exact Option.some.inj h ▸ .fail
      | true => exact Option.some.inj h ▸ .begin hphase
    · cases h
  | main ok => exact mainStep_effect b h
  | worker i choice =>
    split at h
    · rename_i ranges workers failedRanges hphase
      simp only [stepWorker] at h
      split at h
      · rename_i hw _
        obtain ⟨⟨rfl, -⟩, hnext⟩ := Option.ite_none_right_eq_some.mp h
        exact Option.some.inj hnext ▸ .takeUp hphase hw
      · rename_i w r _ hw hr
        split at h
        · rename_i hnext
          exact Option.some.inj h ▸ .worker hphase hw hr hnext
        · cases h
      · cases h
    · cases h
  | stop =>
    split at h
    · cases h
    · exact Option.some.inj h ▸ .stop

end SoroTrail.Backfill
