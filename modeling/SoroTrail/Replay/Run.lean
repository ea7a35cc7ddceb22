import SoroTrail.Ingester.Types
import SoroTrail.Lib.Json
import SoroTrail.Lib.Steps

/-!
# Decoder replay

`Run` re-decodes the stored raw XDR of a ledger range, batch by batch in the order of
the ids, and writes the rows whose decoding differs from the stored columns together
with the progress row.  Reading a batch and committing one are one step each; every
step may fail, a run may be cancelled and the process may stop between any two.
-/

set_option autoImplicit false

namespace SoroTrail.Replay

open Lib Store Json

/-- What Postgres gives back for a document that was written to a jsonb column. -/
structure Jsonb where
  store : String → String
  parse_store : ∀ text, parse (store text) = parse text

structure Replayer where
  ing : Ingest.Ingester
  jsonb : Jsonb
  fromLedger : Int
  toLedger : Int

def defaultBatchSize : Int := 500

def maxLedger : Int := 2 ^ 40

structure Args where
  batchSize : Int
  restart : Bool
  dryRun : Bool
  deriving DecidableEq, Repr

def Args.batch (a : Args) : Nat :=
  (if a.batchSize ≤ 0 then defaultBatchSize else a.batchSize).toNat

def Replayer.upper (r : Replayer) : Int := if r.toLedger ≤ 0 then maxLedger else r.toLedger

def Replayer.inRange (r : Replayer) (e : Event) : Bool :=
  decide (r.fromLedger ≤ e.ledger ∧ e.ledger ≤ r.upper)

/-! ## Decoding -/

def hasRawXDR (e : Event) : Bool := decide (e.rawTopicXDR ≠ [] ∨ e.rawValueXDR ≠ "")

def rawEvent (e : Event) : Rpc.Event where
  id := e.id
  pagingToken := ""
  type := ""
  ledger := 0
  ledgerClosedAt := ""
  contractID := ""
  txHash := ""
  transactionIndex := 0
  operationIndex := 0
  inSuccessfulContractCall := false
  topic := e.rawTopicXDR
  value := e.rawValueXDR
  topicJSON := none
  valueJSON := none

def Replayer.decode (r : Replayer) (e : Event) : Except Rpc.Err (String × String) :=
  Ingest.eventTopicsValue r.ing (rawEvent e)

def jsonEqual (a b : String) : Bool :=
  if a = "" ∨ b = "" then decide (a.length = b.length)
  else
    match unmarshal a, unmarshal b with
    | some x, some y => decide (x = y)
    | _, _ => false

structure EventDecoding where
  id : String
  topics : String
  value : String
  deriving DecidableEq, Repr

structure Summary where
  processed : Nat
  changed : Nat
  skipped : Nat
  failed : Nat
  completed : Bool
  resumed : Bool
  deriving DecidableEq, Repr

def Summary.zero : Summary := ⟨0, 0, 0, 0, false, false⟩

/-- One turn of the loop of `decodeBatch`. -/
def Replayer.decodeRow (r : Replayer) (acc : List EventDecoding × Summary) (e : Event) :
    List EventDecoding × Summary :=
  let sum := { acc.2 with processed := acc.2.processed + 1 }
  if !hasRawXDR e then (acc.1, { sum with skipped := sum.skipped + 1 })
  else
    match r.decode e with
    | .error _ => (acc.1, { sum with failed := sum.failed + 1 })
    | .ok (topics, value) =>
      if jsonEqual topics e.topics && jsonEqual value e.value then (acc.1, sum)
      else (acc.1 ++ [⟨e.id, topics, value⟩], { sum with changed := sum.changed + 1 })

def Replayer.decodeBatch (r : Replayer) (events : List Event) (sum : Summary) :
    List EventDecoding × Summary :=
  events.foldl r.decodeRow ([], sum)

/-! ## The store -/

structure ReplayState where
  fromLedger : Int
  toLedger : Int
  lastEventID : String
  processed : Nat
  changed : Nat
  skipped : Nat
  completed : Bool
  deriving DecidableEq, Repr

def Replayer.startReplayState (r : Replayer) : ReplayState :=
  ⟨r.fromLedger, r.upper, "", 0, 0, 0, false⟩

/-- `NextReplayBatch` may answer with the first rows of `all`: it orders by the id alone. -/
def Replayer.admits (r : Replayer) (rows : List Event) (afterID : String) (all : List Event) : Bool :=
  decide (all.Perm (rows.filter fun e => r.inRange e && decide (afterID < e.id))) &&
    decide (all.Pairwise fun x y => x.id ≤ y.id)

/-- `UPDATE … FROM data WHERE events.id = data.id`; of several matches Postgres takes one. -/
def Replayer.rewriteRow (r : Replayer) (data : List EventDecoding) (pick : Event → Nat) (e : Event) :
    Event :=
  let found := data.filter fun d => decide (d.id = e.id)
  match found[pick e % found.length]? with
  | none => e
  | some d => { e with topics := r.jsonb.store d.topics, value := r.jsonb.store d.value }

theorem eventKey_rewriteRow (r : Replayer) (data : List EventDecoding) (pick : Event → Nat) (e : Event) :
    eventKey .postgres (r.rewriteRow data pick e) = eventKey .postgres e := by
  simp only [Replayer.rewriteRow]
  split <;> rfl

def storable (data : List EventDecoding) : Bool :=
  data.all fun d => (parse d.topics).isSome && (parse d.value).isSome

def ReplayState.advance (st : ReplayState) (cursor : String) (sum : Summary) (done : Bool) : ReplayState :=
  { st with
    lastEventID := cursor
    processed := st.processed + sum.processed
    changed := st.changed + sum.changed
    skipped := st.skipped + sum.skipped
    completed := st.completed || done }

/-! ## Runs -/

inductive Phase where
  | idle
  | fetching (a : Args) (cursor : String) (sum : Summary)
  | committing (a : Args) (rewrites : List EventDecoding) (cursor : String) (sum : Summary)
  | sealing (a : Args) (cursor : String) (sum : Summary)
  deriving DecidableEq, Repr

/-- What a run has returned: its summary, and whether it did so without an error. -/
structure Report where
  args : Args
  sum : Summary
  ok : Bool
  deriving DecidableEq, Repr

structure State where
  events : Table Event (eventKey .postgres)
  saved : Option ReplayState
  phase : Phase
  report : Option Report

def State.init (events : Table Event (eventKey .postgres)) (saved : Option ReplayState) : State :=
  ⟨events, saved, .idle, none⟩

def State.rows (s : State) : List Event := s.events.rows

def State.goto (s : State) (phase : Phase) : State := { s with phase := phase }

def State.finish (s : State) (a : Args) (sum : Summary) (ok : Bool) : State :=
  { s with phase := .idle, report := some ⟨a, sum, ok⟩ }

def Replayer.resumes (r : Replayer) (st : ReplayState) : Bool :=
  !st.completed && decide (st.fromLedger = r.fromLedger ∧ st.toLedger = r.upper)

/-- How a statement ends: it may be applied although its answer is lost. -/
inductive Outcome where
  | done
  | failed
  | lost
  deriving DecidableEq, Repr

def Replayer.start (r : Replayer) (s : State) (a : Args) (outcome : Outcome) : State :=
  let s := { s with saved := some r.startReplayState }
  if outcome = .lost then s.finish a .zero false else s.goto (.fetching a "" .zero)

/-- The lock and `resume`. -/
def Replayer.begin (r : Replayer) (s : State) (a : Args) (outcome : Outcome) : State :=
  let s := { s with report := none }
  if outcome = .failed then s.finish a .zero false
  else if a.dryRun then s.goto (.fetching a "" .zero)
  else
    match s.saved with
    | none => r.start s a outcome
    | some st =>
      if !a.restart && r.resumes st then
        s.goto (.fetching a st.lastEventID ⟨st.processed, st.changed, st.skipped, 0, false, true⟩)
      else r.start s a outcome

def Replayer.batch (r : Replayer) (s : State) (a : Args) (cursor : String) (sum : Summary)
    (events : List Event) : State :=
  match events.getLast? with
  | none =>
    let sum := { sum with completed := true }
    if a.dryRun then s.finish a sum true else s.goto (.sealing a cursor sum)
  | some last =>
    let (rewrites, sum) := r.decodeBatch events sum
    if a.dryRun then s.goto (.fetching a last.id sum) else s.goto (.committing a rewrites last.id sum)

def Replayer.commit (r : Replayer) (s : State) (rewrites : List EventDecoding) (pick : Event → Nat)
    (cursor : String) (sum : Summary) (done : Bool) : State :=
  { s with
    events := s.events.update (r.rewriteRow rewrites pick) (eventKey_rewriteRow r rewrites pick)
    saved := s.saved.map fun st => st.advance cursor sum done }

inductive Move where
  | begin (a : Args) (outcome : Outcome)
  | fetch (all : List Event)
  | fetchFails
  | commit (pick : Event → Nat) (outcome : Outcome)
  | cancel
  | crash

def Replayer.step (r : Replayer) (s : State) : Move → Option State
  | .begin a outcome =>
    match s.phase with
    | .idle => some (r.begin s a outcome)
    | _ => none
  | .fetch all =>
    match s.phase with
    | .fetching a cursor sum =>
      if r.admits s.rows cursor all then some (r.batch s a cursor sum (all.take a.batch)) else none
    | _ => none
  | .fetchFails =>
    match s.phase with
    | .fetching a _ sum => some (s.finish a sum false)
    | _ => none
  | .commit pick outcome =>
    match s.phase with
    | .committing a rewrites cursor sum =>
      match outcome with
      | .failed => some (s.finish a sum false)
      | .done =>
        if storable rewrites then
          some ((r.commit s rewrites pick cursor sum false).goto (.fetching a cursor sum))
        else none
      | .lost =>
        if storable rewrites then
          some ((r.commit s rewrites pick cursor sum false).finish a sum false)
        else none
    | .sealing a cursor sum =>
      match outcome with
      | .failed => some (s.finish a sum false)
      | .done => some ((r.commit s [] pick cursor sum true).finish a sum true)
      | .lost => some ((r.commit s [] pick cursor sum true).finish a sum false)
    | _ => none
  | .cancel =>
    match s.phase with
    | .fetching a _ sum => some (s.finish a sum true)
    | .committing a _ _ sum => some (s.finish a sum true)
    | .sealing a _ sum => some (s.finish a sum false)
    | .idle => none
  | .crash =>
    match s.phase with
    | .idle => none
    | _ => some { s with phase := .idle, report := none }

/-- The run that a phase belongs to may end here, by an error or by a cancellation. -/
def Phase.Ends (a : Args) (sum : Summary) (ok : Bool) : Phase → Prop
  | .idle => False
  | .fetching a' _ sum' | .committing a' _ _ sum' => a' = a ∧ sum' = sum
  | .sealing a' _ sum' => a' = a ∧ sum' = sum ∧ ok = false

inductive Effect (r : Replayer) (s : State) : Move → State → Prop
  | begin {a : Args} {outcome : Outcome} (hphase : s.phase = .idle) :
      Effect r s (.begin a outcome) (r.begin s a outcome)
  | fetch {all : List Event} {a : Args} {cursor : String} {sum : Summary}
      (hphase : s.phase = .fetching a cursor sum) (hadmits : r.admits s.rows cursor all = true) :
      Effect r s (.fetch all) (r.batch s a cursor sum (all.take a.batch))
  | stop {m : Move} {a : Args} {sum : Summary} {ok : Bool} (hm : ∀ a outcome, m ≠ .begin a outcome)
      (hphase : s.phase.Ends a sum ok) : Effect r s m (s.finish a sum ok)
  | commit {pick : Event → Nat} {a : Args} {rewrites : List EventDecoding} {cursor : String}
      {sum : Summary} (hphase : s.phase = .committing a rewrites cursor sum) :
      Effect r s (.commit pick .done)
        ((r.commit s rewrites pick cursor sum false).goto (.fetching a cursor sum))
  | commitLost {pick : Event → Nat} {a : Args} {rewrites : List EventDecoding} {cursor : String}
      {sum : Summary} (hphase : s.phase = .committing a rewrites cursor sum) :
      Effect r s (.commit pick .lost) ((r.commit s rewrites pick cursor sum false).finish a sum false)
  | marker {pick : Event → Nat} {outcome : Outcome} {a : Args} {cursor : String} {sum : Summary}
      (ok : Bool) (hphase : s.phase = .sealing a cursor sum) :
      Effect r s (.commit pick outcome) ((r.commit s [] pick cursor sum true).finish a sum ok)
  | crash : Effect r s .crash { s with phase := .idle, report := none }

theorem step_effect {r : Replayer} {s s' : State} {m : Move} (h : r.step s m = some s') :
    Effect r s m s' := by
  cases hphase : s.phase <;> cases m <;>
    simp only [Replayer.step, hphase, Option.some.injEq, reduceCtorEq] at h
  case idle.begin => exact h ▸ .begin hphase
  case fetching.fetch a cursor sum all =>
    split at h
    · rename_i hadmits
      exact Option.some.inj h ▸ .fetch hphase hadmits
    · cases h
  case committing.commit a rewrites cursor sum pick outcome =>
    cases outcome with
    | failed => exact Option.some.inj h ▸ .stop nofun (by rw [hphase]; exact ⟨rfl, rfl⟩)
    | done =>
      obtain ⟨_, h⟩ := Option.ite_none_right_eq_some.mp h
      exact Option.some.inj h ▸ .commit hphase
    | lost =>
      obtain ⟨_, h⟩ := Option.ite_none_right_eq_some.mp h
      exact Option.some.inj h ▸ .commitLost hphase
  case sealing.commit a cursor sum pick outcome =>
    cases outcome with
    | failed => exact Option.some.inj h ▸ .stop nofun (by rw [hphase]; exact ⟨rfl, rfl, rfl⟩)
    | done => exact Option.some.inj h ▸ .marker true hphase
    | lost => exact Option.some.inj h ▸ .marker false hphase
  case sealing.cancel => exact h ▸ .stop nofun (by rw [hphase]; exact ⟨rfl, rfl, rfl⟩)
  case fetching.crash | committing.crash | sealing.crash => exact h ▸ .crash
  all_goals exact h ▸ .stop nofun (by rw [hphase]; exact ⟨rfl, rfl⟩)

end SoroTrail.Replay
