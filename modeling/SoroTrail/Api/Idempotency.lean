import SoroTrail.Lib.Lease
import SoroTrail.Lib.Steps

/-!
# Idempotency keys

`idempotencyMiddleware` of any number of replicas over one `IdempotencyStore`.
Requests with a key coalesce on a slot of their replica; the owner of a slot claims
the key in the store, runs its handler, and completes or deletes the row.  A
critical section, a store operation and the run of a handler are one step each.
`windows` is the history the claims leave: until when each reservation was to last
and how many handlers of its key have answered with less than 500 in that time.
-/

set_option autoImplicit false

namespace SoroTrail.Api.Idempotency

open Lib
open Function (update)

structure SlotKey where
  tenantID : String
  key : String
  deriving DecidableEq, Repr

/-- What two requests with one key have to agree on. -/
structure Fingerprint where
  requestHash : String
  method : String
  path : String
  deriving DecidableEq, Repr

structure Response where
  statusCode : Nat
  contentType : String
  responseBody : String
  deriving DecidableEq, Repr

/-- A reservation has no response yet, which the store writes as status code 0. -/
structure IdempotencyRecord where
  fingerprint : Fingerprint
  response : Option Response
  createdAt : Int
  expiresAt : Int
  deriving DecidableEq, Repr

/-! ## The store -/

abbrev Rows := SlotKey → Option IdempotencyRecord

inductive Claim where
  | started
  | replayed (r : Response)
  | mismatch
  | inFlight
  deriving DecidableEq, Repr

def purged (rows : Rows) (k : SlotKey) (now : Int) : Rows :=
  match rows k with
  | some row => if row.expiresAt ≤ now then update rows k none else rows
  | none => rows

def claimIdempotencyKey (rows : Rows) (k : SlotKey) (candidate : IdempotencyRecord) (now : Int) :
    Rows × Claim :=
  let rows := purged rows k now
  match rows k with
  | none => (update rows k (some { candidate with response := none }), .started)
  | some existing =>
    if existing.fingerprint ≠ candidate.fingerprint then (rows, .mismatch)
    else
      match existing.response with
      | none => (rows, .inFlight)
      | some r => (rows, .replayed r)

/-- The row is addressed by its key, whoever reserved it. -/
def completeIdempotencyKey (rows : Rows) (k : SlotKey) (r : Response) : Rows :=
  update rows k ((rows k).map fun row => { row with response := some r })

def deleteIdempotencyKey (rows : Rows) (k : SlotKey) : Rows := update rows k none

def getIdempotencyKey (rows : Rows) (k : SlotKey) (now : Int) : Option IdempotencyRecord :=
  (rows k).filter fun row => decide (now < row.expiresAt)

/-- `victims` are the rows the limit of the statement lets through. -/
def deleteExpired (rows : Rows) (now : Int) (victims : List SlotKey) : Rows := fun k =>
  if k ∈ victims then getIdempotencyKey rows k now else rows k

/-! ## Requests -/

structure InFlightSlot where
  key : SlotKey
  fingerprint : Fingerprint
  completed : Option Response
  failed : Bool
  done : Bool
  deriving DecidableEq, Repr

inductive Outcome where
  | replayed (r : Response)
  | executed (r : Response)
  | panicked
  | refused (statusCode : Nat) (message : String)
  deriving DecidableEq, Repr

def keyMismatch : Outcome :=
  .refused 409 "idempotency key already used with different request parameters"

def stillInProgress : Outcome :=
  .refused 409 "concurrent request with same Idempotency-Key is still in progress"

/-- `now` is the time the request read when it entered. -/
inductive Phase where
  | entered
  | sweeping (now : Int)
  | looking (now : Int)
  | waiting (now : Int) (slot : Nat)
  | claiming (now : Int) (slot : Nat)
  | polling (now : Int) (slot : Nat)
  | running (now : Int) (slot : Nat)
  | completing (now : Int) (slot : Nat) (r : Response)
  | releasing (now : Int) (slot : Nat) (o : Outcome)
  | closing (slot : Nat) (o : Outcome)
  | returned (o : Outcome)
  deriving DecidableEq, Repr

structure Request where
  replica : Nat
  key : SlotKey
  fingerprint : Fingerprint
  phase : Phase
  produced : List Response
  deriving DecidableEq, Repr

structure State where
  clock : Int
  rows : Rows
  inFlight : Nat → SlotKey → Option Nat
  lastSweepAt : Nat → Option Int
  slots : List InFlightSlot
  requests : List Request
  windows : List (Lease.Window SlotKey)

def State.init : State where
  clock := 0
  rows _ := none
  inFlight _ _ := none
  lastSweepAt _ := none
  slots := []
  requests := []
  windows := []

inductive Choice where
  | ok
  | fail
  | timeout
  | sweep (victims : List SlotKey)
  | respond (r : Response)
  | panic
  deriving DecidableEq, Repr

def defaultIdempotencySweepInterval : Int := 60

def State.goto (s : State) (i : Nat) (q : Request) (phase : Phase) : State :=
  { s with requests := s.requests.set i { q with phase := phase } }

def State.setSlot (s : State) (slot : Nat) (f : InFlightSlot → InFlightSlot) : State :=
  { s with slots := s.slots.modify slot f }

def InFlightSlot.fail (slot : InFlightSlot) : InFlightSlot := { slot with failed := true }

def InFlightSlot.record (r : Response) (slot : InFlightSlot) : InFlightSlot :=
  { slot with completed := some r }

def InFlightSlot.close (slot : InFlightSlot) : InFlightSlot := { slot with done := true }

/-- A handler that writes no status has answered 200. -/
def Response.normalized (r : Response) : Response :=
  { r with statusCode := if r.statusCode = 0 then 200 else r.statusCode }

def shouldSweep (lastSweepAt : Option Int) (now : Int) : Bool :=
  match lastSweepAt with
  | none => true
  | some t => decide (defaultIdempotencySweepInterval ≤ now - t)

def enter (s : State) (i : Nat) (q : Request) : State :=
  let now := s.clock
  if shouldSweep (s.lastSweepAt q.replica) now then
    State.goto { s with lastSweepAt := update s.lastSweepAt q.replica (some now) } i q (.sweeping now)
  else s.goto i q (.looking now)

def look (s : State) (i : Nat) (q : Request) (now : Int) : State :=
  match s.inFlight q.replica q.key with
  | some slot => s.goto i q (.waiting now slot)
  | none =>
    State.goto
      { s with
        slots := s.slots ++ [⟨q.key, q.fingerprint, none, false, false⟩]
        inFlight := update s.inFlight q.replica
          (update (s.inFlight q.replica) q.key (some s.slots.length)) }
      i q (.claiming now s.slots.length)

def joined (q : Request) (now : Int) (slot : InFlightSlot) : Phase :=
  if slot.fingerprint ≠ q.fingerprint then .returned keyMismatch
  else
    match slot.failed, slot.completed with
    | false, some r => .returned (.replayed r)
    | _, _ => .looking now

def claim (ttl : Int) (s : State) (i : Nat) (q : Request) (now : Int) (slot : Nat) : State :=
  let result := claimIdempotencyKey s.rows q.key ⟨q.fingerprint, none, now, now + ttl⟩ now
  let s := { s with rows := result.1 }
  match result.2 with
  | .started =>
    State.goto { s with windows := s.windows ++ [⟨q.key, now + ttl, 0⟩] } i q (.running now slot)
  | .replayed r => (s.setSlot slot (InFlightSlot.record r)).goto i q (.closing slot (.replayed r))
  | .mismatch => (s.setSlot slot InFlightSlot.fail).goto i q (.closing slot keyMismatch)
  | .inFlight => s.goto i q (.polling now slot)

def poll (s : State) (i : Nat) (q : Request) (now : Int) (slot : Nat) : State :=
  match getIdempotencyKey s.rows q.key now with
  | none => (s.setSlot slot InFlightSlot.fail).goto i q (.closing slot stillInProgress)
  | some row =>
    match row.response with
    | none => s
    | some r =>
      if row.fingerprint ≠ q.fingerprint then
        (s.setSlot slot InFlightSlot.fail).goto i q (.closing slot keyMismatch)
      else (s.setSlot slot (InFlightSlot.record r)).goto i q (.closing slot (.replayed r))

def answered (s : State) (i : Nat) (q : Request) (now : Int) (slot : Nat) (r : Response) : State :=
  let q := { q with produced := q.produced ++ [r] }
  if 500 ≤ r.statusCode then
    (s.setSlot slot InFlightSlot.fail).goto i q (.releasing now slot (.executed r))
  else
    State.goto { s with windows := s.windows.map (Lease.Window.count q.key s.clock) } i q
      (.completing now slot r)

def advance (ttl : Int) (s : State) (i : Nat) (q : Request) : Phase → Choice → Option State
  | .entered, .ok => some (enter s i q)
  | .sweeping now, .sweep victims =>
    some (State.goto { s with rows := deleteExpired s.rows now victims } i q (.looking now))
  | .sweeping now, .fail => some (s.goto i q (.looking now))
  | .looking now, .ok => some (look s i q now)
  | .waiting now slot, .ok =>
    match s.slots[slot]? with
    | some inFlight => if inFlight.done then some (s.goto i q (joined q now inFlight)) else none
    | none => none
  | .waiting _ _, .timeout => some (s.goto i q (.returned (.refused 408 "context canceled")))
  | .claiming now slot, .ok => some (claim ttl s i q now slot)
  | .claiming _ slot, .fail =>
    some ((s.setSlot slot InFlightSlot.fail).goto i q
      (.closing slot (.refused 500 "idempotency check failed")))
  | .polling now slot, .ok => some (poll s i q now slot)
  | .polling _ slot, .fail => some ((s.setSlot slot InFlightSlot.fail).goto i q (.closing slot stillInProgress))
  | .polling _ slot, .timeout =>
    some ((s.setSlot slot InFlightSlot.fail).goto i q (.closing slot stillInProgress))
  | .running now slot, .respond r => some (answered s i q now slot r.normalized)
  | .running now slot, .panic => some (s.goto i q (.releasing now slot .panicked))
  | .completing _ slot r, .ok =>
    some ((State.setSlot { s with rows := completeIdempotencyKey s.rows q.key r } slot
      (InFlightSlot.record r)).goto i q (.closing slot (.executed r)))
  -- the error is logged and the response is sent all the same
  | .completing _ slot r, .fail =>
    some ((s.setSlot slot (InFlightSlot.record r)).goto i q (.closing slot (.executed r)))
  | .releasing _ slot o, .ok =>
    some (State.goto { s with rows := deleteIdempotencyKey s.rows q.key } i q (.closing slot o))
  | .releasing _ slot o, .fail => some (s.goto i q (.closing slot o))
  | .closing slot o, .ok =>
    some ((State.setSlot
      { s with
        inFlight := update s.inFlight q.replica (update (s.inFlight q.replica) q.key none) }
      slot InFlightSlot.close).goto i q (.returned o))
  | _, _ => none

inductive Move where
  | request (replica : Nat) (key : SlotKey) (fingerprint : Fingerprint)
  | go (i : Nat) (choice : Choice)
  /-- `SweepExpiredIdempotencyKeys`. -/
  | sweep (victims : List SlotKey)
  | tick (seconds : Nat)
  deriving DecidableEq, Repr

def step (ttl : Int) (s : State) : Move → Option State
  | .request replica key fingerprint =>
    some { s with requests := s.requests ++ [⟨replica, key, fingerprint, .entered, []⟩] }
  | .go i choice =>
    match s.requests[i]? with
    | none => none
    | some q => advance ttl s i q q.phase choice
  | .sweep victims => some { s with rows := deleteExpired s.rows s.clock victims }
  | .tick seconds => some { s with clock := s.clock + seconds }

def Request.answer (q : Request) : Option Outcome :=
  match q.phase with
  | .closing _ o => some o
  | .returned o => some o
  | _ => none

/-!
# Reservations that are left behind

The owner of a slot completes or deletes its reservation after the handler, on the
context of the request.  A client that has gone away takes that context with it, and
the row stays in flight until it expires.
-/

structure Starting (ttl : Int) where
  state : State
  i : Nat
  q : Request
  now : Int
  slot : Nat
  request : state.requests[i]? = some q
  phase : q.phase = .claiming now slot
  started : (claimIdempotencyKey state.rows q.key ⟨q.fingerprint, none, now, now + ttl⟩ now).2 = .started

def handled : Option Response → Choice
  | some r => .respond r
  | none => .panic

variable {ttl : Int}

/-- `executeWithIdempotencySlot`; `store` is how its last store operation ends. -/
def Starting.execute (c : Starting ttl) (handler : Option Response) (store : Choice) : Option State :=
  Steps.run (step ttl) c.state [.go c.i .ok, .go c.i (handled handler), .go c.i store, .go c.i .ok]

/-- The store fails only what is called with a cancelled context; after a panic the context is a fresh
one. -/
def MayEnd (handler : Option Response) (cancelled : Bool) (store : Choice) : Prop :=
  store = .ok ∨ store = .fail ∧ cancelled = true ∧ handler ≠ none

/-- The reservation is completed with the handler's response, or it is gone. -/
def Starting.Settles (c : Starting ttl) (handler : Option Response) (cancelled : Bool) : Prop :=
  ∀ store, MayEnd handler cancelled store → ∃ s, c.execute handler store = some s ∧
    (s.rows c.q.key = none ∨ ∃ r ∈ handler, ∃ row, s.rows c.q.key = some row ∧
      row.response = some r.normalized)

theorem Starting.claimed (c : Starting ttl) :
    ∃ s row, step ttl c.state (.go c.i .ok) = some s ∧
      s.requests[c.i]? = some { c.q with phase := .running c.now c.slot } ∧
      s.rows c.q.key = some row ∧ row.response = none := by
  have hstarted := c.started
  have hlt := (List.getElem?_eq_some_iff.mp c.request).1
  simp only [step, c.request, c.phase, advance, claim, hstarted]
  refine ⟨_, ⟨c.q.fingerprint, none, c.now, c.now + ttl⟩, rfl, List.getElem?_set_self hlt, ?_, rfl⟩
  simp only [claimIdempotencyKey] at hstarted ⊢
  split at hstarted
  · simp [State.goto]
  · split at hstarted
    · cases hstarted
    · split at hstarted <;> cases hstarted

/-- The row of the key after the handler and the last store operation. -/
theorem Starting.execute_row (c : Starting ttl) (handler : Option Response) {store : Choice}
    (hstore : store = .ok ∨ store = .fail) : ∃ s row, c.execute handler store = some s ∧
      row.response = none ∧ s.rows c.q.key =
        if store = .fail then some row
        else handler.bind fun r => if 500 ≤ r.normalized.statusCode then none
          else some { row with response := some r.normalized } := by
  obtain ⟨s, row, hclaim, hrequest, hrow, hnone⟩ := c.claimed
  have hlt := (List.getElem?_eq_some_iff.mp hrequest).1
  simp only [execute, Steps.run, hclaim]
  -- the three steps after the claim, each found at the phase the one before left
  cases handler with
  | none =>
    rcases hstore with rfl | rfl <;>
      simp only [handled, step, hrequest, advance, State.goto, State.setSlot, List.getElem?_set_self,
        List.length_set, hlt] <;>
      exact ⟨_, row, rfl, hnone, by simp [deleteIdempotencyKey, hrow]⟩
  | some r =>
    by_cases h500 : 500 ≤ r.normalized.statusCode <;> rcases hstore with rfl | rfl <;>
      simp only [handled, step, hrequest, advance, answered, h500, State.goto, State.setSlot,
        List.getElem?_set_self, List.length_set, hlt, if_true, if_false] <;>
      exact ⟨_, row, rfl, hnone, by simp [deleteIdempotencyKey, completeIdempotencyKey, hrow, h500]⟩

theorem Starting.not_settles (c : Starting ttl) (r : Response) : ¬ c.Settles (some r) true := by
  intro h
  obtain ⟨s, hrun, hrow⟩ := h .fail (.inr ⟨rfl, rfl, nofun⟩)
  obtain ⟨s', row, hrun', hnone, hkept⟩ := c.execute_row (some r) (.inr rfl)
  cases hrun.symm.trans hrun'
  simp [hkept, hnone] at hrow

/-- A slot is settled unless the client is gone by the time its handler answers. -/
theorem execute_settles_iff (c : Starting ttl) (handler : Option Response) (cancelled : Bool) :
    c.Settles handler cancelled ↔ cancelled = false ∨ handler = none := by
  constructor
  · intro h
    cases cancelled with
    | false => exact .inl rfl
    | true =>
      cases handler with
      | none => exact .inr rfl
      | some r => exact absurd h (c.not_settles r)
  · rintro h store hstore
    have hok : store = .ok := by
      rcases hstore with hok | ⟨-, hcancelled, hhandler⟩
      · exact hok
      · rcases h with h | h
        · exact absurd hcancelled (by simp [h])
        · exact absurd h hhandler
    obtain ⟨s, row, hrun, -, hrow⟩ := c.execute_row handler (.inl hok)
    refine ⟨s, hrun, ?_⟩
    rw [hrow, hok]
    cases handler with
    | none => simp
    | some r => by_cases h500 : 500 ≤ r.normalized.statusCode <;> simp [h500]

def firstRequest : Starting 86400 where
  state := { State.init with
    requests := [⟨0, ⟨"tenant", "key-1"⟩, ⟨"9f86", "POST", "/v1/webhooks"⟩, .claiming 0 0, []⟩]
    slots := [⟨⟨"tenant", "key-1"⟩, ⟨"9f86", "POST", "/v1/webhooks"⟩, none, false, false⟩] }
  i := 0
  q := ⟨0, ⟨"tenant", "key-1"⟩, ⟨"9f86", "POST", "/v1/webhooks"⟩, .claiming 0 0, []⟩
  now := 0
  slot := 0
  request := rfl
  phase := rfl
  started := rfl

/-- It is answered 201 after the client has gone, and stays in flight. -/
theorem execute_leaves_in_flight :
    ¬ firstRequest.Settles (some ⟨201, "application/json", "\x7b\x7d"⟩) true :=
  firstRequest.not_settles _

end SoroTrail.Api.Idempotency
