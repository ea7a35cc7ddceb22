import SoroTrail.Ingester.Reorg
import SoroTrail.Lib.Steps

/-!
# Concurrent reorg repairs

`HandleReorgRange` as any number of goroutines run it.  The archive check, the
depth check, the critical sections under the coordinator's mutex, the pass, each
send and the final receive are one step each, and the steps of different calls
interleave freely.  The coordinator keeps what the source's `reorgCoordinator`
keeps except `lastResult`, which nothing reads.
-/

set_option autoImplicit false

namespace SoroTrail.Ingest.Coalesce

open Lib Rpc

structure ReorgCoordinator where
  running : Bool
  pending : Bool
  pendingFrom : Nat
  pendingTo : Nat
  pendingHead : Nat
  waiters : List Nat
  deriving DecidableEq, Repr

structure Pass where
  fromLedger : Nat
  toLedger : Nat
  newHeadLedger : Nat
  startedAt : Nat
  archivedThrough : Nat
  deriving DecidableEq, Repr

inductive Phase where
  | entered
  | unarchived
  | checked
  | waiting
  | executing (pass : Pass)
  | executed (pass : Pass) (err : Option Err)
  | sending (waiters : List Nat) (err : Option Err)
  | returned (err : Option Err)
  deriving DecidableEq, Repr

structure Call where
  fromLedger : Nat
  toLedger : Nat
  newHeadLedger : Nat
  phase : Phase
  checkedAt : Option Nat
  registered : Bool
  inbox : Option (Option Err)
  sent : Nat
  deriving DecidableEq, Repr

structure State where
  window : Nat
  archivedThrough : Nat
  coord : ReorgCoordinator
  calls : List Call
  completed : List (Pass × Option Err)
  clock : Nat
  deriving DecidableEq, Repr

def State.init (window archivedThrough : Nat) : State where
  window := window
  archivedThrough := archivedThrough
  coord :=
    { running := false, pending := false, pendingFrom := 0, pendingTo := 0, pendingHead := 0,
      waiters := [] }
  calls := []
  completed := []
  clock := 0

/-! ## Critical sections -/

/-- A pass is running: merge the range into the pending one and register the channel. -/
def ReorgCoordinator.join (co : ReorgCoordinator) (c : Call) (channel : Nat) : ReorgCoordinator :=
  if co.pending then
    { co with
      pendingFrom := if c.fromLedger < co.pendingFrom then c.fromLedger else co.pendingFrom
      pendingTo := if co.pendingTo < c.toLedger then c.toLedger else co.pendingTo
      pendingHead := if 0 < c.newHeadLedger then c.newHeadLedger else co.pendingHead
      waiters := co.waiters ++ [channel] }
  else
    { co with
      pending := true
      pendingFrom := c.fromLedger
      pendingTo := c.toLedger
      pendingHead := c.newHeadLedger
      waiters := co.waiters ++ [channel] }

def ReorgCoordinator.finish (co : ReorgCoordinator) : ReorgCoordinator :=
  { co with waiters := [], pending := false, running := false }

/-- The range that came in while a pass ran is taken over by the next pass. -/
def ReorgCoordinator.drain (co : ReorgCoordinator) : ReorgCoordinator :=
  { co with pending := false }

/-! ## Steps -/

inductive Move where
  | call (fromLedger toLedger newHeadLedger : Nat)
  | archive (bound : Nat)
  /-- The answer of `resolveArchivedBoundary`: an error, or the boundary. -/
  | boundary (i : Nat) (err : Option Err)
  | depth (i : Nat) (stored highest : Nat)
  | enter (i : Nat)
  | endPass (i : Nat) (err : Option Err)
  | settle (i : Nat)
  | send (i : Nat)
  | receive (i : Nat)
  | cancel (i : Nat) (err : Err)
  deriving DecidableEq, Repr

def Move.caller : Move → Option Nat
  | .call _ _ _ => none
  | .archive _ => none
  | .boundary i _ => some i
  | .depth i _ _ => some i
  | .enter i => some i
  | .endPass i _ => some i
  | .settle i => some i
  | .send i => some i
  | .receive i => some i
  | .cancel i _ => some i

def invalidRange (fromLedger toLedger : Nat) : Err :=
  .other ("HandleReorgRange: invalid range " ++ rangeText fromLedger toLedger)

def depthExceeded (fromLedger toLedger frontier depth window : Nat) : Err :=
  .suffix errReorgDepthExceeded (": reorg depth " ++ toString depth ++ " (range " ++
    rangeText fromLedger toLedger ++ " at frontier " ++ toString frontier ++
    ") exceeds confirmation window " ++ toString window)

/-- A call as it enters; its arguments are `uint32`. -/
def Call.new (fromLedger toLedger newHeadLedger : Nat) : Call where
  fromLedger := u32 fromLedger
  toLedger := u32 toLedger
  newHeadLedger := u32 newHeadLedger
  phase :=
    if u32 fromLedger = 0 ∨ u32 toLedger = 0 ∨ u32 toLedger < u32 fromLedger then
      .returned (some (invalidRange (u32 fromLedger) (u32 toLedger)))
    else .entered
  checkedAt := none
  registered := false
  inbox := none
  sent := 0

def Call.to (c : Call) (phase : Phase) : Call := { c with phase := phase }

namespace State

def set (s : State) (i : Nat) (c : Call) : State := { s with calls := s.calls.set i c }

def checkBoundary (s : State) (c : Call) : Option Err → Phase
  | some err => .returned (some (.wrap "checking archive boundary" err))
  | none =>
    if 0 < s.archivedThrough ∧ c.fromLedger ≤ s.archivedThrough then
      .returned (some (archivedErr "reorg" c.fromLedger c.toLedger s.archivedThrough))
    else .unarchived

def checkDepth (s : State) (c : Call) (stored highest : Nat) : Call :=
  let tracker : ReorgTracker := ⟨s.window, highest, fun _ => none⟩
  let frontier := max stored c.toLedger
  let (depth, exceeded) := tracker.evaluateDepth c.fromLedger c.toLedger frontier
  if exceeded then
    c.to (.returned (some (depthExceeded c.fromLedger c.toLedger frontier depth s.window)))
  else { c with phase := .checked, checkedAt := some s.clock }

def pass (s : State) (fromLedger toLedger newHeadLedger : Nat) : Pass :=
  ⟨fromLedger, toLedger, newHeadLedger, s.clock, s.archivedThrough⟩

def enterCall (s : State) (i : Nat) (c : Call) : State :=
  if s.coord.running then
    { s.set i { c with phase := .waiting, registered := true } with coord := s.coord.join c i }
  else
    { s.set i (c.to (.executing (s.pass c.fromLedger c.toLedger c.newHeadLedger))) with
      coord := { s.coord with running := true } }

def settleCall (s : State) (i : Nat) (c : Call) (p : Pass) (err : Option Err) : State :=
  if err ≠ none ∨ s.coord.pending = false then
    { s.set i (c.to (.sending s.coord.waiters err)) with coord := s.coord.finish }
  else
    let head := if 0 < s.coord.pendingHead then s.coord.pendingHead else p.newHeadLedger
    { s.set i (c.to (.executing (s.pass s.coord.pendingFrom s.coord.pendingTo head))) with
      coord := s.coord.drain }

/-- Send on one channel; the send waits while the buffer is full. -/
def deliver (s : State) (w : Nat) (err : Option Err) : Option State :=
  match s.calls[w]? with
  | none => none
  | some d =>
    if d.inbox = none then some (s.set w { d with inbox := some err, sent := d.sent + 1 }) else none

def sendCall (s : State) (i : Nat) (c : Call) : List Nat → Option Err → Option State
  | [], err => some (s.set i (c.to (.returned err)))
  | w :: rest, err => (s.set i (c.to (.sending rest err))).deliver w err

def advance (s : State) (i : Nat) (c : Call) : Move → Option State
  | .boundary _ err =>
    match c.phase with
    | .entered => some (s.set i (c.to (s.checkBoundary c err)))
    | _ => none
  | .depth _ stored highest =>
    match c.phase with
    | .unarchived => some (s.set i (s.checkDepth c stored highest))
    | _ => none
  | .enter _ =>
    match c.phase with
    | .checked => some (s.enterCall i c)
    | _ => none
  | .endPass _ err =>
    match c.phase with
    | .executing p =>
      some { s.set i (c.to (.executed p err)) with completed := s.completed ++ [(p, err)] }
    | _ => none
  | .settle _ =>
    match c.phase with
    | .executed p err => some (s.settleCall i c p err)
    | _ => none
  | .send _ =>
    match c.phase with
    | .sending ws err => s.sendCall i c ws err
    | _ => none
  | .receive _ =>
    match c.phase, c.inbox with
    | .waiting, some r => some (s.set i { c with phase := .returned r, inbox := none })
    | _, _ => none
  | .cancel _ err =>
    match c.phase with
    | .waiting => some (s.set i (c.to (.returned (some err))))
    | _ => none
  | _ => none

def step (s : State) (m : Move) : Option State :=
  let next : Option State :=
    match m, m.caller with
    | .call f t h, _ => some { s with calls := s.calls ++ [Call.new f t h] }
    | .archive bound, _ =>
      if s.archivedThrough ≤ bound then some { s with archivedThrough := bound } else none
    | m, some i => (s.calls[i]?).bind fun c => s.advance i c m
    | _, none => none
  next.map fun s' => { s' with clock := s.clock + 1 }

end State

/-! ## What a step can do -/

inductive Effect (s : State) : Move → State → Prop
  | arrive (f t h : Nat) : Effect s (.call f t h) { s with calls := s.calls ++ [Call.new f t h] }
  | archive {bound : Nat} (hle : s.archivedThrough ≤ bound) :
      Effect s (.archive bound) { s with archivedThrough := bound }
  | refuse {m : Move} {i : Nat} {c : Call} (hm : m.caller = some i) (hc : s.calls[i]? = some c)
      (hphase : c.phase = .entered ∨ c.phase = .unarchived ∨ c.phase = .waiting) (err : Err) :
      Effect s m (s.set i (c.to (.returned (some err))))
  | unarchive {i : Nat} {c : Call} (hc : s.calls[i]? = some c) (hphase : c.phase = .entered)
      (hbound : ¬ (0 < s.archivedThrough ∧ c.fromLedger ≤ s.archivedThrough)) :
      Effect s (.boundary i none) (s.set i (c.to .unarchived))
  | accept {i : Nat} {c : Call} (hc : s.calls[i]? = some c) (hphase : c.phase = .unarchived)
      {stored highest : Nat}
      (hdepth : (ReorgTracker.evaluateDepth ⟨s.window, highest, fun _ => none⟩ c.fromLedger c.toLedger
        (max stored c.toLedger)).2 = false) :
      Effect s (.depth i stored highest) (s.set i { c with phase := .checked, checkedAt := some s.clock })
  | join {i : Nat} {c : Call} (hc : s.calls[i]? = some c) (hphase : c.phase = .checked)
      (hrunning : s.coord.running = true) :
      Effect s (.enter i) { s.set i { c with phase := .waiting, registered := true } with
        coord := s.coord.join c i }
  | start {i : Nat} {c : Call} (hc : s.calls[i]? = some c) (hphase : c.phase = .checked)
      (hidle : s.coord.running = false) :
      Effect s (.enter i) { s.set i (c.to (.executing (s.pass c.fromLedger c.toLedger c.newHeadLedger))) with
        coord := { s.coord with running := true } }
  | endPass {i : Nat} {c : Call} (hc : s.calls[i]? = some c) {p : Pass}
      (hphase : c.phase = .executing p) (err : Option Err) :
      Effect s (.endPass i err) { s.set i (c.to (.executed p err)) with completed := s.completed ++ [(p, err)] }
  | finish {i : Nat} {c : Call} (hc : s.calls[i]? = some c) {p : Pass} {err : Option Err}
      (hphase : c.phase = .executed p err) (hlast : err ≠ none ∨ s.coord.pending = false) :
      Effect s (.settle i) { s.set i (c.to (.sending s.coord.waiters err)) with coord := s.coord.finish }
  | drain {i : Nat} {c : Call} (hc : s.calls[i]? = some c) {p : Pass}
      (hphase : c.phase = .executed p none) (hpending : s.coord.pending = true) (head : Nat) :
      Effect s (.settle i) { s.set i (c.to (.executing (s.pass s.coord.pendingFrom s.coord.pendingTo head))) with
        coord := s.coord.drain }
  | deliver {i : Nat} {c : Call} (hc : s.calls[i]? = some c) {w : Nat} {rest : List Nat}
      {err : Option Err} (hphase : c.phase = .sending (w :: rest) err) {d : Call}
      (hd : (s.set i (c.to (.sending rest err))).calls[w]? = some d) (hempty : d.inbox = none) :
      Effect s (.send i) ((s.set i (c.to (.sending rest err))).set w
        { d with inbox := some err, sent := d.sent + 1 })
  | sent {i : Nat} {c : Call} (hc : s.calls[i]? = some c) {err : Option Err}
      (hphase : c.phase = .sending [] err) : Effect s (.send i) (s.set i (c.to (.returned err)))
  | receive {i : Nat} {c : Call} (hc : s.calls[i]? = some c) (hphase : c.phase = .waiting)
      {r : Option Err} (hr : c.inbox = some r) :
      Effect s (.receive i) (s.set i { c with phase := .returned r, inbox := none })

namespace State

theorem checkBoundary_cases (s : State) (c : Call) (err : Option Err) :
    (∃ e, s.checkBoundary c err = .returned (some e)) ∨
      (err = none ∧ s.checkBoundary c err = .unarchived ∧
        ¬ (0 < s.archivedThrough ∧ c.fromLedger ≤ s.archivedThrough)) := by
  cases err with
  | some e => exact .inl ⟨_, rfl⟩
  | none =>
    by_cases h : 0 < s.archivedThrough ∧ c.fromLedger ≤ s.archivedThrough
    · exact .inl ⟨_, if_pos h⟩
    · exact .inr ⟨rfl, if_neg h, h⟩

theorem advance_effect {s t : State} {i : Nat} {c : Call} (hc : s.calls[i]? = some c) {m : Move}
    (hm : m.caller = some i) (h : s.advance i c m = some t) : Effect s m t := by
  cases m with (try obtain rfl := Option.some.inj hm; simp only [advance] at h)
  | call f to' hd => cases h
  | archive bound => cases h
  | boundary j err =>
    split at h
    · rename_i hphase
      obtain rfl := Option.some.inj h
      rcases s.checkBoundary_cases c err with ⟨e, he⟩ | ⟨rfl, he, hbound⟩
      · rw [he]
        exact .refuse rfl hc (.inl hphase) e
      · rw [he]
        exact .unarchive hc hphase hbound
    · cases h
  | depth j stored highest =>
    split at h
    · rename_i hphase
      obtain rfl := Option.some.inj h
      simp only [checkDepth]
      split
      · exact .refuse rfl hc (.inr (.inl hphase)) _
      · rename_i hdepth
        exact .accept hc hphase (by simpa using hdepth)
    · cases h
  | enter j =>
    split at h
    · rename_i hphase
      obtain rfl := Option.some.inj h
      unfold enterCall
      split
      · rename_i hrunning
        exact .join hc hphase hrunning
      · rename_i hrunning
        exact .start hc hphase (by simpa using hrunning)
    · cases h
  | endPass j err =>
    split at h
    · rename_i hphase
      obtain rfl := Option.some.inj h
      exact .endPass hc hphase err
    · cases h
  | settle j =>
    split at h
    · rename_i p err hphase
      obtain rfl := Option.some.inj h
      unfold settleCall
      split
      · rename_i hlast
        exact .finish hc hphase hlast
      · rename_i hlast
        rw [not_or, not_not] at hlast
        obtain ⟨rfl, hpending⟩ := hlast
        exact .drain hc hphase (by simpa using hpending) _
    · cases h
  | send j =>
    split at h
    · rename_i ws err hphase
      cases ws with
      | nil =>
        obtain rfl := Option.some.inj h
        exact .sent hc hphase
      | cons w rest =>
        simp only [sendCall, State.deliver] at h
        split at h
        · cases h
        · rename_i d hd
          split at h
          · rename_i hempty
            obtain rfl := Option.some.inj h
            exact .deliver hc hphase hd hempty
          · cases h
    · cases h
  | receive j =>
    split at h
    · rename_i r hphase hr
      obtain rfl := Option.some.inj h
      exact .receive hc hphase hr
    · cases h
  | cancel j err =>
    split at h
    · rename_i hphase
      obtain rfl := Option.some.inj h
      exact .refuse rfl hc (.inr (.inr hphase)) err
    · cases h

theorem step_effect {s s' : State} {m : Move} (h : s.step m = some s') :
    ∃ t, Effect s m t ∧ s' = { t with clock := s.clock + 1 } := by
  simp only [step, Option.map_eq_some_iff] at h
  obtain ⟨t, ht, rfl⟩ := h
  refine ⟨t, ?_, rfl⟩
  split at ht
  · obtain rfl := Option.some.inj ht
    exact .arrive _ _ _
  · split at ht
    · rename_i hle
      obtain rfl := Option.some.inj ht
      exact .archive hle
    · cases ht
  · rename_i hcaller
    obtain ⟨c, hc, hadv⟩ := Option.bind_eq_some_iff.mp ht
    exact advance_effect hc hcaller hadv
  · cases ht

end State

end SoroTrail.Ingest.Coalesce
