import SoroTrail.Lib.Breaker

/-!
# The circuit breaker of the RPC client

Every method of `CircuitBreakerClient` asks `Allow`, makes its call and records how it
ended.  A record carries no identity, so a call admitted before the breaker tripped may
report into a later state: its success closes the breaker without a probe.
-/

set_option autoImplicit false

namespace SoroTrail.Rpc.CircuitBreakerClient

open Lib Lib.Breaker Breaker

structure CircuitBreakerConfig where
  failureThreshold : Int
  probeTimeout : Int

/-- Times and durations are in nanoseconds. -/
structure CircuitBreaker where
  config : CircuitBreakerConfig
  state : Circuit
  consecutiveFail : Int
  lastOpenTime : Int

def newCircuitBreaker (config : CircuitBreakerConfig) : CircuitBreaker where
  config :=
    { failureThreshold := if config.failureThreshold ≤ 0 then 5 else config.failureThreshold
      probeTimeout := if config.probeTimeout ≤ 0 then 30000000000 else config.probeTimeout }
  state := .closed
  consecutiveFail := 0
  lastOpenTime := 0

namespace CircuitBreaker

def setState (cb : CircuitBreaker) (now : Int) (s : Circuit) : CircuitBreaker :=
  if cb.state ≠ s then
    { cb with state := s, lastOpenTime := if s = .opened then now else cb.lastOpenTime }
  else cb

def allow (cb : CircuitBreaker) (now : Int) : Bool × CircuitBreaker :=
  match cb.state with
  | .closed => (true, cb)
  | .opened =>
    if cb.config.probeTimeout ≤ now - cb.lastOpenTime then (true, cb.setState now .halfOpen)
    else (false, cb)
  | .halfOpen => (false, cb)

def recordSuccess (cb : CircuitBreaker) (now : Int) : CircuitBreaker :=
  { cb with consecutiveFail := 0 }.setState now .closed

def recordFailure (cb : CircuitBreaker) (now : Int) : CircuitBreaker :=
  let cb := { cb with consecutiveFail := cb.consecutiveFail + 1 }
  if cb.state = .halfOpen then cb.setState now .opened
  else if cb.config.failureThreshold ≤ cb.consecutiveFail then cb.setState now .opened
  else cb

@[simp] theorem setState_state (cb : CircuitBreaker) (now : Int) (s : Circuit) :
    (cb.setState now s).state = s := by
  unfold setState
  split <;> simp_all

end CircuitBreaker

/-- `period` counts the probes; a call is the index of its entry. -/
structure State where
  breaker : CircuitBreaker
  period : Nat
  calls : List Call

def State.init (config : CircuitBreakerConfig) : State := ⟨newCircuitBreaker config, 0, []⟩

def State.view (s : State) : View := ⟨s.breaker.state, s.period, s.calls⟩

inductive Move where
  | enter (now : Int)
  | report (i : Nat) (ok : Bool) (now : Int)

def Move.outcome : Move → Option (Nat × Bool)
  | .enter _ => none
  | .report i ok _ => some (i, ok)

def step (s : State) : Move → Option State
  | .enter now =>
    match s.breaker.allow now with
    | (false, cb) => some { s with breaker := cb, calls := s.calls ++ [.over] }
    | (true, cb) =>
      if s.breaker.state = .closed then some { s with breaker := cb, calls := s.calls ++ [.plain] }
      else some ⟨cb, s.period + 1, s.calls ++ [.probe (s.period + 1)]⟩
  | .report i ok now =>
    match s.calls[i]? with
    | none | some .over => none
    | some _ =>
      some { s with
        breaker := if ok then s.breaker.recordSuccess now else s.breaker.recordFailure now
        calls := s.calls.set i .over }

/-- A call admitted while the breaker was closed reports no success once it has tripped, and no
failure while a probe is under way. -/
def InTime (s : State) : Move → Prop
  | .enter _ => True
  | .report i ok _ =>
    s.calls[i]? = some .plain → s.breaker.state = .closed ∨ s.breaker.state = .opened ∧ ok = false

variable {s s' : State} {m : Move}

theorem recordFailure_state (cb : CircuitBreaker) (now : Int) :
    (cb.recordFailure now).state = .opened ∨
      cb.state ≠ .halfOpen ∧ (cb.recordFailure now).state = cb.state := by
  simp only [CircuitBreaker.recordFailure]
  split
  · simp
  · rename_i hstate
    split
    · simp
    · exact .inr ⟨hstate, rfl⟩

theorem step_disciplined (hm : InTime s m) (hs : Inv s.view) (h : step s m = some s') :
    Step s.view m.outcome s'.view := by
  cases m with
  | enter now =>
    cases hstate : s.breaker.state with
    | closed =>
      simp only [step, CircuitBreaker.allow, hstate, if_true, Option.some.injEq] at h
      cases h
      exact .pass hstate
    | opened =>
      have hprobe := Step.probe (v := s.view) hstate
      by_cases htimeout : s.breaker.config.probeTimeout ≤ now - s.breaker.lastOpenTime
      · simp only [step, CircuitBreaker.allow, hstate, if_pos htimeout, reduceCtorEq, if_false,
          Option.some.injEq] at h
        cases h
        simpa [State.view, Move.outcome] using hprobe
      · simp only [step, CircuitBreaker.allow, hstate, if_neg htimeout, Option.some.injEq] at h
        cases h
        exact .refuse
    | halfOpen =>
      simp only [step, CircuitBreaker.allow, hstate, Option.some.injEq] at h
      cases h
      exact .refuse
  | report i ok now =>
    simp only [step] at h
    cases hi : s.calls[i]? with
    | none => simp [hi] at h
    | some call =>
      cases call with
      | «over» => simp [hi] at h
      | plain =>
        simp only [hi, Option.some.injEq] at h
        cases h
        refine .plain i ok _ hi ?_
        rcases hm hi with hclosed | ⟨hopen, rfl⟩
        · cases ok with
          | true => exact .inl ((CircuitBreaker.setState_state ..).trans hclosed.symm)
          | false =>
            rcases recordFailure_state s.breaker now with hstate | ⟨_, hstate⟩
            · exact .inr ⟨hclosed, hstate⟩
            · exact .inl hstate
        · rcases recordFailure_state s.breaker now with hstate | ⟨_, hstate⟩
          · exact .inl (hstate.trans hopen.symm)
          · exact .inl hstate
      | probe p =>
        simp only [hi, Option.some.injEq] at h
        cases h
        have hhalf : s.breaker.state = .halfOpen := (hs.current i p hi).1
        have hsettle := Step.settle (v := s.view) i p ok hi hhalf
        cases ok with
        | true => simpa [State.view, Move.outcome, CircuitBreaker.recordSuccess] using hsettle
        | false =>
          have hopen := (recordFailure_state s.breaker now).resolve_right fun h => h.1 hhalf
          simpa [State.view, Move.outcome, hopen] using hsettle

/-- While calls report in time, the breaker follows its automaton, has one probe under way at
most, and is closed by the success of the probe of the current period only. -/
theorem breaker_lawful_of_inTime {config : CircuitBreakerConfig} {ms : List Move}
    (halong : Steps.Along step InTime (.init config) (ms ++ [m]))
    (hrun : Steps.run step (.init config) ms = some s) (hstep : step s m = some s') :
    Lawful s.view m.outcome s'.view := by
  obtain ⟨hbefore, hm, _⟩ := halong.rest hrun
  have hinv : Inv s.view := hbefore.invariant (I := fun s => Inv s.view)
    (fun s m s' hm hs h => (step_disciplined hm hs h).keeps hs) (Inv.init ..) hrun
  exact (step_disciplined hm hinv hstep).lawful hinv

instance (s : State) (m : Move) : Decidable (InTime s m) := by
  cases m <;> unfold InTime <;> infer_instance

/-- A call fails and trips the breaker, and the probe after the pause succeeds. -/
theorem breaker_lawful_of_inTime_probe :
    ∃ s s', Steps.run step (.init ⟨1, 10⟩) [.enter 0, .report 0 false 1, .enter 11] = some s ∧
      step s (.report 1 true 12) = some s' ∧ s.breaker.state = .halfOpen ∧
      s'.breaker.state = .closed ∧ Lawful s.view (some (1, true)) s'.view :=
  have halong : Steps.Along step InTime (.init ⟨1, 10⟩)
      ([.enter 0, .report 0 false 1, .enter 11] ++ [.report 1 true 12]) :=
    Steps.Along.of_check (by decide)
  ⟨_, _, rfl, rfl, rfl, rfl, breaker_lawful_of_inTime halong rfl rfl⟩

/-- Of two calls under way the first fails and trips the breaker, and the success of the second
closes it at once. -/
theorem late_success_closes :
    ∃ s s', Steps.run step (.init ⟨1, 10⟩) [.enter 0, .enter 0, .report 0 false 1] = some s ∧
      step s (.report 1 true 2) = some s' ∧ s.breaker.state = .opened ∧ s'.breaker.state = .closed :=
  ⟨_, _, rfl, rfl, rfl, rfl⟩

end SoroTrail.Rpc.CircuitBreakerClient
