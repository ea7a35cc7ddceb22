import Mathlib.Algebra.Order.Ring.Int
import Mathlib.Tactic.Ring
import SoroTrail.Lib.Breaker
import SoroTrail.Lib.Int64

/-!
# The circuit breaker of the store

`guardedStore` asks `Allow` before an operation and hands its error to `Record` after
it, with the flag that says whether it was the probe.  `Record` looks at the flag only
to note that the probe is over: an operation admitted before the breaker tripped closes
it when it succeeds, and lengthens its cooldown when it fails.
-/

set_option autoImplicit false

namespace SoroTrail.Store.Guarded

open Lib Lib.Breaker Breaker

/-- An error by what `errors.Is` says of it. -/
inductive StoreError where
  | notFound
  | invalidCursor
  | canceled
  | other
  deriving DecidableEq

def isBenignStoreError : Option StoreError → Bool
  | some .other => false
  | _ => true

def millisecond : Int := 1000000

/-- What `NewStoreBreaker` leaves of its options; `jitter` is given a source of randomness, and
durations are in nanoseconds. -/
structure BreakerOptions where
  failureThreshold : Int
  baseCooldown : Int
  maxCooldown : Int
  jitter : Nat → Int → Int
  bounds : 0 < baseCooldown ∧ baseCooldown ≤ maxCooldown ∧ maxCooldown < 2 ^ 63
  jitter_lt : ∀ seed max, 0 < max → 0 ≤ jitter seed max ∧ jitter seed max < max

/-- The defaults of `NewStoreBreaker`. -/
def BreakerOptions.of (failureThreshold baseCooldown maxCooldown : Int) (jitter : Nat → Int → Int)
    (hbase : baseCooldown < 2 ^ 63) (hmax : maxCooldown < 2 ^ 63)
    (hjitter : ∀ seed max, 0 < max → 0 ≤ jitter seed max ∧ jitter seed max < max) : BreakerOptions :=
  let base := if baseCooldown ≤ 0 then 2000000000 else baseCooldown
  let ceiling := if maxCooldown ≤ 0 then 30000000000 else maxCooldown
  { failureThreshold := if failureThreshold < 1 then 3 else failureThreshold
    baseCooldown := base
    maxCooldown := if ceiling < base then base else ceiling
    jitter
    bounds := by grind
    jitter_lt := hjitter }

structure StoreBreaker where
  state : Circuit
  consecutiveFails : Int
  openAttempts : Nat
  nextProbeAt : Int
  currentCooldown : Int
  probeInFlight : Bool

def newStoreBreaker : StoreBreaker := ⟨.closed, 0, 0, 0, 0, false⟩

/-- The loop that doubles the cooldown, for the turns that are left. -/
def doubled (maxCooldown : Int) : Nat → Int → Int
  | 0, cooldown => cooldown
  | turns + 1, cooldown =>
    if cooldown < maxCooldown then doubled maxCooldown turns (min (i64 (cooldown * 2)) maxCooldown)
    else cooldown

/-- The cooldown `Record` computes. -/
def cooldown (o : BreakerOptions) (openAttempts seed : Nat) : Int :=
  let cooldown := doubled o.maxCooldown (openAttempts - 1) o.baseCooldown
  let jitterWindow := cooldown / 2
  let cooldown := if 0 < jitterWindow then jitterWindow + o.jitter seed jitterWindow else cooldown
  if cooldown < millisecond then millisecond else cooldown

namespace StoreBreaker

def jitteredRetryAfterLocked (o : BreakerOptions) (b : StoreBreaker) (now : Int) (seed : Nat) : Int :=
  let rem := if b.nextProbeAt - now ≤ 0 then o.baseCooldown else b.nextProbeAt - now
  let rem := if 0 < rem / 2 then rem + o.jitter seed (rem / 2) else rem
  if rem < 1000000000 then 1000000000 else rem

/-- The flag of an operation that may go on, or how long a refused one is told to wait. -/
def allow (o : BreakerOptions) (b : StoreBreaker) (now : Int) (seed : Nat) :
    Except Int Bool × StoreBreaker :=
  match b.state with
  | .closed => (.ok false, b)
  | .opened =>
    if b.nextProbeAt ≤ now ∧ b.probeInFlight = false then
      (.ok true, { b with state := .halfOpen, probeInFlight := true })
    else (.error (b.jitteredRetryAfterLocked o now seed), b)
  | .halfOpen =>
    if b.probeInFlight = false then (.ok true, { b with probeInFlight := true })
    else (.error (b.jitteredRetryAfterLocked o now seed), b)

def record (o : BreakerOptions) (b : StoreBreaker) (probe : Bool) (err : Option StoreError)
    (now : Int) (seed : Nat) : StoreBreaker :=
  let b := if probe then { b with probeInFlight := false } else b
  if isBenignStoreError err then
    { b with state := .closed, consecutiveFails := 0, openAttempts := 0, currentCooldown := 0 }
  else
    let b := { b with consecutiveFails := b.consecutiveFails + 1 }
    if b.state = .halfOpen ∨ o.failureThreshold ≤ b.consecutiveFails then
      let cooldown := cooldown o (b.openAttempts + 1) seed
      { b with
        state := .opened
        openAttempts := b.openAttempts + 1
        currentCooldown := cooldown
        nextProbeAt := now + cooldown }
    else b

end StoreBreaker

/-- The breaker, its operations, and what is said about it: how many probes have failed since it
was last closed, and every cooldown that was computed with that number. -/
structure State where
  breaker : StoreBreaker
  period : Nat
  calls : List Call
  failedProbes : Nat
  cooldowns : List (Int × Nat)

def State.init : State := ⟨newStoreBreaker, 0, [], 0, []⟩

def State.view (s : State) : View := ⟨s.breaker.state, s.period, s.calls⟩

inductive Move where
  | allow (now : Int) (seed : Nat)
  | record (i : Nat) (err : Option StoreError) (now : Int) (seed : Nat)

def Move.outcome : Move → Option (Nat × Bool)
  | .allow .. => none
  | .record i err .. => some (i, isBenignStoreError err)

def Call.isProbe : Call → Bool
  | .probe _ => true
  | _ => false

def step (o : BreakerOptions) (s : State) : Move → Option State
  | .allow now seed =>
    match s.breaker.allow o now seed with
    | (.error _, b) => some { s with breaker := b, calls := s.calls ++ [.over] }
    | (.ok false, b) => some { s with breaker := b, calls := s.calls ++ [.plain] }
    | (.ok true, b) =>
      some { s with
        breaker := b, period := s.period + 1, calls := s.calls ++ [.probe (s.period + 1)] }
  | .record i err now seed =>
    match s.calls[i]? with
    | none | some .over => none
    | some call =>
      let b := s.breaker.record o (Call.isProbe call) err now seed
      let failed :=
        if isBenignStoreError err then 0
        else if Call.isProbe call then s.failedProbes + 1
        else s.failedProbes
      some { s with
        breaker := b
        calls := s.calls.set i .over
        failedProbes := failed
        -- a cooldown is computed with every attempt
        cooldowns :=
          if s.breaker.openAttempts < b.openAttempts then (b.currentCooldown, failed) :: s.cooldowns
          else s.cooldowns }

/-- An operation admitted while the breaker was closed is recorded while it is closed. -/
def InTime (s : State) : Move → Prop
  | .allow .. => True
  | .record i .. => s.calls[i]? = some .plain → s.breaker.state = .closed

def Bounded (o : BreakerOptions) (c : Int × Nat) : Prop :=
  millisecond ≤ c.1 ∧ c.1 ≤ max millisecond o.maxCooldown ∧
    c.1 ≤ max millisecond (o.baseCooldown * 2 ^ c.2)

variable {o : BreakerOptions} {s s' : State} {m : Move}

/-! ## Cooldowns -/

theorem doubled_le (turns i : Nat) {c : Int} (hmax : c ≤ o.maxCooldown) (hlow : -2 ^ 63 ≤ c)
    (hbase : c ≤ o.baseCooldown * 2 ^ i) (hwrap : 0 ≤ c ∨ 2 ^ 63 ≤ o.baseCooldown * 2 ^ i) :
    doubled o.maxCooldown turns c ≤ o.maxCooldown ∧
      doubled o.maxCooldown turns c ≤ o.baseCooldown * 2 ^ (i + turns) := by
  have hbound := o.bounds
  induction turns generalizing i c with
  | zero => exact ⟨hmax, hbase⟩
  | succ turns ih =>
    have hdouble : o.baseCooldown * 2 ^ (i + 1) = 2 * (o.baseCooldown * 2 ^ i) := by ring
    unfold doubled
    split
    · -- once the product has left the range of an `int64`, so has the bound
      have hstep := ih (i + 1) (c := min (i64 (c * 2)) o.maxCooldown) (min_le_right _ _)
        (by unfold i64; omega) (by unfold i64; omega) (by unfold i64; omega)
      rwa [show i + 1 + turns = i + (turns + 1) by omega] at hstep
    · have hmono : o.baseCooldown * 2 ^ i ≤ o.baseCooldown * 2 ^ (i + (turns + 1)) :=
        mul_le_mul_of_nonneg_left (pow_le_pow_right₀ (by decide) (by omega)) (by omega)
      exact ⟨hmax, hbase.trans hmono⟩

theorem cooldown_bounded (p seed : Nat) : Bounded o (cooldown o (p + 1) seed, p) := by
  obtain ⟨hpos, hle, hlt⟩ := o.bounds
  have hdoubled := doubled_le p 0 hle (by omega) (by simp) (.inl (by omega))
  rw [Nat.zero_add] at hdoubled
  have hjitter := o.jitter_lt seed (doubled o.maxCooldown p o.baseCooldown / 2)
  unfold Bounded cooldown
  rw [Nat.add_sub_cancel]
  dsimp only
  refine ⟨?_, ?_, ?_⟩ <;> split <;> split <;> omega

/-! ## Runs -/

/-- The attempts count the failed probes and the failures that tripped the breaker. -/
structure Counted (o : BreakerOptions) (s : State) : Prop where
  view : Inv s.view
  inFlight : s.breaker.probeInFlight = true ↔ s.breaker.state = .halfOpen
  closed : s.breaker.state = .closed → s.breaker.openAttempts = 0 ∧ s.failedProbes = 0
  tripped : s.breaker.state ≠ .closed → s.breaker.openAttempts = s.failedProbes + 1
  cooldowns : ∀ c ∈ s.cooldowns, Bounded o c

theorem Counted.init : Counted o .init where
  view := Inv.init ..
  inFlight := by decide
  closed _ := ⟨rfl, rfl⟩
  tripped h := absurd rfl h
  cooldowns := nofun

theorem allow_cases {b : StoreBreaker} (h : b.probeInFlight = true ↔ b.state = .halfOpen) (now : Int)
    (seed : Nat) :
    b.state = .closed ∧ b.allow o now seed = (.ok false, b) ∨
      b.state = .opened ∧
        b.allow o now seed = (.ok true, { b with state := .halfOpen, probeInFlight := true }) ∨
      ∃ wait, b.allow o now seed = (.error wait, b) := by
  cases hstate : b.state with
  | closed => simp [StoreBreaker.allow, hstate]
  | opened =>
    by_cases hdue : b.nextProbeAt ≤ now ∧ b.probeInFlight = false
    · simp [StoreBreaker.allow, hstate, hdue]
    · simp [StoreBreaker.allow, hstate, hdue]
  | halfOpen => simp [StoreBreaker.allow, hstate, h.mpr hstate]

theorem Counted.allow {now : Int} {seed : Nat} (hs : Counted o s)
    (h : step o s (.allow now seed) = some s') :
    Counted o s' ∧ Step s.view none s'.view := by
  suffices hstep : Step s.view none s'.view ∧ (Inv s'.view → Counted o s') from
    ⟨hstep.2 (hstep.1.keeps hs.view), hstep.1⟩
  rcases allow_cases (o := o) hs.inFlight now seed with ⟨hstate, hallow⟩ | ⟨hstate, hallow⟩ | ⟨_, hallow⟩
  · simp only [step, hallow, Option.some.injEq] at h
    subst h
    exact ⟨.pass hstate, fun hv => ⟨hv, hs.inFlight, hs.closed, hs.tripped, hs.cooldowns⟩⟩
  · simp only [step, hallow, Option.some.injEq] at h
    subst h
    have hattempts := hs.tripped (by simp [hstate])
    exact ⟨.probe hstate, fun hv => ⟨hv, by simp, nofun, fun _ => hattempts, hs.cooldowns⟩⟩
  · simp only [step, hallow, Option.some.injEq] at h
    subst h
    exact ⟨.refuse, fun hv => ⟨hv, hs.inFlight, hs.closed, hs.tripped, hs.cooldowns⟩⟩

theorem record_cases (b : StoreBreaker) (probe : Bool) (err : Option StoreError) (now : Int)
    (seed : Nat) :
    isBenignStoreError err = true ∧ b.record o probe err now seed =
      { b with
        state := .closed, consecutiveFails := 0, openAttempts := 0, currentCooldown := 0
        probeInFlight := !probe && b.probeInFlight } ∨
    isBenignStoreError err = false ∧ b.record o probe err now seed =
      { b with
        state := .opened, consecutiveFails := b.consecutiveFails + 1
        openAttempts := b.openAttempts + 1
        currentCooldown := cooldown o (b.openAttempts + 1) seed
        nextProbeAt := now + cooldown o (b.openAttempts + 1) seed
        probeInFlight := !probe && b.probeInFlight } ∨
    isBenignStoreError err = false ∧ b.state ≠ .halfOpen ∧ b.record o probe err now seed =
      { b with
        consecutiveFails := b.consecutiveFails + 1
        probeInFlight := !probe && b.probeInFlight } := by
  cases hbenign : isBenignStoreError err with
  | true => cases probe <;> simp [StoreBreaker.record, hbenign]
  | false =>
    by_cases htrip : b.state = .halfOpen ∨ o.failureThreshold ≤ b.consecutiveFails + 1
    · cases probe <;> simp [StoreBreaker.record, hbenign, htrip]
    · obtain ⟨hstate, hfew⟩ := not_or.mp htrip
      cases probe <;> simp [StoreBreaker.record, hbenign, hstate, hfew]

theorem Counted.step (hm : InTime s m) (hs : Counted o s) (h : step o s m = some s') :
    Counted o s' ∧ Step s.view m.outcome s'.view := by
  cases m with
  | allow now seed => exact hs.allow h
  | record i err now seed =>
    suffices hstep : Step s.view (some (i, isBenignStoreError err)) s'.view ∧
        (Inv s'.view → Counted o s') from ⟨hstep.2 (hstep.1.keeps hs.view), hstep.1⟩
    cases hi : s.calls[i]? with
    | none => simp [Guarded.step, hi] at h
    | some call =>
      cases call with
      | «over» => simp [Guarded.step, hi] at h
      | plain =>
        have hclosed := hm hi
        obtain ⟨hattempts, hfailed⟩ := hs.closed hclosed
        have hidle : s.breaker.probeInFlight = false := by simpa [hclosed] using hs.inFlight
        have hcooldown := cooldown_bounded (o := o) 0 seed
        rcases record_cases (o := o) s.breaker false err now seed with
          ⟨hbenign, hrec⟩ | ⟨hbenign, hrec⟩ | ⟨hbenign, _, hrec⟩
        · simp only [Guarded.step, hi, Call.isProbe, hrec, hbenign, Option.some.injEq] at h
          subst h
          exact ⟨.plain i _ _ hi (.inl hclosed.symm), fun hv =>
            ⟨hv, by simp [hidle], fun _ => ⟨rfl, rfl⟩, fun h => absurd rfl h, by simpa using hs.cooldowns⟩⟩
        · simp only [Guarded.step, hi, Call.isProbe, hrec, hbenign, Option.some.injEq] at h
          subst h
          refine ⟨.plain i _ _ hi (.inr ⟨hclosed, rfl⟩), fun hv =>
            ⟨hv, by simp [hidle], nofun, fun _ => by simp [hattempts, hfailed], ?_⟩⟩
          simpa [hattempts, hfailed, hcooldown] using hs.cooldowns
        · simp only [Guarded.step, hi, Call.isProbe, hrec, hbenign, Option.some.injEq] at h
          subst h
          exact ⟨.plain i _ _ hi (.inl rfl), fun hv =>
            ⟨hv, by simp [hidle, hclosed], fun _ => ⟨hattempts, hfailed⟩, absurd hclosed,
              by simpa using hs.cooldowns⟩⟩
      | probe p =>
        have hhalf : s.breaker.state = .halfOpen := (hs.view.current i p hi).1
        have hattempts := hs.tripped (by simp [hhalf])
        have hcooldown := cooldown_bounded (o := o) (s.failedProbes + 1) seed
        have hsettle := Step.settle (v := s.view) i p (isBenignStoreError err) hi hhalf
        rcases record_cases (o := o) s.breaker true err now seed with
          ⟨hbenign, hrec⟩ | ⟨hbenign, hrec⟩ | ⟨_, hstate, _⟩
        · simp only [Guarded.step, hi, Call.isProbe, hrec, hbenign, Option.some.injEq] at h
          subst h
          rw [hbenign] at hsettle ⊢
          exact ⟨hsettle, fun hv =>
            ⟨hv, by simp, fun _ => ⟨rfl, rfl⟩, absurd rfl, hs.cooldowns⟩⟩
        · simp only [Guarded.step, hi, Call.isProbe, hrec, hbenign, Option.some.injEq] at h
          subst h
          rw [hbenign] at hsettle ⊢
          refine ⟨hsettle, fun hv => ⟨hv, by simp, nofun, fun _ => by simp [hattempts], ?_⟩⟩
          simpa [hattempts, hcooldown] using hs.cooldowns
        · exact absurd hhalf hstate

/-- While operations admitted by a closed breaker are recorded before it trips, the breaker follows
its automaton with one probe at a time, and every cooldown is within its bounds. -/
theorem storeBreaker_lawful_of_inTime {ms : List Move}
    (halong : Steps.Along (step o) InTime .init (ms ++ [m]))
    (hrun : Steps.run (step o) .init ms = some s) (hstep : step o s m = some s') :
    Lawful s.view m.outcome s'.view ∧ ∀ c ∈ s'.cooldowns, Bounded o c := by
  obtain ⟨hbefore, hm, _⟩ := halong.rest hrun
  have hs : Counted o s := hbefore.invariant (fun s m s' hm hs h => (hs.step hm h).1) .init hrun
  obtain ⟨hs', hlaw⟩ := hs.step hm hstep
  exact ⟨hlaw.lawful hs.view, hs'.cooldowns⟩

instance (s : State) (m : Move) : Decidable (InTime s m) := by
  cases m <;> unfold InTime <;> infer_instance

/-- One failure trips the breaker, and the jitter is always zero. -/
def quickOptions : BreakerOptions :=
  .of 1 8000000 20000000 (fun _ _ => 0) (by decide) (by decide) fun _ _ h => ⟨le_refl _, h⟩

/-- A failed probe doubles the cooldown of 8 ms, half of which is jitter. -/
theorem storeBreaker_lawful_of_inTime_relapse :
    ∃ s s', Steps.run (step quickOptions) .init
        [.allow 0 0, .record 0 (some .other) 0 0, .allow 4000000 0] = some s ∧
      step quickOptions s (.record 1 (some .other) 4000000 0) = some s' ∧
      s'.cooldowns = [(8000000, 1), (4000000, 0)] ∧ Lawful s.view (some (1, false)) s'.view := by
  have halong : Steps.Along (step quickOptions) InTime .init
      ([.allow 0 0, .record 0 (some .other) 0 0, .allow 4000000 0] ++
        [.record 1 (some .other) 4000000 0]) :=
    Steps.Along.of_check (by decide)
  exact ⟨_, _, rfl, rfl, rfl, (storeBreaker_lawful_of_inTime halong rfl rfl).1⟩

/-- Of four operations under way the first trips the breaker.  The failures of the next two lengthen
the cooldown past the base of 8 ms although no probe has failed, and the success of the last
closes the breaker. -/
theorem late_records_interfere :
    ∃ s s', Steps.run (step quickOptions) .init [.allow 0 0, .allow 0 0, .allow 0 0, .allow 0 0,
        .record 0 (some .other) 0 0, .record 1 (some .other) 1 0, .record 2 (some .other) 2 0] = some s ∧
      step quickOptions s (.record 3 none 3 0) = some s' ∧ s.breaker.state = .opened ∧
      s'.breaker.state = .closed ∧ (10000000, 0) ∈ s.cooldowns ∧ ¬ Bounded quickOptions (10000000, 0) :=
  ⟨_, _, rfl, rfl, rfl, rfl, by decide, by unfold Bounded; decide⟩

end SoroTrail.Store.Guarded
