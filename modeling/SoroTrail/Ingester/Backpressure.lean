import SoroTrail.Lib.Int64
import SoroTrail.Rpc.Types

/-!
# Lag backpressure

The lag coordinator tells background jobs to yield while the ingester lags.  A
job's timer starts with its first poll that is told to yield; once it has run for
the maximal deferral the next poll is let through.  All timers are cleared when
the ingester recovers, also those of jobs that have not had a pass since.
-/

set_option autoImplicit false

namespace SoroTrail.Ingest

open Lib Rpc

/-! ## The coordinator -/

structure LagBackpressureOptions where
  enabled : Bool
  enterLagLedgers : Nat
  recoverLagLedgers : Nat
  maxDeferral : Int
  deriving DecidableEq, Repr

def defaultMaxLagDeferral : Int := 900000000000

def LagBackpressureOptions.applyDefaults (o : LagBackpressureOptions) : LagBackpressureOptions :=
  let recover := if 0 < o.enterLagLedgers ∧ o.recoverLagLedgers = 0 then
      u32 (o.enterLagLedgers * 3) / 4
    else o.recoverLagLedgers
  { o with
    recoverLagLedgers := min recover o.enterLagLedgers
    maxDeferral := if o.maxDeferral ≤ 0 then defaultMaxLagDeferral else o.maxDeferral }

/-- The timers and counters under the mutex; times are in nanoseconds. -/
structure LagCoordinator where
  opts : LagBackpressureOptions
  lagging : Bool
  currentLag : Int
  deferredSince : String → Option Int
  yieldsByJob : String → Nat
  overrideByJob : String → Nat
  transitionsToLagging : Nat
  transitionsToRecovered : Nat
  totalYields : Nat
  maxDeferralOverrides : Nat

def newLagCoordinator (opts : LagBackpressureOptions) : LagCoordinator where
  opts := opts.applyDefaults
  lagging := false
  currentLag := 0
  deferredSince := fun _ => none
  yieldsByJob := fun _ => 0
  overrideByJob := fun _ => 0
  transitionsToLagging := 0
  transitionsToRecovered := 0
  totalYields := 0
  maxDeferralOverrides := 0

def assign {α : Type} (f : String → α) (key : String) (a : α) : String → α :=
  fun k => if k = key then a else f k

@[simp] theorem assign_self {α : Type} (f : String → α) (key : String) (a : α) :
    assign f key a key = a := if_pos rfl

theorem assign_of_ne {α : Type} {f : String → α} {key k : String} {a : α} (h : k ≠ key) :
    assign f key a k = f k := if_neg h

namespace LagCoordinator

def applyStateLocked (c : LagCoordinator) (lagging : Bool) : LagCoordinator :=
  if lagging = true ∧ c.lagging = false then
    { c with lagging := true, transitionsToLagging := c.transitionsToLagging + 1 }
  else if lagging = false ∧ c.lagging = true then
    { c with lagging := false, deferredSince := fun _ => none,
             transitionsToRecovered := c.transitionsToRecovered + 1 }
  else c

def setLagging (c : LagCoordinator) (lagging : Bool) : LagCoordinator := c.applyStateLocked lagging

def rawLag (latestLedger lastIngestedLedger : Int) : Int := i64 (latestLedger - lastIngestedLedger)

def smoothed (c : LagCoordinator) (lag : Int) : Bool :=
  if 0 < c.opts.enterLagLedgers then
    if c.lagging = false ∧ (c.opts.enterLagLedgers : Int) < lag then true
    else if c.lagging = true ∧ lag ≤ (c.opts.recoverLagLedgers : Int) then false
    else c.lagging
  else c.lagging

def observeLag (c : LagCoordinator) (latestLedger lastIngestedLedger : Int) :
    LagCoordinator × Bool :=
  if lastIngestedLedger ≤ 0 then ({ c with currentLag := 0 }.applyStateLocked false, false)
  else
    let lag := rawLag latestLedger lastIngestedLedger
    if lag < 0 then (c, c.lagging)
    else ({ c with currentLag := lag }.applyStateLocked (c.smoothed lag), c.smoothed lag)

def jobName (job : String) : String := if job = "" then "background" else job

/-- The answer to a poll; a timer that runs for 292 years saturates, which is past every
deferral. -/
def shouldYield (c : LagCoordinator) (now : Int) (job : String) : LagCoordinator × Bool × String :=
  let job := jobName job
  if c.opts.enabled = false ∨ c.lagging = false then
    ({ c with deferredSince := assign c.deferredSince job none }, false, "")
  else
    let since := (c.deferredSince job).getD now
    if 0 < c.opts.maxDeferral ∧ c.opts.maxDeferral ≤ now - since then
      ({ c with deferredSince := assign c.deferredSince job (some now)
                maxDeferralOverrides := c.maxDeferralOverrides + 1
                overrideByJob := assign c.overrideByJob job (c.overrideByJob job + 1) },
        false, "max_deferral_reached")
    else
      ({ c with deferredSince := assign c.deferredSince job (some since)
                totalYields := c.totalYields + 1
                yieldsByJob := assign c.yieldsByJob job (c.yieldsByJob job + 1) },
        true, "ingest_lagging")

end LagCoordinator

/-! ## Runs -/

inductive LagCall where
  | observeLag (latestLedger lastIngestedLedger : Int)
  | setLagging (lagging : Bool)
  | shouldYield (job : String)
  deriving DecidableEq, Repr

namespace LagCoordinator

def call (c : LagCoordinator) : Int × LagCall → LagCoordinator
  | (_, .observeLag latest last) => (c.observeLag latest last).1
  | (_, .setLagging lagging) => c.setLagging lagging
  | (now, .shouldYield job) => (c.shouldYield now job).1

def run (c : LagCoordinator) (calls : List (Int × LagCall)) : LagCoordinator := calls.foldl call c

def NoPass (job : String) : LagCoordinator → List (Int × LagCall) → Prop
  | _, [] => True
  | c, (now, x) :: rest =>
    (∀ job', x = .shouldYield job' → jobName job' = jobName job →
      (c.shouldYield now job').2.1 = true) ∧ NoPass job (c.call (now, x)) rest

def StaysLagging : LagCoordinator → List (Int × LagCall) → Prop
  | c, [] => c.lagging = true
  | c, x :: rest => c.lagging = true ∧ StaysLagging (c.call x) rest

variable {c : LagCoordinator} {now : Int} {x : LagCall}

/-! ## One call -/

theorem applyStateLocked_opts (lagging : Bool) : (c.applyStateLocked lagging).opts = c.opts := by
  unfold applyStateLocked
  split_ifs <;> rfl

theorem applyStateLocked_lagging (lagging : Bool) :
    (c.applyStateLocked lagging).lagging = lagging := by
  unfold applyStateLocked
  split_ifs with hup hdown
  · exact hup.1.symm
  · exact hdown.1.symm
  · cases lagging <;> cases hc : c.lagging <;> simp_all

variable {job : String}

theorem applyStateLocked_deferredSince {lagging : Bool} {since : Int}
    (h : (c.applyStateLocked lagging).deferredSince job = some since) :
    c.deferredSince job = some since := by
  unfold applyStateLocked at h
  split_ifs at h with hup hdown
  · exact h
  · exact h

theorem applyStateLocked_true (hc : c.lagging = true) : c.applyStateLocked true = c := by
  unfold applyStateLocked
  rw [if_neg (by simp [hc]), if_neg (by simp)]

theorem shouldYield_true (h : (c.shouldYield now job).2.1 = true) :
    ∃ since, (c.deferredSince (jobName job)).getD now = since ∧
      (c.shouldYield now job).1.deferredSince (jobName job) = some since ∧
      (0 < c.opts.maxDeferral → now - since < c.opts.maxDeferral) := by
  unfold shouldYield at h ⊢
  dsimp only at h ⊢
  split_ifs at h ⊢ with hidle hover
  refine ⟨_, rfl, assign_self _ _ _, ?_⟩
  intro hpos
  exact lt_of_not_ge fun hge => hover ⟨hpos, hge⟩

theorem call_opts (x : Int × LagCall) : (c.call x).opts = c.opts := by
  obtain ⟨now, x⟩ := x
  cases x with
  | observeLag latest last =>
    simp only [call, observeLag]
    split_ifs
    · exact applyStateLocked_opts false
    · rfl
    · exact applyStateLocked_opts _
  | setLagging lagging => exact applyStateLocked_opts lagging
  | shouldYield job =>
    simp only [call, shouldYield]
    split_ifs <;> rfl

theorem call_timers {latest : Int} {x : Int × LagCall} (hx : x.1 ≤ latest)
    (h : ∀ job since, c.deferredSince job = some since → since ≤ latest) :
    ∀ job since, (c.call x).deferredSince job = some since → since ≤ latest := by
  obtain ⟨now, x⟩ := x
  intro job since hsince
  cases x with
  | observeLag newest last =>
    simp only [call, observeLag] at hsince
    split_ifs at hsince
    · have hold := applyStateLocked_deferredSince hsince
      exact h job since hold
    · exact h job since hsince
    · have hold := applyStateLocked_deferredSince hsince
      exact h job since hold
  | setLagging lagging => exact h job since (applyStateLocked_deferredSince hsince)
  | shouldYield polled =>
    have hassigned : ∀ entry : Option Int, (∀ t, entry = some t → t ≤ latest) →
        assign c.deferredSince (jobName polled) entry job = some since → since ≤ latest := by
      intro entry hentry hsince
      unfold assign at hsince
      split_ifs at hsince with hjob
      · exact hentry since hsince
      · exact h job since hsince
    simp only [call, shouldYield] at hsince
    split_ifs at hsince
    · exact hassigned none nofun hsince
    · exact hassigned (some now) (fun t ht => Option.some.inj ht ▸ hx) hsince
    · refine hassigned _ ?_ hsince
      intro t ht
      cases hold : c.deferredSince (jobName polled) with
      | none =>
        rw [hold] at ht
        exact Option.some.inj ht ▸ hx
      | some old =>
        rw [hold] at ht
        exact Option.some.inj ht ▸ h _ old hold

/-- While the coordinator lags and the job gets no pass, the job's timer runs on. -/
theorem call_keeps {since : Int} (hc : c.lagging = true)
    (hc' : (c.call (now, x)).lagging = true) (hsince : c.deferredSince (jobName job) = some since)
    (hpass : ∀ job', x = .shouldYield job' → jobName job' = jobName job →
      (c.shouldYield now job').2.1 = true) :
    (c.call (now, x)).deferredSince (jobName job) = some since := by
  cases x with
  | observeLag latest last =>
    simp only [call, observeLag] at hc' ⊢
    split_ifs at hc' ⊢ with hcold hneg
    · rw [applyStateLocked_lagging] at hc'
      cases hc'
    · exact hsince
    · rw [applyStateLocked_lagging] at hc'
      rw [hc']
      have hsame := applyStateLocked_true (c := { c with currentLag := rawLag latest last }) hc
      rw [hsame]
      exact hsince
  | setLagging lagging =>
    obtain rfl : lagging = true := by
      rw [← applyStateLocked_lagging lagging]
      exact hc'
    have hsame : c.call (now, .setLagging true) = c := applyStateLocked_true hc
    rw [hsame]
    exact hsince
  | shouldYield polled =>
    by_cases hjob : jobName polled = jobName job
    · obtain ⟨since', hold, hnew, -⟩ := shouldYield_true (hpass polled rfl hjob)
      rw [hjob, hsince] at hold
      rw [← hjob]
      rw [← hold] at hnew
      exact hnew
    · have hother : ∀ entry, assign c.deferredSince (jobName polled) entry (jobName job) =
          some since := by
        intro entry
        rw [assign_of_ne (Ne.symm hjob)]
        exact hsince
      simp only [call, shouldYield]
      split_ifs <;> exact hother _

/-! ## Whole runs -/

theorem run_opts (calls : List (Int × LagCall)) : (c.run calls).opts = c.opts := by
  induction calls generalizing c with
  | nil => rfl
  | cons x rest ih => exact ih.trans (call_opts x)

theorem run_timers {latest : Int} (calls : List (Int × LagCall)) (hcalls : ∀ x ∈ calls, x.1 ≤ latest)
    (h : ∀ job since, c.deferredSince job = some since → since ≤ latest) :
    ∀ job since, (c.run calls).deferredSince job = some since → since ≤ latest := by
  induction calls generalizing c with
  | nil => exact h
  | cons x rest ih =>
    exact ih (fun y hy => hcalls y (.tail _ hy))
      (call_timers (hcalls x (.head _)) h)

theorem run_keeps {since : Int} (calls : List (Int × LagCall))
    (hlagging : StaysLagging c calls) (hpass : NoPass job c calls)
    (hsince : c.deferredSince (jobName job) = some since) :
    (c.run calls).deferredSince (jobName job) = some since := by
  induction calls generalizing c with
  | nil => exact hsince
  | cons x rest ih =>
    obtain ⟨now, x⟩ := x
    have hnext : (c.call (now, x)).lagging = true := by
      cases rest with
      | nil => exact hlagging.2
      | cons y rest => exact hlagging.2.1
    exact ih hlagging.2 hpass.2 (call_keeps hlagging.1 hnext hsince hpass.1)

end LagCoordinator

open LagCoordinator

theorem applyDefaults_maxDeferral (opts : LagBackpressureOptions) :
    0 < opts.applyDefaults.maxDeferral := by
  unfold LagBackpressureOptions.applyDefaults defaultMaxLagDeferral
  dsimp only
  split <;> omega

theorem observeLag_transition (c : LagCoordinator) (latest last : Int) :
    (c.lagging = false → (c.observeLag latest last).1.lagging = true →
        (c.opts.enterLagLedgers : Int) < rawLag latest last) ∧
      (c.lagging = true → (c.observeLag latest last).1.lagging = false →
        rawLag latest last ≤ c.opts.recoverLagLedgers ∨ last ≤ 0) := by
  unfold observeLag
  dsimp only
  split_ifs with hcold hneg
  · rw [applyStateLocked_lagging]
    exact ⟨nofun, fun _ _ => .inr hcold⟩
  · exact ⟨fun h h' => absurd (h.symm.trans h') Bool.false_ne_true,
      fun h h' => absurd (h'.symm.trans h) Bool.false_ne_true⟩
  · rw [applyStateLocked_lagging]
    unfold smoothed
    constructor
    · intro hc hup
      split_ifs at hup with henter hover hrecover
      · exact hover.2
      · rw [hc] at hup
        cases hup
      · rw [hc] at hup
        cases hup
    · intro hc hdown
      split_ifs at hdown with henter hover hrecover
      · exact .inl hrecover.2
      · rw [hc] at hdown
        cases hdown
      · rw [hc] at hdown
        cases hdown

/-- A job is told to yield at `t₁` and again at `t₂`, without a pass between, by a coordinator that
has made the calls before. -/
structure Deferred (c : LagCoordinator) (before between : List (Int × LagCall)) (job : String)
    (t₁ t₂ : Int) : Prop where
  clock : (before.map Prod.fst ++ t₁ :: (between.map Prod.fst ++ [t₂])).Pairwise (· ≤ ·)
  first : ((c.run before).shouldYield t₁ job).2.1 = true
  noPass : NoPass job ((c.run before).shouldYield t₁ job).1 between
  second : ((((c.run before).shouldYield t₁ job).1.run between).shouldYield t₂ job).2.1 = true

/-- In every run of a coordinator, a job that is told to yield twice without a pass between is told
so within the maximal deferral, provided the coordinator does not leave the lagging state between;
and observations move the flag only across the two thresholds. -/
theorem yields_end_within_maxDeferral (opts : LagBackpressureOptions)
    (before : List (Int × LagCall)) :
    (∀ between job t₁ t₂, Deferred (newLagCoordinator opts) before between job t₁ t₂ →
        StaysLagging (((newLagCoordinator opts).run before).shouldYield t₁ job).1 between →
          t₂ - t₁ < opts.applyDefaults.maxDeferral) ∧
      ∀ latest last, (((newLagCoordinator opts).run before).lagging = false →
          (((newLagCoordinator opts).run before).observeLag latest last).1.lagging = true →
            (opts.applyDefaults.enterLagLedgers : Int) < rawLag latest last) ∧
        (((newLagCoordinator opts).run before).lagging = true →
          (((newLagCoordinator opts).run before).observeLag latest last).1.lagging = false →
            rawLag latest last ≤ opts.applyDefaults.recoverLagLedgers ∨ last ≤ 0) := by
  obtain ⟨c, hc⟩ : ∃ c, c = (newLagCoordinator opts).run before := ⟨_, rfl⟩
  have hopts : c.opts = opts.applyDefaults := by
    rw [hc]
    exact run_opts before
  rw [← hc]
  constructor
  · rintro between job t₁ t₂ ⟨hclock, hfirst, hpass, hsecond⟩ hlagging
    rw [← hc] at hfirst hpass hsecond
    have htimers : ∀ job since, c.deferredSince job = some since → since ≤ t₁ := by
      rw [hc]
      refine run_timers before ?_ nofun
      intro x hx
      exact (List.pairwise_append.mp hclock).2.2 x.1 (List.mem_map_of_mem hx) t₁ (.head _)
    obtain ⟨since, hold, hnew, -⟩ := shouldYield_true hfirst
    -- the timer that runs at `t₁` was started no later
    have hstarted : since ≤ t₁ := by
      rw [← hold]
      cases hentry : c.deferredSince (jobName job) with
      | none => exact le_rfl
      | some old => exact htimers _ old hentry
    obtain ⟨since', hold', -, hbound⟩ := shouldYield_true hsecond
    rw [run_keeps between hlagging hpass hnew] at hold'
    obtain rfl : since = since' := hold'
    have hmax : (((c.shouldYield t₁ job).1.run between).opts) = opts.applyDefaults := by
      rw [run_opts, ← hopts]
      exact call_opts (t₁, .shouldYield job)
    rw [hmax] at hbound
    have := hbound (applyDefaults_maxDeferral opts)
    omega
  · intro latest last
    rw [← hopts]
    exact observeLag_transition c latest last

/-! ## A lag that comes back -/

def tenLedgers : LagBackpressureOptions where
  enabled := true
  enterLagLedgers := 10
  recoverLagLedgers := 0
  maxDeferral := 0

theorem pruner_waits_ten_minutes :
    Deferred (newLagCoordinator tenLedgers) [(0, .observeLag 120 100)] [] "pruner" 0 600000000000 ∧
      (600000000000 : Int) - 0 < tenLedgers.applyDefaults.maxDeferral := by
  have hdeferred : Deferred (newLagCoordinator tenLedgers) [(0, .observeLag 120 100)] [] "pruner" 0
      600000000000 :=
    ⟨by decide, by decide, trivial, by decide⟩
  exact ⟨hdeferred, (yields_end_within_maxDeferral tenLedgers [(0, .observeLag 120 100)]).1 [] "pruner"
    0 600000000000 hdeferred (by show _ = true; decide)⟩

/-- The lag falls to zero for a moment and rises again, and the pruner is told to yield after more
than the deferral, without a pass between. -/
theorem recovery_restarts_deferral :
    Deferred (newLagCoordinator tenLedgers) [(0, .observeLag 120 100)]
        [(1, .observeLag 120 120), (2, .observeLag 140 120)] "pruner" 0 1200000000000 ∧
      ¬ ((1200000000000 : Int) - 0 < tenLedgers.applyDefaults.maxDeferral) := by
  refine ⟨⟨by decide, by decide, ⟨nofun, nofun, trivial⟩, by decide⟩, by decide⟩

end SoroTrail.Ingest
