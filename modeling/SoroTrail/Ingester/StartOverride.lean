import SoroTrail.Ingester.Requests

/-!
# The `START_LEDGER` override

`resolvePosition` returns the configured start ledger once and the persisted
position from then on.  The flag that remembers this is set before the health
check of the override, so a check that fails uses the override up: the next call
resumes from whatever is persisted.
-/

set_option autoImplicit false

namespace SoroTrail.Ingest

open Lib Rpc Store Prog

/-! ## Calls -/

/-- What the store and the RPC answer during one call of `resolvePosition`, made directly or by
`coldStartPosition`. -/
structure CallAnswers where
  state : Except Err IngestionState
  health : Except Err Health

/-- The search for a position makes no other request than the first three. -/
def CallAnswers.answer (c : CallAnswers) : (o : Act) → Memory → Ans o × Memory
  | .getIngestionState, m => (c.state, m)
  | .getHealth, m => (c.health, m)
  | .memory f, m => (m, f m)
  | .getEvents _ _, m => (.error .canceled, m)
  | .listWatchedContracts _, m => (.error .canceled, m)
  | .saveIngestionState _, m => (.error .canceled, m)
  | .getContractCursor _, m => (.error .canceled, m)
  | .saveContractCursor _, m => (.error .canceled, m)
  | .upsertEvents _, m => (.error .canceled, m)
  | .deadLetterEvent _, m => (.error .canceled, m)
  | .upsertAddressRefs _, m => (.error .canceled, m)
  | .replaceEventsInRange _ _ _, m => (.error .canceled, m)
  | .reconcileReorgRange _, m => (.error .canceled, m)
  | .resolveArchivedBoundary, m => (.error .canceled, m)
  | .effectiveSweepMultiplier, m => ((0 : Nat), m)
  | .now, m => ((0 : Int), m)
  | .sleepCtx _, m => (false, m)
  | .ctxDone, m => (true, m)
  | .rangeOrder _, m => ([], m)
  | .schedule _, m => ((0 : Nat), m)
  | .warn _, m => ((), m)

/-- The results of one call after another, each with its outcome. -/
def resolveCalls (ing : Ingester) : List CallAnswers → Memory →
    List (CallAnswers × Except Err (Nat × String))
  | [], _ => []
  | c :: rest, m =>
    (c, (Prog.eval c.answer (resolvePosition ing) m).1) ::
      resolveCalls ing rest (Prog.eval c.answer (resolvePosition ing) m).2

/-! ## What the calls should return -/

variable (ing : Ingester)

def coldStartAt (c : CallAnswers) : Option (Nat × String) :=
  match c.health with
  | .ok health => (coldStartLedger ing health).toOption.map fun ledger => (ledger, "")
  | .error _ => none

def persistedAt (c : CallAnswers) : Option (Nat × String) :=
  match c.state with
  | .ok st =>
    if st.lastCursor ≠ "" then some (0, st.lastCursor)
    else if 0 < st.lastIngestedLedger then some (ledgerAfter st.lastIngestedLedger, "")
    else coldStartAt ing c
  | .error err => if err.is .notFound then coldStartAt ing c else none

/-- The first call without an error returns the start ledger, each later one the persisted
position. -/
def AppliedOnce : List (CallAnswers × Except Err (Nat × String)) → Prop
  | [] => True
  | (_, .error _) :: rest => AppliedOnce rest
  | (_, .ok p) :: rest => p = (ing.opts.startLedger, "") ∧
      ∀ later ∈ rest, ∀ q, later.2 = .ok q → persistedAt ing later.1 = some q

def Accepts (c : CallAnswers) : Prop :=
  ∃ health, c.health = .ok health ∧
    ¬(0 < health.oldestLedger ∧ ing.opts.startLedger < health.oldestLedger)

/-- The first call passes its health check; or the first later call that finds a position finds
the start ledger anyway. -/
def OverrideLands : List CallAnswers → Prop
  | [] => True
  | c :: rest => Accepts ing c ∨
      ∀ p, rest.findSome? (persistedAt ing) = some p → p = (ing.opts.startLedger, "")

/-! ## One call -/

variable {ing}

section Call

variable (hlive : ing.opts.dryRun = false)
include hlive

theorem outcome_setDryRunPosition (c : CallAnswers) (cursor : String) (l : Int) (m : Memory) :
    (setDryRunPosition ing cursor l).eval c.answer m = ((), m) := by
  unfold setDryRunPosition
  rw [if_neg (by simp [hlive])]
  rfl

omit hlive in
theorem outcome_getHealth (c : CallAnswers) (context : String) (m : Memory) :
    Prog.eval c.answer (wrapErr context getHealth) m = (c.health.mapError (.wrap context), m) := by
  have hread : Prog.eval c.answer getHealth m = (c.health, m) := rfl
  rw [wrapErr, eval_attempt_bind, hread]
  cases c.health <;> rfl

theorem outcome_coldStart (c : CallAnswers) (m : Memory) :
    (Prog.eval c.answer (coldStart ing) m).1.toOption = coldStartAt ing c ∧
      (Prog.eval c.answer (coldStart ing) m).2 = m := by
  have hread := outcome_getHealth c "getHealth for cold start" m
  unfold coldStart coldStartAt
  cases hhealth : c.health with
  | error err =>
    rw [hhealth] at hread
    rw [eval_andThen_error hread]
    exact ⟨rfl, rfl⟩
  | ok health =>
    rw [hhealth] at hread
    rw [eval_andThen hread]
    dsimp only
    cases hcold : coldStartLedger ing health with
    | error err => exact ⟨rfl, rfl⟩
    | ok ledger =>
      have hledger : Prog.eval c.answer (Fallible.ofExcept (Except.ok ledger) : M Nat) m =
          (.ok ledger, m) := rfl
      rw [eval_andThen hledger, eval_lift_bind, outcome_setDryRunPosition hlive]
      exact ⟨rfl, rfl⟩

theorem outcome_persistedPosition (c : CallAnswers) (m : Memory) :
    (Prog.eval c.answer (persistedPosition ing) m).1.toOption = persistedAt ing c ∧
      (Prog.eval c.answer (persistedPosition ing) m).2 = m := by
  have hread : Prog.eval c.answer getIngestionState m = (c.state, m) := rfl
  unfold persistedPosition persistedAt
  rw [eval_attempt_bind, hread]
  cases c.state with
  | error err =>
    dsimp only
    split
    · exact outcome_coldStart hlive c m
    · exact ⟨rfl, rfl⟩
  | ok st =>
    dsimp only
    split
    · rw [eval_lift_bind, outcome_setDryRunPosition hlive]
      exact ⟨rfl, rfl⟩
    split
    · rw [eval_lift_bind, outcome_setDryRunPosition hlive]
      exact ⟨rfl, rfl⟩
    · exact outcome_coldStart hlive c m

variable {m : Memory}

theorem outcome_resolvePosition_applied (c : CallAnswers)
    (hm : m.startOverrideApplied = true) :
    (Prog.eval c.answer (resolvePosition ing) m).1.toOption = persistedAt ing c ∧
      (Prog.eval c.answer (resolvePosition ing) m).2 = m := by
  have hread : Prog.eval c.answer readMemory m = (m, m) := rfl
  rw [resolvePosition, eval_lift_bind, hread]
  simp only [hlive, hm, Bool.true_eq_false, false_and, if_false]
  exact outcome_persistedPosition hlive c m

theorem outcome_resolvePosition_override (hs : 0 < ing.opts.startLedger) (c : CallAnswers)
    (hm : m.startOverrideApplied = false) :
    (Prog.eval c.answer (resolvePosition ing) m).2 = { m with startOverrideApplied := true } ∧
      (Accepts ing c →
        (Prog.eval c.answer (resolvePosition ing) m).1 = .ok (ing.opts.startLedger, "")) ∧
      (¬ Accepts ing c →
        ∃ err, (Prog.eval c.answer (resolvePosition ing) m).1 = .error err) := by
  have hread : Prog.eval c.answer readMemory m = (m, m) := rfl
  have hset : Prog.eval c.answer
      (updateMemory fun m => { m with startOverrideApplied := true }) m =
        ((), { m with startOverrideApplied := true }) := rfl
  have hcheck := outcome_getHealth c "getHealth for override" { m with startOverrideApplied := true }
  rw [resolvePosition, eval_lift_bind, hread]
  simp only [hlive, hm, hs, and_self, if_true]
  rw [startOverride, eval_lift_bind, hset]
  cases hhealth : c.health with
  | error err =>
    rw [hhealth] at hcheck
    rw [eval_andThen_error hcheck]
    refine ⟨rfl, ?_, fun _ => ⟨_, rfl⟩⟩
    rintro ⟨health, hok, -⟩
    rw [hhealth] at hok
    cases hok
  | ok health =>
    rw [hhealth] at hcheck
    rw [eval_andThen hcheck]
    by_cases hbelow : 0 < health.oldestLedger ∧ ing.opts.startLedger < health.oldestLedger
    · rw [if_pos hbelow]
      refine ⟨rfl, ?_, fun _ => ⟨_, rfl⟩⟩
      rintro ⟨health', hok, hnot⟩
      rw [hhealth] at hok
      cases hok
      exact absurd hbelow hnot
    · rw [if_neg hbelow]
      exact ⟨rfl, fun _ => rfl, absurd ⟨health, hhealth, hbelow⟩⟩

/-! ## Runs of calls -/

theorem resolveCalls_applied (calls : List CallAnswers)
    (hm : m.startOverrideApplied = true) :
    ∀ result ∈ resolveCalls ing calls m, result.2.toOption = persistedAt ing result.1 := by
  induction calls with
  | nil => exact nofun
  | cons c rest ih =>
    obtain ⟨hfirst, hmem⟩ := outcome_resolvePosition_applied hlive c hm
    intro result hresult
    rw [resolveCalls, hmem] at hresult
    rcases List.mem_cons.mp hresult with rfl | hresult
    · exact hfirst
    · exact ih result hresult

theorem appliedOnce_iff_first (calls : List CallAnswers)
    (hm : m.startOverrideApplied = true) :
    AppliedOnce ing (resolveCalls ing calls m) ↔
      ∀ p, calls.findSome? (persistedAt ing) = some p → p = (ing.opts.startLedger, "") := by
  induction calls with
  | nil => simp [resolveCalls, AppliedOnce]
  | cons c rest ih =>
    obtain ⟨hfirst, hmem⟩ := outcome_resolvePosition_applied hlive c hm
    rw [resolveCalls, hmem, List.findSome?_cons, ← hfirst]
    cases (Prog.eval c.answer (resolvePosition ing) m).1 with
    | error err => exact ih
    | ok p =>
      have hlater : ∀ later ∈ resolveCalls ing rest m, ∀ q, later.2 = .ok q →
          persistedAt ing later.1 = some q := by
        intro later hmem q hq
        rw [← resolveCalls_applied hlive rest hm later hmem, hq]
        rfl
      constructor
      · rintro ⟨hp, -⟩ q ⟨⟩
        exact hp
      · intro hp
        exact ⟨hp p rfl, hlater⟩

end Call

/-- Over any run of calls of a process, the override is applied exactly once exactly when the
health check of the first call passes, or the first later call that finds a position finds the
start ledger anyway. -/
theorem override_applied_once_iff (ing : Ingester) (calls : List CallAnswers) (m : Memory)
    (hlive : ing.opts.dryRun = false) (hs : 0 < ing.opts.startLedger)
    (hm : m.startOverrideApplied = false) :
    AppliedOnce ing (resolveCalls ing calls m) ↔ OverrideLands ing calls := by
  cases calls with
  | nil => exact Iff.rfl
  | cons c rest =>
    obtain ⟨hmem, haccepted, hrefused⟩ := outcome_resolvePosition_override hlive hs c hm
    rw [resolveCalls, hmem]
    by_cases haccepts : Accepts ing c
    · rw [haccepted haccepts]
      refine ⟨fun _ => .inl haccepts, fun _ => ⟨rfl, ?_⟩⟩
      intro later hlater q hq
      rw [← resolveCalls_applied hlive rest rfl later hlater, hq]
      rfl
    · obtain ⟨err, herr⟩ := hrefused haccepts
      rw [herr]
      refine (appliedOnce_iff_first hlive rest rfl).trans ?_
      exact ⟨.inr, fun h => h.resolve_left haccepts⟩

/-! ## A check that fails -/

def startsAtHundred : Ingester := new .verbatim false { Options.zero with startLedger := 100 }

def resumable (health : Except Err Health) : CallAnswers where
  state := .ok { network := "default", lastIngestedLedger := 500, lastCursor := "500-7",
                 lastSuccessfulPoll := none }
  health := health

theorem override_applied_once_when_healthy :
    AppliedOnce startsAtHundred (resolveCalls startsAtHundred
      [resumable (.ok { latestLedger := 600, oldestLedger := 50 }), resumable (.error .canceled)]
      (Memory.fresh startsAtHundred)) :=
  (override_applied_once_iff startsAtHundred _ (Memory.fresh startsAtHundred) rfl (by decide)
    rfl).mpr (.inl ⟨_, rfl, by decide⟩)

/-- The health check of the first call fails; the second call resumes at the persisted cursor. -/
theorem override_lost_on_failed_check :
    (resolveCalls startsAtHundred [resumable (.error .canceled),
        resumable (.ok { latestLedger := 600, oldestLedger := 50 })]
      (Memory.fresh startsAtHundred)).map (fun result => result.2.toOption) =
        [none, some (0, "500-7")] ∧
      ¬ AppliedOnce startsAtHundred (resolveCalls startsAtHundred [resumable (.error .canceled),
        resumable (.ok { latestLedger := 600, oldestLedger := 50 })]
        (Memory.fresh startsAtHundred)) := by
  refine ⟨rfl, ?_⟩
  intro h
  have hfirst : (0, "500-7") = (startsAtHundred.opts.startLedger, "") := h.1
  cases hfirst

end SoroTrail.Ingest
