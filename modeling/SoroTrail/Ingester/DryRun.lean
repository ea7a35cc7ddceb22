import SoroTrail.Ingester.Requests

/-!
# Dry runs

A dry run is meant to read and report.  Every path of a cycle that checks the
flag issues no write; the three places that do not check it are the per-contract
cursors of a watched page, the cursors of a completed watched sweep and the
position after a watched sweep that left the retention window.
-/

set_option autoImplicit false

namespace SoroTrail.Ingest

open Lib Rpc Store Prog Uses

def ReadOnly (o : Act) : Prop := o.writes = false

/-- The answers that keep a watched cycle away from the unchecked writes: a watched page is
empty, the watch list is empty when a sweep completes, and it cannot be read when a sweep has
left the retention window. -/
def quietAnswer : (o : Act) → Ans o → Bool
  | .getEvents .singlePageWatched _, (.ok resp : Except Err GetEventsResponse) =>
    decide (resp.events = [])
  | .listWatchedContracts .sweepComplete, (.ok watched : Except Err (List WatchedContract)) =>
    decide (watched = [])
  | .listWatchedContracts .sweepOutOfRange, (.ok _ : Except Err (List WatchedContract)) => false
  | _, _ => true

/-- The program issues no write as long as the answers are quiet. -/
def Quiet {α : Type} (p : P α) : Prop :=
  p.Uses ReadOnly fun o a => quietAnswer o a = true

theorem Seeks.quiet {α : Type} {p : P α} (h : Seeks p) : Quiet p := by
  refine Yields.weaken h ?_ fun _ _ _ => trivial
  intro o ho
  cases o with
  | getHealth => rfl
  | getIngestionState => rfl
  | getContractCursor id => rfl
  | listWatchedContracts site => rfl
  | memory f => rfl
  | _ => cases ho

theorem Collects.quiet {α : Type} {p : P α} (h : Collects p) : Quiet p := by
  refine Yields.weaken h ?_ fun _ _ _ => trivial
  intro o ho
  cases o with
  | getEvents site req => rfl
  | listWatchedContracts site => rfl
  | _ => cases ho

theorem quiet_getEvents (site : FetchSite) (req : GetEventsRequest) :
    Quiet (getEvents site req) :=
  ⟨rfl, fun _ _ => trivial⟩

theorem quiet_getHealth : Quiet getHealth := ⟨rfl, fun _ _ => trivial⟩

theorem quiet_clockNow : Quiet clockNow := ⟨rfl, fun _ _ => trivial⟩

theorem quiet_ctxDone : Quiet ctxDone := ⟨rfl, fun _ _ => trivial⟩

theorem quiet_listWatchedContracts (site : ListSite) : Quiet (listWatchedContracts site) :=
  ⟨rfl, fun _ _ => trivial⟩

theorem quiet_readMemory : Quiet readMemory := ⟨rfl, fun _ _ => trivial⟩

theorem quiet_updateMemory (f : Memory → Memory) : Quiet (updateMemory f) :=
  ⟨rfl, fun _ _ => trivial⟩

theorem quiet_warn (w : Warning) : Quiet (warn w) := ⟨rfl, fun _ _ => trivial⟩

variable {ing : Ingester}

theorem quiet_effectiveSweepWindow : Quiet (effectiveSweepWindow ing) :=
  ⟨rfl, fun _ _ => trivial⟩

theorem quiet_advance_nil : Quiet (advanceContractCursors []) :=
  ⟨rfl, fun order _ => by
    have hsave : ∀ ids : List String, Quiet (saveLatest [] ids) := by
      intro ids
      induction ids with
      | nil => trivial
      | cons id ids ih => exact ih
    exact hsave order⟩

section DryRun

variable (hdry : ing.opts.dryRun = true)
include hdry

/-! ## Paths that check the flag -/

theorem quiet_discardCursor : Quiet (discardCursor ing) := by
  unfold discardCursor
  rw [if_pos hdry]
  refine bind quiet_readMemory ?_
  intro m
  split
  · split
    · trivial
    · exact (seeks_setDryRunPosition _ _).quiet
  · trivial

theorem quiet_reclampToOldest (requested : Nat) (ids : List String) :
    Quiet (reclampToOldest ing requested ids) := by
  refine andThen (uses_wrapErr quiet_getHealth) ?_
  intro health
  refine andThen (lift (quiet_warn _)) ?_
  intro _
  split
  · trivial
  · exact lift (seeks_setDryRunPosition _ _).quiet

variable (fuel : Nat)

theorem quiet_maybeHandleTipRegression (latest : Nat) :
    Quiet (maybeHandleTipRegression ing fuel latest) := by
  unfold maybeHandleTipRegression
  rw [if_pos (.inl hdry)]
  trivial

theorem quiet_persistEventsWithReorgCheck (events : List Rpc.Event) (latest : Nat)
    (check : Bool) : Quiet (persistEventsWithReorgCheck ing fuel events latest check) := by
  rw [persistEventsWithReorgCheck_dry hdry]
  trivial

theorem quiet_singlePage (start : Nat) (cursor : String) (filters : List Rpc.EventFilter) :
    Quiet (singlePage ing fuel start cursor filters) := by
  refine andThen (attempt (quiet_getEvents _ _)) ?_
  intro r
  cases r with
  | error err =>
    dsimp only
    split
    · exact andThen (lift (quiet_discardCursor hdry)) fun _ => trivial
    · split
      · exact andThen (quiet_reclampToOldest hdry _ _) fun _ => trivial
      · trivial
  | ok resp =>
    refine andThen (quiet_maybeHandleTipRegression hdry _ _) ?_
    intro regressed
    split
    · trivial
    · refine andThen (lift quiet_clockNow) ?_
      intro now
      refine andThen (quiet_persistEventsWithReorgCheck hdry _ _ _ _) ?_
      intro _
      exact andThen (lift (seeks_setDryRunPosition _ _).quiet) fun _ => trivial

theorem quiet_singlePageWatched (filters : List Rpc.EventFilter) :
    Quiet (singlePageWatched ing fuel filters) := by
  refine andThen (seeks_earliestPosition _ _).quiet ?_
  intro start
  rw [Fallible.attempt_bind]
  refine ⟨rfl, fun r hr => ?_⟩
  cases r with
  | error err =>
    dsimp only [Prog.bind]
    split
    · exact andThen (lift (quiet_discardCursor hdry)) fun _ => trivial
    · split
      · exact andThen (quiet_reclampToOldest hdry _ _) fun _ => trivial
      · trivial
  | ok resp =>
    have hempty : resp.events = [] := of_decide_eq_true hr
    refine andThen (quiet_maybeHandleTipRegression hdry _ _) ?_
    intro regressed
    split
    · trivial
    · refine andThen (quiet_persistEventsWithReorgCheck hdry _ _ _ _) ?_
      intro _
      rw [hempty]
      exact andThen quiet_advance_nil fun _ => trivial

/-! ## Sweeps -/

theorem quiet_sweepPage (start stop : Nat) (filters : List Rpc.EventFilter) (cursor : String)
    (limit : Nat) (continueAt : String → M Unit) (hnext : ∀ c, Quiet (continueAt c)) :
    Quiet (sweepPage ing fuel start stop filters cursor limit continueAt) := by
  refine andThen (attempt (quiet_getEvents _ _)) ?_
  intro r
  cases r with
  | error err =>
    dsimp only
    split
    · exact andThen (lift (quiet_updateMemory _)) fun _ => trivial
    · split
      · exact andThen (lift (quiet_discardCursor hdry)) fun _ => trivial
      · trivial
  | ok resp =>
    refine andThen (quiet_persistEventsWithReorgCheck hdry _ _ _ _) ?_
    intro _
    refine andThen (lift (quiet_updateMemory _)) ?_
    intro _
    cases resp.events.getLast? with
    | none => trivial
    | some last =>
      dsimp only
      generalize (if resp.cursor = "" then last.cursorValue else resp.cursor) = next
      split
      · trivial
      · refine andThen (lift quiet_ctxDone) ?_
        intro ended
        split
        · trivial
        · exact hnext next

theorem quiet_sweepBatch (start stop : Nat) (filters : List Rpc.EventFilter) (n : Nat)
    (cursor : String) : Quiet (sweepBatch ing fuel start stop filters n cursor) := by
  induction n generalizing cursor with
  | zero => trivial
  | succ n ih =>
    refine andThen (lift quiet_readMemory) ?_
    intro before
    split
    · split
      · exact lift (quiet_updateMemory _)
      · exact quiet_sweepPage hdry _ _ _ _ _ _ _ ih
    · exact quiet_sweepPage hdry _ _ _ _ _ _ _ ih

omit hdry in
theorem quiet_goroutine {f : M Unit} (hf : Quiet f) : Quiet (goroutine f) := by
  refine bind hf ?_
  rintro (err | u)
  · exact bind (quiet_updateMemory _) fun _ => trivial
  · trivial

theorem quiet_sweepAll (start stop : Nat) (batches : List (List Rpc.EventFilter)) :
    Quiet (sweepAll ing fuel start stop batches) := by
  refine andThen (lift (quiet_updateMemory _)) ?_
  intro _
  refine andThen (lift ?_) ?_
  · have hschedule : ∀ n, Quiet (schedule n) := fun _ => ⟨rfl, fun _ _ => trivial⟩
    refine interleave hschedule _ _ _ ?_
    intro t ht
    obtain ⟨filters, _, rfl⟩ := List.mem_map.mp ht
    exact quiet_goroutine (quiet_sweepBatch hdry _ _ _ _ _ _)
  · intro results
    cases results <;> trivial

theorem quiet_saveSweepState (latest stop : Nat) :
    Quiet (saveSweepState ing latest stop) := by
  refine andThen (lift quiet_clockNow) ?_
  intro now
  rw [if_pos hdry]
  exact andThen (lift (seeks_setDryRunPosition _ _).quiet) fun _ => trivial

theorem quiet_windowSweep (start : Nat) (batches : List (List Rpc.EventFilter)) :
    Quiet (windowSweep ing fuel start batches) := by
  refine andThen (uses_wrapErr quiet_getHealth) ?_
  intro health
  refine andThen (quiet_maybeHandleTipRegression hdry _ _) ?_
  intro regressed
  split
  · trivial
  · split
    · trivial
    · refine andThen (lift quiet_effectiveSweepWindow) ?_
      intro window
      refine andThen (quiet_sweepAll hdry _ _ _ _) ?_
      intro failed
      refine andThen (lift quiet_readMemory) ?_
      intro m
      cases failed with
      | some err =>
        dsimp only
        split
        · exact andThen (quiet_reclampToOldest hdry _ _) fun _ => trivial
        · trivial
      | none =>
        dsimp only
        split
        · trivial
        · exact quiet_saveSweepState hdry _ _

theorem quiet_windowSweepWatched (batches : List (List Rpc.EventFilter)) :
    Quiet (windowSweepWatched ing fuel batches) := by
  refine andThen (uses_wrapErr quiet_getHealth) ?_
  intro health
  refine andThen (quiet_maybeHandleTipRegression hdry _ _) ?_
  intro regressed
  split
  · trivial
  · refine andThen seeks_earliestStartLedger.quiet ?_
    intro start
    split
    · trivial
    · refine andThen (lift quiet_effectiveSweepWindow) ?_
      intro window
      refine andThen (quiet_sweepAll hdry _ _ _ _) ?_
      intro failed
      refine andThen (lift quiet_readMemory) ?_
      intro m
      cases failed with
      | some err =>
        dsimp only
        split
        · -- a quiet watch list cannot be read here
          refine ⟨rfl, fun r hr => ?_⟩
          cases r with
          | error e => trivial
          | ok watched => cases hr
        · trivial
      | none =>
        dsimp only
        split
        · trivial
        · refine ⟨rfl, fun r hr => ?_⟩
          cases r with
          | error e => trivial
          | ok watched =>
            have hnone : watched = [] := of_decide_eq_true hr
            subst hnone
            exact quiet_saveSweepState hdry _ _

/-! ## The three entry points -/

theorem quiet_runOnce : Quiet (runOnce ing fuel) := by
  refine andThen (quiet_listWatchedContracts _) ?_
  intro watched
  split
  · refine andThen seeks_resolvePosition.quiet ?_
    intro position
    refine andThen collects_buildFilterBatches.quiet ?_
    intro batches
    split
    · exact quiet_singlePage hdry _ _ _ _
    · exact quiet_windowSweep hdry _ _ _
  · refine andThen collects_buildFilterBatches.quiet ?_
    intro batches
    split
    · exact quiet_singlePageWatched hdry _ _
    · exact quiet_windowSweepWatched hdry _ _

theorem quiet_reingestRange (from' to' : Nat) : Quiet (reingestRange ing fuel from' to') := by
  unfold reingestRange
  split
  · trivial
  · have harchived : Quiet resolveArchivedBoundary := ⟨rfl, fun _ _ => trivial⟩
    refine andThen harchived ?_
    intro archived
    split
    · trivial
    · refine andThen collects_buildFilterBatches.quiet ?_
      intro filters
      refine andThen (collects_collectBatches _ _ _ _ _).quiet ?_
      intro r
      cases r with
      | none => trivial
      | some collected => trivial

theorem quiet_rescanForReorg : Quiet (rescanForReorg ing fuel) := by
  unfold rescanForReorg
  rw [if_pos hdry]
  trivial

end DryRun

/-! ## Runs -/

inductive Call where
  | runOnce
  | rescanForReorg
  | reingestRange (fromLedger toLedger : Nat)
  deriving DecidableEq, Repr

def callBody (ing : Ingester) (fuel : Nat) : Call → P Unit
  | .runOnce => Prog.bind (runOnce ing fuel) fun _ => .ret ()
  | .rescanForReorg => Prog.bind (rescanForReorg ing fuel) fun _ => .ret ()
  | .reingestRange from' to' => Prog.bind (reingestRange ing fuel from' to') fun _ => .ret ()

/-- The process and its store, while others edit the watch list. -/
def process (b : Backend) (ing : Ingester) (fuel : Nat) :
    Service Act Ans (Node b) Choice (Table WatchedContract fun w => (w.network, w.contractID))
      Call where
  exec := Node.exec ing
  drift n watched := some { n with tables := { n.tables with watchedContracts := watched } }
  body := callBody ing fuel
  restart n := { n with mem := Memory.fresh ing }

def quietAnswers {Noise : Type} (b : Backend) (ing : Ingester) :
    Guard Act (Node b) Choice Noise where
  answer o n c := (Node.exec ing o n c).all (fun r => quietAnswer o r.1) = true
  noise _ _ := True

def SameTables {b : Backend} (t t' : Tables b) : Prop :=
  t'.events = t.events ∧ t'.eventAddresses = t.eventAddresses ∧ t'.deadLetters = t.deadLetters ∧
    t'.ingestionState = t.ingestionState ∧ t'.contractCursors = t.contractCursors

theorem quiet_call {fuel : Nat} (hdry : ing.opts.dryRun = true) (call : Call) :
    Quiet (callBody ing fuel call) := by
  cases call with
  | runOnce => exact bind (quiet_runOnce hdry fuel) fun _ => trivial
  | rescanForReorg => exact bind (quiet_rescanForReorg hdry fuel) fun _ => trivial
  | reingestRange from' to' =>
    exact bind (quiet_reingestRange hdry fuel from' to') fun _ => trivial

/-- In every run of a dry-run process whose answers are all quiet, no table the ingester writes
changes. -/
theorem dryRun_tables_unchanged {b : Backend} (ing : Ingester) (fuel : Nat)
    (hdry : ing.opts.dryRun = true) (n : Node b)
    (ms : List (Move Choice (Table WatchedContract fun w => (w.network, w.contractID)) Call))
    (final : Config Act Ans (Node b))
    (hquiet : (process b ing fuel).Along (quietAnswers b ing).allows (Service.idle n) ms)
    (hrun : (process b ing fuel).run (Service.idle n) ms = some final) :
    SameTables n.tables final.world.tables := by
  have hstable : ((process b ing fuel).sys (quietAnswers b ing)).Stable
      fun v => SameTables n.tables v.tables := by
    rintro v v' ⟨watched, _, hdrift⟩ hv
    simp only [process, Option.some.injEq] at hdrift
    subst hdrift
    exact hv
  have hstep : ∀ o v a v', ReadOnly o → SameTables n.tables v.tables →
      ((process b ing fuel).sys (quietAnswers b ing)).step o v a v' →
      quietAnswer o a = true ∧ SameTables n.tables v'.tables := by
    rintro o v a v' ho hv ⟨c, hc, hexec⟩
    have hquiet : (Node.exec ing o v c).all (fun r => quietAnswer o r.1) = true := hc
    rw [show Node.exec ing o v c = some (a, v') from hexec] at hquiet
    refine ⟨hquiet, ?_⟩
    rcases Node.exec_tables ing hexec with heq | ⟨hw, _⟩
    · rw [heq]
      exact hv
    · rw [ReadOnly, hw] at ho
      cases ho
  have hbody : ∀ call v, SameTables n.tables v.tables →
      ((process b ing fuel).sys (quietAnswers b ing)).Safe
        (fun _ u => SameTables n.tables u.tables) (fun _ u => SameTables n.tables u.tables)
        ((process b ing fuel).body call) v :=
    fun call v hv =>
      (Sys.Safe.of_yields hstable hstep (fun _ _ _ hu => hu) (quiet_call hdry call) hv).post
        fun _ _ hu => hu.2
  exact Service.run_invariant hbody hstable (fun _ h => h) ⟨rfl, rfl, rfl, rfl, rfl⟩ hquiet hrun

instance {Noise : Type} (b : Backend) (ing : Ingester) (o : Act) (n : Node b) (c : Choice) :
    Decidable ((quietAnswers b ing : Guard Act (Node b) Choice Noise).answer o n c) :=
  inferInstanceAs (Decidable ((Node.exec ing o n c).all (fun r => quietAnswer o r.1) = true))

instance {Noise : Type} (b : Backend) (ing : Ingester) (n : Node b) (x : Noise) :
    Decidable ((quietAnswers b ing : Guard Act (Node b) Choice Noise).noise n x) :=
  isTrue trivial

def dryIngester : Ingester := new Codec.verbatim true { Options.zero with dryRun := true }

def watchingOne : Node .postgres where
  tables :=
    { Tables.empty .postgres with watchedContracts := ⟨[⟨"C1", "default"⟩], by decide⟩ }
  mem := Memory.fresh dryIngester

/-- A watched cycle from a cold start: the watch list twice, the missing cursor, the missing
state, the health, and then the page with what follows it. -/
def watchedCycle (afterStart : List Choice) :
    List (Move Choice (Table WatchedContract fun w => (w.network, w.contractID)) Call) :=
  Move.call .runOnce ([.ok, .ok, .ok, .ok, .ok, .health ⟨9, 2⟩, .ok] ++ afterStart)

theorem dryRun_tables_unchanged_on_empty_page :
    ∃ final, (process .postgres dryIngester 1).run (Service.idle watchingOne)
        (watchedCycle [.page ⟨[], 9, 2, ""⟩, .order []]) = some final ∧
      SameTables watchingOne.tables final.world.tables :=
  ⟨_, rfl, dryRun_tables_unchanged dryIngester 1 rfl watchingOne
    (watchedCycle [.page ⟨[], 9, 2, ""⟩, .order []]) _ (Service.Along.of_check (by decide)) rfl⟩

/-- A watched page with one event moves the contract's cursor in a dry run. -/
theorem dryRun_saves_contract_cursor :
    ∃ ms final, (process .postgres dryIngester 1).run (Service.idle watchingOne) ms = some final ∧
      ¬ SameTables watchingOne.tables final.world.tables := by
  refine ⟨watchedCycle [.page ⟨[Rpc.Event.sample "5-1" "C1" 5], 9, 2, ""⟩, .order ["C1"], .ok], _, rfl, ?_⟩
  intro h
  have hrows := congrArg Table.rows h.2.2.2.2
  exact absurd hrows (by decide)

end SoroTrail.Ingest
