import SoroTrail.Ingester.Node

/-!
# What the parts of a cycle ask for

The search for a resume position and the fetch of a ledger range change nothing
but the ingester's own bookkeeping.  Which requests they issue is said here once,
whatever is answered; statements about whole cycles weaken it to what they need.
-/

set_option autoImplicit false

namespace SoroTrail.Ingest

open Lib Rpc Store Prog Uses

section Context

variable {α : Type} {A : Act → Prop} {R : (o : Act) → Ans o → Prop}

theorem uses_wrapErr {context : String} {p : M α} (h : Uses A R p) :
    Uses A R (wrapErr context p) := by
  refine andThen (attempt h) ?_
  intro r
  cases r <;> trivial

end Context

variable {ing : Ingester}

/-! ## Positions -/

def SeekAct : Act → Prop
  | .getHealth => True
  | .getIngestionState => True
  | .getContractCursor _ => True
  | .listWatchedContracts .earliestStartLedger => True
  | .memory f => ∀ m, (f m).tracker = m.tracker ∧ (f m).sweep = m.sweep
  | _ => False

abbrev Seeks {α : Type} (p : P α) : Prop :=
  p.Uses SeekAct fun _ _ => True

theorem seeks_getHealth : Seeks getHealth := ⟨trivial, fun _ _ => trivial⟩

theorem seeks_setDryRunPosition (cursor : String) (l : Int) :
    Seeks (setDryRunPosition ing cursor l) := by
  unfold setDryRunPosition
  split
  · exact ⟨fun _ => ⟨rfl, rfl⟩, fun _ _ => trivial⟩
  · trivial

theorem seeks_coldStart : Seeks (coldStart ing) := by
  refine andThen (uses_wrapErr seeks_getHealth) ?_
  intro health
  have hresolved : Seeks (Fallible.ofExcept (coldStartLedger ing health) : M Nat) := trivial
  refine andThen hresolved ?_
  intro resolved
  exact andThen (lift (seeks_setDryRunPosition _ _)) fun _ => trivial

theorem seeks_persistedPosition : Seeks (persistedPosition ing) := by
  have hstate : Seeks getIngestionState := ⟨trivial, fun _ _ => trivial⟩
  refine andThen (attempt hstate) ?_
  intro r
  cases r with
  | error err =>
    dsimp only
    split
    · exact seeks_coldStart
    · trivial
  | ok st =>
    dsimp only
    split
    · exact andThen (lift (seeks_setDryRunPosition _ _)) fun _ => trivial
    · split
      · exact andThen (lift (seeks_setDryRunPosition _ _)) fun _ => trivial
      · exact seeks_coldStart

theorem seeks_startOverride : Seeks (startOverride ing) := by
  have happlied : Seeks (updateMemory fun m => { m with startOverrideApplied := true }) :=
    ⟨fun _ => ⟨rfl, rfl⟩, fun _ _ => trivial⟩
  refine andThen (lift happlied) ?_
  intro _
  refine andThen (uses_wrapErr seeks_getHealth) ?_
  intro health
  split <;> trivial

theorem seeks_resolvePosition : Seeks (resolvePosition ing) := by
  have hmemory : Seeks readMemory := ⟨fun _ => ⟨rfl, rfl⟩, fun _ _ => trivial⟩
  refine andThen (lift hmemory) ?_
  intro m
  split
  · split <;> trivial
  · split
    · exact seeks_startOverride
    · exact seeks_persistedPosition

theorem seeks_coldStartPosition : Seeks (coldStartPosition ing) :=
  andThen seeks_resolvePosition fun _ => trivial

theorem seeks_resolveContractPosition (id : String) :
    Seeks (resolveContractPosition ing id) := by
  have hcursor : Seeks (getContractCursor id) := ⟨trivial, fun _ _ => trivial⟩
  refine andThen (attempt hcursor) ?_
  intro r
  cases r with
  | error err =>
    dsimp only
    split
    · exact seeks_coldStartPosition
    · trivial
  | ok cc =>
    dsimp only
    split
    · trivial
    · exact seeks_coldStartPosition

theorem seeks_earliestPosition (ids : List String) (earliest : Nat) :
    Seeks (earliestPosition ing ids earliest) := by
  induction ids generalizing earliest with
  | nil => trivial
  | cons id ids ih =>
    refine andThen (seeks_resolveContractPosition id) ?_
    intro start
    exact ih _

theorem seeks_earliestStartLedger : Seeks (earliestStartLedger ing) := by
  have hwatched : Seeks (listWatchedContracts .earliestStartLedger) :=
    ⟨trivial, fun _ _ => trivial⟩
  refine andThen hwatched ?_
  intro watched
  refine andThen (seeks_earliestPosition _ _) ?_
  intro earliest
  split
  · exact seeks_coldStartPosition
  · trivial

/-! ## Moving positions -/

def SaveAct : Act → Prop
  | .saveIngestionState _ => True
  | .saveContractCursor _ => True
  | .rangeOrder _ => True
  | .now => True
  | .warn (.reclamp _ _) => True
  | o => SeekAct o

abbrev Saves {α : Type} (p : P α) : Prop :=
  p.Uses SaveAct fun _ _ => True

theorem Seeks.saves {α : Type} {p : P α} (h : Seeks p) : Saves p := by
  refine Yields.weaken h ?_ fun _ _ h => h
  intro o ho
  cases o with
  | warn w => cases ho
  | saveIngestionState st => trivial
  | saveContractCursor c => trivial
  | rangeOrder keys => trivial
  | now => trivial
  | _ => exact ho

theorem saves_readMemory : Saves readMemory := ⟨fun _ => ⟨rfl, rfl⟩, fun _ _ => trivial⟩

theorem saves_getIngestionState : Saves getIngestionState := ⟨trivial, fun _ _ => trivial⟩

theorem saves_saveIngestionState (s : IngestionState) : Saves (saveIngestionState s) :=
  ⟨trivial, fun _ _ => trivial⟩

theorem saves_saveContractCursor (c : ContractCursor) : Saves (saveContractCursor c) :=
  ⟨trivial, fun _ _ => trivial⟩

theorem saves_clockNow : Saves clockNow := ⟨trivial, fun _ _ => trivial⟩

theorem saves_discardCursor : Saves (discardCursor ing) := by
  unfold discardCursor
  split
  · refine bind saves_readMemory ?_
    intro m
    split
    · split
      · trivial
      · exact (seeks_setDryRunPosition _ _).saves
    · trivial
  · refine bind saves_getIngestionState ?_
    intro r
    cases r with
    | error err => trivial
    | ok st =>
      dsimp only
      split
      · trivial
      · exact bind (saves_saveIngestionState _) fun _ => trivial

theorem saves_saveClamped (clamped : Int) (ids : List String) : Saves (saveClamped clamped ids) := by
  induction ids with
  | nil => trivial
  | cons id ids ih =>
    exact andThen (uses_wrapErr (saves_saveContractCursor _)) fun _ => ih

theorem saves_reclampToOldest (requested : Nat) (ids : List String) :
    Saves (reclampToOldest ing requested ids) := by
  refine andThen (uses_wrapErr seeks_getHealth.saves) ?_
  intro health
  have hwarn : Saves (warn (.reclamp requested health.oldestLedger)) :=
    ⟨trivial, fun _ _ => trivial⟩
  refine andThen (lift hwarn) ?_
  intro _
  split
  · split
    · trivial
    · exact saves_saveClamped _ _
  · split
    · exact lift (seeks_setDryRunPosition _ _).saves
    · exact saves_saveIngestionState _

theorem saves_saveLatest (latest : List (String × Nat × String)) (ids : List String) :
    Saves (saveLatest latest ids) := by
  induction ids with
  | nil => trivial
  | cons id ids ih =>
    unfold saveLatest
    split
    · exact ih
    · exact andThen (uses_wrapErr (saves_saveContractCursor _)) fun _ => ih

theorem saves_advanceContractCursors (events : List Rpc.Event) :
    Saves (advanceContractCursors events) :=
  ⟨trivial, fun _ _ => saves_saveLatest _ _⟩

theorem saves_saveAll (lastIngested : Int) (watched : List WatchedContract) :
    Saves (saveAll lastIngested watched) := by
  induction watched with
  | nil => trivial
  | cons wc rest ih =>
    exact andThen (uses_wrapErr (saves_saveContractCursor _)) fun _ => ih

theorem saves_saveSweepState (latest stop : Nat) : Saves (saveSweepState ing latest stop) := by
  refine andThen (lift saves_clockNow) ?_
  intro now
  split
  · exact andThen (lift (seeks_setDryRunPosition _ _).saves) fun _ => trivial
  · exact andThen (saves_saveIngestionState _) fun _ => trivial

/-! ## Range fetch -/

def CollectAct : Act → Prop
  | .getEvents .collectBatchEventsInRange _ => True
  | .listWatchedContracts .buildFilterBatches => True
  | _ => False

abbrev Collects {α : Type} (p : P α) : Prop :=
  p.Uses CollectAct fun _ _ => True

theorem collects_buildFilterBatches : Collects (buildFilterBatches ing) := by
  refine ⟨trivial, fun r _ => ?_⟩
  cases r <;> trivial

theorem collects_collectPages (from' to' : Nat) (batch : List Rpc.EventFilter) (allow : Bool)
    (n : Nat) (cursor : String) (collected : List Rpc.Event) :
    Collects (collectPages ing from' to' batch allow n cursor collected) := by
  induction n generalizing cursor collected with
  | zero => trivial
  | succ n ih =>
    unfold collectPages
    rw [Fallible.attempt_bind]
    refine ⟨trivial, fun r _ => ?_⟩
    cases r with
    | error err =>
      dsimp only [Prog.bind]
      split
      · split <;> trivial
      · trivial
    | ok resp =>
      dsimp only [Prog.bind]
      split
      · trivial
      · generalize (if resp.cursor ≠ "" then resp.cursor else _) = next
        split
        · trivial
        · exact ih next _

theorem collects_collectBatches (fuel from' to' : Nat) (allow : Bool)
    (batches : List (List Rpc.EventFilter)) :
    Collects (collectBatches ing fuel from' to' allow batches) := by
  induction batches with
  | nil => trivial
  | cons batch rest ih =>
    have hbatch : Collects (collectBatchEventsInRange ing fuel from' to' batch allow) := by
      refine andThen (collects_collectPages from' to' batch allow fuel "" []) ?_
      intro r
      cases r with
      | none => trivial
      | some collected =>
        dsimp only
        cases collectedRows ing collected <;> trivial
    refine andThen hbatch ?_
    intro r
    cases r with
    | none => trivial
    | some rows =>
      refine andThen ih ?_
      intro r
      cases r <;> trivial

/-!
# What a repair asks for

A repair reads the watch list, the position and the chain, looks at the tracker
and then issues one kind of write, the reconciliation of its range.
-/

open Yields

/-- What a repair does to the memory: the tracker stays, records a ledger, or drops what lies
above one. -/
def TrackerStep (f : Memory → Memory) : Prop :=
  ∀ m, (f m).tracker = m.tracker ∨
    (∃ l hash, (f m).tracker = (m.tracker.recordLedgerHash l hash).2) ∨
    ∃ l, (f m).tracker = m.tracker.resetAbove l

def RepairAct : Act → Prop
  | .getEvents .collectBatchEventsInRange _ => True
  | .listWatchedContracts .buildFilterBatches => True
  | .getIngestionState => True
  | .reconcileReorgRange _ => True
  | .resolveArchivedBoundary => True
  | .memory f => TrackerStep f
  | .warn _ => True
  | _ => False

abbrev Repairs {α : Type} (p : P α) : Prop :=
  p.Uses RepairAct fun _ _ => True

theorem repairAct_writes {o : Act} (h : RepairAct o) (hw : o.writes = true) :
    ∃ options, o = .reconcileReorgRange options := by
  cases o with
  | reconcileReorgRange options => exact ⟨options, rfl⟩
  | getEvents site req => cases hw
  | listWatchedContracts site => cases hw
  | getIngestionState => cases hw
  | resolveArchivedBoundary => cases hw
  | memory f => cases hw
  | warn w => cases hw
  | _ => cases h

theorem repairs_readMemory : Repairs readMemory := ⟨fun _ => .inl rfl, fun _ _ => trivial⟩

theorem repairs_warn (w : Warning) : Repairs (warn w) := ⟨trivial, fun _ _ => trivial⟩

theorem repairs_getIngestionState : Repairs getIngestionState := ⟨trivial, fun _ _ => trivial⟩

theorem repairs_resolveArchivedBoundary : Repairs resolveArchivedBoundary :=
  ⟨trivial, fun _ _ => trivial⟩

theorem repairs_reconcileReorgRange (o : ReorgReconcileOptions) :
    Repairs (reconcileReorgRange o) :=
  ⟨trivial, fun _ _ => trivial⟩

variable {ing : Ingester}

theorem Collects.repairs {α : Type} {p : P α} (h : Collects p) : Repairs p := by
  refine weaken h ?_ fun _ _ h => h
  intro o ho
  cases o with
  | getEvents site req =>
    cases site with
    | collectBatchEventsInRange => trivial
    | _ => cases ho
  | listWatchedContracts site =>
    cases site with
    | buildFilterBatches => trivial
    | _ => cases ho
  | _ => cases ho

/-! ## The tracker -/

def TrackAct (o : Act) : Prop :=
  ∃ f, o = .memory f ∧ TrackerStep f

/-- The program does nothing but look at and change the tracker. -/
abbrev Remembers {α : Type} (p : P α) : Prop :=
  p.Uses TrackAct fun _ _ => True

theorem Remembers.repairs {α : Type} {p : P α} (h : Remembers p) : Repairs p := by
  refine weaken h ?_ fun _ _ h => h
  rintro o ⟨f, rfl, hf⟩
  exact hf

theorem remembers_trackLedger (l : Nat) (events : List Store.Event) :
    Remembers (trackLedger ing l events) :=
  ⟨⟨_, rfl, fun _ => .inr (.inl ⟨_, _, rfl⟩)⟩, fun _ _ => trivial⟩

theorem remembers_trackRange (events : List Store.Event) (first n : Nat) :
    Remembers (trackRange ing events first n) := by
  induction n generalizing first with
  | zero => trivial
  | succ n ih => exact bind (remembers_trackLedger first events) fun _ => ih (first + 1)

theorem remembers_trackLedgers (events : List Store.Event) (ls : List Nat) (range : Nat × Nat) :
    Remembers (trackLedgers ing events ls range) := by
  induction ls generalizing range with
  | nil => trivial
  | cons l ls ih => exact bind (remembers_trackLedger l events) fun _ => ih _

def trackReconciled (ing : Ingester) (events : List Store.Event)
    (fromLedger toLedger newHeadLedger : Nat) : M Unit := do
  let shortened := 0 < newHeadLedger ∧ newHeadLedger < toLedger
  if shortened then
    updateMemory fun m => { m with tracker := m.tracker.resetAbove newHeadLedger }
  let maxTrack := if shortened then newHeadLedger else toLedger
  trackRange ing events fromLedger (maxTrack + 1 - fromLedger)

theorem trackReconciled_ok (events : List Store.Event) (from' to' newHead : Nat) :
    Yields TrackAct (fun _ _ => True) (fun r => r = .ok ())
      (trackReconciled ing events from' to' newHead) := by
  have htrack : ∀ n, Yields TrackAct (fun _ _ => True)
      (fun r => r = .ok ()) (liftM (trackRange ing events from' n) : M Unit) :=
    fun n => bind (remembers_trackRange events from' n) fun _ => rfl
  unfold trackReconciled
  dsimp only
  split
  · have hreset : Remembers (updateMemory fun m =>
        { m with tracker := m.tracker.resetAbove newHead }) :=
      ⟨⟨_, rfl, fun _ => .inr (.inr ⟨_, rfl⟩)⟩, fun _ _ => trivial⟩
    exact lift_bind hreset fun _ _ => htrack _
  · exact htrack _

theorem remembers_trackReconciled (events : List Store.Event) (from' to' newHead : Nat) :
    Remembers (trackReconciled ing events from' to' newHead) :=
  (trackReconciled_ok events from' to' newHead).post fun _ _ => trivial

/-! ## The repair -/

theorem repairs_executeReorgPass (fuel from' to' newHead : Nat) :
    Repairs (executeReorgPass ing fuel from' to' newHead) := by
  refine andThen collects_buildFilterBatches.repairs ?_
  intro filters
  refine andThen (collects_collectBatches fuel from' to' false filters).repairs ?_
  intro r
  cases r with
  | none => trivial
  | some collected =>
    dsimp only
    split
    · trivial
    · refine andThen (uses_wrapErr (repairs_reconcileReorgRange _)) ?_
      intro _
      exact (remembers_trackReconciled _ _ _ _).repairs

theorem repairs_handleReorgRange (fuel from' to' newHead : Nat) :
    Repairs (handleReorgRange ing fuel from' to' newHead) := by
  unfold handleReorgRange
  split
  · trivial
  · refine andThen repairs_resolveArchivedBoundary ?_
    intro archivedThrough
    split
    · trivial
    · refine andThen (attempt repairs_getIngestionState) ?_
      intro st
      refine andThen (lift repairs_readMemory) ?_
      intro m
      dsimp only
      generalize max _ to' = frontier
      split
      · trivial
      · exact repairs_executeReorgPass fuel from' to' newHead

theorem repairs_recordIngestedLedgerFingerprints (fuel : Nat) (events : List Store.Event)
    (latest : Nat) (check : Bool) :
    Repairs (recordIngestedLedgerFingerprints ing fuel events latest check) := by
  unfold recordIngestedLedgerFingerprints
  split
  · trivial
  · refine andThen (lift (remembers_trackLedgers events _ _).repairs) ?_
    intro range
    dsimp only
    split
    · refine andThen (lift repairs_readMemory) ?_
      intro m
      refine andThen (lift (repairs_warn _)) ?_
      intro _
      exact repairs_handleReorgRange _ _ _ _
    · trivial

end SoroTrail.Ingest
