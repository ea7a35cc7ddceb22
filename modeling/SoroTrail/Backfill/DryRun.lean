import SoroTrail.Backfill.Complete

/-!
# Dry runs

With `DryRun` set, `Run` walks the pages and counts, serially or with its workers, and
sends no statement to the store until `markTerminal`.  That step resets the progress
row, whatever it holds.  The moves are the answers a run gets: pages and errors of
Horizon and of the rate limiter, the end of its context, and the answer to the reset.
-/

set_option autoImplicit false

namespace SoroTrail.Backfill

open Lib Store Steps

/-- The row of `backfill_state` with its timestamps. -/
structure SavedRow where
  state : BackfillState
  startedAt : Int
  updatedAt : Int
  deriving DecidableEq, Repr

def startedRow (o : Options) (now : Int) : SavedRow := ⟨startBackfillState o, now, now⟩

inductive DryPhase where
  | serial (start through : Int) (cursor : String)
  | working (ranges : List BackfillRange) (workers : List Worker) (failedRanges : Nat) (canceled : Bool)
  | terminal (completed : Bool)
  | returned (completed failed : Bool)
  deriving DecidableEq, Repr

structure DryState where
  events : Table Event (eventKey .postgres)
  saved : Option SavedRow
  phase : DryPhase

inductive DryAnswer where
  | go
  | page (rows : List Transaction)
  | refuse
  | retry
  | giveUp
  | leave
  deriving DecidableEq, Repr

inductive DryMove where
  | cancel
  | refuse
  | page (rows : List Transaction)
  | worker (i : Nat) (answer : DryAnswer)
  | join
  | reset (now : Option Int)
  deriving DecidableEq, Repr

variable (b : Backfiller)

def dryBegin (events : Table Event (eventKey .postgres)) (saved : Option SavedRow) : DryState :=
  let o := b.opts
  if o.contractID = "" ∨ o.fromLedger ≤ 0 then ⟨events, saved, .returned false true⟩
  else if o.ranged then
    let ranges := splitLedgerRanges o.fromLedger o.toLedger o.rangeSize o.workers
    ⟨events, saved, .working ranges (initialWorkers ranges) 0 false⟩
  else ⟨events, saved, .serial o.fromLedger 0 ""⟩

def dryPage (start through : Int) (page : List Transaction) : DryPhase :=
  let o := b.opts
  if page = [] then .terminal true
  else
    let out := b.extractPage page start
    let through := if out.last > through then out.last else through
    if o.toLedger > 0 ∧ out.last > o.toLedger then .terminal true
    else if page.length < o.batchSize then .terminal true
    else .serial start through (nextCursor page)

/-- A worker in a dry run: its phase, its range and the ranges that failed. -/
def dryWorkerStep (r : BackfillRange) (canceled : Bool) :
    Worker → DryAnswer → Option (Worker × BackfillRange × Nat)
  | .pending, .go =>
    let start := r.resumeStartLedger
    let next := if r.toLedger > 0 ∧ start > r.toLedger then .completing else .fetching start ""
    some (next, { r with status := .inFlight }, 0)
  | .fetching start _, .page rows =>
    some (if rows = [] then .completing else .advancing start rows, r, 0)
  | .advancing start page, .go =>
    let out := b.extractSubRangePage page start r.toLedger
    some (afterPage b start page out, r.advance out.last, 0)
  | .completing, .go => some (.done, r.complete, 0)
  | .fetching .., .refuse => some (.erring, r, 0)
  | .erring, .retry => if canceled then none else some (.pending, r, 0)
  | .erring, .giveUp => if canceled then none else some (.done, { r with status := .failed }, 1)
  | .pending, .leave | .fetching .., .leave | .erring, .leave =>
    if canceled then some (.done, r, 0) else none
  | _, _ => none

def dryWorkers (ranges : List BackfillRange) (workers : List Worker) (failedRanges : Nat)
    (canceled : Bool) (i : Nat) (answer : DryAnswer) : Option DryPhase :=
  match workers[i]?, ranges[i]? with
  | some .waiting, some _ =>
    if answer = .go ∧ mayStart b.opts workers i then
      some (.working ranges (workers.set i .pending) failedRanges canceled)
    else none
  | some w, some r =>
    (dryWorkerStep b r canceled w answer).map fun (w', r', failures) =>
      .working (ranges.set i r') (workers.set i w') (failedRanges + failures) canceled
  | _, _ => none

/-- The phases of a dry run up to `markTerminal`. -/
def dryPhase : DryPhase → DryMove → Option DryPhase
  | .serial .., .cancel => some (.terminal false)
  | .serial .., .refuse => some (.returned false true)
  | .serial start through _, .page rows => some (dryPage b start through rows)
  | .working ranges workers failedRanges _, .cancel => some (.working ranges workers failedRanges true)
  | .working ranges workers failedRanges canceled, .worker i answer =>
    dryWorkers b ranges workers failedRanges canceled i answer
  | .working ranges workers failedRanges canceled, .join =>
    if workers.all fun w => decide (w = .done) then
      if canceled then some (.terminal false)
      else if failedRanges > 0 then some (.returned false true)
      else some (.terminal (ranges.all fun r => decide (r.status = .completed)))
    else none
  | _, _ => none

def dryStep (s : DryState) : DryMove → Option DryState
  | .reset now =>
    match s.phase, now with
    | .terminal completed, some now =>
      some { s with saved := some (startedRow b.opts now), phase := .returned completed false }
    | .terminal completed, none => some { s with phase := .returned completed true }
    | _, _ => none
  | m => (dryPhase b s.phase m).map fun phase => { s with phase := phase }

variable {b} {s s' : DryState}

/-- Only a reset that takes effect writes, and it ends the run. -/
theorem dryStep_frame {m : DryMove} (h : dryStep b s m = some s') :
    s'.events = s.events ∧
      ((s'.saved = s.saved ∧ ∀ now, m ≠ .reset (some now)) ∨
        ∃ now completed, m = .reset (some now) ∧ s'.saved = some (startedRow b.opts now) ∧
          s'.phase = .returned completed false) := by
  cases m with
  | reset now =>
    simp only [dryStep] at h
    split at h
    · rename_i completed now hphase
      cases h
      exact ⟨rfl, .inr ⟨now, completed, rfl, rfl, rfl⟩⟩
    · cases h
      exact ⟨rfl, .inl ⟨rfl, by simp⟩⟩
    · cases h
  | _ =>
    obtain ⟨phase, -, rfl⟩ := Option.map_eq_some_iff.mp h
    exact ⟨rfl, .inl ⟨rfl, by simp⟩⟩

variable {completed : Bool} {ms : List DryMove}

theorem dryStep_returned {failed : Bool} (h : s.phase = .returned completed failed) (m : DryMove) :
    dryStep b s m = none := by
  cases m with
  | reset now => simp [dryStep, h]
  | _ => simp [dryStep, h, dryPhase]

theorem dryRun_returned {failed : Bool} (h : s.phase = .returned completed failed)
    (hrun : run (dryStep b) s ms = some s') : ms = [] := by
  cases ms with
  | nil => rfl
  | cons m ms => simp [run, dryStep_returned h] at hrun

theorem dryRun_frame (hrun : run (dryStep b) s ms = some s') :
    s'.events = s.events ∧
      ((s'.saved = s.saved ∧ ∀ now, .reset (some now) ∉ ms) ∨
        ∃ now, s'.saved = some (startedRow b.opts now) ∧
          ∀ now', .reset (some now') ∈ ms ↔ now' = now) := by
  induction ms generalizing s with
  | nil =>
    cases hrun
    exact ⟨rfl, .inl ⟨rfl, by simp⟩⟩
  | cons m ms ih =>
    obtain ⟨u, hstep, hrest⟩ := run_cons.mp hrun
    obtain ⟨hevents, hsaved⟩ := dryStep_frame hstep
    rcases hsaved with ⟨hsame, hne⟩ | ⟨now, completed, rfl, hreset, hphase⟩
    · have hcons : ∀ now, .reset (some now) ∈ m :: ms ↔ .reset (some now) ∈ ms := by
        intro now
        simp [(hne now).symm]
      obtain ⟨hevents', hrest⟩ := ih hrest
      refine ⟨hevents'.trans hevents, ?_⟩
      simp only [hcons]
      rw [← hsame]
      exact hrest
    · cases dryRun_returned hphase hrest
      cases hrest
      exact ⟨hevents, .inr ⟨now, hreset, by simp⟩⟩

/-- A dry run leaves the events and the progress row as they were just when no reset takes effect,
or the one that does finds the row it writes. -/
theorem dry_run_changes_nothing_iff (b : Backfiller) (events : Table Event (eventKey .postgres))
    (saved : Option SavedRow) (ms : List DryMove) (s : DryState)
    (hrun : Steps.run (dryStep b) (dryBegin b events saved) ms = some s) :
    (s.events = events ∧ s.saved = saved) ↔
      ∀ now, .reset (some now) ∈ ms → saved = some (startedRow b.opts now) := by
  have hbegin : (dryBegin b events saved).events = events ∧ (dryBegin b events saved).saved = saved := by
    rw [dryBegin]
    split
    · exact ⟨rfl, rfl⟩
    · split <;> exact ⟨rfl, rfl⟩
  obtain ⟨hevents, hsaved⟩ := dryRun_frame hrun
  rw [hbegin.1] at hevents
  rw [hbegin.2] at hsaved
  rcases hsaved with ⟨hsame, hnone⟩ | ⟨now, hreset, honce⟩
  · exact ⟨fun _ now hmem => absurd hmem (hnone now), fun _ => ⟨hevents, hsame⟩⟩
  · constructor
    · rintro ⟨-, hkept⟩ now' hmem
      rw [(honce now').mp hmem, ← hkept, hreset]
    · intro h
      exact ⟨hevents, by rw [hreset, h now ((honce now).mpr rfl)]⟩

theorem dryPhase_returns_error {phase phase' : DryPhase} {m : DryMove}
    (h : dryPhase b phase m = some phase') : phase' ≠ .returned completed false := by
  rintro rfl
  simp only [dryPhase] at h
  split at h
  · cases h
  · cases h
  · simp only [dryPage] at h
    grind
  · cases h
  · simp only [dryWorkers] at h
    split at h
    · grind
    · simp at h
    · cases h
  · grind
  · cases h

theorem dryRun_without_error_resets (hrun : run (dryStep b) s ms = some s')
    (hs : s.phase ≠ .returned completed false) (h : s'.phase = .returned completed false) :
    ∃ now, .reset (some now) ∈ ms := by
  by_contra hnone
  have halong : Along (dryStep b) (fun _ m => ∀ now, m ≠ .reset (some now)) s ms :=
    Along.of_invariant (fun _ _ _ _ _ _ => trivial) (fun _ _ hm _ => hm)
      (fun m hm now heq => hnone ⟨now, heq ▸ hm⟩) trivial
  refine halong.invariant (I := fun s => s.phase ≠ .returned completed false) ?_ hs hrun h
  intro s m s' hm _ hstep
  cases m with
  | reset now =>
    cases now with
    | some now => exact absurd rfl (hm now)
    | none =>
      simp only [dryStep] at hstep
      split at hstep
      · rename_i hnow
        cases hnow
      · cases hstep
        simp
      · cases hstep
  | _ =>
    obtain ⟨phase, hphase, rfl⟩ := Option.map_eq_some_iff.mp hstep
    exact dryPhase_returns_error hphase

/-! ## An unfinished run -/

def unfinishedRow : SavedRow := ⟨⟨"CA", 1, 100, 42, false, []⟩, 1, 2⟩

/-- Horizon refuses the first page of a dry run. -/
theorem dry_run_changes_nothing_refused :
    ∃ s, Steps.run (dryStep (transferBackfiller 2 Nat.two_pos))
        (dryBegin (transferBackfiller 2 Nat.two_pos) (Table.empty _) (some unfinishedRow)) [.refuse] = some s ∧
      s.events = Table.empty _ ∧ s.saved = some unfinishedRow :=
  ⟨_, rfl, (dry_run_changes_nothing_iff (transferBackfiller 2 Nat.two_pos) (Table.empty _)
    (some unfinishedRow) [.refuse] _ rfl).mpr (by simp)⟩

/-- A dry run over the first page, which is short: the other run has lost its progress. -/
theorem dry_run_discards_progress :
    ∃ s, Steps.run (dryStep (transferBackfiller 2 Nat.two_pos))
        (dryBegin (transferBackfiller 2 Nat.two_pos) (Table.empty _) (some unfinishedRow))
        [.page [transferTransaction 'a' 5], .reset (some 3)] = some s ∧
      s.phase = .returned true false ∧
      s.saved = some ⟨⟨Horizon.zeroHash.hexString, 5, 6, 0, false, []⟩, 3, 3⟩ ∧
      s.saved ≠ some unfinishedRow := by
  refine ⟨_, rfl, by decide +kernel, by decide +kernel, ?_⟩
  decide +kernel

end SoroTrail.Backfill
