import SoroTrail.Replay.Settled

/-!
# The counters of a replay

A run carries totals, which start from those of the progress row when it resumes.
Every commit adds the totals to the columns of that row, the final marker too.  So the
columns are ahead of the totals from the first batch on.
-/

set_option autoImplicit false

namespace SoroTrail.Replay

open Lib Store List

/-- The stored columns differ from what the decoder makes of the raw XDR. -/
def Replayer.stale (r : Replayer) (e : Event) : Bool :=
  hasRawXDR e &&
    match r.decode e with
    | .error _ => false
    | .ok (topics, value) => !(jsonEqual topics e.topics && jsonEqual value e.value)

/-- The columns and the totals count the rows of the range in the table once each. -/
structure CountersExact (r : Replayer) (rows : List Event) (st : ReplayState) (sum : Summary) : Prop where
  processed : st.processed = rows.countP r.inRange ∧ sum.processed = st.processed
  changed : st.changed = rows.countP (fun e => r.inRange e && r.stale e) ∧ sum.changed = st.changed
  skipped : st.skipped = rows.countP (fun e => r.inRange e && !hasRawXDR e) ∧ sum.skipped = st.skipped

def ReplayState.Zero (st : ReplayState) : Prop := st.processed = 0 ∧ st.changed = 0 ∧ st.skipped = 0

/-- The totals of a run against the row; `bare` says that the table has no row of the range. -/
def Carries (s : State) (bare : Prop) (a : Args) (sum : Summary) : Prop :=
  a.dryRun = true ∨ ∃ st, s.saved = some st ∧ sum.processed ≤ st.processed ∧
    (bare → st.Zero ∧ sum.processed = 0 ∧ sum.changed = 0 ∧ sum.skipped = 0)

structure Counted (r : Replayer) (bare : Prop) (s : State) : Prop where
  rows : bare → ∀ e ∈ s.rows, r.inRange e = false
  saved : bare → ∀ st ∈ s.saved, r.resumes st = true → st.Zero
  phase : match s.phase with
    | .idle => True
    | .fetching a _ sum | .sealing a _ sum => Carries s bare a sum
    | .committing .. => ¬ bare ∧ s.saved.isSome

variable {r : Replayer} {bare : Prop} {s s' : State}

theorem Counted.finish (h : Counted r bare s) (a : Args) (sum : Summary) (ok : Bool) :
    Counted r bare (s.finish a sum ok) := ⟨h.rows, h.saved, trivial⟩

theorem counted_start (h : Counted r bare s) (a : Args) (outcome : Outcome) :
    Counted r bare (r.start s a outcome) := by
  have hzero : r.startReplayState.Zero := ⟨rfl, rfl, rfl⟩
  have hsaved : bare → ∀ st ∈ some r.startReplayState, r.resumes st = true → st.Zero := by
    intro _ st hst _
    cases hst
    exact hzero
  rw [Replayer.start]
  split
  · exact ⟨h.rows, hsaved, trivial⟩
  · exact ⟨h.rows, hsaved, .inr ⟨_, rfl, le_rfl, fun _ => ⟨hzero, rfl, rfl, rfl⟩⟩⟩

theorem counted_begin (h : Counted r bare s) (a : Args) (outcome : Outcome) :
    Counted r bare (r.begin s a outcome) := by
  have hcleared : Counted r bare { s with report := none } := ⟨h.rows, h.saved, h.phase⟩
  simp only [Replayer.begin]
  split
  · exact hcleared.finish _ _ _
  · split
    · rename_i hdry
      exact ⟨h.rows, h.saved, .inl hdry⟩
    · cases hst : s.saved with
      | none => exact counted_start hcleared a outcome
      | some st =>
        dsimp only
        split
        · rename_i hresumes
          have hresumes := (Bool.and_eq_true _ _ ▸ hresumes).2
          refine ⟨h.rows, fun hbare => hst ▸ h.saved hbare, .inr ⟨st, rfl, le_rfl, fun hbare => ?_⟩⟩
          have hzero := h.saved hbare st hst hresumes
          exact ⟨hzero, hzero⟩
        · exact counted_start hcleared a outcome

theorem nil_of_admits {rows all : List Event} {afterID : String} (h : r.admits rows afterID all = true)
    (hrows : ∀ e ∈ rows, r.inRange e = false) : all = [] := by
  simp only [Replayer.admits, Bool.and_eq_true, decide_eq_true_eq] at h
  refine List.Perm.eq_nil (h.1.trans (List.Perm.of_eq ?_))
  rw [filter_eq_nil_iff]
  intro e he
  simp [hrows e he]

theorem counted_batch {a : Args} {cursor : String} {sum : Summary} {events : List Event}
    (h : Counted r bare s) (hcarries : Carries s bare a sum) (hnil : bare → events = []) :
    Counted r bare (r.batch s a cursor sum events) := by
  rw [Replayer.batch]
  split
  · split
    · exact h.finish _ _ _
    · exact ⟨h.rows, h.saved, hcarries⟩
  · rename_i last hlast
    have hne : ¬ bare := fun hbare => by simp [hnil hbare] at hlast
    dsimp only
    split
    · rename_i hdry
      exact ⟨h.rows, h.saved, .inl hdry⟩
    · rename_i hdry
      obtain ⟨st, hst, -⟩ := hcarries.resolve_left hdry
      exact ⟨h.rows, h.saved, hne, by simp [State.goto, hst]⟩

theorem counted_seal (h : Counted r bare s) (pick : Event → Nat) (cursor : String) (a : Args)
    (sum : Summary) (ok : Bool) : Counted r bare ((r.commit s [] pick cursor sum true).finish a sum ok) := by
  refine ⟨fun hbare e he => ?_, fun _ st hst hresumes => ?_, trivial⟩
  · obtain ⟨old, hold, rfl⟩ := mem_map.mp he
    exact h.rows hbare old hold
  · obtain ⟨old, -, rfl⟩ := Option.map_eq_some_iff.mp hst
    simp [Replayer.resumes, ReplayState.advance] at hresumes

theorem counted_step {m : Move} (h : Counted r bare s) (hstep : r.step s m = some s') :
    Counted r bare s' := by
  have hcounts := h.phase
  cases step_effect hstep with try rw [hphase] at hcounts
  | begin => exact counted_begin h _ _
  | fetch hphase hadmits =>
    refine counted_batch h hcounts fun hbare => ?_
    rw [nil_of_admits hadmits (h.rows hbare), take_nil]
  | stop => exact h.finish _ _ _
  | @commit pick a rewrites cursor sum hphase =>
    obtain ⟨hne, hsome⟩ := hcounts
    obtain ⟨st, hst⟩ := Option.isSome_iff_exists.mp hsome
    refine ⟨fun hbare => absurd hbare hne, fun hbare => absurd hbare hne, .inr ?_⟩
    exact ⟨st.advance cursor sum false, by simp [State.goto, Replayer.commit, hst],
      Nat.le_add_left _ _, fun hbare => absurd hbare hne⟩
  | commitLost hphase =>
    exact ⟨fun hbare => absurd hbare hcounts.1, fun hbare => absurd hbare hcounts.1, trivial⟩
  | marker => exact counted_seal h _ _ _ _ _
  | crash => exact ⟨h.rows, h.saved, trivial⟩

/-- The replay of a range, over any interruptions and resumed runs, ends with exact counters just when
the table has no row of the range. -/
theorem replay_counters_exact_iff (r : Replayer) (t : Table Event (eventKey .postgres))
    (saved : Option ReplayState) (hnew : ∀ st ∈ saved, r.resumes st = false) (ms : List Move) (s s' : State)
    (hrun : Steps.run r.step (.init t saved) ms = some s) (a : Args) (cursor : String) (sum : Summary)
    (hphase : s.phase = .sealing a cursor sum) (hwrites : a.dryRun = false) (pick : Event → Nat)
    (hstep : r.step s (.commit pick .done) = some s') :
    (∃ st, s'.saved = some st ∧ st.completed = true ∧ s'.report = some ⟨a, sum, true⟩ ∧
      CountersExact r t.rows st sum) ↔ ∀ e ∈ t.rows, r.inRange e = false := by
  have hcounted : Counted r (∀ e ∈ t.rows, r.inRange e = false) s := by
    refine Steps.run_keeps (fun _ _ _ h hstep => counted_step h hstep) ?_ hrun
    refine ⟨fun hbare => hbare, fun _ st hst hresumes => ?_, trivial⟩
    rw [hnew st hst] at hresumes
    cases hresumes
  have hcarries := hcounted.phase
  rw [hphase] at hcarries
  obtain ⟨st, hst, hle, hbare⟩ := hcarries.resolve_left (by simp [hwrites])
  simp only [Replayer.step, hphase] at hstep
  cases hstep
  have hsaved : ((r.commit s [] pick cursor sum true).finish a sum true).saved =
      some (st.advance cursor sum true) := by
    simp [State.finish, Replayer.commit, hst]
  constructor
  · rintro ⟨st', hst', -, -, hexact⟩
    rw [hsaved] at hst'
    cases hst'
    obtain ⟨hcount, htotal⟩ := hexact.processed
    have hcolumn : (st.advance cursor sum true).processed = st.processed + sum.processed := rfl
    intro e he
    by_contra hin
    have := countP_pos_iff.mpr ⟨e, he, by simpa using hin⟩
    omega
  · intro hnone
    obtain ⟨⟨hp, hc, hk⟩, hsp, hsc, hsk⟩ := hbare hnone
    have hzero : ∀ p : Event → Bool, t.rows.countP (fun e => r.inRange e && p e) = 0 := by
      intro p
      rw [countP_eq_zero]
      intro e he
      simp [hnone e he]
    have hall : t.rows.countP r.inRange = 0 := by simpa using hzero fun _ => true
    refine ⟨_, hsaved, by simp [ReplayState.advance], rfl, ⟨?_, ?_, ?_⟩⟩
    · simp [ReplayState.advance, hp, hsp, hall]
    · simp [ReplayState.advance, hc, hsc, hzero]
    · simp [ReplayState.advance, hk, hsk, hzero]

/-- A range without rows. -/
theorem replay_counters_exact_empty :
    ∃ s s' sum, Steps.run demoReplayer.step (.init (Table.empty _) none)
        [.begin ⟨10, false, false⟩ .done, .fetch []] = some s ∧
      demoReplayer.step s (.commit (fun _ => 0) .done) = some s' ∧
      ∃ st, s'.saved = some st ∧ st.completed = true ∧ s'.report = some ⟨⟨10, false, false⟩, sum, true⟩ ∧
        CountersExact demoReplayer [] st sum := by
  obtain ⟨s, hrun, hphase⟩ : ∃ s, Steps.run demoReplayer.step (.init (Table.empty _) none)
      [.begin ⟨10, false, false⟩ .done, .fetch []] = some s ∧
      s.phase = .sealing ⟨10, false, false⟩ "" ⟨0, 0, 0, 0, true, false⟩ := ⟨_, rfl, rfl⟩
  obtain ⟨s', hstep⟩ : ∃ s', demoReplayer.step s (.commit (fun _ => 0) .done) = some s' := by
    simp [Replayer.step, hphase]
  exact ⟨s, s', _, hrun, hstep, (replay_counters_exact_iff demoReplayer (Table.empty _) none (by simp) _ s s'
    hrun _ _ _ hphase rfl (fun _ => 0) hstep).mpr (by simp [Table.empty])⟩

/-- One row, one batch: the columns count it twice. -/
theorem replay_counts_row_twice :
    (Steps.run demoReplayer.step (.init smallTable none) (oneBatch smallTable.rows)).map
        (fun s => (s.saved, s.report)) =
      some (some ⟨1, 9, "5-1", 2, 2, 0, true⟩, completedReport 1 1) ∧
    ¬ CountersExact demoReplayer smallTable.rows ⟨1, 9, "5-1", 2, 2, 0, true⟩ ⟨1, 1, 0, 0, true, false⟩ := by
  refine ⟨by decide +kernel, fun h => ?_⟩
  exact absurd h.processed.2 (by decide)

end SoroTrail.Replay
