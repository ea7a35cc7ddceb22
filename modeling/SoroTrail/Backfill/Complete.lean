import SoroTrail.Backfill.Progress

/-!
# A completed backfill is complete

The invariant ties every phase of a run to the committed part of its range.  It needs
that no run resumes, and no sub-range is tried again, after a ledger of which only
the first transactions are committed.
-/

set_option autoImplicit false

namespace SoroTrail.Backfill

open Lib Store List Option Table Steps LogWalk

def State.rows (s : State) : List Event := s.events.rows

/-- No run resumes, and no sub-range is tried again, after a ledger that is committed in part. -/
def Unsplit (b : Backfiller) (s : State) : Move → Prop
  | .begin _ => ∀ st ∈ s.saved, st.resumes b.opts = true → st.ranges = [] →
      b.opts.fromLedger ≤ st.lastLedger → st.lastLedger ≤ b.opts.toLedger →
        WholeLedger b s.rows st.lastLedger
  | .worker i _ =>
    match s.run with
    | .working ranges workers _ => workers[i]? = some .pending → ∀ r ∈ ranges[i]?,
        r.fromLedger ≤ r.lastLedger → r.lastLedger ≤ r.toLedger → WholeLedger b s.rows r.lastLedger
    | _ => True
  | _ => True

variable {b : Backfiller} {s s' : State} {rows rows' : List Event} {lo hi start : Int} {n : Nat}

/-! ## Workers -/

structure Walk (b : Backfiller) (rows : List Event) (r : BackfillRange) (start : Int) (n : Nat) :
    Prop where
  above : r.fromLedger ≤ start
  low : Low b rows r.fromLedger r.toLedger start
  walked : Walked b rows start r.toLedger n

variable {r : BackfillRange} {page : List Transaction} {st : BackfillState}
  {ranges : List BackfillRange}

theorem Walk.mono (h : Walk b rows r start n) (hsub : ∀ r ∈ rows, r ∈ rows') :
    Walk b rows' r start n :=
  ⟨h.above, h.low.mono hsub, h.walked.mono (committed_mono hsub)⟩

def WorkerOk (b : Backfiller) (rows : List Event) (r : BackfillRange) : Worker → Prop
  | .fetching start cursor => ∃ n, At b cursor n ∧ Walk b rows r start n
  | .upserting start page => ∃ n, PageAt b page n ∧ Walk b rows r start n
  | .advancing start page => ∃ n, PageAt b page n ∧ Walk b rows r start (n + b.opts.batchSize)
  | .updating start page snapshot | .persisting start page snapshot =>
    (∃ n, PageAt b page n ∧ Walk b rows r start (n + b.opts.batchSize)) ∧ RangesOk b rows snapshot
  | .completing => Done b rows r.fromLedger r.toLedger
  | .sealing snapshot | .noting snapshot => RangesOk b rows snapshot
  | .waiting | .pending | .erring | .done => True

variable {r' : BackfillRange}

theorem WorkerOk.map {w : Worker} (h : WorkerOk b rows r w)
    (hwalk : ∀ {start n}, Walk b rows r start n → Walk b rows' r' start n)
    (hdone : Done b rows r.fromLedger r.toLedger → Done b rows' r'.fromLedger r'.toLedger)
    (hsub : ∀ r ∈ rows, r ∈ rows') : WorkerOk b rows' r' w := by
  cases w with
  | fetching start cursor =>
    obtain ⟨n, hat, hw⟩ := h
    exact ⟨n, hat, hwalk hw⟩
  | upserting start page | advancing start page =>
    obtain ⟨n, hpage, hw⟩ := h
    exact ⟨n, hpage, hwalk hw⟩
  | updating start page snapshot | persisting start page snapshot =>
    obtain ⟨⟨n, hpage, hw⟩, hsnap⟩ := h
    exact ⟨⟨n, hpage, hwalk hw⟩, hsnap.mono hsub⟩
  | completing => exact hdone h
  | sealing snapshot | noting snapshot => exact RangesOk.mono h hsub
  | waiting | pending | erring | done => trivial

theorem WorkerOk.mono {w : Worker} (h : WorkerOk b rows r w) (hsub : ∀ r ∈ rows, r ∈ rows') :
    WorkerOk b rows' r w :=
  h.map (fun hw => hw.mono hsub) (fun hdone => hdone.mono (committed_mono hsub)) hsub

theorem WorkerOk.congr {w : Worker} (h : WorkerOk b rows r w)
    (hfrom : r'.fromLedger = r.fromLedger) (hto : r'.toLedger = r.toLedger) :
    WorkerOk b rows r' w := by
  refine h.map (fun hw => ⟨hfrom ▸ hw.above, ?_, ?_⟩) ?_ fun _ hx => hx
  · rw [hfrom, hto]
    exact hw.low
  · rw [hto]
    exact hw.walked
  · rw [hfrom, hto]
    exact id

/-! ## What a step does to the table -/

structure Adds (b : Backfiller) (s s' : State) : Prop where
  grows : ∀ x ∈ s.rows, x ∈ s'.rows
  placed : ∀ x ∈ s'.rows, x ∈ s.rows ∨ Placed b x
  report : s'.report = s.report

theorem Adds.refl (h : s'.events = s.events) (hreport : s'.report = s.report) : Adds b s s' := by
  have hrows : s'.rows = s.rows := by rw [State.rows, h, State.rows]
  exact ⟨fun x hx => hrows ▸ hx, fun x hx => .inl (hrows ▸ hx), hreport⟩

theorem adds_upsert (hpage : PageAt b page n) (hlo : b.opts.fromLedger ≤ lo)
    (hhi : hi ≤ b.opts.toLedger) : Adds b s (s.upsert (b.pageRows lo hi [] page)) := by
  refine ⟨fun x hx => subset_insertAll hx, fun x hx => ?_, rfl⟩
  rcases mem_insertAll_first hx with hx | hx
  · exact .inl hx
  · rw [List.find?_map] at hx
    obtain ⟨e, he, rfl⟩ := map_eq_some_iff.mp hx
    exact .inr (hpage.placed hlo hhi he)

theorem walked_upsert (hpage : PageAt b page n) (h : Walked b s.rows start hi n) :
    Walked b (s.upsert (b.pageRows start hi [] page)).rows start hi (n + b.opts.batchSize) := by
  have hgrows : ∀ x ∈ s.rows, x ∈ (s.upsert (b.pageRows start hi [] page)).rows := fun x hx =>
    subset_insertAll hx
  refine (h.mono (committed_mono hgrows)).page ?_
  rw [← hpage.eq]
  exact upsert_page s.events

theorem walked_empty (hpage : PageAt b page n) (hnil : b.pageRows start hi [] page = [])
    (h : Walked b rows start hi n) : Walked b rows start hi (n + b.opts.batchSize) := by
  refine h.page ?_
  rw [← hpage.eq]
  exact between_of_pageRows_nil hnil

def Exhausts (b : Backfiller) (start hi : Int) (n : Nat) : Prop :=
  ∀ rows, Walked b rows start hi n → Done b rows start hi

theorem exhausts_end (h : b.history.txs.length ≤ n) : Exhausts b start hi n :=
  fun _ hwalked => hwalked.all h

theorem exhausts_past {tx : Transaction} (htx : tx ∈ b.history.txs.take n) (hpast : hi < tx.ledger) :
    Exhausts b start hi n :=
  fun _ hwalked => hwalked.past b.history.ordered htx hpast

theorem Walk.done (h : Walk b rows r start n) (hend : Exhausts b start r.toLedger n) :
    Done b rows r.fromLedger r.toLedger :=
  h.low.done (hend rows h.walked)

/-! ## Steps of a worker -/

section Worker

variable {r : BackfillRange} {page : List Transaction}

theorem subRange_events (hr : RangeOk b rows r) (habove : r.fromLedger ≤ start)
    (hpage : PageAt b page n) :
    (b.extractSubRangePage page start r.toLedger).events = b.pageRows start r.toLedger [] page :=
  extractSubRangePage_events hr.positive.2 (Int.lt_of_lt_of_le hr.positive.1 habove) hpage.sorted

theorem afterPage_ok (hpage : PageAt b page n) (hwalk : Walk b rows r start (n + b.opts.batchSize)) :
    WorkerOk b rows r (afterPage b start page (b.extractSubRangePage page start r.toLedger)) := by
  rw [afterPage]
  split
  · rename_i hend
    refine hwalk.done ?_
    rcases hend with hpast | hshort
    · obtain ⟨tx, htx, hgt⟩ := extractSubRangePage_past hpast
      exact exhausts_past (hpage.mem htx) hgt
    · exact exhausts_end (hpage.short hshort)
  · rename_i hmore
    exact ⟨n + b.opts.batchSize, hpage.next fun hshort => hmore (.inr hshort), hwalk⟩

theorem RangeOk.advance (hr : RangeOk b rows r) (hpage : PageAt b page n)
    (hwalk : Walk b rows r start (n + b.opts.batchSize)) :
    RangeOk b rows (r.advance (b.extractSubRangePage page start r.toLedger).last) := by
  rw [BackfillRange.advance]
  split
  · refine ⟨hr.positive, hr.inside, ?_, hr.whole⟩
    rcases extractSubRangePage_last page start r.toLedger with hzero | ⟨tx, htx, hlast⟩
    · intro hle
      have hpos := hr.positive.1
      rw [hzero] at hle
      exact absurd hle (Int.not_le.mpr hpos)
    · rw [← hlast]
      exact hwalk.low.behind hwalk.walked (hpage.mem htx)
  · exact hr

theorem advance_bounds (r : BackfillRange) (last : Int) :
    (r.advance last).fromLedger = r.fromLedger ∧ (r.advance last).toLedger = r.toLedger := by
  rw [BackfillRange.advance]
  split <;> exact ⟨rfl, rfl⟩

theorem RangeOk.complete (hr : RangeOk b rows r) (hdone : Done b rows r.fromLedger r.toLedger) :
    RangeOk b rows r.complete :=
  ⟨hr.positive, hr.inside, fun _ => hdone.shrink (le_rfl) (min_le_right _ _), fun _ => hdone⟩

theorem RangeOk.mark {status : RangeStatus} (hr : RangeOk b rows r) (hne : status ≠ .completed) :
    RangeOk b rows { r with status := status } :=
  ⟨hr.positive, hr.inside, hr.behind, fun h => absurd h hne⟩

theorem resumeStart_walk (hr : RangeOk b rows r)
    (hwhole : r.fromLedger ≤ r.lastLedger → r.lastLedger ≤ r.toLedger → WholeLedger b rows r.lastLedger) :
    Walk b rows r r.resumeStartLedger 0 := by
  refine ⟨?_, hr.behind.low hwhole, walked_zero⟩
  rw [BackfillRange.resumeStartLedger]
  split <;> omega

structure WorkerKeeps (b : Backfiller) (s s' : State) (r r' : BackfillRange) (w' : Worker) : Prop where
  adds : Adds b s s'
  bounds : r'.fromLedger = r.fromLedger ∧ r'.toLedger = r.toLedger
  range : RangeOk b s'.rows r'
  phase : WorkerOk b s'.rows r' w'
  saved : (∀ st ∈ s.saved, RangesOk b s.rows st.ranges) → ∀ st ∈ s'.saved, RangesOk b s'.rows st.ranges

theorem WorkerKeeps.still {w' : Worker}
    (hbounds : r'.fromLedger = r.fromLedger ∧ r'.toLedger = r.toLedger)
    (hrange : RangeOk b s.rows r') (hphase : WorkerOk b s.rows r' w') : WorkerKeeps b s s r r' w' :=
  ⟨Adds.refl rfl rfl, hbounds, hrange, hphase, id⟩

theorem saved_save {f : BackfillState → BackfillState}
    (hf : ∀ st, RangesOk b s.rows st.ranges → RangesOk b s.rows (f st).ranges)
    (h : ∀ st ∈ s.saved, RangesOk b s.rows st.ranges) :
    ∀ st ∈ (s.save f).saved, RangesOk b (s.save f).rows st.ranges := by
  intro st hst
  obtain ⟨old, hold, rfl⟩ := map_eq_some_iff.mp hst
  exact hf old (h old hold)

theorem updateBackfillState_ranges (lastLedger : Int) (st : BackfillState) :
    (updateBackfillState lastLedger st).ranges = st.ranges := by
  rw [updateBackfillState]
  split <;> rfl

theorem workerStep_keeps {ranges : List BackfillRange} {i failures : Nat} {w w' : Worker}
    {choice : Choice} (hfits : b.Fits) (hranges : RangesOk b s.rows ranges)
    (hget : ranges[i]? = some r) (hw : WorkerOk b s.rows r w)
    (hwhole : w = .pending → r.fromLedger ≤ r.lastLedger → r.lastLedger ≤ r.toLedger →
      WholeLedger b s.rows r.lastLedger)
    (h : workerStep b s ranges r i w choice = some (w', r', failures, s')) :
    WorkerKeeps b s s' r r' w' := by
  have hr : RangeOk b s.rows r := hranges.each r (mem_of_getElem? hget)
  cases choice <;> cases w <;>
    simp only [workerStep, Option.some.injEq, Prod.mk.injEq, reduceCtorEq] at h
  all_goals obtain ⟨rfl, rfl, -, rfl⟩ := h
  case ok.pending =>
    have hwalk := resumeStart_walk hr (hwhole rfl)
    refine .still ⟨rfl, rfl⟩ (hr.mark (by decide)) ?_
    split
    · rename_i hpast
      refine WorkerOk.congr (r := r) (hwalk.low.done ?_) rfl rfl
      exact between_empty hpast.2
    · exact ⟨0, at_zero, hwalk.above, hwalk.low, hwalk.walked⟩
  case ok.fetching start cursor =>
    obtain ⟨n, hat, hwalk⟩ := hw
    refine .still ⟨rfl, rfl⟩ hr ?_
    split
    · rename_i hnil
      exact hwalk.done (exhausts_end (hat.exhausted hfits hnil))
    · rename_i hne
      have hpage := hat.page hfits hne
      have hevents := subRange_events hr hwalk.above hpage
      split
      · exact ⟨n, hpage, hwalk⟩
      · rename_i hempty
        rw [hevents, not_not] at hempty
        exact ⟨n, hpage, hwalk.above, hwalk.low, walked_empty hpage hempty hwalk.walked⟩
  case ok.upserting start page =>
    obtain ⟨n, hpage, hwalk⟩ := hw
    have hbelow := hr.inside.1
    have habove := hwalk.above
    rw [subRange_events hr habove hpage]
    have hadds : Adds b s (s.upsert (b.pageRows start r.toLedger [] page)) :=
      adds_upsert hpage (by omega) hr.inside.2
    refine ⟨hadds, ⟨rfl, rfl⟩, hr.mono hadds.grows, ⟨n, hpage, habove, ?_, ?_⟩, fun hsaved st hst => ?_⟩
    · exact hwalk.low.mono hadds.grows
    · exact walked_upsert hpage hwalk.walked
    · exact (hsaved st hst).mono hadds.grows
  case ok.advancing start page =>
    obtain ⟨n, hpage, hwalk⟩ := hw
    have hbounds := advance_bounds r (b.extractSubRangePage page start r.toLedger).last
    have hr' := hr.advance hpage hwalk
    refine .still hbounds hr' (WorkerOk.congr ?_ hbounds.1 hbounds.2)
    split
    · exact ⟨⟨n, hpage, hwalk⟩, hranges.set hget hr' hbounds.1 hbounds.2⟩
    · exact afterPage_ok hpage hwalk
  case ok.updating start page snapshot =>
    refine ⟨Adds.refl rfl rfl, ⟨rfl, rfl⟩, hr, hw, saved_save fun st hst => ?_⟩
    rw [updateBackfillState_ranges]
    exact hst
  case ok.persisting start page snapshot =>
    obtain ⟨⟨n, hpage, hwalk⟩, hsnap⟩ := hw
    exact ⟨Adds.refl rfl rfl, ⟨rfl, rfl⟩, hr, afterPage_ok hpage hwalk, saved_save fun _ _ => hsnap⟩
  case ok.completing =>
    exact .still ⟨rfl, rfl⟩ (hr.complete hw) (hranges.set hget (hr.complete hw) rfl rfl)
  case ok.sealing | ok.noting =>
    exact ⟨Adds.refl rfl rfl, ⟨rfl, rfl⟩, hr, trivial, saved_save fun _ _ => hw⟩
  case giveUp.erring =>
    have hr' : RangeOk b s.rows { r with status := .failed } := hr.mark (by decide)
    exact .still ⟨rfl, rfl⟩ hr' (hranges.set hget hr' rfl rfl)
  all_goals exact .still ⟨rfl, rfl⟩ hr trivial

end Worker

/-! ## The serial run -/

def Records (b : Backfiller) (start : Int) (n : Nat) (last : Int) : Prop :=
  ∀ rows, Low b rows b.opts.fromLedger b.opts.toLedger start → Walked b rows start b.opts.toLedger n →
    Behind b rows b.opts.fromLedger b.opts.toLedger last

def NextOk (b : Backfiller) (start : Int) (n : Nat) : Option String → Prop
  | none => Exhausts b start b.opts.toLedger n
  | some cursor => At b cursor n

def SerialOk (b : Backfiller) (rows : List Event) (start : Int) : Serial → Prop
  | .fetching cursor => ∃ n, At b cursor n ∧ Walked b rows start b.opts.toLedger n
  | .upserting events lastLedger next => ∃ n page, PageAt b page n ∧
      events = b.pageRows start b.opts.toLedger [] page ∧ Walked b rows start b.opts.toLedger n ∧
      Records b start (n + b.opts.batchSize) lastLedger ∧ NextOk b start (n + b.opts.batchSize) next
  | .saving lastLedger next => ∃ n, Walked b rows start b.opts.toLedger n ∧
      Records b start n lastLedger ∧ NextOk b start n next

structure SavedOk (b : Backfiller) (rows : List Event) (st : BackfillState) : Prop where
  ranges : st.ranges ≠ [] → RangesOk b rows st.ranges
  serial : st.ranges = [] → Behind b rows b.opts.fromLedger b.opts.toLedger st.lastLedger
  unsplit : st.ranges = [] → b.opts.ranged = true → st.lastLedger ≤ 0

theorem SavedOk.mono (h : SavedOk b rows st) (hsub : ∀ r ∈ rows, r ∈ rows') :
    SavedOk b rows' st :=
  ⟨fun hne => (h.ranges hne).mono hsub, fun hnil => (h.serial hnil).mono hsub, h.unsplit⟩

def RunOk (b : Backfiller) (s : State) : Run → Prop
  | .idle => True
  | .starting => 0 < b.opts.fromLedger
  | .splitting ranges => RangesOk b s.rows ranges
  | .serial start _ phase => 0 < b.opts.fromLedger ∧ b.opts.fromLedger ≤ start ∧
      Low b s.rows b.opts.fromLedger b.opts.toLedger start ∧ SerialOk b s.rows start phase ∧
      b.opts.ranged = false ∧ ∀ st ∈ s.saved, st.ranges = []
  | .working ranges workers _ => RangesOk b s.rows ranges ∧ (∀ st ∈ s.saved, st.ranges ≠ []) ∧
      ∀ (i : Nat) w r, workers[i]? = some w → ranges[i]? = some r → WorkerOk b s.rows r w
  | .closing ranges _ => RangesOk b s.rows ranges
  | .completing => Done b s.rows b.opts.fromLedger b.opts.toLedger

/-- `t` is the table the first run found. -/
structure Inv (b : Backfiller) (t : Table Event (eventKey .postgres)) (s : State) : Prop where
  sound : ∀ x ∈ s.rows, x ∈ t.rows ∨ Placed b x
  saved : ∀ st ∈ s.saved, SavedOk b s.rows st
  run : RunOk b s s.run
  report : ∀ sum ∈ s.report, sum.completed = true →
    Done b s.rows b.opts.fromLedger b.opts.toLedger

variable {t : Table Event (eventKey .postgres)}

theorem inv_init (b : Backfiller) (t : Table Event (eventKey .postgres)) : Inv b t (.init t) where
  sound := fun _ hx => .inl hx
  saved := by simp [State.init]
  run := trivial
  report := by simp [State.init]

theorem Inv.goto (h : Inv b t s) {run : Run} (hrun : RunOk b s run) : Inv b t (s.goto run) := by
  refine ⟨h.sound, h.saved, ?_, h.report⟩
  cases run <;> exact hrun

theorem Inv.finish (h : Inv b t s) {completed : Bool} {failedRanges : Nat}
    (hdone : completed = true → Done b s.rows b.opts.fromLedger b.opts.toLedger) :
    Inv b t (s.finish completed failedRanges) := by
  refine ⟨h.sound, h.saved, trivial, fun sum hsum => ?_⟩
  cases hsum
  exact hdone

theorem Inv.added (h : Inv b t s) (hadds : Adds b s s')
    (hsaved : ∀ st ∈ s'.saved, SavedOk b s'.rows st) (hrun : RunOk b s' s'.run) : Inv b t s' where
  sound := by
    intro x hx
    rcases hadds.placed x hx with hx | hx
    · exact h.sound x hx
    · exact .inr hx
  saved := hsaved
  run := hrun
  report := fun sum hsum hcompleted =>
    (h.report sum (hadds.report ▸ hsum) hcompleted).mono (committed_mono hadds.grows)

/-! ## Steps of the main routine -/

theorem resumeLedger_eq (o : Options) (st : BackfillState) :
    resumeLedger o st = if st.lastLedger ≥ o.fromLedger then st.lastLedger + 1 else o.fromLedger := by
  rw [resumeLedger]
  split <;> split <;> omega

theorem resumeLedger_fresh {o : Options} (hfrom : 0 < o.fromLedger) (hlast : st.lastLedger ≤ 0) :
    resumeLedger o st = o.fromLedger := by
  rw [resumeLedger_eq, if_neg (by omega)]

theorem RangesOk.resumed (h : RangesOk b rows ranges) : RangesOk b rows (resumedRanges ranges) := by
  have hbounds : ∀ r : BackfillRange,
      (if r.status ≠ .completed then { r with status := .pending } else r).fromLedger = r.fromLedger ∧
      (if r.status ≠ .completed then { r with status := .pending } else r).toLedger = r.toLedger := by
    intro r
    split <;> exact ⟨rfl, rfl⟩
  refine ⟨fun l hlo hhi => ?_, fun r hr => ?_, by simpa [resumedRanges] using h.ne⟩
  · obtain ⟨r, hr, hfrom, hto⟩ := h.covers l hlo hhi
    exact ⟨_, mem_map_of_mem hr, by rw [(hbounds r).1]; exact hfrom, by rw [(hbounds r).2]; exact hto⟩
  · obtain ⟨old, hold, rfl⟩ := mem_map.mp hr
    split
    · exact (h.each old hold).mark (by decide)
    · exact h.each old hold

theorem initialWorkers_ok (ranges : List BackfillRange) (i : Nat) (w : Worker)
    (r : BackfillRange) (hw : (initialWorkers ranges)[i]? = some w) : WorkerOk b rows r w := by
  simp only [initialWorkers, List.getElem?_map] at hw
  obtain ⟨x, _, rfl⟩ := map_eq_some_iff.mp hw
  split <;> trivial

theorem begin_keeps (hle : b.opts.fromLedger ≤ b.opts.toLedger) (hunsplit : Unsplit b s (.begin true))
    (h : Inv b t s) : Inv b t (begin b s) := by
  rw [begin]
  split
  · exact h.finish (by simp)
  · rename_i hvalid
    have hfrom : 0 < b.opts.fromLedger := by
      omega
    cases hsaved : s.saved with
    | none => exact h.goto hfrom
    | some st =>
      have hst := h.saved st hsaved
      dsimp only
      split
      · rename_i hresumes
        split
        · rename_i hne
          refine h.goto ⟨(hst.ranges hne).resumed, fun st' hst' => ?_, fun i w r hw _ => ?_⟩
          · rw [hsaved] at hst'
            cases hst'
            exact hne
          · exact initialWorkers_ok _ i w r hw
        · rename_i hnil
          rw [not_not] at hnil
          split
          · rename_i hranged
            rw [resumeLedger_fresh hfrom (hst.unsplit hnil hranged)]
            exact h.goto (rangesOk_split hfrom hle)
          · rename_i hranged
            have hlow := (hst.serial hnil).low (hunsplit st hsaved hresumes hnil)
            rw [← resumeLedger_eq] at hlow
            refine h.goto ⟨hfrom, ?_, hlow, ⟨0, at_zero, walked_zero⟩, by simpa using hranged,
              fun st' hst' => ?_⟩
            · rw [resumeLedger_eq]
              split <;> omega
            · rw [hsaved] at hst'
              cases hst'
              exact hnil
      · exact h.goto hfrom

theorem started_keeps (hle : b.opts.fromLedger ≤ b.opts.toLedger) (hfrom : 0 < b.opts.fromLedger)
    (h : Inv b t s) : Inv b t (started b s) := by
  have hstart : SavedOk b s.rows (startBackfillState b.opts) := by
    refine ⟨absurd rfl, fun _ hlast => ?_, fun _ _ => le_rfl⟩
    exact absurd hlast (Int.not_le.mpr hfrom)
  have hsaved : Inv b t { s with saved := some (startBackfillState b.opts), run := .idle } := by
    refine ⟨h.sound, fun st hst => ?_, trivial, h.report⟩
    cases hst
    exact hstart
  rw [started]
  split
  · exact hsaved.goto (rangesOk_split hfrom hle)
  · rename_i hranged
    refine hsaved.goto ⟨hfrom, le_rfl, between_empty (by omega),
      ⟨0, at_zero, walked_zero⟩, by simpa using hranged, fun st hst => ?_⟩
    cases hst
    rfl

theorem continueSerial_keeps (through : Int) {next : Option String} (h : Inv b t s)
    (hfrom : 0 < b.opts.fromLedger) (habove : b.opts.fromLedger ≤ start)
    (hlow : Low b s.rows b.opts.fromLedger b.opts.toLedger start)
    (hwalked : Walked b s.rows start b.opts.toLedger n) (hnext : NextOk b start n next)
    (hranged : b.opts.ranged = false) (hsaved : ∀ st ∈ s.saved, st.ranges = []) :
    Inv b t (continueSerial s start through next) := by
  cases next with
  | none => exact h.goto (hlow.done (hnext s.rows hwalked))
  | some cursor => exact h.goto ⟨hfrom, habove, hlow, ⟨n, hnext, hwalked⟩, hranged, hsaved⟩

theorem records_last (hfrom : 0 < b.opts.fromLedger) (hpage : PageAt b page n) :
    Records b start (n + b.opts.batchSize) (b.extractPage page start).last := by
  intro rows hlow hwalked
  rcases extractPage_last page start with hzero | ⟨tx, htx, hlast⟩
  · rw [hzero]
    exact fun hle => absurd hle (Int.not_le.mpr hfrom)
  · rw [← hlast]
    exact hlow.behind hwalked (hpage.mem htx)

theorem exhausts_page (hfrom : 0 < b.opts.toLedger) (hpage : PageAt b page n)
    (hpast : (b.extractPage page start).last > b.opts.toLedger) :
    Exhausts b start b.opts.toLedger (n + b.opts.batchSize) := by
  rcases extractPage_last (b := b) page start with hzero | ⟨tx, htx, hlast⟩
  · omega
  · exact exhausts_past (hpage.mem htx) (by omega)

theorem serialPage_keeps {through : Int} (h : Inv b t s)
    (hle : b.opts.fromLedger ≤ b.opts.toLedger) (hfrom : 0 < b.opts.fromLedger)
    (habove : b.opts.fromLedger ≤ start)
    (hlow : Low b s.rows b.opts.fromLedger b.opts.toLedger start)
    (hwalked : Walked b s.rows start b.opts.toLedger n) (hpage : page ≠ [] → PageAt b page n)
    (hend : page = [] → b.history.txs.length ≤ n) (hranged : b.opts.ranged = false)
    (hsaved : ∀ st ∈ s.saved, st.ranges = []) : Inv b t (serialPage b s start through page) := by
  by_cases hnil : page = []
  · simp only [serialPage, if_pos hnil]
    exact h.goto (hlow.done (exhausts_end (hend hnil) s.rows hwalked))
  · have hpage := hpage hnil
    have hto : 0 < b.opts.toLedger := by omega
    have hevents := extractPage_events hto (Int.lt_of_lt_of_le hfrom habove) hpage.sorted
    have hempty : ¬ (b.extractPage page start).events ≠ [] →
        Walked b s.rows start b.opts.toLedger (n + b.opts.batchSize) := by
      rw [hevents, not_not]
      exact fun hnil => walked_empty hpage hnil hwalked
    simp only [serialPage, if_neg hnil]
    by_cases hpast : b.opts.toLedger > 0 ∧ (b.extractPage page start).last > b.opts.toLedger
    · rw [if_pos hpast]
      have hexhausts := exhausts_page hto hpage hpast.2
      split
      · refine h.goto ⟨hfrom, habove, hlow, ⟨n, page, hpage, hevents, hwalked, ?_, hexhausts⟩, hranged,
          hsaved⟩
        intro rows hlow hwalked _
        exact (hlow.done (hexhausts rows hwalked)).shrink (le_rfl) (min_le_right _ _)
      · rename_i hnil
        exact h.goto (hlow.done (hexhausts s.rows (hempty hnil)))
    · rw [if_neg hpast]
      have hnext : NextOk b start (n + b.opts.batchSize)
          (if page.length < b.opts.batchSize then none else some (nextCursor page)) := by
        split
        · rename_i hshort
          exact exhausts_end (hpage.short hshort)
        · rename_i hfull
          exact hpage.next hfull
      split
      · exact h.goto ⟨hfrom, habove, hlow,
          ⟨n, page, hpage, hevents, hwalked, records_last hfrom hpage, hnext⟩, hranged, hsaved⟩
      · rename_i hnil
        exact continueSerial_keeps _ h hfrom habove hlow (hempty hnil) hnext hranged hsaved

theorem SavedOk.update {lastLedger : Int} (h : SavedOk b rows st) (hnil : st.ranges = [])
    (hranged : b.opts.ranged = false)
    (hbehind : Behind b rows b.opts.fromLedger b.opts.toLedger lastLedger) :
    SavedOk b rows (updateBackfillState lastLedger st) := by
  rw [updateBackfillState]
  split
  · exact h
  · refine ⟨absurd hnil, fun _ => ?_, fun _ hr => ?_⟩
    · rcases max_choice st.lastLedger lastLedger with hmax | hmax
      · simp only [hmax]
        exact h.serial hnil
      · simp only [hmax]
        exact hbehind
    · rw [hranged] at hr
      cases hr

theorem serialStep_keeps {through : Int} {phase : Serial} (hfits : b.Fits)
    (hle : b.opts.fromLedger ≤ b.opts.toLedger) (h : Inv b t s)
    (hrun : RunOk b s (.serial start through phase)) : Inv b t (serialStep b s start through phase) := by
  obtain ⟨hfrom, habove, hlow, hphase, hranged, hsaved⟩ := hrun
  cases phase with
  | fetching cursor =>
    obtain ⟨n, hat, hwalked⟩ := hphase
    exact serialPage_keeps h hle hfrom habove hlow hwalked (hat.page hfits) (hat.exhausted hfits)
      hranged hsaved
  | upserting events lastLedger next =>
    obtain ⟨n, page, hpage, rfl, hwalked, hrecords, hnext⟩ := hphase
    have hadds : Adds b s (s.upsert (b.pageRows start b.opts.toLedger [] page)) :=
      adds_upsert hpage habove (le_rfl)
    have hkept := fun st hst => (h.saved st hst).mono hadds.grows
    refine h.added ⟨hadds.grows, hadds.placed, rfl⟩ hkept ?_
    exact ⟨hfrom, habove, hlow.mono hadds.grows, ⟨_, walked_upsert hpage hwalked, hrecords, hnext⟩,
      hranged, hsaved⟩
  | saving lastLedger next =>
    obtain ⟨n, hwalked, hrecords, hnext⟩ := hphase
    have hkept : Inv b t ((s.save (updateBackfillState lastLedger)).goto .idle) := by
      refine h.added (Adds.refl rfl rfl) (fun st hst => ?_) trivial
      obtain ⟨old, hold, rfl⟩ := map_eq_some_iff.mp hst
      exact (h.saved old hold).update (hsaved old hold) hranged (hrecords s.rows hlow hwalked)
    have hranges : ∀ st ∈ ((s.save (updateBackfillState lastLedger)).goto .idle).saved, st.ranges = [] := by
      intro st hst
      obtain ⟨old, hold, rfl⟩ := map_eq_some_iff.mp hst
      rw [updateBackfillState_ranges]
      exact hsaved old hold
    have hnext := continueSerial_keeps through hkept hfrom habove hlow hwalked hnext hranged hranges
    cases next <;> exact hnext

theorem savedOk_ranges (h : RangesOk b rows st.ranges) : SavedOk b rows st :=
  ⟨fun _ => h, fun hnil => absurd hnil h.ne, fun hnil => absurd hnil h.ne⟩

theorem Inv.saveRanges (h : Inv b t s) (hranges : RangesOk b s.rows ranges) :
    Inv b t ((s.save (saveBackfillRanges ranges)).goto .idle) := by
  refine h.added (Adds.refl rfl rfl) (fun st hst => ?_) trivial
  obtain ⟨old, _, rfl⟩ := map_eq_some_iff.mp hst
  exact savedOk_ranges hranges

theorem Inv.worker {workers : List Worker} {failedRanges failures i : Nat} {choice : Choice}
    {w w' : Worker} {r r' : BackfillRange} (hfits : b.Fits) (h : Inv b t s)
    (hphase : s.run = .working ranges workers failedRanges) (hunsplit : Unsplit b s (.worker i choice))
    (hw : workers[i]? = some w) (hr : ranges[i]? = some r)
    (hnext : workerStep b s ranges r i w choice = some (w', r', failures, s')) :
    WorkerKeeps b s s' r r' w' ∧
      Inv b t (s'.goto (.working (ranges.set i r') (workers.set i w') (failedRanges + failures))) := by
  have hrun := h.run
  rw [hphase] at hrun
  simp only [Unsplit, hphase] at hunsplit
  obtain ⟨hranges, hsaved, hworkers⟩ := hrun
  have hkeeps := workerStep_keeps hfits hranges hr (hworkers i w r hw hr)
    (fun hpending => hunsplit (hpending ▸ hw) r hr) hnext
  have hsavedNext := hkeeps.saved fun st hst => (h.saved st hst).ranges (hsaved st hst)
  refine ⟨hkeeps, h.added ⟨hkeeps.adds.grows, hkeeps.adds.placed, hkeeps.adds.report⟩
    (fun st hst => savedOk_ranges (hsavedNext st hst))
    ⟨?_, fun st hst => (hsavedNext st hst).ne, fun j w₁ r₁ hw₁ hr₁ => ?_⟩⟩
  · exact (hranges.mono hkeeps.adds.grows).set hr hkeeps.range hkeeps.bounds.1 hkeeps.bounds.2
  · rcases getElem?_set_cases hw₁ with ⟨rfl, rfl⟩ | ⟨hne, hw₁⟩
    · rcases getElem?_set_cases hr₁ with ⟨-, rfl⟩ | ⟨hne, -⟩
      · exact hkeeps.phase
      · exact absurd rfl hne
    · rw [List.getElem?_set_ne (Ne.symm hne)] at hr₁
      exact (hworkers j w₁ r₁ hw₁ hr₁).mono hkeeps.adds.grows

theorem step_keeps {m : Move} (hfits : b.Fits) (hle : b.opts.fromLedger ≤ b.opts.toLedger)
    (hunsplit : Unsplit b s m) (h : Inv b t s) (hstep : step b s m = some s') : Inv b t s' := by
  have hrun := h.run
  -- the last save of the ranges may fail
  have hclosed : ∀ {ok : Bool} {ranges}, RangesOk b s.rows ranges →
      Inv b t ((if ok then s.save (saveBackfillRanges ranges) else s).goto .idle) := by
    intro ok ranges hranges
    split
    · exact h.saveRanges hranges
    · exact h.goto trivial
  cases step_effect b hstep with
  | begin => exact begin_keeps hle hunsplit h
  | fail => exact h.finish (by simp)
  | started hphase => exact started_keeps hle (by rwa [hphase] at hrun) h
  | split hphase =>
    rw [hphase] at hrun
    refine (h.saveRanges hrun).goto ⟨hrun, fun st hst => ?_, fun i w r hw _ => ?_⟩
    · obtain ⟨old, _, rfl⟩ := map_eq_some_iff.mp hst
      exact hrun.ne
    · exact initialWorkers_ok _ i w r hw
  | serial hphase => exact serialStep_keeps hfits hle h (hphase ▸ hrun)
  | joined hphase =>
    rw [hphase] at hrun
    exact h.goto hrun.1
  | unfinished hphase n =>
    rw [hphase] at hrun
    exact (hclosed hrun).finish (by simp)
  | @whole ok ranges failedRanges hphase hall =>
    rw [hphase] at hrun
    refine (hclosed hrun).goto ?_
    have hrows : ((if ok then s.save (saveBackfillRanges ranges) else s).goto .idle).rows = s.rows := by
      split <;> rfl
    show Done b _ _ _
    rw [hrows]
    exact hrun.done hall
  | @completed ok hphase =>
    rw [hphase] at hrun
    cases ok with
    | false => exact h.finish fun _ => hrun
    | true =>
      have hsaved : Inv b t ((s.save completeBackfillState).goto .idle) := by
        refine h.added (Adds.refl rfl rfl) (fun st hst => ?_) trivial
        obtain ⟨old, hold, rfl⟩ := map_eq_some_iff.mp hst
        have hold := h.saved old hold
        exact ⟨hold.ranges, hold.serial, hold.unsplit⟩
      exact hsaved.finish fun _ => hrun
  | takeUp hphase hw =>
    rw [hphase] at hrun
    obtain ⟨hranges, hsaved, hworkers⟩ := hrun
    refine h.goto ⟨hranges, hsaved, fun j w r hw hr => ?_⟩
    rcases getElem?_set_cases hw with ⟨-, rfl⟩ | ⟨-, hw⟩
    · trivial
    · exact hworkers j w r hw hr
  | worker hphase hw hr hnext => exact (h.worker hfits hphase hunsplit hw hr hnext).2
  | stop => exact ⟨h.sound, h.saved, trivial, by simp⟩

theorem run_inv {ms : List Move} (hfits : b.Fits) (hle : b.opts.fromLedger ≤ b.opts.toLedger)
    (halong : Along (step b) (Unsplit b) (.init t) ms)
    (hrun : run (step b) (.init t) ms = some s) : Inv b t s :=
  halong.invariant (fun _ _ _ hunsplit h hstep => step_keeps hfits hle hunsplit h hstep) (inv_init b t) hrun

/-! ## Completeness -/

def Backfiller.InRange (b : Backfiller) (tx : Transaction) : Prop :=
  tx ∈ b.history.txs ∧ b.opts.fromLedger ≤ tx.ledger ∧ tx.ledger ≤ b.opts.toLedger

/-- A key of the table names one event, in the listed transactions and in the table as it was. -/
structure Unambiguous (b : Backfiller) (t : Table Event (eventKey .postgres)) : Prop where
  events : ∀ tx tx', b.InRange tx → b.InRange tx' → ∀ e ∈ b.extracted tx 0, ∀ e' ∈ b.extracted tx' 0,
    eventKey .postgres (liveRow .postgres e) = eventKey .postgres (liveRow .postgres e') → e = e'
  table : ∀ tx, b.InRange tx → ∀ e ∈ b.extracted tx 0, ∀ r ∈ t.rows,
    eventKey .postgres r = eventKey .postgres (liveRow .postgres e) →
      ∃ i : Int, r = liveRow .postgres { e with txIndex := i }

theorem Inv.exact {tx : Transaction} {e : Event} (h : Inv b t s) (hkeys : Unambiguous b t)
    (htx : b.InRange tx) (he : e ∈ b.extracted tx 0) (hstored : Stored s.rows e) :
    ∃ i : Int, liveRow .postgres { e with txIndex := i } ∈ s.rows := by
  obtain ⟨r, hr, hkey⟩ := hstored
  rcases h.sound r hr with hold | ⟨j, tx', e', hget, hlow, hhigh, he', rfl⟩
  · obtain ⟨i, rfl⟩ := hkeys.table tx htx e he r hold hkey
    exact ⟨i, hr⟩
  · have hmem := mem_of_find?_eq_some he'
    rw [extracted_txIndex] at hmem
    obtain ⟨e₀, he₀, rfl⟩ := mem_map.mp hmem
    have hsame := hkeys.events tx' tx ⟨mem_of_getElem? hget, hlow, hhigh⟩ htx e₀ he₀ e he hkey
    subst hsame
    exact ⟨_, hr⟩

/-- A backfill that reports completion, over any number of interrupted runs, has every event of
every transaction in its range in the table. -/
theorem completed_backfill_is_complete (b : Backfiller) (hfits : b.Fits)
    (hle : b.opts.fromLedger ≤ b.opts.toLedger) (t : Table Event (eventKey .postgres))
    (hkeys : Unambiguous b t) (ms : List Move) (s : State)
    (halong : Steps.Along (step b) (Unsplit b) (.init t) ms)
    (hrun : Steps.run (step b) (.init t) ms = some s) (hreport : s.report = some ⟨true, 0⟩) :
    ∀ tx ∈ b.history.txs, b.opts.fromLedger ≤ tx.ledger → tx.ledger ≤ b.opts.toLedger →
      ∀ (txIndexInLedger : Int) (e : Event), e ∈ b.extracted tx txIndexInLedger →
        ∃ i : Int, liveRow .postgres { e with txIndex := i } ∈ s.rows := by
  intro tx htx hlow hhigh txIndexInLedger e he
  have hinv := run_inv hfits hle halong hrun
  have hdone := hinv.report _ hreport rfl
  rw [extracted_txIndex] at he
  obtain ⟨e₀, he₀, rfl⟩ := mem_map.mp he
  obtain ⟨i, hi⟩ := hinv.exact hkeys ⟨htx, hlow, hhigh⟩ he₀ (hdone tx htx hlow hhigh e₀ he₀)
  exact ⟨i, hi⟩

/-! ## A page that ends inside a ledger -/

instance (rows : List Event) (e : Event) : Decidable (Stored rows e) :=
  inferInstanceAs (Decidable (∃ r ∈ rows, _))

instance (rows : List Event) (tx : Transaction) : Decidable (Committed b rows tx) :=
  inferInstanceAs (Decidable (∀ e ∈ b.extracted tx 0, Stored rows e))

instance (rows : List Event) (ledger : Int) : Decidable (WholeLedger b rows ledger) :=
  inferInstanceAs (Decidable (∀ tx ∈ b.history.txs, tx.ledger = ledger → Committed b rows tx))

instance (s : State) (m : Move) : Decidable (Unsplit b s m) := by
  cases m with
  | worker => dsimp only [Unsplit]; split <;> infer_instance
  | _ => dsimp only [Unsplit]; infer_instance

def transferTransaction (digit : Char) (ledger : Int) : Transaction :=
  let hash := String.ofList (List.replicate 64 digit)
  ⟨hash, "", hash, ledger, "", "txSuccess", "meta"⟩

def transferHistory : History where
  txs := [transferTransaction 'a' 5, transferTransaction 'b' 5, transferTransaction 'c' 6]
  ordered := (by decide : List.Pairwise _ _)
  tokens := by decide
  named := by decide

def transferBackfiller (batchSize : Nat) (h : 0 < batchSize) : Backfiller where
  opts := ⟨Horizon.zeroHash.hexString, 5, 6, batchSize, 1, 0, 0, h, Nat.one_pos⟩
  history := transferHistory
  codec := Ingest.Codec.verbatim
  xdr := Horizon.transferXdr Horizon.transferMetaV3

/-- The first page is committed and recorded, the process stops, and the next run ends well. -/
def interrupted (pages : Nat) : List Move :=
  .begin true :: List.replicate 4 (.main true) ++ [.stop, .begin true] ++ List.replicate pages (.main true)

theorem unambiguous_transfers : Unambiguous (transferBackfiller 2 Nat.two_pos) (empty _) where
  events := fun tx tx' htx htx' =>
    (by decide +kernel :
      ∀ tx ∈ transferHistory.txs, ∀ tx' ∈ transferHistory.txs,
        ∀ e ∈ (transferBackfiller 2 Nat.two_pos).extracted tx 0,
        ∀ e' ∈ (transferBackfiller 2 Nat.two_pos).extracted tx' 0,
        eventKey .postgres (liveRow .postgres e) = eventKey .postgres (liveRow .postgres e') → e = e')
      tx htx.1 tx' htx'.1
  table := fun _ _ _ _ r hr => absurd hr not_mem_nil

/-- Pages of two keep ledger 5 whole. -/
theorem completed_backfill_is_complete_pagesOfTwo :
    ∃ s, Steps.run (step (transferBackfiller 2 Nat.two_pos)) (.init (Table.empty _)) (interrupted 5) = some s ∧
      s.report = some ⟨true, 0⟩ ∧ ∀ tx ∈ transferHistory.txs, 5 ≤ tx.ledger → tx.ledger ≤ 6 →
        ∀ (i : Int) (e : Event), e ∈ (transferBackfiller 2 Nat.two_pos).extracted tx i →
          ∃ i : Int, liveRow .postgres { e with txIndex := i } ∈ s.rows :=
  ⟨_, rfl, rfl, completed_backfill_is_complete (transferBackfiller 2 Nat.two_pos) (by decide) (by decide)
    (Table.empty _) unambiguous_transfers (interrupted 5) _ (Steps.Along.of_check (by decide +kernel)) rfl rfl⟩

/-- With pages of one the first run ends after the first transaction of ledger 5; the next run
starts at ledger 6 and completes without the second one. -/
theorem resumed_backfill_skips_transaction :
    ∃ s, Steps.run (step (transferBackfiller 1 Nat.one_pos)) (.init (Table.empty _)) (interrupted 7) = some s ∧
      s.report = some ⟨true, 0⟩ ∧ transferTransaction 'b' 5 ∈ transferHistory.txs ∧
      ∃ e ∈ (transferBackfiller 1 Nat.one_pos).extracted (transferTransaction 'b' 5) 0,
        ∀ r ∈ s.rows, r.id ≠ e.id :=
  ⟨_, rfl, rfl, by decide, by decide +kernel⟩

end SoroTrail.Backfill
