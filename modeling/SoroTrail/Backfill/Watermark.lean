import SoroTrail.Backfill.Complete

/-!
# The recorded ledger of a ranged run

`last_ledger` is raised by the contiguous watermark of the sub-ranges, and by each
worker to the last ledger of its own page.  The watermark says no more than what is
committed when no page ends inside a ledger.  A worker's own ledger says so only when
the sub-ranges before its own are complete.
-/

set_option autoImplicit false

namespace SoroTrail.Backfill

open Lib Store List Steps LogWalk

/-- No ledger of the span has transactions on two pages. -/
def Backfiller.WholePages (b : Backfiller) : Prop :=
  ∀ n < b.history.txs.length, b.opts.batchSize ∣ n → ∀ x ∈ b.history.txs.take n,
    ∀ y ∈ b.history.txs.drop n, b.opts.fromLedger ≤ x.ledger → x.ledger ≤ b.opts.toLedger →
      x.ledger < y.ledger

def Worker.records : Worker → Bool
  | .updating .. => true
  | _ => false

/-- A worker records its ledger only when every sub-range below its own is complete. -/
def InOrder (s : State) : Move → Prop
  | .worker i .ok =>
    match s.run with
    | .working ranges workers _ => ∀ w ∈ workers[i]?, w.records = true → ∀ r ∈ ranges[i]?,
        ∀ x ∈ ranges, x.fromLedger < r.fromLedger → x.status = .completed
    | _ => True
  | _ => True

/-- The recorded ledger says no more than what is committed. -/
def Understates (b : Backfiller) (s : State) : Prop :=
  ∀ st ∈ s.saved, Done b s.rows b.opts.fromLedger (min st.lastLedger b.opts.toLedger)

variable {b : Backfiller} {s s' : State} {rows rows' : List Event} {start : Int} {n : Nat}
  {r r' : BackfillRange} {ranges : List BackfillRange} {page : List Transaction}

/-! ## Whole ledgers -/

theorem WholeLedger.mono {ledger : Int} (h : WholeLedger b rows ledger)
    (hsub : ∀ r ∈ rows, r ∈ rows') : WholeLedger b rows' ledger :=
  fun tx htx hledger => committed_mono hsub tx (h tx htx hledger)

theorem Walk.wholeLedger (hpages : b.WholePages) (hr : RangeOk b rows r) (hpage : PageAt b page n)
    (hwalk : Walk b rows r start (n + b.opts.batchSize)) {tx : Transaction} (htx : tx ∈ page)
    (hlow : start ≤ tx.ledger) (hhigh : tx.ledger ≤ r.toLedger) : WholeLedger b rows tx.ledger := by
  intro y hy hledger
  have hseen : y ∈ b.history.txs.take (n + b.opts.batchSize) := by
    rw [← take_append_drop (n + b.opts.batchSize) b.history.txs] at hy
    rcases mem_append.mp hy with hy | hy
    · exact hy
    · have hbound := hr.inside
      have habove := hwalk.above
      have hlt : n + b.opts.batchSize < b.history.txs.length := by
        by_contra hge
        rw [drop_of_length_le (by omega)] at hy
        cases hy
      have := hpages _ hlt (Nat.dvd_add hpage.whole (Nat.dvd_refl _)) tx (hpage.mem htx) y hy
        (by omega) (by omega)
      omega
  exact hwalk.walked y hseen (by omega) (by omega)

structure Firm (b : Backfiller) (rows : List Event) (r : BackfillRange) : Prop where
  upper : r.lastLedger ≤ r.toLedger
  whole : r.fromLedger ≤ r.lastLedger → WholeLedger b rows r.lastLedger

theorem Firm.mono (h : Firm b rows r) (hsub : ∀ r ∈ rows, r ∈ rows') : Firm b rows' r :=
  ⟨h.upper, fun hle => (h.whole hle).mono hsub⟩

theorem Firm.done (h : Firm b rows r) (hr : RangeOk b rows r) :
    Done b rows r.fromLedger r.lastLedger := by
  intro tx htx hlo hhi
  by_cases hlast : tx.ledger = r.lastLedger
  · exact h.whole (by omega) tx htx hlast
  · have hupper := h.upper
    exact hr.behind (by omega) tx htx hlo (by omega)

theorem Firm.mark {status : RangeStatus} (h : Firm b rows r) : Firm b rows { r with status := status } :=
  ⟨h.upper, h.whole⟩

theorem extractSubRangePage_last_cases (b : Backfiller) (page : List Transaction) (start : Int)
    (hto : 0 < r.toLedger) :
    (b.extractSubRangePage page start r.toLedger).last = 0 ∨
      ∃ tx ∈ page, tx.ledger = (b.extractSubRangePage page start r.toLedger).last ∧
        start ≤ tx.ledger ∧ tx.ledger ≤ r.toLedger := by
  rcases @foldl_subRangeRow_last b start r.toLedger page .init with
    hzero | ⟨tx, htx, hlast, hlow, hhigh⟩
  · exact .inl hzero
  · exact .inr ⟨tx, htx, hlast, hlow, hhigh hto⟩

theorem Firm.advance (hpages : b.WholePages) (h : Firm b rows r) (hr : RangeOk b rows r)
    (hpage : PageAt b page n) (hwalk : Walk b rows r start (n + b.opts.batchSize)) :
    Firm b rows (r.advance (b.extractSubRangePage page start r.toLedger).last) := by
  rw [BackfillRange.advance]
  split
  · rcases extractSubRangePage_last_cases b page start hr.positive.2 with
      hzero | ⟨tx, htx, hlast, hlow, hhigh⟩
    · have hpos := hr.positive
      refine ⟨?_, fun hle => ?_⟩
      · dsimp only
        omega
      · dsimp only at hle
        omega
    · rw [← hlast]
      exact ⟨hhigh, fun _ => hwalk.wholeLedger hpages hr hpage htx hlow hhigh⟩
  · exact h

theorem Firm.complete (h : Firm b rows r) (hdone : Done b rows r.fromLedger r.toLedger) :
    Firm b rows r.complete := by
  have hlast : r.complete.lastLedger = r.toLedger := by
    have hupper := h.upper
    simp only [BackfillRange.complete]
    split <;> omega
  refine ⟨hlast.le, fun hle => ?_⟩
  rw [hlast] at hle ⊢
  intro tx htx hledger
  exact hdone tx htx (by rw [hledger]; exact hle) hledger.le

/-! ## The watermark -/

structure FirmRanges (b : Backfiller) (rows : List Event) (ranges : List BackfillRange) : Prop where
  each : ∀ r ∈ ranges, Firm b rows r
  head : ∀ r ∈ ranges.head?, r.fromLedger = b.opts.fromLedger

theorem FirmRanges.mono (h : FirmRanges b rows ranges) (hsub : ∀ r ∈ rows, r ∈ rows') :
    FirmRanges b rows' ranges :=
  ⟨fun r hr => (h.each r hr).mono hsub, h.head⟩

theorem firmRanges_nil : FirmRanges b rows [] := ⟨by simp, by simp⟩

theorem FirmRanges.set {i : Nat} (h : FirmRanges b rows ranges) (hget : ranges[i]? = some r)
    (hr : Firm b rows r') (hfrom : r'.fromLedger = r.fromLedger) :
    FirmRanges b rows (ranges.set i r') := by
  refine ⟨forall_mem_set h.each hr, fun x hx => ?_⟩
  rw [List.head?_eq_getElem?] at hx
  rcases Steps.getElem?_set_cases hx with ⟨rfl, rfl⟩ | ⟨-, hx⟩
  · rw [hfrom]
    exact h.head r (by rw [List.head?_eq_getElem?]; exact hget)
  · exact h.head x (by rw [List.head?_eq_getElem?]; exact hx)

theorem FirmRanges.resumed (h : FirmRanges b rows ranges) : FirmRanges b rows (resumedRanges ranges) := by
  refine ⟨fun r hr => ?_, fun r hr => ?_⟩
  · obtain ⟨old, hold, rfl⟩ := mem_map.mp hr
    split
    · exact (h.each old hold).mark
    · exact h.each old hold
  · rw [resumedRanges, List.head?_map] at hr
    obtain ⟨old, hold, rfl⟩ := Option.map_eq_some_iff.mp hr
    split
    · exact h.head old hold
    · exact h.head old hold

theorem head?_splitFrom {step toLedger cur : Int} {fuel : Nat}
    (h : r ∈ (splitFrom step toLedger fuel cur).head?) : r.fromLedger = cur := by
  cases fuel with
  | zero => cases h
  | succ fuel =>
    rw [splitFrom] at h
    split at h
    · cases h
      rfl
    · cases h

theorem firmRanges_split (hfrom : 0 < b.opts.fromLedger) (hle : b.opts.fromLedger ≤ b.opts.toLedger) :
    FirmRanges b rows
      (splitLedgerRanges b.opts.fromLedger b.opts.toLedger b.opts.rangeSize b.opts.workers) := by
  refine ⟨fun r hr => ?_, fun r hr => ?_⟩
  · have hfresh := mem_splitLedgerRanges hfrom hle hr
    have hlast := hfresh.last
    have hlower := hfresh.lower
    have hpositive := hfresh.positive
    exact ⟨by omega, fun hge => by omega⟩
  · simp only [splitLedgerRanges] at hr
    split at hr
    · cases hr
      rfl
    · exact head?_splitFrom hr

/-- The loop: everything below the next expected ledger is committed. -/
theorem contiguousWatermark_done {lo expectedStart watermark : Int}
    (hranges : ∀ r ∈ ranges, RangeOk b rows r ∧ Firm b rows r)
    (hbelow : Done b rows lo (expectedStart - 1)) (hmark : Done b rows lo watermark) :
    Done b rows lo (contiguousWatermark expectedStart watermark ranges) := by
  induction ranges generalizing expectedStart watermark with
  | nil => exact hmark
  | cons r rest ih =>
    obtain ⟨hr, hfirm⟩ := hranges r (.head _)
    rw [contiguousWatermark]
    split
    · exact hmark
    · split
      · rename_i hcompleted
        have hwhole := hbelow.join (hr.whole hcompleted) (by omega)
        refine ih (fun x hx => hranges x (.tail _ hx)) ?_ ?_
        · exact hwhole.shrink (le_rfl) (by omega)
        · rcases max_choice watermark r.toLedger with hmax | hmax
          · rw [hmax]
            exact hmark
          · rw [hmax]
            exact hwhole
      · split
        · exact hbelow.join (hfirm.done hr) (by omega)
        · exact hmark

variable {st : BackfillState}

theorem saveBackfillRanges_done (hranges : RangesOk b rows ranges)
    (hfirm : FirmRanges b rows ranges) (h : Done b rows b.opts.fromLedger st.lastLedger) :
    Done b rows b.opts.fromLedger (saveBackfillRanges ranges st).lastLedger := by
  cases ranges with
  | nil => exact absurd rfl hranges.ne
  | cons r rest =>
    have hhead : r.fromLedger = b.opts.fromLedger := hfirm.head r rfl
    have hpos := (hranges.each r (.head _)).positive.1
    have hmark : Done b rows b.opts.fromLedger (contiguousWatermark r.fromLedger 0 (r :: rest)) :=
      contiguousWatermark_done (fun x hx => ⟨hranges.each x hx, hfirm.each x hx⟩)
        (between_empty (by omega)) (between_empty (by omega))
    rcases max_choice st.lastLedger (contiguousWatermark r.fromLedger 0 (r :: rest)) with hmax | hmax
    · simp only [saveBackfillRanges, hmax]
      exact h
    · simp only [saveBackfillRanges, hmax]
      exact hmark

/-! ## Steps -/

def FirmWorker (b : Backfiller) (rows : List Event) : Worker → Prop
  | .updating _ _ snapshot | .persisting _ _ snapshot | .sealing snapshot | .noting snapshot =>
    FirmRanges b rows snapshot
  | _ => True

theorem FirmWorker.mono {w : Worker} (h : FirmWorker b rows w) (hsub : ∀ r ∈ rows, r ∈ rows') :
    FirmWorker b rows' w := by
  cases w with
  | updating start page snapshot | persisting start page snapshot | sealing snapshot
  | noting snapshot => exact FirmRanges.mono h hsub
  | _ => trivial

structure FirmSaved (b : Backfiller) (rows : List Event) (st : BackfillState) : Prop where
  last : Done b rows b.opts.fromLedger st.lastLedger
  ranges : FirmRanges b rows st.ranges

theorem FirmSaved.mono (h : FirmSaved b rows st) (hsub : ∀ r ∈ rows, r ∈ rows') :
    FirmSaved b rows' st :=
  ⟨h.last.mono (committed_mono hsub), h.ranges.mono hsub⟩

theorem firmSaved_save {f : BackfillState → BackfillState} (h : ∀ st ∈ s.saved, FirmSaved b s.rows st)
    (hf : ∀ st, FirmSaved b s.rows st → FirmSaved b s.rows (f st)) :
    ∀ st ∈ (s.save f).saved, FirmSaved b (s.save f).rows st := by
  intro st hst
  obtain ⟨old, hold, rfl⟩ := Option.map_eq_some_iff.mp hst
  exact hf old (h old hold)

theorem FirmSaved.saveRanges (h : FirmSaved b rows st)
    (hranges : RangesOk b rows ranges) (hfirm : FirmRanges b rows ranges) :
    FirmSaved b rows (saveBackfillRanges ranges st) :=
  ⟨saveBackfillRanges_done hranges hfirm h.last, hfirm⟩

theorem done_last (hpages : b.WholePages) (hranges : RangesOk b rows ranges) (hr : RangeOk b rows r)
    (hbelow : ∀ x ∈ ranges, x.fromLedger < r.fromLedger → x.status = .completed)
    (hpage : PageAt b page n) (hwalk : Walk b rows r start (n + b.opts.batchSize))
    (hpos : 0 < (b.extractSubRangePage page start r.toLedger).last) :
    Done b rows b.opts.fromLedger (b.extractSubRangePage page start r.toLedger).last := by
  rcases extractSubRangePage_last_cases b page start hr.positive.2 with
    hzero | ⟨tx, htx, hlast, hlow, hhigh⟩
  · omega
  intro y hy hlo hhi
  by_cases hinside : r.fromLedger ≤ y.ledger
  · by_cases hsame : y.ledger = tx.ledger
    · exact hwalk.wholeLedger hpages hr hpage htx hlow hhigh y hy hsame
    · exact hwalk.low.behind hwalk.walked (hpage.mem htx) (by omega) y hy hinside (by omega)
  · have hinside' := hr.inside.2
    obtain ⟨x, hx, hxfrom, hxto⟩ := hranges.covers y.ledger hlo (by omega)
    exact (hranges.each x hx).whole (hbelow x hx (by omega)) y hy hxfrom hxto

theorem FirmSaved.update {last : Int} (h : FirmSaved b rows st)
    (hlast : 0 < last → Done b rows b.opts.fromLedger last) :
    FirmSaved b rows (updateBackfillState last st) := by
  rw [updateBackfillState]
  split
  · exact h
  · refine ⟨?_, h.ranges⟩
    rcases max_choice st.lastLedger last with hmax | hmax
    · simp only [hmax]
      exact h.last
    · simp only [hmax]
      exact hlast (by omega)

structure WorkerFirm (b : Backfiller) (s' : State) (r' : BackfillRange) (w' : Worker) : Prop where
  range : Firm b s'.rows r'
  phase : FirmWorker b s'.rows w'
  saved : ∀ st ∈ s'.saved, FirmSaved b s'.rows st

theorem firmWorker_afterPage (out : PageState) : FirmWorker b rows (afterPage b start page out) := by
  rw [afterPage]
  split <;> trivial

theorem workerStep_firm {i failures : Nat} {w w' : Worker} {choice : Choice} (hpages : b.WholePages)
    (hranges : RangesOk b s.rows ranges) (hfirm : FirmRanges b s.rows ranges)
    (hget : ranges[i]? = some r) (hw : WorkerOk b s.rows r w) (hphase : FirmWorker b s.rows w)
    (hsaved : ∀ st ∈ s.saved, FirmSaved b s.rows st)
    (horder : ∀ start page snapshot, w = .updating start page snapshot → choice = .ok →
      ∀ x ∈ ranges, x.fromLedger < r.fromLedger → x.status = .completed)
    (hgrows : ∀ x ∈ s.rows, x ∈ s'.rows)
    (h : workerStep b s ranges r i w choice = some (w', r', failures, s')) :
    WorkerFirm b s' r' w' := by
  have hr : RangeOk b s.rows r := hranges.each r (mem_of_getElem? hget)
  have hf : Firm b s.rows r := hfirm.each r (mem_of_getElem? hget)
  cases choice <;> cases w <;>
    simp only [workerStep, Option.some.injEq, Prod.mk.injEq, reduceCtorEq] at h
  all_goals obtain ⟨rfl, rfl, -, rfl⟩ := h
  case ok.pending =>
    refine ⟨hf.mark, ?_, hsaved⟩
    split <;> trivial
  case ok.fetching =>
    refine ⟨hf, ?_, hsaved⟩
    split
    · trivial
    · split <;> trivial
  case ok.upserting => exact ⟨hf.mono hgrows, trivial, fun st hst => (hsaved st hst).mono hgrows⟩
  case ok.advancing =>
    obtain ⟨n, hpage, hwalk⟩ := hw
    have hf' := hf.advance hpages hr hpage hwalk
    refine ⟨hf', ?_, hsaved⟩
    split
    · exact hfirm.set hget hf' (advance_bounds r _).1
    · exact firmWorker_afterPage _
  case ok.updating start page snapshot =>
    obtain ⟨⟨n, hpage, hwalk⟩, -⟩ := hw
    refine ⟨hf, hphase, firmSaved_save hsaved fun st hst => hst.update fun hpos => ?_⟩
    exact done_last hpages hranges hr (horder start page snapshot rfl rfl) hpage hwalk hpos
  case ok.persisting =>
    exact ⟨hf, firmWorker_afterPage _, firmSaved_save hsaved fun st hst => hst.saveRanges hw.2 hphase⟩
  case ok.completing => exact ⟨hf.complete hw, hfirm.set hget (hf.complete hw) rfl, hsaved⟩
  case ok.sealing | ok.noting =>
    exact ⟨hf, trivial, firmSaved_save hsaved fun st hst => hst.saveRanges hw hphase⟩
  case giveUp.erring => exact ⟨hf.mark, hfirm.set hget hf.mark rfl, hsaved⟩
  all_goals exact ⟨hf, trivial, hsaved⟩

def FirmRun (b : Backfiller) (rows : List Event) : Run → Prop
  | .splitting ranges | .closing ranges _ => FirmRanges b rows ranges
  | .working ranges workers _ => FirmRanges b rows ranges ∧ ∀ w ∈ workers, FirmWorker b rows w
  | _ => True

structure FirmState (b : Backfiller) (t : Table Event (eventKey .postgres)) (s : State) : Prop where
  inv : Inv b t s
  saved : ∀ st ∈ s.saved, FirmSaved b s.rows st
  run : FirmRun b s.rows s.run

variable {t : Table Event (eventKey .postgres)}

/-- Nothing resumes inside a ledger. -/
theorem FirmState.unsplit (h : FirmState b t s) (m : Move) : Unsplit b s m := by
  cases m with
  | begin ok =>
    intro st hst _ _ hfrom _ tx htx hledger
    exact (h.saved st hst).last tx htx (by omega) hledger.le
  | worker i choice =>
    have hrun := h.run
    simp only [Unsplit]
    split
    · rename_i ranges workers _ hphase
      rw [hphase] at hrun
      intro _ r hr hfrom _
      exact (hrun.1.each r (mem_of_getElem? hr)).whole hfrom
    · trivial
  | main ok => trivial
  | stop => trivial

theorem firmWorker_initial {w : Worker} (hw : w ∈ initialWorkers ranges) : FirmWorker b rows w := by
  obtain ⟨r, _, rfl⟩ := mem_map.mp hw
  split <;> trivial

theorem firmRun_begin (hranged : b.opts.ranged = true) (hle : b.opts.fromLedger ≤ b.opts.toLedger)
    (h : FirmState b t s) : FirmRun b s.rows (begin b s).run ∧ (begin b s).saved = s.saved ∧
      (begin b s).rows = s.rows := by
  rw [begin]
  split
  · exact ⟨trivial, rfl, rfl⟩
  · rename_i hvalid
    have hfrom : 0 < b.opts.fromLedger := by
      omega
    cases hsaved : s.saved with
    | none => exact ⟨trivial, hsaved, rfl⟩
    | some st =>
      have hst := h.saved st hsaved
      dsimp only
      split
      · split
        · exact ⟨⟨hst.ranges.resumed, fun w hw => firmWorker_initial hw⟩, hsaved, rfl⟩
        · rename_i hnil
          rw [not_not] at hnil
          rw [resumeLedger_fresh hfrom ((h.inv.saved st hsaved).unsplit hnil hranged)]
          exact ⟨firmRanges_split hfrom hle, hsaved, rfl⟩
      · exact ⟨trivial, hsaved, rfl⟩

theorem firmState_started (hranged : b.opts.ranged = true) (hle : b.opts.fromLedger ≤ b.opts.toLedger)
    (hfrom : 0 < b.opts.fromLedger) : (∀ st ∈ (started b s).saved, FirmSaved b (started b s).rows st) ∧
      FirmRun b (started b s).rows (started b s).run := by
  rw [started, if_pos hranged]
  refine ⟨fun st hst => ?_, firmRanges_split hfrom hle⟩
  cases hst
  exact ⟨between_empty hfrom, firmRanges_nil⟩

theorem step_firm {m : Move} (hranged : b.opts.ranged = true) (hfits : b.Fits) (hpages : b.WholePages)
    (hle : b.opts.fromLedger ≤ b.opts.toLedger) (horder : InOrder s m) (h : FirmState b t s)
    (hstep : step b s m = some s') : FirmState b t s' := by
  have hinv := step_keeps hfits hle (h.unsplit m) h.inv hstep
  have hok := h.inv.run
  have hrun := h.run
  have hclosed : ∀ {ok : Bool} {ranges}, RangesOk b s.rows ranges → FirmRanges b s.rows ranges →
      ∀ st ∈ (if ok then s.save (saveBackfillRanges ranges) else s).saved,
        FirmSaved b (if ok then s.save (saveBackfillRanges ranges) else s).rows st := by
    intro ok ranges hranges hfirm
    split
    · exact firmSaved_save h.saved fun st hst => hst.saveRanges hranges hfirm
    · exact h.saved
  cases step_effect b hstep with
  | begin =>
    obtain ⟨hrun, hsaved, hrows⟩ := firmRun_begin hranged hle h
    refine ⟨hinv, ?_, ?_⟩
    · rw [hsaved, hrows]
      exact h.saved
    · rw [hrows]
      exact hrun
  | fail => exact ⟨hinv, h.saved, trivial⟩
  | started hphase =>
    rw [hphase] at hok
    obtain ⟨hsaved, hrun⟩ := firmState_started hranged hle hok
    exact ⟨hinv, hsaved, hrun⟩
  | split hphase =>
    rw [hphase] at hok hrun
    exact ⟨hinv, firmSaved_save h.saved fun st hst => hst.saveRanges hok hrun, hrun,
      fun w hw => firmWorker_initial hw⟩
  | serial hphase =>
    rw [hphase] at hok
    have hserial := hok.2.2.2.2.1
    rw [hranged] at hserial
    cases hserial
  | joined hphase =>
    rw [hphase] at hrun
    exact ⟨hinv, h.saved, hrun.1⟩
  | unfinished hphase n =>
    rw [hphase] at hok hrun
    exact ⟨hinv, hclosed hok hrun, trivial⟩
  | whole hphase hall =>
    rw [hphase] at hok hrun
    exact ⟨hinv, hclosed hok hrun, trivial⟩
  | @completed ok hphase =>
    cases ok with
    | false => exact ⟨hinv, h.saved, trivial⟩
    | true => exact ⟨hinv, firmSaved_save h.saved fun st hst => ⟨hst.last, hst.ranges⟩, trivial⟩
  | takeUp hphase hw =>
    rw [hphase] at hrun
    exact ⟨hinv, h.saved, hrun.1, forall_mem_set hrun.2 trivial⟩
  | worker hphase hw hr hnext =>
    obtain ⟨hkeeps, -⟩ := h.inv.worker hfits hphase (h.unsplit _) hw hr hnext
    rw [hphase] at hok hrun
    have hfirm := workerStep_firm hpages hok.1 hrun.1 hr (hok.2.2 _ _ _ hw hr)
      (hrun.2 _ (mem_of_getElem? hw)) h.saved (fun start page snapshot hupdating hchoice => by
        subst hupdating hchoice
        simp only [InOrder, hphase] at horder
        exact horder _ hw rfl _ hr) hkeeps.adds.grows hnext
    refine ⟨hinv, hfirm.saved, (hrun.1.mono hkeeps.adds.grows).set hr hfirm.range hkeeps.bounds.1, ?_⟩
    exact forall_mem_set (fun x hx => (hrun.2 x hx).mono hkeeps.adds.grows) hfirm.phase
  | stop => exact ⟨hinv, h.saved, trivial⟩

/-- The recorded ledger of a ranged run never passes what is committed, over any interleaving of the
workers and any number of interrupted runs. -/
theorem recorded_ledger_is_committed (b : Backfiller) (hranged : b.opts.ranged = true) (hfits : b.Fits)
    (hle : b.opts.fromLedger ≤ b.opts.toLedger) (hpages : b.WholePages)
    (t : Table Event (eventKey .postgres)) (ms : List Move) (s : State)
    (halong : Steps.Along (step b) InOrder (.init t) ms)
    (hrun : Steps.run (step b) (.init t) ms = some s) : Understates b s := by
  have hinit : FirmState b t (.init t) := ⟨inv_init b t, by simp [State.init], trivial⟩
  have hfirm : FirmState b t s := halong.invariant
    (fun _ _ _ horder h hstep => step_firm hranged hfits hpages hle horder h hstep) hinit hrun
  intro st hst
  exact (hfirm.saved st hst).last.shrink (le_rfl) (min_le_left _ _)

/-! ## Two workers -/

instance (b : Backfiller) : Decidable b.WholePages :=
  inferInstanceAs (Decidable (∀ n < b.history.txs.length, _ → _))

instance (s : State) (m : Move) : Decidable (InOrder s m) := by
  unfold InOrder
  split
  · exact match s.run with
      | .working _ _ _ => inferInstanceAs (Decidable (∀ _ ∈ _, _))
      | .idle | .starting | .splitting _ | .serial _ _ _ | .closing _ _ | .completing => isTrue trivial
  · exact isTrue trivial

def transferWorkers : Backfiller where
  opts := ⟨Horizon.zeroHash.hexString, 5, 6, 2, 2, 0, 0, Nat.two_pos, Nat.two_pos⟩
  history := transferHistory
  codec := Ingest.Codec.verbatim
  xdr := Horizon.transferXdr Horizon.transferMetaV3

/-- A run is started, and the worker of ledger 5 makes some steps before that of ledger 6 records its
page. -/
def secondRecords (first : Nat) : List Move :=
  [.begin true, .main true, .main true] ++ List.replicate first (.worker 0 .ok) ++
    List.replicate 8 (.worker 1 .ok)

/-- The worker of ledger 5 is done before the other one records ledger 6. -/
theorem recorded_ledger_is_committed_in_order :
    ∃ s, Steps.run (step transferWorkers) (.init (Table.empty _)) (secondRecords 11) = some s ∧
      (∃ st ∈ s.saved, st.lastLedger = 6) ∧ Understates transferWorkers s :=
  ⟨_, rfl, ⟨_, rfl, by decide +kernel⟩, recorded_ledger_is_committed transferWorkers (by decide) (by decide)
    (by decide) (by decide +kernel) (Table.empty _) (secondRecords 11) _
    (Steps.Along.of_check (by decide +kernel)) rfl⟩

/-- The worker of ledger 5 has only been started when the other one records ledger 6. -/
theorem recorded_ledger_passes_gap :
    ∃ s, Steps.run (step transferWorkers) (.init (Table.empty _)) (secondRecords 1) = some s ∧
      (∃ st ∈ s.saved, st.lastLedger = 6) ∧ s.rows.length = 1 ∧ ¬ Understates transferWorkers s := by
  refine ⟨_, rfl, ⟨_, rfl, by decide +kernel⟩, by decide +kernel, fun h => ?_⟩
  have hcommitted := h _ rfl (transferTransaction 'a' 5) (by decide) (by decide) (by decide +kernel)
  revert hcommitted
  decide +kernel

end SoroTrail.Backfill
