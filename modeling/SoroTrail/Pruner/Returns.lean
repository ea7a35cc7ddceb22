import SoroTrail.Pruner.Eligible

/-!
# Sweeps that return

An archive is kept under one key, whatever its range: once there is one,
`ArchiveRange` returns an error to every sweep with another bound.  Where it does
not, and the ids of the rows can be passed on as cursors, a sweep ends without an
error and leaves no row that its bounds select.
-/

set_option autoImplicit false

namespace SoroTrail.Retention

open Lib Store List Function Steps

/-- An operation of a sweep. -/
def Move.ofSweep : Move → Prop
  | .lookUp | .page _ | .put | .delete _ => True
  | .write _ | .sweep _ | .abort | .lostPut => False

/-- Whatever the database answers, the sweep ends after finitely many operations, not with an error,
which would return before the delete loop, and with no selected row left. -/
def Pruner.Returns (p : Pruner) (s : State) (w : Sweep) : Prop :=
  ∃ bound, ∀ ms u, (∀ m ∈ ms, m.ofSweep) → run p.step (s.goto (.archiving w)) ms = some u →
    ms.length ≤ bound ∧
    (u.phase ≠ .idle → ∃ m v, m.ofSweep ∧ p.step u m = some v) ∧
    (u.phase = .idle → ∀ e ∈ u.rows, w.dooms e = false) ∧
    ∀ m v, m.ofSweep → p.step u m = some v → v.phase = .idle → u.phase = .deleting w

/-- The ids the export may pass on as cursors. -/
def PlainIDs (w : Sweep) (rows : List Event) : Prop := ∀ x ∈ rows, x.ledger ≤ w.maxLedger → PlainID x.id

/-- There is no archive yet, or it ends where this sweep does. -/
def Fits (pre : String) (s : State) (w : Sweep) : Prop :=
  PlainIDs w s.rows ∧
    ∀ o ∈ s.objects (manifestKey pre 0), ∀ bound ∈ o.ledgerEnd, bound = w.maxLedger

variable {p : Pruner} {pre cursor : String} {s s' u v : State} {w : Sweep} {lines all : List Event}

/-! ## The archive -/

def Phase.isSealing : Phase → Bool
  | .sealing _ _ => true
  | _ => false

/-- A manifest comes with its data file. -/
structure Sealed (pre : String) (s : State) : Prop where
  manifest : ∀ o, s.objects (manifestKey pre 0) = some o → ∃ m, o = .manifest m ∧
    m.schemaVersion = schemaVersion ∧ m.chunk.ledgerStart = 0 ∧ (s.objects (dataKey pre 0)).isSome = true
  data : s.phase.isSealing = true → (s.objects (dataKey pre 0)).isSome = true

theorem Sealed.keep (hs : Sealed pre s) (hphase : s'.phase.isSealing = false)
    (hobjects : s'.objects = s.objects := by rfl) : Sealed pre s' where
  manifest o ho := by
    rw [hobjects] at ho ⊢
    exact hs.manifest o ho
  data h := by simp [hphase] at h

theorem prune_isSealing (p : Pruner) (w : Sweep) : (p.prune w).isSealing = false := by
  rw [Pruner.prune]
  split <;> rfl

theorem page_keeps (h : p.page s w cursor lines all = some s') :
    s'.objects = s.objects ∧ s'.phase.isSealing = false := by
  simp only [Pruner.page] at h
  repeat' split at h
  all_goals cases h
  all_goals first | exact ⟨rfl, rfl⟩ | exact ⟨rfl, prune_isSealing p w⟩

theorem sealed_step (hpre : p.archiver = some pre) (hs : Sealed pre s) {m : Move}
    (h : p.step s m = some s') : Sealed pre s' := by
  cases step_effect h with
  | write w => exact ⟨hs.manifest, hs.data⟩
  | sweep cutoff hidle =>
    rw [begin_eq]
    split
    · exact hs
    · split
      · exact hs.keep rfl
      · exact hs.keep (prune_isSealing p _)
  | abort => exact hs.keep rfl
  | lookUp hphase hsame =>
    simp only [Pruner.lookUp]
    repeat' split
    all_goals first | exact hs.keep rfl | exact hs.keep (prune_isSealing p _)
  | page hphase hpage => exact hs.keep (page_keeps hpage).2 (page_keeps hpage).1
  | data hphase hsame hm =>
    cases hpre.symm.trans hsame
    have hdata : ∀ lines,
        (Function.update s.objects (dataKey pre 0) (some (.data lines)) (dataKey pre 0)).isSome := by simp
    refine ⟨fun o ho => ?_, fun _ => hdata _⟩
    obtain ⟨m, rfl, hschema, hstart, -⟩ :=
      hs.manifest o ((update_of_ne (manifestKey_ne_dataKey pre 0) ..).symm.trans ho)
    exact ⟨m, rfl, hschema, hstart, hdata _⟩
  | manifest hphase hsame hm =>
    cases hpre.symm.trans hsame
    have hdata := hs.data (by rw [hphase]; rfl)
    rw [← update_of_ne (manifestKey_ne_dataKey pre 0).symm _ s.objects] at hdata
    refine ⟨fun o ho => ?_, fun _ => hdata⟩
    cases (update_self ..).symm.trans ho
    exact ⟨_, rfl, rfl, rfl, hdata⟩
  | delete hphase hdelete =>
    obtain ⟨-, rfl⟩ := (call_iff hphase).mp (by simpa [Pruner.call, Pruner.step, hphase] using hdelete)
    refine hs.keep ?_
    simp only [Pruner.after]
    split <;> rfl

/-! ## One sweep -/

/-- What holds while the sweep goes on. -/
def InSweep (p : Pruner) (pre : String) (w : Sweep) (u : State) : Prop :=
  match u.phase with
  | .idle => u.rows.countP (w.reaches u.rows) = 0
  | .archiving w' => w' = w ∧ PlainIDs w u.rows ∧
      (p.lookUp pre u w = u.goto (.exporting w "" []) ∨ p.lookUp pre u w = u.goto (.deleting w))
  | .exporting w' cursor _ => w' = w ∧ PlainIDs w u.rows ∧ (cursor = "" ∨ PlainID cursor)
  | .uploading w' _ | .sealing w' _ | .deleting w' => w' = w

/-- The operations the sweep may still need. -/
def remaining (u : State) : Nat :=
  match u.phase with
  | .idle => 0
  | .archiving _ => 2 * u.rows.length + 5
  | .exporting _ cursor _ => u.rows.length + u.rows.countP (fun e => cursor = "" || cursor < e.id) + 4
  | .uploading _ _ => u.rows.length + 3
  | .sealing _ _ => u.rows.length + 2
  | .deleting _ => u.rows.length + 1

/-- The statement of an export page is accepted, and what it selects is past the cursor. -/
theorem export_builds (hcursor : cursor = "" ∨ PlainID cursor) (hmax : 0 < w.maxLedger) :
    ∃ q, buildQueryEvents p.lib .postgres p.limits (exportFilter 0 w.maxLedger cursor) = .ok (q, 500) ∧
      ∀ e, q.selects e = true → e.ledger ≤ w.maxLedger ∧ (cursor = "" ∨ cursor < e.id) := by
  obtain ⟨c, hc⟩ : ∃ c, decodeCursor p.lib .postgres (exportFilter 0 w.maxLedger cursor) = .ok c := by
    rcases hcursor with rfl | hplain
    · exact ⟨_, rfl⟩
    · exact ⟨_, decodeCursor_export hplain⟩
  have hrange : validateSparseFilterRange (exportFilter 0 w.maxLedger cursor) p.limits = .ok () := by
    simp [validateSparseFilterRange, hasSparseTopicFilter, exportFilter, EventFilter.all]
  have hbuild := (buildQueryEvents_eq_ok p.lib).mpr ⟨hrange, rfl, c, hc, rfl, rfl⟩
  refine ⟨_, hbuild, fun e he => ?_⟩
  obtain ⟨-, -, c', hc', hselects⟩ := buildQueryEvents_export hbuild
  obtain ⟨hledger, hclauses⟩ := (hselects e).mp he
  refine ⟨hledger hmax, hcursor.imp_right fun hplain => ?_⟩
  rw [decodeCursor_export hplain] at hc'
  cases hc'
  simpa [passes, exportFilter_descending] using
    hclauses _ (mem_append_right _ (mem_singleton_self _))

theorem countP_lt_countP {l : List Event} {f g : Event → Bool} {x : Event}
    (himp : ∀ e, f e = true → g e = true) (hx : x ∈ l) (hg : g x = true) (hf : f x = false) :
    l.countP f < l.countP g := by
  have hall : (l.filter f).countP g = l.countP f := by
    rw [countP_eq_length.mpr fun e he => himp e (mem_filter.mp he).2, countP_eq_length_filter]
  have hpos : 0 < (l.filter fun e => !f e).countP g :=
    countP_pos_iff.mpr ⟨x, mem_filter.mpr ⟨hx, by simp [hf]⟩, hg⟩
  have hsplit := countP_eq_countP_filter_add l g f
  omega

section Step

variable (hmax : 0 < w.maxLedger)
include hmax

theorem page_sweeps (hdry : p.opts.dryRun = false) (hphase : u.phase = .exporting w cursor lines)
    (hplain : PlainIDs w u.rows) (hcursor : cursor = "" ∨ PlainID cursor) (h : p.page u w cursor lines all = some v) :
    InSweep p pre w v ∧ remaining v < remaining u ∧ v.phase ≠ .idle := by
  obtain ⟨q, hbuild, hselects⟩ := export_builds (p := p) hcursor hmax
  simp only [Pruner.page, hbuild] at h
  split at h
  · rename_i hadmits
    cases hpage : queryEvents p.lib .postgres p.limits (fun q => all.take q.limit)
        (exportFilter 0 w.maxLedger cursor) with
    | error err =>
      simp only [queryEvents, exportFilter_opens, Bool.false_eq_true, and_false, if_false, hbuild] at hpage
      split at hpage
      · split at hpage <;> cases hpage
      · cases hpage
    | ok page =>
      obtain ⟨events, next⟩ := page
      simp only [hpage] at h
      rcases queryEvents_page (exportFilter_opens cursor) (by decide) hbuild hpage with
        ⟨-, rfl⟩ | ⟨last, hlast, -, hnext⟩
      · simp only [ne_eq, not_true_eq_false, if_false, Pruner.prune, hdry, Bool.false_eq_true] at h
        split at h <;> cases h <;> simp [InSweep, remaining, State.goto, State.rows, hphase] <;> omega
      · obtain rfl : next = last.id := hnext
        rw [admits, Bool.and_eq_true, decide_eq_true_eq] at hadmits
        obtain ⟨hrow, hselected⟩ := mem_filter.mp
          (hadmits.1.mem_iff.mp (mem_of_mem_take (mem_of_getLast? hlast)))
        obtain ⟨hledger, hpast⟩ := hselects last hselected
        have hplainLast := hplain last hrow hledger
        rw [if_pos hplainLast.ne_empty] at h
        cases h
        refine ⟨⟨rfl, hplain, .inr hplainLast⟩, ?_, by simp [State.goto]⟩
        have hfewer := countP_lt_countP
          (f := fun e => last.id = "" || last.id < e.id) (g := fun e => cursor = "" || cursor < e.id)
          (fun e he => ?_) hrow (by simpa using hpast) (by simp [hplainLast.ne_empty])
        · simp only [remaining, State.goto, hphase]
          exact Nat.add_lt_add_right (Nat.add_lt_add_left hfewer _) _
        · simp only [Bool.or_eq_true, decide_eq_true_eq, hplainLast.ne_empty, false_or] at he ⊢
          exact hpast.imp_right fun hlt => hlt.trans he
  · cases h

theorem sweep_step (hdry : p.opts.dryRun = false) (hpre : p.archiver = some pre) (hu : InSweep p pre w u)
    {m : Move} (hm : m.ofSweep) (h : p.step u m = some v) :
    InSweep p pre w v ∧ remaining v < remaining u ∧ (v.phase = .idle → u.phase = .deleting w) := by
  have hprune : p.prune w = .deleting w := by simp [Pruner.prune, hdry]
  unfold InSweep at hu
  cases step_effect h with
  | write | sweep | abort => cases hm
  | lookUp hphase hsame =>
    cases hpre.symm.trans hsame
    rw [hphase] at hu
    obtain ⟨rfl, hplain, hnext | hnext⟩ := hu <;> rw [hnext]
    · refine ⟨⟨rfl, hplain, .inl rfl⟩, ?_, by simp [State.goto]⟩
      have := countP_le_length (l := u.rows) (p := fun e => (("" : String) = "" || "" < e.id : Bool))
      simp only [remaining, State.goto, hphase, State.rows] at this ⊢
      omega
    · refine ⟨rfl, ?_, by simp [State.goto]⟩
      simp only [remaining, State.goto, hphase, State.rows]
      omega
  | page hphase hpage =>
    rw [hphase] at hu
    obtain ⟨rfl, hplain, hcursor⟩ := hu
    obtain ⟨hv, hless, hbusy⟩ := page_sweeps hmax hdry hphase hplain hcursor hpage
    exact ⟨hv, hless, fun h => absurd h hbusy⟩
  | data hphase hsame hcase =>
    rw [hphase] at hu
    rcases hcase with ⟨rfl, rfl⟩ | ⟨rfl, -⟩
    · refine ⟨hu, ?_, by simp [State.goto]⟩
      simp [remaining, State.goto, State.put, State.rows, hphase]
    · cases hm
  | manifest hphase hsame hcase =>
    rw [hphase] at hu
    obtain rfl := hu
    rcases hcase with ⟨rfl, rfl⟩ | ⟨rfl, -⟩
    · rw [hprune]
      refine ⟨rfl, ?_, by simp [State.goto]⟩
      simp [remaining, State.goto, State.put, State.rows, hphase]
    · cases hm
  | delete hphase hdelete =>
    rename_i w' victims
    rw [hphase] at hu
    obtain rfl := hu
    have hcall : p.call u victims = some v := by simpa [Pruner.call, Pruner.step, hphase] using hdelete
    have hswept := Sweeping.call ⟨.refl _, rfl, .inl hphase⟩ hcall
    obtain ⟨-, rfl⟩ := (call_iff hphase).mp hcall
    have hsplit := length_eq_length_filter_add (l := u.rows) (goneWith victims)
    have hpos := p.opts.batch_pos
    rcases hswept.phase with hv | ⟨hv, hnone⟩
    · refine ⟨by rw [InSweep, hv], ?_, fun _ => hphase⟩
      have hfull : ¬ (u.rows.countP (goneWith victims) : Int) < p.opts.batch := fun hshort => by
        simp [Pruner.after, hshort] at hv
      rw [countP_eq_length_filter] at hfull
      simp only [remaining, hv, hphase, after_rows]
      omega
    · refine ⟨by rwa [InSweep, hv], ?_, fun _ => hphase⟩
      simp only [remaining, hv, hphase]
      omega

theorem sweep_goes_on (hpre : p.archiver = some pre) (hu : InSweep p pre w u) (hbusy : u.phase ≠ .idle) :
    ∃ m v, m.ofSweep ∧ p.step u m = some v := by
  unfold InSweep at hu
  cases hphase : u.phase with
  | idle => exact absurd hphase hbusy
  | archiving w' => exact ⟨.lookUp, _, trivial, by simp only [Pruner.step, hphase, hpre]; rfl⟩
  | exporting w' cursor lines =>
    rw [hphase] at hu
    obtain ⟨rfl, -, hcursor⟩ := hu
    obtain ⟨q, hbuild, -⟩ := export_builds hcursor hmax
    have hanswer := answering_insertionAnswer p.lib .postgres p.limits (exportFilter 0 w'.maxLedger "")
      u.rows 0 cursor q 500 hbuild
    obtain ⟨all, hperm, hsorted, -⟩ := hanswer
    have hadmits : admits q u.rows all = true := by simp [admits, hperm, hsorted]
    simp only [Pruner.step, hphase, Pruner.page, hbuild]
    refine ⟨.page all, ?_⟩
    simp only [hadmits, if_true]
    repeat' split
    all_goals exact ⟨_, trivial, rfl⟩
  | uploading | sealing => exact ⟨.put, _, trivial, by simp only [Pruner.step, hphase, hpre]; rfl⟩
  | deleting w' =>
    have hpicks := picks_take (p := p) (u.rows_nodup.filter w'.dooms)
      (fun x hx => mem_filter.mp hx) (by rw [← countP_eq_length_filter]; omega)
    exact ⟨.delete _, _, trivial, (call_iff hphase).mpr ⟨hpicks, rfl⟩⟩

theorem sweep_run (hdry : p.opts.dryRun = false) (hpre : p.archiver = some pre) {ms : List Move}
    (hu : InSweep p pre w u) (hms : ∀ m ∈ ms, m.ofSweep) (hrun : run p.step u ms = some v) :
    InSweep p pre w v ∧ ms.length + remaining v ≤ remaining u := by
  induction ms generalizing u with
  | nil =>
    cases hrun
    exact ⟨hu, (Nat.zero_add _).le⟩
  | cons m ms ih =>
    cases hstep : p.step u m with
    | none => simp [run, hstep] at hrun
    | some u' =>
      obtain ⟨hm, hms⟩ := forall_mem_cons.mp hms
      obtain ⟨hu', hless, -⟩ := sweep_step hmax hdry hpre hu hm hstep
      obtain ⟨hv, hle⟩ := ih hu' hms (by simpa [run, hstep] using hrun)
      refine ⟨hv, ?_⟩
      rw [length_cons]
      omega

end Step

theorem inSweep_begin (hdry : p.opts.dryRun = false) (hs : Sealed pre s) (hfits : Fits pre s w) :
    InSweep p pre w (s.goto (.archiving w)) := by
  refine ⟨rfl, hfits.1, ?_⟩
  cases hobject : s.objects (manifestKey pre 0) with
  | none => exact .inl (by simp only [Pruner.lookUp, State.goto, hobject])
  | some o =>
    obtain ⟨m, rfl, hschema, hstart, hdata⟩ := hs.manifest o hobject
    have hend := hfits.2 _ hobject _ rfl
    simp only [Pruner.lookUp, State.goto, hobject, Pruner.prune, hdry]
    simp [hschema, hstart, hend, hdata]

/-- A sweep returns without an error and leaves no row that its bounds select, if there is no
archive yet or it ends where the sweep does. -/
theorem fitting_sweep_returns (p : Pruner) (pre : String) (harchive : p.opts.archiveBeforePrune = true)
    (hpre : p.archiver = some pre) (hdry : p.opts.dryRun = false) (tables : Tables .postgres)
    (ms : List Move) (s : State) (hrun : Steps.run p.step (.init tables) ms = some s)
    (hidle : s.phase = .idle) (cutoff : Time) (w : Sweep)
    (hw : p.sweepBounds s.tables cutoff = some w) (hfits : Fits pre s w) :
    p.step s (.sweep cutoff) = some (s.goto (.archiving w)) ∧ p.Returns s w := by
  have hsealed : Sealed pre s :=
    Steps.run_keeps (fun _ _ _ hs hstep => sealed_step hpre hs hstep)
      ⟨by simp [State.init], by simp [State.init, Phase.isSealing]⟩ hrun
  have hmax : 0 < w.maxLedger := by
    simp only [Pruner.sweepBounds, Option.bind_eq_some_iff, Option.map_eq_some_iff] at hw
    obtain ⟨ing, -, maxLedger, hmax, rfl⟩ := hw
    exact maxLedger_pos hmax
  have hstart := inSweep_begin hdry hsealed hfits
  refine ⟨by simp [Pruner.step, hidle, begin_eq, hw, harchive, hpre], remaining (s.goto (.archiving w)), ?_⟩
  intro ms u hms hrun
  obtain ⟨hu, hle⟩ := sweep_run hmax hdry hpre hstart hms hrun
  refine ⟨by omega, sweep_goes_on hmax hpre hu, fun hidle e he => ?_, fun m v hm hstep =>
    (sweep_step hmax hdry hpre hu hm hstep).2.2⟩
  rw [InSweep, hidle] at hu
  by_contra hdoom
  exact countP_eq_zero.mp hu e he (Sweep.reaches_iff.mpr ⟨e, he, by simpa using hdoom, rfl⟩)

/-- Everything below the last ingested ledger goes. -/
def trailingPruner : Pruner := { demoPruner with opts := ⟨0, 0, 0, true, false⟩ }

theorem fitting_sweep_returns_first :
    Fits "" (.init demoTables) ⟨20, Time.zero⟩ ∧ trailingPruner.Returns (.init demoTables) ⟨20, Time.zero⟩ := by
  have hfits : Fits "" (.init demoTables) ⟨20, Time.zero⟩ := ⟨by unfold PlainIDs; decide +kernel, nofun⟩
  exact ⟨hfits, (fitting_sweep_returns trailingPruner "" rfl rfl rfl demoTables [] _ rfl rfl Time.zero _ rfl
    hfits).2⟩

/-- The second sweep starts when ledger 30 is ingested, finds the archive of the first and returns
its error. -/
theorem second_sweep_wedged :
    ∃ s, Steps.run trailingPruner.step (.init demoTables)
        (demoSweep ++ [.write (.saveIngestionState ⟨"default", 30, "", none⟩),
          .write (.upsertEvents [Event.fromRpc 25])]) = some s ∧
      s.rows = [Event.fromRpc 25] ∧
      trailingPruner.sweepBounds s.tables Time.zero = some ⟨30, Time.zero⟩ ∧
      ¬ trailingPruner.Returns s ⟨30, Time.zero⟩ := by
  refine ⟨_, rfl, rfl, rfl, fun ⟨bound, h⟩ => ?_⟩
  have hwedged := (h [] _ nofun rfl).2.2.2 .lookUp _ trivial rfl rfl
  cases hwedged

end SoroTrail.Retention
