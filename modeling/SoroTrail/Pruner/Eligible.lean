import SoroTrail.Pruner.Recoverable

/-!
# What a sweep deletes and what a dry run counts

`DeleteEventsBefore` selects rows by ledger and time and deletes by id alone, so a
sweep takes every row that shares its id with a selected one.  The dry run repeats a
count that nothing changes, and ends only if the first answer is below the batch size.
-/

set_option autoImplicit false

namespace SoroTrail.Retention

open Lib Store List Steps

/-- The bounds `pruneOnce` computes before it archives and deletes. -/
def Pruner.sweepBounds (p : Pruner) (t : Tables .postgres) (cutoff : Time) : Option Sweep :=
  (t.getIngestionState "default").bind fun ing =>
    (p.opts.maxLedger ing.lastIngestedLedger).map fun maxLedger =>
      ⟨maxLedger, p.opts.beforeTime cutoff⟩

theorem begin_eq (p : Pruner) (s : State) (cutoff : Time) :
    p.begin s cutoff =
      match p.sweepBounds s.tables cutoff with
      | none => s
      | some w =>
        if p.opts.archiveBeforePrune && p.archiver.isSome then s.goto (.archiving w)
        else s.goto (p.prune w) := by
  simp only [Pruner.begin, Pruner.sweepBounds]
  cases s.tables.getIngestionState "default" with
  | none => rfl
  | some ing => cases hmax : p.opts.maxLedger ing.lastIngestedLedger <;> simp [hmax]

def countEventsBefore (rows : List Event) (w : Sweep) (limit : Int) : Nat :=
  min limit.toNat (rows.countP w.dooms)

/-- `dryRunSweep` on a table that does not change; `none` when the turns run out. -/
def Pruner.dryRunSweep (p : Pruner) (w : Sweep) (rows : List Event) : Nat → Nat → Option Nat
  | 0, _ => none
  | turns + 1, total =>
    let affected := countEventsBefore rows w p.opts.batch
    if (affected : Int) < p.opts.batch then some (total + affected)
    else p.dryRunSweep w rows turns (total + affected)

/-- The row shares its id with one that the bounds select. -/
def Sweep.reaches (w : Sweep) (rows : List Event) (e : Event) : Bool :=
  decide (e.id ∈ (rows.filter w.dooms).map Event.id)

variable {e : Event}

theorem Sweep.reaches_iff {w : Sweep} {rows : List Event} :
    w.reaches rows e = true ↔ ∃ x ∈ rows, w.dooms x = true ∧ x.id = e.id := by
  simp [Sweep.reaches, and_assoc]

def goneWith (victims : List Event) (e : Event) : Bool := decide (e.id ∈ victims.map Event.id)

theorem goneWith_iff {victims : List Event} :
    goneWith victims e = true ↔ ∃ x ∈ victims, x.id = e.id := by
  simp [goneWith]

theorem Options.batch_pos (o : Options) : 0 < o.batch := by
  simp only [Options.batch, defaultBatchSize]
  split <;> omega

theorem State.rows_nodup (s : State) : s.rows.Nodup := s.tables.events.nodup.of_map _

def Pruner.call (p : Pruner) (s : State) (victims : List Event) : Option State :=
  p.step s (.delete victims)

variable {p : Pruner} {w : Sweep} {s s' u : State} {rows victims : List Event}
  {batches : List (List Event)}

structure Picks (p : Pruner) (w : Sweep) (rows victims : List Event) : Prop where
  nodup : victims.Nodup
  doomed : ∀ v ∈ victims, v ∈ rows ∧ w.dooms v = true
  length : victims.length = min p.opts.batch.toNat (rows.countP w.dooms)

def Pruner.after (p : Pruner) (w : Sweep) (s : State) (victims : List Event) : State :=
  { s with
    tables := { s.tables with events := s.tables.events.delete (goneWith victims) }
    pruned := s.pruned ++ s.rows.filter (goneWith victims)
    phase := if (s.rows.countP (goneWith victims) : Int) < p.opts.batch then .idle else .deleting w }

@[simp] theorem after_rows : (p.after w s victims).rows = s.rows.filter fun e => !goneWith victims e := rfl

theorem call_iff (hs : s.phase = .deleting w) :
    p.call s victims = some s' ↔ Picks p w s.rows victims ∧ s' = p.after w s victims := by
  simp only [Pruner.call, Pruner.step, hs, Pruner.deleteBatch]
  constructor
  · intro h
    split at h
    · rename_i hpicks
      exact ⟨⟨hpicks.1, hpicks.2.1, hpicks.2.2⟩, (Option.some.inj h).symm⟩
    · cases h
  · rintro ⟨hpicks, rfl⟩
    rw [if_pos ⟨hpicks.nodup, hpicks.doomed, hpicks.length⟩]
    rfl

theorem Picks.gone (h : Picks p w rows victims) (he : goneWith victims e = true) :
    w.reaches rows e = true := by
  obtain ⟨x, hx, hid⟩ := goneWith_iff.mp he
  exact Sweep.reaches_iff.mpr ⟨x, (h.doomed x hx).1, (h.doomed x hx).2, hid⟩

theorem Picks.le_countP (h : Picks p w rows victims) :
    victims.length ≤ rows.countP (goneWith victims) := by
  rw [countP_eq_length_filter]
  refine (subperm_of_subset h.nodup fun x hx => ?_).length_le
  exact mem_filter.mpr ⟨(h.doomed x hx).1, goneWith_iff.mpr ⟨x, hx, rfl⟩⟩

theorem Picks.last (h : Picks p w rows victims)
    (hshort : (rows.countP (goneWith victims) : Int) < p.opts.batch) (e : Event) :
    goneWith victims e = w.reaches rows e := by
  have hlen : (rows.filter w.dooms).length ≤ victims.length := by
    have := h.length
    have := h.le_countP
    rw [← countP_eq_length_filter]
    omega
  have hperm : victims.Perm (rows.filter w.dooms) :=
    (subperm_of_subset h.nodup fun x hx => mem_filter.mpr (h.doomed x hx)).perm_of_length_le
      hlen
  simp only [goneWith, Sweep.reaches, (hperm.map Event.id).mem_iff]

theorem reaches_rest (he : goneWith victims e = false) :
    w.reaches (rows.filter fun e => !goneWith victims e) e = w.reaches rows e := by
  rw [Bool.eq_iff_iff, Sweep.reaches_iff, Sweep.reaches_iff]
  refine exists_congr fun x => ⟨fun ⟨hx, hrest⟩ => ⟨mem_of_mem_filter hx, hrest⟩,
    fun ⟨hx, hdoom, hid⟩ => ⟨mem_filter.mpr ⟨hx, ?_⟩, hdoom, hid⟩⟩
  simp only [goneWith, hid] at he ⊢
  rw [he]
  rfl

/-- A sweep that started from `s`: what it has deleted and what it still reaches. -/
structure Sweeping (w : Sweep) (s u : State) : Prop where
  sublist : u.rows.Sublist s.rows
  count : u.pruned.length + u.rows.countP (w.reaches u.rows) =
    s.pruned.length + s.rows.countP (w.reaches s.rows)
  phase : u.phase = .deleting w ∨ (u.phase = .idle ∧ u.rows.countP (w.reaches u.rows) = 0)

theorem Sweeping.deleting (h : Sweeping w s u) (hcall : p.call u victims = some s') :
    u.phase = .deleting w :=
  h.phase.resolve_right fun hidle => by simp [Pruner.call, Pruner.step, hidle.1] at hcall

theorem Sweeping.call (h : Sweeping w s u) (hcall : p.call u victims = some s') : Sweeping w s s' := by
  obtain ⟨hpicks, rfl⟩ := (call_iff (h.deleting hcall)).mp hcall
  have hrest : (u.rows.filter fun e => !goneWith victims e).countP
      (w.reaches (u.rows.filter fun e => !goneWith victims e)) =
      (u.rows.filter fun e => !goneWith victims e).countP (w.reaches u.rows) :=
    countP_congr fun e he => by rw [reaches_rest (by simpa using (mem_filter.mp he).2)]
  have hgone : (u.rows.filter (goneWith victims)).countP (w.reaches u.rows) =
      (u.rows.filter (goneWith victims)).length :=
    countP_eq_length.mpr fun e he => hpicks.gone (mem_filter.mp he).2
  have hcount := h.count
  rw [countP_eq_countP_filter_add u.rows _ (goneWith victims), hgone, ← hrest] at hcount
  refine ⟨filter_sublist.trans h.sublist, ?_, ?_⟩
  · rw [Pruner.after, length_append, ← hcount]
    exact Nat.add_assoc _ _ _
  · simp only [Pruner.after]
    split
    · rename_i hshort
      refine .inr ⟨rfl, hrest.trans (countP_eq_zero.mpr fun e he => ?_)⟩
      rw [← hpicks.last hshort]
      simpa using (mem_filter.mp he).2
    · exact .inl rfl

theorem sweeping_run (hs : s.phase = .deleting w) (hrun : run p.call s batches = some s') :
    Sweeping w s s' :=
  run_keeps (fun _ _ _ h hcall => h.call hcall) ⟨.refl _, rfl, .inl hs⟩ hrun

theorem picks_take {l : List Event} (hl : l.Nodup) (hdoomed : ∀ x ∈ l, x ∈ rows ∧ w.dooms x = true)
    (hlen : min p.opts.batch.toNat (rows.countP w.dooms) ≤ l.length) :
    Picks p w rows (l.take (min p.opts.batch.toNat (rows.countP w.dooms))) where
  nodup := hl.sublist (take_sublist _ _)
  doomed x hx := hdoomed x (mem_of_mem_take hx)
  length := by rw [length_take, Nat.min_eq_left hlen]

theorem exists_finished_sweep (hs : s.phase = .deleting w) :
    ∃ batches s', run p.call s batches = some s' ∧ s'.phase = .idle := by
  generalize hn : s.rows.length = n
  induction n using Nat.strong_induction_on generalizing s with
  | _ n ih =>
    have hpicks := picks_take (p := p) (s.rows_nodup.filter w.dooms)
      (fun x hx => mem_filter.mp hx) (by rw [← countP_eq_length_filter]; omega)
    have hcall := (call_iff hs).mpr ⟨hpicks, rfl⟩
    generalize ((s.rows.filter w.dooms).take _) = victims at hpicks hcall
    by_cases hshort : (s.rows.countP (goneWith victims) : Int) < p.opts.batch
    · refine ⟨[victims], ?_⟩
      simp [run, hcall, Pruner.after, hshort]
    · have hfewer : (s.rows.filter fun e => !goneWith victims e).length < n := by
        have hpos := p.opts.batch_pos
        have hsplit := length_eq_length_filter_add (l := s.rows) (goneWith victims)
        rw [countP_eq_length_filter] at hshort
        omega
      obtain ⟨batches, s', hrun, hidle⟩ := ih _ hfewer (s := p.after w s victims) (if_neg hshort) rfl
      refine ⟨victims :: batches, s', ?_, hidle⟩
      simp only [run, hcall]
      exact hrun

/-! ## The dry run -/

theorem dryRunSweep_stuck (hfull : p.opts.batch ≤ rows.countP w.dooms)
    (turns total : Nat) : p.dryRunSweep w rows turns total = none := by
  induction turns generalizing total with
  | zero => rfl
  | succ turns ih =>
    have hagain : ¬ (countEventsBefore rows w p.opts.batch : Int) < p.opts.batch := by
      rw [countEventsBefore]
      omega
    simp only [Pruner.dryRunSweep, hagain, if_false, ih]

theorem countP_reaches_eq_iff :
    rows.countP (w.reaches rows) = rows.countP w.dooms ↔
      ∀ x ∈ rows, w.dooms x = true → ∀ y ∈ rows, y.id = x.id → w.dooms y = true := by
  have hboth : rows.filter w.dooms = (rows.filter (w.reaches rows)).filter w.dooms := by
    rw [filter_filter]
    refine filter_congr fun z hz => ?_
    cases hdoom : w.dooms z with
    | false => rfl
    | true => rw [Sweep.reaches_iff.mpr ⟨z, hz, hdoom, rfl⟩]; rfl
  rw [countP_eq_length_filter, countP_eq_length_filter, hboth, eq_comm,
    length_filter_eq_length_iff]
  simp only [mem_filter, Sweep.reaches_iff]
  constructor
  · intro h x hx hdoom y hy hid
    exact h y ⟨hy, x, hx, hdoom, hid.symm⟩
  · rintro h y ⟨hy, x, hx, hdoom, hid⟩
    exact h x hx hdoom y hy hid.symm

/-- The dry run ends with the number of selected rows, and the sweep deletes as many, if and only
if they fill no batch and no other row has one of their ids. -/
theorem dryRunSweep_exact_iff (p : Pruner) (w : Sweep) (s : State) :
    ((∃ turns, p.dryRunSweep w s.rows turns 0 = some (s.rows.countP w.dooms)) ∧
      ∀ batches s', Steps.run p.call (s.goto (.deleting w)) batches = some s' → s'.phase = .idle →
        s'.pruned.length = s.pruned.length + s.rows.countP w.dooms) ↔
    (s.rows.countP w.dooms : Int) < p.opts.batch ∧
      ∀ x ∈ s.rows, w.dooms x = true → ∀ y ∈ s.rows, y.id = x.id → w.dooms y = true := by
  rw [← countP_reaches_eq_iff]
  have hswept : ∀ batches s', Steps.run p.call (s.goto (.deleting w)) batches = some s' →
      s'.phase = .idle → s'.pruned.length = s.pruned.length + s.rows.countP (w.reaches s.rows) := by
    intro batches s' hrun hidle
    have h := sweeping_run rfl hrun
    rcases h.phase with hphase | ⟨-, hnone⟩
    · rw [hidle] at hphase
      cases hphase
    · exact (congrArg _ hnone).symm.trans h.count
  constructor
  · rintro ⟨⟨turns, hturns⟩, hsweeps⟩
    constructor
    · by_contra hfull
      rw [dryRunSweep_stuck (by omega)] at hturns
      cases hturns
    · obtain ⟨batches, s', hrun, hidle⟩ := exists_finished_sweep (s := s.goto (.deleting w)) rfl
      have hcount := hsweeps batches s' hrun hidle
      rw [hswept batches s' hrun hidle] at hcount
      exact Nat.add_left_cancel hcount
  · rintro ⟨hfew, hreach⟩
    refine ⟨⟨1, ?_⟩, fun batches s' hrun hidle => ?_⟩
    · have hall : countEventsBefore s.rows w p.opts.batch = s.rows.countP w.dooms := by
        rw [countEventsBefore]
        omega
      simp [Pruner.dryRunSweep, hall, hfew]
    · rw [← hreach]
      exact hswept batches s' hrun hidle

/-- One selected row and batches of one. -/
theorem dryRunSweep_never_returns :
    ¬ ∃ turns total, Pruner.dryRunSweep { demoPruner with opts := ⟨0, 10, 1, false, false⟩ }
      ⟨10, Time.zero⟩ [Event.fromRpc 7] turns 0 = some total := by
  rintro ⟨turns, total, hreturned⟩
  rw [dryRunSweep_stuck (by decide) turns 0] at hreturned
  cases hreturned

/-! ## Bounds of the row's own network -/

/-- The row is below the frontier of its own network, below the minimal ledger where that is
smaller, and older than the maximal age. -/
def Expired (p : Pruner) (t : Tables .postgres) (cutoff : Time) (e : Event) : Prop :=
  ∃ st, t.getIngestionState e.network = some st ∧ e.ledger < st.lastIngestedLedger ∧
    (0 < p.opts.minLedger → (p.opts.minLedger : Int) < st.lastIngestedLedger →
      e.ledger < p.opts.minLedger) ∧
    (0 < p.opts.maxAge → e.createdAt < cutoff)

/-- Every row a call removes has expired, and a call removes at most a batch. -/
def DeletesExpired (p : Pruner) (t : Tables .postgres) (cutoff : Time) (s s' : State) : Prop :=
  (∀ e ∈ s.rows, e ∉ s'.rows → Expired p t cutoff e) ∧
    (s.rows.length : Int) ≤ s'.rows.length + p.opts.batch

theorem deletesExpired_iff {t : Tables .postgres} {cutoff : Time} (hs : s.phase = .deleting w)
    (h : p.call s victims = some s') : DeletesExpired p t cutoff s s' ↔
      (∀ e ∈ s.rows, goneWith victims e = true → Expired p t cutoff e) ∧
        (s.rows.countP (goneWith victims) : Int) ≤ p.opts.batch := by
  obtain ⟨-, rfl⟩ := (call_iff hs).mp h
  have hsplit := length_eq_length_filter_add (l := s.rows) (goneWith victims)
  rw [DeletesExpired, after_rows, countP_eq_length_filter]
  refine and_congr (forall₂_congr fun e he => ?_) (by omega)
  simp [he]

/-- A call may pick a given row, and pass over another one unless it takes all. -/
theorem exists_picks {x y : Event} (hx : x ∈ s.rows) (hdoom : w.dooms x = true) :
    ∃ victims, Picks p w s.rows victims ∧ x ∈ victims ∧
      ((victims = s.rows.filter w.dooms) ∨ (victims.length = p.opts.batch ∧ (y ≠ x → y ∉ victims))) := by
  have hpos := p.opts.batch_pos
  have hmem : x ∈ s.rows.filter w.dooms := mem_filter.mpr ⟨hx, hdoom⟩
  have hnodup := s.rows_nodup.filter w.dooms
  have hcount : s.rows.countP w.dooms = (s.rows.filter w.dooms).length := countP_eq_length_filter
  by_cases hfull : p.opts.batch < (s.rows.filter w.dooms).length
  · have hothers : ∀ v ∈ ((s.rows.filter w.dooms).erase x).erase y, v ≠ y ∧ v ≠ x ∧
        v ∈ s.rows.filter w.dooms := by
      intro v hv
      have hv' := (hnodup.erase x).mem_erase_iff.mp hv
      exact ⟨hv'.1, hnodup.mem_erase_iff.mp hv'.2⟩
    have hlen : s.rows.countP w.dooms ≤ (x :: ((s.rows.filter w.dooms).erase x).erase y).length + 1 := by
      have herase := length_erase_of_mem hmem
      rw [length_cons, length_erase]
      split <;> omega
    have hpicks : Picks p w s.rows
        ((x :: ((s.rows.filter w.dooms).erase x).erase y).take _) := picks_take
      (nodup_cons.mpr ⟨fun hv => (hothers x hv).2.1 rfl, (hnodup.erase x).erase y⟩)
      (forall_mem_cons.mpr ⟨⟨hx, hdoom⟩, fun v hv => mem_filter.mp (hothers v hv).2.2⟩)
      (by omega)
    obtain ⟨n, hn⟩ : ∃ n, min p.opts.batch.toNat (s.rows.countP w.dooms) = n + 1 :=
      ⟨_, (Nat.succ_pred (by omega)).symm⟩
    refine ⟨_, hpicks, by rw [hn]; exact (.head _), .inr ⟨?_, fun hne hy => ?_⟩⟩
    · rw [hpicks.length]
      omega
    · rcases mem_cons.mp (mem_of_mem_take hy) with heq | hy
      · exact hne heq
      · exact (hothers y hy).1 rfl
  · refine ⟨s.rows.filter w.dooms, ⟨hnodup, fun v hv => mem_filter.mp hv, ?_⟩, hmem, .inl rfl⟩
    omega

theorem deletesExpired_sweep_iff {t : Tables .postgres} {cutoff : Time} (hs : s.phase = .deleting w) :
    (∀ batches victims s₁ s₂, run p.call s batches = some s₁ → p.call s₁ victims = some s₂ →
      DeletesExpired p t cutoff s₁ s₂) ↔
    (∀ x ∈ s.rows, w.dooms x = true → ∀ y ∈ s.rows, y.id = x.id → Expired p t cutoff y) ∧
      ((∀ x ∈ s.rows, w.dooms x = true → ∀ y ∈ s.rows, y.id = x.id → y = x) ∨
        (s.rows.countP (w.reaches s.rows) : Int) ≤ p.opts.batch) := by
  constructor
  · intro h
    have hfirst : ∀ victims, Picks p w s.rows victims →
        (∀ e ∈ s.rows, goneWith victims e = true → Expired p t cutoff e) ∧
          (s.rows.countP (goneWith victims) : Int) ≤ p.opts.batch := by
      intro victims hpicks
      have hcall := (call_iff hs).mpr ⟨hpicks, rfl⟩
      exact (deletesExpired_iff hs hcall).mp (h [] victims s _ rfl hcall)
    constructor
    · intro x hx hdoom y hy hid
      obtain ⟨victims, hpicks, hmem, -⟩ := exists_picks (y := y) hx hdoom
      exact (hfirst victims hpicks).1 y hy (goneWith_iff.mpr ⟨x, hmem, hid.symm⟩)
    · by_contra hboth
      obtain ⟨hshared, hmany⟩ := not_or.mp hboth
      push Not at hshared
      obtain ⟨x, hx, hdoom, y, hy, hid, hne⟩ := hshared
      obtain ⟨victims, hpicks, hmem, rfl | ⟨hlen, hother⟩⟩ := exists_picks hx hdoom
      · exact hmany (hfirst _ hpicks).2
      · have hmore : (y :: victims).length ≤ (s.rows.filter (goneWith victims)).length := by
          refine (subperm_of_subset (nodup_cons.mpr ⟨hother hne, hpicks.nodup⟩) ?_).length_le
          intro e he
          rcases mem_cons.mp he with rfl | he
          · exact mem_filter.mpr ⟨hy, goneWith_iff.mpr ⟨x, hmem, hid.symm⟩⟩
          · exact mem_filter.mpr ⟨(hpicks.doomed e he).1, goneWith_iff.mpr ⟨e, he, rfl⟩⟩
        have hfew := (hfirst victims hpicks).2
        rw [countP_eq_length_filter] at hfew
        simp only [length_cons] at hmore
        omega
  · rintro ⟨hexpired, hfew⟩ batches victims s₁ s₂ hrun hcall
    have hsweeping := sweeping_run hs hrun
    have hsub := hsweeping.sublist
    have hs₁ := hsweeping.deleting hcall
    obtain ⟨hpicks, -⟩ := (call_iff hs₁).mp hcall
    refine (deletesExpired_iff hs₁ hcall).mpr ⟨fun e he hgone => ?_, ?_⟩
    · obtain ⟨x, hx, hid⟩ := goneWith_iff.mp hgone
      obtain ⟨hrow, hdoom⟩ := hpicks.doomed x hx
      exact hexpired x (hsub.subset hrow) hdoom e (hsub.subset he) hid.symm
    · rcases hfew with hunique | hfew
      · have hle : (s₁.rows.filter (goneWith victims)).length ≤ victims.length := by
          refine (subperm_of_subset (s₁.rows_nodup.filter _) fun e he => ?_).length_le
          obtain ⟨he, hgone⟩ := mem_filter.mp he
          obtain ⟨x, hx, hid⟩ := goneWith_iff.mp hgone
          obtain ⟨hrow, hdoom⟩ := hpicks.doomed x hx
          rw [hunique x (hsub.subset hrow) hdoom e (hsub.subset he) hid.symm]
          exact hx
        have hbatch := hpicks.length
        have hpos := p.opts.batch_pos
        rw [countP_eq_length_filter]
        omega
      · have hle : s₁.rows.countP (goneWith victims) ≤ s.rows.countP (w.reaches s.rows) := by
          refine (hsub.countP_le).trans (countP_mono_left fun e _ hgone => ?_)
          obtain ⟨x, hx, hid⟩ := goneWith_iff.mp hgone
          exact Sweep.reaches_iff.mpr
            ⟨x, hsub.subset (hpicks.doomed x hx).1, (hpicks.doomed x hx).2, hid⟩
        omega

/-- Every row a sweep removes has expired for its own network, a batch at most in a call, if and
only if this holds of every row with the id of a selected one, and ids are not shared where they
would fill a batch. -/
theorem sweep_deletes_expired_iff (p : Pruner) (s : State) (cutoff : Time) :
    (∀ w ∈ p.sweepBounds s.tables cutoff, ∀ batches victims s₁ s₂,
      Steps.run p.call (s.goto (p.prune w)) batches = some s₁ → p.call s₁ victims = some s₂ →
        DeletesExpired p s.tables cutoff s₁ s₂) ↔
    (p.opts.dryRun = false → ∀ w ∈ p.sweepBounds s.tables cutoff,
      (∀ x ∈ s.rows, w.dooms x = true → ∀ y ∈ s.rows, y.id = x.id → Expired p s.tables cutoff y) ∧
      ((∀ x ∈ s.rows, w.dooms x = true → ∀ y ∈ s.rows, y.id = x.id → y = x) ∨
        (s.rows.countP (w.reaches s.rows) : Int) ≤ p.opts.batch)) := by
  cases hdry : p.opts.dryRun with
  | true =>
    refine iff_of_true (fun w _ batches victims s₁ s₂ hrun hcall => ?_) (by simp)
    cases batches with
    | nil =>
      cases hrun
      simp [Pruner.call, Pruner.step, State.goto, Pruner.prune, hdry] at hcall
    | cons first batches =>
      simp [Steps.run, Pruner.call, Pruner.step, State.goto, Pruner.prune, hdry] at hrun
  | false =>
    simp only [Pruner.prune, hdry, Bool.false_eq_true, if_false, forall_const]
    exact forall₂_congr fun w _ => deletesExpired_sweep_iff rfl

def behindTables : Tables .postgres := demoTables.saveIngestionState ⟨"testnet", 5, "", none⟩

theorem sweep_deletes_unexpired_row :
    ∃ w s', demoPruner.sweepBounds behindTables Time.zero = some w ∧
      demoPruner.call ((State.init behindTables).goto (demoPruner.prune w)) [Event.fromRpc 7] = some s' ∧
      ¬ DeletesExpired demoPruner behindTables Time.zero (.init behindTables) s' := by
  refine ⟨_, _, rfl, rfl, fun h => ?_⟩
  obtain ⟨st, hst, hlt, -⟩ := h.1 (Event.fromRpc 7) (by decide +kernel) (by decide +kernel)
  cases Option.some.inj hst
  exact absurd hlt (by decide)

end SoroTrail.Retention
