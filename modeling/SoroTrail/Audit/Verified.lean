import SoroTrail.Audit.Compare

/-!
# What the high-water mark says

The mark moves over ledgers whose rows are as many as the events of a fetch.  While no
answer cuts a fetch short, the fetch holds every event of its range, so a ledger behind
the mark is verified when its rows are all of the network and of events the RPC holds.
-/

set_option autoImplicit false

namespace SoroTrail.Audit

open Lib Store List Steps
open Ingest (Wanted filterBatches)

variable {a : Auditor} {s s' : State} {fromLedger toLedger l n : Nat} {fetched : List Rpc.Event}
  {batch : List Rpc.EventFilter} {rest : List (List Rpc.EventFilter)} {cursor : String}
  {resp : Rpc.GetEventsResponse} {e : Rpc.Event} {m : Move} {task : Task} {phase : Phase}

/-! ## Fetching -/

def Asked (s : State) (fromLedger toLedger : Nat) (batch : List Rpc.EventFilter) (e : Rpc.Event) : Prop :=
  e ∈ s.chain.events ∧ fromLedger ≤ e.ledger ∧ e.ledger ≤ toLedger ∧ Rpc.accepted batch e = true

/-- The batches before `batches` have been fetched. -/
def Behind (s : State) (fromLedger toLedger : Nat) (batches : List (List Rpc.EventFilter))
    (fetched : List Rpc.Event) : Prop :=
  ∃ done, filterBatches s.watched = done ++ batches ∧
    ∀ batch ∈ done, ∀ e, Asked s fromLedger toLedger batch e → e ∈ fetched

/-- The first of the batches has been fetched up to the cursor. -/
def UpToCursor (s : State) (fromLedger toLedger : Nat) (batches : List (List Rpc.EventFilter))
    (cursor : String) (fetched : List Rpc.Event) : Prop :=
  ∀ batch ∈ batches.head?, ∀ e, Asked s fromLedger toLedger batch e → cursor ≠ "" → e.id ≤ cursor →
    e ∈ fetched

theorem Behind.complete (h : Behind s fromLedger toLedger [] fetched) :
    Complete s fromLedger toLedger fetched := by
  intro e he hfrom hto hwanted
  obtain ⟨done, hdone, hall⟩ := h
  obtain ⟨batch, hbatch, haccepted⟩ := (Ingest.filterBatches_accept s.watched e).mpr hwanted
  rw [hdone, append_nil] at hbatch
  exact hall batch hbatch e ⟨he, hfrom, hto, haccepted⟩

theorem page_covers (hserves : s.chain.serves (a.request fromLedger toLedger batch cursor) resp = true)
    (he : Asked s fromLedger toLedger batch e) (hleft : cursor ≠ "" → cursor < e.id) :
    e ∈ resp.events ∨ ∃ last, resp.events.getLast? = some last ∧ a.pageLimit ≤ resp.events.length ∧
      last.ledger ≤ toLedger ∧ last.id < e.id := by
  obtain ⟨hmem, hfrom, hto, haccepted⟩ := he
  obtain ⟨hevents, _, _⟩ := Rpc.Chain.serves_iff.mp hserves
  have hmatch : e ∈ s.chain.matching (a.request fromLedger toLedger batch cursor) := by
    refine Rpc.Chain.mem_matching.mpr ⟨hmem, haccepted, ?_⟩
    rw [Rpc.GetEventsRequest.reaches]
    split
    · rename_i hcursor
      exact decide_eq_true (hleft hcursor)
    · exact decide_eq_true ⟨hfrom, .inr (Nat.lt_succ_of_le hto)⟩
  have hsorted := s.chain.matching_ascending (a.request fromLedger toLedger batch cursor)
  rw [← take_append_drop a.pageLimit (s.chain.matching _)] at hmatch hsorted
  rcases mem_append.mp hmatch with htake | hdrop
  · left
    rw [hevents]
    exact htake
  · right
    have hlength : a.pageLimit ≤ resp.events.length := by
      have hpos := length_pos_of_mem hdrop
      rw [length_drop] at hpos
      rw [hevents, Rpc.Chain.page, length_take]
      exact Nat.le_min.mpr ⟨le_rfl, by omega⟩
    obtain ⟨last, hlast⟩ : ∃ last, resp.events.getLast? = some last := by
      have hpos := a.pageLimit_pos
      exact Option.isSome_iff_exists.mp (List.getLast?_isSome.mpr (ne_nil_of_length_pos (by omega)))
    have hpage : last ∈ s.chain.page (a.request fromLedger toLedger batch cursor) :=
      hevents ▸ mem_of_getLast? hlast
    have hlt : last.id < e.id := (pairwise_append.mp hsorted).2.2 last hpage e hdrop
    exact ⟨last, hlast, hlength,
      (Rpc.Chain.ledger_le_of_id_lt (Rpc.Chain.mem_page hpage).1 hmem hlt).trans hto, hlt⟩

/-- What a page adds to a batch: all of it, or what lies up to the cursor of the page. -/
theorem UpToCursor.page (h : UpToCursor s fromLedger toLedger (batch :: rest) cursor fetched)
    (hserves : s.chain.serves (a.request fromLedger toLedger batch cursor) resp = true)
    (he : Asked s fromLedger toLedger batch e) :
    e ∈ fetched ++ resp.events.filter (fun e => decide (e.ledger ≤ toLedger)) ∨
      ∃ last, resp.events.getLast? = some last ∧ a.pageLimit ≤ resp.events.length ∧
        last.ledger ≤ toLedger ∧ last.id < e.id := by
  by_cases hseen : cursor ≠ "" ∧ e.id ≤ cursor
  · exact .inl (mem_append_left _ (h batch rfl e he hseen.1 hseen.2))
  · rcases page_covers hserves he (fun hne => not_le.mp fun hle => hseen ⟨hne, hle⟩) with hpage | hfull
    · exact .inl (mem_append_right _ (mem_filter.mpr ⟨hpage, decide_eq_true he.2.2.1⟩))
    · exact .inr hfull

/-! ## The invariant of a pass -/

def Clear (s : State) (ledger : Nat) : Prop :=
  ledger ≤ s.chain.tip ∧ ∀ l, s.mark < l → l ≤ ledger → Enough s l

def Ahead (s : State) (mark fromLedger toLedger : Nat) : Prop :=
  fromLedger = mark + 1 ∧ toLedger ≤ s.chain.tip

def After.Ok (s : State) (verified : Nat) : After → Prop
  | .finish => True
  | .advance ledger => Clear s ledger
  | .mismatch fromLedger toLedger => Ahead s (max s.mark verified) fromLedger toLedger

def PhaseOk (s : State) : Phase → Prop
  | .idle => True
  | .loaded mark => mark = s.mark
  | .informed mark ingested => mark = s.mark ∧ ingested ≤ s.chain.tip
  | .building _ fromLedger toLedger => Ahead s s.mark fromLedger toLedger
  | .fetching _ fromLedger toLedger batches cursor fetched =>
    Ahead s s.mark fromLedger toLedger ∧ Behind s fromLedger toLedger batches fetched ∧
      UpToCursor s fromLedger toLedger batches cursor fetched
  | .counting _ fromLedger toLedger fetched =>
    Ahead s s.mark fromLedger toLedger ∧ Complete s fromLedger toLedger fetched
  | .saving ledger next => Clear s ledger ∧ next.Ok s ledger
  | .recording fromLedger toLedger => Ahead s s.mark fromLedger toLedger
  | .repairing fromLedger toLedger _ => Ahead s s.mark fromLedger toLedger

theorem window_ahead {mark ingested oldest : Nat} (hingested : ingested ≤ s.chain.tip)
    (h : a.window mark ingested oldest = some (fromLedger, toLedger)) :
    Ahead s mark fromLedger toLedger := by
  simp only [Auditor.window] at h
  have hbatch : mark + 1 ≤ ingested → (if ingested - (mark + 1) + 1 > a.batchLedgers then
      mark + 1 + a.batchLedgers - 1 else ingested) ≤ ingested := by
    split <;> omega
  generalize (if ingested - (mark + 1) + 1 > a.batchLedgers then
    mark + 1 + a.batchLedgers - 1 else ingested) = upper at hbatch h
  rw [Ahead]
  grind

theorem nextBatch_ok (hahead : Ahead s s.mark fromLedger toLedger)
    (h : Behind s fromLedger toLedger rest fetched) :
    PhaseOk s (nextBatch task fromLedger toLedger rest fetched) := by
  cases rest with
  | nil => exact ⟨hahead, h.complete⟩
  | cons batch rest => exact ⟨hahead, h, fun _ _ _ _ hne => absurd rfl hne⟩

theorem afterPage_ok (hahead : Ahead s s.mark fromLedger toLedger)
    (hbehind : Behind s fromLedger toLedger (batch :: rest) fetched)
    (hcursor : UpToCursor s fromLedger toLedger (batch :: rest) cursor fetched)
    (hserves : s.chain.serves (a.request fromLedger toLedger batch cursor) resp = true) :
    PhaseOk s (a.afterPage task fromLedger toLedger batch rest fetched resp) := by
  obtain ⟨done, hdone, hfetched⟩ := hbehind
  have hkeep : ∀ b ∈ done, ∀ e, Asked s fromLedger toLedger b e →
      e ∈ fetched ++ resp.events.filter fun e => decide (e.ledger ≤ toLedger) :=
    fun b hb e he => mem_append_left _ (hfetched b hb e he)
  -- the batch is done when no page is left that is full and ends within the range
  have hlast : (∀ last, resp.events.getLast? = some last → a.pageLimit ≤ resp.events.length →
      ¬ last.ledger ≤ toLedger) → Behind s fromLedger toLedger rest
        (fetched ++ resp.events.filter fun e => decide (e.ledger ≤ toLedger)) := by
    intro hnone
    refine ⟨done ++ [batch], by rw [hdone, append_assoc, singleton_append], ?_⟩
    refine Steps.forall_mem_append hkeep fun e he => ?_
    rcases hcursor.page hserves he with hmem | ⟨last, hlast, hfull, hle, _⟩
    · exact hmem
    · exact absurd hle (hnone last hlast hfull)
  simp only [Auditor.afterPage]
  split
  · rename_i hnone
    exact nextBatch_ok hahead (hlast fun last hsome => by simp [hnone] at hsome)
  · rename_i last hsome
    split
    · refine nextBatch_ok hahead (hlast fun last' hsome' hfull hle => ?_)
      cases hsome.symm.trans hsome'
      omega
    · obtain ⟨hevents, hresume, _⟩ := Rpc.Chain.serves_iff.mp hserves
      have hmem : last ∈ s.chain.events :=
        (Rpc.Chain.mem_page (hevents ▸ mem_of_getLast? hsome)).1
      rw [Rpc.Chain.resume_eq hsome hmem hresume]
      refine ⟨hahead, ⟨done, hdone, hkeep⟩, fun b hb e he _ hle => ?_⟩
      cases hb
      rcases hcursor.page hserves he with hmem | ⟨last', hsome', _, _, hlt⟩
      · exact hmem
      · cases hsome.symm.trans hsome'
        exact absurd hle (not_le_of_gt hlt)

variable {verified : Nat}

theorem after_phase_ok {next : After} (h : next.Ok s verified) :
    PhaseOk { s with mark := max s.mark verified } next.phase := by
  cases next with
  | finish => trivial
  | advance ledger => exact ⟨⟨h.1, fun l hlo hhi => h.2 l ((le_max_left _ _).trans_lt hlo) hhi⟩, trivial⟩
  | mismatch fromLedger toLedger => exact h

theorem Compared.ok {next : After} (h : Compared s fromLedger toLedger verified next)
    (hahead : Ahead s s.mark fromLedger toLedger) : next.Ok s verified := by
  obtain ⟨rfl, htip⟩ := hahead
  cases next with
  | finish => trivial
  | advance ledger =>
    obtain ⟨rfl, hall⟩ := h.advance ledger rfl
    exact ⟨htip, hall⟩
  | mismatch mismatchFrom mismatchTo =>
    obtain ⟨hfrom, hto⟩ := h.mismatch _ _ rfl
    refine ⟨?_, hto.trans htip⟩
    have hlower := h.lower
    split at hfrom <;> omega

theorem giveUp_ok (a : Auditor) (attempts : Nat) (hahead : Ahead s s.mark fromLedger toLedger) :
    PhaseOk s (a.giveUp fromLedger toLedger attempts) := by
  rw [Auditor.giveUp]
  split
  · trivial
  · exact hahead

theorem fails_ok (a : Auditor) (task : Task) (hahead : Ahead s s.mark fromLedger toLedger) :
    PhaseOk s (a.fails fromLedger toLedger task) := by
  cases task with
  | scan => trivial
  | recheck attempts => exact giveUp_ok a attempts hahead

theorem counted_ok (a : Auditor) (task : Task) (hahead : Ahead s s.mark fromLedger toLedger)
    (hcomplete : Complete s fromLedger toLedger fetched) :
    PhaseOk s (a.counted task fromLedger toLedger fetched s.rows) := by
  have hpos : 0 < fromLedger := hahead.1 ▸ Nat.succ_pos _
  cases task with
  | scan =>
    have hcompared := compare_spec (a := a) hpos hcomplete
    have hok := hcompared.ok hahead
    simp only [Auditor.counted]
    split
    · refine ⟨⟨hcompared.upper.trans hahead.2, fun l hlo hhi => ?_⟩, hok⟩
      exact hcompared.clean l (hahead.1 ▸ hlo) hhi
    · rename_i hzero
      have hphase := after_phase_ok hok
      rw [Nat.eq_zero_of_not_pos hzero, Nat.max_zero] at hphase
      exact hphase
  | recheck attempts =>
    rw [Auditor.counted]
    split
    · rename_i hclean
      refine ⟨⟨hahead.2, fun l hlo hhi => ?_⟩, trivial⟩
      have hfrom : fromLedger ≤ l := hahead.1 ▸ hlo
      rw [clusterIsClean, all_eq_true] at hclean
      have hcount := hclean l (by rw [ledgers, mem_range'_1]; omega)
      exact hcomplete.enough hfrom hhi (of_decide_eq_true hcount).symm
    · exact giveUp_ok a attempts hahead

/-! ## The rest of the world -/

structure Continues (s s' : State) : Prop where
  mark : s'.mark = s.mark
  watched : s'.watched = s.watched
  chain : s.chain.Extends s'.chain
  rows : ∀ r ∈ s.rows, r ∈ s'.rows

section

variable (h : Continues s s')
include h

theorem Continues.tip : s.chain.tip ≤ s'.chain.tip := by
  obtain ⟨_, _, htip, _⟩ := h.chain
  exact htip

theorem Continues.enough (hl : l ≤ s.chain.tip) (henough : Enough s l) :
    Enough s' l := by
  have hheld : s'.held l = s.held l := by
    rw [State.held, h.watched]
    exact h.chain.filter_ledger hl _
  have hstored : (s.stored l).length ≤ (s'.stored l).length := by
    have hnodup : (s.stored l).Nodup := s.events.nodup.of_map.sublist filter_sublist
    refine (hnodup.subperm fun r hr => ?_).length_le
    obtain ⟨hmem, hledger⟩ := mem_stored.mp hr
    exact mem_stored.mpr ⟨h.rows r hmem, hledger⟩
  rw [Enough, hheld]
  exact henough.trans hstored

theorem Continues.clear {ledger : Nat} (hclear : Clear s ledger) :
    Clear s' ledger := by
  refine ⟨hclear.1.trans h.tip, fun l hlo hhi => h.enough (hhi.trans hclear.1) ?_⟩
  exact hclear.2 l (h.mark ▸ hlo) hhi

theorem Continues.ahead {mark : Nat} (hahead : Ahead s mark fromLedger toLedger) :
    Ahead s' mark fromLedger toLedger :=
  ⟨hahead.1, hahead.2.trans h.tip⟩

theorem Continues.ahead_mark (hahead : Ahead s s.mark fromLedger toLedger) :
    Ahead s' s'.mark fromLedger toLedger :=
  h.mark ▸ h.ahead hahead

theorem Continues.asked (hto : toLedger ≤ s.chain.tip)
    (he : Asked s' fromLedger toLedger batch e) : Asked s fromLedger toLedger batch e :=
  ⟨h.chain.mem_of_le_tip he.1 (he.2.2.1.trans hto), he.2⟩

theorem Continues.after {next : After} (hok : next.Ok s verified) :
    next.Ok s' verified := by
  cases next with
  | finish => trivial
  | advance ledger => exact h.clear hok
  | mismatch fromLedger toLedger =>
    have hahead := h.ahead hok
    rw [← h.mark] at hahead
    exact hahead

end

theorem PhaseOk.keep (hok : PhaseOk s phase) (h : Continues s s') : PhaseOk s' phase := by
  cases phase with
  | idle => trivial
  | loaded mark => exact hok.trans h.mark.symm
  | informed mark ingested => exact ⟨hok.1.trans h.mark.symm, hok.2.trans h.tip⟩
  | building task fromLedger toLedger => exact h.ahead_mark hok
  | fetching task fromLedger toLedger batches cursor fetched =>
    obtain ⟨hahead, ⟨done, hdone, hfetched⟩, hcursor⟩ := hok
    refine ⟨h.ahead_mark hahead, ⟨done, h.watched ▸ hdone, fun b hb e he => ?_⟩, ?_⟩
    · exact hfetched b hb e (h.asked hahead.2 he)
    · exact fun b hb e he => hcursor b hb e (h.asked hahead.2 he)
  | counting task fromLedger toLedger fetched =>
    refine ⟨h.ahead_mark hok.1, fun e he hfrom hto hwanted => ?_⟩
    exact hok.2 e (h.chain.mem_of_le_tip he (hto.trans hok.1.2)) hfrom hto (h.watched ▸ hwanted)
  | saving ledger next => exact ⟨h.clear hok.1, h.after hok.2⟩
  | recording fromLedger toLedger => exact h.ahead_mark hok
  | repairing fromLedger toLedger attempts => exact h.ahead_mark hok

/-! ## Runs -/

/-- What the RPC and the store have to respect at a step: no answer cuts a fetch short, the
auditor reads no ingestion state that is past the RPC, the watch list changes between
passes, and at a save the RPC holds the ledgers past the mark and every row of them is of
the network and of an event the RPC holds. -/
def Orderly (a : Auditor) (s : State) : Move → Prop
  | .ingestionState _ => s.ingested ≤ s.chain.tip
  | .page answer => answer ≠ .outOfRange
  | .save _ => s.oldest ≤ s.mark + 1 ∧ ∀ r ∈ s.rows, (s.mark : Int) < r.ledger → r.ledger ≤ s.chain.tip →
      r.network = a.network ∧ ∃ e ∈ s.chain.events, e.id = r.id ∧ (e.ledger : Int) = r.ledger ∧
        Wanted s.watched e
  | .watch _ => s.phase = .idle
  | _ => True

theorem continues_refl (s : State) (phase : Phase) : Continues s (s.goto phase) :=
  ⟨rfl, rfl, .refl _, fun _ hr => hr⟩

theorem PhaseOk.goto (h : PhaseOk s phase) (next : Phase) : PhaseOk (s.goto next) phase :=
  h.keep (continues_refl s next)

theorem step_ok (horderly : Orderly a s m) (hok : PhaseOk s s.phase) (hstep : a.step s m = some s') :
    PhaseOk s' s'.phase := by
  cases m with simp only [Auditor.step] at hstep
  | auditState ok =>
    split at hstep
    · rename_i hphase
      cases hstep
      cases ok with
      | true => exact rfl
      | false => exact hok
    · cases hstep
  | ingestionState ok =>
    split at hstep
    · rename_i mark hphase
      rw [hphase] at hok
      cases hstep
      cases ok with
      | true => exact ⟨hok, horderly⟩
      | false => trivial
    · cases hstep
  | health oldest =>
    split at hstep
    · rename_i mark ingested oldest hphase
      rw [hphase] at hok
      obtain ⟨rfl, hingested⟩ := hok
      split at hstep
      · rename_i fromLedger toLedger hwindow
        cases hstep
        exact window_ahead hingested hwindow
      · cases hstep
        trivial
    · cases hstep
      trivial
    · cases hstep
  | filters ok =>
    split at hstep
    · rename_i task fromLedger toLedger hphase
      rw [hphase] at hok
      cases hstep
      cases ok with
      | true => exact (nextBatch_ok hok ⟨[], rfl, fun b hb => by cases hb⟩).goto _
      | false => exact (fails_ok a task hok).goto _
    · cases hstep
  | page answer =>
    split at hstep
    · rename_i task fromLedger toLedger batch rest cursor fetched hphase
      rw [hphase] at hok
      obtain ⟨hahead, hbehind, hcursor⟩ := hok
      split at hstep
      · rename_i resp
        split at hstep
        · rename_i hanswers
          cases hstep
          rw [State.answers, Bool.and_eq_true, Bool.and_eq_true] at hanswers
          exact (afterPage_ok hahead hbehind hcursor hanswers.1.1).goto _
        · cases hstep
      · exact absurd rfl horderly
      · cases hstep
        exact (fails_ok a task hahead).goto _
    · cases hstep
  | census ok =>
    split at hstep
    · rename_i task fromLedger toLedger fetched hphase
      rw [hphase] at hok
      cases hstep
      cases ok with
      | true => exact (counted_ok a task hok.1 hok.2).goto _
      | false => exact (fails_ok a task hok.1).goto _
    · cases hstep
  | save ok =>
    split at hstep
    · rename_i ledger next hphase
      rw [hphase] at hok
      cases hstep
      cases ok with
      | true => exact (after_phase_ok hok.2).goto _
      | false => trivial
    · cases hstep
  | record ok =>
    split at hstep
    · rename_i fromLedger toLedger hphase
      rw [hphase] at hok
      cases hstep
      cases ok with
      | true => exact hok
      | false => trivial
    · cases hstep
  | repair events result =>
    split at hstep
    · rename_i fromLedger toLedger attempts hphase
      rw [hphase] at hok
      -- a range a pass works on does not depend on the rows
      have hahead : Ahead { s with events := events } s.mark fromLedger toLedger := hok
      split at hstep
      · cases hstep
        exact hahead
      · cases hstep
        trivial
      · cases hstep
        exact (giveUp_ok a (attempts + 1) hahead).goto _
    · cases hstep
  | stop =>
    split at hstep
    · cases hstep
    · cases hstep
      trivial
  | grow chain =>
    split at hstep
    · rename_i happends
      cases hstep
      exact hok.keep ⟨rfl, rfl, Rpc.Chain.extends_of_appends happends, fun _ hr => hr⟩
    · cases hstep
  | forget oldest =>
    split at hstep
    · cases hstep
      exact hok.keep ⟨rfl, rfl, .refl _, fun _ hr => hr⟩
    · cases hstep
  | ingest rows ingested =>
    cases hstep
    exact hok.keep ⟨rfl, rfl, .refl _, fun _ hr => Table.subset_insertAll hr⟩
  | watch contracts =>
    cases hstep
    rw [horderly]
    trivial

/-- Only a save moves the mark. -/
theorem step_mark (hstep : a.step s m = some s') :
    s'.mark = s.mark ∨ ∃ ledger next, m = .save true ∧ s.phase = .saving ledger next ∧
      s'.mark = max s.mark ledger := by
  cases m with
  | save ok =>
    simp only [Auditor.step] at hstep
    split at hstep
    · rename_i ledger next hphase
      cases hstep
      cases ok with
      | true => exact .inr ⟨ledger, next, rfl, hphase, rfl⟩
      | false => exact .inl rfl
    · cases hstep
  | _ =>
    left
    simp only [Auditor.step] at hstep
    grind [State.goto]

/-- A ledger is in the retention of the RPC, and the rows of the network are its events. -/
def Verified (a : Auditor) (s : State) (l : Nat) : Prop :=
  s.oldest ≤ l ∧ l ≤ s.chain.tip ∧
    ∀ id, (∃ r ∈ s.rows, r.network = a.network ∧ r.ledger = l ∧ r.id = id) ↔ ∃ e ∈ s.held l, e.id = id

theorem save_verified {ok : Bool} (horderly : Orderly a s (.save ok)) {ledger : Nat}
    (hclear : Clear s ledger) (hlo : s.mark < l) (hhi : l ≤ ledger) : Verified a s l := by
  obtain ⟨holdest, honly⟩ := horderly
  have htip : l ≤ s.chain.tip := hhi.trans hclear.1
  refine ⟨by omega, htip, stored_iff_held (hclear.2 l hlo hhi) fun r hr => ?_⟩
  obtain ⟨hmem, hledger⟩ := mem_stored.mp hr
  obtain ⟨hnetwork, e, he, hid, hsame, hwanted⟩ := honly r hmem (by omega) (by omega)
  exact ⟨hnetwork, e, mem_held.mpr ⟨he, by omega, hwanted⟩, hid⟩

/-- In every orderly run of passes, a step that moves the mark moves it over verified ledgers. -/
theorem marked_ledgers_are_verified (a : Auditor) {s₀ s s' : State} {ms : List Move} {m : Move}
    (hidle : s₀.phase = .idle) (horderly : Steps.Along a.step (Orderly a) s₀ (ms ++ [m]))
    (hrun : Steps.run a.step s₀ ms = some s) (hstep : a.step s m = some s') :
    ∀ l, s.mark < l → l ≤ s'.mark → Verified a s l := by
  intro l hlo hhi
  obtain ⟨hbefore, hlast⟩ := horderly.rest hrun
  have hinit : PhaseOk s₀ s₀.phase := by
    rw [hidle]
    trivial
  have hok : PhaseOk s s.phase :=
    hbefore.invariant (fun _ _ _ hm hok => step_ok hm hok) hinit hrun
  rcases step_mark hstep with hsame | ⟨ledger, next, rfl, hphase, hmark⟩
  · omega
  · rw [hphase] at hok
    exact save_verified hlast.1 hok.1 hlo (by omega)

instance (a : Auditor) (s : State) (m : Move) : Decidable (Orderly a s m) := by
  cases m <;> (dsimp only [Orderly]; infer_instance)

def demoAuditor : Auditor where
  network := "testnet"
  batchLedgers := 4
  lagThreshold := 2
  maxRepairAttempts := 3
  findingMaxLedgers := 2
  pageLimit := 2
  pageLimit_pos := by decide

def auditedChain : Rpc.Chain where
  events := [.sample "3-1" "C1" 3]
  tip := 11

def auditedRow (network id : String) : Event := .sample network id "C1" 3

def unaudited (rows : Table Event (eventKey .postgres)) : State where
  events := rows
  mark := 2
  ingested := 11
  chain := auditedChain
  oldest := 1
  watched := []
  phase := .idle

def demoPass (fetch : List Move) : List Move :=
  [.auditState true, .ingestionState true, .health (some 1), .filters true] ++ fetch ++ [.census true]

def demoPage : Move := .page (.page ⟨[.sample "3-1" "C1" 3], 11, 1, ""⟩)

theorem marked_ledgers_are_verified_demoPass :
    ∃ s s', Steps.run demoAuditor.step (unaudited ((Table.empty _).insertNew (auditedRow "testnet" "3-1")))
        (demoPass [demoPage]) = some s ∧ demoAuditor.step s (.save true) = some s' ∧
      s.mark = 2 ∧ s'.mark = 3 ∧ Verified demoAuditor s 3 := by
  refine ⟨_, _, rfl, rfl, rfl, rfl, ?_⟩
  exact marked_ledgers_are_verified demoAuditor rfl
    (Steps.Along.of_check (by decide +kernel : Steps.check demoAuditor.step (Orderly demoAuditor)
      (unaudited ((Table.empty _).insertNew (auditedRow "testnet" "3-1")))
      (demoPass [demoPage] ++ [.save true]) = true)) rfl rfl 3 (by decide) (by decide)

/-- A row of another network counts for the event of the ledger; and a range that has left the
retention of the RPC is taken as a range without events. -/
theorem mark_passes_unverified_ledgers :
    (∃ s s', Steps.run demoAuditor.step
        (unaudited ((Table.empty _).insertNew (auditedRow "mainnet" "3-9"))) (demoPass [demoPage]) = some s ∧
      demoAuditor.step s (.save true) = some s' ∧ s.mark = 2 ∧ s'.mark = 3 ∧ s.oldest = 1 ∧
      ¬ Verified demoAuditor s 3) ∧
    ∃ s s', Steps.run demoAuditor.step (unaudited (Table.empty _))
        (demoPass [.forget 10, .page .outOfRange]) = some s ∧
      demoAuditor.step s (.save true) = some s' ∧ s.mark = 2 ∧ s'.mark = 3 ∧ s.oldest = 10 ∧
      ¬ Verified demoAuditor s 3 := by
  refine ⟨⟨_, _, rfl, rfl, rfl, rfl, rfl, ?_⟩, ⟨_, _, rfl, rfl, rfl, rfl, rfl, ?_⟩⟩
  · rintro ⟨_, _, hids⟩
    obtain ⟨r, hr, hnetwork, _⟩ := (hids "3-1").mpr ⟨_, .head _, rfl⟩
    cases mem_singleton.mp hr
    exact absurd hnetwork (by decide)
  · rintro ⟨holdest, _⟩
    exact absurd holdest (by decide)

/-!
# The window of a pass

A pass works on the ledgers after the mark.  It sleeps when they begin at or below the
oldest ledger of the RPC, and it reads no further than the lag threshold past that ledger.
A mark outside of this stays where it is, and the next pass finds it there.
-/

/-- Ingestion is far enough ahead of the mark, and its last ledger is inside the window of the RPC. -/
structure Lagging (a : Auditor) where
  state : State
  oldest : Nat
  latest : Nat
  defaults : 0 < a.lagThreshold ∧ 0 < a.batchLedgers
  behind : state.mark + a.lagThreshold ≤ state.ingested
  retained : oldest < state.ingested ∧ state.ingested ≤ latest
  uint32 : latest < 2 ^ 32

/-- `PassOnce` up to `reconcileRange`, when nothing yields or fails. -/
def passOnce (oldest : Nat) : List Move := [.auditState true, .ingestionState true, .health (some oldest)]

variable {a : Auditor}

/-- The pass calls `reconcileRange` with ledgers that are ingested and retained. -/
def Lagging.Checks (w : Lagging a) : Prop :=
  ∃ fromLedger toLedger, run a.step (w.state.goto .idle) (passOnce w.oldest) =
      some (w.state.goto (.building .scan fromLedger toLedger)) ∧
    max (w.state.mark + 1) w.oldest ≤ fromLedger ∧ fromLedger ≤ toLedger ∧ toLedger ≤ w.state.ingested

def Lagging.Reachable (w : Lagging a) : Prop :=
  w.oldest = 0 ∨ w.oldest ≤ w.state.mark ∧ w.state.mark < (w.oldest + a.lagThreshold) % 2 ^ 32

theorem run_passOnce (s : State) (oldest : Nat) :
    run a.step (s.goto .idle) (passOnce oldest) =
      some (s.goto (match a.window s.mark s.ingested oldest with
        | some (fromLedger, toLedger) => .building .scan fromLedger toLedger
        | none => .idle)) := by
  simp only [passOnce, run, Auditor.step, State.goto, if_true]
  cases a.window s.mark s.ingested oldest <;> rfl

theorem Lagging.window_none (w : Lagging a) (h : ¬ w.Reachable) :
    a.window w.state.mark w.state.ingested w.oldest = none := by
  have hdefaults := w.defaults
  simp only [Reachable, not_or, not_and, Nat.not_lt] at h
  simp only [Auditor.window]
  generalize (w.oldest + a.lagThreshold) % 2 ^ 32 = newest at h ⊢
  grind

theorem Lagging.window_some (w : Lagging a) (h : w.Reachable) :
    ∃ toLedger, a.window w.state.mark w.state.ingested w.oldest = some (w.state.mark + 1, toLedger) ∧
      w.state.mark + 1 ≤ toLedger ∧ toLedger ≤ w.state.ingested := by
  have hbehind := w.behind
  have hdefaults := w.defaults
  have hretained := w.retained
  have huint := w.uint32
  have hlag : ¬ (w.state.ingested = 0 ∨
      (w.state.ingested - w.state.mark) % 2 ^ 32 < a.lagThreshold) := by omega
  simp only [Reachable] at h
  simp only [Auditor.window]
  grind

theorem Lagging.Checks.reachable {w : Lagging a} (h : w.Checks) : w.Reachable := by
  obtain ⟨fromLedger, toLedger, hrun, -⟩ := h
  by_contra hout
  rw [run_passOnce, w.window_none hout] at hrun
  exact absurd (congrArg State.phase (Option.some.inj hrun)) (by simp [State.goto])

/-- A pass checks retained ledgers just when the mark lies between the oldest ledger of the RPC and the
lag threshold past it. -/
theorem passOnce_checks_retained_iff (a : Auditor) (w : Lagging a) : w.Checks ↔ w.Reachable := by
  refine ⟨fun h => h.reachable, fun h => ?_⟩
  obtain ⟨toLedger, hwindow, hle, hto⟩ := w.window_some h
  refine ⟨w.state.mark + 1, toLedger, by rw [run_passOnce, hwindow], max_le le_rfl ?_, hle, hto⟩
  rcases h with hzero | h <;> omega

def lagging (mark oldest : Nat) (hmark : mark ≤ 9) (holdest : oldest < 11) : Lagging demoAuditor where
  state := { unaudited (Table.empty _) with mark := mark }
  oldest := oldest
  latest := 11
  defaults := by decide
  behind := Nat.add_le_add_right hmark 2
  retained := ⟨holdest, le_rfl⟩
  uint32 := by decide

/-- Ledgers 3 and 4 have left the RPC; or nothing has, and the mark is ahead of the threshold.  No
ledger is checked, and the mark stays. -/
theorem passOnce_sleeps_inside_retention :
    ¬ (lagging 2 5 (by decide) (by decide)).Checks ∧ ¬ (lagging 9 1 (by decide) (by decide)).Checks := by
  refine ⟨fun h => absurd h.reachable ?_, fun h => absurd h.reachable ?_⟩ <;>
    (simp only [Lagging.Reachable, lagging]; decide)

end SoroTrail.Audit
