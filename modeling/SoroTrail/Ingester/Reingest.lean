import SoroTrail.Ingester.Collect

/-!
# Gap repair on an unchanged chain

`ReingestRange` deletes a ledger range and writes back what the current filters
return.  A row is compared with the chain by its emission, the transaction, the
operation and the position in it, because backfilled rows carry ids of another
scheme.  The call keeps every emission exactly when each row it deletes is
either fetched again or recorded by a row it does not delete.
-/

set_option autoImplicit false

namespace SoroTrail.Ingest

open Lib Rpc Store Bool Prog Table Sys.Safe

variable {b : Backend}

/-! ## Emissions -/

/-- The number after the last `-` of an event id, in either id scheme. -/
def position (id : String) : Option Nat :=
  Text.parseUint 64 ((id.toList.reverse.takeWhile fun c => decide (c ≠ '-')).reverse)

structure Emission where
  txHash : String
  opIndex : Int
  position : Option Nat
  deriving DecidableEq, Repr

def rowEmission (r : Store.Event) : Emission :=
  { txHash := r.txHash, opIndex := r.opIndex, position := position r.id }

def chainEmission (re : Rpc.Event) : Emission :=
  { txHash := re.txHash, opIndex := re.operationIndex, position := position re.id }

example : position "0000021474840576-0000000003" = some 3 := by decide

example : position "ab12-00000000000000000005-00000-00003" = some 3 := by decide

/-- The row records an event of the chain, and its id is not that of another one. -/
def Emitted (chain : Chain) (r : Store.Event) : Prop :=
  ∃ re ∈ chain.events, r.ledger = re.ledger ∧ rowEmission r = chainEmission re ∧
    ∀ other ∈ chain.events, r.id = other.id → other = re

theorem rowEmission_of_sansXDR {x y : Store.Event} (h : sansXDR x = sansXDR y) :
    rowEmission x = rowEmission y := by
  obtain ⟨hid, _, _, _, htx, hop⟩ := sansXDR_fields h
  unfold rowEmission
  rw [hid, htx, hop]

theorem CollectedRow.emission {ing : Ingester} {re : Rpc.Event} {ev : Store.Event}
    (h : CollectedRow ing re ev) : rowEmission ev = chainEmission re := by
  obtain ⟨hid, _, _, _, htx, hop⟩ := h.fields
  unfold rowEmission chainEmission
  rw [hid, htx, hop]

/-! ## Before and after -/

/-- Every emission recorded in the range is still recorded. -/
def KeepsEmissions (from' to' : Nat) (t t' : Tables b) : Prop :=
  ∀ r ∈ t.events.rows, inRange from' to' r.ledger = true →
    ∃ r' ∈ t'.events.rows, rowEmission r' = rowEmission r

/-- No row outside the range is added, removed or changed. -/
def KeepsOutside (from' to' : Nat) (t t' : Tables b) : Prop :=
  ∀ r, inRange from' to' r.ledger = false → (r ∈ t.events.rows ↔ r ∈ t'.events.rows)

section Conditions

variable (ing : Ingester) (chain : Chain) (from' to' : Nat) (t : Tables b)

def ownContracts (ing : Ingester) (t : Tables b) : List String :=
  (ownRows ing (listed t)).map fun wc => wc.contractID

def Refetched (re : Rpc.Event) : Prop :=
  InRange chain (ownContracts ing t) from' to' re ∧ isSkipped ing re.contractID = false

/-- The rows that are deleted: on Postgres those under the network as configured, and only when
something is fetched; on SQLite those of every network. -/
def Deleted (r : Store.Event) : Prop :=
  inRange from' to' r.ledger = true ∧
    match b with
    | .postgres => r.network = ing.opts.network ∧ ∃ re, Refetched ing chain from' to' t re
    | .sqlite => True

/-- Each deleted row is fetched again or recorded by a row that stays, and on SQLite no row
outside the range has the key of a fetched event. -/
def Harmless : Prop :=
  (∀ r ∈ t.events.rows, Deleted ing chain from' to' t r →
    (∃ re, Refetched ing chain from' to' t re ∧ chainEmission re = rowEmission r) ∨
      ∃ x ∈ t.events.rows, ¬Deleted ing chain from' to' t x ∧ rowEmission x = rowEmission r) ∧
  (b = .sqlite → ∀ r ∈ t.events.rows, inRange from' to' r.ledger = false →
    ∀ re, Refetched ing chain from' to' t re → r.id = re.id →
      r.network ≠ defaultNetwork ing.opts.network)

end Conditions

def RowsOf (ing : Ingester) (chain : Chain) (from' to' : Nat) (t : Tables b)
    (all : List Store.Event) : Prop :=
  (∀ ev ∈ all, ∃ re, Refetched ing chain from' to' t re ∧ CollectedRow ing re ev) ∧
    ∀ re, Refetched ing chain from' to' t re → ∃ ev ∈ all, CollectedRow ing re ev

section Replace

variable {ing : Ingester} {chain : Chain} {from' to' : Nat} {t : Tables b}
  {all : List Store.Event}

theorem replaced_iff (hall : RowsOf ing chain from' to' t all) (r : Store.Event) :
    replaced b all from' to' r = true ↔ Deleted ing chain from' to' t r := by
  cases b with
  | sqlite => simp [replaced, Deleted]
  | postgres =>
    cases all with
    | nil =>
      simp only [replaced, false_eq_true, false_iff]
      rintro ⟨_, _, re, hre⟩
      obtain ⟨ev, hev, _⟩ := hall.2 re hre
      cases hev
    | cons e es =>
      obtain ⟨re, hre, hrow⟩ := hall.1 e (.head _)
      have hnetwork : e.network = ing.opts.network := hrow.fields.2.2.2.1
      simp only [replaced, and_eq_true, decide_eq_true_eq, hnetwork]
      constructor
      · rintro ⟨hn, hin⟩
        exact ⟨hin, hn, re, hre⟩
      · rintro ⟨hin, hn, _⟩
        exact ⟨hn, hin⟩

variable {re : Rpc.Event} {x : Store.Event}

/-- The row records the event, under the stored network. -/
def Records (ing : Ingester) (re : Rpc.Event) (x : Store.Event) : Prop :=
  x.id = re.id ∧ x.ledger = re.ledger ∧ x.network = defaultNetwork ing.opts.network ∧
    rowEmission x = chainEmission re

theorem records_of_same {ev : Store.Event} (hrow : CollectedRow ing re ev)
    (hsame : sansXDR x = sansXDR (replacementRow ev)) : Records ing re x := by
  obtain ⟨hid, hledger, hnetwork, _, htx, hop⟩ := sansXDR_fields hsame
  have hf := hrow.fields
  have hemission : rowEmission x = rowEmission ev := by
    unfold rowEmission
    rw [hid, htx, hop]
    rfl
  refine ⟨hid.trans hf.1, hledger.trans hf.2.2.1, ?_, hemission.trans hrow.emission⟩
  rw [hnetwork]
  exact congrArg defaultNetwork hf.2.2.2.1

/-- A row written by the call records a refetched event. -/
theorem records_of_replacement {old : List Store.Event} {row : Store.Event}
    (hall : RowsOf ing chain from' to' t all) (hrow : row ∈ replacementRows old all)
    (hsame : sansXDR x = sansXDR row) :
    ∃ re, Refetched ing chain from' to' t re ∧ Records ing re x := by
  obtain ⟨ev, hev, hev'⟩ := mem_replacementRows hrow
  obtain ⟨re, hre, hcollected⟩ := hall.1 ev hev
  exact ⟨re, hre, records_of_same hcollected (hsame.trans hev')⟩

theorem refetched_inRange (h : Refetched ing chain from' to' t re) :
    inRange from' to' (re.ledger : Int) = true := by
  obtain ⟨⟨_, _, hfrom, hto⟩, _⟩ := h
  simp only [inRange, decide_eq_true_eq]
  omega

section

variable (hall : RowsOf ing chain from' to' t all)
include hall

/-- Each row after the call: one that was not deleted, or that of a refetched event. -/
theorem row_after
    (hx : x ∈ (t.replaceEventsInRange all from' to').events.rows) :
    (x ∈ t.events.rows ∧ ¬Deleted ing chain from' to' t x) ∨
      ∃ re, Refetched ing chain from' to' t re ∧ Records ing re x := by
  rcases mem_replaceEventsInRange hx with ⟨hx, hkept⟩ | ⟨ev, hev, hsame⟩
  · refine .inl ⟨hx, ?_⟩
    rw [← replaced_iff hall, hkept]
    exact false_ne_true
  · obtain ⟨re, hre, hrow⟩ := hall.1 ev hev
    exact .inr ⟨re, hre, records_of_same hrow hsame⟩

theorem refetched_row
    (hre : Refetched ing chain from' to' t re) :
    ∃ x ∈ (t.replaceEventsInRange all from' to').events.rows, Records ing re x := by
  obtain ⟨ev, hev, hrow⟩ := hall.2 re hre
  obtain ⟨row, hmem, hsame⟩ := @exists_replacementRows ev all
    (t.events.rows.filter (replaced b all from' to')) hev
  obtain ⟨x, hx, hkey, row', hmem', hsame'⟩ :=
    @overwriteAll_writes b row _ (t.events.delete (replaced b all from' to')) hmem
  obtain ⟨re', hre', hrecords⟩ := records_of_replacement hall hmem' hsame'
  -- rows with one key have one id, and ids name one event of the chain
  have hid : re'.id = re.id := by
    rw [← (records_of_same hrow hsame).1, ← hrecords.1]
    exact (eventKey_inj hkey).2
  have heq : re' = re := Chain.eq_of_id hre'.1.1 hre.1.1 hid
  subst heq
  exact ⟨x, hx, hrecords⟩

theorem undeleted_emission (hx : x ∈ t.events.rows)
    (hkept : ¬Deleted ing chain from' to' t x) (hemitted : Emitted chain x) :
    ∃ y ∈ (t.replaceEventsInRange all from' to').events.rows, rowEmission y = rowEmission x := by
  have hstays : x ∈ (t.events.delete (replaced b all from' to')).rows := by
    refine mem_delete.mpr ⟨hx, ?_⟩
    rw [← not_eq_true, replaced_iff hall]
    exact hkept
  obtain ⟨y, hy, hkey, hsame⟩ := @overwriteAll_holds b x
    (replacementRows (t.events.rows.filter (replaced b all from' to')) all) _ hstays
  refine ⟨y, hy, ?_⟩
  rcases hsame with hsame | ⟨row, hrow, hsame⟩
  · exact rowEmission_of_sansXDR hsame
  · obtain ⟨re, hre, hid, _, _, hemission⟩ := records_of_replacement hall hrow hsame
    obtain ⟨origin, _, _, horigin, hunique⟩ := hemitted
    have hxid : x.id = re.id := (eventKey_inj hkey).2.symm.trans hid
    rw [hemission, hunique re hre.1.1 hxid, horigin]

theorem outside_stays (hx : x ∈ t.events.rows)
    (hout : inRange from' to' x.ledger = false)
    (hfree : b = .sqlite → ∀ re, Refetched ing chain from' to' t re → x.id = re.id →
      x.network ≠ defaultNetwork ing.opts.network) :
    x ∈ (t.replaceEventsInRange all from' to').events.rows := by
  refine overwriteAll_keeps (mem_delete.mpr ⟨hx, ?_⟩) ?_
  · rw [← not_eq_true, replaced_iff hall]
    rintro ⟨hin, _⟩
    rw [hout] at hin
    cases hin
  · intro row hrow hkey
    obtain ⟨re, hre, hid, hledger, hnetwork, _⟩ := records_of_replacement hall hrow rfl
    obtain ⟨hxnetwork, hxid⟩ := eventKey_inj hkey
    cases b with
    | postgres =>
      have hxledger : x.ledger = row.ledger := by simpa [eventKey] using (Prod.ext_iff.mp
        (Prod.ext_iff.mp hkey).2).1
      rw [hxledger, hledger, refetched_inRange hre] at hout
      cases hout
    | sqlite => exact hfree rfl re hre (hxid.trans hid) (hxnetwork.trans hnetwork)

/-- The call keeps every emission and every row outside the range exactly when it is harmless. -/
theorem replace_preserves_iff
    (hrows : ∀ r ∈ t.events.rows, inRange from' to' r.ledger = true → Emitted chain r) :
    (KeepsEmissions from' to' t (t.replaceEventsInRange all from' to') ∧
      KeepsOutside from' to' t (t.replaceEventsInRange all from' to')) ↔
      Harmless ing chain from' to' t := by
  constructor
  · rintro ⟨hemissions, houtside⟩
    refine ⟨?_, ?_⟩
    · intro r hr hdeleted
      obtain ⟨r', hr', hsame⟩ := hemissions r hr hdeleted.1
      rcases row_after hall hr' with ⟨hold, hkept⟩ | ⟨re, hre, _, _, _, hemission⟩
      · exact .inr ⟨r', hold, hkept, hsame⟩
      · exact .inl ⟨re, hre, hemission.symm.trans hsame⟩
    · intro hb r hr hout re hre hid hnetwork
      subst hb
      obtain ⟨x, hx, hxid, hxledger, hxnetwork, _⟩ := refetched_row hall hre
      have hr' := (houtside r hout).mp hr
      have hkey : eventKey .sqlite r = eventKey .sqlite x := by
        simp only [eventKey, hid, hnetwork, hxid, hxnetwork]
      have heq : r = x := eq_of_key hr' hx hkey
      rw [heq, hxledger, refetched_inRange hre] at hout
      cases hout
  · rintro ⟨hcovered, hfree⟩
    have houtside : KeepsOutside from' to' t (t.replaceEventsInRange all from' to') := by
      intro r hout
      constructor
      · intro hr
        exact outside_stays hall hr hout fun hb => hfree hb r hr hout
      · intro hr
        rcases row_after hall hr with ⟨hold, _⟩ | ⟨re, hre, _, hledger, _⟩
        · exact hold
        · rw [hledger, refetched_inRange hre] at hout
          cases hout
    refine ⟨?_, houtside⟩
    intro r hr hin
    by_cases hdeleted : Deleted ing chain from' to' t r
    · rcases hcovered r hr hdeleted with ⟨re, hre, hemission⟩ | ⟨x, hx, hkept, hemission⟩
      · obtain ⟨y, hy, _, _, _, hyemission⟩ := refetched_row hall hre
        exact ⟨y, hy, hyemission.trans hemission⟩
      · cases hxin : inRange from' to' x.ledger with
        | true =>
          obtain ⟨y, hy, hyemission⟩ := undeleted_emission hall hx hkept (hrows x hx hxin)
          exact ⟨y, hy, hyemission.trans hemission⟩
        | false => exact ⟨x, (houtside x hxin).mp hx, hemission⟩
    · exact undeleted_emission hall hr hdeleted (hrows r hr hin)

end

end Replace

/-! ## The call -/

section Call

variable {ing : Ingester} {chain : Chain} {from' to' : Nat}

abbrev servedSys (b : Backend) (ing : Ingester) (chain : Chain) : Sys Act Ans (Node b) :=
  (servedNode b ing chain).sys Machine.anything

theorem served_stable (I : Node b → Prop) : (servedSys b ing chain).Stable I := by
  rintro v v' ⟨_, _, hdrift⟩
  cases hdrift

variable {v : Node b} {t : Tables b}

theorem served_step {o : Act} {v' : Node b} {a : Ans o}
    (h : (servedSys b ing chain).step o v a v') :
    ServedBy chain o a ∧ ∃ c, Node.exec ing o v c = some (a, v') := by
  obtain ⟨c, _, hexec⟩ := h
  exact ⟨Node.served_of_servedExec hexec, c, Node.exec_of_servedExec hexec⟩

theorem reads_safe {α : Type} {A : Act → Prop} {Q : α → Prop} {p : P α}
    (hA : ∀ o, A o → o.writes = false) (hp : p.Yields A (ServedBy chain) Q) (hv : v.tables = t) :
    (servedSys b ing chain).Safe (fun _ _ => True) (fun a u => Q a ∧ u.tables = t) p v := by
  refine of_yields (served_stable _) ?_ (fun _ _ _ _ => trivial) hp hv
  intro o u a u' ho hu hstep
  obtain ⟨hserved, c, hexec⟩ := served_step hstep
  refine ⟨hserved, ?_⟩
  rcases Node.exec_tables ing hexec with heq | ⟨hw, _⟩
  · exact heq.trans hu
  · rw [hA o ho] at hw
    cases hw

theorem buildFilterBatches_safe (hv : v.tables = t) :
    (servedSys b ing chain).Safe (fun _ _ => True)
      (fun r u => OnOk
        (fun batches => batches = filterBatches (ownContracts ing t) ∧ u.tables = t) r)
      (buildFilterBatches ing) v := by
  refine act (served_stable fun u => u.tables = t) hv (fun _ _ => trivial) ?_
  intro u a u' hu hstep
  obtain ⟨_, c, hexec⟩ := served_step hstep
  cases a with
  | error err => exact fun _ _ => trivial
  | ok watched =>
    obtain ⟨rfl, rfl⟩ : watched = listed u.tables ∧ u' = u := by
      cases c <;> cases hexec
      exact ⟨rfl, rfl⟩
    rw [hu]
    refine ret (served_stable _) ?_
    exact ⟨rfl, hu⟩

theorem rowsOf_removeDuplicateEvents {collected : List Store.Event}
    (h : RangeRows ing chain from' to' (filterBatches (ownContracts ing t)) collected) :
    RowsOf ing chain from' to' t (removeDuplicateEvents collected) := by
  have hsource : ∀ ev ∈ collected, ∃ re, Refetched ing chain from' to' t re ∧
      CollectedRow ing re ev := by
    intro ev hev
    obtain ⟨batch, hbatch, re, hre, hrow⟩ := (h.1 ev).mp hev
    have hin := (mem_leftAt_start (ownContracts ing t) re).mp ⟨batch, hbatch, hre⟩
    exact ⟨re, ⟨hin, hrow.1⟩, hrow⟩
  refine ⟨fun ev hev => hsource ev (mem_dedupByID hev).1, ?_⟩
  intro re hre
  obtain ⟨batch, hbatch, hleft⟩ := (mem_leftAt_start (ownContracts ing t) re).mpr hre.1
  obtain ⟨ev, hev⟩ := h.2 batch hbatch re hleft hre.2
  have hmem : ev ∈ collected := (h.1 ev).mpr ⟨batch, hbatch, re, hleft, hev⟩
  obtain ⟨x, hx, hid⟩ := exists_dedupByID hmem (List.not_mem_nil)
  obtain ⟨re', hre', hrow'⟩ := hsource x (mem_dedupByID hx).1
  have heq : re' = re := by
    refine Chain.eq_of_id hre'.1.1 hre.1.1 ?_
    rw [← hrow'.fields.1, ← hev.fields.1, hid]
  subst heq
  exact ⟨x, hx, hrow'⟩

def Outcome (ing : Ingester) (chain : Chain) (from' to' : Nat) (t t' : Tables b) : Prop :=
  (ing.opts.dryRun = true ∧ t'.events = t.events) ∨
    (ing.opts.dryRun = false ∧ ∃ all, RowsOf ing chain from' to' t all ∧
      t'.events = (t.replaceEventsInRange all from' to').events)

theorem indexBestEffort_safe (events : List Store.Event) {rows : Table Store.Event (eventKey b)}
    (hv : v.tables.events = rows) :
    (servedSys b ing chain).Safe (fun _ _ => True) (fun _ u => u.tables.events = rows)
      (indexBestEffort ing events) v := by
  have hyields : Uses (fun o => ∃ refs, o = Act.upsertAddressRefs refs) (ServedBy chain)
      (indexBestEffort ing events) := by
    unfold indexBestEffort
    unfold indexEventAddresses
    split
    · trivial
    · dsimp only
      split
      · trivial
      · exact ⟨⟨_, rfl⟩, fun _ _ => trivial⟩
  refine (of_yields (served_stable fun u => u.tables.events = rows) ?_
    (fun _ _ _ _ => trivial) hyields hv).post fun _ _ h => h.2
  rintro o u a u' ⟨refs, rfl⟩ hu hstep
  obtain ⟨hserved, c, hexec⟩ := served_step hstep
  refine ⟨hserved, ?_⟩
  rcases Node.exec_tables ing hexec with heq | ⟨_, _, heq⟩ <;> rwa [heq]

theorem replace_safe (all : List Store.Event) (context : String) (hv : v.tables = t) :
    (servedSys b ing chain).Safe (fun _ _ => True)
      (fun r u => OnOk
        (fun _ => u.tables.events = (t.replaceEventsInRange all from' to').events) r)
      (wrapErr context (replaceEventsInRange all from' to')) v := by
  refine act (served_stable fun u => u.tables = t) hv (fun _ _ => trivial) ?_
  intro u a u' hu hstep
  obtain ⟨_, c, hexec⟩ := served_step hstep
  cases a with
  | error err => exact fun _ _ => trivial
  | ok x =>
    obtain rfl : u' = u.committed (.replaceEventsInRange all from' to') := by
      cases c <;> cases hexec
      rfl
    subst hu
    exact ret (served_stable _) rfl

theorem reingestRange_safe (hto : to' < 2 ^ 32) (fuel : Nat) (n : Node b) :
    (servedSys b ing chain).Safe (fun _ _ => True)
      (fun r v => OnOk (fun _ => Outcome ing chain from' to' n.tables v.tables) r)
      (reingestRange ing fuel from' to') n := by
  unfold reingestRange
  split
  · exact fun _ _ => trivial
  · have harchived : Yields (fun o => o = Act.resolveArchivedBoundary) (ServedBy chain)
        (fun _ => True) resolveArchivedBoundary :=
      ⟨rfl, fun _ _ => trivial⟩
    refine andThen ((reads_safe (by rintro o rfl; rfl) harchived rfl).post ?_)
    rintro r v ⟨_, hv⟩
    cases r with
    | error err => exact fun _ _ => trivial
    | ok archivedThrough =>
      dsimp only [Fallible.andThen]
      split
      · exact fun _ _ => trivial
      · refine andThen_ok (buildFilterBatches_safe hv) ?_
        rintro batches v ⟨rfl, hv⟩
        refine andThen ((reads_safe ?_ (collectBatches_yields hto fuel true _) hv).post ?_)
        · intro o ho
          cases o <;> first | rfl | cases ho
        · rintro r v ⟨hr, hv⟩
          cases r with
          | error err => exact fun _ _ => trivial
          | ok result =>
            obtain ⟨collected, rfl, hcollected⟩ := hr
            have hall := rowsOf_removeDuplicateEvents hcollected
            split
            · rename_i hdry
              refine ret (served_stable _) ?_
              exact .inl ⟨hdry, congrArg Tables.events hv⟩
            · rename_i hdry
              refine andThen_ok (replace_safe _ _ hv) ?_
              intro _ v hv
              refine andThen ((indexBestEffort_safe _ hv).post ?_)
              intro r v hv
              cases r with
              | error err => exact fun _ _ => trivial
              | ok _ =>
                refine ret (served_stable _) ?_
                exact .inr ⟨by simpa using hdry, _, hall, hv⟩

end Call

/-- A successful call on an unchanged chain keeps every emission of the range and every row
outside it exactly when it is a dry run or harmless. -/
theorem reingestRange_nondestructive_iff (ing : Ingester) (chain : Chain) (fuel from' to' : Nat)
    (hto : to' < 2 ^ 32) (n n' : Node b)
    (hrows : ∀ r ∈ n.tables.events.rows, inRange from' to' r.ledger = true → Emitted chain r)
    (cs : List Choice) (count : Nat)
    (hrun : (servedNode b ing chain).run (reingestRange ing fuel from' to' : P (Except Err Nat))
      n cs = some (.ok count, n')) :
    (KeepsEmissions from' to' n.tables n'.tables ∧ KeepsOutside from' to' n.tables n'.tables) ↔
      (ing.opts.dryRun = true ∨ Harmless ing chain from' to' n.tables) := by
  have hpost := Machine.run_post (reingestRange_safe hto fuel n) hrun
  have houtcome : Outcome ing chain from' to' n.tables n'.tables := hpost
  rcases houtcome with ⟨hdry, hevents⟩ | ⟨hdry, all, hall, hevents⟩
  · refine ⟨fun _ => .inl hdry, fun _ => ?_⟩
    unfold KeepsEmissions KeepsOutside
    rw [hevents]
    exact ⟨fun r hr _ => ⟨r, hr, rfl⟩, fun _ _ => Iff.rfl⟩
  · have hiff := replace_preserves_iff hall hrows
    unfold KeepsEmissions KeepsOutside at hiff ⊢
    rw [hevents, hiff, hdry]
    simp

/-! An operator stops watching `C2` and then repairs the ledger in which both contracts emitted. -/

def pairChain : Chain where
  events := [.sample "5-1" "C1" 5, .sample "5-2" "C2" 5]
  tip := 9

def pairIngester : Ingester :=
  new Codec.verbatim true { Options.zero with network := "default" }

def pairRow (id contractID : String) : Store.Event := .sample "default" id contractID 5

def pairNode (watched : Table WatchedContract fun w => (w.network, w.contractID)) :
    Node .postgres where
  tables :=
    { Tables.empty .postgres with
      events := ⟨[pairRow "5-1" "C1", pairRow "5-2" "C2"], by decide⟩
      watchedContracts := watched }
  mem := Memory.fresh pairIngester

theorem pairNode_emitted (watched : Table WatchedContract fun w => (w.network, w.contractID)) :
    ∀ r ∈ (pairNode watched).tables.events.rows, inRange 5 5 r.ledger = true →
      Emitted pairChain r := by
  have hrows : ∀ r ∈ [pairRow "5-1" "C1", pairRow "5-2" "C2"], Emitted pairChain r := by
    unfold Emitted
    decide
  intro r hr _
  exact hrows r hr

/-- With nothing watched both events come back. -/
theorem reingestRange_nondestructive_iff_unwatched :
    ∃ n', (servedNode .postgres pairIngester pairChain).run
        (reingestRange pairIngester 1 5 5 : P (Except Err Nat)) (pairNode (Table.empty _))
        [.number 0, .ok, .page ⟨pairChain.events, 9, 2, ""⟩, .ok] = some (.ok 2, n') ∧
      ((KeepsEmissions 5 5 (pairNode (Table.empty _)).tables n'.tables ∧
          KeepsOutside 5 5 (pairNode (Table.empty _)).tables n'.tables) ↔
        (pairIngester.opts.dryRun = true ∨
          Harmless pairIngester pairChain 5 5 (pairNode (Table.empty _)).tables)) :=
  ⟨_, rfl, reingestRange_nondestructive_iff pairIngester pairChain 1 5 5 (by decide) _ _
    (pairNode_emitted _) [.number 0, .ok, .page ⟨pairChain.events, 9, 2, ""⟩, .ok] 2 rfl⟩

/-- With only `C1` watched the row of `C2` is deleted and not written again. -/
theorem reingestRange_drops_unwatched_emission :
    ∃ (watched : Table WatchedContract fun w => (w.network, w.contractID)) (cs : List Choice)
      (n' : Node .postgres),
      (servedNode .postgres pairIngester pairChain).run
        (reingestRange pairIngester 1 5 5 : P (Except Err Nat)) (pairNode watched) cs =
          some (.ok 1, n') ∧
      (∀ r ∈ (pairNode watched).tables.events.rows, inRange 5 5 r.ledger = true →
        Emitted pairChain r) ∧
      ¬KeepsEmissions 5 5 (pairNode watched).tables n'.tables := by
  refine ⟨⟨[⟨"C1", "default"⟩], by decide⟩,
    [.number 0, .ok, .page ⟨[.sample "5-1" "C1" 5], 9, 2, ""⟩, .ok], _, rfl, pairNode_emitted _, ?_⟩
  intro hkeeps
  obtain ⟨r', hr', hemission⟩ := hkeeps (pairRow "5-2" "C2") (by decide) (by decide)
  have hrow : r' = pairRow "5-1" "C1" := List.mem_singleton.mp hr'
  rw [hrow] at hemission
  exact absurd hemission (by decide)

end SoroTrail.Ingest
