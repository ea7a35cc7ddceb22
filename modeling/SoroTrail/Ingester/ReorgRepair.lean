import SoroTrail.Ingester.Reingest
import SoroTrail.Ingester.Requests
import SoroTrail.Store.Reconcile

/-!
# Repairing a range after a reorg

A pass fetches the range again and hands the rows to the reconciliation.  Live
rows are stored without a network, or under `default` on Postgres, while the
reconciliation removes the rows of the configured network: the orphaned rows go
exactly when the two are the same.
-/

set_option autoImplicit false

namespace SoroTrail.Ingest

open Lib Rpc Store Table Sys.Safe

variable {b : Backend}

/-! ## The reconciliation request -/

def returningEvent : Store.Event := .sample "" "5-1" "C1" 5

def returningOptions : ReorgReconcileOptions where
  network := ""
  fromLedger := 5
  toLedger := 5
  canonicalEvents := [returningEvent]
  canonicalAddressRefs := [⟨"GB", "5-1", "to"⟩]
  newHeadLedger := 7
  rewindCursorsToFromLedger := false

def nodeWithRefs (refs : List AddressRef) (h : (refs.map id).Nodup) : Node .postgres where
  tables := { Tables.empty .postgres with eventAddresses := ⟨refs, h⟩ }
  mem := Memory.fresh (new Codec.verbatim true Options.zero)

def keptThrough (toLedger newHeadLedger : Nat) : Nat :=
  if 0 < newHeadLedger ∧ newHeadLedger < toLedger then newHeadLedger else toLedger

def LiveRow (b : Backend) (ing : Ingester) (r : Store.Event) : Prop :=
  ∃ re ev, toStoreEvent ing re = .ok ev ∧ r = liveRow b ev

/-- The row records the event, under whichever network and with whichever raw XDR. -/
def RowOf (ing : Ingester) (re : Rpc.Event) (r : Store.Event) : Prop :=
  ∃ ev, toStoreEvent ing re = .ok ev ∧ content r = content ev

variable {r : Store.Event}

theorem LiveRow.network {ing : Ingester} (h : LiveRow b ing r) :
    r.network = match b with
      | .postgres => "default"
      | .sqlite => "" := by
  obtain ⟨re, ev, hdecoded, rfl⟩ := h
  have hempty := (toStoreEvent_ok ing hdecoded).2.2.2.1
  cases b with
  | postgres =>
    show defaultNetwork ev.network = "default"
    rw [hempty]
    rfl
  | sqlite => exact hempty

theorem defaultNetwork_ne_empty (network : String) : defaultNetwork network ≠ "" := by
  unfold defaultNetwork
  split
  · decide
  · assumption

theorem LiveRow.own_iff {ing : Ingester} (h : LiveRow b ing r) {o : ReorgReconcileOptions} :
    own b o r.network = true ↔ defaultNetwork o.network = "default" := by
  have hnetwork := h.network
  unfold own
  cases b with
  | postgres =>
    rw [hnetwork]
    simp [sameNetwork, eq_comm]
  | sqlite =>
    rw [hnetwork]
    have hne := defaultNetwork_ne_empty o.network
    simp [sameNetwork, Ne.symm hne]

section Statement

variable (ing : Ingester) (chain : Chain) (from' to' newHead : Nat)

def Kept (t : Tables b) (re : Rpc.Event) : Prop :=
  Refetched ing chain from' to' t re ∧ re.ledger ≤ keptThrough to' newHead

/-- One row for each event kept, no other row in the range, and no address refs of rows whose
event is not canonical. -/
structure Repaired (t t' : Tables b) : Prop where
  stored : ∀ re, Kept ing chain from' to' newHead t re →
    ∃ r ∈ t'.events.rows, RowOf ing re r ∧
      ∀ r' ∈ t'.events.rows, inRange from' to' r'.ledger = true → r'.id = re.id → r' = r
  only : ∀ r ∈ t'.events.rows, inRange from' to' r.ledger = true →
    ∃ re, Kept ing chain from' to' newHead t re ∧ RowOf ing re r
  refs : ∀ r ∈ t.events.rows, inRange from' to' r.ledger = true →
    (∀ re, Refetched ing chain from' to' t re → re.id ≠ r.id) →
    ∀ ref ∈ t'.eventAddresses.rows, ref.eventID ≠ r.id

/-- If the range holds rows at all, the ingester's network is the default one, and the rows whose
event is not canonical have no address refs or no row of their id on another network. -/
def Repairable (t : Tables b) : Prop :=
  ∀ r ∈ t.events.rows, inRange from' to' r.ledger = true →
    defaultNetwork ing.opts.network = "default" ∧
      ((∃ re, Refetched ing chain from' to' t re ∧ re.id = r.id) ∨
        (∀ ref ∈ t.eventAddresses.rows, ref.eventID ≠ r.id) ∨
        ∀ x ∈ t.events.rows, x.id = r.id → sameNetwork b "default" x.network = true)

end Statement

section Pass

variable {ing : Ingester} {chain : Chain} {from' to' newHead : Nat} {t : Tables b}

def passOptions (ing : Ingester) (from' to' newHead : Nat) (all : List Store.Event) :
    ReorgReconcileOptions where
  network := ing.opts.network
  fromLedger := from'
  toLedger := to'
  canonicalEvents := all
  canonicalAddressRefs := all.flatMap ing.codec.appendAddresses
  newHeadLedger := newHead
  rewindCursorsToFromLedger := false

def RowsKept (ing : Ingester) (chain : Chain) (from' to' newHead : Nat) (t : Tables b)
    (all : List Store.Event) : Prop :=
  (∀ ev ∈ all, ∃ re, Kept ing chain from' to' newHead t re ∧ CollectedRow ing re ev) ∧
    ∀ re, Kept ing chain from' to' newHead t re → ∃ ev ∈ all, CollectedRow ing re ev

theorem rowsKept_of_rowsOf {all : List Store.Event} (h : RowsOf ing chain from' to' t all) :
    RowsKept ing chain from' to' newHead t
      (if 0 < newHead ∧ newHead < to' then
        all.filter fun ev => decide (u32OfInt ev.ledger ≤ newHead)
      else all) := by
  have hledger : ∀ (re : Rpc.Event) (ev : Store.Event), Refetched ing chain from' to' t re →
      CollectedRow ing re ev → u32OfInt ev.ledger = re.ledger := by
    intro re ev hre hrow
    rw [hrow.fields.2.2.1]
    refine u32OfInt_natCast ?_
    have hle := chain.ledger_le re hre.1.1
    have hlt := chain.tip_lt
    omega
  by_cases hshort : 0 < newHead ∧ newHead < to'
  · rw [if_pos hshort]
    refine ⟨?_, ?_⟩
    · intro ev hev
      obtain ⟨hmem, hle⟩ := List.mem_filter.mp hev
      obtain ⟨re, hre, hrow⟩ := h.1 ev hmem
      rw [hledger re ev hre hrow, decide_eq_true_eq] at hle
      exact ⟨re, ⟨hre, by rw [keptThrough, if_pos hshort]; exact hle⟩, hrow⟩
    · rintro re ⟨hre, hle⟩
      rw [keptThrough, if_pos hshort] at hle
      obtain ⟨ev, hev, hrow⟩ := h.2 re hre
      refine ⟨ev, List.mem_filter.mpr ⟨hev, ?_⟩, hrow⟩
      rw [hledger re ev hre hrow, decide_eq_true_eq]
      exact hle
  · rw [if_neg hshort]
    refine ⟨?_, ?_⟩
    · intro ev hev
      obtain ⟨re, hre, hrow⟩ := h.1 ev hev
      exact ⟨re, ⟨hre, by rw [keptThrough, if_neg hshort]; exact hre.1.2.2.2⟩, hrow⟩
    · rintro re ⟨hre, _⟩
      exact h.2 re hre

/-! ### The canonical rows of a pass -/

variable {re : Rpc.Event}

theorem rowOf_of_content {c x : Store.Event} (hrow : CollectedRow ing re c)
    (hcontent : content x = content c) : RowOf ing re x := by
  obtain ⟨_, ev, hdecoded, rfl⟩ := hrow
  exact ⟨ev, hdecoded, hcontent⟩

theorem RowOf.id_eq (hrow : RowOf ing re r) : r.id = re.id := by
  obtain ⟨ev, hdecoded, hcontent⟩ := hrow
  exact (content_fields hcontent).1.trans (toStoreEvent_ok ing hdecoded).1

section Rows

variable {all : List Store.Event} {o : ReorgReconcileOptions}
  (ho : o = passOptions ing from' to' newHead all)
include ho

theorem canonical_after
    (hlive : ∀ r ∈ t.events.rows, inRange from' to' r.ledger = true → LiveRow b ing r)
    (hdefault : ∀ r ∈ t.events.rows, inRange from' to' r.ledger = true →
      defaultNetwork ing.opts.network = "default") {x : Store.Event}
    (hx : x ∈ (t.reconcileReorgTx o).events.rows)
    (hin : inRange from' to' x.ledger = true) :
    ∃ c ∈ canonicalOf o,
      sansXDR x = sansXDR (canonicalRow b c) := by
  rw [reconcileReorgTx_events] at hx
  rcases mem_overwriteAll hx with ⟨hold, _⟩ | ⟨e, he, hsame⟩
  · obtain ⟨hmem, hkept⟩ := mem_delete.mp hold
    subst ho
    cases hkept.symm.trans
      (gone_eq_true.mpr ⟨(hlive x hmem hin).own_iff.mpr (hdefault x hmem hin), hin⟩)
  · obtain ⟨c, hc, rfl⟩ := mem_newRows.mp he
    exact ⟨c, hc, hsame.trans (sansXDR_newRow _ c)⟩

variable (h : RowsKept ing chain from' to' newHead t all)
include h

theorem RowsKept.source {c : Store.Event}
    (hc : c ∈ canonicalOf o) :
    ∃ re, Kept ing chain from' to' newHead t re ∧ CollectedRow ing re c := by
  subst ho
  obtain ⟨e, he, rfl⟩ := mem_canonicalOf hc
  obtain ⟨re, hre, hrow⟩ := h.1 e he
  refine ⟨re, hre, ?_⟩
  -- the options fill in a network the rows carry already
  rw [if_neg]
  · exact hrow
  · rintro ⟨hempty, hfilled⟩
    rw [hrow.fields.2.2.2.1] at hempty
    exact hfilled hempty

theorem RowsKept.exists_canonical (hre : Kept ing chain from' to' newHead t re) :
    ∃ c ∈ canonicalOf o, CollectedRow ing re c := by
  obtain ⟨ev, hev, hrow⟩ := h.2 re hre
  have hin : inRange o.fromLedger o.toLedger ev.ledger = true := by
    rw [hrow.fields.2.2.1, ho]
    exact refetched_inRange hre.1
  obtain ⟨c, hc, hid⟩ := exists_canonicalOf (ho ▸ hev) hin
  obtain ⟨re', hre', hrow'⟩ := h.source ho hc
  have hsame : re' = re := by
    refine Chain.eq_of_id hre'.1.1.1 hre.1.1.1 ?_
    rw [← hrow'.fields.1, hid, hrow.fields.1]
  subst hsame
  exact ⟨c, hc, hrow'⟩

theorem RowsKept.own_canonical {c : Store.Event}
    (hc : c ∈ canonicalOf o) :
    own b o (canonicalRow b c).network = true := by
  obtain ⟨re, _, hrow⟩ := h.source ho hc
  subst ho
  have hnetwork : c.network = ing.opts.network := hrow.fields.2.2.2.1
  cases b with
  | postgres =>
    show decide (defaultNetwork c.network = defaultNetwork ing.opts.network) = true
    rw [hnetwork, decide_eq_true_eq]
  | sqlite =>
    show sameNetwork .sqlite (defaultNetwork ing.opts.network) c.network = true
    rw [hnetwork]
    by_cases hempty : ing.opts.network = "" <;> simp [sameNetwork, defaultNetwork, hempty]

/-- A kept event has a row afterwards, of the reconciled network and in the range. -/
theorem RowsKept.row_after (hre : Kept ing chain from' to' newHead t re) :
    ∃ y ∈ (t.reconcileReorgTx o).events.rows,
      gone b o y = true ∧ RowOf ing re y := by
  obtain ⟨c, hc, hrow⟩ := h.exists_canonical ho hre
  obtain ⟨y, hy, hkey, e, he, hsame⟩ := @overwriteAll_writes b _
    (newRows o t)
    (t.events.delete (gone b o)) (mem_newRows.mpr ⟨c, hc, rfl⟩)
  obtain ⟨c', hc', rfl⟩ := mem_newRows.mp he
  have hcontent : content y = content c' := (content_of_sansXDR hsame).trans (content_newRow _ c')
  have hid : c'.id = c.id := by
    rw [← (content_fields hcontent).1, (eventKey_inj hkey).2]
    exact (content_fields (content_newRow _ c)).1
  rw [canonicalOf_eq_of_id hc' hc hid] at hcontent hsame
  refine ⟨y, hy, ?_, rowOf_of_content hrow hcontent⟩
  rw [gone_eq_true, (content_fields hcontent).2, (sansXDR_fields hsame).2.2.1, newRow_network]
  exact ⟨h.own_canonical ho hc, canonicalOf_inRange hc⟩

/-- A committed pass repairs the range exactly when it is repairable. -/
theorem pass_repairs_iff
    (hlive : ∀ r ∈ t.events.rows, inRange from' to' r.ledger = true → LiveRow b ing r) :
    Repaired ing chain from' to' newHead t
        (t.reconcileReorgTx o) ↔
      Repairable ing chain from' to' t := by
  have hrange : ∀ {y}, gone b o y = true → inRange from' to' y.ledger = true := fun hgone => by
    subst ho
    exact (gone_eq_true.mp hgone).2
  constructor
  · intro hrepaired r hr hin
    have hlr := hlive r hr hin
    by_cases hdefault : defaultNetwork ing.opts.network = "default"
    · refine ⟨hdefault, ?_⟩
      by_contra hnot
      push Not at hnot
      obtain ⟨hunfetched, ⟨ref, href, hid⟩, x, hx, hxid, helse⟩ := hnot
      have hown : own b o x.network = false := by
        subst ho
        show sameNetwork b (defaultNetwork ing.opts.network) x.network = false
        rw [hdefault]
        exact Bool.not_eq_true _ |>.mp helse
      have hkept := mem_reconciled_refs.mpr
        (.inl ⟨href, .inr ⟨x, hx, hxid.trans hid.symm, hown⟩⟩)
      exact hrepaired.refs r hr hin hunfetched ref hkept hid
    · -- the live row is of another network, so it stays beside the canonical one
      exfalso
      have hown : ¬own b o r.network = true := fun hown =>
        hdefault (by subst ho; exact hlr.own_iff.mp hown)
      have hstays : r ∈ (t.reconcileReorgTx o).events.rows := by
        rw [reconcileReorgTx_events]
        refine overwriteAll_keeps (mem_delete.mpr ⟨hr, ?_⟩) ?_
        · rw [gone, Bool.not_eq_true _ |>.mp hown, Bool.false_and]
        · intro e he hkey
          obtain ⟨c, hc, rfl⟩ := mem_newRows.mp he
          have hnetwork := (eventKey_inj hkey).1
          rw [newRow_network] at hnetwork
          rw [hnetwork] at hown
          exact hown (h.own_canonical ho hc)
      obtain ⟨re, hre, hrow⟩ := hrepaired.only r hstays hin
      obtain ⟨y, hy, hygone, hyrow⟩ := h.row_after ho hre
      obtain ⟨r₀, _, _, hunique⟩ := hrepaired.stored re hre
      have hry : r = y := (hunique r hstays hin hrow.id_eq).trans
        (hunique y hy (hrange hygone) hyrow.id_eq).symm
      rw [hry] at hown
      exact hown (gone_eq_true.mp hygone).1
  · intro hrepairable
    have hcanonical := fun x => @canonical_after _ _ _ _ _ _ _ _ ho hlive
      (fun r hr hin => (hrepairable r hr hin).1) x
    refine ⟨?_, ?_, ?_⟩
    · intro re hre
      obtain ⟨y, hy, hygone, hyrow⟩ := h.row_after ho hre
      refine ⟨y, hy, hyrow, ?_⟩
      intro r' hr' hin' hid'
      obtain ⟨c, hc, hsame⟩ := hcanonical y hy (hrange hygone)
      obtain ⟨c', hc', hsame'⟩ := hcanonical r' hr' hin'
      have hids : c'.id = c.id := by
        rw [← (content_fields ((content_of_sansXDR hsame').trans (content_canonicalRow c'))).1,
          ← (content_fields ((content_of_sansXDR hsame).trans (content_canonicalRow c))).1,
          hid', hyrow.id_eq]
      rw [canonicalOf_eq_of_id hc' hc hids] at hsame'
      exact eq_of_key hr' hy (eventKey_of_sansXDR (hsame'.trans hsame.symm))
    · intro r hr hin
      obtain ⟨c, hc, hsame⟩ := hcanonical r hr hin
      obtain ⟨re, hre, hrow⟩ := h.source ho hc
      exact ⟨re, hre, rowOf_of_content hrow
        ((content_of_sansXDR hsame).trans (content_canonicalRow c))⟩
    · intro r hr hin hunfetched ref href hid
      obtain ⟨hdefault, halternatives⟩ := hrepairable r hr hin
      rcases mem_reconciled_refs.mp href with ⟨hmem, hold | ⟨x, hx, hxid, hxown⟩⟩ | hcanonicalRef
      · -- the row itself was replaced, so its refs were too
        subst ho
        exact hold r (mem_oldRows.mpr
          ⟨hr, gone_eq_true.mpr ⟨(hlive r hr hin).own_iff.mpr hdefault, hin⟩⟩) hid.symm
      · rcases halternatives with ⟨re, hre, hreid⟩ | hnorefs | hsame
        · exact hunfetched re hre hreid
        · exact hnorefs ref hmem hid
        · have htrue := hsame x hx (hxid.trans hid)
          subst ho
          have hfalse : sameNetwork b (defaultNetwork ing.opts.network) x.network = false := hxown
          rw [hdefault, htrue] at hfalse
          cases hfalse
      · obtain ⟨_, c, hc, hcid⟩ := mem_canonicalRefs.mp hcanonicalRef
        obtain ⟨re, hre, hrow⟩ := h.source ho hc
        exact hunfetched re hre.1 (hrow.fields.1.symm.trans (hcid.trans hid))

end Rows

/-! ### The program -/

def PassOutcome (ing : Ingester) (chain : Chain) (from' to' newHead : Nat) (t t' : Tables b) :
    Prop :=
  (ing.opts.dryRun = true ∧ t' = t) ∨
    (ing.opts.dryRun = false ∧ ∃ all, RowsKept ing chain from' to' newHead t all ∧
      t' = t.reconcileReorgTx (passOptions ing from' to' newHead all))

theorem reconcile_safe (o : ReorgReconcileOptions) (context : String) {v : Node b}
    (hv : v.tables = t) :
    (servedSys b ing chain).Safe (fun _ _ => True)
      (fun r u => Prog.OnOk (fun _ => u.tables = t.reconcileReorgTx o) r)
      (wrapErr context (reconcileReorgRange o)) v := by
  refine act (served_stable fun u => u.tables = t) hv (fun _ _ => trivial) ?_
  intro u a u' hu hstep
  obtain ⟨_, c, hexec⟩ := served_step hstep
  cases a with
  | error err => exact fun _ _ => trivial
  | ok x =>
    refine ret (served_stable _) ?_
    show u'.tables = t.reconcileReorgTx o
    cases c with
    | ok =>
      simp only [Node.exec] at hexec
      cases hresult : u.tables.reconcileReorgRange o with
      | error err =>
        rw [hresult] at hexec
        cases hexec
      | ok t' =>
        rw [hresult] at hexec
        cases hexec
        unfold Tables.reconcileReorgRange at hresult
        split at hresult
        · cases hresult
        · rename_i hvalid
          simp only [Node.committed, Act.commit, Tables.reconcileReorgRange, if_neg hvalid]
          rw [hu]
    | fail err => cases hexec
    | _ => cases hexec

theorem remembers_safe {α : Type} {p : P α} (hp : Remembers p) {v : Node b} (hv : v.tables = t) :
    (servedSys b ing chain).Safe (fun _ _ => True) (fun _ u => u.tables = t) p v := by
  have hmemory : ∀ o, TrackAct o → o.writes = false := by
    rintro o ⟨f, rfl, _⟩
    rfl
  exact (reads_safe hmemory (Prog.Yields.weaken hp (fun _ h => h) fun _ _ _ => trivial) hv).post
    fun _ _ h => h.2

theorem executeReorgPass_safe (hto : to' < 2 ^ 32) (fuel : Nat) (n : Node b) :
    (servedSys b ing chain).Safe (fun _ _ => True)
      (fun r v => Prog.OnOk
        (fun _ => PassOutcome ing chain from' to' newHead n.tables v.tables) r)
      (executeReorgPass ing fuel from' to' newHead) n := by
  refine andThen_ok (buildFilterBatches_safe rfl) ?_
  rintro batches v ⟨rfl, hv⟩
  refine andThen ((reads_safe ?_ (collectBatches_yields hto fuel false _) hv).post ?_)
  · intro o ho
    cases o <;> first | rfl | cases ho
  · rintro r v ⟨hr, hv⟩
    cases r with
    | error err => exact fun _ _ => trivial
    | ok result =>
      obtain ⟨collected, rfl, hcollected⟩ := hr
      have hall : RowsKept ing chain from' to' newHead n.tables _ :=
        rowsKept_of_rowsOf (rowsOf_removeDuplicateEvents hcollected)
      dsimp only [Fallible.andThen]
      split
      · rename_i hdry
        exact ret (served_stable _) (.inl ⟨hdry, hv⟩)
      · rename_i hdry
        refine andThen_ok (reconcile_safe (passOptions ing from' to' newHead _) _ hv) ?_
        intro _ v hv
        refine (remembers_safe (remembers_trackReconciled _ from' to' newHead) hv).post ?_
        intro r u hu
        cases r with
        | error err => trivial
        | ok _ => exact .inr ⟨by simpa using hdry, _, hall, hu⟩

end Pass

def emptiedChain : Chain where
  events := []
  tip := 8

def orphanIngester (network : String) : Ingester :=
  new Codec.verbatim true { Options.zero with network := network }

/-- The row `persistEvents` stores on Postgres. -/
def orphanRow : Store.Event :=
  { returningEvent with network := "default" }

def orphanNode (network : String) : Node .postgres where
  tables := { Tables.empty .postgres with events := ⟨[orphanRow], by decide⟩ }
  mem := Memory.fresh (orphanIngester network)

theorem orphanNode_live (network : String) :
    ∀ r ∈ (orphanNode network).tables.events.rows, inRange 5 5 r.ledger = true →
      LiveRow .postgres (orphanIngester network) r := by
  intro r hr _
  rw [List.mem_singleton.mp hr]
  exact ⟨.sample "5-1" "C1" 5, returningEvent, rfl, rfl⟩

def passAnswers : List Choice :=
  [.ok, .page ⟨[], 8, 2, ""⟩, .ok, .ok]

end SoroTrail.Ingest
