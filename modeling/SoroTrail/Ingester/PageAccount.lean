import SoroTrail.Ingester.PersistSpec
import SoroTrail.Ingester.Requests

/-!
# Where the events of a page end up

A persisted page leaves each event it does not skip in `events` or in
`dead_letters`.  One thing can take an event out again before the call returns:
the repair that the page's own fingerprints set off, when the range it fetches
no longer holds the event.  To say so the node keeps a record of the
reconciliations it has committed.
-/

set_option autoImplicit false

namespace SoroTrail.Ingest

open Lib Rpc Store List Table

variable {b : Backend}

/-- The event is in `events` or in `dead_letters`. -/
def Recorded (t : Tables b) (id : String) : Prop :=
  (∃ r ∈ t.events.rows, r.id = id) ∨ ∃ d ∈ t.deadLetters.rows, d.eventID = id

/-- A committed reconciliation and the tables it was committed on. -/
structure Reconciliation (b : Backend) where
  options : ReorgReconcileOptions
  before : Tables b

/-- The event was recorded inside the reconciled range only, and the range as it was fetched
does not hold it. -/
def Reconciliation.Drops (c : Reconciliation b) (id : String) : Prop :=
  Recorded c.before id ∧
    (∀ r ∈ c.before.events.rows, r.id = id →
      inRange c.options.fromLedger c.options.toLedger r.ledger = true) ∧
    (∀ d ∈ c.before.deadLetters.rows, d.eventID = id →
      inRange c.options.fromLedger c.options.toLedger d.ledger = true) ∧
    ∀ ev ∈ canonicalOf c.options, ev.id ≠ id

/-! ## Single writes -/

variable {id : String} {t : Tables b}

theorem Recorded.upsertEvents (h : Recorded t id) (evs : List Store.Event) :
    Recorded (t.upsertEvents evs) id := by
  rcases h with ⟨r, hr, hid⟩ | hdead
  · exact .inl ⟨r, subset_insertAll hr, hid⟩
  · exact .inr hdead

theorem recorded_upsertEvents (t : Tables b) {evs : List Store.Event} {ev : Store.Event}
    (hev : ev ∈ evs) : Recorded (t.upsertEvents evs) ev.id := by
  obtain ⟨x, hx, hkey⟩ := @exists_insertAll _ _ _ (liveRow b ev) t.events
    (evs.map (liveRow b)) _ (mem_map.mpr ⟨ev, hev, rfl⟩)
  exact .inl ⟨x, hx, (eventKey_inj hkey).2.trans (liveRow_fields b ev).1⟩

theorem Recorded.deadLetterEvent (h : Recorded t id) (d : DeadLetter) :
    Recorded (t.deadLetterEvent d) id := by
  rcases h with hevents | ⟨old, hold, hid⟩
  · exact .inl hevents
  · refine .inr ?_
    by_cases hkey : old.eventID = d.eventID
    · exact ⟨_, mem_merge.mpr (.inr (.inr ⟨old, hold, hkey, rfl⟩)), hid⟩
    · exact ⟨old, mem_merge.mpr (.inl ⟨hold, hkey⟩), hid⟩

theorem recorded_deadLetterEvent (t : Tables b) (d : DeadLetter) :
    Recorded (t.deadLetterEvent d) d.eventID := by
  refine .inr ?_
  by_cases htaken : d.eventID ∈ t.deadLetters.rows.map DeadLetter.eventID
  · obtain ⟨old, hold, hkey⟩ := mem_map.mp htaken
    exact ⟨_, mem_merge.mpr (.inr (.inr ⟨old, hold, hkey, rfl⟩)), hkey⟩
  · exact ⟨_, mem_merge.mpr (.inr (.inl ⟨rfl, htaken⟩)), rfl⟩

theorem Recorded.reconcileReorgTx (h : Recorded t id) (o : ReorgReconcileOptions) :
    Recorded (t.reconcileReorgTx o) id ∨ (⟨o, t⟩ : Reconciliation b).Drops id := by
  by_cases hcanonical : ∃ ev ∈ canonicalOf o, ev.id = id
  · obtain ⟨ev, hev, rfl⟩ := hcanonical
    -- its row is among those written, whatever raw XDR it keeps
    obtain ⟨x, hx, hkey, _⟩ := @overwriteAll_writes b _ _
      (t.events.delete fun r => sameNetwork b (defaultNetwork o.network) r.network &&
        inRange o.fromLedger o.toLedger r.ledger)
      (mem_map.mpr ⟨_, mem_map.mpr ⟨ev, hev, rfl⟩, rfl⟩)
    refine .inl (.inl ⟨x, hx, (eventKey_inj hkey).2.trans ?_⟩)
    exact (liveRow_fields b _).1.trans (sansXDR_fields (sansXDR_mergeKeptXDR _ ev)).1
  · by_cases hrows : ∀ r ∈ t.events.rows, r.id = id →
        inRange o.fromLedger o.toLedger r.ledger = true
    · by_cases hdead : ∀ d ∈ t.deadLetters.rows, d.eventID = id →
          inRange o.fromLedger o.toLedger d.ledger = true
      · exact .inr ⟨h, hrows, hdead, fun ev hev hid => hcanonical ⟨ev, hev, hid⟩⟩
      · push Not at hdead
        obtain ⟨d, hd, hid, hout⟩ := hdead
        refine .inl (.inr ⟨d, mem_delete.mpr ⟨hd, ?_⟩, hid⟩)
        rw [Bool.not_eq_true _ |>.mp hout, Bool.false_and]
    · push Not at hrows
      obtain ⟨r, hr, hid, hout⟩ := hrows
      have hstays : r ∈ (t.events.delete fun r =>
          sameNetwork b (defaultNetwork o.network) r.network &&
            inRange o.fromLedger o.toLedger r.ledger).rows := by
        refine mem_delete.mpr ⟨hr, ?_⟩
        rw [Bool.not_eq_true _ |>.mp hout, Bool.and_false]
      obtain ⟨x, hx, hkey, _⟩ := overwriteAll_holds hstays
      exact .inl (.inl ⟨x, hx, (eventKey_inj hkey).2.trans hid⟩)

/-! ## The node with its record -/

structure Audited (b : Backend) where
  node : Node b
  reconciled : List (Reconciliation b)

def Audited.start (n : Node b) : Audited b := ⟨n, []⟩

def noted : Act → Choice → Tables b → List (Reconciliation b)
  | .reconcileReorgRange o, .ok, t =>
    match t.reconcileReorgRange o with
    | .ok _ => [⟨o, t⟩]
    | .error _ => []
  | _, _, _ => []

def auditedNode (b : Backend) (ing : Ingester) : Machine Act Ans (Audited b) Choice Unit where
  exec o w c := (Node.exec ing o w.node c).map fun r =>
    (r.1, { node := r.2, reconciled := w.reconciled ++ noted o c w.node.tables })
  drift _ _ := none

abbrev auditedSys (b : Backend) (ing : Ingester) : Sys Act Ans (Audited b) :=
  (auditedNode b ing).sys Machine.anything

section Steps

variable {ing : Ingester}

theorem audited_stable (I : Audited b → Prop) : (auditedSys b ing).Stable I := by
  rintro v v' ⟨_, _, hdrift⟩
  cases hdrift

variable {o : Act} {t : Tables b}

theorem audited_step {v v' : Audited b} {a : Ans o} (h : (auditedSys b ing).step o v a v') :
    ∃ c, Node.exec ing o v.node c = some (a, v'.node) ∧
      v'.reconciled = v.reconciled ++ noted o c v.node.tables := by
  obtain ⟨c, _, hexec⟩ := h
  obtain ⟨⟨a', n'⟩, hnode, heq⟩ := Option.map_eq_some_iff.mp hexec
  cases heq
  exact ⟨c, hnode, rfl⟩

/-- What was recorded in `t` is still recorded, or a reconciliation has dropped it. -/
def Accounts (t : Tables b) (w : Audited b) : Prop :=
  ∀ id, Recorded t id → Recorded w.node.tables id ∨ ∃ c ∈ w.reconciled, c.Drops id

theorem accounts_step {v v' : Audited b} {a : Ans o} (ho : RepairAct o) (hv : Accounts t v)
    (h : (auditedSys b ing).step o v a v') : Accounts t v' := by
  obtain ⟨c, hexec, hnoted⟩ := audited_step h
  intro id hid
  rcases hv id hid with hkept | ⟨r, hr, hdrops⟩
  · rcases Node.exec_tables ing hexec with heq | ⟨hw, hc, heq⟩
    · rw [heq]
      exact .inl hkept
    · obtain ⟨options, rfl⟩ := repairAct_writes ho hw
      subst hc
      rw [heq]
      simp only [Act.commit, noted] at hnoted ⊢
      cases hreconciled : v.node.tables.reconcileReorgRange options with
      | error err => exact .inl hkept
      | ok t' =>
        have htx : t' = v.node.tables.reconcileReorgTx options := by
          unfold Tables.reconcileReorgRange at hreconciled
          split at hreconciled
          · cases hreconciled
          · exact (Except.ok.inj hreconciled).symm
        rw [hreconciled] at hnoted
        rw [htx]
        refine (hkept.reconcileReorgTx options).imp_right fun hdrops => ?_
        exact ⟨_, hnoted ▸ mem_append_right _ (mem_singleton_self _), hdrops⟩
  · exact .inr ⟨r, hnoted ▸ mem_append_left _ hr, hdrops⟩

theorem repairs_account {α : Type} {p : P α} (hp : Repairs p) {v : Audited b} (hv : Accounts t v) :
    (auditedSys b ing).Safe (fun _ _ => True) (fun _ u => Accounts t u) p v := by
  have hstep : ∀ o v a v', RepairAct o → Accounts t v → (auditedSys b ing).step o v a v' →
      True ∧ Accounts t v' :=
    fun _ _ _ _ ho hv h => ⟨trivial, accounts_step ho hv h⟩
  exact (Sys.Safe.of_yields (audited_stable _) hstep (fun _ _ _ _ => trivial) hp hv).post
    fun _ _ h => h.2

/-! ## A page -/

theorem pageWrite_keeps {page : List Rpc.Event} (ho : PageWrite ing page o) {id : String}
    (h : Recorded t id) : Recorded (o.commit t) id := by
  cases o with
  | upsertEvents evs => exact h.upsertEvents evs
  | deadLetterEvent d => exact h.deadLetterEvent d
  | upsertAddressRefs refs => exact h
  | now => exact h
  | sleepCtx d => exact h
  | _ => cases ho

theorem committed_recorded {n n' : Node b} {c : Choice} {a : Ans o}
    (h : Node.exec ing o n c = some (a, n')) (hcommitted : Committed o a) {id : String}
    (hid : id ∈ o.storedIDs) : Recorded n'.tables id := by
  cases o with
  | upsertEvents evs =>
    obtain ⟨ev, hev, rfl⟩ := hid
    cases c with
    | ok =>
      cases h
      exact recorded_upsertEvents _ hev
    | fail err =>
      cases h
      cases hcommitted
    | _ => cases h
  | deadLetterEvent d =>
    cases hid
    cases c with
    | ok =>
      cases h
      exact recorded_deadLetterEvent _ d
    | fail err =>
      cases h
      cases hcommitted
    | _ => cases h
  | _ => cases hid

/-- The audited node follows the store of ids while a page is persisted. -/
theorem persistRows_records (hdry : ing.opts.dryRun = false) (page : List Rpc.Event)
    (n : Node b) :
    (auditedSys b ing).Safe (fun _ _ => True)
      (fun r w => Prog.OnOk (fun _ => ∀ re ∈ page, isSkipped ing re.contractID = true ∨
        Recorded w.node.tables re.id) r)
      (persistRows ing page) (Audited.start n) := by
  have hstep : ∀ o (s : Set String) v a v', PageWrite ing page o →
      (∀ id ∈ s, Recorded v.node.tables id) → (auditedSys b ing).step o v a v' →
      ∃ s', idLog.step o s a s' ∧ ∀ id ∈ s', Recorded v'.node.tables id := by
    intro o s v a v' ho hs h
    obtain ⟨c, hexec, _⟩ := audited_step h
    refine ⟨{ id | Recorded v'.node.tables id }, ⟨?_, ?_⟩, fun _ hid => hid⟩
    · intro id hid
      rcases Node.exec_tables ing hexec with heq | ⟨_, _, heq⟩
      · rw [heq]
        exact hs id hid
      · rw [heq]
        exact pageWrite_keeps ho (hs id hid)
    · intro hcommitted id hid
      exact committed_recorded hexec hcommitted hid
  have hdrift : ∀ (s : Set String) v v', (∀ id ∈ s, Recorded v.node.tables id) →
      (auditedSys b ing).drift v v' →
      ∃ s', idLog.Drifts s s' ∧ ∀ id ∈ s', Recorded v'.node.tables id :=
    fun s v v' hs hdrift => ⟨s, .refl, audited_stable (fun u : Audited b =>
      ∀ id ∈ s, Recorded u.node.tables id) v v' hdrift hs⟩
  have hnone : ∀ id ∈ (∅ : Set String), Recorded (Audited.start n).node.tables id :=
    fun id hid => hid.elim
  refine (Sys.Safe.simulate hstep hdrift (persistRows_persists hdry page ∅) hnone).mono
    (fun _ _ _ => trivial) ?_
  rintro r w ⟨s, hs, hr⟩
  cases r with
  | error err => trivial
  | ok _ => exact fun re hre => (hr re hre).imp_right (hs re.id)

theorem recordFingerprints_remembers (fuel : Nat) (events : List Store.Event) (latest : Nat) :
    Remembers (recordIngestedLedgerFingerprints ing fuel events latest false) := by
  unfold recordIngestedLedgerFingerprints
  split
  · trivial
  · refine Prog.Uses.andThen (Prog.Uses.lift (remembers_trackLedgers events _ _)) ?_
    intro range
    trivial

end Steps

/-- When the call returns without an error, each event of the page that is not skipped is recorded,
or the divergence check was on and the call committed a reconciliation of the range that holds the
event, whose freshly fetched events do not include it. -/
theorem persisted_page_recorded (ing : Ingester) (hdry : ing.opts.dryRun = false) (fuel : Nat)
    (page : List Rpc.Event) (latestLedger : Nat) (checkDivergence : Bool) (n : Node b)
    (w : Audited b) (cs : List Choice)
    (hrun : (auditedNode b ing).run
      (persistEventsWithReorgCheck ing fuel page latestLedger checkDivergence : P (Except Err Unit))
      (Audited.start n) cs = some (.ok (), w)) :
    ∀ re ∈ page, isSkipped ing re.contractID = false →
      Recorded w.node.tables re.id ∨
        (checkDivergence = true ∧ ∃ c ∈ w.reconciled, c.Drops re.id) := by
  have hsafe : (auditedSys b ing).Safe (fun _ _ => True)
      (fun r u => Prog.OnOk (fun _ => ∀ re ∈ page, isSkipped ing re.contractID = true ∨
        (Recorded u.node.tables re.id ∨
          (checkDivergence = true ∧ ∃ c ∈ u.reconciled, c.Drops re.id))) r)
      (persistEventsWithReorgCheck ing fuel page latestLedger checkDivergence)
      (Audited.start n) := by
    unfold persistEventsWithReorgCheck
    split
    · rename_i hnil
      refine Sys.Safe.ret (audited_stable _) ?_
      intro re hre
      rw [hnil] at hre
      cases hre
    · refine Sys.Safe.andThen_ok (persistRows_records hdry page n) ?_
      intro events v hv
      rw [if_neg (by rw [hdry]; exact Bool.false_ne_true)]
      cases checkDivergence with
      | false =>
        have hstep : ∀ o u a u', TrackAct o → u.node.tables = v.node.tables →
            (auditedSys b ing).step o u a u' → True ∧ u'.node.tables = v.node.tables := by
          rintro o u a u' ⟨f, rfl, _⟩ hu h
          obtain ⟨c, hexec, _⟩ := audited_step h
          refine ⟨trivial, ?_⟩
          rcases Node.exec_tables ing hexec with heq | ⟨hw, _⟩
          · exact heq.trans hu
          · cases hw
        refine (Sys.Safe.of_yields (audited_stable _) hstep (fun _ _ _ _ => trivial)
          (recordFingerprints_remembers fuel events latestLedger) rfl).post ?_
        rintro r u ⟨_, hu⟩
        cases r with
        | error err => trivial
        | ok _ =>
          intro re hre
          rw [hu]
          exact (hv re hre).imp_right .inl
      | true =>
        have hstart : Accounts v.node.tables v := fun _ hid => .inl hid
        refine (repairs_account (repairs_recordIngestedLedgerFingerprints fuel events
          latestLedger true) hstart).post ?_
        intro r u hu
        cases r with
        | error err => trivial
        | ok _ =>
          intro re hre
          refine (hv re hre).imp_right fun hrecorded => ?_
          exact (hu re.id hrecorded).imp_right fun hdropped => ⟨rfl, hdropped⟩
  intro re hre hskip
  have hpost : ∀ re ∈ page, isSkipped ing re.contractID = true ∨ _ := Machine.run_post hsafe hrun
  rcases hpost re hre with hskipped | hresult
  · rw [hskip] at hskipped
    cases hskipped
  · exact hresult

/-! A ledger that was ingested with one event is served again with another. -/

def watchfulIngester : Ingester :=
  new Codec.verbatim true { Options.zero with reorgConfirmationWindow := 10 }

def firstNode : Node .postgres where
  tables := Tables.empty .postgres
  mem := Memory.fresh watchfulIngester

def firstPage : P (Except Err Unit) :=
  persistEventsWithReorgCheck watchfulIngester 1 [.sample "5-1" "C1" 5] 7 false

def secondPage : P (Except Err Unit) :=
  persistEventsWithReorgCheck watchfulIngester 1 [.sample "5-2" "C1" 5] 7 true

/-- The answers of the second call, with what the RPC returns for the range. -/
def secondAnswers (refetched : List Rpc.Event) : List Choice :=
  [.ok, .ok, .ok, .ok, .number 0, .ok, .ok, .ok, .page ⟨refetched, 7, 2, ""⟩, .ok, .ok]

theorem persisted_page_recorded_first :
    ∃ w, (auditedNode .postgres watchfulIngester).run firstPage (Audited.start firstNode)
        [.ok, .ok] = some (.ok (), w) ∧
      ∀ re ∈ [Rpc.Event.sample "5-1" "C1" 5],
        isSkipped watchfulIngester re.contractID = false →
        Recorded w.node.tables re.id ∨ (false = true ∧ ∃ c ∈ w.reconciled, c.Drops re.id) :=
  ⟨_, rfl, persisted_page_recorded watchfulIngester rfl 1 _ 7 false firstNode _ [.ok, .ok] rfl⟩

/-- The range is fetched once more and holds no event any longer: the call returns without an error
and the event of its page is in neither table. -/
theorem repaired_page_unrecorded :
    ∃ v w, (auditedNode .postgres watchfulIngester).run firstPage (Audited.start firstNode)
        [.ok, .ok] = some (.ok (), v) ∧
      (auditedNode .postgres watchfulIngester).run secondPage v (secondAnswers []) =
        some (.ok (), w) ∧
      isSkipped watchfulIngester "C1" = false ∧ ¬Recorded w.node.tables "5-2" := by
  refine ⟨_, _, rfl, rfl, rfl, ?_⟩
  rintro (⟨r, hr, _⟩ | ⟨d, hd, _⟩)
  · cases hr
  · cases hd

end SoroTrail.Ingest
