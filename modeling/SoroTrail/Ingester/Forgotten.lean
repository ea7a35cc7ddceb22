import SoroTrail.Ingester.Tracking

/-!
# A divergence that is not repaired

The fingerprint of a page takes the place of the recorded one before anything is
repaired.  A ledger that differed is remembered only if the repair of the same
call comes to a good end: nothing is left in the tracker to report it again.
-/

set_option autoImplicit false

namespace SoroTrail.Ingest

open Lib Rpc Store List Option Bool Sys.Safe

variable {b : Backend} {ing : Ingester}

/-! ## Answers that spoil a repair -/

def undecodable (ing : Ingester) (re : Rpc.Event) : Bool :=
  !isSkipped ing re.contractID && !(toStoreEvent ing re).isOk

/-- The ledger a repair reads from the stored state, `0` when it cannot be read. -/
def readLedger : Except Err IngestionState → Nat
  | .ok st => if 0 < st.lastIngestedLedger then u32OfInt st.lastIngestedLedger else 0
  | .error _ => 0

def storedLedger (ing : Ingester) (n : Node b) : Choice → Nat
  | .ok =>
    match n.tables.getIngestionState ing.opts.network with
    | some st => readLedger (.ok st)
    | none => 0
  | _ => 0

/-- The answer keeps a repair of `[from', to']` from coming to a good end: something fails, the
archive reaches into the range, the range is deeper than the window, or an event does not
decode. -/
def unfavourable (ing : Ingester) (from' to' : Nat) : Act → Node b → Choice → Bool
  | .resolveArchivedBoundary, _, .number bound => decide (0 < bound ∧ from' ≤ bound)
  | .resolveArchivedBoundary, _, _ => true
  | .getIngestionState, n, c =>
    (n.mem.tracker.evaluateDepth from' to' (max (storedLedger ing n c) to')).2
  | .listWatchedContracts _, _, .fail _ => true
  | .getEvents _ _, _, .page resp =>
    resp.events.any fun e => decide (e.ledger ≤ to') && undecodable ing e
  | .getEvents _ _, _, _ => true
  | .reconcileReorgRange _, _, .fail _ => true
  | _, _, _ => false

/-- The node, the warnings it has issued, and whether an answer was unfavourable. -/
structure Observed (b : Backend) where
  node : Node b
  warned : List Warning
  spoiled : Bool

def Act.warning : Act → List Warning
  | .warn w => [w]
  | _ => []

/-- The machine of a node, observed during a call whose repair would be of `[from', to']`. -/
def observed (b : Backend) (ing : Ingester) (from' to' : Nat) :
    Machine Act Ans (Observed b) Choice Unit where
  exec o w c := (Node.exec ing o w.node c).map fun r =>
    (r.1, { node := r.2, warned := w.warned ++ o.warning,
            spoiled := w.spoiled || unfavourable ing from' to' o w.node c })
  drift _ _ := none

section Repair

variable {from' to' : Nat}

abbrev observedSys (b : Backend) (ing : Ingester) (from' to' : Nat) :
    Sys Act Ans (Observed b) :=
  (observed b ing from' to').sys Machine.anything

theorem observed_stable (I : Observed b → Prop) : (observedSys b ing from' to').Stable I := by
  rintro w w' ⟨_, _, hdrift⟩
  cases hdrift

variable {w : Observed b}

theorem observed_step {o : Act} {w' : Observed b} {a : Ans o}
    (h : (observedSys b ing from' to').step o w a w') :
    ∃ c, Node.exec ing o w.node c = some (a, w'.node) ∧ w'.warned = w.warned ++ o.warning ∧
      w'.spoiled = (w.spoiled || unfavourable ing from' to' o w.node c) := by
  obtain ⟨c, _, hexec⟩ := h
  simp only [observed, map_eq_some_iff, Prod.mk.injEq] at hexec
  obtain ⟨⟨a', n'⟩, hnode, rfl, rfl⟩ := hexec
  exact ⟨c, hnode, rfl, rfl⟩

theorem observed_recalls : Recalls (observedSys b ing from' to') fun w => w.node.mem where
  drift w w' h := observed_stable (fun v => v.node.mem = w.node.mem) w w' h rfl
  memory f w a w' h := by
    obtain ⟨c, hnode, _, _⟩ := observed_step h
    obtain ⟨ha, hw'⟩ := Node.exec_memory ing hnode
    exact ⟨ha, congrArg Node.mem hw'⟩

/-- Every run of `p` from `w` ends as `Q` says. -/
abbrev Leads (ing : Ingester) (from' to' : Nat) {α : Type} (Q : α → Observed b → Prop) (p : P α)
    (w : Observed b) : Prop :=
  (observedSys b ing from' to').Safe (fun _ _ => True) Q p w

/-- An error comes from an unfavourable answer, or the model's bound was reached. -/
def Settled {α : Type} (Q : α → Observed b → Prop) : Except Err α → Observed b → Prop
  | .ok a, w => Q a w
  | .error err, w => w.spoiled = true ∨ err = .stillRunning

theorem settled_andThen {α β : Type} {Q : α → Observed b → Prop}
    {Q' : β → Observed b → Prop} {p : M α} {f : α → M β}
    (hp : Leads ing from' to' (Settled Q) p w)
    (hf : ∀ a v, Q a v → Leads ing from' to' (Settled Q') (f a) v) :
    Leads ing from' to' (Settled Q') (p >>= f : M β) w := by
  refine andThen (hp.post ?_)
  intro r v hr
  cases r with
  | error err => exact ret (observed_stable _) hr
  | ok a => exact hf a v hr

variable {α : Type}

theorem settled_ret {Q : α → Observed b → Prop} {r : Except Err α} (h : Settled Q r w) :
    Leads ing from' to' (Settled Q) (.ret r : P (Except Err α)) w :=
  ret (observed_stable _) h

theorem observed_act {o : Act} {k : Ans o → P α} {Q : α → Observed b → Prop}
    (hk : ∀ a n c, Node.exec ing o w.node c = some (a, n) →
      Leads ing from' to' Q (k a)
        ⟨n, w.warned ++ o.warning, w.spoiled || unfavourable ing from' to' o w.node c⟩) :
    Leads ing from' to' Q (.act o k) w := by
  refine act (observed_stable (· = w)) rfl (fun _ _ => trivial) ?_
  intro v a u hv hu
  subst hv
  obtain ⟨c, hnode, hwarned, hspoiled⟩ := observed_step hu
  have hnext := hk a u.node c hnode
  rw [← hwarned, ← hspoiled] at hnext
  exact hnext

/-! ## Collecting -/

theorem collectedRows_isOk (es : List Rpc.Event) :
    (collectedRows ing es).isOk = !(es.any (undecodable ing)) := by
  induction es with
  | nil => rfl
  | cons re rest ih =>
    unfold collectedRows
    cases hskip : isSkipped ing re.contractID with
    | true => simp [ih, undecodable, hskip]
    | false =>
      cases hrow : toStoreEvent ing re with
      | error err => simp [undecodable, hskip, hrow, Except.isOk, Except.toBool]
      | ok ev =>
        have hhead : undecodable ing re = false := by
          simp [undecodable, hskip, hrow, Except.isOk, Except.toBool]
        rw [List.any_cons, hhead, Bool.false_or, ← ih]
        cases collectedRows ing rest <;> rfl

theorem collectPages_settled (batch : List Rpc.EventFilter) (n : Nat) (cursor : String)
    (collected : List Rpc.Event) (w : Observed b)
    (hspoiled : w.spoiled = collected.any (undecodable ing)) :
    Leads ing from' to' (Settled fun r v => ∃ es, r = some es ∧ v.spoiled = es.any (undecodable ing))
      (collectPages ing from' to' batch false n cursor collected) w := by
  induction n generalizing cursor collected w with
  | zero => exact settled_ret (.inr rfl)
  | succ n ih =>
    unfold collectPages
    rw [Fallible.attempt_bind]
    refine observed_act ?_
    intro r node c hnode
    cases c with
    | page resp =>
      cases hnode
      have hcollected : (w.spoiled || resp.events.any fun e =>
            decide (e.ledger ≤ to') && undecodable ing e) =
          (collected ++ resp.events.filter fun e => decide (e.ledger ≤ to')).any
            (undecodable ing) := by
        rw [hspoiled, List.any_append, List.any_filter]
      dsimp only [Prog.bind]
      split
      · exact settled_ret ⟨_, rfl, hcollected⟩
      · generalize (if resp.cursor ≠ "" then resp.cursor else _) = next
        split
        · exact settled_ret ⟨_, rfl, hcollected⟩
        · exact ih next _ _ hcollected
    | fail err =>
      cases hnode
      dsimp only [Prog.bind]
      split <;> exact settled_ret (.inl (or_true _))
    | _ => cases hnode

theorem collectBatches_settled (fuel : Nat) (batches : List (List Rpc.EventFilter)) (w : Observed b)
    (hw : w.spoiled = false) :
    Leads ing from' to' (Settled fun r v => (∃ rows, r = some rows) ∧ v.spoiled = false)
      (collectBatches ing fuel from' to' false batches) w := by
  induction batches generalizing w with
  | nil => exact settled_ret ⟨⟨_, rfl⟩, hw⟩
  | cons batch rest ih =>
    have hbatch : Leads ing from' to'
        (Settled fun r v => (∃ rows, r = some rows) ∧ v.spoiled = false)
        (collectBatchEventsInRange ing fuel from' to' batch false) w := by
      refine settled_andThen (collectPages_settled batch fuel "" [] w hw) ?_
      rintro r v ⟨es, rfl, hspoiled⟩
      have hok : (collectedRows ing es).isOk = !v.spoiled := by
        rw [hspoiled, collectedRows_isOk]
      dsimp only
      cases hrows : collectedRows ing es with
      | error err =>
        rw [hrows] at hok
        refine settled_ret (.inl ?_)
        simpa [Except.toBool] using hok
      | ok rows =>
        rw [hrows] at hok
        refine settled_ret ⟨⟨rows, rfl⟩, ?_⟩
        simpa [Except.toBool] using hok
    refine settled_andThen hbatch ?_
    rintro r v ⟨⟨rows, rfl⟩, hv⟩
    refine settled_andThen (ih v hv) ?_
    rintro r u ⟨⟨more, rfl⟩, hu⟩
    exact settled_ret ⟨⟨_, rfl⟩, hu⟩

/-! ## The repair -/

theorem buildFilterBatches_settled (w : Observed b) (hw : w.spoiled = false) :
    Leads ing from' to' (Settled fun _ v => v.spoiled = false) (buildFilterBatches ing) w := by
  refine observed_act ?_
  intro r node c hnode
  cases c with
  | ok =>
    cases hnode
    exact settled_ret (congrArg (· || false) hw)
  | fail err =>
    cases hnode
    exact settled_ret (.inl (or_true _))
  | _ => cases hnode

theorem memory_settled {Q : α → Prop} {p : P α}
    (hp : p.Yields TrackAct (fun _ _ => True) Q) (w : Observed b) (hw : w.spoiled = false) :
    Leads ing from' to' (fun a v => Q a ∧ v.spoiled = false) p w := by
  have hstep : ∀ o v a v', TrackAct o → v.spoiled = false →
      (observedSys b ing from' to').step o v a v' → True ∧ v'.spoiled = false := by
    rintro o v a v' ⟨f, rfl, _⟩ hv hstep
    obtain ⟨c, _, _, hspoiled⟩ := observed_step hstep
    exact ⟨trivial, by rw [hspoiled, hv]; rfl⟩
  exact of_yields (observed_stable _) hstep (fun _ _ _ _ => trivial) hp hw

theorem reconcile_settled {context : String} (o : ReorgReconcileOptions)
    (hvalid : 0 < o.fromLedger ∧ o.fromLedger ≤ o.toLedger) (w : Observed b) (hw : w.spoiled = false) :
    Leads ing from' to'
      (Settled fun _ v => v.spoiled = false) (wrapErr context (reconcileReorgRange o)) w := by
  refine observed_act ?_
  intro r node c hnode
  cases c with
  | ok =>
    have hresult : w.node.tables.reconcileReorgRange o = .ok (w.node.tables.reconcileReorgTx o) :=
      if_neg (by omega)
    simp only [Node.exec, hresult] at hnode
    cases hnode
    exact settled_ret (congrArg (· || false) hw)
  | fail err =>
    cases hnode
    exact settled_ret (.inl (or_true _))
  | _ => cases hnode

theorem executeReorgPass_settled (fuel newHead : Nat) (hdry : ing.opts.dryRun = false)
    (hvalid : 0 < from' ∧ from' ≤ to') (w : Observed b) (hw : w.spoiled = false) :
    Leads ing from' to' (Settled fun _ v => v.spoiled = false)
      (executeReorgPass ing fuel from' to' newHead) w := by
  refine settled_andThen (buildFilterBatches_settled w hw) ?_
  intro filters v hv
  refine settled_andThen (collectBatches_settled fuel filters v hv) ?_
  rintro r u ⟨⟨rows, rfl⟩, hu⟩
  dsimp only
  rw [if_neg (by simp [hdry])]
  have hrange : 0 < (from' : Int) ∧ (from' : Int) ≤ to' := by omega
  refine settled_andThen (reconcile_settled _ hrange u hu) ?_
  intro _ x hx
  refine (memory_settled (trackReconciled_ok _ from' to' newHead) x hx).post ?_
  rintro r y ⟨rfl, hy⟩
  exact hy

theorem getIngestionState_settled (w : Observed b) (hw : w.spoiled = false) :
    Leads ing from' to' (fun r v => v.node = w.node ∧
        v.spoiled = (w.node.mem.tracker.evaluateDepth from' to' (max (readLedger r) to')).2)
      getIngestionState w := by
  refine observed_act ?_
  intro r node c hnode
  have hread : readLedger r = storedLedger ing w.node c ∧ node = w.node := by
    cases c with
    | ok =>
      simp only [Node.exec] at hnode
      simp only [storedLedger]
      cases hstate : w.node.tables.getIngestionState ing.opts.network with
      | none =>
        rw [hstate] at hnode
        cases hnode
        exact ⟨rfl, rfl⟩
      | some st =>
        rw [hstate] at hnode
        cases hnode
        exact ⟨rfl, rfl⟩
    | fail err =>
      cases hnode
      exact ⟨rfl, rfl⟩
    | _ => cases hnode
  refine ret (observed_stable _) ⟨hread.2, ?_⟩
  rw [hw, hread.1]
  rfl

theorem readMemory_settled (w : Observed b) :
    Leads ing from' to'
      (fun m v => m = w.node.mem ∧ v.node = w.node ∧ v.spoiled = w.spoiled) readMemory w := by
  refine observed_act ?_
  intro m node c hnode
  obtain ⟨hm, hnode⟩ := Node.exec_memory ing hnode
  exact ret (observed_stable _) ⟨hm, hnode, or_false _⟩

/-- A repair fails exactly when an answer is unfavourable. -/
theorem handleReorgRange_settled (fuel newHead : Nat) (hdry : ing.opts.dryRun = false)
    (hvalid : 0 < from' ∧ from' ≤ to') (w : Observed b) (hw : w.spoiled = false) :
    Leads ing from' to' (Settled fun _ v => v.spoiled = false)
      (handleReorgRange ing fuel from' to' newHead) w := by
  have harchived : Leads ing from' to'
      (Settled fun bound v => v.spoiled = decide (0 < bound ∧ from' ≤ bound))
      resolveArchivedBoundary w := by
    refine observed_act ?_
    intro r node c hnode
    cases c with
    | number bound =>
      cases hnode
      exact settled_ret (congrArg (· || decide (0 < bound ∧ from' ≤ bound)) hw)
    | fail err =>
      cases hnode
      exact settled_ret (.inl (or_true _))
    | _ => cases hnode
  unfold handleReorgRange
  rw [if_neg (by omega)]
  refine settled_andThen harchived ?_
  intro bound v hspoiled
  split
  · rename_i hreached
    exact settled_ret (.inl (hspoiled.trans (decide_eq_true hreached)))
  · rename_i hclear
    have hspoiled : v.spoiled = false := hspoiled.trans (decide_eq_false hclear)
    refine attempt_bind ((getIngestionState_settled v hspoiled).post ?_)
    rintro r u ⟨hnode, hdepth⟩
    refine lift_bind ((readMemory_settled u).post ?_)
    rintro memory x ⟨rfl, hxnode, hxspoiled⟩
    rw [← hnode, ← hxspoiled] at hdepth
    dsimp only
    generalize hfrontier : max _ to' = frontier
    rw [show max (readLedger r) to' = frontier from hfrontier] at hdepth
    split
    · rename_i hexceeded
      exact settled_ret (.inl (hdepth.trans hexceeded))
    · rename_i hwithin
      exact executeReorgPass_settled fuel newHead hdry hvalid x
        (hdepth.trans (not_eq_true _ |>.mp hwithin))

theorem warn_settled (x : Warning) (w : Observed b) :
    Leads ing from' to'
      (fun _ v => v.spoiled = w.spoiled ∧ x ∈ v.warned) (warn x) w := by
  refine observed_act ?_
  intro _ node c hnode
  cases c with
  | ok =>
    cases hnode
    refine ret (observed_stable _) ⟨or_false _, ?_⟩
    exact mem_append_right _ (.head _)
  | _ => cases hnode

theorem warned_kept {x : Warning} (p : P α) (hw : x ∈ w.warned) :
    Leads ing from' to' (fun _ v => x ∈ v.warned) p w := by
  refine post (of_yields (R := fun _ _ => True)
    (observed_stable _) ?_ (fun _ _ _ _ => trivial)
    (Prog.uses_any p) hw) fun _ _ h => h.2
  intro o v a v' _ hv hstep
  obtain ⟨c, _, hwarned, _⟩ := observed_step hstep
  rw [hwarned]
  exact ⟨trivial, mem_append_left _ hv⟩

end Repair

/-! ## One call -/

def divergedFrom (ing : Ingester) (events : List Store.Event) (t : ReorgTracker) : Nat :=
  ((seenLedgers events).find? (diverges ing events t)).getD 0

def reachedLedger (events : List Store.Event) (t : ReorgTracker) : Nat :=
  (seenLedgers events).foldl max t.highestLedger

section Call

variable {events : List Store.Event}

/-- What the tracker holds after the rows, and the range that is reported. -/
theorem trackAll_outcome (hdigest : ∀ text, ing.codec.sha256Hex text ≠ "")
    (events : List Store.Event) {t : ReorgTracker} (ht : t.Tidy) :
    (trackAll ing events (seenLedgers events) (t, 0, 0)).2.1 = divergedFrom ing events t ∧
      max (trackAll ing events (seenLedgers events) (t, 0, 0)).2.2
        (trackAll ing events (seenLedgers events) (t, 0, 0)).1.highestLedger =
        reachedLedger events t := by
  have hfp : ∀ l, pageFingerprint ing events l ≠ "" := fun l => hdigest _
  obtain ⟨hhighest, hto⟩ := trackAll_highest hfp (seenLedgers events) (t, 0, 0) (Nat.zero_le _)
  constructor
  · exact trackAll_from ht hfp (seenLedgers events) seenLedgers_sorted (t, 0, 0)
      (fun _ _ => rfl) (fun _ _ h => h) (fun _ _ => Nat.zero_le _)
  · rw [max_eq_right hto]
    exact hhighest

theorem trackLedgers_observed {from' to' : Nat} (n : Node b) :
    Leads ing from' to' (fun r v => (v.node.mem.tracker, r) =
          trackAll ing events (seenLedgers events) (n.mem.tracker, 0, 0) ∧ v.spoiled = false)
      (trackLedgers ing events (seenLedgers events) (0, 0)) ⟨n, [], false⟩ := by
  have hkept : ∀ f w a w', (observedSys b ing from' to').step (.memory f) w a w' →
      w.spoiled = false → w'.spoiled = false := by
    intro f w a w' hstep hw
    obtain ⟨c, _, _, hspoiled⟩ := observed_step hstep
    rw [hspoiled, hw]
    rfl
  exact trackLedgers_safe observed_recalls (observed_stable _) hkept (fun _ _ _ => trivial) _ _
    ⟨n, [], false⟩ rfl

def checked (ing : Ingester) (check : Bool) : Prop :=
  check = true ∧ 0 < ing.opts.reorgConfirmationWindow ∧ ing.opts.dryRun = false

/-- A checked call that sees a ledger differ warns of a range that holds it, and fails only by an
unfavourable answer. -/
theorem recordIngestedLedgerFingerprints_repairs
    (hdigest : ∀ text, ing.codec.sha256Hex text ≠ "") (fuel latest : Nat) {check : Bool}
    (hon : checked ing check) (n : Node b) (htidy : n.mem.tracker.Tidy) {l : Nat}
    (hseen : l ∈ seenLedgers events) (hdiverges : diverges ing events n.mem.tracker l = true) :
    Leads ing (divergedFrom ing events n.mem.tracker) (reachedLedger events n.mem.tracker)
      (fun r w => (∃ from' to' latest, Warning.fingerprintDivergence from' to' latest ∈ w.warned ∧
        from' ≤ l ∧ l ≤ to') ∧ Settled (fun _ v => v.spoiled = false) r w)
      (recordIngestedLedgerFingerprints ing fuel events latest check) ⟨n, [], false⟩ := by
  obtain ⟨hfrom, hto⟩ := trackAll_outcome hdigest events htidy
  obtain ⟨hne, prev, hprev, hdiffers⟩ := diverges_iff.mp hdiverges
  have hcovers := trackAll_diverged (seenLedgers events) seenLedgers_sorted
    (n.mem.tracker, 0, 0) hseen (Nat.pos_of_ne_zero hne) (hdigest _) hprev hdiffers
    (htidy l prev hprev)
  have hholds : divergedFrom ing events n.mem.tracker ≤ l ∧
      l ≤ reachedLedger events n.mem.tracker := by
    omega
  have hvalid : 0 < divergedFrom ing events n.mem.tracker ∧
      divergedFrom ing events n.mem.tracker ≤ reachedLedger events n.mem.tracker := by
    omega
  have hevents : events ≠ [] := by
    rintro rfl
    obtain ⟨ev, hev, _⟩ := mem_seenLedgers.mp hseen
    cases hev
  unfold recordIngestedLedgerFingerprints
  rw [if_neg hevents]
  refine lift_bind ((trackLedgers_observed n).post ?_)
  rintro range v ⟨htracked, hspoiled⟩
  have htracker : v.node.mem.tracker =
      (trackAll ing events (seenLedgers events) (n.mem.tracker, 0, 0)).1 :=
    congrArg Prod.fst htracked
  obtain rfl : range = (trackAll ing events (seenLedgers events) (n.mem.tracker, 0, 0)).2 :=
    congrArg Prod.snd htracked
  dsimp only
  rw [hfrom, if_pos ⟨hon.1, hvalid.1, hon.2⟩]
  refine lift_bind ((readMemory_settled v).post ?_)
  rintro m u ⟨rfl, _, huspoiled⟩
  rw [htracker, hto]
  refine lift_bind ((warn_settled _ u).post ?_)
  rintro _ x ⟨hxspoiled, hxwarned⟩
  have hclean : x.spoiled = false := by rw [hxspoiled, huspoiled, hspoiled]
  refine ((handleReorgRange_settled fuel latest hon.2.2 hvalid x hclean).and
    (warned_kept _ hxwarned)).mono (fun _ _ _ => trivial) ?_
  rintro r y ⟨hsettled, hywarned⟩
  exact ⟨⟨_, _, _, hywarned, hholds⟩, hsettled⟩

theorem recordIngestedLedgerFingerprints_tidy {from' to' : Nat} (fuel latest : Nat) (check : Bool)
    {w : Observed b} (hw : w.node.mem.tracker.Tidy) :
    Leads ing from' to' (fun _ v => v.node.mem.tracker.Tidy)
      (recordIngestedLedgerFingerprints ing fuel events latest check) w := by
  refine post (of_yields
    (observed_stable _) ?_ (fun _ _ _ _ => trivial)
    (repairs_recordIngestedLedgerFingerprints fuel events latest check) hw) fun _ _ h => h.2
  intro o v a v' ho hv hstep
  refine ⟨trivial, ?_⟩
  obtain ⟨c, hnode, _, _⟩ := observed_step hstep
  rcases Node.exec_effect ing hnode with heq | ⟨_, _, heq⟩ | ⟨f, rfl, heq⟩ <;> rw [heq]
  · exact hv
  · exact hv
  · rcases ho v.node.mem with hsame | ⟨l, hash, hrecord⟩ | ⟨l, hreset⟩
    · rwa [hsame]
    · rw [hrecord]
      exact hv.recordLedgerHash
    · rw [hreset]
      exact hv.resetAbove l

end Call

/-! ## Sequences of cycles -/

/-- One cycle that records a page: what others have left in the store, whether the process was
restarted before it, the rows of the page, and the answers to its requests. -/
structure PageCycle (b : Backend) where
  tables : Tables b
  restarted : Bool
  events : List Store.Event
  latest : Nat
  check : Bool
  answers : List Choice

def PageCycle.start (ing : Ingester) (c : PageCycle b) (n : Node b) : Node b where
  tables := c.tables
  mem := if c.restarted then Memory.fresh ing else n.mem

structure PageRecord (b : Backend) where
  cycle : PageCycle b
  start : Node b
  result : Except Err Unit
  final : Observed b

def PageCycle.run (ing : Ingester) (fuel : Nat) (c : PageCycle b) (n : Node b) :
    Option (PageRecord b) :=
  let start := c.start ing n
  ((observed b ing (divergedFrom ing c.events start.mem.tracker)
    (reachedLedger c.events start.mem.tracker)).run
      (recordIngestedLedgerFingerprints ing fuel c.events c.latest c.check) ⟨start, [], false⟩
      c.answers).map fun r => ⟨c, start, r.1, r.2⟩

def runCycles (ing : Ingester) (fuel : Nat) :
    Node b → List (PageCycle b) → Option (List (PageRecord b) × Node b)
  | n, [] => some ([], n)
  | n, c :: cs =>
    match c.run ing fuel n with
    | none => none
    | some done =>
      (runCycles ing fuel done.final.node cs).map fun rest => (done :: rest.1, rest.2)

namespace PageRecord

/-- The cycle saw a ledger whose fingerprint differs from the one recorded. -/
def Saw (ing : Ingester) (done : PageRecord b) (l : Nat) : Prop :=
  l ∈ seenLedgers done.cycle.events ∧
    diverges ing done.cycle.events done.start.mem.tracker l = true

/-- A repair whose range holds the ledger came to a good end in the cycle. -/
def Repaired (done : PageRecord b) (l : Nat) : Prop :=
  (∃ from' to' latest, Warning.fingerprintDivergence from' to' latest ∈ done.final.warned ∧
    from' ≤ l ∧ l ≤ to') ∧ done.result = .ok ()

/-- If the page has a ledger that differs, the check is on and no answer is unfavourable. -/
def Favourable (ing : Ingester) (done : PageRecord b) : Prop :=
  (∃ l, done.Saw ing l) → checked ing done.cycle.check ∧ done.final.spoiled = false

end PageRecord

/-- Every ledger that differed in some cycle has been repaired in it or later, or the tracker
holds a hash of it that differs from the one served. -/
def NotForgotten (ing : Ingester) (records : List (PageRecord b)) (final : Node b) : Prop :=
  ∀ before done after, records = before ++ done :: after → ∀ l, done.Saw ing l →
    (∃ later ∈ done :: after, later.Repaired l) ∨
      ∃ h, final.mem.tracker.hashes l = some h ∧ h ≠ pageFingerprint ing done.cycle.events l

section Runs

variable {fuel : Nat}

theorem PageCycle.run_repaired (hdigest : ∀ text, ing.codec.sha256Hex text ≠ "") {c : PageCycle b}
    {n : Node b} (htidy : n.mem.tracker.Tidy) {done : PageRecord b}
    (hrun : c.run ing fuel n = some done) (hended : done.result ≠ .error .stillRunning)
    (hgood : done.Favourable ing) :
    done.final.node.mem.tracker.Tidy ∧ ∀ l, done.Saw ing l → done.Repaired l := by
  have hstart : (c.start ing n).mem.tracker.Tidy := by
    unfold PageCycle.start
    split
    · exact ReorgTracker.tidy_fresh ing
    · exact htidy
  simp only [PageCycle.run, map_eq_some_iff] at hrun
  obtain ⟨⟨r, w⟩, hcall, rfl⟩ := hrun
  refine ⟨Machine.run_post (recordIngestedLedgerFingerprints_tidy fuel c.latest c.check hstart)
    hcall, ?_⟩
  intro l hl
  obtain ⟨hchecked, hclear⟩ := hgood ⟨l, hl⟩
  obtain ⟨hwarned, hsettled⟩ := Machine.run_post (recordIngestedLedgerFingerprints_repairs hdigest
    fuel c.latest hchecked _ hstart hl.1 hl.2) hcall
  refine ⟨hwarned, ?_⟩
  cases r with
  | ok _ => rfl
  | error err =>
    rcases hsettled with hbad | rfl
    · cases hclear.symm.trans hbad
    · exact absurd rfl hended

theorem runCycles_repaired (hdigest : ∀ text, ing.codec.sha256Hex text ≠ "")
    (cs : List (PageCycle b)) {n final : Node b} {records : List (PageRecord b)}
    (htidy : n.mem.tracker.Tidy) (hrun : runCycles ing fuel n cs = some (records, final))
    (hended : ∀ done ∈ records, done.result ≠ .error .stillRunning)
    (hgood : ∀ done ∈ records, done.Favourable ing) :
    ∀ done ∈ records, ∀ l, done.Saw ing l → done.Repaired l := by
  induction cs generalizing n records with
  | nil =>
    cases hrun
    intro done hdone
    cases hdone
  | cons c cs ih =>
    simp only [runCycles] at hrun
    cases hfirst : c.run ing fuel n with
    | none =>
      rw [hfirst] at hrun
      cases hrun
    | some first =>
      simp only [hfirst, map_eq_some_iff] at hrun
      obtain ⟨⟨rest, last⟩, hrest, heq⟩ := hrun
      cases heq
      obtain ⟨hnext, hrepaired⟩ := PageCycle.run_repaired hdigest htidy hfirst
        (hended first (.head _)) (hgood first (.head _))
      intro done hdone
      rcases mem_cons.mp hdone with rfl | hdone
      · exact hrepaired
      · exact ih hnext hrest (fun x hx => hended x (.tail _ hx))
          (fun x hx => hgood x (.tail _ hx)) done hdone

end Runs

/-- In every sequence of cycles whose diverged pages are checked and whose repairs get no
unfavourable answer, no divergence is forgotten. -/
theorem divergence_not_forgotten (ing : Ingester) (hdigest : ∀ text, ing.codec.sha256Hex text ≠ "")
    (fuel : Nat) (n : Node b) (hfresh : n.mem = Memory.fresh ing) (cs : List (PageCycle b))
    (records : List (PageRecord b)) (final : Node b)
    (hrun : runCycles ing fuel n cs = some (records, final))
    (hended : ∀ done ∈ records, done.result ≠ .error .stillRunning)
    (hgood : ∀ done ∈ records, done.Favourable ing) : NotForgotten ing records final := by
  have htidy : n.mem.tracker.Tidy := by
    rw [hfresh]
    exact ReorgTracker.tidy_fresh ing
  intro before done after hsplit l hl
  have hdone : done ∈ records := by
    rw [hsplit]
    exact mem_append_right _ (.head _)
  exact .inl ⟨done, .head _,
    runCycles_repaired hdigest cs htidy hrun hended hgood done hdone l hl⟩

def digestingIngester : Ingester :=
  new { Codec.verbatim with sha256Hex := fun text => "h" ++ text } true
    { Options.zero with reorgConfirmationWindow := 10 }

theorem digestingIngester_digest (text : String) :
    digestingIngester.codec.sha256Hex text ≠ "" := by
  intro h
  have hlength : ("h" ++ text).length = 0 := congrArg String.length h
  simp at hlength

def ledgerFiveRows (id : String) : List Store.Event :=
  (toStoreEvent digestingIngester (.sample id "C1" 5)).toOption.toList

def ledgerFiveCycle (id : String) (answers : List Choice) : PageCycle .postgres where
  tables := Tables.empty .postgres
  restarted := false
  events := ledgerFiveRows id
  latest := 7
  check := true
  answers := answers

def startedNode : Node .postgres where
  tables := Tables.empty .postgres
  mem := Memory.fresh digestingIngester

/-- Ledger 5 is served with one event and then with another; the repair reads this from the RPC
and goes on. -/
def rewrittenCycles (fetched : Choice) (rest : List Choice) : List (PageCycle .postgres) :=
  [ledgerFiveCycle "5-1" [.ok],
    ledgerFiveCycle "5-2" ([.ok, .ok, .ok, .number 0, .ok, .ok, .ok, fetched] ++ rest)]

def refetchedPage : Choice :=
  .page ⟨[.sample "5-2" "C1" 5], 7, 2, ""⟩

theorem divergence_not_forgotten_repaired :
    ∃ records final, runCycles digestingIngester 1 startedNode
        (rewrittenCycles refetchedPage [.ok, .ok]) = some (records, final) ∧
      NotForgotten digestingIngester records final := by
  refine ⟨_, _, rfl, divergence_not_forgotten digestingIngester digestingIngester_digest 1
    startedNode rfl (rewrittenCycles refetchedPage [.ok, .ok]) _ _ rfl ?_ ?_⟩
  · intro done hdone
    rcases mem_cons.mp hdone with rfl | hdone
    · simp
    · rw [mem_singleton.mp hdone]
      simp
  · intro done hdone
    rcases mem_cons.mp hdone with rfl | hdone
    · exact fun _ => ⟨⟨rfl, by decide, rfl⟩, rfl⟩
    · rw [mem_singleton.mp hdone]
      exact fun _ => ⟨⟨rfl, by decide, rfl⟩, rfl⟩

/-- The RPC fails during the repair: the cycle returns its error, the tracker holds the hash just
served, and nothing will report the ledger again. -/
theorem divergence_forgotten_after_rpc_failure :
    ∃ records final, runCycles digestingIngester 1 startedNode
        (rewrittenCycles (.fail (.network "connection reset")) []) = some (records, final) ∧
      ¬ NotForgotten digestingIngester records final := by
  refine ⟨_, _, rfl, ?_⟩
  intro h
  rcases h [_] _ [] rfl 5 ⟨by decide, by decide⟩ with ⟨later, hlater, _, hok⟩ | ⟨hash, hheld, hother⟩
  · rw [mem_singleton.mp hlater] at hok
    cases hok
  · cases hheld
    exact hother rfl

end SoroTrail.Ingest
