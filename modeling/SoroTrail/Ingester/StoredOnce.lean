import SoroTrail.Ingester.Collect
import SoroTrail.Ingester.DryRun
import SoroTrail.Ingester.PersistSpec

/-!
# One row for an event, under one network

Live pages, gap repair and reorg repair all write events of the chain, but each
fills in the network in its own way: live rows carry none, the others carry the
configured one, and the backends replace an empty network at different places.
On an unchanged chain an event keeps one row under the ingester's network as long
as every write ends up under that network.
-/

set_option autoImplicit false

namespace SoroTrail.Ingest

open Lib Rpc Store Prog List Sys.Safe Yields

variable {b : Backend}

/-! ## What the writers hand to the store -/

/-- A row made from an event of the chain, with this network filled in. -/
def OfChain (chain : Chain) (network : String) (ev : Store.Event) : Prop :=
  (∃ re ∈ chain.events, ev.id = re.id ∧ ev.ledger = re.ledger) ∧ ev.network = network

/-- Live writes carry no network, repairs carry the configured one. -/
def ChainWrite (ing : Ingester) (chain : Chain) : Act → Prop
  | .upsertEvents evs => ∀ ev ∈ evs, OfChain chain "" ev
  | .replaceEventsInRange evs _ _ => ∀ ev ∈ evs, OfChain chain ing.opts.network ev
  | .reconcileReorgRange o =>
    o.network = ing.opts.network ∧ ∀ ev ∈ o.canonicalEvents, OfChain chain ing.opts.network ev
  | _ => True

def FromChain (chain : Chain) : (o : Act) → Ans o → Prop
  | .getEvents _ _, (.ok resp : Except Err GetEventsResponse) =>
    ∀ e ∈ resp.events, e ∈ chain.events
  | _, _ => True

abbrev Faithful (ing : Ingester) (chain : Chain) {α : Type} (Q : α → Prop) (p : P α) : Prop :=
  p.Yields (ChainWrite ing chain) (FromChain chain) Q

section Writers

variable {ing : Ingester} {chain : Chain}

theorem faithful_wrapErr {α : Type} {Q : α → Prop} {context : String} {p : M α}
    (h : Faithful ing chain (OnOk Q) p) :
    Faithful ing chain (OnOk Q) (wrapErr context p) := by
  refine attempt_bind h ?_
  intro r hr
  cases r with
  | ok a => exact hr
  | error e => trivial

theorem faithful_buildFilterBatches :
    Faithful ing chain (OnOk fun _ => True) (buildFilterBatches ing) := by
  refine ⟨trivial, fun r _ => ?_⟩
  cases r <;> trivial

theorem faithful_lift {α : Type} {p : P α} (h : Faithful ing chain (fun _ => True) p) :
    Faithful ing chain (OnOk fun _ => True) (liftM p : M α) :=
  bind h fun _ _ => trivial

theorem faithful_updateMemory (f : Memory → Memory) :
    Faithful ing chain (fun _ => True) (updateMemory f) :=
  ⟨trivial, fun _ _ => trivial⟩

theorem faithful_reconcileReorgRange {o : ReorgReconcileOptions}
    (h : ChainWrite ing chain (.reconcileReorgRange o)) :
    Faithful ing chain (OnOk fun _ => True) (reconcileReorgRange o) :=
  ⟨h, fun a _ => by cases a <;> trivial⟩

theorem ofChain_of_toStoreEvent {re : Rpc.Event} {ev : Store.Event} (hre : re ∈ chain.events)
    (h : toStoreEvent ing re = .ok ev) : OfChain chain "" ev := by
  obtain ⟨hid, _, hledger, hnetwork, _⟩ := toStoreEvent_ok ing h
  exact ⟨⟨re, hre, hid, hledger⟩, hnetwork⟩

/-! ### Repairs -/

theorem faithful_trackLedger (l : Nat) (evs : List Store.Event) :
    Faithful ing chain (fun _ => True) (trackLedger ing l evs) :=
  ⟨trivial, fun _ _ => trivial⟩

theorem faithful_collectPages (from' to' : Nat) (batch : List Rpc.EventFilter) (allow : Bool) (n : Nat)
    (cursor : String) (collected : List Rpc.Event)
    (hcollected : ∀ e ∈ collected, e ∈ chain.events) :
    Faithful ing chain (OnOk fun r => ∀ e ∈ r.getD [], e ∈ chain.events)
      (collectPages ing from' to' batch allow n cursor collected) := by
  induction n generalizing cursor collected with
  | zero => trivial
  | succ n ih =>
    unfold collectPages
    rw [Fallible.attempt_bind]
    refine ⟨trivial, fun r hr => ?_⟩
    cases r with
    | error err =>
      dsimp only [Prog.bind]
      split
      · split
        · exact forall_mem_nil _
        · trivial
      · trivial
    | ok resp =>
      have hall : ∀ e ∈ collected ++ resp.events.filter (fun e => decide (e.ledger ≤ to')),
          e ∈ chain.events :=
        forall_mem_append.mpr ⟨hcollected, fun e he => hr e (mem_filter.mp he).1⟩
      dsimp only [Prog.bind]
      split
      · exact hall
      · generalize (if resp.cursor ≠ "" then resp.cursor else _) = next
        split
        · exact hall
        · exact ih next _ hall

theorem ofChain_of_collectedRow {re : Rpc.Event} {ev : Store.Event} (hre : re ∈ chain.events)
    (h : CollectedRow ing re ev) : OfChain chain ing.opts.network ev := by
  obtain ⟨hid, _, hledger, hnetwork, _⟩ := h.fields
  exact ⟨⟨re, hre, hid, hledger⟩, hnetwork⟩

theorem faithful_collectBatches (fuel from' to' : Nat) (allow : Bool)
    (batches : List (List Rpc.EventFilter)) :
    Faithful ing chain (OnOk fun r => ∀ ev ∈ r.getD [], OfChain chain ing.opts.network ev)
      (collectBatches ing fuel from' to' allow batches) := by
  induction batches with
  | nil => exact forall_mem_nil _
  | cons batch rest ih =>
    have hbatch : Faithful ing chain (OnOk fun r => ∀ ev ∈ r.getD [], OfChain chain ing.opts.network ev)
        (collectBatchEventsInRange ing fuel from' to' batch allow) := by
      refine andThen (faithful_collectPages from' to' batch allow fuel "" []
        (forall_mem_nil _)) ?_
      intro r hr
      cases r with
      | none => exact forall_mem_nil _
      | some es =>
        cases hrows : collectedRows ing es with
        | error err =>
          dsimp only
          rw [hrows]
          trivial
        | ok rows =>
          dsimp only
          rw [hrows]
          intro ev hev
          obtain ⟨re, hre, hrow⟩ := (mem_collectedRows hrows ev).mp hev
          exact ofChain_of_collectedRow (hr re hre) hrow
    refine andThen hbatch ?_
    intro r hr
    cases r with
    | none => exact forall_mem_nil _
    | some rows =>
      refine andThen ih ?_
      intro r hmore
      cases r with
      | none => exact forall_mem_nil _
      | some more => exact forall_mem_append.mpr ⟨hr, hmore⟩

theorem faithful_indexBestEffort (evs : List Store.Event) :
    Faithful ing chain (OnOk fun _ => True) (indexBestEffort ing evs) := by
  have hindex : Faithful ing chain (fun _ => True) (indexEventAddresses ing evs) := by
    unfold indexEventAddresses
    split
    · trivial
    · dsimp only
      split
      · trivial
      · exact ⟨trivial, fun _ _ => trivial⟩
  exact attempt_bind hindex fun _ _ => trivial

theorem faithful_reingestRange (fuel from' to' : Nat) :
    Faithful ing chain (OnOk fun _ => True) (reingestRange ing fuel from' to') := by
  unfold reingestRange
  split
  · trivial
  · have harchived : Faithful ing chain (OnOk fun _ => True) resolveArchivedBoundary :=
      ⟨trivial, fun a _ => by cases a <;> trivial⟩
    refine andThen harchived ?_
    intro archivedThrough _
    split
    · trivial
    · refine andThen faithful_buildFilterBatches ?_
      intro filters _
      refine andThen (faithful_collectBatches fuel from' to' true filters) ?_
      intro r hr
      cases r with
      | none => trivial
      | some collected =>
        dsimp only
        split
        · trivial
        · have hreplace : Faithful ing chain (OnOk fun _ => True)
              (replaceEventsInRange (removeDuplicateEvents collected) from' to') :=
            ⟨fun ev hev => hr ev (mem_dedupByID hev).1,
              fun a _ => by cases a <;> trivial⟩
          refine andThen (faithful_wrapErr hreplace) ?_
          intro _ _
          exact andThen (faithful_indexBestEffort _) fun _ _ => trivial

theorem faithful_trackRange (evs : List Store.Event) (first n : Nat) :
    Faithful ing chain (fun _ => True) (trackRange ing evs first n) := by
  induction n generalizing first with
  | zero => trivial
  | succ n ih => exact ⟨trivial, fun _ _ => ih (first + 1)⟩

theorem faithful_executeReorgPass (fuel from' to' newHead : Nat) :
    Faithful ing chain (OnOk fun _ => True)
      (executeReorgPass ing fuel from' to' newHead) := by
  refine andThen faithful_buildFilterBatches ?_
  intro filters _
  refine andThen (faithful_collectBatches fuel from' to' false filters) ?_
  intro r hr
  cases r with
  | none => trivial
  | some collected =>
    dsimp only
    split
    · trivial
    · have hall : ∀ ev ∈ (if 0 < newHead ∧ newHead < to' then
          (removeDuplicateEvents collected).filter fun ev => decide (u32OfInt ev.ledger ≤ newHead)
          else removeDuplicateEvents collected), OfChain chain ing.opts.network ev := by
        intro ev hev
        have hmem : ev ∈ removeDuplicateEvents collected := by
          split at hev
          · exact (mem_filter.mp hev).1
          · exact hev
        exact hr ev (mem_dedupByID hmem).1
      refine andThen (faithful_wrapErr (faithful_reconcileReorgRange ⟨rfl, hall⟩)) ?_
      intro _ _
      split
      · refine andThen (faithful_lift (faithful_updateMemory _)) ?_
        intro _ _
        exact faithful_lift (faithful_trackRange _ _ _)
      · exact faithful_lift (faithful_trackRange _ _ _)

/-! ### After a live page -/

theorem faithful_trackLedgers (evs : List Store.Event) (ls : List Nat) (range : Nat × Nat) :
    Faithful ing chain (fun _ => True) (trackLedgers ing evs ls range) := by
  induction ls generalizing range with
  | nil => trivial
  | cons l ls ih =>
    refine bind (faithful_trackLedger l evs) ?_
    intro mismatch _
    exact ih _

theorem faithful_recordIngestedLedgerFingerprints (fuel : Nat) (evs : List Store.Event)
    (latest : Nat) :
    Faithful ing chain (OnOk fun _ => True)
      (recordIngestedLedgerFingerprints ing fuel evs latest false) := by
  unfold recordIngestedLedgerFingerprints
  split
  · trivial
  · refine andThen (faithful_lift (faithful_trackLedgers evs _ _)) ?_
    intro range _
    trivial

end Writers

/-! ## The store -/

/-- Every row with an id of the chain is in its event's ledger and under the ingester's
network. -/
def Placed (ing : Ingester) (chain : Chain) (t : Tables b) : Prop :=
  ∀ r ∈ t.events.rows, ∀ re ∈ chain.events, r.id = re.id →
    r.ledger = re.ledger ∧ r.network = defaultNetwork ing.opts.network

/-- For each event of the chain at most one row, under the ingester's network. -/
def StoredOnce (ing : Ingester) (chain : Chain) (t : Tables b) : Prop :=
  ∀ re ∈ chain.events,
    (∀ r ∈ t.events.rows, r.id = re.id → r.network = defaultNetwork ing.opts.network) ∧
    ∀ r ∈ t.events.rows, ∀ s ∈ t.events.rows, r.id = re.id → s.id = re.id → r = s

variable {chain : Chain} {ing : Ingester}

theorem Placed.storedOnce {t : Tables b} (h : Placed ing chain t) : StoredOnce ing chain t := by
  intro re hre
  refine ⟨fun r hr hid => (h r hr re hre hid).2, ?_⟩
  intro r hr s hs hrid hsid
  obtain ⟨hrledger, hrnetwork⟩ := h r hr re hre hrid
  obtain ⟨hsledger, hsnetwork⟩ := h s hs re hre hsid
  refine Table.eq_of_key hr hs ?_
  cases b with
  | postgres => simp only [eventKey, hrnetwork, hsnetwork, hrledger, hsledger, hrid, hsid]
  | sqlite => simp only [eventKey, hrnetwork, hsnetwork, hrid, hsid]

theorem placed_row {network : String} {ev r : Store.Event} (hev : OfChain chain network ev)
    (hid : r.id = ev.id) (hledger : r.ledger = ev.ledger)
    (hnetwork : r.network = defaultNetwork ing.opts.network) :
    ∀ re ∈ chain.events, r.id = re.id →
      r.ledger = re.ledger ∧ r.network = defaultNetwork ing.opts.network := by
  intro re hre hrid
  obtain ⟨⟨origin, horigin, hoid, holedger⟩, _⟩ := hev
  have heq : origin = re := Chain.eq_of_id horigin hre (by rw [← hoid, ← hid, hrid])
  subst heq
  exact ⟨hledger.trans holedger, hnetwork⟩

/-- A committed write of events that ends up under the ingester's network: a live page on Postgres
with the default network, a reorg repair with a network filled in. -/
def ownNetwork (b : Backend) (ing : Ingester) : Act → Bool
  | .upsertEvents evs =>
    decide (evs = [] ∨ (b = .postgres ∧ defaultNetwork ing.opts.network = "default"))
  | .reconcileReorgRange o =>
    decide (canonicalOf o = [] ∨ b = .postgres ∨ ing.opts.network ≠ "")
  | _ => true

theorem placed_commit {o : Act} {t : Tables b} (hwrite : ChainWrite ing chain o)
    (hown : ownNetwork b ing o = true) (h : Placed ing chain t) :
    Placed ing chain (o.commit t) := by
  cases o with
  | upsertEvents evs =>
    intro r hr
    rcases mem_upsertEvents hr with hr | ⟨ev, hev, rfl⟩
    · exact h r hr
    · have hchain := hwrite ev hev
      have hf := liveRow_fields b ev
      refine placed_row hchain hf.1 hf.2.1 ?_
      rcases of_decide_eq_true hown with hnil | ⟨hb, hdefault⟩
      · rw [hnil] at hev
        cases hev
      · subst hb
        rw [hdefault]
        exact congrArg defaultNetwork hchain.2
  | replaceEventsInRange evs from' to' =>
    intro r hr
    rcases mem_replaceEventsInRange hr with ⟨hr, _⟩ | ⟨ev, hev, hsame⟩
    · exact h r hr
    · have hchain := hwrite ev hev
      obtain ⟨hid, hledger, hnetwork, _⟩ := sansXDR_fields hsame
      refine placed_row hchain hid hledger ?_
      rw [hnetwork]
      exact congrArg defaultNetwork hchain.2
  | reconcileReorgRange o =>
    simp only [Act.commit, Tables.reconcileReorgRange]
    split
    · rename_i t' hok
      split at hok
      · cases hok
      · cases hok
        intro r hr
        rcases mem_reconcileReorgTx hr with hr | ⟨c, hc, hsame⟩
        · exact h r hr
        · obtain ⟨ev, hev, rfl⟩ := mem_canonicalOf hc
          have hchain := hwrite.2 ev hev
          -- the network is already filled in when the options have one
          have hkept : (if ev.network = "" ∧ o.network ≠ "" then { ev with network := o.network }
              else ev) = ev := by
            rw [if_neg]
            rintro ⟨hempty, hfilled⟩
            rw [hwrite.1, ← hchain.2, hempty] at hfilled
            exact hfilled rfl
          rw [hkept] at hsame
          obtain ⟨hid, hledger, hnetwork, _⟩ := sansXDR_fields hsame
          have hf := liveRow_fields b ev
          refine placed_row hchain (hid.trans hf.1) (hledger.trans hf.2.1) ?_
          rw [hnetwork]
          cases b with
          | postgres => exact congrArg defaultNetwork hchain.2
          | sqlite =>
            have hne : ing.opts.network ≠ "" := by
              rcases of_decide_eq_true hown with hnil | hb | hne
              · rw [hnil] at hc
                cases hc
              · cases hb
              · exact hne
            show ev.network = defaultNetwork ing.opts.network
            rw [hchain.2, defaultNetwork, if_neg hne]
    · exact h
  | _ => exact h

/-! ## Runs -/

/-- The calls that write events; a live page holds events of the chain. -/
inductive Writer (chain : Chain) where
  | persistEvents (page : List { e : Rpc.Event // e ∈ chain.events }) (latestLedger : Nat)
  | reingestRange (fromLedger toLedger : Nat)
  | executeReorgPass (fromLedger toLedger newHeadLedger : Nat)

def writerBody (ing : Ingester) (chain : Chain) (fuel : Nat) : Writer chain → P Unit
  | .persistEvents page latest =>
    Prog.bind (persistEvents ing fuel (page.map Subtype.val) latest) fun _ => .ret ()
  | .reingestRange from' to' => Prog.bind (reingestRange ing fuel from' to') fun _ => .ret ()
  | .executeReorgPass from' to' newHead =>
    Prog.bind (executeReorgPass ing fuel from' to' newHead) fun _ => .ret ()

def Node.chainExec (ing : Ingester) (chain : Chain) :
    (o : Act) → Node b → Choice → Option (Ans o × Node b)
  | .getEvents _ _, n, .page resp =>
    if resp.events.all fun e => decide (e ∈ chain.events) then some (.ok resp, n) else none
  | o, n, c => Node.exec ing o n c

theorem Node.exec_of_chainExec {o : Act} {n n' : Node b} {c : Choice} {a : Ans o}
    (h : Node.chainExec ing chain o n c = some (a, n')) :
    Node.exec ing o n c = some (a, n') ∧ FromChain chain o a := by
  cases o with
  | getEvents site req =>
    cases c with
    | page resp =>
      simp only [Node.chainExec] at h
      split at h
      · rename_i hall
        cases h
        refine ⟨rfl, ?_⟩
        intro e he
        simpa using all_eq_true.mp hall e he
      · cases h
    | fail err =>
      cases h
      exact ⟨rfl, trivial⟩
    | _ => cases h
  | _ => exact ⟨h, trivial⟩

/-- The writers on one store, while others edit the watch list. -/
def writers (b : Backend) (ing : Ingester) (chain : Chain) (fuel : Nat) :
    Service Act Ans (Node b) Choice (Table WatchedContract fun w => (w.network, w.contractID))
      (Writer chain) where
  exec := Node.chainExec ing chain
  drift n watched := some { n with tables := { n.tables with watchedContracts := watched } }
  body := writerBody ing chain fuel
  restart n := { n with mem := Memory.fresh ing }

/-- Every committed write of events ends up under the ingester's network. -/
def ownNetworkWrites {Noise : Type} (b : Backend) (ing : Ingester) :
    Guard Act (Node b) Choice Noise where
  answer o _ c := c = .ok → ownNetwork b ing o = true
  noise _ _ := True

section Runs

variable {ing : Ingester} {chain : Chain} {fuel : Nat}

abbrev writersSys (b : Backend) (ing : Ingester) (chain : Chain) (fuel : Nat) :
    Sys Act Ans (Node b) :=
  (writers b ing chain fuel).sys (ownNetworkWrites b ing)

abbrev KeepsPlaced (ing : Ingester) (chain : Chain) (fuel : Nat) {α : Type} (p : P α) (v : Node b) : Prop :=
  (writersSys b ing chain fuel).Safe (fun _ u => Placed ing chain u.tables)
    (fun _ u => Placed ing chain u.tables) p v

theorem placed_stable :
    (writersSys b ing chain fuel).Stable fun v => Placed ing chain v.tables := by
  rintro v v' ⟨watched, _, hdrift⟩ hv
  simp only [writers, Option.some.injEq] at hdrift
  subst hdrift
  exact hv

variable {v : Node b}

theorem placed_step {o : Act} {v' : Node b} {a : Ans o} (hwrite : ChainWrite ing chain o)
    (hv : Placed ing chain v.tables) (hstep : (writersSys b ing chain fuel).step o v a v') :
    FromChain chain o a ∧ Placed ing chain v'.tables := by
  obtain ⟨c, hguard, hexec⟩ := hstep
  obtain ⟨hnode, hfrom⟩ := Node.exec_of_chainExec hexec
  refine ⟨hfrom, ?_⟩
  rcases Node.exec_tables ing hnode with heq | ⟨_, hok, heq⟩
  · rw [heq]
    exact hv
  · rw [heq]
    exact placed_commit hwrite (hguard hok) hv

theorem faithful_safe {α : Type} {Q : α → Prop} {p : P α} (hp : Faithful ing chain Q p)
    (hv : Placed ing chain v.tables) :
    KeepsPlaced ing chain fuel p v := by
  have hstep : ∀ o v a v', ChainWrite ing chain o → Placed ing chain v.tables →
      (writersSys b ing chain fuel).step o v a v' →
      FromChain chain o a ∧ Placed ing chain v'.tables :=
    fun _ _ _ _ ho hu hstep => placed_step ho hu hstep
  exact (of_yields placed_stable hstep (fun _ _ _ hu => hu) hp hv).post fun _ _ h => h.2

theorem persistRows_safe (hdry : ing.opts.dryRun = false) {page : List Rpc.Event}
    (hpage : ∀ e ∈ page, e ∈ chain.events) (hv : Placed ing chain v.tables) :
    KeepsPlaced ing chain fuel (persistRows ing page) v := by
  have hwrites : ∀ o, PageWrite ing page o → ChainWrite ing chain o := by
    intro o ho
    cases o with
    | upsertEvents evs =>
      intro ev hev
      obtain ⟨re, hre, hdecoded⟩ := ho ev hev
      exact ofChain_of_toStoreEvent (hpage re hre) hdecoded
    | replaceEventsInRange evs from' to' => cases ho
    | reconcileReorgRange o => cases ho
    | _ => trivial
  -- the set of stored ids plays no part here: any set follows
  have hstep : ∀ o (s : Set String) u a u', PageWrite ing page o → Placed ing chain u.tables →
      (writersSys b ing chain fuel).step o u a u' →
      ∃ s', idLog.step o s a s' ∧ Placed ing chain u'.tables :=
    fun o _ u a u' ho hu hstep => ⟨Set.univ, ⟨Set.subset_univ _, fun _ => Set.subset_univ _⟩,
      (placed_step (hwrites o ho) hu hstep).2⟩
  have hdrift : ∀ (s : Set String) u u', Placed ing chain u.tables →
      (writersSys b ing chain fuel).drift u u' →
      ∃ s', idLog.Drifts s s' ∧ Placed ing chain u'.tables :=
    fun s u u' hu hdrift => ⟨s, .refl, placed_stable u u' hdrift hu⟩
  have hsim := simulate hstep hdrift (persistRows_persists hdry page ∅) hv
  exact hsim.mono (fun _ _ h => h.elim fun _ h => h.1) (fun _ _ h => h.elim fun _ h => h.1)

theorem persistEvents_safe {page : List Rpc.Event} (hpage : ∀ e ∈ page, e ∈ chain.events)
    (latest : Nat) (hv : Placed ing chain v.tables) :
    KeepsPlaced ing chain fuel (persistEvents ing fuel page latest) v := by
  cases hdry : ing.opts.dryRun with
  | true =>
    unfold persistEvents
    rw [persistEventsWithReorgCheck_dry hdry]
    exact ret placed_stable hv
  | false =>
    unfold persistEvents persistEventsWithReorgCheck
    split
    · exact ret placed_stable hv
    · refine andThen ((persistRows_safe hdry hpage hv).post ?_)
      intro r u hu
      cases r with
      | error err => exact ret placed_stable hu
      | ok events =>
        dsimp only [Fallible.andThen]
        rw [if_neg (by rw [hdry]; exact Bool.false_ne_true)]
        exact faithful_safe (faithful_recordIngestedLedgerFingerprints fuel events latest) hu

theorem writerBody_safe (w : Writer chain) (v : Node b) (hv : Placed ing chain v.tables) :
    KeepsPlaced ing chain fuel (writerBody ing chain fuel w) v := by
  have hdone : ∀ {α : Type} (r : α) (u : Node b), Placed ing chain u.tables →
      KeepsPlaced ing chain fuel (.ret () : P Unit) u :=
    fun _ _ hu => ret placed_stable hu
  cases w with
  | persistEvents page latest =>
    have hpage : ∀ e ∈ page.map Subtype.val, e ∈ chain.events := by
      intro e he
      obtain ⟨x, _, rfl⟩ := mem_map.mp he
      exact x.property
    exact bind ((persistEvents_safe hpage latest hv).post hdone)
  | reingestRange from' to' =>
    exact bind ((faithful_safe (faithful_reingestRange fuel from' to') hv).post hdone)
  | executeReorgPass from' to' newHead =>
    exact bind
      ((faithful_safe (faithful_executeReorgPass fuel from' to' newHead) hv).post hdone)

end Runs

/-- In every run of the writers over an unchanged chain whose committed writes end up under the
ingester's network, each event of the chain has at most one row, under that network. -/
theorem each_event_stored_once (b : Backend) (ing : Ingester) (chain : Chain) (fuel : Nat)
    (n : Node b) (hstart : Placed ing chain n.tables)
    (ms : List (Move Choice (Table WatchedContract fun w => (w.network, w.contractID))
      (Writer chain)))
    (final : Config Act Ans (Node b))
    (hown : (writers b ing chain fuel).Along (ownNetworkWrites b ing).allows (Service.idle n) ms)
    (hrun : (writers b ing chain fuel).run (Service.idle n) ms = some final) :
    StoredOnce ing chain final.world.tables := by
  have hplaced : Placed ing chain final.world.tables :=
    Service.run_invariant
      (writerBody_safe) placed_stable (fun _ hv => hv) hstart hown hrun
  exact hplaced.storedOnce

instance {Noise : Type} (b : Backend) (ing : Ingester) (o : Act) (n : Node b) (c : Choice) :
    Decidable ((ownNetworkWrites b ing : Guard Act (Node b) Choice Noise).answer o n c) :=
  inferInstanceAs (Decidable (c = .ok → ownNetwork b ing o = true))

instance {Noise : Type} (b : Backend) (ing : Ingester) (n : Node b) (x : Noise) :
    Decidable ((ownNetworkWrites b ing : Guard Act (Node b) Choice Noise).noise n x) :=
  isTrue trivial

/-! One event is ingested live and its ledger repaired afterwards. -/

def oneEventChain : Chain where
  events := [.sample "5-1" "C1" 5]
  tip := 7

def liveThenRepair :
    List (Move Choice (Table WatchedContract fun w => (w.network, w.contractID))
      (Writer oneEventChain)) :=
  Move.call (.persistEvents [⟨.sample "5-1" "C1" 5, by decide⟩] 7) [.ok, .ok] ++
    Move.call (.reingestRange 5 5) [.number 0, .ok, .page ⟨oneEventChain.events, 7, 2, ""⟩, .ok]

def ingesterOf (network : String) : Ingester :=
  new Codec.verbatim true { Options.zero with network := network }

def emptyNode (b : Backend) (ing : Ingester) : Node b where
  tables := Tables.empty b
  mem := Memory.fresh ing

theorem each_event_stored_once_default :
    ∃ final, (writers .postgres (ingesterOf "") oneEventChain 1).run
        (Service.idle (emptyNode .postgres (ingesterOf ""))) liveThenRepair = some final ∧
      StoredOnce (ingesterOf "") oneEventChain final.world.tables :=
  ⟨_, rfl, each_event_stored_once .postgres (ingesterOf "") oneEventChain 1
    (emptyNode .postgres (ingesterOf "")) (fun _ hr => by cases hr) liveThenRepair _
    (Service.Along.of_check (by decide)) rfl⟩

/-- On Postgres with a named network the live row is stored under `default` and the repair adds a
second one. -/
theorem named_network_stores_twice :
    ∃ final, (writers .postgres (ingesterOf "testnet") oneEventChain 1).run
        (Service.idle (emptyNode .postgres (ingesterOf "testnet"))) liveThenRepair = some final ∧
      ¬StoredOnce (ingesterOf "testnet") oneEventChain final.world.tables := by
  refine ⟨_, rfl, ?_⟩
  intro hstored
  obtain ⟨hnetwork, _⟩ := hstored (.sample "5-1" "C1" 5) (by decide)
  have hlive := hnetwork _ (.head _) rfl
  exact absurd hlive (by decide)

end SoroTrail.Ingest
