import SoroTrail.Ingester.Collect
import SoroTrail.Ingester.PersistSpec
import SoroTrail.Ingester.Tracking

/-!
# The ingester in front of a chain

A deployment is the chain behind the RPC, the store and one process.  A page is
what the chain holds when it is asked for; every request may also fail.
-/

set_option autoImplicit false

namespace SoroTrail.Ingest

open Lib Rpc Store Sys.Safe Prog List Fallible Uses

variable {b : Backend}

structure Deployment (b : Backend) where
  chain : Chain
  node : Node b

namespace Deployment

def exec (ing : Ingester) :
    (o : Act) → Deployment b → Choice → Option (Ans o × Deployment b)
  | .getEvents _ req, d, .page resp =>
    if d.chain.serves req resp then some (.ok resp, d) else none
  | o, d, c => (Node.exec ing o d.node c).map fun r => (r.1, { d with node := r.2 })

theorem exec_node {ing : Ingester} {o : Act} {d d' : Deployment b} {c : Choice} {a : Ans o}
    (h : exec ing o d c = some (a, d')) :
    d'.chain = d.chain ∧ Node.exec ing o d.node c = some (a, d'.node) := by
  unfold exec at h
  split at h
  · split at h
    · cases h
      exact ⟨rfl, rfl⟩
    · cases h
  · simp only [Option.map_eq_some_iff, Prod.mk.injEq] at h
    obtain ⟨⟨a', n'⟩, hnode, rfl, rfl⟩ := h
    exact ⟨rfl, hnode⟩

theorem exec_page {ing : Ingester} {site : FetchSite} {req : GetEventsRequest}
    {d d' : Deployment b} {c : Choice} {resp : GetEventsResponse}
    (h : exec ing (.getEvents site req) d c = some (.ok resp, d')) :
    c = .page resp ∧ d.chain.serves req resp = true ∧ d' = d := by
  cases c with
  | page resp' =>
    simp only [exec] at h
    split at h
    · rename_i hserves
      cases h
      exact ⟨rfl, hserves, rfl⟩
    · cases h
  | fail err => cases h
  | _ => simp [exec, Node.exec] at h

end Deployment

/-!
# Divergence on an unchanged chain

A page's fingerprints are compared with those recorded before.  On a chain that
only grows by whole ledgers they agree as long as every page holds whole ledgers:
of each ledger it touches, all the events the same filters accept.
-/

variable {b : Backend} {ing : Ingester}

/-! ## The fingerprint of a whole ledger -/

def chainFingerprint (ing : Ingester) (filters : List Rpc.EventFilter) (chain : Chain) (l : Nat) :
    String :=
  computeLedgerFingerprint ing l
    ((chain.events.filter fun e => decide (e.ledger = l) && accepted filters e).filterMap
      (decodedRow ing))

/-- A hash the tracker may hold for a ledger. -/
def Canonical (ing : Ingester) (filters : List Rpc.EventFilter) (chain : Chain) (l : Nat)
    (hash : String) : Prop :=
  l ≤ chain.tip ∧ hash = chainFingerprint ing filters chain l

variable {filters : List Rpc.EventFilter}

theorem Canonical.unique {chain : Chain} (l : Nat) (h h' : String)
    (hh : Canonical ing filters chain l h) (hh' : Canonical ing filters chain l h') : h = h' :=
  hh.2.trans hh'.2.symm

theorem Canonical.extend {c c' : Chain} (hext : c.Extends c') {l : Nat} {h : String}
    (hh : Canonical ing filters c l h) : Canonical ing filters c' l h := by
  have htip : c.tip ≤ c'.tip := hext.choose_spec.2.1
  refine ⟨hh.1.trans htip, ?_⟩
  rw [hh.2]
  unfold chainFingerprint
  rw [hext.filter_ledger hh.1]

/-- A page holds whole ledgers of the chain. -/
structure WholePage (filters : List Rpc.EventFilter) (chain : Chain) (events : List Rpc.Event) :
    Prop where
  whole : ∀ e ∈ events, events.filter (fun x => decide (x.ledger = e.ledger)) =
    chain.events.filter fun x => decide (x.ledger = e.ledger) && accepted filters x
  distinct : events.Pairwise fun x y => x.id ≠ y.id
  mem : ∀ e ∈ events, e ∈ chain.events

theorem WholePage.extend {c c' : Chain} (hext : c.Extends c') {events : List Rpc.Event}
    (h : WholePage filters c events) : WholePage filters c' events where
  whole e he := by
    rw [hext.filter_ledger (c.ledger_le e (h.mem e he))]
    exact h.whole e he
  distinct := h.distinct
  mem e he := hext.mem (h.mem e he)

/-- Of each ledger it touches, the page holds what the filters accept, and nothing else. -/
def wholeLedgers (filters : List Rpc.EventFilter) (chain : Chain) (events : List Rpc.Event) : Bool :=
  events.all fun e => accepted filters e &&
    chain.events.all fun x =>
      !(decide (x.ledger = e.ledger) && accepted filters x) || decide (x ∈ events)

theorem wholePage_of_serves {chain : Chain} {req : GetEventsRequest} {resp : GetEventsResponse}
    (hserves : chain.serves req resp = true)
    (hwhole : wholeLedgers filters chain resp.events = true) :
    WholePage filters chain resp.events := by
  obtain ⟨hevents, _, _⟩ := Chain.serves_iff.mp hserves
  have hmem : ∀ e ∈ resp.events, e ∈ chain.events := by
    intro e he
    rw [hevents] at he
    exact (Chain.mem_page he).1
  have hascending : Keyset.Ascending Rpc.Event.id resp.events := by
    rw [hevents]
    exact (chain.matching_ascending req).sublist (take_sublist _ _)
  refine ⟨?_, hascending.imp ne_of_lt, hmem⟩
  intro e he
  simp only [wholeLedgers, all_eq_true, Bool.and_eq_true, Bool.or_eq_true, Bool.not_eq_true',
    Bool.and_eq_false_iff, decide_eq_true_eq, decide_eq_false_iff_not] at hwhole
  refine (hascending.filter _).ext (chain.ascending.filter _) ?_
  intro x
  simp only [mem_filter, decide_eq_true_eq, Bool.and_eq_true]
  constructor
  · rintro ⟨hx, hledger⟩
    exact ⟨hmem x hx, hledger, (hwhole x hx).1⟩
  · rintro ⟨hx, hledger, haccepted⟩
    rcases (hwhole e he).2 x hx with (hne | hno) | hin
    · exact absurd hledger hne
    · rw [haccepted] at hno
      cases hno
    · exact ⟨hin, hledger⟩

variable {α : Type}

theorem filter_filterMap_of_eq {β : Type} {f : α → Option β} {p : α → Bool} {q : β → Bool}
    (l : List α) (h : ∀ x ∈ l, ∀ y, f x = some y → q y = p x) :
    (l.filterMap f).filter q = (l.filter p).filterMap f := by
  induction l with
  | nil => rfl
  | cons x xs ih =>
    have hxs := ih fun y hy => h y (.tail _ hy)
    cases hx : f x with
    | none =>
      rw [filterMap_cons_none hx, hxs, filter_cons]
      split
      · rw [filterMap_cons_none hx]
      · rfl
    | some y =>
      have hpq := h x (.head _) y hx
      rw [filterMap_cons_some hx, filter_cons, filter_cons, hpq, hxs]
      split
      · rw [filterMap_cons_some hx]
      · rfl

section Rows

variable {filters : List Rpc.EventFilter} {chain : Chain} {events : List Rpc.Event}

theorem decodedRow_ledger (hmem : ∀ e ∈ events, e ∈ chain.events) {re : Rpc.Event}
    (hre : re ∈ events) {ev : Store.Event} (h : decodedRow ing re = some ev) :
    0 < ev.ledger ∧ u32OfInt ev.ledger = re.ledger := by
  obtain ⟨_, _, hledger, _⟩ := toStoreEvent_ok ing (decodedRow_some h).2
  have hpos := chain.ledger_pos re (hmem re hre)
  have hle := chain.ledger_le re (hmem re hre)
  have htip := chain.tip_lt
  rw [hledger]
  refine ⟨by omega, u32OfInt_natCast (by omega)⟩

/-- The rows a whole page is recorded with carry the fingerprints of whole ledgers. -/
theorem WholePage.canonical (hpage : WholePage filters chain events) {l : Nat}
    (hl : l ∈ seenLedgers (removeDuplicateEvents (events.filterMap (decodedRow ing)))) :
    Canonical ing filters chain l
      (pageFingerprint ing (removeDuplicateEvents (events.filterMap (decodedRow ing))) l) := by
  have hdistinct : (events.filterMap (decodedRow ing)).Pairwise fun x y => x.id ≠ y.id := by
    rw [pairwise_filterMap]
    refine hpage.distinct.imp ?_
    intro x y hne ev hev ev' hev'
    rw [(toStoreEvent_ok ing (decodedRow_some hev).2).1,
      (toStoreEvent_ok ing (decodedRow_some hev').2).1]
    exact hne
  have hrows : removeDuplicateEvents (events.filterMap (decodedRow ing)) =
      events.filterMap (decodedRow ing) :=
    dedupByID_eq_self hdistinct fun _ _ => not_mem_nil
  rw [hrows] at hl ⊢
  obtain ⟨ev, hev, _, heq⟩ := mem_seenLedgers.mp hl
  obtain ⟨re, hre, hrow⟩ := mem_filterMap.mp hev
  have hledger : re.ledger = l := (decodedRow_ledger hpage.mem hre hrow).2.symm.trans heq
  refine ⟨hledger ▸ chain.ledger_le re (hpage.mem re hre), ?_⟩
  have hfilter : (events.filterMap (decodedRow ing)).filter
      (fun ev => decide (0 < ev.ledger ∧ u32OfInt ev.ledger = l)) =
      (events.filter fun x => decide (x.ledger = l)).filterMap (decodedRow ing) := by
    refine filter_filterMap_of_eq events ?_
    intro x hx ev hev
    obtain ⟨hpos, hsame⟩ := decodedRow_ledger hpage.mem hx hev
    simp [hpos, hsame]
  have hwhole := hpage.whole re hre
  rw [hledger] at hwhole
  unfold pageFingerprint chainFingerprint
  rw [hfilter, hwhole]

end Rows

/-! ## Programs that record nothing -/

def LeavesTracker : Act → Prop
  | .memory f => ∀ m l h, (f m).tracker.hashes l = some h → m.tracker.hashes l = some h
  | .warn (.fingerprintDivergence _ _ _) => False
  | _ => True

abbrev Calm {α : Type} (p : P α) : Prop :=
  p.Uses LeavesTracker fun _ _ => True

variable {p : P α}

theorem Collects.calm (h : Collects p) : Calm p := by
  refine Yields.weaken h ?_ fun _ _ h => h
  intro o ho
  cases o with
  | memory f => cases ho
  | warn w => cases ho
  | _ => trivial

theorem calm_pageWrite {page : List Rpc.Event} {o : Act} (h : PageWrite ing page o) :
    LeavesTracker o := by
  cases o with
  | memory f => cases h
  | warn w => cases h
  | _ => trivial

theorem calm_readMemory : Calm readMemory := ⟨fun _ _ _ h => h, fun _ _ => trivial⟩

theorem calm_getIngestionState : Calm getIngestionState := ⟨trivial, fun _ _ => trivial⟩

theorem Saves.calm (h : Saves p) : Calm p := by
  refine Yields.weaken h ?_ fun _ _ h => h
  intro o ho
  cases o with
  | memory f =>
    intro m l hash hl
    rw [(ho m).1] at hl
    exact hl
  | warn w =>
    cases w with
    | reclamp _ _ => trivial
    | _ => cases ho
  | _ => trivial

theorem Seeks.calm (h : Seeks p) : Calm p := h.saves.calm

/-! A tip regression on a chain that has not changed repairs the ledgers past the tip, so no
fingerprint is recorded after it. -/

theorem calm_executeReorgPass (fuel newHead to' : Nat) (hpos : 0 < newHead) (hto : newHead < to') :
    Calm (executeReorgPass ing fuel (newHead + 1) to' newHead) := by
  refine andThen collects_buildFilterBatches.calm ?_
  intro filters
  refine andThen (collects_collectBatches fuel _ _ _ filters).calm ?_
  intro r
  cases r with
  | none => trivial
  | some collected =>
    dsimp only
    split
    · trivial
    · have hreconcile : ∀ o, Calm (reconcileReorgRange o) := fun _ => ⟨trivial, fun _ _ => trivial⟩
      refine andThen (uses_wrapErr (hreconcile _)) ?_
      intro _
      simp only [hpos, hto, and_self, if_true]
      have hreset : Calm (updateMemory fun m =>
          { m with tracker := m.tracker.resetAbove newHead }) :=
        ⟨fun _ _ _ h => ReorgTracker.resetAbove_hashes h, fun _ _ => trivial⟩
      refine andThen (lift hreset) ?_
      intro _
      rw [Nat.sub_self]
      trivial

theorem calm_handleReorgRange (fuel newHead to' : Nat) (hpos : 0 < newHead) :
    Calm (handleReorgRange ing fuel (newHead + 1) to' newHead) := by
  unfold handleReorgRange
  split
  · trivial
  · have harchived : Calm resolveArchivedBoundary := ⟨trivial, fun _ _ => trivial⟩
    refine andThen harchived ?_
    intro archivedThrough
    split
    · trivial
    · refine andThen (attempt calm_getIngestionState) ?_
      intro st
      refine andThen (lift calm_readMemory) ?_
      intro m
      dsimp only
      generalize max _ to' = frontier
      split
      · trivial
      · exact calm_executeReorgPass fuel newHead to' hpos (by omega)

theorem calm_maybeHandleTipRegression (fuel latest : Nat) (hlt : latest + 1 < 2 ^ 32) :
    Calm (maybeHandleTipRegression ing fuel latest) := by
  unfold maybeHandleTipRegression
  split
  · trivial
  · refine andThen (lift calm_readMemory) ?_
    intro m
    refine andThen (attempt calm_getIngestionState) ?_
    intro st
    dsimp only
    -- both sources report a range that starts right after the tip
    have hseen : ∀ range ∈ m.tracker.checkTipRegression latest, range.1 = latest + 1 := by
      intro range h
      unfold ReorgTracker.checkTipRegression at h
      split_ifs at h <;> cases h
      exact u32_of_lt hlt
    have hrepair : ∀ from' to', from' = latest + 1 → Calm (do
        warn (.tipRegression from' to' latest)
        handleReorgRange ing fuel from' to' latest
        return true : M Bool) := by
      intro from' to' hfrom
      subst hfrom
      have hwarn : Calm (warn (.tipRegression (latest + 1) to' latest)) :=
        ⟨trivial, fun _ _ => trivial⟩
      refine andThen (lift hwarn) ?_
      intro _
      exact andThen (calm_handleReorgRange fuel latest to' (by omega)) fun _ => trivial
    cases hrange : m.tracker.checkTipRegression latest with
    | none =>
      cases st with
      | error err => trivial
      | ok st =>
        by_cases hbehind : latest < st.lastIngestedLedger
        · simp only [if_pos hbehind]
          exact hrepair _ _ (u32_of_lt hlt)
        · simp only [if_neg hbehind]
          trivial
    | some range =>
      have hfrom := hseen range hrange
      cases st with
      | error err => exact hrepair _ _ hfrom
      | ok st =>
        by_cases hbehind : latest < st.lastIngestedLedger
        · simp only [if_pos hbehind]
          exact hrepair _ _ hfrom
        · simp only [if_neg hbehind]
          exact hrepair _ _ hfrom

/-! ## Cycles -/

inductive PageCall where
  | singlePage (startLedger : Nat) (cursor : String) (filters : List Rpc.EventFilter)
  | singlePageWatched (filters : List Rpc.EventFilter)
  deriving DecidableEq, Repr

def pageBody (ing : Ingester) (fuel : Nat) : PageCall → P Unit
  | .singlePage start cursor filters =>
    Prog.bind (singlePage ing fuel start cursor filters) fun _ => .ret ()
  | .singlePageWatched filters => Prog.bind (singlePageWatched ing fuel filters) fun _ => .ret ()

/-- What changes on its own: whole ledgers are appended to the chain, and others write to the
store, so that a cycle may resume anywhere. -/
inductive Change (b : Backend) where
  | append (chain : Chain)
  | store (tables : Tables b)

def pager (b : Backend) (ing : Ingester) (fuel : Nat) :
    Service Act Ans (Deployment b) Choice (Change b) PageCall where
  exec := Deployment.exec ing
  drift d
    | .append chain => if d.chain.appends chain then some { d with chain := chain } else none
    | .store tables => some { d with node := { d.node with tables := tables } }
  body := pageBody ing fuel
  restart d := { d with node := { d.node with mem := Memory.fresh ing } }

def wholeAnswer (filters : List Rpc.EventFilter) (chain : Chain) : Act → Choice → Bool
  | .getEvents .singlePage _, .page resp => wholeLedgers filters chain resp.events
  | .getEvents .singlePageWatched _, .page resp => wholeLedgers filters chain resp.events
  | _, _ => true

def wholePages (filters : List Rpc.EventFilter) {Noise : Type} :
    Guard Act (Deployment b) Choice Noise where
  answer o d c := wholeAnswer filters d.chain o c = true
  noise _ _ := True

section Runs

variable {fuel : Nat} {filters : List Rpc.EventFilter}

abbrev pagerSys (b : Backend) (ing : Ingester) (fuel : Nat) (filters : List Rpc.EventFilter) :
    Sys Act Ans (Deployment b) :=
  (pager b ing fuel).sys (wholePages filters)

def Unannounced (o : Act) : Prop :=
  ∀ from' to' latest, o ≠ .warn (.fingerprintDivergence from' to' latest)

def Faultless (ing : Ingester) (filters : List Rpc.EventFilter) (d : Deployment b) : Prop :=
  d.node.mem.tracker.Agrees (Canonical ing filters d.chain)

variable {d : Deployment b} {events : List Rpc.Event} {d' : Deployment b}

theorem pager_step {o : Act} {a : Ans o}
    (h : (pagerSys b ing fuel filters).step o d a d') :
    ∃ c, (wholePages filters : Guard Act (Deployment b) Choice (Change b)).answer o d c ∧
      Deployment.exec ing o d c = some (a, d') :=
  h

theorem pager_drift (h : (pagerSys b ing fuel filters).drift d d') :
    d.chain.Extends d'.chain ∧ d'.node.mem = d.node.mem := by
  obtain ⟨change, _, hdrift⟩ := h
  cases change with
  | append chain =>
    simp only [pager] at hdrift
    split at hdrift
    · rename_i happends
      cases hdrift
      exact ⟨Chain.extends_of_appends happends, rfl⟩
    · cases hdrift
  | store tables =>
    cases hdrift
    exact ⟨Chain.Extends.refl _, rfl⟩

theorem pager_recalls : Recalls (pagerSys b ing fuel filters) fun d => d.node.mem where
  drift _ _ h := (pager_drift h).2
  memory f d a d' h := by
    obtain ⟨c, _, hexec⟩ := pager_step h
    obtain ⟨ha, hnode⟩ := Node.exec_memory ing (Deployment.exec_node hexec).2
    exact ⟨ha, congrArg Node.mem hnode⟩

theorem Faultless.drift : (pagerSys b ing fuel filters).Stable (Faultless ing filters) := by
  intro d d' h hd
  obtain ⟨hext, hmem⟩ := pager_drift h
  intro l hash hl
  rw [hmem] at hl
  exact (hd l hash hl).extend hext

theorem LeavesTracker.unannounced {o : Act} (h : LeavesTracker o) : Unannounced o := by
  rintro from' to' latest rfl
  exact h

theorem LeavesTracker.keeps {o : Act} (ho : LeavesTracker o) {a : Ans o}
    (h : (pagerSys b ing fuel filters).step o d a d') (hd : Faultless ing filters d) :
    Faultless ing filters d' := by
  obtain ⟨c, _, hexec⟩ := pager_step h
  obtain ⟨hchain, hnode⟩ := Deployment.exec_node hexec
  intro l hash hl
  rw [hchain]
  rcases Node.exec_effect ing hnode with heq | ⟨_, _, heq⟩ | ⟨f, rfl, heq⟩ <;> rw [heq] at hl
  · exact hd l hash hl
  · exact hd l hash hl
  · exact hd l hash (ho _ _ _ hl)

/-- Every run of `p` from `d` ends as `Q` says and announces no divergence. -/
abbrev Quietly (ing : Ingester) (fuel : Nat) (filters : List Rpc.EventFilter) {α : Type}
    (Q : α → Deployment b → Prop) (p : P α) (d : Deployment b) : Prop :=
  (pagerSys b ing fuel filters).Safe (fun o _ => Unannounced o) Q p d

/-- Every run of `p` announces no divergence, nor sets one up. -/
abbrev StaysQuiet (ing : Ingester) (fuel : Nat) (filters : List Rpc.EventFilter) (p : P α)
    (d : Deployment b) : Prop :=
  Quietly ing fuel filters (fun _ v => Faultless ing filters v) p d

theorem calm_keeps (hp : Calm p) (hd : Faultless ing filters d) : StaysQuiet ing fuel filters p d :=
  post (of_yields Faultless.drift (fun _ _ _ _ ho hv hstep => ⟨trivial, ho.keeps hstep hv⟩)
    (fun _ _ ho _ => ho.unannounced) hp hd) fun _ _ h => h.2

def Ready (ing : Ingester) (filters : List Rpc.EventFilter) (events : List Rpc.Event)
    (d : Deployment b) : Prop :=
  WholePage filters d.chain events ∧ Faultless ing filters d

theorem Ready.drift : (pagerSys b ing fuel filters).Stable (Ready ing filters events) := by
  intro d d' h hd
  exact ⟨hd.1.extend (pager_drift h).1, Faultless.drift d d' h hd.2⟩

theorem calm_ready {Q : α → Prop}
    (hp : p.Yields LeavesTracker (fun _ _ => True) Q) (hd : Ready ing filters events d) :
    Quietly ing fuel filters (fun a v => Q a ∧ Ready ing filters events v) p d := by
  refine of_yields Ready.drift ?_ (fun _ _ ho _ => ho.unannounced) hp hd
  intro o v a v' ho hv hstep
  refine ⟨trivial, ?_, ho.keeps hstep hv.2⟩
  obtain ⟨c, _, hexec⟩ := pager_step hstep
  rw [(Deployment.exec_node hexec).1]
  exact hv.1

theorem recordIngestedLedgerFingerprints_safe {rows : List Store.Event}
    (hrows : rows = removeDuplicateEvents (events.filterMap (decodedRow ing))) (latest : Nat)
    (check : Bool) (hd : Ready ing filters events d) :
    StaysQuiet ing fuel filters (recordIngestedLedgerFingerprints ing fuel rows latest check) d := by
  unfold recordIngestedLedgerFingerprints
  split
  · exact ret Faultless.drift hd.2
  · refine lift_bind ?_
    have hextends : (pagerSys b ing fuel filters).Stable fun v => d.chain.Extends v.chain := by
      intro v v' h hv
      exact hv.trans (pager_drift h).1
    refine post (trackLedgers_safe pager_recalls hextends ?_ ?_ (seenLedgers rows) (0, 0) d
      (Chain.Extends.refl _)) ?_
    · intro f v a v' hstep hv
      obtain ⟨c, _, hexec⟩ := pager_step hstep
      rw [(Deployment.exec_node hexec).1]
      exact hv
    · intro f v _ from' to' latest h
      cases h
    · rintro range v ⟨htracked, hext⟩
      have hcanonical : ∀ l ∈ seenLedgers rows,
          Canonical ing filters d.chain l (pageFingerprint ing rows l) := by
        intro l hl
        rw [hrows] at hl ⊢
        exact hd.1.canonical hl
      obtain ⟨hagrees, hnone⟩ := trackAll_agrees Canonical.unique (seenLedgers rows)
        hcanonical d.node.mem.tracker hd.2
      obtain ⟨htracker, hrange⟩ := Prod.mk.inj htracked
      obtain rfl : range = (0, 0) := hrange.trans hnone
      dsimp only
      rw [if_neg (by simp)]
      refine ret Faultless.drift ?_
      intro l hash hl
      rw [htracker] at hl
      exact (hagrees l hash hl).extend hext

theorem persistEventsWithReorgCheck_safe (latest : Nat) (check : Bool)
    (hd : Ready ing filters events d) :
    StaysQuiet ing fuel filters (persistEventsWithReorgCheck ing fuel events latest check) d := by
  cases hdry : ing.opts.dryRun with
  | true =>
    rw [persistEventsWithReorgCheck_dry hdry]
    exact ret Faultless.drift hd.2
  | false =>
    unfold persistEventsWithReorgCheck
    split
    · exact ret Faultless.drift hd.2
    · have huses := (persistRows_persists hdry events).uses
      have hrows := (huses.weaken (fun _ h => calm_pageWrite h) fun _ _ h => h).and
        (persistRows_rows events)
      refine andThen ((calm_ready (hrows.weaken (fun _ h => h.1) fun _ _ h => h) hd).post ?_)
      rintro r v ⟨⟨_, hr⟩, hv⟩
      cases r with
      | error err => exact ret Faultless.drift hv.2
      | ok rows =>
        simp only [Fallible.andThen, hdry]
        exact recordIngestedLedgerFingerprints_safe hr latest check hv

theorem pageRead_safe {site : FetchSite} {req : GetEventsRequest}
    (hsite : site = .singlePage ∨ site = .singlePageWatched)
    {k : Except Err GetEventsResponse → M α} (hd : Faultless ing filters d)
    (herror : ∀ err (v : Deployment b), Faultless ing filters v →
      StaysQuiet ing fuel filters (k (.error err)) v)
    (hpage : ∀ (resp : GetEventsResponse) (v : Deployment b), resp.latestLedger + 1 < 2 ^ 32 →
      Ready ing filters resp.events v →
      StaysQuiet ing fuel filters (k (.ok resp)) v) :
    StaysQuiet ing fuel filters (attempt (getEvents site req) >>= k : M α) d := by
  refine act Faultless.drift hd (fun _ _ _ _ _ h => by cases h) ?_
  intro v r u hv hu
  have hkept : Faultless ing filters u := LeavesTracker.keeps (o := .getEvents site req) trivial hu hv
  cases r with
  | error err => exact herror err u hkept
  | ok resp =>
    obtain ⟨c, hguard, hexec⟩ := pager_step hu
    obtain ⟨rfl, hserves, rfl⟩ := Deployment.exec_page hexec
    have hwhole : wholeLedgers filters u.chain resp.events = true := by
      rcases hsite with rfl | rfl <;> exact hguard
    refine hpage resp u ?_ ⟨wholePage_of_serves hserves hwhole, hkept⟩
    rw [(Chain.serves_iff.mp hserves).2.2]
    exact u.chain.tip_lt

theorem failedPage_safe {start : Nat} {ids : List String} (err : Err)
    (hd : Faultless ing filters d) :
    StaysQuiet ing fuel filters
      (if isFailoverReanchor err then do
          discardCursor ing
          fail err
        else if isLedgerOutOfRange err then do
          reclampToOldest ing start ids
          return false
        else fail (getEventsErr start err) : M Bool) d := by
  refine calm_keeps ?_ hd
  split
  · exact andThen (lift saves_discardCursor.calm) fun _ => trivial
  · split
    · exact andThen (saves_reclampToOldest _ _).calm fun _ => trivial
    · trivial

/-- After a page: the tip regression is looked at first, then the page is persisted. -/
theorem servedPage_safe {resp : GetEventsResponse} (htip : resp.latestLedger + 1 < 2 ^ 32)
    (hd : Ready ing filters resp.events d) {rest : M Bool}
    (hrest : ∀ v : Deployment b, Ready ing filters resp.events v →
      StaysQuiet ing fuel filters rest v) :
    StaysQuiet ing fuel filters
      (do if ← maybeHandleTipRegression ing fuel resp.latestLedger then return true
          else rest : M Bool) d := by
  refine andThen
    ((calm_ready (calm_maybeHandleTipRegression fuel resp.latestLedger htip) hd).post ?_)
  rintro r v ⟨_, hv⟩
  cases r with
  | error err => exact ret Faultless.drift hv.2
  | ok regressed =>
    dsimp only [Fallible.andThen]
    split
    · exact ret Faultless.drift hv.2
    · exact hrest v hv

theorem persist_andThen_safe {latest : Nat} {check : Bool} {next : M Bool} (hnext : Calm next)
    (hd : Ready ing filters events d) :
    StaysQuiet ing fuel filters
      (do persistEventsWithReorgCheck ing fuel events latest check
          next : M Bool) d := by
  refine andThen ((persistEventsWithReorgCheck_safe latest check hd).post ?_)
  intro r v hv
  cases r with
  | error err => exact ret Faultless.drift hv
  | ok _ => exact calm_keeps hnext hv

theorem singlePage_safe (start : Nat) (cursor : String) (sent : List Rpc.EventFilter)
    (hd : Faultless ing filters d) :
    StaysQuiet ing fuel filters (singlePage ing fuel start cursor sent) d := by
  refine pageRead_safe (.inl rfl) hd (fun err v hv => failedPage_safe err hv) ?_
  intro resp v htip hv
  refine servedPage_safe htip hv ?_
  intro u hu
  refine lift_bind ((calm_ready saves_clockNow.calm hu).post ?_)
  rintro now x ⟨_, hx⟩
  refine persist_andThen_safe ?_ hx
  dsimp only
  split
  · exact andThen (lift (seeks_setDryRunPosition _ _).calm) fun _ => trivial
  · exact andThen (saves_saveIngestionState _).calm fun _ => trivial

theorem singlePageWatched_safe (sent : List Rpc.EventFilter) (hd : Faultless ing filters d) :
    StaysQuiet ing fuel filters (singlePageWatched ing fuel sent) d := by
  refine andThen ((calm_keeps (seeks_earliestPosition _ _).calm hd).post ?_)
  intro r v hv
  cases r with
  | error err => exact ret Faultless.drift hv
  | ok start =>
    refine pageRead_safe (.inr rfl) hv (fun err v hv => failedPage_safe err hv) ?_
    intro resp v htip hv
    refine servedPage_safe htip hv ?_
    intro u hu
    refine persist_andThen_safe ?_ hu
    exact andThen (saves_advanceContractCursors _).calm fun _ => trivial

theorem pageCall_safe (call : PageCall) (d : Deployment b) (hd : Faultless ing filters d) :
    StaysQuiet ing fuel filters ((pager b ing fuel).body call) d := by
  cases call with
  | singlePage start cursor sent =>
    refine bind ((singlePage_safe start cursor sent hd).post ?_)
    exact fun _ v hv => ret Faultless.drift hv
  | singlePageWatched sent =>
    refine bind ((singlePageWatched_safe sent hd).post ?_)
    exact fun _ v hv => ret Faultless.drift hv

end Runs

theorem faultless_fresh (filters : List Rpc.EventFilter) {d : Deployment b}
    (h : d.node.mem = Memory.fresh ing) : Faultless ing filters d := by
  intro l hash hl
  rw [h] at hl
  cases hl

/-- In every run whose pages hold whole ledgers, no divergence is announced. -/
theorem whole_pages_never_diverge (ing : Ingester) (fuel : Nat) (filters : List Rpc.EventFilter)
    (d : Deployment b) (hfresh : d.node.mem = Memory.fresh ing)
    (ms : List (Move Choice (Change b) PageCall)) (o : Act) (k : Ans o → P Unit) (v : Deployment b)
    (hwhole : (pager b ing fuel).Along (wholePages filters).allows (Service.idle d) ms)
    (hrun : (pager b ing fuel).run (Service.idle d) ms = some ⟨.act o k, v⟩) :
    ∀ from' to' latest, o ≠ .warn (.fingerprintDivergence from' to' latest) :=
  Service.run_obligation (pageCall_safe) Faultless.drift
    (fun _ _ _ => faultless_fresh filters rfl) (fun _ _ => faultless_fresh filters rfl)
    (faultless_fresh filters hfresh) hwhole hrun

instance {Noise : Type} (filters : List Rpc.EventFilter) (o : Act) (d : Deployment b) (c : Choice) :
    Decidable ((wholePages filters : Guard Act (Deployment b) Choice Noise).answer o d c) :=
  inferInstanceAs (Decidable (wholeAnswer filters d.chain o c = true))

instance {Noise : Type} (filters : List Rpc.EventFilter) (d : Deployment b) (x : Noise) :
    Decidable ((wholePages filters : Guard Act (Deployment b) Choice Noise).noise d x) :=
  isTrue trivial

def splitChain : Chain where
  events := [.sample "4-1" "CA" 4, .sample "4-2" "CA" 4, .sample "5-1" "CB" 5, .sample "5-2" "CB" 5]
  tip := 10

def bothContracts : List Rpc.EventFilter :=
  [{ type := "contract", contractIDs := ["CA", "CB"], topics := [] }]

def pagingIngester (limit : Nat) : Ingester :=
  new Codec.verbatim true { Options.zero with pageLimit := limit, reorgConfirmationWindow := 10 }

def splitDeployment (limit : Nat) : Deployment .postgres where
  chain := splitChain
  node := { tables := Tables.empty .postgres, mem := Memory.fresh (pagingIngester limit) }

/-- A watched cycle from a cold start, answered with this page of the chain. -/
def coldCycle (page : GetEventsResponse) (ledgers : List Choice) :
    List (Move Choice (Change .postgres) PageCall) :=
  Move.call (.singlePageWatched bothContracts)
    ([.ok, .ok, .ok, .health ⟨10, 2⟩, .ok, .ok, .ok, .health ⟨10, 2⟩, .page page, .ok, .ok, .ok] ++
      ledgers)

theorem whole_pages_never_diverge_one_page :
    ∃ o k v, (pager .postgres (pagingIngester 5) 1).run (Service.idle (splitDeployment 5))
        (coldCycle ⟨splitChain.events, 10, 2, ""⟩ [.ok, .ok]) = some ⟨.act o k, v⟩ ∧
      ∀ from' to' latest, o ≠ .warn (.fingerprintDivergence from' to' latest) :=
  ⟨_, _, _, rfl, whole_pages_never_diverge (pagingIngester 5) 1 bothContracts (splitDeployment 5) rfl
    (coldCycle ⟨splitChain.events, 10, 2, ""⟩ [.ok, .ok]) _ _ _
    (Service.Along.of_check (by decide)) rfl⟩

/-- A first page of three events ends inside ledger 5, the next cycle reads that ledger again
from its start, and the two fingerprints differ. -/
theorem split_ledger_announced_diverged :
    ∃ ms k v, (pager .postgres (pagingIngester 3) 1).run (Service.idle (splitDeployment 3)) ms =
      some ⟨.act (.warn (.fingerprintDivergence 5 5 10)) k, v⟩ :=
  ⟨coldCycle ⟨splitChain.events.take 3, 10, 2, ""⟩ [.ok, .ok, .order ["CA", "CB"], .ok, .ok] ++
    Move.call (.singlePageWatched bothContracts)
      [.ok, .ok, .page ⟨splitChain.events.drop 2, 10, 2, ""⟩, .ok, .ok, .ok, .ok, .ok], _, _, rfl⟩

end SoroTrail.Ingest
