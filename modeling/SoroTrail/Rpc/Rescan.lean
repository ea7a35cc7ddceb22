import SoroTrail.Lib.Steps
import SoroTrail.Rpc.Selection

/-!
# Pages against the events seen before

The history of a failover client is the sequence of accesses to its memory; the
pages of `GetEvents` reach it through `checkAndRecordEvents`.  Beside the memory
the history keeps every event of an accepted page with the provider that served
it, which the memory itself does not: a later page takes the place of an earlier
one.  What a page without a cursor repeats is compared with all of them.
-/

set_option autoImplicit false

namespace SoroTrail.Rpc.Failover

open Lib Function

variable (fc : FailoverClient)

/-! ## Histories -/

structure History where
  client : ClientState
  seen : List ObservedEvent

def History.new : History where
  client := ClientState.new
  seen := []

/-- A page as it reaches `checkAndRecordEvents`, with the order in which the source ranges
over its ledgers. -/
structure Page where
  idx : Nat
  startLedger : Nat
  hasCursor : Bool
  resp : GetEventsResponse
  order : List Nat

inductive Happening where
  | page (p : Page)
  | access (u : Access)

/-- The result of `checkAndRecordEvents` and the memory after it. -/
def Page.checked (p : Page) (s : ClientState) : Option (Option ProviderDivergence × ClientState) :=
  ((session fc).run (checkAndRecordEvents fc p.idx p.startLedger p.hasCursor p.resp)
    { state := s, log := [] } (if p.resp.events = [] then [] else [.order p.order, .ok])).map
    fun r => (r.1, r.2.state)

def Page.Accepted (p : Page) (s : ClientState) : Prop :=
  ∃ s', p.checked fc s = some (none, s')

def Page.observed (p : Page) : List ObservedEvent :=
  p.resp.events.map (buildObservedEvent fc p.idx)

def happen (h : History) : Happening → Option History
  | .page p => (p.checked fc h.client).map fun r =>
    { client := r.2, seen := if r.1 = none then h.seen ++ p.observed fc else h.seen }
  | .access (.checkAndRecord _ _ _ _ _) => none
  | .access u => some { h with client := u.apply fc h.client }

/-! ## What a page has to repeat -/

structure Fields where
  ledger : Nat
  contractID : String
  eventType : String
  txHash : String
  value : String
  topicDigest : String
  valueJSON : String
  topicJSON : String
  deriving DecidableEq, Repr

def ObservedEvent.fields (o : ObservedEvent) : Fields :=
  ⟨o.ledger, o.contractID, o.eventType, o.txHash, o.value, o.topicDigest, o.valueJSON, o.topicJSON⟩

/-- Which of the texts an observation has: the XDR form, the JSON form or both. -/
def ObservedEvent.form (o : ObservedEvent) : List Bool :=
  [o.value = "", o.topicDigest = "", o.valueJSON = "", o.topicJSON = ""]

/-- The ledgers a page without a cursor speaks about: up to its last ledger, or up to the
head when nothing follows it. -/
def Page.Covers (p : Page) (ledger : Nat) : Prop :=
  p.startLedger ≤ ledger ∧
    ((∃ last ∈ p.resp.events.getLast?, ledger < last.ledger) ∨
      (p.resp.cursor = "" ∧ ledger ≤ p.resp.latestLedger))

instance (p : Page) (ledger : Nat) : Decidable (p.Covers ledger) :=
  inferInstanceAs (Decidable (_ ∧ _))

/-- Every event that another provider has served in the range of the page is in it. -/
def Page.OmitsNothing (p : Page) (h : History) : Prop :=
  ∀ o ∈ h.seen, o.providerIdx ≠ p.idx → p.Covers o.ledger →
    ∃ ev ∈ p.resp.events, ev.id = o.id ∧ (buildObservedEvent fc p.idx ev).fields = o.fields

/-! ## What the check can see -/

/-- An event that is remembered comes in the form it is remembered in, and unchanged from
the provider it is remembered from. -/
def Page.Stable (p : Page) (h : History) : Prop :=
  ∀ ev ∈ p.resp.events, ∀ prev ∈ h.client.observedByID ev.id,
    prev.form = (buildObservedEvent fc p.idx ev).form ∧
      (prev.providerIdx = p.idx → prev.fields = (buildObservedEvent fc p.idx ev).fields)

/-- The page has an event of every ledger in its range from which another provider has
served one, and the ledger was not first seen from the page's own provider. -/
def Page.Meets (p : Page) (h : History) : Prop :=
  ∀ o ∈ h.seen, o.providerIdx ≠ p.idx → p.Covers o.ledger →
    o.ledger ∈ pageLedgers p.resp.events ∧
      ∀ prev ∈ h.client.observedByLgr o.ledger, prev.providerIdx ≠ p.idx

def Visible (h : History) : Happening → Prop
  | .page p =>
    (p.resp.events.map Event.id).Nodup ∧ p.Stable fc h ∧ (p.hasCursor = false → p.Meets h)
  | .access _ => True

instance (p : Page) (h : History) : Decidable (p.Stable fc h) :=
  inferInstanceAs (Decidable (∀ ev ∈ p.resp.events, ∀ prev ∈ h.client.observedByID ev.id, _ ∧ (_ → _)))

instance (p : Page) (h : History) : Decidable (p.Meets h) :=
  inferInstanceAs (Decidable (∀ o ∈ h.seen, _ → _ → _ ∧ ∀ prev ∈ h.client.observedByLgr o.ledger, _))

instance (h : History) (m : Happening) : Decidable (Visible fc h m) :=
  match m with
  | .page p => inferInstanceAs (Decidable (_ ∧ p.Stable fc h ∧ (_ → p.Meets h)))
  | .access _ => isTrue trivial

/-! ## One check -/

theorem Page.checked_eq (p : Page) (s : ClientState) :
    p.checked fc s =
      if p.resp.events = [] then some (none, s)
      else if p.order.isPerm (pageLedgers p.resp.events) then
        some (pageDivergence fc s p.idx p.startLedger p.hasCursor p.resp p.order,
          s.checkAndRecord fc p.idx p.startLedger p.hasCursor p.resp p.order)
      else none := by
  by_cases hempty : p.resp.events = []
  · simp only [Page.checked, checkAndRecordEvents, hempty, if_true]
    rfl
  · have hprog : checkAndRecordEvents fc p.idx p.startLedger p.hasCursor p.resp =
        .act (.rangeOrder (pageLedgers p.resp.events)) fun order =>
          .act (.access (.checkAndRecord p.idx p.startLedger p.hasCursor p.resp order)) fun s =>
            .ret (pageDivergence fc s p.idx p.startLedger p.hasCursor p.resp order) :=
      if_neg hempty
    have hexec : (session fc).exec (.rangeOrder (pageLedgers p.resp.events))
        { state := s, log := [] } (.order p.order) =
          if p.order.isPerm (pageLedgers p.resp.events) then
            some (p.order, { state := s, log := [] }) else none := by
      simp only [session, Act.answer]
      split <;> rfl
    rw [Page.checked, if_neg hempty, hprog, Machine.run_act, hexec]
    split <;> rfl

variable {p : Page} {s : ClientState} {events : List Event} {idx : Nat} {id : String} {h : History}

theorem Page.checked_none {s' : ClientState} (h : p.checked fc s = some (none, s')) :
    (p.resp.events = [] ∧ s' = s) ∨
      (p.order.Perm (pageLedgers p.resp.events) ∧
        pageDivergence fc s p.idx p.startLedger p.hasCursor p.resp p.order = none ∧
        s' = s.recordEvents fc p.idx p.resp.events) := by
  rw [Page.checked_eq] at h
  split at h
  · rename_i hempty
    exact .inl ⟨hempty, (congrArg Prod.snd (Option.some.inj h)).symm⟩
  · split at h
    · rename_i hperm
      obtain ⟨hdiv, hs'⟩ := Prod.mk.inj (Option.some.inj h)
      refine .inr ⟨List.isPerm_iff.mp hperm, hdiv, ?_⟩
      rw [← hs', ClientState.checkAndRecord, hdiv]
    · cases h

theorem Page.checked_some {s' : ClientState} {div : ProviderDivergence}
    (h : p.checked fc s = some (some div, s')) :
    s'.observedByID = s.observedByID ∧ s'.observedByLgr = s.observedByLgr := by
  rw [Page.checked_eq] at h
  split at h
  · cases h
  · split at h
    · obtain ⟨hdiv, hs'⟩ := Prod.mk.inj (Option.some.inj h)
      rw [← hs', ClientState.checkAndRecord, hdiv]
      exact ⟨rfl, rfl⟩
    · cases h

theorem eq_of_not_conflict {x y : String} (hform : (x = "") ↔ (y = ""))
    (h : conflict x y = false) : x = y := by
  simp only [conflict, decide_eq_false_iff_not] at h
  by_cases hx : x = ""
  · rw [hx, hform.mp hx]
  · by_contra hne
    exact h ⟨hx, fun hy => hx (hform.mpr hy), hne⟩

theorem passed_of_ite {c : Prop} [Decidable c] {message rest : String} (hmessage : message ≠ "")
    (h : (if c then message else rest) = "") : ¬ c ∧ rest = "" := by
  split at h
  · exact absurd h hmessage
  · rename_i hc
    exact ⟨hc, h⟩

theorem fields_of_compare {prev cur : ObservedEvent} (h : compareObservedEvents prev cur = "")
    (hform : prev.form = cur.form) : prev.fields = cur.fields := by
  simp only [ObservedEvent.form, List.cons.injEq, decide_eq_decide, and_true] at hform
  obtain ⟨hvalue, htopic, hvalueJSON, htopicJSON⟩ := hform
  obtain ⟨hledger, h⟩ := passed_of_ite (by simp) h
  obtain ⟨hcontract, h⟩ := passed_of_ite (by simp) h
  obtain ⟨htype, h⟩ := passed_of_ite (by simp) h
  obtain ⟨htx, h⟩ := passed_of_ite (by simp) h
  obtain ⟨hv, h⟩ := passed_of_ite (by simp) h
  obtain ⟨ht, h⟩ := passed_of_ite (by simp) h
  obtain ⟨hvj, h⟩ := passed_of_ite (by simp) h
  obtain ⟨htj, -⟩ := passed_of_ite (by simp) h
  simp only [ObservedEvent.fields, Fields.mk.injEq]
  exact ⟨not_not.mp hledger, not_not.mp hcontract, not_not.mp htype, not_not.mp htx,
    eq_of_not_conflict hvalue (Bool.eq_false_of_not_eq_true hv),
    eq_of_not_conflict htopic (Bool.eq_false_of_not_eq_true ht),
    eq_of_not_conflict hvalueJSON (Bool.eq_false_of_not_eq_true hvj),
    eq_of_not_conflict htopicJSON (Bool.eq_false_of_not_eq_true htj)⟩

theorem eventDivergence_none {observed : String → Option ObservedEvent}
    (h : eventDivergence fc observed idx events = none) :
    ∀ ev ∈ events, ∀ prev ∈ observed ev.id, prev.providerIdx ≠ idx →
      compareObservedEvents prev (buildObservedEvent fc idx ev) = "" := by
  induction events with
  | nil => simp
  | cons e events ih =>
    intro ev hev prev hprev hother
    simp only [eventDivergence] at h
    rcases List.mem_cons.mp hev with rfl | hev
    · rw [Option.mem_def.mp hprev] at h
      by_contra hreason
      simp [hother, hreason] at h
    · split at h
      · exact ih h ev hev prev hprev hother
      · split at h
        · cases h
        · exact ih h ev hev prev hprev hother

theorem pageDivergence_none {start : Nat} {hasCursor : Bool} {resp : GetEventsResponse}
    {order : List Nat} (h : pageDivergence fc s idx start hasCursor resp order = none) :
    eventDivergence fc s.observedByID idx resp.events = none ∧
      (hasCursor = false → ∀ ledger ∈ order, start ≤ ledger →
        ledgerDivergence fc idx ledger (idsAt resp.events ledger) (s.observedByLgr ledger)
          ((resp.events.getLast?.map Event.ledger).getD 0) resp.cursor = none) := by
  simp only [pageDivergence] at h
  split at h
  · cases h
  · rename_i hevents
    refine ⟨hevents, ?_⟩
    rintro rfl ledger hledger hstart
    simp only [Bool.false_eq_true, if_false, List.findSome?_eq_none_iff] at h
    have hledger := h ledger hledger
    rwa [if_neg (by omega)] at hledger

theorem mem_of_firstMismatch {i : Nat} {got want : List String}
    (h : firstMismatch i got want = none) (hlen : want.length ≤ got.length) :
    ∀ id ∈ want, id ∈ got := by
  induction got generalizing i want with
  | nil =>
    intro id hid
    rw [List.length_nil, Nat.le_zero, List.length_eq_zero_iff] at hlen
    rw [hlen] at hid
    cases hid
  | cons g got ih =>
    cases want with
    | nil => simp
    | cons w want =>
      simp only [firstMismatch] at h
      split at h
      · cases h
      · rename_i heq
        intro id hid
        rcases List.mem_cons.mp hid with rfl | hid
        · exact (not_not.mp heq) ▸ (.head _)
        · exact .tail _ (ih h (Nat.le_of_succ_le_succ hlen) id hid)

/-- A ledger that another provider has served, and that the page is past, is repeated with
every id remembered for it. -/
theorem ledgerDivergence_none {ledger last : Nat} {got : List String}
    {prev : ObservedLedgerPrefix} {cursor : String}
    (h : ledgerDivergence fc idx ledger got (some prev) last cursor = none)
    (hother : prev.providerIdx ≠ idx) (hpast : ledger < last ∨ cursor = "") :
    ∀ id ∈ prev.eventIDs, id ∈ got := by
  intro id hid
  have hne : prev.eventIDs ≠ [] := List.ne_nil_of_mem hid
  simp only [ledgerDivergence, hother, hne, or_self, if_false] at h
  split at h
  · cases h
  · rename_i hfirst
    split at h
    · cases h
    · rename_i hshort
      have hlen : prev.eventIDs.length ≤ got.length := by
        by_contra hlt
        exact hshort ⟨by omega, hpast⟩
      exact mem_of_firstMismatch hfirst hlen id hid

/-! ## What is remembered -/

theorem mem_appendNew {existing ids : List String} :
    id ∈ appendNew existing ids ↔ id ∈ existing ∨ id ∈ ids := by
  induction ids generalizing existing with
  | nil => simp [appendNew]
  | cons i ids ih =>
    have hcons : appendNew existing (i :: ids) =
        appendNew (if i ∈ existing then existing else existing ++ [i]) ids := rfl
    rw [hcons]
    split <;> grind

theorem mem_idsAt {ev : Event} (h : ev ∈ events) : ev.id ∈ idsAt events ev.ledger := by
  simp only [idsAt, List.mem_map, List.mem_filter, decide_eq_true_eq]
  exact ⟨ev, ⟨h, rfl⟩, rfl⟩

theorem exists_of_mem_idsAt {ledger : Nat} (h : id ∈ idsAt events ledger) :
    ∃ ev ∈ events, ev.id = id := by
  simp only [idsAt, List.mem_map, List.mem_filter] at h
  obtain ⟨ev, ⟨hev, -⟩, hid⟩ := h
  exact ⟨ev, hev, hid⟩

theorem recordEvents_other (h : id ∉ events.map Event.id) :
    (s.recordEvents fc idx events).observedByID id = s.observedByID id := by
  simp only [ClientState.recordEvents]
  generalize s.observedByID = seen
  induction events generalizing seen with
  | nil => rfl
  | cons ev events ih =>
    simp only [List.map_cons, List.mem_cons, not_or] at h
    rw [List.foldl_cons, ih h.2, update_of_ne h.1]

theorem recordEvents_self {ev : Event} (hnodup : (events.map Event.id).Nodup) (hev : ev ∈ events) :
    (s.recordEvents fc idx events).observedByID ev.id = some (buildObservedEvent fc idx ev) := by
  induction events generalizing s with
  | nil => cases hev
  | cons e events ih =>
    simp only [List.map_cons, List.nodup_cons] at hnodup
    let seen := update s.observedByID e.id (some (buildObservedEvent fc idx e))
    have hcons : ∀ id, (s.recordEvents fc idx (e :: events)).observedByID id =
        (ClientState.recordEvents fc { s with observedByID := seen } idx events).observedByID id :=
      fun _ => rfl
    rw [hcons]
    rcases List.mem_cons.mp hev with rfl | hev
    · rw [recordEvents_other fc hnodup.1]
      exact update_self ..
    · exact ih hnodup.2 hev

theorem recordEvents_ledger {ledger : Nat} :
    (∃ pre ∈ (s.recordEvents fc idx events).observedByLgr ledger, id ∈ pre.eventIDs) ↔
      (∃ pre ∈ s.observedByLgr ledger, id ∈ pre.eventIDs) ∨ id ∈ idsAt events ledger := by
  simp only [ClientState.recordEvents, Option.mem_def]
  cases hids : idsAt events ledger with
  | nil => simp
  | cons i ids =>
    cases hpre : s.observedByLgr ledger with
    | none => simp
    | some pre => simp [mem_appendNew]

/-- Every event of an accepted page is remembered with its contents, and its id with its
ledger. -/
structure Remembered (h : History) : Prop where
  byID : ∀ o ∈ h.seen, ∃ cur ∈ h.client.observedByID o.id, cur.fields = o.fields
  byLedger : ∀ o ∈ h.seen, ∃ pre ∈ h.client.observedByLgr o.ledger, o.id ∈ pre.eventIDs

theorem remembered_new : Remembered History.new where
  byID := nofun
  byLedger := nofun

theorem Page.agrees
    (hevents : eventDivergence fc h.client.observedByID p.idx p.resp.events = none)
    (hstable : p.Stable fc h) :
    ∀ ev ∈ p.resp.events, ∀ prev ∈ h.client.observedByID ev.id,
      prev.fields = (buildObservedEvent fc p.idx ev).fields := by
  intro ev hev prev hprev
  obtain ⟨hform, hown⟩ := hstable ev hev prev hprev
  by_cases hidx : prev.providerIdx = p.idx
  · exact hown hidx
  · exact fields_of_compare (eventDivergence_none fc hevents ev hev prev hprev hidx) hform

theorem Remembered.record (hrem : Remembered h)
    (hevents : eventDivergence fc h.client.observedByID p.idx p.resp.events = none)
    (hnodup : (p.resp.events.map Event.id).Nodup) (hstable : p.Stable fc h) :
    Remembered { client := h.client.recordEvents fc p.idx p.resp.events
                 seen := h.seen ++ p.observed fc } where
  byID := by
    intro o ho
    rcases List.mem_append.mp ho with ho | ho
    · obtain ⟨cur, hcur, hfields⟩ := hrem.byID o ho
      by_cases hmem : o.id ∈ p.resp.events.map Event.id
      · obtain ⟨ev, hev, hid⟩ := List.mem_map.mp hmem
        rw [← hid] at hcur ⊢
        refine ⟨_, recordEvents_self fc hnodup hev, ?_⟩
        rw [← Page.agrees fc hevents hstable ev hev cur hcur, hfields]
      · exact ⟨cur, (recordEvents_other fc hmem).trans hcur, hfields⟩
    · obtain ⟨ev, hev, rfl⟩ := List.mem_map.mp ho
      exact ⟨_, recordEvents_self fc hnodup hev, rfl⟩
  byLedger := by
    intro o ho
    rw [recordEvents_ledger]
    rcases List.mem_append.mp ho with ho | ho
    · exact .inl (hrem.byLedger o ho)
    · obtain ⟨ev, hev, rfl⟩ := List.mem_map.mp ho
      exact .inr (mem_idsAt hev)

theorem Remembered.of_observed {h' : History} (hrem : Remembered h)
    (hobs : h'.client.observedByID = h.client.observedByID ∧
      h'.client.observedByLgr = h.client.observedByLgr) (hseen : h'.seen = h.seen) :
    Remembered h' where
  byID := by
    rw [hseen, hobs.1]
    exact hrem.byID
  byLedger := by
    rw [hseen, hobs.2]
    exact hrem.byLedger

theorem remembered_happen (h : History) (m : Happening) (h' : History) (hvis : Visible fc h m)
    (hrem : Remembered h) (hstep : happen fc h m = some h') : Remembered h' := by
  cases m with
  | access u =>
    cases u with
    | checkAndRecord idx start hasCursor resp order => cases hstep
    | _ =>
      cases hstep
      exact hrem.of_observed ⟨rfl, rfl⟩ rfl
  | page p =>
    obtain ⟨hnodup, hstable, -⟩ := hvis
    simp only [happen, Option.map_eq_some_iff] at hstep
    obtain ⟨⟨result, s'⟩, hchecked, rfl⟩ := hstep
    cases result with
    | some div => exact hrem.of_observed (Page.checked_some fc hchecked) rfl
    | none =>
      rcases Page.checked_none fc hchecked with ⟨hempty, rfl⟩ | ⟨-, hdiv, rfl⟩
      · simpa [Page.observed, hempty] using hrem
      · exact hrem.record fc (pageDivergence_none fc hdiv).1 hnodup hstable

/-! ## Accepted pages -/

theorem Page.omitsNothing (hrem : Remembered h) (hscan : p.hasCursor = false)
    (hstable : p.Stable fc h) (hmeets : p.Meets h) (hacc : p.Accepted fc h.client) :
    p.OmitsNothing fc h := by
  intro o ho hother hcovers
  obtain ⟨hledger, hfirst⟩ := hmeets o ho hother hcovers
  obtain ⟨s', hchecked⟩ := hacc
  rcases Page.checked_none fc hchecked with ⟨hempty, -⟩ | ⟨hperm, hdiv, -⟩
  · rw [hempty] at hledger
    cases hledger
  · obtain ⟨hevents, hledgers⟩ := pageDivergence_none fc hdiv
    obtain ⟨pre, hpre, hid⟩ := hrem.byLedger o ho
    have hnone := hledgers hscan o.ledger (hperm.mem_iff.mpr hledger) hcovers.1
    rw [Option.mem_def.mp hpre] at hnone
    have hpast : o.ledger < (p.resp.events.getLast?.map Event.ledger).getD 0 ∨
        p.resp.cursor = "" := by
      rcases hcovers.2 with ⟨last, hlast, hlt⟩ | ⟨hcursor, -⟩
      · left
        rw [Option.mem_def.mp hlast]
        exact hlt
      · exact .inr hcursor
    have hgot := ledgerDivergence_none fc hnone (hfirst pre hpre) hpast o.id hid
    obtain ⟨ev, hev, hevid⟩ := exists_of_mem_idsAt hgot
    obtain ⟨cur, hcur, hfields⟩ := hrem.byID o ho
    rw [← hevid] at hcur
    exact ⟨ev, hev, hevid, (Page.agrees fc hevents hstable ev hev cur hcur).symm.trans hfields⟩

/-- In a history whose pages the check can see through, an accepted page without a cursor
omits no event that another provider has served in its range. -/
theorem accepted_rescan_omits_nothing (ms : List Happening) (p : Page) (h : History)
    (halong : Steps.Along (happen fc) (Visible fc) History.new (ms ++ [.page p]))
    (hrun : Steps.run (happen fc) History.new ms = some h) (hscan : p.hasCursor = false)
    (hacc : p.Accepted fc h.client) : p.OmitsNothing fc h := by
  obtain ⟨hbefore, hpage, -⟩ := halong.rest hrun
  have hrem := hbefore.invariant (remembered_happen fc) remembered_new hrun
  exact Page.omitsNothing fc hrem hscan hpage.2.1 (hpage.2.2 hscan) hacc

/-! ## Two providers -/

def twoProviders : FailoverClient where
  providers := [{ url := "a", kind := .plain }, { url := "b", kind := .plain }]
  maxConsecutiveErrors := 3
  probationSuccesses := 2
  headSkewTolerance := 3
  expectedPassphrase := ""
  sha256Hex s := s
  marshalJSON _ := ""

def scanFrom10 (idx : Nat) (cursor : String) (ledgers : List Nat) : Page where
  idx := idx
  startLedger := 10
  hasCursor := false
  resp :=
    { events := ledgers.map fun ledger => Event.sample (toString ledger ++ "-1") "CA" ledger
      latestLedger := 20
      oldestLedger := 1
      cursor := cursor }
  order := ledgers

theorem accepted_rescan_omits_nothing_complete :
    ∃ h, Steps.run (happen twoProviders) History.new [.page (scanFrom10 0 "12-1" [10, 11, 12])] =
        some h ∧
      (scanFrom10 1 "12-1" [10, 11, 12]).Accepted twoProviders h.client ∧
      (scanFrom10 1 "12-1" [10, 11, 12]).OmitsNothing twoProviders h :=
  ⟨_, rfl, ⟨_, rfl⟩, accepted_rescan_omits_nothing twoProviders
    [.page (scanFrom10 0 "12-1" [10, 11, 12])] _ _ (Steps.Along.of_check (by decide +kernel))
    rfl rfl ⟨_, rfl⟩⟩

/-- A provider that skips ledger 11 altogether is accepted, and so is one that has nothing. -/
theorem accepted_rescan_skips_ledger :
    ∃ h, Steps.run (happen twoProviders) History.new [.page (scanFrom10 0 "12-1" [10, 11, 12])] =
        some h ∧
      ((scanFrom10 1 "12-1" [10, 12]).Accepted twoProviders h.client ∧
        ¬ (scanFrom10 1 "12-1" [10, 12]).OmitsNothing twoProviders h) ∧
      ((scanFrom10 1 "" []).Accepted twoProviders h.client ∧
        ¬ (scanFrom10 1 "" []).OmitsNothing twoProviders h) :=
  ⟨_, rfl, ⟨⟨_, rfl⟩, by unfold Page.OmitsNothing; decide +kernel⟩,
    ⟨_, rfl⟩, by unfold Page.OmitsNothing; decide +kernel⟩

end SoroTrail.Rpc.Failover
