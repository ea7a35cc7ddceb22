import SoroTrail.Lib.Keyset
import SoroTrail.Rpc.Types

/-!
# The chain behind the RPC

What an RPC server has to serve: events in the order of their ids, which refines
the order of their ledgers.  A request is answered with the first `limit` events
it asks for; a chain grows at its tip.
-/

set_option autoImplicit false

namespace SoroTrail.Rpc

open Lib List Keyset

structure Chain where
  events : List Event
  tip : Nat
  ascending : Ascending Event.id events := by unfold Keyset.Ascending; decide
  ledgers : events.Pairwise fun x y => x.ledger ≤ y.ledger := by decide
  id_ne : ∀ e ∈ events, e.id ≠ "" := by decide
  token : ∀ e ∈ events, e.pagingToken = "" ∨ e.pagingToken = e.id := by decide
  ledger_pos : ∀ e ∈ events, 0 < e.ledger := by decide
  ledger_le : ∀ e ∈ events, e.ledger ≤ tip := by decide
  tip_lt : tip + 1 < 2 ^ 32 := by decide

/-- A filter without topics, which is the only kind the ingester sends. -/
def EventFilter.accepts (f : EventFilter) (e : Event) : Bool :=
  decide ((f.type = "" ∨ f.type = e.type) ∧ (f.contractIDs = [] ∨ e.contractID ∈ f.contractIDs))

def accepted (filters : List EventFilter) (e : Event) : Bool :=
  filters.isEmpty || filters.any fun f => f.accepts e

/-- The position a request asks for: past its cursor, or its ledger range. -/
def GetEventsRequest.reaches (req : GetEventsRequest) (e : Event) : Bool :=
  if req.cursor ≠ "" then decide (req.cursor < e.id)
  else decide (req.startLedger ≤ e.ledger ∧ (req.endLedger = 0 ∨ e.ledger < req.endLedger))

namespace Chain

def matching (c : Chain) (req : GetEventsRequest) : List Event :=
  c.events.filter fun e => accepted req.filters e && req.reaches e

def page (c : Chain) (req : GetEventsRequest) : List Event :=
  (c.matching req).take req.limit

/-- A resume cursor for a page: none, or the id of its last event. -/
def cursorFor (events : List Event) (cursor : String) : Bool :=
  decide (cursor = "") || events.getLast?.any fun last => decide (cursor = last.id)

def serves (c : Chain) (req : GetEventsRequest) (resp : GetEventsResponse) : Bool :=
  decide (resp.events = c.page req) && cursorFor resp.events resp.cursor &&
    decide (resp.latestLedger = c.tip)

variable {c : Chain} {req : GetEventsRequest} {e : Event}

theorem serves_iff {resp : GetEventsResponse} :
    c.serves req resp = true ↔
      resp.events = c.page req ∧ cursorFor resp.events resp.cursor = true ∧
        resp.latestLedger = c.tip := by
  simp [serves, and_assoc]

theorem mem_matching :
    e ∈ c.matching req ↔ e ∈ c.events ∧ accepted req.filters e = true ∧ req.reaches e = true := by
  simp [matching]

theorem mem_page (h : e ∈ c.page req) :
    e ∈ c.events ∧ accepted req.filters e = true ∧ req.reaches e = true :=
  mem_matching.mp (mem_of_mem_take h)

theorem eq_of_id {x y : Event} (hx : x ∈ c.events) (hy : y ∈ c.events) (h : x.id = y.id) :
    x = y :=
  c.ascending.eq_of_key hx hy h

theorem matching_ascending (c : Chain) (req : GetEventsRequest) :
    Ascending Event.id (c.matching req) :=
  c.ascending.filter _

theorem cursorValue_eq (h : e ∈ c.events) : e.cursorValue = e.id := by
  unfold Event.cursorValue
  rcases c.token e h with ht | ht
  · simp [ht]
  · by_cases hne : e.pagingToken = ""
    · simp [hne]
    · simp [ht]

theorem resume_eq {events : List Event} {cursor : String} {last : Event}
    (hlast : events.getLast? = some last) (hmem : last ∈ c.events)
    (hcursor : cursorFor events cursor = true) :
    (if cursor = "" then last.cursorValue else cursor) = last.id := by
  by_cases hne : cursor = ""
  · rw [if_pos hne, cursorValue_eq hmem]
  · simpa [cursorFor, hne, hlast] using hcursor

theorem ledger_le_of_id_lt {x y : Event} (hx : x ∈ c.events) (hy : y ∈ c.events) (h : x.id < y.id) :
    x.ledger ≤ y.ledger := by
  obtain ⟨i, hi, rfl⟩ := getElem_of_mem hx
  obtain ⟨j, hj, rfl⟩ := getElem_of_mem hy
  rcases lt_trichotomy i j with hij | hij | hij
  · exact pairwise_iff_getElem.mp c.ledgers i j hi hj hij
  · subst hij
    exact le_rfl
  · have hlt : c.events[j].id < c.events[i].id :=
      pairwise_iff_getElem.mp c.ascending j i hj hi hij
    exact absurd h (not_lt_of_gt hlt)

/-! ## Growth -/

/-- `c'` is `c` with whole ledgers appended. -/
def Extends (c c' : Chain) : Prop :=
  ∃ new, c'.events = c.events ++ new ∧ c.tip ≤ c'.tip ∧ ∀ e ∈ new, c.tip < e.ledger

theorem Extends.refl (c : Chain) : c.Extends c :=
  ⟨[], (append_nil _).symm, le_rfl, fun e he => by cases he⟩

theorem Extends.trans {c₁ c₂ c₃ : Chain} (h : c₁.Extends c₂) (h' : c₂.Extends c₃) :
    c₁.Extends c₃ := by
  obtain ⟨new, hevents, htip, hnew⟩ := h
  obtain ⟨new', hevents', htip', hnew'⟩ := h'
  refine ⟨new ++ new', by rw [hevents', hevents, append_assoc], htip.trans htip', ?_⟩
  intro e he
  rcases mem_append.mp he with he | he
  · exact hnew e he
  · exact htip.trans_lt (hnew' e he)

def appends (c c' : Chain) : Bool :=
  decide (c.events <+: c'.events) && decide (c.tip ≤ c'.tip) &&
    (c'.events.drop c.events.length).all fun e => decide (c.tip < e.ledger)

variable {c' : Chain}

theorem extends_of_appends (h : c.appends c' = true) : c.Extends c' := by
  simp only [appends, Bool.and_eq_true, decide_eq_true_eq, all_eq_true] at h
  obtain ⟨⟨⟨new, hnew⟩, htip⟩, hall⟩ := h
  rw [← hnew, drop_left] at hall
  exact ⟨new, hnew.symm, htip, hall⟩

theorem Extends.filter_ledger (h : c.Extends c') {l : Nat} (hl : l ≤ c.tip)
    (p : Event → Bool) :
    c'.events.filter (fun e => decide (e.ledger = l) && p e) =
      c.events.filter fun e => decide (e.ledger = l) && p e := by
  obtain ⟨new, hevents, _, hnew⟩ := h
  have hnone : new.filter (fun e => decide (e.ledger = l) && p e) = [] := by
    rw [filter_eq_nil_iff]
    intro e he
    have hlt := hnew e he
    have hne : e.ledger ≠ l := by omega
    simp [hne]
  rw [hevents, filter_append, hnone, append_nil]

theorem Extends.mem (h : c.Extends c') (he : e ∈ c.events) : e ∈ c'.events := by
  obtain ⟨new, hevents, _, _⟩ := h
  rw [hevents]
  exact mem_append_left _ he

theorem Extends.mem_of_le_tip (h : c.Extends c') (he : e ∈ c'.events)
    (hle : e.ledger ≤ c.tip) : e ∈ c.events := by
  obtain ⟨new, hevents, _, hnew⟩ := h
  rw [hevents] at he
  rcases mem_append.mp he with he | he
  · exact he
  · exact absurd (hnew e he) (not_lt_of_ge hle)

end Chain

end SoroTrail.Rpc
