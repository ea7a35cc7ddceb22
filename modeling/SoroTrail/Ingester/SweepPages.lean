import SoroTrail.Ingester.Calm
import SoroTrail.Ingester.Collect

/-!
# The goroutines of a window sweep

A goroutine pages its batch through the window.  Requests with a cursor carry no
range, so its last page may reach past the end of the window, and what it fetches
there counts against the cycle's budget too.  With a share of the budget that
covers both, a goroutine stores every event of its window and never meets the cap.
-/

set_option autoImplicit false

namespace SoroTrail.Ingest

open Lib Rpc Store List Keyset Sys.Owns

/-! ## Pages -/

section Pages

variable {ing : Ingester} {chain : Chain} {batch : List Rpc.EventFilter} {start stop : Nat}
  {cursor : String}

def pendingAt (chain : Chain) (batch : List Rpc.EventFilter) (start : Nat) (cursor : String) :
    List Rpc.Event :=
  if cursor = "" then fromLedgerOn chain batch start
  else after Rpc.Event.id cursor (fromLedgerOn chain batch start)

theorem fromLedgerOn_split (stop : Nat) :
    upTo stop (fromLedgerOn chain batch start) ++
        (fromLedgerOn chain batch start).filter (fun e => !decide (e.ledger ≤ stop)) =
      fromLedgerOn chain batch start := by
  have hsorted : (fromLedgerOn chain batch start).Pairwise fun x y => x.ledger ≤ y.ledger :=
    chain.ledgers.filter _
  generalize fromLedgerOn chain batch start = es at hsorted
  induction es with
  | nil => rfl
  | cons e es ih =>
    obtain ⟨hfirst, hrest⟩ := pairwise_cons.mp hsorted
    by_cases hle : e.ledger ≤ stop
    · simpa [upTo, hle] using ih hrest
    · have hpast : ∀ x ∈ e :: es, ¬ x.ledger ≤ stop := forall_mem_cons.mpr
        ⟨hle, fun x hx hxle => hle ((hfirst x hx).trans hxle)⟩
      rw [upTo, filter_eq_nil_iff.mpr (by simpa using hpast), nil_append,
        filter_eq_self.mpr (by simpa using hpast)]

structure Paged (chain : Chain) (batch : List Rpc.EventFilter) (start stop : Nat)
    (cursor : String) (limit : Nat) (page later : List Rpc.Event) : Prop where
  pending : pendingAt chain batch start cursor = page ++ later
  length_le : page.length ≤ limit
  short : page.length < limit → upTo stop later = []
  next : ∀ last, page.getLast? = some last → pendingAt chain batch start last.id = later

variable {limit : Nat} {later page : List Rpc.Event}

theorem pendingAt_subset {e : Rpc.Event} (h : e ∈ pendingAt chain batch start cursor) :
    e ∈ fromLedgerOn chain batch start ∧ (cursor ≠ "" → cursor < e.id) := by
  unfold pendingAt at h
  split at h
  · rename_i hcursor
    exact ⟨h, absurd hcursor⟩
  · exact ⟨(mem_after.mp h).1, fun _ => (mem_after.mp h).2⟩

variable {last : Rpc.Event}

theorem pendingAt_next (h : last ∈ pendingAt chain batch start cursor) :
    pendingAt chain batch start last.id =
      after Rpc.Event.id last.id (pendingAt chain batch start cursor) := by
  obtain ⟨hmem, hlt⟩ := pendingAt_subset h
  rw [pendingAt, if_neg (chain.id_ne last (mem_fromLedgerOn.mp hmem).1), pendingAt]
  split
  · rfl
  · rename_i hne
    exact (after_after (hlt hne).le _).symm

theorem pendingAt_ascending :
    Ascending Rpc.Event.id (pendingAt chain batch start cursor) := by
  unfold pendingAt
  split
  · exact fromLedgerOn_ascending
  · exact fromLedgerOn_ascending.after cursor

/-- The first page is cut at the end of the window, the later ones are not. -/
theorem page_of_serves (hstop : stop < 2 ^ 32) (hcursor : RangeCursor chain batch start cursor)
    {resp : GetEventsResponse}
    (h : chain.serves { rangeRequest ing start stop batch cursor with limit := limit } resp = true) :
    ∃ es past, resp.events = es.take limit ∧ pendingAt chain batch start cursor = es ++ past ∧
      upTo stop past = [] := by
  obtain ⟨hevents, -, -⟩ := Chain.serves_iff.mp h
  rcases hcursor with rfl | ⟨x, hx, rfl⟩
  · have hmatching : chain.matching (rangeRequest ing start stop batch "") =
        upTo stop (fromLedgerOn chain batch start) := matching_first hstop
    exact ⟨_, _, by rw [hevents, ← hmatching]; rfl, (fromLedgerOn_split stop).symm, by simp [upTo]⟩
  · have hmatching : chain.matching (rangeRequest ing start stop batch x.id) =
        after Rpc.Event.id x.id (fromLedgerOn chain batch start) := matching_next hx
    exact ⟨_, [], by rw [hevents, ← hmatching]; rfl,
      (if_neg (chain.id_ne x (mem_fromLedgerOn.mp hx).1)).trans (append_nil _).symm, rfl⟩

theorem paged_of_serves (hstop : stop < 2 ^ 32) (hcursor : RangeCursor chain batch start cursor)
    {resp : GetEventsResponse}
    (h : chain.serves { rangeRequest ing start stop batch cursor with limit := limit } resp = true) :
    ∃ later, Paged chain batch start stop cursor limit resp.events later := by
  obtain ⟨es, past, hpage, hpending, hpast⟩ := page_of_serves hstop hcursor h
  have hsplit : pendingAt chain batch start cursor = resp.events ++ (es.drop limit ++ past) := by
    rw [hpending, hpage, ← append_assoc, take_append_drop]
  refine ⟨_, hsplit, ?_, ?_, ?_⟩
  · rw [hpage]
    exact length_take_le _ _
  · intro hshort
    rw [hpage, length_take] at hshort
    rw [drop_eq_nil_of_le (by omega), nil_append, hpast]
  · intro last hlast
    have hasc : Ascending Rpc.Event.id (pendingAt chain batch start cursor) :=
      pendingAt_ascending
    rw [pendingAt_next (hsplit ▸ mem_append_left _ (mem_of_getLast? hlast))]
    rw [hsplit] at hasc ⊢
    exact after_getLast hasc hlast

theorem pendingAt_sorted :
    (pendingAt chain batch start cursor).Pairwise fun x y => x.ledger ≤ y.ledger := by
  unfold pendingAt
  split
  · exact chain.ledgers.filter _
  · exact (chain.ledgers.filter _).filter _

section

variable (h : Paged chain batch start stop cursor limit page later)
include h

theorem Paged.sorted :
    (page ++ later).Pairwise fun x y => x.ledger ≤ y.ledger :=
  h.pending ▸ pendingAt_sorted

theorem Paged.le_last (hlast : page.getLast? = some last)
    {e : Rpc.Event} (he : e ∈ page) : e.ledger ≤ last.ledger := by
  obtain ⟨init, rfl⟩ := List.getLast?_eq_some_iff.mp hlast
  have hsorted := (pairwise_append.mp h.sorted).1
  rcases mem_append.mp he with he | he
  · exact (pairwise_append.mp hsorted).2.2 e he last (mem_singleton_self last)
  · rw [mem_singleton.mp he]

theorem Paged.past
    (hlast : page.getLast? = some last) (hpast : stop < last.ledger) : upTo stop later = [] := by
  rw [upTo, filter_eq_nil_iff]
  intro e he
  have := (pairwise_append.mp h.sorted).2.2 last (mem_of_getLast? hlast) e he
  simp only [decide_eq_true_eq]
  omega

end

/-- What a goroutine may fetch of these events: those of the window, and at most a page more. -/
def need (ing : Ingester) (stop : Nat) (events : List Rpc.Event) : Nat :=
  min ((upTo stop events).length + ing.opts.pageLimit) events.length

theorem length_le_need (hlimit : limit ≤ ing.opts.pageLimit) (hlen : page.length ≤ limit) :
    page.length ≤ need ing stop (page ++ later) := by
  simp only [need, length_append]
  omega

theorem need_append (hin : ∀ e ∈ page, e.ledger ≤ stop) :
    need ing stop (page ++ later) = page.length + need ing stop later := by
  have hall : upTo stop page = page := by
    rw [upTo, filter_eq_self]
    intro e he
    simpa using hin e he
  have hupTo : upTo stop (page ++ later) = page ++ upTo stop later := by
    conv_rhs => rw [← hall]
    exact filter_append _ _
  simp only [need, hupTo, length_append]
  omega

end Pages

/-! ## One goroutine -/

section Goroutine

variable {b : Backend} {c : Unfailing} {ing : Ingester} {chain : Chain}
  {batch : List Rpc.EventFilter} {start stop : Nat}

def WindowHeld (ing : Ingester) (stop : Nat) (events : List Rpc.Event) (n : Node b) : Prop :=
  Holds (idsOf ((upTo stop events).filterMap (decodedRow ing))) n

variable {events : List Rpc.Event}

theorem WindowHeld.sweeps {n n' : Node b} (h : WindowHeld ing stop events n) (hs : Sweeps n n') :
    WindowHeld ing stop events n' :=
  Holds.sweeps h hs

theorem WindowHeld.append {page later : List Rpc.Event} {n : Node b}
    (hpage : Holds (idsOf (page.filterMap (decodedRow ing))) n)
    (hlater : WindowHeld ing stop later n) : WindowHeld ing stop (page ++ later) n := by
  intro id hid
  obtain ⟨ev, hev, rfl⟩ := mem_map.mp hid
  obtain ⟨re, hre, hrow⟩ := mem_filterMap.mp hev
  obtain ⟨hin, hle⟩ := mem_filter.mp hre
  rcases mem_append.mp hin with hin | hin
  · exact hpage ev.id (mem_map_of_mem (mem_filterMap.mpr ⟨re, hin, hrow⟩))
  · exact hlater ev.id (mem_map_of_mem
      (mem_filterMap.mpr ⟨re, mem_filter.mpr ⟨hin, hle⟩, hrow⟩))

theorem windowHeld_of_nil {n : Node b} (h : upTo stop events = []) :
    WindowHeld ing stop events n := by
  unfold WindowHeld
  rw [h]
  exact fun id hid => absurd hid not_mem_nil

/-- How a goroutine ends: without an error, with the events of its window stored. -/
def Swept (ing : Ingester) (stop : Nat) (events : List Rpc.Event) (r : Except Err Unit)
    (_ : Nat) (n : Node b) : Prop :=
  r = .ok () ∧ WindowHeld ing stop events n

/-- A goroutine with what it needs of the budget sweeps its window, in `n` requests and eleven more
for every event. -/
def SweepsWithin (c : Unfailing) (ing : Ingester) (chain : Chain) (stop : Nat)
    (events : List Rpc.Event) (n : Nat) (p : M Unit) (w : Node b) : Prop :=
  (sweepSys c ing chain).Owns (Within chain.tip) (Swept ing stop events) (11 * events.length + n)
    (need ing stop events) p w

theorem swept_ret {n spend : Nat} {w : Node b} (h : WindowHeld ing stop events w) :
    (sweepSys c ing chain).Owns (Within chain.tip) (Swept ing stop events) n spend
      (pure () : M Unit) w :=
  fun _ hu => ⟨rfl, h.sweeps (sweeps_of_drifts c ing chain hu)⟩

variable (hdry : ing.opts.dryRun = false) (hstop : stop ≤ chain.tip)
  (hdigest : ∀ e ∈ fromLedgerOn chain batch start, Digests ing e)
include hdry hstop hdigest

theorem sweepPage_owns (fuel : Nat) {cursor : String}
    (hcursor : RangeCursor chain batch start cursor) {limit : Nat} (hpos : 0 < limit)
    (hlimit : limit ≤ ing.opts.pageLimit) (continueAt : String → M Unit)
    (hnext : ∀ last ∈ pendingAt chain batch start cursor, ∀ u : Node b,
      (pendingAt chain batch start last.id).length < (pendingAt chain batch start cursor).length →
      SweepsWithin c ing chain stop (pendingAt chain batch start last.id) 4 (continueAt last.id) u)
    (w : Node b) :
    SweepsWithin c ing chain stop (pendingAt chain batch start cursor) 3
      (sweepPage ing fuel start stop batch cursor limit continueAt) w := by
  unfold SweepsWithin sweepPage
  rw [Fallible.attempt_bind]
  refine owns_act ?_ ?_
  · rintro v a u ⟨rfl, -⟩
    exact ⟨Sweeps.refl u, rfl⟩
  rintro v a u - ⟨rfl, resp, rfl, hserves⟩
  have hbound : stop < 2 ^ 32 := by
    have := chain.tip_lt
    omega
  have hserved : chain.serves { rangeRequest ing start stop batch cursor with limit := limit } resp =
      true := hserves
  obtain ⟨later, hpaged⟩ := paged_of_serves hbound hcursor hserved
  have hpending := hpaged.pending
  have hchain : ∀ e ∈ resp.events, e ∈ fromLedgerOn chain batch start := by
    intro e he
    exact (pendingAt_subset (hpending ▸ mem_append_left _ he)).1
  have hmem : ∀ e ∈ resp.events, e ∈ chain.events :=
    fun e he => (mem_fromLedgerOn.mp (hchain e he)).1
  have hlen : resp.events.length ≤ need ing stop (pendingAt chain batch start cursor) := by
    rw [hpending]
    exact length_le_need hlimit hpaged.length_le
  have htotal : (pendingAt chain batch start cursor).length =
      resp.events.length + later.length := by
    rw [hpending, length_append]
  refine (andThen (post (persistEvents_ends hdry fuel resp.events
    resp.latestLedger hmem fun e he => hdigest e (hchain e he)) ?_)).more
    (show 7 * resp.events.length + (4 * resp.events.length + 11 * later.length + 1 + 1) ≤ _ by omega)
  rintro r spend u ⟨rfl, a, rfl, hheld⟩
  refine ⟨a, rfl, ?_⟩
  -- what was fetched is taken from the budget, and from the goroutine's share
  refine owns_memory (need ing stop (pendingAt chain batch start cursor) - resp.events.length) ?_ ?_
  · intro v others hv
    refine ⟨hv.tracker, hv.capHit, ?_⟩
    intro r hr
    obtain ⟨left, hleft, rfl⟩ := Option.map_eq_some_iff.mp hr
    have := hv.remaining left hleft
    omega
  intro v others hv _
  generalize hnode : ({ v with mem := { v.mem with sweep := { v.mem.sweep with
    remaining := v.mem.sweep.remaining.map fun r => r - (resp.events.length : Int) } } } : Node b) = x
  have hheld' : Holds (idsOf (resp.events.filterMap (decodedRow ing))) x := by
    subst hnode
    exact hheld.sweeps ⟨hv.events, hv.watchedContracts⟩
  have hended : upTo stop later = [] →
      WindowHeld ing stop (pendingAt chain batch start cursor) x := by
    intro hnil
    rw [hpending]
    exact WindowHeld.append hheld' (windowHeld_of_nil hnil)
  cases hlast : resp.events.getLast? with
  | none =>
    have hnil : resp.events = [] := List.getLast?_eq_none_iff.mp hlast
    refine swept_ret (hended (hpaged.short ?_))
    rw [hnil]
    exact hpos
  | some last =>
    have hin : last ∈ resp.events := mem_of_getLast? hlast
    have hresume := Chain.resume_eq hlast (hmem last hin) (Chain.serves_iff.mp hserved).2.1
    have hnew : last.id ≠ cursor := by
      rintro rfl
      have hlt := (pendingAt_subset (hpending ▸ mem_append_left _ hin)).2
        (chain.id_ne last (hmem last hin))
      exact lt_irrefl _ hlt
    dsimp only
    rw [hresume]
    by_cases hdone : stop < last.ledger ∨ (resp.events.length < limit ∧ resp.cursor = "") ∨
        last.id = cursor
    · rw [if_pos hdone]
      refine swept_ret (hended ?_)
      rcases hdone with hpast | ⟨hshort, -⟩ | hsame
      · exact hpaged.past hlast hpast
      · exact hpaged.short hshort
      · exact absurd hsame hnew
    rw [if_neg hdone]
    have hpage_pos : 0 < resp.events.length := length_pos_of_mem hin
    have hinside : ∀ e ∈ resp.events, e.ledger ≤ stop := by
      intro e he
      have := hpaged.le_last hlast he
      omega
    have hlater := hpaged.next last hlast
    refine owns_act ?_ ?_
    · intro v' a u' hu'
      obtain ⟨-, rfl⟩ := Prod.mk.inj hu'
      exact ⟨Sweeps.refl u', rfl⟩
    intro v' a u' hv' hu'
    obtain ⟨rfl, rfl⟩ := Prod.mk.inj hu'
    have hrest := hnext last (hpending ▸ mem_append_left _ hin) u' (by rw [hlater]; omega)
    rw [hlater] at hrest
    rw [hpending, need_append hinside, Nat.add_sub_cancel_left]
    refine (frame hrest .refl).mono (by omega) ?_
    rintro r spend u'' ⟨⟨hr, hwindow⟩, hdrifts⟩
    have hsweeps := sweeps_of_drifts c ing chain hdrifts
    exact ⟨hr, WindowHeld.append (hheld'.sweeps (hv'.trans hsweeps)) hwindow⟩

/-- A goroutine that owns its need of the budget stores the events of its window, within a
number of requests that depends on what its batch holds. -/
theorem sweepBatch_owns (fuel turns : Nat) {cursor : String}
    (hcursor : RangeCursor chain batch start cursor)
    (hturns : (pendingAt chain batch start cursor).length < turns) (w : Node b) :
    SweepsWithin c ing chain stop (pendingAt chain batch start cursor) 4
      (sweepBatch ing fuel start stop batch turns cursor) w := by
  induction turns generalizing cursor w with
  | zero => omega
  | succ turns ih =>
    have hpage : ∀ limit, 0 < limit → limit ≤ ing.opts.pageLimit → ∀ u : Node b,
        SweepsWithin c ing chain stop (pendingAt chain batch start cursor) 3
          (sweepPage ing fuel start stop batch cursor limit
            (sweepBatch ing fuel start stop batch turns)) u := by
      intro limit hpos hlimit
      refine sweepPage_owns hdry hstop hdigest fuel hcursor hpos hlimit _ ?_
      intro last hlast u hshorter
      exact ih (.inr ⟨last, (pendingAt_subset hlast).1, rfl⟩) (by omega) u
    refine owns_memory _ (fun v others hv => hv) ?_
    intro v others _ hv
    have hlimit := ing.pageLimit_pos
    dsimp only [Prog.bind, Fallible.andThen]
    split
    · rename_i left hleft
      have := hv.remaining left hleft
      rw [if_neg (by omega)]
      exact hpage _ (by omega) (by omega) _
    · exact hpage _ hlimit le_rfl _

end Goroutine

end SoroTrail.Ingest
