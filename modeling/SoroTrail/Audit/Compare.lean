import Mathlib.Data.List.Perm.Subperm
import SoroTrail.Ingester.Collect
import SoroTrail.Lib.Steps

/-!
# Audit passes

`PassOnce` over the stored events and a fresh fetch from the RPC.  Every statement and
every RPC call is a step of its own; in between the chain grows, the RPC forgets old
ledgers, ingestion inserts rows of any network, and the process may stop.  A repair may
leave any table behind.
-/

set_option autoImplicit false

namespace SoroTrail.Audit

open Lib Store List
open Ingest (Wanted filterBatches)

/-- `Options` after `applyDefaults`, and the page limit of the ingester. -/
structure Auditor where
  network : String
  batchLedgers : Nat
  lagThreshold : Nat
  maxRepairAttempts : Nat
  findingMaxLedgers : Nat
  pageLimit : Nat
  pageLimit_pos : 0 < pageLimit

/-- The ledgers of a pass; `oldest` is what the health of the RPC says. -/
def Auditor.window (a : Auditor) (mark ingested oldest : Nat) : Option (Nat × Nat) :=
  let lag : Int := ((ingested : Int) - mark) % 2 ^ 32
  if ingested = 0 ∨ lag < a.lagThreshold then none
  else
    let fromLedger := mark + 1
    if fromLedger > ingested then none
    else
      let toLedger :=
        if ingested - fromLedger + 1 > a.batchLedgers then fromLedger + a.batchLedgers - 1 else ingested
      if oldest > 0 then
        let newest := (oldest + a.lagThreshold) % 2 ^ 32
        if fromLedger ≤ oldest then none
        else if toLedger > newest then
          if newest < fromLedger then none else some (fromLedger, newest)
        else some (fromLedger, toLedger)
      else some (fromLedger, toLedger)

/-! ## Comparing a range -/

def rpcCount (fromLedger toLedger : Nat) (fetched : List Rpc.Event) (l : Nat) : Nat :=
  fetched.countP fun e => decide (fromLedger ≤ e.ledger ∧ e.ledger ≤ toLedger ∧ e.ledger = l)

/-- `LedgerRangeCensus` counts the rows of a ledger, whatever their network. -/
def storedCount (fromLedger toLedger : Nat) (rows : List Event) (l : Nat) : Nat :=
  rows.countP fun e : Event => decide ((fromLedger : Int) ≤ e.ledger ∧ e.ledger ≤ toLedger ∧ e.ledger = l)

def ledgerMatches (stored rpc : Nat) : Bool :=
  if rpc = 0 then decide (stored = 0) else decide (stored = rpc)

/-- The loop over a range until the first ledger that does not match. -/
def verifiedThrough (clean : Nat → Bool) : List Nat → Nat → Nat
  | [], verified => verified
  | l :: rest, verified => if clean l then verifiedThrough clean rest l else verified

def ledgers (fromLedger toLedger : Nat) : List Nat := List.range' fromLedger (toLedger + 1 - fromLedger)

inductive After where
  | finish
  | advance (ledger : Nat)
  | mismatch (fromLedger toLedger : Nat)
  deriving DecidableEq, Repr

/-- `reconcileRange` after the census: the verified ledger, zero if there is none, and the rest. -/
def Auditor.compare (a : Auditor) (fromLedger toLedger : Nat) (fetched : List Rpc.Event)
    (rows : List Event) : Nat × After :=
  let rpc := rpcCount fromLedger toLedger fetched
  let stored := storedCount fromLedger toLedger rows
  let clean l := ledgerMatches (stored l) (rpc l)
  let verified := verifiedThrough clean (ledgers fromLedger toLedger) 0
  if verified ≥ toLedger then (verified, .finish)
  else
    match (ledgers (verified + 1) toLedger).find? fun l => !clean l with
    | none => (verified, .advance toLedger)
    | some mismatchFrom =>
      let mismatchTo :=
        if toLedger - mismatchFrom + 1 > a.findingMaxLedgers then mismatchFrom + a.findingMaxLedgers - 1
        else toLedger
      let cluster := ledgers mismatchFrom mismatchTo
      if (cluster.map rpc).sum = 0 ∧ (cluster.map stored).sum = 0 then (verified, .finish)
      else (verified, .mismatch mismatchFrom mismatchTo)

/-- `clusterIsClean` after its census. -/
def clusterIsClean (fromLedger toLedger : Nat) (fetched : List Rpc.Event) (rows : List Event) : Bool :=
  (ledgers fromLedger toLedger).all fun l =>
    decide (rpcCount fromLedger toLedger fetched l = storedCount fromLedger toLedger rows l)

/-! ## Passes -/

inductive Task where
  | scan
  | recheck (attempts : Nat)
  deriving DecidableEq, Repr

inductive Phase where
  | idle
  | loaded (mark : Nat)
  | informed (mark ingested : Nat)
  | building (task : Task) (fromLedger toLedger : Nat)
  | fetching (task : Task) (fromLedger toLedger : Nat) (batches : List (List Rpc.EventFilter))
      (cursor : String) (fetched : List Rpc.Event)
  | counting (task : Task) (fromLedger toLedger : Nat) (fetched : List Rpc.Event)
  | saving (ledger : Nat) (next : After)
  | recording (fromLedger toLedger : Nat)
  | repairing (fromLedger toLedger attempts : Nat)
  deriving DecidableEq, Repr

structure State where
  events : Table Event (eventKey .postgres)
  /-- `verified_through_ledger` of the network; zero before the first pass. -/
  mark : Nat
  ingested : Nat
  chain : Rpc.Chain
  oldest : Nat
  watched : List String
  phase : Phase

def State.rows (s : State) : List Event := s.events.rows

def State.goto (s : State) (phase : Phase) : State := { s with phase := phase }

def Auditor.request (a : Auditor) (fromLedger toLedger : Nat) (batch : List Rpc.EventFilter)
    (cursor : String) : Rpc.GetEventsRequest where
  startLedger := fromLedger
  endLedger := toLedger + 1
  filters := batch
  cursor := cursor
  limit := a.pageLimit
  xdrFormat := ""

/-- What the RPC may answer a request with: the page, as far as it still holds its ledgers. -/
def State.answers (s : State) (req : Rpc.GetEventsRequest) (resp : Rpc.GetEventsResponse) : Bool :=
  s.chain.serves req resp && decide (req.cursor = "" → s.oldest ≤ req.startLedger) &&
    resp.events.all fun e => decide (s.oldest ≤ e.ledger)

def nextBatch (task : Task) (fromLedger toLedger : Nat) (batches : List (List Rpc.EventFilter))
    (fetched : List Rpc.Event) : Phase :=
  match batches with
  | [] => .counting task fromLedger toLedger fetched
  | _ :: _ => .fetching task fromLedger toLedger batches "" fetched

def Auditor.afterPage (a : Auditor) (task : Task) (fromLedger toLedger : Nat)
    (batch : List Rpc.EventFilter) (rest : List (List Rpc.EventFilter)) (fetched : List Rpc.Event)
    (resp : Rpc.GetEventsResponse) : Phase :=
  let fetched := fetched ++ resp.events.filter fun e => decide (e.ledger ≤ toLedger)
  match resp.events.getLast? with
  | none => nextBatch task fromLedger toLedger rest fetched
  | some last =>
    if resp.events.length < a.pageLimit ∨ last.ledger > toLedger then
      nextBatch task fromLedger toLedger rest fetched
    else
      let cursor := if resp.cursor = "" then last.cursorValue else resp.cursor
      .fetching task fromLedger toLedger (batch :: rest) cursor fetched

def Auditor.giveUp (a : Auditor) (fromLedger toLedger attempts : Nat) : Phase :=
  if attempts ≥ a.maxRepairAttempts then .idle else .repairing fromLedger toLedger attempts

def Auditor.fails (a : Auditor) (fromLedger toLedger : Nat) : Task → Phase
  | .scan => .idle
  | .recheck attempts => a.giveUp fromLedger toLedger attempts

def After.phase : After → Phase
  | .finish => .idle
  | .advance ledger => .saving ledger .finish
  | .mismatch fromLedger toLedger => .recording fromLedger toLedger

def Auditor.counted (a : Auditor) (task : Task) (fromLedger toLedger : Nat) (fetched : List Rpc.Event)
    (rows : List Event) : Phase :=
  match task with
  | .scan =>
    let (verified, next) := a.compare fromLedger toLedger fetched rows
    if verified > 0 then .saving verified next else next.phase
  | .recheck attempts =>
    if clusterIsClean fromLedger toLedger fetched rows then .saving toLedger .finish
    else a.giveUp fromLedger toLedger attempts

inductive Answer where
  | page (resp : Rpc.GetEventsResponse)
  /-- `LedgerOutOfRange`: what has been fetched is taken as the whole range. -/
  | outOfRange
  | error
  deriving DecidableEq, Repr

inductive Repair where
  | ok
  | outOfRange
  | error
  deriving DecidableEq, Repr

inductive Move where
  | auditState (ok : Bool)
  | ingestionState (ok : Bool)
  | health (oldest : Option Nat)
  | filters (ok : Bool)
  | page (answer : Answer)
  | census (ok : Bool)
  | save (ok : Bool)
  | record (ok : Bool)
  | repair (events : Table Event (eventKey .postgres)) (result : Repair)
  | stop
  | grow (chain : Rpc.Chain)
  | forget (oldest : Nat)
  | ingest (rows : List Event) (ingested : Nat)
  | watch (contracts : List String)

def Auditor.step (a : Auditor) (s : State) : Move → Option State
  | .auditState ok =>
    match s.phase with
    | .idle => some (if ok then s.goto (.loaded s.mark) else s)
    | _ => none
  | .ingestionState ok =>
    match s.phase with
    | .loaded mark => some (s.goto (if ok then .informed mark s.ingested else .idle))
    | _ => none
  | .health oldest =>
    match s.phase, oldest with
    | .informed mark ingested, some oldest =>
      match a.window mark ingested oldest with
      | some (fromLedger, toLedger) => some (s.goto (.building .scan fromLedger toLedger))
      | none => some (s.goto .idle)
    | .informed _ _, none => some (s.goto .idle)
    | _, _ => none
  | .filters ok =>
    match s.phase with
    | .building task fromLedger toLedger =>
      some (s.goto (if ok then
        nextBatch task fromLedger toLedger (Ingest.filterBatches s.watched) []
      else a.fails fromLedger toLedger task))
    | _ => none
  | .page answer =>
    match s.phase with
    | .fetching task fromLedger toLedger (batch :: rest) cursor fetched =>
      match answer with
      | .page resp =>
        if s.answers (a.request fromLedger toLedger batch cursor) resp then
          some (s.goto (a.afterPage task fromLedger toLedger batch rest fetched resp))
        else none
      | .outOfRange => some (s.goto (.counting task fromLedger toLedger fetched))
      | .error => some (s.goto (a.fails fromLedger toLedger task))
    | _ => none
  | .census ok =>
    match s.phase with
    | .counting task fromLedger toLedger fetched =>
      some (s.goto (if ok then a.counted task fromLedger toLedger fetched s.rows
      else a.fails fromLedger toLedger task))
    | _ => none
  | .save ok =>
    match s.phase with
    | .saving ledger next =>
      some (if ok then { s with mark := max s.mark ledger, phase := next.phase } else s.goto .idle)
    | _ => none
  | .record ok =>
    match s.phase with
    | .recording fromLedger toLedger =>
      some (s.goto (if ok then .repairing fromLedger toLedger 0 else .idle))
    | _ => none
  | .repair events result =>
    match s.phase with
    | .repairing fromLedger toLedger attempts =>
      let s := { s with events := events }
      match result with
      | .ok => some (s.goto (.building (.recheck (attempts + 1)) fromLedger toLedger))
      | .outOfRange => some (s.goto .idle)
      | .error => some (s.goto (a.giveUp fromLedger toLedger (attempts + 1)))
    | _ => none
  | .stop =>
    match s.phase with
    | .idle => none
    | _ => some (s.goto .idle)
  | .grow chain => if s.chain.appends chain then some { s with chain := chain } else none
  | .forget oldest => if s.oldest ≤ oldest then some { s with oldest := oldest } else none
  | .ingest rows ingested =>
    some { s with events := s.events.insertAll rows, ingested := ingested }
  | .watch contracts => some { s with watched := contracts }

/-!
# What a comparison finds

A pass compares the number of stored rows of a ledger with the number of events that were
fetched for it.  When the fetch holds every event of the ledger, a ledger that matches has
at least as many rows as events; when its rows are all of the network and of events the
RPC holds, they are those events.
-/

instance (ids : List String) (e : Rpc.Event) : Decidable (Wanted ids e) :=
  inferInstanceAs (Decidable (_ ∧ _))

def State.held (s : State) (l : Nat) : List Rpc.Event :=
  s.chain.events.filter fun e => decide (e.ledger = l) && decide (Wanted s.watched e)

def State.stored (s : State) (l : Nat) : List Event := s.rows.filter fun r => decide (r.ledger = (l : Int))

def Enough (s : State) (l : Nat) : Prop := (s.held l).length ≤ (s.stored l).length

variable {a : Auditor} {s s' : State} {fromLedger toLedger l n : Nat} {fetched : List Rpc.Event}

theorem mem_held {e : Rpc.Event} :
    e ∈ s.held l ↔ e ∈ s.chain.events ∧ e.ledger = l ∧ Wanted s.watched e := by
  simp [State.held]

theorem mem_stored {r : Event} : r ∈ s.stored l ↔ r ∈ s.rows ∧ r.ledger = l := by
  simp [State.stored]

theorem held_ids_nodup (s : State) (l : Nat) : ((s.held l).map Rpc.Event.id).Nodup :=
  pairwise_map.mpr ((s.chain.ascending.filter _).imp ne_of_lt)

theorem held_nodup (s : State) (l : Nat) : (s.held l).Nodup := (held_ids_nodup s l).of_map

/-! ## Counting -/

def Complete (s : State) (fromLedger toLedger : Nat) (fetched : List Rpc.Event) : Prop :=
  ∀ e ∈ s.chain.events, fromLedger ≤ e.ledger → e.ledger ≤ toLedger → Wanted s.watched e → e ∈ fetched

theorem Complete.enough (h : Complete s fromLedger toLedger fetched) (hfrom : fromLedger ≤ l)
    (hto : l ≤ toLedger)
    (hcount : storedCount fromLedger toLedger s.rows l = rpcCount fromLedger toLedger fetched l) :
    Enough s l := by
  have hheld : (s.held l).length ≤ rpcCount fromLedger toLedger fetched l := by
    rw [rpcCount, countP_eq_length_filter]
    refine ((held_nodup s l).subperm fun e he => ?_).length_le
    obtain ⟨hmem, rfl, hwanted⟩ := mem_held.mp he
    exact mem_filter.mpr ⟨h e hmem hfrom hto hwanted, by simp [hfrom, hto]⟩
  have hstored : storedCount fromLedger toLedger s.rows l ≤ (s.stored l).length := by
    rw [State.stored, ← countP_eq_length_filter]
    exact countP_mono_left fun r _ hr => by simp_all
  rw [Enough]
  omega

theorem ledgerMatches_iff (stored rpc : Nat) : ledgerMatches stored rpc = true ↔ stored = rpc := by
  rw [ledgerMatches]
  split
  · rename_i hzero
    simp [hzero]
  · simp

theorem stored_iff_held {network : String} (henough : Enough s l)
    (honly : ∀ r ∈ s.stored l, r.network = network ∧ ∃ e ∈ s.held l, e.id = r.id) (id : String) :
    (∃ r ∈ s.rows, r.network = network ∧ r.ledger = l ∧ r.id = id) ↔ ∃ e ∈ s.held l, e.id = id := by
  have hnodup : ((s.stored l).map Event.id).Nodup := by
    have hkeys : ((s.stored l).map (eventKey .postgres)).Nodup :=
      s.events.nodup.sublist (filter_sublist.map _)
    refine List.Nodup.map_on (fun x hx y hy hid => ?_) hkeys.of_map
    refine Table.eq_of_key (mem_stored.mp hx).1 (mem_stored.mp hy).1 ?_
    simp [eventKey, (honly x hx).1, (honly y hy).1, (mem_stored.mp hx).2, (mem_stored.mp hy).2, hid]
  have hsub : (s.stored l).map Event.id ⊆ (s.held l).map Rpc.Event.id := by
    intro x hx
    obtain ⟨r, hr, rfl⟩ := mem_map.mp hx
    obtain ⟨e, he, hid⟩ := (honly r hr).2
    exact mem_map.mpr ⟨e, he, hid⟩
  have hperm : ((s.stored l).map Event.id).Perm ((s.held l).map Rpc.Event.id) :=
    (hnodup.subperm hsub).perm_of_length_le (by simpa [Enough] using henough)
  constructor
  · rintro ⟨r, hr, _, hledger, rfl⟩
    exact (honly r (mem_stored.mpr ⟨hr, hledger⟩)).2
  · rintro ⟨e, he, rfl⟩
    obtain ⟨r, hr, hid⟩ := mem_map.mp (hperm.mem_iff.mpr (mem_map_of_mem he))
    exact ⟨r, (mem_stored.mp hr).1, (honly r hr).1, (mem_stored.mp hr).2, hid⟩

/-! ## Comparing -/

/-- The loop stops behind the first `k` ledgers, the clean ones. -/
theorem verifiedThrough_range (clean : Nat → Bool) (fromLedger n verified : Nat) :
    ∃ k ≤ n, (∀ l, fromLedger ≤ l → l < fromLedger + k → clean l = true) ∧
      (k = n ∨ clean (fromLedger + k) = false) ∧
      verifiedThrough clean (List.range' fromLedger n) verified =
        if k = 0 then verified else fromLedger + k - 1 := by
  induction n generalizing fromLedger verified with
  | zero => exact ⟨0, le_rfl, fun l hlo hhi => by omega, .inl rfl, rfl⟩
  | succ n ih =>
    rw [range'_succ]
    cases hclean : clean fromLedger with
    | false =>
      refine ⟨0, Nat.zero_le _, fun l hlo hhi => by omega, .inr hclean, ?_⟩
      simp [verifiedThrough, hclean]
    | true =>
      obtain ⟨k, hk, hall, hstop, heq⟩ := ih (fromLedger + 1) fromLedger
      refine ⟨k + 1, by omega, fun l hlo hhi => ?_, ?_, ?_⟩
      · by_cases hfirst : l = fromLedger
        · exact hfirst ▸ hclean
        · exact hall l (by omega) (by omega)
      · rcases hstop with hstop | hstop
        · exact .inl (by omega)
        · exact .inr (by rw [← hstop]; congr 1; omega)
      · rw [verifiedThrough, if_pos hclean, heq]
        split <;> split <;> omega

/-- What `compare` finds about a range that was fetched completely. -/
structure Compared (s : State) (fromLedger toLedger verified : Nat) (next : After) : Prop where
  clean : ∀ l, fromLedger ≤ l → l ≤ verified → Enough s l
  upper : verified ≤ toLedger
  lower : 0 < verified → fromLedger ≤ verified
  advance : ∀ ledger, next = .advance ledger →
    ledger = toLedger ∧ ∀ l, fromLedger ≤ l → l ≤ toLedger → Enough s l
  mismatch : ∀ mismatchFrom mismatchTo, next = .mismatch mismatchFrom mismatchTo →
    mismatchFrom = (if verified = 0 then fromLedger else verified + 1) ∧ mismatchTo ≤ toLedger

theorem counts_outside {rows : List Event} (hout : l < fromLedger) :
    ledgerMatches (storedCount fromLedger toLedger rows l) (rpcCount fromLedger toLedger fetched l) = true := by
  have hstored : storedCount fromLedger toLedger rows l = 0 := by
    rw [storedCount, countP_eq_zero]
    simp only [decide_eq_true_eq]
    omega
  have hrpc : rpcCount fromLedger toLedger fetched l = 0 := by
    rw [rpcCount, countP_eq_zero]
    simp only [decide_eq_true_eq]
    omega
  rw [hstored, hrpc]
  rfl

theorem compare_spec (hpos : 0 < fromLedger)
    (h : Complete s fromLedger toLedger fetched) :
    Compared s fromLedger toLedger (a.compare fromLedger toLedger fetched s.rows).1
      (a.compare fromLedger toLedger fetched s.rows).2 := by
  simp only [Auditor.compare]
  generalize hclean : (fun l => ledgerMatches (storedCount fromLedger toLedger s.rows l)
    (rpcCount fromLedger toLedger fetched l)) = clean
  have houtside : ∀ l, l < fromLedger → clean l = true := by
    intro l hl
    rw [← hclean]
    exact counts_outside hl
  have henough : ∀ l, fromLedger ≤ l → l ≤ toLedger → clean l = true → Enough s l := by
    intro l hlo hhi hmatch
    rw [← hclean] at hmatch
    exact h.enough hlo hhi ((ledgerMatches_iff _ _).mp hmatch)
  obtain ⟨k, hk, hall, hstop, hverified⟩ :=
    verifiedThrough_range clean fromLedger (toLedger + 1 - fromLedger) 0
  rw [ledgers, hverified]
  generalize hv : (if k = 0 then 0 else fromLedger + k - 1) = verified
  have hvk : (k = 0 ∧ verified = 0) ∨ (0 < k ∧ verified + 1 = fromLedger + k) := by
    rw [← hv]
    split <;> omega
  have hclear : ∀ l, fromLedger ≤ l → l ≤ verified → Enough s l := by
    intro l hlo hhi
    exact henough l hlo (by omega) (hall l hlo (by omega))
  have hupper : verified ≤ toLedger := by omega
  have hlower : 0 < verified → fromLedger ≤ verified := by omega
  split
  · exact ⟨hclear, hupper, hlower, by simp, by simp⟩
  · rename_i hlt
    split
    · rename_i hnone
      refine ⟨hclear, hupper, hlower, fun ledger hledger => ?_, by simp⟩
      cases hledger
      refine ⟨rfl, fun l hlo hhi => ?_⟩
      by_cases hseen : l ≤ verified
      · exact hclear l hlo hseen
      · refine henough l hlo hhi ?_
        have hleft := List.find?_eq_none.mp hnone l (by rw [ledgers, mem_range'_1]; omega)
        rw [← hclean]
        simpa using hleft
    · rename_i mismatchFrom hfind
      rw [ledgers, List.find?_range'_eq_some, mem_range'_1] at hfind
      obtain ⟨hbad, hmem, hfirst⟩ := hfind
      have hcluster : (if toLedger - mismatchFrom + 1 > a.findingMaxLedgers then
          mismatchFrom + a.findingMaxLedgers - 1 else toLedger) ≤ toLedger := by
        split <;> omega
      generalize (if toLedger - mismatchFrom + 1 > a.findingMaxLedgers then
        mismatchFrom + a.findingMaxLedgers - 1 else toLedger) = mismatchTo at hcluster ⊢
      split
      · exact ⟨hclear, hupper, hlower, by simp, by simp⟩
      · refine ⟨hclear, hupper, hlower, by simp, fun mf mt hmismatch => ?_⟩
        cases hmismatch
        refine ⟨?_, hcluster⟩
        have hbad : clean mismatchFrom = false := by
          rw [← hclean]
          simpa using hbad
        have hle : fromLedger ≤ toLedger := by
          by_contra hgt
          simp [houtside mismatchFrom (by omega)] at hbad
        -- the first ledger that does not match
        have hdirty : clean (if verified = 0 then fromLedger else verified + 1) = false := by
          have hfirst : clean (fromLedger + k) = false := hstop.resolve_left (by omega)
          rcases hvk with ⟨hk, hzero⟩ | ⟨hk, hnext⟩
          · rw [if_pos hzero]
            simpa [hk] using hfirst
          · rw [if_neg (by omega), hnext]
            exact hfirst
        have hfirst : ∀ j, verified + 1 ≤ j → j < mismatchFrom → clean j = true := by
          intro j hlo hhi
          rw [← hclean]
          simpa using hfirst j hlo hhi
        have hleast : ¬ (if verified = 0 then fromLedger else verified + 1) < mismatchFrom := by
          intro hlt
          have hclean := hfirst _ (by split <;> omega) hlt
          simp [hdirty] at hclean
        have hmost : ¬ mismatchFrom < (if verified = 0 then fromLedger else verified + 1) := by
          intro hlt
          have hbelow : mismatchFrom < fromLedger := by
            split at hlt <;> omega
          simp [houtside mismatchFrom hbelow] at hbad
        exact Nat.le_antisymm (Nat.not_lt.mp hleast) (Nat.not_lt.mp hmost)

end SoroTrail.Audit
