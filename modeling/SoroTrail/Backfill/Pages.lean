import SoroTrail.Horizon.Extract
import SoroTrail.Lib.LogWalk

/-!
# Pages of the backfill

Horizon lists the transactions of a contract in ledger order and answers a request
with the ones after a cursor, at most 200 at a time.  A page is turned into rows by
a loop that counts the transactions of a ledger from the start of the page.
-/

set_option autoImplicit false

namespace SoroTrail.Backfill

open Lib Store List LogWalk
open Horizon (TxHint Xdr extractContractEvents)

structure Transaction where
  id : String
  pagingToken : String
  hash : String
  ledger : Int
  createdAt : String
  resultCode : String
  resultMetaXDR : String
  deriving DecidableEq, Repr

/-- Some Horizon deployments leave out the paging token. -/
def Transaction.cursor (tx : Transaction) : String :=
  if tx.pagingToken = "" then tx.id else tx.pagingToken

structure History where
  txs : List Transaction
  ordered : Sorted Transaction.ledger txs
  tokens : (txs.map Transaction.cursor).Nodup
  named : ∀ tx ∈ txs, tx.cursor ≠ ""

/-- `ListContractTransactions`; the client never asks for more than 200. -/
def listContractTransactions (h : History) (cursor : String) (limit : Nat) : List Transaction :=
  let limit := if limit = 0 ∨ limit > 200 then 200 else limit
  if cursor = "" then h.txs.take limit
  else (after Transaction.cursor h.txs cursor).take limit

/-- `Options` after `applyDefaults`. -/
structure Options where
  contractID : String
  fromLedger : Int
  toLedger : Int
  batchSize : Nat
  workers : Nat
  rangeSize : Int
  maxRetries : Nat
  batchSize_pos : 0 < batchSize
  workers_pos : 0 < workers

structure Backfiller where
  opts : Options
  history : History
  codec : Ingest.Codec
  xdr : Xdr

/-! ## Extraction -/

def Transaction.hint (tx : Transaction) (txIndexInLedger : Int) : TxHint where
  hash := tx.hash
  ledger := tx.ledger
  createdAt := tx.createdAt
  resultCode := tx.resultCode
  resultMetaXDR := tx.resultMetaXDR
  txIndexInLedger := txIndexInLedger

def Backfiller.extracted (b : Backfiller) (tx : Transaction) (txIndexInLedger : Int) : List Event :=
  match extractContractEvents b.codec b.xdr b.opts.contractID (tx.hint txIndexInLedger) with
  | .error _ => []
  | .ok ex => if !ex.hadMeta || !ex.hadEvents then [] else ex.events

structure PageState where
  currentLedger : Int
  txiInLedger : Int
  events : List Event
  last : Int
  reachedPastEnd : Bool
  deriving DecidableEq, Repr

def PageState.init : PageState := ⟨-1, 0, [], 0, false⟩

/-- The counter starts again with every ledger. -/
def PageState.count (st : PageState) (ledger : Int) : PageState :=
  if ledger ≠ st.currentLedger then { st with currentLedger := ledger, txiInLedger := 0, last := ledger }
  else { st with txiInLedger := st.txiInLedger + 1, last := ledger }

def Backfiller.subRangeRow (b : Backfiller) (startLedger rangeTo : Int) (st : PageState)
    (tx : Transaction) : PageState :=
  if tx.ledger < startLedger then st
  else if rangeTo > 0 ∧ tx.ledger > rangeTo then { st with reachedPastEnd := true }
  else
    let st := st.count tx.ledger
    { st with events := st.events ++ b.extracted tx st.txiInLedger }

def Backfiller.extractSubRangePage (b : Backfiller) (rows : List Transaction)
    (startLedger rangeTo : Int) : PageState :=
  rows.foldl (b.subRangeRow startLedger rangeTo) .init

/-- A transaction past the end is counted and not extracted. -/
def Backfiller.serialRow (b : Backfiller) (startLedger : Int) (st : PageState) (tx : Transaction) :
    PageState :=
  if tx.ledger < startLedger then st
  else
    let st := st.count tx.ledger
    if b.opts.toLedger > 0 ∧ tx.ledger > b.opts.toLedger then st
    else { st with events := st.events ++ b.extracted tx st.txiInLedger }

def Backfiller.extractPage (b : Backfiller) (rows : List Transaction) (startLedger : Int) : PageState :=
  rows.foldl (b.serialRow startLedger) .init

/-! ## What a page holds -/

/-- The rows of a page: `seen` are the transactions before the rest of the page. -/
def Backfiller.pageRows (b : Backfiller) (startLedger toLedger : Int) (seen : List Transaction) :
    List Transaction → List Event
  | [] => []
  | tx :: rest =>
    (if startLedger ≤ tx.ledger ∧ tx.ledger ≤ toLedger then
      b.extracted tx (seen.countP fun x => decide (x.ledger = tx.ledger))
    else []) ++ b.pageRows startLedger toLedger (seen ++ [tx]) rest

variable {b : Backfiller} {startLedger toLedger : Int} {seen rows : List Transaction}
  {st : PageState} {tx : Transaction}

def Tracks (startLedger toLedger : Int) (seen : List Transaction) (st : PageState) : Prop :=
  ∀ ledger, startLedger ≤ ledger → ledger ≤ toLedger → (∀ x ∈ seen, x.ledger ≤ ledger) →
    (st.currentLedger = ledger ∧
      (seen.countP fun x => decide (x.ledger = ledger) : Int) = st.txiInLedger + 1) ∨
    (st.currentLedger ≠ ledger ∧ seen.countP (fun x => decide (x.ledger = ledger)) = 0)

theorem tracks_init (hstart : 0 < startLedger) : Tracks startLedger toLedger [] .init := by
  intro ledger hledger _ _
  exact .inr ⟨by simp only [PageState.init]; omega, rfl⟩

theorem Tracks.skip (h : Tracks startLedger toLedger seen st)
    (htx : tx.ledger < startLedger ∨ toLedger < tx.ledger) :
    Tracks startLedger toLedger (seen ++ [tx]) st := by
  intro ledger hstart hend hseen
  have hcount : (seen ++ [tx]).countP (fun x => decide (x.ledger = ledger)) =
      seen.countP fun x => decide (x.ledger = ledger) := by
    rw [countP_append, countP_singleton, if_neg (by simp only [decide_eq_true_eq]; omega)]
    rfl
  rw [hcount]
  exact h ledger hstart hend fun x hx => hseen x (mem_append_left _ hx)

theorem Tracks.txi (h : Tracks startLedger toLedger seen st) (hstart : startLedger ≤ tx.ledger)
    (hend : tx.ledger ≤ toLedger) (hseen : ∀ x ∈ seen, x.ledger ≤ tx.ledger) :
    (st.count tx.ledger).txiInLedger = seen.countP (fun x => decide (x.ledger = tx.ledger)) := by
  rcases h tx.ledger hstart hend hseen with ⟨hsame, hcount⟩ | ⟨hnew, hcount⟩
  · simp [PageState.count, hsame, hcount]
  · simp [PageState.count, Ne.symm hnew, hcount]

@[simp] theorem count_currentLedger (st : PageState) (ledger : Int) : (st.count ledger).currentLedger = ledger := by
  by_cases h : ledger = st.currentLedger
  · simp [PageState.count, h]
  · simp [PageState.count, h]

@[simp] theorem count_events (st : PageState) (ledger : Int) : (st.count ledger).events = st.events := by
  by_cases h : ledger = st.currentLedger
  · simp [PageState.count, h]
  · simp [PageState.count, h]

@[simp] theorem count_last (st : PageState) (ledger : Int) : (st.count ledger).last = ledger := by
  by_cases h : ledger = st.currentLedger
  · simp [PageState.count, h]
  · simp [PageState.count, h]

@[simp] theorem count_reachedPastEnd (st : PageState) (ledger : Int) :
    (st.count ledger).reachedPastEnd = st.reachedPastEnd := by
  by_cases h : ledger = st.currentLedger
  · simp [PageState.count, h]
  · simp [PageState.count, h]

theorem Tracks.count (h : Tracks startLedger toLedger seen st) (hstart : startLedger ≤ tx.ledger)
    (hend : tx.ledger ≤ toLedger) (hseen : ∀ x ∈ seen, x.ledger ≤ tx.ledger) (events : List Event) :
    Tracks startLedger toLedger (seen ++ [tx]) { st.count tx.ledger with events := events } := by
  have htxi := h.txi hstart hend hseen
  intro ledger _ _ hle
  have hledger := hle tx (mem_append_right _ (.head _))
  simp only [countP_append, countP_singleton, decide_eq_true_eq, count_currentLedger]
  rcases Int.lt_or_eq_of_le hledger with hlt | heq
  · refine .inr ⟨by omega, ?_⟩
    have hzero : seen.countP (fun x => decide (x.ledger = ledger)) = 0 := by
      rw [countP_eq_zero]
      intro x hx
      have := hseen x hx
      simp only [decide_eq_true_eq]
      omega
    rw [hzero, if_neg (by omega)]
  · subst heq
    exact .inl ⟨rfl, by simp [htxi]⟩

structure RowStep (b : Backfiller) (startLedger toLedger : Int) (seen : List Transaction)
    (tx : Transaction) (st st' : PageState) : Prop where
  events : st'.events = st.events ++
    if startLedger ≤ tx.ledger ∧ tx.ledger ≤ toLedger then
      b.extracted tx (seen.countP fun x => decide (x.ledger = tx.ledger)) else []
  tracks : Tracks startLedger toLedger (seen ++ [tx]) st'

theorem subRangeRow_step (hto : 0 < toLedger) (hseen : ∀ x ∈ seen, x.ledger ≤ tx.ledger)
    (h : Tracks startLedger toLedger seen st) :
    RowStep b startLedger toLedger seen tx st (b.subRangeRow startLedger toLedger st tx) := by
  simp only [Backfiller.subRangeRow]
  split
  · rename_i hlow
    exact ⟨by rw [if_neg (by omega), append_nil], h.skip (.inl hlow)⟩
  · split
    · refine ⟨by rw [if_neg (by omega), append_nil], fun ledger hstart hend hle => ?_⟩
      exact absurd (hle tx (mem_append_right _ (.head _))) (by omega)
    · have hrange : startLedger ≤ tx.ledger ∧ tx.ledger ≤ toLedger := by omega
      refine ⟨?_, h.count hrange.1 hrange.2 hseen _⟩
      rw [if_pos hrange, ← h.txi hrange.1 hrange.2 hseen, count_events]

theorem serialRow_step (hto : b.opts.toLedger = toLedger) (hpos : 0 < toLedger)
    (hseen : ∀ x ∈ seen, x.ledger ≤ tx.ledger) (h : Tracks startLedger toLedger seen st) :
    RowStep b startLedger toLedger seen tx st (b.serialRow startLedger st tx) := by
  simp only [Backfiller.serialRow, hto]
  split
  · rename_i hlow
    exact ⟨by rw [if_neg (by omega), append_nil], h.skip (.inl hlow)⟩
  · split
    · refine ⟨by rw [if_neg (by omega), append_nil, count_events], fun ledger hstart hend hle => ?_⟩
      exact absurd (hle tx (mem_append_right _ (.head _))) (by omega)
    · have hrange : startLedger ≤ tx.ledger ∧ tx.ledger ≤ toLedger := by omega
      refine ⟨?_, h.count hrange.1 hrange.2 hseen _⟩
      rw [if_pos hrange, ← h.txi hrange.1 hrange.2 hseen, count_events]

theorem foldl_events {f : PageState → Transaction → PageState}
    (hf : ∀ seen tx st, (∀ x ∈ seen, x.ledger ≤ tx.ledger) → Tracks startLedger toLedger seen st →
      RowStep b startLedger toLedger seen tx st (f st tx))
    (hsorted : Sorted Transaction.ledger (seen ++ rows))
    (h : Tracks startLedger toLedger seen st) :
    (rows.foldl f st).events = st.events ++ b.pageRows startLedger toLedger seen rows := by
  induction rows generalizing seen st with
  | nil => simp [Backfiller.pageRows]
  | cons tx rest ih =>
    have hseen : ∀ x ∈ seen, x.ledger ≤ tx.ledger := fun x hx =>
      (pairwise_append.mp hsorted).2.2 x hx tx (.head _)
    have hstep := hf seen tx st hseen h
    rw [foldl_cons, ih (by simpa using hsorted) hstep.tracks, hstep.events,
      Backfiller.pageRows, append_assoc]

theorem extractSubRangePage_events (hto : 0 < toLedger) (hstart : 0 < startLedger)
    (hsorted : Sorted Transaction.ledger rows) :
    (b.extractSubRangePage rows startLedger toLedger).events = b.pageRows startLedger toLedger [] rows :=
  foldl_events (fun _ _ _ hseen h => subRangeRow_step hto hseen h) hsorted (tracks_init hstart)

theorem extractPage_events (hto : 0 < b.opts.toLedger) (hstart : 0 < startLedger)
    (hsorted : Sorted Transaction.ledger rows) :
    (b.extractPage rows startLedger).events = b.pageRows startLedger b.opts.toLedger [] rows :=
  foldl_events (fun _ _ _ hseen h => serialRow_step rfl hto hseen h) hsorted (tracks_init hstart)

theorem foldl_subRangeRow_last (rows : List Transaction) (st : PageState) :
    (rows.foldl (b.subRangeRow startLedger toLedger) st).last = st.last ∨
      ∃ tx ∈ rows, tx.ledger = (rows.foldl (b.subRangeRow startLedger toLedger) st).last ∧
        startLedger ≤ tx.ledger ∧ (0 < toLedger → tx.ledger ≤ toLedger) := by
  induction rows generalizing st with
  | nil => exact .inl rfl
  | cons tx rest ih =>
    rw [foldl_cons]
    rcases ih (b.subRangeRow startLedger toLedger st tx) with hkept | ⟨x, hx, hlast, hrange⟩
    · rw [hkept]
      simp only [Backfiller.subRangeRow]
      split
      · exact .inl rfl
      · split
        · exact .inl rfl
        · exact .inr ⟨tx, .head _, by simp, by omega, by omega⟩
    · exact .inr ⟨x, .tail _ hx, hlast, hrange⟩

theorem foldl_subRangeRow_past (rows : List Transaction) (st : PageState)
    (h : (rows.foldl (b.subRangeRow startLedger toLedger) st).reachedPastEnd = true) :
    st.reachedPastEnd = true ∨ ∃ tx ∈ rows, toLedger < tx.ledger := by
  induction rows generalizing st with
  | nil => exact .inl h
  | cons tx rest ih =>
    rcases ih _ h with hkept | ⟨x, hx, hpast⟩
    · simp only [Backfiller.subRangeRow] at hkept
      split at hkept
      · exact .inl hkept
      · split at hkept
        · rename_i hhigh
          exact .inr ⟨tx, .head _, hhigh.2⟩
        · exact .inl (by simpa using hkept)
    · exact .inr ⟨x, .tail _ hx, hpast⟩

theorem foldl_serialRow_last (rows : List Transaction) (st : PageState) :
    (rows.foldl (b.serialRow startLedger) st).last = st.last ∨
      ∃ tx ∈ rows, tx.ledger = (rows.foldl (b.serialRow startLedger) st).last ∧
        startLedger ≤ tx.ledger := by
  induction rows generalizing st with
  | nil => exact .inl rfl
  | cons tx rest ih =>
    rw [foldl_cons]
    rcases ih (b.serialRow startLedger st tx) with hkept | ⟨x, hx, hlast, hrange⟩
    · rw [hkept]
      simp only [Backfiller.serialRow]
      split
      · exact .inl rfl
      · refine .inr ⟨tx, .head _, ?_, by omega⟩
        split <;> simp
    · exact .inr ⟨x, .tail _ hx, hlast, hrange⟩

theorem extractSubRangePage_last (rows : List Transaction) (startLedger toLedger : Int) :
    (b.extractSubRangePage rows startLedger toLedger).last = 0 ∨
      ∃ tx ∈ rows, tx.ledger = (b.extractSubRangePage rows startLedger toLedger).last := by
  rcases foldl_subRangeRow_last rows .init with hinit | ⟨tx, htx, hlast, _⟩
  · exact .inl hinit
  · exact .inr ⟨tx, htx, hlast⟩

theorem extractSubRangePage_past (h : (b.extractSubRangePage rows startLedger toLedger).reachedPastEnd = true) :
    ∃ tx ∈ rows, toLedger < tx.ledger := by
  rcases foldl_subRangeRow_past rows .init h with hinit | hpast
  · cases hinit
  · exact hpast

theorem extractPage_last (rows : List Transaction) (startLedger : Int) :
    (b.extractPage rows startLedger).last = 0 ∨
      ∃ tx ∈ rows, tx.ledger = (b.extractPage rows startLedger).last := by
  rcases foldl_serialRow_last rows .init with hinit | ⟨tx, htx, hlast, _⟩
  · exact .inl hinit
  · exact .inr ⟨tx, htx, hlast⟩

/-! ## Rows of the events table -/

theorem buildEvents_txIndex (b : Backfiller) (tx : Transaction) (i : Int) (createdAt : Time)
    (ms : List (Horizon.ContractEvent × Nat × Nat)) :
    (ms.filterMap fun (ev, opIndex, eventIndex) => Horizon.buildEvent b.codec b.xdr
        b.opts.contractID (tx.hint i) createdAt ev opIndex eventIndex) =
      (ms.filterMap fun (ev, opIndex, eventIndex) => Horizon.buildEvent b.codec b.xdr
        b.opts.contractID (tx.hint 0) createdAt ev opIndex eventIndex).map
          fun e => { e with txIndex := i } := by
  rw [map_filterMap]
  refine filterMap_congr fun m _ => ?_
  simp only [Horizon.buildEvent, Transaction.hint]
  cases m.1.contractId with
  | none => rfl
  | some h =>
    dsimp only
    split
    · rfl
    · split <;> rfl

theorem extracted_txIndex (b : Backfiller) (tx : Transaction) (i : Int) :
    b.extracted tx i = (b.extracted tx 0).map fun e => { e with txIndex := i } := by
  have hmeta : (tx.hint i).resultMetaXDR = (tx.hint 0).resultMetaXDR := rfl
  have hcreated : (tx.hint i).createdAt = (tx.hint 0).createdAt := rfl
  simp only [Backfiller.extracted, extractContractEvents, hmeta, hcreated]
  by_cases hempty : (tx.hint 0).resultMetaXDR = ""
  · simp [hempty]
  · simp only [if_neg hempty]
    cases Horizon.decodeMeta b.xdr (tx.hint 0).resultMetaXDR with
    | error err => rfl
    | ok m =>
      simp only [buildEvents_txIndex b tx i, isEmpty_map]
      split <;> rfl

def Stored (rows : List Event) (e : Event) : Prop :=
  ∃ r ∈ rows, eventKey .postgres r = eventKey .postgres (liveRow .postgres e)

def Committed (b : Backfiller) (rows : List Event) (tx : Transaction) : Prop :=
  ∀ e ∈ b.extracted tx 0, Stored rows e

/-- The first row of a kind on a page is the first of its transaction. -/
theorem find?_pageRows {p : Event → Bool} {e : Event}
    (h : (b.pageRows startLedger toLedger seen rows).find? p = some e) :
    ∃ pre tx post, rows = pre ++ tx :: post ∧ startLedger ≤ tx.ledger ∧ tx.ledger ≤ toLedger ∧
      (b.extracted tx ((seen ++ pre).countP fun x => decide (x.ledger = tx.ledger))).find? p = some e := by
  induction rows generalizing seen with
  | nil => cases h
  | cons tx rest ih =>
    rw [Backfiller.pageRows, List.find?_append, Option.or_eq_some_iff] at h
    rcases h with h | ⟨_, h⟩
    · split at h
      · rename_i hrange
        exact ⟨[], tx, rest, rfl, hrange.1, hrange.2, by simpa using h⟩
      · cases h
    · obtain ⟨pre, x, post, hrows, hlow, hhigh, he⟩ := ih h
      exact ⟨tx :: pre, x, post, by rw [hrows]; rfl, hlow, hhigh, by simpa using he⟩

theorem pageRows_mem {e : Event} (seen : List Transaction) (htx : tx ∈ rows) (hlow : startLedger ≤ tx.ledger)
    (hhigh : tx.ledger ≤ toLedger) (he : e ∈ b.extracted tx 0) :
    ∃ i : Int, { e with txIndex := i } ∈ b.pageRows startLedger toLedger seen rows := by
  induction rows generalizing seen with
  | nil => cases htx
  | cons x rest ih =>
    rcases mem_cons.mp htx with rfl | htx
    · refine ⟨seen.countP fun x => decide (x.ledger = tx.ledger), mem_append_left _ ?_⟩
      rw [if_pos ⟨hlow, hhigh⟩, extracted_txIndex]
      exact mem_map.mpr ⟨e, he, rfl⟩
    · obtain ⟨i, hi⟩ := ih (seen ++ [x]) htx
      exact ⟨i, mem_append_right _ hi⟩

/-- After the upsert of a page its transactions in the range are committed. -/
theorem upsert_page (t : Table Event (eventKey .postgres)) :
    Between Transaction.ledger rows
      (Committed b (t.insertAll ((b.pageRows startLedger toLedger [] rows).map (liveRow .postgres))).rows)
      startLedger toLedger := by
  intro tx htx hlow hhigh e he
  obtain ⟨i, hi⟩ := pageRows_mem [] htx hlow hhigh he
  obtain ⟨r, hr, hkey⟩ := Table.exists_insertAll (t := t) (mem_map_of_mem hi)
  exact ⟨r, hr, hkey⟩

theorem Stored.mono {rows' : List Event} {rows : List Event} {e : Event} (h : Stored rows e)
    (hsub : ∀ r ∈ rows, r ∈ rows') : Stored rows' e := by
  obtain ⟨r, hr, hkey⟩ := h
  exact ⟨r, hsub r hr, hkey⟩

end SoroTrail.Backfill
