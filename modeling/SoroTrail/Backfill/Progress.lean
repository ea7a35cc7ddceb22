import SoroTrail.Backfill.Run

/-!
# What recorded progress says

A walk over the pages of a contract stands at a multiple of the page size.  What it
records about a range is that every ledger before the recorded one is committed; of
the recorded ledger itself a page may have held only the first transactions.
-/

set_option autoImplicit false

namespace SoroTrail.Backfill

open Lib Store List LogWalk

/-- Every transaction with a ledger in the range is committed. -/
abbrev Done (b : Backfiller) (rows : List Event) (lo hi : Int) : Prop :=
  Between Transaction.ledger b.history.txs (Committed b rows) lo hi

abbrev Walked (b : Backfiller) (rows : List Event) (lo hi : Int) (n : Nat) : Prop :=
  LogWalk.Walked Transaction.ledger b.history.txs (Committed b rows) lo hi n

def WholeLedger (b : Backfiller) (rows : List Event) (ledger : Int) : Prop :=
  ∀ tx ∈ b.history.txs, tx.ledger = ledger → Committed b rows tx

variable {b : Backfiller} {rows rows' : List Event} {lo hi start : Int}

theorem committed_mono (hsub : ∀ r ∈ rows, r ∈ rows') (tx : Transaction) (h : Committed b rows tx) :
    Committed b rows' tx :=
  fun e he => (h e he).mono hsub

/-! ## Positions -/

def rest (b : Backfiller) (cursor : String) : List Transaction :=
  if cursor = "" then b.history.txs else after Transaction.cursor b.history.txs cursor

theorem rest_length_le (b : Backfiller) (cursor : String) :
    (rest b cursor).length ≤ b.history.txs.length := by
  rw [rest]
  split
  · exact le_rfl
  · exact ((drop_sublist _ _).trans (dropWhile_sublist _)).length_le

/-- Horizon never cuts a page that the backfill asked for. -/
def Backfiller.Fits (b : Backfiller) : Prop :=
  b.opts.batchSize ≤ 200 ∨ b.history.txs.length ≤ 200

instance : Decidable b.Fits := inferInstanceAs (Decidable (_ ∨ _))

theorem list_eq (hfits : b.Fits) (cursor : String) :
    listContractTransactions b.history cursor b.opts.batchSize = (rest b cursor).take b.opts.batchSize := by
  have hpos := b.opts.batchSize_pos
  have hlist : listContractTransactions b.history cursor b.opts.batchSize = (rest b cursor).take
      (if b.opts.batchSize = 0 ∨ b.opts.batchSize > 200 then 200 else b.opts.batchSize) := by
    simp only [listContractTransactions, rest]
    split <;> rfl
  rw [hlist]
  split
  · have hshort := rest_length_le b cursor
    rcases hfits with hsmall | hshort'
    · omega
    · rw [take_of_length_le (by omega), take_of_length_le (by omega)]
  · rfl

structure At (b : Backfiller) (cursor : String) (n : Nat) : Prop where
  eq : rest b cursor = b.history.txs.drop n
  whole : b.opts.batchSize ∣ n

theorem at_zero : At b "" 0 := ⟨by simp [rest], Nat.dvd_zero _⟩

structure PageAt (b : Backfiller) (page : List Transaction) (n : Nat) : Prop where
  eq : page = (b.history.txs.drop n).take b.opts.batchSize
  ne : page ≠ []
  whole : b.opts.batchSize ∣ n

variable {n : Nat} {r : BackfillRange} {ranges : List BackfillRange}

theorem At.page {cursor : String} (hfits : b.Fits) (h : At b cursor n)
    (hne : listContractTransactions b.history cursor b.opts.batchSize ≠ []) :
    PageAt b (listContractTransactions b.history cursor b.opts.batchSize) n :=
  ⟨by rw [list_eq hfits, h.eq], hne, h.whole⟩

theorem At.exhausted {cursor : String} (hfits : b.Fits) (h : At b cursor n)
    (hnil : listContractTransactions b.history cursor b.opts.batchSize = []) :
    b.history.txs.length ≤ n := by
  rw [list_eq hfits, h.eq, take_eq_nil_iff] at hnil
  rcases hnil with hzero | hnil
  · exact absurd hzero (Nat.ne_of_gt b.opts.batchSize_pos)
  · exact drop_eq_nil_iff.mp hnil

variable {page : List Transaction}

theorem PageAt.sorted (h : PageAt b page n) :
    Sorted Transaction.ledger page := by
  rw [h.eq]
  exact b.history.ordered.sublist ((take_sublist _ _).trans (drop_sublist _ _))

theorem PageAt.mem (h : PageAt b page n) {tx : Transaction}
    (htx : tx ∈ page) : tx ∈ b.history.txs.take (n + b.opts.batchSize) := by
  rw [take_add]
  exact mem_append_right _ (h.eq ▸ htx)

theorem PageAt.next (h : PageAt b page n)
    (hfull : ¬ page.length < b.opts.batchSize) : At b (nextCursor page) (n + b.opts.batchSize) := by
  refine ⟨?_, Nat.dvd_add h.whole (Nat.dvd_refl _)⟩
  cases hlast : page.getLast? with
  | none => exact absurd (List.getLast?_eq_none_iff.mp hlast) h.ne
  | some tx =>
    have hmem : tx ∈ b.history.txs :=
      mem_of_mem_take (h.mem (mem_of_getLast? hlast))
    have hlen : b.opts.batchSize ≤ (b.history.txs.drop n).length := by
      have hpage := h.eq ▸ Nat.not_lt.mp hfull
      rw [length_take] at hpage
      omega
    have hcursor : nextCursor page = tx.cursor := by simp [nextCursor, hlast]
    rw [rest, hcursor, if_neg (b.history.named tx hmem)]
    exact after_getLast b.history.tokens (h.eq ▸ hlast) hlen

theorem PageAt.short (h : PageAt b page n)
    (hshort : page.length < b.opts.batchSize) : b.history.txs.length ≤ n + b.opts.batchSize := by
  rw [h.eq, length_take, length_drop] at hshort
  omega

def Low (b : Backfiller) (rows : List Event) (lo hi start : Int) : Prop :=
  Done b rows lo (min (start - 1) hi)

theorem Low.done (hlow : Low b rows lo hi start) (h : Done b rows start hi) : Done b rows lo hi := by
  by_cases hpast : hi ≤ start - 1
  · rw [Low, min_eq_right hpast] at hlow
    exact hlow
  · exact hlow.join h (by omega)

def Behind (b : Backfiller) (rows : List Event) (lo hi last : Int) : Prop :=
  lo ≤ last → Done b rows lo (min (last - 1) hi)

theorem Low.behind {tx : Transaction} (hlow : Low b rows lo hi start)
    (hwalked : Walked b rows start hi n) (htx : tx ∈ b.history.txs.take n) :
    Behind b rows lo hi tx.ledger := by
  intro _ y hy hlo hhi
  by_cases hbefore : y.ledger ≤ start - 1
  · exact hlow y hy hlo (by omega)
  · have hseen : y ∈ b.history.txs.take n :=
      mem_take_of_stamp_lt b.history.ordered htx hy (by omega)
    exact hwalked y hseen (by omega) (by omega)

/-- A run that starts after a recorded ledger has its low part, when that ledger is whole. -/
theorem Behind.low {last : Int} (h : Behind b rows lo hi last)
    (hwhole : lo ≤ last → last ≤ hi → WholeLedger b rows last) :
    Low b rows lo hi (if last ≥ lo then last + 1 else lo) := by
  intro y hy hlo hhi
  split at hhi
  · rename_i hge
    by_cases hlast : y.ledger = last
    · exact hwhole hge (by omega) y hy hlast
    · exact h hge y hy hlo (by omega)
  · omega

theorem Low.mono (h : Low b rows lo hi start) (hsub : ∀ r ∈ rows, r ∈ rows') :
    Low b rows' lo hi start :=
  Between.mono h (committed_mono hsub)

theorem Behind.mono {last : Int} (h : Behind b rows lo hi last) (hsub : ∀ r ∈ rows, r ∈ rows') :
    Behind b rows' lo hi last :=
  fun hle => (h hle).mono (committed_mono hsub)

/-! ## Places -/

/-- The counter of the transaction at a position: the ones of its ledger before it on its page. -/
def Backfiller.txIndexAt (b : Backfiller) (i : Nat) (tx : Transaction) : Int :=
  ((b.history.txs.take i).drop (i / b.opts.batchSize * b.opts.batchSize)).countP
    fun x => decide (x.ledger = tx.ledger)

def sameKey (r e : Event) : Bool :=
  decide (eventKey .postgres (liveRow .postgres e) = eventKey .postgres r)

/-- The row is that of an event of a transaction of the range, with the counter of its place; it is
the first one with its key there. -/
def Placed (b : Backfiller) (r : Event) : Prop :=
  ∃ i tx e, b.history.txs[i]? = some tx ∧ b.opts.fromLedger ≤ tx.ledger ∧ tx.ledger ≤ b.opts.toLedger ∧
    (b.extracted tx (b.txIndexAt i tx)).find? (sameKey r) = some e ∧ r = liveRow .postgres e

theorem PageAt.placed {e : Event} (h : PageAt b page n)
    (hlo : b.opts.fromLedger ≤ lo) (hhi : hi ≤ b.opts.toLedger)
    (he : (b.pageRows lo hi [] page).find? (sameKey (liveRow .postgres e)) = some e) :
    Placed b (liveRow .postgres e) := by
  obtain ⟨pre, tx, post, hpage, hlow, hhigh, he⟩ := find?_pageRows he
  have hsplit : (b.history.txs.drop n).take b.opts.batchSize = pre ++ tx :: post := h.eq.symm.trans hpage
  have hlen : pre.length < b.opts.batchSize := by
    have hle := length_take_le b.opts.batchSize (b.history.txs.drop n)
    rw [hsplit, length_append, length_cons] at hle
    omega
  have hplace : (n + pre.length) / b.opts.batchSize * b.opts.batchSize = n := by
    obtain ⟨k, rfl⟩ := h.whole
    rw [Nat.mul_add_div b.opts.batchSize_pos, Nat.div_eq_of_lt hlen, Nat.add_zero, Nat.mul_comm]
  have hpre : (b.history.txs.take (n + pre.length)).drop n = pre := by
    have htake := congrArg (List.take pre.length) hsplit
    rw [take_take, Nat.min_eq_left (Nat.le_of_lt hlen), take_left] at htake
    rw [drop_take, Nat.add_sub_cancel_left, htake]
  have hget : b.history.txs[n + pre.length]? = some tx := by
    have hpos := congrArg (·[pre.length]?) hsplit
    simpa [List.getElem?_take_of_lt hlen] using hpos
  refine ⟨n + pre.length, tx, e, hget, by omega, by omega, ?_, rfl⟩
  rw [Backfiller.txIndexAt, hplace, hpre]
  exact he

theorem between_of_pageRows_nil (h : b.pageRows lo hi [] page = []) :
    Between Transaction.ledger page (Committed b rows) lo hi := by
  intro tx htx hlow hhigh e he
  obtain ⟨i, hi⟩ := pageRows_mem [] htx hlow hhigh he
  rw [h] at hi
  cases hi

/-! ## Ranges -/

structure RangeOk (b : Backfiller) (rows : List Event) (r : BackfillRange) : Prop where
  positive : 0 < r.fromLedger ∧ 0 < r.toLedger
  inside : b.opts.fromLedger ≤ r.fromLedger ∧ r.toLedger ≤ b.opts.toLedger
  behind : Behind b rows r.fromLedger r.toLedger r.lastLedger
  whole : r.status = .completed → Done b rows r.fromLedger r.toLedger

structure RangesOk (b : Backfiller) (rows : List Event) (ranges : List BackfillRange) : Prop where
  covers : ∀ l, b.opts.fromLedger ≤ l → l ≤ b.opts.toLedger →
    ∃ r ∈ ranges, r.fromLedger ≤ l ∧ l ≤ r.toLedger
  each : ∀ r ∈ ranges, RangeOk b rows r
  ne : ranges ≠ []

theorem RangeOk.mono (h : RangeOk b rows r) (hsub : ∀ r ∈ rows, r ∈ rows') : RangeOk b rows' r :=
  ⟨h.positive, h.inside, h.behind.mono hsub, fun hstatus => (h.whole hstatus).mono (committed_mono hsub)⟩

theorem RangesOk.mono (h : RangesOk b rows ranges) (hsub : ∀ r ∈ rows, r ∈ rows') :
    RangesOk b rows' ranges :=
  ⟨h.covers, fun r hr => (h.each r hr).mono hsub, h.ne⟩

theorem RangesOk.done (h : RangesOk b rows ranges) (hall : ∀ r ∈ ranges, r.status = .completed) :
    Done b rows b.opts.fromLedger b.opts.toLedger := by
  intro tx htx hlo hhi
  obtain ⟨r, hr, hfrom, hto⟩ := h.covers tx.ledger hlo hhi
  exact (h.each r hr).whole (hall r hr) tx htx hfrom hto

theorem RangesOk.set {i : Nat} {r' : BackfillRange} (h : RangesOk b rows ranges)
    (hget : ranges[i]? = some r) (hr : RangeOk b rows r') (hfrom : r'.fromLedger = r.fromLedger)
    (hto : r'.toLedger = r.toLedger) : RangesOk b rows (ranges.set i r') := by
  refine ⟨fun l hlo hhi => ?_, Steps.forall_mem_set h.each hr, by simpa using h.ne⟩
  obtain ⟨x, hx, hxfrom, hxto⟩ := h.covers l hlo hhi
  obtain ⟨j, hj⟩ := mem_iff_getElem?.mp hx
  by_cases hij : i = j
  · subst hij
    rw [hget] at hj
    cases hj
    exact ⟨r', mem_set (List.getElem?_eq_some_iff.mp hget).1 r', by omega, by omega⟩
  · refine ⟨x, mem_of_getElem? (i := j) ?_, hxfrom, hxto⟩
    rw [List.getElem?_set_ne hij, hj]

theorem splitFrom_covers {step toLedger : Int} (hstep : 0 < step) (fuel : Nat) (cur : Int)
    (hfuel : toLedger - cur + 1 ≤ fuel) (l : Int) (hlo : cur ≤ l) (hhi : l ≤ toLedger) :
    ∃ r ∈ splitFrom step toLedger fuel cur, r.fromLedger ≤ l ∧ l ≤ r.toLedger := by
  induction fuel generalizing cur with
  | zero => omega
  | succ fuel ih =>
    rw [splitFrom, if_pos (by omega)]
    by_cases hhere : l ≤ cur + step - 1
    · refine ⟨_, .head _, hlo, ?_⟩
      split <;> omega
    · obtain ⟨r, hr, hrange⟩ := ih (cur + step) (by omega) (by omega)
      exact ⟨r, .tail _ hr, hrange⟩

structure Fresh (lo hi : Int) (r : BackfillRange) : Prop where
  lower : lo ≤ r.fromLedger
  positive : 0 < r.toLedger
  upper : r.toLedger ≤ hi
  last : r.lastLedger = 0
  status : r.status = .pending

theorem mem_splitFrom {step toLedger : Int} (hstep : 0 < step) {fuel : Nat} {cur : Int}
    (hcur : 0 < cur) (h : r ∈ splitFrom step toLedger fuel cur) : Fresh cur toLedger r := by
  induction fuel generalizing cur with
  | zero => cases h
  | succ fuel ih =>
    rw [splitFrom] at h
    split at h
    · rcases mem_cons.mp h with rfl | h
      · refine ⟨le_rfl, ?_, ?_, rfl, rfl⟩
        · dsimp only
          split <;> omega
        · dsimp only
          split <;> omega
      · have hrest := ih (by omega) h
        exact { hrest with lower := by have := hrest.lower; omega }
    · cases h

theorem clamp_pos (step : Int) : 0 < if step ≤ 0 then 1 else step := by
  split <;> omega

theorem mem_splitLedgerRanges {fromLedger toLedger rangeSize : Int} {workers : Nat}
    (hfrom : 0 < fromLedger) (hto : fromLedger ≤ toLedger)
    (h : r ∈ splitLedgerRanges fromLedger toLedger rangeSize workers) :
    Fresh fromLedger toLedger r := by
  simp only [splitLedgerRanges] at h
  split at h
  · rw [mem_singleton.mp h]
    exact ⟨le_rfl, Int.lt_of_lt_of_le hfrom hto, le_rfl, rfl, rfl⟩
  · exact mem_splitFrom (clamp_pos _) hfrom h

theorem splitLedgerRanges_covers (fromLedger toLedger rangeSize : Int) (workers : Nat) (l : Int)
    (hlo : fromLedger ≤ l) (hhi : l ≤ toLedger) :
    ∃ r ∈ splitLedgerRanges fromLedger toLedger rangeSize workers, r.fromLedger ≤ l ∧ l ≤ r.toLedger := by
  simp only [splitLedgerRanges]
  split
  · exact ⟨_, mem_singleton_self _, hlo, hhi⟩
  · exact splitFrom_covers (clamp_pos _) _ _ (by omega) l hlo hhi

theorem rangesOk_split (hfrom : 0 < b.opts.fromLedger) (hto : b.opts.fromLedger ≤ b.opts.toLedger) :
    RangesOk b rows
      (splitLedgerRanges b.opts.fromLedger b.opts.toLedger b.opts.rangeSize b.opts.workers) := by
  refine ⟨splitLedgerRanges_covers _ _ _ _, fun r hr => ?_, fun hnil => ?_⟩
  · have hfresh := mem_splitLedgerRanges hfrom hto hr
    have hlower := hfresh.lower
    have hlast := hfresh.last
    refine ⟨⟨by omega, hfresh.positive⟩, ⟨hlower, hfresh.upper⟩, fun hle => ?_, fun hcompleted => ?_⟩
    · omega
    · rw [hfresh.status] at hcompleted
      cases hcompleted
  · obtain ⟨r, hr, _⟩ := splitLedgerRanges_covers b.opts.fromLedger b.opts.toLedger b.opts.rangeSize
      b.opts.workers b.opts.fromLedger (le_rfl) hto
    rw [hnil] at hr
    cases hr

end SoroTrail.Backfill
