import SoroTrail.Ingester.Node
import SoroTrail.Rpc.Chain

/-!
# What a range fetch collects

Which chain events the filters of a watch list accept, which rows the collected
events become, and that paging through a range misses none of its events.
-/

set_option autoImplicit false

namespace SoroTrail.Ingest

open Lib Rpc Store List Prog Keyset

/-! ## Filters -/

theorem chunks_ne_nil {α : Type} {n : Nat} (hn : 0 < n) {l c : List α} (hc : c ∈ chunks n l) :
    c ≠ [] :=
  (chunks_piece hn hc).1

theorem mem_chunks {α : Type} {n : Nat} (hn : 0 < n) {l : List α} {x : α} :
    x ∈ l ↔ ∃ c ∈ chunks n l, x ∈ c := by
  conv_lhs => rw [← chunks_flatten hn l]
  exact mem_flatten

def Wanted (ids : List String) (e : Rpc.Event) : Prop :=
  e.type = "contract" ∧ (ids = [] ∨ e.contractID ∈ ids)

theorem contractFilter_accepts (ids : List String) (e : Rpc.Event) :
    (Rpc.EventFilter.accepts { type := "contract", contractIDs := ids, topics := [] } e) = true ↔
      Wanted ids e := by
  have hne : ("contract" : String) ≠ "" := by decide
  unfold Rpc.EventFilter.accepts Wanted
  rw [decide_eq_true_eq]
  constructor
  · rintro ⟨htype, hids⟩
    rcases htype with htype | htype
    · exact absurd htype hne
    · exact ⟨htype.symm, hids⟩
  · rintro ⟨htype, hids⟩
    exact ⟨.inr htype.symm, hids⟩

theorem exists_mem_chunks {α : Type} {n : Nat} (hn : 0 < n) {l : List α} (p : α → Prop) :
    (∃ c ∈ chunks n l, ∃ x ∈ c, p x) ↔ ∃ x ∈ l, p x := by
  constructor
  · rintro ⟨c, hc, x, hx, hp⟩
    exact ⟨x, (mem_chunks hn).mpr ⟨c, hc, hx⟩, hp⟩
  · rintro ⟨x, hx, hp⟩
    obtain ⟨c, hc, hxc⟩ := (mem_chunks hn).mp hx
    exact ⟨c, hc, x, hxc, hp⟩

/-- Some batch asks for an event exactly when the watch list does. -/
theorem filterBatches_accept (ids : List String) (e : Rpc.Event) :
    (∃ batch ∈ filterBatches ids, accepted batch e = true) ↔ Wanted ids e := by
  unfold filterBatches
  cases ids with
  | nil => simp [accepted, contractFilter_accepts]
  | cons id ids =>
    rw [if_neg (by simp)]
    have haccepted : ∀ {fs : List Rpc.EventFilter}, ∀ batch ∈ chunks maxFiltersPerRequest fs,
        (accepted batch e = true ↔ ∃ f ∈ batch, f.accepts e = true) := fun batch hbatch => by
      simp [accepted, chunks_ne_nil (by decide) hbatch]
    have hasks : ∀ chunk ∈ chunks maxContractIDsPerFilter (id :: ids),
        (Wanted chunk e ↔ ∃ x ∈ chunk, e.contractID = x ∧ e.type = "contract") := fun chunk hchunk => by
      simp [Wanted, chunks_ne_nil (by decide) hchunk, and_comm]
    rw [exists_congr fun batch => and_congr_right (haccepted batch), exists_mem_chunks (by decide)]
    simp only [mem_map, exists_exists_and_eq_and, contractFilter_accepts]
    rw [exists_congr fun chunk => and_congr_right (hasks chunk), exists_mem_chunks (by decide)]
    simp [Wanted, and_comm]

/-! ## Rows -/

variable {ing : Ingester}

def CollectedRow (ing : Ingester) (re : Rpc.Event) (ev : Store.Event) : Prop :=
  isSkipped ing re.contractID = false ∧
    ∃ decoded, toStoreEvent ing re = .ok decoded ∧ ev = { decoded with network := ing.opts.network }

variable {re : Rpc.Event}

theorem CollectedRow.fields {ev : Store.Event} (h : CollectedRow ing re ev) :
    ev.id = re.id ∧ ev.contractID = re.contractID ∧ ev.ledger = re.ledger ∧
      ev.network = ing.opts.network ∧ ev.txHash = re.txHash ∧ ev.opIndex = re.operationIndex := by
  obtain ⟨_, decoded, hdecoded, rfl⟩ := h
  obtain ⟨hid, hcontract, hledger, _, htx, hop⟩ := toStoreEvent_ok ing hdecoded
  exact ⟨hid, hcontract, hledger, rfl, htx, hop⟩

variable {rows : List Store.Event} {es : List Rpc.Event}

theorem collectedRows_cons :
    collectedRows ing (re :: es) = .ok rows ↔
      isSkipped ing re.contractID = true ∧ collectedRows ing es = .ok rows ∨
      isSkipped ing re.contractID = false ∧ ∃ decoded more, toStoreEvent ing re = .ok decoded ∧
        collectedRows ing es = .ok more ∧ rows = { decoded with network := ing.opts.network } :: more := by
  rw [collectedRows]
  cases isSkipped ing re.contractID with
  | true => simp
  | false =>
    cases toStoreEvent ing re with
    | error err => simp
    | ok decoded => cases collectedRows ing es <;> simp [eq_comm]

theorem mem_collectedRows
    (h : collectedRows ing es = .ok rows) (ev : Store.Event) :
    ev ∈ rows ↔ ∃ re ∈ es, CollectedRow ing re ev := by
  induction es generalizing rows with
  | nil =>
    cases h
    simp
  | cons re rest ih =>
    rw [exists_mem_cons_iff, CollectedRow]
    rcases collectedRows_cons.mp h with ⟨hskip, hrest⟩ | ⟨hskip, decoded, more, hdecoded, hrest, rfl⟩
    · simp [ih hrest, hskip]
    · simp [ih hrest, hskip, hdecoded]

theorem exists_collectedRow
    (h : collectedRows ing es = .ok rows) (hre : re ∈ es)
    (hskip : isSkipped ing re.contractID = false) : ∃ ev, CollectedRow ing re ev := by
  induction es generalizing rows with
  | nil => cases hre
  | cons x rest ih =>
    rcases collectedRows_cons.mp h with ⟨hx, hrest⟩ | ⟨hx, decoded, more, hdecoded, hrest, rfl⟩ <;>
      rcases mem_cons.mp hre with rfl | hre
    · rw [hskip] at hx
      cases hx
    · exact ih hrest hre
    · exact ⟨_, hskip, decoded, hdecoded, rfl⟩
    · exact ih hrest hre

/-! ## Pages of a range -/

section Pages

variable {chain : Chain} {batch : List Rpc.EventFilter} {from' to' : Nat}

def fromLedgerOn (chain : Chain) (batch : List Rpc.EventFilter) (from' : Nat) : List Rpc.Event :=
  chain.events.filter fun e => accepted batch e && decide (from' ≤ e.ledger)

def upTo (to' : Nat) (es : List Rpc.Event) : List Rpc.Event :=
  es.filter fun e => decide (e.ledger ≤ to')

def leftAt (chain : Chain) (batch : List Rpc.EventFilter) (from' to' : Nat) (cursor : String) :
    List Rpc.Event :=
  if cursor = "" then upTo to' (fromLedgerOn chain batch from')
  else upTo to' (Keyset.after Rpc.Event.id cursor (fromLedgerOn chain batch from'))

def RangeCursor (chain : Chain) (batch : List Rpc.EventFilter) (from' : Nat) (cursor : String) : Prop :=
  cursor = "" ∨ ∃ x ∈ fromLedgerOn chain batch from', x.id = cursor

variable {e last : Rpc.Event} {cursor : String}

theorem mem_fromLedgerOn :
    e ∈ fromLedgerOn chain batch from' ↔
      e ∈ chain.events ∧ accepted batch e = true ∧ from' ≤ e.ledger := by
  simp [fromLedgerOn]

theorem fromLedgerOn_ascending :
    Ascending Rpc.Event.id (fromLedgerOn chain batch from') :=
  chain.ascending.filter _

theorem before_end (he : e ∈ chain.events) (hto : to' < 2 ^ 32) :
    (u32 (to' + 1) = 0 ∨ e.ledger < u32 (to' + 1)) ↔ e.ledger ≤ to' := by
  have htip := chain.ledger_le e he
  have hbound := chain.tip_lt
  unfold u32
  by_cases hwrap : to' + 1 = 2 ^ 32
  · rw [hwrap]
    omega
  · omega

theorem matching_first (hto : to' < 2 ^ 32) :
    chain.matching (rangeRequest ing from' to' batch "") =
      upTo to' (fromLedgerOn chain batch from') := by
  unfold Chain.matching upTo fromLedgerOn
  rw [filter_filter]
  refine filter_congr ?_
  intro e he
  have hend := before_end he hto
  simp only [rangeRequest, GetEventsRequest.reaches, ne_eq, not_true_eq_false, if_false]
  by_cases hfrom : from' ≤ e.ledger
  · by_cases hle : e.ledger ≤ to'
    · simp [hfrom, hle, hend.mpr hle]
    · have hnot : ¬(u32 (to' + 1) = 0 ∨ e.ledger < u32 (to' + 1)) := fun h => hle (hend.mp h)
      simp [hle, hnot]
  · simp [hfrom]

theorem matching_next {x : Rpc.Event} (hx : x ∈ fromLedgerOn chain batch from') :
    chain.matching (rangeRequest ing from' to' batch x.id) =
      Keyset.after Rpc.Event.id x.id (fromLedgerOn chain batch from') := by
  obtain ⟨hxc, _, hxl⟩ := mem_fromLedgerOn.mp hx
  have hne : x.id ≠ "" := chain.id_ne x hxc
  unfold Chain.matching Keyset.after fromLedgerOn
  rw [filter_filter]
  refine filter_congr ?_
  intro e he
  simp only [rangeRequest, GetEventsRequest.reaches, ne_eq, hne, not_false_eq_true, if_true]
  by_cases hlt : x.id < e.id
  · have hle : from' ≤ e.ledger := le_trans hxl (Chain.ledger_le_of_id_lt hxc he hlt)
    simp only [hle, decide_true, Bool.and_true, hlt, Bool.true_and]
  · simp only [hlt, decide_false, Bool.and_false, Bool.false_and]

section Range

variable {req : GetEventsRequest} (hreq : req = rangeRequest ing from' to' batch cursor)
  (hto : to' < 2 ^ 32) (hcursor : RangeCursor chain batch from' cursor)
include hreq hto hcursor

theorem upTo_matching : upTo to' (chain.matching req) = leftAt chain batch from' to' cursor := by
  subst hreq
  unfold leftAt
  rcases hcursor with rfl | ⟨x, hx, rfl⟩
  · rw [matching_first hto]
    unfold upTo
    simp
  · have hne : x.id ≠ "" := chain.id_ne x (mem_fromLedgerOn.mp hx).1
    rw [if_neg hne, matching_next hx]

theorem mem_matching_range (he : e ∈ chain.matching req) :
    e ∈ fromLedgerOn chain batch from' ∧ (cursor ≠ "" → cursor < e.id) := by
  subst hreq
  rcases hcursor with rfl | ⟨x, hx, rfl⟩
  · rw [matching_first hto] at he
    exact ⟨(mem_filter.mp he).1, absurd rfl⟩
  · rw [matching_next hx] at he
    have hmem := mem_after.mp he
    exact ⟨hmem.1, fun _ => hmem.2⟩

theorem upTo_after_matching (hlast : last ∈ chain.matching req) :
    upTo to' (Keyset.after Rpc.Event.id last.id (chain.matching req)) =
      leftAt chain batch from' to' last.id := by
  have hmem := mem_matching_range hreq hto hcursor hlast
  have hne : last.id ≠ "" := chain.id_ne last (mem_fromLedgerOn.mp hmem.1).1
  subst hreq
  unfold leftAt
  rw [if_neg hne]
  rcases hcursor with rfl | ⟨x, hx, rfl⟩
  · rw [matching_first hto]
    unfold upTo
    rw [after_filter_comm]
    simp
  · rw [matching_next hx]
    have hxne : x.id ≠ "" := chain.id_ne x (mem_fromLedgerOn.mp hx).1
    rw [after_after (le_of_lt (hmem.2 hxne))]

/-- A page cut at the end of the range, followed by what is left after it. -/
theorem leftAt_page (hlast : (chain.page req).getLast? = some last) :
    upTo to' (chain.page req) ++ leftAt chain batch from' to' last.id =
      leftAt chain batch from' to' cursor := by
  have hmem : last ∈ chain.matching req := mem_of_mem_take (mem_of_getLast? hlast)
  rw [← upTo_after_matching hreq hto hcursor hmem,
    after_page (chain.matching_ascending req) hlast, ← upTo_matching hreq hto hcursor]
  unfold upTo Chain.page
  rw [← filter_append, take_append_drop]

theorem leftAt_last_eq_nil (hlast : (chain.page req).getLast? = some last)
    (hdone : (chain.page req).length < ing.opts.pageLimit ∨ to' < last.ledger) :
    leftAt chain batch from' to' last.id = [] := by
  have hmem : last ∈ chain.matching req := mem_of_mem_take (mem_of_getLast? hlast)
  rw [← upTo_after_matching hreq hto hcursor hmem]
  rcases hdone with hshort | hpast
  · have hlimit : req.limit = ing.opts.pageLimit := by rw [hreq]; rfl
    have hlen : (chain.matching req).length ≤ req.limit := by
      simp only [Chain.page, length_take] at hshort
      omega
    rw [after_page (chain.matching_ascending req) hlast, drop_eq_nil_of_le hlen]
    rfl
  · unfold upTo
    rw [filter_eq_nil_iff]
    intro e he
    obtain ⟨hein, hlt⟩ := mem_after.mp he
    have hec := (Chain.mem_matching.mp hein).1
    have hlc := (Chain.mem_matching.mp hmem).1
    have hle := Chain.ledger_le_of_id_lt hlc hec hlt
    have hnot : ¬e.ledger ≤ to' := by omega
    simp [hnot]

theorem leftAt_eq_nil (hpage : chain.page req = []) : leftAt chain batch from' to' cursor = [] := by
  rw [← upTo_matching hreq hto hcursor]
  rcases take_eq_nil_iff.mp hpage with hlimit | hnil
  · rw [hreq] at hlimit
    exact absurd hlimit (Nat.pos_iff_ne_zero.mp ing.pageLimit_pos)
  · rw [hnil]
    rfl

end Range

/-- The RPC answers from the chain, or fails without saying that the range is gone. -/
def ServedBy (chain : Chain) : (o : Act) → Ans o → Prop
  | .getEvents _ req, (.ok resp : Except Err GetEventsResponse) => chain.serves req resp = true
  | .getEvents _ _, (.error err : Except Err GetEventsResponse) => isLedgerOutOfRange err = false
  | _, _ => True

def Fetches : Act → Prop
  | .getEvents .collectBatchEventsInRange _ => True
  | _ => False

theorem collectPages_yields (hto : to' < 2 ^ 32) (allow : Bool) (n : Nat) (cursor : String)
    (collected : List Rpc.Event) (hcursor : RangeCursor chain batch from' cursor) :
    Yields Fetches (ServedBy chain)
      (OnOk fun r => r = some (collected ++ leftAt chain batch from' to' cursor))
      (collectPages ing from' to' batch allow n cursor collected) := by
  induction n generalizing cursor collected with
  | zero => trivial
  | succ n ih =>
    unfold collectPages
    rw [Fallible.attempt_bind]
    refine ⟨trivial, fun r hr => ?_⟩
    cases r with
    | error err =>
      have hnot : isLedgerOutOfRange err = false := hr
      dsimp only [Prog.bind]
      rw [hnot]
      trivial
    | ok resp =>
      obtain ⟨hevents, hresume, _⟩ := Chain.serves_iff.mp hr
      obtain ⟨req, hreq⟩ : ∃ req, req = rangeRequest ing from' to' batch cursor := ⟨_, rfl⟩
      rw [← hreq] at hevents
      dsimp only [Prog.bind]
      rw [show resp.events.filter _ = upTo to' (chain.page req) from congrArg (upTo to') hevents]
      cases hlast : resp.events.getLast? with
      | none =>
        have hpage : chain.page req = [] := hevents ▸ List.getLast?_eq_none_iff.mp hlast
        rw [leftAt_eq_nil hreq hto hcursor hpage, hpage]
        rfl
      | some last =>
        have hpage : (chain.page req).getLast? = some last := hevents ▸ hlast
        have hin := mem_matching_range hreq hto hcursor
          (mem_of_mem_take (mem_of_getLast? hpage))
        have hchain := (mem_fromLedgerOn.mp hin.1).1
        have hnext : (if resp.cursor ≠ "" then resp.cursor else last.cursorValue) =
            last.id := by
          rw [← Chain.resume_eq hlast hchain hresume]
          by_cases hne : resp.cursor = "" <;> simp [hne]
        have hsplit := leftAt_page hreq hto hcursor hpage
        dsimp only
        rw [hnext]
        by_cases hstop : (resp.events.length < ing.opts.pageLimit ∧ resp.cursor = "") ∨
            to' < last.ledger ∨ last.id = cursor
        · rw [if_pos hstop]
          have hadvances : last.id ≠ cursor := by
            intro heq
            by_cases hempty : cursor = ""
            · exact chain.id_ne last hchain (heq.trans hempty)
            · exact absurd (hin.2 hempty) (by rw [heq]; exact lt_irrefl _)
          have hdone : (chain.page req).length < ing.opts.pageLimit ∨ to' < last.ledger := by
            rcases hstop with hshort | hpast | heq
            · exact .inl (hevents ▸ hshort.1)
            · exact .inr hpast
            · exact absurd heq hadvances
          rw [leftAt_last_eq_nil hreq hto hcursor hpage hdone, append_nil] at hsplit
          rw [hsplit]
          rfl
        · rw [if_neg hstop]
          have hrest := ih last.id (collected ++ upTo to' (chain.page req)) (.inr ⟨last, hin.1, rfl⟩)
          rw [append_assoc, hsplit] at hrest
          exact hrest

/-- The rows of the batches' events in a range, all of which decode. -/
def RangeRows (ing : Ingester) (chain : Chain) (from' to' : Nat)
    (batches : List (List Rpc.EventFilter)) (rows : List Store.Event) : Prop :=
  (∀ ev, ev ∈ rows ↔
    ∃ batch ∈ batches, ∃ re ∈ leftAt chain batch from' to' "", CollectedRow ing re ev) ∧
  ∀ batch ∈ batches, ∀ re ∈ leftAt chain batch from' to' "",
    isSkipped ing re.contractID = false → ∃ ev, CollectedRow ing re ev

theorem RangeRows.append {batch : List Rpc.EventFilter} {rest : List (List Rpc.EventFilter)}
    {rows more : List Store.Event} (hrows : RangeRows ing chain from' to' [batch] rows)
    (hmore : RangeRows ing chain from' to' rest more) :
    RangeRows ing chain from' to' (batch :: rest) (rows ++ more) := by
  refine ⟨fun ev => ?_, forall_mem_cons.mpr ⟨hrows.2 batch (.head _), hmore.2⟩⟩
  rw [mem_append, hrows.1, hmore.1, exists_mem_cons_iff, exists_mem_cons_iff]
  simp

theorem collectBatchEventsInRange_yields (hto : to' < 2 ^ 32) (fuel : Nat) (allow : Bool)
    (batch : List Rpc.EventFilter) :
    Yields Fetches (ServedBy chain)
      (OnOk fun r => ∃ rows, r = some rows ∧ RangeRows ing chain from' to' [batch] rows)
      (collectBatchEventsInRange ing fuel from' to' batch allow) := by
  refine Yields.andThen (collectPages_yields hto allow fuel "" [] (.inl rfl)) ?_
  rintro r rfl
  cases hrows : collectedRows ing (leftAt chain batch from' to' "") with
  | error err =>
    dsimp only [nil_append]
    rw [hrows]
    trivial
  | ok rows =>
    dsimp only [nil_append]
    rw [hrows]
    refine ⟨rows, rfl, ?_, ?_⟩
    · intro ev
      rw [mem_collectedRows hrows]
      simp
    · intro b hb re hre hskip
      rw [mem_singleton.mp hb] at hre
      exact exists_collectedRow hrows hre hskip

theorem collectBatches_yields (hto : to' < 2 ^ 32) (fuel : Nat) (allow : Bool)
    (batches : List (List Rpc.EventFilter)) :
    Yields Fetches (ServedBy chain)
      (OnOk fun r => ∃ rows, r = some rows ∧ RangeRows ing chain from' to' batches rows)
      (collectBatches ing fuel from' to' allow batches) := by
  induction batches with
  | nil =>
    refine ⟨[], rfl, ?_, ?_⟩
    · simp
    · intro b hb
      cases hb
  | cons batch rest ih =>
    refine Yields.andThen (collectBatchEventsInRange_yields hto fuel allow batch) ?_
    rintro r ⟨rows, rfl, hrows⟩
    refine Yields.andThen ih ?_
    rintro r ⟨more, rfl, hmore⟩
    exact ⟨rows ++ more, rfl, hrows.append hmore⟩

def InRange (chain : Chain) (ids : List String) (from' to' : Nat) (re : Rpc.Event) : Prop :=
  re ∈ chain.events ∧ Wanted ids re ∧ from' ≤ re.ledger ∧ re.ledger ≤ to'

theorem mem_leftAt_start (ids : List String) (re : Rpc.Event) :
    (∃ batch ∈ filterBatches ids, re ∈ leftAt chain batch from' to' "") ↔
      InRange chain ids from' to' re := by
  have hmem : ∀ batch, re ∈ leftAt chain batch from' to' "" ↔
      re ∈ chain.events ∧ accepted batch re = true ∧ from' ≤ re.ledger ∧ re.ledger ≤ to' := by
    intro batch
    unfold leftAt upTo
    rw [if_pos rfl, mem_filter, mem_fromLedgerOn, decide_eq_true_eq]
    tauto
  constructor
  · rintro ⟨batch, hbatch, hre⟩
    obtain ⟨hchain, haccept, hfrom, hle⟩ := (hmem batch).mp hre
    exact ⟨hchain, (filterBatches_accept ids re).mp ⟨batch, hbatch, haccept⟩, hfrom, hle⟩
  · rintro ⟨hchain, hwanted, hfrom, hle⟩
    obtain ⟨batch, hbatch, haccept⟩ := (filterBatches_accept ids re).mpr hwanted
    exact ⟨batch, hbatch, (hmem batch).mpr ⟨hchain, haccept, hfrom, hle⟩⟩

end Pages

/-! ## A node whose RPC serves the chain -/

variable {b : Backend}

def Node.servedExec (ing : Ingester) (chain : Chain) :
    (o : Act) → Node b → Choice → Option (Ans o × Node b)
  | .getEvents _ req, n, .page resp =>
    if chain.serves req resp then some (.ok resp, n) else none
  | .getEvents _ _, n, .fail err =>
    if isLedgerOutOfRange err then none else some (.error err, n)
  | o, n, c => Node.exec ing o n c

theorem Node.exec_of_servedExec {chain : Chain} {o : Act} {n n' : Node b} {c : Choice} {a : Ans o}
    (h : Node.servedExec ing chain o n c = some (a, n')) :
    Node.exec ing o n c = some (a, n') := by
  unfold Node.servedExec at h
  split at h
  · split at h
    · exact h
    · cases h
  · split at h
    · cases h
    · exact h
  · exact h

theorem Node.served_of_servedExec {chain : Chain} {o : Act} {n n' : Node b} {c : Choice}
    {a : Ans o} (h : Node.servedExec ing chain o n c = some (a, n')) : ServedBy chain o a := by
  cases o with
  | getEvents site req =>
    cases c with
    | page resp =>
      simp only [Node.servedExec] at h
      split at h
      · rename_i hserves
        cases h
        exact hserves
      · cases h
    | fail err =>
      simp only [Node.servedExec] at h
      split at h
      · cases h
      · rename_i hrange
        cases h
        exact Bool.eq_false_iff.mpr hrange
    | _ => cases h
  | _ => trivial

def servedNode (b : Backend) (ing : Ingester) (chain : Chain) :
    Machine Act Ans (Node b) Choice Unit where
  exec := Node.servedExec ing chain
  drift _ _ := none

end SoroTrail.Ingest
