import Mathlib.Data.Prod.Lex
import SoroTrail.Horizon.Extract
import SoroTrail.Lib.Paging
import SoroTrail.Store.Query

/-!
# Walking through the pages of `QueryEvents`

The walk that passes each returned cursor on is compared with the rows the filter
means.  A row is placed by its order column and its id.  The cursor of a row
stands for that place, but rows of two networks may share a place, an id cursor
also bounds the ledger, and SQLite leaves out some conditions.  The walk returns
the right rows exactly when none of this shows at a page boundary.
-/

set_option autoImplicit false

namespace SoroTrail.Store

open Lib Rpc Decimal List Bool Paging Time

/-! ## Places -/

abbrev SortKey := ℤ ×ₗ Time ×ₗ String

def SortKey.of (ledger : Int) (t : Time) (id : String) : SortKey :=
  toLex (ledger, toLex (t, id))

def sortKey (f : EventFilter) (r : Event) : SortKey :=
  if f.orderBy = orderByLedger then SortKey.of r.ledger zero r.id
  else if f.orderBy = orderByCreatedAt then SortKey.of 0 r.createdAt r.id
  else SortKey.of 0 zero r.id

/-- The key belongs to a row of the store: the column that is not ordered by is left out, and
PostgreSQL keeps microseconds. -/
def isSortKey (b : Backend) (f : EventFilter) (k : SortKey) : Bool :=
  let (ledger, rest) := ofLex k
  let (t, _) := ofLex rest
  if f.orderBy = orderByLedger then decide (t = zero)
  else if f.orderBy = orderByCreatedAt then
    decide (ledger = 0 ∧ (b = .postgres → t.nano % 1000 = 0))
  else decide (ledger = 0 ∧ t = zero)

def cursorOf (f : EventFilter) (k : SortKey) : PageCursor :=
  let (ledger, rest) := ofLex k
  let (t, id) := ofLex rest
  if f.orderBy = orderByLedger then .byLedger ledger id
  else if f.orderBy = orderByCreatedAt then .byCreatedAt t id
  else .byID id

def selects (lib : QueryLib) (b : Backend) (f : EventFilter) : Option SortKey → Event → Bool
  | none, r => (whereClause lib b f ++ cursorClauses lib b f .start).all fun p => p r
  | some k, r => isSortKey b f k &&
      (whereClause lib b f ++ cursorClauses lib b f (cursorOf f k)).all fun p => p r

def InOrder (f : EventFilter) (x y : Event) : Prop :=
  if f.descending then sortKey f y ≤ sortKey f x else sortKey f x ≤ sortKey f y

theorem SortKey.lt_iff {l l' : Int} {t t' : Time} {id id' : String} :
    SortKey.of l t id < SortKey.of l' t' id' ↔ l < l' ∨ l = l' ∧ (t < t' ∨ t = t' ∧ id < id') := by
  rw [SortKey.of, SortKey.of, Prod.Lex.toLex_lt_toLex]
  rw [Prod.Lex.toLex_lt_toLex]

theorem SortKey.le_iff {l l' : Int} {t t' : Time} {id id' : String} :
    SortKey.of l t id ≤ SortKey.of l' t' id' ↔ l < l' ∨ l = l' ∧ (t < t' ∨ t = t' ∧ id ≤ id') := by
  rw [SortKey.of, SortKey.of, Prod.Lex.toLex_le_toLex]
  rw [Prod.Lex.toLex_le_toLex]

theorem formatTime_lt_iff (s t : Time) : formatTime s < formatTime t ↔ s < t := by
  unfold formatTime
  by_cases hs : s = zero
  · by_cases ht : t = zero
    · simp [hs, ht]
    · have hlt : zero < t := lt_of_le_of_ne t.zero_le (Ne.symm ht)
      have hne : t.fixedNano ≠ [] := by
        intro hnil
        have hlen := congrArg List.length hnil
        simp [fixedNano, civil] at hlen
      simp only [hs, ht, if_true, if_false, hlt, iff_true]
      cases htext : t.fixedNano with
      | nil => exact absurd htext hne
      | cons c cs => exact nil_lt_cons c cs
  · by_cases ht : t = zero
    · have hnot : ¬ s < zero := not_lt.mpr s.zero_le
      simp [hs, ht, hnot]
    · simp [hs, ht, fixedNano_lt_iff]

theorem formatTime_inj {s t : Time} : formatTime s = formatTime t ↔ s = t := by
  constructor
  · intro h
    by_contra hne
    rcases lt_or_gt_of_ne hne with hlt | hlt
    · exact absurd ((formatTime_lt_iff s t).mpr hlt) (by rw [h]; exact lt_irrefl _)
    · exact absurd ((formatTime_lt_iff t s).mpr hlt) (by rw [h]; exact lt_irrefl _)
  · intro h
    rw [h]

/-! ## Order and selection -/

section Order

variable {κ : Type} [LinearOrder κ]

theorem passes_iff (desc : Bool) (x c : κ) :
    passes desc x c = true ↔ if desc then x < c else c < x := by
  cases desc <;> simp [passes]

theorem reaches_iff (desc : Bool) (x c : κ) :
    reaches desc x c = true ↔ if desc then x ≤ c else c ≤ x := by
  cases desc <;> simp [reaches]

theorem passesPair_iff (desc : Bool) (x c : κ) (id cursorID : String) :
    passesPair desc x c id cursorID = true ↔
      if desc then x < c ∨ x = c ∧ id < cursorID else c < x ∨ c = x ∧ cursorID < id := by
  rw [passesPair, or_eq_true, Bool.and_eq_true, decide_eq_true_eq, passes_iff, passes_iff]
  cases desc
  · simp only [false_eq_true, if_false, eq_comm]
  · simp

theorem pair_iff (f : EventFilter) (x y : Event) (u v : κ) :
    sortsBefore.pair f x y u v = true ↔
      if f.descending then v < u ∨ v = u ∧ y.id ≤ x.id else u < v ∨ u = v ∧ x.id ≤ y.id := by
  rw [sortsBefore.pair, or_eq_true, Bool.and_eq_true, decide_eq_true_eq, passes_iff, reaches_iff]
  cases f.descending
  · simp
  · simp only [if_true, eq_comm]

end Order

theorem ledger_ne_createdAt : orderByCreatedAt ≠ orderByLedger := by decide

theorem sortsBefore_iff (b : Backend) (f : EventFilter) (x y : Event) :
    sortsBefore b f x y = true ↔ InOrder f x y := by
  unfold sortsBefore InOrder sortKey
  by_cases hledger : f.orderBy = orderByLedger
  · rw [if_pos hledger, if_pos hledger, if_pos hledger, pair_iff, SortKey.le_iff, SortKey.le_iff]
    simp
  · by_cases hcreated : f.orderBy = orderByCreatedAt
    · simp only [if_neg hledger, if_pos hcreated, SortKey.le_iff]
      cases b with
      | postgres => simp [pair_iff]
      | sqlite => simp [pair_iff, formatTime_lt_iff, formatTime_inj]
    · simp only [if_neg hledger, if_neg hcreated, SortKey.le_iff, reaches_iff]
      simp

theorem SortKey.exists_of (k : SortKey) : ∃ l t id, k = SortKey.of l t id :=
  ⟨(ofLex k).1, (ofLex (ofLex k).2).1, (ofLex (ofLex k).2).2, rfl⟩

variable {b : Backend} {f : EventFilter} {r : Event}

theorem selects_past {lib : QueryLib} {k : SortKey} (h : selects lib b f (some k) r = true) :
    if f.descending then sortKey f r < k else k < sortKey f r := by
  obtain ⟨l, t, id, rfl⟩ := SortKey.exists_of k
  rw [selects, Bool.and_eq_true, List.all_append, Bool.and_eq_true] at h
  obtain ⟨hkey, _, hclauses⟩ := h
  unfold isSortKey at hkey
  unfold cursorOf at hclauses
  unfold sortKey
  simp only [SortKey.of, ofLex_toLex] at hkey hclauses
  by_cases hledger : f.orderBy = orderByLedger
  · simp only [if_pos hledger] at hkey hclauses ⊢
    have hplace := of_decide_eq_true hkey
    simp only [cursorClauses, List.all_cons, List.all_nil, Bool.and_true, Bool.and_eq_true,
      passesPair_iff] at hclauses
    rw [SortKey.lt_iff, SortKey.lt_iff, hplace]
    simpa using hclauses.2
  · by_cases hcreated : f.orderBy = orderByCreatedAt
    · simp only [if_neg hledger, if_pos hcreated] at hkey hclauses ⊢
      have hplace := of_decide_eq_true hkey
      rw [SortKey.lt_iff, SortKey.lt_iff, hplace.1]
      cases b with
      | postgres =>
        simp only [cursorClauses, List.all_cons, List.all_nil, Bool.and_true, passesPair_iff,
          lib.timestamptz_micro t (hplace.2 rfl)] at hclauses
        simpa using hclauses
      | sqlite =>
        simp only [cursorClauses, List.all_cons, List.all_nil, Bool.and_true, Bool.and_eq_true,
          passesPair_iff, formatTime_lt_iff, formatTime_inj] at hclauses
        simpa using hclauses.2
    · simp only [if_neg hledger, if_neg hcreated] at hkey hclauses ⊢
      have hplace := of_decide_eq_true hkey
      rw [SortKey.lt_iff, SortKey.lt_iff, hplace.1, hplace.2]
      simp only [cursorClauses, List.all_append, List.all_cons, List.all_nil, Bool.and_true,
        Bool.and_eq_true, passes_iff] at hclauses
      simpa using hclauses.2

/-! ## Stored rows and their cursors -/

/-- The id is `<toid>-<index>` and the ledger stands in the upper half of the TOID. -/
def IsRpcRow (r : Event) : Prop :=
  ∃ toid index : Nat, toid < 10 ^ 20 ∧
    r.id = String.ofList (fixed 20 toid ++ '-' :: fixed 10 index) ∧
    r.ledger = (toid / 2 ^ 32 : Nat)

/-- The id is `<tx_hash>-<ledger>-<op>-<event>`. -/
def IsBackfillRow (r : Event) : Prop :=
  ∃ (txHash : String) (opIndex eventIndex : Int), txHash.toList.length = 64 ∧
    (∀ c ∈ txHash.toList, c ∈ lowerHex) ∧
    r.id = Horizon.formatEventID txHash r.ledger opIndex eventIndex ∧
    -2 ^ 63 ≤ r.ledger ∧ r.ledger < 2 ^ 63

/-- A row of either id scheme; PostgreSQL keeps times in microseconds. -/
def StoredRow (b : Backend) (r : Event) : Prop :=
  (IsRpcRow r ∨ IsBackfillRow r) ∧ (b = .postgres → r.createdAt.nano % 1000 = 0)

theorem isDigit_lowerHex {c : Char} (h : IsDigit c) : c ∈ lowerHex := by
  have hcode : 48 ≤ c.toNat ∧ c.toNat ≤ 57 := h
  have hall : ∀ n, 48 ≤ n → n ≤ 57 → Char.ofNat n ∈ lowerHex := by
    intro n hlow hhigh
    interval_cases n <;> decide
  have hc := hall c.toNat hcode.1 hcode.2
  rwa [Char.ofNat_toNat] at hc

section Alphabet

variable {alphabet : List Char} (hdigit : ∀ c, IsDigit c → c ∈ alphabet)

/-- An id that begins with two letters of the alphabet and goes on with letters and dashes. -/
theorem id_over {front back : List Char} (hlen : 2 ≤ front.length) (hfront : ∀ c ∈ front, c ∈ alphabet)
    (hback : ∀ c ∈ back, c ∈ '-' :: alphabet) :
    (∃ c d rest, front ++ back = c :: d :: rest ∧ c ∈ alphabet) ∧
      ∀ x ∈ front ++ back, x ∈ '-' :: alphabet := by
  constructor
  · match front, hlen, hfront with
    | c :: d :: rest, _, hfront => exact ⟨c, d, _, rfl, hfront c (.head _)⟩
  · intro x hx
    rcases mem_append.mp hx with hx | hx
    · exact .tail _ (hfront x hx)
    · exact hback x hx

include hdigit

theorem mem_zeroPad {w : Nat} {x : Int} {c : Char} (h : c ∈ zeroPad w x) :
    c ∈ '-' :: alphabet := by
  cases x with
  | ofNat n => exact .tail _ (hdigit c (isDigit_of_mem_zeros h))
  | negSucc n =>
    rcases mem_cons.mp h with h | h
    · rw [h]
      exact (.head _)
    · exact .tail _ (hdigit c (isDigit_of_mem_zeros h))

theorem rpcID_over {toid index : List Char} (hlen : toid.length = 20)
    (hdigits : ∀ c ∈ toid ++ index, IsDigit c) :
    (∃ c d rest, toid ++ '-' :: index = c :: d :: rest ∧ c ∈ alphabet) ∧
      ∀ x ∈ toid ++ '-' :: index, x ∈ '-' :: alphabet := by
  refine id_over (by omega) (fun c hc => hdigit c (hdigits c (mem_append_left _ hc))) ?_
  intro c hc
  rcases mem_cons.mp hc with hc | hc
  · rw [hc]
    exact (.head _)
  · exact .tail _ (hdigit c (hdigits c (mem_append_right _ hc)))

theorem formatEventID_over {txHash : String} (hlen : txHash.toList.length = 64)
    (hhex : ∀ c ∈ txHash.toList, c ∈ alphabet) (ledger opIndex eventIndex : Int) :
    (∃ c d rest, (Horizon.formatEventID txHash ledger opIndex eventIndex).toList = c :: d :: rest ∧
        c ∈ alphabet) ∧
      ∀ x ∈ (Horizon.formatEventID txHash ledger opIndex eventIndex).toList, x ∈ '-' :: alphabet := by
  have hlist : (Horizon.formatEventID txHash ledger opIndex eventIndex).toList = txHash.toList ++ '-' ::
      (zeroPad 20 ledger ++ '-' :: (zeroPad 5 opIndex ++ '-' ::
        zeroPad 5 eventIndex)) := by
    rw [Horizon.formatEventID]
    simp
  rw [hlist]
  refine id_over (by omega) hhex ?_
  intro x hx
  simp only [mem_append, mem_cons] at hx
  rcases hx with hx | hx | hx | hx | hx | hx
  · exact hx ▸ (.head _)
  · exact mem_zeroPad hdigit hx
  · exact hx ▸ .head _
  · exact mem_zeroPad hdigit hx
  · exact hx ▸ .head _
  · exact mem_zeroPad hdigit hx

end Alphabet

theorem IsRpcRow.plain (h : IsRpcRow r) : PlainID r.id := by
  obtain ⟨toid, index, _, hid, _⟩ := h
  rw [PlainID, hid, String.toList_ofList]
  refine rpcID_over (fun _ => isDigit_lowerHex) (length_fixed 20 toid) fun c hc => ?_
  exact (mem_append.mp hc).elim isDigit_of_mem_fixed isDigit_of_mem_fixed

theorem IsBackfillRow.plain (h : IsBackfillRow r) : PlainID r.id := by
  obtain ⟨txHash, opIndex, eventIndex, hlen, hhex, hid, _⟩ := h
  rw [PlainID, hid]
  exact formatEventID_over (fun _ => isDigit_lowerHex) hlen hhex _ _ _

theorem StoredRow.plain (h : StoredRow b r) : PlainID r.id :=
  h.1.elim IsRpcRow.plain IsBackfillRow.plain

theorem StoredRow.ledger_range (h : StoredRow b r) : -2 ^ 63 ≤ r.ledger ∧ r.ledger < 2 ^ 63 := by
  rcases h.1 with ⟨toid, index, hlt, _, hledger⟩ | ⟨_, _, _, _, _, _, hrange⟩
  · constructor
    · omega
    · omega
  · exact hrange

variable (lib : QueryLib)

theorem decimal_ne_empty {x : Int} (hlow : -2 ^ 63 ≤ x) (hhigh : x < 2 ^ 63) :
    String.ofList (decimal x) ≠ "" := by
  intro hempty
  have hparse := parseInt64_decimal hlow hhigh
  rw [← String.toList_ofList (l := decimal x), hempty] at hparse
  cases hparse

theorem rfc3339Nano_ne_empty (t : Time) : String.ofList t.rfc3339Nano ≠ "" := by
  intro hempty
  have hparse := t.parseUTC_rfc3339Nano
  rw [← String.toList_ofList (l := t.rfc3339Nano), hempty] at hparse
  cases hparse

theorem parseRFC3339Nano_rfc3339Nano (lib : CursorLib) (t : Time) :
    parseRFC3339Nano lib t.rfc3339Nano = some t := by
  have hyear : isDigits (t.rfc3339Nano.take 4) = true := by
    rw [rfc3339Nano, civil, isDigits]
    simpa [← length_pos_iff] using fun c hc => isDigit_of_mem_fixed hc
  have hdash : t.rfc3339Nano[4]? = some '-' := by
    rfl
  rw [parseRFC3339Nano, if_pos ⟨hyear, hdash⟩, t.parseUTC_rfc3339Nano]
  rfl

theorem readInt64_decimal {x : Int} (hlow : -2 ^ 63 ≤ x) (hhigh : x < 2 ^ 63) :
    readInt64 (bytesOf (String.ofList (decimal x))) = some x := by
  rw [readInt64, textOf_bytesOf, Option.bind_some, String.toList_ofList]
  exact parseInt64_decimal hlow hhigh

theorem readTime_rfc3339Nano (lib : CursorLib) (t : Time) :
    readTime lib (bytesOf (String.ofList t.rfc3339Nano)) = some t := by
  rw [readTime, textOf_bytesOf, Option.bind_some, String.toList_ofList]
  exact parseRFC3339Nano_rfc3339Nano lib t

theorem idParameter_bytesOf (id : String) : idParameter (bytesOf id) = .ok id := by
  rw [idParameter, textOf_bytesOf]

theorem StoredRow.decodeCursor (h : StoredRow b r) {cursor : String}
    (hvalid : validOrderBy f.orderBy = true)
    (hcursor : cursor = encodeCursorForBackend lib.toCursorLib (cursorTag b) f.orderBy r) :
    cursor ≠ "" ∧ isSortKey b f (sortKey f r) = true ∧
      Store.decodeCursor lib b { f with cursor := cursor } = .ok (cursorOf f (sortKey f r)) := by
  have hplain := h.plain
  obtain ⟨hlow, hhigh⟩ := h.ledger_range
  by_cases hledger : f.orderBy = orderByLedger
  · have hid : ¬ (f.orderBy = "" ∨ f.orderBy = orderByID) := by
      rw [hledger]
      decide
    rw [encodeCursorForBackend, if_pos hledger] at hcursor
    have hne : cursor ≠ "" := hcursor ▸ encodeComposite_ne_empty _ _ _ _
    refine ⟨hne, by simp [isSortKey, sortKey, SortKey.of, hledger], ?_⟩
    rw [Store.decodeCursor, if_neg hne, if_neg hid, hcursor,
      decodeComposite_encodeComposite _ b (decimal_ne_empty hlow hhigh) hplain]
    simp [hledger, readInt64_decimal hlow hhigh, idParameter_bytesOf, Except.map, cursorOf, sortKey,
      SortKey.of]
  by_cases hcreated : f.orderBy = orderByCreatedAt
  · have hid : ¬ (f.orderBy = "" ∨ f.orderBy = orderByID) := by
      rw [hcreated]
      decide
    rw [encodeCursorForBackend, if_neg hledger, if_pos hcreated] at hcursor
    have hne : cursor ≠ "" := hcursor ▸ encodeComposite_ne_empty _ _ _ _
    refine ⟨hne, ?_, ?_⟩
    · simpa [isSortKey, sortKey, SortKey.of, hcreated, ledger_ne_createdAt, imp_iff_not_or] using h.2
    · rw [Store.decodeCursor, if_neg hne, if_neg hid, hcursor,
        decodeComposite_encodeComposite _ b (rfc3339Nano_ne_empty r.createdAt) hplain]
      simp [hcreated, ledger_ne_createdAt, readTime_rfc3339Nano, idParameter_bytesOf, Except.map, cursorOf,
        sortKey, SortKey.of]
  · rw [encodeCursorForBackend, if_neg hledger, if_neg hcreated] at hcursor
    have hne : cursor ≠ "" := hcursor ▸ hplain.ne_empty
    have hid : f.orderBy = "" ∨ f.orderBy = orderByID := by
      simpa [validOrderBy, hledger, hcreated] using hvalid
    refine ⟨hne, by simp [isSortKey, sortKey, SortKey.of, hledger, hcreated], ?_⟩
    rw [Store.decodeCursor, if_neg hne, if_pos hid, hcursor, hplain.hex.decodeEventID]
    simp [hledger, hcreated, cursorOf, sortKey, SortKey.of]

/-! ## Pages -/

def pageStatement (b : Backend) (f : EventFilter) (c : Option SortKey) : Query where
  selects := selects lib b f c
  before := sortsBefore b f
  limit := (pageLimit f).toNat + 1

/-- The cursor text stands for the place: no cursor, or the cursor of a row. -/
def Resumes (b : Backend) (f : EventFilter) (rows : List Event) (cursor : String)
    (c : Option SortKey) : Prop :=
  (cursor = "" ∧ c = none) ∨
    ∃ r ∈ rows, cursor = encodeCursorForBackend lib.toCursorLib (cursorTag b) f.orderBy r ∧
      c = some (sortKey f r)

theorem whereClause_cursor (b : Backend) (f : EventFilter) (cursor : String) :
    whereClause lib b { f with cursor := cursor } = whereClause lib b f := by
  cases b <;> rfl

theorem cursorClauses_cursor (b : Backend) (f : EventFilter) (cursor : String) (c : PageCursor) :
    cursorClauses lib b { f with cursor := cursor } c = cursorClauses lib b f c := by
  cases b <;> cases c <;> rfl

/-- Every statement of a walk is answered by the database as it may answer. -/
def Answering (b : Backend) (limits : SparseLimits) (f : EventFilter) (rows : List Event)
    (dbs : Nat → Query → List Event) : Prop :=
  ∀ i cursor q limit, buildQueryEvents lib b limits { f with cursor := cursor } = .ok (q, limit) →
    q.Answers rows (dbs i q)

section Walks

variable {b : Backend} {limits : SparseLimits} {f : EventFilter} {rows : List Event}
  {cursor : String} {dbs : Nat → Query → List Event} {i : Nat} {out : List Event}
  {c : Option SortKey}

theorem buildQueryEvents_before {q : Query} {limit : Nat}
    (h : buildQueryEvents lib b limits { f with cursor := cursor } = .ok (q, limit)) :
    q.before = sortsBefore b f := by
  obtain ⟨-, -, c, -, rfl, -⟩ := (buildQueryEvents_eq_ok lib).mp h
  rfl

theorem walk_fuel {fuel : Nat} (h : walk lib b limits dbs f fuel i cursor = .ok out) (more : Nat) :
    walk lib b limits dbs f (fuel + more) i cursor = .ok out := by
  induction fuel generalizing i cursor out with
  | zero => cases h
  | succ fuel ih =>
    rw [Nat.succ_add, walk]
    rw [walk] at h
    cases hpage : queryEvents lib b limits (dbs i) { f with cursor := cursor } with
    | error err => simp [hpage] at h
    | ok page =>
      simp only [hpage] at h ⊢
      split at h
      · rename_i hnext
        rw [if_pos hnext]
        exact h
      · rename_i hnext
        rw [if_neg hnext]
        cases hrest : walk lib b limits dbs f fuel (i + 1) page.2 with
        | error err => simp [hrest] at h
        | ok rest =>
          rw [hrest] at h
          rw [ih hrest]
          exact h

theorem walk_unique {fuel fuel' : Nat} {out' : List Event}
    (h : walk lib b limits dbs f fuel i cursor = .ok out)
    (h' : walk lib b limits dbs f fuel' i cursor = .ok out') : out = out' := by
  have hlong := walk_fuel lib h fuel'
  rw [Nat.add_comm, walk_fuel lib h' fuel] at hlong
  exact (Except.ok.inj hlong).symm

/-- A walk depends on the answers to its own pages. -/
theorem walk_congr {dbs' : Nat → Query → List Event} (h : ∀ j, i ≤ j → dbs j = dbs' j)
    (fuel : Nat) (cursor : String) :
    walk lib b limits dbs f fuel i cursor = walk lib b limits dbs' f fuel i cursor := by
  induction fuel generalizing i cursor with
  | zero => rfl
  | succ fuel ih =>
    have hrest : ∀ next, walk lib b limits dbs f fuel (i + 1) next =
        walk lib b limits dbs' f fuel (i + 1) next :=
      ih (fun j hj => h j (by omega))
    simp only [walk, h i le_rfl, hrest]

variable (hsparse : validateSparseFilterRange f limits = .ok ())
  (hvalid : validOrderBy f.orderBy = true) (hrows : ∀ r ∈ rows, StoredRow b r)

include hsparse hvalid hrows

theorem Resumes.buildQueryEvents (h : Resumes lib b f rows cursor c) :
    Store.buildQueryEvents lib b limits { f with cursor := cursor } =
      .ok (pageStatement lib b f c, (pageLimit f).toNat) := by
  have hsparse' : validateSparseFilterRange { f with cursor := cursor } limits = .ok () := hsparse
  have hvalid' : ¬ validOrderBy f.orderBy = false := by simp [hvalid]
  rw [Store.buildQueryEvents, hsparse']
  rw [if_neg hvalid']
  rcases h with ⟨rfl, rfl⟩ | ⟨r, hr, hcursor, rfl⟩
  · simp only [Store.decodeCursor, if_true, whereClause_cursor, cursorClauses_cursor]
    rfl
  · obtain ⟨_, hkey, hdecode⟩ := (hrows r hr).decodeCursor lib hvalid hcursor
    have hsel : selects lib b f (some (sortKey f r)) = fun x =>
        (whereClause lib b f ++ cursorClauses lib b f (cursorOf f (sortKey f r))).all fun p => p x := by
      funext x
      simp [selects, hkey]
    simp only [hdecode, whereClause_cursor, cursorClauses_cursor]
    rw [pageStatement, hsel]
    rfl

variable {κ : Type} [LinearOrder κ] (e : SortKey ≃ κ)

omit hsparse hvalid hrows in
theorem answers_pageStatement_iff (horder : ∀ x y, InOrder f x y ↔ e (sortKey f x) ≤ e (sortKey f y))
    {c : Option κ} {answer : List Event} :
    (pageStatement lib b f (c.map e.symm)).Answers rows answer ↔
      ∃ all, Arranges (fun r => e (sortKey f r)) (fun c => selects lib b f (c.map e.symm)) rows c
        all ∧ answer = all.take ((pageLimit f).toNat + 1) := by
  have hsorted : ∀ all : List Event, all.Pairwise (fun x y => sortsBefore b f x y = true) ↔
      Sorted (fun r => e (sortKey f r)) all := by
    intro all
    apply List.Pairwise.iff
    intro x y
    rw [sortsBefore_iff, horder]
  constructor
  · rintro ⟨all, hperm, hbefore, hanswer⟩
    exact ⟨all, ⟨hperm, (hsorted all).mp hbefore⟩, hanswer⟩
  · rintro ⟨all, ⟨hperm, hbefore⟩, hanswer⟩
    exact ⟨all, hperm, (hsorted all).mpr hbefore, hanswer⟩

variable (hopen : ¬ (b = .postgres ∧ f.scope.deniesAll = true))

include hopen

theorem walk_last (h : Resumes lib b f rows cursor c)
    (hshort : (dbs i (pageStatement lib b f c)).length ≤ (pageLimit f).toNat) (fuel : Nat) :
    walk lib b limits dbs f (fuel + 1) i cursor = .ok (dbs i (pageStatement lib b f c)) := by
  rw [walk, queryEvents, if_neg hopen, h.buildQueryEvents lib hsparse hvalid hrows]
  simp [Nat.not_lt.mpr hshort]

theorem walk_more (h : Resumes lib b f rows cursor c) {last : Event}
    (hlong : (pageLimit f).toNat < (dbs i (pageStatement lib b f c)).length)
    (hlast : ((dbs i (pageStatement lib b f c)).take (pageLimit f).toNat).getLast? = some last)
    (hmem : last ∈ rows) {fuel : Nat} {rest : List Event}
    (hrest : walk lib b limits dbs f fuel (i + 1)
      (encodeCursorForBackend lib.toCursorLib (cursorTag b) f.orderBy last) = .ok rest) :
    walk lib b limits dbs f (fuel + 1) i cursor =
      .ok ((dbs i (pageStatement lib b f c)).take (pageLimit f).toNat ++ rest) := by
  have hnext := ((hrows last hmem).decodeCursor lib hvalid rfl).1
  rw [walk, queryEvents, if_neg hopen, h.buildQueryEvents lib hsparse hvalid hrows]
  simp [hlong, hlast, hnext, hrest]

variable (horder : ∀ x y, InOrder f x y ↔ e (sortKey f x) ≤ e (sortKey f y))
  (hpast : ∀ c r, selects lib b f (c.map e.symm) r = true →
    follows (fun r => e (sortKey f r)) c r = true)
  (hlimit : 0 < (pageLimit f).toNat)

include horder

omit hsparse hvalid hrows hopen in
theorem exists_answering : ∃ dbs, Answering lib b limits f rows dbs := by
  classical
  refine ⟨fun _ q => if h : ∃ answer, q.Answers rows answer then h.choose else [], ?_⟩
  intro i cursor q limit hbuild
  have hexists : ∃ answer, q.Answers rows answer := by
    obtain ⟨all, hperm, hsorted⟩ :=
      exists_arranges (fun r => e (sortKey f r)) (fun _ => q.selects) rows none
    refine ⟨_, all, hperm, ?_, rfl⟩
    rw [buildQueryEvents_before lib hbuild]
    exact hsorted.imp fun hle => (sortsBefore_iff b f _ _).mpr ((horder _ _).mpr hle)
  dsimp only
  rw [dif_pos hexists]
  exact hexists.choose_spec

include hpast hlimit

theorem exists_walk_of_answering (hdbs : Answering lib b limits f rows dbs) {c : Option κ}
    (i : Nat) (h : Resumes lib b f rows cursor (c.map e.symm)) :
    ∃ fuel out, walk lib b limits dbs f fuel i cursor = .ok out ∧
      Walk (fun r => e (sortKey f r)) (fun c => selects lib b f (c.map e.symm))
        (pageLimit f).toNat rows c out := by
  induction hn : rows.countP (follows (fun r => e (sortKey f r)) c) using Nat.strong_induction_on
    generalizing c cursor i with
  | _ n ih =>
    have hanswer := hdbs i cursor _ _ (h.buildQueryEvents lib hsparse hvalid hrows)
    obtain ⟨all, hall, hpage⟩ := (answers_pageStatement_iff lib e horder).mp hanswer
    by_cases hshort : all.length ≤ (pageLimit f).toNat
    · have hwhole : dbs i (pageStatement lib b f (c.map e.symm)) = all := by
        rw [hpage, take_of_length_le (by omega)]
      refine ⟨1, all, ?_, .last hall hshort⟩
      rw [walk_last lib hsparse hvalid hrows hopen h (by rw [hwhole]; exact hshort), hwhole]
    · have htake : (dbs i (pageStatement lib b f (c.map e.symm))).take (pageLimit f).toNat =
          all.take (pageLimit f).toNat := by
        rw [hpage, take_take, Nat.min_eq_left (by omega)]
      have hne : all.take (pageLimit f).toNat ≠ [] := by
        rw [← length_pos_iff, length_take]
        omega
      have hlast := List.getLast?_eq_some_getLast hne
      have hmem := hall.mem_iff.mp (mem_of_mem_take (getLast_mem hne))
      obtain ⟨fuel, out, hwalk, hrest⟩ := ih _
        (by rw [← hn]; exact follows_fewer hpast hmem.1 hmem.2)
        (i + 1) (.inr ⟨_, hmem.1, rfl, by simp⟩) rfl
      refine ⟨fuel + 1, _, ?_, .more hall (by omega) hlast hrest⟩
      rw [← htake]
      apply walk_more lib hsparse hvalid hrows hopen h _ (by rw [htake]; exact hlast) hmem.1 hwalk
      rw [hpage, length_take]
      omega

omit hpast hlimit in
/-- Every walk of the arrangements is one the database may cause. -/
theorem exists_answering_of_walk {c : Option κ}
    (hwalk : Walk (fun r => e (sortKey f r)) (fun c => selects lib b f (c.map e.symm))
      (pageLimit f).toNat rows c out) (i : Nat) (h : Resumes lib b f rows cursor (c.map e.symm)) :
    ∃ dbs, Answering lib b limits f rows dbs ∧
      ∃ fuel, walk lib b limits dbs f fuel i cursor = .ok out := by
  classical
  induction hwalk generalizing cursor i with
  | @last c all hall hshort =>
    obtain ⟨dbs, hdbs⟩ : ∃ dbs, Answering lib b limits f rows dbs := exists_answering lib e horder
    let page : Nat → Query → List Event := fun j q =>
      if j = i ∧ q = pageStatement lib b f (c.map e.symm) then all.take ((pageLimit f).toNat + 1)
      else dbs j q
    have hpage : page i (pageStatement lib b f (c.map e.symm)) = all := by
      rw [show page i (pageStatement lib b f (c.map e.symm)) = all.take ((pageLimit f).toNat + 1) from
        if_pos ⟨rfl, rfl⟩, take_of_length_le (by omega)]
    refine ⟨page, ?_, 1, ?_⟩
    · intro j cursor' q limit hbuild
      by_cases hthis : j = i ∧ q = pageStatement lib b f (c.map e.symm)
      · rw [show page j q = all.take ((pageLimit f).toNat + 1) from if_pos hthis, hthis.2]
        exact (answers_pageStatement_iff lib e horder).mpr ⟨all, hall, rfl⟩
      · rw [show page j q = dbs j q from if_neg hthis]
        exact hdbs j cursor' q limit hbuild
    · rw [walk_last lib hsparse hvalid hrows hopen h (by rw [hpage]; exact hshort), hpage]
  | @more c all out last hall hlong hlast _ ih =>
    have hmem := hall.mem_iff.mp (mem_of_mem_take (mem_of_getLast? hlast))
    obtain ⟨dbs, hdbs, fuel, hrest⟩ := ih (i + 1)
      (.inr ⟨last, hmem.1, rfl, by simp⟩ : Resumes lib b f rows
        (encodeCursorForBackend lib.toCursorLib (cursorTag b) f.orderBy last) _)
    let page : Nat → Query → List Event := fun j q =>
      if j = i ∧ q = pageStatement lib b f (c.map e.symm) then all.take ((pageLimit f).toNat + 1)
      else dbs j q
    have hpage : page i (pageStatement lib b f (c.map e.symm)) =
        all.take ((pageLimit f).toNat + 1) := if_pos ⟨rfl, rfl⟩
    have hlater : ∀ j, i + 1 ≤ j → page j = dbs j := by
      intro j hj
      funext q
      exact if_neg fun hthis => by omega
    have htake : (page i (pageStatement lib b f (c.map e.symm))).take (pageLimit f).toNat =
        all.take (pageLimit f).toNat := by
      rw [hpage, take_take, Nat.min_eq_left (by omega)]
    refine ⟨page, ?_, fuel + 1, ?_⟩
    · intro j cursor' q limit hbuild
      by_cases hthis : j = i ∧ q = pageStatement lib b f (c.map e.symm)
      · rw [show page j q = all.take ((pageLimit f).toNat + 1) from if_pos hthis, hthis.2]
        exact (answers_pageStatement_iff lib e horder).mpr ⟨all, hall, rfl⟩
      · rw [show page j q = dbs j q from if_neg hthis]
        exact hdbs j cursor' q limit hbuild
    · rw [← htake]
      apply walk_more lib hsparse hvalid hrows hopen h _ (by rw [htake]; exact hlast) hmem.1
      · rw [walk_congr lib hlater]
        exact hrest
      · rw [hpage, length_take]
        omega

end Walks

/-! ## Samples -/

/-- A database that answers with the selected rows sorted by insertion. -/
def insertionAnswer (rows : List Event) (_page : Nat) (q : Query) : List Event :=
  ((rows.filter q.selects).insertionSort fun x y => q.before x y = true).take q.limit

theorem answering_insertionAnswer (b : Backend) (limits : SparseLimits) (f : EventFilter)
    (rows : List Event) : Answering lib b limits f rows (insertionAnswer rows) := by
  intro i cursor q limit hbuild
  have hbefore : ∀ x y, q.before x y = true ↔ InOrder f x y := by
    rw [buildQueryEvents_before lib hbuild]
    exact sortsBefore_iff b f
  have : Std.Total fun x y => q.before x y = true := ⟨fun x y => by
    rw [hbefore, hbefore, InOrder, InOrder]
    split
    · exact le_total _ _
    · exact le_total _ _⟩
  have : IsTrans Event fun x y => q.before x y = true := ⟨fun x y z => by
    rw [hbefore, hbefore, hbefore, InOrder, InOrder, InOrder]
    split
    · exact fun hxy hyz => le_trans hyz hxy
    · exact le_trans⟩
  exact ⟨_, perm_insertionSort _ _, pairwise_insertionSort _ _, rfl⟩

theorem sortKey_id (f : EventFilter) (r : Event) : (ofLex (ofLex (sortKey f r)).2).2 = r.id := by
  unfold sortKey
  split_ifs <;> rfl

theorem id_of_inOrder {x y : Event} (hxy : InOrder f x y) (hyx : InOrder f y x) : x.id = y.id := by
  have hkey : sortKey f x = sortKey f y := by
    unfold InOrder at hxy hyx
    split_ifs at hxy hyx
    · exact le_antisymm hyx hxy
    · exact le_antisymm hxy hyx
  rw [← sortKey_id f x, hkey, sortKey_id]

theorem Query.Answers.unique {q q' : Query} {rows rows' answer answer' : List Event}
    (h : q.Answers rows answer) (h' : q'.Answers rows' answer')
    (hrows : (rows'.filter q'.selects).Perm (rows.filter q.selects)) (hlimit : q'.limit = q.limit)
    (horder : ∀ x y, q.before x y = true ↔ InOrder f x y)
    (horder' : ∀ x y, q'.before x y = true ↔ InOrder f x y)
    (hids : ∀ x ∈ rows.filter q.selects, ∀ y ∈ rows.filter q.selects, x.id = y.id → x = y) :
    answer' = answer := by
  obtain ⟨all, hperm, hsorted, rfl⟩ := h
  obtain ⟨all', hperm', hsorted', rfl⟩ := h'
  have hall : all' = all := by
    refine List.Perm.eq_of_pairwise ?_ (hsorted'.imp (horder' _ _).mp)
      (hsorted.imp (horder _ _).mp) (hperm'.trans (hrows.trans hperm.symm))
    intro x y hx hy hxy hyx
    exact hids x ((hperm'.trans hrows).mem_iff.mp hx) y (hperm.mem_iff.mp hy) (id_of_inOrder hxy hyx)
  rw [hall, hlimit]

def QueryLib.verbatim : QueryLib where
  hmacSHA256 _ := List.replicate 32 0
  length_hmacSHA256 _ := length_replicate
  parseElsewhere _ := none
  jsonbContains topics value := decide (topics = value)
  jsonbAt _ _ _ := false
  sqliteContains _ _ := false
  sqliteAt _ _ _ := false
  jsonElements _ := none
  timestamptz t := t
  timestamptz_micro _ _ := rfl

def Event.stored (id : String) (ledger : Int) : Event := .sample "testnet" id "C1" ledger

def Event.fromRpc (ledger : Nat) : Event :=
  Event.stored (String.ofList (fixed 20 (ledger * 2 ^ 32 + 4096) ++ '-' :: fixed 10 0))
    ledger

def Event.fromBackfill (ledger : Nat) : Event :=
  Event.stored (Horizon.formatEventID (String.ofList (List.replicate 64 'a')) ledger 0 0) ledger

theorem storedRow_fromRpc (b : Backend) {ledger : Nat} (h : ledger < 2 ^ 32) :
    StoredRow b (Event.fromRpc ledger) := by
  refine ⟨.inl ⟨ledger * 2 ^ 32 + 4096, 0, by omega, rfl, ?_⟩, fun _ => rfl⟩
  have hledger : (ledger * 2 ^ 32 + 4096) / 2 ^ 32 = ledger := by omega
  rw [hledger]
  rfl

theorem storedRow_fromBackfill (b : Backend) {ledger : Nat} (h : ledger < 2 ^ 32) :
    StoredRow b (Event.fromBackfill ledger) := by
  have hhash : (String.ofList (List.replicate 64 'a')).toList = List.replicate 64 'a' :=
    String.toList_ofList
  refine ⟨.inr ⟨_, 0, 0, ?_, ?_, rfl, ?_, ?_⟩, fun _ => rfl⟩
  · rw [hhash, length_replicate]
  · intro c hc
    rw [hhash] at hc
    rw [eq_of_mem_replicate hc]
    decide
  · simp only [Event.fromBackfill, Event.stored, Event.sample]
    omega
  · simp only [Event.fromBackfill, Event.stored, Event.sample]
    omega

/-! ## Complete walks -/

/-- However the database orders rows of one place, the walk ends and returns the rows the filter
means, each once, in the requested order. -/
def WalkComplete (b : Backend) (limits : SparseLimits) (rows : List Event) (f : EventFilter) : Prop :=
  ∀ dbs, Answering lib b limits f rows dbs → ∃ fuel out, walk lib b limits dbs f fuel 0 "" = .ok out ∧
    out.Perm (rows.filter (f.accepts lib)) ∧ out.Pairwise (InOrder f)

/-- Page by page, the statements select the rows the filter means. -/
def PagesServed (b : Backend) (rows : List Event) (f : EventFilter) : Prop :=
  if f.descending then
    Served (fun r => OrderDual.toDual (sortKey f r))
      (fun c => selects lib b f (c.map OrderDual.ofDual)) (pageLimit f).toNat rows (f.accepts lib) none
  else
    Served (sortKey f) (selects lib b f) (pageLimit f).toNat rows (f.accepts lib) none

section Complete

variable {b : Backend} {limits : SparseLimits} {f : EventFilter} {rows : List Event}

theorem walkComplete_iff_served (hsparse : validateSparseFilterRange f limits = .ok ())
    (hvalid : validOrderBy f.orderBy = true) (hrows : ∀ r ∈ rows, StoredRow b r)
    (hopen : ¬ (b = .postgres ∧ f.scope.deniesAll = true)) (hnodup : rows.Nodup)
    {κ : Type} [LinearOrder κ] (e : SortKey ≃ κ)
    (horder : ∀ x y, InOrder f x y ↔ e (sortKey f x) ≤ e (sortKey f y))
    (hpast : ∀ c r, selects lib b f (c.map e.symm) r = true →
      follows (fun r => e (sortKey f r)) c r = true)
    (hlimit : 0 < (pageLimit f).toNat) :
    WalkComplete lib b limits rows f ↔
      Served (fun r => e (sortKey f r)) (fun c => selects lib b f (c.map e.symm))
        (pageLimit f).toNat rows (f.accepts lib) none := by
  have hstart : Resumes lib b f rows "" (none.map e.symm) := .inl ⟨rfl, rfl⟩
  have hleft : left (fun r => e (sortKey f r)) rows (f.accepts lib) none =
      rows.filter (f.accepts lib) := by
    simp [left, follows]
  have hsorted : ∀ out : List Event, out.Pairwise (InOrder f) ↔
      Sorted (fun r => e (sortKey f r)) out := fun out => List.Pairwise.iff horder
  rw [← walks_iff_served hpast hnodup hlimit, hleft]
  constructor
  · intro hcomplete out hwalk
    obtain ⟨dbs, hdbs, fuel, hout⟩ :=
      exists_answering_of_walk lib hsparse hvalid hrows e hopen horder hwalk 0 hstart
    obtain ⟨fuel', out', hout', hperm, hordered⟩ := hcomplete dbs hdbs
    obtain rfl := walk_unique lib hout hout'
    exact ⟨hperm, (hsorted _).mp hordered⟩
  · intro hwalks dbs hdbs
    obtain ⟨fuel, out, hout, hwalk⟩ :=
      exists_walk_of_answering lib hsparse hvalid hrows e hopen horder hpast hlimit hdbs 0 hstart
    obtain ⟨hperm, hordered⟩ := hwalks out hwalk
    exact ⟨fuel, out, hout, hperm, (hsorted _).mpr hordered⟩

theorem walkComplete_of_deniesAll (hdeny : b = .postgres ∧ f.scope.deniesAll = true) :
    WalkComplete lib b limits rows f := by
  intro dbs _
  have hnone : rows.filter (f.accepts lib) = [] := by
    rw [filter_eq_nil_iff]
    intro r _
    have hscope : f.scope.allows r.contractID = false := by
      have hdenies := hdeny.2
      simp only [Scope.deniesAll, Bool.and_eq_true, Bool.not_eq_true', List.isEmpty_iff] at hdenies
      simp [Scope.allows, hdenies.1, hdenies.2]
    simp [EventFilter.accepts, hscope]
  refine ⟨1, [], ?_, ?_, List.Pairwise.nil⟩
  · rw [walk, queryEvents, if_pos hdeny]
    rfl
  · rw [hnone]

theorem not_walkComplete_of_sparse {err : Err} (hsparse : validateSparseFilterRange f limits = .error err)
    (hopen : ¬ (b = .postgres ∧ f.scope.deniesAll = true)) : ¬ WalkComplete lib b limits rows f := by
  have hbuild : ∀ cursor, buildQueryEvents lib b limits { f with cursor := cursor } = .error err := by
    intro cursor
    have hsparse' : validateSparseFilterRange { f with cursor := cursor } limits = .error err := hsparse
    rw [buildQueryEvents, hsparse']
  intro hcomplete
  obtain ⟨fuel, out, hwalk, _⟩ := hcomplete (fun _ _ => []) (by
    intro i cursor q limit h
    rw [hbuild cursor] at h
    cases h)
  cases fuel with
  | zero => cases hwalk
  | succ fuel =>
    rw [walk, queryEvents, if_neg hopen, hbuild] at hwalk
    cases hwalk

theorem walkComplete_iff_pagesServed_of_open (hsparse : validateSparseFilterRange f limits = .ok ())
    (hvalid : validOrderBy f.orderBy = true) (hrows : ∀ r ∈ rows, StoredRow b r)
    (hopen : ¬ (b = .postgres ∧ f.scope.deniesAll = true)) (hnodup : rows.Nodup)
    (hlimit : 0 < (pageLimit f).toNat) :
    WalkComplete lib b limits rows f ↔ PagesServed lib b rows f := by
  unfold PagesServed
  cases hdesc : f.descending with
  | true =>
    refine walkComplete_iff_served lib hsparse hvalid hrows hopen hnodup OrderDual.toDual ?_ ?_ hlimit
    · intro x y
      rw [InOrder, if_pos hdesc, OrderDual.toDual_le_toDual]
    · intro c r hsel
      cases c with
      | none => rfl
      | some k =>
        have hpast := selects_past hsel
        rw [if_pos hdesc] at hpast
        exact decide_eq_true hpast
  | false =>
    have hdesc' : ¬ f.descending = true := by simp [hdesc]
    have hmap : ∀ c : Option SortKey, c.map (Equiv.refl SortKey).symm = c := fun c => by simp
    have hserved : WalkComplete lib b limits rows f ↔ _ := walkComplete_iff_served lib hsparse hvalid
      hrows hopen hnodup (Equiv.refl SortKey)
      (by
        intro x y
        rw [InOrder, if_neg hdesc']
        rfl)
      (by
        intro c r hsel
        cases c with
        | none => rfl
        | some k =>
          have hpast := selects_past hsel
          rw [if_neg hdesc'] at hpast
          exact decide_eq_true hpast)
      hlimit
    simpa [hmap] using hserved

end Complete

end SoroTrail.Store
