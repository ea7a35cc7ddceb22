import Mathlib.Data.List.Infix
import SoroTrail.Api.ListCache

/-!
# One filter on two backends

`QueryEvents` and `CountEvents` of the two stores are asked with one filter and hold
the same rows.  SQLite's conditions leave out fields, its `LIKE` folds case and has
no escape, and it compares topics as text; its count reads fewer fields still.  When
none of this shows, both return the same page, and each counts the rows of its walk.
-/

set_option autoImplicit false

namespace SoroTrail.Api

open Lib Store List Function Text Json Paging
open Rpc (Err)

/-! ## Counting -/

def unpaged (f : EventFilter) : EventFilter :=
  { f with cursor := "", order := "", orderBy := "", limit := 0 }

/-- The conditions `SQLite.CountEvents` builds beside the one on `Types`. -/
def sqliteCountClause (lib : QueryLib) (f : EventFilter) : List (Event → Bool) :=
  clause (decide (f.contractID ≠ "")) (fun r => decide (r.contractID = f.contractID)) ++
    clause (decide (f.topic ≠ "")) (fun r => lib.sqliteContains r.topics f.topic) ++
    (if f.topicContains ≠ "" then
      match lib.jsonElements f.topicContains with
      | some elems => elems.map fun elem => fun (r : Event) => lib.sqliteContains r.topics elem
      | none => [fun (_ : Event) => false]
    else []) ++
    ((topicPositions f).map fun (i, topic) => fun (r : Event) => lib.sqliteAt r.topics i topic) ++
    ledgerClauses f ++
    clause (decide (f.fromTime ≠ Time.zero))
      (fun r => decide (formatTime r.createdAt ≥ formatTime f.fromTime)) ++
    clause (decide (f.toTime ≠ Time.zero))
      fun r => decide (formatTime r.createdAt ≤ formatTime f.toTime)

/-- `CountEvents` on the stored rows.  SQLite is sent `type = ANY(?)`, which it does not know; the
text of its error is left out. -/
def countEvents (lib : QueryLib) (f : EventFilter) (rows : List Event) : Backend → Except Err Nat
  | .postgres =>
    if f.scope.deniesAll then .ok 0
    else .ok (rows.countP fun r => (buildEventWhereClause lib (unpaged f)).all fun p => p r)
  | .sqlite =>
    if f.types ≠ [] then .error (.other "counting events")
    else .ok (rows.countP fun r => (sqliteCountClause lib (unpaged f)).all fun p => p r)

/-! ## What both read alike -/

section Alike

variable (lib : QueryLib) (jsonb : Jsonb) (f : EventFilter) (rows : List Event)

/-- The topics are an array with an element of the needle's value. -/
def HasElement (topics needle : String) : Prop :=
  ∃ items v, jsonb.read topics = some (.arr items) ∧ jsonb.read needle = some v ∧ v ∈ items

/-- Comparing minified texts finds the needle exactly where its value is. -/
def ByValue (topics needle : String) : Prop :=
  lib.sqliteContains topics needle = true ↔ HasElement jsonb topics needle

def Needle (v : Json Number) : Prop :=
  jsonb.read f.topic = some v ∨ ∃ needles, jsonb.read f.topicContains = some (.arr needles) ∧ v ∈ needles

/-- An element of the topics that contains a needle is the needle. -/
def ExactTopics : Prop :=
  ∀ r ∈ rows, ∀ items, jsonb.read r.topics = some (.arr items) → ∀ v, Needle jsonb f v →
    ∀ item ∈ items, within v item = true → item = v

/-- `LIKE` gives no character a meaning, and case makes no difference. -/
def Plain (c : Char) : Prop := c ≠ '%' ∧ c ≠ '_' ∧ c ≠ '\\' ∧ c.isLower = false

instance (c : Char) : Decidable (Plain c) := inferInstanceAs (Decidable (_ ∧ _))

/-- Both stores read the elements of `TopicContains` alike and find them by their values. -/
def ElementsByValue : Prop :=
  ∃ elems needles, lib.jsonElements f.topicContains = some elems ∧
    jsonb.read f.topicContains = some (.arr needles) ∧ elems.map jsonb.read = needles.map some ∧
    ∀ r ∈ rows, (∃ items, jsonb.read r.topics = some (.arr items)) ∧
      ∀ elem ∈ elems, ByValue lib jsonb r.topics elem

/-- The filter sets nothing SQLite leaves out, and on these rows SQLite's texts say what PostgreSQL's
values say. -/
structure Portable : Prop where
  hasValue : f.hasValue = none
  txIndex : f.txIndex = none
  opIndex : f.opIndex = none
  contractIDPrefix : f.contractIDPrefix = "" ∨ (∀ c ∈ f.contractIDPrefix.toList, Plain c) ∧
    ∀ r ∈ rows, ∀ c ∈ r.contractID.toList, c.isLower = false
  topic : f.topic = "" ∨ ∀ r ∈ rows, ByValue lib jsonb r.topics f.topic
  topicContains : f.topicContains = "" ∨ ElementsByValue lib jsonb f rows
  positions : ∀ p ∈ topicPositions f, ∀ r ∈ rows,
    lib.sqliteAt r.topics p.1 p.2 = jsonb.columnAt r.topics p.1 p.2
  cursor : ∀ c, decodeCursor lib .postgres f = .ok c → decodeCursor lib .sqlite f = .ok c ∧
    ∀ t id, c = .byCreatedAt t id → t.nano % 1000 = 0

/-- The filter sets nothing else that `SQLite.CountEvents` leaves out. -/
structure Countable : Prop where
  contractIDs : f.contractIDs = []
  contractIDPrefix : f.contractIDPrefix = ""
  types : f.types = []
  txHash : f.txHash = ""
  inSuccessfulCall : f.inSuccessfulCall = none

/-- The ledger an id cursor stands for bounds no row past the id. -/
def BoundsHold : Prop :=
  f.orderBy = orderByLedger ∨ f.orderBy = orderByCreatedAt ∨
    ∀ x ∈ rows, ∀ y ∈ rows, x.id < y.id →
      (∀ l, cursorLedger x.id = some l → l ≤ y.ledger) ∧ ∀ l, cursorLedger y.id = some l → x.ledger ≤ l

end Alike

/-! ## Prefixes -/

section Like

variable {escape : Bool} {same : Char → Char → Bool}

theorem like_cons {p c : Char} {ps s : List Char} (hp : Plain p) :
    like escape same (p :: ps) (c :: s) = (same p c && like escape same ps s) := by
  rw [like.eq_def]
  split
  · rename_i heq
    cases heq
  · rename_i heq
    exact absurd (List.cons.inj heq).1 hp.1
  · rename_i heq
    exact absurd (List.cons.inj heq).1 hp.2.1
  · rename_i heq
    obtain ⟨rfl, rfl⟩ := List.cons.inj heq
    simp [hp.2.2.1]

theorem like_cons_nil {p : Char} {ps : List Char} (hp : Plain p) :
    like escape same (p :: ps) [] = false :=
  like.eq_5 _ _ _ _ hp.1 hp.2.1

theorem like_percent (s : List Char) : like escape same ['%'] s = true := by
  simp only [like, List.any_eq_true, List.isEmpty_iff]
  exact ⟨[], (mem_tails _ _).mpr (nil_suffix), rfl⟩

theorem like_plain {ps : List Char} (hps : ∀ p ∈ ps, Plain p) (s : List Char)
    (hsame : ∀ p ∈ ps, ∀ c ∈ s, same p c = decide (p = c)) :
    like escape same (ps ++ ['%']) s = ps.isPrefixOf s := by
  induction ps generalizing s with
  | nil => simp [like_percent]
  | cons p ps ih =>
    have hp := hps p (.head _)
    cases s with
    | nil => simp [like_cons_nil hp]
    | cons c s =>
      have hrest := ih (fun q hq => hps q (.tail _ hq)) s fun q hq d hd =>
        hsame q (.tail _ hq) d (.tail _ hd)
      rw [cons_append, like_cons hp, hrest, hsame p (.head _) c (.head _)]
      rfl

end Like

theorem toNat_toLower (c : Char) :
    c.toLower.toNat = if 65 ≤ c.toNat ∧ c.toNat ≤ 90 then c.toNat + 32 else c.toNat := by
  have hupper : ('A'.val ≤ c.val ∧ c.val ≤ 'Z'.val) ↔ 65 ≤ c.toNat ∧ c.toNat ≤ 90 := Iff.rfl
  unfold Char.toLower
  by_cases h : 65 ≤ c.toNat ∧ c.toNat ≤ 90
  · have hsmall : c.val.toNat + 32 < 2 ^ 32 := by
      have hc : c.val.toNat ≤ 90 := h.2
      omega
    rw [dif_pos (hupper.mpr h), if_pos h]
    exact (UInt32.toNat_add c.val 32).trans (Nat.mod_eq_of_lt hsmall)
  · rw [dif_neg fun h' => h (hupper.mp h'), if_neg h]

theorem toLower_inj {c d : Char} (hc : c.isLower = false) (hd : d.isLower = false) :
    c.toLower = d.toLower ↔ c = d := by
  have hrange {c : Char} (h : c.isLower = false) : ¬ (97 ≤ c.toNat ∧ c.toNat ≤ 122) := by
    change (decide (97 ≤ c.val) && decide (c.val ≤ 122)) = false at h
    simpa [UInt32.le_iff_toNat_le] using h
  have hc := hrange hc
  have hd := hrange hd
  rw [← Char.toNat_inj, ← Char.toNat_inj, toNat_toLower, toNat_toLower]
  split_ifs <;> omega

theorem likePostgres_plain {ps s : String} (hps : ∀ p ∈ ps.toList, Plain p) :
    likePostgres (ps ++ "%") s = startsWith s ps := by
  rw [likePostgres, String.toList_append]
  exact like_plain hps _ fun _ _ _ _ => rfl

theorem likeSQLite_plain {ps s : String} (hps : ∀ p ∈ ps.toList, Plain p)
    (hs : ∀ c ∈ s.toList, c.isLower = false) : likeSQLite (ps ++ "%") s = startsWith s ps := by
  rw [likeSQLite, String.toList_append]
  exact like_plain hps _ fun p hp c hc => decide_eq_decide.mpr (toLower_inj (hps p hp).2.2.2 (hs c hc))

/-! ## The same rows -/

variable {r : Event}

section Rows

variable {lib : QueryLib} {jsonb : Jsonb} {f : EventFilter} {rows : List Event}

theorem columnContains_iff_hasElement (htopic : validJSON f.topic = true) (hexact : ExactTopics jsonb f rows) (hr : r ∈ rows) :
    jsonb.columnContains r.topics ("[" ++ f.topic ++ "]") = true ↔ HasElement jsonb r.topics f.topic := by
  rw [jsonb.columnContains_brackets htopic]
  constructor
  · rintro ⟨items, v, hitems, hv, item, hitem, hwithin⟩
    exact ⟨items, v, hitems, hv, hexact r hr items hitems v (.inl hv) item hitem hwithin ▸ hitem⟩
  · rintro ⟨items, v, hitems, hv, hmem⟩
    exact ⟨items, v, hitems, hv, v, hmem, within_self v (jsonb.keyed_of_read hv)⟩

theorem all_elements {elems : List String} {needles : List (Json Number)}
    (hread : jsonb.read f.topicContains = some (.arr needles))
    (helems : elems.map jsonb.read = needles.map some) (hexact : ExactTopics jsonb f rows)
    (hr : r ∈ rows) (harray : ∃ items, jsonb.read r.topics = some (.arr items))
    (hvalue : ∀ elem ∈ elems, ByValue lib jsonb r.topics elem) :
    (elems.all fun elem => lib.sqliteContains r.topics elem) =
      jsonb.columnContains r.topics f.topicContains := by
  obtain ⟨items, hitems⟩ := harray
  have hneedle {v : Json Number} : v ∈ needles ↔ ∃ elem ∈ elems, jsonb.read elem = some v := by
    have hmem : some v ∈ elems.map jsonb.read ↔ some v ∈ needles.map some := by rw [helems]
    simpa [eq_comm] using hmem.symm
  rw [Bool.eq_iff_iff, jsonb.columnContains_arr hread, List.all_eq_true]
  constructor
  · intro h
    refine ⟨items, hitems, fun v hv => ?_⟩
    obtain ⟨elem, helem, hv'⟩ := hneedle.mp hv
    obtain ⟨items', v', hitems', hv'', hmem⟩ := (hvalue elem helem).mp (h elem helem)
    rw [hitems] at hitems'
    rw [hv'] at hv''
    cases hitems'
    cases hv''
    exact ⟨v, hmem, within_self v (jsonb.keyed_of_read hv')⟩
  · rintro ⟨items', hitems', h⟩ elem helem
    obtain ⟨v, hv, hv'⟩ : ∃ v ∈ needles, some v = jsonb.read elem := by
      have hmem : jsonb.read elem ∈ needles.map some := helems ▸ mem_map_of_mem helem
      exact mem_map.mp hmem
    obtain ⟨item, hitem, hwithin⟩ := h v hv
    have heq := hexact r hr items' hitems' v (.inr ⟨needles, hread, hv⟩) item hitem hwithin
    exact (hvalue elem helem).mpr ⟨items', v, hitems', hv'.symm, heq ▸ hitem⟩

theorem formatTime_le_iff (s t : Time) : formatTime s ≤ formatTime t ↔ s ≤ t := by
  rw [← not_lt, ← not_lt, formatTime_lt_iff]

variable (haccepted : Accepted f) (hscope : f.scope = ⟨true, []⟩)

include haccepted hscope

theorem picks_postgres (hpattern : f.contractIDPrefix = "" ∨ ∀ c ∈ f.contractIDPrefix.toList, Plain c)
    (r : Event) : picks lib f .postgres r = f.accepts lib r := by
  have hlike : (!decide (f.contractIDPrefix ≠ "") || likePostgres (f.contractIDPrefix ++ "%") r.contractID) =
      startsWith r.contractID f.contractIDPrefix := by
    rcases hpattern with h | h
    · simp [h, startsWith]
    · rw [likePostgres_plain h]
      by_cases hunset : f.contractIDPrefix = ""
      · simp [hunset, startsWith]
      · simp [hunset]
  have hcontract : ((contractClause f).all fun p => p r) = true ↔
      (f.contractIDs = [] ∧ f.contractID = "" ∨ r.contractID ∈ f.contractIDs ∨
        f.contractID ≠ "" ∧ r.contractID = f.contractID) := by
    rw [all_contractClause, and_comm, or_comm (a := _ ∧ r.contractID = _)]
  have hclause {isSet : Prop} [Decidable isSet] {holds : Bool} :
      (!decide isSet || holds) = true ↔ (¬ isSet ∨ holds = true) := by simp
  have hoption {α : Type} [DecidableEq α] (x : α) (o : Option α) :
      (!o.isSome || decide (some x = o)) = true ↔ (o = none ∨ some x = o) := by
    cases o <;> simp
  rw [Bool.eq_iff_iff, picks, whereClause, buildEventWhereClause, EventFilter.accepts]
  simp only [List.all_append, all_clause, hlike, ledgerClauses, truncMicro_of_whole haccepted.fromTime,
    truncMicro_of_whole haccepted.toTime, hscope, Scope.allows, Bool.and_eq_true, hcontract, hclause,
    hoption, decide_eq_true_eq, all_map, haccepted.network, ne_eq, not_not, ge_iff_le, gt_iff_lt, not_lt,
    Bool.or_eq_true, Bool.not_true, Bool.not_false, true_or, true_and, and_assoc, comp_def]

theorem picks_sqlite (hcontains : lib.jsonbContains = jsonb.columnContains)
    (hat : lib.jsonbAt = jsonb.columnAt) (hportable : Portable lib jsonb f rows)
    (hexact : ExactTopics jsonb f rows) (hr : r ∈ rows) :
    picks lib f .sqlite r = picks lib f .postgres r := by
  have hlike : (!decide (f.contractIDPrefix ≠ "") || likeSQLite (f.contractIDPrefix ++ "%") r.contractID) =
      (!decide (f.contractIDPrefix ≠ "") || likePostgres (f.contractIDPrefix ++ "%") r.contractID) := by
    rcases hportable.contractIDPrefix with h | ⟨hplain, hids⟩
    · simp [h]
    · rw [likePostgres_plain hplain, likeSQLite_plain hplain (hids r hr)]
  have htopic : (!decide (f.topic ≠ "") || lib.sqliteContains r.topics f.topic) =
      (!decide (f.topic ≠ "") || jsonb.columnContains r.topics ("[" ++ f.topic ++ "]")) := by
    by_cases hunset : f.topic = ""
    · simp [hunset]
    · have hvalue := hportable.topic.resolve_left hunset r hr
      have hvalid := haccepted.topic.resolve_left hunset
      rw [Bool.eq_iff_iff.mpr (hvalue.trans (columnContains_iff_hasElement hvalid hexact hr).symm)]
  have hpositions : ((topicPositions f).all fun p => lib.sqliteAt r.topics p.1 p.2) =
      (topicPositions f).all fun p => jsonb.columnAt r.topics p.1 p.2 := by
    rw [Bool.eq_iff_iff, List.all_eq_true, List.all_eq_true]
    exact forall₂_congr fun p hp => by rw [hportable.positions p hp r hr]
  have hnetwork : f.network = "" := haccepted.network
  by_cases hunset : f.topicContains = ""
  · simp only [picks, whereClause, sqliteWhereClause, buildEventWhereClause, List.all_append, all_clause,
      all_map, comp_def, hlike, htopic, hpositions, hcontains, hat, hscope, hunset, hnetwork,
      hportable.hasValue, hportable.txIndex, hportable.opIndex, truncMicro_of_whole haccepted.fromTime,
      truncMicro_of_whole haccepted.toTime, ge_iff_le, formatTime_le_iff, ne_eq, not_true_eq_false, if_false,
      List.all_nil, decide_false, Bool.not_false, Bool.not_true, Bool.true_or, Bool.and_true, Bool.true_and,
      Option.isSome_none]
  · obtain ⟨elems, needles, helems, hread, hvalues, hrows⟩ := hportable.topicContains.resolve_left hunset
    have hall := all_elements hread hvalues hexact hr (hrows r hr).1 (hrows r hr).2
    simp only [picks, whereClause, sqliteWhereClause, buildEventWhereClause, List.all_append, all_clause,
      all_map, comp_def, hlike, htopic, hpositions, hcontains, hat, hscope, hunset, hnetwork,
      helems, hall, hportable.hasValue, hportable.txIndex, hportable.opIndex,
      truncMicro_of_whole haccepted.fromTime, truncMicro_of_whole haccepted.toTime, ge_iff_le,
      formatTime_le_iff, ne_eq, not_true_eq_false, not_false_eq_true, if_true, decide_true,
      decide_false, Bool.not_false, Bool.not_true, Bool.true_or, Bool.false_or, Bool.and_true, Bool.true_and,
      Option.isSome_none]

end Rows

/-! ## Pages -/

section Pages

variable {lib : QueryLib} {jsonb : Jsonb} {f : EventFilter} {rows : List Event} {limits : SparseLimits}

theorem le_of_pair {κ : Type} [LinearOrder κ] {x y : κ} {p : Prop} (h : x < y ∨ x = y ∧ p) : x ≤ y :=
  h.elim le_of_lt fun h => le_of_eq h.1

theorem cursorClauses_sqlite {c : PageCursor} (hmicro : ∀ t id, c = .byCreatedAt t id → t.nano % 1000 = 0)
    (r : Event) :
    ((cursorClauses lib .sqlite f c).all fun p => p r) =
      (cursorClauses lib .postgres f c).all fun p => p r := by
  cases c with
  | start | byID | byLedger => rfl
  | byCreatedAt t id =>
    rw [Bool.eq_iff_iff]
    simp only [cursorClauses, lib.timestamptz_micro t (hmicro t id rfl), List.all_cons, List.all_nil,
      Bool.and_true, Bool.and_eq_true, passesPair_iff, reaches_iff, formatTime_lt_iff, formatTime_le_iff,
      formatTime_inj, and_iff_right_iff_imp]
    cases f.descending with
    | true => exact le_of_pair
    | false => exact le_of_pair

theorem queryEvents_rows {b b' : Backend} {q q' : Query} {limit : Nat} {db db' : Query → List Event}
    (hopen : f.scope.deniesAll = false) (hbuild : buildQueryEvents lib b limits f = .ok (q, limit))
    (hbuild' : buildQueryEvents lib b' limits f = .ok (q', limit)) (hrows : db' q' = db q)
    {page : List Event} {next : String} (h : queryEvents lib b limits db f = .ok (page, next)) :
    ∃ next', queryEvents lib b' limits db' f = .ok (page, next') := by
  have hscope (b : Backend) : ¬ (b = .postgres ∧ f.scope.deniesAll = true) := by simp [hopen]
  rw [queryEvents, if_neg (hscope b), hbuild] at h
  rw [queryEvents, if_neg (hscope b'), hbuild']
  simp only [hrows] at h ⊢
  split_ifs at h ⊢ with hmore
  · cases hlast : ((db q).take limit).getLast? with
    | none =>
      rw [hlast] at h
      exact ⟨next, h⟩
    | some last =>
      rw [hlast] at h
      exact ⟨_, by rw [← (Prod.mk.inj (Except.ok.inj h)).1]⟩
  · exact ⟨next, h⟩

theorem sqlite_page (hpicks : ∀ r ∈ rows, picks lib f .sqlite r = picks lib f .postgres r)
    (hopen : f.scope.deniesAll = false) (hportable : Portable lib jsonb f rows)
    (hids : ∀ x ∈ rows, ∀ y ∈ rows, x.id = y.id → x = y) {db db' : Query → List Event}
    (hdb : ∀ q limit, buildQueryEvents lib .postgres limits f = .ok (q, limit) → q.Answers rows (db q))
    (hdb' : ∀ q limit, buildQueryEvents lib .sqlite limits f = .ok (q, limit) → q.Answers rows (db' q))
    {page : List Event} {next : String} (h : queryEvents lib .postgres limits db f = .ok (page, next)) :
    ∃ next', queryEvents lib .sqlite limits db' f = .ok (page, next') := by
  obtain ⟨q, limit, hbuild⟩ : ∃ q limit, buildQueryEvents lib .postgres limits f = .ok (q, limit) := by
    cases hbuild : buildQueryEvents lib .postgres limits f with
    | error err => simp [queryEvents, hopen, hbuild] at h
    | ok statement => exact ⟨_, _, rfl⟩
  obtain ⟨hsparse, hvalid, c, hcursor, hq, hlimit⟩ := (buildQueryEvents_eq_ok lib).mp hbuild
  obtain ⟨hcursor', hmicro⟩ := hportable.cursor c hcursor
  have hbuild' : buildQueryEvents lib .sqlite limits f = .ok (pageQuery lib .sqlite f c, limit) :=
    (buildQueryEvents_eq_ok lib).mpr ⟨hsparse, hvalid, c, hcursor', rfl, hlimit⟩
  have hselects : rows.filter (pageQuery lib .sqlite f c).selects = rows.filter q.selects := by
    refine filter_congr fun r hr => ?_
    have hpick := hpicks r hr
    simp only [picks] at hpick
    simp only [← hq, pageQuery, List.all_append, hpick, cursorClauses_sqlite hmicro]
  refine queryEvents_rows hopen hbuild hbuild' ?_ h
  refine (hdb q limit hbuild).unique (hdb' _ limit hbuild') (List.Perm.of_eq hselects) (by rw [← hq]; rfl)
    (fun x y => ?_) (sortsBefore_iff .sqlite f) fun x hx y hy =>
      hids x (mem_filter.mp hx).1 y (mem_filter.mp hy).1
  rw [← hq]
  exact sortsBefore_iff .postgres f x y

end Pages

/-! ## Walks and counts -/

section Counts

variable {lib : QueryLib} {jsonb : Jsonb} {b : Backend} {f : EventFilter} {rows : List Event}
  {limits : SparseLimits}

theorem ledgerBound_of_past (hbounds : BoundsHold f rows) (hledger : f.orderBy ≠ orderByLedger)
    (hcreated : f.orderBy ≠ orderByCreatedAt) {x r : Event} (hx : x ∈ rows) (hr : r ∈ rows)
    (hpast : passes f.descending r.id x.id = true) : ((ledgerBound f x.id).all fun p => p r) = true := by
  have hrows := (hbounds.resolve_left hledger).resolve_left hcreated
  unfold ledgerBound
  cases hbound : cursorLedger x.id with
  | none => rfl
  | some l =>
    have hreaches : reaches f.descending r.ledger l = true := by
      rw [passes_iff] at hpast
      rw [reaches_iff]
      split_ifs at hpast ⊢ with hdesc
      · exact (hrows r hr x hx hpast).2 l hbound
      · exact (hrows x hx r hr hpast).1 l hbound
    simp [all_clause, hreaches]

theorem cursorClauses_iff (hrows : ∀ r ∈ rows, StoredRow b r) (hbounds : BoundsHold f rows) {x r : Event}
    (hx : x ∈ rows) (hr : r ∈ rows) :
    ((cursorClauses lib b f (cursorOf f (sortKey f x))).all fun p => p r) = true ↔
      if f.descending then sortKey f r < sortKey f x else sortKey f x < sortKey f r := by
  by_cases hledger : f.orderBy = orderByLedger
  · have hof : cursorOf f (sortKey f x) = .byLedger x.ledger x.id := by
      simp [cursorOf, sortKey, SortKey.of, hledger]
    rw [hof, sortKey, sortKey, if_pos hledger, if_pos hledger, SortKey.lt_iff, SortKey.lt_iff]
    simp only [cursorClauses, List.all_cons, List.all_nil, Bool.and_true, Bool.and_eq_true, passesPair_iff,
      reaches_iff, lt_irrefl, false_or, true_and]
    cases f.descending with
    | true => exact and_iff_right_of_imp le_of_pair
    | false => exact and_iff_right_of_imp le_of_pair
  by_cases hcreated : f.orderBy = orderByCreatedAt
  · have hof : cursorOf f (sortKey f x) = .byCreatedAt x.createdAt x.id := by
      simp [cursorOf, sortKey, SortKey.of, hcreated, ledger_ne_createdAt]
    rw [hof, sortKey, sortKey, if_neg hledger, if_pos hcreated, if_neg hledger, if_pos hcreated,
      SortKey.lt_iff, SortKey.lt_iff]
    simp only [lt_irrefl, false_or, true_and]
    cases b with
    | postgres =>
      simp only [cursorClauses, lib.timestamptz_micro x.createdAt ((hrows x hx).2 rfl), List.all_cons,
        List.all_nil, Bool.and_true, passesPair_iff]
    | sqlite =>
      simp only [cursorClauses, List.all_cons, List.all_nil, Bool.and_true, Bool.and_eq_true,
        passesPair_iff, reaches_iff, formatTime_lt_iff, formatTime_le_iff, formatTime_inj]
      cases f.descending with
      | true => exact and_iff_right_of_imp le_of_pair
      | false => exact and_iff_right_of_imp le_of_pair
  · have hof : cursorOf f (sortKey f x) = .byID x.id := by
      simp [cursorOf, sortKey, SortKey.of, hledger, hcreated]
    rw [hof, sortKey, sortKey, if_neg hledger, if_neg hcreated, if_neg hledger, if_neg hcreated,
      SortKey.lt_iff, SortKey.lt_iff]
    simp only [cursorClauses, List.all_append, List.all_cons, List.all_nil, Bool.and_true, Bool.and_eq_true,
      lt_irrefl, false_or, true_and]
    rw [and_iff_right_of_imp (ledgerBound_of_past hbounds hledger hcreated hx hr), passes_iff]

theorem selects_iff (hvalid : validOrderBy f.orderBy = true) (hrows : ∀ r ∈ rows, StoredRow b r)
    (hbounds : BoundsHold f rows) (hpicks : ∀ r ∈ rows, picks lib f b r = f.accepts lib r)
    {c : Option SortKey} (hc : ∀ k ∈ c, ∃ x ∈ rows, sortKey f x = k) (hr : r ∈ rows) :
    selects lib b f c r = true ↔ f.accepts lib r = true ∧
      ∀ k ∈ c, if f.descending then sortKey f r < k else k < sortKey f r := by
  have hpick := hpicks r hr
  unfold picks at hpick
  cases c with
  | none => simp [selects, hpick, cursorClauses]
  | some k =>
    obtain ⟨x, hx, rfl⟩ := hc k rfl
    have hkey := ((hrows x hx).decodeCursor lib hvalid rfl).2.1
    rw [selects, hkey, Bool.true_and, List.all_append, Bool.and_eq_true, hpick,
      cursorClauses_iff hrows hbounds hx hr]
    simp

theorem pageLimit_pos (f : EventFilter) : 0 < (pageLimit f).toNat := by
  simp only [pageLimit, defaultQueryLimit, maxQueryLimit]
  split_ifs <;> omega

theorem walkComplete_of_boundsHold (hsparse : validateSparseFilterRange f limits = .ok ())
    (hvalid : validOrderBy f.orderBy = true) (hrows : ∀ r ∈ rows, StoredRow b r)
    (hopen : f.scope.deniesAll = false) (hids : (rows.map fun r => r.id).Nodup)
    (hbounds : BoundsHold f rows) (hpicks : ∀ r ∈ rows, picks lib f b r = f.accepts lib r) :
    WalkComplete lib b limits rows f := by
  have hnodup : rows.Nodup := hids.of_map
  have hkeys : ∀ x ∈ rows, ∀ y ∈ rows, sortKey f x = sortKey f y → x = y := by
    intro x hx y hy hkey
    refine inj_on_of_nodup_map hids hx hy ?_
    rw [← sortKey_id f x, hkey, sortKey_id]
  rw [walkComplete_iff_pagesServed_of_open lib hsparse hvalid hrows (by simp [hopen]) hnodup
    (pageLimit_pos f), PagesServed]
  split_ifs with hdesc
  · have hdual : ∀ x ∈ rows, ∀ y ∈ rows, OrderDual.toDual (sortKey f x) = OrderDual.toDual (sortKey f y) →
        x = y := fun x hx y hy hkey => hkeys x hx y hy (OrderDual.toDual.injective hkey)
    refine served_of_walks ?_ hnodup (pageLimit_pos f) none fun out hwalk =>
      hwalk.of_exact hdual hnodup (fun c hc r hr => ?_) (by simp)
    · intro c r hsel
      cases c with
      | none => rfl
      | some k =>
        have hpast := selects_past hsel
        rw [if_pos hdesc] at hpast
        exact decide_eq_true hpast
    · rw [selects_iff hvalid hrows hbounds hpicks (by simpa using hc) hr]
      cases c with
      | none => simp [follows]
      | some k => simp [follows, hdesc, OrderDual.lt_toDual]
  · refine served_of_walks ?_ hnodup (pageLimit_pos f) none fun out hwalk =>
      hwalk.of_exact hkeys hnodup (fun c hc r hr => ?_) (by simp)
    · intro c r hsel
      cases c with
      | none => rfl
      | some k =>
        have hpast := selects_past hsel
        rw [if_neg hdesc] at hpast
        exact decide_eq_true hpast
    · rw [selects_iff hvalid hrows hbounds hpicks hc hr]
      cases c with
      | none => simp [follows]
      | some k => simp [follows, hdesc]

theorem all_sqliteCountClause (hcount : Countable f) (hnetwork : f.network = "")
    (hscope : f.scope.contracts = []) (r : Event) :
    ((sqliteCountClause lib (unpaged f)).all fun p => p r) = picks lib f .sqlite r := by
  -- no condition reads the page
  rw [show sqliteCountClause lib (unpaged f) = sqliteCountClause lib f from rfl]
  by_cases hunset : f.topicContains = ""
  · simp [picks, whereClause, sqliteWhereClause, sqliteCountClause, all_clause, contractClause,
      hcount.contractIDs, hcount.contractIDPrefix, hcount.types, hcount.txHash, hcount.inSuccessfulCall,
      hnetwork, hscope, hunset]
  · cases helems : lib.jsonElements f.topicContains with
    | none => simp [picks, whereClause, sqliteWhereClause, sqliteCountClause, hunset, helems]
    | some elems =>
      simp [picks, whereClause, sqliteWhereClause, sqliteCountClause, all_clause, contractClause,
        hcount.contractIDs, hcount.contractIDPrefix, hcount.types, hcount.txHash, hcount.inSuccessfulCall,
        hnetwork, hscope, hunset, helems]

/-- However the database orders its answers, the walk ends and has as many rows as are counted. -/
def CountsWalk (lib : QueryLib) (limits : SparseLimits) (f : EventFilter) (rows : List Event)
    (b : Backend) : Prop :=
  ∀ dbs, Answering lib b limits f rows dbs →
    ∃ fuel out, walk lib b limits dbs f fuel 0 "" = .ok out ∧ countEvents lib f rows b = .ok out.length

theorem countsWalk_of_complete (hcomplete : WalkComplete lib b limits rows f)
    (hcount : countEvents lib f rows b = .ok (rows.countP (f.accepts lib))) :
    CountsWalk lib limits f rows b := by
  intro dbs hdbs
  obtain ⟨fuel, out, hwalk, hperm, -⟩ := hcomplete dbs hdbs
  exact ⟨fuel, out, hwalk, by rw [hcount, hperm.length_eq, countP_eq_length_filter]⟩

end Counts

/-! ## Both backends -/

/-- What PostgreSQL returns as a page, SQLite returns, from databases that answer as they may. -/
def SamePage (lib : QueryLib) (limits : SparseLimits) (f : EventFilter) (rows : List Event) : Prop :=
  ∀ db db' : Query → List Event,
    (∀ q limit, buildQueryEvents lib .postgres limits f = .ok (q, limit) → q.Answers rows (db q)) →
    (∀ q limit, buildQueryEvents lib .sqlite limits f = .ok (q, limit) → q.Answers rows (db' q)) →
    ∀ page next, queryEvents lib .postgres limits db f = .ok (page, next) →
      ∃ next', queryEvents lib .sqlite limits db' f = .ok (page, next')

def loneTopicLib : QueryLib :=
  { QueryLib.verbatim with sqliteContains := fun topics needle => decide (topics = "[" ++ needle ++ "]") }

def topicRow (ledger : Nat) (topics : String) : Event := { Event.fromRpc ledger with topics := topics }

def forTopicA : EventFilter := { unfiltered with topic := "\"a\"", fromLedger := 7 }

end SoroTrail.Api
