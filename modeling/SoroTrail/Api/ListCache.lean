import SoroTrail.Api.ListTag
import SoroTrail.Lib.Steps

/-!
# Pages declared immutable

`listCachePolicy` declares a page immutable when its last ledger lies below the
ingestion frontier.  The writers do not stay above the frontier: a backfill page
inserts older rows, a repair or a reconciliation rewrites a range.  A page stays
as it was issued through every run of writes that leave the rows the filter picks
as they are.
-/

set_option autoImplicit false

namespace SoroTrail.Api

open Lib Store List Table

variable {b : Backend}

/-! ## The policy -/

inductive Cacheability where
  | noCache
  | immutable
  deriving DecidableEq, Repr

/-- The frontier: the state of the network `default`. -/
def lastIngestedLedger (t : Tables b) : Int :=
  match t.getIngestionState "default" with
  | some state => state.lastIngestedLedger
  | none => 0

def listCachePolicy {Tag : Type} (tags : TagLib Tag) (t : Tables b) (f : EventFilter) :
    Cacheability × Option Tag :=
  if f.toLedger ≤ 0 then (.noCache, none)
  else if f.toLedger ≥ lastIngestedLedger t then (.noCache, none)
  else (.immutable, some (listETag tags f))

/-! ## Writes -/

/-- The committed writes of live cycles, backfill pages, repairs and reconciliations. -/
inductive Write where
  | upsertEvents (events : List Event)
  | replaceEventsInRange (events : List Event) (fromLedger toLedger : Int)
  | reconcileReorgRange (o : ReorgReconcileOptions)
  | upsertAddressRefs (refs : List AddressRef)
  | deadLetterEvent (d : DeadLetter)
  | saveIngestionState (s : IngestionState)
  | saveContractCursor (c : ContractCursor)

def Write.apply (t : Tables b) : Write → Tables b
  | .upsertEvents events => t.upsertEvents events
  | .replaceEventsInRange events fromLedger toLedger => t.replaceEventsInRange events fromLedger toLedger
  | .reconcileReorgRange o =>
    match t.reconcileReorgRange o with
    | .ok t' => t'
    | .error _ => t
  | .upsertAddressRefs refs => t.upsertAddressRefs refs
  | .deadLetterEvent d => t.deadLetterEvent d
  | .saveIngestionState s => t.saveIngestionState s
  | .saveContractCursor c => t.saveContractCursor c

def commit (t : Tables b) (w : Write) : Option (Tables b) := some (w.apply t)

def reconciled (b : Backend) (o : ReorgReconcileOptions) (r : Event) : Bool :=
  sameNetwork b (defaultNetwork o.network) r.network && inRange o.fromLedger o.toLedger r.ledger

def canonicalRows (t : Tables b) (o : ReorgReconcileOptions) : List Event :=
  ((canonicalOf o).map (mergeKeptXDR (t.events.rows.filter (reconciled b o)))).map (canonicalRow b)

/-! ## What a write leaves alone -/

section Spares

variable (lib : QueryLib) (f : EventFilter)

def picks (b : Backend) (r : Event) : Bool := (whereClause lib b f).all fun p => p r

def Inside (b : Backend) (r : Event) : Prop := r.ledger ≤ f.toLedger ∧ picks lib f b r = true

instance (r : Event) : Decidable (Inside lib f b r) := inferInstanceAs (Decidable (_ ∧ _))

/-- A delete and overwriting inserts that leave the rows inside as they are: what is written inside is
there, and what is deleted or overwritten inside is written back. -/
structure Restores (t : Tables b) (gone : Event → Bool) (ws : List Event) : Prop where
  distinct : ws.Pairwise fun x y => eventKey b x ≠ eventKey b y
  written : ∀ w ∈ ws, Inside lib f b w → w ∈ t.events.rows
  back : ∀ r ∈ t.events.rows, Inside lib f b r →
    (gone r = true ∨ ∃ w ∈ ws, eventKey b w = eventKey b r) → r ∈ ws

instance (t : Tables b) (gone : Event → Bool) (ws : List Event) : Decidable (Restores lib f t gone ws) :=
  decidable_of_iff
    ((ws.Pairwise fun x y => eventKey b x ≠ eventKey b y) ∧
      (∀ w ∈ ws, Inside lib f b w → w ∈ t.events.rows) ∧
      ∀ r ∈ t.events.rows, Inside lib f b r →
        (gone r = true ∨ ∃ w ∈ ws, eventKey b w = eventKey b r) → r ∈ ws)
    ⟨fun h => ⟨h.1, h.2.1, h.2.2⟩, fun h => ⟨h.distinct, h.written, h.back⟩⟩

def Spares (t : Tables b) : Write → Prop
  | .upsertEvents events => ∀ e ∈ events, Inside lib f b (liveRow b e) →
      ∃ r ∈ t.events.rows, eventKey b r = eventKey b (liveRow b e)
  | .replaceEventsInRange events fromLedger toLedger =>
    Restores lib f t (replaced b events fromLedger toLedger)
      (replacementRows (t.events.rows.filter (replaced b events fromLedger toLedger)) events)
  | .reconcileReorgRange o => Restores lib f t (reconciled b o) (canonicalRows t o)
  | _ => True

instance (t : Tables b) (w : Write) : Decidable (Spares lib f t w) :=
  match w with
  | .upsertEvents events => inferInstanceAs (Decidable (∀ e ∈ events, _))
  | .replaceEventsInRange _ _ _ => inferInstanceAs (Decidable (Restores _ _ _ _ _))
  | .reconcileReorgRange _ => inferInstanceAs (Decidable (Restores _ _ _ _ _))
  | .upsertAddressRefs _ | .deadLetterEvent _ | .saveIngestionState _ | .saveContractCursor _ =>
    isTrue trivial

def Serves (limits : SparseLimits) (t : Tables b) (page : Except Rpc.Err (List Event × String)) : Prop :=
  ∃ db : Query → List Event,
    (∀ q limit, buildQueryEvents lib b limits f = .ok (q, limit) → q.Answers t.events.rows (db q)) ∧
      queryEvents lib b limits db f = page

def DistinctIDs (t : Tables b) : Prop :=
  ∀ x ∈ t.events.rows, ∀ y ∈ t.events.rows, Inside lib f b x → Inside lib f b y → x.id = y.id → x = y

instance (t : Tables b) : Decidable (DistinctIDs lib f t) :=
  inferInstanceAs (Decidable (∀ x ∈ t.events.rows, ∀ y ∈ t.events.rows, _))

end Spares

/-! ## One write -/

variable {lib : QueryLib} {f : EventFilter}

theorem coalesceXDR_self (e : Event) : coalesceXDR e e = e := by
  simp [coalesceXDR]

theorem picks_sansXDR (r : Event) : picks lib f b (sansXDR r) = picks lib f b r := by
  have hcontract : ((contractClause f).all fun p => p (sansXDR r)) = (contractClause f).all fun p => p r := by
    unfold contractClause
    split
    · rfl
    · rw [all_clause, all_clause]
      rfl
  cases b with
  | postgres =>
    simp only [picks, whereClause, buildEventWhereClause, ledgerClauses, all_append, all_clause,
      all_map, hcontract]
    rfl
  | sqlite =>
    by_cases hunset : f.topicContains = ""
    · simp only [picks, whereClause, sqliteWhereClause, ledgerClauses, all_append, all_clause,
        all_map, hcontract, hunset, ne_eq, not_true_eq_false, if_false, all_nil]
      rfl
    · cases helems : lib.jsonElements f.topicContains with
      | none =>
        simp only [picks, whereClause, sqliteWhereClause, ledgerClauses, all_append, all_clause,
          all_map, hcontract, hunset, ne_eq, not_false_eq_true, if_true, helems]
        rfl
      | some elems =>
        simp only [picks, whereClause, sqliteWhereClause, ledgerClauses, all_append, all_clause,
          all_map, hcontract, hunset, ne_eq, not_false_eq_true, if_true, helems]
        rfl

theorem inside_congr {x y : Event} (h : sansXDR x = sansXDR y) : Inside lib f b x ↔ Inside lib f b y := by
  unfold Inside
  rw [← picks_sansXDR x, ← picks_sansXDR y, h, (sansXDR_fields h).2.1]

variable {r : Event} {t : Tables b} {limits : SparseLimits}

theorem mem_overwriteAll_restores {gone : Event → Bool} {ws : List Event}
    (h : Restores lib f t gone ws) (hr : Inside lib f b r) :
    r ∈ (overwriteAll (t.events.delete gone) ws).rows ↔ r ∈ t.events.rows := by
  rw [mem_overwriteAll_iff h.distinct]
  constructor
  · rintro (⟨hmem, -⟩ | ⟨w, hw, ⟨rfl, -⟩ | ⟨old, hold, hkey, rfl⟩⟩)
    · exact (mem_delete.mp hmem).1
    · exact h.written r hw hr
    · -- the row it overwrites is the row itself
      have hmem := h.written w hw ((inside_congr (sansXDR_coalesceXDR old w)).mp hr)
      have heq : old = w := eq_of_key (mem_delete.mp hold).1 hmem hkey
      rw [heq, coalesceXDR_self]
      exact hmem
  · intro hmem
    by_cases hgone : gone r = true
    · have hw := h.back r hmem hr (.inl hgone)
      refine .inr ⟨r, hw, .inl ⟨rfl, fun hkey => ?_⟩⟩
      obtain ⟨old, hold, hkey⟩ := mem_map.mp hkey
      obtain ⟨hold, hkept⟩ := mem_delete.mp hold
      rw [eq_of_key hold hmem hkey, hgone] at hkept
      cases hkept
    · have hkept : r ∈ (t.events.delete gone).rows :=
        mem_delete.mpr ⟨hmem, Bool.not_eq_true _ ▸ hgone⟩
      by_cases htaken : ∃ w ∈ ws, eventKey b w = eventKey b r
      · have hw := h.back r hmem hr (.inr htaken)
        exact .inr ⟨r, hw, .inr ⟨r, hkept, rfl, (coalesceXDR_self r).symm⟩⟩
      · exact .inl ⟨hkept, fun w hw hkey => htaken ⟨w, hw, hkey.symm⟩⟩

theorem mem_apply_of_spares {w : Write} (h : Spares lib f t w) (hr : Inside lib f b r) :
    r ∈ (w.apply t).events.rows ↔ r ∈ t.events.rows := by
  cases w with
  | upsertEvents events =>
    refine ⟨fun hmem => ?_, subset_insertAll⟩
    rcases mem_upsertEvents hmem with hold | ⟨e, he, rfl⟩
    · exact hold
    · obtain ⟨old, hold, hkey⟩ := h e he hr
      exact eq_of_key (subset_insertAll hold) hmem hkey ▸ hold
  | replaceEventsInRange events fromLedger toLedger => exact mem_overwriteAll_restores h hr
  | reconcileReorgRange o =>
    simp only [Write.apply, Tables.reconcileReorgRange]
    split_ifs
    · rfl
    · exact mem_overwriteAll_restores h hr
  | upsertAddressRefs refs => rfl
  | deadLetterEvent d => rfl
  | saveIngestionState s => rfl
  | saveContractCursor c => rfl

/-! ## Runs of writes -/

def SameInside (lib : QueryLib) (f : EventFilter) (t t' : Tables b) : Prop :=
  ∀ r, Inside lib f b r → (r ∈ t'.events.rows ↔ r ∈ t.events.rows)

variable {t' : Tables b}

theorem sameInside_of_run {ws : List Write}
    (halong : Steps.Along commit (Spares lib f) t ws) (hrun : Steps.run commit t ws = some t') :
    SameInside lib f t t' := by
  refine halong.invariant (fun s w s' hspares hsame hstep r hr => ?_) (fun r _ => Iff.rfl) hrun
  rw [← Option.some.inj hstep, mem_apply_of_spares hspares hr]
  exact hsame r hr

/-! ## Pages -/

theorem inside_of_picks (hto : 0 < f.toLedger) (h : picks lib f b r = true) : Inside lib f b r := by
  refine ⟨?_, h⟩
  have hmem : (fun r : Event => decide (r.ledger ≤ f.toLedger)) ∈ whereClause lib b f := by
    cases b <;> simp [whereClause, buildEventWhereClause, sqliteWhereClause, ledgerClauses, clause, hto]
  simpa using all_eq_true.mp h _ hmem

theorem buildQueryEvents_ok {q : Query} {limit : Nat}
    (h : buildQueryEvents lib b limits f = .ok (q, limit)) :
    q.before = sortsBefore b f ∧ ∀ r, q.selects r = true → picks lib f b r = true := by
  obtain ⟨-, -, c, -, rfl, -⟩ := (buildQueryEvents_eq_ok lib).mp h
  refine ⟨rfl, fun r hr => ?_⟩
  simp only [pageQuery, all_append, Bool.and_eq_true] at hr
  exact hr.1

/-- The sorted rows of a page are determined when ids tell them apart. -/
theorem answers_unique {q : Query} {limit : Nat} (hto : 0 < f.toLedger)
    (hbuild : buildQueryEvents lib b limits f = .ok (q, limit)) (hids : DistinctIDs lib f t)
    (hsame : SameInside lib f t t') {answer answer' : List Event}
    (h : q.Answers t.events.rows answer) (h' : q.Answers t'.events.rows answer') :
    answer' = answer := by
  obtain ⟨hbefore, hselects⟩ := buildQueryEvents_ok hbuild
  have hinside {r : Event} (hr : q.selects r = true) : Inside lib f b r :=
    inside_of_picks hto (hselects r hr)
  have hnodup (t : Tables b) : (t.events.rows.filter q.selects).Nodup := t.events.nodup.of_map.filter _
  have horder (x y : Event) : q.before x y = true ↔ InOrder f x y := by
    rw [hbefore, sortsBefore_iff]
  refine h.unique h' ?_ rfl horder horder fun x hx y hy => ?_
  · rw [perm_ext_iff_of_nodup (hnodup t') (hnodup t)]
    intro r
    rw [mem_filter, mem_filter]
    exact and_congr_left fun hr => hsame r (hinside hr)
  · obtain ⟨hx, hxs⟩ := mem_filter.mp hx
    obtain ⟨hy, hys⟩ := mem_filter.mp hy
    exact hids x hx y hy (hinside hxs) (hinside hys)

theorem serves_unique (hto : 0 < f.toLedger) (hids : DistinctIDs lib f t)
    (hsame : SameInside lib f t t') {page page' : Except Rpc.Err (List Event × String)}
    (h : Serves lib f limits t page) (h' : Serves lib f limits t' page') : page' = page := by
  obtain ⟨db, hdb, rfl⟩ := h
  obtain ⟨db', hdb', rfl⟩ := h'
  cases hbuild : buildQueryEvents lib b limits f with
  | error err => simp only [queryEvents, hbuild]
  | ok statement =>
    obtain ⟨q, limit⟩ := statement
    have hrows := answers_unique hto hbuild hids hsame (hdb q limit hbuild) (hdb' q limit hbuild)
    simp only [queryEvents, hbuild, hrows]

/-- A page that has been declared immutable is served as it was through every run of writes that
leave its rows as they are. -/
theorem immutable_page_stays {Tag : Type} (tags : TagLib Tag) (lib : QueryLib) (limits : SparseLimits)
    (f : EventFilter) {t t' : Tables b} {ws : List Write}
    (hpolicy : (listCachePolicy tags t f).1 = .immutable) (hids : DistinctIDs lib f t)
    (halong : Steps.Along commit (Spares lib f) t ws) (hrun : Steps.run commit t ws = some t')
    {page page' : Except Rpc.Err (List Event × String)} (hissued : Serves lib f limits t page)
    (hlater : Serves lib f limits t' page') : page' = page := by
  have hto : 0 < f.toLedger := by
    unfold listCachePolicy at hpolicy
    split_ifs at hpolicy with hopen
    exact not_le.mp hopen
  exact serves_unique hto hids (sameInside_of_run halong hrun) hissued hlater

def startedAt15 : List Write :=
  [.upsertEvents [Event.fromRpc 15], .saveIngestionState ⟨"", 20, "", none⟩]

def upTo10 : EventFilter := { unfiltered with toLedger := 10 }

def upTo15 : EventFilter := { unfiltered with toLedger := 15 }

theorem serves_insertionAnswer (limits : SparseLimits) (t : Tables b) :
    Serves lib f limits t (queryEvents lib b limits (insertionAnswer t.events.rows 0) f) :=
  ⟨insertionAnswer t.events.rows 0, answering_insertionAnswer lib b limits f t.events.rows 0 f.cursor, rfl⟩

/-- The page's own row comes again, a repair finds nothing to change, and ingestion goes on. -/
theorem immutable_page_stays_live :
    ∃ t t' : Tables .postgres, Steps.run commit (Tables.empty .postgres) startedAt15 = some t ∧
      Steps.run commit t [.upsertEvents [Event.fromRpc 15, Event.fromRpc 21],
        .replaceEventsInRange [Event.fromRpc 15] 15 15, .saveIngestionState ⟨"", 21, "", none⟩] = some t' ∧
      queryEvents .verbatim .postgres ⟨0, 0⟩ (insertionAnswer t'.events.rows 0) upTo15 =
        queryEvents .verbatim .postgres ⟨0, 0⟩ (insertionAnswer t.events.rows 0) upTo15 := by
  refine ⟨_, _, rfl, rfl, immutable_page_stays TagLib.key .verbatim ⟨0, 0⟩ upTo15 (by decide +kernel)
    (by decide +kernel) (Steps.Along.of_check (?_ : Steps.check commit _ _ [.upsertEvents
      [Event.fromRpc 15, Event.fromRpc 21], .replaceEventsInRange [Event.fromRpc 15] 15 15,
      .saveIngestionState ⟨"", 21, "", none⟩] = true)) rfl (serves_insertionAnswer _ _)
    (serves_insertionAnswer _ _)⟩
  decide +kernel

/-- A backfill page inserts a row below the frontier: a page that was declared immutable while it
was empty has a row. -/
theorem backfill_changes_immutable_page :
    ∃ t t' : Tables .postgres, Steps.run commit (Tables.empty .postgres) startedAt15 = some t ∧
      (listCachePolicy TagLib.key t upTo10).1 = .immutable ∧
      queryEvents .verbatim .postgres ⟨0, 0⟩ (insertionAnswer t.events.rows 0) upTo10 = .ok ([], "") ∧
      Steps.run commit t [.upsertEvents [Event.fromBackfill 5]] = some t' ∧
      queryEvents .verbatim .postgres ⟨0, 0⟩ (insertionAnswer t'.events.rows 0) upTo10 =
        .ok ([Event.fromBackfill 5], "") :=
  ⟨_, _, rfl, by decide +kernel, by decide +kernel, rfl, by decide +kernel⟩

end SoroTrail.Api
