import SoroTrail.Pruner.Sweep
import SoroTrail.Store.Pagination

/-!
# Pruned events are in the archive

A sweep trusts an archive that exists, exports page by page, and deletes by id.  A
pruned row is in the data file when no row below the archived range is written
after its export has begun, when the pages of the export do not skip rows, and when
no row above the range shares an id with one below.
-/

set_option autoImplicit false

namespace SoroTrail.Retention

open Lib Store List Function

/-- Every pruned row has its line in the data file. -/
def Recoverable (pre : String) (s : State) : Prop :=
  ∀ e ∈ s.pruned, ∃ lines, s.objects (dataKey pre 0) = some (.data lines) ∧ sansXDR e ∈ lines

/-! ## The condition -/

def Phase.bound : Phase → Option Int
  | .idle => none
  | .archiving _ => none
  | .exporting w _ _ => some w.maxLedger
  | .uploading w _ => some w.maxLedger
  | .sealing w _ => some w.maxLedger
  | .deleting w => some w.maxLedger

def Object.ledgerEnd : Object → Option Int
  | .data _ => none
  | .manifest m => some m.chunk.ledgerEnd

def State.bounds (pre : String) (s : State) : List Int :=
  ((s.objects (manifestKey pre 0)).bind Object.ledgerEnd).toList ++ s.phase.bound.toList

/-- The ids of the rows are in the order of their ledgers, and each is the id of one row. -/
def Exportable (rows : List Event) (maxLedger : Int) : Prop :=
  ∀ x ∈ rows, x.ledger ≤ maxLedger → PlainID x.id ∧
    ∀ y ∈ rows, y.ledger < maxLedger → (y.id = x.id → y = x) ∧
      (x.id < y.id → ∀ l ∈ cursorLedger x.id, l ≤ maxLedger → l ≤ y.ledger)

/-- What the other writers and the ids of the rows have to respect at a step. -/
def Orderly (pre : String) (s : State) : Move → Prop
  | .write w => ∀ bound ∈ s.bounds pre, ∀ x ∈ (w.apply s.tables).events.rows, x.ledger < bound →
      ∃ y ∈ s.rows, sansXDR y = sansXDR x
  | .page _ => ∀ bound ∈ s.phase.bound, Exportable s.rows bound
  | .delete _ => ∀ bound ∈ s.phase.bound, ∀ x ∈ s.rows, ∀ y ∈ s.rows, x.id = y.id →
      x.ledger < bound → y.ledger < bound
  | _ => True

def isPlainID : List Char → Bool
  | c :: d :: rest => decide (c ∈ lowerHex) && (c :: d :: rest).all fun x => decide (x ∈ '-' :: lowerHex)
  | _ => false

theorem isPlainID_iff (id : String) : isPlainID id.toList = true ↔ PlainID id := by
  rw [PlainID]
  cases htext : id.toList with
  | nil => simp [isPlainID]
  | cons c text =>
    cases text with
    | nil => simp [isPlainID]
    | cons d rest => simp [isPlainID]

instance (id : String) : Decidable (PlainID id) := decidable_of_iff _ (isPlainID_iff id)

instance (rows : List Event) (maxLedger : Int) : Decidable (Exportable rows maxLedger) :=
  @List.decidableBAll _ _ (fun _ => @instDecidableForall _ _ _ inferInstance) rows

instance (pre : String) (s : State) (m : Move) : Decidable (Orderly pre s m) := by
  cases m <;> (dsimp only [Orderly]; infer_instance)

/-! ## Pages -/

section Pages

variable {lib : QueryLib} {limits : SparseLimits} {f : EventFilter} {q : Query} {n : Nat}
  {all events : List Event} {next : String}

theorem buildQueryEvents_limit (h : buildQueryEvents lib .postgres limits f = .ok (q, n)) :
    q.limit = n + 1 ∧ n = (pageLimit f).toNat := by
  simp only [buildQueryEvents] at h
  split at h
  · cases h
  · split at h
    · cases h
    · split at h
      · cases h
      · obtain ⟨hq, hn⟩ := Prod.mk.inj (Except.ok.inj h)
        rw [← hq, ← hn]
        exact ⟨rfl, rfl⟩

theorem queryEvents_page (hopen : f.scope.deniesAll = false) (hn : 0 < n)
    (hbuild : buildQueryEvents lib .postgres limits f = .ok (q, n))
    (h : queryEvents lib .postgres limits (fun q => all.take q.limit) f = .ok (events, next)) :
    (events = all ∧ next = "") ∨
      ∃ last, (all.take n).getLast? = some last ∧ events = all.take n ∧
        next = encodeCursorForBackend lib.toCursorLib (cursorTag .postgres) f.orderBy last := by
  have hlimit := (buildQueryEvents_limit hbuild).1
  simp only [queryEvents, hopen, Bool.false_eq_true, and_false, if_false, hbuild, hlimit] at h
  split at h
  · rename_i hlong
    have htake : (all.take (n + 1)).take n = all.take n := by
      rw [take_take, Nat.min_eq_left (Nat.le_succ n)]
    rw [htake] at h
    split at h
    · rename_i last hlast
      cases h
      exact .inr ⟨last, hlast, rfl, rfl⟩
    · rename_i hnone
      rw [List.getLast?_eq_none_iff, take_eq_nil_iff] at hnone
      rcases hnone with hzero | hnil
      · omega
      · simp [hnil] at hlong
  · rename_i hshort
    cases h
    refine .inl ⟨take_of_length_le ?_, rfl⟩
    rw [length_take] at hshort
    omega

end Pages

section Export

variable {lib : QueryLib} {limits : SparseLimits} {maxLedger : Int} {cursor : String} {q : Query}
  {n : Nat}

theorem exportFilter_opens (cursor : String) :
    (exportFilter 0 maxLedger cursor).scope.deniesAll = false := rfl

theorem whereClause_export : whereClause lib .postgres (exportFilter 0 maxLedger cursor) =
    clause (decide (maxLedger > 0)) fun r => decide (r.ledger ≤ maxLedger) := by
  simp [whereClause, buildEventWhereClause, exportFilter, EventFilter.all, clause, contractClause,
    topicPositions, ledgerClauses]
  rfl

theorem buildQueryEvents_export
    (h : buildQueryEvents lib .postgres limits (exportFilter 0 maxLedger cursor) = .ok (q, n)) :
    n = 500 ∧ q.before = sortsBefore .postgres (exportFilter 0 maxLedger cursor) ∧
      ∃ c, decodeCursor lib .postgres (exportFilter 0 maxLedger cursor) = .ok c ∧
        ∀ r, q.selects r = true ↔ (0 < maxLedger → r.ledger ≤ maxLedger) ∧
          ∀ p ∈ cursorClauses lib .postgres (exportFilter 0 maxLedger cursor) c, p r = true := by
  refine ⟨(buildQueryEvents_limit h).2, ?_⟩
  simp only [buildQueryEvents] at h
  split at h
  · cases h
  · split at h
    · cases h
    · split at h
      · cases h
      · rename_i c hc
        rw [← (Prod.mk.inj (Except.ok.inj h)).1]
        refine ⟨rfl, c, hc, fun r => ?_⟩
        rw [whereClause_export]
        by_cases hpos : 0 < maxLedger <;> simp [clause, hpos]

theorem exportFilter_descending : (exportFilter 0 maxLedger cursor).descending = false := rfl

theorem sortsBefore_export {x y : Event}
    (h : sortsBefore .postgres (exportFilter 0 maxLedger cursor) x y = true) : x.id ≤ y.id := by
  have hledger : (exportFilter 0 maxLedger cursor).orderBy ≠ orderByLedger :=
    (by decide : orderByID ≠ orderByLedger)
  have hcreatedAt : (exportFilter 0 maxLedger cursor).orderBy ≠ orderByCreatedAt :=
    (by decide : orderByID ≠ orderByCreatedAt)
  rw [sortsBefore, if_neg hledger, if_neg hcreatedAt, reaches_iff] at h
  exact h

theorem decodeCursor_export {id : String} (hplain : PlainID id) :
    decodeCursor lib .postgres (exportFilter 0 maxLedger id) = .ok (.byID id) := by
  have hne : (exportFilter 0 maxLedger id).cursor ≠ "" := hplain.ne_empty
  have hid : (exportFilter 0 maxLedger id).orderBy = "" ∨ (exportFilter 0 maxLedger id).orderBy = orderByID :=
    .inr rfl
  rw [decodeCursor, if_neg hne, if_pos hid]
  simp only [exportFilter, hplain.hex.decodeEventID]

theorem cursorClauses_sansXDR {c : PageCursor} {f : EventFilter} {p : Event → Bool}
    (hp : p ∈ cursorClauses lib .postgres f c) (r : Event) : p (sansXDR r) = p r := by
  cases c with
  | start => cases hp
  | byID id =>
    rcases mem_append.mp hp with hp | hp
    · simp only [ledgerBound, clause] at hp
      split at hp
      · cases hp
      · split at hp
        · rw [mem_singleton.mp hp]
          rfl
        · cases hp
    · rw [mem_singleton.mp hp]
      rfl
  | byLedger l id =>
    rcases mem_cons.mp hp with rfl | hp
    · rfl
    · rw [mem_singleton.mp hp]
      rfl
  | byCreatedAt t id =>
    rw [mem_singleton.mp hp]
    rfl

end Export

/-! ## Rows on their way into the data file -/

def Pending (p : Pruner) (maxLedger : Int) (cursor : String) (x : Event) : Prop :=
  ∀ q n, buildQueryEvents p.lib .postgres p.limits (exportFilter 0 maxLedger cursor) = .ok (q, n) →
    q.selects x = true

variable {p : Pruner} {pre : String} {maxLedger : Int} {cursor : String} {rows : List Event}
  {x : Event} {phase : Phase} {w : Sweep} {lines : List Event}

theorem pending_start (hx : x.ledger < maxLedger) : Pending p maxLedger "" x := by
  intro q n hbuild
  obtain ⟨_, _, c, hc, hselects⟩ := buildQueryEvents_export hbuild
  cases hc
  exact (hselects x).mpr ⟨fun _ => Int.le_of_lt hx, nofun⟩

theorem Pending.congr {y : Event} (h : Pending p maxLedger cursor y)
    (hline : sansXDR y = sansXDR x) : Pending p maxLedger cursor x := by
  intro q n hbuild
  obtain ⟨_, _, c, _, hselects⟩ := buildQueryEvents_export hbuild
  obtain ⟨hledger, hclauses⟩ := (hselects y).mp (h q n hbuild)
  refine (hselects x).mpr ⟨?_, fun clause hclause => ?_⟩
  · rw [← (sansXDR_fields hline).2.1]
    exact hledger
  · rw [← cursorClauses_sansXDR hclause x, ← hline, cursorClauses_sansXDR hclause y]
    exact hclauses clause hclause

theorem pending_next {last : Event} (hmax : 0 < maxLedger) (hlast : last ∈ rows) (hx : x ∈ rows)
    (hexport : Exportable rows maxLedger) (hledger : last.ledger ≤ maxLedger)
    (hlt : x.ledger < maxLedger) (hpast : last.id < x.id) : Pending p maxLedger last.id x := by
  obtain ⟨hplain, hrest⟩ := hexport last hlast hledger
  have hbound := (hrest x hx hlt).2 hpast
  intro q n hbuild
  obtain ⟨_, _, c, hc, hselects⟩ := buildQueryEvents_export hbuild
  rw [decodeCursor_export hplain] at hc
  cases hc
  refine (hselects x).mpr ⟨fun _ => Int.le_of_lt hlt, fun clause hclause => ?_⟩
  rcases mem_append.mp hclause with hclause | hclause
  · simp only [ledgerBound, Store.clause] at hclause
    split at hclause
    · cases hclause
    · rename_i l hl
      split at hclause
      · rename_i hin
        rw [mem_singleton.mp hclause]
        have hle : l ≤ maxLedger := by
          rcases (of_decide_eq_true hin).2 with hnone | hle
          · exact absurd hmax (Int.not_lt.mpr hnone)
          · exact hle
        simpa [reaches, exportFilter_descending] using hbound l hl hle
      · cases hclause
  · rw [mem_singleton.mp hclause]
    simpa [passes, exportFilter_descending] using hpast

/-- A selected row of the range is on the page or selected by the next one. -/
theorem page_or_pending {q : Query} {n : Nat} {all events : List Event} {next : String}
    (hmax : 0 < maxLedger)
    (hbuild : buildQueryEvents p.lib .postgres p.limits (exportFilter 0 maxLedger cursor) = .ok (q, n))
    (hadmits : admits q rows all = true)
    (hpage : queryEvents p.lib .postgres p.limits (fun q => all.take q.limit)
      (exportFilter 0 maxLedger cursor) = .ok (events, next))
    (hexport : Exportable rows maxLedger) (hx : x ∈ rows) (hlt : x.ledger < maxLedger)
    (hselected : q.selects x = true) : x ∈ events ∨ (next ≠ "" ∧ Pending p maxLedger next x) := by
  obtain ⟨hn, hbefore, c, _, hselects⟩ := buildQueryEvents_export hbuild
  rw [admits, Bool.and_eq_true, decide_eq_true_eq, decide_eq_true_eq] at hadmits
  obtain ⟨hperm, hsorted⟩ := hadmits
  have hall : ∀ r, r ∈ all ↔ r ∈ rows ∧ q.selects r = true := by
    intro r
    rw [hperm.mem_iff, mem_filter]
  have hxall : x ∈ all := (hall x).mpr ⟨hx, hselected⟩
  rcases queryEvents_page (exportFilter_opens cursor) (hn ▸ by decide) hbuild hpage with
    ⟨hevents, _⟩ | ⟨last, hlast, hevents, hnext⟩
  · exact .inl (hevents ▸ hxall)
  · rw [hevents]
    have hmem : last ∈ all.take n := mem_of_getLast? hlast
    obtain ⟨hlastRow, hlastSelected⟩ := (hall last).mp (mem_of_mem_take hmem)
    have hledger : last.ledger ≤ maxLedger := ((hselects last).mp hlastSelected).1 hmax
    rw [← take_append_drop n all] at hxall
    rcases mem_append.mp hxall with hxtake | hxdrop
    · exact .inl hxtake
    · rw [← take_append_drop n all] at hsorted
      have hle : last.id ≤ x.id := by
        have hpair := (pairwise_append.mp hsorted).2.2 last hmem x hxdrop
        rw [hbefore] at hpair
        exact sortsBefore_export hpair
      rcases lt_or_eq_of_le hle with hpast | hsame
      · have hcursor : next = last.id := hnext
        rw [hcursor]
        exact .inr ⟨(hexport last hlastRow hledger).1.ne_empty,
          pending_next hmax hlastRow hx hexport hledger hlt hpast⟩
      · rw [((hexport last hlastRow hledger).2 x hx hlt).1 hsame.symm]
        exact .inl hmem

/-! ## The invariant -/

def Covers (lines : List Event) (bound : Int) (rows : List Event) : Prop :=
  ∀ x ∈ rows, x.ledger < bound → sansXDR x ∈ lines

def PhaseOk (p : Pruner) (pre : String) (s : State) : Phase → Prop
  | .idle => True
  | .archiving w => 0 < w.maxLedger
  | .exporting w cursor lines => 0 < w.maxLedger ∧ s.objects (manifestKey pre 0) = none ∧
      ∀ x ∈ s.rows, x.ledger < w.maxLedger → sansXDR x ∈ lines ∨ Pending p w.maxLedger cursor x
  | .uploading w lines => s.objects (manifestKey pre 0) = none ∧ Covers lines w.maxLedger s.rows
  | .sealing w lines => s.objects (manifestKey pre 0) = none ∧
      s.objects (dataKey pre 0) = some (.data lines) ∧ Covers lines w.maxLedger s.rows
  | .deleting w =>
    (∃ m, s.objects (manifestKey pre 0) = some (.manifest m) ∧ m.chunk.ledgerEnd = w.maxLedger) ∨
    (s.objects (manifestKey pre 0) = none ∧ ∀ x ∈ s.rows, ¬ x.ledger < w.maxLedger)

structure Inv (p : Pruner) (pre : String) (s : State) : Prop where
  recoverable : Recoverable pre s
  /-- Nothing is pruned before there is a manifest, so the data file can be replaced till then. -/
  unsealed : s.objects (manifestKey pre 0) = none → s.pruned = []
  archived : ∀ o, s.objects (manifestKey pre 0) = some o → ∃ m lines, o = .manifest m ∧
    s.objects (dataKey pre 0) = some (.data lines) ∧ Covers lines m.chunk.ledgerEnd s.rows
  phase : PhaseOk p pre s s.phase

variable {s s' : State}

theorem manifestKey_ne_dataKey (pre : String) (ledger : Int) :
    manifestKey pre ledger ≠ dataKey pre ledger := by
  intro h
  have hsuffix := congrArg String.toList h
  simp [manifestKey, dataKey] at hsuffix

theorem inv_init (p : Pruner) (pre : String) (tables : Tables .postgres) : Inv p pre (.init tables) where
  recoverable _ h := nomatch h
  unsealed _ := rfl
  archived _ h := nomatch h
  phase := trivial

theorem Inv.goto (hs : Inv p pre s) (hphase : PhaseOk p pre s phase) :
    Inv p pre (s.goto phase) where
  recoverable := hs.recoverable
  unsealed := hs.unsealed
  archived := hs.archived
  phase := by
    cases phase <;> exact hphase

theorem Inv.prune (hs : Inv p pre s) (h : PhaseOk p pre s (.deleting w)) :
    Inv p pre (s.goto (p.prune w)) := by
  refine hs.goto ?_
  rw [Pruner.prune]
  split
  · trivial
  · exact h

theorem maxLedger_pos {o : Options} {lastIngested maxLedger : Int}
    (h : o.maxLedger lastIngested = some maxLedger) : 0 < maxLedger := by
  simp only [Options.maxLedger] at h
  split at h
  · cases h
  · split at h <;> cases h <;> omega

theorem begin_inv (harchive : p.opts.archiveBeforePrune = true) (hpre : p.archiver = some pre)
    (hs : Inv p pre s) (cutoff : Time) : Inv p pre (p.begin s cutoff) := by
  simp only [Pruner.begin]
  split
  · exact hs
  · split
    · exact hs
    · rename_i maxLedger hmax
      simp only [harchive, hpre, Option.isSome_some, Bool.and_self, if_true]
      exact hs.goto (maxLedger_pos hmax)

theorem lookUp_inv (hs : Inv p pre s) (hmax : 0 < w.maxLedger) : Inv p pre (p.lookUp pre s w) := by
  simp only [Pruner.lookUp]
  split
  · rename_i hnone
    exact hs.goto ⟨hmax, hnone, fun x _ hlt => .inr (pending_start hlt)⟩
  · exact hs.goto trivial
  · rename_i m hm
    split
    · rename_i hmatches
      exact hs.prune (.inl ⟨m, hm, hmatches.2.2.1⟩)
    · exact hs.goto trivial

theorem page_inv (hs : Inv p pre s) {all : List Event}
    (hphase : s.phase = .exporting w cursor lines) (hexport : Exportable s.rows w.maxLedger)
    (h : p.page s w cursor lines all = some s') : Inv p pre s' := by
  have hok := hs.phase
  rw [hphase] at hok
  obtain ⟨hmax, hnone, hpending⟩ := hok
  simp only [Pruner.page] at h
  split at h
  · cases h
    exact hs.goto trivial
  · rename_i q n hbuild
    split at h
    · rename_i hadmits
      split at h
      · cases h
        exact hs.goto trivial
      · rename_i events next hpage
        have hnext : ∀ x ∈ s.rows, x.ledger < w.maxLedger →
            sansXDR x ∈ lines ++ events.map sansXDR ∨ (next ≠ "" ∧ Pending p w.maxLedger next x) := by
          intro x hx hlt
          rcases hpending x hx hlt with hline | hpend
          · exact .inl (mem_append_left _ hline)
          · rcases page_or_pending hmax hbuild hadmits hpage hexport hx hlt (hpend q n hbuild) with
              hevent | hlater
            · exact .inl (mem_append_right _ (mem_map_of_mem hevent))
            · exact .inr hlater
        split at h
        · cases h
          exact hs.goto ⟨hmax, hnone, fun x hx hlt => (hnext x hx hlt).imp_right And.right⟩
        · rename_i hdone
          have hcovers : Covers (lines ++ events.map sansXDR) w.maxLedger s.rows :=
            fun x hx hlt => (hnext x hx hlt).resolve_right fun hlater => hdone hlater.1
          split at h
          · rename_i hempty
            cases h
            rw [hempty] at hcovers
            exact hs.prune (.inr ⟨hnone, fun x hx hlt => nomatch hcovers x hx hlt⟩)
          · cases h
            exact hs.goto ⟨hnone, hcovers⟩
    · cases h

theorem putData_inv (hs : Inv p pre s) (hnone : s.objects (manifestKey pre 0) = none)
    (hphase : PhaseOk p pre ((s.put (dataKey pre 0) (.data lines)).goto phase) phase) :
    Inv p pre ((s.put (dataKey pre 0) (.data lines)).goto phase) where
  recoverable e he := by
    have hempty : s.pruned = [] := hs.unsealed hnone
    exact absurd (hempty ▸ he : e ∈ []) not_mem_nil
  unsealed _ := hs.unsealed hnone
  archived o ho := by
    have hsame : Function.update s.objects (dataKey pre 0) (some (.data lines)) (manifestKey pre 0) = none :=
      (update_of_ne (manifestKey_ne_dataKey pre 0) ..).trans hnone
    exact nomatch hsame.symm.trans ho
  phase := hphase

theorem putManifest_inv (hs : Inv p pre s) (hnone : s.objects (manifestKey pre 0) = none)
    (hdata : s.objects (dataKey pre 0) = some (.data lines))
    (hcovers : Covers lines w.maxLedger s.rows) (hphase : phase = .idle ∨ phase = .deleting w) :
    Inv p pre ((s.put (manifestKey pre 0) (.manifest (.covering 0 w.maxLedger lines.length))).goto
      phase) where
  recoverable e he := by
    have hempty : s.pruned = [] := hs.unsealed hnone
    exact absurd (hempty ▸ he : e ∈ []) not_mem_nil
  unsealed _ := hs.unsealed hnone
  archived o ho := by
    have hput := (update_self ..).symm.trans ho
    cases hput
    exact ⟨_, lines, rfl,
      (update_of_ne (manifestKey_ne_dataKey pre 0).symm ..).trans hdata, hcovers⟩
  phase := by
    rcases hphase with rfl | rfl
    · trivial
    · exact .inl ⟨_, update_self .., rfl⟩

/-! ## Steps and runs -/

theorem Covers.write {bound : Int} {rows' : List Event} (h : Covers lines bound rows)
    (hrows : ∀ x ∈ rows', x.ledger < bound → ∃ y ∈ rows, sansXDR y = sansXDR x) :
    Covers lines bound rows' := by
  intro x hx hlt
  obtain ⟨y, hy, hline⟩ := hrows x hx hlt
  rw [← hline]
  exact h y hy ((sansXDR_fields hline).2.1 ▸ hlt)

theorem write_inv (hs : Inv p pre s) {w : Write} (horderly : Orderly pre s (.write w)) :
    Inv p pre { s with tables := w.apply s.tables } where
  recoverable := hs.recoverable
  unsealed := hs.unsealed
  archived o ho := by
    obtain ⟨m, lines, rfl, hdata, hcovers⟩ := hs.archived o ho
    have ho : s.objects (manifestKey pre 0) = some (.manifest m) := ho
    refine ⟨m, lines, rfl, hdata, hcovers.write (horderly _ ?_)⟩
    simp [State.bounds, ho, Object.ledgerEnd]
  phase := by
    have hok := hs.phase
    have hbound : ∀ bound ∈ s.phase.bound, ∀ x ∈ (w.apply s.tables).events.rows, x.ledger < bound →
        ∃ y ∈ s.rows, sansXDR y = sansXDR x :=
      fun bound hmem => horderly bound (mem_append_right _ (Option.mem_toList.mpr hmem))
    cases hphase : s.phase with
    | idle => trivial
    | archiving v =>
      rw [hphase] at hok
      exact hok
    | exporting v cursor lines =>
      rw [hphase] at hok hbound
      refine ⟨hok.1, hok.2.1, fun x hx hlt => ?_⟩
      obtain ⟨y, hy, hline⟩ := hbound v.maxLedger rfl x hx hlt
      rcases hok.2.2 y hy ((sansXDR_fields hline).2.1 ▸ hlt) with hin | hpending
      · exact .inl (hline ▸ hin)
      · exact .inr (hpending.congr hline)
    | uploading v lines =>
      rw [hphase] at hok hbound
      exact ⟨hok.1, hok.2.write (hbound v.maxLedger rfl)⟩
    | sealing v lines =>
      rw [hphase] at hok hbound
      exact ⟨hok.1, hok.2.1, hok.2.2.write (hbound v.maxLedger rfl)⟩
    | deleting v =>
      rw [hphase] at hok hbound
      refine hok.imp_right fun ⟨hnone, hfree⟩ => ⟨hnone, fun x hx hlt => ?_⟩
      obtain ⟨y, hy, hline⟩ := hbound v.maxLedger rfl x hx hlt
      exact hfree y hy ((sansXDR_fields hline).2.1 ▸ hlt)

theorem delete_inv (hs : Inv p pre s) {victims : List Event} (hphase : s.phase = .deleting w)
    (hids : ∀ x ∈ s.rows, ∀ y ∈ s.rows, x.id = y.id → x.ledger < w.maxLedger → y.ledger < w.maxLedger)
    (h : p.deleteBatch s w victims = some s') : Inv p pre s' := by
  have hok := hs.phase
  rw [hphase] at hok
  simp only [Pruner.deleteBatch] at h
  split at h
  · rename_i hvictims
    cases h
    -- whatever goes lies below the bound
    have hbelow : ∀ e ∈ s.rows, e.id ∈ victims.map Event.id → e.ledger < w.maxLedger := by
      intro e he hid
      obtain ⟨v, hv, hsame⟩ := mem_map.mp hid
      obtain ⟨hrow, hdoomed⟩ := hvictims.2.1 v hv
      simp only [Sweep.dooms, Bool.and_eq_true, decide_eq_true_eq] at hdoomed
      exact hids v hrow e he hsame hdoomed.1
    have hrest : ∀ x, x ∈ (s.tables.events.delete fun e => decide (e.id ∈ victims.map Event.id)).rows →
        x ∈ s.rows := fun x hx => (Table.mem_delete.mp hx).1
    refine ⟨?_, ?_, ?_, ?_⟩
    · intro e he
      rcases mem_append.mp he with hold | hnew
      · exact hs.recoverable e hold
      · obtain ⟨hrow, hgone⟩ := mem_filter.mp hnew
        have hlt := hbelow e hrow (of_decide_eq_true hgone)
        rcases hok with ⟨m, hm, hend⟩ | ⟨_, hfree⟩
        · obtain ⟨m', lines, hm', hdata, hcovers⟩ := hs.archived _ hm
          cases hm'
          exact ⟨lines, hdata, hcovers e hrow (hend ▸ hlt)⟩
        · exact absurd hlt (hfree e hrow)
    · intro hnone
      rcases hok with ⟨m, hm, _⟩ | ⟨_, hfree⟩
      · exact nomatch hnone.symm.trans hm
      · refine append_eq_nil_iff.mpr ⟨hs.unsealed hnone, filter_eq_nil_iff.mpr ?_⟩
        intro e hrow hgone
        exact hfree e hrow (hbelow e hrow (of_decide_eq_true hgone))
    · intro o ho
      obtain ⟨m, lines, hm, hdata, hcovers⟩ := hs.archived o ho
      exact ⟨m, lines, hm, hdata, fun x hx => hcovers x (hrest x hx)⟩
    · split
      · trivial
      · exact hok.imp_right fun ⟨hnone, hfree⟩ => ⟨hnone, fun x hx => hfree x (hrest x hx)⟩
  · cases h

theorem step_inv (harchive : p.opts.archiveBeforePrune = true) (hpre : p.archiver = some pre)
    {m : Move} (horderly : Orderly pre s m) (hs : Inv p pre s) (h : p.step s m = some s') :
    Inv p pre s' := by
  have hok := hs.phase
  cases step_effect h with
  | write w => exact write_inv hs horderly
  | sweep cutoff hidle => exact begin_inv harchive hpre hs cutoff
  | abort => exact hs.goto trivial
  | lookUp hphase hsame =>
    cases hpre.symm.trans hsame
    rw [hphase] at hok
    exact lookUp_inv hs hok
  | page hphase hpage => exact page_inv hs hphase (horderly _ (by simp [hphase, Phase.bound])) hpage
  | data hphase hsame hm =>
    cases hpre.symm.trans hsame
    rw [hphase] at hok
    refine putData_inv hs hok.1 ?_
    rcases hm with ⟨-, rfl⟩ | ⟨-, rfl⟩
    · exact ⟨(update_of_ne (manifestKey_ne_dataKey pre 0) ..).trans hok.1,
        update_self .., hok.2⟩
    · trivial
  | manifest hphase hsame hm =>
    cases hpre.symm.trans hsame
    rw [hphase] at hok
    refine putManifest_inv hs hok.1 hok.2.1 hok.2.2 ?_
    rcases hm with ⟨-, rfl⟩ | ⟨-, rfl⟩
    · rw [Pruner.prune]
      split
      · exact .inl rfl
      · exact .inr rfl
    · exact .inl rfl
  | delete hphase hdelete =>
    exact delete_inv hs hphase (horderly _ (by simp [hphase, Phase.bound])) hdelete

/-- With `ArchiveBeforePrune` every pruned row has its line in the data file, in every run in
which writers and ids respect the archived range. -/
theorem pruned_events_are_archived (p : Pruner) (pre : String)
    (harchive : p.opts.archiveBeforePrune = true) (hpre : p.archiver = some pre)
    (tables : Tables .postgres) (ms : List Move) (s : State)
    (horderly : Steps.Along p.step (Orderly pre) (.init tables) ms)
    (hrun : Steps.run p.step (.init tables) ms = some s) : Recoverable pre s := by
  have hs : Inv p pre s :=
    horderly.invariant (fun _ _ _ hm hs => step_inv harchive hpre hm hs) (inv_init p pre tables) hrun
  exact hs.recoverable

def demoPruner : Pruner where
  opts := ⟨0, 10, 0, true, false⟩
  archiver := some ""
  lib := .verbatim
  limits := ⟨0, 0⟩

def demoTables : Tables .postgres :=
  { Tables.empty .postgres with
    events := ⟨[Event.fromRpc 7], by decide +kernel⟩
    ingestionState := ⟨[⟨"default", 20, "", none⟩], by decide⟩ }

def demoSweep : List Move :=
  [.sweep Time.zero, .lookUp, .page [Event.fromRpc 7], .put, .put, .delete [Event.fromRpc 7]]

theorem pruned_events_are_archived_demoSweep :
    ∃ s, Steps.run demoPruner.step (.init demoTables) demoSweep = some s ∧
      s.pruned = [Event.fromRpc 7] ∧ Recoverable "" s := by
  refine ⟨_, rfl, rfl, ?_⟩
  exact pruned_events_are_archived demoPruner "" rfl rfl demoTables demoSweep _
    (Steps.Along.of_check (by decide +kernel)) rfl

/-- The event of a ledger that is already archived is inserted, and the next sweep takes the
archive as it is. -/
theorem late_event_pruned_unarchived :
    ∃ s, Steps.run demoPruner.step (.init demoTables)
        (demoSweep ++ [.write (.upsertEvents [Event.fromRpc 5]), .sweep Time.zero, .lookUp,
          .delete [Event.fromRpc 5]]) = some s ∧
      s.pruned = [Event.fromRpc 7, Event.fromRpc 5] ∧
      s.objects (dataKey "" 0) = some (.data [Event.fromRpc 7]) ∧ ¬ Recoverable "" s := by
  refine ⟨_, rfl, rfl, rfl, fun h => ?_⟩
  obtain ⟨lines, hdata, hmem⟩ := h (Event.fromRpc 5) (.tail _ (.head _))
  cases hdata
  exact absurd hmem (by decide +kernel)

end SoroTrail.Retention
