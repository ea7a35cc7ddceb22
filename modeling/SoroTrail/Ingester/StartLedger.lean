import SoroTrail.Ingester.Node

/-!
# The start ledger of watched mode

A cycle over watched contracts starts at one ledger for all of them.  Here the
store and the RPC answer every request, so the ledger is a function of the tables
and of the RPC's health.  It is compared with the smallest ledger at which one of
the contracts has to resume.
-/

set_option autoImplicit false

namespace SoroTrail.Ingest

open Lib Rpc Store List Prog

variable {b : Backend}

/-! ## Surroundings that never fail -/

/-- The RPC of a quiet hour: its health stays as it is, and every page is answered. -/
structure Unfailing where
  health : Health
  latestLedger_lt : health.latestLedger < 2 ^ 32
  oldestLedger_lt : health.oldestLedger < 2 ^ 32
  page : GetEventsRequest → GetEventsResponse
  archived : Nat
  multiplier : Nat
  now : Int

/-- A lookup that found no row answers with `ErrNotFound`. -/
def found {α : Type} : Option α → Except Err α
  | some a => .ok a
  | none => .error .notFound

def Unfailing.answer (c : Unfailing) (ing : Ingester) : (o : Act) → Node b → Ans o × Node b
  | .getEvents _ req, n => (.ok (c.page req), n)
  | .getHealth, n => (.ok c.health, n)
  | .listWatchedContracts _, n => (.ok (listed n.tables), n)
  | .getIngestionState, n => (found (n.tables.getIngestionState ing.opts.network), n)
  | .getContractCursor id, n => (found (n.tables.getContractCursor id), n)
  | .saveIngestionState s, n => (.ok (), n.committed (.saveIngestionState s))
  | .saveContractCursor cc, n => (.ok (), n.committed (.saveContractCursor cc))
  | .upsertEvents events, n => (.ok (n.tables.inserted events), n.committed (.upsertEvents events))
  | .deadLetterEvent d, n => (.ok (), n.committed (.deadLetterEvent d))
  | .upsertAddressRefs refs, n => (.ok (), n.committed (.upsertAddressRefs refs))
  | .replaceEventsInRange events fromLedger toLedger, n =>
    (.ok (), n.committed (.replaceEventsInRange events fromLedger toLedger))
  | .reconcileReorgRange o, n =>
    ((n.tables.reconcileReorgRange o).map fun _ => (), n.committed (.reconcileReorgRange o))
  | .resolveArchivedBoundary, n => (.ok c.archived, n)
  | .memory f, n => (n.mem, { n with mem := f n.mem })
  | .effectiveSweepMultiplier, n => (c.multiplier, n)
  | .now, n => (c.now, n)
  | .sleepCtx _, n => (true, n)
  | .ctxDone, n => (false, n)
  | .rangeOrder keys, n => (keys, n)
  | .schedule _, n => ((0 : Nat), n)
  | .warn _, n => ((), n)

/-! ## Positions -/

variable (ing : Ingester) (c : Unfailing)

/-- The start of the retention window, where a contract without progress resumes. -/
def windowStart (health : Health) : Nat :=
  (max (max ((health.latestLedger : Int) - ing.opts.retentionLedgers) health.oldestLedger) 2).toNat

/-- The position of the network as a whole: the dry run's, or the persisted one. -/
def globalStart (n : Node b) : Nat :=
  match ing.opts.dryRun, n.mem.dryRunPosition with
  | true, some p => if p.cursor ≠ "" then 0 else ledgerAfter p.lastIngestedLedger
  | _, _ =>
    match n.tables.getIngestionState ing.opts.network with
    | none => windowStart ing c.health
    | some st =>
      if st.lastCursor ≠ "" then 0
      else if 0 < st.lastIngestedLedger then ledgerAfter st.lastIngestedLedger
      else windowStart ing c.health

def progressOf (t : Tables b) (contractID : String) : Option Int :=
  match t.getContractCursor contractID with
  | some cc => if 0 < cc.lastIngestedLedger then some cc.lastIngestedLedger else none
  | none => none

/-- The ledger `resolveContractPosition` finds for a contract. -/
def startPosition (n : Node b) (contractID : String) : Nat :=
  match progressOf n.tables contractID with
  | some ledger => ledgerAfter ledger
  | none => globalStart ing c n

/-- The ledger at which a contract has to resume: after its last one, or at the start of
the retention window. -/
def resumeLedger (t : Tables b) (contractID : String) : Nat :=
  match progressOf t contractID with
  | some ledger => (ledger + 1).toNat
  | none => windowStart ing c.health

/-- The loop over the contracts, with `0` for none yet. -/
def earliestOf (earliest : Nat) (starts : List Nat) : Nat :=
  starts.foldl (fun e start => if e = 0 ∨ start < e then start else e) earliest

def valuesOn (f : String → Nat) (ids : List String) : Set Nat := { v | ∃ id ∈ ids, f id = v }

/-- Both loops return the smallest resume ledger, in whichever order the contracts come. -/
def StartsAtEarliest (n : Node b) (ids : List String) : Prop :=
  ∃ m, IsLeast (valuesOn (resumeLedger ing c n.tables) ids) m ∧
    ∀ order : List String, order.Perm ids →
      (Prog.eval (c.answer ing) (resolveBatchStart ing order) n).1 = .ok m ∧
      ((listed n.tables).map (fun wc => wc.contractID) = order →
        (Prog.eval (c.answer ing) (earliestStartLedger ing) n).1 = .ok m)

/-- The smallest position found is the smallest one to resume at. -/
def PositionsAgree (n : Node b) (ids : List String) : Prop :=
  ∃ m, IsLeast (valuesOn (startPosition ing c n) ids) m ∧
    IsLeast (valuesOn (resumeLedger ing c n.tables) ids) m

/-! ## The loop -/

theorem earliestOf_append (e : Nat) (starts : List Nat) (s : Nat) :
    earliestOf e (starts ++ [s]) ≤ s := by
  simp only [earliestOf, foldl_append, foldl_cons, foldl_nil]
  split <;> omega

theorem earliestOf_mem (e : Nat) (starts : List Nat) :
    earliestOf e starts = e ∨ earliestOf e starts ∈ starts := by
  induction starts generalizing e with
  | nil => exact .inl rfl
  | cons s starts ih =>
    rcases ih (if e = 0 ∨ s < e then s else e) with h | h
    · by_cases hs : e = 0 ∨ s < e
      · right
        simp [earliestOf, hs] at h ⊢
        exact .inl h
      · left
        simpa [earliestOf, hs] using h
    · exact .inr (.tail _ h)

theorem earliestOf_le {e : Nat} {starts : List Nat} (hpos : ∀ s ∈ starts, 0 < s) :
    (0 < e → 0 < earliestOf e starts ∧ earliestOf e starts ≤ e) ∧
      ∀ s ∈ starts, earliestOf e starts ≤ s := by
  induction starts generalizing e with
  | nil => simp [earliestOf]
  | cons s starts ih =>
    have hs : 0 < s := hpos s (.head _)
    have hnext : 0 < (if e = 0 ∨ s < e then s else e) ∧ (if e = 0 ∨ s < e then s else e) ≤ s := by
      split <;> omega
    have ih := ih (e := if e = 0 ∨ s < e then s else e)
      (fun s' hs' => hpos s' (.tail _ hs'))
    have hbound := ih.1 hnext.1
    refine ⟨?_, ?_⟩
    · intro he
      have hle : (if e = 0 ∨ s < e then s else e) ≤ e := by split <;> omega
      exact ⟨hbound.1, hbound.2.trans hle⟩
    · intro s' hs'
      rcases mem_cons.mp hs' with rfl | hs'
      · exact hbound.2.trans hnext.2
      · exact ih.2 s' hs'

theorem earliestOf_isLeast {starts : List Nat} (hne : starts ≠ [])
    (hpos : ∀ s ∈ starts, 0 < s) :
    earliestOf 0 starts ∈ starts ∧ ∀ s ∈ starts, earliestOf 0 starts ≤ s := by
  refine ⟨?_, (earliestOf_le hpos).2⟩
  rcases earliestOf_mem 0 starts with hzero | hmem
  · obtain ⟨s, rest, rfl⟩ := exists_cons_of_ne_nil hne
    have hs : 0 < s := hpos s (.head _)
    have hrest := (earliestOf_le fun s' hs' => hpos s' (.tail _ hs')).1 hs
    have hstep : earliestOf 0 (s :: rest) = earliestOf s rest := by simp [earliestOf]
    omega
  · exact hmem

/-! ## What the functions return -/

section Eval

variable (hstart : ing.opts.startLedger = 0) (hraw : ing.opts.startLedgerRaw = "")

def SamePositions (n n' : Node b) : Prop :=
  n'.tables = n.tables ∧ globalStart ing c n' = globalStart ing c n

variable {n : Node b}

theorem SamePositions.trans {n' n'' : Node b} (h : SamePositions ing c n n')
    (h' : SamePositions ing c n' n'') : SamePositions ing c n n'' :=
  ⟨h'.1.trans h.1, h'.2.trans h.2⟩

theorem SamePositions.startPosition {n' : Node b} (h : SamePositions ing c n n') :
    startPosition ing c n' = startPosition ing c n := by
  funext id
  simp only [Ingest.startPosition, h.1, h.2]

theorem windowStart_lt : windowStart ing c.health < 2 ^ 32 := by
  have hlatest := c.latestLedger_lt
  have holdest := c.oldestLedger_lt
  simp only [windowStart]
  omega

theorem two_le_windowStart : 2 ≤ windowStart ing c.health := by
  simp only [windowStart]
  omega

theorem ledgerAfter_windowStart :
    ledgerAfter ((windowStart ing c.health : Int) - 1) = windowStart ing c.health := by
  have hlt := windowStart_lt ing c
  simp only [ledgerAfter, u32, u32OfInt]
  omega

include hstart hraw in
theorem coldStartLedger_unset : coldStartLedger ing c.health = .ok (windowStart ing c.health) := by
  simp [coldStartLedger, hstart, hraw, windowStart]

/-- In a dry run a resolved position is remembered, and it is the one resolved again. -/
theorem samePositions_of_remembered {p : DryRunPosition}
    (h : (if p.cursor ≠ "" then 0 else ledgerAfter p.lastIngestedLedger) = globalStart ing c n)
    (hdry : ing.opts.dryRun = true) :
    SamePositions ing c n { n with mem := { n.mem with dryRunPosition := some p } } := by
  refine ⟨rfl, ?_⟩
  rw [← h]
  simp only [globalStart, hdry]

theorem eval_setDryRunPosition (cursor : String) (ledger : Int)
    (h : (if cursor ≠ "" then 0 else ledgerAfter ledger) = globalStart ing c n) :
    SamePositions ing c n
      (Prog.eval (c.answer ing) (setDryRunPosition ing cursor ledger) n).2 := by
  cases hdry : ing.opts.dryRun with
  | false =>
    simp only [setDryRunPosition, hdry]
    exact ⟨rfl, rfl⟩
  | true =>
    simp only [setDryRunPosition, hdry]
    exact samePositions_of_remembered ing c h hdry

include hstart hraw in
theorem eval_coldStart (h : globalStart ing c n = windowStart ing c.health) :
    ∃ n', Prog.eval (c.answer ing) (coldStart ing) n = (.ok (windowStart ing c.health, ""), n') ∧
      SamePositions ing c n n' := by
  have hhealth : Prog.eval (c.answer ing) (wrapErr "getHealth for cold start" getHealth) n =
      (.ok c.health, n) := rfl
  have hledger : Prog.eval (c.answer ing)
      (Fallible.ofExcept (coldStartLedger ing c.health) : M Nat) n =
        (.ok (windowStart ing c.health), n) := by
    rw [coldStartLedger_unset ing c hstart hraw]
    rfl
  refine ⟨(Prog.eval (c.answer ing)
    (setDryRunPosition ing "" ((windowStart ing c.health : Int) - 1)) n).2, ?_, ?_⟩
  · rw [coldStart, eval_andThen hhealth, eval_andThen hledger, eval_lift_bind]
    rfl
  · apply eval_setDryRunPosition
    rw [h]
    exact ledgerAfter_windowStart ing c

theorem globalStart_persisted (hown : ¬ (ing.opts.dryRun = true ∧ n.mem.dryRunPosition.isSome)) :
    globalStart ing c n =
      match n.tables.getIngestionState ing.opts.network with
      | none => windowStart ing c.health
      | some st =>
        if st.lastCursor ≠ "" then 0
        else if 0 < st.lastIngestedLedger then ledgerAfter st.lastIngestedLedger
        else windowStart ing c.health := by
  cases hdry : ing.opts.dryRun with
  | false => simp only [globalStart, hdry]
  | true =>
    cases hpos : n.mem.dryRunPosition with
    | none => simp only [globalStart, hdry, hpos]
    | some p => exact absurd ⟨hdry, by rw [hpos]; rfl⟩ hown

include hstart hraw in
theorem eval_persistedPosition (hown : ¬ (ing.opts.dryRun = true ∧ n.mem.dryRunPosition.isSome)) :
    ∃ cursor n', Prog.eval (c.answer ing) (persistedPosition ing) n =
        (.ok (globalStart ing c n, cursor), n') ∧ SamePositions ing c n n' := by
  have hglobal := globalStart_persisted ing c hown
  have hread : Prog.eval (c.answer ing) getIngestionState n =
      (found (n.tables.getIngestionState ing.opts.network), n) := rfl
  rw [persistedPosition, eval_attempt_bind, hread]
  cases hst : n.tables.getIngestionState ing.opts.network with
  | none =>
    rw [hst] at hglobal
    obtain ⟨n', heval, hsame⟩ := eval_coldStart ing c hstart hraw hglobal
    rw [hglobal]
    exact ⟨"", n', heval, hsame⟩
  | some st =>
    rw [hst] at hglobal
    by_cases hcursor : st.lastCursor ≠ ""
    · refine ⟨st.lastCursor, (Prog.eval (c.answer ing)
        (setDryRunPosition ing st.lastCursor st.lastIngestedLedger) n).2, ?_, ?_⟩
      · simp only [found, if_pos hcursor] at hglobal ⊢
        rw [eval_lift_bind, hglobal]
        rfl
      · apply eval_setDryRunPosition
        simp only [if_pos hcursor] at hglobal ⊢
        exact hglobal.symm
    · by_cases hledger : 0 < st.lastIngestedLedger
      · refine ⟨"", (Prog.eval (c.answer ing)
          (setDryRunPosition ing "" st.lastIngestedLedger) n).2, ?_, ?_⟩
        · simp only [found, if_neg hcursor, if_pos hledger] at hglobal ⊢
          rw [eval_lift_bind, hglobal]
          rfl
        · apply eval_setDryRunPosition
          simp only [if_neg hcursor, if_pos hledger] at hglobal
          exact hglobal.symm
      · simp only [if_neg hcursor, if_neg hledger] at hglobal
        obtain ⟨n', heval, hsame⟩ := eval_coldStart ing c hstart hraw hglobal
        refine ⟨"", n', ?_, hsame⟩
        simp only [found, if_neg hcursor, if_neg hledger]
        rw [hglobal]
        exact heval

include hstart hraw in
theorem eval_coldStartPosition (n : Node b) :
    ∃ n', Prog.eval (c.answer ing) (coldStartPosition ing) n = (.ok (globalStart ing c n), n') ∧
      SamePositions ing c n n' := by
  have hresolve : ∃ cursor n', Prog.eval (c.answer ing) (resolvePosition ing) n =
      (.ok (globalStart ing c n, cursor), n') ∧ SamePositions ing c n n' := by
    rw [resolvePosition, eval_lift_bind]
    by_cases hown : ing.opts.dryRun = true ∧ n.mem.dryRunPosition.isSome
    · obtain ⟨hdry, hpos⟩ := hown
      obtain ⟨p, hp⟩ := Option.isSome_iff_exists.mp hpos
      have hglobal : globalStart ing c n =
          if p.cursor ≠ "" then 0 else ledgerAfter p.lastIngestedLedger := by
        simp only [globalStart, hdry, hp]
      have hmem : (Prog.eval (c.answer ing) readMemory n).1.dryRunPosition = some p := hp
      rw [hglobal]
      refine ⟨if p.cursor ≠ "" then p.cursor else "", n, ?_, rfl, rfl⟩
      simp only [hdry, hmem]
      split <;> rfl
    · obtain ⟨cursor, n', heval, hsame⟩ := eval_persistedPosition ing c hstart hraw hown
      refine ⟨cursor, n', ?_, hsame⟩
      have hoverride : ¬ ((Prog.eval (c.answer ing) readMemory n).1.startOverrideApplied = false ∧
          0 < ing.opts.startLedger) := by omega
      simp only [if_neg hoverride]
      split
      · rename_i p hdry hpos
        exact absurd ⟨hdry, by rw [show n.mem.dryRunPosition = some p from hpos]; rfl⟩ hown
      · exact heval
  obtain ⟨cursor, n', heval, hsame⟩ := hresolve
  refine ⟨n', ?_, hsame⟩
  rw [coldStartPosition, eval_andThen heval]
  rfl

include hstart hraw in
theorem eval_resolveContractPosition (n : Node b) (id : String) :
    ∃ n', Prog.eval (c.answer ing) (resolveContractPosition ing id) n =
        (.ok (startPosition ing c n id), n') ∧ SamePositions ing c n n' := by
  have hread : Prog.eval (c.answer ing) (getContractCursor id) n =
      (found (n.tables.getContractCursor id), n) := rfl
  obtain ⟨n', hcold, hsame⟩ := eval_coldStartPosition ing c hstart hraw n
  rw [resolveContractPosition, eval_attempt_bind, hread]
  cases hcc : n.tables.getContractCursor id with
  | none =>
    refine ⟨n', ?_, hsame⟩
    simp only [startPosition, progressOf, hcc]
    exact hcold
  | some cc =>
    by_cases hledger : 0 < cc.lastIngestedLedger
    · refine ⟨n, ?_, rfl, rfl⟩
      simp only [found, startPosition, progressOf, hcc, if_pos hledger]
      rfl
    · refine ⟨n', ?_, hsame⟩
      simp only [found, startPosition, progressOf, hcc, if_neg hledger]
      exact hcold

include hstart hraw in
theorem eval_earliestPosition (ids : List String) (e : Nat) (n : Node b) :
    ∃ n', Prog.eval (c.answer ing) (earliestPosition ing ids e) n =
        (.ok (earliestOf e (ids.map (startPosition ing c n))), n') ∧ SamePositions ing c n n' := by
  induction ids generalizing e n with
  | nil => exact ⟨n, rfl, rfl, rfl⟩
  | cons id ids ih =>
    obtain ⟨n₁, hid, hsame⟩ := eval_resolveContractPosition ing c hstart hraw n id
    obtain ⟨n₂, hids, hsame'⟩ := ih
      (if e = 0 ∨ startPosition ing c n id < e then startPosition ing c n id else e) n₁
    refine ⟨n₂, ?_, hsame.trans ing c hsame'⟩
    rw [earliestPosition, eval_andThen hid, hids, hsame.startPosition]
    rfl

theorem two_le_resumeLedger (t : Tables b) (id : String) : 2 ≤ resumeLedger ing c t id := by
  have hwindow := two_le_windowStart ing c
  simp only [resumeLedger, progressOf]
  split
  · rename_i ledger hledger
    split at hledger <;> grind
  · exact hwindow

/-- The loop meets the smallest resume ledger in every order exactly when the smallest
position is that ledger: a smaller position put last would be returned. -/
theorem earliestOf_eq_iff {ids : List String} {m : Nat}
    (hm : IsLeast (valuesOn (resumeLedger ing c n.tables) ids) m) :
    (∀ order : List String, order.Perm ids →
        earliestOf 0 (order.map (startPosition ing c n)) = m) ↔
      IsLeast (valuesOn (startPosition ing c n) ids) m := by
  have hm_pos : 2 ≤ m := by
    obtain ⟨id, -, rfl⟩ := hm.1
    exact two_le_resumeLedger ing c n.tables id
  constructor
  · intro horder
    refine ⟨?_, ?_⟩
    · have hself := horder ids (List.Perm.refl ids)
      rcases earliestOf_mem 0 (ids.map (startPosition ing c n)) with hzero | hmem
      · omega
      · rw [hself] at hmem
        obtain ⟨id, hid, hpos⟩ := mem_map.mp hmem
        exact ⟨id, hid, hpos⟩
    · rintro _ ⟨id, hid, rfl⟩
      have hlast := horder (ids.erase id ++ [id])
        ((perm_append_comm).trans (perm_cons_erase hid).symm)
      have hle := earliestOf_append 0 ((ids.erase id).map (startPosition ing c n)) (startPosition ing c n id)
      rw [map_append] at hlast
      exact hlast ▸ hle
  · intro hleast order hperm
    have hne : order.map (startPosition ing c n) ≠ [] := by
      obtain ⟨id, hid, -⟩ := hleast.1
      simp only [ne_eq, map_eq_nil_iff]
      rintro rfl
      exact not_mem_nil (hperm.mem_iff.mpr hid)
    have hbound : ∀ s ∈ order.map (startPosition ing c n), m ≤ s := by
      intro s hs
      obtain ⟨id, hid, rfl⟩ := mem_map.mp hs
      exact hleast.2 ⟨id, hperm.mem_iff.mp hid, rfl⟩
    obtain ⟨hmem, hle⟩ := earliestOf_isLeast hne fun s hs => by have := hbound s hs; omega
    obtain ⟨id, hid, hpos⟩ := hleast.1
    exact le_antisymm (hpos ▸ hle _ (mem_map_of_mem (hperm.mem_iff.mpr hid)))
      (hbound _ hmem)

include hstart hraw in
theorem eval_resolveBatchStart (n : Node b) (ids : List String) :
    (Prog.eval (c.answer ing) (resolveBatchStart ing ids) n).1 =
      .ok (earliestOf 0 (ids.map (startPosition ing c n))) := by
  obtain ⟨n', heval, -⟩ := eval_earliestPosition ing c hstart hraw ids 0 n
  rw [resolveBatchStart, heval]

include hstart hraw in
theorem eval_earliestStartLedger
    (hfound : earliestOf 0 (((listed n.tables).map fun wc => wc.contractID).map
      (startPosition ing c n)) ≠ 0) :
    (Prog.eval (c.answer ing) (earliestStartLedger ing) n).1 =
      .ok (earliestOf 0 (((listed n.tables).map fun wc => wc.contractID).map
        (startPosition ing c n))) := by
  have hlist : Prog.eval (c.answer ing) (listWatchedContracts .earliestStartLedger) n =
      (.ok (listed n.tables), n) := rfl
  obtain ⟨n', heval, -⟩ := eval_earliestPosition ing c hstart hraw
    ((listed n.tables).map fun wc => wc.contractID) 0 n
  rw [earliestStartLedger, eval_andThen hlist, eval_andThen heval, if_neg hfound]
  rfl

theorem positionsAgree_of_eq {ids : List String} (hne : ids ≠ [])
    (h : ∀ id ∈ ids, startPosition ing c n id = resumeLedger ing c n.tables id) :
    PositionsAgree ing c n ids := by
  have hsome : ids.map (resumeLedger ing c n.tables) ≠ [] := by simpa using hne
  obtain ⟨hmem, hle⟩ := earliestOf_isLeast hsome (by
      intro s hs
      obtain ⟨id, -, rfl⟩ := mem_map.mp hs
      have := two_le_resumeLedger ing c n.tables id
      omega)
  obtain ⟨id, hid, hleast⟩ := mem_map.mp hmem
  refine ⟨_, ⟨⟨id, hid, (h id hid).trans hleast⟩, ?_⟩, ⟨id, hid, hleast⟩, ?_⟩
  · rintro _ ⟨id', hid', rfl⟩
    rw [h id' hid']
    exact hle _ (mem_map_of_mem hid')
  · rintro _ ⟨id', hid', rfl⟩
    exact hle _ (mem_map_of_mem hid')

/-- With `START_LEDGER` unset the cycle starts at the smallest resume ledger, whatever the
order of the contracts, exactly when the smallest position is that ledger.  A contract
without progress has the position of the network instead, and an ingestion state with a
cursor makes that `0`, which the loop takes for "none yet". -/
theorem starts_at_earliest_iff (n : Node b) (ids : List String)
    (hstart : ing.opts.startLedger = 0) (hraw : ing.opts.startLedgerRaw = "") :
    StartsAtEarliest ing c n ids ↔ PositionsAgree ing c n ids := by
  constructor
  · rintro ⟨m, hm, horder⟩
    refine ⟨m, ?_, hm⟩
    rw [← earliestOf_eq_iff ing c hm]
    intro order hperm
    have hbatch := (horder order hperm).1
    rw [eval_resolveBatchStart ing c hstart hraw] at hbatch
    exact Except.ok.inj hbatch
  · rintro ⟨m, hleast, hm⟩
    have hloop := (earliestOf_eq_iff ing c hm).mpr hleast
    refine ⟨m, hm, fun order hperm => ⟨?_, ?_⟩⟩
    · rw [eval_resolveBatchStart ing c hstart hraw, hloop order hperm]
    · intro hlisted
      have hvalue := hloop order hperm
      rw [← hlisted] at hvalue
      have hpos : m ≠ 0 := by
        obtain ⟨id, -, hid⟩ := hm.1
        have := two_le_resumeLedger ing c n.tables id
        omega
      rw [eval_earliestStartLedger ing c hstart hraw (by rw [hvalue]; exact hpos), hvalue]

end Eval

/-! ## Two watched contracts -/

def defaultIngester : Ingester := new .verbatim false .zero

def shortHistory : Unfailing where
  health := { latestLedger := 100, oldestLedger := 5 }
  latestLedger_lt := by decide
  oldestLedger_lt := by decide
  page _ := { events := [], latestLedger := 100, oldestLedger := 5, cursor := "" }
  archived := 0
  multiplier := 1
  now := 0

/-- Contract `CA` is new and `CB` has come to ledger 10; the network's state is `state`. -/
def newAndOld (state : List IngestionState) (h : (state.map IngestionState.network).Nodup) :
    Node .postgres where
  tables :=
    { Tables.empty .postgres with
      contractCursors := ⟨[⟨"CB", 10, ""⟩], by decide⟩
      ingestionState := ⟨state, h⟩ }
  mem := Memory.fresh defaultIngester

theorem starts_at_earliest_iff_newAndOld :
    StartsAtEarliest defaultIngester shortHistory (newAndOld [] (by decide)) ["CA", "CB"] :=
  (starts_at_earliest_iff _ _ _ _ rfl rfl).mpr
    (positionsAgree_of_eq _ _ (by decide) (by decide +kernel))

/-- After a run without watched contracts the network's state holds a cursor.  The new
contract should start at ledger 5, and the batch starts at 11 or at 0. -/
theorem start_depends_on_order :
    let n := newAndOld [⟨"default", 90, "0000000386547056640-0000000001", none⟩] (by decide)
    (Prog.eval (shortHistory.answer defaultIngester)
        (resolveBatchStart defaultIngester ["CA", "CB"]) n).1 = .ok 11 ∧
      (Prog.eval (shortHistory.answer defaultIngester)
        (resolveBatchStart defaultIngester ["CB", "CA"]) n).1 = .ok 0 ∧
      resumeLedger defaultIngester shortHistory n.tables "CA" = 5 ∧
      ¬ StartsAtEarliest defaultIngester shortHistory n ["CA", "CB"] := by
  intro n
  have hfirst : (Prog.eval (shortHistory.answer defaultIngester)
      (resolveBatchStart defaultIngester ["CA", "CB"]) n).1 = .ok 11 := rfl
  have hlast : (Prog.eval (shortHistory.answer defaultIngester)
      (resolveBatchStart defaultIngester ["CB", "CA"]) n).1 = .ok 0 := rfl
  refine ⟨hfirst, hlast, rfl, ?_⟩
  rintro ⟨m, -, horder⟩
  have hone := (horder ["CA", "CB"] (List.Perm.refl _)).1
  have hother := (horder ["CB", "CA"] (by decide)).1
  rw [hfirst] at hone
  rw [hlast, ← hone] at hother
  cases hother

end SoroTrail.Ingest
