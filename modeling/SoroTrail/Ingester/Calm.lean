import SoroTrail.Lib.Shares
import SoroTrail.Rpc.Chain
import SoroTrail.Ingester.PersistSpec
import SoroTrail.Ingester.StartLedger
import SoroTrail.Ingester.Tracking

/-!
# A sweep when nothing fails

The RPC serves a chain that stands still and the store commits every write; which
goroutine runs next, what the clock shows and how wide a window is stay open.  In
such surroundings a page is persisted within a number of requests that depends on
its length only, whatever the other goroutines of the sweep do meanwhile.
-/

set_option autoImplicit false

namespace SoroTrail.Ingest

open Lib Rpc Store List Sys.Owns

variable {b : Backend}

/-! ## Surroundings -/

def Unfailing.Allows (c : Unfailing) (ing : Ingester) (chain : Chain) :
    (o : Act) → Node b → Ans o → Node b → Prop
  | .getEvents _ req, n, a, n' => n' = n ∧ ∃ resp, a = .ok resp ∧ chain.serves req resp = true
  | .effectiveSweepMultiplier, n, (m : Nat), n' => n' = n ∧ m ≤ c.multiplier
  | .now, n, _, n' => n' = n
  | .schedule k, n, (i : Nat), n' => n' = n ∧ (0 < k → i < k)
  | o, n, a, n' => (a, n') = c.answer ing o n

/-- Surroundings that answer every request in one of the allowed ways. -/
structure Surroundings (b : Backend) (ing : Ingester) (c : Unfailing) (chain : Chain) where
  World : Type
  node : World → Node b
  answer : (o : Act) → World → Ans o × World
  allows : ∀ o w, c.Allows ing chain o (node w) (answer o w).1 (node (answer o w).2)

/-! ## What a sweep's goroutines do to each other -/

/-- The tables while a sweep runs: events are added, the watch list stays. -/
structure Sweeps (n n' : Node b) : Prop where
  events : ∀ r ∈ n.tables.events.rows, r ∈ n'.tables.events.rows
  watchedContracts : n'.tables.watchedContracts = n.tables.watchedContracts

theorem Sweeps.refl (n : Node b) : Sweeps n n := ⟨fun _ hr => hr, rfl⟩

theorem Sweeps.trans {n n' n'' : Node b} (h : Sweeps n n') (h' : Sweeps n' n'') : Sweeps n n'' :=
  ⟨fun r hr => h'.events r (h.events r hr), h'.watchedContracts.trans h.watchedContracts⟩

def Holds (ids : List String) (n : Node b) : Prop :=
  ∀ id ∈ ids, ∃ r ∈ n.tables.events.rows, r.id = id

variable {n n' : Node b}

theorem Holds.sweeps {ids : List String} (h : Holds ids n) (hs : Sweeps n n') :
    Holds ids n' := by
  intro id hid
  obtain ⟨r, hr, hrid⟩ := h id hid
  exact ⟨r, hs.events r hr, hrid⟩

theorem holds_nil (n : Node b) : Holds [] n := forall_mem_nil _

theorem Holds.append {ids ids' : List String} {n : Node b} (h : Holds ids n) (h' : Holds ids' n) :
    Holds (ids ++ ids') n :=
  forall_mem_append.mpr ⟨h, h'⟩

/-- The tracker has seen nothing past the tip, and what is left of the budget exceeds what the
goroutines may still spend. -/
structure Within (tip : Nat) (spend : Nat) (n : Node b) : Prop where
  tracker : n.mem.tracker.highestLedger ≤ tip
  capHit : n.mem.sweep.capHit = false
  remaining : ∀ r, n.mem.sweep.remaining = some r → (spend : Int) < r

theorem Within.congr {tip spend : Nat} (h : Within tip spend n)
    (hmem : n'.mem = n.mem) : Within tip spend n' := by
  constructor <;> rw [hmem]
  · exact h.tracker
  · exact h.capHit
  · exact h.remaining

section Sweep

variable (c : Unfailing) (ing : Ingester) (chain : Chain)

def sweepSys : Sys Act Ans (Node b) where
  step := c.Allows ing chain
  drift := Sweeps

theorem sweeps_of_drifts (h : (sweepSys c ing chain).Drifts n n') :
    Sweeps n n' := by
  induction h with
  | refl => exact Sweeps.refl n
  | tail _ hstep ih => exact ih.trans hstep

/-- `p` succeeds within `n` requests and leaves its share of the budget as it was. -/
def Ends {α : Type} (n spend : Nat) (Q : α → Node b → Prop) (p : M α) (w : Node b) : Prop :=
  (sweepSys c ing chain).Owns (Within chain.tip)
    (fun r spend' u => spend' = spend ∧ ∃ a, r = .ok a ∧ Q a u) n spend p w

/-- `p` ends within `n` requests, and its share of the budget as `Q` says. -/
abbrev Owning {α : Type} (Q : α → Nat → Node b → Prop) (n spend : Nat) (p : P α) (w : Node b) : Prop :=
  (sweepSys c ing chain).Owns (Within chain.tip) Q n spend p w

variable {c ing chain} {α β : Type} {n m spend : Nat} {w : Node b}

theorem owns_act {Q : α → Nat → Node b → Prop} {o : Act} {k : Ans o → P α}
    (heffect : ∀ (v : Node b) a u, c.Allows ing chain o v a u → Sweeps v u ∧ u.mem = v.mem)
    (hk : ∀ v a u, Sweeps w v → c.Allows ing chain o v a u →
      Owning c ing chain Q n spend (k a) u) :
    Owning c ing chain Q (n + 1) spend (.act o k) w := by
  have hstable : (sweepSys c ing chain).Stable (Sweeps w) := fun _ _ hd hv => hv.trans hd
  refine act hstable (Sweeps.refl w) ?_
  intro v others a u hv hI hu
  obtain ⟨hsweeps, hmem⟩ := heffect v a u hu
  exact ⟨hsweeps, spend, hI.congr hmem, hk v a u hv hu⟩

theorem owns_memory {Q : α → Nat → Node b → Prop} {f : Memory → Memory} {k : Memory → P α}
    (spend' : Nat)
    (hI : ∀ (v : Node b) others, Within chain.tip (spend + others) v →
      Within chain.tip (spend' + others) { v with mem := f v.mem })
    (hk : ∀ (v : Node b) others, Sweeps w v → Within chain.tip (spend + others) v →
      Owning c ing chain Q n spend' (k v.mem)
        { v with mem := f v.mem }) :
    Owning c ing chain Q (n + 1) spend (.act (.memory f) k) w := by
  have hstable : (sweepSys c ing chain).Stable (Sweeps w) := fun _ _ hd hv => hv.trans hd
  refine act hstable (Sweeps.refl w) ?_
  intro v others a u hv hwithin hu
  obtain ⟨rfl, rfl⟩ := Prod.mk.inj hu
  exact ⟨⟨fun _ hr => hr, rfl⟩, spend', hI v others hwithin, hk v others hv hwithin⟩

variable {Q : α → Node b → Prop} {p : M α}

theorem Ends.more (h : Ends c ing chain n spend Q p w)
    (hn : n ≤ m) : Ends c ing chain m spend Q p w :=
  Sys.Owns.more h hn

theorem Ends.post {Q' : α → Node b → Prop} (h : Ends c ing chain n spend Q p w)
    (hQ : ∀ a u, Q a u → Q' a u) : Ends c ing chain n spend Q' p w := by
  refine Sys.Owns.post h ?_
  rintro r g u ⟨hg, a, rfl, ha⟩
  exact ⟨hg, a, rfl, hQ a u ha⟩

theorem Ends.frame (h : Ends c ing chain n spend Q p w) :
    Ends c ing chain n spend (fun a u => Q a u ∧ Sweeps w u) p w := by
  refine Sys.Owns.post (Sys.Owns.frame h .refl) ?_
  rintro r g u ⟨⟨hg, a, rfl, ha⟩, hu⟩
  exact ⟨hg, a, rfl, ha, sweeps_of_drifts c ing chain hu⟩

theorem Ends.pure {a : α} (hQ : ∀ u v, Sweeps u v → Q a u → Q a v)
    (h : Q a w) : Ends c ing chain n spend Q (Pure.pure a) w := by
  intro u hu
  exact ⟨rfl, a, rfl, hQ w u (sweeps_of_drifts c ing chain hu) h⟩

theorem Ends.holds {ids : List String} {a : α} (h : Holds ids w) :
    Ends c ing chain n spend (fun _ u => Holds ids u) (Pure.pure a) w :=
  Ends.pure (fun _ _ hs hu => hu.sweeps hs) h

theorem Ends.andThen {Q' : β → Node b → Prop} {f : α → M β}
    (hp : Ends c ing chain n spend Q p w)
    (hf : ∀ a u, Q a u → Ends c ing chain m spend Q' (f a) u) :
    Ends c ing chain (n + m) spend Q' (p >>= f) w := by
  refine Sys.Owns.andThen (Sys.Owns.post hp ?_)
  rintro r g u ⟨rfl, a, rfl, ha⟩
  exact ⟨a, rfl, hf a u ha⟩

theorem Ends.attempt_bind {Q' : β → Node b → Prop}
    {f : Except Err α → M β} (hp : Ends c ing chain n spend Q p w)
    (hf : ∀ a u, Q a u → Ends c ing chain m spend Q' (f (.ok a)) u) :
    Ends c ing chain (n + m) spend Q' (Fallible.attempt p >>= f) w := by
  refine Sys.Owns.attempt_bind (Sys.Owns.post hp ?_)
  rintro r g u ⟨rfl, a, rfl, ha⟩
  exact hf a u ha

/-! ## Persisting a page -/

theorem upsertEvents_ends (events : List Store.Event) :
    Ends c ing chain 1 spend (fun _ u => Holds (events.map fun ev => ev.id) u)
      (upsertEvents events) w := by
  refine owns_act ?_ ?_
  · rintro v a u hu
    obtain ⟨-, rfl⟩ := Prod.mk.inj hu
    exact ⟨⟨fun r hr => Table.subset_insertAll hr, rfl⟩, rfl⟩
  · rintro v a u - hu
    obtain ⟨rfl, rfl⟩ := Prod.mk.inj hu
    refine Ends.holds ?_
    intro id hid
    obtain ⟨ev, hev, rfl⟩ := mem_map.mp hid
    obtain ⟨r, hr, hkey⟩ := Table.exists_insertAll (t := v.tables.events)
      (mem_map_of_mem hev : liveRow b ev ∈ events.map (liveRow b))
    exact ⟨r, hr, (eventKey_inj hkey).2.trans (liveRow_fields b ev).1⟩

theorem upsertChunkWithIsolation_ends (chunk : List Store.Event) :
    Ends c ing chain 1 spend (fun _ u => Holds (chunk.map fun ev => ev.id) u)
      (upsertChunkWithIsolation ing chunk) w := by
  refine Ends.attempt_bind (m := 0) (upsertEvents_ends chunk) ?_
  intro _ u hu
  exact Ends.holds hu

theorem recordAndBackoff_cur_pos (ing : Ingester) {bc : BatchController} (h : 0 < bc.cur)
    (rows : Nat) (latency : Int) : 0 < (bc.recordAndBackoff ing rows latency).2.cur := by
  simp only [BatchController.recordAndBackoff]
  split_ifs <;> simp only <;> omega

theorem clockNow_owns {Q : Except Err α → Nat → Node b → Prop} {f : Int → M α}
    (hf : ∀ now u, Sweeps w u → Owning c ing chain Q n spend (f now) u) :
    Owning c ing chain Q (n + 1) spend (clockNow >>= f : M α) w := by
  refine owns_act ?_ ?_
  · intro v _ u hu
    obtain rfl : u = v := hu
    exact ⟨Sweeps.refl u, rfl⟩
  · intro v now u hv hu
    obtain rfl : u = v := hu
    exact hf now u hv

theorem sleepCtx_owns {Q : Except Err α → Nat → Node b → Prop} {f : Bool → M α} (d : Int)
    (hf : ∀ u, Sweeps w u → Owning c ing chain Q n spend (f true) u) :
    Owning c ing chain Q (n + 1) spend (sleepCtx d >>= f : M α) w := by
  refine owns_act ?_ ?_
  · intro v a u hu
    obtain ⟨-, rfl⟩ := Prod.mk.inj hu
    exact ⟨Sweeps.refl u, rfl⟩
  · intro v a u hv hu
    obtain ⟨rfl, rfl⟩ := Prod.mk.inj hu
    exact hf u hv

abbrev idsOf (events : List Store.Event) : List String := events.map fun ev => ev.id

theorem writeChunks_ends (fuel : Nat) (bc : BatchController) (hcur : 0 < bc.cur)
    (events : List Store.Event) (hfuel : events.length < fuel) (inserted : Nat) (w : Node b) :
    Ends c ing chain (4 * events.length) spend (fun _ u => Holds (idsOf events) u)
      (writeChunks ing fuel bc events inserted) w := by
  induction fuel generalizing bc events inserted w with
  | zero => omega
  | succ fuel ih =>
    unfold writeChunks
    by_cases hnil : events = []
    · rw [hnil]
      exact Ends.holds (holds_nil _)
    rw [if_neg hnil]
    have hpos : 0 < events.length := length_pos_iff.mpr hnil
    have hdrop : (events.drop bc.cur).length = events.length - bc.cur := length_drop
    -- what is left once this chunk is written
    have hrest : ∀ (bc' : BatchController), 0 < bc'.cur → ∀ got (u : Node b),
        Holds (idsOf (events.take bc.cur)) u →
        Ends c ing chain (4 * (events.length - 1)) spend (fun _ u => Holds (idsOf events) u)
          (writeChunks ing fuel bc' (events.drop bc.cur) got) u := by
      intro bc' hcur' got u hu
      have hsplit : idsOf events = idsOf (events.take bc.cur) ++ idsOf (events.drop bc.cur) := by
        rw [← map_append, take_append_drop]
      rw [hsplit]
      refine ((ih bc' hcur' _ (by omega) got u).frame.post ?_).more (by omega)
      rintro _ u' ⟨hu', hs⟩
      exact (hu.sweeps hs).append hu'
    have hcost : 4 * events.length = 1 + (4 * (events.length - 1) + 1 + 1) + 1 := by omega
    rw [hcost]
    refine clockNow_owns fun started u _ => ?_
    refine Ends.attempt_bind (upsertChunkWithIsolation_ends (events.take bc.cur)) ?_
    intro got u hgot
    refine clockNow_owns fun ended u' hu' => ?_
    have hnext := recordAndBackoff_cur_pos ing hcur (events.take bc.cur).length
      (ended - started)
    dsimp only
    split
    · exact sleepCtx_owns _ fun u'' hu'' => hrest _ hnext _ _ (hgot.sweeps (hu'.trans hu''))
    · exact (hrest _ hnext _ _ (hgot.sweeps hu')).more (Nat.le_succ _)

section Live

variable (hdry : ing.opts.dryRun = false)
include hdry

theorem writeEventsPersist_ends (events : List Store.Event) :
    Ends c ing chain (4 * events.length) spend (fun _ u => Holds (idsOf events) u)
      (writeEventsPersist ing events) w := by
  unfold writeEventsPersist
  by_cases hnil : events = []
  · rw [hnil]
    exact Ends.holds (holds_nil _)
  have hpos : 0 < events.length := length_pos_iff.mpr hnil
  rw [if_neg (by simp [hnil, hdry])]
  split
  · exact (upsertChunkWithIsolation_ends events).more (by omega)
  · rename_i hbatch
    exact writeChunks_ends _ _ (Nat.pos_of_ne_zero hbatch) events (Nat.lt_succ_self _) 0 w

omit hdry in
theorem upsertAddressRefs_ends (refs : List AddressRef) :
    Ends c ing chain 1 spend (fun _ _ => True) (upsertAddressRefs refs) w := by
  refine owns_act ?_ ?_
  · rintro v a u hu
    obtain ⟨-, rfl⟩ := Prod.mk.inj (hu : (a, u) = c.answer ing (.upsertAddressRefs refs) v)
    exact ⟨⟨fun _ hr => hr, rfl⟩, rfl⟩
  · rintro v a u - hu
    obtain ⟨rfl, rfl⟩ := Prod.mk.inj (hu : (a, u) = c.answer ing (.upsertAddressRefs refs) v)
    exact Ends.pure (fun _ _ _ _ => trivial) trivial

omit hdry in
theorem indexBestEffort_ends (events : List Store.Event) :
    Ends c ing chain 1 spend (fun _ u => Sweeps w u) (indexBestEffort ing events) w := by
  have hindex : Ends c ing chain 1 spend (fun _ _ => True) (indexEventAddresses ing events) w := by
    unfold indexEventAddresses
    split
    · exact Ends.pure (fun _ _ _ _ => trivial) trivial
    · dsimp only
      split
      · exact Ends.pure (fun _ _ _ _ => trivial) trivial
      · exact upsertAddressRefs_ends _
  refine Ends.attempt_bind (m := 0) hindex.frame ?_
  intro _ u hu
  exact Ends.pure (fun _ _ hs h => h.trans hs) hu.2

theorem persistEventBatch_ends (events : List Store.Event) :
    Ends c ing chain (4 * events.length + 1) spend (fun _ u => Holds (idsOf events) u)
      (persistEventBatch ing events) w := by
  unfold persistEventBatch
  rw [if_neg (by simp [hdry])]
  refine Ends.andThen (writeEventsPersist_ends hdry events) ?_
  intro _ u hu
  exact (indexBestEffort_ends events).post fun _ _ hs => hu.sweeps hs

theorem persistBatches_ends (batches : List (List Store.Event)) (hne : ∀ batch ∈ batches, batch ≠ [])
    (w : Node b) :
    Ends c ing chain (5 * batches.flatten.length) spend
      (fun _ u => Holds (idsOf batches.flatten) u) (persistBatches ing batches) w := by
  induction batches generalizing w with
  | nil => exact Ends.holds (holds_nil _)
  | cons batch rest ih =>
    have hpos : 0 < batch.length :=
      length_pos_iff.mpr (hne batch (.head _))
    have hlen : (batch :: rest).flatten.length = batch.length + rest.flatten.length := by simp
    refine (Ends.andThen (persistEventBatch_ends hdry batch) ?_).more
      (show 4 * batch.length + 1 + 5 * rest.flatten.length ≤ _ by omega)
    intro _ u hu
    refine (ih (fun batch' h => hne batch' (.tail _ h)) u).frame.post ?_
    rintro _ u' ⟨hrest, hs⟩
    rw [flatten_cons, idsOf, map_append]
    exact (hu.sweeps hs).append hrest

/-- The event can be taken in: its contract is skipped, it decodes, or there is a sink for it. -/
def Digests (ing : Ingester) (re : Rpc.Event) : Prop :=
  isSkipped ing re.contractID = true ∨ (∃ ev, toStoreEvent ing re = .ok ev) ∨
    ing.deadLetterStore = true

omit hdry in
theorem deadLetterEvent_ends (d : DeadLetter) :
    Ends c ing chain 1 spend (fun _ _ => True) (deadLetterEvent d) w := by
  refine owns_act ?_ ?_
  · rintro v a u hu
    obtain ⟨-, rfl⟩ := Prod.mk.inj (hu : (a, u) = c.answer ing (.deadLetterEvent d) v)
    exact ⟨⟨fun _ hr => hr, rfl⟩, rfl⟩
  · rintro v a u - hu
    obtain ⟨rfl, rfl⟩ := Prod.mk.inj (hu : (a, u) = c.answer ing (.deadLetterEvent d) v)
    exact Ends.pure (fun _ _ _ _ => trivial) trivial

theorem decodePage_ends (events : List Rpc.Event) (hdigest : ∀ re ∈ events, Digests ing re)
    (w : Node b) :
    Ends c ing chain events.length spend (fun rows _ => rows = events.filterMap (decodedRow ing))
      (decodePage ing events) w := by
  induction events generalizing w with
  | nil => exact Ends.pure (fun _ _ _ h => h) rfl
  | cons re rest ih =>
    have hrest := ih fun re' h => hdigest re' (.tail _ h)
    have hnone : decodedRow ing re = none → ∀ u : Node b,
        Ends c ing chain rest.length spend
          (fun rows _ => rows = (re :: rest).filterMap (decodedRow ing)) (decodePage ing rest) u := by
      intro h u
      rw [filterMap_cons_none h]
      exact hrest u
    unfold decodePage
    split
    · rename_i hskip
      exact (hnone (if_pos hskip) w).more (Nat.le_succ _)
    · rename_i hskip
      cases hrow : toStoreEvent ing re with
      | ok ev =>
        have hsome : decodedRow ing re = some ev := by
          simp [decodedRow, hskip, hrow, Except.toOption]
        refine (Ends.andThen (m := 0) (hrest w) ?_).more (Nat.le_succ _)
        rintro rows u rfl
        rw [filterMap_cons_some hsome]
        exact Ends.pure (fun _ _ _ h => h) rfl
      | error err =>
        have hsink : ing.deadLetterStore = true := by
          rcases hdigest re (.head _) with h | ⟨ev, hev⟩ | h
          · exact absurd h hskip
          · rw [hrow] at hev
            cases hev
          · exact h
        dsimp only
        rw [if_neg (by simp [hdry]), if_pos hsink, length_cons, Nat.add_comm]
        refine Ends.attempt_bind (deadLetterEvent_ends _) ?_
        intro _ u _
        exact hnone (by simp [decodedRow, hrow, Except.toOption]) u

theorem persistRows_ends (events : List Rpc.Event) (hdigest : ∀ re ∈ events, Digests ing re) :
    Ends c ing chain (6 * events.length) spend
      (fun rows u => rows = removeDuplicateEvents (events.filterMap (decodedRow ing)) ∧
        Holds (idsOf (events.filterMap (decodedRow ing))) u) (persistRows ing events) w := by
  have hlen : (removeDuplicateEvents (events.filterMap (decodedRow ing))).length ≤ events.length :=
    (dedupByID_sublist [] _).length_le.trans (length_filterMap_le _ _)
  have hflatten := chunks_flatten ing.writeBatchSize_pos
    (removeDuplicateEvents (events.filterMap (decodedRow ing)))
  refine (Ends.andThen (decodePage_ends hdry events hdigest w) ?_).more
    (show events.length + 5 * events.length ≤ _ by omega)
  rintro rows u rfl
  refine (Ends.andThen (m := 0) (persistBatches_ends hdry _
    (fun batch h => (chunks_piece ing.writeBatchSize_pos h).1) u) ?_).more (by rw [hflatten]; omega)
  intro _ u' hu'
  refine Ends.pure (fun _ _ hs h => ⟨h.1, h.2.sweeps hs⟩) ⟨rfl, ?_⟩
  rw [hflatten] at hu'
  intro id hid
  -- a row that was dropped has the id of one that was kept
  obtain ⟨ev, hev, rfl⟩ := mem_map.mp hid
  obtain ⟨kept, hkept, hsame⟩ := exists_dedupByID hev not_mem_nil
  exact hsame ▸ hu' kept.id (mem_map_of_mem hkept)

omit hdry in
theorem recordLedgerHash_highest_le (t : ReorgTracker) (l : Nat) (hash : String) :
    (t.recordLedgerHash l hash).2.highestLedger ≤ max t.highestLedger l := by
  unfold ReorgTracker.recordLedgerHash
  split
  · exact Nat.le_max_left _ _
  · exact le_of_eq ReorgTracker.prune_highestLedger

omit hdry in
theorem trackLedgers_owns {Q : Nat × Nat → Nat → Node b → Prop} (events : List Store.Event)
    (ls : List Nat) (hls : ∀ l ∈ ls, l ≤ chain.tip) (range : Nat × Nat) (w : Node b)
    (hQ : ∀ range u, Sweeps w u → Q range spend u) :
    Owning c ing chain Q ls.length spend
      (trackLedgers ing events ls range) w := by
  induction ls generalizing range w with
  | nil => exact fun u hu => hQ range u (sweeps_of_drifts c ing chain hu)
  | cons l ls ih =>
    refine owns_memory spend ?_ ?_
    · intro v others hv
      have hle := recordLedgerHash_highest_le v.mem.tracker l (computeLedgerFingerprint ing l
        (events.filter fun ev => decide (0 < ev.ledger ∧ u32OfInt ev.ledger = l)))
      have hl := hls l mem_cons_self
      have ht := hv.tracker
      exact ⟨by dsimp only; omega, hv.capHit, hv.remaining⟩
    · intro v others hv _
      refine ih (fun l' h => hls l' (.tail _ h)) _ _ ?_
      intro range' u hu
      exact hQ range' u (hv.trans ⟨hu.events, hu.watchedContracts⟩)

omit hdry in
theorem length_seenLedgers_le (events : List Store.Event) :
    (seenLedgers events).length ≤ events.length := by
  unfold seenLedgers
  rw [length_insertionSort]
  refine (dedup_sublist _).length_le.trans ?_
  rw [length_map]
  exact length_filter_le _ _

theorem persistEvents_ends (fuel : Nat) (events : List Rpc.Event) (latest : Nat)
    (hchain : ∀ re ∈ events, re ∈ chain.events) (hdigest : ∀ re ∈ events, Digests ing re) :
    Ends c ing chain (7 * events.length) spend
      (fun _ u => Holds (idsOf (events.filterMap (decodedRow ing))) u)
      (persistEvents ing fuel events latest) w := by
  unfold persistEvents persistEventsWithReorgCheck
  split
  · rename_i hnil
    rw [hnil]
    exact Ends.holds (holds_nil _)
  refine (Ends.andThen (persistRows_ends hdry events hdigest) ?_).more
    (show 6 * events.length + events.length ≤ _ by omega)
  rintro rows u ⟨rfl, hheld⟩
  rw [if_neg (by simp [hdry])]
  have hkept : ∀ ev ∈ removeDuplicateEvents (events.filterMap (decodedRow ing)),
      ev.ledger ≤ chain.tip := by
    intro ev hev
    obtain ⟨re, hre, hrow⟩ := mem_filterMap.mp (mem_dedupByID hev).1
    obtain ⟨-, -, hledger, -⟩ := toStoreEvent_ok ing (decodedRow_some hrow).2
    have := chain.ledger_le re (hchain re hre)
    omega
  have hlen : (removeDuplicateEvents (events.filterMap (decodedRow ing))).length ≤ events.length :=
    (dedupByID_sublist [] _).length_le.trans (length_filterMap_le _ _)
  unfold recordIngestedLedgerFingerprints
  split
  · exact Ends.holds hheld
  · refine (lift_bind (m := 0) (trackLedgers_owns _ _ ?_ _ _ ?_)).more
      ((length_seenLedgers_le _).trans hlen)
    · intro l hl
      obtain ⟨ev, hev, hpos, rfl⟩ := mem_seenLedgers.mp hl
      have hle := hkept ev hev
      simp only [u32OfInt]
      omega
    · rintro ⟨divergedFrom, divergedTo⟩ u' hu'
      exact Ends.holds (hheld.sweeps hu')

end Live

end Sweep

end SoroTrail.Ingest
