import Mathlib.Algebra.Group.Action.Defs
import Mathlib.Algebra.Order.BigOperators.Group.List
import SoroTrail.Ingester.SweepPages

/-!
# Capped sweeps of a chain that stands still

A cycle that meets its event cap saves no position, so the next one starts the
same window again with the same budget.  A window whose goroutines need less than
the cap is finished in one cycle, and cycles over such windows reach the tip.
-/

set_option autoImplicit false

namespace SoroTrail.Ingest

open Lib Rpc Store Prog List Table

variable {b : Backend} {c : Unfailing} {ing : Ingester} {chain : Chain}

/-! ## Running in the surroundings -/

def Act.plain : Act → Prop
  | .getEvents _ _ => False
  | .effectiveSweepMultiplier => False
  | .now => False
  | .schedule _ => False
  | _ => True

variable {n n' : Node b}

namespace Surroundings

variable (env : Surroundings b ing c chain)

/-- Running `p` ends with `r` and leaves the node as `n`. -/
def Gives {α : Type} (p : P α) (w : env.World) (r : α) (n : Node b) : Prop :=
  ∃ w', Prog.eval env.answer p w = (r, w') ∧ env.node w' = n

variable {env} {α β : Type} {w : env.World}

theorem Gives.of_plain {p : P α} (hp : p.Uses Act.plain fun _ _ => True) {r : α} {n : Node b}
    (h : Prog.eval (c.answer ing) p (env.node w) = (r, n)) : env.Gives p w r n := by
  have hagree : ∀ o w, o.plain → (env.answer o w).1 = (c.answer ing o (env.node w)).1 ∧
      env.node (env.answer o w).2 = (c.answer ing o (env.node w)).2 := by
    intro o w ho
    have hallowed := env.allows o w
    cases o <;> first | exact ho.elim | exact Prod.mk.inj hallowed
  obtain ⟨hresult, hnode⟩ := eval_agree hagree hp w
  rw [h] at hresult hnode
  exact ⟨_, Prod.ext hresult rfl, hnode⟩

variable {r : Except Err β}

theorem Gives.andThen {p : M α} {f : α → M β} {a : α}
    (hp : env.Gives p w (.ok a) n) (hf : ∀ w', env.node w' = n → env.Gives (f a) w' r n') :
    env.Gives (p >>= f : M β) w r n' := by
  obtain ⟨w', heval, hnode⟩ := hp
  obtain ⟨w'', hrest, hnode'⟩ := hf w' hnode
  exact ⟨w'', (eval_andThen heval f).trans hrest, hnode'⟩

theorem Gives.lift_bind {p : P α} {f : α → M β} {a : α} (hp : env.Gives p w a n)
    (hf : ∀ w', env.node w' = n → env.Gives (f a) w' r n') :
    env.Gives ((liftM p : M α) >>= f : M β) w r n' := by
  obtain ⟨w', heval, hnode⟩ := hp
  obtain ⟨w'', hrest, hnode'⟩ := hf w' hnode
  refine ⟨w'', ?_, hnode'⟩
  rw [eval_lift_bind, heval]
  exact hrest

theorem Gives.attempt_bind {p : M α} {f : Except Err α → M β} {a : Except Err α}
    (hp : env.Gives p w a n) (hf : ∀ w', env.node w' = n → env.Gives (f a) w' r n') :
    env.Gives (Fallible.attempt p >>= f : M β) w r n' := by
  obtain ⟨w', heval, hnode⟩ := hp
  obtain ⟨w'', hrest, hnode'⟩ := hf w' hnode
  refine ⟨w'', ?_, hnode'⟩
  rw [eval_attempt_bind, heval]
  exact hrest

theorem Gives.pure {a : α} : env.Gives (Pure.pure a : M α) w (.ok a) (env.node w) := ⟨w, rfl, rfl⟩

theorem gives_updateMemory (f : Memory → Memory) :
    env.Gives (updateMemory f) w () { env.node w with mem := f (env.node w).mem } :=
  Gives.of_plain (p := updateMemory f) ⟨trivial, fun _ _ => trivial⟩ rfl

theorem gives_readMemory : env.Gives readMemory w (env.node w).mem (env.node w) :=
  Gives.of_plain (p := readMemory) ⟨trivial, fun _ _ => trivial⟩ rfl

theorem gives_getIngestionState : env.Gives getIngestionState w
    (found ((env.node w).tables.getIngestionState ing.opts.network)) (env.node w) :=
  Gives.of_plain (p := getIngestionState) ⟨trivial, fun _ _ => trivial⟩ rfl

theorem gives_listWatchedContracts (site : ListSite) : env.Gives (listWatchedContracts site) w
    (.ok (listed (env.node w).tables)) (env.node w) :=
  Gives.of_plain (p := listWatchedContracts site) ⟨trivial, fun _ _ => trivial⟩ rfl

theorem gives_getHealth (context : String) :
    env.Gives (wrapErr context getHealth) w (.ok c.health) (env.node w) :=
  Gives.of_plain (uses_wrapErr (p := getHealth) ⟨trivial, fun _ _ => trivial⟩) rfl

theorem gives_clockNow : ∃ now, env.Gives clockNow w now (env.node w) :=
  ⟨_, _, rfl, env.allows .now w⟩

theorem gives_saveIngestionState (st : IngestionState) : env.Gives (saveIngestionState st) w
    (.ok ()) ((env.node w).committed (.saveIngestionState st)) :=
  Gives.of_plain (p := saveIngestionState st) ⟨trivial, fun _ _ => trivial⟩ rfl

end Surroundings

open Surroundings

/-! ## One sweep -/

def load (ing : Ingester) (chain : Chain) (batches : List (List Rpc.EventFilter))
    (start stop : Nat) : Nat :=
  (batches.map fun batch => need ing stop (fromLedgerOn chain batch start)).sum

def FitsCap (ing : Ingester) (chain : Chain) (batches : List (List Rpc.EventFilter))
    (start stop : Nat) : Prop :=
  ing.opts.maxEventsPerCycle = 0 ∨ load ing chain batches start stop < ing.opts.maxEventsPerCycle

instance (batches : List (List Rpc.EventFilter)) (start stop : Nat) :
    Decidable (FitsCap ing chain batches start stop) :=
  inferInstanceAs (Decidable (_ ∨ _))

theorem need_mono {stop stop' : Nat} (h : stop ≤ stop') (events : List Rpc.Event) :
    need ing stop events ≤ need ing stop' events := by
  have hsub : (upTo stop events).length ≤ (upTo stop' events).length := by
    refine (monotone_filter_right events ?_).length_le
    intro e he
    simp only [decide_eq_true_eq] at he ⊢
    omega
  simp only [need]
  omega

theorem FitsCap.mono {batches : List (List Rpc.EventFilter)} {start stop stop' : Nat}
    (h : FitsCap ing chain batches start stop') (hle : stop ≤ stop') :
    FitsCap ing chain batches start stop := by
  refine h.imp_right fun hlt => lt_of_le_of_lt ?_ hlt
  exact sum_le_sum fun batch _ => need_mono hle _

def turnsFor (chain : Chain) (batches : List (List Rpc.EventFilter)) : Nat :=
  (batches.map fun _ => 11 * chain.events.length + 5).sum + chain.events.length + 1

structure SweptTo (batches : List (List Rpc.EventFilter)) (start stop : Nat) (ing : Ingester)
    (chain : Chain) (n n' : Node b) : Prop where
  sweeps : Sweeps n n'
  capHit : n'.mem.sweep.capHit = false
  tracker : n'.mem.tracker.highestLedger ≤ chain.tip
  held : ∀ batch ∈ batches, WindowHeld ing stop (fromLedgerOn chain batch start) n'

theorem firstError_ok {ends : List (Except Err Unit)} (h : ∀ r ∈ ends, r = .ok ()) :
    firstError ends = none := by
  induction ends with
  | nil => rfl
  | cons r rest ih =>
    rw [h r (.head _)]
    exact ih fun r' hr' => h r' (.tail _ hr')

section Sweep

variable {env : Surroundings b ing c chain} (hdry : ing.opts.dryRun = false)
include hdry

omit hdry in
theorem goroutine_owns {n spend stop : Nat} {pending : List Rpc.Event} {f : M Unit} {w : Node b}
    (h : (sweepSys c ing chain).Owns (Within chain.tip) (Swept ing stop pending) n spend f w) :
    (sweepSys c ing chain).Owns (Within chain.tip) (Swept ing stop pending) n spend (goroutine f)
      w := by
  refine Sys.Owns.bind (m := 0) (h.settled.post ?_)
  intro r g v hv
  obtain ⟨rfl, -⟩ := hv v .refl
  exact hv

variable {batches : List (List Rpc.EventFilter)}

/-- The goroutines of a sweep, in any schedule. -/
theorem goroutines_end {fuel start stop : Nat} (hfuel : turnsFor chain batches ≤ fuel)
    (hstop : stop ≤ chain.tip)
    (hdigest : ∀ batch ∈ batches, ∀ e ∈ fromLedgerOn chain batch start, Digests ing e)
    (w : env.World) (hwithin : Within chain.tip (load ing chain batches start stop) (env.node w)) :
    ∃ ends w', (Prog.interleave ing.opts.sweepConcurrency schedule fuel (batches.map fun filters =>
        goroutine (sweepBatch ing fuel start stop filters fuel "")) []).eval env.answer w =
          (some ends, w') ∧ firstError ends = none ∧
      SweptTo batches start stop ing chain (env.node w) (env.node w') := by
  let threads : List (Sys.Thread (List Rpc.EventFilter) Nat Act Ans (Except Err Unit)) :=
    batches.map fun batch => ⟨batch, 11 * (fromLedgerOn chain batch start).length + 4,
      need ing stop (fromLedgerOn chain batch start),
      goroutine (sweepBatch ing fuel start stop batch fuel "")⟩
  have hlen : ∀ batch, (fromLedgerOn chain batch start).length ≤ chain.events.length :=
    fun batch => length_filter_le _ _
  have howns : ∀ t ∈ threads, (sweepSys c ing chain).Owns (Within chain.tip)
      (Swept ing stop (fromLedgerOn chain t.name start)) t.bound t.share t.prog (env.node w) := by
    intro t ht
    obtain ⟨batch, hbatch, rfl⟩ := mem_map.mp ht
    have hshort : (fromLedgerOn chain batch start).length < fuel := by
      have := hlen batch
      unfold turnsFor at hfuel
      omega
    exact goroutine_owns
      (sweepBatch_owns hdry hstop (hdigest batch hbatch) fuel fuel (.inl rfl) hshort _)
  have hshares : Within chain.tip ((threads.map Sys.Thread.share).sum + 0) (env.node w) := by
    have hsum : (threads.map Sys.Thread.share).sum = load ing chain batches start stop := by
      simp only [threads, load, map_map]
      rfl
    rw [hsum]
    exact hwithin
  have hbounds : (threads.map fun t => t.bound + 1).sum ≤ fuel := by
    have hsum : (threads.map fun t => t.bound + 1).sum ≤
        (batches.map fun _ => 11 * chain.events.length + 5).sum := by
      simp only [threads, map_map]
      refine sum_le_sum ?_
      intro batch _
      have := hlen batch
      simp only [Function.comp_apply]
      omega
    unfold turnsFor at hfuel
    omega
  have hchoose : ∀ k w, 0 < k → ∃ i w', (schedule k).eval env.answer w = (i, w') ∧ i < k ∧
      env.node w' = env.node w := by
    intro k w hk
    obtain ⟨hsame, hlt⟩ := env.allows (.schedule k) w
    exact ⟨_, _, rfl, hlt hk, hsame⟩
  have hanswer : ∀ o w, (sweepSys c ing chain).step o (env.node w) (env.answer o w).1
      (env.node (env.answer o w).2) := env.allows
  obtain ⟨ends, w', heval, hnames, hends, ⟨_, hwithin'⟩, hdrifts⟩ :=
    Sys.Owns.interleave hanswer (fun batch => Swept ing stop (fromLedgerOn chain batch start))
      ing.sweepConcurrency_pos hchoose fuel threads [] 0 w howns
      (fun d hd => absurd hd not_mem_nil) hshares hbounds
  refine ⟨ends.map Prod.snd, w', ?_, firstError_ok ?_, sweeps_of_drifts c ing chain hdrifts,
    hwithin'.capHit, hwithin'.tracker, ?_⟩
  · rw [← heval]
    simp only [threads, map_map]
    rfl
  · intro r hr
    obtain ⟨d, hd, rfl⟩ := mem_map.mp hr
    obtain ⟨_, hok, -⟩ := hends d hd
    exact hok
  · intro batch hbatch
    have hname : batch ∈ ends.map Prod.fst := by
      rw [hnames.mem_iff]
      simpa [threads] using hbatch
    obtain ⟨d, hd, rfl⟩ := mem_map.mp hname
    obtain ⟨_, -, hheld⟩ := hends d hd
    exact hheld

theorem gives_sweepAll {fuel start stop : Nat} (hfuel : turnsFor chain batches ≤ fuel)
    (hstop : stop ≤ chain.tip)
    (hdigest : ∀ batch ∈ batches, ∀ e ∈ fromLedgerOn chain batch start, Digests ing e)
    (hfits : FitsCap ing chain batches start stop) (w : env.World)
    (htracker : (env.node w).mem.tracker.highestLedger ≤ chain.tip) :
    ∃ n', env.Gives (sweepAll ing fuel start stop batches) w (.ok none) n' ∧
      SweptTo batches start stop ing chain (env.node w) n' := by
  have hupdate : env.Gives (updateMemory fun m => { m with sweep :=
      { start := start, stop := stop, remaining := newCycleBudget ing, capHit := false,
        ledgerOutOfRange := false, canceled := false } }) w () _ := gives_updateMemory _
  obtain ⟨w₁, hset, hnode⟩ := hupdate
  have hwithin : Within chain.tip (load ing chain batches start stop) (env.node w₁) := by
    rw [hnode]
    refine ⟨htracker, rfl, ?_⟩
    intro r hr
    simp only [newCycleBudget] at hr
    split at hr
    · cases hr
    · rename_i hcap
      cases hr
      rcases hfits with hzero | hlt
      · exact absurd (.inl hzero) hcap
      · omega
  obtain ⟨ends, w₂, heval, hok, hswept⟩ := goroutines_end hdry hfuel hstop hdigest w₁ hwithin
  refine ⟨env.node w₂, ⟨w₂, ?_, rfl⟩, ?_⟩
  · rw [sweepAll, eval_lift_bind, hset, eval_lift_bind, heval]
    simp only [hok]
    rfl
  · have hsweeps := hswept.sweeps
    rw [hnode] at hsweeps
    exact ⟨⟨hsweeps.events, hsweeps.watchedContracts⟩, hswept.capHit, hswept.tracker, hswept.held⟩

/-! ## One cycle -/

/-- What a cycle relies on and keeps: nothing has been seen past the tip. -/
structure BelowTip (ing : Ingester) (chain : Chain) (n : Node b) : Prop where
  tracker : n.mem.tracker.highestLedger ≤ chain.tip
  state : ∀ st, n.tables.getIngestionState ing.opts.network = some st →
    st.lastIngestedLedger ≤ chain.tip

omit hdry in
theorem gives_maybeHandleTipRegression (fuel : Nat) (w : env.World)
    (hbelow : BelowTip ing chain (env.node w)) :
    env.Gives (maybeHandleTipRegression ing fuel chain.tip) w (.ok false) (env.node w) := by
  unfold maybeHandleTipRegression
  split
  · exact Gives.pure
  have hseen : (env.node w).mem.tracker.checkTipRegression chain.tip = none := by
    have := hbelow.tracker
    unfold ReorgTracker.checkTipRegression
    split
    · rfl
    · rw [if_neg (by omega)]
  refine Gives.lift_bind gives_readMemory ?_
  intro w₁ hw₁
  refine Gives.attempt_bind gives_getIngestionState ?_
  intro w₂ hw₂
  have hsame : env.node w₂ = env.node w := hw₂.trans hw₁
  rw [hseen, hw₁]
  cases hst : (env.node w).tables.getIngestionState ing.opts.network with
  | none =>
    rw [← hsame]
    exact Gives.pure
  | some st =>
    have := hbelow.state st hst
    dsimp only [found]
    rw [if_neg (by omega), ← hsame]
    exact Gives.pure

omit hdry in
theorem eval_saveAll (c : Unfailing) (ing : Ingester) (lastIngested : Int) (ws : List WatchedContract) (n : Node b) :
    ∃ n', Prog.eval (c.answer ing) (saveAll lastIngested ws) n = (.ok (), n') ∧ n'.mem = n.mem ∧
      n'.tables.events = n.tables.events ∧ n'.tables.ingestionState = n.tables.ingestionState ∧
      n'.tables.watchedContracts = n.tables.watchedContracts ∧
      ∀ id, n'.tables.getContractCursor id =
        if id ∈ ws.map (fun wc => wc.contractID) then some ⟨id, lastIngested, ""⟩
        else n.tables.getContractCursor id := by
  induction ws generalizing n with
  | nil => exact ⟨n, rfl, rfl, rfl, rfl, rfl, fun id => rfl⟩
  | cons wc rest ih =>
    obtain ⟨n', heval, hmem, hevents, hstate, hwatched, hcursors⟩ :=
      ih (n.committed (.saveContractCursor ⟨wc.contractID, lastIngested, ""⟩))
    refine ⟨n', ?_, hmem, hevents, hstate, hwatched, ?_⟩
    · rw [← heval]
      rfl
    · intro id
      rw [hcursors id]
      by_cases hin : id ∈ rest.map fun wc => wc.contractID
      · rw [if_pos hin, map_cons, if_pos (.tail _ hin)]
      rw [if_neg hin, map_cons]
      by_cases hid : id = wc.contractID
      · subst hid
        rw [if_pos (.head _)]
        exact get_put_self _ _
      · rw [if_neg (by simpa [hid] using hin)]
        exact get_put_ne hid

omit hdry in
theorem plain_of_seeks {α : Type} {p : P α} (h : Seeks p) : p.Uses Act.plain fun _ _ => True := by
  refine Yields.weaken h ?_ fun _ _ ha => ha
  intro o ho
  cases o <;> first | exact ho.elim | trivial

omit hdry in
theorem plain_saveAll (lastIngested : Int) (ws : List WatchedContract) :
    Uses Act.plain (fun _ _ => True) (saveAll lastIngested ws) := by
  induction ws with
  | nil => trivial
  | cons wc rest ih =>
    exact Uses.andThen (uses_wrapErr ⟨trivial, fun _ _ => trivial⟩) fun _ => ih

def widest (ing : Ingester) (c : Unfailing) : Nat := ing.opts.sweepWindow * max c.multiplier 1

/-- A cycle that has swept the window `[start, stop]` and moved every contract past it. -/
structure SweptWindow (ing : Ingester) (chain : Chain) (batches : List (List Rpc.EventFilter))
    (start stop : Nat) (n n' : Node b) : Prop where
  start_le : start ≤ stop
  stop_le : stop ≤ chain.tip
  held : ∀ batch ∈ batches, WindowHeld ing stop (fromLedgerOn chain batch start) n'
  kept : ∀ r ∈ n.tables.events.rows, r ∈ n'.tables.events.rows
  watched : n'.tables.watchedContracts = n.tables.watchedContracts
  below : BelowTip ing chain n'
  cursors : ∀ wc ∈ listed n.tables, n'.tables.getContractCursor wc.contractID =
    some ⟨wc.contractID, lastIngestedOf stop chain.tip, ""⟩

theorem gives_saveSweepState (stop : Nat) (w : env.World) :
    ∃ r n', env.Gives (saveSweepState ing chain.tip stop) w (.ok r) n' ∧
      n'.mem = (env.node w).mem ∧ n'.tables.events = (env.node w).tables.events ∧
      n'.tables.contractCursors = (env.node w).tables.contractCursors ∧
      n'.tables.watchedContracts = (env.node w).tables.watchedContracts ∧
      ∀ st, n'.tables.getIngestionState ing.opts.network = some st →
        st.lastIngestedLedger = lastIngestedOf stop chain.tip := by
  have hclock : ∃ now, env.Gives clockNow w now (env.node w) := gives_clockNow
  obtain ⟨now, hnow⟩ := hclock
  refine ⟨decide (chain.tip ≤ stop), (env.node w).committed (.saveIngestionState
    { network := ing.opts.network, lastIngestedLedger := lastIngestedOf stop chain.tip,
      lastCursor := "", lastSuccessfulPoll := some now }), ?_, rfl, rfl, rfl, rfl, ?_⟩
  · refine Gives.lift_bind hnow ?_
    intro w₁ hw₁
    rw [if_neg (by simp [hdry])]
    refine Gives.andThen (gives_saveIngestionState _) ?_
    intro w₂ hw₂
    rw [hw₁] at hw₂
    rw [← hw₂]
    exact Gives.pure
  · intro st hst
    have hsaved := get_put_self (env.node w).tables.ingestionState
      { network := defaultNetwork ing.opts.network,
        lastIngestedLedger := lastIngestedOf stop chain.tip, lastCursor := "",
        lastSuccessfulPoll := some now }
    rw [← Option.some.inj (hsaved.symm.trans hst)]

omit hdry in
theorem gives_effectiveSweepWindow (w : env.World) (hwidth : widest ing c < 2 ^ 32) :
    ∃ window, env.Gives (effectiveSweepWindow ing) w window (env.node w) ∧ 0 < window ∧
      window ≤ widest ing c := by
  obtain ⟨hsame, hle⟩ := env.allows .effectiveSweepMultiplier w
  obtain ⟨m, hm⟩ : ∃ m : Nat, (env.answer .effectiveSweepMultiplier w).1 = m := ⟨_, rfl⟩
  have hbound : ing.opts.sweepWindow * max m 1 ≤ widest ing c := by
    rw [hm] at hle
    exact Nat.mul_le_mul_left _ (max_le_max_right 1 hle)
  refine ⟨ing.opts.sweepWindow * max m 1, ⟨_, ?_, hsame⟩, ?_, hbound⟩
  · rw [← u32_of_lt (hbound.trans_lt hwidth), ← hm]
    rfl
  · exact Nat.mul_pos ing.sweepWindow_pos (lt_max_of_lt_right Nat.one_pos)

theorem gives_windowSweepWatched {fuel start : Nat} {w : env.World} {n₁ : Node b}
    (htip : c.health.latestLedger = chain.tip) (hbelow : BelowTip ing chain (env.node w))
    (hposition : Prog.eval (c.answer ing) (earliestStartLedger ing) (env.node w) = (.ok start, n₁))
    (htables : n₁.tables = (env.node w).tables)
    (htracker : n₁.mem.tracker = (env.node w).mem.tracker) (hpos : 0 < start)
    (hle : start ≤ chain.tip) (hwidth : chain.tip + widest ing c ≤ 2 ^ 32)
    (hfuel : turnsFor chain batches ≤ fuel)
    (hdigest : ∀ batch ∈ batches, ∀ e ∈ fromLedgerOn chain batch start, Digests ing e)
    (hfits : FitsCap ing chain batches start (start + widest ing c - 1)) :
    ∃ r stop n', env.Gives (windowSweepWatched ing fuel batches) w (.ok r) n' ∧
      SweptWindow ing chain batches start stop (env.node w) n' := by
  obtain ⟨w₁, hhealth, hw₁⟩ : env.Gives (wrapErr "getHealth for sweep window" getHealth) w
    (.ok c.health) (env.node w) := gives_getHealth _
  obtain ⟨w₂, hregress, hw₂⟩ := gives_maybeHandleTipRegression fuel w₁ (hw₁ ▸ hbelow)
  have hseek : env.Gives (earliestStartLedger ing) w₂ (.ok start) n₁ :=
    Gives.of_plain (plain_of_seeks seeks_earliestStartLedger)
      (by rw [hw₂, hw₁]; exact hposition)
  obtain ⟨w₃, hstart, hw₃⟩ := hseek
  obtain ⟨window, ⟨w₄, hwindow, hw₄⟩, hwindow_pos, hwide⟩ :=
    gives_effectiveSweepWindow w₃ (show widest ing c < 2 ^ 32 by omega)
  -- the end of the window does not wrap around
  obtain ⟨stop, hstop⟩ : ∃ stop, stop = min (u32 (start + window + 2 ^ 32 - 1)) chain.tip :=
    ⟨_, rfl⟩
  have hend : stop = min (start + window - 1) chain.tip := by
    have hu32 : u32 (start + window + 2 ^ 32 - 1) = start + window - 1 := by
      unfold u32
      omega
    rw [hstop, hu32]
  obtain ⟨n₅, ⟨w₅, hsweep, hw₅⟩, hswept⟩ := gives_sweepAll hdry hfuel
    (show stop ≤ chain.tip by omega) hdigest (hfits.mono (show stop ≤ _ by omega)) w₄
    (by rw [hw₄, hw₃, htracker]; exact hbelow.tracker)
  rw [hw₄, hw₃] at hswept
  have hlisted : listed n₅.tables = listed (env.node w).tables := by
    unfold listed
    rw [hswept.sweeps.watchedContracts, htables]
  obtain ⟨n₇, hsave, hmem, hevents, hstate, hwatched, hcursors⟩ :=
    eval_saveAll c ing (lastIngestedOf stop chain.tip) (listed n₅.tables) n₅
  obtain ⟨w₆, hread, hw₆⟩ : env.Gives readMemory w₅ n₅.mem n₅ :=
    hw₅ ▸ gives_readMemory
  obtain ⟨w₇, hlist, hw₇⟩ : env.Gives (listWatchedContracts .sweepComplete) w₆
      (.ok (listed n₅.tables)) n₅ := hw₆ ▸ gives_listWatchedContracts _
  obtain ⟨w₈, hsaved, hw₈⟩ : env.Gives (saveAll (lastIngestedOf stop chain.tip) (listed n₅.tables))
      w₇ (.ok ()) n₇ := Gives.of_plain (plain_saveAll _ _) (by rw [hw₇]; exact hsave)
  obtain ⟨r, n₉, ⟨w₉, hfinal, hw₉⟩, hmem', hevents', hcursors', hwatched', hstate'⟩ :=
    gives_saveSweepState hdry stop w₈
  rw [hw₈] at hmem' hevents' hcursors' hwatched'
  refine ⟨r, stop, n₉, ⟨w₉, ?_, hw₉⟩, ?_⟩
  · rw [windowSweepWatched, eval_andThen hhealth, htip, eval_andThen hregress]
    simp only [Bool.false_eq_true, if_false]
    rw [eval_andThen hstart, if_neg (by omega), eval_lift_bind, hwindow]
    dsimp only
    rw [← hstop, eval_andThen hsweep, eval_lift_bind, hread]
    dsimp only
    rw [if_neg (by rw [hswept.capHit]; exact Bool.false_ne_true), eval_andThen hlist,
      eval_andThen hsaved, hfinal]
  · have hrows : n₉.tables.events = n₅.tables.events := hevents'.trans hevents
    refine ⟨by omega, by omega, ?_, ?_, ?_, ⟨?_, ?_⟩, ?_⟩
    · intro batch hbatch id hid
      rw [hrows]
      exact hswept.held batch hbatch id hid
    · intro row hrow
      rw [hrows]
      exact hswept.sweeps.events row (by rw [htables]; exact hrow)
    · rw [hwatched', hwatched, hswept.sweeps.watchedContracts, htables]
    · rw [hmem', hmem]
      exact hswept.tracker
    · intro st hst
      rw [hstate' st hst]
      unfold lastIngestedOf
      split <;> omega
    · intro wc hwc
      have hcursor := hcursors wc.contractID
      rw [if_pos (mem_map_of_mem (hlisted ▸ hwc))] at hcursor
      rw [← hcursor]
      unfold Tables.getContractCursor
      rw [hcursors']

end Sweep

/-! ## Where a cycle starts -/

variable {ids : List String}

section Start

variable (hdry : ing.opts.dryRun = false) {health : Health} {s : Nat} {n : Node b}

theorem coldStartLedger_ok (h : coldStartLedger ing health = .ok s) :
    2 ≤ s ∧ (0 < ing.opts.startLedger → s = max ing.opts.startLedger 2 ∧
      ¬ (0 < health.oldestLedger ∧ ing.opts.startLedger < health.oldestLedger)) := by
  unfold coldStartLedger at h
  dsimp only at h
  split at h
  · cases h
  rename_i resolved hresolved
  split at h
  · cases h
  rename_i hok
  cases h
  refine ⟨le_max_right _ _, ?_⟩
  intro hpos
  rw [if_pos hpos] at hresolved
  cases hresolved
  exact ⟨rfl, fun hbelow => hok ⟨.inl hpos, hbelow⟩⟩

/-- Where a run without any progress starts: at `START_LEDGER` itself, or at the cold start. -/
def firstLedger (ing : Ingester) (s : Nat) : Nat :=
  if 0 < ing.opts.startLedger then ing.opts.startLedger else s

theorem firstLedger_pos (h : coldStartLedger ing health = .ok s) : 0 < firstLedger ing s := by
  have := (coldStartLedger_ok h).1
  unfold firstLedger
  split <;> omega

theorem firstLedger_le (h : coldStartLedger ing health = .ok s) : firstLedger ing s ≤ s := by
  unfold firstLedger
  split
  · rename_i hpos
    rw [((coldStartLedger_ok h).2 hpos).1]
    exact le_max_left _ _
  · exact le_rfl

def SameProgress (n n' : Node b) : Prop :=
  n'.tables = n.tables ∧ n'.mem.tracker = n.mem.tracker

theorem eval_getContractCursor (id : String) : Prog.eval (c.answer ing) (getContractCursor id) n =
    (found (n.tables.getContractCursor id), n) := rfl

theorem eval_getIngestionState : Prog.eval (c.answer ing) getIngestionState n =
    (found (n.tables.getIngestionState ing.opts.network), n) := rfl

include hdry

theorem eval_persistedPosition_cold (hstate : n.tables.getIngestionState ing.opts.network = none)
    (hcold : coldStartLedger ing c.health = .ok s) :
    Prog.eval (c.answer ing) (persistedPosition ing) n = (.ok (s, ""), n) := by
  have hhealth : Prog.eval (c.answer ing) (wrapErr "getHealth for cold start" getHealth) n =
      (.ok c.health, n) := rfl
  have hledger : Prog.eval (c.answer ing)
      (Fallible.ofExcept (coldStartLedger ing c.health) : M Nat) n = (.ok s, n) := by
    rw [hcold]
    rfl
  have hset : Prog.eval (c.answer ing) (setDryRunPosition ing "" (s - 1)) n = ((), n) := by
    unfold setDryRunPosition
    rw [if_neg (by simp [hdry])]
    rfl
  rw [persistedPosition, eval_attempt_bind, eval_getIngestionState, hstate]
  dsimp only [found]
  rw [if_pos (by decide), coldStart, eval_andThen hhealth, eval_andThen hledger,
    eval_lift_bind, hset]
  rfl

theorem eval_resolveContractPosition_cold (id : String)
    (hcursors : n.tables.contractCursors.rows = [])
    (hstate : n.tables.getIngestionState ing.opts.network = none)
    (hcold : coldStartLedger ing c.health = .ok s) :
    ∃ q n', Prog.eval (c.answer ing) (resolveContractPosition ing id) n = (.ok q, n') ∧
      firstLedger ing s ≤ q ∧
      (n.mem.startOverrideApplied = false ∨ ing.opts.startLedger = 0 → q = firstLedger ing s) ∧
      SameProgress n n' := by
  have hnone : n.tables.getContractCursor id = none := by
    simp [Tables.getContractCursor, Table.get, hcursors]
  have hmem : Prog.eval (c.answer ing) readMemory n = (n.mem, n) := rfl
  have hresolve : ∃ q n', Prog.eval (c.answer ing) (resolvePosition ing) n = (.ok (q, ""), n') ∧
      firstLedger ing s ≤ q ∧
      (n.mem.startOverrideApplied = false ∨ ing.opts.startLedger = 0 → q = firstLedger ing s) ∧
      SameProgress n n' := by
    rw [resolvePosition, eval_lift_bind, hmem]
    simp only [hdry]
    by_cases hoverride : n.mem.startOverrideApplied = false ∧ 0 < ing.opts.startLedger
    · have hok := ((coldStartLedger_ok hcold).2 hoverride.2).2
      have hfirst : firstLedger ing s = ing.opts.startLedger := if_pos hoverride.2
      refine ⟨ing.opts.startLedger,
        { n with mem := { n.mem with startOverrideApplied := true } }, ?_, hfirst.le,
        fun _ => hfirst.symm, rfl, rfl⟩
      have hhealth : Prog.eval (c.answer ing) (wrapErr "getHealth for override" getHealth)
          { n with mem := { n.mem with startOverrideApplied := true } } = (.ok c.health,
            { n with mem := { n.mem with startOverrideApplied := true } }) := rfl
      rw [if_pos hoverride]
      refine (eval_andThen hhealth _).trans ?_
      rw [if_neg hok]
      rfl
    · rw [if_neg hoverride, eval_persistedPosition_cold hdry hstate hcold]
      refine ⟨s, n, rfl, firstLedger_le hcold, ?_, rfl, rfl⟩
      intro hfresh
      refine (if_neg fun hpos => ?_).symm
      rcases hfresh with hfresh | hzero
      · exact hoverride ⟨hfresh, hpos⟩
      · omega
  obtain ⟨q, n', heval, hle, hfirst, hsame⟩ := hresolve
  refine ⟨q, n', ?_, hle, hfirst, hsame⟩
  rw [resolveContractPosition, eval_attempt_bind, eval_getContractCursor, hnone]
  dsimp only [found]
  rw [if_pos (by decide), coldStartPosition, eval_andThen heval]
  rfl

omit hdry in
theorem eval_earliestPosition_floor {J : Node b → Prop} {p : Nat} (hp : 0 < p)
    (hresolve : ∀ id ∈ ids, ∀ n, J n → ∃ q n', Prog.eval (c.answer ing)
      (resolveContractPosition ing id) n = (.ok q, n') ∧ p ≤ q ∧ J n') (hn : J n) :
    ∃ n', Prog.eval (c.answer ing) (earliestPosition ing ids p) n = (.ok p, n') ∧ J n' := by
  induction ids generalizing n with
  | nil => exact ⟨n, rfl, hn⟩
  | cons id ids ih =>
    obtain ⟨q, n₁, heval, hle, hn₁⟩ := hresolve id (.head _) n hn
    obtain ⟨n₂, hrest, hn₂⟩ := ih (fun id' h => hresolve id' (.tail _ h)) hn₁
    refine ⟨n₂, ?_, hn₂⟩
    rw [earliestPosition, eval_andThen heval, if_neg (by omega)]
    exact hrest

omit hdry in
theorem eval_earliestStartLedger_floor {J : Node b → Prop} {p : Nat} (hp : 0 < p)
    (hne : listed n.tables ≠ [])
    (hfirst : ∀ id, id ∈ (listed n.tables).map (fun wc => wc.contractID) →
      ∃ n', Prog.eval (c.answer ing) (resolveContractPosition ing id) n = (.ok p, n') ∧ J n')
    (hresolve : ∀ id, id ∈ (listed n.tables).map (fun wc => wc.contractID) → ∀ n, J n →
      ∃ q n', Prog.eval (c.answer ing) (resolveContractPosition ing id) n = (.ok q, n') ∧
        p ≤ q ∧ J n') :
    ∃ n', Prog.eval (c.answer ing) (earliestStartLedger ing) n = (.ok p, n') ∧ J n' := by
  have hlist : Prog.eval (c.answer ing) (listWatchedContracts .earliestStartLedger) n =
      (.ok (listed n.tables), n) := rfl
  obtain ⟨wc, rest, hlisted⟩ := exists_cons_of_ne_nil hne
  rw [hlisted] at hfirst hresolve hlist
  obtain ⟨n₁, heval, hn₁⟩ := hfirst wc.contractID mem_cons_self
  obtain ⟨n₂, hrest, hn₂⟩ := eval_earliestPosition_floor hp
    (fun id hid => hresolve id (.tail _ hid)) hn₁
  refine ⟨n₂, ?_, hn₂⟩
  have hearliest : Prog.eval (c.answer ing) (earliestPosition ing
      ((wc :: rest).map fun wc => wc.contractID) 0) n = (.ok p, n₂) := by
    rw [map_cons, earliestPosition, eval_andThen heval, if_pos (.inl rfl)]
    exact hrest
  rw [earliestStartLedger, eval_andThen hlist, eval_andThen hearliest,
    if_neg (by omega)]
  rfl

end Start

/-! ## A run of cycles -/

def Surroundings.cycles (env : Surroundings b ing c chain) (fuel : Nat) : Nat → env.World → env.World
  | 0, w => w
  | k + 1, w => env.cycles fuel k (Prog.eval env.answer (runOnce ing fuel) w).2

def ownIDs (ing : Ingester) (t : Tables b) : List String :=
  (ownRows ing (listed t)).map fun wc => wc.contractID

/-- Every event of the contracts from `first` to `last` that is not skipped and decodes has a
row. -/
def StoredThrough (ing : Ingester) (chain : Chain) (ids : List String) (first last : Nat)
    (n : Node b) : Prop :=
  ∀ e ∈ chain.events, Wanted ids e → first ≤ e.ledger → e.ledger ≤ last →
    isSkipped ing e.contractID = false → (∃ ev, toStoreEvent ing e = .ok ev) →
      ∃ r ∈ n.tables.events.rows, r.id = e.id

/-- What lets every window from `first` on be finished in one cycle. -/
structure Sweepable (ing : Ingester) (c : Unfailing) (chain : Chain) (ids : List String)
    (first : Nat) : Prop where
  live : ing.opts.dryRun = false
  tip : c.health.latestLedger = chain.tip
  /-- No window's end passes `2 ^ 32`. -/
  width : chain.tip + widest ing c ≤ 2 ^ 32
  digests : ∀ e ∈ chain.events, Wanted ids e → first ≤ e.ledger → Digests ing e
  fits : ∀ start, first ≤ start → start ≤ chain.tip →
    FitsCap ing chain (filterBatches ids) start (start + widest ing c - 1)

/-- Nothing has been ingested, and the process has just started. -/
structure Unstarted (ing : Ingester) (n : Node b) : Prop where
  contractCursors : n.tables.contractCursors.rows = []
  ingestionState : n.tables.getIngestionState ing.opts.network = none
  mem : n.mem = Memory.fresh ing

/-- Every contract has come to ledger `last`, and what lies before is stored. -/
structure Reached (ing : Ingester) (chain : Chain) (listing : List WatchedContract)
    (first last : Nat) (n : Node b) : Prop where
  watched : listed n.tables = listing
  below : BelowTip ing chain n
  cursors : ∀ wc ∈ listing, n.tables.getContractCursor wc.contractID =
    some ⟨wc.contractID, last, ""⟩
  stored : StoredThrough ing chain ((ownRows ing listing).map fun wc => wc.contractID) first last n

theorem filterBatches_ne_singleton (h : 25 < ids.length)
    (filters : List Rpc.EventFilter) : filterBatches ids ≠ [filters] := by
  intro heq
  unfold filterBatches at heq
  have hne : ids ≠ [] := by
    rintro rfl
    simp at h
  rw [if_neg (by simpa using hne)] at heq
  have hfilters : filters.length ≤ 5 :=
    (chunks_piece (by decide) (heq ▸ mem_singleton_self filters)).2
  have hflat := congrArg List.flatten heq
  rw [chunks_flatten (by decide), flatten_singleton] at hflat
  have hpieces : (chunks maxContractIDsPerFilter ids).length ≤ 5 := by
    rw [← length_map, hflat]
    exact hfilters
  have htotal : ids.length ≤ (chunks maxContractIDsPerFilter ids).length * 5 := by
    conv_lhs => rw [← chunks_flatten (n := maxContractIDsPerFilter) (by decide) ids]
    rw [length_flatten, ← length_map]
    refine sum_le_card_nsmul _ _ ?_
    intro k hk
    obtain ⟨piece, hpiece, rfl⟩ := mem_map.mp hk
    exact (chunks_piece (by decide) hpiece).2
  omega

theorem storedThrough_window {first start stop : Nat}
    (hbefore : ∀ last, last < start → StoredThrough ing chain ids first last n)
    (hkept : ∀ r ∈ n.tables.events.rows, r ∈ n'.tables.events.rows)
    (hheld : ∀ batch ∈ filterBatches ids, WindowHeld ing stop (fromLedgerOn chain batch start) n') :
    StoredThrough ing chain ids first stop n' := by
  intro e he hwanted hfirst hlast hskip hdecodes
  by_cases hstart : e.ledger < start
  · obtain ⟨r, hr, hid⟩ := hbefore e.ledger hstart e he hwanted hfirst le_rfl hskip hdecodes
    exact ⟨r, hkept r hr, hid⟩
  obtain ⟨batch, hbatch, haccepted⟩ := (filterBatches_accept ids e).mpr hwanted
  obtain ⟨ev, hev⟩ := hdecodes
  have hrow : decodedRow ing e = some ev := by simp [decodedRow, hskip, hev, Except.toOption]
  have hin : e ∈ upTo stop (fromLedgerOn chain batch start) :=
    mem_filter.mpr ⟨mem_fromLedgerOn.mpr ⟨he, haccepted, by omega⟩, by simpa using hlast⟩
  obtain ⟨r, hr, hid⟩ := hheld batch hbatch ev.id
    (mem_map_of_mem (mem_filterMap.mpr ⟨e, hin, hrow⟩))
  exact ⟨r, hr, hid.trans (toStoreEvent_ok ing hev).1⟩

theorem ne_nil_of_many {listing : List WatchedContract} (hmany : 25 < (ownRows ing listing).length) :
    listing ≠ [] := by
  rintro rfl
  simp [ownRows] at hmany

section Run

abbrev listedIDs (ing : Ingester) (listing : List WatchedContract) : List String :=
  (ownRows ing listing).map fun wc => wc.contractID

variable {env : Surroundings b ing c chain} {listing : List WatchedContract} {fuel first : Nat}
  {w : env.World} (hmany : 25 < (ownRows ing listing).length)
  (hsweepable : Sweepable ing c chain (listedIDs ing listing) first)
  (hfuel : turnsFor chain (filterBatches (listedIDs ing listing)) ≤ fuel)
include hmany hsweepable hfuel

section Cycle

variable {start : Nat} {n₁ : Node b} (hlisted : listed (env.node w).tables = listing)
  (hbelow : BelowTip ing chain (env.node w))
  (hposition : Prog.eval (c.answer ing) (earliestStartLedger ing) (env.node w) = (.ok start, n₁))
  (hsame : SameProgress (env.node w) n₁) (hpos : 0 < start) (hfirst : first ≤ start)
  (hle : start ≤ chain.tip)
include hlisted hbelow hposition hsame hpos hfirst hle

theorem gives_runOnce : ∃ r stop n', env.Gives (runOnce ing fuel) w (.ok r) n' ∧
    SweptWindow ing chain (filterBatches (listedIDs ing listing)) start stop (env.node w) n' := by
  have hlist : ∀ site, ∀ w' : env.World, env.node w' = env.node w →
      env.Gives (listWatchedContracts site) w' (.ok listing) (env.node w) := by
    intro site w' hw'
    rw [← hlisted, ← hw']
    exact gives_listWatchedContracts site
  obtain ⟨w₁, hfirstList, hw₁⟩ := hlist .runOnce w rfl
  obtain ⟨w₂, hsecondList, hw₂⟩ := hlist .buildFilterBatches w₁ hw₁
  have hbatches : Prog.eval env.answer (buildFilterBatches ing) w₁ =
      (.ok (filterBatches (listedIDs ing listing)), w₂) := by
    rw [buildFilterBatches, eval_andThen hsecondList]
    rfl
  have hdigest : ∀ batch ∈ filterBatches (listedIDs ing listing),
      ∀ e ∈ fromLedgerOn chain batch start, Digests ing e := by
    intro batch hbatch e he
    obtain ⟨hin, haccepted, hledger⟩ := mem_fromLedgerOn.mp he
    exact hsweepable.digests e hin ((filterBatches_accept _ e).mp ⟨batch, hbatch, haccepted⟩)
      (by omega)
  rw [← hw₂] at hbelow hposition hsame
  obtain ⟨r, stop, n', ⟨w', heval, hw'⟩, hswept⟩ := gives_windowSweepWatched hsweepable.live
    hsweepable.tip hbelow hposition hsame.1 hsame.2 hpos hle hsweepable.width hfuel hdigest
    (hsweepable.fits start hfirst hle)
  rw [hw₂] at hswept
  refine ⟨r, stop, n', ⟨w', ?_, hw'⟩, hswept⟩
  rw [runOnce, eval_andThen hfirstList, if_neg (ne_nil_of_many hmany), runOnceWatched,
    eval_andThen hbatches]
  split
  · rename_i filters hone
    exact absurd hone (filterBatches_ne_singleton (by simpa using hmany) filters)
  · exact heval

/-- A cycle stores the events up to the tip, or moves every contract on. -/
theorem reached_or_stored (hbefore : ∀ last, last < start →
      StoredThrough ing chain (listedIDs ing listing) first last (env.node w)) :
    StoredThrough ing chain (listedIDs ing listing) first chain.tip
        (env.node (Prog.eval env.answer (runOnce ing fuel) w).2) ∨
      ∃ last, start ≤ last ∧ last < chain.tip ∧ Reached ing chain listing first last
        (env.node (Prog.eval env.answer (runOnce ing fuel) w).2) := by
  obtain ⟨r, stop, n', ⟨w', heval, hw'⟩, hswept⟩ := gives_runOnce hmany hsweepable hfuel hlisted
    hbelow hposition hsame hpos hfirst hle
  rw [heval, hw']
  have hstored := storedThrough_window hbefore hswept.kept hswept.held
  have hstop := hswept.stop_le
  by_cases htip : stop = chain.tip
  · exact .inl (htip ▸ hstored)
  refine .inr ⟨stop, hswept.start_le, by omega, ?_, hswept.below, ?_, hstored⟩
  · rw [← hlisted]
    unfold listed
    rw [hswept.watched]
  · intro wc hwc
    rw [hswept.cursors wc (hlisted ▸ hwc)]
    unfold lastIngestedOf
    rw [if_neg (by omega)]

end Cycle

theorem stored_of_reached {last : Nat} (hpos : 0 < last) (hfirst : first ≤ last + 1) (hlast : last < chain.tip)
    (h : Reached ing chain listing first last (env.node w)) :
    ∃ k, StoredThrough ing chain (listedIDs ing listing) first chain.tip (env.node (env.cycles fuel k w)) := by
  -- each cycle moves the position, so what is left to the tip shrinks
  induction hleft : chain.tip - last using Nat.strong_induction_on generalizing last w with
  | _ left ih =>
    have hne : listed (env.node w).tables ≠ [] := h.watched ▸ ne_nil_of_many hmany
    have htip := chain.tip_lt
    have hafter : ledgerAfter last = last + 1 := by
      simp only [ledgerAfter, u32, u32OfInt]
      omega
    have hresolve : ∀ id, id ∈ (listed (env.node w).tables).map (fun wc => wc.contractID) →
        Prog.eval (c.answer ing) (resolveContractPosition ing id) (env.node w) =
          (.ok (last + 1), env.node w) := by
      intro id hid
      rw [h.watched] at hid
      obtain ⟨wc, hwc, rfl⟩ := mem_map.mp hid
      rw [resolveContractPosition, eval_attempt_bind, eval_getContractCursor, h.cursors wc hwc]
      dsimp only [found]
      rw [if_pos (by omega), hafter]
      rfl
    obtain ⟨n₁, hposition, rfl⟩ : ∃ n₁, Prog.eval (c.answer ing) (earliestStartLedger ing)
        (env.node w) = (.ok (last + 1), n₁) ∧ n₁ = env.node w :=
      eval_earliestStartLedger_floor (Nat.succ_pos last) hne
        (fun id hid => ⟨env.node w, hresolve id hid, rfl⟩)
        (fun id hid n hn => ⟨last + 1, env.node w, hn ▸ hresolve id hid, le_rfl, rfl⟩)
    rcases reached_or_stored hmany hsweepable hfuel h.watched h.below hposition ⟨rfl, rfl⟩
      (Nat.succ_pos last) hfirst hlast (by
        intro before hlt e he hwanted hfirst' hle
        exact h.stored e he hwanted hfirst' (by omega)) with hdone | ⟨last', hle, hlt, hreached⟩
    · exact ⟨1, hdone⟩
    · obtain ⟨k, hk⟩ := ih (chain.tip - last') (by omega) (by omega) (by omega) hlt hreached rfl
      exact ⟨k + 1, hk⟩

omit hmany hsweepable hfuel

end Run

/-! ## Two events and a cap of one -/

def pairInLedger : Chain where
  events := [.sample "3-1" "C0" 3, .sample "8-1" "C0" 8, .sample "8-2" "C0" 8]
  tip := 12

def cappedAt (cap : Nat) : Ingester :=
  new .verbatim false { Options.zero with maxEventsPerCycle := cap, retentionLedgers := 6 }

def quietRPC : Unfailing where
  health := { latestLedger := 12, oldestLedger := 1 }
  latestLedger_lt := by decide
  oldestLedger_lt := by decide
  page req := { events := pairInLedger.page req, latestLedger := 12, oldestLedger := 1, cursor := "" }
  archived := 0
  multiplier := 1
  now := 0

def quietSurroundings (ing : Ingester) : Surroundings .postgres ing quietRPC pairInLedger where
  World := Node .postgres
  node w := w
  answer := quietRPC.answer ing
  allows o w := by
    cases o with
    | getEvents site req =>
      refine ⟨rfl, _, rfl, ?_⟩
      rw [Chain.serves_iff]
      exact ⟨rfl, rfl, rfl⟩
    | effectiveSweepMultiplier => exact ⟨rfl, le_rfl⟩
    | now => rfl
    | schedule k => exact ⟨rfl, fun hk => hk⟩
    | _ => rfl

def watchedMany : List WatchedContract :=
  (List.range 26).map fun i => ⟨"C" ++ toString i, "default"⟩

def manyWatched (ing : Ingester) : Node .postgres where
  tables := { Tables.empty .postgres with watchedContracts := ⟨watchedMany, by decide +kernel⟩ }
  mem := Memory.fresh ing

def cappedCycle (n : Node .postgres) : Except Err Bool × Node .postgres :=
  Prog.eval (quietRPC.answer (cappedAt 1)) (runOnce (cappedAt 1) 60) n

def nodeAtCap : Node .postgres := (cappedCycle (manyWatched (cappedAt 1))).2

theorem cappedCycle_nodeAtCap : cappedCycle nodeAtCap = (.ok false, nodeAtCap) := by
  have hcycle : cappedCycle nodeAtCap = (.ok false, { nodeAtCap with
      mem := { nodeAtCap.mem with tracker := { nodeAtCap.mem.tracker with
        hashes := fun l => if l = 8 then nodeAtCap.mem.tracker.hashes 8
          else nodeAtCap.mem.tracker.hashes l } } }) := by rfl
  have hsame : (fun l => if l = 8 then nodeAtCap.mem.tracker.hashes 8
      else nodeAtCap.mem.tracker.hashes l) = nodeAtCap.mem.tracker.hashes := by
    funext l
    split
    · rename_i hl
      rw [hl]
    · rfl
  rw [hcycle, hsame]

theorem cycles_nodeAtCap (k : Nat) :
    (quietSurroundings (cappedAt 1)).cycles 60 k nodeAtCap = nodeAtCap := by
  induction k with
  | zero => rfl
  | succ k ih =>
    change (quietSurroundings (cappedAt 1)).cycles 60 k (cappedCycle nodeAtCap).2 = nodeAtCap
    simpa only [cappedCycle_nodeAtCap] using ih

end SoroTrail.Ingest
