import Mathlib.Algebra.Group.Prod
import SoroTrail.Lib.Shares
import SoroTrail.Ingester.PersistSpec
import SoroTrail.Ingester.Requests
import SoroTrail.Ingester.StartLedger

/-!
# The cap on a cycle's events

The goroutines of a sweep share what is left of the cycle's cap.  Each reads it
before a request and subtracts the page only when it has been persisted, so a
goroutine knows nothing of the pages the others have under way: with `k` of them
a cycle may take up to `k - 1` pages more than the cap.
-/

set_option autoImplicit false

namespace SoroTrail.Ingest

open Lib Rpc Store Prog List Sys.Safe Uses

/-! ## What a cycle takes -/

/-- The memory of the ingester, the events it has fetched to persist them, and the tip it was last
told of. -/
structure Tally where
  mem : Memory
  taken : Nat
  tip : Nat

/-- How requests are answered during a cycle.  A page is never longer than asked for, a cancelled
context gets none, and a dry run takes nothing. -/
def Tallies (ing : Ingester) : (o : Act) → Tally → Ans o → Tally → Prop
  | .getEvents site req, t, (.ok resp : Except Err GetEventsResponse), t' =>
    resp.events.length ≤ req.limit ∧ (site = .sweepBatch → t.mem.sweep.canceled = false) ∧
      t' = { t with taken := t.taken + if ing.opts.dryRun then 0 else resp.events.length }
  | .getHealth, t, (.ok health : Except Err Health), t' => t' = { t with tip := health.latestLedger }
  | .memory f, t, m, t' => m = t.mem ∧ t' = { t with mem := f t.mem }
  | .schedule n, t, (i : Nat), t' => t' = t ∧ (0 < n → i < n)
  | _, t, _, t' => t' = t

/-- No tip is reported below what this ingester has seen or stored, or no window is watched for
reorganisations. -/
def TipStands (ing : Ingester) : (o : Act) → Tally → Ans o → Prop
  | .getHealth, t, (.ok health : Except Err Health) =>
    ing.opts.reorgConfirmationWindow = 0 ∨ t.mem.tracker.highestLedger ≤ health.latestLedger
  | .getIngestionState, t, (.ok st : Except Err IngestionState) =>
    ing.opts.reorgConfirmationWindow = 0 ∨ st.lastIngestedLedger ≤ t.tip
  | _, _, _ => True

def cycleSys (ing : Ingester) : Sys Act Ans Tally where
  step o t a t' := Tallies ing o t a t' ∧ TipStands ing o t a
  drift _ _ := False

variable {ing : Ingester}

theorem cycle_stable (I : Tally → Prop) : (cycleSys ing).Stable I := fun _ _ h => h.elim

/-! ## Requests that take nothing -/

/-- Neither fetches events nor touches what the goroutines share. -/
def Aside : Act → Prop
  | .getEvents _ _ => False
  | .memory f => ∀ m, (f m).sweep = m.sweep
  | _ => True

theorem aside_keeps {o : Act} {t t' : Tally} {a : Ans o} (ho : Aside o)
    (h : (cycleSys ing).step o t a t') : t'.taken = t.taken ∧ t'.mem.sweep = t.mem.sweep := by
  obtain ⟨h, -⟩ := h
  cases o with
  | getEvents site req => cases ho
  | getHealth =>
    cases a with
    | error err => rw [h]; exact ⟨rfl, rfl⟩
    | ok health => rw [h]; exact ⟨rfl, rfl⟩
  | memory f =>
    rw [h.2]
    exact ⟨rfl, ho t.mem⟩
  | schedule n =>
    rw [h.1]
    exact ⟨rfl, rfl⟩
  | _ =>
    rw [h]
    exact ⟨rfl, rfl⟩

variable {α : Type} {p : P α}

theorem Saves.aside (h : Saves p) : p.Uses Aside fun _ _ => True := by
  refine Yields.weaken h ?_ fun _ _ h => h
  intro o ho
  cases o with
  | getEvents site req => cases ho
  | memory f => exact fun m => (ho m).2
  | _ => trivial

theorem aside_trackLedgers (events : List Store.Event) (ls : List Nat) (range : Nat × Nat) :
    (trackLedgers ing events ls range).Uses Aside fun _ _ => True := by
  induction ls generalizing range with
  | nil => trivial
  | cons l ls ih => exact ⟨fun _ => rfl, fun _ _ => ih _⟩

theorem aside_persistEvents (fuel : Nat) (page : List Rpc.Event) (latest : Nat) :
    Uses Aside (fun _ _ => True) (persistEvents ing fuel page latest) := by
  unfold persistEvents
  cases hdry : ing.opts.dryRun with
  | true =>
    rw [persistEventsWithReorgCheck_dry hdry]
    trivial
  | false =>
    unfold persistEventsWithReorgCheck
    split
    · trivial
    refine andThen ((persistRows_persists hdry page).uses.weaken ?_ fun _ _ h => h) ?_
    · intro o ho
      cases o with
      | getEvents site req => cases ho
      | memory f => cases ho
      | _ => trivial
    intro rows
    rw [if_neg (by simp [hdry])]
    unfold recordIngestedLedgerFingerprints
    split
    · trivial
    refine andThen (lift (aside_trackLedgers rows _ _)) ?_
    intro range
    trivial

/-! ## The budget -/

def pageShare (ing : Ingester) : Nat := min ing.opts.pageLimit ing.opts.maxEventsPerCycle

/-- The most a cycle takes when up to `k` goroutines run at once. -/
def overdraft (ing : Ingester) (k : Nat) : Nat :=
  ing.opts.maxEventsPerCycle + (k - 1) * pageShare ing

/-- The budget while goroutines have asked for `g.1` events and hold `g.2` that they have not yet
subtracted.  Once the context is cancelled nothing is taken any more. -/
def Drawn (ing : Ingester) (k : Nat) (g : Nat × Nat) (t : Tally) : Prop :=
  t.taken ≤ overdraft ing k ∧ ∃ r : Int, t.mem.sweep.remaining = some r ∧
    r ≤ ing.opts.maxEventsPerCycle ∧ (t.mem.sweep.canceled = false →
      (t.taken : Int) = ing.opts.maxEventsPerCycle - r + g.2 ∧
        (ing.opts.maxEventsPerCycle : Int) - r + g.1 + g.2 ≤ overdraft ing k)

def OnePage (ing : Ingester) (g : Nat × Nat) : Prop := g.1 + g.2 ≤ pageShare ing

def OtherPages (ing : Ingester) (k : Nat) (g : Nat × Nat) : Prop :=
  g.1 + g.2 ≤ (k - 1) * pageShare ing

def Repaid (r : Except Err Unit) (g : Nat × Nat) : Prop := ∀ u, r = .ok u → g = 0

variable {g : Nat × Nat}

theorem Drawn.congr {k : Nat} {t t' : Tally} (h : Drawn ing k g t)
    (htaken : t'.taken = t.taken) (hsweep : t'.mem.sweep = t.mem.sweep) : Drawn ing k g t' := by
  unfold Drawn
  rw [htaken, hsweep]
  exact h

theorem otherPages_sum {gs : List (Nat × Nat)} (h : ∀ g ∈ gs, OnePage ing g) :
    gs.sum.1 + gs.sum.2 ≤ gs.length * pageShare ing := by
  induction gs with
  | nil => simp
  | cons g gs ih =>
    have hg : g.1 + g.2 ≤ pageShare ing := h g (.head _)
    have hgs := ih fun x hx => h x (.tail _ hx)
    simp only [sum_cons, Prod.fst_add, Prod.snd_add, length_cons, Nat.add_one_mul]
    omega

section Goroutine

variable {k : Nat}

abbrev Pages (ing : Ingester) (k : Nat) {α : Type} (Q : α → Nat × Nat → Prop) (g : Nat × Nat)
    (p : P α) : Prop :=
  (cycleSys ing).Draws (Drawn ing k) (OnePage ing) (OtherPages ing k) Q g p

theorem onePage_zero : OnePage ing 0 := Nat.zero_le _

theorem pages_aside (hg : OnePage ing g)
    (hp : p.Uses Aside fun _ _ => True) : Pages ing k (fun _ g' => g' = g) g p := by
  refine Sys.Draws.of_uses ?_ hg hp
  intro o g t a t' ho hI hstep
  obtain ⟨htaken, hsweep⟩ := aside_keeps ho hstep
  exact hI.congr htaken hsweep

theorem pages_failed {err : Err} :
    Pages ing k Repaid g (Fallible.fail err : M Unit) := nofun

theorem pages_flag {f : Memory → Memory}
    (hf : ∀ m, (f m).sweep.remaining = m.sweep.remaining ∧
      (f m).sweep.canceled = m.sweep.canceled) (hg : OnePage ing g) :
    Pages ing k (fun _ g' => g' = g) g (updateMemory f) := by
  intro others t m t' _ hI hstep
  obtain ⟨rfl, rfl⟩ : m = t.mem ∧ t' = { t with mem := f t.mem } := hstep.1
  refine ⟨g, hg, ?_, rfl⟩
  unfold Drawn at hI ⊢
  rw [(hf t.mem).1, (hf t.mem).2]
  exact hI

theorem pages_repay (n : Nat) :
    Pages ing k (fun _ g => g = 0) (0, n) (updateMemory fun m => { m with sweep := { m.sweep with
      remaining := m.sweep.remaining.map fun r => r - (n : Int) } }) := by
  intro others t m t' _ hI hstep
  obtain ⟨rfl, rfl⟩ : m = t.mem ∧ t' = { t with mem := _ } := hstep.1
  refine ⟨0, onePage_zero, ?_, rfl⟩
  obtain ⟨hbound, r, hr, hle, hdrawn⟩ := hI
  refine ⟨hbound, r - n, ?_, by omega, ?_⟩
  · simp [hr]
  · intro hlive
    obtain ⟨htaken, hpending⟩ := hdrawn hlive
    simp only [Prod.fst_add, Prod.snd_add, Prod.fst_zero, Prod.snd_zero] at htaken hpending ⊢
    constructor <;> omega

variable (hdry : ing.opts.dryRun = false)
include hdry

theorem sweepPage_pages {fuel start stop limit : Nat} {filters : List Rpc.EventFilter}
    {cursor : String} {continueAt : String → M Unit} (hlimit : limit ≤ pageShare ing)
    (hnext : ∀ next, Pages ing k Repaid 0 (continueAt next)) :
    Pages ing k Repaid (limit, 0)
      (sweepPage ing fuel start stop filters cursor limit continueAt) := by
  have hasked : OnePage ing (limit, 0) := hlimit
  unfold sweepPage
  rw [Fallible.attempt_bind]
  intro others t r t' hroom hI hstep
  cases r with
  | error err =>
    obtain rfl : t' = t := hstep.1
    refine ⟨(limit, 0), hasked, hI, ?_⟩
    dsimp only [Prog.bind]
    split
    · refine Sys.Draws.lift_bind ((pages_flag ?_ hasked).post ?_)
      · exact fun _ => ⟨rfl, rfl⟩
      · exact fun _ _ _ => pages_failed
    · split
      · refine Sys.Draws.lift_bind ((pages_aside hasked saves_discardCursor.aside).post ?_)
        exact fun _ _ _ => pages_failed
      · exact pages_failed
  | ok resp =>
    obtain ⟨hlen, hlive, rfl⟩ := hstep.1
    have hlive := hlive rfl
    have hlen : resp.events.length ≤ limit := hlen
    have hheld : OnePage ing (0, resp.events.length) := by
      unfold OnePage
      omega
    refine ⟨(0, resp.events.length), hheld, ?_, ?_⟩
    · obtain ⟨-, r, hr, hle, hdrawn⟩ := hI
      obtain ⟨htaken, hbound⟩ := hdrawn hlive
      simp only [hdry, Prod.fst_add, Prod.snd_add] at htaken hbound ⊢
      refine ⟨?_, r, hr, hle, fun _ => ⟨?_, ?_⟩⟩
      · simp
        omega
      · simp
        omega
      · simp
        omega
    · refine Sys.Draws.andThen ((pages_aside hheld (aside_persistEvents _ _ _)).post ?_)
      rintro (err | u) g rfl
      · exact pages_failed
      refine Sys.Draws.lift_bind ((pages_repay _).post ?_)
      rintro _ g rfl
      cases resp.events.getLast? with
      | none => exact fun _ _ => rfl
      | some last =>
        dsimp only
        generalize (if resp.cursor = "" then last.cursorValue else resp.cursor) = next
        split
        · exact fun _ _ => rfl
        · have hctx : ctxDone.Uses Aside fun _ _ => True := ⟨trivial, fun _ _ => trivial⟩
          refine Sys.Draws.lift_bind ((pages_aside onePage_zero hctx).post ?_)
          rintro stopped g rfl
          cases stopped with
          | true => exact pages_failed
          | false => exact hnext _

theorem sweepBatch_pages (fuel start stop : Nat) (filters : List Rpc.EventFilter) (n : Nat)
    (cursor : String) : Pages ing k Repaid 0 (sweepBatch ing fuel start stop filters n cursor) := by
  induction n generalizing cursor with
  | zero => exact pages_failed
  | succ n ih =>
    intro others t m t' hroom hI hstep
    obtain ⟨rfl, rfl⟩ : m = t.mem ∧ t' = t := hstep.1
    obtain ⟨hbound, r, hr, hle, hdrawn⟩ := hI
    dsimp only [Prog.bind, Fallible.andThen]
    rw [hr]
    dsimp only
    by_cases hspent : r ≤ 0
    · rw [if_pos hspent]
      refine ⟨0, onePage_zero, ⟨hbound, r, hr, hle, hdrawn⟩, ?_⟩
      refine Sys.Draws.bind ((pages_flag ?_ onePage_zero).post ?_)
      · exact fun _ => ⟨rfl, rfl⟩
      · rintro _ _ rfl _ _
        rfl
    · rw [if_neg hspent]
      -- the goroutine asks for no more than is left, whatever the others have asked for
      obtain ⟨limit, hlimit⟩ : ∃ limit, limit = (min (ing.opts.pageLimit : Int) r).toNat := ⟨_, rfl⟩
      rw [← hlimit]
      have hshare : limit ≤ pageShare ing := by
        unfold pageShare
        omega
      refine ⟨(limit, 0), hshare, ⟨hbound, r, hr, hle, ?_⟩, sweepPage_pages hdry hshare ih⟩
      intro hlive
      obtain ⟨htaken, -⟩ := hdrawn hlive
      have hothers : others.1 + others.2 ≤ (k - 1) * pageShare ing := hroom
      simp only [Prod.fst_add, Prod.snd_add, Prod.snd_zero, overdraft] at htaken ⊢
      constructor
      · omega
      · have : (others.1 : Int) + others.2 ≤ ((k - 1) * pageShare ing : Nat) := by
          exact_mod_cast hothers
        omega

omit hdry in
/-- An error cancels the context, so what the goroutine has not subtracted no longer counts. -/
theorem goroutine_pages {f : M Unit} (hf : Pages ing k Repaid 0 f) :
    Pages ing k (fun _ g => g = 0) 0 (goroutine f) := by
  refine Sys.Draws.bind (hf.post ?_)
  rintro (err | u) g hrepaid
  · intro others t m t' _ hI hstep
    obtain ⟨rfl, rfl⟩ : m = t.mem ∧ t' = { t with mem := _ } := hstep.1
    obtain ⟨hbound, r, hr, hle, -⟩ := hI
    exact ⟨0, onePage_zero, ⟨hbound, r, hr, hle, nofun⟩, rfl⟩
  · exact hrepaid u rfl

end Goroutine

/-! ## A cycle -/

abbrev TakesAtMost (ing : Ingester) (n : Nat) {α : Type} (Q : α → Tally → Prop) (p : P α)
    (t : Tally) : Prop :=
  (cycleSys ing).Safe (fun _ v => v.taken ≤ n) (fun a v => v.taken ≤ n ∧ Q a v) p t

section Cycle

variable {n : Nat} {t : Tally}

theorem takes_act {Q : α → Tally → Prop} {o : Act} {k : Ans o → P α} (ht : t.taken ≤ n)
    (hk : ∀ a t', (cycleSys ing).step o t a t' → TakesAtMost ing n Q (k a) t') :
    TakesAtMost ing n Q (.act o k) t := by
  refine act (cycle_stable _) rfl ?_ ?_
  · rintro _ rfl
    exact ht
  · rintro _ a t' rfl hstep
    exact hk a t' hstep

theorem takes_ret {Q : α → Tally → Prop} {a : α} (ht : t.taken ≤ n) (hQ : Q a t) :
    TakesAtMost ing n Q (.ret a) t :=
  ret (cycle_stable _) ⟨ht, hQ⟩

theorem takes_aside (hp : p.Uses Aside fun _ _ => True) (ht : t.taken ≤ n) :
    TakesAtMost ing n (fun _ v => v.taken = t.taken) p t := by
  refine (of_yields (I := fun v => v.taken = t.taken) (cycle_stable _) ?_ ?_ hp rfl).post ?_
  · intro o v a v' ho hv hstep
    exact ⟨trivial, (aside_keeps ho hstep).1.trans hv⟩
  · omega
  · rintro a v ⟨-, hv⟩
    exact ⟨by omega, hv⟩

theorem TakesAtMost.aside (hp : p.Uses Aside fun _ _ => True)
    (ht : t.taken ≤ n) : TakesAtMost ing n (fun _ _ => True) p t :=
  (takes_aside hp ht).post fun _ _ h => ⟨h.1, trivial⟩

theorem takes_dry (hdry : ing.opts.dryRun = true) (p : P α) (ht : t.taken = 0) :
    TakesAtMost ing n (fun _ _ => True) p t := by
  have hkeep : ∀ o v (a : Ans o) v', (cycleSys ing).step o v a v' → v'.taken = v.taken := by
    intro o v a v' hstep
    by_cases ho : ∃ site req, o = .getEvents site req
    · obtain ⟨site, req, rfl⟩ := ho
      cases a with
      | error err => rw [(hstep.1 : v' = v)]
      | ok resp =>
        obtain ⟨-, -, rfl⟩ := hstep.1
        simp [hdry]
    · cases o with
      | getEvents site req => exact absurd ⟨site, req, rfl⟩ ho
      | memory f => rw [(hstep.1 : a = v.mem ∧ v' = _).2]
      | _ => exact (aside_keeps (by trivial) hstep).1
  induction p generalizing t with
  | ret a => exact takes_ret (by omega) trivial
  | act o k ih =>
    refine takes_act (by omega) ?_
    intro a t' hstep
    exact ih a ((hkeep o t a t' hstep).trans ht)

theorem takes_getHealth {context : String} (ht : t.taken ≤ n) :
    TakesAtMost ing n (fun r v => v.taken = t.taken ∧ ∀ health, r = .ok health →
        v.tip = health.latestLedger ∧ (ing.opts.reorgConfirmationWindow = 0 ∨
          v.mem.tracker.highestLedger ≤ health.latestLedger))
      (wrapErr context getHealth) t := by
  refine takes_act ht ?_
  intro r t' hstep
  cases r with
  | error err =>
    obtain rfl : t' = t := hstep.1
    exact takes_ret ht ⟨rfl, nofun⟩
  | ok health =>
    obtain ⟨hstep, hstands⟩ := hstep
    obtain rfl : t' = { t with tip := health.latestLedger } := hstep
    refine takes_ret ht ⟨rfl, ?_⟩
    rintro _ ⟨⟩
    exact ⟨rfl, hstands⟩

theorem takes_maybeHandleTipRegression {fuel latest : Nat} (ht : t.taken ≤ n)
    (htip : t.tip = latest)
    (hstands : ing.opts.reorgConfirmationWindow = 0 ∨ t.mem.tracker.highestLedger ≤ latest) :
    TakesAtMost ing n (fun r v => v.taken = t.taken ∧ r = .ok false)
      (maybeHandleTipRegression ing fuel latest) t := by
  unfold maybeHandleTipRegression
  split
  · exact takes_ret ht ⟨rfl, rfl⟩
  rename_i hwatched
  have hwindow : ing.opts.reorgConfirmationWindow ≠ 0 := fun h => hwatched (.inr (.inl h))
  have hseen : t.mem.tracker.checkTipRegression latest = none := by
    have := hstands.resolve_left hwindow
    unfold ReorgTracker.checkTipRegression
    split
    · rfl
    · rw [if_neg (by omega)]
  refine takes_act ht ?_
  intro m t₁ hstep
  obtain ⟨rfl, rfl⟩ : m = t.mem ∧ t₁ = t := hstep.1
  dsimp only [Prog.bind, Fallible.andThen]
  rw [hseen]
  refine takes_act ht ?_
  intro r t₂ hstep
  cases r with
  | error err =>
    obtain rfl : t₂ = t₁ := hstep.1
    exact takes_ret ht ⟨rfl, rfl⟩
  | ok st =>
    obtain ⟨hsame, hst⟩ := hstep
    obtain rfl : t₂ = t₁ := hsame
    have hst : st.lastIngestedLedger ≤ t₂.tip := hst.resolve_left hwindow
    dsimp only [Prog.bind, Fallible.andThen]
    rw [if_neg (by omega)]
    exact takes_ret ht ⟨rfl, rfl⟩

/-- The goroutines of a sweep together, in every schedule. -/
theorem goroutines_take (hdry : ing.opts.dryRun = false) {k fuel start stop : Nat}
    {batches : List (List Rpc.EventFilter)} (hk : k = min ing.opts.sweepConcurrency batches.length)
    (ht : Drawn ing k 0 t) :
    (cycleSys ing).Safe (fun _ v => v.taken ≤ overdraft ing k) (fun _ v => ∃ g, Drawn ing k g v)
      (Prog.interleave ing.opts.sweepConcurrency schedule fuel (batches.map fun filters =>
        goroutine (sweepBatch ing fuel start stop filters fuel "")) []) t := by
  have hroom : ∀ gs : List (Nat × Nat), gs.length < ing.opts.sweepConcurrency →
      gs.length < batches.length → (∀ g ∈ gs, OnePage ing g) → OtherPages ing k gs.sum := by
    intro gs hlimit hsize hunit
    refine le_trans (otherPages_sum hunit) (Nat.mul_le_mul_right _ ?_)
    omega
  have hchoose : ∀ c g (v : Tally), 0 < c → Drawn ing k g v →
      (cycleSys ing).Safe (fun _ v => v.taken ≤ overdraft ing k)
        (fun i u => i < c ∧ Drawn ing k g u) (schedule c) v := by
    intro c g v hc hv
    refine act (cycle_stable _) rfl ?_ ?_
    · rintro _ rfl
      exact hv.1
    · rintro _ (i : Nat) u rfl hstep
      obtain ⟨rfl, hi⟩ : u = _ ∧ (0 < c → i < c) := hstep.1
      exact ret (cycle_stable _) ⟨hi hc, hv⟩
  let threads : List ((Nat × Nat) × P (Except Err Unit)) := batches.map fun filters =>
    (0, goroutine (sweepBatch ing fuel start stop filters fuel ""))
  have hidle : ∀ g ∈ threads.map Prod.fst, g = 0 := by
    intro g hg
    obtain ⟨thread, hthread, rfl⟩ := mem_map.mp hg
    obtain ⟨filters, _, rfl⟩ := mem_map.mp hthread
    rfl
  have hdraws : ∀ thread ∈ threads,
      Pages ing k (fun _ g => g = 0) thread.1 thread.2 := by
    intro thread hthread
    obtain ⟨filters, _, rfl⟩ := mem_map.mp hthread
    exact goroutine_pages (sweepBatch_pages hdry fuel start stop filters fuel "")
  have hsweep := Sys.Draws.interleave hroom
    (fun g => cycle_stable (Drawn ing k g)) (fun _ _ _ h => h.1) ing.sweepConcurrency_pos hchoose
    fuel threads [] t (by simp [threads]) (fun g hg => hidle g hg ▸ onePage_zero)
    (fun g hg => hidle g (mem_of_mem_drop hg)) hdraws (by rw [sum_eq_zero hidle]; exact ht)
  simpa [threads, Function.comp_def] using hsweep

theorem takes_sweepAll (hdry : ing.opts.dryRun = false) (hcap : 0 < ing.opts.maxEventsPerCycle)
    (fuel start stop : Nat) (batches : List (List Rpc.EventFilter)) (ht : t.taken = 0) :
    TakesAtMost ing (overdraft ing (min ing.opts.sweepConcurrency batches.length))
      (fun _ _ => True) (sweepAll ing fuel start stop batches) t := by
  refine takes_act (by omega) ?_
  intro m t₁ hstep
  obtain ⟨rfl, rfl⟩ : m = t.mem ∧ t₁ = { t with mem := _ } := hstep.1
  refine lift_bind ((goroutines_take hdry rfl ?_).post ?_)
  · refine ⟨by simp [ht], ing.opts.maxEventsPerCycle, ?_, le_rfl, ?_⟩
    · simp [newCycleBudget, hdry, hcap.ne']
    · simp [ht]
  · rintro results v ⟨g, hdrawn⟩
    cases results with
    | none => exact takes_ret hdrawn.1 trivial
    | some rs => exact takes_ret hdrawn.1 trivial

theorem TakesAtMost.andThen {β : Type} {Q : Except Err α → Tally → Prop}
    {Q' : Except Err β → Tally → Prop} {p : M α} {f : α → M β} (hp : TakesAtMost ing n Q p t)
    (herr : ∀ err v, Q (.error err) v → Q' (.error err) v)
    (hf : ∀ a v, v.taken ≤ n → Q (.ok a) v → TakesAtMost ing n Q' (f a) v) :
    TakesAtMost ing n Q' (p >>= f : M β) t := by
  refine Sys.Safe.andThen (hp.post ?_)
  rintro (err | a) v ⟨hv, hQ⟩
  · exact takes_ret hv (herr err v hQ)
  · exact hf a v hv hQ

theorem takes_healthy {fuel : Nat} {Q : Except Err α → Tally → Prop}
    {f : Health → M α} {regressed : M α} (ht : t.taken ≤ n)
    (herr : ∀ err v, v.taken = t.taken → Q (.error err) v)
    (hf : ∀ health v, v.taken = t.taken → TakesAtMost ing n Q (f health) v) :
    TakesAtMost ing n Q (do
      let health ← wrapErr "getHealth for sweep window" getHealth
      if ← maybeHandleTipRegression ing fuel health.latestLedger then regressed
      else f health : M α) t := by
  refine (takes_getHealth ht).andThen (fun err v h => herr err v h.1) ?_
  rintro health v hv ⟨hsame, hhealth⟩
  obtain ⟨htip, hstands⟩ := hhealth health rfl
  refine (takes_maybeHandleTipRegression hv htip hstands).andThen ?_ ?_
  · rintro err u ⟨-, h⟩
    cases h
  · rintro _ u hu ⟨hsame', ⟨⟩⟩
    exact hf health u (hsame'.trans hsame)

theorem takes_windowSweep (hdry : ing.opts.dryRun = false) (hcap : 0 < ing.opts.maxEventsPerCycle)
    (fuel start : Nat) (batches : List (List Rpc.EventFilter)) (ht : t.taken = 0) :
    TakesAtMost ing (overdraft ing (min ing.opts.sweepConcurrency batches.length))
      (fun _ _ => True) (windowSweep ing fuel start batches) t := by
  refine takes_healthy (by omega) (fun _ _ _ => trivial) ?_
  intro health v hv
  split
  · exact takes_ret (by omega) trivial
  have hwindow : (effectiveSweepWindow ing).Uses Aside fun _ _ => True :=
    ⟨trivial, fun _ _ => trivial⟩
  refine lift_bind ((takes_aside hwindow (by omega)).post ?_)
  rintro window u ⟨hu, hsame⟩
  refine (takes_sweepAll hdry hcap fuel start _ batches (by omega)).andThen (fun _ _ _ => trivial) ?_
  intro failed u hu _
  refine TakesAtMost.aside (andThen (lift saves_readMemory.aside) ?_) hu
  intro m
  cases failed with
  | some err =>
    dsimp only
    split
    · exact andThen (saves_reclampToOldest _ _).aside fun _ => trivial
    · trivial
  | none =>
    dsimp only
    split
    · trivial
    · exact (saves_saveSweepState _ _).aside

theorem takes_windowSweepWatched (hdry : ing.opts.dryRun = false)
    (hcap : 0 < ing.opts.maxEventsPerCycle) (fuel : Nat) (batches : List (List Rpc.EventFilter))
    (ht : t.taken = 0) :
    TakesAtMost ing (overdraft ing (min ing.opts.sweepConcurrency batches.length))
      (fun _ _ => True) (windowSweepWatched ing fuel batches) t := by
  refine takes_healthy (by omega) (fun _ _ _ => trivial) ?_
  intro health v hv
  refine (takes_aside seeks_earliestStartLedger.saves.aside (by omega)).andThen
    (fun _ _ _ => trivial) ?_
  intro start v₁ hv₁ hsame
  split
  · exact takes_ret (by omega) trivial
  have hwindow : (effectiveSweepWindow ing).Uses Aside fun _ _ => True :=
    ⟨trivial, fun _ _ => trivial⟩
  refine lift_bind ((takes_aside hwindow hv₁).post ?_)
  rintro window u ⟨hu, hsame'⟩
  refine (takes_sweepAll hdry hcap fuel start _ batches (by omega)).andThen (fun _ _ _ => trivial) ?_
  intro failed u hu _
  refine TakesAtMost.aside (andThen (lift saves_readMemory.aside) ?_) hu
  intro m
  have hlist : ∀ site, Uses Aside (fun _ _ => True) (listWatchedContracts site) :=
    fun _ => ⟨trivial, fun _ _ => trivial⟩
  cases failed with
  | some err =>
    dsimp only
    split
    · refine andThen (hlist _) fun watched => ?_
      refine andThen (saves_reclampToOldest _ _).aside fun _ => ?_
      exact andThen (saves_saveIngestionState _).aside fun _ => trivial
    · trivial
  | none =>
    dsimp only
    split
    · trivial
    · refine andThen (hlist _) fun watched => ?_
      exact andThen (saves_saveAll _ _).aside fun _ => (saves_saveSweepState _ _).aside

end Cycle

/-- A cycle with one goroutine at a time takes no more events than the cap, at any moment, however
its requests are answered: pages are no longer than asked for, a cancelled context gets none, and
the tip does not fall back. -/
theorem sequential_sweep_within_cap (ing : Ingester) (fuel start : Nat)
    (batches : List (List Rpc.EventFilter)) (t : Tally) (ht : t.taken = 0)
    (hcap : 0 < ing.opts.maxEventsPerCycle)
    (hone : ing.opts.sweepConcurrency = 1 ∨ batches.length ≤ 1) :
    TakesAtMost ing ing.opts.maxEventsPerCycle (fun _ _ => True) (windowSweep ing fuel start batches)
        t ∧
      TakesAtMost ing ing.opts.maxEventsPerCycle (fun _ _ => True)
        (windowSweepWatched ing fuel batches) t := by
  have hbound : overdraft ing (min ing.opts.sweepConcurrency batches.length) =
      ing.opts.maxEventsPerCycle := by
    have hless : min ing.opts.sweepConcurrency batches.length - 1 = 0 := by omega
    rw [overdraft, hless, Nat.zero_mul, Nat.add_zero]
  cases hdry : ing.opts.dryRun with
  | true => exact ⟨takes_dry hdry _ ht, takes_dry hdry _ ht⟩
  | false =>
    have hglobal := takes_windowSweep hdry hcap fuel start batches ht
    have hwatched := takes_windowSweepWatched hdry hcap fuel batches ht
    rw [hbound] at hglobal hwatched
    exact ⟨hglobal, hwatched⟩

/-! ## Two goroutines -/

def cappedAtOne (goroutines : Nat) : Ingester :=
  new .verbatim false { Options.zero with maxEventsPerCycle := 1, sweepConcurrency := goroutines }

def Tally.start (ing : Ingester) : Tally := { mem := Memory.fresh ing, taken := 0, tip := 0 }

theorem sequential_sweep_within_cap_of_one :
    TakesAtMost (cappedAtOne 1) 1 (fun _ _ => True) (windowSweep (cappedAtOne 1) 40 1 [[], []])
        (Tally.start (cappedAtOne 1)) ∧
      TakesAtMost (cappedAtOne 1) 1 (fun _ _ => True) (windowSweepWatched (cappedAtOne 1) 40 [[], []])
        (Tally.start (cappedAtOne 1)) :=
  sequential_sweep_within_cap (cappedAtOne 1) 40 1 [[], []] (Tally.start (cappedAtOne 1)) rfl
    (by decide) (.inl rfl)

def onePageRPC : Unfailing where
  health := { latestLedger := 5, oldestLedger := 1 }
  latestLedger_lt := by decide
  oldestLedger_lt := by decide
  page req :=
    { events := [.sample "3-1" "C0" 3].take req.limit, latestLedger := 5, oldestLedger := 1,
      cursor := "" }
  archived := 0
  multiplier := 1
  now := 0

structure Overlap where
  node : Node .postgres
  taken : Nat
  tip : Nat
  turns : List Nat

def Overlap.tally (w : Overlap) : Tally := { mem := w.node.mem, taken := w.taken, tip := w.tip }

def overlapAnswer (ing : Ingester) : (o : Act) → Overlap → Ans o × Overlap
  | .schedule n, w => ((if w.turns.headD 0 < n then w.turns.headD 0 else 0 : Nat),
      { w with turns := w.turns.tail })
  | .getHealth, w => (.ok onePageRPC.health, { w with tip := onePageRPC.health.latestLedger })
  | .getEvents _ req, w =>
    if w.node.mem.sweep.canceled then (.error .canceled, w)
    else (.ok (onePageRPC.page req), { w with taken := w.taken + (onePageRPC.page req).events.length })
  | o, w => ((onePageRPC.answer ing o w.node).1, { w with node := (onePageRPC.answer ing o w.node).2 })

theorem overlapAnswer_step (o : Act) (w : Overlap) :
    (cycleSys (cappedAtOne 2)).step o w.tally (overlapAnswer (cappedAtOne 2) o w).1
      (overlapAnswer (cappedAtOne 2) o w).2.tally := by
  cases o with
  | schedule n =>
    refine ⟨⟨rfl, ?_⟩, trivial⟩
    dsimp only [overlapAnswer]
    split <;> omega
  | getHealth => exact ⟨rfl, .inl rfl⟩
  | getEvents site req =>
    cases hcanceled : w.node.mem.sweep.canceled with
    | true =>
      have heq : overlapAnswer (cappedAtOne 2) (.getEvents site req) w = (.error .canceled, w) :=
        if_pos hcanceled
      rw [heq]
      exact ⟨rfl, trivial⟩
    | false =>
      have heq : overlapAnswer (cappedAtOne 2) (.getEvents site req) w =
          (.ok (onePageRPC.page req),
            { w with taken := w.taken + (onePageRPC.page req).events.length }) :=
        if_neg (by rw [hcanceled]; exact Bool.false_ne_true)
      rw [heq]
      exact ⟨⟨length_take_le _ _, fun _ => hcanceled, rfl⟩, trivial⟩
  | getIngestionState =>
    refine ⟨rfl, ?_⟩
    dsimp only [overlapAnswer, Unfailing.answer]
    cases w.node.tables.getIngestionState (cappedAtOne 2).opts.network with
    | none => trivial
    | some st => exact .inl rfl
  | memory f => exact ⟨⟨rfl, rfl⟩, trivial⟩
  | _ => exact ⟨rfl, trivial⟩

/-- Two goroutines read the budget of one event before either has fetched its page: each of them
fetches one. -/
theorem two_goroutines_pass_cap :
    (cappedAtOne 2).opts.maxEventsPerCycle = 1 ∧
      ¬ TakesAtMost (cappedAtOne 2) 1 (fun _ _ => True) (windowSweep (cappedAtOne 2) 40 1 [[], []])
        (Tally.start (cappedAtOne 2)) := by
  refine ⟨rfl, ?_⟩
  intro h
  let w : Overlap :=
    { node := { tables := Tables.empty .postgres, mem := Memory.fresh (cappedAtOne 2) }, taken := 0,
      tip := 0, turns := [0, 1] }
  obtain ⟨hend, -⟩ := Sys.Safe.eval_see (w := w) overlapAnswer_step h
  have htaken : (Prog.eval (overlapAnswer (cappedAtOne 2))
      (windowSweep (cappedAtOne 2) 40 1 [[], []]) w).2.tally.taken = 2 := by decide +kernel
  omega

end SoroTrail.Ingest
