import Mathlib.Algebra.Order.BigOperators.Group.List
import Mathlib.Algebra.Order.Ring.Nat
import SoroTrail.Lib.Steps

/-!
# The connection pool budget

`PoolBudget` shares the database connections among the subsystems by counting
semaphores: one for all connections, one for everybody but the ingester and one
for each subsystem.  Any number of callers acquire and release permits; every
operation on a semaphore or a counter is one step and the steps of different
callers interleave freely.
-/

set_option autoImplicit false

namespace SoroTrail.Store.Pool

open Lib List Option Steps Function

inductive Subsystem where
  | ingester
  | apiRead
  | graphQL
  | subscription
  | maintenance
  deriving DecidableEq, Repr

inductive Tag where
  | known (sub : Subsystem)
  | other
  deriving DecidableEq, Repr

structure PoolBudgetConfig where
  totalConns : Int
  ingesterReserved : Int
  apiReadMax : Int
  graphQLMax : Int
  subscriptionMax : Int
  maintenanceMax : Int
  deriving DecidableEq, Repr

/-- What `NewPoolBudget` builds, as far as it concerns permits. -/
structure PoolBudget where
  totalConns : Nat
  ingesterReserved : Nat
  sharedCap : Nat
  limit : Subsystem → Nat
  reserved_pos : 0 < ingesterReserved
  shared_pos : 0 < sharedCap
  shared_add : sharedCap + ingesterReserved = totalConns
  limit_ingester : limit .ingester = totalConns

def defaultPoolMaxConns : Int := 20

def PoolBudgetConfig.total (cfg : PoolBudgetConfig) : Nat :=
  let total := if cfg.totalConns ≤ 0 then defaultPoolMaxConns else cfg.totalConns
  (if total < 2 then 2 else total).toNat

def PoolBudgetConfig.reserved (cfg : PoolBudgetConfig) : Nat :=
  let reserved : Int :=
    if cfg.ingesterReserved ≤ 0 then (max 2 (cfg.total * 25 / 100) : Nat) else cfg.ingesterReserved
  (if (cfg.total : Int) ≤ reserved then (cfg.total : Int) - 1 else reserved).toNat

def resolveCap (sharedCap : Nat) (explicit : Int) (default' : Nat) : Nat :=
  let v : Int := if explicit ≤ 0 then (max 1 default' : Nat) else explicit
  (if (sharedCap : Int) < v then (sharedCap : Int) else v).toNat

theorem PoolBudgetConfig.two_le_total (cfg : PoolBudgetConfig) : 2 ≤ cfg.total := by
  simp only [total, defaultPoolMaxConns]
  split <;> split <;> omega

theorem PoolBudgetConfig.reserved_bounds (cfg : PoolBudgetConfig) :
    0 < cfg.reserved ∧ cfg.reserved < cfg.total := by
  have htotal := cfg.two_le_total
  simp only [reserved]
  split <;> split <;> omega

def newPoolBudget (cfg : PoolBudgetConfig) : PoolBudget where
  totalConns := cfg.total
  ingesterReserved := cfg.reserved
  sharedCap := cfg.total - cfg.reserved
  limit
    | .ingester => cfg.total
    | .apiRead => resolveCap (cfg.total - cfg.reserved) cfg.apiReadMax (cfg.total * 50 / 100)
    | .graphQL => resolveCap (cfg.total - cfg.reserved) cfg.graphQLMax (cfg.total * 30 / 100)
    | .subscription =>
      resolveCap (cfg.total - cfg.reserved) cfg.subscriptionMax (cfg.total * 20 / 100)
    | .maintenance =>
      resolveCap (cfg.total - cfg.reserved) cfg.maintenanceMax (cfg.total * 15 / 100)
  reserved_pos := cfg.reserved_bounds.1
  shared_pos := Nat.sub_pos_of_lt cfg.reserved_bounds.2
  shared_add := Nat.sub_add_cancel (Nat.le_of_lt cfg.reserved_bounds.2)
  limit_ingester := rfl

/-! ## Semaphores -/

inductive Sem where
  | total
  | shared
  | sub (s : Subsystem)
  deriving DecidableEq, Repr

def PoolBudget.cap (b : PoolBudget) : Sem → Nat
  | .total => b.totalConns
  | .shared => b.sharedCap
  | .sub s => b.limit s

structure Gauges where
  used : Sem → Nat
  inUse : Subsystem → Int
  totalInUse : Int
  sharedInUse : Int

def Gauges.zero : Gauges where
  used _ := 0
  inUse _ := 0
  totalInUse := 0
  sharedInUse := 0

def Gauges.hasRoom (b : PoolBudget) (g : Gauges) (sem : Sem) : Bool :=
  decide (g.used sem < b.cap sem)

def Gauges.take (g : Gauges) (sem : Sem) : Gauges :=
  { g with used := update g.used sem (g.used sem + 1) }

inductive Op where
  | give (sem : Sem)
  | addInUse (sub : Subsystem) (n : Int)
  | addTotalInUse (n : Int)
  | addSharedInUse (n : Int)
  deriving DecidableEq, Repr

def Op.apply : Op → Gauges → Option Gauges
  | .give sem, g =>
    if g.used sem = 0 then none
    else some { g with used := update g.used sem (g.used sem - 1) }
  | .addInUse sub n, g => some { g with inUse := update g.inUse sub (g.inUse sub + n) }
  | .addTotalInUse n, g => some { g with totalInUse := g.totalInUse + n }
  | .addSharedInUse n, g => some { g with sharedInUse := g.sharedInUse + n }

/-! ## Callers -/

inductive Shortage where
  | subsystem
  | shared
  | total
  deriving DecidableEq, Repr

structure PoolBudgetExhaustedError where
  subsystem : Subsystem
  reason : String
  inUse : Int
  limit : Nat
  deriving DecidableEq, Repr

inductive Outcome where
  /-- The context holds a permit already: nothing is acquired and nothing released. -/
  | nested
  | canceled
  | rejected (err : PoolBudgetExhaustedError)
  | released
  deriving DecidableEq, Repr

inductive Next where
  | hold
  | cancel
  | reject (shortage : Shortage)
  | release
  deriving DecidableEq, Repr

inductive Phase where
  | entered
  /-- A `try` phase stands before a non-blocking send, a `wait` phase before the blocking one. -/
  | trySub
  | waitSub
  | tryShared
  | waitShared
  | tryTotal
  | waitTotal
  /-- `acquireIngester` takes its connection first. -/
  | tryIngester
  | waitIngester
  | fillIngester
  | performing (ops : List Op) (next : Next)
  | holding
  | returned (outcome : Outcome)
  deriving DecidableEq, Repr

structure Caller where
  sub : Subsystem
  phase : Phase
  deriving DecidableEq, Repr

def Caller.finishOps (c : Caller) : List Op :=
  if c.sub = .ingester then [.addInUse c.sub 1, .addTotalInUse 1]
  else [.addInUse c.sub 1, .addTotalInUse 1, .addSharedInUse 1]

/-- The function `finishAcquire` returns: the shared slot is given back first. -/
def Caller.releaseOps (c : Caller) : List Op :=
  if c.sub = .ingester then
    [.addInUse c.sub (-1), .addTotalInUse (-1), .give (.sub c.sub), .give .total]
  else
    [.addSharedInUse (-1), .give .shared, .addInUse c.sub (-1), .addTotalInUse (-1),
      .give (.sub c.sub), .give .total]

def Shortage.error (b : PoolBudget) (g : Gauges) (sub : Subsystem) :
    Shortage → PoolBudgetExhaustedError
  | .subsystem =>
    { subsystem := sub, reason := "subsystem_cap", inUse := g.inUse sub, limit := b.limit sub }
  | .shared =>
    { subsystem := sub, reason := "shared_cap", inUse := g.sharedInUse, limit := b.sharedCap }
  | .total =>
    { subsystem := sub, reason := "shared_cap", inUse := g.totalInUse, limit := b.totalConns }

def Next.phase (b : PoolBudget) (g : Gauges) (sub : Subsystem) : Next → Phase
  | .hold => .holding
  | .cancel => .returned .canceled
  | .reject shortage => .returned (.rejected (shortage.error b g sub))
  | .release => .returned .released

inductive Signal where
  | go
  | cancel
  | timeout
  | release
  deriving DecidableEq, Repr

def Caller.at (c : Caller) (phase : Phase) : Caller := { c with phase := phase }

def Caller.attempt (b : PoolBudget) (g : Gauges) (c : Caller) (sem : Sem) (taken wait : Phase) :
    Gauges × Caller :=
  if g.hasRoom b sem then (g.take sem, c.at taken) else (g, c.at wait)

def Caller.await (b : PoolBudget) (g : Gauges) (c : Caller) (sem : Sem) (taken : Phase) :
    Option (Gauges × Caller) :=
  if g.hasRoom b sem then some (g.take sem, c.at taken) else none

/-- The next step of one caller; `none` when it cannot make it. -/
def Caller.advance (b : PoolBudget) (g : Gauges) (c : Caller) :
    Signal → Option (Gauges × Caller)
  | .go =>
    match c.phase with
    | .entered => some (g, c.at .trySub)
    | .trySub => some (c.attempt b g (.sub c.sub) .tryShared .waitSub)
    | .waitSub => c.await b g (.sub c.sub) .tryShared
    | .tryShared => some (c.attempt b g .shared .tryTotal .waitShared)
    | .waitShared => c.await b g .shared .tryTotal
    | .tryTotal => some (c.attempt b g .total (.performing c.finishOps .hold) .waitTotal)
    | .waitTotal => c.await b g .total (.performing c.finishOps .hold)
    | .tryIngester => some (c.attempt b g .total .fillIngester .waitIngester)
    | .waitIngester => c.await b g .total .fillIngester
    | .fillIngester => c.await b g (.sub c.sub) (.performing c.finishOps .hold)
    | .performing (op :: ops) next => (op.apply g).map fun g' => (g', c.at (.performing ops next))
    | .performing [] next => some (g, c.at (next.phase b g c.sub))
    | .holding => none
    | .returned _ => none
  | .cancel =>
    match c.phase with
    | .entered => some (g, c.at (.returned .canceled))
    | .waitSub => some (g, c.at (.returned .canceled))
    | .waitShared => some (g, c.at (.performing [.give (.sub c.sub)] .cancel))
    | .waitTotal => some (g, c.at (.performing [.give .shared, .give (.sub c.sub)] .cancel))
    | .waitIngester => some (g, c.at (.returned .canceled))
    | _ => none
  | .timeout =>
    match c.phase with
    | .waitSub => some (g, c.at (.performing [] (.reject .subsystem)))
    -- no time is left when the shared semaphore is found full
    | .tryShared =>
      if g.hasRoom b .shared then none
      else some (g, c.at (.performing [.give (.sub c.sub)] (.reject .shared)))
    | .waitShared => some (g, c.at (.performing [.give (.sub c.sub)] (.reject .shared)))
    | .waitTotal =>
      some (g, c.at (.performing [.give .shared, .give (.sub c.sub)] (.reject .total)))
    | .waitIngester => some (g, c.at (.performing [] (.reject .subsystem)))
    | _ => none
  | .release =>
    match c.phase with
    | .holding => some (g, c.at (.performing c.releaseOps .release))
    -- the function does its work once
    | .returned .released => some (g, c)
    | .returned .nested => some (g, c)
    | _ => none

/-! ## The system -/

structure State where
  gauges : Gauges
  callers : List Caller

def State.init : State := ⟨.zero, []⟩

/-- The subsystem of the context goes before the argument; an unknown one counts as a read. -/
def trackerFor (ctxSub : Option Tag) (sub : Tag) : Subsystem :=
  match ctxSub.getD sub with
  | .known s => s
  | .other => .apiRead

/-- `Acquire`, up to its first operation on a semaphore. -/
def enter (existing : Bool) (ctxSub : Option Tag) (sub : Tag) : Caller :=
  let s := trackerFor ctxSub sub
  if existing then ⟨s, .returned .nested⟩
  else if s = .ingester then ⟨s, .tryIngester⟩
  else ⟨s, .entered⟩

inductive Move where
  | acquire (existing : Bool) (ctxSub : Option Tag) (sub : Tag)
  | signal (i : Nat) (sig : Signal)
  deriving DecidableEq, Repr

def step (b : PoolBudget) (s : State) : Move → Option State
  | .acquire existing ctxSub sub =>
    some { s with callers := s.callers ++ [enter existing ctxSub sub] }
  | .signal i sig =>
    match s.callers[i]? with
    | none => none
    | some c =>
      (c.advance b s.gauges sig).map fun r =>
        { gauges := r.1, callers := s.callers.set i r.2 }

/-! ## Slots held -/

def Caller.permit (c : Caller) : Sem → Nat
  | .total => 1
  | .shared => if c.sub = .ingester then 0 else 1
  | .sub s => if s = c.sub then 1 else 0

def Caller.holds (c : Caller) (sem : Sem) : Nat :=
  match c.phase with
  | .tryShared => if sem = .sub c.sub then 1 else 0
  | .waitShared => if sem = .sub c.sub then 1 else 0
  | .tryTotal => if sem = .sub c.sub ∨ sem = .shared then 1 else 0
  | .waitTotal => if sem = .sub c.sub ∨ sem = .shared then 1 else 0
  | .fillIngester => if sem = .total then 1 else 0
  | .performing ops .hold => ops.count (.give sem) + c.permit sem
  | .performing ops _ => ops.count (.give sem)
  | .holding => c.permit sem
  | _ => 0

def State.held (s : State) (who : Caller → Bool) (sem : Sem) : Nat :=
  (s.callers.map fun c => if who c then c.holds sem else 0).sum

def everyone (_ : Caller) : Bool := true

def nonIngester (c : Caller) : Bool := decide (c.sub ≠ .ingester)

def Caller.Placed (c : Caller) : Prop :=
  match c.phase with
  | .tryIngester => c.sub = .ingester
  | .waitIngester => c.sub = .ingester
  | .fillIngester => c.sub = .ingester
  | .entered => c.sub ≠ .ingester
  | .trySub => c.sub ≠ .ingester
  | .waitSub => c.sub ≠ .ingester
  | .tryShared => c.sub ≠ .ingester
  | .waitShared => c.sub ≠ .ingester
  | .tryTotal => c.sub ≠ .ingester
  | .waitTotal => c.sub ≠ .ingester
  | _ => True

@[simp] theorem Caller.at_phase (c : Caller) (phase : Phase) : (c.at phase).phase = phase := rfl

@[simp] theorem Caller.at_sub (c : Caller) (phase : Phase) : (c.at phase).sub = c.sub := rfl

@[simp] theorem Caller.permit_at (c : Caller) (phase : Phase) (sem : Sem) :
    (c.at phase).permit sem = c.permit sem := by
  cases sem <;> rfl

/-! ## What a step does -/

/-- One slot taken, one slot given back, or none; of the others only the last step of
`acquireNonIngester` takes a connection. -/
inductive Effect (b : PoolBudget) (g : Gauges) (c : Caller) (sig : Signal) (g' : Gauges) (c' : Caller) :
    Prop where
  | took (sem : Sem) (hroom : g.used sem < b.cap sem)
      (hused : g'.used = update g.used sem (g.used sem + 1))
      (hholds : ∀ x, c'.holds x = c.holds x + if x = sem then 1 else 0) (hgo : sig = .go)
      (hlast : sem = .total → c.sub = .ingester ∨ c.phase = .tryTotal ∨ c.phase = .waitTotal)
  | gave (sem : Sem) (hpos : g.used sem ≠ 0)
      (hused : g'.used = update g.used sem (g.used sem - 1))
      (hholds : ∀ x, c.holds x = c'.holds x + if x = sem then 1 else 0)
  | kept (hused : g'.used = g.used) (hholds : ∀ x, c'.holds x = c.holds x)

variable {b : PoolBudget} {c c' : Caller} {g g' : Gauges} {sem : Sem} {taken : Phase} {sig : Signal}
  {s : State}

theorem count_give (ops : List Op) (x y : Sem) :
    (Op.give y :: ops).count (.give x) = ops.count (.give x) + if x = y then 1 else 0 := by
  by_cases h : x = y
  · simp [h]
  · simp [h, Ne.symm h]

theorem finishOps_count (c : Caller) (sem : Sem) : c.finishOps.count (.give sem) = 0 := by
  unfold Caller.finishOps
  split <;> simp

theorem releaseOps_count (c : Caller) (sem : Sem) :
    c.releaseOps.count (.give sem) = c.permit sem := by
  unfold Caller.releaseOps
  split <;> cases sem <;> simp [Caller.permit, count_give, *]

theorem effect_take (hroom : g.hasRoom b sem = true)
    (hholds : ∀ x, (c.at taken).holds x = c.holds x + if x = sem then 1 else 0)
    (hlast : sem = .total → c.sub = .ingester ∨ c.phase = .tryTotal ∨ c.phase = .waitTotal) :
    Effect b g c .go (g.take sem) (c.at taken) :=
  .took sem (by simpa [Gauges.hasRoom] using hroom) rfl hholds rfl hlast

theorem effect_await (h : c.await b g sem taken = some (g', c'))
    (hplaced : (c.at taken).Placed := by simp [Caller.Placed, *])
    (hholds : ∀ x, (c.at taken).holds x = c.holds x + if x = sem then 1 else 0 := by
      intro x; cases x <;> simp [Caller.holds, Caller.permit, finishOps_count, *] <;> rfl)
    (hlast : sem = .total → c.sub = .ingester ∨ c.phase = .tryTotal ∨ c.phase = .waitTotal := by
      simp [*]) :
    c'.sub = c.sub ∧ c'.Placed ∧ Effect b g c .go g' c' := by
  unfold Caller.await at h
  split at h
  · rename_i hroom
    cases h
    exact ⟨rfl, hplaced, effect_take hroom hholds hlast⟩
  · cases h

theorem effect_attempt {wait : Phase} (h : c.attempt b g sem taken wait = (g', c'))
    (hplaced : (c.at taken).Placed ∧ (c.at wait).Placed := by simp [Caller.Placed, *])
    (hholds : ∀ x, (c.at taken).holds x = c.holds x + if x = sem then 1 else 0 := by
      intro x; cases x <;> simp [Caller.holds, Caller.permit, finishOps_count, *] <;> rfl)
    (hwait : ∀ x, (c.at wait).holds x = c.holds x := by intro x; simp [Caller.holds, *] <;> rfl)
    (hlast : sem = .total → c.sub = .ingester ∨ c.phase = .tryTotal ∨ c.phase = .waitTotal := by
      simp [*]) :
    c'.sub = c.sub ∧ c'.Placed ∧ Effect b g c .go g' c' := by
  unfold Caller.attempt at h
  split at h
  · rename_i hroom
    cases h
    exact ⟨rfl, hplaced.1, effect_take hroom hholds hlast⟩
  · cases h
    exact ⟨rfl, hplaced.2, .kept rfl hwait⟩

theorem effect_op {op : Op} {ops : List Op} {next : Next}
    (hphase : c.phase = .performing (op :: ops) next) (h : op.apply g = some g') :
    Effect b g c .go g' (c.at (.performing ops next)) := by
  have hcount : ∀ x, c.holds x = (c.at (.performing ops next)).holds x +
      if op = .give x then 1 else 0 := by
    cases next with
    | hold => simp [Caller.holds, hphase, count_cons]; omega
    | _ => simp [Caller.holds, hphase, count_cons]
  cases op with
  | give sem =>
    simp only [Op.apply] at h
    split at h
    · cases h
    · rename_i hpos
      cases h
      refine .gave sem hpos rfl ?_
      intro x
      simpa [eq_comm] using hcount x
  | addInUse sub n | addTotalInUse n | addSharedInUse n =>
    cases h
    exact .kept rfl fun x => (hcount x).symm

theorem go_effect (hplaced : c.Placed) (h : c.advance b g .go = some (g', c')) :
    c'.sub = c.sub ∧ c'.Placed ∧ Effect b g c .go g' c' := by
  simp only [Caller.advance] at h
  cases hphase : c.phase with
  | entered =>
    simp only [hphase, Option.some.injEq, Prod.mk.injEq, Caller.Placed] at h hplaced
    obtain ⟨rfl, rfl⟩ := h
    exact ⟨rfl, hplaced, .kept rfl fun x => by simp only [Caller.holds, hphase, Caller.at_phase]⟩
  | trySub | tryShared | tryTotal | tryIngester =>
    simp only [hphase, Option.some.injEq, Caller.Placed] at h hplaced
    exact effect_attempt h
  | waitSub | waitShared | waitTotal | waitIngester | fillIngester =>
    simp only [hphase, Caller.Placed] at h hplaced
    exact effect_await h
  | performing ops next =>
    cases ops with
    | nil =>
      simp only [hphase, Option.some.injEq, Prod.mk.injEq] at h
      obtain ⟨rfl, rfl⟩ := h
      cases next <;>
        exact ⟨rfl, trivial, .kept rfl fun x => by simp [Caller.holds, hphase, Next.phase]⟩
    | cons op ops =>
      simp only [hphase, map_eq_some_iff, Prod.mk.injEq] at h
      obtain ⟨g₁, hop, rfl, rfl⟩ := h
      exact ⟨rfl, trivial, effect_op hphase hop⟩
  | holding | returned outcome => simp [hphase] at h

theorem giveUp_effect {ops : List Op} {next : Next} (hnext : next ≠ .hold := by simp)
    (hcount : ∀ x, ops.count (.give x) = c.holds x := by
      intro x; cases x <;> simp [Caller.holds, count_give, releaseOps_count, *]) :
    Effect b g c sig g (c.at (.performing ops next)) := by
  refine .kept rfl fun x => ?_
  rw [← hcount x]
  cases next with
  | hold => exact absurd rfl hnext
  | _ => rfl

theorem advance_effect (hplaced : c.Placed) (h : c.advance b g sig = some (g', c')) :
    c'.sub = c.sub ∧ c'.Placed ∧ Effect b g c sig g' c' := by
  cases sig with simp only [Caller.advance] at h
  | go => exact go_effect hplaced h
  | cancel =>
    split at h <;> rename_i hphase <;> cases h
    case h_3 | h_4 => exact ⟨rfl, trivial, giveUp_effect⟩
    all_goals
      exact ⟨rfl, trivial, .kept rfl fun x => by simp only [Caller.holds, hphase, Caller.at_phase]⟩
  | timeout =>
    split at h <;> rename_i hphase
    case h_2 =>
      split at h <;> cases h
      exact ⟨rfl, trivial, giveUp_effect⟩
    all_goals
      cases h
      try exact ⟨rfl, trivial, giveUp_effect⟩
  | release =>
    split at h <;> rename_i hphase <;> cases h
    · exact ⟨rfl, trivial, giveUp_effect⟩
    · exact ⟨rfl, hplaced, .kept rfl fun _ => rfl⟩
    · exact ⟨rfl, hplaced, .kept rfl fun _ => rfl⟩

theorem Effect.used_add (h : Effect b g c sig g' c') {x : Sem} :
    g'.used x + c.holds x = g.used x + c'.holds x := by
  cases h with
  | took sem hroom hused hholds | gave sem hpos hused hholds =>
    rw [hused, hholds x, update_apply]
    split
    · subst_vars
      omega
    · omega
  | kept hused hholds => rw [hused, hholds x]

theorem Effect.le_cap (h : Effect b g c sig g' c') {x : Sem} (hle : g.used x ≤ b.cap x) :
    g'.used x ≤ b.cap x := by
  cases h with
  | took sem hroom hused hholds | gave sem hpos hused hholds =>
    rw [hused, update_apply]
    split
    · subst_vars
      omega
    · exact hle
  | kept hused hholds => rwa [hused]

/-! ## Every run -/

/-- The semaphores count the slots the callers hold and are never overfull. -/
structure Balanced (b : PoolBudget) (s : State) : Prop where
  placed : ∀ c ∈ s.callers, c.Placed
  used : ∀ sem, s.gauges.used sem = s.held everyone sem
  le_cap : ∀ sem, s.gauges.used sem ≤ b.cap sem

theorem held_append (s : State) (c : Caller) (who : Caller → Bool) (sem : Sem) :
    (State.mk s.gauges (s.callers ++ [c])).held who sem =
      s.held who sem + if who c then c.holds sem else 0 := by
  simp [State.held]

theorem held_set {i : Nat} (hget : s.callers[i]? = some c) (who : Caller → Bool) (sem : Sem) :
    (State.mk g (s.callers.set i c')).held who sem + (if who c then c.holds sem else 0) =
      s.held who sem + if who c' then c'.holds sem else 0 :=
  sum_map_set (fun c => if who c then c.holds sem else 0) hget

theorem enter_holds (existing : Bool) (ctxSub : Option Tag) (sub : Tag) (sem : Sem) :
    (enter existing ctxSub sub).holds sem = 0 := by
  simp only [enter]
  split
  · rfl
  · split <;> rfl

theorem enter_placed (existing : Bool) (ctxSub : Option Tag) (sub : Tag) :
    (enter existing ctxSub sub).Placed := by
  simp only [enter]
  split
  · trivial
  · split <;> assumption

theorem balanced_init (b : PoolBudget) : Balanced b .init where
  placed _ hc := nomatch hc
  used _ := rfl
  le_cap _ := Nat.zero_le _

theorem balanced_step {s' : State} {m : Move} (hs : Balanced b s) (h : step b s m = some s') :
    Balanced b s' := by
  cases m with
  | acquire existing ctxSub sub =>
    cases h
    refine ⟨?_, ?_, hs.le_cap⟩
    · exact forall_mem_append hs.placed (enter_placed existing ctxSub sub)
    · intro sem
      rw [held_append, enter_holds]
      simpa using hs.used sem
  | signal i sig =>
    simp only [step] at h
    cases hget : s.callers[i]? with
    | none => simp [hget] at h
    | some c =>
      simp only [hget, map_eq_some_iff] at h
      obtain ⟨⟨g', c'⟩, hadvance, rfl⟩ := h
      have hmem : c ∈ s.callers := mem_of_getElem? hget
      obtain ⟨_, hplaced, heffect⟩ := advance_effect (hs.placed c hmem) hadvance
      refine ⟨?_, ?_, ?_⟩
      · exact forall_mem_set hs.placed hplaced
      · intro sem
        have hused := hs.used sem
        have hsum := @held_set c c' g' s i hget everyone sem
        have hmoved := heffect.used_add (x := sem)
        simp only [everyone, if_true] at hsum
        show g'.used sem = (State.mk g' (s.callers.set i c')).held everyone sem
        omega
      · exact fun sem => heffect.le_cap (hs.le_cap sem)

/-! ## The floor of the ingester -/

/-- A release that has given back its shared slot and not its connection. -/
def Caller.halfReleased (c : Caller) : Bool :=
  nonIngester c && decide (c.holds .shared < c.holds .total)

/-- The next step takes a connection for somebody other than the ingester. -/
def Caller.takesTotal (b : PoolBudget) (g : Gauges) (c : Caller) : Bool :=
  nonIngester c && decide (c.phase = .tryTotal ∨ c.phase = .waitTotal) && g.hasRoom b .total

/-- Nobody but the ingester takes a connection while a release is half done. -/
def Settled (b : PoolBudget) (s : State) : Move → Prop
  | .acquire _ _ _ => True
  | .signal i sig =>
    sig = .go → ∀ c ∈ s.callers[i]?, c.takesTotal b s.gauges →
      ∀ other ∈ s.callers, ¬other.halfReleased

instance (b : PoolBudget) (s : State) (m : Move) : Decidable (Settled b s m) := by
  cases m <;> (dsimp only [Settled]; infer_instance)

/-- A caller other than the ingester holds at most as many connections after a step as before it,
or the step is the one `Settled` looks at. -/
theorem holds_total_advance (hplaced : c.Placed) (hsub : c.sub ≠ .ingester)
    (h : c.advance b g sig = some (g', c')) :
    c'.holds .total ≤ c.holds .total ∨
      (sig = .go ∧ c.takesTotal b g = true ∧ c'.holds .total = 1 ∧ c.holds .total = 0 ∧
        c.holds .shared = 1) := by
  obtain ⟨_, _, heffect⟩ := advance_effect hplaced h
  cases heffect with
  | took sem hroom hused hholds hgo hlast =>
    have htotal := hholds .total
    split at htotal
    · rename_i hsem
      have hphase := (hlast hsem.symm).resolve_left hsub
      have hzero : c.holds .total = 0 ∧ c.holds .shared = 1 := by
        rcases hphase with hphase | hphase <;> simp [Caller.holds, hphase]
      have htakes : c.takesTotal b g = true := by
        simp [Caller.takesTotal, nonIngester, hsub, hphase, Gauges.hasRoom, hsem, hroom]
      exact .inr ⟨hgo, htakes, by omega, hzero⟩
    · exact .inl (Nat.le_of_eq htotal)
  | gave sem hpos hused hholds =>
    have htotal := hholds .total
    omega
  | kept hused hholds => exact .inl (Nat.le_of_eq (hholds .total))

theorem held_mono {who : Caller → Bool} : s.held who sem ≤ s.held everyone sem := by
  refine sum_le_sum fun c _ => ?_
  simp only [everyone]
  split <;> simp

/-- While no release is half done, the connections of the others are bounded by their shared
slots, and a caller about to take one has the slot for it. -/
theorem held_total_lt (hmem : c ∈ s.callers) (hsub : c.sub ≠ .ingester)
    (htotal : c.holds .total = 0) (hshared : c.holds .shared = 1)
    (hsettled : ∀ other ∈ s.callers, ¬other.halfReleased) :
    s.held nonIngester .total < s.held nonIngester .shared := by
  refine sum_lt_sum _ _ ?_ ⟨c, hmem, ?_⟩
  · intro other hother
    have hnot := hsettled other hother
    simp only [Caller.halfReleased, Bool.and_eq_true, decide_eq_true_eq, not_and, not_lt] at hnot
    split
    · rename_i hnon
      exact hnot hnon
    · rfl
  · simp [nonIngester, hsub, htotal, hshared]

/-- The others hold no more connections than there are shared slots. -/
def Floor (b : PoolBudget) (s : State) : Prop :=
  s.held nonIngester .total ≤ b.sharedCap

theorem floor_step {s' : State} {m : Move} (hsettled : Settled b s m) (hs : Balanced b s)
    (hfloor : Floor b s) (h : step b s m = some s') : Floor b s' := by
  cases m with
  | acquire existing ctxSub sub =>
    cases h
    rw [Floor, held_append, enter_holds, ite_self]
    exact hfloor
  | signal i sig =>
    simp only [step] at h
    cases hget : s.callers[i]? with
    | none => simp [hget] at h
    | some c =>
      simp only [hget, map_eq_some_iff] at h
      obtain ⟨⟨g', c'⟩, hadvance, rfl⟩ := h
      have hmem : c ∈ s.callers := mem_of_getElem? hget
      have hplaced := hs.placed c hmem
      have hsub := (advance_effect hplaced hadvance).1
      have hheld := @held_set c c' g' s i hget nonIngester .total
      simp only [nonIngester, hsub] at hheld
      by_cases hingester : c.sub = .ingester
      · simp only [hingester, ne_eq, not_true_eq_false, decide_false] at hheld
        exact Nat.le_trans (Nat.le_of_eq hheld) hfloor
      · simp only [ne_eq, hingester, not_false_eq_true, decide_true, if_true] at hheld
        rcases holds_total_advance hplaced hingester hadvance with
          hle | ⟨rfl, htakes, hone, hzero, hshared⟩
        · have hbound : s.held nonIngester .total ≤ b.sharedCap := hfloor
          show (State.mk g' (s.callers.set i c')).held nonIngester .total ≤ b.sharedCap
          omega
        · have hlt := held_total_lt hmem hingester hzero hshared
            (hsettled rfl c (by simp [hget]) htakes)
          have hcap : s.held nonIngester .shared ≤ b.sharedCap := calc
            s.held nonIngester .shared ≤ s.held everyone .shared := held_mono
            _ = s.gauges.used .shared := (hs.used .shared).symm
            _ ≤ b.sharedCap := hs.le_cap .shared
          show (State.mk g' (s.callers.set i c')).held nonIngester .total ≤ b.sharedCap
          omega

/-- In every run of acquires and releases the semaphores hold what the callers hold, no limit is
passed and nothing is left behind; and the ingester keeps its floor as long as no other subsystem
takes a connection in the middle of a release. -/
theorem acquire_respects_budget (cfg : PoolBudgetConfig) (ms : List Move) (s : State)
    (hrun : Steps.run (step (newPoolBudget cfg)) .init ms = some s) :
    (∀ sub, s.held everyone (.sub sub) ≤ (newPoolBudget cfg).limit sub) ∧
      s.held everyone .total ≤ (newPoolBudget cfg).totalConns ∧
      (∀ sem, s.gauges.used sem = s.held everyone sem) ∧
      ((∀ c ∈ s.callers, ∃ outcome, c.phase = .returned outcome) → ∀ sem, s.gauges.used sem = 0) ∧
      (Steps.Along (step (newPoolBudget cfg)) (Settled (newPoolBudget cfg)) .init ms →
        s.held nonIngester .total ≤
          (newPoolBudget cfg).totalConns - (newPoolBudget cfg).ingesterReserved) := by
  have hbalanced : Balanced (newPoolBudget cfg) s :=
    run_keeps (fun _ _ _ => balanced_step) (balanced_init _) hrun
  have hle : ∀ sem, s.held everyone sem ≤ (newPoolBudget cfg).cap sem := fun sem =>
    hbalanced.used sem ▸ hbalanced.le_cap sem
  refine ⟨fun sub => hle (.sub sub), hle .total, hbalanced.used, ?_, ?_⟩
  · intro hreturned sem
    rw [hbalanced.used sem]
    refine sum_eq_zero fun n hn => ?_
    obtain ⟨c, hc, rfl⟩ := mem_map.mp hn
    obtain ⟨outcome, hphase⟩ := hreturned c hc
    simp [Caller.holds, hphase]
  · intro hsettled
    have hfloor := hsettled.invariant
      (I := fun s => Balanced (newPoolBudget cfg) s ∧ Floor (newPoolBudget cfg) s)
      (fun _ _ _ hsettled hs h =>
        ⟨balanced_step hs.1 h, floor_step hsettled hs.1 hs.2 h⟩)
      ⟨balanced_init _, Nat.zero_le _⟩ hrun
    exact hfloor.2

def pairConfig : PoolBudgetConfig :=
  { totalConns := 2, ingesterReserved := 1, apiReadMax := 1, graphQLMax := 1, subscriptionMax := 1
    maintenanceMax := 1 }

def granted (i : Nat) : List Move := List.replicate 8 (.signal i .go)

/-- A read acquires and releases, and only then a query acquires. -/
def inTurn : List Move :=
  .acquire false none (.known .apiRead) :: granted 0 ++
    .signal 0 .release :: List.replicate 7 (.signal 0 .go) ++
    .acquire false none (.known .graphQL) :: granted 1

/-- A query acquires when the read has given back its shared slot and nothing else. -/
def overtaking : List Move :=
  .acquire false none (.known .apiRead) :: granted 0 ++
    .signal 0 .release :: List.replicate 2 (.signal 0 .go) ++
    .acquire false none (.known .graphQL) :: granted 1

theorem acquire_respects_budget_inTurn :
    ∃ s, Steps.run (step (newPoolBudget pairConfig)) .init inTurn = some s ∧
      s.held nonIngester .total = 1 ∧
      s.held nonIngester .total ≤
        (newPoolBudget pairConfig).totalConns - (newPoolBudget pairConfig).ingesterReserved := by
  refine ⟨_, rfl, by decide, ?_⟩
  exact (acquire_respects_budget pairConfig inTurn _ rfl).2.2.2.2
    (Steps.Along.of_check (by decide))

/-- The floor is lost: both connections are held by others than the ingester. -/
theorem overtaking_release_takes_floor :
    ∃ s, Steps.run (step (newPoolBudget pairConfig)) .init overtaking = some s ∧
      s.held nonIngester .total = 2 ∧
      (newPoolBudget pairConfig).totalConns - (newPoolBudget pairConfig).ingesterReserved = 1 := by
  exact ⟨_, rfl, by decide, by decide⟩

/-! ## Progress -/

/-- The semaphore that a blocked caller stands at. -/
def Caller.awaits (c : Caller) : Option Sem :=
  match c.phase with
  | .waitSub | .fillIngester => some (.sub c.sub)
  | .waitShared => some .shared
  | .waitTotal | .waitIngester => some .total
  | _ => none

/-- The order in which every caller takes its slots. -/
def Sem.rank : Sem → Nat
  | .sub .ingester => 3
  | .total => 2
  | .shared => 1
  | .sub _ => 0

theorem rank_lt_of_awaits (hplaced : c.Placed) {x y : Sem} (hx : x ∈ c.awaits) (hy : 0 < c.holds y) :
    y.rank < x.rank := by
  have hfirst (hsub : c.sub ≠ .ingester) : (Sem.sub c.sub).rank = 0 := by
    cases h : c.sub <;> first | rfl | exact absurd h hsub
  unfold Caller.Placed at hplaced
  cases hphase : c.phase <;>
    simp [Caller.awaits, Caller.holds, hphase, Nat.pos_iff_ne_zero] at hplaced hx hy
  case waitShared =>
    rw [← hx, hy, hfirst hplaced]
    decide
  case waitTotal =>
    subst hx
    obtain rfl | rfl := or_iff_not_imp_left.mpr hy
    · rw [hfirst hplaced]
      decide
    · decide
  case fillIngester =>
    rw [← hx, hy, hplaced]
    decide

theorem cap_pos (cfg : PoolBudgetConfig) (sem : Sem) : 0 < (newPoolBudget cfg).cap sem := by
  have hshared : 0 < cfg.total - cfg.reserved := (newPoolBudget cfg).shared_pos
  have htotal : 0 < cfg.total := by omega
  cases sem with
  | total => exact htotal
  | shared => exact hshared
  | sub sub =>
    cases sub with
    | ingester => exact htotal
    | _ =>
      simp only [PoolBudget.cap, newPoolBudget, resolveCap]
      split <;> split <;> omega

/-- A caller that cannot go on stands at a full semaphore, has its connection or has returned. -/
theorem stuck_cases (hs : Balanced b s) (hc : c ∈ s.callers) (h : c.advance b s.gauges .go = none) :
    (∃ sem ∈ c.awaits, b.cap sem ≤ s.held everyone sem) ∨ c.phase = .holding ∨
      ∃ outcome, c.phase = .returned outcome := by
  have hfull : ∀ {sem taken}, c.await b s.gauges sem taken = none →
      b.cap sem ≤ s.held everyone sem := by
    intro sem taken hawait
    rw [← hs.used sem]
    simpa [Caller.await, Gauges.hasRoom] using hawait
  simp only [Caller.advance] at h
  cases hphase : c.phase <;> simp only [hphase, reduceCtorEq] at h
  case waitSub | waitShared | waitTotal | waitIngester | fillIngester =>
    exact .inl ⟨_, by simp [Caller.awaits, hphase], hfull h⟩
  case performing ops next =>
    cases ops with
    | nil => cases h
    | cons op ops =>
      cases op with
      | give sem =>
        -- a slot that is about to be given back is one that is held
        have hused : s.held everyone sem = 0 := by simpa [Op.apply, hs.used sem] using h
        have hholds : 0 < c.holds sem := by cases next <;> simp [Caller.holds, hphase]
        have hnone := sum_eq_zero_iff.mp hused _ (mem_map_of_mem hc)
        exact absurd hnone (Nat.ne_of_gt hholds)
      | _ => cases h
  case holding => exact .inr (.inl rfl)
  case returned outcome => exact .inr (.inr ⟨outcome, rfl⟩)

/-- In no run do callers wait for each other: when nobody has a connection and nobody can go on,
everybody has returned. -/
theorem acquire_never_deadlocks (cfg : PoolBudgetConfig) (ms : List Move) (s : State)
    (hrun : Steps.run (step (newPoolBudget cfg)) .init ms = some s)
    (hfree : ∀ c ∈ s.callers, c.phase ≠ .holding)
    (hstuck : ∀ i, step (newPoolBudget cfg) s (.signal i .go) = none) :
    ∀ c ∈ s.callers, ∃ outcome, c.phase = .returned outcome := by
  have hs : Balanced (newPoolBudget cfg) s :=
    run_keeps (fun _ _ _ => balanced_step) (balanced_init _) hrun
  have hcases : ∀ c ∈ s.callers, (∃ sem ∈ c.awaits, 0 < s.held everyone sem) ∨
      ∃ outcome, c.phase = .returned outcome := by
    intro c hc
    obtain ⟨i, hget⟩ := getElem?_of_mem hc
    have hgo : c.advance (newPoolBudget cfg) s.gauges .go = none := by
      simpa [step, hget] using hstuck i
    obtain ⟨sem, hsem, hle⟩ | hhold | hreturned := stuck_cases hs hc hgo
    · exact .inl ⟨sem, hsem, (cap_pos cfg sem).trans_le hle⟩
    · exact absurd hhold (hfree c hc)
    · exact .inr hreturned
  -- whoever holds what is awaited awaits something further on in the order
  have hzero : ∀ k (sem : Sem), 3 < sem.rank + k → ¬0 < s.held everyone sem := by
    intro k
    induction k with
    | zero =>
      intro sem hrank
      unfold Sem.rank at hrank
      split at hrank <;> omega
    | succ k ih =>
      intro sem hrank hheld
      obtain ⟨n, hn, hholds⟩ := exists_mem_ne_zero_of_sum_ne_zero (Nat.ne_of_gt hheld)
      obtain ⟨d, hd, rfl⟩ := mem_map.mp hn
      obtain ⟨next, hnext, hpos⟩ | ⟨outcome, hphase⟩ := hcases d hd
      · have hlt := rank_lt_of_awaits (hs.placed d hd) hnext (Nat.pos_of_ne_zero hholds)
        exact ih next (by omega) hpos
      · simp [Caller.holds, hphase] at hholds
  intro c hc
  exact (hcases c hc).resolve_left fun ⟨sem, _, hpos⟩ => hzero 4 sem (by omega) hpos

def oneRead : List Move :=
  .acquire false none (.known .apiRead) :: granted 0 ++
    .signal 0 .release :: List.replicate 7 (.signal 0 .go)

theorem acquire_never_deadlocks_oneRead :
    ∃ s, Steps.run (step (newPoolBudget pairConfig)) .init oneRead = some s ∧
      ∀ c ∈ s.callers, ∃ outcome, c.phase = .returned outcome := by
  refine ⟨_, rfl, acquire_never_deadlocks pairConfig oneRead _ rfl (by decide) fun i => ?_⟩
  cases i <;> rfl

end SoroTrail.Store.Pool
