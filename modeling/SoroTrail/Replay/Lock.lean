import SoroTrail.Lib.Steps

/-!
# The replay lock

`AcquireReplayLock` takes a connection of its process's pool and asks for the advisory
lock of that session; `Release` gives the connection back to the pool.  Nothing unlocks,
so the session keeps the lock, and only a call that gets the same connection is granted it.
-/

set_option autoImplicit false

namespace SoroTrail.Replay.Lock

open Lib

/-- A connection of a process's pool, one session as long as it is open. -/
structure Conn where
  process : Nat
  slot : Nat
  deriving DecidableEq

/-- The advisory lock under `ReplayAdvisoryLockKey`: its session, and how often that took it. -/
abbrev AdvisoryLock := Option (Conn × Nat)

/-- Postgres' `pg_try_advisory_lock`, re-entrant for the session that has the lock. -/
def pgTryAdvisoryLock : AdvisoryLock → Conn → Bool × AdvisoryLock
  | none, conn => (true, some (conn, 1))
  | some (owner, n), conn =>
    if owner = conn then (true, some (owner, n + 1)) else (false, some (owner, n))

inductive AcquireError where
  | errReplayLocked
  deriving DecidableEq

structure State where
  sessions : List Conn
  lock : AdvisoryLock
  /-- The connections under a `pgReplayLock` that is not released. -/
  holders : List Conn
  /-- The open sessions that a `pgReplayLock` has been on. -/
  carried : List Conn

def State.init : State := ⟨[], none, [], []⟩

/-- `AcquireReplayLock`, when the pool hands out `conn`. -/
def acquireReplayLock (s : State) (conn : Conn) : State × Except AcquireError Conn :=
  match pgTryAdvisoryLock s.lock conn with
  | (false, lock) => ({ s with lock }, .error .errReplayLocked)
  | (true, lock) =>
    ({ s with lock, holders := conn :: s.holders, carried := conn :: s.carried }, .ok conn)

def release (s : State) (conn : Conn) : State := { s with holders := s.holders.erase conn }

def close (s : State) (conn : Conn) : State where
  sessions := s.sessions.filter (· ≠ conn)
  lock := s.lock.filter (·.1 ≠ conn)
  holders := s.holders.filter (· ≠ conn)
  carried := s.carried.filter (· ≠ conn)

inductive Move where
  | connect (conn : Conn)
  | acquire (conn : Conn)
  | release (conn : Conn)
  | close (conn : Conn)

/-- One move of the processes, the pool of process `p` having `pools p` connections. -/
def step (pools : Nat → Nat) (s : State) : Move → Option State
  | .connect c =>
    if c ∉ s.sessions ∧ c.slot < pools c.process then some { s with sessions := c :: s.sessions }
    else none
  -- the pool hands out an open connection that nobody has
  | .acquire c => if c ∈ s.sessions ∧ c ∉ s.holders then some (acquireReplayLock s c).1 else none
  | .release c => some (release s c)
  | .close c => some (close s c)

def Granted (s : State) : Move → Prop
  | .acquire c => s.holders = [] → (acquireReplayLock s c).2 = .ok c
  | _ => True

/-- A call made while no lock is held gets the one open connection that had the lock, or none is open. -/
def SameSession (s : State) : Move → Prop
  | .acquire c => s.holders = [] → ∀ c' ∈ s.carried, c' = c
  | _ => True

/-- The session with the advisory lock is the one that `pgReplayLock`s have been on. -/
def Inv (s : State) : Prop :=
  match s.lock with
  | none => s.carried = [] ∧ s.holders = []
  | some (owner, _) =>
    owner ∈ s.carried ∧ (∀ c ∈ s.carried, c = owner) ∧ (s.holders = [] ∨ s.holders = [owner])

variable {pools : Nat → Nat} {s s' : State}

theorem inv_acquire {c : Conn} (h : Inv s) (hidle : c ∉ s.holders) :
    Inv (acquireReplayLock s c).1 := by
  obtain ⟨sessions, lock, holders, carried⟩ := s
  cases lock with
  | none =>
    obtain ⟨rfl, rfl⟩ : carried = [] ∧ holders = [] := h
    simp [Inv, acquireReplayLock, pgTryAdvisoryLock]
  | some lock =>
    obtain ⟨owner, n⟩ := lock
    obtain ⟨hmem, hall, hholders⟩ := h
    by_cases hc : owner = c
    · subst hc
      -- the pool does not hand out a held connection, so nobody holds the lock
      have hnone : holders = [] := hholders.resolve_right (by rintro rfl; simp at hidle)
      subst hnone
      simpa [Inv, acquireReplayLock, pgTryAdvisoryLock] using hall
    · simpa [acquireReplayLock, pgTryAdvisoryLock, hc] using ⟨hmem, hall, hholders⟩

theorem inv_release {c : Conn} (h : Inv s) : Inv (release s c) := by
  obtain ⟨sessions, lock, holders, carried⟩ := s
  cases lock with
  | none =>
    obtain ⟨rfl, rfl⟩ : carried = [] ∧ holders = [] := h
    exact ⟨rfl, rfl⟩
  | some lock =>
    obtain ⟨hmem, hall, rfl | rfl⟩ := h
    · exact ⟨hmem, hall, .inl rfl⟩
    · refine ⟨hmem, hall, ?_⟩
      by_cases hc : lock.1 = c <;> simp [release, hc]

theorem inv_close {c : Conn} (h : Inv s) : Inv (close s c) := by
  obtain ⟨sessions, lock, holders, carried⟩ := s
  cases lock with
  | none =>
    obtain ⟨rfl, rfl⟩ : carried = [] ∧ holders = [] := h
    exact ⟨rfl, rfl⟩
  | some lock =>
    obtain ⟨owner, n⟩ := lock
    obtain ⟨hmem, hall, hholders⟩ := h
    by_cases hc : owner = c
    · subst hc
      have hcarried : carried.filter (· ≠ owner) = [] := by simpa using hall
      have hnone : holders.filter (· ≠ owner) = [] := by
        rcases hholders with rfl | rfl <;> simp
      simp only [Inv, close, Option.filter, ne_eq, not_true, decide_false]
      exact ⟨hcarried, hnone⟩
    · have hkept : holders.filter (· ≠ c) = holders := by
        rcases hholders with rfl | rfl <;> simp [hc]
      simp only [Inv, close, Option.filter, ne_eq, hc, not_false_eq_true, decide_true]
      refine ⟨List.mem_filter.mpr ⟨hmem, by simpa using hc⟩, ?_, ?_⟩
      · exact fun c' hc' => hall c' (List.mem_of_mem_filter hc')
      · exact hkept.symm ▸ hholders

theorem inv_step {m : Move} (h : Inv s) (hstep : step pools s m = some s') : Inv s' := by
  cases m with
  | connect c =>
    simp only [step] at hstep
    split at hstep
    · cases hstep
      exact h
    · cases hstep
  | acquire c =>
    simp only [step] at hstep
    split at hstep
    · rename_i hc
      cases hstep
      exact inv_acquire h hc.2
    · cases hstep
  | release c =>
    cases hstep
    exact inv_release h
  | close c =>
    cases hstep
    exact inv_close h

theorem Inv.holders_le (h : Inv s) : s.holders.length ≤ 1 := by
  unfold Inv at h
  split at h
  · simp [h.2]
  · rcases h.2.2 with hnone | hone
    · simp [hnone]
    · simp [hone]

theorem Inv.granted_iff (h : Inv s) (m : Move) : Granted s m ↔ SameSession s m := by
  cases m with
  | acquire c =>
    refine imp_congr_right fun _ => ?_
    unfold Inv at h
    split at h
    · rename_i hlock
      simp [acquireReplayLock, pgTryAdvisoryLock, hlock, h.1]
    · rename_i owner n hlock
      by_cases hc : owner = c
      · subst hc
        simpa [acquireReplayLock, pgTryAdvisoryLock, hlock] using h.2.1
      · have hother : ¬ ∀ c' ∈ s.carried, c' = c := fun hall => hc (hall owner h.1)
        simp [acquireReplayLock, pgTryAdvisoryLock, hlock, hc, hother]
  | _ => exact Iff.rfl

/-- The lock is exclusive; it is there for the next caller only if that gets the session it was left on. -/
theorem replay_lock_exclusive_returned_iff (pools : Nat → Nat) (ms : List Move) :
    (∀ s, Steps.run (step pools) State.init ms = some s → s.holders.length ≤ 1) ∧
    (Steps.Along (step pools) Granted State.init ms ↔
      Steps.Along (step pools) SameSession State.init ms) := by
  have hinit : Inv State.init := ⟨rfl, rfl⟩
  constructor
  · intro s hrun
    exact (Steps.run_keeps (fun _ _ _ => inv_step) hinit hrun).holders_le
  · exact Steps.along_congr (fun _ _ _ => inv_step) (fun _ m h => h.granted_iff m) hinit

/-- One process with two connections: the lock is released, and the next caller is refused. -/
theorem released_replay_lock_refused :
    ∃ s, Steps.run (step fun _ => 2) State.init
        [.connect ⟨0, 0⟩, .connect ⟨0, 1⟩, .acquire ⟨0, 0⟩, .release ⟨0, 0⟩] = some s ∧
      s.holders = [] ∧ (acquireReplayLock s ⟨0, 1⟩).2 = .error .errReplayLocked :=
  ⟨_, rfl, rfl, rfl⟩

end SoroTrail.Replay.Lock
