import SoroTrail.Lib.Steps

/-!
# Circuit breakers

A breaker admits calls while it is closed and refuses them while it is open; after a
pause it lets one call through as a probe.  A breaker whose calls report in time, the
probe in the period it was let through for and the others while nothing depends on
them, changes only as a breaker may and has one probe under way at most.
-/

set_option autoImplicit false

namespace SoroTrail.Lib.Breaker

open Steps

inductive Circuit where
  | closed
  | opened
  | halfOpen
  deriving DecidableEq, Repr

inductive Circuit.Becomes : Circuit → Circuit → Prop where
  | trip : Becomes .closed .opened
  | probe : Becomes .opened .halfOpen
  | recover : Becomes .halfOpen .closed
  | relapse : Becomes .halfOpen .opened

/-- A call that is over or was refused, one admitted by a closed breaker, or the probe of a
half-open period. -/
inductive Call where
  | over
  | plain
  | probe (period : Nat)
  deriving DecidableEq, Repr

/-- What is seen of a breaker and its callers. -/
structure View where
  circuit : Circuit
  period : Nat
  calls : List Call

variable {v v' : View} {report : Option (Nat × Bool)}

/-- What a move does when calls report in time; `report` is the call that reports, and how it
ended. -/
inductive Step (v : View) : Option (Nat × Bool) → View → Prop where
  | refuse : Step v none { v with calls := v.calls ++ [.over] }
  | pass : v.circuit = .closed → Step v none { v with calls := v.calls ++ [.plain] }
  | probe : v.circuit = .opened →
      Step v none ⟨.halfOpen, v.period + 1, v.calls ++ [.probe (v.period + 1)]⟩
  | plain (i : Nat) (ok : Bool) (c : Circuit) : v.calls[i]? = some .plain →
      c = v.circuit ∨ v.circuit = .closed ∧ c = .opened →
      Step v (some (i, ok)) ⟨c, v.period, v.calls.set i .over⟩
  | settle (i p : Nat) (ok : Bool) : v.calls[i]? = some (.probe p) → v.circuit = .halfOpen →
      Step v (some (i, ok)) ⟨if ok then .closed else .opened, v.period, v.calls.set i .over⟩

/-- Probes are under way in their own period only, and one at a time. -/
structure Inv (v : View) : Prop where
  current : ∀ i p : Nat, v.calls[i]? = some (.probe p) → v.circuit = .halfOpen ∧ p = v.period
  one : ∀ i j p q : Nat, v.calls[i]? = some (.probe p) → v.calls[j]? = some (.probe q) → i = j

/-- A move as a breaker may make it. -/
structure Lawful (v : View) (report : Option (Nat × Bool)) (v' : View) : Prop where
  becomes : v'.circuit = v.circuit ∨ v.circuit.Becomes v'.circuit
  one : ∀ i j p q : Nat, v'.calls[i]? = some (.probe p) → v'.calls[j]? = some (.probe q) → i = j
  closes : v.circuit ≠ .closed → v'.circuit = .closed →
    ∃ i : Nat, report = some (i, true) ∧ v.calls[i]? = some (.probe v.period)

theorem Inv.init (c : Circuit) (n : Nat) : Inv ⟨c, n, []⟩ := ⟨by simp, by simp⟩

theorem Inv.of_calls (h : Inv v) {c : Circuit} {calls : List Call}
    (hsub : ∀ i p : Nat, calls[i]? = some (.probe p) → v.calls[i]? = some (.probe p))
    (hc : (∃ i p : Nat, calls[i]? = some (.probe p)) → c = v.circuit) : Inv ⟨c, v.period, calls⟩ where
  current i p hp := by
    rw [hc ⟨i, p, hp⟩]
    exact h.current i p (hsub i p hp)
  one i j p q hp hq := h.one i j p q (hsub i p hp) (hsub j q hq)

theorem Step.keeps (h : Step v report v') (hv : Inv v) : Inv v' := by
  have hset : ∀ i j p : Nat, (v.calls.set i Call.over)[j]? = some (.probe p) →
      j ≠ i ∧ v.calls[j]? = some (.probe p) := by
    intro i j p hp
    rcases getElem?_set_cases hp with ⟨_, heq⟩ | hp
    · cases heq
    · exact hp
  cases h with
  | refuse =>
    refine hv.of_calls (fun i p hp => ?_) fun _ => rfl
    exact (getElem?_append_cases hp).resolve_left (by simp)
  | pass hclosed =>
    refine hv.of_calls (fun i p hp => ?_) fun _ => rfl
    exact (getElem?_append_cases hp).resolve_left (by simp)
  | probe hopen =>
    -- no probe is under way outside a half-open period
    have hnone : ∀ i p : Nat, v.calls[i]? ≠ some (.probe p) := fun i p hp => by
      have hhalf := (hv.current i p hp).1
      rw [hopen] at hhalf
      cases hhalf
    have hlast : ∀ i p : Nat, (v.calls ++ [Call.probe (v.period + 1)])[i]? = some (.probe p) →
        i = v.calls.length ∧ p = v.period + 1 := by
      intro i p hp
      rcases getElem?_append_cases hp with ⟨hi, heq⟩ | hp
      · exact ⟨hi, by simpa using heq⟩
      · exact absurd hp (hnone i p)
    exact ⟨fun i p hp => ⟨rfl, (hlast i p hp).2⟩,
      fun i j p q hp hq => (hlast i p hp).1.trans (hlast j q hq).1.symm⟩
  | plain i ok c hi hc =>
    refine hv.of_calls (fun j p hp => (hset i j p hp).2) ?_
    rintro ⟨j, p, hp⟩
    have hhalf := (hv.current j p (hset i j p hp).2).1
    refine hc.resolve_right fun hclosed => ?_
    rw [hhalf] at hclosed
    cases hclosed.1
  | settle i p ok hi hhalf =>
    -- the probe that settles was the only one
    refine hv.of_calls (fun j q hq => (hset i j q hq).2) ?_
    rintro ⟨j, q, hq⟩
    obtain ⟨hne, hq⟩ := hset i j q hq
    exact absurd (hv.one j i q p hq hi) hne

theorem Step.lawful (h : Step v report v') (hv : Inv v) : Lawful v report v' := by
  refine ⟨?_, (h.keeps hv).one, fun hopen hclosed => ?_⟩
  · cases h with
    | refuse => exact .inl rfl
    | pass _ => exact .inl rfl
    | probe hopen => exact .inr (hopen ▸ .probe)
    | plain _ _ c _ hc =>
      rcases hc with hc | ⟨hclosed, rfl⟩
      · exact .inl hc
      · exact .inr (hclosed ▸ .trip)
    | settle _ _ ok _ hhalf =>
      right
      cases ok
      · exact hhalf ▸ .relapse
      · exact hhalf ▸ .recover
  · cases h with
    | refuse => exact absurd hclosed hopen
    | pass hc => exact absurd hc hopen
    | probe _ => cases hclosed
    | plain _ _ c _ hc =>
      rcases hc with hc | ⟨hc, _⟩
      · exact absurd (hc.symm.trans hclosed) hopen
      · exact absurd hc hopen
    | settle i p ok hi hhalf =>
      cases ok with
      | false => cases hclosed
      | true => exact ⟨i, rfl, (hv.current i p hi).2 ▸ hi⟩

end SoroTrail.Lib.Breaker
