import Mathlib.Algebra.GroupWithZero.Nat
import Mathlib.Data.List.Basic

/-!
# Runs of a transition system

A system is a partial step function on its states.  A move that is not enabled
ends the run without a state, so a statement about `run s ms = some s'` speaks
about the runs in which every move was made.
-/

set_option autoImplicit false

namespace SoroTrail.Lib.Steps

open List

variable {S M : Type}

def run (step : S → M → Option S) : S → List M → Option S
  | s, [] => some s
  | s, m :: ms =>
    match step s m with
    | some s' => run step s' ms
    | none => none

/-- `P` holds of every move of the run, in the state it is made from. -/
def Along (step : S → M → Option S) (P : S → M → Prop) : S → List M → Prop
  | _, [] => True
  | s, m :: ms => P s m ∧ ∀ s', step s m = some s' → Along step P s' ms

def check (step : S → M → Option S) (P : S → M → Prop) [∀ s m, Decidable (P s m)] :
    S → List M → Bool
  | _, [] => true
  | s, m :: ms =>
    decide (P s m) &&
      match step s m with
      | some s' => check step P s' ms
      | none => true

variable {step : S → M → Option S} {P : S → M → Prop} {I : S → Prop}

variable {ms : List M} {s : S}

theorem run_cons {m : M} {s' : S} :
    run step s (m :: ms) = some s' ↔ ∃ t, step s m = some t ∧ run step t ms = some s' := by
  rw [run]
  cases step s m <;> simp

theorem Along.of_check [∀ s m, Decidable (P s m)] (h : check step P s ms = true) :
    Along step P s ms := by
  induction ms generalizing s with
  | nil => trivial
  | cons m ms ih =>
    simp only [check, Bool.and_eq_true, decide_eq_true_eq] at h
    refine ⟨h.1, fun s' hs' => ih ?_⟩
    have hrest := h.2
    rw [hs'] at hrest
    exact hrest

theorem along_true (s : S) (ms : List M) : Along step (fun _ _ => True) s ms := by
  induction ms generalizing s with
  | nil => trivial
  | cons m ms ih => exact ⟨trivial, fun s' _ => ih s'⟩

/-- What every allowed move keeps, every run of allowed moves keeps. -/
theorem Along.invariant (hstep : ∀ s m s', P s m → I s → step s m = some s' → I s') {s' : S}
    (halong : Along step P s ms) (hs : I s) (hrun : run step s ms = some s') : I s' := by
  induction ms generalizing s with
  | nil =>
    simp only [run, Option.some.injEq] at hrun
    rwa [← hrun]
  | cons m ms ih =>
    obtain ⟨t, hnext, hrun⟩ := run_cons.mp hrun
    exact ih (halong.2 t hnext) (hstep s m t halong.1 hs hnext) hrun

theorem Along.rest {s' : S} {ms' : List M} (halong : Along step P s (ms ++ ms'))
    (hrun : run step s ms = some s') : Along step P s ms ∧ Along step P s' ms' := by
  induction ms generalizing s with
  | nil =>
    simp only [run, Option.some.injEq] at hrun
    exact ⟨trivial, hrun ▸ halong⟩
  | cons m ms ih =>
    obtain ⟨t, hnext, hrun⟩ := run_cons.mp hrun
    refine ⟨⟨halong.1, fun t' ht' => ?_⟩, (ih (halong.2 t hnext) hrun).2⟩
    cases hnext.symm.trans ht'
    exact (ih (halong.2 t hnext) hrun).1

theorem Along.of_invariant {Q : M → Prop}
    (hstep : ∀ s m s', Q m → I s → step s m = some s' → I s') (hP : ∀ s m, Q m → I s → P s m)
    (hms : ∀ m ∈ ms, Q m) (hs : I s) : Along step P s ms := by
  induction ms generalizing s with
  | nil => trivial
  | cons m ms ih =>
    have hm := hms m mem_cons_self
    exact ⟨hP s m hm hs, fun s' hs' =>
      ih (fun m' hm' => hms m' (.tail _ hm')) (hstep s m s' hm hs hs')⟩

theorem run_keeps (hstep : ∀ s m s', I s → step s m = some s' → I s') {s' : S} (hs : I s)
    (hrun : run step s ms = some s') : I s' :=
  (along_true s ms).invariant (fun s m s' _ => hstep s m s') hs hrun

/-- Systems that make the same moves wherever the invariant holds have the same runs. -/
theorem Along.run_eq {step' : S → M → Option S}
    (hstep : ∀ s m s', P s m → I s → step s m = some s' → I s')
    (hsame : ∀ s m, P s m → I s → step s m = step' s m) (halong : Along step P s ms) (hs : I s) :
    run step s ms = run step' s ms := by
  induction ms generalizing s with
  | nil => rfl
  | cons m ms ih =>
    rw [run, run, ← hsame s m halong.1 hs]
    cases hm : step s m with
    | none => rfl
    | some s' => exact ih (halong.2 s' hm) (hstep s m s' halong.1 hs hm)

/-- Conditions that agree wherever the invariant holds agree along every run. -/
theorem along_congr {Q : S → M → Prop} (hstep : ∀ s m s', I s → step s m = some s' → I s')
    (hPQ : ∀ s m, I s → (P s m ↔ Q s m)) (hs : I s) : Along step P s ms ↔ Along step Q s ms := by
  induction ms generalizing s with
  | nil => exact Iff.rfl
  | cons m ms ih =>
    exact and_congr (hPQ s m hs) (forall₂_congr fun s' hs' => ih (hstep s m s' hs hs'))

/-- Moves that each spend one unit of a potential are bounded by the moves that fill it. -/
theorem run_potential (φ : S → Nat) (spends brings : M → Bool) (k : Nat)
    (hstep : ∀ s m s', step s m = some s' →
      φ s' + (if spends m then 1 else 0) ≤ φ s + (if brings m then k else 0)) {s' : S}
    (hrun : run step s ms = some s') : φ s' + ms.countP spends ≤ φ s + k * ms.countP brings := by
  induction ms generalizing s with
  | nil =>
    simp only [run, Option.some.injEq] at hrun
    simp [hrun]
  | cons m ms ih =>
    obtain ⟨t, hnext, hrun⟩ := run_cons.mp hrun
    have hrest := ih hrun
    have hfirst := hstep s m t hnext
    rw [countP_cons, countP_cons, Nat.mul_add]
    have hmul : k * (if brings m then 1 else 0) = if brings m then k else 0 := by
      split <;> simp
    omega

/-! ## Pools of processes -/

section Pool

variable {α : Type} {l : List α} {i j : Nat} {x y z : α}

theorem getElem?_set_cases (h : (l.set i x)[j]? = some y) : (j = i ∧ y = x) ∨ (j ≠ i ∧ l[j]? = some y) := by
  by_cases hij : i = j
  · subst hij
    have hlen := (List.getElem?_eq_some_iff.mp h).1
    rw [length_set] at hlen
    rw [List.getElem?_set_self hlen] at h
    exact .inl ⟨rfl, (Option.some.inj h).symm⟩
  · rw [List.getElem?_set_ne hij] at h
    exact .inr ⟨Ne.symm hij, h⟩

theorem getElem?_append_cases (h : (l ++ [x])[j]? = some y) :
    (j = l.length ∧ y = x) ∨ l[j]? = some y := by
  rcases Nat.lt_trichotomy j l.length with hlt | rfl | hgt
  · rw [List.getElem?_append_left hlt] at h
    exact .inr h
  · rw [List.getElem?_append_right (Nat.le_refl _), Nat.sub_self] at h
    exact .inl ⟨rfl, (Option.some.inj h).symm⟩
  · rw [List.getElem?_eq_none (by simp; omega)] at h
    cases h

theorem mem_set_self (h : l[i]? = some x) : y ∈ l.set i y :=
  mem_of_getElem? (List.getElem?_set_self (List.getElem?_eq_some_iff.mp h).1)

theorem eq_or_mem_set (h : l[i]? = some x) (hz : z ∈ l) : z = x ∨ z ∈ l.set i y := by
  obtain ⟨k, hk⟩ := List.getElem?_of_mem hz
  by_cases hik : i = k
  · subst hik
    exact .inl (Option.some.inj (hk.symm.trans h))
  · refine .inr (mem_of_getElem? (i := k) ?_)
    rw [List.getElem?_set_ne hik, hk]

theorem elim_set {β : Type} {b : β} (f : α → β) (h : l[i]? = some x) (j : Nat) :
    ((l.set i y)[j]?).elim b f = if j = i then f y else (l[j]?).elim b f := by
  by_cases hj : j = i
  · subst hj
    rw [List.getElem?_set_self (List.getElem?_eq_some_iff.mp h).1, if_pos rfl]
    rfl
  · rw [List.getElem?_set_ne (Ne.symm hj), if_neg hj]

theorem elim_set_same {β : Type} {b : β} (f : α → β) (h : l[i]? = some x) (hf : f y = f x) (j : Nat) :
    ((l.set i y)[j]?).elim b f = (l[j]?).elim b f := by
  rw [elim_set f h]
  split
  · rename_i hj
    rw [hj, h, hf]
    rfl
  · rfl

theorem forall_mem_set {P : α → Prop} (hl : ∀ z ∈ l, P z) (hx : P x) : ∀ z ∈ l.set i x, P z := by
  intro z hz
  rcases mem_or_eq_of_mem_set hz with hz | rfl
  · exact hl z hz
  · exact hx

theorem forall_mem_append {P : α → Prop} (hl : ∀ z ∈ l, P z) (hx : P x) : ∀ z ∈ l ++ [x], P z := by
  intro z hz
  rcases mem_append.mp hz with hz | hz
  · exact hl z hz
  · exact mem_singleton.mp hz ▸ hx

theorem sum_map_set (f : α → Nat) (h : l[i]? = some x) :
    ((l.set i y).map f).sum + f x = (l.map f).sum + f y := by
  induction l generalizing i with
  | nil => simp at h
  | cons a l ih =>
    cases i with
    | zero =>
      rw [List.getElem?_cons_zero, Option.some.injEq] at h
      subst h
      simp only [set_cons_zero, map_cons, sum_cons]
      omega
    | succ i =>
      rw [List.getElem?_cons_succ] at h
      have hrest := ih h
      simp only [set_cons_succ, map_cons, sum_cons]
      omega

theorem le_sum_map (f : α → Nat) (h : l[i]? = some x) : f x ≤ (l.map f).sum := by
  induction l generalizing i with
  | nil => simp at h
  | cons a l ih =>
    rw [map_cons, sum_cons]
    cases i with
    | zero =>
      rw [List.getElem?_cons_zero, Option.some.injEq] at h
      rw [h]
      omega
    | succ i =>
      have hrest := ih h
      omega

theorem exists_pos_of_sum_map (f : α → Nat) (h : 0 < (l.map f).sum) : ∃ x ∈ l, 0 < f x := by
  induction l with
  | nil => simp at h
  | cons a l ih =>
    rw [map_cons, sum_cons] at h
    by_cases ha : 0 < f a
    · exact ⟨a, .head _, ha⟩
    · obtain ⟨x, hx, hpos⟩ := ih (by omega)
      exact ⟨x, .tail _ hx, hpos⟩

theorem countP_le_sum_map (p : α → Bool) (f : α → Nat) (h : ∀ x, p x = true → 1 ≤ f x) :
    l.countP p ≤ (l.map f).sum := by
  induction l with
  | nil => simp
  | cons a l ih =>
    rw [countP_cons, map_cons, sum_cons]
    split
    · rename_i ha
      have hone := h a ha
      omega
    · omega

theorem add_le_sum_map (f : α → Nat) (hx : l[i]? = some x) (hy : l[j]? = some y) (hne : i ≠ j) :
    f x + f y ≤ (l.map f).sum := by
  induction l generalizing i j with
  | nil => simp at hx
  | cons a l ih =>
    rw [map_cons, sum_cons]
    cases i with
    | zero =>
      rw [List.getElem?_cons_zero, Option.some.injEq] at hx
      cases j with
      | zero => exact absurd rfl hne
      | succ j =>
        rw [List.getElem?_cons_succ] at hy
        have hle := le_sum_map f hy
        rw [hx]
        omega
    | succ i =>
      rw [List.getElem?_cons_succ] at hx
      cases j with
      | zero =>
        rw [List.getElem?_cons_zero, Option.some.injEq] at hy
        have hle := le_sum_map f hx
        rw [hy]
        omega
      | succ j =>
        have hle := ih hx hy (fun h => hne (by rw [h]))
        omega

end Pool

end SoroTrail.Lib.Steps
