import SoroTrail.Lib.Int64
import SoroTrail.Backfill.Run

/-!
# Cutting a span of ledgers

`SplitLedgerRanges` advances by whole steps in `int64` arithmetic.  The step after
the last range may pass the largest `int64`, and so may the sum that rounds the
step of an even cut up.  Where neither does, the ranges tile the span exactly.
-/

set_option autoImplicit false

namespace SoroTrail.Backfill

open Lib Option

/-! ## The loop in `int64` arithmetic -/

def evenStep (totalLedgers workers : Int) : Int :=
  let workers := if workers ≤ 0 then 1 else workers
  let w := if workers > totalLedgers then totalLedgers else workers
  Int.tdiv (i64 (i64 (totalLedgers + w) - 1)) w

def stepSize (fromLedger toLedger rangeSize workers : Int) : Int :=
  let totalLedgers := i64 (i64 (toLedger - fromLedger) + 1)
  let step := if rangeSize ≤ 0 then evenStep totalLedgers workers else rangeSize
  if step ≤ 0 then 1 else step

/-- The loop; `none` says that the turns were not enough. -/
def cutFrom (step toLedger : Int) : Nat → Int → Option (List BackfillRange)
  | 0, _ => none
  | turns + 1, cur =>
    if cur ≤ toLedger then
      let stop := i64 (i64 (cur + step) - 1)
      (cutFrom step toLedger turns (i64 (cur + step))).map fun rest =>
        ⟨cur, if stop > toLedger then toLedger else stop, 0, .pending⟩ :: rest
    else some []

def splitLedgerRangesInt64 (turns : Nat) (fromLedger toLedger rangeSize workers : Int) :
    Option (List BackfillRange) :=
  if toLedger ≤ 0 ∨ toLedger ≤ fromLedger ∨ (workers ≤ 1 ∧ rangeSize ≤ 0) then
    some [⟨fromLedger, toLedger, 0, .pending⟩]
  else cutFrom (stepSize fromLedger toLedger rangeSize workers) toLedger turns fromLedger

/-! ## Tilings -/

/-- The ranges are not empty and follow on one another from a ledger to the last. -/
inductive Tiles (toLedger : Int) : Int → List BackfillRange → Prop where
  | last {cur : Int} {r : BackfillRange} : r.fromLedger = cur → cur ≤ r.toLedger →
      r.toLedger = toLedger → Tiles toLedger cur [r]
  | cons {cur : Int} {r : BackfillRange} {rest : List BackfillRange} : r.fromLedger = cur →
      cur ≤ r.toLedger → Tiles toLedger (r.toLedger + 1) rest → Tiles toLedger cur (r :: rest)

theorem Tiles.le {toLedger fromLedger : Int} {rs : List BackfillRange}
    (h : Tiles toLedger fromLedger rs) : fromLedger ≤ toLedger := by
  induction h with
  | last _ hle hlast => omega
  | cons _ hle _ ih => omega

section Loop

variable {step toLedger cur : Int}

theorem cutFrom_stop {turns : Nat} (h : toLedger < cur) :
    cutFrom step toLedger (turns + 1) cur = some [] := by
  rw [cutFrom, if_neg (by omega)]

theorem cutFrom_mono {turns : Nat} {out : List BackfillRange}
    (h : cutFrom step toLedger turns cur = some out) :
    cutFrom step toLedger (turns + 1) cur = some out := by
  induction turns generalizing cur out with
  | zero => cases h
  | succ turns ih =>
    rw [cutFrom] at h ⊢
    split
    · rename_i hle
      rw [if_pos hle] at h
      obtain ⟨rest, hrest, rfl⟩ := map_eq_some_iff.mp h
      rw [ih hrest]
      rfl
    · rename_i hle
      rw [if_neg hle] at h
      exact h

theorem cutFrom_unique {turns turns' : Nat} {out out' : List BackfillRange}
    (h : cutFrom step toLedger turns cur = some out)
    (h' : cutFrom step toLedger turns' cur = some out') : out = out' := by
  have hmore : ∀ {n : Nat} {rs}, cutFrom step toLedger n cur = some rs → ∀ k,
      cutFrom step toLedger (n + k) cur = some rs := by
    intro n rs hn k
    induction k with
    | zero => exact hn
    | succ k ih => exact cutFrom_mono ih
  have hsum := hmore h turns'
  rw [Nat.add_comm, hmore h' turns] at hsum
  exact (Option.some.inj hsum).symm

theorem cutFrom_turn {turns : Nat} {out : List BackfillRange} (hle : cur ≤ toLedger)
    (h : cutFrom step toLedger turns cur = some out) :
    ∃ turns' rest, cutFrom step toLedger turns' (i64 (cur + step)) = some rest ∧
      out = ⟨cur, if i64 (i64 (cur + step) - 1) > toLedger then toLedger
        else i64 (i64 (cur + step) - 1), 0, .pending⟩ :: rest := by
  cases turns with
  | zero => cases h
  | succ turns =>
    rw [cutFrom, if_pos hle] at h
    obtain ⟨rest, hrest, rfl⟩ := map_eq_some_iff.mp h
    exact ⟨turns, rest, hrest, rfl⟩

theorem splitFrom_tiles (hstep : 0 < step) (k : Nat) {fuel : Nat} (hfuel : k + 1 ≤ fuel)
    (hlow : cur + step * k ≤ toLedger) (hhigh : toLedger < cur + step * (k + 1)) :
    Tiles toLedger cur (splitFrom step toLedger fuel cur) ∧
      (splitFrom step toLedger fuel cur).length = k + 1 ∧
      ∀ r ∈ splitFrom step toLedger fuel cur, r.toLedger - r.fromLedger + 1 ≤ step := by
  obtain ⟨fuel, rfl⟩ : ∃ n, fuel = n + 1 := ⟨fuel - 1, by omega⟩
  induction k generalizing cur fuel with
  | zero =>
    simp only [Nat.cast_zero, mul_zero, add_zero, zero_add, mul_one] at hlow hhigh
    have hrest : splitFrom step toLedger fuel (cur + step) = [] := by
      cases fuel with
      | zero => rfl
      | succ fuel => rw [splitFrom, if_neg (by omega)]
    have hend : (if cur + step - 1 > toLedger then toLedger else cur + step - 1) = toLedger := by
      split <;> omega
    rw [splitFrom, if_pos hlow, hrest, hend]
    refine ⟨.last rfl hlow rfl, rfl, fun r hr => ?_⟩
    rw [List.mem_singleton.mp hr]
    dsimp only
    omega
  | succ k ih =>
    push_cast at hlow hhigh
    have hmul : step * (k + 1) = step * k + step := by ring
    have hmul' : step * (k + 1 + 1) = step * (k + 1) + step := by ring
    have hprod : 0 ≤ step * k := mul_nonneg hstep.le (Int.natCast_nonneg k)
    obtain ⟨fuel, rfl⟩ : ∃ n, fuel = n + 1 := ⟨fuel - 1, by omega⟩
    obtain ⟨htiles, hlen, hsize⟩ := @ih (cur + step) (by omega) (by omega) fuel (by omega)
    rw [splitFrom, if_pos (by omega), if_neg (by omega)]
    refine ⟨.cons rfl (by dsimp only; omega) ?_, by simp [hlen], fun r hr => ?_⟩
    · have hfollow : cur + step - 1 + 1 = cur + step := by omega
      dsimp only
      rw [hfollow]
      exact htiles
    · rcases List.mem_cons.mp hr with rfl | hr
      · dsimp only
        omega
      · exact hsize r hr

theorem cutFrom_step (hstep : 0 < step) (hcur : 0 < cur) (hle : cur ≤ toLedger)
    (hroom : cur + step < 2 ^ 63) (turns : Nat) :
    cutFrom step toLedger (turns + 1) cur =
      (cutFrom step toLedger turns (cur + step)).map fun rest =>
        ⟨cur, if cur + step - 1 > toLedger then toLedger else cur + step - 1, 0, .pending⟩ :: rest := by
  have hnext : i64 (cur + step) = cur + step := i64_of_isInt64 ⟨by omega, by omega⟩
  have hstop : i64 (cur + step - 1) = cur + step - 1 := i64_of_isInt64 ⟨by omega, by omega⟩
  rw [cutFrom, if_pos hle, hnext, hstop]

/-- Where no step passes the largest `int64`, the loop is that over the integers. -/
theorem cutFrom_eq_splitFrom (hstep : 0 < step) (k : Nat) {fuel : Nat} (hfuel : k + 1 ≤ fuel)
    (hcur : 0 < cur) (hlow : cur + step * k ≤ toLedger)
    (hhigh : toLedger < cur + step * (k + 1)) (hfits : cur + step * (k + 1) < 2 ^ 63) :
    cutFrom step toLedger (k + 2) cur = some (splitFrom step toLedger fuel cur) := by
  obtain ⟨fuel, rfl⟩ : ∃ n, fuel = n + 1 := ⟨fuel - 1, by omega⟩
  induction k generalizing cur fuel with
  | zero =>
    simp only [Nat.cast_zero, mul_zero, add_zero, zero_add, mul_one] at hlow hhigh hfits
    have hrest : splitFrom step toLedger fuel (cur + step) = [] := by
      cases fuel with
      | zero => rfl
      | succ fuel => rw [splitFrom, if_neg (by omega)]
    rw [cutFrom_step hstep hcur hlow hfits, cutFrom_stop hhigh, splitFrom, if_pos hlow, hrest, map_some]
  | succ k ih =>
    push_cast at hlow hhigh hfits
    have hmul : step * (k + 1) = step * k + step := by ring
    have hmul' : step * (k + 1 + 1) = step * (k + 1) + step := by ring
    have hprod : 0 ≤ step * k := mul_nonneg hstep.le (Int.natCast_nonneg k)
    obtain ⟨fuel, rfl⟩ : ∃ n, fuel = n + 1 := ⟨fuel - 1, by omega⟩
    have hrest := @ih (cur + step) (by omega) (by omega) (by omega) (by omega) fuel (by omega)
    have hle : cur ≤ toLedger := by omega
    rw [cutFrom_step hstep hcur hle (by omega), hrest, map_some]
    conv_rhs => rw [splitFrom, if_pos hle]

/-- Where the step after the last range passes the largest `int64`, what the loop returns, if it
returns, is no tiling. -/
theorem cutFrom_not_tiles (hstep : 0 < step) (hwide : step < 2 ^ 63) (k : Nat) (hcur : 0 < cur)
    (hto : toLedger < 2 ^ 63) (hlow : cur + step * k ≤ toLedger)
    (hover : 2 ^ 63 ≤ cur + step * (k + 1)) {turns : Nat} {out : List BackfillRange}
    (h : cutFrom step toLedger turns cur = some out) : ¬ Tiles toLedger cur out := by
  induction k generalizing cur turns out with
  | zero =>
    simp only [Nat.cast_zero, mul_zero, add_zero, zero_add, mul_one] at hlow hover
    obtain ⟨turns', rest, hrest, rfl⟩ := cutFrom_turn hlow h
    have hnext : i64 (cur + step) = cur + step - 2 ^ 64 := by
      unfold i64
      omega
    have hnegative : i64 (cur + step) ≤ toLedger := by omega
    obtain ⟨_, rest', -, hrest'⟩ := cutFrom_turn hnegative hrest
    have hstop : i64 (i64 (cur + step) - 1) = 2 ^ 63 - 1 ∨
        i64 (i64 (cur + step) - 1) < 0 := by
      rw [hnext]
      unfold i64
      omega
    intro htiles
    cases htiles with
    | last _ hle hlast => cases hrest'
    | cons _ hle htiles =>
      rcases hstop with hstop | hstop
      · -- the range ends at the last ledger, and another one follows
        have := htiles.le
        rw [hstop] at this
        dsimp only at this
        split at this <;> omega
      · dsimp only at hle
        rw [if_neg (by omega)] at hle
        omega
  | succ k ih =>
    push_cast at hlow hover
    have hmul : step * (k + 1) = step * k + step := by ring
    have hmul' : step * (k + 1 + 1) = step * (k + 1) + step := by ring
    have hprod : 0 ≤ step * k := mul_nonneg hstep.le (Int.natCast_nonneg k)
    have hnext : i64 (cur + step) = cur + step := i64_of_isInt64 ⟨by omega, by omega⟩
    have hstop : i64 (cur + step - 1) = cur + step - 1 := i64_of_isInt64 ⟨by omega, by omega⟩
    obtain ⟨turns', rest, hrest, rfl⟩ := cutFrom_turn (by omega) h
    rw [hnext] at hrest
    intro htiles
    cases htiles with
    | last _ hle hlast =>
      obtain ⟨_, rest', -, hrest'⟩ := cutFrom_turn (by omega) hrest
      cases hrest'
    | cons _ hle htiles =>
      refine @ih (cur + step) (by omega) (by omega) (by omega) _ _ hrest ?_
      rw [hnext, hstop, if_neg (by omega)] at htiles
      have hfollow : cur + step - 1 + 1 = cur + step := by omega
      rwa [hfollow] at htiles

end Loop

/-! ## The cut of a span -/

section Cut

variable {fromLedger toLedger rangeSize workers : Int}

def exactStep (fromLedger toLedger rangeSize workers : Int) : Int :=
  let totalLedgers := toLedger - fromLedger + 1
  if 0 < rangeSize then rangeSize
  else (totalLedgers + min workers totalLedgers - 1) / min workers totalLedgers

def wholeSteps (fromLedger toLedger step : Int) : Nat := ((toLedger - fromLedger) / step).toNat

theorem wholeSteps_spec {step : Int} (hstep : 0 < step) (hle : fromLedger ≤ toLedger) :
    fromLedger + step * wholeSteps fromLedger toLedger step ≤ toLedger ∧
      toLedger < fromLedger + step * (wholeSteps fromLedger toLedger step + 1) := by
  have hcast : (wholeSteps fromLedger toLedger step : Int) = (toLedger - fromLedger) / step :=
    Int.toNat_of_nonneg (Int.ediv_nonneg (by omega) hstep.le)
  have hlow := Int.mul_ediv_self_le (x := toLedger - fromLedger) (k := step) (by omega)
  have hhigh := Int.lt_mul_ediv_self_add (x := toLedger - fromLedger) hstep
  rw [hcast, mul_add]
  omega

/-- The step of an even cut is rounded up without passing the largest `int64`. -/
def Rounds (fromLedger toLedger rangeSize workers : Int) : Prop :=
  let totalLedgers := toLedger - fromLedger + 1
  0 < rangeSize ∨ totalLedgers ≤ workers ∨ totalLedgers + workers - 1 < 2 ^ 63

instance : Decidable (Rounds fromLedger toLedger rangeSize workers) :=
  inferInstanceAs (Decidable (_ ∨ _ ∨ _))

theorem ceilDiv_spec {total w : Int} (htotal : 0 < total) (hw : 0 < w) :
    0 < (total + w - 1) / w ∧ total ≤ (total + w - 1) / w * w := by
  have hhigh := Int.lt_ediv_add_one_mul_self (total + w - 1) hw
  have hpos : 1 ≤ (total + w - 1) / w := Int.le_ediv_of_mul_le hw (by omega)
  rw [add_mul] at hhigh
  exact ⟨by omega, by omega⟩

theorem evenStep_eq {total : Int} (hworkers : 1 ≤ workers) :
    evenStep total workers = Int.tdiv (i64 (total + min workers total - 1)) (min workers total) := by
  have hw : (if workers > total then total else workers) = min workers total := by
    split <;> omega
  have hsum : i64 (i64 (total + min workers total) - 1) = i64 (total + min workers total - 1) := by
    unfold i64
    omega
  rw [evenStep, if_neg (by omega : ¬ workers ≤ 0), hw, hsum]

theorem evenStep_of_fits {total : Int} (htotal : 0 < total) (hworkers : 1 ≤ workers)
    (h : total + min workers total - 1 < 2 ^ 63) :
    evenStep total workers = (total + min workers total - 1) / min workers total := by
  rw [evenStep_eq hworkers, i64_of_isInt64 ⟨by omega, h⟩]
  exact Int.tdiv_eq_ediv_of_nonneg (by omega)

theorem evenStep_of_wraps {total : Int} (htotal : 0 < total) (hwide : total < 2 ^ 63)
    (hworkers : 1 ≤ workers) (h : 2 ^ 63 ≤ total + min workers total - 1) :
    evenStep total workers ≤ 0 := by
  have hneg : i64 (total + min workers total - 1) ≤ 0 := by
    unfold i64
    omega
  have hquot := Int.tdiv_nonneg (neg_nonneg.mpr hneg) (by omega : 0 ≤ min workers total)
  rw [Int.neg_tdiv] at hquot
  rw [evenStep_eq hworkers]
  omega

/-! ## The cut in `int64` arithmetic is the exact one -/

structure Partition (fromLedger toLedger rangeSize workers : Int) (out : List BackfillRange) : Prop where
  tiles : Tiles toLedger fromLedger out
  sizes : 0 < rangeSize → ∀ r ∈ out, r.toLedger - r.fromLedger + 1 ≤ rangeSize
  count : rangeSize = 0 → out.length ≤ workers

/-- The step of the cut is rounded without wrapping around, and the step that leaves the span stays
in the range of an `int64`. -/
def CutFits (fromLedger toLedger rangeSize workers : Int) : Prop :=
  let step := exactStep fromLedger toLedger rangeSize workers
  toLedger = fromLedger ∨ (workers = 1 ∧ rangeSize = 0) ∨
    (Rounds fromLedger toLedger rangeSize workers ∧
      fromLedger + step * (wholeSteps fromLedger toLedger step + 1) < 2 ^ 63)

instance : Decidable (CutFits fromLedger toLedger rangeSize workers) :=
  inferInstanceAs (Decidable (_ ∨ _ ∨ _))

/-- What a cut is asked for. -/
structure Cut where
  fromLedger : Int
  toLedger : Int
  rangeSize : Int
  workers : Int
  bounds : 0 < fromLedger ∧ fromLedger ≤ toLedger ∧ toLedger < 2 ^ 63 ∧ 0 ≤ rangeSize ∧ 1 ≤ workers

namespace Cut

def ledgers (c : Cut) : Int := c.toLedger - c.fromLedger + 1

def step (c : Cut) : Int := exactStep c.fromLedger c.toLedger c.rangeSize c.workers

def steps (c : Cut) : Nat := wholeSteps c.fromLedger c.toLedger c.step

def run (c : Cut) (turns : Nat) : Option (List BackfillRange) :=
  splitLedgerRangesInt64 turns c.fromLedger c.toLedger c.rangeSize c.workers

def Exact (c : Cut) : List BackfillRange → Prop :=
  Partition c.fromLedger c.toLedger c.rangeSize c.workers

def Rounded (c : Cut) : Prop := Rounds c.fromLedger c.toLedger c.rangeSize c.workers

def Fits (c : Cut) : Prop := CutFits c.fromLedger c.toLedger c.rangeSize c.workers

/-- The span is not cut. -/
def Whole (c : Cut) : Prop := c.toLedger = c.fromLedger ∨ (c.workers = 1 ∧ c.rangeSize = 0)

variable (c : Cut)

theorem facts : (0 < c.fromLedger ∧ c.fromLedger ≤ c.toLedger ∧ c.toLedger < 2 ^ 63 ∧ 0 ≤ c.rangeSize ∧
    1 ≤ c.workers) ∧ c.ledgers = c.toLedger - c.fromLedger + 1 :=
  ⟨c.bounds, rfl⟩

theorem step_of_range (h : 0 < c.rangeSize) : c.step = c.rangeSize := if_pos h

theorem step_of_even (h : ¬ 0 < c.rangeSize) :
    c.step = (c.ledgers + min c.workers c.ledgers - 1) / min c.workers c.ledgers := if_neg h

theorem step_pos : 0 < c.step := by
  have hc := c.facts
  by_cases h : 0 < c.rangeSize
  · rwa [c.step_of_range h]
  · rw [c.step_of_even h]
    exact (ceilDiv_spec (by omega) (by omega)).1

theorem step_lt (hrange : c.rangeSize < 2 ^ 63) : c.step < 2 ^ 63 := by
  have hc := c.facts
  by_cases h : 0 < c.rangeSize
  · rwa [c.step_of_range h]
  · rw [c.step_of_even h]
    exact Int.ediv_lt_of_lt_mul (by omega) (by omega)

theorem steps_spec : c.fromLedger + c.step * c.steps ≤ c.toLedger ∧
    c.toLedger < c.fromLedger + c.step * (c.steps + 1) :=
  wholeSteps_spec c.step_pos c.bounds.2.1

theorem stepSize_eq : stepSize c.fromLedger c.toLedger c.rangeSize c.workers =
    if 0 < c.rangeSize then c.rangeSize
    else if evenStep c.ledgers c.workers ≤ 0 then 1 else evenStep c.ledgers c.workers := by
  have hc := c.facts
  have htotal : i64 (i64 (c.toLedger - c.fromLedger) + 1) = c.ledgers := by
    unfold i64
    omega
  rw [stepSize, htotal]
  by_cases hrange : 0 < c.rangeSize
  · rw [if_pos hrange, if_neg (by omega : ¬ c.rangeSize ≤ 0), if_neg (by omega)]
  · rw [if_neg hrange, if_pos (by omega : c.rangeSize ≤ 0)]

theorem stepSize_of_rounded (h : c.Rounded) :
    stepSize c.fromLedger c.toLedger c.rangeSize c.workers = c.step := by
  have hc := c.facts
  have hpos := c.step_pos
  rw [c.stepSize_eq]
  by_cases hrange : 0 < c.rangeSize
  · rw [if_pos hrange, c.step_of_range hrange]
  rw [c.step_of_even hrange] at hpos ⊢
  rw [if_neg hrange]
  by_cases hfits : c.ledgers + min c.workers c.ledgers - 1 < 2 ^ 63
  · rw [evenStep_of_fits (by omega) (by omega) hfits, if_neg (by omega)]
  · -- a range of one ledger each, where the rounding wraps around
    have hmin : min c.workers c.ledgers = c.ledgers := by
      rcases h with h | h | h <;> omega
    rw [if_pos (evenStep_of_wraps (by omega) (by omega) (by omega) (by omega))]
    rw [hmin] at hpos ⊢
    have hone : (c.ledgers + c.ledgers - 1) / c.ledgers < 2 := Int.ediv_lt_of_lt_mul (by omega) (by omega)
    omega

theorem stepSize_of_not_rounded (h : ¬ c.Rounded) :
    stepSize c.fromLedger c.toLedger c.rangeSize c.workers = 1 := by
  have hc := c.facts
  simp only [Rounded, Rounds, not_or, not_lt, not_le] at h
  rw [c.stepSize_eq, if_neg (by omega)]
  exact if_pos (evenStep_of_wraps (by omega) (by omega) (by omega) (by omega))

variable {out : List BackfillRange}

theorem room_of_tiles {step : Int} (hstep : 0 < step) (hwide : step < 2 ^ 63) {turns : Nat} (hout : cutFrom step c.toLedger turns c.fromLedger = some out)
    (htiles : Tiles c.toLedger c.fromLedger out) :
    c.fromLedger + step * (wholeSteps c.fromLedger c.toLedger step + 1) < 2 ^ 63 := by
  obtain ⟨hfrom, hle, hto, -⟩ := c.bounds
  by_contra hover
  exact cutFrom_not_tiles hstep hwide _ hfrom hto (wholeSteps_spec hstep hle).1 (by omega) hout htiles

theorem run_whole (h : c.Whole) (turns : Nat) :
    c.run turns = some [⟨c.fromLedger, c.toLedger, 0, .pending⟩] := by
  rw [Whole] at h
  exact if_pos (by omega)

theorem run_cut (h : ¬ c.Whole) (turns : Nat) : c.run turns =
    cutFrom (stepSize c.fromLedger c.toLedger c.rangeSize c.workers) c.toLedger turns c.fromLedger := by
  have hc := c.bounds
  rw [Whole] at h
  exact if_neg (by omega)

theorem steps_lt_workers (h : c.rangeSize = 0) : (c.steps : Int) < c.workers := by
  have hc := c.facts
  have hceil := (ceilDiv_spec (by omega : 0 < c.ledgers) (by omega : 0 < min c.workers c.ledgers)).2
  rw [← c.step_of_even (by omega)] at hceil
  have hlow := c.steps_spec.1
  have hlt : c.step * c.steps < c.step * min c.workers c.ledgers := by omega
  exact (lt_of_mul_lt_mul_left hlt c.step_pos.le).trans_le (min_le_left _ _)

theorem run_eq_splitFrom (hwhole : ¬ c.Whole) (hfits : c.Fits) {fuel : Nat} (hfuel : c.steps + 1 ≤ fuel) :
    ∃ turns, c.run turns = some (splitFrom c.step c.toLedger fuel c.fromLedger) := by
  obtain ⟨hrounds, hroom⟩ : c.Rounded ∧ _ :=
    (hfits.resolve_left fun h => hwhole (.inl h)).resolve_left fun h => hwhole (.inr h)
  obtain ⟨hlow, hhigh⟩ := c.steps_spec
  have hloop := cutFrom_eq_splitFrom c.step_pos _ hfuel c.bounds.1 hlow hhigh hroom
  rw [← c.stepSize_of_rounded hrounds] at hloop ⊢
  exact ⟨_, (c.run_cut hwhole _).trans hloop⟩

theorem run_of_fits (hfits : c.Fits) : ∃ turns out, c.run turns = some out ∧ c.Exact out := by
  have hc := c.bounds
  by_cases hwhole : c.Whole
  · refine ⟨0, _, c.run_whole hwhole 0, .last rfl hc.2.1 rfl, fun hpos r hr => ?_, by simp [hc]⟩
    rw [List.mem_singleton.mp hr]
    rcases hwhole with h | h <;> dsimp only <;> omega
  obtain ⟨hlow, hhigh⟩ := c.steps_spec
  obtain ⟨htiles, hlen, hsizes⟩ := splitFrom_tiles c.step_pos _ le_rfl hlow hhigh
  obtain ⟨turns, hout⟩ := c.run_eq_splitFrom hwhole hfits le_rfl
  refine ⟨turns, _, hout, htiles, fun hsize r hr => ?_, fun hzero => ?_⟩
  · exact (hsizes r hr).trans (c.step_of_range hsize).le
  · have := c.steps_lt_workers hzero
    omega

theorem fits_of_run (hrange : c.rangeSize < 2 ^ 63) {turns : Nat}
    (hout : c.run turns = some out) (hparts : c.Exact out) : c.Fits := by
  have hc := c.bounds
  by_cases hwhole : c.Whole
  · exact hwhole.imp_right .inl
  rw [c.run_cut hwhole] at hout
  by_cases hrounds : c.Rounded
  · rw [c.stepSize_of_rounded hrounds] at hout
    exact .inr (.inr ⟨hrounds,
      c.room_of_tiles c.step_pos (c.step_lt hrange) hout hparts.tiles⟩)
  · -- the step is one ledger, and there are more ledgers than workers
    rw [c.stepSize_of_not_rounded hrounds] at hout
    simp only [Rounded, Rounds, not_or, not_lt, not_le] at hrounds
    obtain ⟨hlow, hhigh⟩ := wholeSteps_spec one_pos hc.2.1
    have hroom := c.room_of_tiles one_pos (by omega) hout hparts.tiles
    have hloop := cutFrom_eq_splitFrom one_pos _ le_rfl hc.1 hlow hhigh hroom
    have hlen := (splitFrom_tiles one_pos _ le_rfl hlow hhigh).2.1
    have hcount := hparts.count (by omega)
    rw [cutFrom_unique hout hloop] at hcount
    omega

end Cut

/-- The cut in `int64` arithmetic is an exact partition of the span just where it stays in the
range of an `int64`. -/
theorem splitLedgerRanges_partition_iff (hfrom : 0 < fromLedger) (hle : fromLedger ≤ toLedger)
    (hto : IsInt64 toLedger) (hrange : 0 ≤ rangeSize) (hrange64 : IsInt64 rangeSize)
    (hworkers : 1 ≤ workers) :
    (∃ turns out, splitLedgerRangesInt64 turns fromLedger toLedger rangeSize workers = some out ∧
      Partition fromLedger toLedger rangeSize workers out) ↔
      CutFits fromLedger toLedger rangeSize workers := by
  let c : Cut := ⟨fromLedger, toLedger, rangeSize, workers, hfrom, hle, hto.2, hrange, hworkers⟩
  exact ⟨fun ⟨_, _, hout, hparts⟩ => c.fits_of_run hrange64.2 hout hparts, c.run_of_fits⟩

/-- Ledgers 1 to 10 in ranges of three. -/
theorem splitLedgerRanges_ten_by_three :
    ∃ turns out, splitLedgerRangesInt64 turns 1 10 3 1 = some out ∧ Partition 1 10 3 1 out :=
  (splitLedgerRanges_partition_iff (by decide) (by decide) (by decide) (by decide) (by decide)
    (by decide)).mpr (by decide +kernel)

/-- The last two of three ledgers: the step after the second range wraps around, and its end with it. -/
theorem splitLedgerRanges_largest_ledger :
    ¬ ∃ turns out, splitLedgerRangesInt64 turns (2 ^ 63 - 3) (2 ^ 63 - 1) 2 1 = some out ∧
      Partition (2 ^ 63 - 3) (2 ^ 63 - 1) 2 1 out := by
  rintro ⟨turns, out, hout, hparts⟩
  have hfits := Cut.fits_of_run ⟨2 ^ 63 - 3, 2 ^ 63 - 1, 2, 1, by decide⟩ (by decide) hout hparts
  revert hfits
  unfold Cut.Fits
  decide +kernel

/-- Where the cut fits, it is the one that the runs of this development are given. -/
theorem split_eq_splitLedgerRanges {workers : Nat} (hfrom : 0 < fromLedger)
    (hle : fromLedger ≤ toLedger) (hto : IsInt64 toLedger) (hrange : 0 ≤ rangeSize)
    (hworkers : 1 ≤ workers) (hfits : CutFits fromLedger toLedger rangeSize workers) :
    ∃ turns, splitLedgerRangesInt64 turns fromLedger toLedger rangeSize workers =
      some (splitLedgerRanges fromLedger toLedger rangeSize workers) := by
  let c : Cut := ⟨fromLedger, toLedger, rangeSize, workers, hfrom, hle, hto.2, hrange,
    by exact_mod_cast hworkers⟩
  by_cases hwhole : c.Whole
  · have hskip : toLedger = fromLedger ∨ ((workers : Int) = 1 ∧ rangeSize = 0) := hwhole
    exact ⟨0, (c.run_whole hwhole 0).trans (congrArg some (if_pos (by omega)).symm)⟩
  have hpos := c.step_pos
  have hfuel : c.steps + 1 ≤ (toLedger - fromLedger + 1).toNat := by
    have hlow : fromLedger + c.step * c.steps ≤ toLedger := c.steps_spec.1
    have := le_mul_of_one_le_left (Int.natCast_nonneg c.steps) hpos
    omega
  have hstep : c.step = if rangeSize ≤ 0 then
        let w : Int := if workers > toLedger - fromLedger + 1 then toLedger - fromLedger + 1 else workers
        (toLedger - fromLedger + 1 + w - 1) / w
      else rangeSize := by
    have hw : (if workers > toLedger - fromLedger + 1 then toLedger - fromLedger + 1
        else workers) = min (workers : Int) (toLedger - fromLedger + 1) := by
      split <;> omega
    change exactStep fromLedger toLedger rangeSize workers = _
    rw [exactStep, hw]
    split <;> split <;> first | rfl | omega
  obtain ⟨turns, hout⟩ := c.run_eq_splitFrom hwhole hfits hfuel
  refine ⟨turns, hout.trans ?_⟩
  have hcut : ¬ (toLedger = fromLedger ∨ ((workers : Int) = 1 ∧ rangeSize = 0)) := hwhole
  rw [splitLedgerRanges, if_neg (by omega)]
  dsimp only
  rw [← hstep, if_neg (by omega)]

end Cut

theorem split_eq_splitLedgerRanges_ten_by_two :
    ∃ turns, splitLedgerRangesInt64 turns 1 10 0 2 = some (splitLedgerRanges 1 10 0 2) :=
  @split_eq_splitLedgerRanges 1 10 0 2 (by decide) (by decide) (by decide) (by decide) (by decide)
    (by decide +kernel)

end SoroTrail.Backfill
