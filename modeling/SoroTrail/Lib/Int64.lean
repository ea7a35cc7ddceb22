import Mathlib.Algebra.Ring.Int.Defs

/-!
# 64-bit integers

Machine integers are `Int` with the wrap-around of their operations written out.
-/

set_option autoImplicit false

namespace SoroTrail.Lib

/-- Reduction to an `int64`. -/
def i64 (x : Int) : Int := (x + 2 ^ 63) % 2 ^ 64 - 2 ^ 63

def IsInt64 (x : Int) : Prop := -2 ^ 63 ≤ x ∧ x < 2 ^ 63

instance (x : Int) : Decidable (IsInt64 x) := inferInstanceAs (Decidable (_ ∧ _))

theorem i64_of_isInt64 {x : Int} (h : IsInt64 x) : i64 x = x := by
  unfold IsInt64 at h
  unfold i64
  omega

end SoroTrail.Lib
