import Mathlib.Data.Int.Bitwise
import SoroTrail.Lib.Decimal

/-!
# Wide integers

How `internal/decode/xdr.go` renders the 128- and 256-bit integers of an ScVal.  A `big.Int` is an
`Int`, whose bitwise or is that of infinite two's complement.
-/

set_option autoImplicit false

namespace SoroTrail.Decode

open Lib Decimal

/-- A part of a wide integer; the highest part of a signed one is read with its sign. -/
abbrev Limb := BitVec 64

structure UInt128Parts where
  hi : Limb
  lo : Limb

structure Int128Parts where
  hi : Limb
  lo : Limb

structure UInt256Parts where
  hiHi : Limb
  hiLo : Limb
  loHi : Limb
  loLo : Limb

structure Int256Parts where
  hiHi : Limb
  hiLo : Limb
  loHi : Limb
  loLo : Limb

/-- `n.Lsh(&n, 64)`, then `n.Or` with the part. -/
def shiftIn (n : Int) (part : Limb) : Int := Int.lor (n <<< (64 : Nat)) part.toNat

def appendUint128 (dst : List Char) (p : UInt128Parts) : List Char :=
  if p.hi = 0 then dst ++ decimal p.lo.toNat
  else dst ++ decimal (shiftIn p.hi.toNat p.lo)

def appendInt128 (dst : List Char) (p : Int128Parts) : List Char :=
  if p.hi = 0 then dst ++ decimal p.lo.toNat
  else if p.hi.toInt = -1 ∧ p.lo.toInt < 0 then dst ++ decimal p.lo.toInt
  else dst ++ decimal (shiftIn p.hi.toInt p.lo)

def appendUint256 (dst : List Char) (p : UInt256Parts) : List Char :=
  if p.hiHi = 0 ∧ p.hiLo = 0 ∧ p.loHi = 0 then dst ++ decimal p.loLo.toNat
  else dst ++ decimal ([p.hiLo, p.loHi, p.loLo].foldl shiftIn p.hiHi.toNat)

def appendInt256 (dst : List Char) (p : Int256Parts) : List Char :=
  if p.hiHi = 0 ∧ p.hiLo = 0 ∧ p.loHi = 0 then dst ++ decimal p.loLo.toNat
  else dst ++ decimal ([p.hiLo, p.loHi, p.loLo].foldl shiftIn p.hiHi.toInt)

/-! ## What the parts denote -/

/-- `n` followed by one more part. -/
def joined (n : Int) (part : Limb) : Int := n * 2 ^ 64 + part.toNat

def UInt128Parts.value (p : UInt128Parts) : Int := joined p.hi.toNat p.lo

def Int128Parts.value (p : Int128Parts) : Int := joined p.hi.toInt p.lo

def UInt256Parts.value (p : UInt256Parts) : Int := [p.hiLo, p.loHi, p.loLo].foldl joined p.hiHi.toNat

def Int256Parts.value (p : Int256Parts) : Int := [p.hiLo, p.loHi, p.loLo].foldl joined p.hiHi.toInt

def readInt : List Char → Option Int
  | '-' :: cs => (Text.readDigits cs 0).map fun n => -(n : Int)
  | cs => (Text.readDigits cs 0).map fun n => (n : Int)

theorem lor_mul_two_pow (n : Int) {k lo : Nat} (h : lo < 2 ^ k) :
    Int.lor (n * 2 ^ k) lo = n * 2 ^ k + lo := by
  induction k generalizing lo with
  | zero =>
    obtain rfl : lo = 0 := by omega
    cases n <;> simp [Int.lor, Nat.ldiff]
  | succ k ih =>
    -- one bit of both at a time, from the lowest
    have hn : n * 2 ^ (k + 1) = Int.bit false (n * 2 ^ k) := by
      rw [Int.bit_val, pow_succ, cond_false]
      ring
    have hlo : (lo : Int) = Int.bit (decide (lo % 2 = 1)) (lo / 2 : Nat) := by
      rw [Int.bit_val]
      rcases Nat.mod_two_eq_zero_or_one lo with hmod | hmod <;> simp [hmod] <;> omega
    rw [hn, hlo, Int.lor_bit, ih (by omega), Bool.false_or, Int.bit_val, Int.bit_val, Int.bit_val,
      cond_false]
    ring

theorem shiftIn_eq : shiftIn = joined := by
  funext n part
  rw [shiftIn, joined, Int.shiftLeft_eq, lor_mul_two_pow n part.isLt]

theorem joined_inj {n n' : Int} {part part' : Limb} (h : joined n part = joined n' part') :
    n = n' ∧ part = part' := by
  have hpart := part.isLt
  have hpart' := part'.isLt
  unfold joined at h
  exact ⟨by omega, BitVec.eq_of_toNat_eq (by omega)⟩

theorem readInt_decimal (x : Int) : readInt (decimal x) = some x := by
  cases x with
  | negSucc n => simp [decimal, readInt, readDigits_toDigits, Int.negSucc_eq]
  | ofNat n =>
    have hread := readDigits_toDigits n
    rw [decimal, readInt, hread]
    · rfl
    · intro cs hcs
      exact absurd (isDigit_of_mem_toDigits (hcs ▸ List.mem_cons_self)) (by decide)

/-- `append` adds the decimal numeral of the value, which reads back to it and so to the same parts. -/
def RendersExactly {Parts : Type} (value : Parts → Int) (append : List Char → Parts → List Char) : Prop :=
  ∀ dst p, append dst p = dst ++ decimal (value p) ∧ readInt (decimal (value p)) = some (value p) ∧
    ∀ q, value q = value p → q = p

theorem rendersExactly {Parts : Type} {value : Parts → Int} {append : List Char → Parts → List Char}
    (happend : ∀ dst p, append dst p = dst ++ decimal (value p)) (hinj : Function.Injective value) :
    RendersExactly value append :=
  fun dst p => ⟨happend dst p, readInt_decimal _, fun _ h => hinj h⟩

theorem uint128_rendersExactly : RendersExactly UInt128Parts.value appendUint128 := by
  refine rendersExactly (fun dst p => ?_) fun p q h => ?_
  · rw [appendUint128, shiftIn_eq]
    split
    · rename_i hhi
      simp [UInt128Parts.value, joined, hhi]
    · rfl
  · obtain ⟨hhi, hlo⟩ := joined_inj h
    cases p; cases q
    simp_all [BitVec.toNat_inj]

theorem int128_rendersExactly : RendersExactly Int128Parts.value appendInt128 := by
  refine rendersExactly (fun dst p => ?_) fun p q h => ?_
  · rw [appendInt128, shiftIn_eq]
    split
    · rename_i hhi
      simp [Int128Parts.value, joined, hhi]
    · split
      · -- the sign of the lower part is that of the whole
        rename_i hsmall
        have hlo := BitVec.toInt_eq_toNat_cond p.lo
        have hvalue : p.lo.toInt = p.value := by
          rw [Int128Parts.value, hsmall.1, joined]
          split at hlo <;> omega
        rw [hvalue]
      · rfl
  · obtain ⟨hhi, hlo⟩ := joined_inj h
    cases p; cases q
    simp_all [BitVec.toInt_inj]

theorem uint256_rendersExactly : RendersExactly UInt256Parts.value appendUint256 := by
  refine rendersExactly (fun dst p => ?_) fun p q h => ?_
  · rw [appendUint256, shiftIn_eq]
    split
    · rename_i hhi
      simp [UInt256Parts.value, joined, hhi]
    · rfl
  · obtain ⟨h, hloLo⟩ := joined_inj h
    obtain ⟨h, hloHi⟩ := joined_inj h
    obtain ⟨hhiHi, hhiLo⟩ := joined_inj h
    cases p; cases q
    simp_all [BitVec.toNat_inj]

theorem int256_rendersExactly : RendersExactly Int256Parts.value appendInt256 := by
  refine rendersExactly (fun dst p => ?_) fun p q h => ?_
  · rw [appendInt256, shiftIn_eq]
    split
    · rename_i hhi
      simp [Int256Parts.value, joined, hhi]
    · rfl
  · obtain ⟨h, hloLo⟩ := joined_inj h
    obtain ⟨h, hloHi⟩ := joined_inj h
    obtain ⟨hhiHi, hhiLo⟩ := joined_inj h
    cases p; cases q
    simp_all [BitVec.toInt_inj]

/-- Every wide integer is rendered as the decimal numeral of the integer its parts denote. -/
theorem wide_integers_render_exactly :
    RendersExactly UInt128Parts.value appendUint128 ∧ RendersExactly Int128Parts.value appendInt128 ∧
      RendersExactly UInt256Parts.value appendUint256 ∧ RendersExactly Int256Parts.value appendInt256 :=
  ⟨uint128_rendersExactly, int128_rendersExactly, uint256_rendersExactly, int256_rendersExactly⟩

end SoroTrail.Decode
