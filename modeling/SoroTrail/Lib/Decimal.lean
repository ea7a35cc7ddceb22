import Mathlib.Tactic.IntervalCases
import Mathlib.Tactic.Linarith
import Mathlib.Tactic.Ring
import SoroTrail.Lib.Text

/-!
# Decimal text

Numbers printed and read in decimal.  Texts of one width compare as the numbers
they print.
-/

set_option autoImplicit false

namespace SoroTrail.Lib.Decimal

open List Text

/-- A number as `%d` prints it. -/
def decimal : Int → List Char
  | .ofNat n => Nat.toDigits 10 n
  | .negSucc n => '-' :: Nat.toDigits 10 (n + 1)

/-- A number as `%0*d` prints it: zeros after the sign up to the width. -/
def zeroPad (width : Nat) : Int → List Char
  | .ofNat n => zeros width (Nat.toDigits 10 n)
  | .negSucc n => '-' :: zeros (width - 1) (Nat.toDigits 10 (n + 1))
where
  zeros (width : Nat) (digits : List Char) : List Char :=
    List.replicate (width - digits.length) '0' ++ digits

/-- The last `w` digits of a number. -/
def fixed : Nat → Nat → List Char
  | 0, _ => []
  | w + 1, n => fixed w (n / 10) ++ [Nat.digitChar (n % 10)]

/-- An optional sign, digits, and a value that fits in an `int64`. -/
def parseInt64 : List Char → Option Int
  | '-' :: cs =>
    match parseUint 64 cs with
    | some n => if n ≤ 2 ^ 63 then some (-n) else none
    | none => none
  | '+' :: cs => positive cs
  | cs => positive cs
where
  positive (cs : List Char) : Option Int :=
    match parseUint 64 cs with
    | some n => if n < 2 ^ 63 then some n else none
    | none => none

def IsDigit (c : Char) : Prop := '0' ≤ c ∧ c ≤ '9'

instance (c : Char) : Decidable (IsDigit c) := inferInstanceAs (Decidable (_ ∧ _))

theorem digitChar_lt_ten {d : Nat} (h : d < 10) :
    IsDigit (Nat.digitChar d) ∧ digit (Nat.digitChar d) = some d := by
  interval_cases d <;> decide

theorem digitChar_lt_iff {d e : Nat} (hd : d < 10) (he : e < 10) :
    Nat.digitChar d < Nat.digitChar e ↔ d < e := by
  interval_cases d <;> interval_cases e <;> decide

/-! ## Reading -/

theorem readDigits_append (front back : List Char) (acc : Nat) :
    readDigits (front ++ back) acc =
      (readDigits front acc).bind (readDigits back) := by
  induction front generalizing acc with
  | nil => rfl
  | cons c front ih =>
    rw [cons_append, readDigits, readDigits]
    cases digit c with
    | none => rfl
    | some d => exact ih _

theorem readDigits_fixed {w n : Nat} (h : n < 10 ^ w) (acc : Nat) :
    readDigits (fixed w n) acc = some (acc * 10 ^ w + n) := by
  induction w generalizing n acc with
  | zero =>
    have hn : n = 0 := by simpa using h
    simp [fixed, readDigits, hn]
  | succ w ih =>
    have hhigh : n / 10 < 10 ^ w := by
      omega
    have hlow := (digitChar_lt_ten (Nat.mod_lt n (by decide : 0 < 10))).2
    rw [fixed, readDigits_append, ih hhigh]
    simp only [Option.bind_some, readDigits, hlow]
    congr 1
    rw [pow_succ]
    have hn := Nat.div_add_mod n 10
    linarith

theorem fixed_inj {w m n : Nat} (hm : m < 10 ^ w) (hn : n < 10 ^ w) :
    fixed w m = fixed w n ↔ m = n := by
  constructor
  · intro h
    have hread := readDigits_fixed hm 0
    rw [h, readDigits_fixed hn 0] at hread
    have hvalue := Option.some.inj hread
    omega
  · intro h
    rw [h]

theorem readDigits_zeros (k acc : Nat) :
    readDigits (List.replicate k '0') acc = some (acc * 10 ^ k) := by
  induction k generalizing acc with
  | zero => simp [readDigits]
  | succ k ih =>
    have hzero : digit '0' = some 0 := by decide
    rw [replicate_succ, readDigits]
    simp only [hzero, ih]
    ring_nf

@[simp] theorem length_fixed (w n : Nat) : (fixed w n).length = w := by
  induction w generalizing n with
  | zero => rfl
  | succ w ih => simp [fixed, ih]

theorem isDigit_of_mem_fixed {w n : Nat} {c : Char} (h : c ∈ fixed w n) : IsDigit c := by
  induction w generalizing n with
  | zero => cases h
  | succ w ih =>
    rcases mem_append.mp h with h | h
    · exact ih h
    · rw [mem_singleton.mp h]
      exact (digitChar_lt_ten (Nat.mod_lt n (by decide))).1

theorem readDigits_toDigits (n : Nat) : readDigits (Nat.toDigits 10 n) 0 = some n := by
  induction n using Nat.strong_induction_on with
  | _ n ih =>
    rw [Nat.toDigits_eq_if (by decide)]
    split
    · rename_i hlt
      simp [readDigits, (digitChar_lt_ten hlt).2]
    · have hlow := (digitChar_lt_ten (Nat.mod_lt n (by decide : 0 < 10))).2
      rw [readDigits_append, ih (n / 10) (by omega)]
      simp only [Option.bind_some, readDigits, hlow]
      congr 1
      omega

theorem isDigit_of_mem_toDigits {n : Nat} {c : Char} (h : c ∈ Nat.toDigits 10 n) : IsDigit c := by
  induction n using Nat.strong_induction_on with
  | _ n ih =>
    rw [Nat.toDigits_eq_if (by decide)] at h
    split at h
    · rename_i hlt
      rw [mem_singleton.mp h]
      exact (digitChar_lt_ten hlt).1
    · rcases mem_append.mp h with h | h
      · exact ih (n / 10) (by omega) h
      · rw [mem_singleton.mp h]
        exact (digitChar_lt_ten (Nat.mod_lt n (by decide))).1

theorem parseUint_toDigits {n : Nat} (h : n < 2 ^ 64) :
    parseUint 64 (Nat.toDigits 10 n) = some n := by
  have hne : (Nat.toDigits 10 n).isEmpty = false := by
    rw [isEmpty_eq_false_iff]
    exact Nat.toDigits_ne_nil
  rw [parseUint, hne, readDigits_toDigits]
  exact if_pos h

theorem parseInt64_decimal {x : Int} (hlow : -2 ^ 63 ≤ x) (hhigh : x < 2 ^ 63) :
    parseInt64 (decimal x) = some x := by
  cases x with
  | ofNat n =>
    have hn : n < 2 ^ 63 := by
      have : (n : Int) < 2 ^ 63 := hhigh
      omega
    have hdigit : ∀ c cs, Nat.toDigits 10 n = c :: cs → IsDigit c := fun c cs heq =>
      isDigit_of_mem_toDigits (heq ▸ mem_cons_self)
    rw [decimal, parseInt64]
    · rw [parseInt64.positive, parseUint_toDigits (by omega)]
      simp only [if_pos hn]
      rfl
    · intro cs heq
      exact absurd (hdigit _ _ heq) (by decide)
    · intro cs heq
      exact absurd (hdigit _ _ heq) (by decide)
  | negSucc n =>
    have hn : n + 1 ≤ 2 ^ 63 := by
      omega
    rw [decimal, parseInt64, parseUint_toDigits (by omega)]
    simp only [if_pos hn]
    rfl

/-! ## Padded numbers between separators -/

theorem readDigits_zeroPad (width n : Nat) : readDigits (zeroPad width n) 0 = some n := by
  show readDigits (zeroPad.zeros width (Nat.toDigits 10 n)) 0 = some n
  rw [zeroPad.zeros, readDigits_append, readDigits_zeros]
  simpa using readDigits_toDigits n

theorem zeroPad_natCast_inj {width m n : Nat} (h : zeroPad width m = zeroPad width n) : m = n := by
  have hread := readDigits_zeroPad width m
  rw [h, readDigits_zeroPad] at hread
  exact (Option.some.inj hread).symm

theorem isDigit_of_mem_zeros {width n : Nat} {c : Char}
    (h : c ∈ zeroPad.zeros width (Nat.toDigits 10 n)) : IsDigit c := by
  rcases mem_append.mp h with h | h
  · rw [eq_of_mem_replicate h]
    decide
  · exact isDigit_of_mem_toDigits h

theorem dash_notMem_zeros (width n : Nat) : '-' ∉ zeroPad.zeros width (Nat.toDigits 10 n) :=
  fun h => absurd (isDigit_of_mem_zeros h) (by decide)

theorem length_zeros (width : Nat) (digits : List Char) :
    (zeroPad.zeros width digits).length = max width digits.length := by
  rw [zeroPad.zeros, length_append, length_replicate]
  omega

theorem split_last {α : Type} {c : α} {front front' back back' : List α} (hback : c ∉ back)
    (hback' : c ∉ back') (h : front ++ c :: back = front' ++ c :: back') :
    front = front' ∧ back = back' := by
  have hsame : ∀ {rest l l' : List α}, c ∉ l → c :: l = rest ++ c :: l' → rest = [] ∧ l = l' := by
    intro rest l l' hl heq
    cases rest with
    | nil => exact ⟨rfl, (List.cons.inj heq).2⟩
    | cons x rest =>
      have hmem : c ∈ l := by
        rw [(List.cons.inj heq).2]
        exact mem_append_right _ mem_cons_self
      exact absurd hmem hl
  rcases append_eq_append_iff.mp h with ⟨rest, rfl, heq⟩ | ⟨rest, rfl, heq⟩
  · obtain ⟨rfl, rfl⟩ := hsame hback heq
    exact ⟨(append_nil _).symm, rfl⟩
  · obtain ⟨rfl, rfl⟩ := hsame hback' heq
    exact ⟨append_nil _, rfl⟩

/-! ## Order -/

theorem append_lt_append_iff {α : Type} [LinearOrder α] {a b c d : List α}
    (h : a.length = b.length) : a ++ c < b ++ d ↔ a < b ∨ a = b ∧ c < d := by
  induction a generalizing b with
  | nil =>
    have hb : b = [] := eq_nil_of_length_eq_zero (h.symm)
    simp [hb]
  | cons x a ih =>
    cases b with
    | nil => cases h
    | cons y b =>
      have hlen : a.length = b.length := by simpa using h
      rw [cons_append, cons_append, cons_lt_cons_iff, cons_lt_cons_iff,
        ih hlen, List.cons.injEq]
      tauto

theorem fixed_lt_fixed_iff {w m n : Nat} (hm : m < 10 ^ w) (hn : n < 10 ^ w) :
    fixed w m < fixed w n ↔ m < n := by
  induction w generalizing m n with
  | zero =>
    have hm0 : m = 0 := by simpa using hm
    have hn0 : n = 0 := by simpa using hn
    simp [fixed, hm0, hn0]
  | succ w ih =>
    have hmod : m % 10 < 10 := Nat.mod_lt m (by decide)
    have hmod' : n % 10 < 10 := Nat.mod_lt n (by decide)
    rw [fixed, fixed, append_lt_append_iff (by simp), ih (by omega) (by omega),
      fixed_inj (by omega) (by omega)]
    have hlast : [Nat.digitChar (m % 10)] < [Nat.digitChar (n % 10)] ↔ m % 10 < n % 10 := by
      rw [cons_lt_cons_iff, digitChar_lt_iff hmod hmod']
      simp
    rw [hlast]
    omega

/-- Two texts that begin with a number of one width and a separator. -/
theorem fixed_append_lt_iff {w m n : Nat} (hm : m < 10 ^ w) (hn : n < 10 ^ w) (c : Char)
    (a b : List Char) : fixed w m ++ c :: a < fixed w n ++ c :: b ↔ m < n ∨ m = n ∧ a < b := by
  rw [append_lt_append_iff (by simp), fixed_lt_fixed_iff hm hn, fixed_inj hm hn]
  simp

end SoroTrail.Lib.Decimal
