import Mathlib.Data.List.TakeWhile
import SoroTrail.Lib.Decimal

/-!
# Civil times in UTC

A time is kept as its calendar fields, with years 1 to 9999.  Comparing two times
is comparing their fields from the year down, which `rank` packs into one number.
Two texts are printed: RFC 3339 with the shortest fraction, which is read back as
the same time, and RFC 3339 with nine digits of fraction, which sorts as the times
do.
-/

set_option autoImplicit false

namespace SoroTrail.Lib

open List Decimal

def isLeap (year : Nat) : Bool :=
  decide (year % 4 = 0 ∧ (year % 100 ≠ 0 ∨ year % 400 = 0))

def daysIn (month year : Nat) : Nat :=
  if month = 2 then (if isLeap year then 29 else 28)
  else if month = 4 ∨ month = 6 ∨ month = 9 ∨ month = 11 then 30
  else 31

theorem daysIn_le (month year : Nat) : daysIn month year ≤ 31 := by
  unfold daysIn
  split
  · split <;> omega
  · split <;> omega

structure Time where
  year : Nat
  month : Nat
  day : Nat
  hour : Nat
  minute : Nat
  second : Nat
  nano : Nat
  bounds : (1 ≤ year ∧ year ≤ 9999) ∧ (1 ≤ month ∧ month ≤ 12) ∧ (1 ≤ day ∧ day ≤ daysIn month year) ∧
    hour < 24 ∧ minute < 60 ∧ second < 60 ∧ nano < 1000000000
  deriving DecidableEq, Repr

namespace Time

def zero : Time where
  year := 1
  month := 1
  day := 1
  hour := 0
  minute := 0
  second := 0
  nano := 0
  bounds := by decide

def clock (t : Time) : Nat :=
  t.hour * 3600000000000 + (t.minute * 60000000000 + (t.second * 1000000000 + t.nano))

def rank (t : Time) : Nat :=
  t.year * 35942400000000000 + (t.month * 2764800000000000 + (t.day * 86400000000000 + t.clock))

theorem small (t : Time) : t.year < 10 ^ 4 ∧ t.month < 13 ∧ t.day < 32 ∧ t.hour < 24 ∧
    t.minute < 60 ∧ t.second < 60 ∧ t.nano < 10 ^ 9 := by
  have hb := t.bounds
  have hday := daysIn_le t.month t.year
  omega

theorem pack_lt_iff {a a' b b' B : Nat} (hb : b < B) (hb' : b' < B) :
    a * B + b < a' * B + b' ↔ a < a' ∨ a = a' ∧ b < b' := by
  rcases Nat.lt_trichotomy a a' with hlt | heq | hgt
  · have hmul : (a + 1) * B ≤ a' * B := Nat.mul_le_mul_right B hlt
    rw [Nat.succ_mul] at hmul
    exact ⟨fun _ => .inl hlt, fun _ => by omega⟩
  · subst heq
    simp
  · have hmul : (a' + 1) * B ≤ a * B := Nat.mul_le_mul_right B hgt
    rw [Nat.succ_mul] at hmul
    constructor
    · omega
    · omega

theorem pack_eq_iff {a a' b b' B : Nat} (hb : b < B) (hb' : b' < B) :
    a * B + b = a' * B + b' ↔ a = a' ∧ b = b' := by
  have hlt : a * B + b < a' * B + b' ↔ _ := pack_lt_iff hb hb'
  have hgt : a' * B + b' < a * B + b ↔ _ := pack_lt_iff hb' hb
  omega

theorem parts_lt (t : Time) : t.nano < 1000000000 ∧
    t.second * 1000000000 + t.nano < 60000000000 ∧
    t.minute * 60000000000 + (t.second * 1000000000 + t.nano) < 3600000000000 ∧
    t.clock < 86400000000000 ∧ t.day * 86400000000000 + t.clock < 2764800000000000 ∧
    t.month * 2764800000000000 + (t.day * 86400000000000 + t.clock) < 35942400000000000 := by
  have hs := t.small
  unfold clock
  omega

theorem rank_injective : Function.Injective rank := by
  intro s t heq
  obtain ⟨s1, s2, s3, s4, s5, s6⟩ := s.parts_lt
  obtain ⟨t1, t2, t3, t4, t5, t6⟩ := t.parts_lt
  rw [rank, rank, pack_eq_iff s6 t6, pack_eq_iff s5 t5, pack_eq_iff s4 t4, clock, clock,
    pack_eq_iff s3 t3, pack_eq_iff s2 t2, pack_eq_iff s1 t1] at heq
  cases s
  cases t
  simpa only [mk.injEq] using heq

instance : LinearOrder Time := LinearOrder.lift' rank rank_injective

theorem le_iff_rank {s t : Time} : s ≤ t ↔ s.rank ≤ t.rank := Iff.rfl

theorem lt_iff_rank {s t : Time} : s < t ↔ s.rank < t.rank := Iff.rfl

theorem zero_le (t : Time) : zero ≤ t := by
  rw [le_iff_rank]
  have hb := t.bounds
  simp only [rank, clock, zero]
  omega

/-! ## Text -/

/-- The date and the time of day to the second, then `rest`. -/
def civil (t : Time) (rest : List Char) : List Char :=
  fixed 4 t.year ++ '-' :: (fixed 2 t.month ++ '-' :: (fixed 2 t.day ++
    'T' :: (fixed 2 t.hour ++ ':' :: (fixed 2 t.minute ++ ':' ::
      (fixed 2 t.second ++ rest)))))

def trimZeros (digits : List Char) : List Char :=
  (digits.reverse.dropWhile fun c => decide (c = '0')).reverse

def shortFraction (nano : Nat) : List Char :=
  if nano = 0 then [] else '.' :: trimZeros (fixed 9 nano)

/-- The layout `2006-01-02T15:04:05.999999999Z07:00`. -/
def rfc3339Nano (t : Time) : List Char :=
  t.civil (shortFraction t.nano ++ ['Z'])

/-- The layout `2006-01-02T15:04:05.000000000Z07:00`. -/
def fixedNano (t : Time) : List Char :=
  t.civil ('.' :: (fixed 9 t.nano ++ ['Z']))

def field (w : Nat) (cs : List Char) : Option (Nat × List Char) :=
  if cs.length < w then none
  else (Text.readDigits (cs.take w) 0).map fun n => (n, cs.drop w)

def expect (c : Char) : List Char → Option (List Char)
  | [] => none
  | x :: xs => if x = c then some xs else none

/-- Digits after the point as nanoseconds; those past the ninth are dropped. -/
def nanoseconds (digits : List Char) : Option Nat :=
  (Text.readDigits (digits.take 9) 0).map fun n => n * 10 ^ (9 - (digits.take 9).length)

def fraction : List Char → Option (Nat × List Char)
  | '.' :: cs =>
    let digits := cs.takeWhile fun c => decide (IsDigit c)
    if digits = [] then some (0, '.' :: cs)
    else (nanoseconds digits).map fun n => (n, cs.dropWhile fun c => decide (IsDigit c))
  | cs => some (0, cs)

def ofFields (year month day hour minute second nano : Nat) : Option Time :=
  if h : (1 ≤ year ∧ year ≤ 9999) ∧ (1 ≤ month ∧ month ≤ 12) ∧ (1 ≤ day ∧ day ≤ daysIn month year) ∧
      hour < 24 ∧ minute < 60 ∧ second < 60 ∧ nano < 1000000000 then
    some ⟨year, month, day, hour, minute, second, nano, h⟩
  else none

def parseDate (cs : List Char) : Option (Nat × Nat × Nat × List Char) := do
  let (year, cs) ← field 4 cs
  let cs ← expect '-' cs
  let (month, cs) ← field 2 cs
  let cs ← expect '-' cs
  let (day, cs) ← field 2 cs
  let cs ← expect 'T' cs
  return (year, month, day, cs)

def parseClock (cs : List Char) : Option (Nat × Nat × Nat × Nat × List Char) := do
  let (hour, cs) ← field 2 cs
  let cs ← expect ':' cs
  let (minute, cs) ← field 2 cs
  let cs ← expect ':' cs
  let (second, cs) ← field 2 cs
  let (nano, cs) ← fraction cs
  return (hour, minute, second, nano, cs)

def parseUTC (cs : List Char) : Option Time :=
  match parseDate cs with
  | none => none
  | some (year, month, day, cs) =>
    match parseClock cs with
    | none => none
    | some (hour, minute, second, nano, cs) =>
      if cs = ['Z'] then ofFields year month day hour minute second nano else none

/-! ## Reading back -/

theorem field_fixed {w n : Nat} (h : n < 10 ^ w) (rest : List Char) :
    field w (fixed w n ++ rest) = some (n, rest) := by
  have htake : (fixed w n ++ rest).take w = fixed w n := by
    rw [take_append_of_le_length (by simp), take_of_length_le (by simp)]
  rw [field, htake, readDigits_fixed h]
  simp

@[simp] theorem expect_cons (c : Char) (cs : List Char) : expect c (c :: cs) = some cs := by
  simp [expect]

theorem trimZeros_append (digits : List Char) :
    ∃ k, digits = trimZeros digits ++ List.replicate k '0' := by
  refine ⟨(digits.reverse.takeWhile fun c => decide (c = '0')).length, ?_⟩
  have hzeros : digits.reverse.takeWhile (fun c => decide (c = '0')) =
      List.replicate (digits.reverse.takeWhile fun c => decide (c = '0')).length '0' := by
    rw [eq_replicate_iff]
    refine ⟨rfl, ?_⟩
    intro c hc
    simpa using mem_takeWhile_imp hc
  have hsplit := congrArg List.reverse
    (takeWhile_append_dropWhile (p := fun c => decide (c = '0')) (l := digits.reverse))
  rw [reverse_append, reverse_reverse, hzeros, reverse_replicate] at hsplit
  exact hsplit.symm

theorem nanoseconds_trimZeros {n : Nat} (h : n < 10 ^ 9) :
    nanoseconds (trimZeros (fixed 9 n)) = some n := by
  obtain ⟨k, hk⟩ := trimZeros_append (fixed 9 n)
  have hlen : (trimZeros (fixed 9 n)).length + k = 9 := by
    have := congrArg List.length hk
    simpa using this.symm
  have hread := readDigits_fixed h 0
  rw [hk, readDigits_append] at hread
  rw [nanoseconds, take_of_length_le (by omega)]
  cases hfront : Text.readDigits (trimZeros (fixed 9 n)) 0 with
  | none => simp [hfront] at hread
  | some m =>
    simp only [hfront, Option.bind_some, readDigits_zeros, Option.some.injEq] at hread
    rw [Option.map_some, show 9 - (trimZeros (fixed 9 n)).length = k by omega, hread]
    simp

theorem isDigit_of_mem_trimZeros {n : Nat} {c : Char}
    (h : c ∈ trimZeros (fixed 9 n)) : IsDigit c := by
  obtain ⟨k, hk⟩ := trimZeros_append (fixed 9 n)
  apply isDigit_of_mem_fixed
  rw [hk]
  exact mem_append_left _ h

theorem fraction_shortFraction {n : Nat} (h : n < 10 ^ 9) :
    fraction (shortFraction n ++ ['Z']) = some (n, ['Z']) := by
  unfold shortFraction
  split
  · rename_i hzero
    rw [hzero]
    rfl
  · rename_i hpos
    have hdigits : ∀ c ∈ trimZeros (fixed 9 n), decide (IsDigit c) = true := by
      intro c hc
      simpa using isDigit_of_mem_trimZeros hc
    have hZ : decide (IsDigit 'Z') = false := by decide
    have hne : trimZeros (fixed 9 n) ≠ [] := by
      intro hnil
      have hread := nanoseconds_trimZeros h
      rw [hnil, show nanoseconds [] = some 0 from rfl] at hread
      exact hpos (Option.some.inj hread).symm
    rw [cons_append, fraction, takeWhile_append_of_pos hdigits, dropWhile_append_of_pos hdigits]
    simp [hZ, hne, nanoseconds_trimZeros h]

/-- A time is read back from its text. -/
theorem parseUTC_rfc3339Nano (t : Time) : parseUTC t.rfc3339Nano = some t := by
  obtain ⟨hy, hmo, hd, hh, hmi, hse, hn⟩ := t.small
  have hdate : ∀ rest, parseDate (fixed 4 t.year ++ '-' :: (fixed 2 t.month ++
      '-' :: (fixed 2 t.day ++ 'T' :: rest))) = some (t.year, t.month, t.day, rest) := by
    have hmonth := field_fixed (show t.month < 10 ^ 2 by omega)
    have hday := field_fixed (show t.day < 10 ^ 2 by omega)
    simp [parseDate, field_fixed hy, hmonth, hday]
  have hclock : parseClock (fixed 2 t.hour ++ ':' :: (fixed 2 t.minute ++ ':' ::
      (fixed 2 t.second ++ (shortFraction t.nano ++ ['Z'])))) =
        some (t.hour, t.minute, t.second, t.nano, ['Z']) := by
    have hhour := field_fixed (show t.hour < 10 ^ 2 by omega)
    have hminute := field_fixed (show t.minute < 10 ^ 2 by omega)
    have hsecond := field_fixed (show t.second < 10 ^ 2 by omega)
    simp [parseClock, hhour, hminute, hsecond, fraction_shortFraction hn]
  rw [parseUTC, rfc3339Nano, civil, hdate]
  dsimp only
  rw [hclock]
  dsimp only
  rw [if_pos rfl, ofFields, dif_pos t.bounds]

/-- Texts with nine digits of fraction sort as the times do. -/
theorem fixedNano_lt_iff (s t : Time) : s.fixedNano < t.fixedNano ↔ s < t := by
  obtain ⟨hy, hmo, hd, hh, hmi, hse, hn⟩ := s.small
  obtain ⟨hy', hmo', hd', hh', hmi', hse', hn'⟩ := t.small
  obtain ⟨s1, s2, s3, s4, s5, s6⟩ := s.parts_lt
  obtain ⟨t1, t2, t3, t4, t5, t6⟩ := t.parts_lt
  rw [lt_iff_rank, rank, rank, pack_lt_iff s6 t6, pack_lt_iff s5 t5, pack_lt_iff s4 t4, clock, clock,
    pack_lt_iff s3 t3, pack_lt_iff s2 t2, pack_lt_iff s1 t1, fixedNano, fixedNano, civil, civil,
    fixed_append_lt_iff hy hy', fixed_append_lt_iff (by omega) (by omega),
    fixed_append_lt_iff (by omega) (by omega), fixed_append_lt_iff (by omega) (by omega),
    fixed_append_lt_iff (by omega) (by omega), fixed_append_lt_iff (by omega) (by omega),
    fixed_append_lt_iff hn hn']
  simp

end Time

end SoroTrail.Lib
