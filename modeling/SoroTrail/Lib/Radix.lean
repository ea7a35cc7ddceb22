import Mathlib.Algebra.BigOperators.Group.List.Basic
import Mathlib.Data.List.GetD
import Mathlib.Data.List.Induction
import Mathlib.Tactic.Ring

/-!
# Bytes written with an alphabet of a power of two

Hexadecimal, base32 and base64 text are one construction: the bits of the bytes,
cut into groups of `w`, each group written as one letter of an alphabet of `2 ^ w`
letters.  Reading takes the bits of the letters and keeps the whole bytes.
-/

set_option autoImplicit false

namespace SoroTrail.Lib.Radix

open List Bool

/-- The low `w` bits of a number, the highest first. -/
def toBits : Nat → Nat → List Bool
  | 0, _ => []
  | w + 1, n => toBits w (n / 2) ++ [decide (n % 2 = 1)]

def ofBits (bits : List Bool) : Nat :=
  bits.foldl (fun acc b => 2 * acc + b.toNat) 0

@[simp] theorem length_toBits (w n : Nat) : (toBits w n).length = w := by
  induction w generalizing n with
  | zero => rfl
  | succ w ih => simp [toBits, ih]

variable (bits : List Bool)

theorem ofBits_concat (b : Bool) :
    ofBits (bits ++ [b]) = 2 * ofBits bits + b.toNat := by
  simp [ofBits]

variable {w : Nat} {alphabet : List Char}

theorem ofBits_toBits {n : Nat} (h : n < 2 ^ w) : ofBits (toBits w n) = n := by
  induction w generalizing n with
  | zero =>
    have hn : n = 0 := by simpa using h
    simp [toBits, ofBits, hn]
  | succ w ih =>
    have hhalf : n / 2 < 2 ^ w := by
      omega
    rw [toBits, ofBits_concat, ih hhalf]
    rcases Nat.mod_two_eq_zero_or_one n with hbit | hbit
    · simp only [hbit, zero_ne_one, decide_false, toNat_false]
      omega
    · simp only [hbit, decide_true, toNat_true]
      omega

theorem ofBits_lt : ofBits bits < 2 ^ bits.length := by
  induction bits using List.reverseRecOn with
  | nil => simp [ofBits]
  | append_singleton bits b ih =>
    have hbit : b.toNat ≤ 1 := toNat_le b
    rw [ofBits_concat, length_append, length_singleton]
    omega

theorem toBits_ofBits : toBits bits.length (ofBits bits) = bits := by
  induction bits using List.reverseRecOn with
  | nil => rfl
  | append_singleton bits b ih =>
    have hhalf : (2 * ofBits bits + b.toNat) / 2 = ofBits bits := by
      have hbit : b.toNat ≤ 1 := toNat_le b
      omega
    have hlow : decide ((2 * ofBits bits + b.toNat) % 2 = 1) = b := by
      cases b <;> simp
    rw [length_append, length_singleton, ofBits_concat, toBits, hhalf, hlow, ih]

/-! ## Groups of bits -/

/-- Cut into groups of `w`, the last one filled up with zeros; `acc` is the group begun. -/
def groups (w : Nat) : List Bool → List Bool → List (List Bool)
  | acc, [] => if acc = [] then [] else [acc ++ List.replicate (w - acc.length) false]
  | acc, b :: bits =>
    if acc.length + 1 = w then (acc ++ [b]) :: groups w [] bits else groups w (acc ++ [b]) bits

/-- Cut into groups of `w` and drop what is left over. -/
def wholeGroups (w : Nat) : List Bool → List Bool → List (List Bool)
  | _, [] => []
  | acc, b :: bits =>
    if acc.length + 1 = w then (acc ++ [b]) :: wholeGroups w [] bits
    else wholeGroups w (acc ++ [b]) bits

theorem length_of_mem_groups (acc group : List Bool) (hacc : acc.length < w)
    (h : group ∈ groups w acc bits) : group.length = w := by
  induction bits generalizing acc with
  | nil =>
    unfold groups at h
    split at h
    · cases h
    · rw [mem_singleton] at h
      rw [h, length_append, length_replicate]
      omega
  | cons b bits ih =>
    unfold groups at h
    split at h
    · rename_i hfull
      cases h with
      | head => simpa using hfull
      | tail _ h => exact ih [] (by simp only [length_nil]; omega) h
    · exact ih (acc ++ [b]) (by rw [length_append, length_singleton]; omega) h

theorem flatten_groups (acc : List Bool) (hacc : acc.length < w) :
    ∃ k < w, (groups w acc bits).flatten = acc ++ bits ++ List.replicate k false := by
  induction bits generalizing acc with
  | nil =>
    unfold groups
    split
    · rename_i hnil
      exact ⟨0, by omega, by simp [hnil]⟩
    · rename_i hsome
      have hpos : 0 < acc.length := length_pos_iff.mpr hsome
      exact ⟨w - acc.length, by omega, by simp⟩
  | cons b bits ih =>
    unfold groups
    split
    · obtain ⟨k, hk, hflat⟩ := ih [] (by simp only [length_nil]; omega)
      exact ⟨k, hk, by simp [hflat]⟩
    · obtain ⟨k, hk, hflat⟩ :=
        ih (acc ++ [b]) (by rw [length_append, length_singleton]; omega)
      exact ⟨k, hk, by simp [hflat]⟩

theorem wholeGroups_fill (group acc rest : List Bool) (hne : group ≠ [])
    (hlen : acc.length + group.length = w) :
    wholeGroups w acc (group ++ rest) = (acc ++ group) :: wholeGroups w [] rest := by
  induction group generalizing acc with
  | nil => exact absurd rfl hne
  | cons b group ih =>
    rw [cons_append, wholeGroups]
    by_cases hlast : group = []
    · subst hlast
      have hfull : acc.length + 1 = w := hlen
      simp [hfull]
    · have hpos : 0 < group.length := length_pos_iff.mpr hlast
      have hmore : acc.length + 1 ≠ w := by
        rw [length_cons] at hlen
        omega
      rw [if_neg hmore, ih (acc ++ [b]) hlast (by simp at hlen ⊢; omega)]
      simp

theorem wholeGroups_short (acc : List Bool) (h : acc.length + bits.length < w) :
    wholeGroups w acc bits = [] := by
  induction bits generalizing acc with
  | nil => rfl
  | cons b bits ih =>
    rw [length_cons] at h
    rw [wholeGroups, if_neg (by omega)]
    exact ih (acc ++ [b]) (by rw [length_append, length_singleton]; omega)

theorem wholeGroups_flatten (hw : 0 < w) (gs : List (List Bool)) (hlen : ∀ g ∈ gs, g.length = w)
    (rest : List Bool) (hrest : rest.length < w) : wholeGroups w [] (gs.flatten ++ rest) = gs := by
  induction gs with
  | nil => simpa using wholeGroups_short rest [] (by simpa using hrest)
  | cons g gs ih =>
    have hg : g.length = w := hlen g mem_cons_self
    have hne : g ≠ [] := by
      rw [← length_pos_iff, hg]
      exact hw
    rw [flatten_cons, append_assoc, wholeGroups_fill g [] _ hne (by simpa using hg),
      ih fun x hx => hlen x (.tail _ hx), List.nil_append]

/-! ## Bytes -/

def byteBits (bytes : List UInt8) : List Bool :=
  bytes.flatMap fun b => toBits 8 b.toNat

@[simp] theorem length_byteBits (bytes : List UInt8) : (byteBits bytes).length = 8 * bytes.length := by
  induction bytes with
  | nil => rfl
  | cons b bytes ih =>
    rw [byteBits, flatMap_cons, length_append, ← byteBits, length_toBits,
      length_cons]
    omega

def letter (alphabet : List Char) (d : Nat) : Char :=
  alphabet.getD d ' '

def encode (w : Nat) (alphabet : List Char) (bytes : List UInt8) : List Char :=
  (groups w [] (byteBits bytes)).map fun g => letter alphabet (ofBits g)

/-- The whole bytes among the bits of the letters; `none` at a letter of another alphabet. -/
def decode (w : Nat) (alphabet : List Char) (text : List Char) : Option (List UInt8) :=
  match text.mapM fun c => alphabet.idxOf? c with
  | some digits =>
    some ((wholeGroups 8 [] (digits.flatMap (toBits w))).map fun g => UInt8.ofNat (ofBits g))
  | none => none

theorem length_encode_mul (hw : 0 < w) (alphabet : List Char) (bytes : List UInt8) :
    ∃ k < w, (encode w alphabet bytes).length * w = 8 * bytes.length + k := by
  obtain ⟨k, hk, hflat⟩ := flatten_groups (byteBits bytes) [] (hw)
  have hall : ∀ g ∈ groups w [] (byteBits bytes), g.length = w := fun g hg =>
    length_of_mem_groups (byteBits bytes) [] g (hw) hg
  have hlen : ((groups w [] (byteBits bytes)).flatten).length =
      (groups w [] (byteBits bytes)).length * w := by
    rw [length_flatten, map_congr_left hall, map_const', sum_replicate_nat]
  rw [hflat, List.nil_append, length_append, length_replicate, length_byteBits] at hlen
  refine ⟨k, hk, ?_⟩
  rw [encode, length_map]
  exact hlen.symm

theorem length_encode (hw : 0 < w) (alphabet : List Char) (bytes : List UInt8) {n : Nat}
    (h : 8 * bytes.length = n * w) : (encode w alphabet bytes).length = n := by
  obtain ⟨k, hk, hlen⟩ := length_encode_mul hw alphabet bytes
  rw [h] at hlen
  -- what fills the last group is less than a group, so there is nothing
  apply Nat.le_antisymm
  · apply Nat.le_of_lt_succ
    apply Nat.lt_of_mul_lt_mul_right (a := w)
    rw [Nat.succ_mul]
    omega
  · apply Nat.le_of_mul_le_mul_right _ hw
    omega

theorem mem_alphabet_of_mem_encode (hw : 0 < w) (hsize : alphabet.length = 2 ^ w)
    {bytes : List UInt8} {c : Char} (h : c ∈ encode w alphabet bytes) : c ∈ alphabet := by
  obtain ⟨g, hg, rfl⟩ := mem_map.mp h
  have hlen : g.length = w := length_of_mem_groups (byteBits bytes) [] g (hw) hg
  have hdigit : ofBits g < alphabet.length := by
    rw [hsize, ← hlen]
    exact ofBits_lt g
  rw [letter, getD_eq_getElem _ _ hdigit]
  exact getElem_mem hdigit

/-- The letters of an alphabet without repetition are told apart. -/
def Readable (w : Nat) (alphabet : List Char) : Prop :=
  ∀ d < 2 ^ w, alphabet.idxOf? (letter alphabet d) = some d

theorem mapM_letters (hread : Readable w alphabet) (gs : List (List Bool))
    (hlen : ∀ g ∈ gs, g.length = w) :
    (gs.map fun g => letter alphabet (ofBits g)).mapM (fun c => alphabet.idxOf? c) =
      some (gs.map ofBits) := by
  induction gs with
  | nil => rfl
  | cons g gs ih =>
    have hdigit : ofBits g < 2 ^ w := by
      rw [← hlen g (.head _)]
      exact ofBits_lt g
    have htail := ih fun x hx => hlen x (.tail _ hx)
    simp only [map_cons, mapM_cons, hread _ hdigit, htail]
    rfl

theorem flatMap_toBits_ofBits (gs : List (List Bool)) (hlen : ∀ g ∈ gs, g.length = w) :
    (gs.map ofBits).flatMap (toBits w) = gs.flatten := by
  induction gs with
  | nil => rfl
  | cons g gs ih =>
    have hg : toBits w (ofBits g) = g := by
      rw [← hlen g (.head _)]
      exact toBits_ofBits g
    rw [map_cons, flatMap_cons, hg, flatten_cons,
      ih fun x hx => hlen x (.tail _ hx)]

theorem decode_encode (hw : 0 < w) (hw8 : w ≤ 8) (hread : Readable w alphabet)
    (bytes : List UInt8) : decode w alphabet (encode w alphabet bytes) = some bytes := by
  have hall : ∀ g ∈ groups w [] (byteBits bytes), g.length = w := fun g hg =>
    length_of_mem_groups (byteBits bytes) [] g (hw) hg
  obtain ⟨k, hk, hflat⟩ := flatten_groups (byteBits bytes) [] (hw)
  have hwhole : wholeGroups 8 [] (byteBits bytes ++ List.replicate k false) =
      bytes.map fun b => toBits 8 b.toNat := by
    apply wholeGroups_flatten (by decide) (bytes.map fun b => toBits 8 b.toNat)
    · intro g hg
      obtain ⟨b, _, rfl⟩ := mem_map.mp hg
      exact length_toBits 8 b.toNat
    · rw [length_replicate]
      omega
  have hbyte : ∀ b : UInt8, UInt8.ofNat (ofBits (toBits 8 b.toNat)) = b := by
    intro b
    rw [ofBits_toBits b.toNat_lt, UInt8.ofNat_toNat]
  rw [decode, encode, mapM_letters hread _ hall]
  simp only [flatMap_toBits_ofBits _ hall, hflat, List.nil_append, hwhole, List.map_map]
  simp [Function.comp_def, hbyte]

theorem decode_head {rest : List Char} {c d : Char} {i : Nat} {raw : List UInt8}
    (hc : alphabet.idxOf? c = some i) (hi : i < 2 ^ 6)
    (h : decode 6 alphabet (c :: d :: rest) = some raw) :
    ∃ b tail, raw = b :: tail ∧ 4 * i ≤ b.toNat ∧ b.toNat < 4 * i + 4 := by
  rw [decode, mapM_cons, mapM_cons, hc] at h
  cases hd : alphabet.idxOf? d with
  | none => simp [hd] at h
  | some j =>
    cases hrest : rest.mapM alphabet.idxOf? with
    | none => simp [hd, hrest] at h
    | some digits =>
      obtain ⟨x, y, more, hj⟩ : ∃ x y more, toBits 6 j = x :: y :: more := ⟨_, _, _, rfl⟩
      have hfill := wholeGroups_fill (w := 8) (toBits 6 i ++ [x, y]) []
        (more ++ digits.flatMap (toBits 6)) (by simp) (by simp)
      have hbits : (i :: j :: digits).flatMap (toBits 6) =
          toBits 6 i ++ [x, y] ++ (more ++ digits.flatMap (toBits 6)) := by
        simp [hj]
      have hvalue : ofBits (toBits 6 i ++ [x, y]) = 4 * i + (2 * x.toNat + y.toNat) := by
        rw [show toBits 6 i ++ [x, y] = toBits 6 i ++ [x] ++ [y] by simp, ofBits_concat,
          ofBits_concat, ofBits_toBits hi]
        ring
      have hx := toNat_le x
      have hy := toNat_le y
      simp only [hd, hrest, Option.bind_eq_bind, Option.bind_some, Option.pure_def, hbits, hfill,
        List.nil_append, map_cons, Option.some.injEq] at h
      refine ⟨_, _, h.symm, ?_⟩
      rw [UInt8.toNat_ofNat']
      omega

end SoroTrail.Lib.Radix
