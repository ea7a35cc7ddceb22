import Mathlib.Algebra.Group.Nat.Defs
import Mathlib.Algebra.Ring.Int.Defs
import Mathlib.Data.List.Basic
import Mathlib.Data.Nat.Log

/-!
# JSON documents

The values of a document with exact decimal numbers, the reader of the text, and
the conversion of the numbers to binary64.  Two documents have the same value when
they are read as equal trees; they may be told apart no longer once their numbers
have been rounded.
-/

set_option autoImplicit false

namespace SoroTrail.Lib

/-- A JSON value over a type of numbers; the members of an object are in the order of their keys,
and a key has one member. -/
inductive Json (ν : Type) where
  | null
  | bool (b : Bool)
  | num (n : ν)
  | str (s : List Char)
  | arr (items : List (Json ν))
  | obj (fields : List (List Char × Json ν))
  deriving Repr

namespace Json

section DecidableEq

variable {ν : Type} [DecidableEq ν]

mutual

def decEq : (x y : Json ν) → Decidable (x = y)
  | .null, y =>
    match y with
    | .null => isTrue rfl
    | .bool _ | .num _ | .str _ | .arr _ | .obj _ => isFalse nofun
  | .bool a, y =>
    match y with
    | .bool b => decidable_of_iff (a = b) (by simp)
    | .null | .num _ | .str _ | .arr _ | .obj _ => isFalse nofun
  | .num a, y =>
    match y with
    | .num b => decidable_of_iff (a = b) (by simp)
    | .null | .bool _ | .str _ | .arr _ | .obj _ => isFalse nofun
  | .str a, y =>
    match y with
    | .str b => decidable_of_iff (a = b) (by simp)
    | .null | .bool _ | .num _ | .arr _ | .obj _ => isFalse nofun
  | .arr a, y =>
    match y with
    | .arr b => @decidable_of_iff _ (a = b) (by simp) (decItems a b)
    | .null | .bool _ | .num _ | .str _ | .obj _ => isFalse nofun
  | .obj a, y =>
    match y with
    | .obj b => @decidable_of_iff _ (a = b) (by simp) (decFields a b)
    | .null | .bool _ | .num _ | .str _ | .arr _ => isFalse nofun

def decItems : (x y : List (Json ν)) → Decidable (x = y)
  | [], [] => isTrue rfl
  | [], _ :: _ | _ :: _, [] => isFalse nofun
  | a :: x, b :: y =>
    @decidable_of_iff _ (a = b ∧ x = y) (by simp) (@instDecidableAnd _ _ (decEq a b) (decItems x y))

def decFields : (x y : List (List Char × Json ν)) → Decidable (x = y)
  | [], [] => isTrue rfl
  | [], _ :: _ | _ :: _, [] => isFalse nofun
  | (k, a) :: x, (l, b) :: y =>
    @decidable_of_iff _ (k = l ∧ a = b ∧ x = y) (by simp [and_assoc])
      (@instDecidableAnd _ _ (inferInstanceAs (Decidable (k = l)))
        (@instDecidableAnd _ _ (decEq a b) (decFields x y)))

end

instance : DecidableEq (Json ν) := decEq

end DecidableEq

/-! ## Numbers -/

/-- `mant` times a power of ten; `mant` is no multiple of ten unless both are zero. -/
structure Number where
  mant : Int
  exp : Int
  deriving DecidableEq, Repr

/-- Move factors of ten to the exponent, at most `fuel` of them. -/
def Number.strip : Nat → Int → Int → Number
  | 0, mant, exp => ⟨mant, exp⟩
  | fuel + 1, mant, exp => if mant % 10 = 0 then strip fuel (mant / 10) (exp + 1) else ⟨mant, exp⟩

def Number.of (mant exp : Int) : Number :=
  if mant = 0 then ⟨0, 0⟩ else Number.strip (Nat.log 10 mant.natAbs) mant exp

/-- A finite binary64 number: `mant` times a power of two. -/
structure Binary64 where
  mant : Int
  exp : Int
  deriving DecidableEq, Repr

def roundHalfEven (n d : Nat) : Nat :=
  if 2 * (n % d) < d ∨ (2 * (n % d) = d ∧ n / d % 2 = 0) then n / d else n / d + 1

/-- The exponent of the largest power of two that is not above a quotient. -/
def log2Quotient (n d : Nat) : Int :=
  let guess : Int := n.log2 - d.log2
  if n * 2 ^ (-guess).toNat < d * 2 ^ guess.toNat then guess - 1 else guess

def Number.toBinary64 (x : Number) : Option Binary64 :=
  let n := x.mant.natAbs * 10 ^ x.exp.toNat
  let d := 10 ^ (-x.exp).toNat
  let ulp := max (log2Quotient n d - 52) (-1074)
  let mant := roundHalfEven (n * 2 ^ (-ulp).toNat) (d * 2 ^ ulp.toNat)
  if mant = 0 then some ⟨0, 0⟩
  else if ulp > 971 ∨ (ulp = 971 ∧ mant = 2 ^ 53) then none
  else if mant = 2 ^ 53 then some ⟨x.mant.sign * 2 ^ 52, ulp + 1⟩
  else some ⟨x.mant.sign * mant, ulp⟩

example : (Number.of (2 ^ 53 + 1) 0).toBinary64 = (Number.of (2 ^ 53) 0).toBinary64 := by decide

example : (Number.of 1 (-1)).toBinary64 = some ⟨0x1999999999999A, -56⟩ := by decide

/-! ## Reading -/

def isSpace (c : Char) : Bool := c == ' ' || c == '\t' || c == '\n' || c == '\r'

def skipSpace (cs : List Char) : List Char := cs.dropWhile isSpace

def hexDigit (c : Char) : Option Nat :=
  if '0' ≤ c ∧ c ≤ '9' then some (c.toNat - '0'.toNat)
  else if 'a' ≤ c ∧ c ≤ 'f' then some (c.toNat - 'a'.toNat + 10)
  else if 'A' ≤ c ∧ c ≤ 'F' then some (c.toNat - 'A'.toNat + 10)
  else none

def hex4 (a b c d : Char) : Option Nat := do
  let a ← hexDigit a
  let b ← hexDigit b
  let c ← hexDigit c
  let d ← hexDigit d
  return ((a * 16 + b) * 16 + c) * 16 + d

def isHigh (n : Nat) : Bool := decide (0xD800 ≤ n ∧ n < 0xDC00)

def isLow (n : Nat) : Bool := decide (0xDC00 ≤ n ∧ n < 0xE000)

def escape : Char → Option Char
  | '"' => some '"'
  | '\\' => some '\\'
  | '/' => some '/'
  | 'b' => some '\x08'
  | 'f' => some '\x0c'
  | 'n' => some '\n'
  | 'r' => some '\r'
  | 't' => some '\t'
  | _ => none

/-- The UTF-16 units and characters of a string after its opening quote. -/
def readUnits : List Char → Option (List (Nat ⊕ Char) × List Char)
  | [] => none
  | '"' :: rest => some ([], rest)
  | '\\' :: 'u' :: a :: b :: c :: d :: rest =>
    match hex4 a b c d, readUnits rest with
    | some n, some (units, rest) => some (.inl n :: units, rest)
    | _, _ => none
  | '\\' :: c :: rest =>
    match escape c, readUnits rest with
    | some c, some (units, rest) => some (.inr c :: units, rest)
    | _, _ => none
  | c :: rest =>
    if c < ' ' then none
    else
      match readUnits rest with
      | some (units, rest) => some (.inr c :: units, rest)
      | none => none

/-- Half a surrogate pair is read as U+FFFD. -/
def joinUnits : List (Nat ⊕ Char) → List Char
  | [] => []
  | .inr c :: rest => c :: joinUnits rest
  | .inl n :: .inl m :: rest =>
    if isHigh n && isLow m then
      Char.ofNat (0x10000 + (n - 0xD800) * 0x400 + (m - 0xDC00)) :: joinUnits rest
    else if isHigh n || isLow n then '\uFFFD' :: joinUnits (.inl m :: rest)
    else Char.ofNat n :: joinUnits (.inl m :: rest)
  | .inl n :: rest => (if isHigh n || isLow n then '\uFFFD' else Char.ofNat n) :: joinUnits rest

def readString (cs : List Char) : Option (List Char × List Char) :=
  (readUnits cs).map fun (units, rest) => (joinUnits units, rest)

def isDigit (c : Char) : Bool := decide ('0' ≤ c ∧ c ≤ '9')

def digits (cs : List Char) : Nat := cs.foldl (fun n c => 10 * n + (c.toNat - '0'.toNat)) 0

def readWhole (cs : List Char) : Option (List Char × List Char) :=
  match cs with
  | '0' :: rest => some (['0'], rest)
  | cs =>
    let (whole, rest) := cs.span isDigit
    if whole = [] then none else some (whole, rest)

def readFraction (cs : List Char) : Option (List Char × List Char) :=
  match cs with
  | '.' :: rest =>
    let (fraction, rest) := rest.span isDigit
    if fraction = [] then none else some (fraction, rest)
  | cs => some ([], cs)

def readExponent (cs : List Char) : Option (Int × List Char) :=
  let unsigned (sign : Int) (cs : List Char) : Option (Int × List Char) :=
    let (ds, rest) := cs.span isDigit
    if ds = [] then none else some (sign * digits ds, rest)
  let signed : List Char → Option (Int × List Char)
    | '+' :: rest => unsigned 1 rest
    | '-' :: rest => unsigned (-1) rest
    | cs => unsigned 1 cs
  match cs with
  | 'e' :: rest => signed rest
  | 'E' :: rest => signed rest
  | cs => some (0, cs)

def readNumber (cs : List Char) : Option (Number × List Char) := do
  let (sign, cs) : Int × List Char :=
    match cs with
    | '-' :: rest => (-1, rest)
    | cs => (1, cs)
  let (whole, cs) ← readWhole cs
  let (fraction, cs) ← readFraction cs
  let (exp, cs) ← readExponent cs
  return (Number.of (sign * digits (whole ++ fraction)) (exp - fraction.length), cs)

/-- The members of an object in the order of their keys; a later member replaces an earlier one. -/
def insertField {ν : Type} (key : List Char) (value : Json ν) :
    List (List Char × Json ν) → List (List Char × Json ν)
  | [] => [(key, value)]
  | (k, v) :: rest =>
    if key = k then (k, value) :: rest
    else if key < k then (key, value) :: (k, v) :: rest
    else (k, v) :: insertField key value rest

mutual

def readValue : Nat → List Char → Option (Json Number × List Char)
  | 0, _ => none
  | fuel + 1, cs =>
    match skipSpace cs with
    | 'n' :: 'u' :: 'l' :: 'l' :: rest => some (.null, rest)
    | 't' :: 'r' :: 'u' :: 'e' :: rest => some (.bool true, rest)
    | 'f' :: 'a' :: 'l' :: 's' :: 'e' :: rest => some (.bool false, rest)
    | '"' :: rest => (readString rest).map fun (s, rest) => (.str s, rest)
    | '[' :: rest =>
      match skipSpace rest with
      | ']' :: rest => some (.arr [], rest)
      | rest => (readItems fuel rest).map fun (items, rest) => (.arr items, rest)
    | '\x7b' :: rest =>
      match skipSpace rest with
      | '\x7d' :: rest => some (.obj [], rest)
      | rest =>
        (readFields fuel rest).map fun (fields, rest) =>
          (.obj (fields.foldl (fun acc (k, v) => insertField k v acc) []), rest)
    | cs => (readNumber cs).map fun (n, rest) => (.num n, rest)

def readItems : Nat → List Char → Option (List (Json Number) × List Char)
  | 0, _ => none
  | fuel + 1, cs =>
    match readValue fuel cs with
    | none => none
    | some (item, rest) =>
      match skipSpace rest with
      | ',' :: rest => (readItems fuel rest).map fun (items, rest) => (item :: items, rest)
      | ']' :: rest => some ([item], rest)
      | _ => none

def readFields : Nat → List Char → Option (List (List Char × Json Number) × List Char)
  | 0, _ => none
  | fuel + 1, cs =>
    match skipSpace cs with
    | '"' :: rest =>
      match readString rest with
      | none => none
      | some (key, rest) =>
        match skipSpace rest with
        | ':' :: rest =>
          match readValue fuel rest with
          | none => none
          | some (value, rest) =>
            match skipSpace rest with
            | ',' :: rest =>
              (readFields fuel rest).map fun (fields, rest) => ((key, value) :: fields, rest)
            | '\x7d' :: rest => some ([(key, value)], rest)
            | _ => none
        | _ => none
    | _ => none

end

/-- The value of a document; every part of it takes a character. -/
def parse (text : String) : Option (Json Number) :=
  match readValue (2 * text.toList.length + 2) text.toList with
  | some (value, rest) => if skipSpace rest = [] then some value else none
  | none => none

/-! ## Rounded documents -/

section

variable {ν μ : Type}

mutual

def mapNum (f : ν → Option μ) : Json ν → Option (Json μ)
  | .null => some .null
  | .bool b => some (.bool b)
  | .num n => (f n).map .num
  | .str s => some (.str s)
  | .arr items => (mapItems f items).map .arr
  | .obj fields => (mapFields f fields).map .obj

def mapItems (f : ν → Option μ) : List (Json ν) → Option (List (Json μ))
  | [] => some []
  | item :: rest =>
    match mapNum f item, mapItems f rest with
    | some item, some rest => some (item :: rest)
    | _, _ => none

def mapFields (f : ν → Option μ) : List (List Char × Json ν) → Option (List (List Char × Json μ))
  | [] => some []
  | (key, value) :: rest =>
    match mapNum f value, mapFields f rest with
    | some value, some rest => some ((key, value) :: rest)
    | _, _ => none

end

end

/-- `json.Unmarshal` into an empty interface: every number becomes a binary64. -/
def unmarshal (text : String) : Option (Json Binary64) :=
  (parse text).bind (mapNum Number.toBinary64)

theorem unmarshal_congr {x y : String} (h : parse x = parse y) : unmarshal x = unmarshal y := by
  rw [unmarshal, unmarshal, h]

end Json

end SoroTrail.Lib
