import Mathlib.Data.String.Basic

/-!
# Text

The few string operations the model needs, over character lists so that they
evaluate.  Case folding is the ASCII one.
-/

set_option autoImplicit false

namespace SoroTrail.Lib.Text

def hasInfix (sub : List Char) : List Char → Bool
  | [] => sub.isEmpty
  | c :: cs => sub.isPrefixOf (c :: cs) || hasInfix sub cs

def contains (s sub : String) : Bool :=
  hasInfix sub.toList s.toList

def startsWith (s pre : String) : Bool :=
  pre.toList.isPrefixOf s.toList

def toLower (s : String) : String :=
  String.ofList (s.toList.map Char.toLower)

def isSpace (c : Char) : Bool :=
  decide (c = ' ' ∨ c = '\t' ∨ c = '\n' ∨ c = '\r' ∨ c.toNat = 11 ∨ c.toNat = 12)

def trimSpace (cs : List Char) : List Char :=
  ((cs.dropWhile isSpace).reverse.dropWhile isSpace).reverse

def digit (c : Char) : Option Nat :=
  if '0' ≤ c ∧ c ≤ '9' then some (c.toNat - '0'.toNat) else none

/-- Read decimal digits onto an accumulator; `none` at the first other character. -/
def readDigits : List Char → Nat → Option Nat
  | [], acc => some acc
  | c :: cs, acc =>
    match digit c with
    | some d => readDigits cs (acc * 10 + d)
    | none => none

/-- A non-empty decimal number that fits in `bits` bits. -/
def parseUint (bits : Nat) (cs : List Char) : Option Nat :=
  if cs.isEmpty then none
  else
    match readDigits cs 0 with
    | some n => if n < 2 ^ bits then some n else none
    | none => none

/-- The part before the first `c`, and the part after it. -/
def cut (c : Char) : List Char → Option (List Char × List Char)
  | [] => none
  | x :: xs =>
    if x = c then some ([], xs)
    else
      match cut c xs with
      | some (before, after) => some (x :: before, after)
      | none => none

section Split

variable {α : Type} [DecidableEq α]

/-- The parts between the separators, as `strings.Split` returns them. -/
def split (c : α) : List α → List (List α)
  | [] => [[]]
  | x :: xs =>
    if x = c then [] :: split c xs
    else
      match split c xs with
      | [] => [[x]]
      | part :: parts => (x :: part) :: parts

/-- The part before the last separator, and the part after it. -/
def splitLast (c : α) : List α → Option (List α × List α)
  | [] => none
  | x :: xs =>
    match splitLast c xs with
    | some (before, after) => some (x :: before, after)
    | none => if x = c then some ([], xs) else none

variable {part : List α}

theorem split_of_notMem {c : α} (h : c ∉ part) : split c part = [part] := by
  induction part with
  | nil => rfl
  | cons x part ih =>
    have hx : x ≠ c := fun heq => h (heq ▸ (.head _))
    rw [split, if_neg hx, ih fun hmem => h (.tail _ hmem)]

theorem split_append {c : α} (h : c ∉ part) (rest : List α) :
    split c (part ++ c :: rest) = part :: split c rest := by
  induction part with
  | nil => simp [split]
  | cons x part ih =>
    have hx : x ≠ c := fun heq => h (heq ▸ (.head _))
    rw [List.cons_append, split, if_neg hx, ih fun hmem => h (.tail _ hmem)]

theorem splitLast_of_notMem {c : α} (h : c ∉ part) : splitLast c part = none := by
  induction part with
  | nil => rfl
  | cons x part ih =>
    have hx : x ≠ c := fun heq => h (heq ▸ (.head _))
    rw [splitLast, ih fun hmem => h (.tail _ hmem)]
    simp [hx]

theorem splitLast_append {c : α} (before : List α) {after : List α} (h : c ∉ after) :
    splitLast c (before ++ c :: after) = some (before, after) := by
  induction before with
  | nil => simp [splitLast, splitLast_of_notMem h]
  | cons x before ih => rw [List.cons_append, splitLast, ih]

end Split

example : parseUint 32 "4294967295".toList = some 4294967295 := by decide

example : cut '-' "12-3".toList = some ("12".toList, "3".toList) := by decide

end SoroTrail.Lib.Text
