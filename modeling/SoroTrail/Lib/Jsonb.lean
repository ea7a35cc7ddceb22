import Mathlib.Data.Char
import Mathlib.Data.List.DropRight
import Mathlib.Data.List.Lex
import Mathlib.Data.List.TakeDrop
import SoroTrail.Lib.Json

/-!
# Binary documents

`jsonb`: containment of one value in another, and the database's own reading of a
text, which may refuse what the standard accepts.  A needle is wrapped in brackets
before it is looked for in an array, so the reader is shown to read the wrapped
text as the array of the one value.
-/

set_option autoImplicit false

variable {key : List Char}

namespace SoroTrail.Lib

open List Option

namespace Json

section Containment

variable {ν : Type} [DecidableEq ν]

mutual

/-- The needle is inside the value: its members and elements are found, in any number and order. -/
def within : Json ν → Json ν → Bool
  | .arr needles, .arr items => withinItems needles items
  | .obj needles, .obj fields => withinFields needles fields
  | .arr _, _ => false
  | .obj _, _ => false
  | needle, value => decide (needle = value)

def withinItems : List (Json ν) → List (Json ν) → Bool
  | [], _ => true
  | needle :: rest, items => (items.any fun item => within needle item) && withinItems rest items

def withinFields : List (List Char × Json ν) → List (List Char × Json ν) → Bool
  | [], _ => true
  | (key, needle) :: rest, fields =>
    (match fields.lookup key with
      | some value => within needle value
      | none => false) && withinFields rest fields

end

def isScalar : Json ν → Bool
  | .arr _ | .obj _ => false
  | _ => true

/-- `value @> needle`: at the top an array also contains a scalar that is one of its elements. -/
def contains (value needle : Json ν) : Bool :=
  match value with
  | .arr items => if isScalar needle then decide (needle ∈ items) else within needle value
  | _ => within needle value

theorem withinItems_iff (needles items : List (Json ν)) :
    withinItems needles items = true ↔
      ∀ needle ∈ needles, ∃ item ∈ items, within needle item = true := by
  induction needles with
  | nil => simp [withinItems]
  | cons needle rest ih => simp [withinItems, ih]

theorem contains_arr_singleton (items : List (Json ν)) (needle : Json ν) :
    contains (.arr items) (.arr [needle]) = items.any fun item => within needle item := by
  simp [contains, isScalar, within, withinItems]

end Containment

/-! ## One member a key -/

section Keyed

variable {ν : Type}

def SortedKeys (fields : List (List Char × Json ν)) : Prop :=
  (fields.map Prod.fst).Pairwise (· < ·)

mutual

def Keyed : Json ν → Prop
  | .arr items => KeyedItems items
  | .obj fields => SortedKeys fields ∧ KeyedFields fields
  | _ => True

def KeyedItems : List (Json ν) → Prop
  | [] => True
  | item :: rest => Keyed item ∧ KeyedItems rest

def KeyedFields : List (List Char × Json ν) → Prop
  | [] => True
  | (_, value) :: rest => Keyed value ∧ KeyedFields rest

end

theorem lookup_of_sortedKeys {fields : List (List Char × Json ν)} (h : SortedKeys fields) {value : Json ν} (hmem : (key, value) ∈ fields) :
    fields.lookup key = some value := by
  induction fields with
  | nil => cases hmem
  | cons field fields ih =>
    obtain ⟨hhead, htail⟩ := pairwise_cons.mp h
    rcases mem_cons.mp hmem with rfl | hmem
    · simp
    · have hlt : field.1 < key := hhead key (mem_map.mpr ⟨_, hmem, rfl⟩)
      have hne : (key == field.1) = false := by simpa using hlt.ne'
      rw [lookup_cons, hne]
      exact ih htail hmem

variable [DecidableEq ν]

mutual

theorem within_self : (v : Json ν) → Keyed v → within v v = true
  | .arr items, h => withinItems_of_subset items items h (List.Subset.refl _)
  | .obj fields, h => withinFields_of_subset fields fields h.1 h.2 (List.Subset.refl _)
  | .null, _ | .bool _, _ | .num _, _ | .str _, _ => by simp [within]

theorem withinItems_of_subset : (needles items : List (Json ν)) → KeyedItems needles →
    needles ⊆ items → withinItems needles items = true
  | [], _, _, _ => rfl
  | needle :: rest, items, h, hsub => by
    obtain ⟨hneedle, hrest⟩ := cons_subset.mp hsub
    rw [withinItems, Bool.and_eq_true, List.any_eq_true]
    exact ⟨⟨needle, hneedle, within_self needle h.1⟩, withinItems_of_subset rest items h.2 hrest⟩

theorem withinFields_of_subset : (needles fields : List (List Char × Json ν)) → SortedKeys fields →
    KeyedFields needles → needles ⊆ fields → withinFields needles fields = true
  | [], _, _, _, _ => rfl
  | (key, needle) :: rest, fields, hsorted, h, hsub => by
    obtain ⟨hneedle, hrest⟩ := cons_subset.mp hsub
    rw [withinFields, lookup_of_sortedKeys hsorted hneedle, Bool.and_eq_true]
    exact ⟨within_self needle h.1, withinFields_of_subset rest fields hsorted h.2 hrest⟩

end

end Keyed

/-! ## Reading on -/

section Extends

variable {α : Type}

/-- What one reader reads, the other reads when a closing bracket follows. -/
def ExtendsTo (read read' : List Char → Option (α × List Char)) : Prop :=
  ∀ cs v rest tail, read cs = some (v, rest) →
    read' (cs ++ ']' :: tail) = some (v, rest ++ ']' :: tail)

def Extends (read : List Char → Option (α × List Char)) : Prop := ExtendsTo read read

theorem dropWhile_append_stop {p : Char → Bool} (hp : p ']' = false) (cs tail : List Char) :
    (cs ++ ']' :: tail).dropWhile p = cs.dropWhile p ++ ']' :: tail := by
  induction cs with
  | nil => simp [hp]
  | cons c cs ih =>
    cases hc : p c with
    | true => simp [hc, ih]
    | false => simp [hc]

theorem takeWhile_append_stop {p : Char → Bool} (hp : p ']' = false) (cs tail : List Char) :
    (cs ++ ']' :: tail).takeWhile p = cs.takeWhile p := by
  induction cs with
  | nil => simp [hp]
  | cons c cs ih =>
    cases hc : p c with
    | true => simp [hc, ih]
    | false => simp [hc]

theorem skipSpace_append_stop (cs tail : List Char) :
    skipSpace (cs ++ ']' :: tail) = skipSpace cs ++ ']' :: tail :=
  dropWhile_append_stop (by decide) cs tail

theorem span_append_stop (cs tail : List Char) :
    (cs ++ ']' :: tail).span isDigit =
      ((cs.span isDigit).1, (cs.span isDigit).2 ++ ']' :: tail) := by
  simp only [span_eq_takeWhile_dropWhile, dropWhile_append_stop (p := isDigit) (by decide),
    takeWhile_append_stop (p := isDigit) (by decide)]

variable {cs : List Char} {c : Char}

theorem readUnits_plain (hquote : c ≠ '"') (hslash : c ≠ '\\')
    (hspace : ¬ c < ' ') : readUnits (c :: cs) =
      (match readUnits cs with
        | some (units, rest) => some (.inr c :: units, rest)
        | none => none) := by
  refine (readUnits.eq_5 c cs hquote ?_ ?_).trans (if_neg hspace)
  · exact fun _ _ _ _ _ h => absurd h hslash
  · exact fun _ _ h => absurd h hslash

theorem readUnits_escape {d : Char} (h : escape c = some d) :
    readUnits ('\\' :: c :: cs) =
      (match readUnits cs with
        | some (units, rest) => some (.inr d :: units, rest)
        | none => none) := by
  have hu : c ≠ 'u' := by
    rintro rfl
    exact absurd h nofun
  rw [readUnits, h]
  · cases readUnits cs with
    | none => rfl
    | some read => rfl
  · exact fun _ _ _ _ _ hc => absurd hc hu

theorem extends_readUnits : Extends readUnits := by
  intro cs
  fun_induction readUnits cs with
  | case1 => nofun
  | case2 rest =>
    intro v rest' tail h
    cases h
    rfl
  | case3 a b c d rest n units rest' hread hhex ih =>
    intro v rest'' tail h
    cases h
    simp [readUnits, hhex, ih _ _ tail hread]
  | case4 => nofun
  | case5 c rest _ d units rest' hread hescape ih =>
    intro v rest'' tail h
    cases h
    rw [cons_append, cons_append, readUnits_escape hescape, ih _ _ tail hread]
  | case6 => nofun
  | case7 => nofun
  | case8 c rest hquote _ hslash hspace units rest' hread ih =>
    intro v rest'' tail h
    cases h
    have hne : c ≠ '\\' := by
      rintro rfl
      cases rest with
      | nil => exact absurd hread nofun
      | cons d rest => exact hslash d rest rfl rfl
    rw [cons_append, readUnits_plain hquote hne hspace, ih _ _ tail hread]
  | case9 => nofun

theorem extends_readString : Extends readString := by
  intro cs v rest tail h
  obtain ⟨⟨units, rest'⟩, hread, heq⟩ := map_eq_some_iff.mp h
  cases heq
  simp [readString, extends_readUnits _ _ _ tail hread]

/-! ### Numbers -/

def onHead (c : Char) (yes no : List Char → Option (α × List Char)) (cs : List Char) :
    Option (α × List Char) :=
  if cs.head? = some c then yes cs.tail else no cs

@[simp]
theorem onHead_cons (c : Char) (yes no : List Char → Option (α × List Char)) (cs : List Char) :
    onHead c yes no (c :: cs) = yes cs := by
  simp [onHead]

theorem onHead_of_ne (h : ∀ rest, cs = c :: rest → False)
    (yes no : List Char → Option (α × List Char)) : onHead c yes no cs = no cs := by
  cases cs with
  | nil => rfl
  | cons d cs =>
    have hd : d ≠ c := by
      rintro rfl
      exact h cs rfl
    simp [onHead, hd]

theorem extends_some (a : α) : Extends fun cs => some (a, cs) := by
  intro cs v rest tail h
  cases h
  rfl

theorem Extends.onHead {yes no : List Char → Option (α × List Char)} (hc : ']' ≠ c)
    (hyes : Extends yes) (hno : Extends no) : Extends (onHead c yes no) := by
  intro cs v rest tail h
  cases cs with
  | nil => simpa [Json.onHead, hc] using hno [] v rest tail h
  | cons d cs =>
    by_cases hd : d = c
    · simp only [Json.onHead, List.head?_cons, hd, if_true] at h
      simpa [hd] using hyes cs v rest tail h
    · simp only [Json.onHead, List.head?_cons, Option.some.injEq, hd, if_false] at h
      simpa [Json.onHead, hd] using hno (d :: cs) v rest tail h

def readRun (f : List Char → α) (cs : List Char) : Option (α × List Char) :=
  if (cs.span isDigit).1 = [] then none else some (f (cs.span isDigit).1, (cs.span isDigit).2)

theorem extends_readRun (f : List Char → α) : Extends (readRun f) := by
  intro cs v rest tail h
  rw [readRun] at h ⊢
  rw [span_append_stop]
  split at h
  · exact absurd h nofun
  · rename_i hrun
    cases h
    rw [if_neg hrun]

theorem readWhole_eq : readWhole = onHead '0' (fun rest => some (['0'], rest)) (readRun id) := by
  funext cs
  unfold readWhole
  split
  · rfl
  · rw [onHead_of_ne ‹_›]
    rfl

theorem readFraction_eq : readFraction = onHead '.' (readRun id) fun cs => some ([], cs) := by
  funext cs
  unfold readFraction
  split
  · rfl
  · rw [onHead_of_ne ‹_›]

def readSigned : List Char → Option (Int × List Char)
  | '+' :: rest => readRun (fun ds => 1 * (digits ds : Int)) rest
  | '-' :: rest => readRun (fun ds => -1 * (digits ds : Int)) rest
  | cs => readRun (fun ds => 1 * (digits ds : Int)) cs

theorem readSigned_eq : readSigned = onHead '+' (readRun fun ds => 1 * (digits ds : Int))
    (onHead '-' (readRun fun ds => -1 * (digits ds : Int)) (readRun fun ds => 1 * (digits ds : Int))) := by
  funext cs
  unfold readSigned
  split
  · rfl
  · rfl
  · rw [onHead_of_ne ‹_›, onHead_of_ne ‹_›]

theorem readExponent_eq :
    readExponent = onHead 'e' readSigned (onHead 'E' readSigned fun cs => some (0, cs)) := by
  funext cs
  unfold readExponent
  split
  · rfl
  · rfl
  · rw [onHead_of_ne ‹_›, onHead_of_ne ‹_›]

def readUnsigned (sign : Int) (cs : List Char) : Option (Number × List Char) := do
  let (whole, cs) ← readWhole cs
  let (fraction, cs) ← readFraction cs
  let (exp, cs) ← readExponent cs
  return (Number.of (sign * digits (whole ++ fraction)) (exp - fraction.length), cs)

theorem readNumber_eq : readNumber = onHead '-' (readUnsigned (-1)) (readUnsigned 1) := by
  funext cs
  by_cases h : ∃ rest, cs = '-' :: rest
  · obtain ⟨rest, rfl⟩ := h
    rfl
  · simp only [onHead_of_ne (fun rest hrest => h ⟨rest, hrest⟩), readNumber, readUnsigned]
    split <;> simp_all

theorem extends_readWhole : Extends readWhole :=
  readWhole_eq ▸ .onHead (by decide) (extends_some _) (extends_readRun id)

theorem extends_readFraction : Extends readFraction :=
  readFraction_eq ▸ .onHead (by decide) (extends_readRun id) (extends_some _)

theorem extends_readSigned : Extends readSigned :=
  readSigned_eq ▸ .onHead (by decide) (extends_readRun _)
    (.onHead (by decide) (extends_readRun _) (extends_readRun _))

theorem extends_readExponent : Extends readExponent :=
  readExponent_eq ▸ .onHead (by decide) extends_readSigned
    (.onHead (by decide) extends_readSigned (extends_some _))

theorem extends_readUnsigned (sign : Int) : Extends (readUnsigned sign) := by
  intro cs v rest tail h
  simp only [readUnsigned, bind_eq_bind, bind_eq_some_iff, Prod.exists,
    Option.pure_def, Option.some.injEq, Prod.mk.injEq] at h
  obtain ⟨whole, cs₁, hwhole, fraction, cs₂, hfraction, exp, cs₃, hexp, rfl, rfl⟩ := h
  simp [readUnsigned, extends_readWhole _ _ _ tail hwhole, extends_readFraction _ _ _ tail hfraction,
    extends_readExponent _ _ _ tail hexp]

theorem extends_readNumber : Extends readNumber :=
  readNumber_eq ▸ .onHead (by decide) (extends_readUnsigned _) (extends_readUnsigned _)

theorem readNumber_head {v : Number × List Char} (h : readNumber cs = some v) :
    ∃ c cs', cs = c :: cs' ∧ (c = '-' ∨ isDigit c = true) := by
  cases cs with
  | nil => exact absurd h nofun
  | cons c cs =>
    refine ⟨c, cs, rfl, ?_⟩
    by_contra hc
    obtain ⟨hminus, hdigit⟩ := not_or.mp hc
    have hzero : c ≠ '0' := by
      rintro rfl
      exact hdigit rfl
    have hwhole : readWhole (c :: cs) = none := by
      simp [readWhole_eq, onHead, hzero, readRun, span_eq_takeWhile_dropWhile, hdigit]
    simp [readNumber_eq, onHead, hminus, readUnsigned, hwhole] at h

/-! ### Values -/

variable {rest : List Char}

def readArray (fuel : Nat) (cs : List Char) : Option (Json Number × List Char) :=
  match skipSpace cs with
  | ']' :: rest => some (.arr [], rest)
  | rest => (readItems fuel rest).map fun (items, rest) => (.arr items, rest)

def readObject (fuel : Nat) (cs : List Char) : Option (Json Number × List Char) :=
  match skipSpace cs with
  | '\x7d' :: rest => some (.obj [], rest)
  | rest =>
    (readFields fuel rest).map fun (fields, rest) =>
      (.obj (fields.foldl (fun acc (k, v) => insertField k v acc) []), rest)

/-- The reader by the first character, with the two nested readers named. -/
theorem readValue_succ (fuel : Nat) (cs : List Char) :
    readValue (fuel + 1) cs = match skipSpace cs with
      | 'n' :: 'u' :: 'l' :: 'l' :: rest => some (.null, rest)
      | 't' :: 'r' :: 'u' :: 'e' :: rest => some (.bool true, rest)
      | 'f' :: 'a' :: 'l' :: 's' :: 'e' :: rest => some (.bool false, rest)
      | '"' :: rest => (readString rest).map fun (s, rest) => (.str s, rest)
      | '[' :: rest => readArray fuel rest
      | '\x7b' :: rest => readObject fuel rest
      | cs => (readNumber cs).map fun (n, rest) => (.num n, rest) :=
  rfl

theorem readValue_number (fuel : Nat) (hskip : skipSpace cs = c :: rest)
    (hc : c = '-' ∨ isDigit c = true) :
    readValue (fuel + 1) cs = (readNumber (c :: rest)).map fun (n, rest) => (.num n, rest) := by
  rw [readValue_succ, hskip]
  split <;> rename_i heq
  all_goals try (obtain ⟨rfl, -⟩ := List.cons.inj heq; exact absurd hc (by decide))
  rfl

theorem readValue_str (fuel : Nat) (hskip : skipSpace cs = '"' :: rest) :
    readValue (fuel + 1) cs = (readString rest).map fun (s, rest) => (.str s, rest) := by
  rw [readValue_succ, hskip]
  rfl

theorem readValue_arr (fuel : Nat) (hskip : skipSpace cs = '[' :: rest) :
    readValue (fuel + 1) cs = readArray fuel rest := by
  rw [readValue_succ, hskip]
  rfl

theorem readArray_of_ne (fuel : Nat) (hskip : skipSpace cs = c :: rest)
    (hc : c ≠ ']') :
    readArray fuel cs = (readItems fuel (c :: rest)).map fun (items, rest) => (.arr items, rest) := by
  rw [readArray, hskip]
  split <;> simp_all

variable {fuel : Nat}

theorem readValue_head {v : Json Number × List Char}
    (h : readValue fuel cs = some v) : ∃ c rest, skipSpace cs = c :: rest ∧ c ≠ ']' := by
  cases fuel with
  | zero => exact absurd h nofun
  | succ fuel =>
    rw [readValue_succ] at h
    split at h
    case h_7 =>
      obtain ⟨n, hread, -⟩ := map_eq_some_iff.mp h
      obtain ⟨c, rest, hskip, hc⟩ := readNumber_head hread
      refine ⟨c, rest, hskip, ?_⟩
      rintro rfl
      exact absurd hc (by decide)
    all_goals
      rename_i hskip
      exact ⟨_, _, hskip, by decide⟩

theorem readItems_head {v : List (Json Number) × List Char}
    (h : readItems fuel cs = some v) : ∃ c rest, skipSpace cs = c :: rest ∧ c ≠ ']' := by
  cases fuel with
  | zero => exact absurd h nofun
  | succ fuel =>
    cases hread : readValue fuel cs with
    | none => simp [readItems, hread] at h
    | some item => exact readValue_head hread

theorem readFields_head {v : List (List Char × Json Number) × List Char}
    (h : readFields fuel cs = some v) : ∃ rest, skipSpace cs = '"' :: rest := by
  cases fuel with
  | zero => exact absurd h nofun
  | succ fuel =>
    rw [readFields] at h
    split at h
    · exact ⟨_, ‹_›⟩
    · exact absurd h nofun

theorem skipSpace_skipSpace (cs : List Char) : skipSpace (skipSpace cs) = skipSpace cs :=
  dropWhile_idempotent _ cs

variable {fuel' : Nat}

theorem readArray_extends (hitems : ExtendsTo (readItems fuel) (readItems fuel')) :
    ExtendsTo (readArray fuel) (readArray fuel') := by
  intro cs v rest tail h
  rw [readArray] at h
  split at h
  · rename_i hskip
    cases h
    rw [readArray, skipSpace_append_stop, hskip]
    rfl
  · obtain ⟨⟨items, rest'⟩, hread, heq⟩ := map_eq_some_iff.mp h
    cases heq
    obtain ⟨c, rest'', hskip, hc⟩ := readItems_head hread
    rw [skipSpace_skipSpace] at hskip
    rw [readArray_of_ne fuel' (by rw [skipSpace_append_stop, hskip, cons_append]) hc,
      ← cons_append, ← hskip, hitems _ _ _ tail hread]
    rfl

theorem readObject_extends
    (hfields : ExtendsTo (readFields fuel) (readFields fuel')) :
    ExtendsTo (readObject fuel) (readObject fuel') := by
  intro cs v rest tail h
  rw [readObject] at h
  split at h
  · rename_i hskip
    cases h
    rw [readObject, skipSpace_append_stop, hskip]
    rfl
  · obtain ⟨⟨fields, rest'⟩, hread, heq⟩ := map_eq_some_iff.mp h
    cases heq
    obtain ⟨rest'', hskip⟩ := readFields_head hread
    rw [skipSpace_skipSpace] at hskip
    have hmore := hfields _ _ _ tail hread
    rw [hskip, cons_append] at hmore
    simp [readObject, skipSpace_append_stop, hskip, hmore]

theorem readValue_extends (hitems : ExtendsTo (readItems fuel) (readItems fuel'))
    (hfields : ExtendsTo (readFields fuel) (readFields fuel')) :
    ExtendsTo (readValue (fuel + 1)) (readValue (fuel' + 1)) := by
  intro cs v rest tail h
  have happend {c : Char} {r : List Char} (hskip : skipSpace cs = c :: r) :
      skipSpace (cs ++ ']' :: tail) = c :: (r ++ ']' :: tail) := by
    rw [skipSpace_append_stop, hskip, cons_append]
  rw [readValue_succ] at h
  split at h
  case h_1 hskip | h_2 hskip | h_3 hskip =>
    cases h
    rw [readValue_succ, happend hskip]
    rfl
  case h_4 hskip =>
    obtain ⟨⟨s, rest'⟩, hread, heq⟩ := map_eq_some_iff.mp h
    cases heq
    rw [readValue_str fuel' (happend hskip), extends_readString _ _ _ tail hread]
    rfl
  case h_5 hskip =>
    rw [readValue_arr fuel' (happend hskip)]
    exact readArray_extends hitems _ _ _ tail h
  case h_6 hskip =>
    rw [readValue_succ, happend hskip]
    exact readObject_extends hfields _ _ _ tail h
  case h_7 =>
    obtain ⟨⟨n, rest'⟩, hread, heq⟩ := map_eq_some_iff.mp h
    cases heq
    obtain ⟨c, rest'', hskip, hc⟩ := readNumber_head hread
    rw [readValue_number fuel' (happend hskip) hc, ← cons_append, ← hskip,
      extends_readNumber _ _ _ tail hread]
    rfl

theorem readItems_extends (hvalue : ExtendsTo (readValue fuel) (readValue fuel'))
    (hitems : ExtendsTo (readItems fuel) (readItems fuel')) :
    ExtendsTo (readItems (fuel + 1)) (readItems (fuel' + 1)) := by
  intro cs v rest tail h
  rw [readItems] at h ⊢
  cases hread : readValue fuel cs with
  | none => simp [hread] at h
  | some read =>
    simp only [hread, hvalue _ _ _ tail hread, skipSpace_append_stop] at h ⊢
    split at h
    · rename_i hskip
      obtain ⟨⟨items, rest''⟩, hmore, heq⟩ := map_eq_some_iff.mp h
      cases heq
      simp [hskip, hitems _ _ _ tail hmore]
    · rename_i hskip
      cases h
      simp [hskip]
    · exact absurd h nofun

theorem readFields_extends (hvalue : ExtendsTo (readValue fuel) (readValue fuel'))
    (hfields : ExtendsTo (readFields fuel) (readFields fuel')) :
    ExtendsTo (readFields (fuel + 1)) (readFields (fuel' + 1)) := by
  intro cs v rest tail h
  rw [readFields] at h ⊢
  split at h
  · rename_i afterQuote hquote
    cases hkey : readString afterQuote with
    | none => simp [hkey] at h
    | some read =>
      simp only [hkey] at h
      simp only [hquote, cons_append, extends_readString _ _ _ tail hkey, skipSpace_append_stop]
      split at h
      · rename_i afterColon hcolon
        cases hread : readValue fuel afterColon with
        | none => simp [hread] at h
        | some read =>
          simp only [hread] at h
          simp only [hcolon, cons_append, hvalue _ _ _ tail hread, skipSpace_append_stop]
          split at h
          · rename_i hskip
            obtain ⟨⟨fields, rest''⟩, hmore, heq⟩ := map_eq_some_iff.mp h
            cases heq
            simp [hskip, hfields _ _ _ tail hmore]
          · rename_i hskip
            cases h
            simp [hskip]
          · exact absurd h nofun
      · exact absurd h nofun
  · exact absurd h nofun

/-- More fuel and a closing bracket change nothing: each reader needs the others at less fuel. -/
theorem read_extends (fuel more : Nat) :
    ExtendsTo (readValue fuel) (readValue (fuel + more)) ∧
      ExtendsTo (readItems fuel) (readItems (fuel + more)) ∧
      ExtendsTo (readFields fuel) (readFields (fuel + more)) := by
  induction fuel with
  | zero => exact ⟨fun _ _ _ _ h => absurd h nofun, fun _ _ _ _ h => absurd h nofun,
      fun _ _ _ _ h => absurd h nofun⟩
  | succ fuel ih =>
    obtain ⟨hvalue, hitems, hfields⟩ := ih
    rw [Nat.succ_add]
    exact ⟨readValue_extends hitems hfields, readItems_extends hvalue hitems,
      readFields_extends hvalue hfields⟩

theorem readValue_skipSpace (fuel : Nat) (cs : List Char) :
    readValue fuel (skipSpace cs) = readValue fuel cs := by
  cases fuel with
  | zero => rfl
  | succ fuel => rw [readValue_succ, readValue_succ, skipSpace_skipSpace]

/-- A document in brackets is the array of its value. -/
theorem parse_brackets {text : String} {v : Json Number} (h : parse text = some v) :
    parse ("[" ++ text ++ "]") = some (.arr [v]) := by
  cases hread : readValue (2 * text.toList.length + 2) text.toList with
  | none => simp [parse, hread] at h
  | some read =>
    obtain ⟨v', rest⟩ := read
    rw [parse, hread] at h
    simp only [ite_none_right_eq_some, Option.some.injEq] at h
    obtain ⟨hend, rfl⟩ := h
    obtain ⟨c, cs, hskip, hc⟩ := readValue_head hread
    have hitem := (read_extends (2 * text.toList.length + 2) 2).1 _ _ _ [] (readValue_skipSpace _ _ ▸ hread)
    have htext : ("[" ++ text ++ "]").toList = '[' :: (text.toList ++ [']']) := by simp
    have hopen : skipSpace ('[' :: (text.toList ++ [']'])) = '[' :: (text.toList ++ [']']) := rfl
    have hfuel : 2 * ('[' :: (text.toList ++ [']'])).length + 2 = 2 * text.toList.length + 4 + 1 + 1 := by
      simp
      omega
    have hitems : readItems (2 * text.toList.length + 4 + 1) (c :: (cs ++ [']'])) = some ([v'], []) := by
      rw [hskip, cons_append] at hitem
      rw [readItems, hitem]
      simp [skipSpace_append_stop, hend]
    rw [parse, htext, hfuel, readValue_arr _ hopen,
      readArray_of_ne _ (by rw [skipSpace_append_stop, hskip, cons_append]) hc, hitems]
    rfl

end Extends

/-! ## What is read -/

variable {fields : List (List Char × Json Number)} {value : Json Number}

theorem mem_insertField {key k : List Char}
    (h : k ∈ (insertField key value fields).map Prod.fst) : k = key ∨ k ∈ fields.map Prod.fst := by
  induction fields with
  | nil => simpa [insertField] using h
  | cons field fields ih =>
    rw [insertField] at h
    split_ifs at h with heq hlt
    · exact .inr h
    · exact mem_cons.mp h
    · rcases mem_cons.mp h with rfl | h
      · exact .inr (.head _)
      · exact (ih h).imp_right (mem_cons_of_mem _)

theorem sortedKeys_insertField (h : SortedKeys fields) :
    SortedKeys (insertField key value fields) := by
  induction fields with
  | nil => exact pairwise_singleton _ _
  | cons field fields ih =>
    obtain ⟨hhead, htail⟩ := pairwise_cons.mp h
    rw [insertField]
    split_ifs with heq hlt
    · exact h
    · refine pairwise_cons.mpr ⟨fun k' hk' => ?_, h⟩
      rcases mem_cons.mp hk' with rfl | hk'
      · exact hlt
      · exact hlt.trans (hhead k' hk')
    · refine pairwise_cons.mpr ⟨fun k' hk' => ?_, ih htail⟩
      rcases mem_insertField hk' with rfl | hk'
      · exact lt_of_le_of_ne (not_lt.mp hlt) (Ne.symm heq)
      · exact hhead k' hk'

theorem keyedFields_insertField (hvalue : Keyed value) (h : KeyedFields fields) :
    KeyedFields (insertField key value fields) := by
  induction fields with
  | nil => exact ⟨hvalue, trivial⟩
  | cons field fields ih =>
    rw [insertField]
    split_ifs with heq hlt
    · exact ⟨hvalue, h.2⟩
    · exact ⟨hvalue, h⟩
    · exact ⟨h.1, ih h.2⟩

theorem keyed_obj_foldl {acc : List (List Char × Json Number)} (h : KeyedFields fields)
    (hacc : Keyed (.obj acc)) :
    Keyed (.obj (fields.foldl (fun acc (k, v) => insertField k v acc) acc)) := by
  induction fields generalizing acc with
  | nil => exact hacc
  | cons field fields ih =>
    exact ih h.2 ⟨sortedKeys_insertField hacc.1, keyedFields_insertField h.1 hacc.2⟩

theorem keyed_read (fuel : Nat) :
    (∀ cs v rest, readValue fuel cs = some (v, rest) → Keyed v) ∧
      (∀ cs items rest, readItems fuel cs = some (items, rest) → KeyedItems items) ∧
      ∀ cs fields rest, readFields fuel cs = some (fields, rest) → KeyedFields fields := by
  induction fuel with
  | zero => exact ⟨fun _ _ _ h => absurd h nofun, fun _ _ _ h => absurd h nofun,
      fun _ _ _ h => absurd h nofun⟩
  | succ fuel ih =>
    obtain ⟨hvalue, hitems, hfields⟩ := ih
    refine ⟨fun cs v rest h => ?_, fun cs items rest h => ?_, fun cs fields rest h => ?_⟩
    · rw [readValue] at h
      split at h
      · cases h
        trivial
      · cases h
        trivial
      · cases h
        trivial
      · obtain ⟨_, -, heq⟩ := map_eq_some_iff.mp h
        cases heq
        trivial
      · split at h
        · cases h
          trivial
        · obtain ⟨⟨items, _⟩, hread, heq⟩ := map_eq_some_iff.mp h
          cases heq
          exact hitems _ _ _ hread
      · split at h
        · cases h
          exact ⟨List.Pairwise.nil, trivial⟩
        · obtain ⟨⟨fields, _⟩, hread, heq⟩ := map_eq_some_iff.mp h
          cases heq
          exact keyed_obj_foldl (hfields _ _ _ hread) ⟨List.Pairwise.nil, trivial⟩
      · obtain ⟨_, -, heq⟩ := map_eq_some_iff.mp h
        cases heq
        trivial
    · rw [readItems] at h
      split at h
      · cases h
      · rename_i hread
        split at h
        · obtain ⟨⟨items, _⟩, hmore, heq⟩ := map_eq_some_iff.mp h
          cases heq
          exact ⟨hvalue _ _ _ hread, hitems _ _ _ hmore⟩
        · cases h
          exact ⟨hvalue _ _ _ hread, trivial⟩
        · cases h
    · rw [readFields] at h
      split at h
      · split at h
        · cases h
        · split at h
          · split at h
            · cases h
            · rename_i hread
              split at h
              · obtain ⟨⟨fields, _⟩, hmore, heq⟩ := map_eq_some_iff.mp h
                cases heq
                exact ⟨hvalue _ _ _ hread, hfields _ _ _ hmore⟩
              · cases h
                exact ⟨hvalue _ _ _ hread, trivial⟩
              · cases h
          · cases h
      · cases h

theorem keyed_of_parse {text : String} {v : Json Number} (h : parse text = some v) : Keyed v := by
  unfold parse at h
  split at h
  · rename_i hread
    split_ifs at h
    cases h
    exact (keyed_read _).1 _ _ _ hread
  · cases h

end Json

/-! ## Columns -/

/-- How a database reads a text: as the standard does, unless it refuses it, as for a NUL, half a
surrogate pair or a number out of range. -/
structure Jsonb where
  read : String → Option (Json Json.Number)
  parse_of_read : ∀ text v, read text = some v → Json.parse text = some v
  read_brackets : ∀ text v, Json.parse text = some v →
    read ("[" ++ text ++ "]") = (read text).map fun v => .arr [v]

namespace Jsonb

def standard : Jsonb where
  read := Json.parse
  parse_of_read _ _ h := h
  read_brackets _ _ h := by rw [Json.parse_brackets h, h, map_some]

variable (jsonb : Jsonb)

/-- `column @> text::jsonb`. -/
def columnContains (column text : String) : Bool :=
  match jsonb.read column, jsonb.read text with
  | some value, some needle => Json.contains value needle
  | _, _ => false

/-- `column->i = text::jsonb`. -/
def columnAt (column : String) (i : Nat) (text : String) : Bool :=
  match jsonb.read column, jsonb.read text with
  | some (.arr items), some needle => decide (items[i]? = some needle)
  | _, _ => false

variable {text : String}

theorem columnContains_brackets (hvalid : (Json.parse text).isSome) (column : String) :
    jsonb.columnContains column ("[" ++ text ++ "]") = true ↔
      ∃ items needle, jsonb.read column = some (.arr items) ∧ jsonb.read text = some needle ∧
        ∃ item ∈ items, Json.within needle item = true := by
  obtain ⟨v, hv⟩ := isSome_iff_exists.mp hvalid
  rw [Jsonb.columnContains, jsonb.read_brackets text v hv]
  cases hneedle : jsonb.read text with
  | none => cases jsonb.read column <;> simp
  | some needle =>
    cases hvalue : jsonb.read column with
    | none => simp
    | some value =>
      cases value with
      | arr items => simp [Json.contains_arr_singleton]
      | null | bool | num | str | obj => simp [Json.contains, Json.within]

theorem columnContains_arr {needles : List (Json Json.Number)}
    (hread : jsonb.read text = some (.arr needles)) (column : String) :
    jsonb.columnContains column text = true ↔
      (∃ items, jsonb.read column = some (.arr items) ∧
        ∀ needle ∈ needles, ∃ item ∈ items, Json.within needle item = true) := by
  rw [Jsonb.columnContains, hread]
  cases hvalue : jsonb.read column with
  | none => simp
  | some value =>
    cases value with
    | arr items => simp [Json.contains, Json.isScalar, Json.within, Json.withinItems_iff]
    | null | bool | num | str | obj => simp [Json.contains, Json.within]

theorem keyed_of_read {v : Json Json.Number} (h : jsonb.read text = some v) : v.Keyed :=
  Json.keyed_of_parse (jsonb.parse_of_read text v h)

end Jsonb

end SoroTrail.Lib
