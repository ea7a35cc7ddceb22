import Mathlib.Algebra.Ring.Int.Defs
import Mathlib.Data.List.Sort
import SoroTrail.Api.Idempotency

/-!
# Two idempotency stores

`MemoryIdempotencyStore` and the store in Postgres, operation by operation.  Times
are nanoseconds, of which a column keeps the microseconds; a response body is its
bytes, whether `nil` or empty.
-/

set_option autoImplicit false

namespace SoroTrail.Api.IdempotencyStores

open Lib List
open Api.Idempotency (SlotKey Fingerprint)

structure IdempotencyRecord where
  key : SlotKey
  fingerprint : Fingerprint
  statusCode : Int
  contentType : String
  responseBody : List UInt8
  createdAt : Int
  expiresAt : Int
  deriving DecidableEq, Repr

abbrev Rows := List IdempotencyRecord

inductive Op where
  | claim (r : IdempotencyRecord) (now : Int)
  | complete (r : IdempotencyRecord)
  | delete (key : SlotKey)
  | get (key : SlotKey) (now : Int)
  | deleteExpired (now limit : Int)
  deriving DecidableEq, Repr

inductive Reply where
  | started (r : IdempotencyRecord)
  | replayed (r : IdempotencyRecord)
  | mismatch
  | inFlight (r : IdempotencyRecord)
  | found (r : IdempotencyRecord)
  | deleted (n : Nat)
  | done
  | notFound
  | failed
  deriving DecidableEq, Repr

/-! ## What the stores share -/

def zeroTime : Int := -62135596800 * 10 ^ 9

def IdempotencyRecord.arriving (r : IdempotencyRecord) (now : Int) : IdempotencyRecord :=
  { r with createdAt := if r.createdAt = zeroTime then now else r.createdAt }

def IdempotencyRecord.reserved (r : IdempotencyRecord) : IdempotencyRecord :=
  { r with statusCode := 0, contentType := "", responseBody := [] }

def IdempotencyRecord.answer (existing r : IdempotencyRecord) : Reply :=
  if existing.fingerprint ≠ r.fingerprint then .mismatch
  else if existing.statusCode = 0 then .inFlight existing
  else .replayed existing

def lookup (rows : Rows) (key : SlotKey) : Option IdempotencyRecord := rows.find? (·.key = key)

def without (rows : Rows) (key : SlotKey) : Rows := rows.filter (·.key ≠ key)

def completed (rows : Rows) (r : IdempotencyRecord) : Rows :=
  rows.map fun row =>
    if row.key = r.key then
      { row with statusCode := r.statusCode, contentType := r.contentType, responseBody := r.responseBody }
    else row

def defaultIdempotencySweepBatchSize : Nat := 500

def sweepLimit (limit : Int) : Nat :=
  if limit ≤ 0 then defaultIdempotencySweepBatchSize else limit.toNat

def swept (rows victims : Rows) : Rows × Reply :=
  (rows.filter (· ∉ victims), .deleted victims.length)

/-! ## In memory -/

/-- The order in which a `range` over the map visits its records. -/
structure MapOrder where
  visit : Rows → Rows
  perm : ∀ rows, (visit rows).Perm rows

def MapOrder.memory (order : MapOrder) (rows : Rows) : Op → Rows × Reply
  | .claim r now =>
    let stored := (r.arriving now).reserved
    match lookup rows r.key with
    | some existing =>
      if now < existing.expiresAt then (rows, existing.answer r)
      else (without rows r.key ++ [stored], .started stored)
    | none => (rows ++ [stored], .started stored)
  | .complete r =>
    if (lookup rows r.key).isSome then (completed rows r, .done) else (rows, .notFound)
  | .delete key => (without rows key, .done)
  | .get key now =>
    match lookup rows key with
    | some row => if now < row.expiresAt then (rows, .found row) else (rows, .notFound)
    | none => (rows, .notFound)
  | .deleteExpired now limit =>
    swept rows (((order.visit rows).filter (·.expiresAt ≤ now)).take (sweepLimit limit))

/-! ## In Postgres -/

/-- A `text` has no NUL. -/
def storableText (s : String) : Bool := !s.toList.contains '\x00'

/-- An `int` has 32 bits. -/
def storableStatus (n : Int) : Bool := decide (-2 ^ 31 ≤ n ∧ n < 2 ^ 31)

def micros (t : Int) : Int := t / 1000

/-- A `timestamptz` reaches from 4714 BC to AD 294276, counted from 2000. -/
def storableTime (t : Int) : Bool :=
  let since2000 := micros t - 946684800000000
  decide (-211813488000000000 ≤ since2000 ∧ since2000 < 9223371331200000000)

def storableKey (key : SlotKey) : Bool := storableText key.tenantID && storableText key.key

def Op.storable : Op → Bool
  | .claim r now =>
    storableKey r.key && storableText r.fingerprint.requestHash && storableText r.fingerprint.method &&
      storableText r.fingerprint.path && storableTime now && storableTime (r.arriving now).createdAt &&
      storableTime r.expiresAt
  | .complete r => storableKey r.key && storableText r.contentType && storableStatus r.statusCode
  | .delete key => storableKey key
  | .get key now => storableKey key && storableTime now
  | .deleteExpired now _ => storableTime now

def IdempotencyRecord.column (r : IdempotencyRecord) : IdempotencyRecord :=
  { r with createdAt := micros r.createdAt * 1000, expiresAt := micros r.expiresAt * 1000 }

def purged (rows : Rows) (key : SlotKey) (now : Int) : Rows :=
  match lookup rows key with
  | some row => if micros row.expiresAt ≤ micros now then without rows key else rows
  | none => rows

def postgres (rows : Rows) (op : Op) : Rows × Reply :=
  if !op.storable then (rows, .failed)
  else
    match op with
    | .claim r now =>
      let rows := purged rows r.key now
      match lookup rows r.key with
      -- the record is returned as it came
      | none => (rows ++ [(r.arriving now).reserved.column], .started (r.arriving now))
      | some existing => (rows, existing.answer r)
    | .complete r => (completed rows r, .done)
    | .delete key => (without rows key, .done)
    | .get key now =>
      match lookup rows key with
      | some row => if micros now < micros row.expiresAt then (rows, .found row) else (rows, .notFound)
      | none => (rows, .notFound)
    | .deleteExpired now limit =>
      swept rows (((rows.filter fun row => micros row.expiresAt ≤ micros now).mergeSort fun a b =>
        decide (a.expiresAt ≤ b.expiresAt)).take (sweepLimit limit))

/-! ## Where they agree -/

def logged (store : Rows → Op → Rows × Reply) (s : Rows × List Reply) (op : Op) : Option (Rows × List Reply) :=
  some ((store s.1 op).1, s.2 ++ [(store s.1 op).2])

def Ample (rows : Rows) : Op → Prop
  | .deleteExpired now limit => ((rows.filter (·.expiresAt ≤ now)).length : Int) ≤ limit
  | _ => True

def Op.Whole : Op → Prop
  | .claim r now => 1000 ∣ now ∧ 1000 ∣ r.createdAt ∧ 1000 ∣ r.expiresAt
  | .get _ now => 1000 ∣ now
  | .deleteExpired now _ => 1000 ∣ now
  | .complete _ | .delete _ => True

/-- A record that is to be reserved carries no response, and one to be completed is there. -/
def Proper (rows : Rows) : Op → Prop
  | .claim r now => (∀ row ∈ lookup rows r.key, row.expiresAt ≤ now) → r.reserved = r
  | .complete r => (lookup rows r.key).isSome = true
  | .delete _ | .get _ _ | .deleteExpired _ _ => True

instance (rows : Rows) (op : Op) : Decidable (Ample rows op) := by
  cases op <;> (dsimp only [Ample]; infer_instance)

instance (op : Op) : Decidable op.Whole := by
  cases op <;> (dsimp only [Op.Whole]; infer_instance)

instance (rows : Rows) (op : Op) : Decidable (Proper rows op) := by
  cases op <;> (dsimp only [Proper]; infer_instance)

def WholeRows (rows : Rows) : Prop := ∀ row ∈ rows, 1000 ∣ row.createdAt ∧ 1000 ∣ row.expiresAt

variable {rows : Rows} {t u : Int}

theorem micros_le (ht : 1000 ∣ t) (hu : 1000 ∣ u) : micros t ≤ micros u ↔ t ≤ u := by
  unfold micros
  omega

variable {r : IdempotencyRecord}

theorem column_eq (h : 1000 ∣ r.createdAt ∧ 1000 ∣ r.expiresAt) : r.column = r := by
  rw [IdempotencyRecord.column, micros, micros, Int.ediv_mul_cancel h.1, Int.ediv_mul_cancel h.2]

theorem lookup_mem {key : SlotKey} {row : IdempotencyRecord} (h : lookup rows key = some row) : row ∈ rows :=
  mem_of_find?_eq_some h

theorem lookup_without (rows : Rows) (key : SlotKey) : lookup (without rows key) key = none := by
  simp [lookup, without]

theorem arriving_whole {now : Int} (h : (Op.claim r now).Whole) :
    1000 ∣ (r.arriving now).createdAt ∧ 1000 ∣ (r.arriving now).expiresAt := by
  refine ⟨?_, h.2.2⟩
  unfold IdempotencyRecord.arriving
  split
  · exact h.1
  · exact h.2.1

theorem swept_all {victims expired : Rows} {limit : Int} (hperm : victims.Perm expired)
    (hlimit : (expired.length : Int) ≤ limit) :
    swept rows (victims.take (sweepLimit limit)) = swept rows expired := by
  have htake : victims.take (sweepLimit limit) = victims := by
    refine take_of_length_le ?_
    rw [hperm.length_eq, sweepLimit]
    split <;> omega
  rw [htake, swept, swept, hperm.length_eq]
  simp only [hperm.mem_iff]

theorem reserve_eq {now : Int} (hwhole : (Op.claim r now).Whole)
    (hr : r.reserved = r) :
    (r.arriving now).reserved = r.arriving now ∧ (r.arriving now).column = r.arriving now :=
  ⟨congrArg (·.arriving now) hr, column_eq (arriving_whole hwhole)⟩

theorem postgres_eq_memory (order : MapOrder) {op : Op} (hrows : WholeRows rows)
    (hstorable : op.storable = true) (hwhole : op.Whole) (hproper : Proper rows op) (hample : Ample rows op) :
    postgres rows op = order.memory rows op := by
  simp only [postgres, hstorable, Bool.not_true, Bool.false_eq_true, if_false]
  cases op with
  | claim r now =>
    cases hlook : lookup rows r.key with
    | none =>
      obtain ⟨hreserved, hcolumn⟩ := reserve_eq hwhole (hproper (by simp [hlook]))
      simp only [purged, MapOrder.memory, hlook, hreserved, hcolumn]
    | some row =>
      have hle := micros_le (hrows row (lookup_mem hlook)).2 hwhole.1
      by_cases hexpired : row.expiresAt ≤ now
      · obtain ⟨hreserved, hcolumn⟩ := reserve_eq hwhole (hproper (by simpa [hlook] using hexpired))
        simp only [purged, MapOrder.memory, hlook, hle, hexpired, if_true, lookup_without, hreserved, hcolumn,
          Int.not_lt.mpr hexpired, if_false]
      · simp only [purged, MapOrder.memory, hlook, hle, hexpired, if_false, Int.not_le.mp hexpired, if_true]
  | complete r => exact (if_pos hproper).symm
  | delete key => rfl
  | get key now =>
    cases hlook : lookup rows key with
    | none => simp only [MapOrder.memory, hlook]
    | some row =>
      have hle := micros_le (hrows row (lookup_mem hlook)).2 hwhole
      simp only [MapOrder.memory, hlook, ← Int.not_le, hle]
  | deleteExpired now limit =>
    have hexpired : (rows.filter fun row => micros row.expiresAt ≤ micros now) =
        rows.filter (·.expiresAt ≤ now) :=
      filter_congr fun row hrow => by rw [decide_eq_decide, micros_le (hrows row hrow).2 hwhole]
    simp only [MapOrder.memory, hexpired]
    rw [swept_all ((order.perm rows).filter _) hample, swept_all (mergeSort_perm ..) hample]

theorem wholeRows_memory (order : MapOrder) {op : Op} (hrows : WholeRows rows) (hwhole : op.Whole) :
    WholeRows (order.memory rows op).1 := by
  have hwithout : ∀ p, WholeRows (rows.filter p) := fun p row hrow => hrows row (mem_of_mem_filter hrow)
  cases op with
  | claim r now =>
    have hstored := arriving_whole hwhole
    simp only [MapOrder.memory]
    split
    · split
      · exact hrows
      · exact Steps.forall_mem_append (hwithout _) hstored
    · exact Steps.forall_mem_append hrows hstored
  | complete r =>
    simp only [MapOrder.memory]
    split
    · intro row hrow
      obtain ⟨row', hrow', rfl⟩ := mem_map.mp hrow
      split <;> exact hrows row' hrow'
    · exact hrows
  | delete key => exact hwithout _
  | get key now =>
    simp only [MapOrder.memory]
    repeat' split
    all_goals exact hrows
  | deleteExpired now limit => exact hwithout _

/-- Operations with arguments the columns hold, of which no completion misses its row and no
reservation brings a response, are answered alike by both stores and leave them alike. -/
theorem memory_refines_postgres (order : MapOrder) (ops : List Op)
    (h : Steps.Along (logged order.memory)
      (fun s op => Ample s.1 op ∧ op.storable = true ∧ op.Whole ∧ Proper s.1 op) ([], []) ops) :
    Steps.run (logged order.memory) ([], []) ops = Steps.run (logged postgres) ([], []) ops := by
  refine h.run_eq (I := fun s => WholeRows s.1) ?_ ?_ nofun
  · rintro s op _ ⟨-, -, hwhole, -⟩ hs ⟨rfl⟩
    exact wholeRows_memory order hs hwhole
  · rintro s op ⟨hample, hstorable, hwhole, hproper⟩ hs
    rw [logged, logged, postgres_eq_memory order hs hstorable hwhole hproper hample]

def demoRecord (statusCode : Int) : IdempotencyRecord :=
  ⟨⟨"acme", "K"⟩, ⟨"9f86", "POST", "/v1/webhooks"⟩, statusCode, "", [], 0, 10 ^ 9⟩

def inOrder : MapOrder := ⟨id, .refl⟩

def demoOps : List Op :=
  [.claim (demoRecord 0) 0, .complete (demoRecord 201), .get ⟨"acme", "K"⟩ 5000, .deleteExpired (10 ^ 9) 1]

theorem memory_refines_postgres_demo :
    Steps.run (logged postgres) ([], []) demoOps =
      some ([], [.started (demoRecord 0), .done, .found (demoRecord 201), .deleted 1]) :=
  (memory_refines_postgres inOrder _ (.of_check (by decide +kernel))).symm.trans (by decide +kernel)

/-- A completion of an absent key is an error in memory and none in Postgres. -/
theorem complete_absent_diverges :
    (inOrder.memory [] (.complete (demoRecord 201))).2 = .notFound ∧
      (postgres [] (.complete (demoRecord 201))).2 = .done := by
  decide +kernel

end SoroTrail.Api.IdempotencyStores
