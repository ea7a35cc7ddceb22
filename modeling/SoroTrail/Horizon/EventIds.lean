import Mathlib.Data.Nat.Digits.Defs
import SoroTrail.Horizon.Extract
import SoroTrail.Lib.Int64

/-!
# Ids of backfilled events

An id is made of the hash, the ledger and the two indices an event is built with.  It
leads back to all four.  The events of the operations have indices of their own; the
events of the transaction itself all have those of the first event of the first
operation.
-/

set_option autoImplicit false

namespace SoroTrail.Horizon

open Lib Store List Function Decimal

/-! ## Ids -/

theorem formatEventID_toList (txHash : String) (ledger opIndex eventIndex : Int) :
    (formatEventID txHash ledger opIndex eventIndex).toList =
      ((txHash.toList ++ '-' :: zeroPad 20 ledger) ++ '-' :: zeroPad 5 opIndex) ++
        '-' :: zeroPad 5 eventIndex := by
  simp [formatEventID]

theorem ledger_text {ledger : Int} (h : IsInt64 ledger) :
    ∃ sign digits, '-' :: zeroPad 20 ledger = sign ++ '-' :: digits ∧ '-' ∉ digits ∧
      sign.length + digits.length = 20 := by
  cases ledger with
  | ofNat n =>
    have hbound : (n : Int) < 2 ^ 63 := h.2
    have hlen := Nat.toDigits_length 10 n 20 (by decide) (by omega)
    refine ⟨[], zeroPad.zeros 20 (Nat.toDigits 10 n), rfl, dash_notMem_zeros 20 n, ?_⟩
    rw [length_zeros, length_nil]
    omega
  | negSucc n =>
    have hbound := h.1
    have hlen := Nat.toDigits_length 10 (n + 1) 19 (by decide) (by omega)
    refine ⟨['-'], zeroPad.zeros 19 (Nat.toDigits 10 (n + 1)), rfl,
      dash_notMem_zeros 19 (n + 1), ?_⟩
    rw [length_zeros, length_singleton]
    omega

theorem formatEventID_inj {txHash txHash' : String} {ledger ledger' : Int} {o o' e e' : Nat}
    (hl : IsInt64 ledger) (hl' : IsInt64 ledger')
    (h : formatEventID txHash ledger o e = formatEventID txHash' ledger' o' e') :
    txHash = txHash' ∧ o = o' ∧ e = e' := by
  have htext := congrArg String.toList h
  rw [formatEventID_toList, formatEventID_toList] at htext
  obtain ⟨htext, hevent⟩ := split_last (dash_notMem_zeros 5 e)
    (dash_notMem_zeros 5 e') htext
  obtain ⟨htext, hop⟩ := split_last (dash_notMem_zeros 5 o)
    (dash_notMem_zeros 5 o') htext
  obtain ⟨sign, digits, heq, hdash, hlen⟩ := ledger_text hl
  obtain ⟨sign', digits', heq', hdash', hlen'⟩ := ledger_text hl'
  rw [heq, heq', ← append_assoc, ← append_assoc] at htext
  obtain ⟨hfront, hdigits⟩ := split_last hdash hdash' htext
  rw [hdigits] at hlen
  exact ⟨String.toList_inj.mp (append_inj' hfront (by omega)).1, zeroPad_natCast_inj hop,
    zeroPad_natCast_inj hevent⟩

/-! ## The rows of a transaction -/

variable (codec : Ingest.Codec) (xdr : Xdr)

def decodes (contractID : String) (ev : ContractEvent) : Bool :=
  match ev.contractId with
  | none => false
  | some h => decide (contractID = "" ∨ h.hexString = contractID) && (eventPayloads codec xdr ev).isSome

theorem buildEvent_cases (contractID : String) (tx : TxHint) (createdAt : Time) (ev : ContractEvent) (opIndex eventIndex : Int) :
    (decodes codec xdr contractID ev = false ∧
      buildEvent codec xdr contractID tx createdAt ev opIndex eventIndex = none) ∨
    (decodes codec xdr contractID ev = true ∧
      ∃ e, buildEvent codec xdr contractID tx createdAt ev opIndex eventIndex = some e ∧
        e.id = formatEventID tx.hash tx.ledger opIndex eventIndex) := by
  simp only [decodes, buildEvent]
  cases ev.contractId with
  | none => exact .inl ⟨rfl, rfl⟩
  | some h =>
    by_cases hother : contractID ≠ "" ∧ h.hexString ≠ contractID
    · simp [hother]
    · have hown : contractID = "" ∨ h.hexString = contractID := by tauto
      cases eventPayloads codec xdr ev with
      | none => simp
      | some p => simp [hother, hown]

variable {codec xdr} {contractID : String} {tx : TxHint}

theorem ids_eq (createdAt : Time) (l : List (ContractEvent × Nat × Nat)) :
    (l.filterMap fun (ev, opIndex, eventIndex) =>
        buildEvent codec xdr contractID tx createdAt ev opIndex eventIndex).map (fun e => e.id) =
      ((l.filter fun x => decodes codec xdr contractID x.1).map Prod.snd).map
        fun x => formatEventID tx.hash tx.ledger x.1 x.2 := by
  induction l with
  | nil => rfl
  | cons x l ih =>
    obtain ⟨ev, o, e⟩ := x
    rcases buildEvent_cases codec xdr contractID tx createdAt ev o e with ⟨hno, hbuild⟩ | ⟨hyes, row, hbuild, hid⟩
    · simp [hno, hbuild, ih]
    · simp [hyes, hbuild, hid, ih]

/-! ## Indices -/

def operationEvents (operations : List (List ContractEvent)) : List (ContractEvent × Nat × Nat) :=
  operations.zipIdx.flatMap fun (op, opIdx) => op.zipIdx.map fun (ev, evIdx) => (ev, opIdx, evIdx)

theorem nodup_zipIdx_snd {α : Type} (l : List α) : (l.zipIdx.map Prod.snd).Nodup := by
  rw [zipIdx_map_snd]
  exact nodup_range'

theorem nodup_operationEvents (operations : List (List ContractEvent)) :
    ((operationEvents operations).map Prod.snd).Nodup := by
  rw [operationEvents, map_flatMap, nodup_flatMap]
  constructor
  · intro x _
    refine List.Nodup.of_map Prod.snd ?_
    simpa [comp_def] using nodup_zipIdx_snd x.1
  · refine (pairwise_map.mp (nodup_zipIdx_snd operations)).imp fun {x y} hne a hx hy => hne ?_
    simp only [map_map, mem_map, comp_def] at hx hy
    obtain ⟨_, _, rfl⟩ := hx
    obtain ⟨_, _, heq⟩ := hy
    exact (Prod.mk.inj heq).1.symm

def TransactionMetaV4.firstEvent (v4 : TransactionMetaV4) : Option ContractEvent :=
  v4.operations.head?.bind List.head?

theorem mem_operationEvents_zero {operations : List (List ContractEvent)} {ev : ContractEvent} :
    (ev, 0, 0) ∈ operationEvents operations ↔ operations.head?.bind List.head? = some ev := by
  simp only [operationEvents, mem_flatMap, mem_map, Prod.exists, mem_zipIdx_iff_getElem?,
    Prod.mk.injEq, List.head?_eq_getElem?, Option.bind_eq_some_iff]
  constructor
  · rintro ⟨op, _, hop, _, _, hev, rfl, rfl, rfl⟩
    exact ⟨op, hop, hev⟩
  · rintro ⟨op, hop, hev⟩
    exact ⟨op, 0, hop, ev, 0, hev, rfl, rfl, rfl⟩

/-- Among the events of the transaction and the first one of its first operation, one at most gives
a row. -/
def Apart (codec : Ingest.Codec) (xdr : Xdr) (contractID : String) (m : TransactionMeta) : Prop :=
  m.v = 4 → ∀ v4 ∈ m.v4,
    (v4.firstEvent.toList ++ v4.events).countP (decodes codec xdr contractID) ≤ 1

theorem zero_mem_indices {v4 : TransactionMetaV4} {p : ContractEvent → Bool} :
    (0, 0) ∈ ((operationEvents v4.operations).filter fun x => p x.1).map Prod.snd ↔
      v4.firstEvent.toList.countP p = 1 := by
  have hmem : (0, 0) ∈ ((operationEvents v4.operations).filter fun x => p x.1).map Prod.snd ↔
      ∃ ev, v4.firstEvent = some ev ∧ p ev = true := by
    simp only [mem_map, mem_filter, Prod.exists, Prod.mk.injEq]
    constructor
    · rintro ⟨ev, _, _, ⟨hev, hp⟩, rfl, rfl⟩
      exact ⟨ev, mem_operationEvents_zero.mp hev, hp⟩
    · rintro ⟨ev, hev, hp⟩
      exact ⟨ev, 0, 0, ⟨mem_operationEvents_zero.mpr hev, hp⟩, rfl, rfl⟩
  rw [hmem]
  cases v4.firstEvent with
  | none => simp
  | some ev => simp [countP_cons]

theorem nodup_v4_iff (v4 : TransactionMetaV4) (p : ContractEvent → Bool) :
    (((operationEvents v4.operations ++ v4.events.map fun ev => (ev, 0, 0)).filter
        fun x : ContractEvent × Nat × Nat => p x.1).map Prod.snd).Nodup ↔
      (v4.firstEvent.toList ++ v4.events).countP p ≤ 1 := by
  have hown : (((operationEvents v4.operations).filter fun x => p x.1).map Prod.snd).Nodup :=
    (filter_sublist.map Prod.snd).nodup (nodup_operationEvents v4.operations)
  have hevents : ((v4.events.map fun ev => (ev, (0, 0))).filter fun x => p x.1).map Prod.snd =
      List.replicate (v4.events.countP p) (0, 0) := by
    simp [filter_map, comp_def, countP_eq_length_filter, map_const']
  have hfirst : v4.firstEvent.toList.countP p ≤ 1 :=
    countP_le_length.trans (by cases v4.firstEvent <;> simp)
  rw [filter_append, map_append, hevents, nodup_append, nodup_replicate,
    countP_append]
  by_cases hzero : v4.events.countP p = 0
  · simp [hzero, hown, hfirst]
  · have hapart : (∀ a ∈ ((operationEvents v4.operations).filter fun x => p x.1).map Prod.snd,
        ∀ b ∈ List.replicate (v4.events.countP p) (0, 0), a ≠ b) ↔
        v4.firstEvent.toList.countP p ≠ 1 := by
      rw [ne_eq, ← zero_mem_indices]
      simp only [mem_replicate, hzero, ne_eq, not_false_eq_true, true_and, forall_eq]
      exact ⟨fun h hmem => h _ hmem rfl, fun h a ha heq => h (heq ▸ ha)⟩
    rw [hapart]
    simp only [hown, true_and]
    omega

/-- The indices of the events that give a row are distinct just when the meta keeps them apart. -/
theorem nodup_indices_iff (m : TransactionMeta) :
    (((indexedEvents m).filter fun x => decodes codec xdr contractID x.1).map Prod.snd).Nodup ↔
      Apart codec xdr contractID m := by
  rw [indexedEvents]
  by_cases h3 : m.v = 3
  · rw [if_pos h3]
    have hapart : Apart codec xdr contractID m := fun h4 => by omega
    simp only [hapart, iff_true]
    split
    · refine ((filter_sublist.map Prod.snd).nodup ?_)
      refine List.Nodup.of_map Prod.snd ?_
      simpa [comp_def] using nodup_zipIdx_snd _
    · simp
  rw [if_neg h3]
  by_cases h4 : m.v = 4
  · rw [if_pos h4]
    cases hv4 : m.v4 with
    | none => simp [Apart, hv4]
    | some v4 =>
      have hapart : Apart codec xdr contractID m ↔
          (v4.firstEvent.toList ++ v4.events).countP (decodes codec xdr contractID) ≤ 1 := by
        simp [Apart, hv4, h4]
      rw [hapart]
      exact nodup_v4_iff v4 (decodes codec xdr contractID)
  · simp [Apart, h4]

/-! ## Distinct ids -/

def metaEvents (m : TransactionMeta) : List ContractEvent := (indexedEvents m).map Prod.fst

def emitted (codec : Ingest.Codec) (xdr : Xdr) (contractID : String) (tx : TxHint) : Nat :=
  match decodeMeta xdr tx.resultMetaXDR with
  | .error _ => 0
  | .ok m => (metaEvents m).countP (decodes codec xdr contractID)

/-- The rows of a transaction have ids of their own, and are stored one by one. -/
structure UniqueIds (codec : Ingest.Codec) (xdr : Xdr) (contractID : String) (tx : TxHint)
    (out : Extracted) : Prop where
  apart : (out.events.map fun e => e.id).Nodup
  hashes : ∀ tx' out', IsInt64 tx'.ledger → tx'.hash ≠ tx.hash →
    extractContractEvents codec xdr contractID tx' = .ok out' →
      ∀ e ∈ out.events, ∀ e' ∈ out'.events, e.id ≠ e'.id
  stored : ∀ (b : Backend) (t : Tables b),
    (∀ r ∈ t.events.rows, ∀ e ∈ out.events, eventKey b r ≠ eventKey b (liveRow b e)) →
      t.inserted out.events = emitted codec xdr contractID tx

theorem extracted_ids {out : Extracted} (h : extractContractEvents codec xdr contractID tx = .ok out) :
    (out.events = [] ∧ ∀ m, decodeMeta xdr tx.resultMetaXDR ≠ .ok m) ∨
      ∃ m, decodeMeta xdr tx.resultMetaXDR = .ok m ∧ out.events.map (fun e => e.id) =
        (((indexedEvents m).filter fun x => decodes codec xdr contractID x.1).map Prod.snd).map
          fun x => formatEventID tx.hash tx.ledger x.1 x.2 := by
  rw [extractContractEvents] at h
  split at h
  · rename_i hempty
    cases h
    exact .inl ⟨rfl, fun m hm => by simp [hempty, decodeMeta] at hm⟩
  · split at h
    · cases h
    · rename_i m hm
      cases h
      exact .inr ⟨m, hm, ids_eq _ _⟩

theorem extracted_id {out : Extracted} (h : extractContractEvents codec xdr contractID tx = .ok out)
    {e : Event} (he : e ∈ out.events) : ∃ o i : Nat, e.id = formatEventID tx.hash tx.ledger o i := by
  have hid := mem_map_of_mem (f := fun e : Event => e.id) he
  rcases extracted_ids h with ⟨hnil, -⟩ | ⟨m, -, hids⟩
  · rw [hnil] at he
    cases he
  · rw [hids] at hid
    obtain ⟨x, -, hx⟩ := mem_map.mp hid
    exact ⟨x.1, x.2, hx.symm⟩

/-- The ids of a transaction are unique just when its meta has no two events of the transaction, and
none beside the first event of the first operation, that give a row. -/
theorem backfill_ids_unique_iff (codec : Ingest.Codec) (xdr : Xdr) (contractID : String) (tx : TxHint)
    (out : Extracted) (hledger : IsInt64 tx.ledger)
    (h : extractContractEvents codec xdr contractID tx = .ok out) :
    UniqueIds codec xdr contractID tx out ↔
      ∀ m, decodeMeta xdr tx.resultMetaXDR = .ok m → Apart codec xdr contractID m := by
  have hapart : (out.events.map fun e => e.id).Nodup ↔
      ∀ m, decodeMeta xdr tx.resultMetaXDR = .ok m → Apart codec xdr contractID m := by
    rcases extracted_ids h with ⟨hnil, hmeta⟩ | ⟨m, hm, hids⟩
    · simp [hnil, hmeta]
    · have hinj : Function.Injective fun x : Nat × Nat => formatEventID tx.hash tx.ledger x.1 x.2 := by
        intro x y heq
        obtain ⟨-, hop, hevent⟩ := formatEventID_inj hledger hledger heq
        exact Prod.ext hop hevent
      rw [hids, nodup_map_iff hinj, nodup_indices_iff, hm]
      simp
  refine ⟨fun hunique => hapart.mp hunique.apart, fun hm => ⟨hapart.mpr hm, ?_, ?_⟩⟩
  · intro tx' out' hledger' hhash h' e he e' he' heq
    obtain ⟨o, i, hid⟩ := extracted_id h he
    obtain ⟨o', i', hid'⟩ := extracted_id h' he'
    rw [hid, hid'] at heq
    exact hhash (formatEventID_inj hledger hledger' heq).1.symm
  · intro b t hnew
    have hkeys : ((out.events.map (liveRow b)).map (eventKey b)).Nodup := by
      refine List.Nodup.of_map (fun k => k.2.2) ?_
      rw [map_map, map_map]
      cases b <;> exact hapart.mpr hm
    have hlen := Table.length_insertAll (by simpa using hnew) hkeys
    have hcount : out.events.length = emitted codec xdr contractID tx := by
      rcases extracted_ids h with ⟨hnil, hmeta⟩ | ⟨m, hm, hids⟩
      · cases hd : decodeMeta xdr tx.resultMetaXDR with
        | error err => simp [emitted, hd, hnil]
        | ok m => exact absurd hd (hmeta m)
      · have := congrArg List.length hids
        simpa [emitted, hm, metaEvents, filter_map, countP_eq_length_filter,
          comp_def] using this
    rw [Tables.inserted, Tables.upsertEvents, hlen, length_map]
    omega

/-- One event of an operation. -/
theorem backfill_ids_unique_operation :
    ∃ out, extractContractEvents Ingest.Codec.verbatim (transferXdr transferMetaV4) zeroHash.hexString
        transferTx = .ok out ∧ out.events.length = 1 ∧
      UniqueIds Ingest.Codec.verbatim (transferXdr transferMetaV4) zeroHash.hexString transferTx out := by
  refine ⟨_, rfl, by decide +kernel, (backfill_ids_unique_iff _ _ _ _ _ (by decide) rfl).mpr ?_⟩
  intro m hm
  cases Except.ok.inj (show Except.ok transferMetaV4 = .ok m from hm)
  intro _ v4 hv4
  cases Option.some.inj (show some _ = some v4 from hv4)
  decide +kernel

def transferTwice : TransactionMeta :=
  { v := 4, v3 := none, v4 := some { operations := [[transferEvent]], events := [transferEvent] } }

/-- Two events give two rows with one id, of which one is stored. -/
theorem transaction_event_shares_id :
    ∃ out, extractContractEvents Ingest.Codec.verbatim (transferXdr transferTwice) zeroHash.hexString
        transferTx = .ok out ∧ out.events.length = 2 ∧
      ¬ UniqueIds Ingest.Codec.verbatim (transferXdr transferTwice) zeroHash.hexString transferTx out ∧
      (Tables.empty .postgres).inserted out.events = 1 := by
  refine ⟨_, rfl, by decide +kernel, fun hunique => ?_, by decide +kernel⟩
  have := hunique.apart
  revert this
  decide +kernel

end SoroTrail.Horizon
