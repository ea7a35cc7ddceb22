import SoroTrail.Ingester.Types
import SoroTrail.Lib.Radix

/-!
# Events from Horizon transactions

`ExtractContractEvents` turns the meta of one Horizon transaction into event rows.
It compares the contract id it is given with the hexadecimal text of the event's
contract hash, while the backfill command only lets a strkey through.  The two
texts differ in length, so no event of the contract survives the comparison.
-/

set_option autoImplicit false

namespace SoroTrail.Horizon

open Lib Rpc Store List Decimal Radix

/-! ## Contract ids -/

structure Hash where
  bytes : List UInt8
  length_bytes : bytes.length = 32
  deriving DecidableEq

def hexAlphabet : List Char := "0123456789abcdef".toList

def base32Alphabet : List Char := "ABCDEFGHIJKLMNOPQRSTUVWXYZ234567".toList

def Hash.hexString (h : Hash) : String :=
  String.ofList (encode 4 hexAlphabet h.bytes)

/-- One step of the CRC16-XModem checksum, for one bit of the byte shifted in. -/
def crcShift (crc : BitVec 16) : BitVec 16 :=
  if crc.msb then (crc <<< 1) ^^^ 0x1021#16 else crc <<< 1

def crc16 (bytes : List UInt8) : BitVec 16 :=
  bytes.foldl (fun crc b => Nat.iterate crcShift 8 (crc ^^^ BitVec.ofNat 16 (b.toNat * 256))) 0

def versionByteContract : UInt8 := 16

/-- The `C...` text of a contract: version, hash and checksum (low byte first) in base32. -/
def strkey (h : Hash) : String :=
  let payload := versionByteContract :: h.bytes
  let crc := (crc16 payload).toNat
  String.ofList (encode 5 base32Alphabet (payload ++ [UInt8.ofNat crc, UInt8.ofNat (crc / 256)]))

/-- `config.ValidContractID`.  Every accepted character is ASCII, so the length in bytes the
source compares is the number of characters. -/
def validContractID (s : String) : Bool :=
  match s.toList with
  | [] => false
  | c :: cs =>
    decide ((c :: cs).length = 56) && decide (c = 'C') &&
      cs.all fun r => decide (r ∈ base32Alphabet)

theorem length_hexString (h : Hash) : h.hexString.toList.length = 64 := by
  rw [Hash.hexString, String.toList_ofList]
  apply length_encode (by decide)
  rw [h.length_bytes]

theorem length_of_validContractID {s : String} (hs : validContractID s = true) :
    s.toList.length = 56 := by
  unfold validContractID at hs
  split at hs
  · cases hs
  · rename_i c cs heq
    simp only [Bool.and_eq_true, decide_eq_true_eq] at hs
    rw [heq]
    exact hs.1.1

theorem hexString_ne_of_validContractID {s : String} (hs : validContractID s = true) (h : Hash) :
    h.hexString ≠ s := by
  intro heq
  have hlong := length_hexString h
  rw [heq, length_of_validContractID hs] at hlong
  omega

theorem strkey_toList (h : Hash) : ∃ rest, (strkey h).toList = 'C' :: rest ∧
    rest.length = 55 ∧ ∀ c ∈ rest, c ∈ base32Alphabet := by
  unfold strkey
  dsimp only
  generalize hcrc : [UInt8.ofNat (crc16 (versionByteContract :: h.bytes)).toNat,
    UInt8.ofNat ((crc16 (versionByteContract :: h.bytes)).toNat / 256)] = sum
  have hlen : (encode 5 base32Alphabet (versionByteContract :: h.bytes ++ sum)).length = 56 := by
    apply length_encode (by decide)
    rw [← hcrc, length_append, length_cons, h.length_bytes]
    rfl
  have hall : ∀ c ∈ encode 5 base32Alphabet (versionByteContract :: h.bytes ++ sum),
      c ∈ base32Alphabet := fun c hc =>
    mem_alphabet_of_mem_encode (by decide) (by decide) hc
  rw [String.toList_ofList]
  -- the first five bits are those of the version byte, 00010
  have hhead : ∃ rest, encode 5 base32Alphabet (versionByteContract :: h.bytes ++ sum) =
      'C' :: rest := ⟨_, rfl⟩
  obtain ⟨rest, hrest⟩ := hhead
  rw [hrest] at hlen hall ⊢
  exact ⟨rest, rfl, by simpa using hlen, fun c hc => hall c (.tail _ hc)⟩

theorem validContractID_strkey (h : Hash) : validContractID (strkey h) = true := by
  obtain ⟨rest, heq, hlen, hall⟩ := strkey_toList h
  unfold validContractID
  rw [heq]
  simp [hlen]
  exact hall

example : strkey ⟨List.replicate 32 0, rfl⟩ =
    "CAAAAAAAAAAAAAAAAAAAAAAAAAAAAAAAAAAAAAAAAAAAAAAAAAAABSC4" := by decide +kernel

/-! ## Transaction meta -/

/-- An `xdr.ScVal`: a vector (whose pointer may be nil) or a value of another kind. -/
inductive ScVal where
  | vec (items : Option (List ScVal))
  | other (xdr : String)

inductive ContractEventType where
  | system
  | contract
  | diagnostic
  deriving DecidableEq, Repr

structure ContractEventV0 where
  topics : List ScVal
  data : ScVal

structure ContractEventBody where
  v : Int
  v0 : Option ContractEventV0

structure ContractEvent where
  contractId : Option Hash
  type : ContractEventType
  body : ContractEventBody

structure TransactionMetaV3 where
  /-- The events of `SorobanMeta`, when it is there. -/
  sorobanMeta : Option (List ContractEvent)

structure TransactionMetaV4 where
  operations : List (List ContractEvent)
  events : List ContractEvent

structure TransactionMeta where
  v : Int
  v3 : Option TransactionMetaV3
  v4 : Option TransactionMetaV4

/-- The XDR library: reading a meta and writing a value, both in base64. -/
structure Xdr where
  unmarshalMeta : String → Except Err TransactionMeta
  marshalBase64 : ScVal → Option String

structure TxHint where
  hash : String
  ledger : Int
  createdAt : String
  resultCode : String
  resultMetaXDR : String
  txIndexInLedger : Int
  deriving DecidableEq, Repr

structure Extracted where
  events : List Store.Event
  failed : Bool
  hadMeta : Bool
  hadEvents : Bool
  deriving DecidableEq, Repr

/-! ## Extraction -/

def formatEventID (txHash : String) (ledger opIndex eventIndex : Int) : String :=
  txHash ++ "-" ++ String.ofList (zeroPad 20 ledger) ++ "-" ++
    String.ofList (zeroPad 5 opIndex) ++ "-" ++ String.ofList (zeroPad 5 eventIndex)

example : formatEventID "ab" 7 1 12 = "ab-00000000000000000007-00001-00012" := by decide

variable (codec : Ingest.Codec) (xdr : Xdr)

def decodeMeta (base64XDR : String) : Except Err TransactionMeta :=
  if base64XDR = "" then .error (.other "empty meta")
  else
    match xdr.unmarshalMeta base64XDR with
    | .ok m => .ok m
    | .error err => .error (.wrap "unmarshaling transaction meta" err)

def eventKind : ContractEventType → String
  | .system => "system"
  | _ => "contract"

def encodeScVal (v : ScVal) : Option String :=
  xdr.marshalBase64 v

def decodeOne (base64XDR : String) : Option String :=
  if base64XDR = "" then some "null"
  else
    match codec.decodeScVal base64XDR with
    | .ok out => some out
    | .error _ => none

def topicPayloads : List ScVal → Option (List String × List String)
  | [] => some ([], [])
  | v :: vs =>
    -- empty on encode failure
    let base64Topic := (encodeScVal xdr v).getD ""
    match decodeOne codec base64Topic with
    | none => none
    | some t =>
      match topicPayloads vs with
      | none => none
      | some (topics, raw) =>
        some (t :: topics, if base64Topic ≠ "" then base64Topic :: raw else raw)

def ScVal.getVec : ScVal → Option (List ScVal)
  | .vec items => items
  | .other _ => none

/-- The topics, the value, the raw topics and the raw value of an event. -/
def eventPayloads (ev : ContractEvent) : Option (String × String × List String × String) :=
  match ev.body.v0 with
  | none => none
  | some body =>
    if ev.body.v ≠ 0 then none
    else
      match body.data.getVec with
      | none =>
        match encodeScVal xdr body.data with
        | none => none
        | some valB64 =>
          match decodeOne codec valB64 with
          | none => none
          | some val => some ("[]", val, [], valB64)
      | some [] => some ("[]", "null", [], "")
      | some (v :: vs) =>
        match topicPayloads codec xdr (v :: vs).dropLast with
        | none => none
        | some (topics, rawTopicXDR) =>
          let valB64 := (encodeScVal xdr ((v :: vs).getLastD v)).getD ""
          match decodeOne codec valB64 with
          | none => none
          | some val =>
            match codec.marshalJSON topics with
            | .error _ => none
            | .ok topicsJSON => some (topicsJSON, val, rawTopicXDR, valB64)

def buildEvent (contractID : String) (tx : TxHint) (createdAt : Time) (ev : ContractEvent)
    (opIndex eventIndex : Int) : Option Store.Event :=
  match ev.contractId with
  | none => none
  | some h =>
    let candidate := h.hexString
    if contractID ≠ "" ∧ candidate ≠ contractID then none
    else
      match eventPayloads codec xdr ev with
      | none => none
      | some (topics, value, rawTopicXDR, rawValueXDR) =>
        some
          { id := formatEventID tx.hash tx.ledger opIndex eventIndex
            contractID := candidate
            ledger := tx.ledger
            type := eventKind ev.type
            txHash := tx.hash
            txIndex := tx.txIndexInLedger
            opIndex := opIndex
            inSuccessfulCall :=
              decide (tx.resultCode = "txSuccess" ∨ tx.resultCode = "txFeeBumpInnerSuccess")
            topics := topics
            value := value
            createdAt := createdAt
            network := ""
            rawTopicXDR := rawTopicXDR
            rawValueXDR := rawValueXDR }

def indexedEvents (m : TransactionMeta) : List (ContractEvent × Nat × Nat) :=
  if m.v = 3 then
    match m.v3 with
    | some { sorobanMeta := some events } => events.zipIdx.map fun (ev, i) => (ev, 0, i)
    | _ => []
  else if m.v = 4 then
    match m.v4 with
    | some v4 =>
      (v4.operations.zipIdx.flatMap fun (op, opIdx) =>
        op.zipIdx.map fun (ev, evIdx) => (ev, opIdx, evIdx)) ++
      v4.events.map fun ev => (ev, 0, 0)
    | none => []
  else []

def txFailed (tx : TxHint) : Bool :=
  decide (tx.resultCode ≠ "" ∧ tx.resultCode ≠ "txSuccess" ∧ tx.resultCode ≠ "txFeeBumpInnerSuccess")

def extractContractEvents (contractID : String) (tx : TxHint) : Except Err Extracted :=
  if tx.resultMetaXDR = "" then
    .ok { events := [], failed := txFailed tx, hadMeta := false, hadEvents := false }
  else
    match decodeMeta xdr tx.resultMetaXDR with
    | .error err => .error err
    | .ok m =>
      let createdAt := (codec.parseRFC3339 tx.createdAt).getD Time.zero
      let events := (indexedEvents m).filterMap fun (ev, opIndex, eventIndex) =>
        buildEvent codec xdr contractID tx createdAt ev opIndex eventIndex
      .ok { events := events, failed := txFailed tx, hadMeta := true, hadEvents := !events.isEmpty }

theorem buildEvent_eq_none {contractID : String} (hvalid : validContractID contractID = true)
    (tx : TxHint) (createdAt : Time) (ev : ContractEvent) (opIndex eventIndex : Int) :
    buildEvent codec xdr contractID tx createdAt ev opIndex eventIndex = none := by
  have hne : contractID ≠ "" := by
    intro hempty
    rw [hempty] at hvalid
    exact absurd hvalid (by decide)
  unfold buildEvent
  cases ev.contractId with
  | none => rfl
  | some h => simp [hne, hexString_ne_of_validContractID hvalid h]

theorem extractContractEvents_events {contractID : String} (hvalid : validContractID contractID = true)
    {tx : TxHint} {out : Extracted} (h : extractContractEvents codec xdr contractID tx = .ok out) :
    out.events = [] := by
  unfold extractContractEvents at h
  split at h
  · rw [← Except.ok.inj h]
  · split at h
    · cases h
    · rw [← Except.ok.inj h]
      rw [filterMap_eq_nil_iff]
      rintro ⟨ev, opIndex, eventIndex⟩ _
      exact buildEvent_eq_none codec xdr hvalid tx _ ev opIndex eventIndex

/-! ## The RPC's rendering of the same events -/

def rpcType : ContractEventType → String
  | .system => "system"
  | .contract => "contract"
  | .diagnostic => "diagnostic"

def contractEvents (m : TransactionMeta) : List (ContractEvent × Nat) :=
  if m.v = 3 then
    match m.v3 with
    | some { sorobanMeta := some events } => events.map fun ev => (ev, 0)
    | _ => []
  else if m.v = 4 then
    match m.v4 with
    | some v4 => v4.operations.zipIdx.flatMap fun (op, opIdx) => op.map fun ev => (ev, opIdx)
    | none => []
  else []

/-- An event of contract `h` as getEvents returns it in base64: the contract as a strkey, the
topics and the data of the V0 body. -/
def rendering (h : Hash) (tx : TxHint) (id : String) (ev : ContractEvent) (opIndex : Nat) :
    Option Rpc.Event :=
  match ev.body.v0 with
  | none => none
  | some body =>
    match body.topics.mapM xdr.marshalBase64, xdr.marshalBase64 body.data with
    | some topic, some value =>
      if ev.contractId = some h then
        some
          { id := id
            pagingToken := ""
            type := rpcType ev.type
            ledger := tx.ledger.toNat
            ledgerClosedAt := tx.createdAt
            contractID := strkey h
            txHash := tx.hash
            transactionIndex := tx.txIndexInLedger
            operationIndex := opIndex
            inSuccessfulContractCall := true
            topic := topic
            value := value
            topicJSON := none
            valueJSON := none }
      else none
    | _, _ => none

/-- The columns a backfilled row has to share with the live row. -/
def SameRow (row live : Store.Event) : Prop :=
  row.contractID = live.contractID ∧ row.type = live.type ∧ row.txHash = live.txHash ∧
    row.opIndex = live.opIndex ∧ row.topics = live.topics ∧ row.value = live.value ∧
    row.rawTopicXDR = live.rawTopicXDR ∧ row.rawValueXDR = live.rawValueXDR

variable (ing : Ingest.Ingester)

/-- `live` is the row `toStoreEvent` builds for an event of contract `h` in the transaction. -/
def LiveRow (h : Hash) (tx : TxHint) (live : Store.Event) : Prop :=
  ∃ m ev opIndex id re, decodeMeta xdr tx.resultMetaXDR = .ok m ∧ (ev, opIndex) ∈ contractEvents m ∧
    rendering xdr h tx id ev opIndex = some re ∧ Ingest.toStoreEvent ing re = .ok live

/-- Extraction for the contract's strkey gives the live rows and no others, ids aside. -/
def Agrees (h : Hash) (tx : TxHint) : Prop :=
  ∃ out, extractContractEvents ing.codec xdr (strkey h) tx = .ok out ∧
    (∀ live, LiveRow xdr ing h tx live → ∃ row ∈ out.events, SameRow row live) ∧
    ∀ row ∈ out.events, ∃ live, LiveRow xdr ing h tx live ∧ SameRow row live

/-- No transaction with an event of the contract is backfilled as it is ingested live. -/
theorem extraction_never_agrees {h : Hash} {tx : TxHint} {live : Store.Event}
    (hlive : LiveRow xdr ing h tx live) : ¬ Agrees xdr ing h tx := by
  rintro ⟨out, hout, hcomplete, _⟩
  obtain ⟨row, hrow, _⟩ := hcomplete live hlive
  rw [extractContractEvents_events ing.codec xdr (validContractID_strkey h) hout] at hrow
  cases hrow

/-! ## One transfer -/

def zeroHash : Hash := ⟨List.replicate 32 0, rfl⟩

def transferEvent : ContractEvent where
  contractId := some zeroHash
  type := .contract
  body := { v := 0, v0 := some { topics := [.other "transfer", .other "to"], data := .other "100" } }

def transferXdr (m : TransactionMeta) : Xdr where
  unmarshalMeta _ := .ok m
  marshalBase64
    | .other x => some x
    | .vec _ => none

def transferMetaV3 : TransactionMeta :=
  { v := 3, v3 := some { sorobanMeta := some [transferEvent] }, v4 := none }

def transferMetaV4 : TransactionMeta :=
  { v := 4, v3 := none, v4 := some { operations := [[], [transferEvent]], events := [] } }

def transferTx : TxHint where
  hash := "aa"
  ledger := 7
  createdAt := ""
  resultCode := "txSuccess"
  resultMetaXDR := "meta"
  txIndexInLedger := 1

def transferRow (opIndex : Int) : Store.Event where
  id := "0000000030064775168-0000000000"
  contractID := strkey zeroHash
  ledger := 7
  type := "contract"
  txHash := "aa"
  txIndex := 1
  opIndex := opIndex
  inSuccessfulCall := true
  topics := "[transfer,to]"
  value := "100"
  createdAt := Time.zero
  network := ""
  rawTopicXDR := ["transfer", "to"]
  rawValueXDR := "100"

def transferIngester : Ingest.Ingester :=
  Ingest.new Ingest.Codec.verbatim false Ingest.Options.zero

theorem liveRow_transferRow {m : TransactionMeta} {opIndex : Nat}
    (h : (transferEvent, opIndex) ∈ contractEvents m) :
    LiveRow (transferXdr m) transferIngester zeroHash transferTx (transferRow opIndex) := by
  refine ⟨m, transferEvent, opIndex, "0000000030064775168-0000000000", _, rfl, h, rfl, rfl⟩

theorem mem_transferMetaV4 : (transferEvent, 1) ∈ contractEvents transferMetaV4 :=
  mem_singleton.mpr rfl

theorem extraction_never_agrees_transfer :
    txFailed transferTx = false ∧
      ¬ Agrees (transferXdr transferMetaV4) transferIngester zeroHash transferTx :=
  ⟨rfl, extraction_never_agrees _ _ (liveRow_transferRow mem_transferMetaV4)⟩

/-- The transfer has a live row, its strkey extracts nothing, and its hexadecimal id extracts a
row without the topics. -/
theorem extraction_loses_transfer :
    LiveRow (transferXdr transferMetaV3) transferIngester zeroHash transferTx (transferRow 0) ∧
      extractContractEvents Ingest.Codec.verbatim (transferXdr transferMetaV3) (strkey zeroHash)
        transferTx = .ok { events := [], failed := false, hadMeta := true, hadEvents := false } ∧
      extractContractEvents Ingest.Codec.verbatim (transferXdr transferMetaV3) zeroHash.hexString
        transferTx =
          .ok
            { events :=
                [{ transferRow 0 with
                    id := "aa-00000000000000000007-00000-00000"
                    contractID := "0000000000000000000000000000000000000000000000000000000000000000"
                    topics := "[]"
                    rawTopicXDR := [] }]
              failed := false
              hadMeta := true
              hadEvents := true } := by
  refine ⟨liveRow_transferRow (mem_singleton.mpr rfl), ?_, ?_⟩
  · decide +kernel
  · decide +kernel

end SoroTrail.Horizon
