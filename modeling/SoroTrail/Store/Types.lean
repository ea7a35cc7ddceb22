import SoroTrail.Lib.Table
import SoroTrail.Lib.Time
import SoroTrail.Rpc.Types

/-!
# Stored rows

The rows of the tables the ingester reads and writes, and the two backends, which
differ in the primary key of `events` and in where an empty network is replaced.
-/

set_option autoImplicit false

namespace SoroTrail.Store

open Lib Rpc

inductive Backend where
  | postgres
  | sqlite
  deriving DecidableEq, Repr

structure Event where
  id : String
  contractID : String
  ledger : Int
  type : String
  txHash : String
  txIndex : Int
  opIndex : Int
  inSuccessfulCall : Bool
  topics : String
  value : String
  createdAt : Time
  network : String
  rawTopicXDR : List String
  rawValueXDR : String
  deriving DecidableEq, Repr

def Event.sample (network id contractID : String) (ledger : Int) : Event where
  id := id
  contractID := contractID
  ledger := ledger
  type := "contract"
  txHash := "t"
  txIndex := 1
  opIndex := 0
  inSuccessfulCall := true
  topics := "[]"
  value := "1"
  createdAt := Time.zero
  network := network
  rawTopicXDR := []
  rawValueXDR := ""

structure AddressRef where
  address : String
  eventID : String
  role : String
  deriving DecidableEq, Repr

structure DeadLetter where
  eventID : String
  contractID : String
  ledger : Int
  type : String
  txHash : String
  topicXDR : List String
  valueXDR : String
  error : String
  attempts : Nat
  deriving DecidableEq, Repr

structure IngestionState where
  network : String
  lastIngestedLedger : Int
  lastCursor : String
  lastSuccessfulPoll : Option Int
  deriving DecidableEq, Repr

structure ContractCursor where
  contractID : String
  lastIngestedLedger : Int
  lastCursor : String
  deriving DecidableEq, Repr

structure WatchedContract where
  contractID : String
  network : String
  deriving DecidableEq, Repr

structure AuditState where
  network : String
  verifiedThroughLedger : Int
  deriving DecidableEq, Repr

def defaultNetwork (network : String) : String :=
  if network = "" then "default" else network

theorem defaultNetwork_idem (n : String) : defaultNetwork (defaultNetwork n) = defaultNetwork n := by
  unfold defaultNetwork
  by_cases h : n = ""
  · simp [h]
  · simp [h]

/-- The primary key of `events`: `(network, ledger, id)` on Postgres, `(network, id)` on SQLite. -/
def eventKey (b : Backend) (e : Event) : String × Option Int × String :=
  match b with
  | .postgres => (e.network, some e.ledger, e.id)
  | .sqlite => (e.network, none, e.id)

theorem eventKey_inj {b : Backend} {x y : Event} (h : eventKey b x = eventKey b y) :
    x.network = y.network ∧ x.id = y.id := by
  cases b <;> simp_all [eventKey]

structure Tables (b : Backend) where
  events : Table Event (eventKey b)
  eventAddresses : Table AddressRef id
  deadLetters : Table DeadLetter DeadLetter.eventID
  ingestionState : Table IngestionState IngestionState.network
  contractCursors : Table ContractCursor ContractCursor.contractID
  watchedContracts : Table WatchedContract (fun w => (w.network, w.contractID))
  auditState : Table AuditState AuditState.network

def Tables.empty (b : Backend) : Tables b where
  events := Table.empty _
  eventAddresses := Table.empty _
  deadLetters := Table.empty _
  ingestionState := Table.empty _
  contractCursors := Table.empty _
  watchedContracts := Table.empty _
  auditState := Table.empty _

/-- A permanent per-event data error, as opposed to a transient failure. -/
def isPermanentEventError (err : Err) : Bool :=
  if err.is .canceled || err.isNet then false
  else if err.is .permanentEventFailure then true
  else
    match pgCode err with
    | some code => Text.startsWith code "22" || Text.startsWith code "23"
    | none => false
where
  pgCode : Err → Option String
    | .pg code _ => some code
    | .wrap _ inner => pgCode inner
    | .suffix inner _ => pgCode inner
    | .both first second | .pair first second => (pgCode first).orElse fun _ => pgCode second
    | _ => none

end SoroTrail.Store
