import Mathlib.Algebra.Ring.Int.Defs
import SoroTrail.Lib.Text

/-!
# RPC types and errors

The values that pass between the ingester, the RPC client and the store, under
the names the source uses.  A ledger sequence is a `uint32`: it is a natural
number here and every addition or conversion that can wrap goes through `u32`.
-/

set_option autoImplicit false

namespace SoroTrail.Rpc

open Lib Text

def u32 (n : Nat) : Nat := n % 2 ^ 32

def u32OfInt (x : Int) : Nat := (x % 2 ^ 32).toNat

theorem u32_of_lt {n : Nat} (h : n < 2 ^ 32) : u32 n = n :=
  Nat.mod_eq_of_lt h

theorem u32OfInt_natCast {n : Nat} (h : n < 2 ^ 32) : u32OfInt (n : Int) = n := by
  unfold u32OfInt
  omega

/-- The errors of the modelled code, with `wrap` for `fmt.Errorf("...: %w", err)`. -/
inductive Err where
  | rpc (code : Int) (message data : String)
  /-- A transport failure (`net.Error`). -/
  | network (message : String)
  | allProvidersDown
  | failoverReanchor
  | providerBehindCursor
  | retentionGap (providerURL : String) (requestedLedger oldestLedger : Nat)
  | networkPassphraseMismatch
  | providerDivergence
  | notFound
  | permanentEventFailure
  | pg (code message : String)
  | canceled
  /-- The model's step bound was reached before the code came to an end. -/
  | stillRunning
  | other (message : String)
  | wrap (context : String) (inner : Err)
  | suffix (inner : Err) (text : String)
  /-- `fmt.Errorf("%w (%w)", a, b)`. -/
  | both (first second : Err)
  /-- `fmt.Errorf("%w: %w", a, b)`. -/
  | pair (first second : Err)
  deriving DecidableEq, Repr

def retentionGapMessage (requested oldest : Nat) : String :=
  "startLedger " ++ toString requested ++ " is outside of retention window (must be within [" ++
    toString oldest ++ ", ...])"

/-- `err.Error()`. -/
def Err.message : Err → String
  | .rpc code message _ => "rpc error " ++ toString code ++ ": " ++ message
  | .network message => message
  | .allProvidersDown => "rpc: all providers down, backing off"
  | .failoverReanchor => "rpc: failover occurred, discard cursor and re-anchor from ledger position"
  | .providerBehindCursor => "rpc: provider latest ledger is behind cursor"
  | .retentionGap url requested oldest =>
    "rpc: provider " ++ url ++ " retention window starts at ledger " ++ toString oldest ++
      ", outside of retention window for requested ledger " ++ toString requested
  | .networkPassphraseMismatch => "rpc: provider network passphrase mismatch"
  | .providerDivergence => "rpc: provider returned divergent event data"
  | .notFound => "not found"
  | .permanentEventFailure => "permanent per-event storage failure"
  | .pg _ message => message
  | .canceled => "context canceled"
  | .stillRunning => ""
  | .other message => message
  | .wrap context inner => context ++ ": " ++ inner.message
  | .suffix inner text => inner.message ++ text
  | .both first second => first.message ++ " (" ++ second.message ++ ")"
  | .pair first second => first.message ++ ": " ++ second.message

/-- The lower-cased message and data of the first RPC error in the chain, which is what
`errors.As(err, &rpcErr)` finds. -/
def Err.rpcText : Err → Option String
  | .rpc _ message data => some (toLower (message ++ " " ++ data))
  | .retentionGap _ requested oldest =>
    some (toLower (retentionGapMessage requested oldest ++ " "))
  | .wrap _ inner => inner.rpcText
  | .suffix inner _ => inner.rpcText
  | .both first second | .pair first second => first.rpcText.orElse fun _ => second.rpcText
  | _ => none

def isLedgerOutOfRange (err : Err) : Bool :=
  match err.rpcText with
  | some msg =>
    contains msg "ledger range" || contains msg "outside of retention window" ||
      contains msg "must be within"
  | none => false

def isXDRFormatRejected (err : Err) : Bool :=
  match err.rpcText with
  | some msg => contains msg "xdrformat"
  | none => false

/-- `errors.Is` against a sentinel. -/
def Err.is : Err → Err → Bool
  | .wrap _ inner, target => inner.is target
  | .suffix inner _, target => inner.is target
  | .both first second, target | .pair first second, target => first.is target || second.is target
  | err, target => decide (err = target)

def isFailoverReanchor (err : Err) : Bool :=
  err.is .failoverReanchor

def Err.isNet : Err → Bool
  | .network _ => true
  | .wrap _ inner => inner.isNet
  | .suffix inner _ => inner.isNet
  | .both first second | .pair first second => first.isNet || second.isNet
  | _ => false

structure EventFilter where
  type : String
  contractIDs : List String
  topics : List (List String)
  deriving DecidableEq, Repr

def maxFiltersPerRequest : Nat := 5

def maxContractIDsPerFilter : Nat := 5

structure GetEventsRequest where
  startLedger : Nat
  endLedger : Nat
  filters : List EventFilter
  cursor : String
  limit : Nat
  xdrFormat : String
  deriving DecidableEq, Repr

def GetEventsRequest.hasCursor (req : GetEventsRequest) : Bool :=
  decide (req.cursor ≠ "")

structure Event where
  id : String
  pagingToken : String
  type : String
  ledger : Nat
  ledgerClosedAt : String
  contractID : String
  txHash : String
  transactionIndex : Int
  operationIndex : Int
  inSuccessfulContractCall : Bool
  topic : List String
  value : String
  topicJSON : Option (List String)
  valueJSON : Option String
  deriving DecidableEq, Repr

def Event.cursorValue (e : Event) : String :=
  if e.pagingToken ≠ "" then e.pagingToken else e.id

def Event.sample (id contractID : String) (ledger : Nat) : Event where
  id := id
  pagingToken := ""
  type := "contract"
  ledger := ledger
  ledgerClosedAt := ""
  contractID := contractID
  txHash := "t"
  transactionIndex := 1
  operationIndex := 0
  inSuccessfulContractCall := true
  topic := []
  value := ""
  topicJSON := some []
  valueJSON := some "1"

structure GetEventsResponse where
  events : List Event
  latestLedger : Nat
  oldestLedger : Nat
  cursor : String
  deriving DecidableEq, Repr

structure Health where
  latestLedger : Nat
  oldestLedger : Nat
  deriving DecidableEq, Repr

end SoroTrail.Rpc
