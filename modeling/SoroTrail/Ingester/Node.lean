import SoroTrail.Lib.Service
import SoroTrail.Ingester.Cycle

/-!
# The ingester on its store

How the store and the process answer the ingester's requests.  A write is
committed whole or fails and leaves the tables alone; a read may fail; what the
RPC answers is free.  Machines that say more about the RPC replace those two
answers and keep the rest.
-/

set_option autoImplicit false

namespace SoroTrail.Ingest

open Lib Rpc Store

variable {b : Backend}

structure Node (b : Backend) where
  tables : Tables b
  mem : Memory

inductive Choice where
  | ok
  | fail (err : Err)
  | page (resp : GetEventsResponse)
  | health (h : Health)
  | number (n : Nat)
  | time (t : Int)
  | flag (f : Bool)
  | order (ids : List String)
  deriving DecidableEq, Repr

/-- `ListWatchedContracts`: every network, ordered by network and contract. -/
def listed (t : Tables b) : List WatchedContract :=
  t.watchedContracts.rows.insertionSort fun x y =>
    x.network < y.network ∨ (x.network = y.network ∧ x.contractID ≤ y.contractID)

def Act.writes : Act → Bool
  | .saveIngestionState _ => true
  | .saveContractCursor _ => true
  | .upsertEvents _ => true
  | .deadLetterEvent _ => true
  | .upsertAddressRefs _ => true
  | .replaceEventsInRange _ _ _ => true
  | .reconcileReorgRange _ => true
  | _ => false

def Act.commit : Act → Tables b → Tables b
  | .saveIngestionState s, t => t.saveIngestionState s
  | .saveContractCursor c, t => t.saveContractCursor c
  | .upsertEvents events, t => t.upsertEvents events
  | .deadLetterEvent d, t => t.deadLetterEvent d
  | .upsertAddressRefs refs, t => t.upsertAddressRefs refs
  | .replaceEventsInRange events fromLedger toLedger, t =>
    t.replaceEventsInRange events fromLedger toLedger
  | .reconcileReorgRange o, t =>
    match t.reconcileReorgRange o with
    | .ok t' => t'
    | .error _ => t
  | _, t => t

def Node.committed (o : Act) (n : Node b) : Node b :=
  { n with tables := o.commit n.tables }

variable (ing : Ingester)

def Node.exec : (o : Act) → Node b → Choice → Option (Ans o × Node b)
  | .getEvents _ _, n, .page resp => some (.ok resp, n)
  | .getEvents _ _, n, .fail err => some (.error err, n)
  | .getHealth, n, .health h => some (.ok h, n)
  | .getHealth, n, .fail err => some (.error err, n)
  | .listWatchedContracts _, n, .ok => some (.ok (listed n.tables), n)
  | .listWatchedContracts _, n, .fail err => some (.error err, n)
  | .getIngestionState, n, .ok =>
    match n.tables.getIngestionState ing.opts.network with
    | some st => some (.ok st, n)
    | none => some (.error .notFound, n)
  | .getIngestionState, n, .fail err => some (.error err, n)
  | .getContractCursor id, n, .ok =>
    match n.tables.getContractCursor id with
    | some cc => some (.ok cc, n)
    | none => some (.error .notFound, n)
  | .getContractCursor _, n, .fail err => some (.error err, n)
  | .saveIngestionState s, n, .ok => some (.ok (), n.committed (.saveIngestionState s))
  | .saveIngestionState _, n, .fail err => some (.error err, n)
  | .saveContractCursor c, n, .ok => some (.ok (), n.committed (.saveContractCursor c))
  | .saveContractCursor _, n, .fail err => some (.error err, n)
  | .upsertEvents events, n, .ok =>
    some (.ok (n.tables.inserted events), n.committed (.upsertEvents events))
  | .upsertEvents _, n, .fail err => some (.error err, n)
  | .deadLetterEvent d, n, .ok => some (.ok (), n.committed (.deadLetterEvent d))
  | .deadLetterEvent _, n, .fail err => some (.error err, n)
  | .upsertAddressRefs refs, n, .ok => some (.ok (), n.committed (.upsertAddressRefs refs))
  | .upsertAddressRefs _, n, .fail err => some (.error err, n)
  | .replaceEventsInRange events fromLedger toLedger, n, .ok =>
    some (.ok (), n.committed (.replaceEventsInRange events fromLedger toLedger))
  | .replaceEventsInRange _ _ _, n, .fail err => some (.error err, n)
  | .reconcileReorgRange o, n, .ok =>
    match n.tables.reconcileReorgRange o with
    | .ok _ => some (.ok (), n.committed (.reconcileReorgRange o))
    | .error err => some (.error err, n)
  | .reconcileReorgRange _, n, .fail err => some (.error err, n)
  | .resolveArchivedBoundary, n, .number bound => some (.ok bound, n)
  | .resolveArchivedBoundary, n, .fail err => some (.error err, n)
  | .memory f, n, .ok => some (n.mem, { n with mem := f n.mem })
  | .effectiveSweepMultiplier, n, .number m => some (m, n)
  | .now, n, .time t => some (t, n)
  | .sleepCtx _, n, .flag f => some (f, n)
  | .ctxDone, n, .flag f => some (f, n)
  | .rangeOrder keys, n, .order ids => if ids.isPerm keys then some (ids, n) else none
  | .schedule _, n, .number i => some (i, n)
  | .warn _, n, .ok => some ((), n)
  | _, _, _ => none

variable {n n' : Node b}

/-- Everything a step can do to the node: nothing, commit a write, or change the memory. -/
theorem Node.exec_effect {o : Act} {c : Choice} {a : Ans o}
    (h : Node.exec ing o n c = some (a, n')) :
    n' = n ∨ (o.writes = true ∧ c = .ok ∧ n' = n.committed o) ∨
      (∃ f, o = .memory f ∧ n' = { n with mem := f n.mem }) := by
  cases o <;> cases c <;> simp only [Node.exec, Option.some.injEq, reduceCtorEq] at h
  all_goals first
    | exact .inl (congrArg Prod.snd h).symm
    | exact .inr (.inl ⟨rfl, rfl, (congrArg Prod.snd h).symm⟩)
    | exact .inr (.inr ⟨_, rfl, (congrArg Prod.snd h).symm⟩)
    | (split at h <;> simp only [Option.some.injEq, reduceCtorEq] at h <;>
        first
          | exact .inl (congrArg Prod.snd h).symm
          | exact .inr (.inl ⟨rfl, rfl, (congrArg Prod.snd h).symm⟩))

theorem Node.exec_tables {o : Act} {c : Choice} {a : Ans o}
    (h : Node.exec ing o n c = some (a, n')) :
    n'.tables = n.tables ∨ (o.writes = true ∧ c = .ok ∧ n'.tables = o.commit n.tables) := by
  rcases Node.exec_effect ing h with rfl | ⟨hw, hc, rfl⟩ | ⟨f, rfl, rfl⟩
  · exact .inl rfl
  · exact .inr ⟨hw, hc, rfl⟩
  · exact .inl rfl

theorem Node.exec_memory {f : Memory → Memory} {c : Choice} {m : Memory}
    (h : Node.exec ing (.memory f) n c = some (m, n')) :
    m = n.mem ∧ n' = { n with mem := f n.mem } := by
  cases c with
  | ok =>
    cases h
    exact ⟨rfl, rfl⟩
  | _ => cases h

end SoroTrail.Ingest
