import SoroTrail.Lib.Steps
import SoroTrail.Store.Query
import SoroTrail.Store.Rows

/-!
# Retention sweeps that archive first

`pruneOnce` and `ArchiveRange` over the events table and an object store.  A query
page, an object operation and a delete batch are one step each; between any two of
them other writers change the table, and every operation may fail.  A data file
keeps the JSON of each event, which leaves out the raw XDR.
-/

set_option autoImplicit false

namespace SoroTrail.Retention

open Lib Store

/-! ## Objects -/

structure ChunkInfo where
  ledgerStart : Int
  ledgerEnd : Int
  rowCount : Nat
  deriving DecidableEq, Repr

structure Manifest where
  schemaVersion : Nat
  chunk : ChunkInfo
  producer : String
  deriving DecidableEq, Repr

inductive Object where
  | data (lines : List Event)
  | manifest (m : Manifest)
  deriving DecidableEq, Repr

def schemaVersion : Nat := 1

def archiveBatchSize : Int := 500

/-- `pre` is the key prefix of the bucket. -/
def objectPrefix (pre : String) (ledgerStart : Int) : String :=
  let base := if pre ≠ "" then pre ++ "/" ++ "events/schema=1" else "events/schema=1"
  base ++ "/ledger_start=" ++ String.ofList (Decimal.zeroPad 7 ledgerStart)

def manifestKey (pre : String) (ledgerStart : Int) : String :=
  objectPrefix pre ledgerStart ++ "/manifest.json"

def dataKey (pre : String) (ledgerStart : Int) : String :=
  objectPrefix pre ledgerStart ++ "/data.ndjson.gz"

def Manifest.covering (fromLedger toLedger : Int) (rowCount : Nat) : Manifest where
  schemaVersion := Retention.schemaVersion
  chunk := ⟨fromLedger, toLedger, rowCount⟩
  producer := "sorotrail"

/-! ## Configuration -/

structure Options where
  maxAge : Int
  minLedger : Nat
  batchSize : Int
  archiveBeforePrune : Bool
  dryRun : Bool
  deriving DecidableEq, Repr

def defaultBatchSize : Int := 5000

def Options.batch (o : Options) : Int :=
  if o.batchSize ≤ 0 then defaultBatchSize else o.batchSize

structure Pruner where
  opts : Options
  archiver : Option String
  lib : QueryLib
  limits : SparseLimits

/-- Nothing at or above the last ingested ledger is deleted. -/
def Options.maxLedger (o : Options) (lastIngestedLedger : Int) : Option Int :=
  if lastIngestedLedger ≤ 0 then none
  else if o.minLedger > 0 ∧ lastIngestedLedger > o.minLedger then some o.minLedger
  else some lastIngestedLedger

/-- `cutoff` is the clock minus the maximal age. -/
def Options.beforeTime (o : Options) (cutoff : Time) : Time :=
  if o.maxAge > 0 then cutoff else Time.zero

/-! ## Sweeps -/

structure Sweep where
  maxLedger : Int
  beforeTime : Time
  deriving DecidableEq, Repr

/-- The condition of `DeleteEventsBefore`. -/
def Sweep.dooms (w : Sweep) (e : Event) : Bool :=
  decide (e.ledger < w.maxLedger) &&
    (decide (w.beforeTime = Time.zero) || decide (e.createdAt < w.beforeTime))

inductive Phase where
  | idle
  | archiving (w : Sweep)
  /-- `lines` have been encoded; the next page starts at `cursor`. -/
  | exporting (w : Sweep) (cursor : String) (lines : List Event)
  | uploading (w : Sweep) (lines : List Event)
  | sealing (w : Sweep) (lines : List Event)
  | deleting (w : Sweep)
  deriving DecidableEq, Repr

structure State where
  tables : Tables .postgres
  objects : String → Option Object
  phase : Phase
  /-- The rows `DeleteEventsBefore` has deleted. -/
  pruned : List Event

def State.init (tables : Tables .postgres) : State where
  tables := tables
  objects _ := none
  phase := .idle
  pruned := []

inductive Write where
  | upsertEvents (events : List Event)
  | replaceEventsInRange (events : List Event) (fromLedger toLedger : Int)
  | reconcileReorgRange (o : ReorgReconcileOptions)
  | saveIngestionState (s : IngestionState)

def Write.apply (t : Tables .postgres) : Write → Tables .postgres
  | .upsertEvents events => t.upsertEvents events
  | .replaceEventsInRange events fromLedger toLedger => t.replaceEventsInRange events fromLedger toLedger
  | .reconcileReorgRange o =>
    match t.reconcileReorgRange o with
    | .ok t => t
    | .error _ => t
  | .saveIngestionState s => t.saveIngestionState s

def exportFilter (fromLedger toLedger : Int) (cursor : String) : EventFilter :=
  { EventFilter.all archiveBatchSize orderByID with
    fromLedger := fromLedger
    toLedger := toLedger
    cursor := cursor }

/-- The database may answer a statement with the first rows of `all`. -/
def admits (q : Query) (rows all : List Event) : Bool :=
  decide (all.Perm (rows.filter q.selects)) &&
    decide (all.Pairwise fun x y => q.before x y = true)

def State.rows (s : State) : List Event := s.tables.events.rows

def State.goto (s : State) (phase : Phase) : State := { s with phase := phase }

def Pruner.prune (p : Pruner) (w : Sweep) : Phase :=
  if p.opts.dryRun then .idle else .deleting w

def Pruner.begin (p : Pruner) (s : State) (cutoff : Time) : State :=
  match s.tables.getIngestionState "default" with
  | none => s
  | some ing =>
    match p.opts.maxLedger ing.lastIngestedLedger with
    | none => s
    | some maxLedger =>
      let w : Sweep := ⟨maxLedger, p.opts.beforeTime cutoff⟩
      if p.opts.archiveBeforePrune && p.archiver.isSome then s.goto (.archiving w)
      else s.goto (p.prune w)

/-- An archive that exists is taken as it is when its range is the requested one. -/
def Pruner.lookUp (p : Pruner) (pre : String) (s : State) (w : Sweep) : State :=
  match s.objects (manifestKey pre 0) with
  | none => s.goto (.exporting w "" [])
  | some (.data _) => s.goto .idle
  | some (.manifest m) =>
    if m.schemaVersion = schemaVersion ∧ m.chunk.ledgerStart = 0 ∧ m.chunk.ledgerEnd = w.maxLedger ∧
        (s.objects (dataKey pre 0)).isSome then s.goto (p.prune w)
    else s.goto .idle

/-- One page of the export; `all` are the selected rows in the order of the answer. -/
def Pruner.page (p : Pruner) (s : State) (w : Sweep) (cursor : String) (lines all : List Event) :
    Option State :=
  let f := exportFilter 0 w.maxLedger cursor
  match buildQueryEvents p.lib .postgres p.limits f with
  | .error _ => some (s.goto .idle)
  | .ok (q, _) =>
    if admits q s.rows all then
      match queryEvents p.lib .postgres p.limits (fun q => all.take q.limit) f with
      | .error _ => some (s.goto .idle)
      | .ok (events, next) =>
        let lines := lines ++ events.map sansXDR
        if next ≠ "" then some (s.goto (.exporting w next lines))
        else if lines = [] then some (s.goto (p.prune w))
        else some (s.goto (.uploading w lines))
    else none

def State.put (s : State) (key : String) (o : Object) : State :=
  { s with objects := Function.update s.objects key (some o) }

/-- `DeleteEventsBefore`: `victims` are picked by the subselect, and every row with one of their
ids goes. -/
def Pruner.deleteBatch (p : Pruner) (s : State) (w : Sweep) (victims : List Event) : Option State :=
  if victims.Nodup ∧ (∀ v ∈ victims, v ∈ s.rows ∧ w.dooms v = true) ∧
      victims.length = min p.opts.batch.toNat (s.rows.countP w.dooms) then
    let gone := fun (e : Event) => decide (e.id ∈ victims.map Event.id)
    some
      { s with
        tables := { s.tables with events := s.tables.events.delete gone }
        pruned := s.pruned ++ s.rows.filter gone
        phase := if (s.rows.countP gone : Int) < p.opts.batch then .idle else .deleting w }
  else none

inductive Move where
  | write (w : Write)
  | sweep (cutoff : Time)
  /-- An operation fails, the context ends, or the sweep yields to ingestion. -/
  | abort
  | lookUp
  | page (all : List Event)
  | put
  | lostPut
  | delete (victims : List Event)

def Pruner.step (p : Pruner) (s : State) : Move → Option State
  | .write w => some { s with tables := w.apply s.tables }
  | .sweep cutoff =>
    match s.phase with
    | .idle => some (p.begin s cutoff)
    | _ => none
  | .abort =>
    match s.phase with
    | .idle => none
    | _ => some (s.goto .idle)
  | .lookUp =>
    match s.phase, p.archiver with
    | .archiving w, some pre => some (p.lookUp pre s w)
    | _, _ => none
  | .page all =>
    match s.phase with
    | .exporting w cursor lines => p.page s w cursor lines all
    | _ => none
  | .put =>
    match s.phase, p.archiver with
    | .uploading w lines, some pre =>
      some ((s.put (dataKey pre 0) (.data lines)).goto (.sealing w lines))
    | .sealing w lines, some pre =>
      some ((s.put (manifestKey pre 0) (.manifest (.covering 0 w.maxLedger lines.length))).goto
        (p.prune w))
    | _, _ => none
  | .lostPut =>
    match s.phase, p.archiver with
    | .uploading _ lines, some pre => some ((s.put (dataKey pre 0) (.data lines)).goto .idle)
    | .sealing w lines, some pre =>
      some ((s.put (manifestKey pre 0) (.manifest (.covering 0 w.maxLedger lines.length))).goto
        .idle)
    | _, _ => none
  | .delete victims =>
    match s.phase with
    | .deleting w => p.deleteBatch s w victims
    | _ => none

inductive Effect (p : Pruner) (s : State) : Move → State → Prop where
  | write (w : Write) : Effect p s (.write w) { s with tables := w.apply s.tables }
  | sweep (cutoff : Time) (hidle : s.phase = .idle) : Effect p s (.sweep cutoff) (p.begin s cutoff)
  | abort : Effect p s .abort (s.goto .idle)
  | lookUp {w : Sweep} {pre : String} (hphase : s.phase = .archiving w) (hpre : p.archiver = some pre) :
      Effect p s .lookUp (p.lookUp pre s w)
  | page {w : Sweep} {cursor : String} {lines all : List Event} {s' : State}
      (hphase : s.phase = .exporting w cursor lines) (h : p.page s w cursor lines all = some s') :
      Effect p s (.page all) s'
  | data {w : Sweep} {lines : List Event} {pre : String} {m : Move} {phase : Phase}
      (hphase : s.phase = .uploading w lines) (hpre : p.archiver = some pre)
      (hm : m = .put ∧ phase = .sealing w lines ∨ m = .lostPut ∧ phase = .idle) :
      Effect p s m ((s.put (dataKey pre 0) (.data lines)).goto phase)
  | manifest {w : Sweep} {lines : List Event} {pre : String} {m : Move} {phase : Phase}
      (hphase : s.phase = .sealing w lines) (hpre : p.archiver = some pre)
      (hm : m = .put ∧ phase = p.prune w ∨ m = .lostPut ∧ phase = .idle) :
      Effect p s m
        ((s.put (manifestKey pre 0) (.manifest (.covering 0 w.maxLedger lines.length))).goto phase)
  | delete {w : Sweep} {victims : List Event} {s' : State} (hphase : s.phase = .deleting w)
      (h : p.deleteBatch s w victims = some s') : Effect p s (.delete victims) s'

theorem step_effect {p : Pruner} {s s' : State} {m : Move} (h : p.step s m = some s') : Effect p s m s' := by
  cases m <;> simp only [Pruner.step] at h
  case write w =>
    cases h
    exact .write w
  case page | delete =>
    split at h
    · constructor <;> assumption
    · cases h
  case put | lostPut =>
    split at h <;> cases h
    · exact .data ‹_› ‹_› (by simp)
    · exact .manifest ‹_› ‹_› (by simp)
  all_goals
    split at h <;> cases h
    constructor <;> assumption

end SoroTrail.Retention
