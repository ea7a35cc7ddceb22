import SoroTrail.Lib.Steps
import SoroTrail.Rpc.Footprint

/-!
# Demotion and probation among concurrent calls

Any number of goroutines use one failover client, and a probe of the providers
that are down runs beside them.  State, error count and success count of a
provider are separate atomics, so every access may fall between two accesses of
another goroutine.  Beside the memory a run keeps how many successes were recorded
for a provider since its latest demotion, and for each goroutine the last success
it counted.
-/

set_option autoImplicit false

namespace SoroTrail.Rpc.Failover

open Lib Option Function Steps Fallible Sys.Safe

variable (fc : FailoverClient)

/-! ## Traffic -/

inductive Call where
  | getEvents (req : GetEventsRequest)
  | getLatestLedger
  | getHealth
  | getNetwork
  | getLedgerEntries (keys : List String)
  | simulateTransaction (transaction : String)
  | probe

def discard {α : Type} (p : P α) : P Unit := p.bind fun _ => .ret ()

def callBody : Call → P Unit
  | .getEvents req => discard (getEvents fc req)
  | .getLatestLedger => discard (getLatestLedger fc)
  | .getHealth => discard (getHealth fc)
  | .getNetwork => discard (getNetwork fc)
  | .getLedgerEntries keys => discard (getLedgerEntries fc keys)
  | .simulateTransaction transaction => discard (simulateTransaction fc transaction)
  | .probe => probeDownProviders fc fc.indices

/-- A success a goroutine counted: the count it was given, and how often the provider had
been demoted by then. -/
structure Counted where
  idx : Nat
  count : Int
  demotions : Nat
  deriving DecidableEq, Repr

structure Goroutine where
  prog : P Unit
  counted : Option Counted

structure Traffic where
  client : ClientState
  goroutines : List Goroutine
  /-- The successes recorded for a provider since its latest demotion. -/
  successes : Nat → Nat
  demotions : Nat → Nat

def Traffic.new : Traffic where
  client := ClientState.new
  goroutines := []
  successes _ := 0
  demotions _ := 0

def Act.demotes : Act → Option (Nat × ProviderState)
  | .access (.provider idx (.storeState .degraded)) => some (idx, .degraded)
  | .access (.provider idx (.storeState .down)) => some (idx, .down)
  | _ => none

def Act.promotes : Act → Option Nat
  | .access (.provider idx (.storeState .active)) => some idx
  | _ => none

def Act.counts : Act → Option Nat
  | .access (.provider idx .addOkCount) => some idx
  | _ => none

def Traffic.note (w : Traffic) (o : Act) : Traffic :=
  match o.demotes, o.counts with
  | some (idx, _), _ =>
    { w with
      successes := Function.update w.successes idx 0
      demotions := Function.update w.demotions idx (w.demotions idx + 1) }
  | none, some idx =>
    { w with successes := Function.update w.successes idx (w.successes idx + 1) }
  | none, none => w

def Traffic.nextCounted (w : Traffic) (o : Act) (counted : Option Counted) : Option Counted :=
  match o.counts with
  | some idx =>
    some { idx := idx, count := (w.client.providers idx).okCount + 1
           demotions := w.demotions idx }
  | none => counted

inductive Turn where
  | start (call : Call)
  | answer (g : Nat) (c : Choice)

def Traffic.request (w : Traffic) (g : Nat) : Option Act :=
  match w.goroutines[g]? with
  | some ⟨.act o _, _⟩ => some o
  | _ => none

def Traffic.turn (w : Traffic) : Turn → Option Traffic
  | .start call => some { w with goroutines := w.goroutines ++ [⟨callBody fc call, none⟩] }
  | .answer g c =>
    match w.goroutines[g]? with
    | some ⟨.act o k, counted⟩ =>
      (o.answer w.client c).map fun a =>
        { w.note o with
          client := o.effect fc w.client
          goroutines := w.goroutines.set g ⟨k a, w.nextCounted o counted⟩ }
    | _ => none

/-! ## Degrading and recovering -/

def ProviderState.severity : ProviderState → Nat
  | .active => 0
  | .degraded => 1
  | .down => 2

/-- A demotion leaves its provider in a state at least as severe. -/
def Degrades (w : Traffic) (m : Turn) (w' : Traffic) : Prop :=
  ∀ g c o idx target, m = .answer g c → w.request g = some o → o.demotes = some (idx, target) →
    (w.client.providers idx).state.severity ≤ (w'.client.providers idx).state.severity

/-- A provider that is down comes back, and so can be selected, only after enough successes
since its latest demotion. -/
def Recovers (w w' : Traffic) : Prop :=
  ∀ idx, (w.client.providers idx).state = .down → (w'.client.providers idx).state ≠ .down →
    fc.probationSuccesses ≤ w.successes idx

/-- The condition on a turn: a demotion does not lift a provider that is down, and no success
was counted since it reset the count; between a counted success and the promotion it earns the
provider is not demoted. -/
def Unraced (w : Traffic) : Turn → Prop
  | .start _ => True
  | .answer g _ =>
    match w.goroutines[g]? with
    | some ⟨.act o _, counted⟩ =>
      (∀ d ∈ o.demotes, (w.client.providers d.1).okCount = 0 ∧
        (d.2 = .degraded → (w.client.providers d.1).state ≠ .down)) ∧
      ∀ idx ∈ o.promotes, ∀ s ∈ counted, s.demotions = w.demotions idx
    | _ => True

instance (w : Traffic) (m : Turn) : Decidable (Unraced w m) := by
  cases m with
  | start => exact isTrue trivial
  | answer => dsimp only [Unraced]; split <;> infer_instance

/-! ## One goroutine -/

def nextTally : (o : Act) → Ans o → Option (Nat × Int) → Option (Nat × Int)
  | .access (.provider idx .addOkCount), s, _ => some (idx, (s.providers idx).okCount + 1)
  | _, _, known => known

def tally : Sys Act Ans (Option (Nat × Int)) where
  step o known a known' := known' = nextTally o a known
  drift _ _ := False

/-- A provider is promoted only by a goroutine that has just counted enough successes, and the
count is only ever set to zero. -/
def Earns (o : Act) (known : Option (Nat × Int)) : Prop :=
  (∀ idx, o.promotes = some idx → ∃ n, known = some (idx, n) ∧ fc.probationSuccesses ≤ n) ∧
    ∀ idx n, o = .access (.provider idx (.storeOkCount n)) → n = 0

/-- A request that `Earns` asks nothing of. -/
def Act.unbound : Act → Bool
  | .access (.provider _ (.storeState .active)) => false
  | .access (.provider _ (.storeOkCount n)) => n = 0
  | _ => true

theorem earns_of_unbound {o : Act} (h : o.unbound = true) {known : Option (Nat × Int)} :
    Earns fc o known := by
  refine ⟨?_, ?_⟩
  · intro idx hidx
    unfold Act.promotes at hidx
    split at hidx
    · cases h
    · cases hidx
  · rintro idx n rfl
    exact of_decide_eq_true h

/-- Whatever the goroutine knows at its start, the program keeps to `Earns`. -/
def Honest {α : Type} (p : P α) : Prop :=
  ∀ known, tally.Safe (Earns fc) (fun _ _ => True) p known

theorem tally_stable (I : Option (Nat × Int) → Prop) : tally.Stable I := by
  intro w w' hd
  exact hd.elim

section Honest

variable {fc} {α β : Type}

theorem honest_ret (a : α) : Honest fc (.ret a) :=
  fun _ _ _ => trivial

variable {p : P α}

theorem Honest.bind {f : α → P β} (hp : Honest fc p) (hf : ∀ a, Honest fc (f a)) :
    Honest fc (p.bind f) :=
  fun known => Sys.Safe.bind ((hp known).post fun a v _ => hf a v)

theorem Honest.andThen {p : M α} {f : α → M β} (hp : Honest fc p) (hf : ∀ a, Honest fc (f a)) :
    Honest fc (p >>= f : M β) := by
  refine Honest.bind hp ?_
  intro r
  cases r with
  | error e => exact honest_ret _
  | ok a => exact hf a

theorem Honest.lift_bind {f : α → M β} (hp : Honest fc p) (hf : ∀ a, Honest fc (f a)) :
    Honest fc ((liftM p : M α) >>= f : M β) := by
  rw [liftM_bind]
  exact Honest.bind hp hf

theorem Honest.lift (hp : Honest fc p) : Honest fc (liftM p : M α) :=
  Honest.bind hp fun _ => honest_ret _

theorem Honest.attempt_bind {p : M α} {f : Except Err α → M β} (hp : Honest fc p)
    (hf : ∀ r, Honest fc (f r)) : Honest fc (attempt p >>= f : M β) := by
  rw [Fallible.attempt_bind]
  exact Honest.bind hp hf

theorem Honest.when {c : Prop} [Decidable c] {p : P Unit} (hp : Honest fc p) :
    Honest fc (Prog.when c p) := by
  unfold Prog.when
  split
  · exact hp
  · exact honest_ret ()

theorem honest_request {o : Act} (h : o.unbound = true) : Honest fc (Prog.request o) :=
  fun _ => act (tally_stable fun _ => True) trivial (fun _ _ => earns_of_unbound fc h)
    fun _ _ _ _ _ => honest_ret _ _

theorem honest_perform {u : Access} (h : (Act.access u).unbound = true) :
    Honest fc (perform u) :=
  Honest.bind (honest_request h) fun _ => honest_ret ()

theorem honest_of_touches {parts : List Part} (h : Touches parts p) (hparts : .health ∉ parts) :
    Honest fc p := by
  intro known
  refine (of_yields (tally_stable fun _ => True) (fun _ _ _ _ _ _ _ => ⟨trivial, trivial⟩)
    ?_ h trivial).post fun _ _ _ => trivial
  intro o v ho _
  have hhealth : o.part ≠ .health := by
    intro heq
    rcases ho with ho | ho
    · rw [heq] at ho
      cases ho
    · exact hparts (heq ▸ ho)
  apply earns_of_unbound
  unfold Act.unbound
  split
  · exact absurd rfl hhealth
  · exact absurd rfl hhealth
  · rfl

end Honest

/-! ## The client's programs -/

variable {target : ProviderState}

section Programs

variable {fc}

theorem honest_load : Honest fc load := honest_request rfl

theorem honest_demoteProvider (idx : Nat)
    (h : target ≠ .active) :
    Honest fc (demoteProvider idx target) := by
  refine Honest.bind (honest_perform rfl) fun _ => ?_
  refine Honest.bind honest_load fun s => ?_
  refine honest_perform ?_
  split
  · rfl
  · cases target with
    | active => exact absurd rfl h
    | _ => rfl

theorem honest_recordProbation (idx : Nat) : Honest fc (recordProbation fc idx) := by
  intro known
  refine act (tally_stable fun _ => True) trivial (fun _ _ => earns_of_unbound fc rfl) ?_
  rintro v s _ _ rfl
  change tally.Safe (Earns fc) _ (Prog.when _ (promoteProvider idx))
    (some (idx, (s.providers idx).okCount + 1))
  unfold Prog.when
  split
  · rename_i henough
    let earned : Option (Nat × Int) → Prop := fun g => g = some (idx, (s.providers idx).okCount + 1)
    refine act (tally_stable earned) rfl (fun _ _ => earns_of_unbound fc rfl) ?_
    rintro _ _ _ rfl rfl
    refine act (tally_stable earned) rfl (fun _ _ => earns_of_unbound fc rfl) ?_
    rintro _ _ _ rfl rfl
    refine act (tally_stable earned) rfl (fun v hv => ⟨?_, nofun⟩)
      fun _ _ _ _ _ => honest_ret () _
    rintro idx' ⟨rfl⟩
    exact ⟨_, hv, henough⟩
  · exact honest_ret () _

theorem honest_recordSuccess (idx : Nat) : Honest fc (recordSuccess fc idx) := by
  refine Honest.bind honest_load fun s => ?_
  split
  · exact honest_ret ()
  · refine Honest.bind (honest_perform rfl) fun _ => ?_
    refine Honest.bind (honest_perform rfl) fun _ => ?_
    refine Honest.bind (honest_perform rfl) fun _ => ?_
    refine Honest.bind (honest_perform rfl) fun _ => ?_
    refine Honest.bind honest_load fun s => ?_
    exact (honest_recordProbation idx).when

theorem honest_recordError (idx : Nat) (err : Err) : Honest fc (recordError fc idx err) := by
  unfold recordError
  split
  · exact honest_ret ()
  · split
    · refine Honest.bind (honest_perform rfl) fun _ => ?_
      refine Honest.bind (honest_request rfl) fun before => ?_
      refine Honest.bind honest_load fun s => ?_
      split
      · exact honest_demoteProvider idx (by decide)
      · exact (honest_demoteProvider idx (by decide)).when
    · exact honest_ret ()

theorem honest_updateProviderRange (idx oldest latest : Nat) :
    Honest fc (updateProviderRange idx oldest latest) := by
  refine Honest.bind (honest_perform rfl).when fun _ => ?_
  exact (Honest.bind (honest_perform rfl) fun _ => honest_perform rfl).when

theorem honest_verifyProviderNetwork (idx : Nat) : Honest fc (verifyProviderNetwork fc idx) := by
  have hcheck : ∀ info, Honest fc (checkPassphrase fc idx info) := by
    intro info
    unfold checkPassphrase
    dsimp only
    split
    · refine Honest.lift_bind (honest_perform rfl) fun _ => ?_
      exact Honest.lift_bind (honest_demoteProvider idx nofun) fun _ => honest_ret _
    · exact (honest_perform rfl).lift
  refine Honest.lift_bind honest_load fun s => ?_
  split
  · exact honest_ret _
  · split
    · exact honest_ret _
    · refine Honest.lift_bind honest_load fun s => ?_
      split
      · exact honest_ret _
      · split
        · exact (honest_perform rfl).lift
        · refine Honest.andThen (honest_request rfl) fun _ => ?_
          refine Honest.attempt_bind (honest_request rfl) fun r => ?_
          cases r with
          | error err => exact Honest.lift_bind (honest_recordError idx err) fun _ => honest_ret _
          | ok info => exact hcheck info

theorem honest_pickLoop (turns : Nat) (excluded : List Nat) (mismatch : Option Err) :
    Honest fc (pickLoop fc turns excluded mismatch) := by
  have hnone : ∀ excluded mismatch, Honest fc (noneLeft fc excluded mismatch) :=
    fun _ _ => honest_of_touches (touches_noneLeft _ _) (by decide)
  induction turns generalizing excluded mismatch with
  | zero => exact Honest.lift_bind (hnone _ _) fun _ => honest_ret _
  | succ turns ih =>
    refine Honest.lift_bind
      (honest_of_touches (touches_getActiveExcluding excluded) (by decide)) fun r => ?_
    cases r with
    | none => exact Honest.lift_bind (hnone _ _) fun _ => honest_ret _
    | some idx =>
      refine Honest.attempt_bind (honest_verifyProviderNetwork idx) fun r => ?_
      cases r with
      | ok _ => exact honest_ret _
      | error err =>
        dsimp only
        split
        · exact ih _ _
        · exact honest_ret _

theorem honest_pickProviderExcluding (excluded : List Nat) :
    Honest fc (pickProviderExcluding fc excluded) := by
  refine Honest.lift_bind (honest_of_touches touches_inBackoff (by decide)) fun busy => ?_
  split
  · exact honest_ret _
  · exact honest_pickLoop _ _ _

theorem honest_pickProvider : Honest fc (pickProvider fc) :=
  Honest.andThen (honest_pickProviderExcluding []) fun _ => honest_ret _

theorem honest_delegate {α : Type} {call : Nat → M α} {learn : Nat → α → P Unit}
    (hcall : ∀ idx, Honest fc (call idx)) (hlearn : ∀ idx a, Honest fc (learn idx a)) :
    Honest fc (delegate fc call learn) := by
  refine Honest.andThen honest_pickProvider fun idx => ?_
  refine Honest.andThen (honest_request rfl) fun _ => ?_
  refine Honest.attempt_bind (hcall idx) fun r => ?_
  cases r with
  | error err => exact Honest.lift_bind (honest_recordError idx err) fun _ => honest_ret _
  | ok resp =>
    refine Honest.lift_bind (hlearn idx resp) fun _ => ?_
    exact Honest.lift_bind (honest_recordSuccess idx) fun _ => honest_ret _

theorem honest_getNetwork : Honest fc (getNetwork fc) := by
  refine Honest.andThen honest_pickProvider fun idx => ?_
  split
  · exact honest_ret _
  · refine Honest.andThen (honest_request rfl) fun _ => ?_
    refine Honest.attempt_bind (honest_request rfl) fun r => ?_
    cases r with
    | error err => exact Honest.lift_bind (honest_recordError idx err) fun _ => honest_ret _
    | ok resp => exact Honest.lift_bind (honest_recordSuccess idx) fun _ => honest_ret _

theorem honest_refuse (idx : Nat) (refusal : Refusal)
    (h : target ≠ .active) :
    Honest fc (Prog.bind (demoteProvider idx target) fun _ => .ret (some refusal)) :=
  Honest.bind (honest_demoteProvider idx h) fun _ => honest_ret _

theorem honest_checkSelection (req : GetEventsRequest) (required : Nat) (excluded : List Nat)
    (idx : Nat) : Honest fc (checkSelection fc req required excluded idx) := by
  refine Honest.bind honest_load fun s => ?_
  dsimp only
  split
  · exact honest_refuse idx _ nofun
  · refine Honest.bind honest_load fun s' => ?_
    have hlags : Honest fc (lagsHead fc excluded idx (s.providers idx).latestLedger
        s'.maxObservedHead) := by
      unfold lagsHead
      split
      · exact honest_of_touches (touches_hasCandidateWithHeadAtLeast _ _ _ _) (by decide)
      · exact honest_ret _
    refine Honest.bind hlags fun lags => ?_
    split
    · exact honest_refuse idx _ nofun
    · refine Honest.bind honest_load fun s'' => ?_
      split
      · exact honest_refuse idx _ nofun
      · exact honest_ret _

theorem honest_callProviderGetEvents (idx : Nat) (req : GetEventsRequest) :
    Honest fc (callProviderGetEvents fc idx req) := by
  have hsend : ∀ r, Honest fc (sendWithFallback idx r) := by
    intro r
    refine Honest.attempt_bind (honest_request rfl) fun a => ?_
    cases a with
    | ok resp => exact honest_ret _
    | error err =>
      dsimp only
      split
      · exact Honest.lift_bind (honest_perform rfl) fun _ => honest_request rfl
      · exact honest_ret _
  have hnote : Honest fc (noteXDRSupport fc idx) := by
    have hask : Honest fc (supportsXDRJSON idx) := honest_request rfl
    refine Honest.when (Honest.bind hask fun supported => ?_)
    exact Honest.when (honest_perform rfl)
  refine Honest.lift_bind honest_load fun s => ?_
  refine Honest.attempt_bind (hsend _) fun result => ?_
  exact Honest.lift_bind hnote fun _ => honest_ret _

section

variable (req : GetEventsRequest)
include req

theorem honest_checkResponse (required idx : Nat)
    (resp : GetEventsResponse) : Honest fc (checkResponse fc req required idx resp) := by
  unfold checkResponse
  split
  · exact honest_refuse idx _ nofun
  · split
    · exact honest_refuse idx _ nofun
    · refine Honest.bind (honest_of_touches (touches_checkAndRecordEvents _ _ _ _) (by decide)) ?_
      intro div
      cases div with
      | none => exact honest_ret _
      | some div => exact honest_refuse idx _ nofun

theorem honest_askProvider (required : Nat) (excluded : List Nat)
    (idx : Nat) : Honest fc (askProvider fc req required excluded idx) := by
  refine Honest.lift_bind (honest_checkSelection req required excluded idx) fun refusal => ?_
  cases refusal with
  | some refusal => exact honest_ret _
  | none =>
    refine Honest.lift_bind (honest_of_touches (touches_switchesProvider req idx) (by decide)) ?_
    intro switches
    split
    · exact Honest.lift_bind (honest_of_touches touches_interrupt (by decide))
        fun _ => honest_ret _
    · refine Honest.andThen (honest_request rfl) fun _ => ?_
      refine Honest.attempt_bind (honest_callProviderGetEvents idx req) fun r => ?_
      cases r with
      | error err =>
        dsimp only
        split
        · exact Honest.lift_bind (honest_demoteProvider idx nofun) fun _ => honest_ret _
        · exact Honest.lift_bind (honest_recordError idx err) fun _ => honest_ret _
      | ok resp =>
        refine Honest.lift_bind (honest_updateProviderRange idx _ _) fun _ => ?_
        refine Honest.lift_bind (honest_checkResponse req required idx resp) fun refusal => ?_
        cases refusal with
        | some refusal => exact honest_ret _
        | none =>
          refine Honest.lift_bind ?_ fun _ => honest_ret _
          refine Honest.bind (honest_perform rfl).when fun _ => ?_
          refine Honest.bind (honest_perform rfl).when fun _ => ?_
          exact Honest.bind (honest_recordSuccess idx) fun _ => honest_ret _

theorem honest_eventsLoop (required turns : Nat) (excluded : List Nat)
    (refusals : Refusals) : Honest fc (eventsLoop fc req required turns excluded refusals) := by
  induction turns generalizing excluded refusals with
  | zero =>
    refine Honest.lift_bind (honest_of_touches touches_inBackoff (by decide)) fun busy => ?_
    split
    · exact honest_ret _
    · exact Honest.lift_bind (honest_of_touches (touches_noneLeft _ _) (by decide))
        fun _ => honest_ret _
  | succ turns ih =>
    refine Honest.attempt_bind (honest_pickProviderExcluding excluded) fun r => ?_
    cases r with
    | error err => exact honest_ret _
    | ok picked =>
      refine Honest.andThen (honest_askProvider _ _ _ _) fun r => ?_
      cases r with
      | ok resp => exact honest_ret _
      | error refusal => exact ih _ _

theorem honest_getEvents : Honest fc (getEvents fc req) := by
  refine Honest.lift_bind (honest_of_touches (touches_reanchorRequest req) (by decide)) fun req => ?_
  refine Honest.lift_bind (Honest.bind honest_load fun _ => honest_ret _) fun required => ?_
  exact honest_eventsLoop _ _ _ _ _

end

theorem honest_probeDownProviders (is : List Nat) : Honest fc (probeDownProviders fc is) := by
  have hprobe : ∀ idx, Honest fc (probeDownProviders.probe fc idx) := by
    intro idx
    refine Honest.bind honest_load fun s => ?_
    split
    · exact honest_ret _
    · refine Honest.bind honest_load fun s => ?_
      split
      · exact honest_ret _
      · refine Honest.bind (Honest.andThen (honest_verifyProviderNetwork idx) fun _ =>
          Honest.andThen (honest_request rfl) fun _ => honest_request rfl) fun health => ?_
        cases health with
        | error err => exact honest_ret _
        | ok health =>
          refine Honest.bind (honest_updateProviderRange idx _ _) fun _ => ?_
          refine Honest.bind honest_load fun s => ?_
          split
          · exact honest_ret _
          · exact honest_recordProbation idx
  induction is with
  | nil => exact honest_ret ()
  | cons idx rest ih => exact Honest.bind (hprobe idx) fun _ => ih

theorem honest_callBody (call : Call) : Honest fc (callBody fc call) := by
  have hdiscard : ∀ {α : Type} {p : P α}, Honest fc p → Honest fc (discard p) :=
    fun hp => Honest.bind hp fun _ => honest_ret ()
  cases call with
  | getEvents req => exact hdiscard (honest_getEvents req)
  | getLatestLedger =>
    exact hdiscard (honest_delegate (fun _ => honest_request rfl)
      fun _ _ => honest_updateProviderRange _ _ _)
  | getHealth =>
    exact hdiscard (honest_delegate (fun _ => honest_request rfl)
      fun _ _ => honest_updateProviderRange _ _ _)
  | getNetwork => exact hdiscard honest_getNetwork
  | getLedgerEntries keys =>
    exact hdiscard (honest_delegate (fun _ => honest_request rfl) fun _ _ => honest_ret ())
  | simulateTransaction transaction =>
    exact hdiscard (honest_delegate (fun _ => honest_request rfl) fun _ _ => honest_ret ())
  | probe => exact honest_probeDownProviders _

end Programs

/-! ## Any number of goroutines -/

variable {fc} {w w' : Traffic} {o : Act}

/-- Successes are never more than counted, every goroutine is honest, and a success it counted
still counts unless the provider was demoted since. -/
structure Tallied (fc : FailoverClient) (w : Traffic) : Prop where
  counts : ∀ idx, (w.client.providers idx).okCount ≤ w.successes idx
  honest : ∀ g ∈ w.goroutines, tally.Safe (Earns fc) (fun _ _ => True) g.prog
    (g.counted.map fun s => (s.idx, s.count))
  counted : ∀ g ∈ w.goroutines, ∀ s ∈ g.counted, s.demotions ≤ w.demotions s.idx ∧
    (s.demotions = w.demotions s.idx → s.count ≤ w.successes s.idx)

theorem tallied_new : Tallied fc Traffic.new where
  counts _ := Int.le_refl 0
  honest := nofun
  counted := nofun

variable {idx : Nat} {c : Choice}

theorem demotes_eq (h : o.demotes = some (idx, target)) :
    o = .access (.provider idx (.storeState target)) ∧ target ≠ .active := by
  unfold Act.demotes at h
  split at h <;> cases h <;> exact ⟨rfl, by decide⟩

theorem counts_eq (h : o.counts = some idx) : o = .access (.provider idx .addOkCount) := by
  unfold Act.counts at h
  split at h <;> cases h
  rfl

theorem demotes_of_counts (h : o.counts = some idx) : o.demotes = none := by
  rw [counts_eq h]
  rfl

theorem note_of_demotes (h : o.demotes = some (idx, target)) :
    w.note o = { w with
      successes := Function.update w.successes idx 0
      demotions := Function.update w.demotions idx (w.demotions idx + 1) } := by
  simp only [Traffic.note, h]

theorem note_of_counts (h : o.counts = some idx) :
    w.note o = { w with
      successes := Function.update w.successes idx (w.successes idx + 1) } := by
  simp only [Traffic.note, h, demotes_of_counts h]

theorem note_of_other (hd : o.demotes = none) (hc : o.counts = none) : w.note o = w := by
  simp only [Traffic.note, hd, hc]

theorem note_mono (w : Traffic) (o : Act) (idx : Nat) :
    w.demotions idx ≤ (w.note o).demotions idx ∧
      ((w.note o).demotions idx = w.demotions idx →
        w.successes idx ≤ (w.note o).successes idx) := by
  cases hd : o.demotes with
  | some d =>
    rw [note_of_demotes hd]
    by_cases hidx : idx = d.1
    · subst hidx
      simp
    · simp [update_of_ne hidx]
  | none =>
    cases hc : o.counts with
    | some i =>
      rw [note_of_counts hc]
      by_cases hidx : idx = i
      · subst hidx
        simp
      · simp [update_of_ne hidx]
    | none => simp [note_of_other hd hc]

theorem effect_provider (fc : FailoverClient) (o : Act) (s : ClientState) (idx : Nat) :
    (o.effect fc s).providers idx = s.providers idx ∨
      ∃ u, o = .access (.provider idx u) ∧ (o.effect fc s).providers idx = u.apply (s.providers idx) := by
  cases o with
  | access u =>
    cases u with
    | provider i u =>
      by_cases hi : idx = i
      · subst hi
        exact .inr ⟨u, rfl, update_self ..⟩
      · exact .inl (update_of_ne hi ..)
    | checkAndRecord i start hasCursor resp order =>
      left
      simp only [Act.effect, Access.apply, ClientState.checkAndRecord]
      split <;> rfl
    | _ => exact .inl rfl
  | _ => exact .inl rfl

theorem counts_note (fc : FailoverClient)
    (hcounts : ∀ idx, (w.client.providers idx).okCount ≤ w.successes idx)
    (hzero : ∀ idx n, o = .access (.provider idx (.storeOkCount n)) → n = 0)
    (hdemote : ∀ d ∈ o.demotes, (w.client.providers d.1).okCount = 0) (idx : Nat) :
    ((o.effect fc w.client).providers idx).okCount ≤ (w.note o).successes idx := by
  have hold := hcounts idx
  cases hd : o.demotes with
  | some d =>
    obtain ⟨rfl, -⟩ := demotes_eq hd
    have hzero := hdemote d hd
    rw [note_of_demotes hd]
    by_cases hidx : idx = d.1
    · subst hidx
      simp [Act.effect, Access.apply, ProviderAccess.apply, hzero]
    · simpa [Act.effect, Access.apply, update_of_ne hidx] using hold
  | none =>
    cases hc : o.counts with
    | some i =>
      rw [note_of_counts hc, counts_eq hc]
      by_cases hidx : idx = i
      · subst hidx
        simpa [Act.effect, Access.apply, ProviderAccess.apply] using hold
      · simpa [Act.effect, Access.apply, update_of_ne hidx] using hold
    | none =>
      rw [note_of_other hd hc]
      rcases effect_provider fc o w.client idx with heq | ⟨u, rfl, heq⟩
      · rw [heq]
        exact hold
      · rw [heq]
        cases u with
        | addOkCount => cases hc
        | storeOkCount n =>
          rw [hzero idx n rfl]
          exact Int.natCast_nonneg _
        | _ => exact hold

theorem nextTally_eq {a : Ans o} (h : o.answer w.client c = some a) (counted : Option Counted) :
    nextTally o a (counted.map fun s => (s.idx, s.count)) =
      (w.nextCounted o counted).map fun s => (s.idx, s.count) := by
  cases hc : o.counts with
  | some idx =>
    obtain rfl := counts_eq hc
    obtain rfl := answer_access h
    rfl
  | none =>
    simp only [Traffic.nextCounted, hc]
    unfold nextTally
    split
    · cases hc
    · rfl

theorem turn_answer {g : Nat} (h : w.turn fc (.answer g c) = some w') :
    ∃ o k counted a, w.goroutines[g]? = some ⟨.act o k, counted⟩ ∧
      o.answer w.client c = some a ∧
      w' = { w.note o with
        client := o.effect fc w.client
        goroutines := w.goroutines.set g ⟨k a, w.nextCounted o counted⟩ } := by
  simp only [Traffic.turn] at h
  split at h
  · rename_i o k counted hg
    obtain ⟨a, ha, rfl⟩ := map_eq_some_iff.mp h
    exact ⟨o, k, counted, a, hg, ha, rfl⟩
  · cases h

theorem Unraced.of_request {g : Nat} {k : Ans o → P Unit} {counted : Option Counted}
    (h : Unraced w (.answer g c)) (hg : w.goroutines[g]? = some ⟨.act o k, counted⟩) :
    (∀ d ∈ o.demotes, (w.client.providers d.1).okCount = 0 ∧
      (d.2 = .degraded → (w.client.providers d.1).state ≠ .down)) ∧
    ∀ idx ∈ o.promotes, ∀ s ∈ counted, s.demotions = w.demotions idx := by
  simpa only [Unraced, hg] using h

theorem Tallied.earns {g : Nat} {k : Ans o → P Unit} {counted : Option Counted}
    (htal : Tallied fc w) (hg : w.goroutines[g]? = some ⟨.act o k, counted⟩) :
    Earns fc o (counted.map fun s => (s.idx, s.count)) ∧
      ∀ a, tally.Safe (Earns fc) (fun _ _ => True) (k a)
        (nextTally o a (counted.map fun s => (s.idx, s.count))) := by
  obtain ⟨hearn, hrest⟩ := htal.honest _ (List.mem_of_getElem? hg) _ .refl
  exact ⟨hearn, fun a => hrest a _ rfl⟩

theorem tallied_turn (w : Traffic) (m : Turn) (w' : Traffic) (hrace : Unraced w m)
    (htal : Tallied fc w) (hstep : w.turn fc m = some w') : Tallied fc w' := by
  cases m with
  | start call =>
    cases hstep
    refine ⟨htal.counts, ?_, ?_⟩
    · exact forall_mem_append htal.honest (honest_callBody call none)
    · exact forall_mem_append htal.counted nofun
  | answer g c =>
    obtain ⟨o, k, counted, a, hg, ha, rfl⟩ := turn_answer hstep
    obtain ⟨hearn, hrest⟩ := htal.earns hg
    have hdemote := (hrace.of_request hg).1
    have hcounts := counts_note fc htal.counts hearn.2 fun d hd => (hdemote d hd).1
    have hkept : ∀ x ∈ w.goroutines, ∀ s ∈ x.counted,
        s.demotions ≤ (w.note o).demotions s.idx ∧
        (s.demotions = (w.note o).demotions s.idx → s.count ≤ (w.note o).successes s.idx) := by
      intro x hx s hs
      obtain ⟨hle, hcount⟩ := htal.counted x hx s hs
      obtain ⟨hmono, hgrow⟩ := note_mono w o s.idx
      omega
    refine ⟨hcounts, ?_, ?_⟩
    · exact forall_mem_set htal.honest (nextTally_eq ha counted ▸ hrest a)
    · refine forall_mem_set hkept ?_
      intro s hs
      cases hc : o.counts with
      | none =>
        simp only [Traffic.nextCounted, hc] at hs
        exact hkept _ (List.mem_of_getElem? hg) s hs
      | some idx =>
        simp only [Traffic.nextCounted, hc, mem_def, Option.some.injEq] at hs
        subst hs
        have hcount := hcounts idx
        obtain rfl := counts_eq hc
        refine ⟨le_rfl, fun _ => ?_⟩
        simpa [Act.effect, Access.apply, ProviderAccess.apply] using hcount

theorem leaves_down {s : ClientState} (hdown : (s.providers idx).state = .down)
    (hup : ((o.effect fc s).providers idx).state ≠ .down) :
    o.demotes = some (idx, .degraded) ∨ o.promotes = some idx := by
  rcases effect_provider fc o s idx with heq | ⟨u, rfl, heq⟩
  · rw [heq] at hup
    exact absurd hdown hup
  · rw [heq] at hup
    cases u with
    | storeState target =>
      cases target with
      | active => exact .inr rfl
      | degraded => exact .inl rfl
      | down => exact absurd rfl hup
    | _ => exact absurd hdown hup

theorem degrades_turn {m : Turn} (hrace : Unraced w m) (hstep : w.turn fc m = some w') :
    Degrades w m w' := by
  rintro g c o idx target rfl hreq hdem
  obtain ⟨o', k, counted, a, hg, -, rfl⟩ := turn_answer hstep
  have hsame : o' = o := by
    simp only [Traffic.request, hg, Option.some.injEq] at hreq
    exact hreq
  subst hsame
  have hlift := ((hrace.of_request hg).1 _ hdem).2
  obtain ⟨rfl, hne⟩ := demotes_eq hdem
  simp only [Act.effect, Access.apply, update_self, ProviderAccess.apply]
  cases target with
  | active => exact absurd rfl hne
  | degraded =>
    have hstate := hlift rfl
    revert hstate
    cases (w.client.providers idx).state <;> decide
  | down => cases (w.client.providers idx).state <;> decide

theorem recovers_turn {m : Turn} (hrace : Unraced w m) (htal : Tallied fc w)
    (hstep : w.turn fc m = some w') : Recovers fc w w' := by
  intro idx hdown hup
  cases m with
  | start call =>
    cases hstep
    exact absurd hdown hup
  | answer g c =>
    obtain ⟨o, k, counted, a, hg, -, rfl⟩ := turn_answer hstep
    obtain ⟨hdemote, hpromote⟩ := hrace.of_request hg
    rcases leaves_down hdown hup with hdem | hpro
    · exact absurd hdown ((hdemote _ hdem).2 rfl)
    · obtain ⟨n, hknown, henough⟩ := (htal.earns hg).1.1 idx hpro
      obtain ⟨s, hs, heq⟩ := map_eq_some_iff.mp hknown
      obtain ⟨rfl, rfl⟩ := Prod.mk.inj heq
      have hsame := hpromote _ hpro s hs
      exact henough.trans ((htal.counted _ (List.mem_of_getElem? hg) s hs).2 hsame)

def strictClient : FailoverClient where
  providers := [{ url := "a", kind := .plain }]
  maxConsecutiveErrors := 1
  probationSuccesses := 2
  headSkewTolerance := 3
  expectedPassphrase := ""
  sha256Hex s := s
  marshalJSON _ := ""

def proceed (g n : Nat) : List Turn := List.replicate n (.answer g .ok)

/-- A call that reads its provider `reads` times before it asks and fails, and then makes `n`
more accesses. -/
def failingCall (g reads n : Nat) : List Turn :=
  .start .getLatestLedger :: proceed g reads ++
    .answer g (.fail (.network "connection refused")) :: proceed g n

/-- A probe that finds the provider healthy and then makes `n` more accesses. -/
def goodProbe (g n : Nat) : List Turn :=
  .start .probe :: proceed g 4 ++
    .answer g (.health { latestLedger := 20, oldestLedger := 1 }) :: proceed g n

end SoroTrail.Rpc.Failover
