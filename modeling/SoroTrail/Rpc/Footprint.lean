import SoroTrail.Lib.Service
import SoroTrail.Rpc.Failover

/-!
# What each part of the failover client touches

Every request concerns one part of the client's memory or of its traffic.  Which
parts a program can touch is said here once for each program, whatever is
answered; what a program leaves alone follows from it.
-/

set_option autoImplicit false

namespace SoroTrail.Rpc.Failover

open Lib Prog Uses

/-! ## Parts -/

inductive Part where
  | nothing
  /-- State, counters, ledger bounds and capabilities of the providers. -/
  | health
  | network
  | maxObservedHead
  | cursorLedger
  | lastActive
  | reanchorLedger
  | backoff
  | observed
  | inspection
  | events
  | service
  deriving DecidableEq, Repr

@[simp] def ProviderAccess.part : ProviderAccess → Part
  | .storeNetworkInvalid => .network
  | _ => .health

@[simp] def Access.part : Access → Part
  | .load => .nothing
  | .provider _ u => u.part
  | .raiseMaxObservedHead _ => .maxObservedHead
  | .raiseCursorLedger _ => .cursorLedger
  | .swapLastActive _ => .lastActive
  | .storeReanchorLedger _ => .reanchorLedger
  | .addAllDownCount => .backoff
  | .storeAllDownCount _ => .backoff
  | .storeAllDownUntil _ => .backoff
  | .checkAndRecord _ _ _ _ _ => .observed

@[simp] def Act.part : Act → Part
  | .access u => u.part
  | .getEvents _ _ => .events
  | .getNetwork _ => .inspection
  | .getLatestLedger _ => .service
  | .getHealth _ => .service
  | .getLedgerEntries _ _ => .service
  | .simulateTransaction _ _ => .service
  | _ => .nothing

def Act.effect (fc : FailoverClient) : Act → ClientState → ClientState
  | .access u, s => u.apply fc s
  | _, s => s

section Effect

variable {fc : FailoverClient} {o : Act} (s : ClientState)

theorem effect_cursorLedger (h : o.part ≠ .cursorLedger) :
    (o.effect fc s).cursorLedger = s.cursorLedger := by
  cases o with
  | access u =>
    cases u with
    | raiseCursorLedger l => exact absurd rfl h
    | checkAndRecord idx start hasCursor resp order =>
      simp only [Act.effect, Access.apply, ClientState.checkAndRecord]
      split <;> rfl
    | _ => rfl
  | _ => rfl

theorem effect_cursorLedger_le : s.cursorLedger ≤ (o.effect fc s).cursorLedger := by
  by_cases h : o.part = .cursorLedger
  · cases o with
    | access u =>
      cases u with
      | raiseCursorLedger l => exact Nat.le_max_left _ _
      | provider idx u => cases u <;> cases h
      | _ => cases h
    | _ => cases h
  · exact (effect_cursorLedger s h).ge

theorem effect_networkInvalid (h : o.part ≠ .network) (i : Nat) :
    ((o.effect fc s).providers i).networkInvalid = (s.providers i).networkInvalid := by
  cases o with
  | access u =>
    cases u with
    | provider idx u =>
      simp only [Act.effect, Access.apply, Function.update_apply]
      split
      · rename_i hi
        subst hi
        cases u <;> first | rfl | exact absurd rfl h
      · rfl
    | checkAndRecord idx start hasCursor resp order =>
      simp only [Act.effect, Access.apply, ClientState.checkAndRecord]
      split <;> rfl
    | _ => rfl
  | _ => rfl

end Effect

/-! ## The client's answers -/

inductive Choice where
  | ok
  | fail (err : Err)
  | page (resp : GetEventsResponse)
  | latest (l : LatestLedger)
  | health (h : Health)
  | network (info : NetworkInfo)
  | entries (r : GetLedgerEntriesResponse)
  | simulated (r : SimulateTransactionResponse)
  | number (n : Int)
  | flag (f : Bool)
  | order (keys : List Nat)
  deriving DecidableEq, Repr

/-- The answer a choice gives to a request; `none` when it does not fit. -/
def Act.answer : (o : Act) → ClientState → Choice → Option (Ans o)
  | .access _, s, .ok => some s
  | .now, _, .number t => some t
  | .randN n, _, .number r => if 0 ≤ r ∧ r < n then some r else none
  | .waitLimiter _, _, .ok => some (.ok ())
  | .waitLimiter _, _, .fail err => some (.error err)
  | .getEvents _ _, _, .page resp => some (.ok resp)
  | .getEvents _ _, _, .fail err => some (.error err)
  | .getLatestLedger _, _, .latest l => some (.ok l)
  | .getLatestLedger _, _, .fail err => some (.error err)
  | .getHealth _, _, .health h => some (.ok h)
  | .getHealth _, _, .fail err => some (.error err)
  | .getNetwork _, _, .network info => some (.ok info)
  | .getNetwork _, _, .fail err => some (.error err)
  | .getLedgerEntries _ _, _, .entries r => some (.ok r)
  | .getLedgerEntries _ _, _, .fail err => some (.error err)
  | .simulateTransaction _ _, _, .simulated r => some (.ok r)
  | .simulateTransaction _ _, _, .fail err => some (.error err)
  | .supportsXDRJSON _, _, .flag f => some f
  | .rangeOrder keys, _, .order ks => if ks.isPerm keys then some ks else none
  | _, _, _ => none

theorem answer_access {u : Access} {s a : ClientState} {c : Choice}
    (h : (Act.access u).answer s c = some a) : a = s := by
  cases c with
  | ok => exact (Option.some.inj h).symm
  | _ => cases h

/-! ## Programs -/

/-- Every request of the program is local or concerns one of the parts. -/
abbrev Touches {α : Type} (parts : List Part) (p : P α) : Prop :=
  p.Uses (fun o => o.part = .nothing ∨ o.part ∈ parts) fun _ _ => True

section Touches

variable {α : Type} {parts : List Part}

theorem Touches.weaken {parts' : List Part} {p : P α} (h : Touches parts p)
    (hsub : parts ⊆ parts') : Touches parts' p :=
  Yields.weaken h (fun _ ho => ho.imp id fun hmem => hsub hmem) fun _ _ _ => trivial

theorem touches_load : Touches parts load :=
  ⟨.inl rfl, fun _ _ => trivial⟩

theorem touches_access {u : Access} (h : u.part ∈ parts) : Touches parts (access u) :=
  ⟨.inr h, fun _ _ => trivial⟩

theorem touches_perform {u : Access} (h : u.part ∈ parts) : Touches parts (perform u) :=
  ⟨.inr h, fun _ _ => trivial⟩

theorem touches_timeNow : Touches parts timeNow :=
  ⟨.inl rfl, fun _ _ => trivial⟩

end Touches

variable {fc : FailoverClient}

theorem touches_demoteProvider (idx : Nat) (target : ProviderState) :
    Touches [.health] (demoteProvider idx target) := by
  refine bind (touches_perform (by simp)) fun _ => ?_
  refine bind touches_load fun s => ?_
  exact touches_perform (by simp)

theorem touches_promoteProvider (idx : Nat) : Touches [.health] (promoteProvider idx) := by
  refine bind (touches_perform (by simp)) fun _ => ?_
  refine bind (touches_perform (by simp)) fun _ => ?_
  exact touches_perform (by simp)

theorem touches_updateProviderRange (idx oldest latest : Nat) :
    Touches [.health, .maxObservedHead] (updateProviderRange idx oldest latest) := by
  refine bind (when fun _ => touches_perform (by simp)) fun _ => ?_
  refine when fun _ => ?_
  exact bind (touches_perform (by simp)) fun _ => touches_perform (by simp)

theorem touches_recordProbation (idx : Nat) : Touches [.health] (recordProbation fc idx) := by
  refine bind (touches_access (by simp)) fun before => ?_
  exact when fun _ => touches_promoteProvider idx

theorem touches_recordSuccess (idx : Nat) :
    Touches [.health, .backoff, .lastActive] (recordSuccess fc idx) := by
  refine bind touches_load fun s => ?_
  split
  · trivial
  · refine bind (touches_perform (by simp)) fun _ => ?_
    refine bind (touches_perform (by simp)) fun _ => ?_
    refine bind (touches_perform (by simp)) fun _ => ?_
    refine bind (touches_perform (by simp)) fun _ => ?_
    refine bind touches_load fun s => ?_
    exact when fun _ => (touches_recordProbation idx).weaken (by simp)

theorem touches_recordError (idx : Nat) (err : Err) :
    Touches [.health] (recordError fc idx err) := by
  unfold recordError
  split
  · trivial
  · split
    · refine bind (touches_perform (by simp)) fun _ => ?_
      refine bind (touches_access (by simp)) fun before => ?_
      refine bind touches_load fun s => ?_
      split
      · exact touches_demoteProvider idx .degraded
      · exact when fun _ => touches_demoteProvider idx .down
    · trivial

theorem touches_findState (state : ProviderState) (excluded is : List Nat) :
    Touches [] (findState state excluded is) := by
  induction is with
  | nil => trivial
  | cons i is ih =>
    unfold findState
    split
    · exact ih
    · refine bind touches_load fun s => ?_
      split
      · exact ih
      · refine bind touches_load fun s => ?_
        split
        · trivial
        · exact ih

theorem touches_getActiveExcluding (excluded : List Nat) :
    Touches [] (getActiveExcluding fc excluded) := by
  refine bind (touches_findState _ _ _) fun r => ?_
  cases r with
  | some i => trivial
  | none => exact touches_findState _ _ _

theorem touches_allDownBackoff : Touches [] allDownBackoff := by
  refine bind touches_load fun s => ?_
  have hrand : Touches [] (randN (backoffBase s.allDownCount second / 4)) :=
    ⟨.inl rfl, fun _ _ => trivial⟩
  exact bind hrand fun _ => trivial

theorem touches_inBackoff : Touches [.backoff] inBackoff := by
  refine bind touches_load fun s => ?_
  split
  · trivial
  · refine bind touches_timeNow fun now => ?_
    split
    · trivial
    · exact bind (touches_perform (by simp)) fun _ => trivial

theorem touches_noneLeft (excluded : List Nat) (mismatch : Option Err) :
    Touches [.backoff] (noneLeft fc excluded mismatch) := by
  have helsewhere : Touches [.backoff] (excludedActive fc excluded) := by
    unfold excludedActive
    split
    · trivial
    · exact (touches_getActiveExcluding []).weaken (by simp)
  refine bind helsewhere fun elsewhere => ?_
  split
  · trivial
  · refine bind (touches_perform (by simp)) fun _ => ?_
    refine bind touches_timeNow fun now => ?_
    refine bind (touches_allDownBackoff.weaken (by simp)) fun backoff => ?_
    refine bind (touches_perform (by simp)) fun _ => ?_
    cases mismatch <;> trivial

theorem touches_hasCandidateWithHeadAtLeast (excluded : List Nat) (selfIdx minHead : Nat)
    (is : List Nat) :
    Touches [] (hasCandidateWithHeadAtLeast excluded selfIdx minHead is) := by
  induction is with
  | nil => trivial
  | cons i is ih =>
    unfold hasCandidateWithHeadAtLeast
    split
    · exact ih
    · refine bind touches_load fun s => ?_
      split
      · exact ih
      · refine bind touches_load fun s => ?_
        split
        · exact ih
        · refine bind touches_load fun s => ?_
          dsimp only
          split
          · trivial
          · exact ih

variable (req : GetEventsRequest)

theorem touches_checkSelection (required : Nat) (excluded : List Nat)
    (idx : Nat) : Touches [.health] (checkSelection fc req required excluded idx) := by
  have hskip : ∀ refusal : Refusal, Touches [.health] (do
      demoteProvider idx .degraded
      return some refusal : P (Option Refusal)) :=
    fun refusal => bind (touches_demoteProvider idx .degraded) fun _ => trivial
  have hlags : ∀ pLatest maxHead,
      Touches [.health] (lagsHead fc excluded idx pLatest maxHead) := by
    intro pLatest maxHead
    unfold lagsHead
    split
    · exact (touches_hasCandidateWithHeadAtLeast _ _ _ _).weaken (by simp)
    · trivial
  refine bind touches_load fun s => ?_
  dsimp only
  split
  · exact hskip _
  · refine bind touches_load fun s' => ?_
    refine bind (hlags _ _) fun lags => ?_
    split
    · exact hskip _
    · refine bind touches_load fun s'' => ?_
      split
      · exact hskip _
      · trivial

theorem touches_switchesProvider (idx : Nat) :
    Touches [] (switchesProvider req idx) := by
  unfold switchesProvider
  split
  · refine bind touches_load fun s => ?_
    split
    · trivial
    · exact bind touches_load fun _ => trivial
  · trivial

theorem touches_noteXDRSupport (idx : Nat) : Touches [.health] (noteXDRSupport fc idx) := by
  have hask : Touches [.health] (supportsXDRJSON idx) := ⟨.inl rfl, fun _ _ => trivial⟩
  refine when fun _ => bind hask fun supported => ?_
  exact when fun _ => touches_perform (by simp)

theorem touches_checkAndRecordEvents (idx start : Nat) (hasCursor : Bool)
    (resp : GetEventsResponse) :
    Touches [.observed] (checkAndRecordEvents fc idx start hasCursor resp) := by
  unfold checkAndRecordEvents
  split
  · trivial
  · have horder : Touches [.observed] (rangeOrder (pageLedgers resp.events)) :=
      ⟨.inl rfl, fun _ _ => trivial⟩
    refine bind horder fun order => ?_
    exact bind (touches_access (by simp)) fun _ => trivial

theorem accept_yields (idx : Nat) (resp : GetEventsResponse) :
    Yields (fun o => o.part = .nothing ∨
        o.part ∈ [.cursorLedger, .reanchorLedger, .health, .backoff, .lastActive])
      (fun _ _ => True) (fun r => r = resp) (accept fc req idx resp) := by
  refine bind (when fun _ => touches_perform (by simp)) fun _ => ?_
  refine bind (when fun _ => touches_perform (by simp)) fun _ => ?_
  exact bind ((touches_recordSuccess idx).weaken (by simp)) fun _ => rfl

theorem touches_interrupt : Touches [.reanchorLedger] interrupt := by
  refine bind touches_load fun s => ?_
  exact when fun _ => touches_perform (by simp)

theorem touches_reanchorRequest : Touches [] (reanchorRequest req) := by
  unfold reanchorRequest
  split
  · trivial
  · exact bind touches_load fun _ => trivial

end SoroTrail.Rpc.Failover
