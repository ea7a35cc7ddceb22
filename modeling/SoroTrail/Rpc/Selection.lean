import Mathlib.Data.List.Perm.Subperm
import SoroTrail.Rpc.Footprint

/-!
# Which responses a failover client accepts

`GetEvents` asks each provider at most once and accepts a response only from a
provider whose network is not known to be wrong, whose latest ledger is not behind
the stream or the request, and which retains the ledger the request starts at.
The ledger of the stream never goes back, and only an accepted response moves it.
-/

set_option autoImplicit false

namespace SoroTrail.Rpc.Failover

open Lib Prog List Fallible

variable {fc : FailoverClient}

/-! ## The number of turns -/

def Exclusion (fc : FailoverClient) (excluded : List Nat) : Prop :=
  excluded.Nodup ∧ ∀ i ∈ excluded, i < fc.providers.length

variable {excluded : List Nat} {turns c₀ : Nat} {req : GetEventsRequest} {o : Act}
  {parts : List Part} {r : Except Err GetEventsResponse}

theorem Exclusion.cons {idx : Nat} (h : Exclusion fc excluded) (hidx : idx ∉ excluded)
    (hlt : idx < fc.providers.length) : Exclusion fc (idx :: excluded) := by
  refine ⟨nodup_cons.mpr ⟨hidx, h.1⟩, ?_⟩
  intro i hi
  rcases mem_cons.mp hi with rfl | hi
  · exact hlt
  · exact h.2 i hi

theorem Exclusion.all (h : Exclusion fc excluded) (hlen : fc.providers.length ≤ excluded.length)
    {i : Nat} (hi : i ∈ fc.indices) : i ∈ excluded := by
  have hsub : excluded ⊆ fc.indices := by
    intro j hj
    exact mem_range.mpr (h.2 j hj)
  have hperm : List.Perm excluded fc.indices := by
    apply List.Subperm.perm_of_length_le (h.1.subperm hsub)
    simpa [FailoverClient.indices] using hlen
  exact hperm.mem_iff.mpr hi

theorem findState_none {state : ProviderState} {is : List Nat} (h : ∀ i ∈ is, i ∈ excluded) :
    findState state excluded is = .ret none := by
  induction is with
  | nil => rfl
  | cons i is ih =>
    rw [findState, if_pos (h i (.head _))]
    exact ih fun j hj => h j (.tail _ hj)

theorem getActiveExcluding_none (h : Exclusion fc excluded)
    (hlen : fc.providers.length ≤ excluded.length) :
    getActiveExcluding fc excluded = .ret none := by
  simp only [getActiveExcluding, findState_none fun i hi => h.all hlen hi, ret_bind]

theorem findState_yields (state : ProviderState) (excluded is : List Nat) :
    Yields (fun o => o.part = .nothing) (fun _ _ => True)
      (fun r => ∀ i, r = some i → i ∉ excluded ∧ i ∈ is) (findState state excluded is) := by
  induction is with
  | nil => exact nofun
  | cons j is ih =>
    have hrest := ih.post fun r hr i hi => And.imp_right (mem_cons_of_mem j) (hr i hi)
    unfold findState
    split
    · exact hrest
    · rename_i hj
      refine ⟨rfl, fun s _ => ?_⟩
      dsimp only [Prog.bind]
      split
      · exact hrest
      · refine ⟨rfl, fun s _ => ?_⟩
        dsimp only [Prog.bind]
        split
        · intro i hi
          cases hi
          exact ⟨hj, (.head _)⟩
        · exact hrest

theorem getActiveExcluding_yields (excluded : List Nat) :
    Yields (fun o => o.part = .nothing) (fun _ _ => True)
      (fun r => ∀ i, r = some i → i ∉ excluded ∧ i < fc.providers.length)
      (getActiveExcluding fc excluded) := by
  have hfind : ∀ state, Yields (fun o => o.part = .nothing) (fun _ _ => True)
      (fun r => ∀ i, r = some i → i ∉ excluded ∧ i < fc.providers.length)
      (findState state excluded fc.indices) := by
    intro state
    apply (findState_yields state excluded fc.indices).post
    intro r hr i hi
    exact And.imp_right mem_range.mp (hr i hi)
  refine Yields.bind (hfind .active) ?_
  intro r hr
  cases r with
  | some i => exact hr
  | none => exact hfind .degraded

section

variable (h : Exclusion fc excluded)
include h

/-- A selection excludes more providers, and returns one that is not among them. -/
theorem pickLoop_yields {mismatch : Option Err} :
    Yields (fun _ => True) (fun _ _ => True)
      (OnOk fun r => Exclusion fc (r.1 :: r.2) ∧ excluded.length ≤ r.2.length)
      (pickLoop fc turns excluded mismatch) := by
  have hfail : ∀ excluded mismatch, Yields (fun _ => True) (fun _ _ => True)
      (OnOk fun r => Exclusion fc (r.1 :: r.2) ∧ excluded.length ≤ r.2.length)
      (do let err ← noneLeft fc excluded mismatch
          Fallible.fail err : M (Nat × List Nat)) := by
    intro excluded mismatch
    exact Yields.lift_bind (uses_any _) fun err _ => trivial
  induction turns generalizing excluded mismatch with
  | zero => exact hfail excluded mismatch
  | succ turns ih =>
    refine Yields.lift_bind
      ((getActiveExcluding_yields excluded).weaken (fun _ _ => trivial) fun _ _ h => h) ?_
    intro r hr
    cases r with
    | none => exact hfail excluded mismatch
    | some idx =>
      obtain ⟨hidx, hlt⟩ := hr idx rfl
      refine Yields.attempt_bind (uses_any _) fun r _ => ?_
      cases r with
      | ok _ => exact ⟨h.cons hidx hlt, le_rfl⟩
      | error err =>
        dsimp only
        split
        · apply (ih (h.cons hidx hlt)).post
          intro r hr
          cases r with
          | error err => trivial
          | ok r => exact ⟨hr.1, (Nat.le_succ _).trans hr.2⟩
        · trivial

theorem pickProviderExcluding_yields :
    Yields (fun _ => True) (fun _ _ => True)
      (OnOk fun r => Exclusion fc (r.1 :: r.2) ∧ excluded.length ≤ r.2.length)
      (pickProviderExcluding fc excluded) := by
  refine Yields.lift_bind (uses_any _) fun busy _ => ?_
  split
  · trivial
  · exact pickLoop_yields h

theorem pickProviderExcluding_none
    (hlen : fc.providers.length ≤ excluded.length) :
    pickProviderExcluding fc excluded = (do
      if ← inBackoff then Fallible.fail .allProvidersDown
      else
        let err ← noneLeft fc excluded none
        Fallible.fail err : M (Nat × List Nat)) := by
  have hloop : ∀ turns, pickLoop fc turns excluded none = (do
      let err ← noneLeft fc excluded none
      Fallible.fail err : M (Nat × List Nat)) := by
    intro turns
    cases turns with
    | zero => rfl
    | succ turns =>
      show (liftM (getActiveExcluding fc excluded) >>= _) = _
      rw [getActiveExcluding_none h hlen]
      rfl
  simp only [pickProviderExcluding, hloop]

theorem eventsLoop_turns {required : Nat} {refusals : Refusals}
    (hlen : fc.providers.length ≤ turns + excluded.length) :
    eventsLoop fc req required (turns + 1) excluded refusals =
      eventsLoop fc req required turns excluded refusals := by
  induction turns generalizing excluded refusals with
  | zero =>
    show (Fallible.attempt (pickProviderExcluding fc excluded) >>= _) = _
    rw [pickProviderExcluding_none h (by simpa using hlen), attempt_bind,
      liftM_bind]
    refine (bind_assoc inBackoff _ _).trans (Eq.trans ?_ (liftM_bind _ _).symm)
    apply Yields.bind_congr (uses_any inBackoff)
    intro busy _
    cases busy with
    | true => rfl
    | false =>
      simp only [Bool.false_eq_true, liftM_bind]
      exact bind_assoc (noneLeft fc excluded none) _ _
  | succ turns ih =>
    apply (pickProviderExcluding_yields h).attempt_bind_congr
    intro r hr
    cases r with
    | error err => rfl
    | ok r =>
      obtain ⟨idx, excluded'⟩ := r
      obtain ⟨hex, hle⟩ := hr
      have hcons : fc.providers.length ≤ turns + (idx :: excluded').length := by
        simp only [length_cons] at hle ⊢
        omega
      have hturn : ∀ r, eventsLoop fc req required (turns + 1) (idx :: excluded') r =
          eventsLoop fc req required turns (idx :: excluded') r :=
        fun r => ih hex hcons
      simp only [hturn]

end

/-! ## Sessions -/

/-- A request a provider receives during `GetEvents`. -/
inductive Contact where
  | network (idx : Nat)
  | events (idx : Nat) (req : GetEventsRequest) (answer : Except Err GetEventsResponse)

def Contact.idx : Contact → Nat
  | .network idx => idx
  | .events idx _ _ => idx

structure Session where
  state : ClientState
  log : List Contact

def Session.to (w : Session) (i : Nat) : List Contact :=
  w.log.filter fun c => decide (c.idx = i)

def Act.contact : (o : Act) → Ans o → List Contact
  | .getNetwork idx, _ => [.network idx]
  | .getEvents idx req, a => [.events idx req a]
  | _, _ => []

def session (fc : FailoverClient) : Machine Act Ans Session Choice Empty where
  exec o w c := (o.answer w.state c).map fun a =>
    (a, { state := o.effect fc w.state, log := w.log ++ o.contact a })
  drift _ _ := none

abbrev sessionSys (fc : FailoverClient) : Sys Act Ans Session :=
  (session fc).sys Machine.anything

theorem session_stable (I : Session → Prop) : (sessionSys fc).Stable I := by
  rintro w w' ⟨n, _⟩
  exact n.elim

variable {w w₀ v : Session}

theorem session_step {w' : Session} {a : Ans o} (h : (sessionSys fc).step o w a w') :
    (∃ c, o.answer w.state c = some a) ∧
      w' = { state := o.effect fc w.state, log := w.log ++ o.contact a } := by
  obtain ⟨c, _, hexec⟩ := h
  simp only [session, Option.map_eq_some_iff, Prod.mk.injEq] at hexec
  obtain ⟨a', hanswer, rfl, rfl⟩ := hexec
  exact ⟨⟨c, hanswer⟩, rfl⟩

structure Untouched (w v : Session) : Prop where
  log : v.log = w.log
  cursorLedger : v.state.cursorLedger = w.state.cursorLedger
  networkInvalid : ∀ i, (v.state.providers i).networkInvalid = (w.state.providers i).networkInvalid

theorem Untouched.refl (w : Session) : Untouched w w := ⟨rfl, rfl, fun _ => rfl⟩

def upkeep : List Part :=
  [.health, .maxObservedHead, .lastActive, .reanchorLedger, .backoff, .observed]

theorem contact_of_part (h : o.part = .nothing ∨ o.part ∈ upkeep) (a : Ans o) :
    o.contact a = [] := by
  cases o <;> first | rfl | simp [upkeep] at h

theorem untouched_step {w' : Session} {a : Ans o} (ho : o.part = .nothing ∨ o.part ∈ upkeep)
    (hw : Untouched w₀ w) (h : (sessionSys fc).step o w a w') : Untouched w₀ w' := by
  obtain ⟨_, rfl⟩ := session_step h
  have hcursor : o.part ≠ .cursorLedger := by
    intro heq
    rw [heq] at ho
    simp [upkeep] at ho
  have hnetwork : o.part ≠ .network := by
    intro heq
    rw [heq] at ho
    simp [upkeep] at ho
  refine ⟨?_, ?_, ?_⟩
  · rw [contact_of_part ho a, append_nil]
    exact hw.log
  · exact (effect_cursorLedger w.state hcursor).trans hw.cursorLedger
  · intro i
    exact (effect_networkInvalid w.state hnetwork i).trans (hw.networkInvalid i)

/-- Every run of `p` from `w` ends as `Q` says. -/
abbrev Ends (fc : FailoverClient) {α : Type} (Q : α → Session → Prop) (p : P α) (w : Session) : Prop :=
  (sessionSys fc).Safe (fun _ _ => True) Q p w

variable {α : Type} {Q : α → Prop}

theorem ends_ret {Q : α → Session → Prop} {a : α} (h : Q a w) : Ends fc Q (.ret a) w :=
  Sys.Safe.ret (session_stable _) h

section Upkeep

variable {β : Type} {p : P α}
  (hp : p.Yields (fun o => o.part = .nothing ∨ o.part ∈ parts) (fun _ _ => True) Q)
include hp

theorem upkeep_bind {Q' : β → Session → Prop} {f : α → P β}
    (hf : ∀ a v, Q a → Untouched w v → Ends fc Q' (f a) v)
    (hparts : parts ⊆ upkeep := by simp [upkeep]) : Ends fc Q' (p.bind f) w := by
  have hsafe : Ends fc (fun a v => Q a ∧ Untouched w v) p w := by
    refine Sys.Safe.of_yields (session_stable _) ?_ (fun _ _ _ _ => trivial) hp (Untouched.refl w)
    intro o v a v' ho hv hstep
    exact ⟨trivial, untouched_step (ho.imp id fun hmem => hparts hmem) hv hstep⟩
  exact Sys.Safe.bind (hsafe.post fun a v hv => hf a v hv.1 hv.2)

theorem upkeep_lift_bind {Q' : Except Err β → Session → Prop} {f : α → M β}
    (hf : ∀ a v, Q a → Untouched w v → Ends fc Q' (f a) v)
    (hparts : parts ⊆ upkeep := by simp [upkeep]) : Ends fc Q' (liftM p >>= f : M β) w := by
  rw [liftM_bind]
  exact upkeep_bind hp hf hparts

end Upkeep

variable {Q : α → Session → Prop}

theorem act_safe {k : Ans o → P α}
    (h : ∀ a c, o.answer w.state c = some a → Ends fc Q (k a)
      { state := o.effect fc w.state, log := w.log ++ o.contact a }) :
    Ends fc Q (.act o k) w := by
  refine Sys.Safe.act (session_stable _) rfl (fun _ _ => trivial) ?_
  rintro v a u rfl hstep
  obtain ⟨⟨c, hanswer⟩, rfl⟩ := session_step hstep
  exact h a c hanswer

theorem load_safe {k : ClientState → P α} (h : Ends fc Q (k w.state) w) :
    Ends fc Q (load.bind k) w := by
  apply act_safe
  intro a c hanswer
  obtain rfl := answer_access hanswer
  have hsame : Session.mk ((Act.access .load).effect fc w.state)
      (w.log ++ (Act.access .load).contact w.state) = w := by
    simp [Act.effect, Access.apply, Act.contact]
  rw [hsame]
  exact h

theorem load_lift_safe {Q : Except Err α → Session → Prop} {k : ClientState → M α}
    (h : Ends fc Q (k w.state) w) :
    Ends fc Q (liftM load >>= k : M α) w := by
  exact load_safe h

theorem waitLimiter_safe {Q : Except Err α → Session → Prop} {k : Unit → M α}
    {idx : Nat} (herr : ∀ err, Q (.error err) w) (h : Ends fc Q (k ()) w) :
    Ends fc Q (waitLimiter idx >>= k : M α) w := by
  apply act_safe
  intro a c hanswer
  have hsame : Session.mk ((Act.waitLimiter idx).effect fc w.state)
      (w.log ++ (Act.waitLimiter idx).contact a) = w := by
    simp [Act.effect, Act.contact]
  rw [hsame]
  cases a with
  | error err => exact ends_ret (herr err)
  | ok _ => exact h

/-! ## Contacts -/

/-- A request for events and, if its format was rejected, the same request without a format. -/
def Exchange (idx : Nat) (r : Except Err GetEventsResponse) (contacts : List Contact) : Prop :=
  (∃ req, contacts = [.events idx req r]) ∨
    ∃ req err, isXDRFormatRejected err = true ∧
      contacts = [.events idx req (.error err), .events idx { req with xdrFormat := "" } r]

/-- At most one check of the provider's network, then at most one exchange. -/
def AtMostOnce (idx : Nat) (contacts : List Contact) : Prop :=
  ∃ checks exchange, contacts = checks ++ exchange ∧
    (checks = [] ∨ checks = [.network idx]) ∧
    (exchange = [] ∨ ∃ r, Exchange idx r exchange)

/-- The stream has not moved, and no provider was asked too often. -/
structure Kept (c₀ : Nat) (w : Session) : Prop where
  cursorLedger : w.state.cursorLedger = c₀
  once : ∀ i, AtMostOnce i (w.to i)

/-- The start of a turn: the providers not excluded have received nothing. -/
structure Fresh (c₀ : Nat) (excluded : List Nat) (w : Session) : Prop extends Kept c₀ w where
  fresh : ∀ i, i ∉ excluded → w.to i = []

/-- A selected provider has received at most a check of its network. -/
structure Checked (c₀ idx : Nat) (excluded : List Nat) (w : Session) : Prop
    extends Fresh c₀ (idx :: excluded) w where
  checked : w.to idx = [] ∨ w.to idx = [.network idx]

theorem Untouched.to (h : Untouched w v) (i : Nat) : v.to i = w.to i := by
  simp [Session.to, h.log]

theorem Fresh.untouched (h : Fresh c₀ excluded w) (hv : Untouched w v) : Fresh c₀ excluded v where
  cursorLedger := hv.cursorLedger.trans h.cursorLedger
  once i := hv.to i ▸ h.once i
  fresh i hi := (hv.to i).trans (h.fresh i hi)

theorem Checked.untouched {idx : Nat} (h : Checked c₀ idx excluded w) (hv : Untouched w v) :
    Checked c₀ idx excluded v where
  toFresh := h.toFresh.untouched hv
  checked := by
    rw [hv.to idx]
    exact h.checked

theorem to_append_other {new : List Contact} {idx i : Nat} (hlog : v.log = w.log ++ new)
    (hnew : ∀ c ∈ new, c.idx = idx) (hi : i ≠ idx) : v.to i = w.to i := by
  have hnone : new.filter (fun c => decide (c.idx = i)) = [] := by
    rw [filter_eq_nil_iff]
    intro c hc
    simp [hnew c hc, Ne.symm hi]
  simp [Session.to, hlog, filter_append, hnone]

theorem to_append_self {new : List Contact} {idx : Nat} (hlog : v.log = w.log ++ new)
    (hnew : ∀ c ∈ new, c.idx = idx) : v.to idx = w.to idx ++ new := by
  have hall : new.filter (fun c => decide (c.idx = idx)) = new := by
    rw [filter_eq_self]
    intro c hc
    simp [hnew c hc]
  simp [Session.to, hlog, filter_append, hall]

theorem Exchange.idx {idx : Nat} {contacts : List Contact} (h : Exchange idx r contacts) :
    ∀ c ∈ contacts, c.idx = idx := by
  rcases h with ⟨req, rfl⟩ | ⟨req, err, _, rfl⟩ <;> simp [Contact.idx]

theorem Exchange.last {idx : Nat} {contacts : List Contact} (h : Exchange idx r contacts)
    (log : List Contact) : ∃ req, (log ++ contacts).getLast? = some (.events idx req r) := by
  rcases h with ⟨req, rfl⟩ | ⟨req, err, _, rfl⟩
  · exact ⟨req, by simp⟩
  · exact ⟨{ req with xdrFormat := "" }, by simp⟩

/-! ## Programs -/

theorem findState_safe {state : ProviderState} {is : List Nat} (w : Session) :
    Ends fc (fun r v => v = w ∧ ∀ i, r = some i → i ∉ excluded ∧
        (w.state.providers i).networkInvalid = false) (findState state excluded is) w := by
  induction is with
  | nil => exact ends_ret ⟨rfl, nofun⟩
  | cons j is ih =>
    unfold findState
    split
    · exact ih
    · rename_i hj
      apply load_safe
      split
      · exact ih
      · rename_i hvalid
        apply load_safe
        split
        · refine ends_ret ⟨rfl, fun i hi => ?_⟩
          cases hi
          exact ⟨hj, Bool.eq_false_iff.mpr hvalid⟩
        · exact ih

theorem getActiveExcluding_safe (w : Session) :
    Ends fc (fun r v => v = w ∧ ∀ i, r = some i → i ∉ excluded ∧
        (w.state.providers i).networkInvalid = false) (getActiveExcluding fc excluded) w := by
  apply Sys.Safe.bind
  apply (findState_safe w).post
  rintro r v ⟨rfl, hr⟩
  cases r with
  | some i => exact ends_ret ⟨rfl, hr⟩
  | none => exact findState_safe v

/-- The outcome of a network check that started in `w₀`. -/
structure Verified (idx : Nat) (w₀ : Session) (r : Except Err Unit) (v : Session) : Prop where
  log : v.log = w₀.log ∨ v.log = w₀.log ++ [.network idx]
  cursorLedger : v.state.cursorLedger = w₀.state.cursorLedger
  valid : r = .ok () → (v.state.providers idx).networkInvalid = false

theorem Untouched.verified {idx : Nat} (h : Untouched w₀ v)
    (hvalid : (w₀.state.providers idx).networkInvalid = false) (r : Except Err Unit) :
    Verified idx w₀ r v :=
  ⟨.inl h.log, h.cursorLedger, fun _ => (h.networkInvalid idx).trans hvalid⟩

theorem checkPassphrase_safe {idx : Nat} (info : NetworkInfo)
    (hlog : w.log = w₀.log ++ [.network idx])
    (hcursor : w.state.cursorLedger = w₀.state.cursorLedger)
    (hvalid : (w.state.providers idx).networkInvalid = false) :
    Ends fc (Verified idx w₀) (checkPassphrase fc idx info) w := by
  unfold checkPassphrase
  dsimp only
  split
  · rw [liftM_bind]
    apply act_safe
    intro a c _
    -- the provider is rejected here, which no later step takes back
    refine upkeep_lift_bind (touches_demoteProvider idx .down) ?_
    intro _ v _ hv
    refine ends_ret ⟨.inr ?_, ?_, nofun⟩
    · rw [hv.log, hlog]
      simp [Act.contact]
    · exact hv.cursorLedger.trans hcursor
  · refine upkeep_bind (touches_perform (by simp) : Touches [.health] _) ?_
    intro _ v _ hv
    refine ends_ret ⟨.inr (hv.log.trans hlog), ?_, fun _ => ?_⟩
    · exact hv.cursorLedger.trans hcursor
    · exact (hv.networkInvalid idx).trans hvalid

theorem verifyProviderNetwork_safe {idx : Nat}
    (hvalid : (w.state.providers idx).networkInvalid = false) :
    Ends fc (Verified idx w) (verifyProviderNetwork fc idx) w := by
  have hsame : ∀ r, Verified idx w r w := fun r => (Untouched.refl w).verified hvalid r
  apply load_lift_safe
  rw [if_neg (by simp [hvalid])]
  split
  · exact ends_ret (hsame _)
  · apply load_lift_safe
    split
    · exact ends_ret (hsame _)
    · split
      · refine upkeep_bind (touches_perform (by simp) : Touches [.health] _) ?_
        intro _ v _ hv
        exact ends_ret (hv.verified hvalid _)
      · apply waitLimiter_safe (fun err => hsame _)
        rw [attempt_bind]
        apply act_safe
        intro a c _
        cases a with
        | ok info => exact checkPassphrase_safe info rfl rfl hvalid
        | error err =>
          refine upkeep_lift_bind (touches_recordError idx err) ?_
          intro _ v _ hv
          exact ends_ret
            ⟨.inr hv.log, hv.cursorLedger, nofun⟩

theorem Verified.checked {idx : Nat} {r : Except Err Unit} (h : Verified idx w r v)
    (hw : Fresh c₀ excluded w) (hidx : idx ∉ excluded) : Checked c₀ idx excluded v := by
  have hempty : w.to idx = [] := hw.fresh idx hidx
  obtain ⟨checks, hchecks, hlog⟩ : ∃ checks, (checks = [] ∨ checks = [.network idx]) ∧
      v.log = w.log ++ checks := by
    rcases h.log with hlog | hlog
    · exact ⟨[], .inl rfl, by rw [hlog, append_nil]⟩
    · exact ⟨[.network idx], .inr rfl, hlog⟩
  have hnew : ∀ c ∈ checks, c.idx = idx := by
    rcases hchecks with rfl | rfl <;> simp [Contact.idx]
  have hself : v.to idx = checks := by
    rw [to_append_self hlog hnew, hempty, nil_append]
  refine ⟨⟨⟨h.cursorLedger.trans hw.cursorLedger, ?_⟩, ?_⟩, ?_⟩
  · intro i
    by_cases hi : i = idx
    · subst hi
      exact ⟨checks, [], by simp [hself], hchecks, .inl rfl⟩
    · rw [to_append_other hlog hnew hi]
      exact hw.once i
  · intro i hi
    obtain ⟨hne, hi⟩ := not_or.mp (mt mem_cons.mpr hi)
    rw [to_append_other hlog hnew hne]
    exact hw.fresh i hi
  · rw [hself]
    exact hchecks

def Selected (c₀ : Nat) : Except Err (Nat × List Nat) → Session → Prop
  | .ok (idx, excluded), v =>
    Checked c₀ idx excluded v ∧ (v.state.providers idx).networkInvalid = false
  | .error _, v => Kept c₀ v

theorem noneLeft_selected (mismatch : Option Err) (hw : Fresh c₀ excluded w) :
    Ends fc (Selected c₀)
      (do let err ← noneLeft fc excluded mismatch
          Fallible.fail err : M (Nat × List Nat)) w := by
  refine upkeep_lift_bind (touches_noneLeft excluded mismatch) ?_
  intro err v _ hv
  exact ends_ret (hw.untouched hv).toKept

theorem pickLoop_safe {mismatch : Option Err} (hw : Fresh c₀ excluded w) :
    Ends fc (Selected c₀) (pickLoop fc turns excluded mismatch) w := by
  induction turns generalizing excluded mismatch w with
  | zero => exact noneLeft_selected mismatch hw
  | succ turns ih =>
    apply Sys.Safe.lift_bind
    apply (getActiveExcluding_safe w).post
    rintro r v ⟨rfl, hr⟩
    cases r with
    | none => exact noneLeft_selected mismatch hw
    | some idx =>
      obtain ⟨hidx, hvalid⟩ := hr idx rfl
      apply Sys.Safe.attempt_bind
      apply (verifyProviderNetwork_safe hvalid).post
      intro r u hu
      have hchecked := hu.checked hw hidx
      cases r with
      | ok _ => exact ends_ret ⟨hchecked, hu.valid rfl⟩
      | error err =>
        dsimp only
        split
        · exact ih hchecked.toFresh
        · exact ends_ret hchecked.toKept

theorem pickProviderExcluding_safe (hw : Fresh c₀ excluded w) :
    Ends fc (Selected c₀) (pickProviderExcluding fc excluded) w := by
  refine upkeep_lift_bind touches_inBackoff ?_
  intro busy v _ hv
  split
  · exact ends_ret (hw.untouched hv).toKept
  · exact pickLoop_safe (hw.untouched hv)

/-! ## One provider -/

structure Called (idx : Nat) (w₀ : Session) (r : Except Err GetEventsResponse) (v : Session) :
    Prop where
  exchange : ∃ new, Exchange idx r new ∧ v.log = w₀.log ++ new
  cursorLedger : v.state.cursorLedger = w₀.state.cursorLedger
  networkInvalid : ∀ i, (v.state.providers i).networkInvalid = (w₀.state.providers i).networkInvalid

theorem Called.untouched {idx : Nat} {u : Session} (h : Called idx w₀ r v) (hu : Untouched v u) :
    Called idx w₀ r u where
  exchange := by
    obtain ⟨new, hnew, hlog⟩ := h.exchange
    exact ⟨new, hnew, hu.log.trans hlog⟩
  cursorLedger := hu.cursorLedger.trans h.cursorLedger
  networkInvalid i := (hu.networkInvalid i).trans (h.networkInvalid i)

theorem sendWithFallback_safe (idx : Nat) (req : GetEventsRequest) (w : Session) :
    Ends fc (Called idx w) (sendWithFallback idx req) w := by
  unfold sendWithFallback
  rw [attempt_bind]
  apply act_safe
  intro a c _
  cases a with
  | ok resp =>
    exact ends_ret
      ⟨⟨_, .inl ⟨req, rfl⟩, rfl⟩, rfl, fun _ => rfl⟩
  | error err =>
    dsimp only [Prog.bind]
    split
    · rename_i hrejected
      apply act_safe
      intro _ _ _
      apply act_safe
      intro r _ _
      refine ends_ret ⟨⟨_, .inr ⟨req, err, hrejected, rfl⟩, ?_⟩, ?_, ?_⟩
      · simp [Act.contact]
      · rfl
      · intro i
        have hpart : (Act.access (.provider idx .storeXDRJSONUnsupported)).part ≠ .network := by
          simp
        exact @effect_networkInvalid fc _ w.state hpart i
    · exact ends_ret
        ⟨⟨_, .inl ⟨req, rfl⟩, rfl⟩, rfl, fun _ => rfl⟩

theorem callProviderGetEvents_safe (idx : Nat) (req : GetEventsRequest) (w : Session) :
    Ends fc (Called idx w) (callProviderGetEvents fc idx req) w := by
  apply load_lift_safe
  apply Sys.Safe.attempt_bind
  apply (sendWithFallback_safe idx _ w).post
  intro r v hv
  refine upkeep_lift_bind (touches_noteXDRSupport idx) ?_
  intro _ u _ hu
  exact ends_ret (hv.untouched hu)

/-- A response is not behind the required ledger and retains the start of the request. -/
structure Covers (req : GetEventsRequest) (required : Nat) (resp : GetEventsResponse) : Prop where
  latest : resp.latestLedger = 0 ∨ required ≤ resp.latestLedger
  oldest : req.hasCursor = false → 0 < req.startLedger → resp.oldestLedger ≤ req.startLedger

theorem checkResponse_yields (req : GetEventsRequest) (required idx : Nat)
    (resp : GetEventsResponse) :
    Yields (fun o => o.part = .nothing ∨ o.part ∈ [.health, .observed]) (fun _ _ => True)
      (fun r => r.isNone = true → Covers req required resp)
      (checkResponse fc req required idx resp) := by
  have hskip : ∀ (state : ProviderState) (refusal : Refusal),
      Yields (fun o => o.part = .nothing ∨ o.part ∈ [.health, .observed]) (fun _ _ => True)
        (fun r => r.isNone = true → Covers req required resp)
        (do demoteProvider idx state
            return some refusal : P (Option Refusal)) := by
    intro state refusal
    exact Uses.bind ((touches_demoteProvider idx state).weaken (by simp)) nofun
  unfold checkResponse
  split
  · exact hskip _ _
  · split
    · exact hskip _ _
    · rename_i holdest
      refine Uses.bind ((touches_checkAndRecordEvents idx _ _ resp).weaken (by simp)) ?_
      intro div
      cases div with
      | some div => exact hskip _ _
      | none =>
        intro _
        refine ⟨?_, fun hcursor hstart => ?_⟩
        · omega
        · by_contra hgap
          exact holdest ⟨hcursor, hstart, by omega⟩

/-- A response that was accepted, with the ledger the stream had reached before. -/
structure Accepted (c₀ : Nat) (req : GetEventsRequest) (required : Nat) (resp : GetEventsResponse)
    (w : Session) : Prop where
  cursorLedger_le : c₀ ≤ w.state.cursorLedger
  once : ∀ i, AtMostOnce i (w.to i)
  origin : ∃ idx sent, w.log.getLast? = some (.events idx sent (.ok resp)) ∧
    (w.state.providers idx).networkInvalid = false
  covers : Covers req required resp

def Asked (c₀ : Nat) (req : GetEventsRequest) (required idx : Nat) (excluded : List Nat) :
    Except Err (Except Refusal GetEventsResponse) → Session → Prop
  | .error _, v => Kept c₀ v
  | .ok (.error _), v => Fresh c₀ (idx :: excluded) v
  | .ok (.ok resp), v => Accepted c₀ req required resp v

theorem Called.fresh {idx : Nat} (h : Called idx w r v) (hw : Checked c₀ idx excluded w) :
    Fresh c₀ (idx :: excluded) v := by
  obtain ⟨new, hnew, hlog⟩ := h.exchange
  refine ⟨⟨h.cursorLedger.trans hw.cursorLedger, ?_⟩, ?_⟩
  · intro i
    by_cases hi : i = idx
    · subst hi
      exact ⟨w.to i, new, to_append_self hlog hnew.idx, hw.checked, .inr ⟨r, hnew⟩⟩
    · rw [to_append_other hlog hnew.idx hi]
      exact hw.once i
  · intro i hi
    have hne : i ≠ idx := fun heq => hi (heq ▸ (.head _))
    rw [to_append_other hlog hnew.idx hne]
    exact hw.fresh i hi

theorem accept_safe {idx required : Nat} {resp : GetEventsResponse} {sent : GetEventsRequest}
    (hw : Fresh c₀ (idx :: excluded) w)
    (hlast : w.log.getLast? = some (.events idx sent (.ok resp)))
    (hvalid : (w.state.providers idx).networkInvalid = false) (hcovers : Covers req required resp) :
    Ends fc (fun r v => r = resp ∧ Accepted c₀ req required resp v) (accept fc req idx resp) w := by
  have hsafe : Ends fc
      (fun r v => r = resp ∧ (v.log = w.log ∧ w.state.cursorLedger ≤ v.state.cursorLedger ∧
        ∀ i, (v.state.providers i).networkInvalid = (w.state.providers i).networkInvalid))
      (accept fc req idx resp) w := by
    refine Sys.Safe.of_yields (session_stable _) ?_ (fun _ _ _ _ => trivial)
      (accept_yields req idx resp) ⟨rfl, le_rfl, fun _ => rfl⟩
    rintro o v a v' ho ⟨hlog, hcursor, hinvalid⟩ hstep
    obtain ⟨_, rfl⟩ := session_step hstep
    have hcontact : o.contact a = [] := by
      cases o <;> first | rfl | simp at ho
    have hnetwork : o.part ≠ .network := by
      intro heq
      rw [heq] at ho
      simp at ho
    refine ⟨trivial, ?_, hcursor.trans (effect_cursorLedger_le v.state), ?_⟩
    · simp [hcontact, hlog]
    · intro i
      exact (effect_networkInvalid v.state hnetwork i).trans (hinvalid i)
  apply hsafe.post
  rintro r v ⟨rfl, hlog, hcursor, hinvalid⟩
  refine ⟨rfl, hw.cursorLedger ▸ hcursor, ?_, ⟨idx, sent, ?_, ?_⟩, hcovers⟩
  · intro i
    have hto : v.to i = w.to i := by simp [Session.to, hlog]
    rw [hto]
    exact hw.once i
  · rw [hlog, hlast]
  · rw [hinvalid idx, hvalid]

theorem askProvider_safe {idx : Nat} (req : GetEventsRequest) (required : Nat)
    (hw : Checked c₀ idx excluded w) (hvalid : (w.state.providers idx).networkInvalid = false) :
    Ends fc (Asked c₀ req required idx excluded) (askProvider fc req required excluded idx) w := by
  refine upkeep_lift_bind (touches_checkSelection req required excluded idx) ?_
  intro refusal w₁ _ hw₁
  have hchecked := hw.untouched hw₁
  cases refusal with
  | some refusal => exact ends_ret hchecked.toFresh
  | none =>
    refine upkeep_lift_bind (touches_switchesProvider req idx) ?_
    intro switched w₂ _ hw₂
    have hchecked₂ := hchecked.untouched hw₂
    split
    · refine upkeep_lift_bind touches_interrupt ?_
      intro _ v _ hv
      exact ends_ret (hchecked₂.untouched hv).toKept
    · apply waitLimiter_safe (fun err => hchecked₂.toKept)
      apply Sys.Safe.attempt_bind
      apply (callProviderGetEvents_safe idx req w₂).post
      intro r w₃ hw₃
      have hfresh := hw₃.fresh hchecked₂
      cases r with
      | error err =>
        dsimp only
        split
        · refine upkeep_lift_bind (touches_demoteProvider idx .degraded) ?_
          intro _ v _ hv
          exact ends_ret (hfresh.untouched hv)
        · refine upkeep_lift_bind (touches_recordError idx err) ?_
          intro _ v _ hv
          exact ends_ret (hfresh.untouched hv).toKept
      | ok resp =>
        refine upkeep_lift_bind (touches_updateProviderRange idx _ _) ?_
        intro _ w₄ _ hw₄
        refine upkeep_lift_bind (checkResponse_yields req required idx resp) ?_
        intro refusal w₅ hcovers hw₅
        have hfresh₅ := (hfresh.untouched hw₄).untouched hw₅
        cases refusal with
        | some refusal => exact ends_ret hfresh₅
        | none =>
          obtain ⟨new, hnew, hlog⟩ := hw₃.exchange
          obtain ⟨sent, hlast⟩ := hnew.last w₂.log
          have hinvalid : (w₅.state.providers idx).networkInvalid = false := by
            rw [hw₅.networkInvalid, hw₄.networkInvalid, hw₃.networkInvalid, hw₂.networkInvalid,
              hw₁.networkInvalid, hvalid]
          apply Sys.Safe.lift_bind
          apply (accept_safe hfresh₅ (by rw [hw₅.log, hw₄.log, hlog, hlast]) hinvalid
            (hcovers rfl)).post
          rintro r v ⟨rfl, hv⟩
          exact ends_ret hv

/-! ## The whole call -/

def Answered (c₀ : Nat) (req : GetEventsRequest) (required : Nat) :
    Except Err GetEventsResponse → Session → Prop
  | .error _, v => Kept c₀ v
  | .ok resp, v => Accepted c₀ req required resp v

theorem eventsLoop_safe {required : Nat} {refusals : Refusals} (hw : Fresh c₀ excluded w) :
    Ends fc (Answered c₀ req required) (eventsLoop fc req required turns excluded refusals) w := by
  induction turns generalizing excluded refusals w with
  | zero =>
    refine upkeep_lift_bind touches_inBackoff ?_
    intro busy v _ hv
    have hfresh := hw.untouched hv
    split
    · exact ends_ret hfresh.toKept
    · refine upkeep_lift_bind (touches_noneLeft excluded none) ?_
      intro err u _ hu
      exact ends_ret (hfresh.untouched hu).toKept
  | succ turns ih =>
    apply Sys.Safe.attempt_bind
    apply (pickProviderExcluding_safe hw).post
    intro r v hv
    cases r with
    | error err => exact ends_ret hv
    | ok picked =>
      obtain ⟨hchecked, hvalid⟩ := hv
      apply Sys.Safe.andThen
      apply (askProvider_safe req required hchecked hvalid).post
      intro r u hu
      cases r with
      | error err => exact ends_ret hu
      | ok answer =>
        cases answer with
        | error refusal => exact ih hu
        | ok resp => exact ends_ret hu

/-- The ledger a provider must have reached, by the stream, the request and the part of its
cursor before the dash. -/
def requiredLedger (s : ClientState) (req : GetEventsRequest) : Nat :=
  max (max s.cursorLedger req.startLedger) (parseLedgerFromCursor req.cursor)

theorem getEvents_safe (s : ClientState) (req : GetEventsRequest) :
    Ends fc (Answered s.cursorLedger (reanchored s.reanchorLedger req)
        (requiredLedger s (reanchored s.reanchorLedger req))) (getEvents fc req) ⟨s, []⟩ := by
  have hfresh : Fresh s.cursorLedger [] ⟨s, []⟩ :=
    ⟨⟨rfl, fun i => ⟨[], [], rfl, .inl rfl, .inl rfl⟩⟩, fun _ _ => rfl⟩
  have hrest : Ends fc
      (Answered s.cursorLedger (reanchored s.reanchorLedger req)
        (requiredLedger s (reanchored s.reanchorLedger req)))
      (do let required ← requiredLedgerForRequest (reanchored s.reanchorLedger req)
          eventsLoop fc (reanchored s.reanchorLedger req) required fc.providers.length [] .none :
        M GetEventsResponse) ⟨s, []⟩ := by
    apply Sys.Safe.lift_bind
    apply load_safe
    exact ends_ret (eventsLoop_safe hfresh)
  unfold getEvents reanchorRequest
  split
  · rename_i hcursor
    have hsame : reanchored s.reanchorLedger req = req := by simp [reanchored, hcursor]
    rw [hsame] at hrest ⊢
    exact hrest
  · apply Sys.Safe.lift_bind
    apply load_safe
    exact ends_ret hrest

structure Conforms (s : ClientState) (req : GetEventsRequest) (r : Except Err GetEventsResponse)
    (w : Session) : Prop where
  once : ∀ i, AtMostOnce i (w.to i)
  cursorLedger_le : s.cursorLedger ≤ w.state.cursorLedger
  failed : ∀ err, r = .error err → w.state.cursorLedger = s.cursorLedger
  origin : ∀ resp, r = .ok resp → ∃ idx sent,
    w.log.getLast? = some (.events idx sent (.ok resp)) ∧
      (w.state.providers idx).networkInvalid = false
  latest : ∀ resp, r = .ok resp → resp.latestLedger = 0 ∨
    requiredLedger s (reanchored s.reanchorLedger req) ≤ resp.latestLedger
  oldest : ∀ resp, r = .ok resp → req.hasCursor = false →
    0 < (reanchored s.reanchorLedger req).startLedger →
      resp.oldestLedger ≤ (reanchored s.reanchorLedger req).startLedger

theorem reanchored_hasCursor (reanchor : Nat) (req : GetEventsRequest) :
    (reanchored reanchor req).hasCursor = req.hasCursor := by
  unfold reanchored
  split <;> rfl

/-- Every further turn of the loop beyond the number of providers is one that is never taken,
and every call conforms. -/
theorem getEvents_conforms (fc : FailoverClient) (s : ClientState) (req : GetEventsRequest)
    (cs : List Choice) (r : Except Err GetEventsResponse) (w : Session)
    (hrun : (session fc).run (getEvents fc req) ⟨s, []⟩ cs = some (r, w)) :
    (∀ req required extra, eventsLoop fc req required (fc.providers.length + extra) [] .none =
        eventsLoop fc req required fc.providers.length [] .none) ∧
      Conforms s req r w := by
  constructor
  · intro req required extra
    induction extra with
    | zero => rfl
    | succ extra ih =>
      have hnone : Exclusion fc [] := ⟨nodup_nil, nofun⟩
      rw [← ih]
      exact eventsLoop_turns hnone (by simp)
  · have hpost := Machine.run_post (getEvents_safe s req) hrun
    cases r with
    | error err =>
      refine ⟨hpost.once, hpost.cursorLedger.ge, fun _ _ => hpost.cursorLedger, ?_, ?_, ?_⟩
      all_goals
        intro resp h
        cases h
    | ok resp =>
      refine ⟨hpost.once, hpost.cursorLedger_le, nofun, ?_, ?_, ?_⟩
      · rintro _ ⟨⟩
        exact hpost.origin
      · rintro _ ⟨⟩
        exact hpost.covers.latest
      · rintro _ ⟨⟩ hcursor
        apply hpost.covers.oldest
        rw [reanchored_hasCursor, hcursor]

def soleProvider (kind : ClientKind) (passphrase : String) : FailoverClient where
  providers := [{ url := "a", kind := kind }]
  maxConsecutiveErrors := 3
  probationSuccesses := 2
  headSkewTolerance := 3
  expectedPassphrase := passphrase
  sha256Hex text := text
  marshalJSON texts := String.intercalate "," texts

def bareRequest (startLedger : Nat) (cursor : String) : GetEventsRequest where
  startLedger := startLedger
  endLedger := 0
  filters := []
  cursor := cursor
  limit := 10
  xdrFormat := ""

def emptyPage (oldest latest : Nat) : GetEventsResponse where
  events := []
  latestLedger := latest
  oldestLedger := oldest
  cursor := ""

/-- The answers of a call that the provider serves at once: accesses, the page, accesses. -/
def served (before : Nat) (page : GetEventsResponse) (after : Nat) : List Choice :=
  List.replicate before .ok ++ .page page :: List.replicate after .ok

theorem getEvents_conforms_served :
    ∃ w, (session (soleProvider .plain "")).run
        (getEvents (soleProvider .plain "") (bareRequest 6 "")) ⟨.new, []⟩
        (served 11 (emptyPage 1 9) 10) = some (.ok (emptyPage 1 9), w) ∧
      Conforms .new (bareRequest 6 "") (.ok (emptyPage 1 9)) w :=
  ⟨_, rfl, (getEvents_conforms (soleProvider .plain "") .new (bareRequest 6 "")
    (served 11 (emptyPage 1 9) 10) (.ok (emptyPage 1 9)) _ rfl).2⟩

/-- The ledger of a canonical cursor: the upper half of the number before the dash. -/
def toidLedger (cursor : String) : Nat :=
  match Text.cut '-' cursor.toList with
  | some (before, _) => (Text.parseUint 64 before).getD 0 / 2 ^ 32
  | none => 0

/-- A request without a start ledger is served by a provider that retains ledger 5 onwards; a
request for ledger 6 that is moved back to an interrupted ledger 5, and one with a cursor inside
ledger 10, by a provider whose latest ledger is 5; and a provider whose network has to be checked
is contacted twice. -/
theorem getEvents_accepts_beyond_request :
    ((session (soleProvider .plain "")).run
        (getEvents (soleProvider .plain "") (bareRequest 0 "")) ⟨.new, []⟩
        (served 11 (emptyPage 5 9) 10)).map Prod.fst = some (.ok (emptyPage 5 9)) ∧
    ((session (soleProvider .plain "")).run (getEvents (soleProvider .plain "") (bareRequest 6 ""))
        ⟨{ ClientState.new with reanchorLedger := 5 }, []⟩
        (served 11 (emptyPage 1 5) 10)).map Prod.fst = some (.ok (emptyPage 1 5)) ∧
    toidLedger "0000000042949672960-0000000001" = 10 ∧
    ((session (soleProvider .plain "")).run
        (getEvents (soleProvider .plain "") (bareRequest 0 "0000000042949672960-0000000001"))
        ⟨.new, []⟩ (served 11 (emptyPage 1 5) 9)).map Prod.fst = some (.ok (emptyPage 1 5)) ∧
    ((session (soleProvider .inspector "net")).run
        (getEvents (soleProvider .inspector "net") (bareRequest 6 "")) ⟨.new, []⟩
        (List.replicate 8 .ok ++ .network ⟨"net"⟩ :: served 6 (emptyPage 1 9) 10)).map
        (fun r => (r.2.to 0).length) = some 2 :=
  ⟨rfl, rfl, rfl, rfl, rfl⟩

end SoroTrail.Rpc.Failover
