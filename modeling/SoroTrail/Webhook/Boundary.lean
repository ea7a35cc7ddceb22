import SoroTrail.Ingester.Types
import SoroTrail.Webhook.Subscriptions

/-!
# Deliveries inside the tenant boundary

A subscription's filters are checked against the caller's scope when they are
written, and never again: `NotifyEvents` lists the enabled subscriptions of all
tenants and sends what matches.  Deliveries stay inside their owner's boundary in
every run in which each check is made with the owner's scope of the moment and
nothing a live subscription rests on is taken away afterwards.
-/

set_option autoImplicit false

namespace SoroTrail.Webhook

open Lib Store Api List Option Steps
open Api.Auth (Principal Tenant TenantStore StoreError getTenant scopeForTenant)

/-! ## Entitlements -/

/-- The tenant is enabled and its scope meets the condition. -/
def entitled (tenants : TenantStore) (t : Int) (p : Scope → Bool) : Bool :=
  match getTenant tenants t with
  | none => false
  | some tenant => tenant.enabled && p (scopeForTenant tenants tenant)

variable {tenants : TenantStore}

theorem entitled_iff {t : Int} {p : Scope → Bool} :
    entitled tenants t p = true ↔
      ∃ tenant, getTenant tenants t = some tenant ∧ tenant.enabled = true ∧
        p (scopeForTenant tenants tenant) = true := by
  unfold entitled
  cases getTenant tenants t <;> simp

theorem entitled_mono {t : Int} {p q : Scope → Bool}
    (hpq : ∀ scope, p scope = true → q scope = true) (h : entitled tenants t p = true) :
    entitled tenants t q = true := by
  obtain ⟨tenant, hget, henabled, hp⟩ := entitled_iff.mp h
  exact entitled_iff.mpr ⟨tenant, hget, henabled, hpq _ hp⟩

def authorises (f : SubscriptionFilter) (scope : Scope) : Bool :=
  scope.wildcard || (decide (f.contractID ≠ "") && scope.allows f.contractID)

/-- The owner, if there is one, may read whatever the filters match. -/
def covered (tenants : TenantStore) (sub : Subscription) : Bool :=
  match sub.tenantID with
  | none => true
  | some t => entitled tenants t (authorises sub.filters)

theorem authorises_of_authorize {p : Principal} {admin : Bool} {f : SubscriptionFilter}
    (h : authorizeSubscriptionFilters (.tenant p admin) f = .ok ()) : authorises f p.scope = true := by
  simp only [authorizeSubscriptionFilters] at h
  split_ifs at h with hwildcard hunnamed hallows
  · simp [authorises, hwildcard]
  · simpa [authorises, hunnamed] using Or.inr hallows

variable {elements : String → Option (List String)}

theorem allows_of_matches {f : SubscriptionFilter}
    {scope : Scope} {e : Event} (hscope : authorises f scope = true)
    (hmatch : f.matchesEvent elements e = true) : scope.allows e.contractID = true := by
  have hcontract : f.contractID = "" ∨ e.contractID = f.contractID := by
    simp only [SubscriptionFilter.matchesEvent, Bool.and_eq_true, Bool.not_eq_true', decide_eq_false_iff_not,
      not_and, ne_eq, not_not] at hmatch
    exact or_iff_not_imp_left.mpr hmatch.1.1.1.1.2
  simp only [authorises, Bool.or_eq_true, Bool.and_eq_true, decide_eq_true_eq] at hscope
  rcases hscope with hwildcard | ⟨hnamed, hallows⟩
  · simp [Scope.allows, hwildcard]
  · rwa [hcontract.resolve_left hnamed]

/-! ## What a run respects -/

def current (tenants : TenantStore) : Caller → Bool
  | .untenanted => true
  | .tenant p _ => entitled tenants p.tenant.id fun scope => decide (scope = p.scope)

/-- The step is about to check filters and write them: the caller's scope is current, and what an
update writes to belongs to the caller. -/
def Handler.fresh (tenants : TenantStore) (t : Table) (h : Handler) : Bool :=
  match h.operation, h.phase with
  | .create _, .entered => current tenants h.caller
  | .update _ _, .loaded existing => current tenants h.caller &&
      t.subscriptions.all fun row => decide (row.id ≠ existing.id ∨ row.tenantID = h.caller.tenantID)
  | _, _ => true

/-- Nothing is taken away that an enabled subscription rests on, or one that a running call has listed.
Subscriptions that go with their tenant need nothing. -/
def Spares (s : State) (tenants : TenantStore) : Prop :=
  (∀ sub ∈ listEnabledSubscriptions (s.table.cascade tenants),
    covered s.auth.store sub = true → covered tenants sub = true) ∧
  ∀ c ∈ s.calls, ∀ d ∈ c.pending,
    covered s.auth.store d.subscription = true → covered tenants d.subscription = true

instance (s : State) (tenants : TenantStore) : Decidable (Spares s tenants) :=
  inferInstanceAs (Decidable (_ ∧ _))

def Respects (server : Auth.Server) (s : State) : Move → Prop
  | .auth m => ∀ a ∈ Auth.step server s.auth m, Spares s a.store
  | .handlerStep j _ => ∀ h ∈ s.handlers[j]?, h.fresh s.auth.store s.table = true
  | _ => True

instance (server : Auth.Server) (s : State) (m : Move) : Decidable (Respects server s m) := by
  cases m <;> (dsimp only [Respects]; infer_instance)

/-! ## One step of a handler -/

section Tables

variable {tenants : TenantStore} {t : Table}

def Covers (tenants : TenantStore) (t : Table) : Prop :=
  ∀ sub ∈ t.subscriptions, sub.enabled = true → covered tenants sub = true

variable {caller : Caller}

/-- What a caller with a current scope may subscribe to, its tenant may read. -/
theorem covered_of_authorize {sub : Subscription}
    (hcurrent : current tenants caller = true) (howner : sub.tenantID = caller.tenantID)
    (hauth : authorizeSubscriptionFilters caller sub.filters = .ok ()) : covered tenants sub = true := by
  cases caller with
  | untenanted => simp [covered, howner, Caller.tenantID]
  | tenant p admin =>
    have hnow : entitled tenants p.tenant.id (fun scope => decide (scope = p.scope)) = true := hcurrent
    simp only [covered, howner, Caller.tenantID]
    refine entitled_mono (fun scope heq => ?_) hnow
    rw [of_decide_eq_true heq]
    exact authorises_of_authorize hauth

theorem covers_create (ht : Covers tenants t) (hcurrent : current tenants caller = true)
    (ok : Bool) (r : CreateSubscriptionRequest) :
    Covers tenants (handleCreateSubscription tenants t caller ok r).1 := by
  simp only [handleCreateSubscription]
  by_cases hurl : r.url = ""
  · rwa [if_pos hurl]
  by_cases hsecret : r.secret = ""
  · rwa [if_neg hurl, if_pos hsecret]
  rw [if_neg hurl, if_neg hsecret]
  cases hauth : authorizeSubscriptionFilters caller r.filters with
  | error rejection => exact ht
  | ok _ =>
    cases ok with
    | false => exact ht
    | true =>
      simp only [createSubscription, Bool.not_true, Bool.false_eq_true, if_false]
      split_ifs
      · exact forall_mem_append ht fun _ => covered_of_authorize hcurrent rfl hauth
      · exact ht

theorem covers_update (ht : Covers tenants t) (hcurrent : current tenants caller = true)
    (ok : Bool) (r : UpdateSubscriptionRequest) {existing : Subscription}
    (howner : ∀ row ∈ t.subscriptions, row.id = existing.id → row.tenantID = caller.tenantID) :
    Covers tenants (writeUpdate t caller ok r existing).1 := by
  simp only [writeUpdate]
  by_cases hurl : (r.merge existing).url = ""
  · rwa [if_pos hurl]
  rw [if_neg hurl]
  cases hauth : authorizeSubscriptionFilters caller (r.merge existing).filters with
  | error rejection => exact ht
  | ok _ =>
    cases ok with
    | false => exact ht
    | true =>
      simp only [updateSubscription, Bool.not_true, Bool.false_eq_true, if_false]
      split_ifs
      · exact ht
      · intro sub hsub henabled
        obtain ⟨row, hrow, rfl⟩ := List.mem_map.mp hsub
        split_ifs at henabled ⊢ with hthis
        · exact covered_of_authorize hcurrent (howner row hrow hthis.1) hauth
        · exact ht row hrow henabled

theorem covers_advance (ht : Covers tenants t) {h : Handler} (hfresh : h.fresh tenants t = true) {ok : Bool}
    {r : Table × HandlerPhase} (hadvance : h.advance tenants t ok = some r) : Covers tenants r.1 := by
  obtain ⟨caller, operation, phase⟩ := h
  cases operation with
  | create request =>
    cases phase with
    | entered =>
      cases hadvance
      exact covers_create ht hfresh ok request
    | loaded | written | returned => cases hadvance
  | update id request =>
    cases phase with
    | entered =>
      simp only [Handler.advance] at hadvance
      split_ifs at hadvance
      · exact Option.some.inj hadvance ▸ ht
      · exact Option.some.inj hadvance ▸ ht
      · split at hadvance <;> exact Option.some.inj hadvance ▸ ht
    | loaded existing =>
      cases hadvance
      simp only [Handler.fresh, Bool.and_eq_true, List.all_eq_true, decide_eq_true_eq] at hfresh
      exact covers_update ht hfresh.1 ok request fun row hrow hid =>
        (hfresh.2 row hrow).resolve_left fun hne => hne hid
    | written =>
      simp only [Handler.advance] at hadvance
      split at hadvance <;> exact Option.some.inj hadvance ▸ ht
    | returned => cases hadvance
  | delete id =>
    cases phase with
    | entered =>
      simp only [Handler.advance, deleteSubscription] at hadvance
      split_ifs at hadvance
      · exact Option.some.inj hadvance ▸ ht
      · exact Option.some.inj hadvance ▸ ht
      · exact Option.some.inj hadvance ▸ ht
      · cases hadvance
        exact fun sub hsub => ht sub (mem_filter.mp hsub).1
    | loaded | written | returned => cases hadvance

end Tables

/-! ## Runs -/

structure Inv (elements : String → Option (List String)) (s : State) : Prop where
  stored : Covers s.auth.store s.table
  pending : ∀ c ∈ s.calls, ∀ d ∈ c.pending, covered s.auth.store d.subscription = true ∧
    d.subscription.filters.matchesEvent elements d.event = true

theorem inv_init (elements : String → Option (List String)) (ttl : Int) : Inv elements (.init ttl) :=
  ⟨nofun, nofun⟩

theorem mem_matching {subs : List Subscription}
    {events : List Event} {d : Delivery} (h : d ∈ matching elements subs events) :
    d.subscription ∈ subs ∧ d.subscription.filters.matchesEvent elements d.event = true := by
  obtain ⟨ev, -, hd⟩ := mem_flatMap.mp h
  obtain ⟨sub, hsub, rfl⟩ := List.mem_map.mp hd
  exact mem_filter.mp hsub

theorem pending_advance {t : Table}
    (ht : Covers tenants t) {ok : Bool} {c c' : Call}
    (hc : ∀ d ∈ c.pending, covered tenants d.subscription = true ∧
      d.subscription.filters.matchesEvent elements d.event = true)
    (hadvance : c.advance elements t ok = some c') :
    ∀ d ∈ c'.pending, covered tenants d.subscription = true ∧
      d.subscription.filters.matchesEvent elements d.event = true := by
  cases c with
  | entered events =>
    simp only [Call.advance] at hadvance
    split_ifs at hadvance
    · cases hadvance
      exact fun d hd => absurd hd not_mem_nil
    · cases hadvance
      intro d hd
      obtain ⟨hsub, hmatch⟩ := mem_matching hd
      obtain ⟨hsub, henabled⟩ := mem_filter.mp hsub
      exact ⟨ht _ hsub henabled, hmatch⟩
  | sending pending =>
    cases pending with
    | nil => cases hadvance
    | cons d rest =>
      cases hadvance
      exact fun d' hd' => hc d' (.tail _ hd')

variable {server : Auth.Server} {elements : String → Option (List String)}

theorem inv_step {s s' : State} {m : Move} (hrespects : Respects server s m) (hs : Inv elements s)
    (hstep : step server elements s m = some s') : Inv elements s' := by
  cases m with simp only [step] at hstep
  | auth m =>
    obtain ⟨a, ha, rfl⟩ := map_eq_some_iff.mp hstep
    obtain ⟨hstored, hpending⟩ := hrespects a ha
    refine ⟨fun sub hsub henabled => ?_, fun c hc d hd => ?_⟩
    · exact hstored sub (mem_filter.mpr ⟨hsub, henabled⟩)
        (hs.stored sub (mem_filter.mp hsub).1 henabled)
    · have hold := hs.pending c hc d hd
      exact ⟨hpending c hc d hd hold.1, hold.2⟩
  | handle i admin operation =>
    split at hstep
    · cases hstep
    · obtain ⟨caller, -, rfl⟩ := map_eq_some_iff.mp hstep
      exact ⟨hs.stored, hs.pending⟩
  | handlerStep j ok =>
    split at hstep
    · cases hstep
    · rename_i h hget
      obtain ⟨r, hr, rfl⟩ := map_eq_some_iff.mp hstep
      exact ⟨covers_advance hs.stored (hrespects h hget) hr, hs.pending⟩
  | notifyEvents events =>
    cases hstep
    exact ⟨hs.stored, forall_mem_append hs.pending fun d hd => absurd hd not_mem_nil⟩
  | notifyStep k ok =>
    split at hstep
    · cases hstep
    · rename_i c hget
      obtain ⟨c', hc', rfl⟩ := map_eq_some_iff.mp hstep
      have hc := hs.pending c (mem_of_getElem? hget)
      exact ⟨hs.stored, forall_mem_set hs.pending (pending_advance hs.stored hc hc')⟩
  | receive =>
    split at hstep
    · cases hstep
    · cases hstep
      exact ⟨hs.stored, hs.pending⟩
  | incrementFailures id maxFailures =>
    cases hstep
    refine ⟨fun sub hsub henabled => ?_, hs.pending⟩
    obtain ⟨row, hrow, rfl⟩ := List.mem_map.mp hsub
    split_ifs at henabled ⊢
    · exact hs.stored row hrow henabled
    · exact hs.stored row hrow henabled
  | resetFailures id =>
    cases hstep
    refine ⟨fun sub hsub henabled => ?_, hs.pending⟩
    obtain ⟨row, hrow, rfl⟩ := List.mem_map.mp hsub
    split_ifs at henabled ⊢ with hthis
    · exact hs.stored row hrow henabled
    · exact hs.stored row hrow henabled

/-- The owner of the subscription is enabled and may fetch the event. -/
def Inside (tenants : TenantStore) (d : Delivery) : Prop :=
  ∀ t, d.subscription.tenantID = some t → ∃ tenant, getTenant tenants t = some tenant ∧
    tenant.enabled = true ∧ (scopeForTenant tenants tenant).allows d.event.contractID = true

theorem inside_of_inv {s : State} (hs : Inv elements s) {m : Move} {d : Delivery}
    (hsend : s.enqueues m = some d) : Inside s.auth.store d := by
  have hmem : ∃ c ∈ s.calls, d ∈ c.pending := by
    cases m with
    | notifyStep k ok =>
      obtain ⟨c, hget, hc⟩ := bind_eq_some_iff.mp hsend
      refine ⟨c, mem_of_getElem? hget, ?_⟩
      unfold Call.enqueues at hc
      split at hc
      · split_ifs at hc
        cases hc
        exact (.head _)
      · cases hc
    | _ => cases hsend
  obtain ⟨c, hc, hd⟩ := hmem
  obtain ⟨hcovered, hmatch⟩ := hs.pending c hc d hd
  intro t ht
  simp only [covered, ht] at hcovered
  obtain ⟨tenant, hget, henabled, hscope⟩ := entitled_iff.mp hcovered
  exact ⟨tenant, hget, henabled, allows_of_matches hscope hmatch⟩

/-- In every run that checks filters with the owner's scope of the moment and takes nothing away from
a live subscription, whatever is enqueued is an event its owner may fetch at that moment. -/
theorem deliveries_stay_inside (server : Auth.Server) (elements : String → Option (List String)) (ttl : Int)
    {ms ms' : List Move} {m : Move} {s : State}
    (hrespects : Steps.Along (step server elements) (Respects server) (.init ttl) (ms ++ m :: ms'))
    (hrun : Steps.run (step server elements) (.init ttl) ms = some s) {d : Delivery}
    (hsend : s.enqueues m = some d) : Inside s.auth.store d := by
  have hinv : Inv elements s := (hrespects.rest hrun).1.invariant
    (fun _ _ _ hrespects hs hstep => inv_step hrespects hs hstep) (inv_init elements ttl) hrun
  exact inside_of_inv hinv hsend

def tenantServer : Auth.Server where
  multiTenant := true
  apiKeyAuth := false
  verifySecret := fun secret hash => decide (secret = hash)
  validContractID := fun _ => true

def transfer : Event := .sample "testnet" "1" "C1" 7

/-- Tenant 1 holds contract `C1`, presents its key and subscribes to the contract. -/
def subscribed : List Move :=
  [.auth (.write (.createTenant ⟨0, "acme", false, true⟩)),
    .auth (.write (.createTenantAPIKey 1 "K" "digest")), .auth (.write (.grantContract 1 "C1")),
    .auth (.request (.tenant false none (.key "K" "digest")))] ++
    List.replicate 6 (.auth (.auth 0 true)) ++
    [.handle 0 false (.create ⟨"callback", { SubscriptionFilter.any with contractID := "C1" }, "secret", none⟩),
      .handlerStep 0 true]

def notified : List Move := [.notifyEvents [transfer], .notifyStep 0 true]

/-- A second contract is granted in between. -/
theorem deliveries_stay_inside_granted :
    ∃ s d, Steps.run (step tenantServer fun _ => none) (.init 5)
        (subscribed ++ .auth (.write (.grantContract 1 "C2")) :: notified) = some s ∧
      s.enqueues (.notifyStep 0 true) = some d ∧ d.subscription.tenantID = some 1 ∧
      Inside s.auth.store d := by
  refine ⟨_, _, rfl, rfl, rfl, deliveries_stay_inside tenantServer (fun _ => none) 5
    (Steps.Along.of_check (?_ : Steps.check _ _ _ (subscribed ++ .auth (.write (.grantContract 1 "C2")) ::
      notified ++ .notifyStep 0 true :: []) = true)) rfl rfl⟩
  decide +kernel

/-- The contract is revoked, and its next event is sent to the tenant's callback; so it is when the
tenant is disabled. -/
theorem revoked_contract_is_delivered :
    (∃ s d, Steps.run (step tenantServer fun _ => none) (.init 5)
        (subscribed ++ .auth (.admin (.revokeContract 1 "C1")) ::
          List.replicate 3 (.auth (.adminStep 0 true)) ++ notified) = some s ∧
      s.enqueues (.notifyStep 0 true) = some d ∧ d.subscription.tenantID = some 1 ∧
      entitled s.auth.store 1 (fun scope => scope.allows d.event.contractID) = false) ∧
    ∃ s d, Steps.run (step tenantServer fun _ => none) (.init 5)
        (subscribed ++ .auth (.admin (.updateTenant 1 ⟨none, none, some false⟩)) ::
          List.replicate 3 (.auth (.adminStep 0 true)) ++ notified) = some s ∧
      s.enqueues (.notifyStep 0 true) = some d ∧ d.subscription.tenantID = some 1 ∧
      entitled s.auth.store 1 (fun _ => true) = false := by
  constructor
  · refine ⟨_, _, rfl, rfl, rfl, ?_⟩
    decide +kernel
  · refine ⟨_, _, rfl, rfl, rfl, ?_⟩
    decide +kernel

/-!
# What the filter of a subscription means

`MatchesEvent` decides on the event the ingester has just decoded.  The event has no
network yet, its topics are compared as texts, a negative bound is none and
`topic_contains` is not read.  The filter means what it says about the stored row
as long as none of this makes a difference.
-/

structure Filters extends SubscriptionFilter where
  topicContains : String
  deriving DecidableEq, Repr

/-! ## Two readings -/

section Readings

-- the raw elements of a JSON array, and the value of a JSON text
variable {V : Type} (elements : String → Option (List String)) (value : String → V)
  (f : Filters) (e : Event)

/-- Some topic has the value of the text. -/
def HasTopic (text : String) : Prop :=
  ∃ ts, elements e.topics = some ts ∧ ∃ t ∈ ts, value t = value text

structure Satisfies : Prop where
  network : f.network ≠ "" → e.network = f.network
  contractID : f.contractID ≠ "" → e.contractID = f.contractID
  type : f.type ≠ "" → e.type = f.type
  fromLedger : f.fromLedger ≠ 0 → f.fromLedger ≤ e.ledger
  toLedger : f.toLedger ≠ 0 → e.ledger ≤ f.toLedger
  topic : f.topic ≠ "" → HasTopic elements value e f.topic
  topicContains : f.topicContains ≠ "" → ∃ texts, elements f.topicContains = some texts ∧
    ∀ text ∈ texts, HasTopic elements value e text

structure Passes : Prop where
  network : f.network ≠ "" → e.network = f.network
  contractID : f.contractID ≠ "" → e.contractID = f.contractID
  type : f.type ≠ "" → e.type = f.type
  fromLedger : 0 < f.fromLedger → f.fromLedger ≤ e.ledger
  toLedger : 0 < f.toLedger → e.ledger ≤ f.toLedger
  topic : f.topic ≠ "" → e.topics ≠ "" → ∃ ts, elements e.topics = some ts ∧ f.topic ∈ ts

/-- The row has all the filter asks for, but the filter names a network or spells its topic in
another way; or the event passes, but a bound is negative, it has no topics or not the ones that
`topic_contains` asks for. -/
def Divergent (row : Event) : Prop :=
  Satisfies elements value f row ∧ (f.network ≠ "" ∨
      f.topic ≠ "" ∧ e.topics ≠ "" ∧ ∀ ts, elements e.topics = some ts → f.topic ∉ ts) ∨
    Passes elements f e ∧ (f.toLedger < 0 ∨ f.topic ≠ "" ∧ ¬HasTopic elements value row f.topic ∨
      f.topicContains ≠ "" ∧ ∀ texts, elements f.topicContains = some texts →
        ∃ text ∈ texts, ¬HasTopic elements value row text)

end Readings

section Meaning

variable {V : Type} {elements : String → Option (List String)} {value : String → V} {f : Filters}
  {e : Event}

theorem matchesEvent_iff : f.matchesEvent elements e = true ↔ Passes elements f e := by
  simp only [SubscriptionFilter.matchesEvent, Bool.and_eq_true, Bool.not_eq_true',
    decide_eq_false_iff_not, not_and, not_not, not_lt, gt_iff_lt]
  constructor
  · rintro ⟨⟨⟨⟨⟨hnetwork, hcontract⟩, htype⟩, hlow⟩, hhigh⟩, htopic⟩
    refine ⟨hnetwork, hcontract, htype, hlow, hhigh, fun hset hhas => ?_⟩
    rw [if_pos ⟨hset, hhas⟩] at htopic
    cases hts : elements e.topics with
    | none => simp [hts] at htopic
    | some ts => exact ⟨ts, rfl, by simpa [hts] using htopic⟩
  · rintro ⟨hnetwork, hcontract, htype, hlow, hhigh, htopic⟩
    refine ⟨⟨⟨⟨⟨hnetwork, hcontract⟩, htype⟩, hlow⟩, hhigh⟩, ?_⟩
    split
    · rename_i hset
      obtain ⟨ts, hts, hmem⟩ := htopic hset.1 hset.2
      simp [hts, hmem]
    · rfl

end Meaning

end SoroTrail.Webhook
