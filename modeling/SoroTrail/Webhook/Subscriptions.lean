import SoroTrail.Api.Authenticate

/-!
# Webhook subscriptions

The handlers under `/subscriptions`, the table they write, and `NotifyEvents`, which
the ingester calls after a batch and which reads the table without an owner.  A
store operation is one step; the steps of any number of handlers and calls
interleave freely with each other and with everything authentication and the
administrative handlers do.
-/

set_option autoImplicit false

namespace SoroTrail.Webhook

open Lib Store Api
open Api.Auth (Principal TenantStore StoreError Rejection getTenant scopeForTenant)

/-! ## Filters -/

structure SubscriptionFilter where
  contractID : String
  type : String
  topic : String
  fromLedger : Int
  toLedger : Int
  network : String
  deriving DecidableEq, Repr

def SubscriptionFilter.any : SubscriptionFilter := ⟨"", "", "", 0, 0, ""⟩

/-- `elements` is `json.Unmarshal` into a slice of raw messages. -/
def SubscriptionFilter.matchesEvent (elements : String → Option (List String)) (f : SubscriptionFilter)
    (e : Event) : Bool :=
  !decide (f.network ≠ "" ∧ e.network ≠ f.network) &&
    !decide (f.contractID ≠ "" ∧ e.contractID ≠ f.contractID) &&
    !decide (f.type ≠ "" ∧ e.type ≠ f.type) &&
    !decide (f.fromLedger > 0 ∧ e.ledger < f.fromLedger) &&
    !decide (f.toLedger > 0 ∧ e.ledger > f.toLedger) &&
    if f.topic ≠ "" ∧ e.topics ≠ "" then
      match elements e.topics with
      | none => false
      | some topics => decide (f.topic ∈ topics)
    else true

/-! ## The table -/

structure Subscription where
  id : Int
  url : String
  filters : SubscriptionFilter
  secret : String
  enabled : Bool
  failureCount : Int
  tenantID : Option Int
  deriving DecidableEq, Repr

/-- `SubscriptionOwner`; its zero value is `ownedBy 0`. -/
inductive SubscriptionOwner where
  | all
  | ownedBy (tenantID : Int)
  deriving DecidableEq, Repr

/-- `ownerPredicate`. -/
def SubscriptionOwner.admits : SubscriptionOwner → Subscription → Bool
  | .all, _ => true
  | .ownedBy tenantID, s => decide (s.tenantID = some tenantID)

structure Table where
  subscriptions : List Subscription
  nextID : Int
  deriving DecidableEq, Repr

def refersTo (tenants : TenantStore) (s : Subscription) : Bool :=
  match s.tenantID with
  | none => true
  | some t => (getTenant tenants t).isSome

def createSubscription (tenants : TenantStore) (t : Table) (s : Subscription) :
    Except StoreError (Table × Subscription) :=
  let row := { s with id := t.nextID, failureCount := 0 }
  if refersTo tenants row then .ok (⟨t.subscriptions ++ [row], t.nextID + 1⟩, row)
  else .error .foreignKey

def getSubscription (t : Table) (id : Int) (owner : SubscriptionOwner) : Option Subscription :=
  t.subscriptions.find? fun s => decide (s.id = id) && owner.admits s

/-- What an update writes; the owner of a row is never written. -/
def Subscription.overwrite (row s : Subscription) : Subscription :=
  { row with url := s.url, filters := s.filters, secret := s.secret, enabled := s.enabled }

def updateSubscription (t : Table) (s : Subscription) (owner : SubscriptionOwner) : Except StoreError Table :=
  if (getSubscription t s.id owner).isNone then .error .notFound
  else
    .ok { t with
      subscriptions := t.subscriptions.map fun row =>
        if row.id = s.id ∧ owner.admits row then row.overwrite s else row }

def deleteSubscription (t : Table) (id : Int) (owner : SubscriptionOwner) : Except StoreError Table :=
  if (getSubscription t id owner).isNone then .error .notFound
  else
    .ok { t with
      subscriptions := t.subscriptions.filter fun row => !(decide (row.id = id) && owner.admits row) }

def listEnabledSubscriptions (t : Table) : List Subscription :=
  t.subscriptions.filter fun s => s.enabled

def incrementSubscriptionFailures (t : Table) (id maxFailures : Int) : Table :=
  { t with
    subscriptions := t.subscriptions.map fun row =>
      if row.id = id then
        { row with
          failureCount := row.failureCount + 1
          enabled := if row.failureCount + 1 ≥ maxFailures then false else row.enabled }
      else row }

def resetSubscriptionFailures (t : Table) (id : Int) : Table :=
  { t with
    subscriptions := t.subscriptions.map fun row =>
      if row.id = id then { row with failureCount := 0 } else row }

def Table.cascade (tenants : TenantStore) (t : Table) : Table :=
  { t with subscriptions := t.subscriptions.filter (refersTo tenants) }

/-! ## Handlers -/

/-- Who a request comes from.  Whether a tenant is an administrator is not kept with the tenants of
the model; a request may come from either kind. -/
inductive Caller where
  | untenanted
  | tenant (p : Principal) (admin : Bool)
  deriving DecidableEq, Repr

def callerOf (a : Auth.Authentication) (admin : Bool) : Option Caller :=
  match a.request, a.phase with
  | _, .accepted (.principal p) => some (.tenant p admin)
  | .tenant false _ _, .accepted .unrestricted => some .untenanted
  | _, _ => none

def Caller.tenantID : Caller → Option Int
  | .untenanted => none
  | .tenant p _ => some p.tenant.id

def subscriptionOwner : Caller → SubscriptionOwner
  | .untenanted => .all
  | .tenant p admin => if admin then .all else .ownedBy p.tenant.id

def authorizeSubscriptionFilters (caller : Caller) (f : SubscriptionFilter) : Except Rejection Unit :=
  match caller with
  | .untenanted => .ok ()
  | .tenant p _ =>
    if p.scope.wildcard then .ok ()
    else if f.contractID = "" then
      .error ⟨400, "filters.contract_id is required: a subscription must name one of the " ++
        "contracts granted to this tenant"⟩
    else if !p.scope.allows f.contractID then
      .error ⟨403, "contract " ++ f.contractID ++ " is not granted to this tenant"⟩
    else .ok ()

structure CreateSubscriptionRequest where
  url : String
  filters : SubscriptionFilter
  secret : String
  enabled : Option Bool
  deriving DecidableEq, Repr

structure UpdateSubscriptionRequest where
  url : Option String
  filters : Option SubscriptionFilter
  secret : Option String
  enabled : Option Bool
  deriving DecidableEq, Repr

def UpdateSubscriptionRequest.merge (r : UpdateSubscriptionRequest) (existing : Subscription) :
    Subscription :=
  { existing with
    url := r.url.getD existing.url
    filters := r.filters.getD existing.filters
    secret := r.secret.getD existing.secret
    enabled := r.enabled.getD existing.enabled }

inductive Operation where
  | create (r : CreateSubscriptionRequest)
  | update (id : Int) (r : UpdateSubscriptionRequest)
  | delete (id : Int)
  deriving DecidableEq, Repr

inductive Response where
  | created (s : Subscription)
  | updated (s : Subscription)
  | deleted
  | rejected (r : Rejection)
  deriving DecidableEq, Repr

inductive HandlerPhase where
  | entered
  | loaded (existing : Subscription)
  | written
  | returned (r : Response)
  deriving DecidableEq, Repr

structure Handler where
  caller : Caller
  operation : Operation
  phase : HandlerPhase
  deriving DecidableEq, Repr

def reject (status : Nat) (message : String) : HandlerPhase := .returned (.rejected ⟨status, message⟩)

def invalidID (id : Int) : HandlerPhase :=
  reject 400 ("subscription id must be a positive integer, got \"" ++ toString id ++ "\"")

def notFound (id : Int) : HandlerPhase := reject 404 ("subscription " ++ toString id ++ " not found")

def handleCreateSubscription (tenants : TenantStore) (t : Table) (caller : Caller) (ok : Bool)
    (r : CreateSubscriptionRequest) : Table × HandlerPhase :=
  if r.url = "" then (t, reject 400 "url is required")
  else if r.secret = "" then (t, reject 400 "secret is required")
  else
    match authorizeSubscriptionFilters caller r.filters with
    | .error rejection => (t, .returned (.rejected rejection))
    | .ok () =>
      -- ownership comes from the credential, never from the request body
      let sub : Subscription :=
        ⟨0, r.url, r.filters, r.secret, r.enabled.getD true, 0, caller.tenantID⟩
      if !ok then (t, reject 500 "creating subscription failed")
      else
        match createSubscription tenants t sub with
        | .ok (t', created) => (t', .returned (.created created))
        | .error _ => (t, reject 500 "creating subscription failed")

def writeUpdate (t : Table) (caller : Caller) (ok : Bool) (r : UpdateSubscriptionRequest)
    (existing : Subscription) : Table × HandlerPhase :=
  let merged := r.merge existing
  if merged.url = "" then (t, reject 400 "url must not be empty")
  else
    match authorizeSubscriptionFilters caller merged.filters with
    | .error rejection => (t, .returned (.rejected rejection))
    | .ok () =>
      if !ok then (t, reject 500 "updating subscription failed")
      else
        match updateSubscription t merged (subscriptionOwner caller) with
        | .ok t' => (t', .written)
        | .error _ => (t, reject 500 "updating subscription failed")

def Handler.advance (tenants : TenantStore) (t : Table) (h : Handler) (ok : Bool) :
    Option (Table × HandlerPhase) :=
  match h.operation, h.phase with
  | .create r, .entered => some (handleCreateSubscription tenants t h.caller ok r)
  | .update id _, .entered =>
    if id ≤ 0 then some (t, invalidID id)
    else if !ok then some (t, reject 500 "getting subscription failed")
    else
      match getSubscription t id (subscriptionOwner h.caller) with
      | none => some (t, notFound id)
      | some existing => some (t, .loaded existing)
  | .update _ r, .loaded existing => some (writeUpdate t h.caller ok r existing)
  | .update id _, .written =>
    -- read again for the columns an update does not write
    match getSubscription t id (subscriptionOwner h.caller), ok with
    | some s, true => some (t, .returned (.updated s))
    | _, _ => some (t, reject 500 "updating subscription failed")
  | .delete id, .entered =>
    if id ≤ 0 then some (t, invalidID id)
    else if !ok then some (t, reject 500 "deleting subscription failed")
    else
      match deleteSubscription t id (subscriptionOwner h.caller) with
      | .ok t' => some (t', .returned .deleted)
      | .error _ => some (t, notFound id)
  | _, _ => none

/-! ## Notifications -/

structure Delivery where
  subscription : Subscription
  event : Event
  deriving DecidableEq, Repr

def workerQueueSize : Nat := 4096

inductive Call where
  | entered (events : List Event)
  /-- What is still to be sent, of the subscriptions as they were listed. -/
  | sending (pending : List Delivery)
  deriving DecidableEq, Repr

def Call.pending : Call → List Delivery
  | .entered _ => []
  | .sending pending => pending

def matching (elements : String → Option (List String)) (subs : List Subscription) (events : List Event) :
    List Delivery :=
  events.flatMap fun ev =>
    (subs.filter fun sub => sub.filters.matchesEvent elements ev).map fun sub => ⟨sub, ev⟩

def Call.enqueues (queue : List Delivery) : Call → Option Delivery
  | .sending (d :: _) => if queue.length < workerQueueSize then some d else none
  | _ => none

def Call.advance (elements : String → Option (List String)) (t : Table) (ok : Bool) : Call → Option Call
  | .entered events =>
    if events = [] ∨ ok = false then some (.sending [])
    else some (.sending (matching elements (listEnabledSubscriptions t) events))
  | .sending [] => none
  | .sending (_ :: rest) => some (.sending rest)

/-! ## The replica -/

structure State where
  auth : Auth.State
  table : Table
  handlers : List Handler
  calls : List Call
  queue : List Delivery

def State.init (ttl : Int) : State where
  auth := .init ttl
  table := ⟨[], 1⟩
  handlers := []
  calls := []
  queue := []

inductive Move where
  | auth (m : Auth.Move)
  /-- Authentication `i` is over and its request reaches the handler. -/
  | handle (i : Nat) (admin : Bool) (operation : Operation)
  | handlerStep (j : Nat) (ok : Bool)
  | notifyEvents (events : List Event)
  | notifyStep (k : Nat) (ok : Bool)
  | receive
  | incrementFailures (id maxFailures : Int)
  | resetFailures (id : Int)
  deriving DecidableEq, Repr

def State.enqueues (s : State) : Move → Option Delivery
  | .notifyStep k _ => (s.calls[k]?).bind (Call.enqueues s.queue)
  | _ => none

def step (server : Auth.Server) (elements : String → Option (List String)) (s : State) :
    Move → Option State
  | .auth m =>
    (Auth.step server s.auth m).map fun a => { s with auth := a, table := s.table.cascade a.store }
  | .handle i admin operation =>
    match s.auth.auths[i]? with
    | none => none
    | some a =>
      (callerOf a admin).map fun caller =>
        { s with handlers := s.handlers ++ [⟨caller, operation, .entered⟩] }
  | .handlerStep j ok =>
    match s.handlers[j]? with
    | none => none
    | some h =>
      (h.advance s.auth.store s.table ok).map fun r =>
        { s with table := r.1, handlers := s.handlers.set j { h with phase := r.2 } }
  | .notifyEvents events => some { s with calls := s.calls ++ [.entered events] }
  | .notifyStep k ok =>
    match s.calls[k]? with
    | none => none
    | some c =>
      (c.advance elements s.table ok).map fun c' =>
        { s with
          calls := s.calls.set k c'
          queue := s.queue ++ (s.enqueues (.notifyStep k ok)).toList }
  | .receive =>
    match s.queue with
    | [] => none
    | _ :: rest => some { s with queue := rest }
  | .incrementFailures id maxFailures =>
    some { s with table := incrementSubscriptionFailures s.table id maxFailures }
  | .resetFailures id => some { s with table := resetSubscriptionFailures s.table id }

end SoroTrail.Webhook
