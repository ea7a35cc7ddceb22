import SoroTrail.Api.AuthCache
import SoroTrail.Lib.Steps

/-!
# Authentication and administration

Any number of authentications and administrative requests on one replica.  A
cache operation runs under the cache's mutex and a store operation is one
statement, so each is one step; the steps of different requests interleave
freely with each other, with writes of other replicas and with invalidations
received from them.
-/

set_option autoImplicit false

namespace SoroTrail.Api.Auth

open Lib Store

structure Server where
  multiTenant : Bool
  apiKeyAuth : Bool
  verifySecret : String → String → Bool
  validContractID : String → Bool

structure Rejection where
  status : Nat
  message : String
  deriving DecidableEq, Repr

/-- A presented key; for a tenant's key the secret part is the digest of the whole key. -/
inductive Credential where
  | missing
  | malformed
  | key (keyPrefix secret : String)
  deriving DecidableEq, Repr

/-! ## Authentication -/

inductive Request where
  /-- Through `authenticate`; `certTenant` is the tenant the client's certificate is mapped to. -/
  | tenant (publicPath : Bool) (certTenant : Option String) (credential : Credential)
  | operator (credential : Credential)
  deriving DecidableEq, Repr

structure Principal where
  tenant : Tenant
  scope : Scope
  keyID : Option Int
  keyPrefix : String
  deriving DecidableEq, Repr

inductive Access where
  | unrestricted
  | principal (p : Principal)
  | operator (key : APIKey)
  deriving DecidableEq, Repr

structure Presented where
  keyPrefix : String
  digest : String
  expectedTenantID : Option Int
  deriving DecidableEq, Repr

inductive Phase where
  | entered
  | clock (p : Presented)
  | cacheLookup (p : Presented) (now : Int)
  | storeLookup (p : Presented) (now : Int)
  | scopeLookup (p : Presented) (now : Int) (key : TenantAPIKey) (digest : String) (tenant : Tenant)
  | cachePut (p : Presented) (now : Int) (key : TenantAPIKey) (digest : String) (tenant : Tenant)
      (scope : Scope)
  | certScope (tenant : Tenant)
  | operatorClock (keyPrefix secret : String)
  | operatorCache (keyPrefix secret : String) (now : Int)
  | operatorStore (keyPrefix secret : String) (now : Int)
  | operatorPut (secret : String) (now : Int) (key : APIKey)
  | rejected (r : Rejection)
  | accepted (a : Access)
  deriving DecidableEq, Repr

def authenticationFailed : Phase := .rejected ⟨500, "authentication failed"⟩

def unknownKey : Phase := .rejected ⟨401, "unknown or revoked API key"⟩

def invalidKey : Phase := .rejected ⟨401, "missing or invalid API key"⟩

def presentKey (expectedTenantID : Option Int) : Credential → Phase
  | .missing => .rejected ⟨401, "missing API key"⟩
  | .malformed => .rejected ⟨401, "malformed API key"⟩
  | .key keyPrefix digest => .clock ⟨keyPrefix, digest, expectedTenantID⟩

variable (server : Server)

def certified (credential : Credential) (tenant : Tenant) : Phase :=
  if !tenant.enabled then .rejected ⟨403, "tenant is disabled"⟩
  else if credential ≠ .missing ∨ server.apiKeyAuth then presentKey (some tenant.id) credential
  else .certScope tenant

/-- The checks between the lookup of a key and the lookup of its scope. -/
def checked (p : Presented) (digest : String) (tenant : Tenant) (next : Phase) : Phase :=
  if p.digest ≠ digest then unknownKey
  else if !tenant.enabled then .rejected ⟨403, "tenant is disabled"⟩
  else if p.expectedTenantID ≠ none ∧ p.expectedTenantID ≠ some tenant.id then
    .rejected ⟨403, "API key tenant does not match client certificate identity"⟩
  else next

def authorized (p : Presented) (key : TenantAPIKey) (tenant : Tenant) (scope : Scope) : Phase :=
  .accepted (.principal ⟨tenant, scope, some key.id, p.keyPrefix⟩)

def verified (secret : String) (key : APIKey) : Phase :=
  if server.verifySecret secret key.keyHash then .accepted (.operator key) else invalidKey

def enterTenant (st : TenantStore) (ok : Bool) (publicPath : Bool)
    (certTenant : Option String) (credential : Credential) : Phase :=
  if publicPath || !server.multiTenant then .accepted .unrestricted
  else
    match certTenant with
    | none => presentKey none credential
    | some name =>
      if !ok then authenticationFailed
      else
        match getTenantByName st name with
        | none => .rejected ⟨403, "client certificate tenant not found"⟩
        | some tenant => certified server credential tenant

/-- One step of an authentication; a store operation fails when `ok` is false. -/
def advance (st : TenantStore) (clock : Int) (c : AuthCache) (req : Request)
    (ok : Bool) : Phase → Option (AuthCache × Phase)
  | .entered =>
    match req with
    | .tenant publicPath certTenant credential =>
      some (c, enterTenant server st ok publicPath certTenant credential)
    | .operator (.key keyPrefix secret) => some (c, .operatorClock keyPrefix secret)
    | .operator _ => some (c, invalidKey)
  | .clock p => some (c, .cacheLookup p clock)
  | .cacheLookup p now =>
    match c.getTenantAuth p.keyPrefix now with
    | (none, c') => some (c', .storeLookup p now)
    | (some e, c') =>
      some (c', checked p e.digest e.tenant (authorized p e.key e.tenant e.scope))
  | .storeLookup p now =>
    if !ok then some (c, authenticationFailed)
    else
      match lookupTenantAPIKey st p.keyPrefix with
      | none => some (c, unknownKey)
      | some (key, digest, tenant) =>
        some (c, checked p digest tenant (.scopeLookup p now key digest tenant))
  | .scopeLookup p now key digest tenant =>
    if !ok then some (c, authenticationFailed)
    else
      let key := if key.keyPrefix = "" then { key with keyPrefix := p.keyPrefix } else key
      some (c, .cachePut p now key digest tenant (scopeForTenant st tenant))
  | .cachePut p now key digest tenant scope =>
    some (c.putTenantAuth key digest tenant scope now, authorized p key tenant scope)
  | .certScope tenant =>
    if !ok then some (c, authenticationFailed)
    else some (c, .accepted (.principal ⟨tenant, scopeForTenant st tenant, none, ""⟩))
  | .operatorClock keyPrefix secret => some (c, .operatorCache keyPrefix secret clock)
  | .operatorCache keyPrefix secret now =>
    match c.getAPIKey keyPrefix now with
    | (none, c') => some (c', .operatorStore keyPrefix secret now)
    | (some key, c') => some (c', verified server secret key)
  | .operatorStore keyPrefix secret now =>
    if !ok then some (c, .rejected ⟨500, "checking API key failed"⟩)
    else
      match lookupAPIKeyByPrefix st keyPrefix with
      | none => some (c, invalidKey)
      | some key => some (c, .operatorPut secret now key)
  -- the key is cached before its secret is verified
  | .operatorPut secret now key => some (c.putAPIKey key now, verified server secret key)
  | .rejected _ => none
  | .accepted _ => none

/-! ## Administrative requests -/

structure TenantPatch where
  name : Option String
  wildcard : Option Bool
  enabled : Option Bool
  deriving DecidableEq, Repr

def TenantPatch.apply (patch : TenantPatch) (t : Tenant) : Tenant :=
  { t with
    name := patch.name.getD t.name
    wildcard := patch.wildcard.getD t.wildcard
    enabled := patch.enabled.getD t.enabled }

inductive AdminRequest where
  | updateTenant (id : Int) (patch : TenantPatch)
  /-- `self` is the tenant of the caller. -/
  | deleteTenant (self id : Int)
  | grantContract (id : Int) (contractID : String)
  | revokeContract (id : Int) (contractID : String)
  | revokeTenantKey (id : Int)
  | revokeAPIKey (id : Int)
  deriving DecidableEq, Repr

def AdminRequest.id : AdminRequest → Int
  | .updateTenant id _ => id
  | .deleteTenant _ id => id
  | .grantContract id _ => id
  | .revokeContract id _ => id
  | .revokeTenantKey id => id
  | .revokeAPIKey id => id

inductive AdminPhase where
  | entered
  | loaded (tenant : Tenant)
  /-- The store has been written and the invalidation is still to come. -/
  | written (ev : InvalidationEvent)
  | returned (status : Nat)
  deriving DecidableEq, Repr

/-- The write of a request and the invalidation that follows it. -/
def AdminRequest.plan (tenant : Tenant) : AdminRequest → Write × InvalidationEvent
  | .updateTenant _ patch => (.updateTenant (patch.apply tenant), .tenant tenant.id)
  | .deleteTenant _ id => (.deleteTenant id, .tenant id)
  | .grantContract _ contractID => (.grantContract tenant.id contractID, .tenant tenant.id)
  | .revokeContract _ contractID => (.revokeContract tenant.id contractID, .tenant tenant.id)
  | .revokeTenantKey id => (.revokeTenantAPIKey id, .apiKey id)
  | .revokeAPIKey id => (.revokeAPIKey id, .apiKey id)

def AdminRequest.failure : AdminRequest → StoreError → Nat
  | .updateTenant _ _, .duplicate => 409
  | .deleteTenant _ _, .notFound => 404
  | .revokeTenantKey _, .notFound => 404
  | .revokeAPIKey _, .notFound => 404
  | _, _ => 500

def AdminRequest.success : AdminRequest → Nat
  | .updateTenant _ _ => 200
  | .grantContract _ _ => 200
  | .revokeContract _ _ => 200
  | _ => 204

def AdminRequest.loadsTenant : AdminRequest → Bool
  | .updateTenant _ _ => true
  | .grantContract _ _ => true
  | .revokeContract _ _ => true
  | _ => false

def AdminRequest.refusal : AdminRequest → Option Nat
  | .grantContract _ contractID => if server.validContractID contractID then none else some 400
  | .deleteTenant self id => if self = id then some 409 else none
  | _ => none

def AdminRequest.writeStep (st : TenantStore) (tenant : Tenant)
    (req : AdminRequest) : TenantStore × AdminPhase :=
  match req.refusal server with
  | some status => (st, .returned status)
  | none =>
    match (req.plan tenant).1.apply st with
    | .ok st' => (st', .written (req.plan tenant).2)
    | .error err => (st, .returned (req.failure err))

def noTenant : Tenant := ⟨0, "", false, false⟩

def advanceAdmin (st : TenantStore) (c : AuthCache) (req : AdminRequest)
    (ok : Bool) : AdminPhase → Option (TenantStore × AuthCache × AdminPhase)
  | .entered =>
    if req.id ≤ 0 then some (st, c, .returned 400)
    else if !ok then some (st, c, .returned 500)
    else if req.loadsTenant then
      match getTenant st req.id with
      | none => some (st, c, .returned 404)
      | some tenant => some (st, c, .loaded tenant)
    else
      let (st', phase) := req.writeStep server st noTenant
      some (st', c, phase)
  | .loaded tenant =>
    if !ok then some (st, c, .returned 500)
    else
      let (st', phase) := req.writeStep server st tenant
      some (st', c, phase)
  | .written ev => some (st, applyInvalidation c ev, .returned req.success)
  | .returned _ => none

/-! ## The replica -/

structure Authentication where
  request : Request
  phase : Phase
  deriving DecidableEq, Repr

structure Admin where
  request : AdminRequest
  phase : AdminPhase
  deriving DecidableEq, Repr

structure State where
  store : TenantStore
  cache : AuthCache
  clock : Int
  auths : List Authentication
  admins : List Admin

def State.init (ttl : Int) : State where
  store := .empty
  cache := newAuthCache ttl
  clock := 0
  auths := []
  admins := []

inductive Move where
  | request (r : Request)
  | auth (i : Nat) (ok : Bool)
  | admin (r : AdminRequest)
  | adminStep (j : Nat) (ok : Bool)
  | write (w : Write)
  | remoteInvalidation (ev : InvalidationEvent)
  | invalidationReconnect
  | tick (seconds : Nat)
  deriving DecidableEq, Repr

def step (s : State) : Move → Option State
  | .request r => some { s with auths := s.auths ++ [⟨r, .entered⟩] }
  | .auth i ok =>
    match s.auths[i]? with
    | none => none
    | some a =>
      (advance server s.store s.clock s.cache a.request ok a.phase).map fun r =>
        { s with cache := r.1, auths := s.auths.set i { a with phase := r.2 } }
  | .admin r => some { s with admins := s.admins ++ [⟨r, .entered⟩] }
  | .adminStep j ok =>
    match s.admins[j]? with
    | none => none
    | some a =>
      (advanceAdmin server s.store s.cache a.request ok a.phase).map fun r =>
        { s with store := r.1, cache := r.2.1, admins := s.admins.set j { a with phase := r.2.2 } }
  | .write w =>
    match w.apply s.store with
    | .ok st => some { s with store := st }
    | .error _ => some s
  | .remoteInvalidation ev => some { s with cache := applyInvalidation s.cache ev }
  | .invalidationReconnect => some { s with cache := s.cache.clear }
  | .tick seconds => some { s with clock := s.clock + seconds }

end SoroTrail.Api.Auth
