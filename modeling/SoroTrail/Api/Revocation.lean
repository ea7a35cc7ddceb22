import SoroTrail.Api.Authenticate

/-!
# Authentication against revocation

A revocation writes the store and then evicts what the cache holds of it.  What
is read from the store afterwards is never denied, and neither is what the cache
still holds; an authentication that read before the write is the one way back.
-/

set_option autoImplicit false

namespace SoroTrail.Api.Auth

open Lib Store List Option Bool Function Steps

/-! ## What a revocation takes away -/

inductive Denial where
  | tenantKey (id : Int)
  | apiKey (id : Int)
  | tenant (id : Int)
  | contract (tenantID : Int) (contractID : String)
  deriving DecidableEq, Repr

def Denial.InForce (st : TenantStore) : Denial → Prop
  | .tenantKey id => ∀ r ∈ st.tenantKeys, r.key.id = id → r.revoked = true
  | .apiKey id => ∀ r ∈ st.apiKeys, r.key.id = id → r.revoked = true
  | .tenant id => ∀ t ∈ st.tenants, t.id = id → t.enabled = false
  | .contract tenantID contractID =>
    (∀ t ∈ st.tenants, t.id = tenantID → t.wildcard = false) ∧
      (tenantID, contractID) ∉ st.grants

instance (st : TenantStore) (d : Denial) : Decidable (d.InForce st) :=
  match d with
  | .tenantKey _ | .apiKey _ | .tenant _ => inferInstanceAs (Decidable (∀ _ ∈ _, _))
  | .contract _ _ => inferInstanceAs (Decidable (_ ∧ _))

/-- It denies this key, this tenant or a contract of this scope. -/
def Denial.Forbids (keyID : Option Int) (tenant : Tenant) (scope : Scope) : Denial → Prop
  | .tenantKey id => keyID = some id
  | .apiKey _ => False
  | .tenant id => tenant.id = id
  | .contract tenantID contractID => tenant.id = tenantID ∧ scope.allows contractID = true

instance (keyID : Option Int) (tenant : Tenant) (scope : Scope) (d : Denial) :
    Decidable (d.Forbids keyID tenant scope) :=
  match d with
  | .tenantKey _ | .tenant _ => inferInstanceAs (Decidable (_ = _))
  | .apiKey _ => inferInstanceAs (Decidable False)
  | .contract _ _ => inferInstanceAs (Decidable (_ ∧ _))

/-- A request accepted so is accepted with something that is denied. -/
def Denial.Breaks (d : Denial) : Access → Prop
  | .unrestricted => False
  | .principal p => d.Forbids p.keyID p.tenant p.scope
  | .operator key => d = .apiKey key.id

def Denial.InvalidatedBy : Denial → InvalidationEvent → Prop
  | .tenantKey id, ev => ev = .apiKey id
  | .apiKey id, ev => ev = .apiKey id
  | .tenant id, ev => ev = .tenant id
  | .contract tenantID _, ev => ev = .tenant tenantID

def Tenant.knownScope (t : Tenant) : Scope := if t.wildcard then wildcardScope else ⟨false, []⟩

/-- What an authentication has read and may still put into the cache is not denied. -/
def Phase.Clear (d : Denial) : Phase → Prop
  | .scopeLookup _ _ key _ tenant => ¬d.Forbids (some key.id) tenant tenant.knownScope
  | .cachePut _ _ key _ tenant scope => ¬d.Forbids (some key.id) tenant scope
  | .operatorPut _ _ key => d ≠ .apiKey key.id
  | _ => True

instance (d : Denial) (phase : Phase) : Decidable (phase.Clear d) := by
  cases phase <;> (dsimp only [Phase.Clear]; infer_instance)

def Phase.Sound (d : Denial) : Phase → Prop
  | .certScope tenant => ¬d.Forbids none tenant tenant.knownScope
  | .accepted a => ¬d.Breaks a
  | phase => phase.Clear d

variable {st st' : TenantStore} {t tenant : Tenant} {digest keyPrefix : String} {d : Denial}
  {server : Server} {ok : Bool} {phase phase' : Phase} {c c' : AuthCache} {clock : Int}
  {req : AdminRequest} {s : State}

theorem getTenantByName_mem {name : String} (h : getTenantByName st name = some t) :
    t ∈ st.tenants :=
  mem_of_find?_eq_some h

theorem getTenant_spec {id : Int} (h : getTenant st id = some t) : t ∈ st.tenants ∧ t.id = id :=
  ⟨mem_of_find?_eq_some h, by simpa using List.find?_some h⟩

theorem lookupTenantAPIKey_spec {key : TenantAPIKey}
    (h : lookupTenantAPIKey st keyPrefix = some (key, digest, t)) :
    t ∈ st.tenants ∧
      ∃ r ∈ st.tenantKeys, r.key = key ∧ key.keyPrefix = keyPrefix ∧ r.revoked = false := by
  simp only [lookupTenantAPIKey] at h
  split at h
  · rename_i r hfind
    simp only [map_eq_some_iff, Prod.mk.injEq] at h
    obtain ⟨t', htenant, rfl, -, rfl⟩ := h
    have hrow := List.find?_some hfind
    simp only [and_eq_true, decide_eq_true_eq, not_eq_true'] at hrow
    exact ⟨(getTenant_spec htenant).1, r, mem_of_find?_eq_some hfind, rfl, hrow⟩
  · cases h

theorem lookupAPIKeyByPrefix_spec {key : APIKey}
    (h : lookupAPIKeyByPrefix st keyPrefix = some key) :
    ∃ r ∈ st.apiKeys, r.key = key ∧ key.keyPrefix = keyPrefix ∧ r.revoked = false := by
  simp only [lookupAPIKeyByPrefix, map_eq_some_iff] at h
  obtain ⟨r, hfind, rfl⟩ := h
  have hrow := List.find?_some hfind
  simp only [and_eq_true, decide_eq_true_eq, not_eq_true'] at hrow
  exact ⟨r, mem_of_find?_eq_some hfind, rfl, hrow⟩

/-! ## What is read from the store -/

theorem not_forbids_of_tenant {keyID : Option Int} (hforce : d.InForce st) (ht : t ∈ st.tenants)
    (henabled : t.enabled = true) (hkey : ∀ id, d = .tenantKey id → keyID ≠ some id) :
    ¬d.Forbids keyID t t.knownScope := by
  intro hforbids
  cases d with
  | tenantKey id => exact hkey id rfl hforbids
  | apiKey id => exact hforbids
  | tenant id =>
    have hdisabled := hforce t ht hforbids
    rw [henabled] at hdisabled
    cases hdisabled
  | contract tenantID contractID =>
    have hwildcard := hforce.1 t ht hforbids.1
    have hallows := hforbids.2
    simp [Tenant.knownScope, hwildcard, Scope.allows] at hallows

theorem not_forbids_of_lookup {key : TenantAPIKey} (hforce : d.InForce st)
    (h : lookupTenantAPIKey st keyPrefix = some (key, digest, t)) (henabled : t.enabled = true) :
    ¬d.Forbids (some key.id) t t.knownScope := by
  obtain ⟨ht, r, hr, rfl, _, hrevoked⟩ := lookupTenantAPIKey_spec h
  refine not_forbids_of_tenant hforce ht henabled ?_
  rintro id rfl hid
  have hforced := hforce r hr (Option.some.inj hid)
  rw [hrevoked] at hforced
  cases hforced

theorem not_forbids_of_scope {keyID : Option Int} (hforce : d.InForce st)
    (hknown : ¬d.Forbids keyID t t.knownScope) : ¬d.Forbids keyID t (scopeForTenant st t) := by
  intro hforbids
  cases d with
  | tenantKey id => exact hknown hforbids
  | apiKey id => exact hknown hforbids
  | tenant id => exact hknown hforbids
  | contract tenantID contractID =>
    obtain ⟨htenant, hallows⟩ := hforbids
    simp only [scopeForTenant] at hallows
    split at hallows
    · rename_i hwildcard
      exact hknown ⟨htenant, by simp [Tenant.knownScope, hwildcard, hallows]⟩
    · have hgrant := allows_newScope hallows
      simp only [listGrants, List.mem_map, List.mem_filter, decide_eq_true_eq] at hgrant
      obtain ⟨⟨tenantID', contractID'⟩, ⟨hmem, hid⟩, hcontract⟩ := hgrant
      refine hforce.2 ?_
      rw [← htenant, ← hcontract, ← hid]
      exact hmem

/-! ## Every key has one prefix -/

structure Names where
  tenantKey : Int → String
  nextTenantKeyID : Int
  apiKey : Int → String
  nextAPIKeyID : Int

namespace Names

def TenantKey (n : Names) (id : Int) (keyPrefix : String) : Prop :=
  id < n.nextTenantKeyID ∧ n.tenantKey id = keyPrefix

def APIKey (n : Names) (id : Int) (keyPrefix : String) : Prop :=
  id < n.nextAPIKeyID ∧ n.apiKey id = keyPrefix

structure Extends (n n' : Names) : Prop where
  tenantKey : ∀ id keyPrefix, n.TenantKey id keyPrefix → n'.TenantKey id keyPrefix
  apiKey : ∀ id keyPrefix, n.APIKey id keyPrefix → n'.APIKey id keyPrefix

theorem Extends.refl (n : Names) : n.Extends n := ⟨fun _ _ h => h, fun _ _ h => h⟩

def addTenantKey (n : Names) (keyPrefix : String) : Names :=
  { n with
    tenantKey := Function.update n.tenantKey n.nextTenantKeyID keyPrefix
    nextTenantKeyID := n.nextTenantKeyID + 1 }

def addAPIKey (n : Names) (keyPrefix : String) : Names :=
  { n with
    apiKey := Function.update n.apiKey n.nextAPIKeyID keyPrefix
    nextAPIKeyID := n.nextAPIKeyID + 1 }

theorem extends_addTenantKey (n : Names) (keyPrefix : String) :
    n.Extends (n.addTenantKey keyPrefix) where
  tenantKey id p h := by
    exact ⟨Int.lt_add_one_of_le (Int.le_of_lt h.1),
      (update_of_ne (Int.ne_of_lt h.1) ..).trans h.2⟩
  apiKey _ _ h := h

theorem extends_addAPIKey (n : Names) (keyPrefix : String) : n.Extends (n.addAPIKey keyPrefix) where
  tenantKey _ _ h := h
  apiKey id p h := by
    exact ⟨Int.lt_add_one_of_le (Int.le_of_lt h.1),
      (update_of_ne (Int.ne_of_lt h.1) ..).trans h.2⟩

end Names

structure StoreNamed (n : Names) (st : TenantStore) : Prop where
  nextTenantKeyID : n.nextTenantKeyID = st.nextTenantKeyID
  nextAPIKeyID : n.nextAPIKeyID = st.nextAPIKeyID
  tenantKeys : ∀ r ∈ st.tenantKeys, n.TenantKey r.key.id r.key.keyPrefix
  apiKeys : ∀ r ∈ st.apiKeys, n.APIKey r.key.id r.key.keyPrefix

structure CacheNamed (n : Names) (c : AuthCache) : Prop where
  indexed : Indexed c
  tenant : ∀ p e, c.tenantByPrefix p = some e → n.TenantKey e.key.id p
  single : ∀ p e, c.singleByPrefix p = some e → n.APIKey e.key.id p

def Phase.Named (n : Names) : Phase → Prop
  | .scopeLookup p _ key _ _ => n.TenantKey key.id key.keyPrefix ∧ key.keyPrefix = p.keyPrefix
  | .cachePut _ _ key _ _ _ => n.TenantKey key.id key.keyPrefix
  | .operatorPut _ _ key => n.APIKey key.id key.keyPrefix
  | _ => True

variable {n : Names}

theorem CacheNamed.extends {n' : Names} (h : CacheNamed n c) (hext : n.Extends n') :
    CacheNamed n' c :=
  ⟨h.indexed, fun p e he => hext.tenantKey _ _ (h.tenant p e he),
    fun p e he => hext.apiKey _ _ (h.single p e he)⟩

theorem CacheNamed.shrinks (h : CacheNamed n c) (hshrinks : Shrinks c c') (hindexed : Indexed c') :
    CacheNamed n c' :=
  ⟨hindexed, fun p e he => h.tenant p e (hshrinks.tenant p e he),
    fun p e he => h.single p e (hshrinks.single p e he)⟩

theorem Phase.Named.extends {n' : Names} (h : phase.Named n) (hext : n.Extends n') :
    phase.Named n' := by
  cases phase with
  | scopeLookup p now key digest tenant => exact ⟨hext.tenantKey _ _ h.1, h.2⟩
  | cachePut p now key digest tenant scope => exact hext.tenantKey _ _ h
  | operatorPut secret now key => exact hext.apiKey _ _ h
  | _ => exact trivial

theorem StoreNamed.keep (hst : StoreNamed n st)
    (htenantKeys : ∀ r ∈ st'.tenantKeys, ∃ r' ∈ st.tenantKeys,
      r'.key.id = r.key.id ∧ r'.key.keyPrefix = r.key.keyPrefix := by exact fun r hr => ⟨r, hr, rfl, rfl⟩)
    (hapiKeys : ∀ r ∈ st'.apiKeys, ∃ r' ∈ st.apiKeys,
      r'.key.id = r.key.id ∧ r'.key.keyPrefix = r.key.keyPrefix := by exact fun r hr => ⟨r, hr, rfl, rfl⟩)
    (hnext : st'.nextTenantKeyID = st.nextTenantKeyID ∧ st'.nextAPIKeyID = st.nextAPIKeyID := by
      exact ⟨rfl, rfl⟩) : ∃ n', n.Extends n' ∧ StoreNamed n' st' := by
  refine ⟨n, .refl n, hst.nextTenantKeyID.trans hnext.1.symm, hst.nextAPIKeyID.trans hnext.2.symm, ?_, ?_⟩
  · intro r hr
    obtain ⟨r', hr', hid, hprefix⟩ := htenantKeys r hr
    exact hid ▸ hprefix ▸ hst.tenantKeys r' hr'
  · intro r hr
    obtain ⟨r', hr', hid, hprefix⟩ := hapiKeys r hr
    exact hid ▸ hprefix ▸ hst.apiKeys r' hr'

theorem insertTenantKey_named {tenantID : Int} (hst : StoreNamed n st)
    (h : insertTenantKey st tenantID keyPrefix digest = .ok st') :
    ∃ n', n.Extends n' ∧ StoreNamed n' st' := by
  have hext := n.extends_addTenantKey keyPrefix
  simp only [insertTenantKey] at h
  split at h
  · cases h
  · cases h
    refine ⟨_, hext, by simp [Names.addTenantKey, hst.nextTenantKeyID], hst.nextAPIKeyID, ?_, hst.apiKeys⟩
    refine forall_mem_append (fun r hr => hext.tenantKey _ _ (hst.tenantKeys r hr)) ?_
    rw [← hst.nextTenantKeyID]
    exact ⟨Int.lt_succ _, update_self ..⟩

/-- A write keeps the ids and prefixes of keys, and gives a new key a new id. -/
theorem apply_named {w : Write} (hst : StoreNamed n st) (h : w.apply st = .ok st') :
    ∃ n', n.Extends n' ∧ StoreNamed n' st' := by
  cases w with
  | createTenant t =>
    simp only [Write.apply] at h
    split at h <;> cases h
    exact hst.keep
  | updateTenant t =>
    simp only [Write.apply] at h
    split at h
    · cases h
    · split at h <;> cases h
      exact hst.keep
  | deleteTenant id =>
    simp only [Write.apply] at h
    split at h <;> cases h
    exact hst.keep fun r hr => ⟨r, mem_of_mem_filter hr, rfl, rfl⟩
  | grantContract tenantID contractID =>
    simp only [Write.apply] at h
    split at h
    · cases h
    · split at h <;> cases h <;> exact hst.keep
  | revokeContract tenantID contractID =>
    cases h
    exact hst.keep
  | createTenantAPIKey tenantID keyPrefix digest =>
    simp only [Write.apply] at h
    split at h
    · cases h
    · exact insertTenantKey_named hst h
  | createTenantAPIKeyIfAbsent tenantID keyPrefix digest =>
    simp only [Write.apply] at h
    split at h
    · split at h <;> cases h
      refine hst.keep fun r hr => ?_
      obtain ⟨r', hr', rfl⟩ := List.mem_map.mp hr
      exact ⟨r', hr', by split <;> exact ⟨rfl, rfl⟩⟩
    · exact insertTenantKey_named hst h
  | revokeTenantAPIKey id =>
    simp only [Write.apply] at h
    split at h <;> cases h
    refine hst.keep fun r hr => ?_
    obtain ⟨r', hr', rfl⟩ := List.mem_map.mp hr
    exact ⟨r', hr', by split <;> exact ⟨rfl, rfl⟩⟩
  | createAPIKey keyPrefix keyHash =>
    have hext := n.extends_addAPIKey keyPrefix
    simp only [Write.apply] at h
    split at h <;> cases h
    refine ⟨n.addAPIKey keyPrefix, hext, hst.nextTenantKeyID,
      by simp [Names.addAPIKey, hst.nextAPIKeyID], hst.tenantKeys, ?_⟩
    refine forall_mem_append (fun r hr => hext.apiKey _ _ (hst.apiKeys r hr)) ?_
    rw [← hst.nextAPIKeyID]
    exact ⟨Int.lt_succ _, update_self ..⟩
  | revokeAPIKey id =>
    simp only [Write.apply] at h
    split at h <;> cases h
    refine hst.keep (fun r hr => ⟨r, hr, rfl, rfl⟩) fun r hr => ?_
    obtain ⟨r', hr', rfl⟩ := List.mem_map.mp hr
    exact ⟨r', hr', by split <;> exact ⟨rfl, rfl⟩⟩

/-! ## One step of an authentication -/

theorem presentKey_sound (d : Denial) (expectedTenantID : Option Int) (credential : Credential) :
    (presentKey expectedTenantID credential).Sound d := by
  cases credential <;> exact trivial

theorem certified_sound {credential : Credential} (hforce : d.InForce st) (ht : t ∈ st.tenants) :
    (certified server credential t).Sound d := by
  simp only [certified]
  split
  · exact trivial
  · rename_i henabled
    split
    · exact presentKey_sound ..
    · exact not_forbids_of_tenant hforce ht (by simpa using henabled) fun _ _ => nofun

theorem enterTenant_sound {publicPath : Bool} {certTenant : Option String}
    {credential : Credential} (hforce : d.InForce st) :
    (enterTenant server st ok publicPath certTenant credential).Sound d := by
  simp only [enterTenant]
  split
  · exact fun hbreaks => hbreaks
  · split
    · exact presentKey_sound ..
    · split
      · exact trivial
      · split
        · exact trivial
        · rename_i hname
          exact certified_sound hforce (getTenantByName_mem hname)

theorem checked_sound {p : Presented} {next : Phase}
    (hnext : tenant.enabled = true → next.Sound d) : (checked p digest tenant next).Sound d := by
  simp only [checked]
  split
  · exact trivial
  · split
    · exact trivial
    · rename_i henabled
      split
      · exact trivial
      · exact hnext (by simpa using henabled)

theorem verified_sound {secret : String} {key : APIKey} (hkey : d ≠ .apiKey key.id) :
    (verified server secret key).Sound d := by
  simp only [verified]
  split
  · exact hkey
  · exact trivial

theorem presentKey_named (n : Names) (expectedTenantID : Option Int) (credential : Credential) :
    (presentKey expectedTenantID credential).Named n := by
  cases credential <;> exact trivial

theorem enterTenant_named (n : Names) (server : Server) (st : TenantStore) (ok publicPath : Bool)
    (certTenant : Option String) (credential : Credential) :
    (enterTenant server st ok publicPath certTenant credential).Named n := by
  simp only [enterTenant, certified]
  split
  · exact trivial
  · split
    · exact presentKey_named ..
    · split
      · exact trivial
      · split
        · exact trivial
        · split
          · exact trivial
          · split
            · exact presentKey_named ..
            · exact trivial

theorem checked_named {p : Presented} {next : Phase} (hnext : next.Named n) :
    (checked p digest tenant next).Named n := by
  simp only [checked]
  repeat' split
  all_goals first | exact hnext | exact trivial

theorem verified_named (n : Names) (server : Server) (secret : String) (key : APIKey) :
    (verified server secret key).Named n := by
  simp only [verified]
  split <;> exact trivial

theorem Phase.Sound.clear (h : phase.Sound d) : phase.Clear d := by
  cases phase <;> first | exact h | exact trivial

structure CacheClear (d : Denial) (c : AuthCache) : Prop where
  tenant : ∀ p e, c.tenantByPrefix p = some e → ¬d.Forbids (some e.key.id) e.tenant e.scope
  single : ∀ p e, c.singleByPrefix p = some e → d ≠ .apiKey e.key.id

theorem CacheClear.shrinks (h : CacheClear d c) (hshrinks : Shrinks c c') : CacheClear d c' :=
  ⟨fun p e he => h.tenant p e (hshrinks.tenant p e he),
    fun p e he => h.single p e (hshrinks.single p e he)⟩

/-- What a step does to the cache: it drops entries, or it puts what the phase carries. -/
inductive CacheEffect (c : AuthCache) : Phase → AuthCache → Prop where
  | shrank {phase : Phase} {c' : AuthCache} (hshrinks : Shrinks c c')
      (hindexed : Indexed c → Indexed c') : CacheEffect c phase c'
  | putTenant {p : Presented} {now : Int} {key : TenantAPIKey} {digest : String} {tenant : Tenant}
      {scope : Scope} :
      CacheEffect c (.cachePut p now key digest tenant scope)
        (c.putTenantAuth key digest tenant scope now)
  | putSingle {secret : String} {now : Int} {key : APIKey} :
      CacheEffect c (.operatorPut secret now key) (c.putAPIKey key now)

theorem CacheEffect.same (c : AuthCache) (phase : Phase) : CacheEffect c phase c :=
  .shrank (.refl c) id

theorem CacheEffect.cacheClear (h : CacheEffect c phase c') (hcache : CacheClear d c)
    (hphase : 0 < c.ttl → phase.Clear d) : CacheClear d c' := by
  cases h with
  | shrank hshrinks _ => exact hcache.shrinks hshrinks
  | putTenant =>
    refine ⟨fun p e he => ?_, fun p e he => hcache.single p e ?_⟩
    · rcases putTenantAuth_entry he with hold | ⟨httl, -, rfl⟩
      · exact hcache.tenant p e hold
      · exact hphase httl
    · simp only [AuthCache.putTenantAuth] at he
      split at he <;> exact he
  | putSingle =>
    refine ⟨fun p e he => hcache.tenant p e ?_, fun p e he => ?_⟩
    · simp only [AuthCache.putAPIKey] at he
      split at he <;> exact he
    · rcases putAPIKey_entry he with hold | ⟨httl, -, rfl⟩
      · exact hcache.single p e hold
      · exact hphase httl

theorem CacheEffect.named (h : CacheEffect c phase c') (hcache : CacheNamed n c)
    (hphase : phase.Named n) : CacheNamed n c' := by
  cases h with
  | shrank hshrinks hindexed => exact hcache.shrinks hshrinks (hindexed hcache.indexed)
  | putTenant =>
    refine ⟨hcache.indexed.putTenantAuth fun q e he hid => ?_, fun q e he => ?_, fun q e he => ?_⟩
    · rw [← (hcache.tenant q e he).2, hid]
      exact hphase.2
    · rcases putTenantAuth_entry he with hold | ⟨-, rfl, rfl⟩
      · exact hcache.tenant q e hold
      · exact hphase
    · simp only [AuthCache.putTenantAuth] at he
      split at he <;> exact hcache.single q e he
  | putSingle =>
    refine ⟨hcache.indexed.putAPIKey fun q e he hid => ?_, fun q e he => ?_, fun q e he => ?_⟩
    · rw [← (hcache.single q e he).2, hid]
      exact hphase.2
    · simp only [AuthCache.putAPIKey] at he
      split at he <;> exact hcache.tenant q e he
    · rcases putAPIKey_entry he with hold | ⟨-, rfl, rfl⟩
      · exact hcache.single q e hold
      · exact hphase

structure Advanced (st : TenantStore) (c : AuthCache) (phase : Phase) (c' : AuthCache) (phase' : Phase) :
    Prop where
  cache : CacheEffect c phase c'
  sound : ∀ d : Denial, d.InForce st → CacheClear d c → phase.Sound d → phase'.Sound d
  named : ∀ n : Names, StoreNamed n st → phase.Named n → phase'.Named n

theorem Advanced.bare (hcache : CacheEffect c phase c' := by exact .same ..)
    (hsound : ∀ d, phase'.Sound d := by exact fun _ => trivial)
    (hnamed : ∀ n, phase'.Named n := by exact fun _ => trivial) : Advanced st c phase c' phase' :=
  ⟨hcache, fun d _ _ _ => hsound d, fun n _ _ => hnamed n⟩

theorem CacheEffect.getTenantAuth {now : Int} {e : Option CachedTenantAuth}
    (h : c.getTenantAuth keyPrefix now = (e, c')) : CacheEffect c phase c' := by
  have hc : (c.getTenantAuth keyPrefix now).2 = c' := congrArg Prod.snd h
  exact hc ▸ .shrank (getTenantAuth_shrinks ..) fun hindexed => hindexed.getTenantAuth ..

theorem CacheEffect.getAPIKey {now : Int} {key : Option APIKey}
    (h : c.getAPIKey keyPrefix now = (key, c')) : CacheEffect c phase c' := by
  have hc : (c.getAPIKey keyPrefix now).2 = c' := congrArg Prod.snd h
  exact hc ▸ .shrank (getAPIKey_shrinks ..) fun hindexed => hindexed.getAPIKey ..

theorem advance_spec {req : Request}
    (h : advance server st clock c req ok phase = some (c', phase')) : Advanced st c phase c' phase' := by
  cases phase with simp only [advance] at h
  | entered =>
    split at h <;> cases h
    · exact ⟨.same .., fun _ hforce _ _ => enterTenant_sound hforce, fun _ _ _ => enterTenant_named ..⟩
    · exact .bare
    · exact .bare
  | clock p | operatorClock keyPrefix secret =>
    cases h
    exact .bare
  | cacheLookup p now =>
    split at h <;> rename_i hget <;> cases h
    · exact .bare (.getTenantAuth hget)
    · have hentry := getTenantAuth_some (congrArg Prod.fst hget)
      exact ⟨.getTenantAuth hget, fun _ _ hcache _ => checked_sound fun _ => hcache.tenant _ _ hentry,
        fun _ _ _ => checked_named trivial⟩
  | storeLookup p now =>
    split at h
    · cases h
      exact .bare
    · split at h <;> rename_i hlookup <;> cases h
      · exact .bare
      · refine ⟨.same .., fun _ hforce _ _ => checked_sound (not_forbids_of_lookup hforce hlookup), ?_⟩
        intro n hst _
        obtain ⟨_, r, hr, rfl, hprefix, _⟩ := lookupTenantAPIKey_spec hlookup
        exact checked_named ⟨hst.tenantKeys r hr, hprefix⟩
  | scopeLookup p now key digest tenant =>
    split at h <;> cases h
    · exact .bare
    · refine ⟨.same .., fun d hforce _ hphase => ?_, fun n _ hphase => ?_⟩
      · have hscope : ¬d.Forbids (some key.id) tenant (scopeForTenant st tenant) :=
          not_forbids_of_scope hforce hphase
        split <;> exact hscope
      · -- an empty prefix is replaced by the presented one, which is the same
        have hsame :
            (if key.keyPrefix = "" then { key with keyPrefix := p.keyPrefix } else key) = key := by
          split
          · rw [← hphase.2]
          · rfl
        simp only [hsame]
        exact hphase.1
  | cachePut p now key digest tenant scope =>
    cases h
    exact ⟨.putTenant, fun _ _ _ hphase => hphase, fun _ _ _ => trivial⟩
  | certScope tenant =>
    split at h <;> cases h
    · exact .bare
    · exact ⟨.same .., fun _ hforce _ hphase => not_forbids_of_scope hforce hphase, fun _ _ _ => trivial⟩
  | operatorCache keyPrefix secret now =>
    split at h <;> rename_i hget <;> cases h
    · exact .bare (.getAPIKey hget)
    · obtain ⟨cachedAt, hentry⟩ := getAPIKey_some (congrArg Prod.fst hget)
      exact ⟨.getAPIKey hget, fun _ _ hcache _ => verified_sound (hcache.single _ _ hentry),
        fun _ _ _ => verified_named ..⟩
  | operatorStore keyPrefix secret now =>
    split at h
    · cases h
      exact .bare
    · split at h <;> rename_i hlookup <;> cases h
      · exact .bare
      · obtain ⟨r, hr, rfl, _, hrevoked⟩ := lookupAPIKeyByPrefix_spec hlookup
        refine ⟨.same .., ?_, fun n hst _ => hst.apiKeys r hr⟩
        rintro d hforce _ _ rfl
        exact absurd (hforce r hr rfl) (by simp [hrevoked])
  | operatorPut secret now key =>
    cases h
    exact ⟨.putSingle, fun _ _ _ hphase => verified_sound hphase, fun _ _ _ => verified_named ..⟩
  | rejected r | accepted a => cases h

theorem advance_clear {req : Request} (hforce : d.InForce st) (hcache : CacheClear d c)
    (hphase : phase.Clear d) (h : advance server st clock c req ok phase = some (c', phase')) :
    phase'.Clear d := by
  cases phase with
  | certScope tenant =>
    -- a certificate fills no cache
    simp only [advance] at h
    split at h <;> (cases h; exact trivial)
  | accepted a => cases h
  | _ => exact ((advance_spec h).sound d hforce hcache hphase).clear

/-! ## Every run -/

theorem writeStep_cases (server : Server) (st : TenantStore) (tenant : Tenant) (req : AdminRequest) :
    ((req.writeStep server st tenant).1 = st ∧
        ∃ status, (req.writeStep server st tenant).2 = .returned status) ∨
      ((req.plan tenant).1.apply st = .ok (req.writeStep server st tenant).1 ∧
        (req.writeStep server st tenant).2 = .written (req.plan tenant).2) := by
  simp only [AdminRequest.writeStep]
  split
  · exact .inl ⟨rfl, _, rfl⟩
  · split
    · rename_i happly
      exact .inr ⟨happly, rfl⟩
    · exact .inl ⟨rfl, _, rfl⟩

def InvalidationEvent.id : InvalidationEvent → Int
  | .tenant id => id
  | .apiKey id => id

def Admin.Positive (a : Admin) : Prop :=
  match a.phase with
  | .entered => True
  | .loaded tenant => 0 < tenant.id ∧ 0 < a.request.id
  | .written ev => 0 < ev.id
  | .returned _ => True

theorem plan_id_pos (hreq : 0 < req.id) (htenant : req.loadsTenant = true → 0 < tenant.id) :
    0 < (req.plan tenant).2.id := by
  cases req <;> first | exact htenant rfl | exact hreq

theorem writeStep_positive (hreq : 0 < req.id) (htenant : req.loadsTenant = true → 0 < tenant.id) :
    (Admin.mk req (req.writeStep server st tenant).2).Positive := by
  rcases writeStep_cases server st tenant req with ⟨_, status, hphase⟩ | ⟨_, hphase⟩
  · simp only [Admin.Positive, hphase]
  · simp only [Admin.Positive, hphase]
    exact plan_id_pos hreq htenant

theorem advanceAdmin_cases {phase phase' : AdminPhase}
    (h : advanceAdmin server st c req ok phase = some (st', c', phase')) :
    ((c' = c ∧ (st' = st ∨ ∃ w : Write, w.apply st = .ok st')) ∨
      (st' = st ∧ ∃ ev, phase = .written ev ∧ c' = applyInvalidation c ev)) ∧
    ((Admin.mk req phase).Positive → (Admin.mk req phase').Positive) := by
  have hwrite : ∀ tenant, (req.writeStep server st tenant).1 = st ∨
      ∃ w : Write, w.apply st = .ok (req.writeStep server st tenant).1 := by
    intro tenant
    rcases writeStep_cases server st tenant req with ⟨hst, _⟩ | ⟨happly, _⟩
    · exact .inl hst
    · exact .inr ⟨_, happly⟩
  cases phase with
  | entered =>
    simp only [advanceAdmin] at h
    split at h
    · cases h
      exact ⟨.inl ⟨rfl, .inl rfl⟩, fun _ => trivial⟩
    · rename_i hid
      have hreq : 0 < req.id := Int.not_le.mp hid
      split at h
      · cases h
        exact ⟨.inl ⟨rfl, .inl rfl⟩, fun _ => trivial⟩
      · split at h <;> rename_i hloads
        · split at h <;> rename_i hget <;> cases h
          · exact ⟨.inl ⟨rfl, .inl rfl⟩, fun _ => trivial⟩
          · exact ⟨.inl ⟨rfl, .inl rfl⟩, fun _ => ⟨(getTenant_spec hget).2 ▸ hreq, hreq⟩⟩
        · cases h
          exact ⟨.inl ⟨rfl, hwrite noTenant⟩,
            fun _ => writeStep_positive hreq fun hl => absurd hl hloads⟩
  | loaded tenant =>
    simp only [advanceAdmin] at h
    split at h <;> cases h
    · exact ⟨.inl ⟨rfl, .inl rfl⟩, fun _ => trivial⟩
    · exact ⟨.inl ⟨rfl, hwrite tenant⟩, fun hpos => writeStep_positive hpos.2 fun _ => hpos.1⟩
  | written ev =>
    cases h
    exact ⟨.inr ⟨rfl, ev, rfl, rfl⟩, fun _ => trivial⟩
  | returned status => cases h

theorem CacheEffect.ttl (h : CacheEffect c phase c') : c'.ttl = c.ttl := by
  cases h with
  | shrank hshrinks _ => exact hshrinks.ttl
  | putTenant =>
    simp only [AuthCache.putTenantAuth]
    split <;> rfl
  | putSingle =>
    simp only [AuthCache.putAPIKey]
    split <;> rfl

structure Consistent (ttl : Int) (n : Names) (s : State) : Prop where
  ttl : s.cache.ttl = ttl
  store : StoreNamed n s.store
  cache : CacheNamed n s.cache
  auths : ∀ a ∈ s.auths, a.phase.Named n
  admins : ∀ a ∈ s.admins, a.Positive

variable {ttl : Int}

theorem Consistent.write {w : Write} (hs : Consistent ttl n s) (h : w.apply s.store = .ok st) :
    ∃ n', Consistent ttl n' { s with store := st } := by
  obtain ⟨n', hext, hst⟩ := apply_named hs.store h
  exact ⟨n', hs.ttl, hst, hs.cache.extends hext, fun a ha => (hs.auths a ha).extends hext, hs.admins⟩

theorem Consistent.invalidate (hs : Consistent ttl n s) (ev : InvalidationEvent) :
    Consistent ttl n { s with cache := applyInvalidation s.cache ev } :=
  have hshrinks := applyInvalidation_shrinks _ ev
  ⟨hshrinks.ttl.trans hs.ttl, hs.store, hs.cache.shrinks hshrinks (hs.cache.indexed.applyInvalidation ev),
    hs.auths, hs.admins⟩

theorem consistent_step {s' : State} {m : Move} (hs : ∃ n, Consistent ttl n s)
    (h : step server s m = some s') : ∃ n, Consistent ttl n s' := by
  obtain ⟨n, hs⟩ := hs
  cases m with
  | request r =>
    cases h
    exact ⟨n, { hs with auths := forall_mem_append hs.auths trivial }⟩
  | auth i ok =>
    simp only [step] at h
    split at h
    · cases h
    · rename_i a hget
      simp only [map_eq_some_iff] at h
      obtain ⟨⟨c', phase'⟩, hadvance, rfl⟩ := h
      have hspec := advance_spec hadvance
      have hphase := hs.auths a (mem_of_getElem? hget)
      exact ⟨n, hspec.cache.ttl.trans hs.ttl, hs.store, hspec.cache.named hs.cache hphase,
        forall_mem_set hs.auths (hspec.named n hs.store hphase), hs.admins⟩
  | admin r =>
    cases h
    exact ⟨n, { hs with admins := forall_mem_append hs.admins trivial }⟩
  | adminStep j ok =>
    simp only [step] at h
    split at h
    · cases h
    · rename_i a hget
      simp only [map_eq_some_iff] at h
      obtain ⟨⟨st', c', phase'⟩, hadvance, rfl⟩ := h
      obtain ⟨hcases, hpos⟩ := advanceAdmin_cases hadvance
      have hadmins : ∀ b ∈ s.admins.set j { a with phase := phase' }, b.Positive :=
        forall_mem_set hs.admins (hpos (hs.admins a (mem_of_getElem? hget)))
      rcases hcases with ⟨rfl, rfl | ⟨w, hw⟩⟩ | ⟨rfl, ev, -, rfl⟩
      · exact ⟨n, { hs with admins := hadmins }⟩
      · obtain ⟨n', hs'⟩ := hs.write hw
        exact ⟨n', { hs' with admins := hadmins }⟩
      · exact ⟨n, { hs.invalidate ev with admins := hadmins }⟩
  | write w =>
    simp only [step] at h
    split at h <;> rename_i hw <;> cases h
    · exact hs.write hw
    · exact ⟨n, hs⟩
  | remoteInvalidation ev =>
    cases h
    exact ⟨n, hs.invalidate ev⟩
  | invalidationReconnect =>
    cases h
    exact ⟨n, { hs with cache := hs.cache.shrinks (shrinks_clear _) (.new _) }⟩
  | tick seconds =>
    cases h
    exact ⟨n, { hs with }⟩

theorem consistent_init (ttl : Int) : ∃ n, Consistent ttl n (.init ttl) :=
  ⟨⟨fun _ => "", 1, fun _ => "", 1⟩, rfl,
    ⟨rfl, rfl, (fun _ hr => nomatch hr), (fun _ hr => nomatch hr)⟩,
    ⟨.new ttl, (fun _ _ he => nomatch he), (fun _ _ he => nomatch he)⟩,
    (fun _ ha => nomatch ha), (fun _ ha => nomatch ha)⟩

theorem advanceAdmin_shrinks {phase phase' : AdminPhase}
    (h : advanceAdmin server st c req ok phase = some (st', c', phase')) : Shrinks c c' := by
  rcases (advanceAdmin_cases h).1 with ⟨rfl, -⟩ | ⟨-, ev, -, rfl⟩
  · exact .refl _
  · exact applyInvalidation_shrinks _ ev

/-! ## After an invalidation -/

/-- A denial is enforced: the cache and all that may fill it are clear of it, and so is every
authentication from the `k`-th on. -/
structure Enforced (d : Denial) (k : Nat) (s : State) : Prop where
  cache : CacheClear d s.cache
  fills : 0 < s.cache.ttl → ∀ a ∈ s.auths, a.phase.Clear d
  later : ∀ i a, k ≤ i → s.auths[i]? = some a → a.phase.Sound d

theorem applyInvalidation_cacheClear {ev : InvalidationEvent} (h : Indexed c)
    (hev : d.InvalidatedBy ev) (hpos : 0 < ev.id) : CacheClear d (applyInvalidation c ev) := by
  cases ev with
  | tenant id =>
    have hid : ¬id ≤ 0 := Int.not_le.mpr hpos
    rw [applyInvalidation, if_neg hid]
    cases d with
    | tenantKey key => cases hev
    | apiKey key => cases hev
    | tenant tenantID =>
      cases hev
      exact ⟨fun p e he => (invalidateTenant_entry h he).2, fun _ _ _ h => by cases h⟩
    | contract tenantID contractID =>
      cases hev
      exact ⟨fun p e he hforbids => (invalidateTenant_entry h he).2 hforbids.1, fun _ _ _ h => by cases h⟩
  | apiKey id =>
    have hid : ¬id ≤ 0 := Int.not_le.mpr hpos
    rw [applyInvalidation, if_neg hid]
    have htenant : ∀ p e, (c.invalidateAPIKey id).tenantByPrefix p = some e → e.key.id ≠ id := by
      intro p e he
      rw [AuthCache.invalidateAPIKey, (invalidateSingleKey_shrinks _ id).1] at he
      exact (invalidateTenantKey_entry h he).2
    have hsingle : ∀ p e, (c.invalidateAPIKey id).singleByPrefix p = some e → e.key.id ≠ id :=
      fun p e he => (invalidateSingleKey_entry (h.invalidateTenantKey id) he).2
    cases d with
    | tenantKey key =>
      cases hev
      exact ⟨fun p e he hforbids => htenant p e he (Option.some.inj hforbids), fun _ _ _ h => by cases h⟩
    | apiKey key =>
      cases hev
      exact ⟨fun _ _ _ hforbids => hforbids,
        fun p e he heq => hsingle p e he (Denial.apiKey.inj heq).symm⟩
    | tenant tenantID => cases hev
    | contract tenantID contractID => cases hev

theorem Enforced.shrinks {k : Nat} (hs : Enforced d k s) (hshrinks : Shrinks s.cache c) :
    Enforced d k { s with cache := c } :=
  ⟨hs.cache.shrinks hshrinks, fun httl => hs.fills (hshrinks.ttl ▸ httl), hs.later⟩

theorem enforced_step {k : Nat} {s' : State} {m : Move} (hforce : d.InForce s.store)
    (hs : Enforced d k s) (h : step server s m = some s') :
    Enforced d k s' := by
  cases m with
  | request r =>
    cases h
    refine ⟨hs.cache, fun httl => forall_mem_append (hs.fills httl) trivial, ?_⟩
    intro i a hi hget
    rcases Steps.getElem?_append_cases hget with ⟨-, rfl⟩ | hget
    · exact trivial
    · exact hs.later i a hi hget
  | auth i ok =>
    simp only [step] at h
    split at h
    · cases h
    · rename_i a hget
      simp only [map_eq_some_iff] at h
      obtain ⟨⟨c', phase'⟩, hadvance, rfl⟩ := h
      have hmem := mem_of_getElem? hget
      have hspec := advance_spec hadvance
      refine ⟨hspec.cache.cacheClear hs.cache fun httl => hs.fills httl a hmem, ?_, ?_⟩
      · intro httl
        rw [hspec.cache.ttl] at httl
        exact forall_mem_set (hs.fills httl)
          (advance_clear hforce hs.cache (hs.fills httl a hmem) hadvance)
      · intro j b hj hb
        rcases Steps.getElem?_set_cases hb with ⟨rfl, rfl⟩ | ⟨-, hb⟩
        · exact hspec.sound d hforce hs.cache (hs.later j a hj hget)
        · exact hs.later j b hj hb
  | admin r =>
    cases h
    exact ⟨hs.cache, hs.fills, hs.later⟩
  | adminStep j ok =>
    simp only [step] at h
    split at h
    · cases h
    · simp only [map_eq_some_iff] at h
      obtain ⟨⟨st', c', phase'⟩, hadvance, rfl⟩ := h
      have hs' := hs.shrinks (advanceAdmin_shrinks hadvance)
      exact ⟨hs'.cache, hs'.fills, hs'.later⟩
  | write w =>
    simp only [step] at h
    split at h <;> (cases h; exact ⟨hs.cache, hs.fills, hs.later⟩)
  | remoteInvalidation ev =>
    cases h
    exact hs.shrinks (applyInvalidation_shrinks _ ev)
  | invalidationReconnect =>
    cases h
    exact hs.shrinks (shrinks_clear _)
  | tick seconds =>
    cases h
    exact ⟨hs.cache, hs.fills, hs.later⟩

/-- Once the invalidation of a revocation has returned, no authentication that starts afterwards is
accepted with what was revoked, as long as it stays revoked: provided the cache is off, or no
authentication was about to fill it with what was read before the write. -/
theorem revocation_is_immediate (server : Server) (ttl : Int) (ms₀ ms₁ : List Move)
    (s₀ s₁ s₂ : State) (j : Nat) (req : AdminRequest) (ev : InvalidationEvent) (d : Denial)
    (hrun₀ : Steps.run (step server) (.init ttl) ms₀ = some s₀)
    (hwritten : s₀.admins[j]? = some ⟨req, .written ev⟩) (hev : d.InvalidatedBy ev)
    (hstep : step server s₀ (.adminStep j true) = some s₁)
    (hrun₁ : Steps.run (step server) s₁ ms₁ = some s₂)
    (hforce : Steps.Along (step server) (fun s _ => d.InForce s.store) s₁ ms₁)
    (hfills : ttl ≤ 0 ∨ ∀ a ∈ s₀.auths, a.phase.Clear d) :
    ∀ i a access, s₁.auths.length ≤ i → s₂.auths[i]? = some a → a.phase = .accepted access →
      ¬d.Breaks access := by
  obtain ⟨n, hconsistent⟩ : ∃ n, Consistent ttl n s₀ :=
    run_keeps (fun _ _ _ => consistent_step)
      (consistent_init ttl) hrun₀
  have hpos : 0 < ev.id := hconsistent.admins _ (mem_of_getElem? hwritten)
  have hsame : s₁.auths = s₀.auths ∧ s₁.cache = applyInvalidation s₀.cache ev := by
    simp only [step, hwritten, advanceAdmin, map_some, Option.some.injEq] at hstep
    rw [← hstep]
    exact ⟨rfl, rfl⟩
  have henforced : Enforced d s₁.auths.length s₁ := by
    refine ⟨?_, fun hon => ?_, fun i a hi hget => ?_⟩
    · rw [hsame.2]
      exact applyInvalidation_cacheClear hconsistent.cache.indexed hev hpos
    · rw [hsame.2, (applyInvalidation_shrinks _ ev).ttl, hconsistent.ttl] at hon
      rw [hsame.1]
      exact hfills.resolve_left (Int.not_le.mpr hon)
    · rw [List.getElem?_eq_none hi] at hget
      cases hget
  have hend : Enforced d s₁.auths.length s₂ :=
    hforce.invariant (fun s _ _ hforced hs h => enforced_step hforced hs h) henforced hrun₁
  intro i a access hi hget haccepted
  have hsound := hend.later i a hi hget
  rw [haccepted] at hsound
  exact hsound

def demoServer : Server where
  multiTenant := true
  apiKeyAuth := false
  verifySecret := fun secret hash => decide (secret = hash)
  validContractID := fun _ => true

def demoKey : Request := .tenant false none (.key "K" "digest")

def demoSetup : List Move :=
  [.write (.createTenant ⟨0, "acme", true, true⟩), .write (.createTenantAPIKey 1 "K" "digest")]

def missed (i : Nat) : List Move := List.replicate 6 (.auth i true)

def hit (i : Nat) : List Move := List.replicate 3 (.auth i true)

def revokeInTurn : List Move :=
  demoSetup ++ .request demoKey :: missed 0 ++ [.admin (.revokeTenantKey 1), .adminStep 0 true]

theorem revocation_is_immediate_inTurn :
    ∃ s₀ s₁ s₂, Steps.run (step demoServer) (.init 5) revokeInTurn = some s₀ ∧
      step demoServer s₀ (.adminStep 0 true) = some s₁ ∧
      Steps.run (step demoServer) s₁ (.request demoKey :: List.replicate 4 (.auth 1 true)) = some s₂ ∧
      s₂.auths[1]? = some ⟨demoKey, .rejected ⟨401, "unknown or revoked API key"⟩⟩ ∧
      ∀ i a access, s₁.auths.length ≤ i → s₂.auths[i]? = some a → a.phase = .accepted access →
        ¬(Denial.tenantKey 1).Breaks access := by
  refine ⟨_, _, _, rfl, rfl, rfl, rfl, ?_⟩
  exact revocation_is_immediate demoServer 5 revokeInTurn
    (.request demoKey :: List.replicate 4 (.auth 1 true)) _ _ _ 0 (.revokeTenantKey 1) (.apiKey 1)
    (.tenantKey 1) rfl rfl rfl rfl rfl (Steps.Along.of_check (by decide)) (.inr (by decide))

/-- A lookup that read the key before the write fills the cache after the invalidation: a request
that starts later is accepted with the revoked key. -/
theorem revoked_key_accepted :
    ∃ s₀ s₁ s₂ p, Steps.run (step demoServer) (.init 5)
        (demoSetup ++ .request demoKey :: List.replicate 4 (.auth 0 true) ++
          [.admin (.revokeTenantKey 1), .adminStep 0 true]) = some s₀ ∧
      step demoServer s₀ (.adminStep 0 true) = some s₁ ∧
      Steps.run (step demoServer) s₁
        (List.replicate 2 (.auth 0 true) ++ .request demoKey :: hit 1) = some s₂ ∧
      s₁.auths.length = 1 ∧ (Denial.tenantKey 1).InForce s₁.store ∧ s₂.store = s₁.store ∧
      s₂.auths[1]? = some ⟨demoKey, .accepted (.principal p)⟩ ∧ p.keyID = some 1 := by
  exact ⟨_, _, _, _, rfl, rfl, rfl, rfl, by decide, rfl, rfl, rfl⟩

/-- In every reachable state an invalidation leaves nothing in the cache that it denies. -/
theorem invalidation_clears_cache (server : Server) (ttl : Int) (ms : List Move) (s : State)
    (hrun : Steps.run (step server) (.init ttl) ms = some s) (d : Denial) (ev : InvalidationEvent)
    (hev : d.InvalidatedBy ev) (hpos : 0 < ev.id) : CacheClear d (applyInvalidation s.cache ev) := by
  obtain ⟨n, hs⟩ := run_keeps (fun _ _ _ => consistent_step) (consistent_init ttl) hrun
  exact applyInvalidation_cacheClear hs.cache.indexed hev hpos

theorem invalidation_clears_cache_inTurn :
    ∃ s, Steps.run (step demoServer) (.init 5) revokeInTurn = some s ∧
      CacheClear (.tenantKey 1) (applyInvalidation s.cache (.apiKey 1)) :=
  ⟨_, rfl, invalidation_clears_cache demoServer 5 revokeInTurn _ rfl _ (.apiKey 1) rfl (by decide)⟩

end SoroTrail.Api.Auth
