import Mathlib.Data.List.Dedup
import Mathlib.Data.List.Sort
import SoroTrail.Store.Query

/-!
# Credentials and their cache

The tables `authenticate` and `requireAPIKey` read, with the writes of the
administrative handlers, and `AuthCache`, the in-memory cache in front of them.
The cache keeps its entries by key prefix and, to evict them, two indices: the
prefixes of each tenant and the prefix of each key.
-/

set_option autoImplicit false

namespace SoroTrail.Api.Auth

open Store List

/-! ## The store -/

structure Tenant where
  id : Int
  name : String
  wildcard : Bool
  enabled : Bool
  deriving DecidableEq, Repr

structure TenantAPIKey where
  id : Int
  tenantID : Int
  keyPrefix : String
  deriving DecidableEq, Repr

structure APIKey where
  id : Int
  keyPrefix : String
  keyHash : String
  deriving DecidableEq, Repr

structure TenantKeyRow where
  key : TenantAPIKey
  digest : String
  revoked : Bool
  deriving DecidableEq, Repr

structure APIKeyRow where
  key : APIKey
  revoked : Bool
  deriving DecidableEq, Repr

structure TenantStore where
  tenants : List Tenant
  grants : List (Int × String)
  tenantKeys : List TenantKeyRow
  apiKeys : List APIKeyRow
  nextTenantID : Int
  nextTenantKeyID : Int
  nextAPIKeyID : Int
  deriving DecidableEq, Repr

def TenantStore.empty : TenantStore where
  tenants := []
  grants := []
  tenantKeys := []
  apiKeys := []
  nextTenantID := 1
  nextTenantKeyID := 1
  nextAPIKeyID := 1

inductive StoreError where
  | notFound
  | duplicate
  | foreignKey
  deriving DecidableEq, Repr

def getTenant (st : TenantStore) (id : Int) : Option Tenant :=
  st.tenants.find? fun t => decide (t.id = id)

def getTenantByName (st : TenantStore) (name : String) : Option Tenant :=
  st.tenants.find? fun t => decide (t.name = name)

def lookupTenantAPIKey (st : TenantStore) (keyPrefix : String) :
    Option (TenantAPIKey × String × Tenant) :=
  match st.tenantKeys.find? fun r => decide (r.key.keyPrefix = keyPrefix) && !r.revoked with
  | some r => (getTenant st r.key.tenantID).map fun t => (r.key, r.digest, t)
  | none => none

def lookupAPIKeyByPrefix (st : TenantStore) (keyPrefix : String) : Option APIKey :=
  (st.apiKeys.find? fun r => decide (r.key.keyPrefix = keyPrefix) && !r.revoked).map APIKeyRow.key

def wildcardScope : Scope := ⟨true, []⟩

def newScope (contractIDs : List String) : Scope :=
  ⟨false, ((contractIDs.filter fun id => decide (id ≠ "")).dedup).insertionSort (· ≤ ·)⟩

def listGrants (st : TenantStore) (tenantID : Int) : List String :=
  (st.grants.filter fun g => decide (g.1 = tenantID)).map Prod.snd

def scopeForTenant (st : TenantStore) (t : Tenant) : Scope :=
  if t.wildcard then wildcardScope else newScope (listGrants st t.id)

inductive Write where
  | createTenant (t : Tenant)
  | updateTenant (t : Tenant)
  | deleteTenant (id : Int)
  | grantContract (tenantID : Int) (contractID : String)
  | revokeContract (tenantID : Int) (contractID : String)
  | createTenantAPIKey (tenantID : Int) (keyPrefix digest : String)
  | createTenantAPIKeyIfAbsent (tenantID : Int) (keyPrefix digest : String)
  | revokeTenantAPIKey (id : Int)
  | createAPIKey (keyPrefix keyHash : String)
  | revokeAPIKey (id : Int)
  deriving DecidableEq, Repr

def nameTaken (st : TenantStore) (t : Tenant) : Bool :=
  st.tenants.any fun o => decide (o.name = t.name) && decide (o.id ≠ t.id)

def insertTenantKey (st : TenantStore) (tenantID : Int) (keyPrefix digest : String) :
    Except StoreError TenantStore :=
  if (getTenant st tenantID).isNone then .error .foreignKey
  else
    .ok { st with
      tenantKeys := st.tenantKeys ++ [⟨⟨st.nextTenantKeyID, tenantID, keyPrefix⟩, digest, false⟩]
      nextTenantKeyID := st.nextTenantKeyID + 1 }

instance (st : TenantStore) (grant : Int × String) : Decidable (grant ∈ st.grants) :=
  List.instDecidableMemOfLawfulBEq _ _

def Write.apply (st : TenantStore) : Write → Except StoreError TenantStore
  | .createTenant t =>
    if st.tenants.any fun o => decide (o.name = t.name) then .error .duplicate
    else
      .ok { st with
        tenants := st.tenants ++ [{ t with id := st.nextTenantID }]
        nextTenantID := st.nextTenantID + 1 }
  | .updateTenant t =>
    if (getTenant st t.id).isNone then .error .notFound
    else if nameTaken st t then .error .duplicate
    else .ok { st with tenants := st.tenants.map fun o => if o.id = t.id then t else o }
  | .deleteTenant id =>
    if (getTenant st id).isNone then .error .notFound
    else
      .ok { st with
        tenants := st.tenants.filter fun t => decide (t.id ≠ id)
        grants := st.grants.filter fun g => decide (g.1 ≠ id)
        tenantKeys := st.tenantKeys.filter fun r => decide (r.key.tenantID ≠ id) }
  | .grantContract tenantID contractID =>
    if (getTenant st tenantID).isNone then .error .foreignKey
    else if (tenantID, contractID) ∈ st.grants then .ok st
    else .ok { st with grants := st.grants ++ [(tenantID, contractID)] }
  | .revokeContract tenantID contractID =>
    .ok { st with grants := st.grants.filter fun g => decide (g ≠ (tenantID, contractID)) }
  | .createTenantAPIKey tenantID keyPrefix digest =>
    if st.tenantKeys.any fun r => decide (r.key.keyPrefix = keyPrefix) then .error .duplicate
    else insertTenantKey st tenantID keyPrefix digest
  | .createTenantAPIKeyIfAbsent tenantID keyPrefix digest =>
    if st.tenantKeys.any fun r => decide (r.key.keyPrefix = keyPrefix) then
      if (getTenant st tenantID).isNone then .error .foreignKey
      else
        .ok { st with
          tenantKeys := st.tenantKeys.map fun r =>
            if r.key.keyPrefix = keyPrefix then
              { key := { r.key with tenantID := tenantID }, digest := digest, revoked := false }
            else r }
    else insertTenantKey st tenantID keyPrefix digest
  | .revokeTenantAPIKey id =>
    if st.tenantKeys.any fun r => decide (r.key.id = id) && !r.revoked then
      .ok { st with
        tenantKeys := st.tenantKeys.map fun r => if r.key.id = id then { r with revoked := true } else r }
    else .error .notFound
  | .createAPIKey keyPrefix keyHash =>
    if st.apiKeys.any fun r => decide (r.key.keyPrefix = keyPrefix) then .error .duplicate
    else
      .ok { st with
        apiKeys := st.apiKeys ++ [⟨⟨st.nextAPIKeyID, keyPrefix, keyHash⟩, false⟩]
        nextAPIKeyID := st.nextAPIKeyID + 1 }
  | .revokeAPIKey id =>
    if st.apiKeys.any fun r => decide (r.key.id = id) then
      .ok { st with
        apiKeys := st.apiKeys.map fun r => if r.key.id = id then { r with revoked := true } else r }
    else .error .notFound

/-! ## The cache -/

structure CachedTenantAuth where
  key : TenantAPIKey
  digest : String
  tenant : Tenant
  scope : Scope
  cachedAt : Int
  deriving DecidableEq, Repr

structure CachedSingleAPIKey where
  key : APIKey
  cachedAt : Int
  deriving DecidableEq, Repr

structure AuthCache where
  ttl : Int
  tenantByPrefix : String → Option CachedTenantAuth
  prefixesByTenant : Int → Option (List String)
  prefixByTenantKeyID : Int → Option String
  singleByPrefix : String → Option CachedSingleAPIKey
  prefixBySingleKeyID : Int → Option String

def newAuthCache (ttl : Int) : AuthCache where
  ttl := ttl
  tenantByPrefix _ := none
  prefixesByTenant _ := none
  prefixByTenantKeyID _ := none
  singleByPrefix _ := none
  prefixBySingleKeyID _ := none

open Function (update)

namespace AuthCache

def deleteTenantPrefixLocked (c : AuthCache) (keyPrefix : String) (tenantID keyID : Int) : AuthCache :=
  { c with
    tenantByPrefix := update c.tenantByPrefix keyPrefix none
    prefixByTenantKeyID := update c.prefixByTenantKeyID keyID none
    prefixesByTenant :=
      match c.prefixesByTenant tenantID with
      | none => c.prefixesByTenant
      | some pset =>
        update c.prefixesByTenant tenantID
          (if pset.filter (fun p => decide (p ≠ keyPrefix)) = [] then none
           else some (pset.filter fun p => decide (p ≠ keyPrefix))) }

def getTenantAuth (c : AuthCache) (keyPrefix : String) (now : Int) :
    Option CachedTenantAuth × AuthCache :=
  if c.ttl ≤ 0 then (none, c)
  else
    match c.tenantByPrefix keyPrefix with
    | none => (none, c)
    | some entry =>
      if c.ttl ≤ now - entry.cachedAt then
        (none, c.deleteTenantPrefixLocked keyPrefix entry.tenant.id entry.key.id)
      else (some entry, c)

def putTenantAuth (c : AuthCache) (key : TenantAPIKey) (digest : String) (tenant : Tenant)
    (scope : Scope) (now : Int) : AuthCache :=
  if c.ttl ≤ 0 then c
  else
    { c with
      tenantByPrefix := update c.tenantByPrefix key.keyPrefix (some ⟨key, digest, tenant, scope, now⟩)
      prefixesByTenant :=
        update c.prefixesByTenant tenant.id
          (some (((c.prefixesByTenant tenant.id).getD []).insert key.keyPrefix))
      prefixByTenantKeyID := update c.prefixByTenantKeyID key.id (some key.keyPrefix) }

def getAPIKey (c : AuthCache) (keyPrefix : String) (now : Int) : Option APIKey × AuthCache :=
  if c.ttl ≤ 0 then (none, c)
  else
    match c.singleByPrefix keyPrefix with
    | none => (none, c)
    | some entry =>
      if c.ttl ≤ now - entry.cachedAt then
        (none, { c with
          singleByPrefix := update c.singleByPrefix keyPrefix none
          prefixBySingleKeyID := update c.prefixBySingleKeyID entry.key.id none })
      else (some entry.key, c)

def putAPIKey (c : AuthCache) (key : APIKey) (now : Int) : AuthCache :=
  if c.ttl ≤ 0 then c
  else
    { c with
      singleByPrefix := update c.singleByPrefix key.keyPrefix (some ⟨key, now⟩)
      prefixBySingleKeyID := update c.prefixBySingleKeyID key.id (some key.keyPrefix) }

def evict (c : AuthCache) (keyPrefix : String) : AuthCache :=
  match c.tenantByPrefix keyPrefix with
  | none => c
  | some entry =>
    { c with
      prefixByTenantKeyID := update c.prefixByTenantKeyID entry.key.id none
      tenantByPrefix := update c.tenantByPrefix keyPrefix none }

def invalidateTenant (c : AuthCache) (tenantID : Int) : AuthCache :=
  match c.prefixesByTenant tenantID with
  | none => c
  | some pset =>
    let evicted := pset.foldl evict c
    { evicted with prefixesByTenant := update evicted.prefixesByTenant tenantID none }

def invalidateTenantKey (c : AuthCache) (keyID : Int) : AuthCache :=
  match c.prefixByTenantKeyID keyID with
  | none => c
  | some keyPrefix =>
    match c.tenantByPrefix keyPrefix with
    | some entry => c.deleteTenantPrefixLocked keyPrefix entry.tenant.id keyID
    | none => { c with prefixByTenantKeyID := update c.prefixByTenantKeyID keyID none }

def invalidateSingleKey (c : AuthCache) (keyID : Int) : AuthCache :=
  match c.prefixBySingleKeyID keyID with
  | none => c
  | some keyPrefix =>
    { c with
      singleByPrefix := update c.singleByPrefix keyPrefix none
      prefixBySingleKeyID := update c.prefixBySingleKeyID keyID none }

def invalidateAPIKey (c : AuthCache) (keyID : Int) : AuthCache :=
  (c.invalidateTenantKey keyID).invalidateSingleKey keyID

def clear (c : AuthCache) : AuthCache := newAuthCache c.ttl

def setTTL (c : AuthCache) (ttl : Int) : AuthCache :=
  if ttl ≤ 0 then newAuthCache ttl else { c with ttl := ttl }

end AuthCache

/-- The two kinds of `InvalidationEvent` that reach the cache. -/
inductive InvalidationEvent where
  | tenant (id : Int)
  | apiKey (id : Int)
  deriving DecidableEq, Repr

def applyInvalidation (c : AuthCache) : InvalidationEvent → AuthCache
  | .tenant id => if id ≤ 0 then c else c.invalidateTenant id
  | .apiKey id => if id ≤ 0 then c else c.invalidateAPIKey id

theorem allows_newScope {ids : List String} {c : String} (h : (newScope ids).allows c = true) :
    c ∈ ids := by
  simp only [newScope, Scope.allows, Bool.false_or, decide_eq_true_eq, mem_insertionSort,
    mem_dedup, mem_filter] at h
  exact h.1

/-! ## The indices -/

section Maps

variable {α β κ : Type} {f : α → Option β} {a x : α} {y z : β} {key : β → κ} {index : κ → Option α} {k : κ}

/-- Every entry of the first map is an entry of the second. -/
def Within (f g : α → Option β) : Prop := ∀ x y, f x = some y → g x = some y

/-- Every entry is found through the index by its key. -/
def Keyed (key : β → κ) (f : α → Option β) (index : κ → Option α) : Prop :=
  ∀ x y, f x = some y → index (key y) = some x

theorem Keyed.eq (h : Keyed key f index) (hindex : index k = some a) (hx : f x = some y)
    (hkey : key y = k) : x = a := by
  have hfound := h x y hx
  rw [hkey, hindex] at hfound
  exact (Option.some.inj hfound).symm

theorem Keyed.ne (h : Keyed key f index) (hindex : index k = none) (hx : f x = some y) : key y ≠ k := by
  intro hkey
  have hfound := h x y hx
  rw [hkey, hindex] at hfound
  cases hfound

variable [DecidableEq α] [DecidableEq κ]

theorem update_none_eq_some : update f a none x = some y ↔ x ≠ a ∧ f x = some y := by
  rw [Function.update_apply]
  split <;> simp_all

theorem Within.drop : Within (update f a none) f :=
  fun _ _ h => (update_none_eq_some.mp h).2

theorem update_some_eq_some (h : update f a (some z) x = some y) : f x = some y ∨ x = a ∧ y = z := by
  rw [Function.update_apply] at h
  split at h
  · exact .inr ⟨‹_›, (Option.some.inj h).symm⟩
  · exact .inl h

theorem Keyed.drop (h : Keyed key f index) (hindex : index k = some a) :
    Keyed key (update f a none) (update index k none) := by
  intro x y hx
  obtain ⟨hne, hx⟩ := update_none_eq_some.mp hx
  exact update_none_eq_some.mpr ⟨fun hkey => hne (h.eq hindex hx hkey), h x y hx⟩

theorem Keyed.put (h : Keyed key f index) (hone : ∀ x y, f x = some y → key y = key z → x = a) :
    Keyed key (update f a (some z)) (update index (key z) (some a)) := by
  intro x y hx
  rw [Function.update_apply] at hx ⊢
  split at hx
  · rename_i hxa
    rw [← Option.some.inj hx, if_pos rfl, hxa]
  · rename_i hxa
    rw [if_neg fun hkey => hxa (hone x y hx hkey), h x y hx]

end Maps

/-- Every entry is found through both indices. -/
structure Indexed (c : AuthCache) : Prop where
  byTenant : ∀ p e, c.tenantByPrefix p = some e →
    ∃ pset, c.prefixesByTenant e.tenant.id = some pset ∧ p ∈ pset
  byKey : Keyed (fun e : CachedTenantAuth => e.key.id) c.tenantByPrefix c.prefixByTenantKeyID
  single : Keyed (fun e : CachedSingleAPIKey => e.key.id) c.singleByPrefix c.prefixBySingleKeyID

structure Shrinks (c c' : AuthCache) : Prop where
  ttl : c'.ttl = c.ttl
  tenant : Within c'.tenantByPrefix c.tenantByPrefix
  single : Within c'.singleByPrefix c.singleByPrefix
  prefixes : ∀ t pset', c'.prefixesByTenant t = some pset' →
    ∃ pset, c.prefixesByTenant t = some pset ∧ pset' ⊆ pset
  keys : Within c'.prefixByTenantKeyID c.prefixByTenantKeyID
  singleKeys : Within c'.prefixBySingleKeyID c.prefixBySingleKeyID

variable {c c' : AuthCache} {keyID now : Int} {keyPrefix p : String} {e : CachedTenantAuth} {key : APIKey}

theorem Shrinks.refl (c : AuthCache) : Shrinks c c :=
  ⟨rfl, fun _ _ h => h, fun _ _ h => h, fun _ pset h => ⟨pset, h, fun _ h => h⟩, fun _ _ h => h,
    fun _ _ h => h⟩

theorem Shrinks.trans {c'' : AuthCache} (h : Shrinks c c') (h' : Shrinks c' c'') : Shrinks c c'' where
  ttl := h'.ttl.trans h.ttl
  tenant p e he := h.tenant p e (h'.tenant p e he)
  single p e he := h.single p e (h'.single p e he)
  prefixes t pset' hpset' := by
    obtain ⟨pset₁, hpset₁, hsub₁⟩ := h'.prefixes t pset' hpset'
    obtain ⟨pset, hpset, hsub⟩ := h.prefixes t pset₁ hpset₁
    exact ⟨pset, hpset, List.Subset.trans hsub₁ hsub⟩
  keys k p hp := h.keys k p (h'.keys k p hp)
  singleKeys k p hp := h.singleKeys k p (h'.singleKeys k p hp)

theorem Indexed.new (ttl : Int) : Indexed (newAuthCache ttl) where
  byTenant _ _ h := nomatch h
  byKey _ _ h := nomatch h
  single _ _ h := nomatch h

theorem shrinks_clear (c : AuthCache) : Shrinks c c.clear where
  ttl := rfl
  tenant _ _ h := nomatch h
  single _ _ h := nomatch h
  prefixes _ _ h := nomatch h
  keys _ _ h := nomatch h
  singleKeys _ _ h := nomatch h

theorem shrinks_delete (c : AuthCache) (keyPrefix : String) (tenantID keyID : Int) :
    Shrinks c (c.deleteTenantPrefixLocked keyPrefix tenantID keyID) where
  __ := Shrinks.refl c
  tenant := .drop
  keys := .drop
  prefixes t pset' h := by
    simp only [AuthCache.deleteTenantPrefixLocked] at h
    cases hpset : c.prefixesByTenant tenantID with
    | none => exact ⟨pset', by rwa [hpset] at h, fun _ h => h⟩
    | some pset =>
      simp only [hpset, Function.update_apply] at h
      split at h
      · rename_i ht
        split at h
        · cases h
        · exact ⟨pset, ht ▸ hpset, Option.some.inj h ▸ filter_sublist.subset⟩
      · exact ⟨pset', h, fun _ h => h⟩

theorem Indexed.delete (h : Indexed c) {tenantID : Int}
    (hindex : c.prefixByTenantKeyID keyID = some keyPrefix) :
    Indexed (c.deleteTenantPrefixLocked keyPrefix tenantID keyID) where
  byTenant p e he := by
    obtain ⟨hne, he⟩ := update_none_eq_some.mp he
    obtain ⟨pset, hpset, hp⟩ := h.byTenant p e he
    simp only [AuthCache.deleteTenantPrefixLocked]
    by_cases htenant : e.tenant.id = tenantID
    · -- the tenant keeps the prefixes other than the deleted one
      have hmem : p ∈ pset.filter fun q => decide (q ≠ keyPrefix) := by simp [hp, hne]
      rw [htenant] at hpset
      simp only [hpset, htenant, Function.update_self]
      rw [if_neg (ne_nil_of_mem hmem)]
      exact ⟨_, rfl, hmem⟩
    · refine ⟨pset, ?_, hp⟩
      cases c.prefixesByTenant tenantID with
      | none => exact hpset
      | some _ => exact (Function.update_of_ne htenant ..).trans hpset
  byKey := h.byKey.drop hindex
  single := h.single

/-- A lookup finds nothing, drops an expired entry, or returns an entry. -/
theorem getTenantAuth_cases (c : AuthCache) (keyPrefix : String) (now : Int) :
    c.getTenantAuth keyPrefix now = (none, c) ∨ ∃ e, c.tenantByPrefix keyPrefix = some e ∧
      (c.getTenantAuth keyPrefix now = (none, c.deleteTenantPrefixLocked keyPrefix e.tenant.id e.key.id) ∨
        c.getTenantAuth keyPrefix now = (some e, c)) := by
  rw [AuthCache.getTenantAuth]
  split
  · exact .inl rfl
  · split
    · exact .inl rfl
    · refine .inr ⟨_, ‹_›, ?_⟩
      split
      · exact .inl rfl
      · exact .inr rfl

theorem getTenantAuth_shrinks (c : AuthCache) (keyPrefix : String) (now : Int) :
    Shrinks c (c.getTenantAuth keyPrefix now).2 := by
  obtain h | ⟨e, _, h | h⟩ := getTenantAuth_cases c keyPrefix now <;> rw [h]
  · exact .refl c
  · exact shrinks_delete ..
  · exact .refl c

theorem getTenantAuth_some (h : (c.getTenantAuth keyPrefix now).1 = some e) :
    c.tenantByPrefix keyPrefix = some e := by
  obtain hget | ⟨e', he', hget | hget⟩ := getTenantAuth_cases c keyPrefix now <;> rw [hget] at h
  · cases h
  · cases h
  · exact he'.trans h

theorem Indexed.getTenantAuth (h : Indexed c) (keyPrefix : String) (now : Int) :
    Indexed (c.getTenantAuth keyPrefix now).2 := by
  obtain hget | ⟨e, he, hget | hget⟩ := getTenantAuth_cases c keyPrefix now <;> rw [hget]
  · exact h
  · exact h.delete (h.byKey _ _ he)
  · exact h

theorem getAPIKey_cases (c : AuthCache) (keyPrefix : String) (now : Int) :
    c.getAPIKey keyPrefix now = (none, c) ∨ ∃ e, c.singleByPrefix keyPrefix = some e ∧
      (c.getAPIKey keyPrefix now = (none, { c with
          singleByPrefix := update c.singleByPrefix keyPrefix none
          prefixBySingleKeyID := update c.prefixBySingleKeyID e.key.id none }) ∨
        c.getAPIKey keyPrefix now = (some e.key, c)) := by
  rw [AuthCache.getAPIKey]
  split
  · exact .inl rfl
  · split
    · exact .inl rfl
    · refine .inr ⟨_, ‹_›, ?_⟩
      split
      · exact .inl rfl
      · exact .inr rfl

theorem getAPIKey_shrinks (c : AuthCache) (keyPrefix : String) (now : Int) :
    Shrinks c (c.getAPIKey keyPrefix now).2 := by
  obtain h | ⟨e, _, h | h⟩ := getAPIKey_cases c keyPrefix now <;> rw [h]
  · exact .refl c
  · exact { Shrinks.refl c with single := .drop, singleKeys := .drop }
  · exact .refl c

theorem getAPIKey_some (h : (c.getAPIKey keyPrefix now).1 = some key) :
    ∃ cachedAt, c.singleByPrefix keyPrefix = some ⟨key, cachedAt⟩ := by
  obtain hget | ⟨e, he, hget | hget⟩ := getAPIKey_cases c keyPrefix now <;> rw [hget] at h
  · cases h
  · cases h
  · cases h
    exact ⟨e.cachedAt, he⟩

theorem Indexed.getAPIKey (h : Indexed c) (keyPrefix : String) (now : Int) :
    Indexed (c.getAPIKey keyPrefix now).2 := by
  obtain hget | ⟨e, he, hget | hget⟩ := getAPIKey_cases c keyPrefix now <;> rw [hget]
  · exact h
  · exact { h with single := h.single.drop (h.single _ _ he) }
  · exact h

variable {tenant : Tenant} {digest : String} {scope : Scope}

theorem putTenantAuth_entry {key : TenantAPIKey} (h : (c.putTenantAuth key digest tenant scope now).tenantByPrefix p = some e) :
    c.tenantByPrefix p = some e ∨
      (0 < c.ttl ∧ p = key.keyPrefix ∧ e = ⟨key, digest, tenant, scope, now⟩) := by
  simp only [AuthCache.putTenantAuth] at h
  split at h
  · exact .inl h
  · exact (update_some_eq_some h).imp_right fun h => ⟨by omega, h⟩

theorem Indexed.putTenantAuth (h : Indexed c) {key : TenantAPIKey}
    (hkey : ∀ p e, c.tenantByPrefix p = some e → e.key.id = key.id → p = key.keyPrefix) :
    Indexed (c.putTenantAuth key digest tenant scope now) := by
  simp only [AuthCache.putTenantAuth]
  split
  · exact h
  refine ⟨fun p e he => ?_, h.byKey.put hkey, h.single⟩
  obtain he | ⟨rfl, rfl⟩ := update_some_eq_some he
  · obtain ⟨pset, hpset, hp⟩ := h.byTenant p e he
    by_cases htenant : e.tenant.id = tenant.id
    · rw [htenant] at hpset
      refine ⟨pset.insert key.keyPrefix, ?_, mem_insert_of_mem hp⟩
      simp [htenant, hpset]
    · exact ⟨pset, by simp [htenant, hpset], hp⟩
  · exact ⟨_, Function.update_self .., by simp⟩

theorem putAPIKey_entry {e : CachedSingleAPIKey}
    (h : (c.putAPIKey key now).singleByPrefix p = some e) :
    c.singleByPrefix p = some e ∨ (0 < c.ttl ∧ p = key.keyPrefix ∧ e = ⟨key, now⟩) := by
  simp only [AuthCache.putAPIKey] at h
  split at h
  · exact .inl h
  · exact (update_some_eq_some h).imp_right fun h => ⟨by omega, h⟩

theorem Indexed.putAPIKey (h : Indexed c)
    (hkey : ∀ p e, c.singleByPrefix p = some e → e.key.id = key.id → p = key.keyPrefix) :
    Indexed (c.putAPIKey key now) := by
  simp only [AuthCache.putAPIKey]
  split
  · exact h
  · exact { h with single := Keyed.put h.single hkey }

/-! ## Invalidation -/

theorem evict_tenantByPrefix (c : AuthCache) (keyPrefix p : String) :
    (c.evict keyPrefix).tenantByPrefix p = if p = keyPrefix then none else c.tenantByPrefix p := by
  simp only [AuthCache.evict]
  split
  · rename_i hnone
    split
    · rename_i hp
      rw [hp, hnone]
    · rfl
  · exact Function.update_apply ..

theorem Indexed.evict (h : Indexed c) (keyPrefix : String) : Indexed (c.evict keyPrefix) := by
  simp only [AuthCache.evict]
  split
  · exact h
  · rename_i entry hentry
    exact ⟨fun p e he => h.byTenant p e (update_none_eq_some.mp he).2, h.byKey.drop (h.byKey _ _ hentry),
      h.single⟩

theorem evict_keeps (c : AuthCache) (keyPrefix : String) :
    (c.evict keyPrefix).singleByPrefix = c.singleByPrefix ∧ Shrinks c (c.evict keyPrefix) := by
  simp only [AuthCache.evict]
  split
  · exact ⟨rfl, .refl c⟩
  · exact ⟨rfl, { Shrinks.refl c with tenant := .drop, keys := .drop }⟩

theorem foldl_evict (pset : List String) (c : AuthCache) :
    (∀ p, (pset.foldl AuthCache.evict c).tenantByPrefix p =
      if p ∈ pset then none else c.tenantByPrefix p) ∧
    (pset.foldl AuthCache.evict c).singleByPrefix = c.singleByPrefix ∧
    (Indexed c → Indexed (pset.foldl AuthCache.evict c)) ∧ Shrinks c (pset.foldl AuthCache.evict c) := by
  induction pset generalizing c with
  | nil => simpa using Shrinks.refl c
  | cons q pset ih =>
    obtain ⟨htenant, hsingle, hindexed, hshrinks⟩ := ih (c.evict q)
    obtain ⟨hsingle', hshrinks'⟩ := evict_keeps c q
    refine ⟨fun p => ?_, hsingle.trans hsingle',
      fun h => hindexed (h.evict q), hshrinks'.trans hshrinks⟩
    rw [foldl_cons, htenant, evict_tenantByPrefix]
    by_cases hq : p = q <;> by_cases hp : p ∈ pset <;> simp [hq, hp]

theorem invalidateTenant_entry (h : Indexed c) {tenantID : Int}
    (he : (c.invalidateTenant tenantID).tenantByPrefix p = some e) :
    c.tenantByPrefix p = some e ∧ e.tenant.id ≠ tenantID := by
  simp only [AuthCache.invalidateTenant] at he
  split at he
  · rename_i hnone
    refine ⟨he, fun hid => ?_⟩
    obtain ⟨pset, hpset, _⟩ := h.byTenant p e he
    rw [hid, hnone] at hpset
    cases hpset
  · rename_i pset hpset
    simp only [(foldl_evict pset c).1 p] at he
    split at he
    · cases he
    · rename_i hp
      refine ⟨he, fun hid => ?_⟩
      obtain ⟨pset', hpset', hmem⟩ := h.byTenant p e he
      rw [hid, hpset] at hpset'
      cases hpset'
      exact hp hmem

theorem Indexed.invalidateTenant (h : Indexed c) (tenantID : Int) :
    Indexed (c.invalidateTenant tenantID) := by
  have hentry := fun p e => @invalidateTenant_entry c p e h tenantID
  simp only [AuthCache.invalidateTenant] at hentry ⊢
  split
  · exact h
  · rename_i pset hpset
    have hfold := (foldl_evict pset c).2.2.1 h
    simp only [hpset] at hentry
    refine ⟨fun p e he => ?_, hfold.byKey, hfold.single⟩
    obtain ⟨pset', hpset', hp⟩ := hfold.byTenant p e he
    exact ⟨pset', by simp [(hentry p e he).2, hpset'], hp⟩

theorem invalidateTenant_shrinks (c : AuthCache) (tenantID : Int) :
    (c.invalidateTenant tenantID).singleByPrefix = c.singleByPrefix ∧
      Shrinks c (c.invalidateTenant tenantID) := by
  simp only [AuthCache.invalidateTenant]
  split
  · exact ⟨rfl, .refl c⟩
  · rename_i pset _
    obtain ⟨-, hsingle, -, hshrinks⟩ := foldl_evict pset c
    refine ⟨hsingle, { hshrinks with prefixes := fun t pset' h => ?_ }⟩
    exact hshrinks.prefixes t pset' (update_none_eq_some.mp h).2

theorem invalidateTenantKey_entry (h : Indexed c)
    (he : (c.invalidateTenantKey keyID).tenantByPrefix p = some e) :
    c.tenantByPrefix p = some e ∧ e.key.id ≠ keyID := by
  simp only [AuthCache.invalidateTenantKey] at he
  split at he
  · rename_i hnone
    exact ⟨he, h.byKey.ne hnone he⟩
  · rename_i keyPrefix hkeyed
    split at he
    · obtain ⟨hne, he⟩ := update_none_eq_some.mp he
      exact ⟨he, fun hid => hne (h.byKey.eq hkeyed he hid)⟩
    · rename_i hnone
      refine ⟨he, fun hid => ?_⟩
      rw [h.byKey.eq hkeyed he hid, hnone] at he
      cases he

theorem Indexed.invalidateTenantKey (h : Indexed c) (keyID : Int) :
    Indexed (c.invalidateTenantKey keyID) := by
  have hentry := fun p e => @invalidateTenantKey_entry c keyID p e h
  simp only [AuthCache.invalidateTenantKey] at hentry ⊢
  split
  · exact h
  · rename_i keyPrefix hkeyed
    split
    · exact h.delete hkeyed
    · rename_i hnone
      simp only [hkeyed, hnone] at hentry
      exact { h with
        byKey := fun p e he => update_none_eq_some.mpr ⟨(hentry p e he).2, h.byKey p e he⟩ }

theorem invalidateTenantKey_shrinks (c : AuthCache) (keyID : Int) :
    (c.invalidateTenantKey keyID).singleByPrefix = c.singleByPrefix ∧
      Shrinks c (c.invalidateTenantKey keyID) := by
  simp only [AuthCache.invalidateTenantKey]
  split
  · exact ⟨rfl, .refl c⟩
  · split
    · exact ⟨rfl, shrinks_delete ..⟩
    · exact ⟨rfl, { Shrinks.refl c with keys := .drop }⟩

theorem invalidateSingleKey_entry (h : Indexed c) {e : CachedSingleAPIKey}
    (he : (c.invalidateSingleKey keyID).singleByPrefix p = some e) :
    c.singleByPrefix p = some e ∧ e.key.id ≠ keyID := by
  simp only [AuthCache.invalidateSingleKey] at he
  split at he
  · rename_i hnone
    exact ⟨he, h.single.ne hnone he⟩
  · rename_i keyPrefix hkeyed
    obtain ⟨hne, he⟩ := update_none_eq_some.mp he
    exact ⟨he, fun hid => hne (h.single.eq hkeyed he hid)⟩

theorem Indexed.invalidateSingleKey (h : Indexed c) (keyID : Int) :
    Indexed (c.invalidateSingleKey keyID) := by
  simp only [AuthCache.invalidateSingleKey]
  split
  · exact h
  · exact { h with single := h.single.drop ‹_› }

theorem invalidateSingleKey_shrinks (c : AuthCache) (keyID : Int) :
    (c.invalidateSingleKey keyID).tenantByPrefix = c.tenantByPrefix ∧
      Shrinks c (c.invalidateSingleKey keyID) := by
  simp only [AuthCache.invalidateSingleKey]
  split
  · exact ⟨rfl, .refl c⟩
  · exact ⟨rfl, { Shrinks.refl c with single := .drop, singleKeys := .drop }⟩

theorem invalidateAPIKey_shrinks (c : AuthCache) (keyID : Int) : Shrinks c (c.invalidateAPIKey keyID) :=
  (invalidateTenantKey_shrinks c keyID).2.trans (invalidateSingleKey_shrinks _ keyID).2

theorem Indexed.applyInvalidation (h : Indexed c) (ev : InvalidationEvent) :
    Indexed (applyInvalidation c ev) := by
  cases ev with
  | tenant id =>
    simp only [Auth.applyInvalidation]
    split
    · exact h
    · exact h.invalidateTenant id
  | apiKey id =>
    simp only [Auth.applyInvalidation]
    split
    · exact h
    · exact (h.invalidateTenantKey id).invalidateSingleKey id

theorem applyInvalidation_shrinks (c : AuthCache) (ev : InvalidationEvent) :
    Shrinks c (applyInvalidation c ev) := by
  cases ev with
  | tenant id =>
    simp only [Auth.applyInvalidation]
    split
    · exact .refl c
    · exact (invalidateTenant_shrinks c id).2
  | apiKey id =>
    simp only [Auth.applyInvalidation]
    split
    · exact .refl c
    · exact invalidateAPIKey_shrinks c id

/-! ## Runs of calls -/

inductive Call where
  | putTenantAuth (key : TenantAPIKey) (digest : String) (tenant : Tenant) (scope : Scope) (now : Int)
  | putAPIKey (key : APIKey) (now : Int)
  | getTenantAuth (keyPrefix : String) (now : Int)
  | getAPIKey (keyPrefix : String) (now : Int)
  | invalidateTenant (tenantID : Int)
  | invalidateAPIKey (keyID : Int)
  | clear
  | setTTL (ttl : Int)

def Call.apply (c : AuthCache) : Call → AuthCache
  | .putTenantAuth key digest tenant scope now => c.putTenantAuth key digest tenant scope now
  | .putAPIKey key now => c.putAPIKey key now
  | .getTenantAuth keyPrefix now => (c.getTenantAuth keyPrefix now).2
  | .getAPIKey keyPrefix now => (c.getAPIKey keyPrefix now).2
  | .invalidateTenant tenantID => c.invalidateTenant tenantID
  | .invalidateAPIKey keyID => c.invalidateAPIKey keyID
  | .clear => c.clear
  | .setTTL ttl => c.setTTL ttl

/-- Whose a prefix is, and the prefix of each key. -/
structure Owners where
  tenant : String → Int
  key : String → Int
  prefixOf : Int → String
  single : String → Int
  singlePrefixOf : Int → String

variable {n : Owners}

/-- A key is put under its prefix, and the prefix with its tenant. -/
def Call.Fits (n : Owners) : Call → Prop
  | .putTenantAuth key _ tenant _ _ =>
    n.tenant key.keyPrefix = tenant.id ∧ n.key key.keyPrefix = key.id ∧ n.prefixOf key.id = key.keyPrefix
  | .putAPIKey key _ => n.single key.keyPrefix = key.id ∧ n.singlePrefixOf key.id = key.keyPrefix
  | _ => True

structure Owned (n : Owners) (c : AuthCache) : Prop where
  indexed : Indexed c
  tenant : ∀ p e, c.tenantByPrefix p = some e →
    n.tenant p = e.tenant.id ∧ n.key p = e.key.id ∧ n.prefixOf e.key.id = p
  prefixes : ∀ t pset, c.prefixesByTenant t = some pset → ∀ p ∈ pset, n.tenant p = t
  keys : ∀ k p, c.prefixByTenantKeyID k = some p → n.key p = k
  single : ∀ p e, c.singleByPrefix p = some e → n.single p = e.key.id ∧ n.singlePrefixOf e.key.id = p
  singleKeys : ∀ k p, c.prefixBySingleKeyID k = some p → n.single p = k

theorem Owned.new (n : Owners) (ttl : Int) : Owned n (newAuthCache ttl) :=
  ⟨.new ttl, nofun, nofun, nofun, nofun, nofun⟩

theorem Owned.shrinks (h : Owned n c) (hshrinks : Shrinks c c') (hindexed : Indexed c') : Owned n c' where
  indexed := hindexed
  tenant p e he := h.tenant p e (hshrinks.tenant p e he)
  prefixes t pset' hpset' p hp := by
    obtain ⟨pset, hpset, hsub⟩ := hshrinks.prefixes t pset' hpset'
    exact h.prefixes t pset hpset p (hsub hp)
  keys k p hp := h.keys k p (hshrinks.keys k p hp)
  single p e he := h.single p e (hshrinks.single p e he)
  singleKeys k p hp := h.singleKeys k p (hshrinks.singleKeys k p hp)

theorem Owned.putTenantAuth (h : Owned n c) {key : TenantAPIKey} (hfits : Call.Fits n (.putTenantAuth key digest tenant scope now)) :
    Owned n (c.putTenantAuth key digest tenant scope now) := by
  obtain ⟨htenant, hkey, hkeyed⟩ := hfits
  have hindexed : Indexed (c.putTenantAuth key digest tenant scope now) :=
    h.indexed.putTenantAuth fun p e he hid => (h.tenant p e he).2.2.symm.trans (hid ▸ hkeyed)
  rw [AuthCache.putTenantAuth] at hindexed ⊢
  split
  · exact h
  rename_i httl
  rw [if_neg httl] at hindexed
  refine ⟨hindexed, fun p e he => ?_, fun t pset hpset p hp => ?_, fun k p hp => ?_, h.single, h.singleKeys⟩
  · obtain he | ⟨rfl, rfl⟩ := update_some_eq_some he
    · exact h.tenant p e he
    · exact ⟨htenant, hkey, hkeyed⟩
  · obtain hpset | ⟨rfl, rfl⟩ := update_some_eq_some hpset
    · exact h.prefixes t pset hpset p hp
    · rcases mem_insert_iff.mp hp with rfl | hp
      · exact htenant
      · cases hold : c.prefixesByTenant tenant.id with
        | none => simp [hold] at hp
        | some pset => exact h.prefixes _ pset hold p (by simpa [hold] using hp)
  · obtain hp | ⟨rfl, rfl⟩ := update_some_eq_some hp
    · exact h.keys k p hp
    · exact hkey

theorem Owned.putAPIKey (h : Owned n c) (hfits : Call.Fits n (.putAPIKey key now)) :
    Owned n (c.putAPIKey key now) := by
  obtain ⟨hkey, hkeyed⟩ := hfits
  have hindexed : Indexed (c.putAPIKey key now) :=
    h.indexed.putAPIKey fun p e he hid => (h.single p e he).2.symm.trans (hid ▸ hkeyed)
  rw [AuthCache.putAPIKey] at hindexed ⊢
  split
  · exact h
  rename_i httl
  rw [if_neg httl] at hindexed
  refine { h with indexed := hindexed, single := fun p e he => ?_, singleKeys := fun k p hp => ?_ }
  · obtain he | ⟨rfl, rfl⟩ := update_some_eq_some he
    · exact h.single p e he
    · exact ⟨hkey, hkeyed⟩
  · obtain hp | ⟨rfl, rfl⟩ := update_some_eq_some hp
    · exact h.singleKeys k p hp
    · exact hkey

theorem Owned.apply {call : Call} (h : Owned n c) (hfits : call.Fits n) : Owned n (call.apply c) := by
  cases call with
  | putTenantAuth key digest tenant scope now => exact h.putTenantAuth hfits
  | putAPIKey key now => exact h.putAPIKey hfits
  | getTenantAuth keyPrefix now => exact h.shrinks (getTenantAuth_shrinks ..) (h.indexed.getTenantAuth ..)
  | getAPIKey keyPrefix now => exact h.shrinks (getAPIKey_shrinks ..) (h.indexed.getAPIKey ..)
  | invalidateTenant tenantID =>
    exact h.shrinks (invalidateTenant_shrinks c tenantID).2 (h.indexed.invalidateTenant tenantID)
  | invalidateAPIKey keyID =>
    exact h.shrinks (invalidateAPIKey_shrinks c keyID)
      ((h.indexed.invalidateTenantKey keyID).invalidateSingleKey keyID)
  | clear => exact .new n c.ttl
  | setTTL ttl =>
    rw [Call.apply, AuthCache.setTTL]
    split
    · exact .new n ttl
    · exact { h with indexed := { h.indexed with } }

theorem Owned.run {calls : List Call} (h : Owned n c) (hfits : ∀ call ∈ calls, call.Fits n) :
    Owned n (calls.foldl Call.apply c) := by
  induction calls generalizing c with
  | nil => exact h
  | cons call calls ih =>
    exact ih (h.apply (hfits call (.head _))) fun x hx => hfits x (.tail _ hx)

/-- The second cache is the first one without the entries that are gone, and no lookup in it returns
one of them. -/
structure Evicts (gone : CachedTenantAuth → Prop) (goneSingle : APIKey → Prop) (c c' : AuthCache) :
    Prop where
  tenant : ∀ p e, c'.tenantByPrefix p = some e ↔ c.tenantByPrefix p = some e ∧ ¬gone e
  single : ∀ p e, c'.singleByPrefix p = some e ↔ c.singleByPrefix p = some e ∧ ¬goneSingle e.key
  lookups : ∀ p now, (∀ e, (c'.getTenantAuth p now).1 = some e → ¬gone e) ∧
    ∀ key, (c'.getAPIKey p now).1 = some key → ¬goneSingle key

theorem Evicts.of_entries {gone : CachedTenantAuth → Prop} {goneSingle : APIKey → Prop}
    (htenant : ∀ p e, c'.tenantByPrefix p = some e ↔ c.tenantByPrefix p = some e ∧ ¬gone e)
    (hsingle : ∀ p e, c'.singleByPrefix p = some e ↔ c.singleByPrefix p = some e ∧ ¬goneSingle e.key) :
    Evicts gone goneSingle c c' := by
  refine ⟨htenant, hsingle, fun p now => ⟨fun e he => ((htenant p e).mp (getTenantAuth_some he)).2, ?_⟩⟩
  intro key hkey
  obtain ⟨cachedAt, he⟩ := getAPIKey_some hkey
  exact ((hsingle p _).mp he).2

theorem Owned.invalidateTenant (h : Owned n c) (tenantID : Int) :
    Evicts (fun e => e.tenant.id = tenantID) (fun _ => False) c (c.invalidateTenant tenantID) := by
  refine .of_entries (fun p e => ⟨invalidateTenant_entry h.indexed, fun ⟨he, hne⟩ => ?_⟩) fun p e => ?_
  · rw [AuthCache.invalidateTenant]
    split
    · exact he
    · rename_i pset hpset
      have hp : p ∉ pset := fun hp => hne ((h.tenant p e he).1.symm.trans (h.prefixes _ _ hpset p hp))
      exact ((foldl_evict pset c).1 p).trans ((if_neg hp).trans he)
  · rw [(invalidateTenant_shrinks c tenantID).1]
    simp

theorem Owned.invalidateAPIKey (h : Owned n c) (keyID : Int) :
    Evicts (fun e => e.key.id = keyID) (fun key => key.id = keyID) c (c.invalidateAPIKey keyID) := by
  refine .of_entries (fun p e => ?_) fun p e => ?_
  · rw [AuthCache.invalidateAPIKey, (invalidateSingleKey_shrinks _ keyID).1]
    refine ⟨invalidateTenantKey_entry h.indexed, fun ⟨he, hne⟩ => ?_⟩
    rw [AuthCache.invalidateTenantKey]
    split
    · exact he
    · rename_i q hq
      have hp : p ≠ q := fun hp => hne ((h.tenant p e he).2.1.symm.trans (hp ▸ h.keys _ _ hq))
      split
      · exact update_none_eq_some.mpr ⟨hp, he⟩
      · exact he
  · have hsingle := (invalidateTenantKey_shrinks c keyID).1
    refine ⟨fun he => ?_, fun ⟨he, hne⟩ => ?_⟩
    · have hentry := invalidateSingleKey_entry (h.indexed.invalidateTenantKey keyID) he
      rwa [hsingle] at hentry
    · rw [← hsingle] at he
      rw [AuthCache.invalidateAPIKey, AuthCache.invalidateSingleKey]
      split
      · exact he
      · rename_i q hq
        have hq := (invalidateTenantKey_shrinks c keyID).2.singleKeys _ _ hq
        have hp : p ≠ q := fun hp => hne
          ((h.single p e (hsingle ▸ he)).1.symm.trans (hp ▸ h.singleKeys _ _ hq))
        exact update_none_eq_some.mpr ⟨hp, he⟩

/-- When a prefix belongs to one tenant and one key and a key has one prefix, an invalidation evicts
the entries of the tenant or of the key, and nothing else. -/
theorem invalidation_exact (n : Owners) (ttl : Int) {calls : List Call}
    (hfits : ∀ call ∈ calls, call.Fits n) (id : Int) :
    Evicts (fun e => e.tenant.id = id) (fun _ => False) (calls.foldl Call.apply (newAuthCache ttl))
        ((calls.foldl Call.apply (newAuthCache ttl)).invalidateTenant id) ∧
      Evicts (fun e => e.key.id = id) (fun key => key.id = id)
        (calls.foldl Call.apply (newAuthCache ttl))
        ((calls.foldl Call.apply (newAuthCache ttl)).invalidateAPIKey id) := by
  have h : Owned n (calls.foldl Call.apply (newAuthCache ttl)) := (Owned.new n ttl).run hfits
  exact ⟨h.invalidateTenant id, h.invalidateAPIKey id⟩

def putKey (keyID : Int) (keyPrefix : String) : Call :=
  .putTenantAuth ⟨keyID, 1, keyPrefix⟩ "" ⟨1, "", false, true⟩ wildcardScope 0

/-- Two keys of a tenant, of which one is invalidated. -/
theorem invalidation_exact_two :
    (([putKey 7 "a", putKey 8 "b"].foldl Call.apply (newAuthCache 9)).invalidateAPIKey 7).tenantByPrefix
        "a" = none ∧
      ∀ now e, ((([putKey 7 "a", putKey 8 "b"].foldl Call.apply (newAuthCache 9)).invalidateAPIKey
        7).getTenantAuth "b" now).1 = some e → e.key.id ≠ 7 :=
  ⟨rfl, fun now => (((invalidation_exact ⟨fun _ => 1, fun p => if p = "a" then 7 else 8,
    fun k => if k = 7 then "a" else "b", fun _ => 0, fun _ => ""⟩ 9 (by simp [putKey, Call.Fits])
      7).2.lookups "b" now).1)⟩

/-- One key id under two prefixes of one tenant: the first prefix outlives the invalidation. -/
theorem invalidated_key_found :
    ((([putKey 7 "a", putKey 7 "b"].foldl Call.apply (newAuthCache 9)).invalidateAPIKey 7).getTenantAuth
      "a" 0).1.map (fun e => e.key.id) = some 7 := by
  decide

end SoroTrail.Api.Auth
