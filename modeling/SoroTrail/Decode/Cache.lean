import Mathlib.Data.List.Nodup
import Mathlib.Data.Option.Basic
import SoroTrail.Lib.Steps

/-!
# The decode cache

`CachingDecoder` of `internal/decode/cache.go` keeps the results of another decoder in a recency
list and finds them by a map from a hash of the payload to an element of that list.
-/

set_option autoImplicit false

namespace SoroTrail.Decode

open Lib List Function

/-- An element of the recency list with its `cacheEntry`; `id` is its address. -/
structure Element (V : Type) where
  id : Nat
  key : String
  value : V

structure CachingDecoder (V : Type) where
  maxEntries : Nat
  entries : UInt64 → Option Nat
  order : List (Element V)
  next : Nat

def defaultCacheSize : Nat := 4096

def newCachingDecoder (V : Type) (maxEntries : Int) : CachingDecoder V where
  maxEntries := if maxEntries ≤ 0 then defaultCacheSize else maxEntries.toNat
  entries := fun _ => none
  order := []
  next := 0

/-- A decoder in use, with the calls made so far and their answers. -/
structure Session (V E : Type) where
  cache : CachingDecoder V
  answers : List (String × Except E V)

section Cache

variable {V E : Type} (cacheKey : String → UInt64) (inner : String → Except E V) (c : CachingDecoder V)

namespace CachingDecoder

def element (key : UInt64) : Option (Element V) :=
  (c.entries key).bind fun id => c.order.find? (·.id = id)

def remove (el : Element V) : List (Element V) := c.order.filter (·.id ≠ el.id)

def moveToFront (el : Element V) : CachingDecoder V := { c with order := el :: c.remove el }

def get (key : UInt64) (raw : String) : Option (V × CachingDecoder V) :=
  match c.element key with
  | none => none
  | some el => if el.key ≠ raw then none else some (el.value, c.moveToFront el)

/-- The loop of `put`, which goes round once for each element too many. -/
def evict : Nat → CachingDecoder V → CachingDecoder V
  | 0, c => c
  | n + 1, c =>
    match c.order.getLast? with
    | none => c
    | some oldest =>
      evict n { c with
        order := c.remove oldest, entries := update c.entries (cacheKey oldest.key) none }

def put (key : UInt64) (raw : String) (value : V) : CachingDecoder V :=
  match c.element key with
  -- the value is refreshed, the key it is compared by is not
  | some el => c.moveToFront { el with value }
  | none =>
    evict cacheKey (c.order.length + 1 - c.maxEntries) { c with
      order := ⟨c.next, raw, value⟩ :: c.order
      entries := update c.entries key (some c.next)
      next := c.next + 1 }

def decodeScVal (raw : String) : Except E V × CachingDecoder V :=
  match c.get (cacheKey raw) raw with
  | some (v, c') => (.ok v, c')
  | none =>
    match inner raw with
    | .error err => (.error err, c)
    | .ok v => (.ok v, c.put cacheKey (cacheKey raw) raw v)

end CachingDecoder

def Session.call (s : Session V E) (raw : String) : Option (Session V E) :=
  let decoded := s.cache.decodeScVal cacheKey inner raw
  some ⟨decoded.2, s.answers ++ [(raw, decoded.1)]⟩

/-! ## The map and the list -/

/-- The map and the list hold the same elements, each under the hash of its key. -/
structure Indexed : Prop where
  ids : (c.order.map Element.id).Nodup
  fresh : ∀ el ∈ c.order, el.id < c.next
  filed : ∀ key id, c.entries key = some id ↔ ∃ el ∈ c.order, el.id = id ∧ cacheKey el.key = key

variable {cacheKey inner c} {el el' : Element V} {key : UInt64}

theorem mem_remove {x : Element V} : x ∈ c.remove el ↔ x ∈ c.order ∧ x.id ≠ el.id := by
  simp [CachingDecoder.remove]

theorem length_remove (hel : el ∈ c.order) : (c.remove el).length < c.order.length :=
  length_filter_lt_length_iff_exists.mpr ⟨el, hel, by simp⟩

section

variable (h : Indexed cacheKey c)
include h

theorem Indexed.eq_of_id (hel : el ∈ c.order) (hel' : el' ∈ c.order)
    (hid : el.id = el'.id) : el = el' :=
  inj_on_of_nodup_map h.ids hel hel' hid

theorem Indexed.element_eq_some :
    c.element key = some el ↔ el ∈ c.order ∧ cacheKey el.key = key := by
  have hunique := @h.eq_of_id
  simp only [CachingDecoder.element, Option.bind_eq_some_iff, h.filed]
  constructor
  · grind
  · rintro ⟨hel, hkey⟩
    refine ⟨el.id, ⟨el, hel, rfl, hkey⟩, ?_⟩
    cases hfind : c.order.find? (·.id = el.id) <;> grind

theorem Indexed.eq_of_key (hel : el ∈ c.order) (hel' : el' ∈ c.order)
    (hkey : cacheKey el.key = cacheKey el'.key) : el = el' :=
  Option.some.inj ((h.element_eq_some.mpr ⟨hel, hkey⟩).symm.trans (h.element_eq_some.mpr ⟨hel', rfl⟩))

theorem Indexed.remove (hel : el ∈ c.order) :
    Indexed cacheKey { c with
      order := c.remove el, entries := update c.entries (cacheKey el.key) none } := by
  refine ⟨h.ids.sublist (filter_sublist.map _), fun x hx => h.fresh x (mem_remove.mp hx).1,
    fun key id => ?_⟩
  have hid : ∀ x ∈ c.order, x.id = el.id → x = el := fun x hx => h.eq_of_id hx hel
  have hkey : ∀ x ∈ c.order, cacheKey x.key = cacheKey el.key → x = el := fun x hx => h.eq_of_key hx hel
  have hfiled := h.filed key id
  grind [mem_remove, update_apply]

theorem Indexed.insert {next : Nat} (el : Element V)
    (hid : ∀ x ∈ c.order, x.id ≠ el.id) (hkey : ∀ x ∈ c.order, cacheKey x.key ≠ cacheKey el.key)
    (hel : el.id < next) (hnext : c.next ≤ next) :
    Indexed cacheKey { c with
      order := el :: c.order, entries := update c.entries (cacheKey el.key) (some el.id), next } := by
  refine ⟨?_, ?_, fun key id => ?_⟩
  · have hids := h.ids
    grind
  · exact forall_mem_cons.mpr ⟨hel, fun x hx => Nat.lt_of_lt_of_le (h.fresh x hx) hnext⟩
  · have hfiled := h.filed key id
    grind [update_apply]

theorem Indexed.moveToFront (hel : el ∈ c.order) (hid : el'.id = el.id)
    (hkey : el'.key = el.key) : Indexed cacheKey (c.moveToFront el') := by
  have hentry : c.entries (cacheKey el.key) = some el.id := (h.filed _ _).mpr ⟨el, hel, rfl, rfl⟩
  have hmoved := (h.remove hel).insert el' (fun x hx => hid ▸ (mem_remove.mp hx).2)
    (fun x hx hsame => ?_) (hid ▸ h.fresh el hel) (Nat.le_refl _)
  · simpa [CachingDecoder.moveToFront, CachingDecoder.remove, hid, hkey, ← hentry] using hmoved
  · obtain ⟨hx, hne⟩ := mem_remove.mp hx
    exact hne (congrArg Element.id (h.eq_of_key hx hel (hkey ▸ hsame)))

theorem Indexed.evict {n : Nat} :
    Indexed cacheKey (c.evict cacheKey n) ∧ (c.evict cacheKey n).order ⊆ c.order ∧
      (c.evict cacheKey n).order.length ≤ c.order.length - n ∧
      (c.evict cacheKey n).maxEntries = c.maxEntries := by
  induction n generalizing c with
  | zero => exact ⟨h, List.Subset.refl _, Nat.le_refl _, rfl⟩
  | succ n ih =>
    rw [CachingDecoder.evict]
    cases hlast : c.order.getLast? with
    | none =>
      rw [List.getLast?_eq_none_iff] at hlast
      exact ⟨h, List.Subset.refl _, by simp [hlast], rfl⟩
    | some oldest =>
      have hmem := mem_of_getLast? hlast
      obtain ⟨hindexed, hsub, hlen, hmax⟩ := ih (h.remove hmem)
      refine ⟨hindexed, fun x hx => (mem_remove.mp (hsub hx)).1, ?_, hmax⟩
      have hless := length_remove hmem
      dsimp only at hlen ⊢
      omega

end

/-! ## Answers -/

/-- The map and the list agree and are within their bound. -/
def Filed (cacheKey : String → UInt64) (c : CachingDecoder V) : Prop :=
  Indexed cacheKey c ∧ c.order.length ≤ c.maxEntries

theorem Filed.moveToFront (h : Filed cacheKey c) (hel : el ∈ c.order) (hid : el'.id = el.id)
    (hkey : el'.key = el.key) : Filed cacheKey (c.moveToFront el') := by
  refine ⟨h.1.moveToFront hel hid hkey, Nat.le_trans ?_ h.2⟩
  rw [CachingDecoder.moveToFront, CachingDecoder.remove, hid]
  exact length_remove hel

theorem Filed.put (h : Filed cacheKey c) (raw : String) (value : V) :
    Filed cacheKey (c.put cacheKey (cacheKey raw) raw value) ∧
      ∀ x ∈ (c.put cacheKey (cacheKey raw) raw value).order, x ∈ c.order ∨ x.value = value ∧
        (x.key = raw ∨ ∃ el ∈ c.element (cacheKey raw), el.key = x.key) := by
  rw [CachingDecoder.put]
  cases hel : c.element (cacheKey raw) with
  | some el =>
    refine ⟨h.moveToFront (h.1.element_eq_some.mp hel).1 rfl rfl, fun x hx => ?_⟩
    rcases mem_cons.mp hx with rfl | hx
    · exact .inr ⟨rfl, .inr ⟨el, rfl, rfl⟩⟩
    · exact .inl (mem_remove.mp hx).1
  | none =>
    have hpushed := h.1.insert ⟨c.next, raw, value⟩ (fun x hx => Nat.ne_of_lt (h.1.fresh x hx))
      (fun x hx hkey => by simp [h.1.element_eq_some.mpr ⟨hx, hkey⟩] at hel) c.next.lt_add_one
      (c.next.le_add_right 1)
    obtain ⟨hindexed, hsub, hlen, hmax⟩ := hpushed.evict
    refine ⟨⟨hindexed, ?_⟩, fun x hx => ?_⟩
    · simp only [length_cons] at hlen hmax ⊢
      omega
    · rcases mem_cons.mp (hsub hx) with rfl | hx
      · exact .inr ⟨rfl, .inl rfl⟩
      · exact .inl hx

/-- A payload that decodes finds its bucket free or holding its own entry. -/
def Unshared (cacheKey : String → UInt64) (inner : String → Except E V) (s : Session V E) (raw : String) :
    Prop :=
  ∀ el ∈ s.cache.element (cacheKey raw), (inner raw).isOk = true → el.key = raw

instance (s : Session V E) (raw : String) : Decidable (Unshared cacheKey inner s raw) :=
  inferInstanceAs (Decidable (∀ el ∈ _, _))

structure Transparent (cacheKey : String → UInt64) (inner : String → Except E V) (s : Session V E) :
    Prop where
  filed : Filed cacheKey s.cache
  decoded : ∀ el ∈ s.cache.order, inner el.key = .ok el.value
  answers : ∀ call ∈ s.answers, call.2 = inner call.1

theorem get_eq_some {raw : String} {hit : V × CachingDecoder V} (hget : c.get key raw = some hit) :
    ∃ el, c.element key = some el ∧ el.key = raw ∧ hit = (el.value, c.moveToFront el) := by
  rw [CachingDecoder.get] at hget
  split at hget
  · cases hget
  · rename_i el hel
    split at hget
    · cases hget
    · rename_i hkey
      exact ⟨el, hel, not_not.mp hkey, (Option.some.inj hget).symm⟩

theorem call_keeps {s s' : Session V E} {raw : String} (h : Filed cacheKey s.cache)
    (hcall : s.call cacheKey inner raw = some s') : Filed cacheKey s'.cache ∧
      (Unshared cacheKey inner s raw → Transparent cacheKey inner s → Transparent cacheKey inner s') := by
  have hanswers : ∀ {answer}, Transparent cacheKey inner s → answer = inner raw →
      ∀ call ∈ s.answers ++ [(raw, answer)], call.2 = inner call.1 := fun ht heq =>
    forall_mem_append.mpr ⟨ht.answers, by simpa using heq⟩
  cases hcall
  rw [CachingDecoder.decodeScVal]
  cases hget : s.cache.get (cacheKey raw) raw with
  | some hit =>
    obtain ⟨el, hel, rfl, rfl⟩ := get_eq_some hget
    have hmem := (h.1.element_eq_some.mp hel).1
    have hfiled := h.moveToFront hmem rfl rfl
    refine ⟨hfiled, fun _ ht => ⟨hfiled, ?_, hanswers ht (ht.decoded el hmem).symm⟩⟩
    exact forall_mem_cons.mpr ⟨ht.decoded el hmem, fun x hx => ht.decoded x (mem_remove.mp hx).1⟩
  | none =>
    cases hvalue : inner raw with
    | error err => exact ⟨h, fun _ ht => ⟨h, ht.decoded, hanswers ht hvalue.symm⟩⟩
    | ok value =>
      obtain ⟨hfiled, hfrom⟩ := h.put raw value
      refine ⟨hfiled, fun hown ht => ⟨hfiled, fun x hx => ?_, hanswers ht hvalue.symm⟩⟩
      rcases hfrom x hx with hx | ⟨rfl, hraw | ⟨el, hel, hkey⟩⟩
      · exact ht.decoded x hx
      · rw [hraw, hvalue]
      · rw [← hkey, hown el hel (by rw [hvalue]; rfl), hvalue]

/-- After every sequence of calls the map and the list agree and are within their bound; and where
no payload that decodes finds its bucket held by another, every answer is the inner decoder's. -/
theorem cached_answers_exact (cacheKey : String → UInt64) (inner : String → Except E V) (maxEntries : Int)
    (raws : List String) (s : Session V E)
    (hrun : Steps.run (Session.call cacheKey inner) ⟨newCachingDecoder V maxEntries, []⟩ raws = some s) :
    Filed cacheKey s.cache ∧
      (Steps.Along (Session.call cacheKey inner) (Unshared cacheKey inner)
          ⟨newCachingDecoder V maxEntries, []⟩ raws → ∀ call ∈ s.answers, call.2 = inner call.1) := by
  have hnew : Filed cacheKey (newCachingDecoder V maxEntries) :=
    ⟨⟨nodup_nil, by simp [newCachingDecoder], by simp [newCachingDecoder]⟩, Nat.zero_le _⟩
  refine ⟨Steps.run_keeps
    (fun _ _ _ h hcall => (call_keeps h hcall).1) hnew hrun, fun halong => ?_⟩
  refine (halong.invariant (I := Transparent cacheKey inner) (fun _ _ _ hown ht hcall =>
    (call_keeps ht.filed hcall).2 hown ht) ⟨hnew, ?_, ?_⟩ hrun).answers
  · simp [newCachingDecoder]
  · simp

/-! ## Recency -/

def CachingDecoder.keys (c : CachingDecoder V) : List String := c.order.map Element.key

/-- A payload comes to the front, and the one not used for longest goes. -/
def touch (maxEntries : Nat) (recent : List String) (raw : String) : List String :=
  (raw :: recent.erase raw).take maxEntries

/-- The payloads answered without an error. -/
def Session.decoded (s : Session V E) : List String :=
  s.answers.filterMap fun call => call.2.toOption.map fun _ => call.1

section

variable (h : Indexed cacheKey c)
include h

theorem Indexed.keys_remove (hel : el ∈ c.order) :
    (c.remove el).map Element.key = c.keys.erase el.key := by
  have hkey : ∀ x ∈ c.order, ∀ y ∈ c.order, x.key = y.key → x = y := fun x hx y hy hsame =>
    h.eq_of_key hx hy (congrArg cacheKey hsame)
  rw [CachingDecoder.keys, (h.ids.of_map.map_on hkey).erase_eq_filter, filter_map]
  refine congrArg _ (filter_congr fun x hx => ?_)
  have hid := h.eq_of_id hx hel
  have hsame := hkey x hx el hel
  grind

theorem Indexed.order_evict {n : Nat} :
    (c.evict cacheKey n).order = c.order.take (c.order.length - n) := by
  induction n generalizing c with
  | zero => simp [CachingDecoder.evict]
  | succ n ih =>
    rw [CachingDecoder.evict]
    cases hlast : c.order.getLast? with
    | none => simp [getLast?_eq_none_iff.mp hlast]
    | some oldest =>
      obtain ⟨newer, horder⟩ := getLast?_eq_some_iff.mp hlast
      have hremove : c.remove oldest = newer := by
        have hids := h.ids
        rw [horder, map_append, nodup_append] at hids
        rw [CachingDecoder.remove, horder, filter_append, filter_eq_self.mpr]
        · simp
        · exact fun x hx => by simpa using hids.2.2 x.id (mem_map_of_mem hx) oldest.id (by simp)
      refine (ih (h.remove (mem_of_getLast? hlast))).trans ?_
      simp only [hremove, horder, length_append, length_singleton, Nat.add_sub_add_right]
      exact (take_append_of_le_length (Nat.sub_le _ _)).symm

end

variable {s s' : Session V E} {raw : String} {n : Nat}

theorem Filed.keys_put (h : Filed cacheKey c) (hfree : c.element (cacheKey raw) = none) (value : V) :
    (c.put cacheKey (cacheKey raw) raw value).keys = touch c.maxEntries c.keys raw ∧
      (c.put cacheKey (cacheKey raw) raw value).maxEntries = c.maxEntries := by
  have hnew : ∀ x ∈ c.order, cacheKey x.key ≠ cacheKey raw := fun x hx hkey => by
    simp [h.1.element_eq_some.mpr ⟨hx, hkey⟩] at hfree
  have hraw : raw ∉ c.keys := by
    intro hmem
    obtain ⟨x, hx, rfl⟩ := mem_map.mp hmem
    exact hnew x hx rfl
  have hpushed := h.1.insert ⟨c.next, raw, value⟩ (fun x hx => Nat.ne_of_lt (h.1.fresh x hx))
    hnew c.next.lt_add_one (c.next.le_add_right 1)
  rw [CachingDecoder.put, hfree]
  refine ⟨?_, hpushed.evict.2.2.2⟩
  rw [touch, erase_of_not_mem hraw, CachingDecoder.keys, hpushed.order_evict, map_take]
  refine take_eq_take_iff.mpr ?_
  simp only [length_cons, length_map]
  omega

theorem call_touches (h : Filed cacheKey s.cache) (hown : Unshared cacheKey inner s raw)
    (hcall : s.call cacheKey inner raw = some s') :
    s'.cache.maxEntries = s.cache.maxEntries ∧
      (s'.cache.keys = s.cache.keys ∧ s'.decoded = s.decoded ∨
        s'.cache.keys = touch s.cache.maxEntries s.cache.keys raw ∧
          s'.decoded = s.decoded ++ [raw]) := by
  cases hcall
  simp only [Session.decoded, filterMap_append, CachingDecoder.decodeScVal]
  cases hget : s.cache.get (cacheKey raw) raw with
  | some hit =>
    obtain ⟨el, hel, rfl, rfl⟩ := get_eq_some hget
    have hmem := (h.1.element_eq_some.mp hel).1
    refine ⟨rfl, .inr ⟨?_, rfl⟩⟩
    rw [touch, ← h.1.keys_remove hmem, take_of_length_le]
    · rfl
    · simpa using Nat.le_trans (length_remove hmem) h.2
  | none =>
    cases hvalue : inner raw with
    | error err => exact ⟨rfl, .inl ⟨rfl, append_nil _⟩⟩
    | ok value =>
      have hfree : s.cache.element (cacheKey raw) = none := by
        cases hel : s.cache.element (cacheKey raw) with
        | none => rfl
        | some el => simp [CachingDecoder.get, hel, hown el hel (by rw [hvalue]; rfl)] at hget
      obtain ⟨hkeys, hmax⟩ := h.keys_put hfree value
      exact ⟨hmax, .inr ⟨hkeys, rfl⟩⟩

/-- The cache holds the `n` payloads decoded last, the latest first. -/
structure Recent (cacheKey : String → UInt64) (n : Nat) (s : Session V E) : Prop where
  filed : Filed cacheKey s.cache
  max_eq : s.cache.maxEntries = n
  keys : s.cache.keys = s.decoded.foldl (touch n) []

theorem Recent.call (hs : Recent cacheKey n s) (hown : Unshared cacheKey inner s raw)
    (hcall : s.call cacheKey inner raw = some s') : Recent cacheKey n s' := by
  obtain ⟨hmax, hcase⟩ := call_touches hs.filed hown hcall
  refine ⟨(call_keeps hs.filed hcall).1, hmax.trans hs.max_eq, ?_⟩
  obtain ⟨hsame, hdecoded⟩ | ⟨htouch, hdecoded⟩ := hcase
  · rw [hsame, hdecoded, hs.keys]
  · rw [htouch, hdecoded, foldl_append, ← hs.keys, hs.max_eq]
    rfl

/-- After every sequence of calls in which no payload that decodes finds its bucket held by another,
the cache holds the payloads decoded last and no others. -/
theorem cache_holds_most_recent (cacheKey : String → UInt64) (inner : String → Except E V)
    (maxEntries : Int) (raws : List String) (s : Session V E)
    (hrun : Steps.run (Session.call cacheKey inner) ⟨newCachingDecoder V maxEntries, []⟩ raws = some s)
    (halong : Steps.Along (Session.call cacheKey inner) (Unshared cacheKey inner)
      ⟨newCachingDecoder V maxEntries, []⟩ raws) :
    s.cache.keys = s.decoded.foldl (touch (newCachingDecoder V maxEntries).maxEntries) [] := by
  have hnew : Filed cacheKey (newCachingDecoder V maxEntries) :=
    ⟨⟨nodup_nil, by simp [newCachingDecoder], by simp [newCachingDecoder]⟩, Nat.zero_le _⟩
  exact (halong.invariant (fun _ _ _ hown hs hcall => Recent.call hs hown hcall)
    ⟨hnew, rfl, rfl⟩ hrun).keys

end Cache

/-- Two payloads of one bucket, the second of which does not decode. -/
theorem cached_answers_exact_one_bucket :
    ∃ s, Steps.run (Session.call (fun _ => 0) fun raw => if raw = "b" then .error () else .ok raw)
        ⟨newCachingDecoder String 1, []⟩ ["a", "b", "a"] = some s ∧ s.answers.length = 3 ∧
      ∀ call ∈ s.answers, call.2 = if call.1 = "b" then .error () else .ok call.1 :=
  ⟨_, rfl, rfl, (cached_answers_exact (fun _ => 0) (fun raw => if raw = "b" then .error () else .ok raw) 1
    ["a", "b", "a"] _ rfl).2 (Steps.Along.of_check (by decide))⟩

/-- A payload that shares the bucket of a cached one replaces its value but not its key. -/
theorem cached_answer_of_other_payload :
    (Steps.run (Session.call (fun _ => 0) .ok) (⟨newCachingDecoder String 2, []⟩ : Session String Unit)
        ["a", "b", "a"]).map Session.answers =
      some [("a", .ok "a"), ("b", .ok "b"), ("a", .ok "b")] := rfl

theorem cache_holds_most_recent_two :
    ∃ s, Steps.run (Session.call (fun raw => .ofNat raw.length) .ok)
        (⟨newCachingDecoder String 2, []⟩ : Session String Unit) ["a", "bb", "a", "ccc"] = some s ∧
      s.cache.keys = ["ccc", "a"] :=
  ⟨_, rfl, cache_holds_most_recent (fun raw => .ofNat raw.length) .ok 2 ["a", "bb", "a", "ccc"] _ rfl
    (Steps.Along.of_check (by decide))⟩

end SoroTrail.Decode
