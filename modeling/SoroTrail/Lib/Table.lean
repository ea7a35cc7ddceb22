import Mathlib.Data.List.Nodup

/-!
# Tables with a primary key

A finite table whose rows differ in their key, with the statements a relational
store runs on it: insert unless the key is taken, insert or merge into the row
that has the key, delete the rows that meet a condition.
-/

set_option autoImplicit false

namespace SoroTrail.Lib

open List

variable {α κ : Type}

/-- Rows with pairwise different keys. -/
@[ext] structure Table (α : Type) {κ : Type} (key : α → κ) where
  rows : List α
  nodup : (rows.map key).Nodup

namespace Table

variable {key : α → κ}

def empty (key : α → κ) : Table α key := ⟨[], nodup_nil⟩

variable {r x : α} {t : Table α key} {rs : List α}

theorem eq_of_key {s : α} (hr : r ∈ t.rows) (hs : s ∈ t.rows) (h : key r = key s) : r = s :=
  inj_on_of_nodup_map t.nodup hr hs h

def delete (p : α → Bool) (t : Table α key) : Table α key where
  rows := t.rows.filter fun r => !p r
  nodup := t.nodup.sublist (filter_sublist.map key)

@[simp] theorem mem_delete {p : α → Bool} : x ∈ (t.delete p).rows ↔ x ∈ t.rows ∧ p x = false := by
  simp [delete]

/-- Change the rows that meet a condition without touching their keys. -/
def update (f : α → α) (hf : ∀ r, key (f r) = key r) (t : Table α key) : Table α key where
  rows := t.rows.map f
  nodup := by
    have hmap : (t.rows.map f).map key = t.rows.map key := by
      rw [map_map]
      exact map_congr_left fun r _ => hf r
    rw [hmap]
    exact t.nodup

@[simp] theorem mem_update {f : α → α} {hf : ∀ r, key (f r) = key r} :
    x ∈ (t.update f hf).rows ↔ ∃ r ∈ t.rows, f r = x := by
  simp [update]

theorem mem_update_update {f : α → α} {hf : ∀ r, key (f r) = key r} (h : ∀ r, f (f r) = f r) :
    x ∈ ((t.update f hf).update f hf).rows ↔ x ∈ (t.update f hf).rows := by
  simp [update, h]

variable [DecidableEq κ]

def get (t : Table α key) (k : κ) : Option α :=
  t.rows.find? fun r => decide (key r = k)

theorem get_eq_some_iff {k : κ} : t.get k = some r ↔ r ∈ t.rows ∧ key r = k := by
  constructor
  · intro h
    exact ⟨mem_of_find?_eq_some h, by simpa using List.find?_some h⟩
  · rintro ⟨hr, hk⟩
    cases hget : t.get k with
    | none =>
      have := List.find?_eq_none.mp hget r hr
      simp [hk] at this
    | some s =>
      have hs : s ∈ t.rows := mem_of_find?_eq_some hget
      have hsk : key s = k := by simpa using List.find?_some hget
      rw [eq_of_key hs hr (hsk.trans hk.symm)]

theorem get_eq_none_iff {k : κ} : t.get k = none ↔ ∀ r ∈ t.rows, key r ≠ k := by
  simp [get, List.find?_eq_none]

omit [DecidableEq κ] in
private theorem nodup_append_row (h : key r ∉ t.rows.map key) :
    ((t.rows ++ [r]).map key).Nodup := by
  rw [map_append]
  exact t.nodup.append (nodup_singleton _) (by simpa using h)

/-- `INSERT … ON CONFLICT (key) DO NOTHING`. -/
def insertNew (t : Table α key) (r : α) : Table α key :=
  if h : key r ∈ t.rows.map key then t else ⟨t.rows ++ [r], nodup_append_row h⟩

theorem mem_insertNew :
    x ∈ (t.insertNew r).rows ↔ x ∈ t.rows ∨ (x = r ∧ key r ∉ t.rows.map key) := by
  rw [insertNew]
  by_cases h : key r ∈ t.rows.map key
  · rw [dif_pos h]
    constructor
    · exact .inl
    · rintro (hx | ⟨_, hr⟩)
      · exact hx
      · exact absurd h hr
  · rw [dif_neg h]
    simp only [mem_append, mem_singleton]
    constructor
    · rintro (hx | hx)
      · exact .inl hx
      · exact .inr ⟨hx, h⟩
    · rintro (hx | ⟨hx, _⟩)
      · exact .inl hx
      · exact .inr hx

theorem subset_insertNew (h : x ∈ t.rows) : x ∈ (t.insertNew r).rows :=
  mem_insertNew.mpr (.inl h)

theorem exists_insertNew (t : Table α key) (r : α) :
    ∃ x ∈ (t.insertNew r).rows, key x = key r := by
  by_cases h : key r ∈ t.rows.map key
  · obtain ⟨x, hx, hk⟩ := mem_map.mp h
    exact ⟨x, subset_insertNew hx, hk⟩
  · exact ⟨r, mem_insertNew.mpr (.inr ⟨rfl, h⟩), rfl⟩

/-- `INSERT … ON CONFLICT (key) DO UPDATE`, with `m old new` the row left. -/
def merge (m : α → α → α) (hm : ∀ old new, key old = key new → key (m old new) = key old)
    (t : Table α key) (r : α) : Table α key :=
  if h : key r ∈ t.rows.map key then
    t.update (fun old => if key old = key r then m old r else old) (by
      intro old
      by_cases hk : key old = key r
      · rw [if_pos hk, hm old r hk]
      · rw [if_neg hk])
  else ⟨t.rows ++ [r], nodup_append_row h⟩

theorem mem_merge {m : α → α → α} {hm : ∀ old new, key old = key new → key (m old new) = key old} :
    x ∈ (t.merge m hm r).rows ↔
      (x ∈ t.rows ∧ key x ≠ key r) ∨ (x = r ∧ key r ∉ t.rows.map key) ∨
        ∃ old ∈ t.rows, key old = key r ∧ m old r = x := by
  rw [merge]
  by_cases h : key r ∈ t.rows.map key
  · rw [dif_pos h, mem_update]
    constructor
    · rintro ⟨old, hold, rfl⟩
      by_cases hk : key old = key r
      · exact .inr (.inr ⟨old, hold, hk, by rw [if_pos hk]⟩)
      · rw [if_neg hk]
        exact .inl ⟨hold, hk⟩
    · rintro (⟨hx, hk⟩ | ⟨_, hr⟩ | ⟨old, hold, hk, rfl⟩)
      · exact ⟨x, hx, if_neg hk⟩
      · exact absurd h hr
      · exact ⟨old, hold, if_pos hk⟩
  · rw [dif_neg h]
    simp only [mem_append, mem_singleton]
    constructor
    · rintro (hx | hx)
      · refine .inl ⟨hx, ?_⟩
        intro hk
        exact h (mem_map.mpr ⟨x, hx, hk⟩)
      · exact .inr (.inl ⟨hx, h⟩)
    · rintro (⟨hx, _⟩ | ⟨hx, _⟩ | ⟨old, hold, hk, _⟩)
      · exact .inl hx
      · exact .inr hx
      · exact absurd (mem_map.mpr ⟨old, hold, hk⟩) h

/-- `INSERT … ON CONFLICT (key) DO UPDATE` of every other column. -/
def put (t : Table α key) (r : α) : Table α key :=
  t.merge (fun _ new => new) (fun _ _ h => h.symm) r

theorem mem_put : x ∈ (t.put r).rows ↔ x = r ∨ (x ∈ t.rows ∧ key x ≠ key r) := by
  unfold put
  rw [mem_merge]
  constructor
  · rintro (h | ⟨hx, _⟩ | ⟨_, _, _, hx⟩)
    · exact .inr h
    · exact .inl hx
    · exact .inl hx.symm
  · rintro (rfl | h)
    · by_cases hk : key x ∈ t.rows.map key
      · obtain ⟨old, hold, hk⟩ := mem_map.mp hk
        exact .inr (.inr ⟨old, hold, hk, rfl⟩)
      · exact .inr (.inl ⟨rfl, hk⟩)
    · exact .inl h

@[simp] theorem get_put_self (t : Table α key) (r : α) : (t.put r).get (key r) = some r :=
  get_eq_some_iff.mpr ⟨mem_put.mpr (.inl rfl), rfl⟩

theorem get_put_ne {k : κ} (h : k ≠ key r) : (t.put r).get k = t.get k := by
  cases hget : t.get k with
  | none =>
    rw [get_eq_none_iff] at hget ⊢
    intro x hx
    rcases mem_put.mp hx with rfl | ⟨hx, _⟩
    · exact h.symm
    · exact hget x hx
  | some s =>
    obtain ⟨hs, hk⟩ := get_eq_some_iff.mp hget
    exact get_eq_some_iff.mpr ⟨mem_put.mpr (.inr ⟨hs, hk ▸ h⟩), hk⟩

def insertAll (t : Table α key) (rs : List α) : Table α key :=
  rs.foldl insertNew t

theorem insertAll_cons (t : Table α key) (r : α) (rs : List α) :
    t.insertAll (r :: rs) = (t.insertNew r).insertAll rs := rfl

theorem subset_insertAll (h : x ∈ t.rows) : x ∈ (t.insertAll rs).rows := by
  induction rs generalizing t with
  | nil => exact h
  | cons r rs ih => exact ih (subset_insertNew h)

theorem mem_insertAll (h : x ∈ (t.insertAll rs).rows) : x ∈ t.rows ∨ x ∈ rs := by
  induction rs generalizing t with
  | nil => exact .inl h
  | cons r rs ih =>
    rcases ih h with hx | hx
    · rcases mem_insertNew.mp hx with hx | ⟨rfl, _⟩
      · exact .inl hx
      · exact Or.inr mem_cons_self
    · exact .inr (.tail _ hx)

theorem exists_insertAll (h : r ∈ rs) : ∃ x ∈ (t.insertAll rs).rows, key x = key r := by
  induction rs generalizing t with
  | nil => cases h
  | cons s rs ih =>
    rcases mem_cons.mp h with rfl | h
    · obtain ⟨x, hx, hk⟩ := exists_insertNew t r
      rw [insertAll_cons]
      exact ⟨x, subset_insertAll hx, hk⟩
    · exact ih h

theorem length_insertAll (hnew : ∀ x ∈ t.rows, ∀ r ∈ rs, key x ≠ key r)
    (hnodup : (rs.map key).Nodup) : (t.insertAll rs).rows.length = t.rows.length + rs.length := by
  induction rs generalizing t with
  | nil => rfl
  | cons r rs ih =>
    rw [map_cons, nodup_cons] at hnodup
    have hinsert : (t.insertNew r).rows.length = t.rows.length + 1 := by
      have hr : key r ∉ t.rows.map key := by
        intro hmem
        obtain ⟨x, hx, hkey⟩ := mem_map.mp hmem
        exact hnew x hx r (.head _) hkey
      simp [insertNew, hr]
    have hrest : ∀ x ∈ (t.insertNew r).rows, ∀ s ∈ rs, key x ≠ key s := by
      intro x hx s hs
      rcases mem_insertNew.mp hx with hx | ⟨rfl, _⟩
      · exact hnew x hx s (.tail _ hs)
      · exact fun hkey => hnodup.1 (hkey ▸ mem_map_of_mem hs)
    rw [insertAll_cons, ih hrest hnodup.2, length_cons]
    omega

theorem mem_insertAll_first (h : x ∈ (t.insertAll rs).rows) :
    x ∈ t.rows ∨ rs.find? (fun r => decide (key r = key x)) = some x := by
  induction rs generalizing t with
  | nil => exact .inl h
  | cons r rs ih =>
    have hfirst : x ∈ (t.insertNew r).rows →
        x ∈ t.rows ∨ (r :: rs).find? (fun r => decide (key r = key x)) = some x := by
      intro hx
      rcases mem_insertNew.mp hx with hx | ⟨rfl, _⟩
      · exact .inl hx
      · exact .inr (by simp)
    rcases ih h with hx | hx
    · exact hfirst hx
    · by_cases hkey : key r = key x
      · -- the row with the key of `r` is kept, so it is `x`
        obtain ⟨y, hy, hyr⟩ := exists_insertNew t r
        have hxy : y = x := eq_of_key (subset_insertAll hy) h (hyr.trans hkey)
        exact hfirst (hxy ▸ hy)
      · exact .inr (by rw [List.find?_cons_of_neg (by simpa using hkey), hx])

end Table

end SoroTrail.Lib
