import Mathlib.Data.List.Sort

/-!
# Keyset paging

A list in strictly ascending key order is read in pages: the first `n` rows past
a key.  Reading on from the key of a page's last row leaves exactly the rows the
page did not hold.
-/

set_option autoImplicit false

namespace SoroTrail.Lib.Keyset

open List

variable {α κ : Type} [LinearOrder κ] {key : α → κ}

def Ascending (key : α → κ) (l : List α) : Prop :=
  l.Pairwise fun x y => key x < key y

def after (key : α → κ) (k : κ) (l : List α) : List α :=
  l.filter fun x => decide (k < key x)

variable {l : List α}

theorem mem_after {k : κ} {x : α} : x ∈ after key k l ↔ x ∈ l ∧ k < key x := by
  simp [after]

theorem Ascending.filter (h : Ascending key l) (p : α → Bool) :
    Ascending key (l.filter p) :=
  List.Pairwise.filter p h

theorem Ascending.after (h : Ascending key l) (k : κ) :
    Ascending key (after key k l) :=
  h.filter _

theorem Ascending.eq_of_key (h : Ascending key l) {x y : α} (hx : x ∈ l) (hy : y ∈ l)
    (heq : key x = key y) : x = y := by
  have hne : (l.map key).Nodup := pairwise_map.mpr (h.imp ne_of_lt)
  exact inj_on_of_nodup_map hne hx hy heq

theorem Ascending.ext {l l' : List α} (h : Ascending key l) (h' : Ascending key l')
    (hmem : ∀ x, x ∈ l ↔ x ∈ l') : l = l' := by
  have hnodup : ∀ {l : List α}, Ascending key l → l.Nodup := fun h =>
    h.imp fun hlt heq => absurd (heq ▸ hlt) (lt_irrefl _)
  have hperm : l.Perm l' := (perm_ext_iff_of_nodup (hnodup h) (hnodup h')).mpr hmem
  refine hperm.eq_of_pairwise ?_ h h'
  intro x y _ _ hxy hyx
  exact absurd hxy (lt_asymm hyx)

theorem after_after {j k : κ} (hjk : j ≤ k) (l : List α) :
    after key k (after key j l) = after key k l := by
  unfold after
  rw [filter_filter]
  refine filter_congr ?_
  intro x _
  by_cases hk : k < key x
  · have hj : j < key x := lt_of_le_of_lt hjk hk
    simp [hk, hj]
  · simp [hk]

theorem after_filter_comm (k : κ) (p : α → Bool) (l : List α) :
    after key k (l.filter p) = (after key k l).filter p := by
  unfold after
  rw [filter_filter, filter_filter]
  refine filter_congr ?_
  intro x _
  exact Bool.and_comm _ _

theorem after_getLast {front rest : List α} (h : Ascending key (front ++ rest)) {last : α}
    (hlast : front.getLast? = some last) : after key (key last) (front ++ rest) = rest := by
  have hsplit := pairwise_append.mp h
  have hmem : last ∈ front := mem_of_getLast? hlast
  have hfront : after key (key last) front = [] := by
    unfold after
    rw [filter_eq_nil_iff]
    intro x hx
    obtain ⟨init, rfl⟩ := List.getLast?_eq_some_iff.mp hlast
    rcases mem_append.mp hx with hx | hx
    · have hlt : key x < key last :=
        (pairwise_append.mp hsplit.1).2.2 x hx last (mem_singleton_self last)
      simp [not_lt_of_ge hlt.le]
    · rw [mem_singleton.mp hx]
      simp
  have hrest : after key (key last) rest = rest := by
    unfold after
    rw [filter_eq_self]
    intro x hx
    simpa using hsplit.2.2 last hmem x hx
  calc after key (key last) (front ++ rest)
      = after key (key last) front ++ after key (key last) rest := filter_append _ _
    _ = rest := by rw [hfront, hrest, nil_append]

theorem after_page (h : Ascending key l) {n : Nat} {last : α}
    (hlast : (l.take n).getLast? = some last) : after key (key last) l = l.drop n := by
  have hl : Ascending key (l.take n ++ l.drop n) := by
    rw [take_append_drop]
    exact h
  have hrest := after_getLast hl hlast
  rwa [take_append_drop] at hrest

end SoroTrail.Lib.Keyset
