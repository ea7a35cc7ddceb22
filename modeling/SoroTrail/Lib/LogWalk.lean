import Mathlib.Data.List.Nodup
import Mathlib.Data.List.TakeWhile

/-!
# Walking a log page by page

A log is in the order of its stamps and is read from the start, one page after the
other; `lo` and `hi` are the stamps the reader is interested in.  What a reader has
seen after `n` entries is compared with a whole range of stamps: a walk that has met
a later stamp, or the end of the log, has seen the range, and a walk that stands
inside a stamp has seen every earlier one.
-/

set_option autoImplicit false

namespace SoroTrail.Lib.LogWalk

open List

variable {τ : Type} {stamp : τ → Int} {log : List τ} {done : τ → Prop} {lo hi : Int} {n : Nat}

def Between (stamp : τ → Int) (log : List τ) (done : τ → Prop) (lo hi : Int) : Prop :=
  ∀ x ∈ log, lo ≤ stamp x → stamp x ≤ hi → done x

def Sorted (stamp : τ → Int) (log : List τ) : Prop :=
  log.Pairwise fun x y => stamp x ≤ stamp y

theorem Between.mono {done' : τ → Prop} (h : Between stamp log done lo hi)
    (hdone : ∀ x, done x → done' x) : Between stamp log done' lo hi :=
  fun x hx hlo hhi => hdone x (h x hx hlo hhi)

theorem between_empty (h : hi < lo) : Between stamp log done lo hi := by
  intro x _ hlo hhi
  omega

theorem Between.join {mid mid' : Int} (hlow : Between stamp log done lo mid)
    (hhigh : Between stamp log done mid' hi) (hmeet : mid' ≤ mid + 1) :
    Between stamp log done lo hi := by
  intro x hx hlo hhi
  by_cases hmid : stamp x ≤ mid
  · exact hlow x hx hlo hmid
  · exact hhigh x hx (by omega) hhi

theorem Between.shrink {lo' hi' : Int} (h : Between stamp log done lo hi) (hlo : lo ≤ lo')
    (hhi : hi' ≤ hi) : Between stamp log done lo' hi' :=
  fun x hx hx' hx'' => h x hx (Int.le_trans hlo hx') (Int.le_trans hx'' hhi)

def Walked (stamp : τ → Int) (log : List τ) (done : τ → Prop) (lo hi : Int) (n : Nat) : Prop :=
  Between stamp (log.take n) done lo hi

theorem walked_zero : Walked stamp log done lo hi 0 := by
  intro x hx
  simp at hx

theorem Walked.mono {done' : τ → Prop} (h : Walked stamp log done lo hi n)
    (hdone : ∀ x, done x → done' x) : Walked stamp log done' lo hi n :=
  Between.mono h hdone

theorem Walked.page {k : Nat} (h : Walked stamp log done lo hi n)
    (hpage : Between stamp ((log.drop n).take k) done lo hi) : Walked stamp log done lo hi (n + k) := by
  intro x hx hlo hhi
  rw [take_add, mem_append] at hx
  rcases hx with hx | hx
  · exact h x hx hlo hhi
  · exact hpage x hx hlo hhi

theorem Walked.all (h : Walked stamp log done lo hi n) (hend : log.length ≤ n) :
    Between stamp log done lo hi := by
  rw [Walked, take_of_length_le hend] at h
  exact h

theorem mem_take_of_stamp_lt {x y : τ} (hsorted : Sorted stamp log) (hx : x ∈ log.take n)
    (hy : y ∈ log) (hlt : stamp y < stamp x) : y ∈ log.take n := by
  rw [← take_append_drop n log] at hsorted hy
  rcases mem_append.mp hy with hy | hy
  · exact hy
  · have hle := (pairwise_append.mp hsorted).2.2 x hx y hy
    omega

theorem Walked.past {x : τ} (h : Walked stamp log done lo hi n) (hsorted : Sorted stamp log)
    (hx : x ∈ log.take n) (hpast : hi < stamp x) : Between stamp log done lo hi :=
  fun y hy hlo hhi => h y (mem_take_of_stamp_lt hsorted hx hy (by omega)) hlo hhi

/-! ## Cursors -/

section Cursor

variable {κ : Type} [DecidableEq κ]

def after (cursor : τ → κ) (log : List τ) (c : κ) : List τ :=
  (log.dropWhile fun x => decide (cursor x ≠ c)).drop 1

theorem after_getLast {cursor : τ → κ} {k : Nat} {x : τ} (hnodup : (log.map cursor).Nodup)
    (hlast : ((log.drop n).take k).getLast? = some x) (hk : k ≤ (log.drop n).length) :
    after cursor log (cursor x) = log.drop (n + k) := by
  have hkpos : 0 < k := by
    rcases Nat.eq_zero_or_pos k with hzero | hpos
    · simp [hzero] at hlast
    · exact hpos
  have hget : log[n + (k - 1)]? = some x := by
    rw [List.getLast?_eq_getElem?, length_take, Nat.min_eq_left hk,
      List.getElem?_take_of_lt (by omega), List.getElem?_drop] at hlast
    exact hlast
  obtain ⟨hlt, hval⟩ := List.getElem?_eq_some_iff.mp hget
  have hsplit : log = log.take (n + (k - 1)) ++ x :: log.drop (n + k) := by
    have hstep : n + k = n + (k - 1) + 1 := by omega
    rw [hstep, ← hval, ← drop_eq_getElem_cons hlt, take_append_drop]
  have hfresh : ∀ y ∈ log.take (n + (k - 1)), cursor y ≠ cursor x := by
    intro y hy heq
    rw [hsplit, map_append] at hnodup
    exact (nodup_append.mp hnodup).2.2 _ (mem_map_of_mem hy) _ (.head _) heq
  have hdrop : log.dropWhile (fun y => decide (cursor y ≠ cursor x)) = x :: log.drop (n + k) := by
    conv_lhs => rw [hsplit]
    rw [dropWhile_append_of_pos (by simpa using hfresh)]
    simp
  rw [after, hdrop]
  rfl

end Cursor

end SoroTrail.Lib.LogWalk
