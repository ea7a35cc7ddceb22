import Mathlib.Data.List.Sort
import Mathlib.Data.List.TakeWhile

/-!
# Walking a table page by page

A walk asks for the rows a cursor selects, in key order, keeps the first `limit`
of them and goes on from the key of the last one while there were more.  Rows
with one key come in any order, and the order may change from one query to the
next.  `Served` says which selections make every walk return the wanted rows.
-/

set_option autoImplicit false

namespace SoroTrail.Lib.Paging

open List

variable {α κ : Type} [LinearOrder κ]

def follows (key : α → κ) : Option κ → α → Bool
  | none, _ => true
  | some c, r => decide (c < key r)

def Sorted (key : α → κ) (l : List α) : Prop :=
  l.Pairwise fun x y => key x ≤ key y

/-- `all` is the selection of cursor `c` in an order the database may return it in. -/
def Arranges (key : α → κ) (sel : Option κ → α → Bool) (rows : List α) (c : Option κ)
    (all : List α) : Prop :=
  all.Perm (rows.filter (sel c)) ∧ Sorted key all

inductive Walk (key : α → κ) (sel : Option κ → α → Bool) (limit : Nat) (rows : List α) :
    Option κ → List α → Prop
  | last {c : Option κ} {all : List α} (h : Arranges key sel rows c all)
      (hshort : all.length ≤ limit) : Walk key sel limit rows c all
  | more {c : Option κ} {all out : List α} {r : α} (h : Arranges key sel rows c all)
      (hlong : limit < all.length) (hlast : (all.take limit).getLast? = some r)
      (hrest : Walk key sel limit rows (some (key r)) out) :
      Walk key sel limit rows c (all.take limit ++ out)

/-- From cursor `c` on, the selections serve the wanted rows: either all that is left fits in
one page, or the next page ends at key `d`. -/
inductive Served (key : α → κ) (sel : Option κ → α → Bool) (limit : Nat) (rows : List α)
    (wanted : α → Bool) : Option κ → Prop
  | last {c : Option κ}
      (exact : ∀ r ∈ rows, sel c r = true ↔ wanted r = true ∧ follows key c r = true)
      (fits : rows.countP (fun r => wanted r && follows key c r) ≤ limit) :
      Served key sel limit rows wanted c
  | more {c : Option κ} (d : κ) (ends : ∃ r ∈ rows, wanted r = true ∧ follows key c r = true ∧ key r = d)
      (full : rows.countP (fun r => wanted r && follows key c r && decide (key r ≤ d)) = limit)
      (exact : ∀ r ∈ rows, key r ≤ d →
        (sel c r = true ↔ wanted r = true ∧ follows key c r = true))
      (goesOn : ∃ r ∈ rows, d < key r ∧ sel c r = true)
      (rest : Served key sel limit rows wanted (some d)) :
      Served key sel limit rows wanted c

variable {key : α → κ} {sel : Option κ → α → Bool} {limit : Nat} {rows : List α} {wanted : α → Bool}

/-! ## Sorted lists -/

variable {l : List α} {r : α} {c : Option κ}

theorem sorted_le_getLast {x : α} (hs : Sorted key l) (hlast : l.getLast? = some r) (hx : x ∈ l) :
    key x ≤ key r := by
  obtain ⟨init, rfl⟩ := List.getLast?_eq_some_iff.mp hlast
  rcases mem_append.mp hx with hx | hx
  · exact (pairwise_append.mp hs).2.2 x hx r (.head _)
  · rw [mem_singleton.mp hx]

theorem sorted_split (hs : Sorted key l) (d : κ) :
    l.filter (fun r => decide (key r ≤ d)) ++ l.filter (fun r => decide (d < key r)) = l := by
  induction l with
  | nil => rfl
  | cons x l ih =>
    have hx := pairwise_cons.mp hs
    by_cases hd : key x ≤ d
    · rw [filter_cons_of_pos (by simpa using hd),
        filter_cons_of_neg (by simpa using hd), cons_append, ih hx.2]
    · have hbeyond : ∀ y ∈ x :: l, d < key y := forall_mem_cons.mpr
        ⟨not_le.mp hd, fun y hy => (not_le.mp hd).trans_le (hx.1 y hy)⟩
      rw [filter_eq_nil_iff.mpr (by simpa using hbeyond),
        filter_eq_self.mpr (by simpa using hbeyond), nil_append]

theorem exists_arranges (key : α → κ) (sel : Option κ → α → Bool) (rows : List α) (c : Option κ) :
    ∃ all, Arranges key sel rows c all :=
  ⟨(rows.filter (sel c)).insertionSort fun x y => key x ≤ key y, perm_insertionSort _ _,
    pairwise_insertionSort _ _⟩

theorem Arranges.mem_iff {all : List α} (h : Arranges key sel rows c all) :
    r ∈ all ↔ r ∈ rows ∧ sel c r = true := by
  rw [h.1.mem_iff, mem_filter]

/-- A selected row with few selected rows before it may come early. -/
theorem exists_arranges_early [DecidableEq α] {w : α} (hw : w ∈ rows) (hsel : sel c w = true)
    (hfew : (rows.filter (sel c)).countP (fun r => decide (key r < key w)) < limit) :
    ∃ all, Arranges key sel rows c all ∧ w ∈ all.take limit := by
  obtain ⟨all, hall⟩ := exists_arranges key sel rows c
  have hmem : w ∈ all := hall.mem_iff.mpr ⟨hw, hsel⟩
  have hsorted : Sorted key (all.erase w) := hall.2.sublist erase_sublist
  let early := (all.erase w).orderedInsert (fun x y => key x ≤ key y) w
  have hperm : early.Perm all :=
    (perm_orderedInsert _ _ _).trans (perm_cons_erase hmem).symm
  refine ⟨early, ⟨hperm.trans hall.1, hsorted.orderedInsert w _⟩, ?_⟩
  -- in front of `w` stand only rows with a smaller key
  let front := (all.erase w).takeWhile fun b => decide ¬ key w ≤ key b
  have hearly : early = front ++ w :: (all.erase w).dropWhile fun b => decide ¬ key w ≤ key b :=
    orderedInsert_eq_take_drop _ _ _
  have hfront : front.length < limit := by
    calc front.length
        = front.countP (fun r => decide (key r < key w)) := by
          symm
          rw [countP_eq_length]
          intro x hx
          have := mem_takeWhile_imp hx
          simpa using this
      _ ≤ early.countP (fun r => decide (key r < key w)) := by
          rw [hearly, countP_append]
          exact Nat.le_add_right _ _
      _ = (rows.filter (sel c)).countP (fun r => decide (key r < key w)) :=
          (hperm.trans hall.1).countP_eq _
      _ < limit := hfew
  rw [hearly, take_append]
  apply mem_append_right
  obtain ⟨n, hn⟩ := Nat.exists_eq_add_of_lt hfront
  rw [show limit - front.length = n + 1 by omega]
  exact (.head _)

/-! ## Walks -/

theorem follows_of_lt {s : α} (hr : follows key c r = true) (hlt : follows key (some (key r)) s = true) :
    follows key c s = true := by
  cases c with
  | none => rfl
  | some c =>
    simp only [follows, decide_eq_true_eq] at hr hlt ⊢
    exact hr.trans hlt

variable {out : List α}

section Walks

variable (hpast : ∀ c r, sel c r = true → follows key c r = true)

include hpast

theorem Walk.mem {c : Option κ} (h : Walk key sel limit rows c out) {r : α}
    (hr : r ∈ out) : r ∈ rows ∧ follows key c r = true := by
  induction h with
  | last h _ => exact (h.mem_iff.mp hr).imp_right fun hsel => hpast _ _ hsel
  | @more c all out last h _ hlast _ ih =>
    rcases mem_append.mp hr with hr | hr
    · exact (h.mem_iff.mp (mem_of_mem_take hr)).imp_right fun hsel => hpast _ _ hsel
    · have hmem : last ∈ all := mem_of_mem_take (mem_of_getLast? hlast)
      exact (ih hr).imp_right (follows_of_lt (hpast _ _ (h.mem_iff.mp hmem).2))

theorem follows_fewer {c : Option κ} {r : α} (hr : r ∈ rows) (hsel : sel c r = true) :
    rows.countP (follows key (some (key r))) < rows.countP (follows key c) := by
  have hfilter : rows.filter (follows key (some (key r))) =
      (rows.filter (follows key c)).filter (follows key (some (key r))) := by
    rw [filter_filter]
    apply filter_congr
    intro x _
    by_cases hxr : follows key (some (key r)) x = true
    · rw [hxr, follows_of_lt (hpast _ _ hsel) hxr, Bool.and_self]
    · simp [hxr]
  rw [countP_eq_length_filter, countP_eq_length_filter, hfilter,
    length_filter_lt_length_iff_exists]
  exact ⟨r, mem_filter.mpr ⟨hr, hpast _ _ hsel⟩, by simp [follows]⟩

theorem exists_walk (hlimit : 0 < limit) (c : Option κ) : ∃ out, Walk key sel limit rows c out := by
  induction hn : rows.countP (follows key c) using Nat.strong_induction_on generalizing c with
  | _ n ih =>
    obtain ⟨all, hall⟩ := exists_arranges key sel rows c
    by_cases hshort : all.length ≤ limit
    · exact ⟨all, .last hall hshort⟩
    · have hne : all.take limit ≠ [] := by
        rw [← length_pos_iff, length_take]
        omega
      have hlast := List.getLast?_eq_some_getLast hne
      have hmem := hall.mem_iff.mp (mem_of_mem_take (getLast_mem hne))
      obtain ⟨out, hout⟩ :=
        ih _ (by rw [← hn]; exact follows_fewer hpast hmem.1 hmem.2) (some _) rfl
      exact ⟨_, .more hall (by omega) hlast hout⟩

end Walks

/-! ## Served walks -/

def left (key : α → κ) (rows : List α) (wanted : α → Bool) (c : Option κ) : List α :=
  rows.filter fun r => wanted r && follows key c r

theorem mem_left :
    r ∈ left key rows wanted c ↔ r ∈ rows ∧ wanted r = true ∧ follows key c r = true := by
  simp [left]

theorem left_split (hr : follows key c r = true) :
    ((left key rows wanted c).filter (fun x => decide (key x ≤ key r)) ++
      left key rows wanted (some (key r))).Perm (left key rows wanted c) := by
  have hpast : left key rows wanted (some (key r)) =
      (left key rows wanted c).filter fun x => !decide (key x ≤ key r) := by
    unfold left
    rw [filter_filter]
    apply filter_congr
    intro x _
    have hcursor : follows key (some (key r)) x = decide (key r < key x) := rfl
    by_cases hlt : key r < key x
    · simp [follows_of_lt hr (hcursor.trans (decide_eq_true hlt)), hcursor, hlt]
    · simp [hcursor, hlt, not_lt.mp hlt]
  rw [hpast]
  exact filter_append_perm _ _

theorem Served.walk (h : Served key sel limit rows wanted c)
    (hwalk : Walk key sel limit rows c out) :
    out.Perm (left key rows wanted c) ∧ Sorted key out := by
  induction h generalizing out with
  | @last c exact fits =>
    have hsel : rows.filter (sel c) = left key rows wanted c := by
      apply filter_congr
      intro r hr
      rw [Bool.eq_iff_iff, Bool.and_eq_true]
      exact exact r hr
    cases hwalk with
    | last hall _ => exact ⟨hsel ▸ hall.1, hall.2⟩
    | more hall hlong =>
      rw [countP_eq_length_filter, ← left, ← hsel, ← hall.1.length_eq] at fits
      omega
  | @more c d ends full exact goesOn _ ih =>
    obtain ⟨w, hw, hwanted, hfollows, rfl⟩ := ends
    -- whatever the order, the page holds the rows up to the key and nothing else
    have hpage : ∀ all, Arranges key sel rows c all →
        (all.filter fun r => decide (key r ≤ key w)).Perm
            ((left key rows wanted c).filter fun r => decide (key r ≤ key w)) ∧
          limit < all.length ∧
          all.take limit = all.filter fun r => decide (key r ≤ key w) := by
      intro all hall
      have hperm : (all.filter fun r => decide (key r ≤ key w)).Perm
          ((left key rows wanted c).filter fun r => decide (key r ≤ key w)) := by
        apply (hall.1.filter _).trans
        rw [left, filter_filter, filter_filter]
        apply List.Perm.of_eq
        apply filter_congr
        intro r hr
        by_cases hle : key r ≤ key w
        · rw [Bool.eq_iff_iff]
          simpa [hle] using exact r hr hle
        · simp [hle]
      have hlength : (all.filter fun r => decide (key r ≤ key w)).length = limit := by
        rw [hperm.length_eq, left, filter_filter, ← countP_eq_length_filter, ← full]
        apply countP_congr
        simp [and_comm]
      have hsplit := sorted_split hall.2 (key w)
      obtain ⟨g, hg, hbeyond, hsel⟩ := goesOn
      have hgmem : g ∈ all.filter fun r => decide (key w < key r) :=
        mem_filter.mpr ⟨hall.mem_iff.mpr ⟨hg, hsel⟩, by simpa using hbeyond⟩
      refine ⟨hperm, ?_, ?_⟩
      · rw [← hsplit, length_append]
        have := length_pos_of_mem hgmem
        omega
      · nth_rewrite 1 [← hsplit]
        rw [← hlength]
        exact take_left
    cases hwalk with
    | last hall hshort =>
      have := (hpage out hall).2.1
      omega
    | @more _ all tail r hall hlong hlast hrest =>
      obtain ⟨hperm, _, htake⟩ := hpage all hall
      rw [htake] at hlast ⊢
      have hsorted : Sorted key (all.filter fun r => decide (key r ≤ key w)) :=
        hall.2.filter _
      have hwmem : w ∈ all.filter fun r => decide (key r ≤ key w) :=
        hperm.mem_iff.mpr (mem_filter.mpr
          ⟨mem_left.mpr ⟨hw, hwanted, hfollows⟩, by simp⟩)
      have hkey : key r = key w := by
        apply le_antisymm
        · simpa using (mem_filter.mp (mem_of_getLast? hlast)).2
        · exact sorted_le_getLast hsorted hlast hwmem
      rw [hkey] at hrest
      obtain ⟨htail, htailSorted⟩ := ih hrest
      refine ⟨(hperm.append htail).trans (left_split hfollows), ?_⟩
      apply pairwise_append.mpr
      refine ⟨hsorted, htailSorted, ?_⟩
      intro x hx y hy
      have hxle : key x ≤ key w := by simpa using (mem_filter.mp hx).2
      have hylt := (mem_left.mp (htail.mem_iff.mp hy)).2.2
      simp only [follows, decide_eq_true_eq] at hylt
      exact hxle.trans hylt.le

theorem drop_ge_getLast_take {n : Nat} {x : α} (hs : Sorted key l)
    (hlast : (l.take n).getLast? = some r) (hx : x ∈ l.drop n) : key r ≤ key x := by
  have hsplit : Sorted key (l.take n ++ l.drop n) := by
    rw [take_append_drop]
    exact hs
  exact (pairwise_append.mp hsplit).2.2 r (mem_of_getLast? hlast) x hx

/-- Selections that are exact at the cursor of every row return the wanted rows, if keys tell the rows
apart. -/
theorem Walk.of_exact (hkeys : ∀ x ∈ rows, ∀ y ∈ rows, key x = key y → x = y)
    (hnodup : rows.Nodup)
    (hexact : ∀ c, (∀ k ∈ c, ∃ x ∈ rows, key x = k) → ∀ r ∈ rows,
      (sel c r = true ↔ wanted r = true ∧ follows key c r = true))
    (h : Walk key sel limit rows c out) (hc : ∀ k ∈ c, ∃ x ∈ rows, key x = k) :
    out.Perm (left key rows wanted c) ∧ Sorted key out := by
  have hleft {c : Option κ} {all : List α} (hc : ∀ k ∈ c, ∃ x ∈ rows, key x = k)
      (hall : Arranges key sel rows c all) : all.Perm (left key rows wanted c) := by
    refine hall.1.trans (List.Perm.of_eq (filter_congr fun r hr => ?_))
    rw [Bool.eq_iff_iff, Bool.and_eq_true]
    exact hexact c hc r hr
  induction h with
  | last hall _ => exact ⟨hleft hc hall, hall.2⟩
  | @more c all out r hall hlong hlast _ ih =>
    have hr := hall.mem_iff.mp (mem_of_mem_take (mem_of_getLast? hlast))
    have hfollows := ((hexact c hc r hr.1).mp hr.2).2
    obtain ⟨hperm, hsorted⟩ := ih fun k hk => ⟨r, hr.1, Option.mem_some_iff.mp hk⟩
    have hpage : ∀ x ∈ all.take limit, key x ≤ key r := fun x hx =>
      sorted_le_getLast (hall.2.sublist (take_sublist _ _)) hlast hx
    -- keys tell rows apart: what comes after the page lies past its last key
    have hbeyond : ∀ x ∈ all.drop limit, ¬ key x ≤ key r := by
      intro x hx hle
      have hx' := hall.mem_iff.mp (mem_of_mem_drop hx)
      have heq := hkeys x hx'.1 r hr.1 (le_antisymm hle (drop_ge_getLast_take hall.2 hlast hx))
      rw [heq] at hx
      exact disjoint_take_drop (hall.1.nodup_iff.mpr (hnodup.filter _)) (le_refl limit)
        (mem_of_getLast? hlast) hx
    have htake : all.take limit = all.filter fun x => decide (key x ≤ key r) := by
      conv_rhs => rw [← take_append_drop limit all]
      rw [filter_append, filter_eq_self.mpr (by simpa using hpage),
        filter_eq_nil_iff.mpr (by simpa using hbeyond), append_nil]
    refine ⟨?_, pairwise_append.mpr ⟨hall.2.sublist (take_sublist _ _), hsorted, ?_⟩⟩
    · rw [htake]
      exact (((hleft hc hall).filter _).append hperm).trans (left_split hfollows)
    · intro x hx y hy
      have hylt := (mem_left.mp (hperm.mem_iff.mp hy)).2.2
      simp only [follows, decide_eq_true_eq] at hylt
      exact (hpage x hx).trans hylt.le

theorem countP_lt_getLast_take {n : Nat} (hs : Sorted key l)
    (hlast : (l.take n).getLast? = some r) : l.countP (fun x => decide (key x < key r)) < n := by
  have hdrop : (l.drop n).countP (fun x => decide (key x < key r)) = 0 := by
    rw [countP_eq_zero]
    intro x hx
    simpa using drop_ge_getLast_take hs hlast hx
  have htake : (l.take n).countP (fun x => decide (key x < key r)) < (l.take n).length := by
    rw [countP_eq_length_filter, length_filter_lt_length_iff_exists]
    exact ⟨r, mem_of_getLast? hlast, by simp⟩
  calc l.countP (fun x => decide (key x < key r))
      = (l.take n ++ l.drop n).countP (fun x => decide (key x < key r)) := by
        rw [take_append_drop]
    _ < (l.take n).length := by
        rw [countP_append, hdrop]
        exact htake
    _ ≤ n := length_take_le n l

/-- If every walk from a cursor returns the wanted rows in order, the rows are served. -/
theorem served_of_walks [DecidableEq α] (hpast : ∀ c r, sel c r = true → follows key c r = true)
    (hnodup : rows.Nodup) (hlimit : 0 < limit) (c : Option κ)
    (h : ∀ out, Walk key sel limit rows c out →
      out.Perm (left key rows wanted c) ∧ Sorted key out) :
    Served key sel limit rows wanted c := by
  induction hn : rows.countP (follows key c) using Nat.strong_induction_on generalizing c with
  | _ n ih =>
    obtain ⟨all, hall⟩ := exists_arranges key sel rows c
    by_cases hshort : all.length ≤ limit
    · obtain ⟨hperm, _⟩ := h all (.last hall hshort)
      apply Served.last
      · intro r hr
        have hsel : r ∈ all ↔ sel c r = true := by simp [hall.mem_iff, hr]
        have hwant : r ∈ left key rows wanted c ↔ wanted r = true ∧ follows key c r = true := by
          simp [mem_left, hr]
        rw [← hsel, ← hwant, hperm.mem_iff]
      · rw [countP_eq_length_filter, ← left, ← hperm.length_eq]
        exact hshort
    have hne : all.take limit ≠ [] := by
      rw [← length_pos_iff, length_take]
      omega
    obtain ⟨w, hlast⟩ : ∃ w, (all.take limit).getLast? = some w :=
      ⟨_, List.getLast?_eq_some_getLast hne⟩
    have hw := hall.mem_iff.mp (mem_of_mem_take (mem_of_getLast? hlast))
    have hfollows : follows key c w = true := hpast c w hw.2
    have hcont : ∀ tail, Walk key sel limit rows (some (key w)) tail →
        (all.take limit ++ tail).Perm (left key rows wanted c) ∧
          Sorted key (all.take limit ++ tail) :=
      fun tail htail => h _ (.more hall (by omega) hlast htail)
    -- the page is what is wanted up to its last key
    have hupto : (all.take limit).Perm
        ((left key rows wanted c).filter fun x => decide (key x ≤ key w)) := by
      obtain ⟨tail, htail⟩ : ∃ tail, Walk key sel limit rows (some (key w)) tail :=
        exists_walk hpast hlimit _
      have hfilter := (hcont tail htail).1.filter fun x => decide (key x ≤ key w)
      have hpage : (all.take limit).filter (fun x => decide (key x ≤ key w)) = all.take limit := by
        rw [filter_eq_self]
        intro x hx
        simpa using sorted_le_getLast (hall.2.sublist (take_sublist _ _)) hlast hx
      have htailPast : tail.filter (fun x => decide (key x ≤ key w)) = [] := by
        rw [filter_eq_nil_iff]
        intro x hx
        have hlt := (htail.mem hpast hx).2
        simpa [follows] using hlt
      rwa [filter_append, hpage, htailPast, append_nil] at hfilter
    have hrest : ∀ tail, Walk key sel limit rows (some (key w)) tail →
        tail.Perm (left key rows wanted (some (key w))) ∧ Sorted key tail := by
      intro tail htail
      obtain ⟨hperm, hsorted⟩ := hcont tail htail
      refine ⟨?_, (pairwise_append.mp hsorted).2.1⟩
      have hboth := hperm.trans (left_split hfollows).symm
      exact (perm_append_left_iff _).mp (hboth.trans (hupto.symm.append_right _))
    have hearly : ∀ all', Arranges key sel rows c all' → ∀ x ∈ all'.take limit,
        x ∈ left key rows wanted c := by
      intro all' hall' x hx
      have hlength : all'.length = all.length := (hall'.1.trans hall.1.symm).length_eq
      have hlast' := List.getLast?_eq_some_getLast (ne_nil_of_mem hx)
      obtain ⟨tail, htail⟩ : ∃ tail, Walk key sel limit rows
          (some (key ((all'.take limit).getLast (ne_nil_of_mem hx)))) tail :=
        exists_walk hpast hlimit _
      have hperm := (h _ (.more hall' (by omega) hlast' htail)).1
      exact hperm.mem_iff.mp (mem_append_left _ hx)
    have hexact : ∀ r ∈ rows, key r ≤ key w →
        (sel c r = true ↔ wanted r = true ∧ follows key c r = true) := by
      intro r hr hle
      constructor
      · intro hsel
        -- few rows stand before it, so in some order it is on the page
        have hfew : (rows.filter (sel c)).countP (fun x => decide (key x < key r)) < limit := by
          rw [← hall.1.countP_eq]
          refine lt_of_le_of_lt (countP_mono_left ?_) (countP_lt_getLast_take hall.2 hlast)
          intro x _ hx
          simpa using lt_of_lt_of_le (by simpa using hx) hle
        obtain ⟨all', hall', hmem⟩ := exists_arranges_early hr hsel hfew
        exact (mem_left.mp (hearly all' hall' r hmem)).2
      · intro hwant
        have hmem : r ∈ all.take limit := hupto.mem_iff.mpr
          (mem_filter.mpr ⟨mem_left.mpr ⟨hr, hwant⟩, by simpa using hle⟩)
        exact (hall.mem_iff.mp (mem_of_mem_take hmem)).2
    have hgoesOn : ∃ r ∈ rows, key w < key r ∧ sel c r = true := by
      have hpos : 0 < (all.drop limit).length := by
        rw [length_drop]
        omega
      obtain ⟨x, hx⟩ := exists_mem_of_length_pos hpos
      have hxall := hall.mem_iff.mp (mem_of_mem_drop hx)
      refine ⟨x, hxall.1, ?_, hxall.2⟩
      by_contra hle
      have hxwant := (hexact x hxall.1 (not_lt.mp hle)).mp hxall.2
      have hxpage : x ∈ all.take limit := hupto.mem_iff.mpr
        (mem_filter.mpr ⟨mem_left.mpr ⟨hxall.1, hxwant⟩, by simpa using not_lt.mp hle⟩)
      have hall_nodup : all.Nodup := hall.1.nodup_iff.mpr (hnodup.filter _)
      exact disjoint_take_drop hall_nodup (le_refl limit) hxpage hx
    refine Served.more (key w) ⟨w, hw.1, ((hexact w hw.1 le_rfl).mp hw.2).1, hfollows, rfl⟩ ?_
      hexact hgoesOn (ih _ ?_ _ hrest rfl)
    · have hlength := hupto.length_eq
      rw [length_take, left, filter_filter, ← countP_eq_length_filter] at hlength
      rw [show limit = min limit all.length by omega, hlength]
      apply countP_congr
      simp [and_comm]
    · rw [← hn]
      exact follows_fewer hpast hw.1 hw.2

/-- Every walk returns the wanted rows in order exactly when the rows are served. -/
theorem walks_iff_served [DecidableEq α] (hpast : ∀ c r, sel c r = true → follows key c r = true)
    (hnodup : rows.Nodup) (hlimit : 0 < limit) (c : Option κ) :
    (∀ out, Walk key sel limit rows c out →
      out.Perm (left key rows wanted c) ∧ Sorted key out) ↔ Served key sel limit rows wanted c :=
  ⟨served_of_walks hpast hnodup hlimit c, fun h _ hwalk => h.walk hwalk⟩

end SoroTrail.Lib.Paging
