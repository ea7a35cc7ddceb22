import Mathlib.Data.List.Dedup
import SoroTrail.Ingester.Requests
import SoroTrail.Lib.Steps

/-!
# What the tracker remembers

Recording the fingerprints of a page is a fold over the page's ledgers: each step
overwrites what the tracker held for a ledger and widens the diverged range when
the two differ.
-/

set_option autoImplicit false

namespace SoroTrail.Ingest

open Lib Rpc Store List

/-! ## One ledger -/

namespace ReorgTracker

variable {t : ReorgTracker} {l l' : Nat} {hash h : String}

def Inside (t : ReorgTracker) (l : Nat) : Prop :=
  t.window = 0 ∨ t.highestLedger ≤ l + t.window

@[simp] theorem prune_window : t.prune.window = t.window := by
  unfold prune
  split <;> rfl

@[simp] theorem prune_highestLedger : t.prune.highestLedger = t.highestLedger := by
  unfold prune
  split <;> rfl

theorem prune_hashes (hl : t.prune.hashes l = some h) : t.hashes l = some h := by
  unfold prune at hl
  split at hl
  · exact hl
  · dsimp only at hl
    split at hl
    · cases hl
    · exact hl

theorem prune_hashes_inside (hin : t.Inside l) : t.prune.hashes l = t.hashes l := by
  unfold prune
  split
  · rfl
  · have hnot : ¬ l < t.highestLedger - t.window := by
      rcases hin with hin | hin <;> omega
    exact if_neg hnot

theorem resetAbove_hashes {maxLedger : Nat} (hl : (t.resetAbove maxLedger).hashes l = some h) :
    t.hashes l = some h := by
  simp only [resetAbove] at hl
  split at hl
  · cases hl
  · exact hl

theorem recordLedgerHash_mismatch :
    (t.recordLedgerHash l hash).1 = true ↔
      (l ≠ 0 ∧ hash ≠ "") ∧ ∃ prev, t.hashes l = some prev ∧ prev ≠ hash := by
  unfold recordLedgerHash
  split
  · rename_i hnone
    simp only [Bool.false_eq_true, false_iff, not_and]
    intro hsome
    exact absurd hnone (not_or.mpr hsome)
  · rename_i hsome
    cases hprev : t.hashes l with
    | none => simp
    | some prev => simp [not_or.mp hsome]

theorem recordLedgerHash_hashes (hl : (t.recordLedgerHash l hash).2.hashes l' = some h) :
    (l' = l ∧ h = hash) ∨ t.hashes l' = some h := by
  unfold recordLedgerHash at hl
  split at hl
  · exact .inr hl
  · have hset := prune_hashes hl
    dsimp only at hset
    split at hset
    · rename_i heq
      exact .inl ⟨heq, (Option.some.inj hset).symm⟩
    · exact .inr hset

theorem recordLedgerHash_inside (hle : l ≤ l') (hin : t.Inside l') :
    (t.recordLedgerHash l hash).2.Inside l' := by
  unfold recordLedgerHash
  split
  · exact hin
  · unfold Inside at hin ⊢
    simp only [prune_window, prune_highestLedger]
    omega

def Tidy (t : ReorgTracker) : Prop :=
  ∀ l h, t.hashes l = some h → t.Inside l

theorem tidy_fresh (ing : Ingester) : (Memory.fresh ing).tracker.Tidy := by
  intro l h hl
  cases hl

theorem prune_tidy : t.prune.Tidy := by
  intro l h hl
  unfold prune at hl ⊢
  unfold Inside
  split at hl
  · rename_i hsmall
    rw [if_pos hsmall]
    omega
  · rename_i hlarge
    rw [if_neg hlarge]
    dsimp only at hl ⊢
    split at hl
    · cases hl
    · omega

theorem Tidy.recordLedgerHash (ht : t.Tidy) : (t.recordLedgerHash l hash).2.Tidy := by
  unfold ReorgTracker.recordLedgerHash
  split
  · exact ht
  · exact prune_tidy

theorem Tidy.resetAbove (ht : t.Tidy) (maxLedger : Nat) : (t.resetAbove maxLedger).Tidy := by
  intro l h hl
  have hin := ht l h (resetAbove_hashes hl)
  unfold Inside at hin ⊢
  simp only [ReorgTracker.resetAbove]
  omega

theorem recordLedgerHash_highest (hhash : hash ≠ "") :
    (t.recordLedgerHash l hash).2.highestLedger = max t.highestLedger l := by
  unfold recordLedgerHash
  split
  · rename_i hnone
    obtain rfl : l = 0 := hnone.resolve_right hhash
    exact (Nat.max_zero _).symm
  · exact prune_highestLedger

theorem recordLedgerHash_above (hlt : l < l') (hin : t.Inside l') :
    (t.recordLedgerHash l hash).2.hashes l' = t.hashes l' := by
  unfold recordLedgerHash
  split
  · rfl
  · rw [prune_hashes_inside]
    · exact if_neg (Nat.ne_of_gt hlt)
    · unfold Inside at hin ⊢
      dsimp only
      omega

end ReorgTracker

/-! ## The ledgers of a page -/

variable (ing : Ingester)

def pageFingerprint (events : List Store.Event) (l : Nat) : String :=
  computeLedgerFingerprint ing l
    (events.filter fun ev => decide (0 < ev.ledger ∧ u32OfInt ev.ledger = l))

def trackStep (events : List Store.Event) (s : ReorgTracker × Nat × Nat) (l : Nat) :
    ReorgTracker × Nat × Nat :=
  let recorded := s.1.recordLedgerHash l (pageFingerprint ing events l)
  (recorded.2,
    if recorded.1 then (if s.2.1 = 0 ∨ l < s.2.1 then l else s.2.1, max s.2.2 l) else s.2)

/-- `trackLedgers` on the tracker itself. -/
def trackAll (events : List Store.Event) (ls : List Nat) (s : ReorgTracker × Nat × Nat) :
    ReorgTracker × Nat × Nat :=
  ls.foldl (trackStep ing events) s

variable {ing : Ingester} {events : List Store.Event}

def ReorgTracker.Agrees (Good : Nat → String → Prop) (t : ReorgTracker) : Prop :=
  ∀ l h, t.hashes l = some h → Good l h

theorem trackAll_agrees {Good : Nat → String → Prop}
    (hunique : ∀ l h h', Good l h → Good l h' → h = h') (ls : List Nat)
    (hls : ∀ l ∈ ls, Good l (pageFingerprint ing events l)) (t : ReorgTracker)
    (ht : t.Agrees Good) :
    (trackAll ing events ls (t, 0, 0)).1.Agrees Good ∧
      (trackAll ing events ls (t, 0, 0)).2 = (0, 0) := by
  induction ls generalizing t with
  | nil => exact ⟨ht, rfl⟩
  | cons l ls ih =>
    have hfp := hls l mem_cons_self
    have hquiet : (t.recordLedgerHash l (pageFingerprint ing events l)).1 = false := by
      rw [Bool.eq_false_iff]
      intro hmismatch
      obtain ⟨_, prev, hprev, hne⟩ := ReorgTracker.recordLedgerHash_mismatch.mp hmismatch
      exact hne (hunique l _ _ (ht l prev hprev) hfp)
    have hstep : trackStep ing events (t, 0, 0) l =
        ((t.recordLedgerHash l (pageFingerprint ing events l)).2, 0, 0) := by
      simp [trackStep, hquiet]
    have hnext : (t.recordLedgerHash l (pageFingerprint ing events l)).2.Agrees Good := by
      intro l' h hl'
      rcases ReorgTracker.recordLedgerHash_hashes hl' with ⟨rfl, rfl⟩ | hold
      · exact hfp
      · exact ht l' h hold
    simp only [trackAll, foldl_cons, hstep]
    exact ih (fun l' hl' => hls l' (.tail _ hl')) _ hnext

theorem trackAll_covers (ls : List Nat) (s : ReorgTracker × Nat × Nat) {l : Nat}
    (hs : 0 < s.2.1 ∧ s.2.1 ≤ l ∧ l ≤ s.2.2) :
    0 < (trackAll ing events ls s).2.1 ∧ (trackAll ing events ls s).2.1 ≤ l ∧
      l ≤ (trackAll ing events ls s).2.2 := by
  induction ls generalizing s with
  | nil => exact hs
  | cons l' ls ih =>
    refine ih (trackStep ing events s l') ?_
    unfold trackStep
    dsimp only
    split
    · rename_i hmismatch
      obtain ⟨⟨hne, _⟩, _⟩ := ReorgTracker.recordLedgerHash_mismatch.mp hmismatch
      split <;> omega
    · exact hs

/-- A diverged ledger is in the range that is reported. -/
theorem trackAll_diverged (ls : List Nat) (hsorted : ls.Pairwise (· < ·))
    (s : ReorgTracker × Nat × Nat) {l : Nat} (hmem : l ∈ ls) (hl : 0 < l)
    (hfp : pageFingerprint ing events l ≠ "") {prev : String} (hprev : s.1.hashes l = some prev)
    (hne : prev ≠ pageFingerprint ing events l) (hin : s.1.Inside l) :
    0 < (trackAll ing events ls s).2.1 ∧ (trackAll ing events ls s).2.1 ≤ l ∧
      l ≤ (trackAll ing events ls s).2.2 := by
  induction ls generalizing s with
  | nil => cases hmem
  | cons l' ls ih =>
    obtain ⟨hbelow, hsorted⟩ := pairwise_cons.mp hsorted
    rcases mem_cons.mp hmem with rfl | hmem
    · have hmismatch : (s.1.recordLedgerHash l (pageFingerprint ing events l)).1 = true :=
        ReorgTracker.recordLedgerHash_mismatch.mpr ⟨⟨by omega, hfp⟩, prev, hprev, hne⟩
      refine trackAll_covers ls (trackStep ing events s l) ?_
      simp only [trackStep, hmismatch, if_true]
      split <;> omega
    · -- a lower ledger comes first and leaves the hash of `l` alone
      have hlt : l' < l := hbelow l hmem
      refine ih hsorted (trackStep ing events s l') hmem ?_ ?_
      · exact (ReorgTracker.recordLedgerHash_above hlt hin).trans hprev
      · exact ReorgTracker.recordLedgerHash_inside hlt.le hin

def diverges (ing : Ingester) (events : List Store.Event) (t : ReorgTracker) (l : Nat) : Bool :=
  decide (l ≠ 0) && (t.hashes l).any fun prev => decide (prev ≠ pageFingerprint ing events l)

theorem diverges_iff {t : ReorgTracker} {l : Nat} :
    diverges ing events t l = true ↔
      l ≠ 0 ∧ ∃ prev, t.hashes l = some prev ∧ prev ≠ pageFingerprint ing events l := by
  simp [diverges, Option.any_eq_true]

theorem trackAll_from {t : ReorgTracker} (ht : t.Tidy)
    (hfp : ∀ l, pageFingerprint ing events l ≠ "") (ls : List Nat)
    (hsorted : ls.Pairwise (· < ·)) (s : ReorgTracker × Nat × Nat)
    (hsame : ∀ l ∈ ls, s.1.hashes l = t.hashes l)
    (hin : ∀ l ∈ ls, t.Inside l → s.1.Inside l) (hbelow : ∀ l ∈ ls, s.2.1 ≤ l) :
    (trackAll ing events ls s).2.1 =
      if s.2.1 = 0 then (ls.find? (diverges ing events t)).getD 0 else s.2.1 := by
  induction ls generalizing s with
  | nil =>
    change s.2.1 = _
    split <;> simp_all
  | cons l ls ih =>
    obtain ⟨hlt, hsorted⟩ := pairwise_cons.mp hsorted
    have hmismatch : (s.1.recordLedgerHash l (pageFingerprint ing events l)).1 =
        diverges ing events t l := by
      rw [Bool.eq_iff_iff, ReorgTracker.recordLedgerHash_mismatch, diverges_iff,
        hsame l (.head _)]
      simp [hfp l]
    -- what is still to come is not touched by this ledger
    have hsame' : ∀ l' ∈ ls, (trackStep ing events s l).1.hashes l' = t.hashes l' := by
      intro l' hl'
      have hold := hsame l' (.tail _ hl')
      cases hhash : t.hashes l' with
      | none =>
        cases hnew : (trackStep ing events s l).1.hashes l' with
        | none => rfl
        | some h =>
          rcases ReorgTracker.recordLedgerHash_hashes hnew with ⟨heq, _⟩ | hold'
          · exact absurd heq (Nat.ne_of_gt (hlt l' hl'))
          · rw [hold, hhash] at hold'
            cases hold'
      | some h =>
        rw [← hhash, ← hold]
        exact ReorgTracker.recordLedgerHash_above (hlt l' hl')
          (hin l' (.tail _ hl') (ht l' h hhash))
    have hin' : ∀ l' ∈ ls, t.Inside l' → (trackStep ing events s l).1.Inside l' := by
      intro l' hl' h
      exact ReorgTracker.recordLedgerHash_inside (hlt l' hl').le
        (hin l' (.tail _ hl') h)
    have hl := hbelow l mem_cons_self
    change (trackAll ing events ls (trackStep ing events s l)).2.1 = _
    rw [ih hsorted _ hsame' hin' ?_]
    · simp only [trackStep, hmismatch, List.find?_cons]
      cases hdiv : diverges ing events t l with
      | false => simp
      | true =>
        have hne : l ≠ 0 := (diverges_iff.mp hdiv).1
        by_cases hzero : s.2.1 = 0
        · simp [hzero, hne]
        · have hnot : ¬ l < s.2.1 := by omega
          simp [hzero, hnot]
    · intro l' hl'
      have hltl := hlt l' hl'
      have hold := hbelow l' (.tail _ hl')
      simp only [trackStep]
      split
      · split <;> omega
      · exact hold

theorem trackAll_highest (hfp : ∀ l, pageFingerprint ing events l ≠ "") (ls : List Nat)
    (s : ReorgTracker × Nat × Nat) (hto : s.2.2 ≤ s.1.highestLedger) :
    (trackAll ing events ls s).1.highestLedger = ls.foldl max s.1.highestLedger ∧
      (trackAll ing events ls s).2.2 ≤ (trackAll ing events ls s).1.highestLedger := by
  induction ls generalizing s with
  | nil => exact ⟨rfl, hto⟩
  | cons l ls ih =>
    have hhighest : (trackStep ing events s l).1.highestLedger = max s.1.highestLedger l :=
      ReorgTracker.recordLedgerHash_highest (hfp l)
    have hstep : (trackStep ing events s l).2.2 ≤ (trackStep ing events s l).1.highestLedger := by
      rw [hhighest]
      simp only [trackStep]
      split
      · omega
      · omega
    have hrest := ih (trackStep ing events s l) hstep
    rw [hhighest] at hrest
    exact hrest

theorem seenLedgers_sorted : (seenLedgers events).Pairwise (· < ·) := by
  have hle : (seenLedgers events).Pairwise (· ≤ ·) := pairwise_insertionSort _ _
  have hnodup : (seenLedgers events).Nodup :=
    (perm_insertionSort _ _).nodup_iff.mpr (nodup_dedup _)
  exact (hle.and hnodup).imp fun h => lt_of_le_of_ne h.1 h.2

theorem mem_seenLedgers {l : Nat} :
    l ∈ seenLedgers events ↔ ∃ ev ∈ events, 0 < ev.ledger ∧ u32OfInt ev.ledger = l := by
  simp [seenLedgers, and_assoc]

/-! ## The program -/

/-- The ingester's memory, as a system holds it: only the ingester changes it. -/
structure Recalls {W : Type} (S : Sys Act Ans W) (mem : W → Memory) : Prop where
  drift : ∀ w w', S.drift w w' → mem w' = mem w
  memory : ∀ f w a w', S.step (.memory f) w a w' → a = mem w ∧ mem w' = f (mem w)

section Program

variable {W : Type} {S : Sys Act Ans W} {mem : W → Memory} {J : Act → W → Prop} {I : W → Prop}

theorem trackLedgers_safe (hS : Recalls S mem) (hI : S.Stable I)
    (hstep : ∀ f w a w', S.step (.memory f) w a w' → I w → I w')
    (hJ : ∀ f w, I w → J (.memory f) w) (ls : List Nat) (range : Nat × Nat) (w : W) (hw : I w) :
    S.Safe J
      (fun r v => ((mem v).tracker, r) = trackAll ing events ls ((mem w).tracker, range) ∧ I v)
      (trackLedgers ing events ls range) w := by
  induction ls generalizing range w with
  | nil =>
    refine Sys.Safe.ret ?_ ⟨rfl, hw⟩
    intro v v' hd hv
    rw [hS.drift v v' hd]
    exact ⟨hv.1, hI v v' hd hv.2⟩
  | cons l ls ih =>
    have hstable : S.Stable fun v => mem v = mem w ∧ I v := by
      intro v v' hd hv
      exact ⟨(hS.drift v v' hd).trans hv.1, hI v v' hd hv.2⟩
    refine Sys.Safe.act hstable ⟨rfl, hw⟩ (fun v hv => hJ _ v hv.2) ?_
    intro v a u hv hu
    obtain ⟨rfl, hmem⟩ := hS.memory _ v a u hu
    have htracked := ih (trackStep ing events ((mem w).tracker, range) l).2 u
      (hstep _ v _ u hu hv.2)
    rw [hmem, hv.1] at htracked
    rw [hv.1]
    exact htracked

end Program

/-! ## The window over a run -/

inductive TrackerMove where
  | record (ledger : Nat) (hash : String)
  | resetAbove (maxLedger : Nat)

/-- A tracker beside what it is for: the hashes last recorded in `[highest - window + 1, highest]`. -/
structure Recall where
  tracker : ReorgTracker
  highest : Nat
  known : Nat → Option String

namespace Recall

def fresh (window : Nat) : Recall := ⟨⟨window, 0, fun _ => none⟩, 0, fun _ => none⟩

def step (s : Recall) : TrackerMove → Option Recall
  | .record ledger hash =>
    let tracker := (s.tracker.recordLedgerHash ledger hash).2
    if ledger = 0 ∨ hash = "" then some { s with tracker }
    else
      let highest := max s.highest ledger
      some ⟨tracker, highest, fun l =>
        if l + s.tracker.window ≤ highest then none else if l = ledger then some hash else s.known l⟩
  | .resetAbove maxLedger =>
    some ⟨s.tracker.resetAbove maxLedger, min s.highest maxLedger,
      fun l => if maxLedger < l then none else s.known l⟩

/-- The ledger just below the window is neither recorded nor still held. -/
def Clears (s : Recall) : TrackerMove → Prop
  | .record ledger _ =>
    let highest := max s.tracker.highestLedger ledger
    s.tracker.window < highest → highest - s.tracker.window ≠ ledger ∧
      s.tracker.hashes (highest - s.tracker.window) = none
  | .resetAbove _ => True

instance (s : Recall) (m : TrackerMove) : Decidable (s.Clears m) := by
  cases m <;> unfold Clears <;> infer_instance

/-- The tracker holds what it is for; nothing outside the window is known. -/
structure Exact (w : Nat) (s : Recall) : Prop where
  window : s.tracker.window = w
  highest : s.tracker.highestLedger = s.highest
  hashes : s.tracker.hashes = s.known
  tracked : ∀ l h, s.known l = some h → 0 < l ∧ l ≤ s.highest ∧ s.highest < l + w

theorem Exact.step {w : Nat} {s s' : Recall} {m : TrackerMove} (hw : 0 < w) (hclears : s.Clears m)
    (h : s.Exact w) (hstep : s.step m = some s') : s'.Exact w := by
  have hzero : s.known 0 = none := by
    cases hknown : s.known 0 with
    | none => rfl
    | some hash => exact absurd (h.tracked 0 hash hknown).1 (Nat.lt_irrefl 0)
  cases m with
  | resetAbove maxLedger =>
    cases hstep
    refine ⟨h.window, congrArg (min · maxLedger) h.highest, by simp [ReorgTracker.resetAbove, h.hashes],
      fun l hash hl => ?_⟩
    have := h.tracked l hash
    dsimp only at hl ⊢
    grind
  | record ledger hash =>
    rw [Recall.step, ReorgTracker.recordLedgerHash] at hstep
    by_cases hnone : ledger = 0 ∨ hash = ""
    · rw [if_pos hnone, if_pos hnone] at hstep
      cases hstep
      exact h
    · rw [if_neg hnone, if_neg hnone] at hstep
      cases hstep
      simp only [Clears, h.window, h.highest, h.hashes] at hclears
      refine ⟨by simp [h.window], by simp [h.highest], ?_, fun l hash' hl => ?_⟩
      · funext l
        simp only [ReorgTracker.prune, h.window, h.highest, h.hashes]
        -- the tracker keeps one ledger more, the one just below the window
        by_cases hedge : l + w = max s.highest ledger <;> grind
      · have := h.tracked l hash'
        simp only [h.window] at hl
        grind

end Recall

/-- Over every sequence of calls that leaves the ledger just below the window clear, the tracker
holds the hashes of its window and no other, and a mismatch is one with the hash last recorded. -/
theorem tracker_remembers_window (w : Nat) (hw : 0 < w) (ms : List TrackerMove) (s : Recall)
    (hrun : Steps.run Recall.step (.fresh w) ms = some s)
    (halong : Steps.Along Recall.step Recall.Clears (.fresh w) ms) :
    (∀ l, s.tracker.hashes l ≠ none → s.tracker.highestLedger + 1 ≤ l + w ∧ l ≤ s.tracker.highestLedger) ∧
      ∀ l hash, 0 < l → hash ≠ "" → ((s.tracker.recordLedgerHash l hash).1 = true ↔
        ∃ prev, s.known l = some prev ∧ prev ≠ hash) := by
  have h : s.Exact w := halong.invariant (fun _ _ _ hclears h hstep => h.step hw hclears hstep)
    ⟨rfl, rfl, rfl, fun _ _ hl => by cases hl⟩ hrun
  refine ⟨fun l hl => ?_, fun l hash hpos hhash => ?_⟩
  · obtain ⟨hash, hl⟩ := Option.ne_none_iff_exists'.mp hl
    have := h.tracked l hash (h.hashes ▸ hl)
    rw [h.highest]
    omega
  · rw [ReorgTracker.recordLedgerHash_mismatch, h.hashes]
    exact and_iff_right ⟨Nat.ne_of_gt hpos, hhash⟩

theorem tracker_remembers_window_of_two :
    ∃ s, Steps.run Recall.step (.fresh 2) [.record 5 "a", .record 6 "b", .resetAbove 5] = some s ∧
      ((s.tracker.recordLedgerHash 5 "c").1 = true ↔ ∃ prev, s.known 5 = some prev ∧ prev ≠ "c") :=
  ⟨_, rfl, (tracker_remembers_window 2 (by decide) [.record 5 "a", .record 6 "b", .resetAbove 5] _ rfl
    (Steps.Along.of_check (by decide))).2 5 "c" (by decide) (by decide)⟩

/-- With a window of one ledger the hash of ledger 1 is still held when ledger 2 is the highest, and
compared again when the head has moved back. -/
theorem tracker_holds_ledger_below_window :
    ∃ s s', Steps.run Recall.step (.fresh 1) [.record 1 "a", .record 2 "b"] = some s ∧
      s.tracker.highestLedger = 2 ∧ s.tracker.hashes 1 = some "a" ∧
      Steps.run Recall.step s [.resetAbove 1] = some s' ∧ s'.known 1 = none ∧
      (s'.tracker.recordLedgerHash 1 "c").1 = true :=
  ⟨_, _, rfl, rfl, rfl, rfl, rfl, rfl⟩

end SoroTrail.Ingest
