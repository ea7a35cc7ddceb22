import Mathlib.Logic.Function.Basic
import Mathlib.Tactic.Common

/-!
# Leases that expire

A table keeps one row for each key.  Whoever finds no row for a key may insert one
and then holds the key until the row expires, finishes or gives up.  Rows are
addressed by their key alone, so a holder that outlives its row would act on the
row of its successor; the steps below are those of holders that act in time.

`Window` is the history: the time each claim was given, and how many holders of the
key have finished in it.
-/

set_option autoImplicit false

namespace SoroTrail.Lib.Lease

open List

open Function (update update_self update_of_ne)

variable {κ ρ α : Type}

structure Row (ρ α : Type) where
  tag : ρ
  expiresAt : Int
  result : Option α

inductive Stage where
  | working
  | finishing
  | aborting
  deriving DecidableEq, Repr

structure Hold (κ ρ : Type) where
  key : κ
  tag : ρ
  expiresAt : Int
  stage : Stage

structure Window (κ : Type) where
  key : κ
  expiresAt : Int
  finished : Nat
  deriving DecidableEq, Repr

structure State (κ ρ α : Type) where
  clock : Int
  rows : κ → Option (Row ρ α)
  held : Nat → Option (Hold κ ρ)
  windows : List (Window κ)

/-- Until the window ends its key has a row that outlasts it and that nobody will remove. -/
def Locked (s : State κ ρ α) (w : Window κ) : Prop :=
  ∃ r, s.rows w.key = some r ∧ w.expiresAt ≤ r.expiresAt ∧
    ∀ i h, s.held i = some h → h.key = w.key → s.clock < h.expiresAt → h.stage = .finishing

/-- Whoever holds a key in time owns its row. -/
structure Ownership (s : State κ ρ α) : Prop where
  owned : ∀ i h, s.held i = some h → s.clock < h.expiresAt →
    s.rows h.key = some ⟨h.tag, h.expiresAt, none⟩
  unique : ∀ i j h h', s.held i = some h → s.held j = some h' → s.clock < h.expiresAt →
    s.clock < h'.expiresAt → h.key = h'.key → i = j
  ordered : ∀ i h, s.held i = some h → s.clock < h.expiresAt →
    ∀ w ∈ s.windows, w.key = h.key → w.expiresAt ≤ h.expiresAt

structure Inv (s : State κ ρ α) : Prop extends Ownership s where
  once : ∀ w ∈ s.windows, w.finished = 0 ∨
    (w.finished = 1 ∧ (s.clock < w.expiresAt → Locked s w))

variable {s s' : State κ ρ α}

theorem Inv.tick (hs : Inv s) {t : Int} (hle : s.clock ≤ t) : Inv { s with clock := t } where
  owned i h hh hlive := hs.owned i h hh (Int.lt_of_le_of_lt hle hlive)
  unique i j h h' hh hh' hlive hlive' :=
    hs.unique i j h h' hh hh' (Int.lt_of_le_of_lt hle hlive) (Int.lt_of_le_of_lt hle hlive')
  ordered i h hh hlive := hs.ordered i h hh (Int.lt_of_le_of_lt hle hlive)
  once w hw := by
    refine (hs.once w hw).imp_right fun ⟨hone, hlocked⟩ => ⟨hone, fun hopen => ?_⟩
    obtain ⟨r, hr, hle', hstage⟩ := hlocked (Int.lt_of_le_of_lt hle hopen)
    exact ⟨r, hr, hle', fun i h hh hk hlive => hstage i h hh hk (Int.lt_of_le_of_lt hle hlive)⟩

theorem drop_keeps {rows : κ → Option (Row ρ α)}
    (hrows : ∀ k, rows k = s.rows k ∨
      (rows k = none ∧ ∃ r, s.rows k = some r ∧ r.expiresAt ≤ s.clock))
    {k : κ} {r : Row ρ α} (hr : s.rows k = some r) (hlive : s.clock < r.expiresAt) :
    rows k = some r := by
  rcases hrows k with hsame | ⟨_, r', hr', hexpired⟩
  · rw [hsame, hr]
  · rw [hr] at hr'
    cases hr'
    omega

theorem Inv.drop (hs : Inv s) {rows : κ → Option (Row ρ α)}
    (hrows : ∀ k, rows k = s.rows k ∨
      (rows k = none ∧ ∃ r, s.rows k = some r ∧ r.expiresAt ≤ s.clock)) :
    Inv { s with rows := rows } where
  owned i h hh hlive := drop_keeps hrows (hs.owned i h hh hlive) hlive
  unique := hs.unique
  ordered := hs.ordered
  once w hw := by
    refine (hs.once w hw).imp_right fun ⟨hone, hlocked⟩ => ⟨hone, fun hopen => ?_⟩
    obtain ⟨r, hr, hle, hstage⟩ := hlocked hopen
    exact ⟨r, drop_keeps hrows hr (Int.lt_of_lt_of_le hopen hle), hle, hstage⟩

variable {h : Hold κ ρ} {i : Nat}

theorem Inv.not_held (hs : Inv s) {k : κ} (habsent : s.rows k = none) (hh : s.held i = some h)
    (hlive : s.clock < h.expiresAt) : h.key ≠ k := by
  rintro rfl
  rw [hs.owned i h hh hlive] at habsent
  cases habsent

theorem held_update {j : Nat} {h' : Hold κ ρ} {stage : Stage} (hheld : s.held i = some h)
    (hh' : update s.held i (some { h with stage := stage }) j = some h') :
    ∃ h₀, s.held j = some h₀ ∧ h'.key = h₀.key ∧ h'.tag = h₀.tag ∧ h'.expiresAt = h₀.expiresAt ∧
      (j ≠ i → h' = h₀) ∧ (j = i → h'.stage = stage) := by
  by_cases hj : j = i
  · subst hj
    rw [update_self] at hh'
    cases hh'
    exact ⟨h, hheld, rfl, rfl, rfl, absurd rfl, fun _ => rfl⟩
  · rw [update_of_ne hj] at hh'
    exact ⟨h', hh', rfl, rfl, rfl, fun _ => rfl, fun heq => absurd heq hj⟩

theorem Ownership.restage (hs : Ownership s) (hheld : s.held i = some h) (stage : Stage)
    {windows : List (Window κ)}
    (hwindows : ∀ w ∈ windows, ∃ w₀ ∈ s.windows, w.key = w₀.key ∧ w.expiresAt = w₀.expiresAt) :
    Ownership { s with
      held := update s.held i (some { h with stage := stage })
      windows := windows } where
  owned j h' hh' hlive := by
    obtain ⟨h₀, hh₀, hkey, htag, hexp, _, _⟩ := held_update hheld hh'
    rw [hkey, htag, hexp]
    exact hs.owned j h₀ hh₀ (hexp ▸ hlive)
  unique j j' h' h'' hh' hh'' hlive hlive' hkey := by
    obtain ⟨h₀, hh₀, hkey₀, _, hexp₀, _, _⟩ := held_update hheld hh'
    obtain ⟨h₁, hh₁, hkey₁, _, hexp₁, _, _⟩ := held_update hheld hh''
    exact hs.unique j j' h₀ h₁ hh₀ hh₁ (hexp₀ ▸ hlive) (hexp₁ ▸ hlive') (hkey₀ ▸ hkey₁ ▸ hkey)
  ordered j h' hh' hlive w hw hkey := by
    obtain ⟨w₀, hw₀, hwkey, hwexp⟩ := hwindows w hw
    obtain ⟨h₀, hh₀, hkey₀, _, hexp₀, _, _⟩ := held_update hheld hh'
    rw [hexp₀, hwexp]
    exact hs.ordered j h₀ hh₀ (hexp₀ ▸ hlive) w₀ hw₀ (hwkey ▸ hkey₀ ▸ hkey)

theorem Inv.abort (hs : Inv s) (hheld : s.held i = some h) (hstage : h.stage = .working) :
    Inv { s with held := update s.held i (some { h with stage := .aborting }) } where
  toOwnership := hs.toOwnership.restage hheld .aborting fun w hw => ⟨w, hw, rfl, rfl⟩
  once w hw := by
    refine (hs.once w hw).imp_right fun ⟨hone, hlocked⟩ => ⟨hone, fun hopen => ?_⟩
    obtain ⟨r, hr, hle, hfinishing⟩ := hlocked hopen
    refine ⟨r, hr, hle, fun j h' hh' hkey hlive => ?_⟩
    obtain ⟨h₀, hh₀, hkey₀, _, hexp₀, hsame, _⟩ := held_update hheld hh'
    have hold := hfinishing j h₀ hh₀ (hkey₀ ▸ hkey) (hexp₀ ▸ hlive)
    by_cases hj : j = i
    · subst hj
      rw [hheld] at hh₀
      cases hh₀
      rw [hstage] at hold
      cases hold
    · rw [hsame hj]
      exact hold

theorem held_of_none {j : Nat} (hh : update s.held i none j = some h) :
    j ≠ i ∧ s.held j = some h := by
  rw [Function.update_apply] at hh
  split at hh
  · cases hh
  · exact ⟨‹_›, hh⟩

theorem Inv.leave (hs : Inv s) (i : Nat) : Inv { s with held := update s.held i none } where
  owned j h hh hlive := hs.owned j h (held_of_none hh).2 hlive
  unique j j' h h' hh hh' hlive hlive' :=
    hs.unique j j' h h' (held_of_none hh).2 (held_of_none hh').2 hlive hlive'
  ordered j h hh hlive := hs.ordered j h (held_of_none hh).2 hlive
  once w hw := by
    refine (hs.once w hw).imp_right fun ⟨hone, hlocked⟩ => ⟨hone, fun hopen => ?_⟩
    obtain ⟨r, hr, hle, hfinishing⟩ := hlocked hopen
    exact ⟨r, hr, hle, fun j h hh hkey hlive => hfinishing j h (held_of_none hh).2 hkey hlive⟩

theorem Inv.key_free (hs : Inv s) {j : Nat} {h' : Hold κ ρ} (hheld : s.held i = some h)
    (hlive : s.clock < h.expiresAt) (hh' : update s.held i none j = some h')
    (hlive' : s.clock < h'.expiresAt) : h'.key ≠ h.key := by
  obtain ⟨hj, hh'⟩ := held_of_none hh'
  exact fun hkey => hj (hs.unique j i h' h hh' hheld hlive' hlive hkey)

/-- In every window at most one holder of the key has finished. -/
theorem Inv.finished_le_one (hs : Inv s) {w : Window κ} (hw : w ∈ s.windows) : w.finished ≤ 1 := by
  rcases hs.once w hw with hzero | ⟨hone, _⟩ <;> omega

variable [DecidableEq κ]

def Window.count (key : κ) (clock : Int) (w : Window κ) : Window κ :=
  if w.key = key ∧ clock < w.expiresAt then { w with finished := w.finished + 1 } else w

inductive Step (s : State κ ρ α) : State κ ρ α → Prop where
  | idle : Step s s
  | tick (t : Int) (hle : s.clock ≤ t) : Step s { s with clock := t }
  | drop (rows : κ → Option (Row ρ α))
      (hrows : ∀ k, rows k = s.rows k ∨
        (rows k = none ∧ ∃ r, s.rows k = some r ∧ r.expiresAt ≤ s.clock)) :
      Step s { s with rows := rows }
  | claim (i : Nat) (k : κ) (tag : ρ) (expiresAt : Int) (hfree : s.held i = none)
      (habsent : s.rows k = none)
      (horder : ∀ w ∈ s.windows, w.key = k → w.expiresAt ≤ expiresAt) :
      Step s { s with
        rows := update s.rows k (some ⟨tag, expiresAt, none⟩)
        held := update s.held i (some ⟨k, tag, expiresAt, .working⟩)
        windows := s.windows ++ [⟨k, expiresAt, 0⟩] }
  | finish (i : Nat) (h : Hold κ ρ) (hheld : s.held i = some h) (hstage : h.stage = .working)
      (hlive : s.clock < h.expiresAt) :
      Step s { s with
        held := update s.held i (some { h with stage := .finishing })
        windows := s.windows.map (Window.count h.key s.clock) }
  | abort (i : Nat) (h : Hold κ ρ) (hheld : s.held i = some h) (hstage : h.stage = .working) :
      Step s { s with held := update s.held i (some { h with stage := .aborting }) }
  | complete (i : Nat) (h : Hold κ ρ) (a : α) (hheld : s.held i = some h)
      (hlive : s.clock < h.expiresAt) :
      Step s { s with
        rows := update s.rows h.key ((s.rows h.key).map fun r => { r with result := some a })
        held := update s.held i none }
  | release (i : Nat) (h : Hold κ ρ) (hheld : s.held i = some h) (hstage : h.stage = .aborting)
      (hlive : s.clock < h.expiresAt) :
      Step s { s with rows := update s.rows h.key none, held := update s.held i none }
  | leave (i : Nat) : Step s { s with held := update s.held i none }

omit [DecidableEq κ] in
theorem held_cases {j : Nat} {h₀ : Hold κ ρ} (hh : update s.held i (some h₀) j = some h) :
    (j = i ∧ h = h₀) ∨ (j ≠ i ∧ s.held j = some h) := by
  rw [Function.update_apply] at hh
  split at hh
  · exact .inl ⟨‹_›, (Option.some.inj hh).symm⟩
  · exact .inr ⟨‹_›, hh⟩

theorem Inv.claim (hs : Inv s) {k : κ} {tag : ρ} {expiresAt : Int} (habsent : s.rows k = none)
    (horder : ∀ w ∈ s.windows, w.key = k → w.expiresAt ≤ expiresAt) :
    Inv { s with
      rows := update s.rows k (some ⟨tag, expiresAt, none⟩)
      held := update s.held i (some ⟨k, tag, expiresAt, .working⟩)
      windows := s.windows ++ [⟨k, expiresAt, 0⟩] } where
  owned j h hh hlive := by
    rcases held_cases hh with ⟨rfl, rfl⟩ | ⟨_, hh⟩
    · exact update_self ..
    · exact (update_of_ne (hs.not_held habsent hh hlive) ..).trans (hs.owned j h hh hlive)
  unique j j' h h' hh hh' hlive hlive' hkey := by
    rcases held_cases hh with ⟨hj, rfl⟩ | ⟨_, hold⟩ <;>
      rcases held_cases hh' with ⟨hj', rfl⟩ | ⟨_, hold'⟩
    · rw [hj, hj']
    · exact absurd hkey.symm (hs.not_held habsent hold' hlive')
    · exact absurd hkey (hs.not_held habsent hold hlive)
    · exact hs.unique j j' h h' hold hold' hlive hlive' hkey
  ordered j h hh hlive w hw hkey := by
    rcases held_cases hh with ⟨rfl, rfl⟩ | ⟨_, hh⟩ <;> rcases mem_append.mp hw with hw | hw
    · exact horder w hw hkey
    · obtain rfl := mem_singleton.mp hw
      exact Int.le_refl _
    · exact hs.ordered j h hh hlive w hw hkey
    · obtain rfl := mem_singleton.mp hw
      exact absurd hkey.symm (hs.not_held habsent hh hlive)
  once w hw := by
    rcases mem_append.mp hw with hw | hw
    · refine (hs.once w hw).imp_right fun ⟨hone, hlocked⟩ => ⟨hone, fun hopen => ?_⟩
      obtain ⟨r, hr, hle, hstage⟩ := hlocked hopen
      have hne : w.key ≠ k := fun heq => by rw [heq, habsent] at hr; cases hr
      refine ⟨r, (update_of_ne hne ..).trans hr, hle, fun j h hh hkey hlive => ?_⟩
      rcases held_cases hh with ⟨_, rfl⟩ | ⟨_, hh⟩
      · exact absurd hkey.symm hne
      · exact hstage j h hh hkey hlive
    · obtain rfl := mem_singleton.mp hw
      exact .inl rfl

theorem Inv.finish (hs : Inv s) (hheld : s.held i = some h) (hstage : h.stage = .working)
    (hlive : s.clock < h.expiresAt) :
    Inv { s with
      held := update s.held i (some { h with stage := .finishing })
      windows := s.windows.map (Window.count h.key s.clock) } where
  toOwnership := hs.toOwnership.restage hheld .finishing fun w hw => by
    obtain ⟨w₀, hw₀, rfl⟩ := mem_map.mp hw
    refine ⟨w₀, hw₀, ?_⟩
    simp only [Window.count]
    split <;> exact ⟨rfl, rfl⟩
  once w hw := by
    obtain ⟨w₀, hw₀, rfl⟩ := mem_map.mp hw
    -- the holder is still working, so no window of its key that is open has been locked
    have hfresh : w₀.key = h.key → s.clock < w₀.expiresAt → w₀.finished = 0 := by
      intro hkey hopen
      rcases hs.once w₀ hw₀ with hzero | ⟨_, hlocked⟩
      · exact hzero
      · obtain ⟨r, _, _, hfinishing⟩ := hlocked hopen
        have hcontra := hfinishing i h hheld hkey.symm hlive
        rw [hstage] at hcontra
        cases hcontra
    simp only [Window.count]
    split
    · rename_i hcount
      refine .inr ⟨by simp [hfresh hcount.1 hcount.2], fun _ => ?_⟩
      refine ⟨⟨h.tag, h.expiresAt, none⟩, ?_, ?_, fun j h' hh' hkey hlive' => ?_⟩
      · rw [hcount.1]
        exact hs.owned i h hheld hlive
      · exact hs.ordered i h hheld hlive w₀ hw₀ hcount.1
      · obtain ⟨h₀, hh₀, hkey₀, _, hexp₀, _, hnew⟩ := held_update hheld hh'
        refine hnew (hs.unique j i h₀ h hh₀ hheld (hexp₀ ▸ hlive') hlive ?_)
        rw [← hkey₀, hkey, hcount.1]
    · rename_i hcount
      refine (hs.once w₀ hw₀).imp_right fun ⟨hone, hlocked⟩ => ⟨hone, fun hopen => ?_⟩
      obtain ⟨r, hr, hle, hfinishing⟩ := hlocked hopen
      refine ⟨r, hr, hle, fun j h' hh' hkey hlive' => ?_⟩
      obtain ⟨h₀, hh₀, hkey₀, _, hexp₀, hsame, hnew⟩ := held_update hheld hh'
      by_cases hj : j = i
      · exact hnew hj
      · rw [hsame hj]
        exact hfinishing j h₀ hh₀ (hkey₀ ▸ hkey) (hexp₀ ▸ hlive')

theorem Inv.complete (hs : Inv s) {a : α} (hheld : s.held i = some h)
    (hlive : s.clock < h.expiresAt) :
    Inv { s with
      rows := update s.rows h.key ((s.rows h.key).map fun r => { r with result := some a })
      held := update s.held i none } where
  owned j h' hh' hlive' :=
    (update_of_ne (hs.key_free hheld hlive hh' hlive') ..).trans
      (hs.owned j h' (held_of_none hh').2 hlive')
  unique := (hs.leave i).unique
  ordered := (hs.leave i).ordered
  once w hw := by
    refine ((hs.leave i).once w hw).imp_right fun ⟨hone, hlocked⟩ => ⟨hone, fun hopen => ?_⟩
    obtain ⟨r, hr, hle, hfinishing⟩ := hlocked hopen
    by_cases hkey : w.key = h.key
    · refine ⟨{ r with result := some a }, ?_, hle, hfinishing⟩
      show update s.rows h.key _ w.key = _
      rw [hkey] at hr ⊢
      rw [update_self, hr]
      rfl
    · exact ⟨r, (update_of_ne hkey ..).trans hr, hle, hfinishing⟩

theorem Inv.release (hs : Inv s) (hheld : s.held i = some h) (hstage : h.stage = .aborting)
    (hlive : s.clock < h.expiresAt) :
    Inv { s with rows := update s.rows h.key none, held := update s.held i none } where
  owned j h' hh' hlive' :=
    (update_of_ne (hs.key_free hheld hlive hh' hlive') ..).trans
      (hs.owned j h' (held_of_none hh').2 hlive')
  unique := (hs.leave i).unique
  ordered := (hs.leave i).ordered
  once w hw := by
    refine (hs.once w hw).imp_right fun ⟨hone, hlocked⟩ => ⟨hone, fun hopen => ?_⟩
    obtain ⟨r, hr, hle, hfinishing⟩ := hlocked hopen
    have hne : w.key ≠ h.key := by
      intro hkey
      have hcontra := hfinishing i h hheld hkey.symm hlive
      rw [hstage] at hcontra
      cases hcontra
    exact ⟨r, (update_of_ne hne ..).trans hr, hle,
      fun j h' hh' hkey hlive' => hfinishing j h' (held_of_none hh').2 hkey hlive'⟩

theorem Step.inv (hstep : Step s s') (hs : Inv s) : Inv s' := by
  cases hstep with
  | idle => exact hs
  | tick t hle => exact hs.tick hle
  | drop rows hrows => exact hs.drop hrows
  | claim i k tag expiresAt hfree habsent horder => exact hs.claim habsent horder
  | finish i h hheld hstage hlive => exact hs.finish hheld hstage hlive
  | abort i h hheld hstage => exact hs.abort hheld hstage
  | complete i h a hheld hlive => exact hs.complete hheld hlive
  | release i h hheld hstage hlive => exact hs.release hheld hstage hlive
  | leave i => exact hs.leave i

end SoroTrail.Lib.Lease
