import SoroTrail.Ingester.Coordinator

/-!
# The limits of a reorg pass

The archive boundary and the confirmation window are checked for each call before
its range is merged into the pending one.  A pass keeps to the limits as long as
a merged range still fits the window and the archive does not reach a range that
has passed its check and has not been taken up by a pass.
-/

set_option autoImplicit false

namespace SoroTrail.Ingest.Coalesce

open Lib Rpc List

/-- The condition on a move: a merged range fits the window, and the archive stays below every
range that is checked and not yet taken up. -/
def Admits (s : State) : Move → Prop
  | .archive bound =>
    (∀ c ∈ s.calls, c.phase = .unarchived ∨ c.phase = .checked → bound < c.fromLedger) ∧
      (s.coord.pending = true → bound < s.coord.pendingFrom)
  | .enter i =>
    s.coord.running = true → s.coord.pending = true →
      ∀ c ∈ s.calls[i]?, max c.toLedger s.coord.pendingTo - min c.fromLedger s.coord.pendingFrom + 1 ≤
        s.window
  | _ => True

instance (s : State) (m : Move) : Decidable (Admits s m) := by
  cases m <;> (dsimp only [Admits]; infer_instance)

def Call.Valid (c : Call) : Prop :=
  0 < c.fromLedger ∧ c.fromLedger ≤ c.toLedger ∧ c.toLedger < 2 ^ 32

def Pass.Within (window : Nat) (p : Pass) : Prop :=
  p.toLedger - p.fromLedger + 1 ≤ window ∧ p.archivedThrough < p.fromLedger

structure Call.Limited (s : State) (c : Call) : Prop where
  valid : c.phase = .entered ∨ c.phase = .unarchived ∨ c.phase = .checked → c.Valid
  unarchived : c.phase = .unarchived ∨ c.phase = .checked → s.archivedThrough < c.fromLedger
  fits : c.phase = .checked → c.toLedger - c.fromLedger + 1 ≤ s.window
  within : ∀ p, c.phase = .executing p → p.Within s.window

structure Limited (s : State) : Prop where
  calls : ∀ c ∈ s.calls, c.Limited s
  pending : s.coord.pending = true →
    s.coord.pendingTo - s.coord.pendingFrom + 1 ≤ s.window ∧ s.archivedThrough < s.coord.pendingFrom

theorem span_le_of_depth (tracker : ReorgTracker) {from' to' frontier : Nat} (hwindow : 0 < tracker.window)
    (hfrom : 0 < from') (hle : from' ≤ to') (hto : to' < 2 ^ 32)
    (h : (tracker.evaluateDepth from' to' frontier).2 = false) : to' - from' + 1 ≤ tracker.window := by
  have hspan : u32 (to' - from' + 1) = to' - from' + 1 := u32_of_lt (by omega)
  simp only [ReorgTracker.evaluateDepth, if_pos hle, hspan, decide_eq_false_iff_not, not_and,
    not_lt] at h
  have hdepth := h hwindow
  refine le_trans ?_ hdepth
  split
  · refine le_trans ?_ (le_max_left _ _)
    split
    · exact le_max_left _ _
    · exact le_rfl
  · split
    · exact le_max_left _ _
    · exact le_rfl

theorem Limited.set {s s' : State} (h : Limited s) {i : Nat} {c' : Call}
    (hcalls : s'.calls = s.calls.set i c') (hwindow : s'.window = s.window)
    (harchived : s'.archivedThrough = s.archivedThrough) (hnew : c'.Limited s')
    (hpending : s'.coord.pending = true → s'.coord.pendingTo - s'.coord.pendingFrom + 1 ≤ s'.window ∧
      s'.archivedThrough < s'.coord.pendingFrom) : Limited s' where
  pending := hpending
  calls d hd := by
    rw [hcalls] at hd
    rcases mem_or_eq_of_mem_set hd with hd | rfl
    · have hold := h.calls d hd
      exact
        { valid := hold.valid
          unarchived := by rw [harchived]; exact hold.unarchived
          fits := by rw [hwindow]; exact hold.fits
          within := by rw [hwindow]; exact hold.within }
    · exact hnew

def Phase.neutral : Phase → Bool
  | .waiting => true
  | .executed _ _ => true
  | .sending _ _ => true
  | .returned _ => true
  | _ => false

theorem Call.limited_of_neutral {s : State} {c : Call} (h : c.phase.neutral = true) : c.Limited s where
  valid hp := by rcases hp with hp | hp | hp <;> simp [hp, Phase.neutral] at h
  unarchived hp := by rcases hp with hp | hp <;> simp [hp, Phase.neutral] at h
  fits hp := by simp [hp, Phase.neutral] at h
  within p hp := by simp [hp, Phase.neutral] at h

theorem Call.limited_executing {s : State} {c : Call} {p : Pass} (hphase : c.phase = .executing p)
    (h : p.Within s.window) : c.Limited s where
  valid hp := by rcases hp with hp | hp | hp <;> simp [hphase] at hp
  unarchived hp := by rcases hp with hp | hp <;> simp [hphase] at hp
  fits hp := by simp [hphase] at hp
  within q hq := by
    rw [hphase] at hq
    rw [← Phase.executing.inj hq]
    exact h

theorem valid_of_entered {f t h : Nat} (hphase : (Call.new f t h).phase = .entered) :
    (Call.new f t h).Valid := by
  have hlt : u32 t < 2 ^ 32 := Nat.mod_lt _ (by omega)
  unfold Call.new at hphase
  split at hphase
  · cases hphase
  · refine ⟨?_, ?_, hlt⟩
    · change 0 < u32 f
      omega
    · change u32 f ≤ u32 t
      omega

theorem Limited.arrive {s : State} (h : Limited s) (f t hd : Nat) :
    Limited { s with calls := s.calls ++ [Call.new f t hd] } where
  pending := h.pending
  calls c hc := by
    rcases mem_append.mp hc with hc | hc
    · have hold := h.calls c hc
      exact ⟨hold.valid, hold.unarchived, hold.fits, hold.within⟩
    · rw [mem_singleton.mp hc]
      by_cases hphase : (Call.new f t hd).phase = .entered
      · exact
          { valid := fun _ => valid_of_entered hphase
            unarchived := by simp [hphase]
            fits := by simp [hphase]
            within := by simp [hphase] }
      · apply Call.limited_of_neutral
        unfold Call.new at hphase ⊢
        split
        · rfl
        · rename_i hvalid
          rw [if_neg hvalid] at hphase
          exact absurd rfl hphase

theorem Limited.effect {s t : State} {m : Move} (hwindow : 0 < s.window) (h : Limited s)
    (hm : Admits s m) (he : Effect s m t) : Limited t := by
  cases he with
  | arrive f t hd => exact h.arrive f t hd
  | archive hle =>
    refine ⟨fun c hc => ?_, fun hp => ⟨(h.pending hp).1, hm.2 hp⟩⟩
    have hold := h.calls c hc
    exact ⟨hold.valid, hm.1 c hc, hold.fits, hold.within⟩
  | refuse _ hc hphase err => exact h.set rfl rfl rfl (Call.limited_of_neutral rfl) h.pending
  | @unarchive i c hc hphase hbound =>
    have hold := h.calls c (mem_of_getElem? hc)
    have hvalid := hold.valid (.inl hphase)
    refine h.set rfl rfl rfl ⟨fun _ => hvalid, fun _ => ?_, by simp [Call.to], by simp [Call.to]⟩ h.pending
    have hpos := hvalid.1
    change s.archivedThrough < c.fromLedger
    omega
  | @accept i c hc hphase stored highest hdepth =>
    have hold := h.calls c (mem_of_getElem? hc)
    have hvalid := hold.valid (.inr (.inl hphase))
    exact h.set rfl rfl rfl
      ⟨fun _ => hvalid, fun _ => hold.unarchived (.inl hphase),
        fun _ => span_le_of_depth ⟨s.window, highest, fun _ => none⟩ hwindow hvalid.1
          hvalid.2.1 hvalid.2.2 hdepth,
        by simp⟩ h.pending
  | @join i c hc hphase hrunning =>
    have hold := h.calls c (mem_of_getElem? hc)
    have hfrom := hold.unarchived (.inr hphase)
    refine h.set rfl rfl rfl (Call.limited_of_neutral rfl) fun _ => ?_
    change (s.coord.join c i).pendingTo - (s.coord.join c i).pendingFrom + 1 ≤ s.window ∧
      s.archivedThrough < (s.coord.join c i).pendingFrom
    unfold ReorgCoordinator.join
    split
    · rename_i hpending
      have hmerged := hm hrunning hpending c hc
      have hbelow := (h.pending hpending).2
      dsimp only
      constructor
      · split <;> split <;> omega
      · split <;> omega
    · exact ⟨hold.fits hphase, hfrom⟩
  | @start i c hc hphase hidle =>
    have hold := h.calls c (mem_of_getElem? hc)
    refine h.set rfl rfl rfl (Call.limited_executing rfl ?_) h.pending
    exact ⟨hold.fits hphase, hold.unarchived (.inr hphase)⟩
  | endPass hc hphase err => exact h.set rfl rfl rfl (Call.limited_of_neutral rfl) h.pending
  | finish hc hphase hlast =>
    exact h.set rfl rfl rfl (Call.limited_of_neutral rfl) nofun
  | drain hc hphase hpending head =>
    exact h.set rfl rfl rfl (Call.limited_executing rfl (h.pending hpending)) nofun
  | @deliver i c hc w rest err hphase d hd hempty =>
    have hfirst : Limited (s.set i (c.to (.sending rest err))) :=
      h.set rfl rfl rfl (Call.limited_of_neutral rfl) h.pending
    have hold := hfirst.calls d (mem_of_getElem? hd)
    exact hfirst.set rfl rfl rfl ⟨hold.valid, hold.unarchived, hold.fits, hold.within⟩ h.pending
  | sent hc hphase => exact h.set rfl rfl rfl (Call.limited_of_neutral rfl) h.pending
  | receive hc hphase hr => exact h.set rfl rfl rfl (Call.limited_of_neutral rfl) h.pending

theorem window_effect {s t : State} {m : Move} (he : Effect s m t) : t.window = s.window := by
  cases he <;> rfl

/-- In every interleaving whose moves are admitted, a pass that runs spans at most the window and
starts above the archive boundary. -/
theorem executed_pass_within_limits (window archivedThrough : Nat) (hwindow : 0 < window)
    (ms : List Move) (s : State)
    (hadmits : Steps.Along State.step Admits (State.init window archivedThrough) ms)
    (hrun : Steps.run State.step (State.init window archivedThrough) ms = some s) :
    ∀ c ∈ s.calls, ∀ p, c.phase = .executing p →
      p.toLedger - p.fromLedger + 1 ≤ window ∧ p.archivedThrough < p.fromLedger := by
  have hinit : (State.init window archivedThrough).window = window ∧
      Limited (State.init window archivedThrough) :=
    ⟨rfl, by simp [State.init], by simp [State.init]⟩
  obtain ⟨hw, hlimited⟩ := hadmits.invariant (I := fun s => s.window = window ∧ Limited s)
    (fun s m s' hm hs hstep => by
      obtain ⟨t, ht, rfl⟩ := State.step_effect hstep
      have ht' : Limited t := hs.2.effect (by rw [hs.1]; exact hwindow) hm ht
      refine ⟨(window_effect ht).trans hs.1, ⟨fun c hc => ?_, ht'.pending⟩⟩
      have hold := ht'.calls c hc
      exact ⟨hold.valid, hold.unarchived, hold.fits, hold.within⟩)
    hinit hrun
  intro c hc p hphase
  have hwithin := (hlimited.calls c hc).within p hphase
  rw [hw] at hwithin
  exact hwithin

theorem executed_pass_within_limits_single :
    ∃ s, Steps.run State.step (State.init 2 0)
        [.call 1 2 0, .boundary 0 none, .depth 0 0 0, .enter 0] = some s ∧
      s.calls.map Call.phase = [.executing ⟨1, 2, 0, 3, 0⟩] ∧
      ∀ c ∈ s.calls, ∀ p, c.phase = .executing p →
        p.toLedger - p.fromLedger + 1 ≤ 2 ∧ p.archivedThrough < p.fromLedger :=
  ⟨_, rfl, rfl, executed_pass_within_limits 2 0 (by decide)
    [.call 1 2 0, .boundary 0 none, .depth 0 0 0, .enter 0] _ (Steps.Along.of_check rfl) rfl⟩

/-- Two ranges that fit a window of two ledgers each are merged into one of four while a pass runs. -/
theorem merged_pass_exceeds_window :
    (Steps.run State.step (State.init 2 0)
      [.call 1 2 0, .boundary 0 none, .depth 0 0 2, .enter 0,
        .call 3 4 0, .boundary 1 none, .depth 1 4 4, .enter 1,
        .call 5 6 0, .boundary 2 none, .depth 2 6 6, .enter 2,
        .endPass 0 none, .settle 0]).map (fun s => s.calls.map Call.phase) =
      some [.executing ⟨3, 6, 0, 13, 0⟩, .waiting, .waiting] := by
  decide

end SoroTrail.Ingest.Coalesce
