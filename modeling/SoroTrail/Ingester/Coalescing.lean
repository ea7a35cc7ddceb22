import SoroTrail.Ingester.Coordinator

/-!
# Coalesced repairs are safe

At most one pass runs at a time, a call that returns without an error is covered
by a pass that started after its checks, and each waiter is sent one result.  The
invariant says what is owed to a waiter: the pending range contains its range, or
the pass that is running does, or a pass that succeeded did.
-/

set_option autoImplicit false

namespace SoroTrail.Ingest.Coalesce

open Lib Rpc Steps List Option

def Phase.isExecuting : Phase → Bool
  | .executing _ => true
  | _ => false

def Phase.pass? : Phase → Option Pass
  | .executing p => some p
  | .executed p _ => some p
  | _ => none

def Phase.unsent : Phase → List Nat
  | .sending ws _ => ws
  | _ => []

/-- The pass started after the call's checks and spans its range. -/
def Covers (p : Pass) (c : Call) : Prop :=
  (p.fromLedger ≤ c.fromLedger ∧ c.toLedger ≤ p.toLedger) ∧
    ∃ t, c.checkedAt = some t ∧ t < p.startedAt

def State.Covered (s : State) (c : Call) : Prop :=
  ∃ p, (p, none) ∈ s.completed ∧ Covers p c

def State.Owed (s : State) (c : Call) : Prop :=
  (s.coord.pending = true ∧ (s.coord.pendingFrom ≤ c.fromLedger ∧ c.toLedger ≤ s.coord.pendingTo) ∧
      c.checkedAt ≠ none) ∨
    (∃ d ∈ s.calls, ∃ p, d.phase.pass? = some p ∧ Covers p c) ∨ s.Covered c

def State.queued (s : State) (i : Nat) : Nat :=
  s.coord.waiters.count i + (s.calls.map fun c => c.phase.unsent.count i).sum

def State.sentTo (s : State) (i : Nat) : Nat := (s.calls[i]?).elim 0 Call.sent

def State.isRegistered (s : State) (i : Nat) : Bool := (s.calls[i]?).elim false Call.registered

def Phase.weight (p : Phase) : Nat := if p.pass?.isSome then 1 else 0

def State.active (s : State) : Nat := (s.calls.map fun c => c.phase.weight).sum

def Phase.Needs (s : State) (c : Call) : Phase → Prop
  | .entered | .unarchived => c.checkedAt = none ∧ c.registered = false
  | .checked => c.checkedAt ≠ none ∧ c.registered = false
  | .waiting => True
  | .executing p => Covers p c ∨ s.Covered c
  | .executed p err => (Covers p c ∨ s.Covered c) ∧ (p, err) ∈ s.completed
  | .sending _ err | .returned err => err = none → s.Covered c

structure Good (s : State) (c : Call) : Prop where
  time : ∀ t, c.checkedAt = some t → t < s.clock
  needs : c.phase.Needs s c
  received : c.inbox = some none → s.Covered c
  counted : c.inbox ≠ none → 0 < c.sent

def State.SendsCovered (s : State) (d : Call) : Prop :=
  ∀ ws, d.phase = .sending ws none → ∀ w ∈ ws, ∀ e, s.calls[w]? = some e → s.Covered e

structure Coherent (s : State) : Prop where
  good : ∀ (i : Nat) (c : Call), s.calls[i]? = some c → Good s c
  idle : s.coord.running = false → s.coord.pending = false ∧ s.coord.waiters = []
  alone : s.active = if s.coord.running then 1 else 0
  conserved : ∀ i, s.queued i + s.sentTo i = if s.isRegistered i then 1 else 0
  owed : ∀ w ∈ s.coord.waiters, ∀ c, s.calls[w]? = some c → s.Owed c
  covered : ∀ d ∈ s.calls, s.SendsCovered d

/-! ## Calls that change -/

def Keeps (c c' : Call) : Prop :=
  (c'.fromLedger = c.fromLedger ∧ c'.toLedger = c.toLedger) ∧
    ∀ t, c.checkedAt = some t → c'.checkedAt = some t

theorem Keeps.refl (c : Call) : Keeps c c := ⟨⟨rfl, rfl⟩, fun _ h => h⟩

theorem Keeps.to (c : Call) (phase : Phase) : Keeps c (c.to phase) := ⟨⟨rfl, rfl⟩, fun _ h => h⟩

variable {c c' : Call} {s s' : State} {i : Nat} {m : Move}

theorem Covers.keep {p : Pass} (h : Covers p c) (hk : Keeps c c') : Covers p c' := by
  obtain ⟨hspan, t, ht, hlt⟩ := h
  refine ⟨?_, t, hk.2 t ht, hlt⟩
  rw [hk.1.1, hk.1.2]
  exact hspan

def Extends (s s' : State) : Prop :=
  (∀ x ∈ s.completed, x ∈ s'.completed) ∧ s.clock ≤ s'.clock

theorem Extends.tick (hcompleted : s'.completed = s.completed := by rfl)
    (hclock : s'.clock = s.clock + 1 := by rfl) : Extends s s' :=
  ⟨fun _ hx => hcompleted ▸ hx, hclock ▸ Nat.le_succ _⟩

theorem State.Covered.keep (h : s.Covered c) (hs : Extends s s') (hk : Keeps c c') :
    s'.Covered c' := by
  obtain ⟨p, hp, hcov⟩ := h
  exact ⟨p, hs.1 _ hp, hcov.keep hk⟩

variable {ph : Phase}

theorem Phase.Needs.extend (h : ph.Needs s c) (hs : Extends s s') : ph.Needs s' c := by
  have hkeep : s.Covered c → s'.Covered c := fun hcov => hcov.keep hs (.refl c)
  cases ph with
  | entered | unarchived | checked | waiting => exact h
  | executing p => exact h.imp id hkeep
  | executed p err => exact ⟨h.1.imp id hkeep, hs.1 _ h.2⟩
  | sending ws err | returned err => exact fun herr => hkeep (h herr)

theorem Good.extend (h : Good s c) (hs : Extends s s') : Good s' c where
  time t ht := lt_of_lt_of_le (h.time t ht) hs.2
  needs := h.needs.extend hs
  received hp := (h.received hp).keep hs (.refl c)
  counted := h.counted

theorem Good.of_phase (h : Good s c) (hph : c.phase = ph) : ph.Needs s c := hph ▸ h.needs

theorem Good.to (h : Good s c) (hs : Extends s s') (hph : ph.Needs s' c) :
    Good s' (c.to ph) where
  time := (h.extend hs).time
  needs := by cases ph <;> exact hph
  received := (h.extend hs).received
  counted := h.counted

theorem good_set (hgood : ∀ (i : Nat) (c : Call), s.calls[i]? = some c → Good s c)
    (hs : Extends s s') (hcalls : s'.calls = s.calls.set i c') (hc' : Good s' c') :
    ∀ (j : Nat) (d : Call), s'.calls[j]? = some d → Good s' d := by
  intro j d hd
  rw [hcalls] at hd
  rcases getElem?_set_cases hd with ⟨rfl, rfl⟩ | ⟨_, hd⟩
  · exact hc'
  · exact (hgood j d hd).extend hs

theorem keeps_of_set {l : List Call} (hc : l[i]? = some c) (hk : Keeps c c') {j : Nat} {d' : Call}
    (hd : (l.set i c')[j]? = some d') : ∃ d, l[j]? = some d ∧ Keeps d d' := by
  rcases getElem?_set_cases hd with ⟨rfl, rfl⟩ | ⟨_, hd⟩
  · exact ⟨c, hc, hk⟩
  · exact ⟨d', hd, .refl d'⟩

/-! ## Counting -/

section Counting

variable (hc : s.calls[i]? = some c)

include hc

theorem sentTo_self : s.sentTo i = c.sent := by
  simp [State.sentTo, hc]

theorem isRegistered_self : s.isRegistered i = c.registered := by
  simp [State.isRegistered, hc]

variable (hcalls : s'.calls = s.calls.set i c')

include hcalls

theorem active_set : s'.active + c.phase.weight = s.active + c'.phase.weight := by
  unfold State.active
  rw [hcalls]
  exact sum_map_set (fun c => c.phase.weight) hc

theorem alone_set (halone : s.active = if s.coord.running then 1 else 0)
    (h : (if s'.coord.running then 1 else 0) + c.phase.weight =
      (if s.coord.running then 1 else 0) + c'.phase.weight) :
    s'.active = if s'.coord.running then 1 else 0 := by
  have hactive := active_set hc hcalls
  omega

theorem queued_set (j : Nat) :
    s'.queued j + c.phase.unsent.count j + s.coord.waiters.count j =
      s.queued j + c'.phase.unsent.count j + s'.coord.waiters.count j := by
  have hsum := sum_map_set (y := c') (fun c => c.phase.unsent.count j) hc
  unfold State.queued
  rw [hcalls]
  omega

theorem sentTo_set (j : Nat) : s'.sentTo j = if j = i then c'.sent else s.sentTo j := by
  unfold State.sentTo
  rw [hcalls]
  exact elim_set Call.sent hc j

theorem isRegistered_set (j : Nat) :
    s'.isRegistered j = if j = i then c'.registered else s.isRegistered j := by
  unfold State.isRegistered
  rw [hcalls]
  exact elim_set Call.registered hc j

end Counting

/-! ## One call changes -/

theorem sendsCovered_of_unsent (s : State) {d : Call} (h : d.phase.unsent = []) : s.SendsCovered d := by
  intro ws hphase w hw
  rw [hphase] at h
  rw [show ws = [] from h] at hw
  cases hw

section Change

variable (hc : s.calls[i]? = some c) (hcalls : s'.calls = s.calls.set i c')

include hc hcalls

theorem owed_set (hcoord : s'.coord = s.coord) (hs : Extends s s') (hk : Keeps c c')
    (hpass : ∀ p, c.phase.pass? = some p → c'.phase.pass? = some p)
    (howed : ∀ w ∈ s.coord.waiters, ∀ d, s.calls[w]? = some d → s.Owed d) :
    ∀ w ∈ s'.coord.waiters, ∀ d, s'.calls[w]? = some d → s'.Owed d := by
  intro w hw d' hd'
  rw [hcoord] at hw
  rw [hcalls] at hd'
  obtain ⟨d, hd, hkd⟩ := keeps_of_set hc hk hd'
  rcases howed w hw d hd with ⟨hpending, hspan, hchecked⟩ | ⟨e, he, p, hp, hcov⟩ | hcov
  · refine .inl ⟨hcoord ▸ hpending, ?_, ?_⟩
    · rw [hcoord, hkd.1.1, hkd.1.2]
      exact hspan
    · obtain ⟨t, ht⟩ := ne_none_iff_exists'.mp hchecked
      rw [hkd.2 t ht]
      exact some_ne_none t
  · -- the call that runs the pass is the one that changed, or another one
    refine .inr (.inl ?_)
    rw [hcalls]
    rcases eq_or_mem_set hc he with rfl | he
    · exact ⟨c', mem_set_self hc, p, hpass p hp, hcov.keep hkd⟩
    · exact ⟨e, he, p, hp, hcov.keep hkd⟩
  · exact .inr (.inr (hcov.keep hs hkd))

theorem covered_set (hs : Extends s s') (hk : Keeps c c') (hcov : ∀ d ∈ s.calls, s.SendsCovered d)
    (hnew : s'.SendsCovered c') : ∀ d ∈ s'.calls, s'.SendsCovered d := by
  intro d hd ws hphase w hw e' he'
  obtain ⟨k, hd⟩ := List.getElem?_of_mem hd
  rw [hcalls] at hd
  rcases getElem?_set_cases hd with ⟨rfl, rfl⟩ | ⟨_, hd⟩
  · exact hnew ws hphase w hw e' he'
  · rw [hcalls] at he'
    obtain ⟨e, he, hke⟩ := keeps_of_set hc hk he'
    exact (hcov d (mem_of_getElem? hd) ws hphase w hw e he).keep hs hke

theorem conserved_set
    (hmoved : ∀ j, c'.phase.unsent.count j + s'.coord.waiters.count j =
      c.phase.unsent.count j + s.coord.waiters.count j)
    (hsame : c'.sent = c.sent ∧ c'.registered = c.registered)
    (hcons : ∀ j, s.queued j + s.sentTo j = if s.isRegistered j then 1 else 0) (j : Nat) :
    s'.queued j + s'.sentTo j = if s'.isRegistered j then 1 else 0 := by
  have hqueued := queued_set hc hcalls j
  have hj := hcons j
  have hq : s'.queued j = s.queued j := by
    have hm := hmoved j
    omega
  rw [sentTo_set hc hcalls, isRegistered_set hc hcalls, hq]
  by_cases hji : j = i
  · subst hji
    rw [sentTo_self hc, isRegistered_self hc] at hj
    rw [if_pos rfl, if_pos rfl, hsame.1, hsame.2]
    exact hj
  · rw [if_neg hji, if_neg hji]
    exact hj

end Change

/-! ## Steps keep the invariant -/

section Steps

variable {s s' : State} {c d : Call} {i w : Nat} {p : Pass}

/-- A call changes by itself, outside the coordinator and its list of channels. -/
theorem Coherent.local_step (hinv : Coherent s) {c' : Call} (hc : s.calls[i]? = some c)
    (hphase : c.phase = ph) (hs : Extends s s') (hk : Keeps c c') (hgood : Good s' c')
    (hcalls : s'.calls = s.calls.set i c' := by rfl) (hcoord : s'.coord = s.coord := by rfl)
    (hpass : c'.phase.pass? = ph.pass? := by rfl) (hold : ph.unsent = [] := by rfl)
    (hnew : c'.phase.unsent = [] := by rfl)
    (hsame : c'.sent = c.sent ∧ c'.registered = c.registered := by exact ⟨rfl, rfl⟩) : Coherent s' where
  good := good_set hinv.good hs hcalls hgood
  idle := by
    rw [hcoord]
    exact hinv.idle
  alone := alone_set hc hcalls hinv.alone (by rw [hcoord, hphase, Phase.weight, Phase.weight, hpass])
  conserved := conserved_set hc hcalls (by rw [hcoord, hphase, hold, hnew]; exact fun _ => rfl) hsame
    hinv.conserved
  owed := owed_set hc hcalls hcoord hs hk (fun p hp => hpass.trans (hphase ▸ hp)) hinv.owed
  covered := covered_set hc hcalls hs hk hinv.covered (sendsCovered_of_unsent s' hnew)

theorem covers_now (hgood : Good s c) (hchecked : c.checkedAt ≠ none) {f t : Nat}
    (hspan : f ≤ c.fromLedger ∧ c.toLedger ≤ t) (head : Nat) : Covers (s.pass f t head) c := by
  obtain ⟨u, hu⟩ := ne_none_iff_exists'.mp hchecked
  exact ⟨hspan, u, hu, hgood.time u hu⟩

section

variable (hinv : Coherent s)
include hinv

section

variable (hc : s.calls[i]? = some c)
include hc

theorem Coherent.unique
    (hp : c.phase.pass? = some p) (hd : d ∈ s.calls) {q : Pass} (hq : d.phase.pass? = some q) :
    q = p := by
  obtain ⟨j, hd⟩ := List.getElem?_of_mem hd
  by_cases hij : i = j
  · subst hij
    rw [hc, Option.some.injEq] at hd
    rw [← hd, hp, Option.some.injEq] at hq
    exact hq.symm
  · have htwo := add_le_sum_map (fun c => c.phase.weight) hc hd hij
    have hone := hinv.alone
    have hle : s.active ≤ 1 := by
      rw [hone]
      split <;> omega
    have hwc : c.phase.weight = 1 := by simp [Phase.weight, hp]
    have hwd : d.phase.weight = 1 := by simp [Phase.weight, hq]
    exact absurd (le_trans htwo hle) (by omega)

theorem Coherent.running_of_pass
    (hp : c.phase.pass? = some p) : s.coord.running = true := by
  have hle := le_sum_map (fun c => c.phase.weight) hc
  have hwc : c.phase.weight = 1 := by simp [Phase.weight, hp]
  have hone := hinv.alone
  unfold State.active at hone
  cases hrun : s.coord.running with
  | false =>
    rw [hrun, if_neg Bool.false_ne_true] at hone
    omega
  | true => rfl

/-- When the pass of the one active call has succeeded, it has covered every call it owed. -/
theorem Coherent.settled
    (hphase : c.phase = .executed p none)
    (howed : (∃ e ∈ s.calls, ∃ q, e.phase.pass? = some q ∧ Covers q d) ∨ s.Covered d) :
    s.Covered d := by
  have hlogged := ((hinv.good i c hc).of_phase hphase).2
  have hp : c.phase.pass? = some p := by rw [hphase]; rfl
  rcases howed with ⟨e, he, q, hq, hcov⟩ | hcov
  · rw [hinv.unique hc hp he hq] at hcov
    exact ⟨p, hlogged, hcov⟩
  · exact hcov

theorem Coherent.start
    (hphase : c.phase = .checked) (hidle : s.coord.running = false) (hs : Extends s s')
    (hcalls : s'.calls =
      s.calls.set i (c.to (.executing (s.pass c.fromLedger c.toLedger c.newHeadLedger))))
    (hcoord : s'.coord = { s.coord with running := true }) : Coherent s' := by
  have hgood := hinv.good i c hc
  obtain ⟨_, hwaiters⟩ := hinv.idle hidle
  have hcovers := covers_now hgood (hgood.of_phase hphase).1 ⟨le_rfl, le_rfl⟩ c.newHeadLedger
  refine
    { good := good_set hinv.good hs hcalls (hgood.to hs (.inl hcovers))
      idle := fun h => ?_
      alone := alone_set hc hcalls hinv.alone (by rw [hcoord, hphase, hidle]; rfl)
      conserved := conserved_set hc hcalls (by rw [hcoord, hphase]; exact fun _ => rfl) ⟨rfl, rfl⟩
        hinv.conserved
      owed := fun w hw => ?_
      covered := covered_set hc hcalls hs (.refl c) hinv.covered (sendsCovered_of_unsent _ rfl) }
  · simp [hcoord] at h
  · rw [hcoord] at hw
    simp [hwaiters] at hw

theorem Coherent.join
    (hphase : c.phase = .checked) (hrunning : s.coord.running = true) (hs : Extends s s')
    (hcalls : s'.calls = s.calls.set i { c with phase := .waiting, registered := true })
    (hcoord : s'.coord = s.coord.join c i) : Coherent s' := by
  have hgood := hinv.good i c hc
  have hunsent : c.phase.unsent = [] := by rw [hphase]; rfl
  have hk : Keeps c { c with phase := .waiting, registered := true } := .refl c
  have hjoin : (s.coord.join c i).running = s.coord.running ∧ (s.coord.join c i).pending = true ∧
      (s.coord.join c i).waiters = s.coord.waiters ++ [i] := by
    unfold ReorgCoordinator.join
    split
    · rename_i hpending
      exact ⟨rfl, hpending, rfl⟩
    · exact ⟨rfl, rfl, rfl⟩
  have hmerged : (s.coord.join c i).pendingFrom ≤ c.fromLedger ∧
      c.toLedger ≤ (s.coord.join c i).pendingTo ∧
      (s.coord.pending = true → (s.coord.join c i).pendingFrom ≤ s.coord.pendingFrom ∧
        s.coord.pendingTo ≤ (s.coord.join c i).pendingTo) := by
    unfold ReorgCoordinator.join
    split
    · dsimp only
      refine ⟨?_, ?_, fun _ => ⟨?_, ?_⟩⟩ <;> split <;> omega
    · rename_i hpending
      exact ⟨le_rfl, le_rfl, fun h => absurd h hpending⟩
  refine
    { good := good_set hinv.good hs hcalls { hgood.extend hs with needs := trivial }
      idle := fun h => ?_
      alone := alone_set hc hcalls hinv.alone (by rw [hcoord, hjoin.1, hphase]; rfl)
      conserved := fun j => ?_
      owed := fun w hw d' hd' => ?_
      covered := covered_set hc hcalls hs hk hinv.covered (sendsCovered_of_unsent _ rfl) }
  · rw [hcoord, hjoin.1, hrunning] at h
    cases h
  · have hqueued := queued_set hc hcalls j
    have hj := hinv.conserved j
    have hnew : ({ c with phase := .waiting, registered := true } : Call).phase.unsent = [] := rfl
    rw [hunsent, hnew, hcoord, hjoin.2.2, count_append, count_nil] at hqueued
    rw [sentTo_set hc hcalls, isRegistered_set hc hcalls]
    by_cases hji : j = i
    · subst hji
      rw [sentTo_self hc, isRegistered_self hc,
        (hgood.of_phase hphase).2, if_neg Bool.false_ne_true] at hj
      rw [if_pos rfl, if_pos rfl, if_pos rfl]
      rw [count_singleton_self] at hqueued
      dsimp only
      omega
    · rw [if_neg hji, if_neg hji, ← hj]
      rw [count_singleton, if_neg (by simpa using Ne.symm hji)] at hqueued
      omega
  · rw [hcalls] at hd'
    -- the new waiter, or an old one whose pending range has only grown
    have hpending : s'.coord.pending = true := by rw [hcoord]; exact hjoin.2.1
    rw [hcoord, hjoin.2.2] at hw
    rcases getElem?_set_cases hd' with ⟨rfl, rfl⟩ | ⟨hwi, hd''⟩
    · refine .inl ⟨hpending, ?_, (hgood.of_phase hphase).1⟩
      rw [hcoord]
      exact ⟨hmerged.1, hmerged.2.1⟩
    · have hold : w ∈ s.coord.waiters := by
        rcases mem_append.mp hw with hw | hw
        · exact hw
        · exact absurd (mem_singleton.mp hw) hwi
      rcases hinv.owed w hold d' hd'' with ⟨hp, hspan, hchecked⟩ | ⟨e, he, p, hp, hcov⟩ | hcov
      · refine .inl ⟨hpending, ?_, hchecked⟩
        obtain ⟨hfrom, hto⟩ := hmerged.2.2 hp
        rw [hcoord]
        exact ⟨le_trans hfrom hspan.1, le_trans hspan.2 hto⟩
      · rcases eq_or_mem_set hc he with rfl | he
        · rw [hphase] at hp
          cases hp
        · exact .inr (.inl ⟨e, hcalls ▸ he, p, hp, hcov⟩)
      · exact .inr (.inr (hcov.keep hs (.refl d')))

theorem Coherent.finish {err : Option Err}
    (hphase : c.phase = .executed p err) (hlast : err ≠ none ∨ s.coord.pending = false)
    (hs : Extends s s') (hcalls : s'.calls = s.calls.set i (c.to (.sending s.coord.waiters err)))
    (hcoord : s'.coord = s.coord.finish) : Coherent s' := by
  have hgood := hinv.good i c hc
  obtain ⟨hrunner, hlogged⟩ := hgood.of_phase hphase
  have hrunning := hinv.running_of_pass hc (by rw [hphase]; rfl)
  have hempty : s'.coord.waiters = [] := by rw [hcoord]; rfl
  -- a success covers the runner and, since nothing is pending, everything it owes
  have hsettled : err = none → ∀ w ∈ s.coord.waiters, ∀ d, s.calls[w]? = some d → s.Covered d := by
    intro herr w hw d hd
    rw [herr] at hphase
    have hpending : ¬ s.coord.pending = true := by
      simpa using hlast.resolve_left (fun h => h herr)
    exact hinv.settled hc hphase ((hinv.owed w hw d hd).resolve_left fun h => hpending h.1)
  have hrun : err = none → s.Covered c :=
    fun herr => hrunner.elim (fun hcov => ⟨p, herr ▸ hlogged, hcov⟩) id
  refine
    { good := good_set hinv.good hs hcalls
        (hgood.to hs fun herr => (hrun herr).keep hs (.refl c))
      idle := fun _ => by rw [hcoord]; exact ⟨rfl, rfl⟩
      alone := alone_set hc hcalls hinv.alone (by rw [hcoord, hphase, hrunning]; rfl)
      conserved := conserved_set hc hcalls
        (fun j => by rw [hempty, hphase]; exact Nat.add_comm (s.coord.waiters.count j) 0) ⟨rfl, rfl⟩
        hinv.conserved
      owed := fun w hw => ?_
      covered := covered_set hc hcalls hs (.refl c) hinv.covered ?_ }
  · rw [hempty] at hw
    cases hw
  · intro ws hws w hw e' he'
    obtain ⟨hws, herr⟩ := Phase.sending.inj hws
    rw [hcalls] at he'
    obtain ⟨e, he, hke⟩ := keeps_of_set hc (.to c _) he'
    exact (hsettled herr w (hws ▸ hw) e he).keep hs hke

theorem Coherent.drain
    (hphase : c.phase = .executed p none) {head : Nat} (hs : Extends s s')
    (hcalls : s'.calls =
      s.calls.set i (c.to (.executing (s.pass s.coord.pendingFrom s.coord.pendingTo head))))
    (hcoord : s'.coord = s.coord.drain) : Coherent s' := by
  have hgood := hinv.good i c hc
  obtain ⟨hrunner, hlogged⟩ := hgood.of_phase hphase
  have hrunning := hinv.running_of_pass hc (by rw [hphase]; rfl)
  have hwaiters : s'.coord.waiters = s.coord.waiters := by rw [hcoord]; rfl
  have hrun : s.Covered c := hrunner.elim (fun hcov => ⟨p, hlogged, hcov⟩) id
  refine
    { good := good_set hinv.good hs hcalls (hgood.to hs (.inr (hrun.keep hs (.refl c))))
      idle := fun h => ?_
      alone := alone_set hc hcalls hinv.alone (by rw [hcoord, hphase]; rfl)
      conserved := conserved_set hc hcalls (by rw [hwaiters, hphase]; exact fun _ => rfl) ⟨rfl, rfl⟩
        hinv.conserved
      owed := fun w hw d' hd' => ?_
      covered := covered_set hc hcalls hs (.refl c) hinv.covered (sendsCovered_of_unsent _ rfl) }
  · rw [hcoord] at h
    exact absurd (hrunning.symm.trans h) (by decide)
  · rw [hwaiters] at hw
    rw [hcalls] at hd'
    obtain ⟨d, hd, hkd⟩ := keeps_of_set hc (.to c _) hd'
    rcases hinv.owed w hw d hd with ⟨_, hspan, hchecked⟩ | hcov
    · -- the pending range has become the range of the pass that starts
      exact .inr (.inl ⟨_, hcalls ▸ mem_set_self hc, _, rfl,
        (covers_now (hinv.good w d hd) hchecked hspan head).keep hkd⟩)
    · exact .inr (.inr ((hinv.settled hc hphase hcov).keep hs hkd))

theorem Coherent.deliver {rest : List Nat}
    {err : Option Err} (hphase : c.phase = .sending (w :: rest) err)
    (hd : (s.set i (c.to (.sending rest err))).calls[w]? = some d) (hs : Extends s s')
    (hcalls : s'.calls = (s.set i (c.to (.sending rest err))).calls.set w
      { d with inbox := some err, sent := d.sent + 1 }) (hcoord : s'.coord = s.coord) :
    Coherent s' := by
  have hgood := hinv.good i c hc
  have hset : (s.set i (c.to (.sending rest err))).calls = s.calls.set i (c.to (.sending rest err)) := rfl
  have hself : Extends s (s.set i (c.to (.sending rest err))) := ⟨fun _ h => h, le_rfl⟩
  have hs1 : Extends (s.set i (c.to (.sending rest err))) s' := hs
  have hkd : Keeps d { d with inbox := some err, sent := d.sent + 1 } := .refl d
  have hgood1 := good_set hinv.good hself hset (hgood.to hself (hgood.of_phase hphase))
  have hgoodd := hgood1 w d hd
  have htargets : (s.set i (c.to (.sending rest err))).SendsCovered (c.to (.sending rest err)) := by
    intro ws hws x hx e he
    obtain ⟨hws, herr⟩ := Phase.sending.inj hws
    obtain ⟨e0, he0, hke⟩ := keeps_of_set hc (.to c _) he
    exact (hinv.covered c (mem_of_getElem? hc) (w :: rest) (herr ▸ hphase) x
      (.tail _ (hws ▸ hx)) e0 he0).keep hself hke
  refine
    { good := good_set hgood1 hs1 hcalls ?_
      idle := by rw [hcoord]; exact hinv.idle
      alone := alone_set hd hcalls (alone_set hc hset hinv.alone (by rw [hphase]; rfl))
        (by rw [hcoord]; rfl)
      conserved := fun j => ?_
      owed := owed_set hd hcalls hcoord hs1 hkd (fun p hp => hp)
        (owed_set hc hset rfl hself (.refl c) (by simp [hphase, Phase.pass?]) hinv.owed)
      covered := covered_set hd hcalls hs1 hkd
        (covered_set hc hset hself (.refl c) hinv.covered htargets) ?_ }
  · have hext := hgoodd.extend hs1
    refine { hext with received := fun hr => ?_, counted := fun _ => Nat.succ_pos _ }
    obtain ⟨d0, hd0, hk0⟩ := keeps_of_set hc (.to c _) hd
    have herr : err = none := Option.some.inj hr
    exact ((hinv.covered c (mem_of_getElem? hc) (w :: rest) (herr ▸ hphase) w (.head _)
      d0 hd0).keep hself hk0).keep hs1 hkd
  · have hfirst := queued_set hc hset j
    have hsecond := queued_set hd hcalls j
    have hj := hinv.conserved j
    have hold : c.phase.unsent = w :: rest := by rw [hphase]; rfl
    have hnew : (c.to (.sending rest err)).phase.unsent = rest := rfl
    have hsame : ({ d with inbox := some err, sent := d.sent + 1 } : Call).phase.unsent =
        d.phase.unsent := rfl
    have hco : (s.set i (c.to (.sending rest err))).coord = s.coord := rfl
    have hsent : (s.set i (c.to (.sending rest err))).sentTo j = s.sentTo j :=
      elim_set_same (y := c.to (.sending rest err)) Call.sent hc rfl j
    have hreg : (s.set i (c.to (.sending rest err))).isRegistered j = s.isRegistered j :=
      elim_set_same (y := c.to (.sending rest err)) Call.registered hc rfl j
    rw [hold, hnew, hco] at hfirst
    rw [hsame, hcoord, hco] at hsecond
    rw [sentTo_set hd hcalls, isRegistered_set hd hcalls]
    by_cases hjw : j = w
    · subst hjw
      rw [sentTo_self hd] at hsent
      rw [isRegistered_self hd] at hreg
      rw [count_cons_self] at hfirst
      rw [if_pos rfl, if_pos rfl, hreg, ← hj]
      dsimp only
      omega
    · rw [count_cons_of_ne (Ne.symm hjw)] at hfirst
      rw [if_neg hjw, if_neg hjw, hreg, hsent]
      omega
  · -- the receiving call sends what it sent before
    intro ws hws x hx e' he'
    rw [hcalls] at he'
    obtain ⟨e, he, hke⟩ := keeps_of_set hd hkd he'
    exact (covered_set hc hset hself (.refl c) hinv.covered htargets d (mem_of_getElem? hd) ws hws x hx
      e he).keep hs1 hke

end

theorem Coherent.queued_lt (hw : 0 < s.queued w) :
    w < s.calls.length ∧ s.sentTo w = 0 := by
  have hcons := hinv.conserved w
  cases hcall : s.calls[w]? with
  | none =>
    have hreg : s.isRegistered w = false := by simp [State.isRegistered, hcall]
    rw [hreg, if_neg Bool.false_ne_true] at hcons
    omega
  | some d =>
    refine ⟨(List.getElem?_eq_some_iff.mp hcall).1, ?_⟩
    split at hcons <;> omega

end

theorem queued_of_waiter (hw : w ∈ s.coord.waiters) : 0 < s.queued w := by
  have hpos := count_pos_iff.mpr hw
  unfold State.queued
  omega

theorem queued_of_unsent (hd : d ∈ s.calls) (hw : w ∈ d.phase.unsent) : 0 < s.queued w := by
  obtain ⟨k, hd⟩ := List.getElem?_of_mem hd
  have hpos := count_pos_iff.mpr hw
  have hle := le_sum_map (fun c => c.phase.unsent.count w) hd
  unfold State.queued
  omega

theorem Coherent.arrive (hinv : Coherent s) (f t h : Nat) (hs : Extends s s')
    (hcalls : s'.calls = s.calls ++ [Call.new f t h]) (hcoord : s'.coord = s.coord) : Coherent s' := by
  have hphase : (Call.new f t h).phase = .entered ∨ ∃ e, (Call.new f t h).phase = .returned (some e) := by
    unfold Call.new
    dsimp only
    split
    · exact .inr ⟨_, rfl⟩
    · exact .inl rfl
  have hpass : (Call.new f t h).phase.pass? = none := by
    rcases hphase with hp | ⟨e, hp⟩ <;> rw [hp] <;> rfl
  have hunsent : (Call.new f t h).phase.unsent = [] := by
    rcases hphase with hp | ⟨e, hp⟩ <;> rw [hp] <;> rfl
  have hsame : ∀ w, 0 < s.queued w → s'.calls[w]? = s.calls[w]? := by
    intro w hw
    rw [hcalls, List.getElem?_append_left (hinv.queued_lt hw).1]
  refine
    { good := fun j d hd => ?_
      idle := by rw [hcoord]; exact hinv.idle
      alone := ?_
      conserved := fun j => ?_
      owed := fun w hw d hd => ?_
      covered := fun e he ws hws w hw d hd => ?_ }
  · rw [hcalls] at hd
    rcases getElem?_append_cases hd with ⟨_, rfl⟩ | hd
    · refine
        { time := nofun
          needs := ?_
          received := nofun
          counted := fun hr => absurd rfl hr }
      rcases hphase with hp | ⟨e, hp⟩ <;> rw [hp]
      · exact ⟨rfl, rfl⟩
      · exact nofun
    · exact (hinv.good j d hd).extend hs
  · have hsum : s'.active = s.active := by
      simp [State.active, hcalls, Phase.weight, hpass]
    rw [hcoord, hsum]
    exact hinv.alone
  · have hqueued : s'.queued j = s.queued j := by
      simp [State.queued, hcalls, hcoord, hunsent]
    have hsent : s'.sentTo j = s.sentTo j ∧ s'.isRegistered j = s.isRegistered j := by
      unfold State.sentTo State.isRegistered
      rw [hcalls]
      rcases Nat.lt_trichotomy j s.calls.length with hlt | rfl | hgt
      · rw [List.getElem?_append_left hlt]
        exact ⟨rfl, rfl⟩
      · simp [Call.new]
      · rw [List.getElem?_eq_none (by simp; omega), List.getElem?_eq_none (by omega)]
        exact ⟨rfl, rfl⟩
    rw [hqueued, hsent.1, hsent.2]
    exact hinv.conserved j
  · rw [hcoord] at hw
    rw [hsame w (queued_of_waiter hw)] at hd
    rcases hinv.owed w hw d hd with hp | ⟨e, he, hp⟩ | hcov
    · refine .inl ?_
      rw [hcoord]
      exact hp
    · refine .inr (.inl ⟨e, ?_, hp⟩)
      rw [hcalls]
      exact mem_append_left _ he
    · exact .inr (.inr (hcov.keep hs (.refl d)))
  · rw [hcalls] at he
    rcases mem_append.mp he with he | he
    · have hunsent : w ∈ e.phase.unsent := by rw [hws]; exact hw
      rw [hsame w (queued_of_unsent he hunsent)] at hd
      exact (hinv.covered e he ws hws w hw d hd).keep hs (.refl d)
    · rw [mem_singleton.mp he] at hws
      rw [hws] at hunsent
      rw [show ws = [] from hunsent] at hw
      cases hw

end Steps

/-! ## Every step and every run -/

theorem Coherent.effect {t : State} (hinv : Coherent s) (he : Effect s m t) :
    Coherent { t with clock := s.clock + 1 } := by
  cases he with
  | arrive f t h => exact hinv.arrive f t h .tick rfl rfl
  | archive hle => exact { hinv with good := fun j d hd => (hinv.good j d hd).extend .tick }
  | @refuse m i c hm hc hphase err =>
    have hgood : Good { s.set i (c.to (.returned (some err))) with clock := s.clock + 1 }
        (c.to (.returned (some err))) := (hinv.good i c hc).to .tick nofun
    rcases hphase with hp | hp | hp <;> exact hinv.local_step hc hp .tick (.to c _) hgood
  | @unarchive i c hc hphase hbound =>
    have hgood := hinv.good i c hc
    exact hinv.local_step hc hphase .tick (.to c .unarchived) (hgood.to .tick (hgood.of_phase hphase))
  | @accept i c hc hphase stored highest hdepth =>
    have hgood := hinv.good i c hc
    obtain ⟨hnone, hreg⟩ := hgood.of_phase hphase
    have hk : Keeps c { c with phase := .checked, checkedAt := some s.clock } :=
      ⟨⟨rfl, rfl⟩, fun t ht => by rw [hnone] at ht; cases ht⟩
    refine hinv.local_step hc hphase .tick hk
      { time := fun t ht => ?_
        needs := ⟨some_ne_none _, hreg⟩
        received := fun hr => (hgood.received hr).keep .tick hk
        counted := hgood.counted }
    cases ht
    exact Nat.lt_succ_self _
  | join hc hphase hrunning => exact hinv.join hc hphase hrunning .tick rfl rfl
  | start hc hphase hidle => exact hinv.start hc hphase hidle .tick rfl rfl
  | @endPass i c hc p hphase err =>
    have hgood := hinv.good i c hc
    have hs : Extends s { s.set i (c.to (.executed p err)) with
        completed := s.completed ++ [(p, err)], clock := s.clock + 1 } :=
      ⟨fun _ hx => mem_append_left _ hx, Nat.le_succ _⟩
    have hrunner := (hgood.of_phase hphase).imp id fun hcov => hcov.keep hs (.refl c)
    exact hinv.local_step hc hphase hs (.to c (.executed p err))
      (hgood.to hs ⟨hrunner, mem_append_right _ (.head _)⟩)
  | finish hc hphase hlast => exact hinv.finish hc hphase hlast .tick rfl rfl
  | drain hc hphase hpending head => exact hinv.drain hc hphase .tick rfl rfl
  | deliver hc hphase hd hempty => exact hinv.deliver hc hphase hd .tick rfl rfl
  | @sent i c hc err hphase =>
    have hgood := hinv.good i c hc
    exact hinv.local_step hc hphase .tick (.to c (.returned err))
      (hgood.to .tick fun herr => (hgood.of_phase hphase herr).keep .tick (.refl c))
  | @receive i c hc hphase r hr =>
    have hgood := hinv.good i c hc
    have hk : Keeps c { c with phase := .returned r, inbox := none } := .refl c
    exact hinv.local_step hc hphase .tick hk
      { hgood.extend .tick with
        needs := fun herr => (hgood.received (herr ▸ hr)).keep .tick (.refl c)
        received := nofun
        counted := absurd rfl }

theorem coherent_init (window archivedThrough : Nat) : Coherent (State.init window archivedThrough) where
  good := by simp [State.init]
  idle _ := ⟨rfl, rfl⟩
  alone := rfl
  conserved _ := rfl
  owed := by simp [State.init]
  covered := by simp [State.init]

theorem Coherent.step (hinv : Coherent s) (h : s.step m = some s') : Coherent s' := by
  obtain ⟨t, ht, rfl⟩ := State.step_effect h
  exact hinv.effect ht

/-! ## Calls come to an end -/

def Phase.movesLeft : Phase → Nat
  | .entered => 12
  | .unarchived => 11
  | .checked => 10
  | .waiting => 1
  | .executing _ => 4
  | .executed _ _ => 3
  | .sending ws _ => ws.length + 1
  | .returned _ => 0

/-- A pending range is good for one more pass, a waiter for one more send. -/
def ReorgCoordinator.movesLeft (co : ReorgCoordinator) : Nat :=
  (if co.pending then 2 else 0) + 2 * co.waiters.length

def State.movesLeft (s : State) : Nat :=
  (s.calls.map fun c => c.phase.movesLeft).sum + s.coord.movesLeft

theorem movesLeft_set (hc : s.calls[i]? = some c) (hcalls : s'.calls = s.calls.set i c')
    (h : c'.phase.movesLeft + s'.coord.movesLeft + 1 ≤ c.phase.movesLeft + s.coord.movesLeft) :
    s'.movesLeft + 1 ≤ s.movesLeft := by
  have hsum := sum_map_set (y := c') (fun c => c.phase.movesLeft) hc
  unfold State.movesLeft
  rw [hcalls]
  omega

theorem movesLeft_local (hc : s.calls[i]? = some c) (hphase : c.phase = ph)
    (h : c'.phase.movesLeft + 1 ≤ ph.movesLeft) (hcalls : s'.calls = s.calls.set i c' := by rfl)
    (hcoord : s'.coord.movesLeft = s.coord.movesLeft := by rfl) : s'.movesLeft + 1 ≤ s.movesLeft := by
  apply movesLeft_set hc hcalls
  rw [hphase]
  omega

theorem movesLeft_join (co : ReorgCoordinator) (c : Call) (i : Nat) :
    (co.join c i).movesLeft ≤ co.movesLeft + 4 := by
  unfold ReorgCoordinator.join ReorgCoordinator.movesLeft
  split
  · simp
    omega
  · simp
    omega

theorem movesLeft_effect {t : State} (he : Effect s m t) (hm : m.caller.isSome = true) :
    t.movesLeft + 1 ≤ s.movesLeft := by
  cases he with
  | arrive f t h => cases hm
  | archive hle => cases hm
  | refuse _ hc hphase err =>
    rcases hphase with hp | hp | hp <;> refine movesLeft_local hc hp ?_ <;>
      exact Nat.le_add_left 1 _
  | unarchive hc hphase hbound =>
    refine movesLeft_local hc hphase ?_
    exact le_rfl
  | accept hc hphase hdepth =>
    refine movesLeft_local hc hphase ?_
    exact le_rfl
  | @join i c hc hphase hrunning =>
    apply movesLeft_set hc rfl
    have hjoin := movesLeft_join s.coord c i
    rw [hphase]
    change 1 + (s.coord.join c i).movesLeft + 1 ≤ 10 + s.coord.movesLeft
    omega
  | start hc hphase hidle =>
    refine movesLeft_local hc hphase ?_
    exact Nat.le_add_left 5 5
  | endPass hc hphase err =>
    refine movesLeft_local hc hphase ?_
    exact le_rfl
  | @finish i c hc p err hphase hlast =>
    apply movesLeft_set hc rfl
    have hwaiters : 2 * s.coord.waiters.length ≤ s.coord.movesLeft := Nat.le_add_left _ _
    rw [hphase]
    change s.coord.waiters.length + 1 + 0 + 1 ≤ 3 + s.coord.movesLeft
    omega
  | @drain i c hc p hphase hpending head =>
    apply movesLeft_set hc rfl
    have hdrain : s.coord.drain.movesLeft + 2 = s.coord.movesLeft := by
      simp only [ReorgCoordinator.movesLeft, ReorgCoordinator.drain, hpending, if_true,
        Bool.false_eq_true, if_false]
      omega
    rw [hphase]
    change 4 + s.coord.drain.movesLeft + 1 ≤ 3 + s.coord.movesLeft
    omega
  | @deliver i c hc w rest err hphase d hd hempty =>
    have hsame : ((s.set i (c.to (.sending rest err))).set w
        { d with inbox := some err, sent := d.sent + 1 }).movesLeft =
        (s.set i (c.to (.sending rest err))).movesLeft := by
      have hsum := sum_map_set (y := ({ d with inbox := some err, sent := d.sent + 1 } : Call))
        (fun c => c.phase.movesLeft) hd
      exact congrArg (· + s.coord.movesLeft) (Nat.add_right_cancel hsum)
    rw [hsame]
    refine movesLeft_local hc hphase ?_
    exact le_rfl
  | sent hc hphase =>
    refine movesLeft_local hc hphase ?_
    exact le_rfl
  | receive hc hphase hr =>
    refine movesLeft_local hc hphase ?_
    exact le_rfl

def Move.isCall : Move → Bool
  | .call _ _ _ => true
  | _ => false

/-- Every move of a call uses up what the calls brought with them. -/
theorem movesLeft_step (h : s.step m = some s') :
    s'.movesLeft + (if m.caller.isSome then 1 else 0) ≤ s.movesLeft + (if m.isCall then 12 else 0) := by
  obtain ⟨t, ht, rfl⟩ := State.step_effect h
  change t.movesLeft + _ ≤ _
  by_cases hm : m.caller.isSome = true
  · have hle := movesLeft_effect ht hm
    rw [if_pos hm]
    omega
  · rw [if_neg hm]
    cases ht with
    | arrive from' to' head =>
      have hnew : (Call.new from' to' head).phase.movesLeft ≤ 12 := by
        unfold Call.new
        split
        · exact Nat.zero_le _
        · exact le_rfl
      simp only [State.movesLeft, map_append, sum_append, map_cons, map_nil,
        sum_cons, sum_nil, Move.isCall, if_true]
      omega
    | archive hle => exact Nat.le_add_right _ _
    | refuse hcaller => exact absurd (by rw [hcaller]; rfl) hm
    | _ => exact absurd rfl hm

/-! ## The coordinator under every interleaving -/

def State.Quiet (s : State) : Prop := ∀ m, m.caller.isSome = true → s.step m = none

theorem State.Quiet.advance_none (h : s.Quiet) (hm : m.caller = some i)
    (hc : s.calls[i]? = some c) : s.advance i c m = none := by
  have hstep := h m (by rw [hm]; rfl)
  cases m <;> simp only [Move.caller, Option.some.injEq, reduceCtorEq] at hm <;> subst hm <;>
    simpa [State.step, Move.caller, hc] using hstep

/-- When nothing can move, every result has been sent. -/
theorem Coherent.queued_eq_zero (hinv : Coherent s) (hquiet : s.Quiet) (w : Nat) :
    s.queued w = 0 := by
  have hidle : s.coord.running = false := by
    by_contra hrunning
    rw [Bool.not_eq_false] at hrunning
    -- a running coordinator has an active call, and that call can move
    have hone := hinv.alone
    rw [hrunning, if_pos rfl] at hone
    have hpos : 0 < (s.calls.map fun c => c.phase.weight).sum := by
      rw [State.active] at hone
      omega
    obtain ⟨c, hc, hweight⟩ := exists_pos_of_sum_map _ hpos
    obtain ⟨i, hc⟩ := List.getElem?_of_mem hc
    cases hphase : c.phase with
    | executing p =>
      have hnone := hquiet.advance_none (m := .endPass i none) rfl hc
      simp [State.advance, hphase] at hnone
    | executed p err =>
      have hnone := hquiet.advance_none (m := .settle i) rfl hc
      simp [State.advance, hphase] at hnone
    | _ => simp [hphase, Phase.weight, Phase.pass?] at hweight
  by_contra hpos
  have hsum : 0 < (s.calls.map fun c => c.phase.unsent.count w).sum := by
    rw [State.queued, (hinv.idle hidle).2, count_nil] at hpos
    omega
  obtain ⟨c, hc, hunsent⟩ := exists_pos_of_sum_map _ hsum
  obtain ⟨i, hi⟩ := List.getElem?_of_mem hc
  cases hphase : c.phase with
  | sending ws err =>
    cases ws with
    | nil => simp [hphase, Phase.unsent] at hunsent
    | cons v rest =>
      have hv : v ∈ c.phase.unsent := by rw [hphase]; exact (.head _)
      obtain ⟨hlt, hsent⟩ := hinv.queued_lt (queued_of_unsent hc hv)
      have hnone := hquiet.advance_none (m := .send i) rfl hi
      have hinbox : ∀ d, (s.set i (c.to (.sending rest err))).calls[v]? = some d →
          d.inbox = none := by
        intro d hd
        have hold : ∃ d0, s.calls[v]? = some d0 ∧ d.inbox = d0.inbox ∧ d.sent = d0.sent := by
          rcases getElem?_set_cases hd with ⟨rfl, rfl⟩ | ⟨_, hd⟩
          · exact ⟨c, hi, rfl, rfl⟩
          · exact ⟨d, hd, rfl, rfl⟩
        obtain ⟨d0, hd0, hin, hse⟩ := hold
        rw [sentTo_self hd0] at hsent
        by_contra hne
        have hcount := (hinv.good v d0 hd0).counted (by rw [← hin]; exact hne)
        omega
      have hlen : v < (s.set i (c.to (.sending rest err))).calls.length := by
        rw [State.set, length_set]
        exact hlt
      have hd := List.getElem?_eq_getElem hlen
      simp [State.advance, hphase, State.sendCall, State.deliver, hd, hinbox _ hd] at hnone
  | _ => simp [hphase, Phase.unsent] at hunsent

/-- In every interleaving of calls: at most one pass runs; a call that returned without an error
was covered by a pass that started after its checks and succeeded; a waiter is sent at most one
result, and exactly one once no call can move; an idle coordinator has neither a pending range
nor a waiter; and calls cannot move forever. -/
theorem handleReorgRange_coalesces (window archivedThrough : Nat) (ms : List Move) (s : State)
    (hrun : run State.step (State.init window archivedThrough) ms = some s) :
    s.calls.countP (fun c => c.phase.isExecuting) ≤ 1 ∧
    (∀ c ∈ s.calls, c.phase = .returned none → ∃ p t, (p, none) ∈ s.completed ∧
      c.checkedAt = some t ∧ t < p.startedAt ∧ p.fromLedger ≤ c.fromLedger ∧ c.toLedger ≤ p.toLedger) ∧
    (∀ c ∈ s.calls, c.sent ≤ 1 ∧ (c.registered = false → c.sent = 0) ∧
      (s.Quiet → c.registered = true → c.sent = 1)) ∧
    (s.coord.running = false → s.coord.pending = false ∧ s.coord.waiters = []) ∧
    ms.countP (fun m => m.caller.isSome) ≤ 12 * ms.countP Move.isCall := by
  have hinv : Coherent s := run_keeps (fun _ _ _ h hstep => h.step hstep) (coherent_init _ _) hrun
  refine ⟨?_, ?_, ?_, hinv.idle, ?_⟩
  · have hcount : s.calls.countP (fun c => c.phase.isExecuting) ≤ s.active := by
      apply countP_le_sum_map
      intro c hc
      cases hphase : c.phase <;> simp [hphase, Phase.isExecuting] at hc
      simp [Phase.weight, Phase.pass?]
    have hone := hinv.alone
    split at hone <;> omega
  · intro c hc hphase
    obtain ⟨i, hc⟩ := List.getElem?_of_mem hc
    obtain ⟨p, hp, hspan, t, ht, hlt⟩ := (hinv.good i c hc).of_phase hphase rfl
    exact ⟨p, t, hp, ht, hlt, hspan⟩
  · intro c hc
    obtain ⟨i, hc⟩ := List.getElem?_of_mem hc
    have hcons := hinv.conserved i
    rw [sentTo_self hc, isRegistered_self hc] at hcons
    refine ⟨?_, ?_, ?_⟩
    · split at hcons <;> omega
    · intro hreg
      rw [hreg, if_neg Bool.false_ne_true] at hcons
      omega
    · intro hquiet hreg
      rw [hreg, if_pos rfl, hinv.queued_eq_zero hquiet] at hcons
      omega
  · have hbound := run_potential State.movesLeft (fun m => m.caller.isSome) Move.isCall 12
      (fun _ _ _ h => movesLeft_step h) hrun
    have hzero : (State.init window archivedThrough).movesLeft = 0 := rfl
    omega

/-- One call starts a pass over `[1,2]`; another joins with `[3,4]` and is served by the next pass. -/
def twoCalls : List Move :=
  [.call 1 2 0, .boundary 0 none, .depth 0 0 0, .enter 0, .call 3 4 0, .boundary 1 none, .depth 1 0 0,
    .enter 1, .endPass 0 none, .settle 0, .endPass 0 none, .settle 0, .send 0, .send 0, .receive 1]

theorem handleReorgRange_coalesces_two_calls :
    ∃ s, run State.step (State.init 4 0) twoCalls = some s ∧
      s.calls.map Call.phase = [.returned none, .returned none] ∧
      (∀ c ∈ s.calls, c.phase = .returned none → ∃ p t, (p, none) ∈ s.completed ∧
        c.checkedAt = some t ∧ t < p.startedAt ∧ p.fromLedger ≤ c.fromLedger ∧
          c.toLedger ≤ p.toLedger) :=
  ⟨_, rfl, rfl, (handleReorgRange_coalesces 4 0 twoCalls _ rfl).2.1⟩

end SoroTrail.Ingest.Coalesce
