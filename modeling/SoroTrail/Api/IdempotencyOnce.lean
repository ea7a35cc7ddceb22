import SoroTrail.Api.Idempotency

/-!
# One execution for each idempotency key

The requests that have claimed a key hold a lease of it.  As long as they act before
their reservation expires, and no claim is made with a time older than that of an
earlier one, a response is replayed only to requests like the one that produced it,
and in no retention window do two executions end with less than 500.
-/

set_option autoImplicit false

namespace SoroTrail.Api.Idempotency

open Lib List Lease
open Function (update update_self update_of_ne update_eq_self)

/-! ## Leases -/

def Request.hold (ttl : Int) (q : Request) : Option (Hold SlotKey Fingerprint) :=
  match q.phase with
  | .running now _ => some ⟨q.key, q.fingerprint, now + ttl, .working⟩
  | .completing now _ _ => some ⟨q.key, q.fingerprint, now + ttl, .finishing⟩
  | .releasing now _ _ => some ⟨q.key, q.fingerprint, now + ttl, .aborting⟩
  | _ => none

def IdempotencyRecord.lease (r : IdempotencyRecord) : Row Fingerprint Response :=
  ⟨r.fingerprint, r.expiresAt, r.response⟩

def State.leases (ttl : Int) (s : State) : Lease.State SlotKey Fingerprint Response where
  clock := s.clock
  rows k := (s.rows k).map IdempotencyRecord.lease
  held i := (s.requests[i]?).bind (Request.hold ttl)
  windows := s.windows

/-- Whoever holds a lease acts before it ends. -/
def InTime (ttl : Int) (s : State) : Move → Prop
  | .go i _ => ∀ q ∈ s.requests[i]?, ∀ h ∈ q.hold ttl, s.clock < h.expiresAt
  | _ => True

def Request.claimTime (q : Request) : Option Int :=
  match q.phase with
  | .claiming now _ => some now
  | _ => none

/-- A claim that is won lasts as long as every earlier one of the key. -/
def InOrder (ttl : Int) (s : State) : Move → Prop
  | .go i .ok => ∀ q ∈ s.requests[i]?, ∀ now ∈ q.claimTime, purged s.rows q.key now q.key = none →
      ∀ w ∈ s.windows, w.key = q.key → w.expiresAt ≤ now + ttl
  | _ => True

instance (ttl : Int) (s : State) (m : Move) : Decidable (InTime ttl s m) := by
  cases m <;> (dsimp only [InTime]; infer_instance)

instance (ttl : Int) (s : State) (m : Move) : Decidable (InOrder ttl s m) := by
  unfold InOrder; split <;> infer_instance

variable {ttl : Int} {s s' : State} {i : Nat} {q : Request}

theorem held_of_get (hget : s.requests[i]? = some q) : (s.leases ttl).held i = q.hold ttl := by
  simp [State.leases, hget]

theorem held_of_hold {h : Hold SlotKey Fingerprint} (hget : s.requests[i]? = some q)
    (hh : q.hold ttl = some h := by simp [Request.hold, *]) : (s.leases ttl).held i = some h :=
  (held_of_get hget).trans hh

theorem leases_goto (hget : s.requests[i]? = some q) (q' : Request) (phase : Phase) :
    (s.goto i q' phase).leases ttl =
      { s.leases ttl with
        held := update (s.leases ttl).held i (Request.hold ttl { q' with phase := phase }) } := by
  have hlt := (List.getElem?_eq_some_iff.mp hget).1
  have hheld : ((s.goto i q' phase).leases ttl).held =
      update (s.leases ttl).held i (Request.hold ttl { q' with phase := phase }) := by
    funext j
    simp only [State.leases, State.goto, Function.update_apply]
    split
    · rename_i hj
      rw [hj, List.getElem?_set_self hlt]
      rfl
    · rename_i hj
      rw [List.getElem?_set_ne (Ne.symm hj)]
  exact congrArg (fun held => Lease.State.mk s.clock (s.leases ttl).rows held s.windows) hheld

theorem leases_goto_idle {q' : Request} {phase : Phase} (hget : s.requests[i]? = some q)
    (hsame : Request.hold ttl { q' with phase := phase } = q.hold ttl := by simp [Request.hold, *]) :
    (s.goto i q' phase).leases ttl = s.leases ttl := by
  rw [leases_goto hget, hsame, ← held_of_get hget, update_eq_self]

variable {now : Int} {rows : Rows} {l l' : Lease.State SlotKey Fingerprint Response} {r : Response}
  {x : InFlightSlot} {slot : Nat}

/-- Only rows that have expired are gone. -/
def Drops (old new : Rows) (now : Int) : Prop :=
  ∀ k, new k = old k ∨ (new k = none ∧ ∃ r, old k = some r ∧ r.expiresAt ≤ now)

theorem drop_leases (hnow : now ≤ s.clock) (hrows : Drops s.rows rows now) :
    Lease.Step (s.leases ttl) ({ s with rows := rows }.leases ttl) := by
  refine .drop _ fun k => ?_
  rcases hrows k with hsame | ⟨hnone, r, hr, hexpired⟩
  · exact .inl (by simp [State.leases, hsame])
  · exact .inr ⟨by simp [hnone], r.lease, by simp [State.leases, hr],
      Int.le_trans hexpired hnow⟩

theorem deleteExpired_rows (rows : Rows) (now : Int) (victims : List SlotKey) :
    Drops rows (deleteExpired rows now victims) now := by
  intro k
  simp only [deleteExpired]
  split
  · cases hrow : rows k with
    | none => exact .inl (by simp [getIdempotencyKey, hrow])
    | some r =>
      by_cases hlive : now < r.expiresAt
      · exact .inl (by simp [getIdempotencyKey, hrow, hlive])
      · exact .inr ⟨by simpa [getIdempotencyKey, hrow] using hlive, r, rfl, Int.not_lt.mp hlive⟩
  · exact .inl rfl

theorem purged_rows (rows : Rows) (key : SlotKey) (now : Int) :
    Drops rows (purged rows key now) now := by
  intro k
  cases hrow : rows key with
  | none => exact .inl (by simp [purged, hrow])
  | some r =>
    by_cases hexpired : r.expiresAt ≤ now
    · by_cases hk : k = key
      · subst hk
        exact .inr ⟨by simp [purged, hrow, hexpired], r, hrow, hexpired⟩
      · exact .inl (by simp [purged, hrow, hexpired, hk])
    · exact .inl (by simp [purged, hrow, hexpired])

theorem claim_cases (rows : Rows) (k : SlotKey) (candidate : IdempotencyRecord) (now : Int) :
    (purged rows k now k = none ∧
      claimIdempotencyKey rows k candidate now =
        (update (purged rows k now) k (some { candidate with response := none }), .started)) ∨
    ∃ row answer, purged rows k now k = some row ∧
      claimIdempotencyKey rows k candidate now = (purged rows k now, answer) ∧
      answer ≠ .started ∧
      ∀ r, answer = .replayed r → row.fingerprint = candidate.fingerprint ∧ row.response = some r := by
  simp only [claimIdempotencyKey]
  cases hrow : purged rows k now k with
  | none => exact .inl ⟨rfl, rfl⟩
  | some row =>
    refine .inr ⟨row, ?_⟩
    by_cases hfp : row.fingerprint = candidate.fingerprint
    · cases hresponse : row.response with
      | none => exact ⟨.inFlight, rfl, by simp [hfp, hresponse], by simp, by simp⟩
      | some r =>
        refine ⟨.replayed r, rfl, by simp [hfp, hresponse], by simp, fun r' hr' => ⟨hfp, ?_⟩⟩
        cases hr'
        rfl
    · exact ⟨.mismatch, rfl, by simp [hfp], by simp, by simp⟩

/-! ## Every step -/

def Leads (l l' : Lease.State SlotKey Fingerprint Response) : Prop :=
  ∃ m, Lease.Step l m ∧ Lease.Step m l'

theorem Leads.of_eq (h : l' = l) : Leads l l' := by
  subst h
  exact ⟨_, .idle, .idle⟩

theorem Leads.of_step (h : Lease.Step l l') : Leads l l' :=
  ⟨l, .idle, h⟩

theorem Leads.inv (h : Leads l l') (hl : Inv l) : Inv l' := by
  obtain ⟨_, hfirst, hsecond⟩ := h
  exact hsecond.inv (hfirst.inv hl)

theorem map_update (rows : Rows) (k : SlotKey) (row : Option IdempotencyRecord) :
    (fun k' => (update rows k row k').map IdempotencyRecord.lease) =
      update (fun k' => (rows k').map IdempotencyRecord.lease) k (row.map IdempotencyRecord.lease) := by
  funext k'
  by_cases hk : k' = k
  · subst hk
    simp
  · simp [hk]

section Leases

variable (hget : s.requests[i]? = some q)
include hget

theorem claim_leads (hphase : q.phase = .claiming now slot) (hnow : now ≤ s.clock)
    (horder : purged s.rows q.key now q.key = none →
      ∀ w ∈ s.windows, w.key = q.key → w.expiresAt ≤ now + ttl) :
    Leads (s.leases ttl) ((claim ttl s i q now slot).leases ttl) := by
  have hfree : q.hold ttl = none := by simp [Request.hold, hphase]
  have hdrop : Lease.Step (s.leases ttl) ({ s with rows := purged s.rows q.key now }.leases ttl) :=
    drop_leases hnow (purged_rows s.rows q.key now)
  rcases claim_cases s.rows q.key ⟨q.fingerprint, none, now, now + ttl⟩ now with
    ⟨hrow, hclaim⟩ | ⟨row, answer, hrow, hclaim, hlost, _⟩
  · refine ⟨_, hdrop, ?_⟩
    have hstep := Lease.Step.claim (s := { s with rows := purged s.rows q.key now }.leases ttl) i
      q.key q.fingerprint (now + ttl) ((held_of_get hget).trans hfree)
      (by simp [State.leases, hrow]) (horder hrow)
    simp only [claim, hclaim]
    rw [leases_goto (by exact hget)]
    simp only [State.leases, map_update] at hstep ⊢
    exact hstep
  · refine ⟨_, hdrop, ?_⟩
    have hsame : (claim ttl s i q now slot).leases ttl =
        { s with rows := purged s.rows q.key now }.leases ttl := by
      simp only [claim, hclaim]
      cases answer with
      | started => exact absurd rfl hlost
      | _ => exact leases_goto_idle hget (by simp [Request.hold, hphase])
    rw [hsame]
    exact .idle

theorem answered_leads (hphase : q.phase = .running now slot) (hlive : s.clock < now + ttl) :
    Leads (s.leases ttl) ((answered s i q now slot r).leases ttl) := by
  have hheld : (s.leases ttl).held i = some ⟨q.key, q.fingerprint, now + ttl, .working⟩ :=
    held_of_hold hget (by simp [Request.hold, hphase])
  refine .of_step ?_
  simp only [answered]
  split
  · rw [leases_goto (by exact hget)]
    exact .abort i _ hheld rfl
  · rw [leases_goto (by exact hget)]
    exact .finish i _ hheld rfl hlive

theorem poll_leases (hphase : q.phase = .polling now slot) :
    (poll s i q now slot).leases ttl = s.leases ttl := by
  have hidle : ∀ f o, ((s.setSlot slot f).goto i q (.closing slot o)).leases ttl = s.leases ttl :=
    fun f o => leases_goto_idle hget (by simp [Request.hold, hphase])
  simp only [poll]
  split
  · exact hidle ..
  · split
    · rfl
    · split <;> exact hidle ..

theorem complete_leads (hphase : q.phase = .completing now slot r) (hlive : s.clock < now + ttl) :
    Leads (s.leases ttl) (((State.setSlot { s with rows := completeIdempotencyKey s.rows q.key r } slot
      (InFlightSlot.record r)).goto i q (.closing slot (.executed r))).leases ttl) := by
  have hheld : (s.leases ttl).held i = some ⟨q.key, q.fingerprint, now + ttl, .finishing⟩ :=
    held_of_hold hget (by simp [Request.hold, hphase])
  refine .of_step ?_
  rw [leases_goto (by exact hget)]
  have hstep := Lease.Step.complete i _ r hheld hlive
  simp only [State.leases, State.setSlot, completeIdempotencyKey, map_update, Option.map_map] at hstep ⊢
  exact hstep

theorem release_leads {o : Outcome} (hphase : q.phase = .releasing now slot o)
    (hlive : s.clock < now + ttl) :
    Leads (s.leases ttl) ((State.goto { s with rows := deleteIdempotencyKey s.rows q.key } i q
      (.closing slot o)).leases ttl) := by
  have hheld : (s.leases ttl).held i = some ⟨q.key, q.fingerprint, now + ttl, .aborting⟩ :=
    held_of_hold hget (by simp [Request.hold, hphase])
  refine .of_step ?_
  rw [leases_goto (by exact hget)]
  have hstep := Lease.Step.release i _ hheld rfl hlive
  simp only [State.leases, deleteIdempotencyKey, map_update, Option.map_none] at hstep ⊢
  exact hstep

end Leases

/-! ## Where responses come from -/

theorem joined_cases (q : Request) (now : Int) (slot : InFlightSlot) :
    joined q now slot = .returned keyMismatch ∨ joined q now slot = .looking now ∨
      ∃ r, slot.fingerprint = q.fingerprint ∧ slot.completed = some r ∧
        joined q now slot = .returned (.replayed r) := by
  simp only [joined]
  split
  · exact .inl rfl
  · rename_i hfp
    split
    · rename_i r _ hcompleted
      exact .inr (.inr ⟨r, not_not.mp hfp, hcompleted, rfl⟩)
    · exact .inr (.inl rfl)

/-- A handler has answered so to a request with this key and this fingerprint. -/
def Produced (s : State) (k : SlotKey) (fp : Fingerprint) (r : Response) : Prop :=
  ∃ q ∈ s.requests, q.key = k ∧ q.fingerprint = fp ∧ r ∈ q.produced

def SlotsGrow (slots slots' : List InFlightSlot) : Prop :=
  ∀ (j : Nat) (x : InFlightSlot), slots[j]? = some x →
    ∃ x', slots'[j]? = some x' ∧ x'.key = x.key ∧ x'.fingerprint = x.fingerprint

theorem SlotsGrow.refl (slots : List InFlightSlot) : SlotsGrow slots slots :=
  fun _ x hx => ⟨x, hx, rfl, rfl⟩

def OwnSlot (slots : List InFlightSlot) (q : Request) (slot : Nat) : Prop :=
  ∃ x, slots[slot]? = some x ∧ x.key = q.key ∧ x.fingerprint = q.fingerprint

theorem OwnSlot.grows {slots slots' : List InFlightSlot} (h : OwnSlot slots q slot)
    (hgrow : SlotsGrow slots slots') : OwnSlot slots' q slot := by
  obtain ⟨x, hx, hkey, hfp⟩ := h
  obtain ⟨x', hx', hkey', hfp'⟩ := hgrow slot x hx
  exact ⟨x', hx', hkey'.trans hkey, hfp'.trans hfp⟩

def Phase.Needs (s : State) (q : Request) : Phase → Prop
  | .entered => True
  | .sweeping now | .looking now => now ≤ s.clock
  | .waiting now slot => now ≤ s.clock ∧ ∃ x, s.slots[slot]? = some x ∧ x.key = q.key
  | .claiming now slot | .polling now slot => now ≤ s.clock ∧ OwnSlot s.slots q slot
  | .running _ slot => OwnSlot s.slots q slot
  | .completing _ slot r => OwnSlot s.slots q slot ∧ r ∈ q.produced
  | .releasing _ slot o => OwnSlot s.slots q slot ∧ ∀ r, o ≠ .replayed r
  | .closing slot o =>
    OwnSlot s.slots q slot ∧ ∀ r, o = .replayed r → Produced s q.key q.fingerprint r
  | .returned o => ∀ r, o = .replayed r → Produced s q.key q.fingerprint r

/-- Whatever may be replayed was produced by a handler for its key and fingerprint. -/
structure Backed (s : State) : Prop where
  requests : ∀ q ∈ s.requests, q.phase.Needs s q
  inFlight : ∀ replica k slot, s.inFlight replica k = some slot →
    ∃ x, s.slots[slot]? = some x ∧ x.key = k
  rows : ∀ k row, s.rows k = some row → ∀ r, row.response = some r → Produced s k row.fingerprint r
  slots : ∀ x ∈ s.slots, ∀ r, x.completed = some r → Produced s x.key x.fingerprint r

structure Grows (s s' : State) : Prop where
  clock : s.clock ≤ s'.clock
  slots : SlotsGrow s.slots s'.slots
  produced : ∀ k fp r, Produced s k fp r → Produced s' k fp r

theorem Phase.Needs.grows {phase : Phase} (h : phase.Needs s q) (hgrows : Grows s s') :
    phase.Needs s' q := by
  cases phase with
  | entered => trivial
  | sweeping now | looking now => exact Int.le_trans h hgrows.clock
  | waiting now slot =>
    obtain ⟨hnow, x, hx, hkey⟩ := h
    obtain ⟨x', hx', hkey', -⟩ := hgrows.slots slot x hx
    exact ⟨Int.le_trans hnow hgrows.clock, x', hx', hkey'.trans hkey⟩
  | claiming now slot | polling now slot =>
    exact ⟨Int.le_trans h.1 hgrows.clock, h.2.grows hgrows.slots⟩
  | running now slot => exact OwnSlot.grows h hgrows.slots
  | completing now slot r | releasing now slot o => exact ⟨h.1.grows hgrows.slots, h.2⟩
  | closing slot o => exact ⟨h.1.grows hgrows.slots, fun r hr => hgrows.produced _ _ _ (h.2 r hr)⟩
  | returned o => exact fun r hr => hgrows.produced _ _ _ (h r hr)

structure SlotChange (f : InFlightSlot → InFlightSlot) : Prop where
  key : ∀ x, (f x).key = x.key
  fingerprint : ∀ x, (f x).fingerprint = x.fingerprint

theorem slotChange_fail : SlotChange InFlightSlot.fail := ⟨fun _ => rfl, fun _ => rfl⟩

theorem slotChange_record (r : Response) : SlotChange (InFlightSlot.record r) :=
  ⟨fun _ => rfl, fun _ => rfl⟩

theorem slotChange_close : SlotChange InFlightSlot.close := ⟨fun _ => rfl, fun _ => rfl⟩

theorem slotsGrow_modify {f : InFlightSlot → InFlightSlot} (hf : SlotChange f)
    (slots : List InFlightSlot) (slot : Nat) : SlotsGrow slots (slots.modify slot f) := by
  intro j x hx
  rw [List.getElem?_modify, hx]
  by_cases hj : slot = j
  · exact ⟨f x, by simp [hj], hf.key x, hf.fingerprint x⟩
  · exact ⟨x, by simp [hj], rfl, rfl⟩

theorem mem_modify_cases {f : InFlightSlot → InFlightSlot} {slots : List InFlightSlot}
    (hx : x ∈ slots.modify slot f) :
    x ∈ slots ∨ ∃ y, slots[slot]? = some y ∧ x = f y := by
  obtain ⟨j, hj⟩ := mem_iff_getElem?.mp hx
  rw [List.getElem?_modify] at hj
  by_cases hslot : slot = j
  · subst hslot
    simp only [if_true, Option.map_eq_map, Option.map_eq_some_iff] at hj
    obtain ⟨y, hy, rfl⟩ := hj
    exact .inr ⟨y, hy, rfl⟩
  · simp only [hslot, if_false, Option.map_eq_map, Option.map_id_fun', id_eq] at hj
    exact .inl (List.mem_of_getElem? hj)

section Change

-- `u` is the state in which the request is about to be moved on
variable {u : State} {phase : Phase} {f : InFlightSlot → InFlightSlot}

theorem produced_goto (hrequests : u.requests = s.requests) (hget : s.requests[i]? = some q)
    {q' : Request} (hkey : q'.key = q.key) (hfp : q'.fingerprint = q.fingerprint)
    (hsub : ∀ r ∈ q.produced, r ∈ q'.produced) {k : SlotKey} {fp : Fingerprint} {r : Response}
    (h : Produced s k fp r) : Produced (u.goto i q' phase) k fp r := by
  obtain ⟨p, hp, hpk, hpf, hpr⟩ := h
  obtain ⟨j, hj⟩ := mem_iff_getElem?.mp hp
  rw [State.goto, hrequests]
  have hlt := (List.getElem?_eq_some_iff.mp hget).1
  by_cases hij : i = j
  · subst hij
    rw [hget] at hj
    cases hj
    exact ⟨{ q' with phase := phase }, mem_iff_getElem?.mpr ⟨i, List.getElem?_set_self hlt⟩,
      hkey.trans hpk, hfp.trans hpf, hsub r hpr⟩
  · exact ⟨p, mem_iff_getElem?.mpr ⟨j, (List.getElem?_set_ne hij).trans hj⟩, hpk, hpf, hpr⟩

def RowsBacked (s : State) (rows : Rows) : Prop :=
  ∀ k row, rows k = some row → ∀ r, row.response = some r → Produced s k row.fingerprint r

theorem OwnSlot.modify {j : Nat} (h : OwnSlot s.slots q j) (hf : SlotChange f) :
    OwnSlot (s.slots.modify slot f) q j :=
  h.grows (slotsGrow_modify hf s.slots slot)

theorem recorded_produced {r p : Response}
    (hown : OwnSlot s.slots q slot) (hr : Produced s q.key q.fingerprint r)
    (hx : s.slots[slot]? = some x) (hp : (InFlightSlot.record r x).completed = some p) :
    Produced s x.key x.fingerprint p := by
  obtain ⟨y, hy, hkey, hfp⟩ := hown
  rw [hx] at hy
  cases hy
  cases hp
  exact hkey ▸ hfp ▸ hr

theorem produced_of_drop (hs : Backed s) (h : Drops s.rows rows now)
    (k : SlotKey) (row : IdempotencyRecord) (hrow : rows k = some row) (r : Response)
    (hr : row.response = some r) : Produced s k row.fingerprint r := by
  rcases h k with hsame | ⟨hnone, _⟩
  · exact hs.rows k row (hsame ▸ hrow) r hr
  · rw [hnone] at hrow
    cases hrow

theorem getIdempotencyKey_some {k : SlotKey} {row : IdempotencyRecord}
    (h : getIdempotencyKey rows k now = some row) : rows k = some row := by
  simp only [getIdempotencyKey, Option.filter_eq_some_iff] at h
  exact h.1

variable (hs : Backed s) (hget : s.requests[i]? = some q)
include hs hget

theorem Backed.goto {p : Request} (hsub : ∀ r ∈ q.produced, r ∈ p.produced)
    (hslots : SlotsGrow s.slots u.slots)
    (hinFlight : ∀ replica k slot, u.inFlight replica k = some slot →
      ∃ x, u.slots[slot]? = some x ∧ x.key = k)
    (hrows : RowsBacked s u.rows)
    (hcompleted : ∀ x ∈ u.slots, ∀ r, x.completed = some r → Produced s x.key x.fingerprint r)
    (hok : phase.Needs (u.goto i p phase) p)
    (hsame : u.clock = s.clock ∧ u.requests = s.requests := by exact ⟨rfl, rfl⟩)
    (hp : p.key = q.key ∧ p.fingerprint = q.fingerprint := by exact ⟨rfl, rfl⟩) :
    Backed (u.goto i p phase) := by
  have hproduced : ∀ k fp r, Produced s k fp r → Produced (u.goto i p phase) k fp r :=
    fun _ _ _ => produced_goto hsame.2 hget hp.1 hp.2 hsub
  refine ⟨?_, hinFlight, fun k row hrow r hr => hproduced _ _ _ (hrows k row hrow r hr),
    fun x hx r hr => hproduced _ _ _ (hcompleted x hx r hr)⟩
  have hclock : s.clock ≤ u.clock := Int.le_of_eq hsame.1.symm
  exact Steps.forall_mem_set
    (fun z hz => (hs.requests z (hsame.2 ▸ hz)).grows ⟨hclock, hslots, hproduced⟩) hok

theorem Backed.move (hf : SlotChange f) {p : Request}
    (hsub : ∀ r ∈ q.produced, r ∈ p.produced)
    (hcompleted : ∀ x r, s.slots[slot]? = some x → (f x).completed = some r →
      x.completed = some r ∨ Produced s x.key x.fingerprint r)
    (hinFlight : ∀ replica k j, u.inFlight replica k = some j → s.inFlight replica k = some j)
    (hrows : RowsBacked s u.rows) (hok : phase.Needs (u.goto i p phase) p)
    (hu : u.slots = s.slots.modify slot f := by rfl)
    (hsame : u.clock = s.clock ∧ u.requests = s.requests := by exact ⟨rfl, rfl⟩)
    (hp : p.key = q.key ∧ p.fingerprint = q.fingerprint := by exact ⟨rfl, rfl⟩) :
    Backed (u.goto i p phase) := by
  have hslots : SlotsGrow s.slots u.slots := hu ▸ slotsGrow_modify hf s.slots slot
  refine hs.goto hget hsub hslots ?_ hrows ?_ hok hsame hp
  · intro replica k j hj
    obtain ⟨x, hx, hkey⟩ := hs.inFlight replica k j (hinFlight replica k j hj)
    obtain ⟨x', hx', hkey', _⟩ := hslots j x hx
    exact ⟨x', hx', hkey'.trans hkey⟩
  · intro x hx r hr
    rw [hu] at hx
    rcases mem_modify_cases hx with hold | ⟨y, hy, rfl⟩
    · exact hs.slots x hold r hr
    · rw [hf.key, hf.fingerprint]
      rcases hcompleted y r hy hr with hsame | hnew
      · exact hs.slots y (List.mem_of_getElem? hy) r hsame
      · exact hnew

theorem Backed.stay {lastSweepAt : Nat → Option Int} {windows : List (Window SlotKey)}
    (hrows : RowsBacked s rows)
    (hok : phase.Needs (State.goto { s with rows, lastSweepAt, windows } i q phase) q) :
    Backed (State.goto { s with rows, lastSweepAt, windows } i q phase) :=
  hs.goto hget (fun _ h => h) (.refl _) hs.inFlight hrows hs.slots hok

theorem Backed.close (hown : OwnSlot s.slots q slot) (hrows : RowsBacked s rows) {r : Response}
    (hr : Produced s q.key q.fingerprint r) :
    Backed ((State.setSlot { s with rows := rows } slot (InFlightSlot.record r)).goto i q
      (.closing slot (.replayed r))) := by
  refine hs.move hget (slotChange_record r) (fun _ h => h)
    (fun _ _ hx hp => .inr (recorded_produced hown hr hx hp)) (fun _ _ _ h => h) hrows
    ⟨hown.modify (slotChange_record r), fun r' hr' => ?_⟩
  cases hr'
  exact produced_goto rfl hget rfl rfl (fun _ h => h) hr

theorem Backed.refuse (hown : OwnSlot s.slots q slot) (hrows : RowsBacked s rows) {o : Outcome}
    (ho : ∀ r, o ≠ .replayed r) :
    Backed ((State.setSlot { s with rows := rows } slot InFlightSlot.fail).goto i q
      (.closing slot o)) :=
  hs.move hget slotChange_fail (fun _ h => h) (fun _ _ _ h => .inl h) (fun _ _ _ h => h) hrows
    ⟨hown.modify slotChange_fail, fun r hr => absurd hr (ho r)⟩

theorem look_backed (hnow : now ≤ s.clock) : Backed (look s i q now) := by
  simp only [look]
  cases hslot : s.inFlight q.replica q.key with
  | some slot => exact hs.stay hget hs.rows ⟨hnow, hs.inFlight _ _ _ hslot⟩
  | none =>
    have hkept : ∀ (j : Nat) (x : InFlightSlot), s.slots[j]? = some x →
        (s.slots ++ [⟨q.key, q.fingerprint, none, false, false⟩])[j]? = some x := by
      intro j x hx
      rw [List.getElem?_append_left (List.getElem?_eq_some_iff.mp hx).1, hx]
    have hnew : (s.slots ++ [InFlightSlot.mk q.key q.fingerprint none false false])[s.slots.length]? =
        some ⟨q.key, q.fingerprint, none, false, false⟩ := by simp
    refine hs.goto hget (fun _ h => h) (fun j x hx => ⟨x, hkept j x hx, rfl, rfl⟩) ?_ hs.rows ?_
      ⟨hnow, _, hnew, rfl, rfl⟩
    · intro replica k slot hentry
      simp only [Function.update_apply] at hentry
      split at hentry
      · simp only [Function.update_apply] at hentry
        split at hentry
        · rename_i hk
          cases hentry
          exact ⟨_, hnew, hk.symm⟩
        · obtain ⟨x, hx, hkey⟩ := hs.inFlight _ k slot hentry
          exact ⟨x, hkept slot x hx, hkey⟩
      · obtain ⟨x, hx, hkey⟩ := hs.inFlight replica k slot hentry
        exact ⟨x, hkept slot x hx, hkey⟩
    · intro x hx r hr
      rcases mem_append.mp hx with hx | hx
      · exact hs.slots x hx r hr
      · rw [mem_singleton.mp hx] at hr
        cases hr

theorem claim_backed (hnow : now ≤ s.clock) (hown : OwnSlot s.slots q slot) :
    Backed (claim ttl s i q now slot) := by
  have hrows := produced_of_drop hs (purged_rows s.rows q.key now)
  rcases claim_cases s.rows q.key ⟨q.fingerprint, none, now, now + ttl⟩ now with
    ⟨_, hclaim⟩ | ⟨row, answer, hrow, hclaim, hlost, hreplayed⟩
  · simp only [claim, hclaim]
    refine hs.stay hget ?_ hown
    intro k row hrow r hr
    simp only [Function.update_apply] at hrow
    split at hrow
    · cases hrow
      cases hr
    · exact hrows k row hrow r hr
  · simp only [claim, hclaim]
    cases answer with
    | started => exact absurd rfl hlost
    | replayed r =>
      obtain ⟨hfp, hresponse⟩ := hreplayed r rfl
      have hr := hrows q.key row hrow r hresponse
      rw [hfp] at hr
      exact hs.close hget hown hrows hr
    | mismatch => exact hs.refuse hget hown hrows (by simp [keyMismatch])
    | inFlight => exact hs.stay hget hrows ⟨hnow, hown⟩

theorem poll_backed (hown : OwnSlot s.slots q slot) : Backed (poll s i q now slot) := by
  simp only [poll]
  split
  · exact hs.refuse hget hown hs.rows (by simp [stillInProgress])
  · rename_i row hrow
    split
    · exact hs
    · rename_i r hresponse
      split
      · exact hs.refuse hget hown hs.rows (by simp [keyMismatch])
      · rename_i hfp
        have hr := hs.rows q.key row (getIdempotencyKey_some hrow) r hresponse
        rw [not_not.mp hfp] at hr
        exact hs.close hget hown hs.rows hr

theorem answered_backed (hown : OwnSlot s.slots q slot) : Backed (answered s i q now slot r) := by
  have hsub : ∀ p ∈ q.produced, p ∈ q.produced ++ [r] := fun _ h => mem_append_left _ h
  simp only [answered]
  split
  · exact hs.move hget slotChange_fail hsub (fun _ _ _ h => .inl h) (fun _ _ _ h => h) hs.rows
      ⟨hown.modify slotChange_fail, by simp⟩
  · exact hs.goto hget hsub (.refl _) hs.inFlight hs.rows hs.slots ⟨hown, by simp⟩

theorem complete_backed (hinv : Inv (s.leases ttl))
    (hphase : q.phase = .completing now slot r) (hown : OwnSlot s.slots q slot)
    (hr : Produced s q.key q.fingerprint r)
    (hlive : s.clock < now + ttl) :
    Backed ((State.setSlot { s with rows := completeIdempotencyKey s.rows q.key r } slot
      (InFlightSlot.record r)).goto i q (.closing slot (.executed r))) := by
  have hheld : (s.leases ttl).held i = some ⟨q.key, q.fingerprint, now + ttl, .finishing⟩ :=
    held_of_hold hget
  have howned := hinv.owned i _ hheld hlive
  simp only [State.leases, Option.map_eq_some_iff] at howned
  obtain ⟨row, hrow, hlease⟩ := howned
  have hfp : row.fingerprint = q.fingerprint := congrArg Row.tag hlease
  refine hs.move hget (slotChange_record r) (fun _ h => h)
    (fun _ _ hx hp => .inr (recorded_produced hown hr hx hp)) (fun _ _ _ h => h) ?_
    ⟨hown.modify (slotChange_record r), by simp⟩
  intro k row' hrow' p hp
  simp only [State.setSlot, completeIdempotencyKey, Function.update_apply] at hrow'
  split at hrow'
  · rename_i hk
    rw [hrow] at hrow'
    cases hrow'
    cases hp
    rw [hk]
    exact hfp ▸ hr
  · exact hs.rows k row' hrow' p hp

theorem close_backed {o : Outcome}
    (hreplayed : ∀ r, o = .replayed r → Produced s q.key q.fingerprint r) :
    Backed ((State.setSlot
      { s with inFlight := update s.inFlight q.replica (update (s.inFlight q.replica) q.key none) }
      slot InFlightSlot.close).goto i q (.returned o)) := by
  refine hs.move hget slotChange_close (fun _ h => h) (fun _ _ _ h => .inl h) ?_ hs.rows
    fun r hr => ?_
  · intro replica k j hj
    simp only [State.setSlot, Function.update_apply] at hj
    split at hj
    · rename_i hreplica
      simp only [Function.update_apply] at hj
      split at hj
      · cases hj
      · rw [hreplica]
        exact hj
    · exact hj
  · exact produced_goto rfl hget rfl rfl (fun _ h => h) (hreplayed r hr)

theorem joined_backed (hneeds : (Phase.waiting now slot).Needs s q) (hx : s.slots[slot]? = some x) :
    Backed (s.goto i q (joined q now x)) := by
  obtain ⟨hnow, y, hy, hkey⟩ := hneeds
  rcases joined_cases q now x with hnext | hnext | ⟨r, hfp, hcompleted, hnext⟩ <;> rw [hnext]
  · exact hs.stay hget hs.rows (by simp [Phase.Needs, keyMismatch])
  · exact hs.stay hget hs.rows hnow
  · refine hs.stay hget hs.rows fun r' hr' => ?_
    cases hr'
    rw [hx] at hy
    cases hy
    have hr := hs.slots x (List.mem_of_getElem? hx) r hcompleted
    rw [hkey, hfp] at hr
    exact produced_goto rfl hget rfl rfl (fun _ h => h) hr

theorem enter_backed : Backed (enter s i q) := by
  simp only [enter]
  split <;> exact hs.stay hget hs.rows (Int.le_refl s.clock)

/-- Every step of a request that acts in time is a step of the leases and keeps everything backed. -/
theorem advance_keeps {choice : Choice} (hinv : Inv (s.leases ttl)) (hphase : q.phase = phase)
    (hlive : ∀ h ∈ q.hold ttl, s.clock < h.expiresAt) (horder : InOrder ttl s (.go i choice))
    (h : advance ttl s i q phase choice = some s') :
    Leads (s.leases ttl) (s'.leases ttl) ∧ Backed s' := by
  have hneeds := hs.requests q (List.mem_of_getElem? hget)
  rw [hphase] at hneeds
  simp only [Request.hold, hphase] at hlive
  cases phase with
  | entered =>
    cases choice <;> cases h
    refine ⟨.of_eq ?_, enter_backed hs hget⟩
    simp only [enter]
    split <;> exact leases_goto_idle hget
  | sweeping now =>
    cases choice <;> cases h
    · exact ⟨.of_eq (leases_goto_idle hget), hs.stay hget hs.rows hneeds⟩
    · rename_i victims
      have hrows := deleteExpired_rows s.rows now victims
      refine ⟨⟨_, drop_leases hneeds hrows, ?_⟩, hs.stay hget (produced_of_drop hs hrows) hneeds⟩
      rw [leases_goto_idle (by exact hget)]
      exact .idle
  | looking now =>
    cases choice <;> cases h
    refine ⟨.of_eq ?_, look_backed hs hget hneeds⟩
    simp only [look]
    split <;> exact leases_goto_idle hget
  | waiting now slot =>
    cases choice <;> simp only [advance] at h <;> try cases h
    · split at h
      · split at h
        · cases h
          refine ⟨.of_eq (leases_goto_idle hget ?_), joined_backed hs hget hneeds ‹_›⟩
          rcases joined_cases q now ‹_› with hnext | hnext | ⟨r, _, _, hnext⟩ <;>
            simp [Request.hold, hphase, hnext]
        · cases h
      · cases h
    · exact ⟨.of_eq (leases_goto_idle hget), hs.stay hget hs.rows (by simp [Phase.Needs])⟩
  | claiming now slot =>
    cases choice <;> cases h
    · exact ⟨claim_leads hget hphase hneeds.1 (horder q hget now (by simp [Request.claimTime, hphase])),
        claim_backed hs hget hneeds.1 hneeds.2⟩
    · exact ⟨.of_eq (leases_goto_idle hget), hs.refuse hget hneeds.2 hs.rows (by simp)⟩
  | polling now slot =>
    cases choice <;> cases h
    · exact ⟨.of_eq (poll_leases hget hphase), poll_backed hs hget hneeds.2⟩
    all_goals
      exact ⟨.of_eq (leases_goto_idle hget), hs.refuse hget hneeds.2 hs.rows (by simp [stillInProgress])⟩
  | running now slot =>
    cases choice <;> cases h
    · exact ⟨answered_leads hget hphase (hlive _ rfl), answered_backed hs hget hneeds⟩
    · refine ⟨.of_step ?_, hs.stay hget hs.rows ⟨hneeds, by simp⟩⟩
      rw [leases_goto hget]
      exact .abort i ⟨q.key, q.fingerprint, now + ttl, .working⟩ (held_of_hold hget) rfl
  | completing now slot r =>
    have hr : Produced s q.key q.fingerprint r :=
      ⟨q, List.mem_of_getElem? hget, rfl, rfl, hneeds.2⟩
    cases choice <;> cases h
    · exact ⟨complete_leads hget hphase (hlive _ rfl),
        complete_backed hs hget hinv hphase hneeds.1 hr (hlive _ rfl)⟩
    · refine ⟨.of_step ?_, hs.move hget (slotChange_record r) (fun _ h => h)
        (fun _ _ hx hp => .inr (recorded_produced hneeds.1 hr hx hp)) (fun _ _ _ h => h) hs.rows
        ⟨hneeds.1.modify (slotChange_record r), by simp⟩⟩
      rw [leases_goto (by exact hget)]
      exact .leave i
  | releasing now slot o =>
    cases choice <;> cases h
    · refine ⟨release_leads hget hphase (hlive _ rfl), hs.stay hget ?_ ⟨hneeds.1, fun r hr => ?_⟩⟩
      · intro k row hrow r hr
        simp only [deleteIdempotencyKey, Function.update_apply] at hrow
        split at hrow
        · cases hrow
        · exact hs.rows k row hrow r hr
      · exact absurd hr (hneeds.2 r)
    · refine ⟨.of_step ?_, hs.stay hget hs.rows ⟨hneeds.1, fun r hr => absurd hr (hneeds.2 r)⟩⟩
      rw [leases_goto hget]
      exact .leave i
  | closing slot o =>
    cases choice <;> cases h
    exact ⟨.of_eq (leases_goto_idle (by exact hget)), close_backed hs hget hneeds.2⟩
  | returned o => cases choice <;> cases h

end Change

/-! ## Whole runs -/

structure Sound (ttl : Int) (s : State) : Prop where
  leases : Inv (s.leases ttl)
  backed : Backed s

theorem sound_init (ttl : Int) : Sound ttl .init where
  leases :=
    { owned := nofun
      unique := nofun
      ordered := nofun
      once := nofun }
  backed :=
    { requests := nofun
      inFlight := nofun
      rows := nofun
      slots := nofun }

theorem leases_request (s : State) (replica : Nat) (key : SlotKey) (fingerprint : Fingerprint) :
    State.leases ttl { s with requests := s.requests ++ [⟨replica, key, fingerprint, .entered, []⟩] } =
      s.leases ttl := by
  have hheld : ∀ j : Nat, ((s.requests ++ [⟨replica, key, fingerprint, .entered, []⟩])[j]?).bind
      (Request.hold ttl) = (s.requests[j]?).bind (Request.hold ttl) := by
    intro j
    rw [List.getElem?_append]
    split
    · rfl
    · rename_i hlen
      rw [List.getElem?_eq_none (Nat.not_lt.mp hlen)]
      cases hnew : ([⟨replica, key, fingerprint, .entered, []⟩] : List Request)[j - s.requests.length]? with
      | none => rfl
      | some q =>
        obtain rfl := mem_singleton.mp (List.mem_of_getElem? hnew)
        rfl
  simp only [State.leases, hheld]

theorem request_backed (hs : Backed s) (replica : Nat) (key : SlotKey) (fingerprint : Fingerprint) :
    Backed { s with requests := s.requests ++ [⟨replica, key, fingerprint, .entered, []⟩] } := by
  have hgrows : Grows s { s with requests := s.requests ++ [⟨replica, key, fingerprint, .entered, []⟩] } :=
    ⟨Int.le_refl _, .refl _, fun _ _ _ ⟨q, hq, hrest⟩ => ⟨q, mem_append_left _ hq, hrest⟩⟩
  refine ⟨?_, hs.inFlight, fun k row hrow r hr => hgrows.produced _ _ _ (hs.rows k row hrow r hr),
    fun x hx r hr => hgrows.produced _ _ _ (hs.slots x hx r hr)⟩
  exact Steps.forall_mem_append (fun q hq => (hs.requests q hq).grows hgrows) trivial

theorem sweep_backed (hs : Backed s) (hrows : Drops s.rows rows now) :
    Backed { s with rows := rows } where
  requests q hq := (hs.requests q hq).grows ⟨Int.le_refl _, .refl _, fun _ _ _ h => h⟩
  inFlight := hs.inFlight
  rows k row hrow r hr := produced_of_drop hs hrows k row hrow r hr
  slots := hs.slots

theorem tick_backed (hs : Backed s) (seconds : Nat) :
    Backed { s with clock := s.clock + seconds } where
  requests q hq := (hs.requests q hq).grows
    ⟨Int.le_add_of_nonneg_right (Int.natCast_nonneg seconds), .refl _, fun _ _ _ h => h⟩
  inFlight := hs.inFlight
  rows := hs.rows
  slots := hs.slots

theorem step_sound {m : Move} (hturn : InTime ttl s m ∧ InOrder ttl s m) (hs : Sound ttl s)
    (h : step ttl s m = some s') : Sound ttl s' := by
  cases m with
  | request replica key fingerprint =>
    cases h
    exact ⟨leases_request s replica key fingerprint ▸ hs.leases,
      request_backed hs.backed replica key fingerprint⟩
  | go i choice =>
    simp only [step] at h
    split at h
    · cases h
    · rename_i q hget
      obtain ⟨hleads, hbacked⟩ :=
        advance_keeps hs.backed hget hs.leases rfl (hturn.1 q hget) hturn.2 h
      exact ⟨hleads.inv hs.leases, hbacked⟩
  | sweep victims =>
    cases h
    have hrows := deleteExpired_rows s.rows s.clock victims
    exact ⟨(drop_leases (Int.le_refl _) hrows).inv hs.leases, sweep_backed hs.backed hrows⟩
  | tick seconds =>
    cases h
    exact ⟨hs.leases.tick (Int.le_add_of_nonneg_right (Int.natCast_nonneg seconds)),
      tick_backed hs.backed seconds⟩

theorem Phase.Needs.answer (h : q.phase.Needs s q) (hr : q.answer = some (.replayed r)) :
    Produced s q.key q.fingerprint r := by
  cases hphase : q.phase <;> simp_all [Request.answer, Phase.Needs]

/-- While owners act before their reservation expires and claims are won in the order of their
times, a replayed response is one to the same request, and no window sees two executions end. -/
theorem idempotency_key_executes_once (ttl : Int) (ms : List Move) (s : State)
    (hturn : Steps.Along (step ttl) (fun s m => InTime ttl s m ∧ InOrder ttl s m) .init ms)
    (hrun : Steps.run (step ttl) .init ms = some s) :
    (∀ q ∈ s.requests, ∀ r, q.answer = some (.replayed r) →
      ∃ q' ∈ s.requests, q'.key = q.key ∧ q'.fingerprint = q.fingerprint ∧ r ∈ q'.produced) ∧
    ∀ w ∈ s.windows, w.finished ≤ 1 := by
  have hs : Sound ttl s :=
    hturn.invariant (fun _ _ _ hm hs => step_sound hm hs) (sound_init ttl) hrun
  exact ⟨fun q hq r hr => (hs.backed.requests q hq).answer hr,
    fun w hw => hs.leases.finished_le_one hw⟩

def demoSlot : SlotKey := ⟨"acme", "K"⟩

def demoPost (path : String) : Fingerprint := ⟨"digest", "POST", path⟩

def demoOK (body : String) : Response := ⟨200, "application/json", body⟩

def untilClaim (i : Nat) : List Move :=
  [.go i .ok, .go i (.sweep []), .go i .ok, .go i .ok]

def finishing (i : Nat) (body : String) : List Move :=
  [.go i (.respond (demoOK body)), .go i .ok, .go i .ok]

def replayInTime : List Move :=
  .request 0 demoSlot (demoPost "/contracts") :: untilClaim 0 ++ finishing 0 "A" ++
    .request 1 demoSlot (demoPost "/contracts") :: untilClaim 1

theorem idempotency_key_executes_once_inTime :
    ∃ s, Steps.run (step 100) .init replayInTime = some s ∧
      s.requests.map Request.answer =
        [some (.executed (demoOK "A")), some (.replayed (demoOK "A"))] ∧
      (∀ q ∈ s.requests, ∀ r, q.answer = some (.replayed r) →
        ∃ q' ∈ s.requests, q'.key = q.key ∧ q'.fingerprint = q.fingerprint ∧ r ∈ q'.produced) ∧
      ∀ w ∈ s.windows, w.finished ≤ 1 := by
  refine ⟨_, rfl, rfl, ?_⟩
  exact idempotency_key_executes_once 100 replayInTime _ (Steps.Along.of_check (by decide)) rfl

/-- A handler outlives its reservation, and another request has reserved the key in the
meantime: the late answer is written into the row of that request. -/
def overdue : List Move :=
  .request 0 demoSlot (demoPost "/contracts") :: untilClaim 0 ++ .tick 100 ::
    .request 1 demoSlot (demoPost "/subscriptions") :: untilClaim 1 ++ finishing 0 "A" ++
    .request 2 demoSlot (demoPost "/subscriptions") :: untilClaim 2 ++ finishing 1 "B"

/-- The third request is answered with the response to another path, and two executions have
ended in the window of the second reservation. -/
theorem overdue_response_replayed :
    ∃ s q, Steps.run (step 100) .init overdue = some s ∧
      s.requests[2]? = some q ∧ q.answer = some (.replayed (demoOK "A")) ∧
      (∀ q' ∈ s.requests, q'.fingerprint = q.fingerprint → demoOK "A" ∉ q'.produced) ∧
      s.requests.map Request.answer = [some (.executed (demoOK "A")),
        some (.executed (demoOK "B")), some (.replayed (demoOK "A"))] ∧
      s.windows = [⟨demoSlot, 100, 0⟩, ⟨demoSlot, 200, 2⟩] :=
  ⟨_, _, rfl, rfl, rfl, by decide, rfl, rfl⟩

end SoroTrail.Api.Idempotency
