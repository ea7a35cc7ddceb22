import Mathlib.Logic.Relation
import SoroTrail.Lib.Prog

/-!
# Safety of a program among interference

A system says what may answer a request and what may happen on its own between
two requests.  `Safe J Q p w` says that `p`, started in `w`, meets the obligation
`J` at every request it is about to issue and, when it ends, the postcondition
`Q`, whatever the system answers and however it drifts in between.
-/

set_option autoImplicit false

namespace SoroTrail.Lib

open Fallible Prog

section

/-- What may answer each request, and what may change between two requests. -/
structure Sys (Act : Type) (Ans : Act → Type) (W : Type) where
  step : (o : Act) → W → Ans o → W → Prop
  drift : W → W → Prop

namespace Sys

variable {Act : Type} {Ans : Act → Type} {W α β : Type}

def Drifts (S : Sys Act Ans W) : W → W → Prop :=
  Relation.ReflTransGen S.drift

def Stable (S : Sys Act Ans W) (I : W → Prop) : Prop :=
  ∀ w w', S.drift w w' → I w → I w'

variable {w : W} {p : Prog Act Ans α}

theorem Stable.drifts {S : Sys Act Ans W} {I : W → Prop} (hI : S.Stable I) {w' : W}
    (h : S.Drifts w w') (hw : I w) : I w' := by
  induction h with
  | refl => exact hw
  | tail _ hstep ih => exact hI _ _ hstep ih

/-- The obligation holds at every request and the postcondition at the end. -/
def Safe (S : Sys Act Ans W) (J : Act → W → Prop) (Q : α → W → Prop) :
    Prog Act Ans α → W → Prop
  | .ret a, w => ∀ w', S.Drifts w w' → Q a w'
  | .act o k, w => ∀ w', S.Drifts w w' →
      J o w' ∧ ∀ a w'', S.step o w' a w'' → S.Safe J Q (k a) w''

variable {S : Sys Act Ans W} {J : Act → W → Prop} {Q : α → W → Prop}

theorem Safe.drifts {w' : W} (h : S.Safe J Q p w) (hd : S.Drifts w w') : S.Safe J Q p w' := by
  cases p with
  | ret a => exact fun v hv => h v (hd.trans hv)
  | act o k => exact fun v hv => h v (hd.trans hv)

variable {Q' : α → W → Prop}

theorem Safe.mono {J' : Act → W → Prop} (h : S.Safe J Q p w)
    (hJ : ∀ o w, J o w → J' o w) (hQ : ∀ a w, Q a w → Q' a w) : S.Safe J' Q' p w := by
  induction p generalizing w with
  | ret a => exact fun v hv => hQ a v (h v hv)
  | act o k ih =>
    intro v hv
    obtain ⟨hj, hk⟩ := h v hv
    exact ⟨hJ o v hj, fun a u hu => ih a (hk a u hu)⟩

theorem Safe.post (h : S.Safe J Q p w) (hQ : ∀ a w, Q a w → Q' a w) :
    S.Safe J Q' p w :=
  h.mono (fun _ _ hj => hj) hQ

theorem Safe.ret {a : α} (hQ : S.Stable (Q a)) (h : Q a w) : S.Safe J Q (.ret a) w :=
  fun _ hv => hQ.drifts hv h

theorem Safe.bind {Q' : β → W → Prop} {f : α → Prog Act Ans β}
    (hp : S.Safe J (fun a v => S.Safe J Q' (f a) v) p w) : S.Safe J Q' (p.bind f) w := by
  induction p generalizing w with
  | ret a => exact hp w .refl
  | act o k ih =>
    intro v hv
    obtain ⟨hj, hk⟩ := hp v hv
    exact ⟨hj, fun a u hu => ih a (hk a u hu)⟩

variable {ε : Type}

/-- Sequencing fallible programs: an error of the first must meet the postcondition. -/
theorem Safe.andThen {Q' : Except ε β → W → Prop} {p : Fallible Act Ans ε α}
    {f : α → Fallible Act Ans ε β}
    (hp : S.Safe J (fun r v => S.Safe J Q' (andThen f r) v) p w) :
    S.Safe J Q' (p >>= f : Fallible Act Ans ε β) w :=
  Safe.bind hp

theorem Safe.andThen_ok {Q' : β → W → Prop} {p : Fallible Act Ans ε α}
    {f : α → Fallible Act Ans ε β} (hp : S.Safe J (fun r v => Prog.OnOk (fun a => Q a v) r) p w)
    (hf : ∀ a v, Q a v → S.Safe J (fun r v => Prog.OnOk (fun b => Q' b v) r) (f a) v) :
    S.Safe J (fun r v => Prog.OnOk (fun b => Q' b v) r) (p >>= f : Fallible Act Ans ε β) w := by
  refine Safe.andThen (hp.post ?_)
  intro r v hr
  cases r with
  | error e => exact fun _ _ => trivial
  | ok a => exact hf a v hr

theorem Safe.attempt_bind {Q' : Except ε β → W → Prop} {p : Fallible Act Ans ε α}
    {f : Except ε α → Fallible Act Ans ε β} (hp : S.Safe J (fun r v => S.Safe J Q' (f r) v) p w) :
    S.Safe J Q' (attempt p >>= f : Fallible Act Ans ε β) w := by
  rw [Fallible.attempt_bind]
  exact Safe.bind hp

theorem Safe.lift_bind {Q' : Except ε β → W → Prop} {f : α → Fallible Act Ans ε β}
    (hp : S.Safe J (fun a v => S.Safe J Q' (f a) v) p w) :
    S.Safe J Q' ((liftM p : Fallible Act Ans ε α) >>= f : Fallible Act Ans ε β) w := by
  rw [liftM_bind]
  exact Safe.bind hp

theorem Safe.act {P : W → Prop} {o : Act} {k : Ans o → Prog Act Ans α} (hP : S.Stable P)
    (hw : P w) (hJ : ∀ v, P v → J o v) (hk : ∀ v a u, P v → S.step o v a u → S.Safe J Q (k a) u) :
    S.Safe J Q (.act o k) w := by
  intro v hv
  have hPv : P v := hP.drifts hv hw
  exact ⟨hJ v hPv, fun a u hu => hk v a u hPv hu⟩

/-- A program all of whose requests keep a stable `I` and meet the obligation under it. -/
theorem Safe.of_yields {A : Act → Prop} {R : (o : Act) → Ans o → Prop} {I : W → Prop}
    {Q : α → Prop} (hI : S.Stable I)
    (hstep : ∀ o w a w', A o → I w → S.step o w a w' → R o a ∧ I w')
    (hJ : ∀ o w, A o → I w → J o w) (hp : p.Yields A R Q) (hw : I w) :
    S.Safe J (fun a v => Q a ∧ I v) p w := by
  induction p generalizing w with
  | ret a => exact fun v hv => ⟨hp, hI.drifts hv hw⟩
  | act o k ih =>
    refine Safe.act hI hw (fun v hv => hJ o v hp.1 hv) ?_
    intro v a u hv hu
    obtain ⟨ha, hIu⟩ := hstep o v a u hp.1 hv hu
    exact ih a (hp.2 a ha) hIu

theorem Safe.and {J' : Act → W → Prop} (h : S.Safe J Q p w)
    (h' : S.Safe J' Q' p w) :
    S.Safe (fun o v => J o v ∧ J' o v) (fun a v => Q a v ∧ Q' a v) p w := by
  induction p generalizing w with
  | ret a => exact fun v hv => ⟨h v hv, h' v hv⟩
  | act o k ih =>
    intro v hv
    obtain ⟨hj, hk⟩ := h v hv
    obtain ⟨hj', hk'⟩ := h' v hv
    exact ⟨⟨hj, hj'⟩, fun a u hu => ih a (hk a u hu) (hk' a u hu)⟩

/-! ## Simulation -/

theorem Drifts.simulate {W' : Type} {S' : Sys Act Ans W'} {T : W → W' → Prop}
    (hdrift : ∀ w w' v', T w w' → S'.drift w' v' → ∃ v, S.Drifts w v ∧ T v v') {w' u' : W'}
    (hT : T w w') (h : S'.Drifts w' u') : ∃ u, S.Drifts w u ∧ T u u' := by
  induction h with
  | refl => exact ⟨w, .refl, hT⟩
  | tail _ hlast ih =>
    obtain ⟨u, hu, hTu⟩ := ih
    obtain ⟨v, hv, hTv⟩ := hdrift _ _ _ hTu hlast
    exact ⟨v, hu.trans hv, hTv⟩

/-- What is safe in an abstract system is safe in a system whose steps and drifts it follows. -/
theorem Safe.simulate {W' : Type} {S' : Sys Act Ans W'} {T : W → W' → Prop}
    (hstep : ∀ o w w' a v', J o w → T w w' → S'.step o w' a v' → ∃ v, S.step o w a v ∧ T v v')
    (hdrift : ∀ w w' v', T w w' → S'.drift w' v' → ∃ v, S.Drifts w v ∧ T v v') {w' : W'}
    (h : S.Safe J Q p w) (hT : T w w') :
    S'.Safe (fun o v' => ∃ v, T v v' ∧ J o v) (fun a v' => ∃ v, T v v' ∧ Q a v) p w' := by
  induction p generalizing w w' with
  | ret a =>
    intro u' hu'
    obtain ⟨u, hu, hTu⟩ := Drifts.simulate hdrift hT hu'
    exact ⟨u, hTu, h u hu⟩
  | act o k ih =>
    intro u' hu'
    obtain ⟨u, hu, hTu⟩ := Drifts.simulate hdrift hT hu'
    obtain ⟨hj, hk⟩ := h u hu
    refine ⟨⟨u, hTu, hj⟩, fun a v' hv' => ?_⟩
    obtain ⟨v, hv, hTv⟩ := hstep o u u' a v' hj hTu hv'
    exact ih a (hk a v hv) hTv

end Sys

end

/-!
# Running programs

Three ways to run a program tree, all executable: against a handler that answers
every request in one way, against a machine whose answers depend on a choice, and
as a service that runs one program after another, sees its surroundings drift
and may crash at any point.  A safety proof speaks about every one of these runs.
-/

variable {Act : Type} {Ans : Act → Type} {W α : Type}

/-! ## Deterministic handlers -/

def Prog.eval (h : (o : Act) → W → Ans o × W) : Prog Act Ans α → W → α × W
  | .ret a, w => (a, w)
  | .act o k, w => (k (h o w).1).eval h (h o w).2

theorem eval_bind {β : Type} (h : (o : Act) → W → Ans o × W) (p : Prog Act Ans α)
    (f : α → Prog Act Ans β) (w : W) :
    (p.bind f).eval h w = (f (p.eval h w).1).eval h (p.eval h w).2 := by
  induction p generalizing w with
  | ret a => rfl
  | act o k ih => exact ih _ _

variable {ε β : Type}

theorem eval_attempt_bind (h : (o : Act) → W → Ans o × W)
    (p : Fallible Act Ans ε α) (f : Except ε α → Fallible Act Ans ε β) (w : W) :
    Prog.eval h (Fallible.attempt p >>= f : Fallible Act Ans ε β) w =
      Prog.eval h (f (Prog.eval h p w).1) (Prog.eval h p w).2 := by
  rw [attempt_bind]
  exact eval_bind h p f w

theorem eval_lift_bind (h : (o : Act) → W → Ans o × W) (p : Prog Act Ans α)
    (f : α → Fallible Act Ans ε β) (w : W) :
    Prog.eval h ((liftM p : Fallible Act Ans ε α) >>= f : Fallible Act Ans ε β) w =
      Prog.eval h (f (p.eval h w).1) (p.eval h w).2 := by
  rw [liftM_bind]
  exact eval_bind h p f w

variable {h : (o : Act) → W → Ans o × W}

theorem eval_andThen {p : Fallible Act Ans ε α} {w w' : W} {a : α}
    (hp : Prog.eval h p w = (.ok a, w')) (f : α → Fallible Act Ans ε β) :
    Prog.eval h (p >>= f : Fallible Act Ans ε β) w = Prog.eval h (f a) w' := by
  rw [bind_eq, eval_bind h p, hp]
  rfl

theorem eval_andThen_error {p : Fallible Act Ans ε α} {w w' : W} {e : ε}
    (hp : Prog.eval h p w = (.error e, w')) (f : α → Fallible Act Ans ε β) :
    Prog.eval h (p >>= f : Fallible Act Ans ε β) w = (.error e, w') := by
  rw [bind_eq, eval_bind h p, hp]
  rfl

variable {p : Prog Act Ans α}

/-- Two handlers that agree on the requests of a program run it alike. -/
theorem eval_agree {W' : Type} {h' : (o : Act) → W' → Ans o × W'} {see : W' → W}
    {A : Act → Prop}
    (hagree : ∀ o w, A o → (h' o w).1 = (h o (see w)).1 ∧ see (h' o w).2 = (h o (see w)).2) (hp : p.Uses A fun _ _ => True) (w : W') :
    (p.eval h' w).1 = (p.eval h (see w)).1 ∧ see (p.eval h' w).2 = (p.eval h (see w)).2 := by
  induction p generalizing w with
  | ret a => exact ⟨rfl, rfl⟩
  | act o k ih =>
    obtain ⟨hans, hsee⟩ := hagree o w hp.1
    have hrest := ih (h' o w).1 (hp.2 _ trivial) (h' o w).2
    rw [hsee, hans] at hrest
    rw [Prog.eval, hans]
    exact hrest

/-- What is safe holds at the end of every run in which a handler answers as the system may. -/
theorem Sys.Safe.eval_see {W' : Type} {S : Sys Act Ans W} {J : Act → W → Prop} {Q : α → W → Prop}
    {h : (o : Act) → W' → Ans o × W'} {see : W' → W}
    (hanswer : ∀ o w, S.step o (see w) (h o w).1 (see (h o w).2)) {w : W'}
    (hp : S.Safe J Q p (see w)) : Q (p.eval h w).1 (see (p.eval h w).2) := by
  induction p generalizing w with
  | ret a => exact hp _ .refl
  | act o k ih => exact ih _ ((hp _ .refl).2 _ _ (hanswer o w))

/-! ## Machines with choices -/

/-- How a request is answered under a choice (`none`: the choice is not open), and how the
surroundings change on their own. -/
structure Machine (Act : Type) (Ans : Act → Type) (W Choice Noise : Type) where
  exec : (o : Act) → W → Choice → Option (Ans o × W)
  drift : W → Noise → Option W

structure Guard (Act W Choice Noise : Type) where
  answer : (o : Act) → W → Choice → Prop
  noise : W → Noise → Prop

namespace Machine

variable {Choice Noise : Type}

def anything : Guard Act W Choice Noise where
  answer _ _ _ := True
  noise _ _ := True

/-- The system of the answers and drifts that meet a condition. -/
def sys (M : Machine Act Ans W Choice Noise) (G : Guard Act W Choice Noise) : Sys Act Ans W where
  step o w a w' := ∃ c, G.answer o w c ∧ M.exec o w c = some (a, w')
  drift w w' := ∃ n, G.noise w n ∧ M.drift w n = some w'

/-- Run a program to its end, one choice for each request and none left over. -/
def run (M : Machine Act Ans W Choice Noise) :
    Prog Act Ans α → W → List Choice → Option (α × W)
  | .ret a, w, [] => some (a, w)
  | .act o k, w, c :: cs =>
    match M.exec o w c with
    | some (a, w') => M.run (k a) w' cs
    | none => none
  | _, _, _ => none

theorem run_act (M : Machine Act Ans W Choice Noise) {o : Act} (k : Ans o → Prog Act Ans α)
    {w : W} {c : Choice} (cs : List Choice) :
    M.run (.act o k) w (c :: cs) = (M.exec o w c).bind fun r => M.run (k r.1) r.2 cs := by
  simp only [run]
  cases M.exec o w c <;> rfl

theorem run_post {M : Machine Act Ans W Choice Noise} {J : Act → W → Prop} {Q : α → W → Prop} {w w' : W} {a : α} {cs : List Choice}
    (hp : (M.sys anything).Safe J Q p w) (hrun : M.run p w cs = some (a, w')) : Q a w' := by
  induction p generalizing w cs with
  | ret b =>
    cases cs with
    | nil =>
      simp only [run, Option.some.injEq, Prod.mk.injEq] at hrun
      obtain ⟨rfl, rfl⟩ := hrun
      exact hp w .refl
    | cons c cs => simp [run] at hrun
  | act o k ih =>
    cases cs with
    | nil => simp [run] at hrun
    | cons c cs =>
      simp only [run] at hrun
      cases hexec : M.exec o w c with
      | none => simp [hexec] at hrun
      | some r =>
        obtain ⟨b, v⟩ := r
        rw [hexec] at hrun
        exact ih b ((hp w .refl).2 b v ⟨c, trivial, hexec⟩) hrun

end Machine

/-! ## Services -/

/-- A process that runs the programs of its commands on a machine; a crash drops the
program and leaves what `restart` keeps. -/
structure Service (Act : Type) (Ans : Act → Type) (W Choice Noise Cmd : Type) extends
    Machine Act Ans W Choice Noise where
  body : Cmd → Prog Act Ans Unit
  restart : W → W

structure Config (Act : Type) (Ans : Act → Type) (W : Type) where
  prog : Prog Act Ans Unit
  world : W

inductive Move (Choice Noise Cmd : Type) where
  | answer (c : Choice)
  | drift (n : Noise)
  | start (cmd : Cmd)
  | crash
  deriving DecidableEq, Repr

def Move.call {Choice Noise Cmd : Type} (cmd : Cmd) (cs : List Choice) :
    List (Move Choice Noise Cmd) :=
  .start cmd :: cs.map .answer

namespace Service

variable {Choice Noise Cmd : Type}

def move (V : Service Act Ans W Choice Noise Cmd) :
    Config Act Ans W → Move Choice Noise Cmd → Option (Config Act Ans W)
  | ⟨.act o k, w⟩, .answer c => (V.exec o w c).map fun r => ⟨k r.1, r.2⟩
  | ⟨.ret _, _⟩, .answer _ => none
  | ⟨p, w⟩, .drift n => (V.drift w n).map fun v => ⟨p, v⟩
  | ⟨.ret _, w⟩, .start cmd => some ⟨V.body cmd, w⟩
  | ⟨.act _ _, _⟩, .start _ => none
  | ⟨_, w⟩, .crash => some ⟨.ret (), V.restart w⟩

def run (V : Service Act Ans W Choice Noise Cmd) :
    Config Act Ans W → List (Move Choice Noise Cmd) → Option (Config Act Ans W)
  | cfg, [] => some cfg
  | cfg, m :: ms =>
    match V.move cfg m with
    | some next => V.run next ms
    | none => none

def idle (w : W) : Config Act Ans W := ⟨.ret (), w⟩

/-- `P` holds of every move of the run, in the configuration it is made from. -/
def Along (V : Service Act Ans W Choice Noise Cmd)
    (P : Config Act Ans W → Move Choice Noise Cmd → Prop) :
    Config Act Ans W → List (Move Choice Noise Cmd) → Prop
  | _, [] => True
  | cfg, m :: ms => P cfg m ∧ ∀ next, V.move cfg m = some next → V.Along P next ms

def check (V : Service Act Ans W Choice Noise Cmd)
    (P : Config Act Ans W → Move Choice Noise Cmd → Prop) [∀ cfg m, Decidable (P cfg m)] :
    Config Act Ans W → List (Move Choice Noise Cmd) → Bool
  | _, [] => true
  | cfg, m :: ms =>
    decide (P cfg m) &&
      match V.move cfg m with
      | some next => V.check P next ms
      | none => true

theorem Along.of_check {V : Service Act Ans W Choice Noise Cmd}
    {P : Config Act Ans W → Move Choice Noise Cmd → Prop} [∀ cfg m, Decidable (P cfg m)]
    {cfg : Config Act Ans W} {ms : List (Move Choice Noise Cmd)} (h : V.check P cfg ms = true) :
    V.Along P cfg ms := by
  induction ms generalizing cfg with
  | nil => trivial
  | cons m ms ih =>
    simp only [check, Bool.and_eq_true, decide_eq_true_eq] at h
    refine ⟨h.1, fun next hnext => ih ?_⟩
    have hrest := h.2
    rw [hnext] at hrest
    exact hrest

end Service

/-- The moves a condition allows: it restricts answers and drifts only. -/
def Guard.allows {Choice Noise Cmd : Type} (G : Guard Act W Choice Noise) :
    Config Act Ans W → Move Choice Noise Cmd → Prop
  | ⟨.act o _, w⟩, .answer c => G.answer o w c
  | ⟨_, w⟩, .drift n => G.noise w n
  | _, _ => True

instance {Choice Noise Cmd : Type} (G : Guard Act W Choice Noise)
    [∀ o w c, Decidable (G.answer o w c)] [∀ w n, Decidable (G.noise w n)]
    (cfg : Config Act Ans W) (m : Move Choice Noise Cmd) : Decidable (G.allows cfg m) :=
  match cfg, m with
  | ⟨.act o _, w⟩, .answer c => inferInstanceAs (Decidable (G.answer o w c))
  | ⟨.act _ _, w⟩, .drift n => inferInstanceAs (Decidable (G.noise w n))
  | ⟨.ret _, w⟩, .drift n => inferInstanceAs (Decidable (G.noise w n))
  | ⟨.ret _, _⟩, .answer _ => isTrue trivial
  | ⟨.act _ _, _⟩, .start _ => isTrue trivial
  | ⟨.ret _, _⟩, .start _ => isTrue trivial
  | ⟨.act _ _, _⟩, .crash => isTrue trivial
  | ⟨.ret _, _⟩, .crash => isTrue trivial

namespace Service

variable {Choice Noise Cmd : Type} {V : Service Act Ans W Choice Noise Cmd}
  {G : Guard Act W Choice Noise} {J : Act → W → Prop} {I : W → Prop}

theorem move_safe (hbody : ∀ cmd w, I w → (V.sys G).Safe J (fun _ v => I v) (V.body cmd) w)
    (hstable : (V.sys G).Stable I) (hcrash : ∀ o w, J o w → I (V.restart w))
    (hrestart : ∀ w, I w → I (V.restart w)) {cfg next : Config Act Ans W}
    {m : Move Choice Noise Cmd} (hsafe : (V.sys G).Safe J (fun _ v => I v) cfg.prog cfg.world)
    (hG : G.allows cfg m) (hmove : V.move cfg m = some next) :
    (V.sys G).Safe J (fun _ v => I v) next.prog next.world := by
  obtain ⟨p, w⟩ := cfg
  cases m with
  | answer c =>
    cases p with
    | ret a => simp [move] at hmove
    | act o k =>
      simp only [move, Option.map_eq_some_iff] at hmove
      obtain ⟨⟨a, v⟩, hexec, rfl⟩ := hmove
      exact (hsafe w .refl).2 a v ⟨c, hG, hexec⟩
  | drift n =>
    have hn : G.noise w n := by cases p <;> exact hG
    have hmap : (V.drift w n).map (fun v => (⟨p, v⟩ : Config Act Ans W)) = some next := by
      cases p <;> exact hmove
    obtain ⟨v, hv, rfl⟩ := Option.map_eq_some_iff.mp hmap
    exact hsafe.drifts (.single ⟨n, hn, hv⟩)
  | start cmd =>
    cases p with
    | act o k => simp [move] at hmove
    | ret a =>
      simp only [move, Option.some.injEq] at hmove
      subst hmove
      exact hbody cmd w (hsafe w .refl)
  | crash =>
    have hI : I (V.restart w) := by
      cases p with
      | ret a => exact hrestart w (hsafe w .refl)
      | act o k => exact hcrash o w (hsafe w .refl).1
    have hnext : next = ⟨.ret (), V.restart w⟩ := by
      cases p <;> exact (Option.some.inj hmove).symm
    subst hnext
    exact fun v hv => hstable.drifts hv hI

variable {ms : List (Move Choice Noise Cmd)}

/-- What one program of the service keeps, every run of the service keeps. -/
theorem run_safe (hbody : ∀ cmd w, I w → (V.sys G).Safe J (fun _ v => I v) (V.body cmd) w)
    (hstable : (V.sys G).Stable I) (hcrash : ∀ o w, J o w → I (V.restart w))
    (hrestart : ∀ w, I w → I (V.restart w)) {cfg final : Config Act Ans W}
    (hsafe : (V.sys G).Safe J (fun _ v => I v) cfg.prog cfg.world) (hG : V.Along G.allows cfg ms)
    (hrun : V.run cfg ms = some final) :
    (V.sys G).Safe J (fun _ v => I v) final.prog final.world := by
  induction ms generalizing cfg with
  | nil =>
    simp only [run, Option.some.injEq] at hrun
    exact hrun ▸ hsafe
  | cons m ms ih =>
    simp only [run] at hrun
    cases hmove : V.move cfg m with
    | none => simp [hmove] at hrun
    | some next =>
      rw [hmove] at hrun
      exact ih (move_safe hbody hstable hcrash hrestart hsafe hG.1 hmove)
        (hG.2 next hmove) hrun

/-- In every run from an idle service, the obligation holds at the next request. -/
theorem run_obligation (hbody : ∀ cmd w, I w → (V.sys G).Safe J (fun _ v => I v) (V.body cmd) w)
    (hstable : (V.sys G).Stable I) (hcrash : ∀ o w, J o w → I (V.restart w))
    (hrestart : ∀ w, I w → I (V.restart w)) {w : W} (hw : I w) {o : Act}
    {k : Ans o → Prog Act Ans Unit} {v : W} (hG : V.Along G.allows (idle w) ms)
    (hrun : V.run (idle w) ms = some ⟨.act o k, v⟩) : J o v := by
  have hidle : (V.sys G).Safe J (fun _ u => I u) (idle w : Config Act Ans W).prog w :=
    fun u hu => hstable.drifts hu hw
  have hsafe := run_safe hbody hstable hcrash hrestart hidle hG hrun
  exact (hsafe v .refl).1

theorem run_invariant
    (hbody : ∀ cmd w, I w → (V.sys G).Safe (fun _ v => I v) (fun _ v => I v) (V.body cmd) w)
    (hstable : (V.sys G).Stable I) (hrestart : ∀ w, I w → I (V.restart w)) {w : W} (hw : I w)
    {final : Config Act Ans W} (hG : V.Along G.allows (idle w) ms)
    (hrun : V.run (idle w) ms = some final) : I final.world := by
  have hidle : (V.sys G).Safe (fun _ v => I v) (fun _ v => I v)
      (idle w : Config Act Ans W).prog w :=
    fun u hu => hstable.drifts hu hw
  have hfinal := run_safe hbody hstable (fun _ => hrestart) hrestart hidle hG hrun
  obtain ⟨p, v⟩ := final
  cases p with
  | ret r => exact hfinal v .refl
  | act o k => exact (hfinal v .refl).1

end Service

end SoroTrail.Lib
