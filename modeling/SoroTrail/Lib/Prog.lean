import Mathlib.Logic.Basic

/-!
# Programs as trees of requests

A program issues requests to its surroundings and continues with the answer.
Nothing here fixes what a request does: the same tree is run against several
surroundings, which is how one model of a component serves statements that
assume different things about the services it talks to.
-/

set_option autoImplicit false

namespace SoroTrail.Lib

/-- A program over the requests `Act`, each answered by a value of `Ans`. -/
inductive Prog (Act : Type) (Ans : Act → Type) (α : Type) where
  | ret (value : α) : Prog Act Ans α
  | act (request : Act) (next : Ans request → Prog Act Ans α) : Prog Act Ans α

namespace Prog

variable {Act : Type} {Ans : Act → Type} {α β γ : Type}

def bind (p : Prog Act Ans α) (f : α → Prog Act Ans β) : Prog Act Ans β :=
  match p with
  | .ret a => f a
  | .act o k => .act o (fun a => (k a).bind f)

instance : Monad (Prog Act Ans) where
  pure := .ret
  bind := Prog.bind

def request (o : Act) : Prog Act Ans (Ans o) :=
  .act o .ret

def when (c : Prop) [Decidable c] (p : Prog Act Ans Unit) : Prog Act Ans Unit :=
  if c then p else .ret ()

@[simp] theorem pure_eq (a : α) : (pure a : Prog Act Ans α) = .ret a := rfl

@[simp] theorem ret_bind (a : α) (f : α → Prog Act Ans β) : (ret a >>= f) = f a := rfl

@[simp] theorem act_bind (o : Act) (k : Ans o → Prog Act Ans α) (f : α → Prog Act Ans β) :
    (act o k >>= f) = act o (fun a => k a >>= f) := rfl

@[simp] theorem request_bind (o : Act) (f : Ans o → Prog Act Ans β) :
    (request o >>= f) = act o f := rfl

theorem bind_assoc (p : Prog Act Ans α) (f : α → Prog Act Ans β) (g : β → Prog Act Ans γ) :
    (p >>= f >>= g) = (p >>= fun a => f a >>= g) := by
  induction p with
  | ret a => rfl
  | act o k ih =>
    simp only [act_bind]
    congr 1
    funext a
    exact ih a

end Prog

/-- A program that ends in an error or in a value, sequenced so that the first
error ends it. -/
def Fallible (Act : Type) (Ans : Act → Type) (ε α : Type) : Type :=
  Prog Act Ans (Except ε α)

namespace Fallible

variable {Act : Type} {Ans : Act → Type} {ε α β : Type}

def andThen (f : α → Fallible Act Ans ε β) : Except ε α → Prog Act Ans (Except ε β)
  | .error e => .ret (.error e)
  | .ok a => f a

instance : Monad (Fallible Act Ans ε) where
  pure a := (Prog.ret (.ok a) : Prog Act Ans (Except ε _))
  bind p f := Prog.bind p (andThen f)

def fail (e : ε) : Fallible Act Ans ε α :=
  (Prog.ret (.error e) : Prog Act Ans (Except ε α))

def lift (p : Prog Act Ans α) : Fallible Act Ans ε α :=
  (p >>= fun a => .ret (.ok a) : Prog Act Ans (Except ε α))

/-- Run a fallible program and look at how it ended instead of passing the error on. -/
def attempt (p : Fallible Act Ans ε α) : Fallible Act Ans ε (Except ε α) :=
  lift p

def ofExcept (r : Except ε α) : Fallible Act Ans ε α :=
  (Prog.ret r : Prog Act Ans (Except ε α))

instance : MonadLift (Prog Act Ans) (Fallible Act Ans ε) where
  monadLift := lift

theorem bind_eq (p : Fallible Act Ans ε α) (f : α → Fallible Act Ans ε β) :
    (p >>= f) = Prog.bind p (andThen f) := rfl

theorem pure_bind (a : α) (f : α → Fallible Act Ans ε β) :
    ((pure a : Fallible Act Ans ε α) >>= f) = f a := rfl

theorem fail_bind (e : ε) (f : α → Fallible Act Ans ε β) :
    ((fail e : Fallible Act Ans ε α) >>= f) = fail e := rfl

theorem lift_bind (p : Prog Act Ans α) (f : α → Fallible Act Ans ε β) :
    ((lift p : Fallible Act Ans ε α) >>= f) = Prog.bind p f := by
  have assoc := Prog.bind_assoc p (fun a => (.ret (.ok a) : Prog Act Ans (Except ε α))) (andThen f)
  exact assoc

theorem liftM_bind (p : Prog Act Ans α) (f : α → Fallible Act Ans ε β) :
    ((liftM p : Fallible Act Ans ε α) >>= f) = Prog.bind p f :=
  lift_bind p f

theorem attempt_bind (p : Fallible Act Ans ε α) (f : Except ε α → Fallible Act Ans ε β) :
    (attempt p >>= f) = Prog.bind p f :=
  lift_bind p f

end Fallible

namespace Prog

variable {Act : Type} {Ans : Act → Type} {α β : Type}

/-! ## Which requests a program can issue -/

/-- Every request the program can issue is in `A` and its result in `Q`, as long as the answers
are in `R`. -/
def Yields (A : Act → Prop) (R : (o : Act) → Ans o → Prop) (Q : α → Prop) :
    Prog Act Ans α → Prop
  | .ret a => Q a
  | .act o k => A o ∧ ∀ a, R o a → (k a).Yields A R Q

/-- Every request the program can issue is in `A`, as long as the answers are in `R`. -/
abbrev Uses (A : Act → Prop) (R : (o : Act) → Ans o → Prop) (p : Prog Act Ans α) : Prop :=
  p.Yields A R fun _ => True

section Yields

variable {A : Act → Prop} {R : (o : Act) → Ans o → Prop} {Q : α → Prop} {Q' : β → Prop}
  {p : Prog Act Ans α} {f : α → Prog Act Ans β}

theorem Yields.post {Q' : α → Prop} (h : p.Yields A R Q) (hQ : ∀ a, Q a → Q' a) :
    p.Yields A R Q' := by
  induction p with
  | ret a => exact hQ a h
  | act o k ih => exact ⟨h.1, fun a ha => ih a (h.2 a ha)⟩

theorem Yields.weaken {A' : Act → Prop} {R' : (o : Act) → Ans o → Prop} (h : p.Yields A R Q)
    (hA : ∀ o, A o → A' o) (hR : ∀ o a, R' o a → R o a) : p.Yields A' R' Q := by
  induction p with
  | ret a => exact h
  | act o k ih => exact ⟨hA o h.1, fun a ha => ih a (h.2 a (hR o a ha))⟩

theorem Yields.and {A' : Act → Prop} {Q' : α → Prop} (h : p.Yields A R Q) (h' : p.Yields A' R Q') :
    p.Yields (fun o => A o ∧ A' o) R fun a => Q a ∧ Q' a := by
  induction p with
  | ret a => exact ⟨h, h'⟩
  | act o k ih => exact ⟨⟨h.1, h'.1⟩, fun a ha => ih a (h.2 a ha) (h'.2 a ha)⟩

theorem uses_any (p : Prog Act Ans α) : p.Uses (fun _ => True) R := by
  induction p with
  | ret a => trivial
  | act o k ih => exact ⟨trivial, fun a _ => ih a⟩

theorem Yields.bind (hp : p.Yields A R Q) (hf : ∀ a, Q a → (f a).Yields A R Q') :
    (p.bind f).Yields A R Q' := by
  induction p with
  | ret a => exact hf a hp
  | act o k ih => exact ⟨hp.1, fun a ha => ih a (hp.2 a ha)⟩

theorem Uses.bind (hp : p.Uses A R) (hf : ∀ a, (f a).Yields A R Q') : (p.bind f).Yields A R Q' :=
  Yields.bind hp fun a _ => hf a

/-- Only the results a program can end with matter to what follows it. -/
theorem Yields.bind_congr {g : α → Prog Act Ans β} (hp : p.Yields A (fun _ _ => True) Q)
    (h : ∀ a, Q a → f a = g a) : p.bind f = p.bind g := by
  induction p with
  | ret a => exact h a hp
  | act o k ih =>
    simp only [Prog.bind, act.injEq, heq_eq_eq, true_and]
    funext a
    exact ih a (hp.2 a trivial)

theorem Uses.when {c : Prop} [Decidable c] {p : Prog Act Ans Unit} (h : c → p.Uses A R) :
    (Prog.when c p).Uses A R := by
  unfold Prog.when
  split
  · rename_i hc
    exact h hc
  · trivial

end Yields

/-! Fallible programs: `OnOk Q` asks nothing of an error. -/

def OnOk {ε : Type} (Q : α → Prop) : Except ε α → Prop
  | .ok a => Q a
  | .error _ => True

section Fallible

variable {ε : Type} {A : Act → Prop} {R : (o : Act) → Ans o → Prop} {Q : α → Prop}
  {Q' : β → Prop} {f : α → Fallible Act Ans ε β} {p : Fallible Act Ans ε α}

theorem Yields.andThen (hp : Yields A R (OnOk Q) p) (hf : ∀ a, Q a → Yields A R (OnOk Q') (f a)) :
    Yields A R (OnOk Q') (p >>= f : Fallible Act Ans ε β) := by
  refine Yields.bind hp ?_
  intro r hr
  cases r with
  | error e => trivial
  | ok a => exact hf a hr

theorem Uses.andThen (hp : Uses A R p) (hf : ∀ a, Uses A R (f a)) :
    Uses A R (p >>= f : Fallible Act Ans ε β) := by
  refine Uses.bind hp ?_
  intro r
  cases r with
  | error e => trivial
  | ok a => exact hf a

theorem Uses.lift {p : Prog Act Ans α} (h : p.Uses A R) :
    Uses A R (liftM p : Fallible Act Ans ε α) :=
  Uses.bind h fun _ => trivial

theorem Uses.attempt (h : Uses A R p) : Uses A R (Fallible.attempt p) :=
  Uses.bind h fun _ => trivial

theorem Yields.lift_bind {Q' : Except ε β → Prop} {p : Prog Act Ans α} (hp : p.Yields A R Q)
    (hf : ∀ a, Q a → Yields A R Q' (f a)) :
    Yields A R Q' ((liftM p : Fallible Act Ans ε α) >>= f : Fallible Act Ans ε β) := by
  rw [Fallible.liftM_bind]
  exact Yields.bind hp hf

theorem Yields.attempt_bind {Q : Except ε α → Prop} {Q' : Except ε β → Prop}
    {f : Except ε α → Fallible Act Ans ε β} (hp : Yields A R Q p)
    (hf : ∀ r, Q r → Yields A R Q' (f r)) :
    Yields A R Q' (Fallible.attempt p >>= f : Fallible Act Ans ε β) := by
  rw [Fallible.attempt_bind]
  exact Yields.bind hp hf

theorem Yields.attempt_bind_congr {Q : Except ε α → Prop}
    {f g : Except ε α → Fallible Act Ans ε β} (hp : Yields A (fun _ _ => True) Q p)
    (h : ∀ r, Q r → f r = g r) : (Fallible.attempt p >>= f) = (Fallible.attempt p >>= g) := by
  rw [Fallible.attempt_bind, Fallible.attempt_bind]
  exact Yields.bind_congr hp h

end Fallible

/-! ## Interleaving -/

/-- Run the threads of `ts` interleaved, one request at a time, with at most
`limit` of them started and unfinished; `choose n` asks the scheduler for one of
`n` threads.  The results come back in the order the threads ended, and `none`
says that `fuel` turns were not enough. -/
def interleave (limit : Nat) (choose : Nat → Prog Act Ans Nat) :
    Nat → List (Prog Act Ans β) → List β → Prog Act Ans (Option (List β))
  | _, [], done => .ret (some done)
  | 0, _ :: _, _ => .ret none
  | fuel + 1, t :: ts, done =>
    (choose (min limit (ts.length + 1))).bind fun i =>
      match (t :: ts)[i]? with
      | none => interleave limit choose fuel (t :: ts) done
      | some (.ret b) => interleave limit choose fuel ((t :: ts).eraseIdx i) (done ++ [b])
      | some (.act o k) =>
        .act o fun a => interleave limit choose fuel ((t :: ts).set i (k a)) done

theorem Uses.interleave {A : Act → Prop} {R : (o : Act) → Ans o → Prop} {limit : Nat}
    {choose : Nat → Prog Act Ans Nat} (hchoose : ∀ n, (choose n).Uses A R) (fuel : Nat)
    (ts : List (Prog Act Ans β)) (done : List β) (hts : ∀ t ∈ ts, t.Uses A R) :
    (interleave limit choose fuel ts done).Uses A R := by
  induction fuel generalizing ts done with
  | zero => cases ts <;> trivial
  | succ fuel ih =>
    cases ts with
    | nil => trivial
    | cons t ts =>
      refine Uses.bind (hchoose _) ?_
      intro i
      cases hget : (t :: ts)[i]? with
      | none => exact ih _ _ hts
      | some p =>
        have hp := hts p (List.mem_of_getElem? hget)
        cases p with
        | ret b => exact ih _ _ (fun q hq => hts q (List.mem_of_mem_eraseIdx hq))
        | act o k =>
          refine ⟨hp.1, fun a ha => ih _ _ ?_⟩
          intro q hq
          rcases List.mem_or_eq_of_mem_set hq with hq | rfl
          · exact hts q hq
          · exact hp.2 a ha

end Prog

end SoroTrail.Lib
