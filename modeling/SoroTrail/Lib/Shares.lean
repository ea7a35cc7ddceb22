import Mathlib.Algebra.BigOperators.Group.List.Basic
import Mathlib.Tactic.Abel
import SoroTrail.Lib.Service

/-!
# Threads that draw on a shared resource

Interleaved threads may each own a share of something they all draw on, such as
what is left of a budget.  `Owns I Q n g p w` says that `p`, which owns the share
`g`, ends within `n` requests and then meets `Q`; at each request it may give up
a part of its own share but never touches the rest, which other threads own.
Threads with such a bound end when they are interleaved, in every schedule.
-/

set_option autoImplicit false

namespace SoroTrail.Lib

open List Prog Fallible

/-! ## One turn of an interleaving -/

section Turn

variable {Act : Type} {Ans : Act → Type} {W β : Type} {h : (o : Act) → W → Ans o × W}
  {limit : Nat} {choose : Nat → Prog Act Ans Nat} {fuel : Nat}
  {before after : List (Prog Act Ans β)} {done : List β} {w w₁ : W}

theorem interleave_turn {ts : List (Prog Act Ans β)} (hne : ts ≠ []) :
    interleave limit choose (fuel + 1) ts done =
      (choose (min limit ts.length)).bind fun i => match ts[i]? with
        | none => interleave limit choose fuel ts done
        | some (.ret b) => interleave limit choose fuel (ts.eraseIdx i) (done ++ [b])
        | some (.act o k) => .act o fun a => interleave limit choose fuel (ts.set i (k a)) done := by
  cases ts with
  | nil => exact absurd rfl hne
  | cons t ts => rfl

theorem eval_interleave_pick {ts : List (Prog Act Ans β)} {i : Nat} (hne : ts ≠ [])
    (hpick : (choose (min limit ts.length)).eval h w = (i, w₁)) :
    (interleave limit choose (fuel + 1) ts done).eval h w =
      Prog.eval h (match ts[i]? with
        | none => interleave limit choose fuel ts done
        | some (.ret b) => interleave limit choose fuel (ts.eraseIdx i) (done ++ [b])
        | some (.act o k) => .act o fun a => interleave limit choose fuel (ts.set i (k a)) done)
        w₁ := by
  rw [interleave_turn hne, eval_bind, hpick]

theorem eval_interleave_ret {b : β}
    (hpick : (choose (min limit (before ++ .ret b :: after).length)).eval h w =
      (before.length, w₁)) :
    (interleave limit choose (fuel + 1) (before ++ .ret b :: after) done).eval h w =
      (interleave limit choose fuel (before ++ after) (done ++ [b])).eval h w₁ := by
  rw [eval_interleave_pick (by simp) hpick]
  simp [eraseIdx_append]

theorem eval_interleave_act {o : Act} {k : Ans o → Prog Act Ans β}
    (hpick : (choose (min limit (before ++ .act o k :: after).length)).eval h w =
      (before.length, w₁)) :
    (interleave limit choose (fuel + 1) (before ++ .act o k :: after) done).eval h w =
      (interleave limit choose fuel (before ++ k (h o w₁).1 :: after) done).eval h
        (h o w₁).2 := by
  rw [eval_interleave_pick (by simp) hpick]
  simp [Prog.eval]

end Turn

/-! ## Shares -/

namespace Sys

variable {Act : Type} {Ans : Act → Type} {W G α β : Type} [AddCommMonoid G]

/-- `p` ends within `n` requests and meets `Q`.  `I` ties the shares of all threads to the
state, and a drift is what the other threads may do between two requests. -/
def Owns (S : Sys Act Ans W) (I : G → W → Prop) (Q : α → G → W → Prop) (n : Nat) (g : G) :
    Prog Act Ans α → W → Prop
  | .ret a, w => ∀ w', S.Drifts w w' → Q a g w'
  | .act o k, w => 0 < n ∧ ∀ w', S.Drifts w w' → ∀ others a w'', I (g + others) w' →
      S.step o w' a w'' →
        S.drift w' w'' ∧ ∃ g', I (g' + others) w'' ∧ S.Owns I Q (n - 1) g' (k a) w''

variable {S : Sys Act Ans W} {I : G → W → Prop} {Q : α → G → W → Prop} {n m : Nat} {g : G}
  {p : Prog Act Ans α} {w : W}

section

variable (h : S.Owns I Q n g p w)
include h

theorem Owns.drifts {w' : W} (hd : S.Drifts w w') :
    S.Owns I Q n g p w' := by
  cases p with
  | ret a => exact fun v hv => h v (hd.trans hv)
  | act o k => exact ⟨h.1, fun v hv => h.2 v (hd.trans hv)⟩

theorem Owns.mono {Q' : α → G → W → Prop} (hn : n ≤ m)
    (hQ : ∀ a g w, Q a g w → Q' a g w) : S.Owns I Q' m g p w := by
  induction p generalizing n m g w with
  | ret a => exact fun v hv => hQ a g v (h v hv)
  | act o k ih =>
    refine ⟨h.1.trans_le hn, ?_⟩
    intro v hv others a u hI hu
    obtain ⟨hdrift, g', hI', hk⟩ := h.2 v hv others a u hI hu
    exact ⟨hdrift, g', hI', ih a hk (Nat.sub_le_sub_right hn 1)⟩

theorem Owns.more (hn : n ≤ m) : S.Owns I Q m g p w :=
  h.mono hn fun _ _ _ hq => hq

theorem Owns.post {Q' : α → G → W → Prop}
    (hQ : ∀ a g w, Q a g w → Q' a g w) : S.Owns I Q' n g p w :=
  h.mono (le_rfl) hQ

end

/-- Every step is one the other threads may rely on, so the end is reached by drifts. -/
theorem Owns.frame {v : W} (h : S.Owns I Q n g p v) (hv : S.Drifts w v) :
    S.Owns I (fun a g u => Q a g u ∧ S.Drifts w u) n g p v := by
  induction p generalizing n g v with
  | ret a => exact fun u hu => ⟨h u hu, hv.trans hu⟩
  | act o k ih =>
    refine ⟨h.1, ?_⟩
    intro u hu others a x hI hx
    obtain ⟨hdrift, g', hI', hk⟩ := h.2 u hu others a x hI hx
    exact ⟨hdrift, g', hI', ih a hk ((hv.trans hu).tail hdrift)⟩

theorem Owns.settled (h : S.Owns I Q n g p w) :
    S.Owns I (fun a g v => ∀ u, S.Drifts v u → Q a g u) n g p w := by
  induction p generalizing n g w with
  | ret a => exact fun v hv u hu => h u (hv.trans hu)
  | act o k ih =>
    refine ⟨h.1, ?_⟩
    intro v hv others a u hI hu
    obtain ⟨hdrift, g', hI', hk⟩ := h.2 v hv others a u hI hu
    exact ⟨hdrift, g', hI', ih a hk⟩

theorem Owns.act {P : W → Prop} {o : Act} {k : Ans o → Prog Act Ans α} (hP : S.Stable P)
    (hw : P w)
    (hstep : ∀ v others a u, P v → I (g + others) v → S.step o v a u →
      S.drift v u ∧ ∃ g', I (g' + others) u ∧ S.Owns I Q n g' (k a) u) :
    S.Owns I Q (n + 1) g (.act o k) w :=
  ⟨Nat.succ_pos n, fun v hv others a u hI hu => hstep v others a u (hP.drifts hv hw) hI hu⟩

theorem Owns.bind {Q' : β → G → W → Prop} {f : α → Prog Act Ans β}
    (hp : S.Owns I (fun a g v => S.Owns I Q' m g (f a) v) n g p w) :
    S.Owns I Q' (n + m) g (p.bind f) w := by
  induction p generalizing n g w with
  | ret a => exact (hp w .refl).more (Nat.le_add_left m n)
  | act o k ih =>
    obtain ⟨hn, hk⟩ := hp
    refine ⟨Nat.add_pos_left hn m, ?_⟩
    intro v hv others a u hI hu
    obtain ⟨hdrift, g', hI', hrest⟩ := hk v hv others a u hI hu
    exact ⟨hdrift, g', hI', (ih a hrest).more (by omega)⟩

/-! Fallible programs that do not fail. -/

section Fallible

variable {ε : Type} {Q' : Except ε β → G → W → Prop} {w : W}

theorem Owns.andThen {p : Fallible Act Ans ε α} {f : α → Fallible Act Ans ε β}
    (hp : S.Owns I (fun r g v => ∃ a, r = .ok a ∧ S.Owns I Q' m g (f a) v) n g p w) :
    S.Owns I Q' (n + m) g (p >>= f : Fallible Act Ans ε β) w := by
  refine Owns.bind (hp.post ?_)
  rintro _ g v ⟨a, rfl, hf⟩
  exact hf

theorem Owns.attempt_bind {p : Fallible Act Ans ε α} {f : Except ε α → Fallible Act Ans ε β}
    (hp : S.Owns I (fun r g v => S.Owns I Q' m g (f r) v) n g p w) :
    S.Owns I Q' (n + m) g (attempt p >>= f : Fallible Act Ans ε β) w := by
  rw [Fallible.attempt_bind]
  exact Owns.bind hp

theorem Owns.lift_bind {p : Prog Act Ans α} {f : α → Fallible Act Ans ε β}
    (hp : S.Owns I (fun a g v => S.Owns I Q' m g (f a) v) n g p w) :
    S.Owns I Q' (n + m) g ((liftM p : Fallible Act Ans ε α) >>= f : Fallible Act Ans ε β) w := by
  rw [liftM_bind]
  exact Owns.bind hp

end Fallible

/-! ## Interleaving -/

/-- A thread under its name, with the requests it may still make and the share it owns. -/
structure Thread (ι G : Type) (Act : Type) (Ans : Act → Type) (β : Type) where
  name : ι
  bound : Nat
  share : G
  prog : Prog Act Ans β

variable {ι W' : Type}

omit [AddCommMonoid G] in
/-- An element of a list, with those before and after it. -/
theorem exists_around {ts : List G} {i : Nat} (hi : i < ts.length) :
    ∃ before t after, ts = before ++ t :: after ∧ before.length = i :=
  ⟨ts.take i, ts.get ⟨i, hi⟩, ts.drop (i + 1), by simp, by simp; omega⟩

/-- Threads that each end within a bound on their own end when interleaved: a turn uses up one
request of one thread, or removes one that has ended.  The results carry the threads' names. -/
theorem Owns.interleave {h : (o : Act) → W' → Ans o × W'} {see : W' → W}
    (hanswer : ∀ o w, S.step o (see w) (h o w).1 (see (h o w).2))
    (Q : ι → β → G → W → Prop) {limit : Nat} (hlimit : 0 < limit)
    {choose : Nat → Prog Act Ans Nat}
    (hchoose : ∀ n w, 0 < n → ∃ i w', (choose n).eval h w = (i, w') ∧ i < n ∧ see w' = see w)
    (fuel : Nat) (ts : List (Thread ι G Act Ans β)) (done : List (ι × β)) (spare : G) (w : W')
    (hts : ∀ t ∈ ts, S.Owns I (Q t.name) t.bound t.share t.prog (see w))
    (hdone : ∀ d ∈ done, ∃ g, S.Owns I (Q d.1) 0 g (.ret d.2) (see w))
    (hinv : I ((ts.map Thread.share).sum + spare) (see w))
    (hfuel : (ts.map fun t => t.bound + 1).sum ≤ fuel) :
    ∃ (ends : List (ι × β)) (w' : W'), (Prog.interleave limit choose fuel (ts.map Thread.prog)
          (done.map Prod.snd)).eval h w = (some (ends.map Prod.snd), w') ∧
      (ends.map Prod.fst).Perm (done.map Prod.fst ++ ts.map Thread.name) ∧
      (∀ d ∈ ends, ∃ g, Q d.1 d.2 g (see w')) ∧ (∃ g, I g (see w')) ∧
      S.Drifts (see w) (see w') := by
  induction fuel generalizing ts done spare w with
  | zero =>
    obtain rfl : ts = [] := by
      cases ts with
      | nil => rfl
      | cons t ts => simp at hfuel
    exact ⟨done, w, rfl, by simp, fun d hd => (hdone d hd).imp fun g hQ => hQ _ .refl, ⟨_, hinv⟩, .refl⟩
  | succ fuel ih =>
    by_cases hnil : ts = []
    · subst hnil
      exact ⟨done, w, rfl, by simp, fun d hd => (hdone d hd).imp fun g hQ => hQ _ .refl, ⟨_, hinv⟩, .refl⟩
    have hlen : 0 < ts.length := length_pos_iff.mpr hnil
    obtain ⟨i, w₁, hpick, hi, hsee⟩ := hchoose (min limit ts.length) w (by omega)
    obtain ⟨before, t, after, rfl, rfl⟩ := exists_around (i := i) (show i < ts.length by omega)
    have hturn : (choose (min limit (before.map Thread.prog ++
        t.prog :: after.map Thread.prog).length)).eval h w =
          ((before.map Thread.prog).length, w₁) := by
      simpa using hpick
    rw [← hsee] at hts hdone hinv ⊢
    simp only [map_append, map_cons, sum_append, sum_cons, forall_mem_append,
      forall_mem_cons] at hts hinv hfuel ⊢
    obtain ⟨hbefore, ht, hafter⟩ := hts
    cases hprog : t.prog with
    | ret b =>
      rw [hprog] at ht hturn
      have hended : ∀ d ∈ done ++ [(t.name, b)], ∃ g, S.Owns I (Q d.1) 0 g (.ret d.2) (see w₁) :=
        forall_mem_append.mpr ⟨hdone, forall_mem_singleton.mpr ⟨t.share, ht⟩⟩
      have hinv' : I (((before ++ after).map Thread.share).sum + (t.share + spare)) (see w₁) := by
        convert hinv using 1
        simp only [map_append, sum_append]
        abel
      obtain ⟨ends, w', heval, hnames, hends, hI, hdrifts⟩ := ih (before ++ after) _ _ w₁
        (forall_mem_append.mpr ⟨hbefore, hafter⟩) hended hinv'
        (by simp only [map_append, sum_append]; omega)
      refine ⟨ends, w', ?_, ?_, hends, hI, hdrifts⟩
      · rw [eval_interleave_ret hturn, ← heval]
        simp
      · refine hnames.trans ?_
        simp only [map_append, append_assoc, map_cons, map_nil,
          singleton_append]
        exact perm_middle.symm.append_left _
    | act o k =>
      rw [hprog] at ht hturn
      obtain ⟨hbound, hrest⟩ := ht
      have hinv' : I (t.share + ((before.map Thread.share).sum + (after.map Thread.share).sum
          + spare)) (see w₁) := by
        convert hinv using 1
        abel
      obtain ⟨hdrift, g', hI', hk⟩ := hrest _ .refl _ _ _ hinv' (hanswer o w₁)
      have hmoved : S.Drifts (see w₁) (see (h o w₁).2) := .single hdrift
      obtain ⟨ends, w', heval, hnames, hends, hI, hdrifts⟩ :=
        ih (before ++ ⟨t.name, t.bound - 1, g', k (h o w₁).1⟩ :: after) done spare (h o w₁).2
          (forall_mem_append.mpr ⟨fun x hx => (hbefore x hx).drifts hmoved,
            forall_mem_cons.mpr ⟨hk, fun x hx => (hafter x hx).drifts hmoved⟩⟩)
          (fun d hd => (hdone d hd).imp fun g hQ => hQ.drifts hmoved)
          (by
            convert hI' using 1
            simp only [map_append, map_cons, sum_append, sum_cons]
            abel)
          (by simp only [map_append, map_cons, sum_append, sum_cons]; omega)
      refine ⟨ends, w', ?_, by simpa using hnames, hends, hI, hmoved.trans hdrifts⟩
      rw [eval_interleave_act hturn, ← heval]
      simp

/-! ## A limit on the threads under way -/

section Limit

/-- `p`, which owns `g`, keeps `I` at each request while the other threads own something in
`room`; it never owns more than `unit` allows, and it ends in `Q`. -/
def Draws (S : Sys Act Ans W) (I : G → W → Prop) (unit room : G → Prop) (Q : α → G → Prop) (g : G) :
    Prog Act Ans α → Prop
  | .ret a => Q a g
  | .act o k => ∀ others w a w', room others → I (g + others) w → S.step o w a w' →
      ∃ g', unit g' ∧ I (g' + others) w' ∧ S.Draws I unit room Q g' (k a)

variable {unit room : G → Prop} {Q : α → G → Prop} {p : Prog Act Ans α} {limit : Nat}

theorem Draws.post {Q' : α → G → Prop} (h : S.Draws I unit room Q g p)
    (hQ : ∀ a g, Q a g → Q' a g) : S.Draws I unit room Q' g p := by
  induction p generalizing g with
  | ret a => exact hQ a g h
  | act o k ih =>
    intro others w a w' hroom hI hstep
    obtain ⟨g', hunit, hI', hk⟩ := h others w a w' hroom hI hstep
    exact ⟨g', hunit, hI', ih a hk⟩

theorem Draws.bind {Q' : β → G → Prop} {f : α → Prog Act Ans β}
    (hp : S.Draws I unit room (fun a g => S.Draws I unit room Q' g (f a)) g p) :
    S.Draws I unit room Q' g (p.bind f) := by
  induction p generalizing g with
  | ret a => exact hp
  | act o k ih =>
    intro others w a w' hroom hI hstep
    obtain ⟨g', hunit, hI', hk⟩ := hp others w a w' hroom hI hstep
    exact ⟨g', hunit, hI', ih a hk⟩

theorem Draws.andThen {ε : Type} {Q' : Except ε β → G → Prop} {p : Fallible Act Ans ε α}
    {f : α → Fallible Act Ans ε β}
    (hp : S.Draws I unit room (fun r g => S.Draws I unit room Q' g (andThen f r)) g p) :
    S.Draws I unit room Q' g (p >>= f : Fallible Act Ans ε β) :=
  Draws.bind hp

theorem Draws.lift_bind {ε : Type} {Q' : Except ε β → G → Prop} {f : α → Fallible Act Ans ε β}
    (hp : S.Draws I unit room (fun a g => S.Draws I unit room Q' g (f a)) g p) :
    S.Draws I unit room Q' g ((liftM p : Fallible Act Ans ε α) >>= f : Fallible Act Ans ε β) := by
  rw [liftM_bind]
  exact Draws.bind hp

theorem Draws.of_uses {A : Act → Prop}
    (hkeep : ∀ o g w a w', A o → I g w → S.step o w a w' → I g w') (hunit : unit g)
    (hp : p.Uses A fun _ _ => True) : S.Draws I unit room (fun _ g' => g' = g) g p := by
  induction p with
  | ret a => rfl
  | act o k ih =>
    intro others w a w' _ hI hstep
    exact ⟨g, hunit, hkeep o _ w a w' hp.1 hI hstep, ih a (hp.2 a trivial)⟩

variable {before after : List G}

omit [AddCommMonoid G] in
theorem drop_under_way (g : G) (hbefore : before.length < limit) :
    (before ++ g :: after).drop limit = after.drop (limit - before.length - 1) := by
  obtain ⟨n, hn⟩ : ∃ n, limit - before.length = n + 1 := ⟨limit - before.length - 1, by omega⟩
  rw [drop_append, drop_eq_nil_of_le hbefore.le, hn]
  rfl

omit [AddCommMonoid G] in
theorem mem_drop_of_ended {g x : G} (hbefore : before.length < limit)
    (hx : x ∈ (before ++ after).drop limit) : x ∈ (before ++ g :: after).drop limit := by
  rw [drop_under_way g hbefore]
  rw [drop_append, drop_eq_nil_of_le hbefore.le, nil_append] at hx
  have hsplit : limit - before.length = limit - before.length - 1 + 1 := by omega
  rw [hsplit, ← drop_drop] at hx
  exact mem_of_mem_drop hx

/-- What the threads other than one under way own, when those not yet started own nothing. -/
theorem room_of_idle {size : Nat}
    (hroom : ∀ gs : List G, gs.length < limit → gs.length < size → (∀ g ∈ gs, unit g) → room gs.sum) {g : G} (hbefore : before.length < limit)
    (hsize : (before ++ g :: after).length ≤ size) (hunit : ∀ x ∈ before ++ g :: after, unit x)
    (hidle : ∀ x ∈ (before ++ g :: after).drop limit, x = 0) : room (before.sum + after.sum) := by
  have hafter : after.sum = (after.take (limit - before.length - 1)).sum := by
    rw [drop_under_way g hbefore] at hidle
    conv_lhs => rw [← take_append_drop (limit - before.length - 1) after]
    rw [sum_append, sum_eq_zero hidle, add_zero]
  rw [hafter, ← sum_append]
  simp only [length_append, length_cons] at hsize
  refine hroom _ ?_ ?_ ?_
  · simp only [length_append, length_take]
    omega
  · simp only [length_append, length_take]
    omega
  · intro x hx
    refine hunit x ?_
    rcases mem_append.mp hx with hx | hx
    · exact mem_append_left _ hx
    · exact mem_append_right _ (.tail _ (mem_of_mem_take hx))

/-- Threads that each keep `I` keep it when interleaved with at most `limit` of them under way:
a thread meets less than `limit` shares of others, one for each thread under way. -/
theorem Draws.interleave {J : Act → W → Prop} {size : Nat}
    (hroom : ∀ gs : List G, gs.length < limit → gs.length < size → (∀ g ∈ gs, unit g) → room gs.sum)
    (hstable : ∀ g, S.Stable (I g)) (hJ : ∀ o g w, I g w → J o w) (hlimit : 0 < limit)
    {choose : Nat → Prog Act Ans Nat}
    (hchoose : ∀ n g w, 0 < n → I g w → S.Safe J (fun i v => i < n ∧ I g v) (choose n) w)
    (fuel : Nat) (ts : List (G × Prog Act Ans β)) (done : List β) (w : W)
    (hsize : ts.length ≤ size) (hunit : ∀ g ∈ ts.map Prod.fst, unit g)
    (hidle : ∀ g ∈ (ts.map Prod.fst).drop limit, g = 0)
    (hts : ∀ t ∈ ts, S.Draws I unit room (fun _ g => g = 0) t.1 t.2)
    (hinv : I (ts.map Prod.fst).sum w) :
    S.Safe J (fun _ v => ∃ g, I g v)
      (Prog.interleave limit choose fuel (ts.map Prod.snd) done) w := by
  induction fuel generalizing ts done w with
  | zero => cases ts <;> exact fun v hv => ⟨_, (hstable _).drifts hv hinv⟩
  | succ fuel ih =>
    by_cases hnil : ts = []
    · subst hnil
      exact fun v hv => ⟨_, (hstable _).drifts hv hinv⟩
    have hlen : 0 < ts.length := length_pos_iff.mpr hnil
    rw [interleave_turn (by simpa using hnil), length_map]
    refine Safe.bind ((hchoose _ _ w (by omega) hinv).post ?_)
    rintro i v ⟨hi, hinv⟩
    obtain ⟨before, t, after, rfl, rfl⟩ := exists_around (i := i) (show i < ts.length by omega)
    have hbefore : (before.map Prod.fst).length < limit := by
      rw [length_map]
      omega
    simp only [map_append, map_cons, sum_append, sum_cons] at hunit hidle hinv ⊢
    have hget : (before.map Prod.snd ++ t.2 :: after.map Prod.snd)[before.length]? =
        some t.2 := by simp
    rw [hget]
    have hothers : room ((before.map Prod.fst).sum + (after.map Prod.fst).sum) :=
      room_of_idle hroom hbefore (by simpa using hsize) hunit hidle
    rw [forall_mem_append, forall_mem_cons] at hts hunit
    obtain ⟨hts₁, ht, hts₂⟩ := hts
    obtain ⟨hunit₁, -, hunit₂⟩ := hunit
    obtain ⟨g, p⟩ := t
    cases p with
    | ret b =>
      obtain rfl : g = 0 := ht
      have hrest := ih (before ++ after) (done ++ [b]) v (by simp at hsize ⊢; omega)
        (by rw [map_append]; exact forall_mem_append.mpr ⟨hunit₁, hunit₂⟩)
        (by
          rw [map_append]
          exact fun x hx => hidle x (mem_drop_of_ended hbefore hx))
        (forall_mem_append.mpr ⟨hts₁, hts₂⟩)
        (by
          rw [map_append, sum_append]
          rwa [zero_add] at hinv)
      simpa [eraseIdx_append] using hrest
    | act o k =>
      intro u hu
      have hinv := (hstable _).drifts hu hinv
      refine ⟨hJ o _ u hinv, ?_⟩
      intro a x hx
      have hinv' : I (g + ((before.map Prod.fst).sum + (after.map Prod.fst).sum)) u := by
        convert hinv using 1
        abel
      obtain ⟨g', hunit', hI', hk⟩ := ht _ u a x hothers hinv' hx
      have hrest := ih (before ++ (g', k a) :: after) done x (by simpa using hsize)
        (by
          rw [map_append]
          exact forall_mem_append.mpr ⟨hunit₁, forall_mem_cons.mpr ⟨hunit', hunit₂⟩⟩)
        (by
          simp only [map_append, map_cons]
          rw [drop_under_way _ hbefore]
          rwa [drop_under_way _ hbefore] at hidle)
        (forall_mem_append.mpr ⟨hts₁, forall_mem_cons.mpr ⟨hk, hts₂⟩⟩)
        (by
          simp only [map_append, map_cons, sum_append, sum_cons]
          convert hI' using 1
          abel)
      simpa using hrest

end Limit

end Sys

end SoroTrail.Lib
