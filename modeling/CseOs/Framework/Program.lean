import Mathlib.Logic.Basic

/-!
# Imperative programs with exceptions

A program takes a state to a value or an exception together with the state it leaves behind,
or does not return at all. The weakest precondition below is for total correctness: it fails
where the program does not return.
-/

namespace CseOs.Framework

/-- A program over states `σ` with exceptions `ε`. The state is kept when it throws. -/
def Prog (σ ε α : Type) : Type := σ → Option (Except ε α × σ)

namespace Prog

variable {σ ε α β : Type}

protected def pure (a : α) : Prog σ ε α := fun s => some (.ok a, s)

protected def bind (x : Prog σ ε α) (f : α → Prog σ ε β) : Prog σ ε β := fun s =>
  match x s with
  | none => none
  | some (.error e, t) => some (.error e, t)
  | some (.ok a, t) => f a t

instance : Monad (Prog σ ε) where
  pure := Prog.pure
  bind := Prog.bind

def raise (e : ε) : Prog σ ε α := fun s => some (.error e, s)

/-- The program that does not return. -/
def diverge : Prog σ ε α := fun _ => none

def state : Prog σ ε σ := fun s => some (.ok s, s)

def update (f : σ → σ) : Prog σ ε Unit := fun s => some (.ok (), f s)

/-- The position of index `i` in a vector of `n` elements; outside the vector the behaviour
is undefined. -/
def index (i : Int) (n : Nat) : Prog σ ε Nat :=
  if 0 ≤ i ∧ i < n then Prog.pure i.toNat else diverge

/-- `assert(c);` -/
def check (c : Prop) [Decidable c] : Prog σ ε Unit := if c then pure () else diverge

/-- `if (c) throw e;` -/
def raiseIf (c : Prop) [Decidable c] (e : ε) : Prog σ ε Unit := if c then raise e else pure ()

/-- `if (c) x;` -/
def doIf (c : Prop) [Decidable c] (x : Prog σ ε Unit) : Prog σ ε Unit := if c then x else pure ()

/-- The counting loop `for (i = 0; i < n; i++) body i`. -/
def loop : Nat → (Nat → Prog σ ε Unit) → Prog σ ε Unit
  | 0, _ => pure ()
  | n + 1, body => do
    loop n body
    body n

/-- A program on a part of the state. -/
def zoom {τ : Type} (get : σ → τ) (set : τ → σ → σ) (x : Prog τ ε α) : Prog σ ε α := fun s =>
  (x (get s)).map fun r => (r.1, set r.2 s)

/-- Whether the program throws or not, `f` is done at its end. -/
def ensuring (x : Prog σ ε α) (f : σ → σ) : Prog σ ε α := fun s =>
  (x s).map fun r => (r.1, f r.2)

/-- When `x` throws, `f` is done before the exception goes on. -/
def onError (x : Prog σ ε α) (f : Prog σ ε Unit) : Prog σ ε α := fun s =>
  match x s with
  | some (.error e, t) => (f t).map fun r => (.error e, r.2)
  | r => r

/-- From `s` the program returns, with a value and a state in `Q` or an exception and a state
in `E`. -/
def wp (x : Prog σ ε α) (Q : α → σ → Prop) (E : ε → σ → Prop) (s : σ) : Prop :=
  match x s with
  | none => False
  | some (.ok a, t) => Q a t
  | some (.error e, t) => E e t

variable {Q Q' : α → σ → Prop} {E E' : ε → σ → Prop} {s : σ}

@[simp] theorem wp_pure (a : α) : wp (pure a : Prog σ ε α) Q E s ↔ Q a s := Iff.rfl

@[simp] theorem wp_raise (e : ε) : wp (raise e : Prog σ ε α) Q E s ↔ E e s := Iff.rfl

@[simp] theorem wp_diverge : wp (diverge : Prog σ ε α) Q E s ↔ False := Iff.rfl

@[simp] theorem wp_state {Q : σ → σ → Prop} : wp (state : Prog σ ε σ) Q E s ↔ Q s s := Iff.rfl

@[simp] theorem wp_update {Q : Unit → σ → Prop} (f : σ → σ) :
    wp (update f : Prog σ ε Unit) Q E s ↔ Q () (f s) := Iff.rfl

@[simp] theorem wp_zoom {τ : Type} (get : σ → τ) (set : τ → σ → σ) (x : Prog τ ε α) :
    wp (zoom get set x) Q E s ↔
      wp x (fun a t => Q a (set t s)) (fun e t => E e (set t s)) (get s) := by
  unfold wp zoom
  cases x (get s) with
  | none => rfl
  | some r =>
    obtain ⟨r, t⟩ := r
    cases r <;> rfl

@[simp] theorem wp_ensuring (x : Prog σ ε α) (f : σ → σ) :
    wp (ensuring x f) Q E s ↔ wp x (fun a t => Q a (f t)) (fun e t => E e (f t)) s := by
  unfold wp ensuring
  cases x s with
  | none => rfl
  | some r =>
    obtain ⟨r, t⟩ := r
    cases r <;> rfl

theorem wp_index {Q : Nat → σ → Prop} {i : Int} {n : Nat} (hi : 0 ≤ i) (hn : i < n) :
    wp (index i n : Prog σ ε Nat) Q E s ↔ Q i.toNat s := by
  rw [index, if_pos ⟨hi, hn⟩]
  rfl

theorem wp_index_natCast {Q : Nat → σ → Prop} {i n : Nat} (hn : i < n) :
    wp (index i n : Prog σ ε Nat) Q E s ↔ Q i s := by
  rw [wp_index (by omega) (by omega), Int.toNat_natCast]

@[simp] theorem wp_bind {Q : β → σ → Prop} (x : Prog σ ε α) (f : α → Prog σ ε β) :
    wp (x >>= f) Q E s ↔ wp x (fun a t => wp (f a) Q E t) E s := by
  show wp (Prog.bind x f) Q E s ↔ _
  unfold wp Prog.bind
  cases x s with
  | none => rfl
  | some r =>
    obtain ⟨r, t⟩ := r
    cases r <;> rfl

@[simp] theorem wp_ite (c : Prop) [Decidable c] (x y : Prog σ ε α) :
    wp (if c then x else y) Q E s ↔ if c then wp x Q E s else wp y Q E s := by
  split <;> rfl

@[simp] theorem wp_check {Q : Unit → σ → Prop} (c : Prop) [Decidable c] :
    wp (check c : Prog σ ε Unit) Q E s ↔ c ∧ Q () s := by
  rw [check, wp_ite]
  split
  case isTrue h => exact ⟨fun hq => ⟨h, hq⟩, And.right⟩
  case isFalse h => exact ⟨False.elim, fun hc => h hc.1⟩

@[simp] theorem wp_raiseIf {Q : Unit → σ → Prop} (c : Prop) [Decidable c] (e : ε) :
    wp (raiseIf c e : Prog σ ε Unit) Q E s ↔ if c then E e s else Q () s := by
  rw [raiseIf, wp_ite]
  rfl

@[simp] theorem wp_doIf {Q : Unit → σ → Prop} (c : Prop) [Decidable c] (x : Prog σ ε Unit) :
    wp (doIf c x) Q E s ↔ if c then wp x Q E s else Q () s := by
  rw [doIf, wp_ite]
  rfl

/-- The rule of consequence. -/
theorem wp_mono {x : Prog σ ε α} (h : wp x Q E s) (hQ : ∀ a t, Q a t → Q' a t)
    (hE : ∀ e t, E e t → E' e t) : wp x Q' E' s := by
  unfold wp at h ⊢
  cases hx : x s with
  | none => rw [hx] at h; exact h
  | some r =>
    rw [hx] at h
    obtain ⟨r, t⟩ := r
    cases r with
    | ok a => exact hQ a t h
    | error e => exact hE e t h

theorem wp_mono_post {x : Prog σ ε α} (h : wp x Q E s) (hQ : ∀ a t, Q a t → Q' a t) :
    wp x Q' E s :=
  wp_mono h hQ fun _ _ he => he

/-- The rule of a counting loop whose body never throws: `I i` holds after `i` rounds. -/
theorem wp_loop {Q : Unit → σ → Prop} {body : Nat → Prog σ ε Unit} (I : Nat → σ → Prop) {n : Nat}
    (h₀ : I 0 s) (hstep : ∀ i t, i < n → I i t → wp (body i) (fun _ => I (i + 1)) E t)
    (hQ : ∀ t, I n t → Q () t) : wp (loop n body) Q E s := by
  suffices ∀ k ≤ n, wp (loop k body) (fun _ => I k) E s from
    wp_mono_post (this n (Nat.le_refl n)) fun _ t => hQ t
  intro k
  induction k with
  | zero => intro _; exact h₀
  | succ k ih =>
    intro hk
    rw [loop, wp_bind]
    exact wp_mono_post (ih (by omega)) fun _ t ht => hstep k t hk ht

/-- The rule of a counting loop that throws in round `m` at the latest. -/
theorem wp_loop_raises {Q : Unit → σ → Prop} {body : Nat → Prog σ ε Unit} (I : Nat → σ → Prop)
    {m n : Nat} (hm : m < n) (h₀ : I 0 s)
    (hstep : ∀ i t, i < m → I i t → wp (body i) (fun _ => I (i + 1)) E t)
    (hlast : ∀ t, I m t → wp (body m) (fun _ _ => False) E t) : wp (loop n body) Q E s := by
  suffices ∀ k, wp (loop (m + 1 + k) body) (fun _ _ => False) E s by
    have hk := this (n - (m + 1))
    rw [Nat.add_sub_cancel' hm] at hk
    exact wp_mono_post hk fun _ _ hf => hf.elim
  intro k
  induction k with
  | zero =>
    show wp (loop (m + 1) body) _ E s
    rw [loop, wp_bind]
    exact wp_loop I h₀ hstep hlast
  | succ k ih =>
    show wp (loop (m + 1 + k + 1) body) _ E s
    rw [loop, wp_bind]
    exact wp_mono_post ih fun _ _ hf => hf.elim

/-- Whenever the program returns from `s`, it does so with a value and a state in `Q`. -/
def wlp (x : Prog σ ε α) (Q : α → σ → Prop) (s : σ) : Prop := ∀ a t, x s = some (.ok a, t) → Q a t

@[simp] theorem wlp_pure (a : α) : wlp (pure a : Prog σ ε α) Q s ↔ Q a s := by
  constructor
  · intro h
    exact h a s rfl
  · intro h b t hrun
    cases hrun
    exact h

@[simp] theorem wlp_raise (e : ε) : wlp (raise e : Prog σ ε α) Q s ↔ True :=
  iff_of_true nofun trivial

@[simp] theorem wlp_diverge : wlp (diverge : Prog σ ε α) Q s ↔ True := iff_of_true nofun trivial

@[simp] theorem wlp_state {Q : σ → σ → Prop} : wlp (state : Prog σ ε σ) Q s ↔ Q s s :=
  ⟨fun h => h s s rfl, fun h a t hrun => by cases hrun; exact h⟩

@[simp] theorem wlp_update {Q : Unit → σ → Prop} (f : σ → σ) :
    wlp (update f : Prog σ ε Unit) Q s ↔ Q () (f s) :=
  ⟨fun h => h () (f s) rfl, fun h a t hrun => by cases hrun; exact h⟩

@[simp] theorem wlp_bind {Q : β → σ → Prop} (x : Prog σ ε α) (f : α → Prog σ ε β) :
    wlp (x >>= f) Q s ↔ wlp x (fun a t => wlp (f a) Q t) s := by
  constructor
  · intro h a t hx b u hf
    apply h
    show Prog.bind x f s = _
    rw [Prog.bind, hx]
    exact hf
  · intro h b u hrun
    change Prog.bind x f s = _ at hrun
    rw [Prog.bind] at hrun
    cases hx : x s with
    | none =>
      rw [hx] at hrun
      cases hrun
    | some r =>
      obtain ⟨r, t⟩ := r
      cases r with
      | error e =>
        rw [hx] at hrun
        cases hrun
      | ok a =>
        rw [hx] at hrun
        exact h a t hx b u hrun

@[simp] theorem wlp_ite (c : Prop) [Decidable c] (x y : Prog σ ε α) :
    wlp (if c then x else y) Q s ↔ if c then wlp x Q s else wlp y Q s := by
  split <;> rfl

@[simp] theorem wlp_raiseIf {Q : Unit → σ → Prop} (c : Prop) [Decidable c] (e : ε) :
    wlp (raiseIf c e : Prog σ ε Unit) Q s ↔ (¬ c → Q () s) := by
  rw [raiseIf, wlp_ite]
  split
  case isTrue h => exact iff_of_true nofun fun hno => absurd h hno
  case isFalse h => exact ⟨fun hq _ => (wlp_pure ()).mp hq, fun hq => (wlp_pure ()).mpr (hq h)⟩

@[simp] theorem wlp_check {Q : Unit → σ → Prop} (c : Prop) [Decidable c] :
    wlp (check c : Prog σ ε Unit) Q s ↔ (c → Q () s) := by
  rw [check, wlp_ite]
  split
  case isTrue h => exact ⟨fun hq _ => (wlp_pure ()).mp hq, fun hq => (wlp_pure ()).mpr (hq h)⟩
  case isFalse h => exact iff_of_true nofun fun hc => absurd hc h

@[simp] theorem wlp_doIf {Q : Unit → σ → Prop} (c : Prop) [Decidable c] (x : Prog σ ε Unit) :
    wlp (doIf c x) Q s ↔ if c then wlp x Q s else Q () s := by
  rw [doIf, wlp_ite]
  split
  case isTrue => rfl
  case isFalse => exact wlp_pure ()

@[simp] theorem wlp_zoom {τ : Type} (get : σ → τ) (set : τ → σ → σ) (x : Prog τ ε α) :
    wlp (zoom get set x) Q s ↔ wlp x (fun a t => Q a (set t s)) (get s) := by
  unfold wlp zoom
  constructor
  · intro h a t hx
    exact h a _ (by rw [hx]; rfl)
  · intro h a t hrun
    cases hx : x (get s) with
    | none =>
      rw [hx] at hrun
      cases hrun
    | some r =>
      obtain ⟨r, u⟩ := r
      rw [hx] at hrun
      cases hrun
      exact h a u hx

@[simp] theorem wlp_ensuring (x : Prog σ ε α) (f : σ → σ) :
    wlp (ensuring x f) Q s ↔ wlp x (fun a t => Q a (f t)) s := by
  unfold wlp ensuring
  constructor
  · intro h a t hx
    exact h a _ (by rw [hx]; rfl)
  · intro h a t hrun
    cases hx : x s with
    | none =>
      rw [hx] at hrun
      cases hrun
    | some r =>
      obtain ⟨r, u⟩ := r
      rw [hx] at hrun
      cases hrun
      exact h a u hx

/-- What is done after an exception does not make it a success. -/
@[simp] theorem wlp_onError (x : Prog σ ε α) (f : Prog σ ε Unit) :
    wlp (onError x f) Q s ↔ wlp x Q s := by
  unfold wlp onError
  constructor
  · intro h a t hx
    exact h a t (by rw [hx])
  · intro h a t hrun
    cases hx : x s with
    | none =>
      rw [hx] at hrun
      cases hrun
    | some r =>
      obtain ⟨r, u⟩ := r
      rw [hx] at hrun
      cases r with
      | ok b => exact h a t (hx.trans hrun)
      | error e =>
        cases hf : f u with
        | none => simp [hf] at hrun
        | some r' => simp [hf] at hrun

theorem wlp_mono {x : Prog σ ε α} (h : wlp x Q s) (hQ : ∀ a t, Q a t → Q' a t) : wlp x Q' s :=
  fun a t hrun => hQ a t (h a t hrun)

/-- Total correctness implies partial correctness. -/
theorem wlp_of_wp {x : Prog σ ε α} (h : wp x Q E s) : wlp x Q s := by
  intro a t hrun
  unfold wp at h
  rwa [hrun] at h

/-- Two postconditions of one run hold together. -/
theorem wlp_and {x : Prog σ ε α} (h : wlp x Q s) (h' : wlp x Q' s) :
    wlp x (fun a t => Q a t ∧ Q' a t) s :=
  fun a t hrun => ⟨h a t hrun, h' a t hrun⟩

/-- What a precondition says of the outcome. -/
theorem wp_elim {x : Prog σ ε α} (h : wp x Q E s) :
    ∃ r t, x s = some (r, t) ∧
      match r with
      | .ok a => Q a t
      | .error e => E e t := by
  unfold wp at h
  cases hx : x s with
  | none => rw [hx] at h; exact h.elim
  | some r =>
    rw [hx] at h
    obtain ⟨r, t⟩ := r
    refine ⟨r, t, rfl, ?_⟩
    cases r <;> exact h

/-- Under `P` two postconditions agree, and so do their preconditions. -/
theorem wp_congr_post {P : α → σ → Prop} {R : ε → σ → Prop} {x : Prog σ ε α} (h : wp x P R s)
    (hQ : ∀ a t, P a t → (Q a t ↔ Q' a t)) : wp x Q E s ↔ wp x Q' E s := by
  unfold wp at h ⊢
  cases hx : x s with
  | none => rfl
  | some r =>
    rw [hx] at h
    obtain ⟨r, t⟩ := r
    cases r with
    | ok a => exact hQ a t h
    | error e => rfl

/-- Programs with the same preconditions run in the same way. -/
theorem run_congr {x y : Prog σ ε α} (h : ∀ Q E, wp x Q E s ↔ wp y Q E s) : x s = y s := by
  cases hx : x s with
  | none =>
    have hno := h (fun _ _ => True) fun _ _ => True
    unfold wp at hno
    rw [hx] at hno
    cases hy : y s with
    | none => rfl
    | some r =>
      rw [hy] at hno
      obtain ⟨r, t⟩ := r
      cases r <;> exact (hno.mpr trivial).elim
  | some r =>
    have hrun := h (fun a t => x s = some (.ok a, t)) fun e t => x s = some (.error e, t)
    unfold wp at hrun
    rw [hx] at hrun
    obtain ⟨r, t⟩ := r
    have hy : match y s with
        | none => False
        | some (.ok a, t') => some (r, t) = some (.ok a, t')
        | some (.error e, t') => some (r, t) = some (.error e, t') := by
      apply hrun.mp
      cases r <;> rfl
    cases hy' : y s with
    | none => simp [hy'] at hy
    | some r' =>
      obtain ⟨r', t'⟩ := r'
      rw [hy'] at hy
      cases r' <;> exact hy

/-- Two postconditions of one run hold together. -/
theorem wp_and {x : Prog σ ε α} (h : wp x Q E s) (h' : wp x Q' E' s) :
    wp x (fun a t => Q a t ∧ Q' a t) (fun e t => E e t ∧ E' e t) s := by
  unfold wp at h h' ⊢
  cases hx : x s with
  | none => rw [hx] at h; exact h
  | some r =>
    rw [hx] at h h'
    obtain ⟨r, t⟩ := r
    cases r with
    | ok a => exact ⟨h, h'⟩
    | error e => exact ⟨h, h'⟩

theorem wp_of_run_eq {x y : Prog σ ε α} (h : x s = y s) : wp x Q E s ↔ wp y Q E s := by
  unfold wp
  rw [h]

theorem wp_of_ok {x : Prog σ ε α} {a : α} {t : σ} (h : x s = some (.ok a, t)) :
    wp x Q E s ↔ Q a t := by
  unfold wp
  rw [h]

theorem wp_of_error {x : Prog σ ε α} {e : ε} {t : σ} (h : x s = some (.error e, t)) :
    wp x Q E s ↔ E e t := by
  unfold wp
  rw [h]

end Prog

end CseOs.Framework
