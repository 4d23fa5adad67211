import CseOs.Framework.Program

/-!
# What holds after any outcome

A program may return with an exception, or not at all. The precondition here asks for something of both
outcomes and for nothing of a program that does not return. Facts that hold of every outcome are proved with
it step by step, and then added to total correctness.
-/

namespace CseOs.Framework

namespace Prog

variable {σ ε α β : Type} {Q Q' : α → σ → Prop} {E E' : ε → σ → Prop} {s : σ}

/-- Whenever the program returns from `s`, it does so with a value and a state in `Q` or an exception
and a state in `E`. -/
def wlpe (x : Prog σ ε α) (Q : α → σ → Prop) (E : ε → σ → Prop) (s : σ) : Prop :=
  match x s with
  | none => True
  | some (.ok a, t) => Q a t
  | some (.error e, t) => E e t

@[simp] theorem wlpe_pure (a : α) : wlpe (pure a : Prog σ ε α) Q E s ↔ Q a s := Iff.rfl

@[simp] theorem wlpe_diverge : wlpe (diverge : Prog σ ε α) Q E s ↔ True := Iff.rfl

@[simp] theorem wlpe_state {Q : σ → σ → Prop} : wlpe (state : Prog σ ε σ) Q E s ↔ Q s s := Iff.rfl

@[simp] theorem wlpe_update {Q : Unit → σ → Prop} (f : σ → σ) :
    wlpe (update f : Prog σ ε Unit) Q E s ↔ Q () (f s) := Iff.rfl

@[simp] theorem wlpe_zoom {τ : Type} (get : σ → τ) (set : τ → σ → σ) (x : Prog τ ε α) :
    wlpe (zoom get set x) Q E s ↔
      wlpe x (fun a t => Q a (set t s)) (fun e t => E e (set t s)) (get s) := by
  unfold wlpe zoom
  cases x (get s) with
  | none => rfl
  | some r =>
    cases r with
    | mk r t => cases r <;> rfl

@[simp] theorem wlpe_ensuring (x : Prog σ ε α) (f : σ → σ) :
    wlpe (ensuring x f) Q E s ↔ wlpe x (fun a t => Q a (f t)) (fun e t => E e (f t)) s := by
  unfold wlpe ensuring
  cases x s with
  | none => rfl
  | some r =>
    cases r with
    | mk r t => cases r <;> rfl

@[simp] theorem wlpe_bind {Q : β → σ → Prop} (x : Prog σ ε α) (f : α → Prog σ ε β) :
    wlpe (x >>= f) Q E s ↔ wlpe x (fun a t => wlpe (f a) Q E t) E s := by
  show wlpe (Prog.bind x f) Q E s ↔ _
  unfold wlpe Prog.bind
  cases x s with
  | none => rfl
  | some r =>
    cases r with
    | mk r t => cases r <;> rfl

@[simp] theorem wlpe_ite (c : Prop) [Decidable c] (x y : Prog σ ε α) :
    wlpe (if c then x else y) Q E s ↔ if c then wlpe x Q E s else wlpe y Q E s := by
  split <;> rfl

@[simp] theorem wlpe_check {Q : Unit → σ → Prop} (c : Prop) [Decidable c] :
    wlpe (check c : Prog σ ε Unit) Q E s ↔ (c → Q () s) := by
  rw [check, wlpe_ite]
  split
  case isTrue h => exact ⟨fun hq _ => hq, fun hq => hq h⟩
  case isFalse h => exact iff_of_true trivial fun hc => absurd hc h

@[simp] theorem wlpe_raiseIf {Q : Unit → σ → Prop} (c : Prop) [Decidable c] (e : ε) :
    wlpe (raiseIf c e : Prog σ ε Unit) Q E s ↔ if c then E e s else Q () s := by
  rw [raiseIf, wlpe_ite]
  rfl

@[simp] theorem wlpe_doIf {Q : Unit → σ → Prop} (c : Prop) [Decidable c] (x : Prog σ ε Unit) :
    wlpe (doIf c x) Q E s ↔ if c then wlpe x Q E s else Q () s := by
  rw [doIf, wlpe_ite]
  rfl

/-- The rule of consequence. -/
theorem wlpe_mono {x : Prog σ ε α} (h : wlpe x Q E s) (hQ : ∀ a t, Q a t → Q' a t)
    (hE : ∀ e t, E e t → E' e t) : wlpe x Q' E' s := by
  unfold wlpe at h ⊢
  cases hx : x s with
  | none => trivial
  | some r =>
    rw [hx] at h
    cases r with
    | mk r t =>
      cases r with
      | ok a => exact hQ a t h
      | error e => exact hE e t h

theorem wlpe_mono_post {x : Prog σ ε α} (h : wlpe x Q E s) (hQ : ∀ a t, Q a t → Q' a t) :
    wlpe x Q' E s :=
  wlpe_mono h hQ fun _ _ he => he

/-- Total correctness implies this. -/
theorem wlpe_of_wp {x : Prog σ ε α} (h : wp x Q E s) : wlpe x Q E s := by
  unfold wp at h
  unfold wlpe
  cases hx : x s with
  | none => trivial
  | some r =>
    rw [hx] at h
    cases r with
    | mk r t => cases r <;> exact h

/-- What every outcome has may be added to what a program is sure to do. -/
theorem wp_and_wlpe {x : Prog σ ε α} (h : wp x Q E s) (h' : wlpe x Q' E' s) :
    wp x (fun a t => Q a t ∧ Q' a t) (fun e t => E e t ∧ E' e t) s := by
  unfold wp at h ⊢
  unfold wlpe at h'
  cases hx : x s with
  | none =>
    rw [hx] at h
    exact h
  | some r =>
    rw [hx] at h h'
    cases r with
    | mk r t => cases r <;> exact ⟨h, h'⟩

theorem wlpe_and {x : Prog σ ε α} (h : wlpe x Q E s) (h' : wlpe x Q' E' s) :
    wlpe x (fun a t => Q a t ∧ Q' a t) (fun e t => E e t ∧ E' e t) s := by
  unfold wlpe at h h' ⊢
  cases hx : x s with
  | none => trivial
  | some r =>
    rw [hx] at h h'
    cases r with
    | mk r t => cases r <;> exact ⟨h, h'⟩

theorem wlpe_of_run_eq {x y : Prog σ ε α} (h : x s = y s) : wlpe x Q E s ↔ wlpe y Q E s := by
  unfold wlpe
  rw [h]

/-- The success of a program, when only that was proved of it. -/
theorem wlpe_of_wlp {x : Prog σ ε α} (h : wlp x Q s) : wlpe x Q (fun _ _ => True) s := by
  unfold wlpe
  cases hx : x s with
  | none => trivial
  | some r =>
    cases r with
    | mk r t =>
      cases r with
      | ok a => exact h a t hx
      | error e => trivial

/-- What is done after an exception is done with success or without. -/
@[simp] theorem wp_onError (x : Prog σ ε α) (f : Prog σ ε Unit) :
    wp (onError x f) Q E s ↔
      wp x Q (fun e t => wp f (fun _ u => E e u) (fun _ u => E e u) t) s := by
  unfold wp onError
  cases x s with
  | none => rfl
  | some r =>
    cases r with
    | mk r t =>
      cases r with
      | ok a => rfl
      | error e =>
        cases hf : f t with
        | none => simp [hf]
        | some r' =>
          cases r' with
          | mk r' u => cases r' <;> simp [hf]

/-- An exception of `x` is dropped. -/
def ignoring (x : Prog σ ε Unit) : Prog σ ε Unit := fun s =>
  (x s).map fun r => (.ok (), r.2)

@[simp] theorem wp_ignoring {Q : Unit → σ → Prop} (x : Prog σ ε Unit) :
    wp (ignoring x) Q E s ↔ wp x Q (fun _ t => Q () t) s := by
  unfold wp ignoring
  cases x s with
  | none => rfl
  | some r =>
    cases r with
    | mk r t => cases r <;> rfl

/-- An exception of `x` is a panic. -/
def orDiverge (x : Prog σ ε α) : Prog σ ε α := fun s =>
  match x s with
  | some (.error _, _) => none
  | r => r

@[simp] theorem wp_orDiverge (x : Prog σ ε α) :
    wp (orDiverge x) Q E s ↔ wp x Q (fun _ _ => False) s := by
  unfold wp orDiverge
  cases x s with
  | none => rfl
  | some r =>
    cases r with
    | mk r t => cases r <;> rfl

/-- When `x` throws, `y` is done instead. -/
def orElse (x y : Prog σ ε α) : Prog σ ε α := fun s =>
  match x s with
  | some (.error _, t) => y t
  | r => r

@[simp] theorem wp_orElse (x y : Prog σ ε α) :
    wp (orElse x y) Q E s ↔ wp x Q (fun _ t => wp y Q E t) s := by
  unfold wp orElse
  cases x s with
  | none => rfl
  | some r =>
    cases r with
    | mk r t => cases r <;> rfl

/-- A program for each element of a list, one after the other -/
def forEach {ι : Type} (f : ι → Prog σ ε Unit) : List ι → Prog σ ε Unit
  | [] => pure ()
  | i :: is => do
    f i
    forEach f is

/-- The rule of a loop over a list: `I is` holds while `is` are left. -/
theorem wp_forEach {ι : Type} {f : ι → Prog σ ε Unit} {l : List ι} (I : List ι → σ → Prop) (h₀ : I l s)
    (hstep : ∀ i is t, i ∈ l → I (i :: is) t → wp (f i) (fun _ => I is) E t) :
    wp (forEach f l) (fun _ => I []) E s := by
  induction l generalizing s with
  | nil => exact h₀
  | cons i l ih =>
    rw [forEach, wp_bind]
    apply wp_mono_post (hstep i l s List.mem_cons_self h₀)
    intro _ t ht
    exact ih ht fun j js u hj => hstep j js u (List.mem_cons_of_mem i hj)

/-- However it ends, a run of the program goes from a state to one that is related to it. -/
def Along (R : σ → σ → Prop) (x : Prog σ ε α) : Prop :=
  ∀ s, wlpe x (fun _ t => R s t) (fun _ t => R s t) s

section

variable {R : σ → σ → Prop} {x : Prog σ ε α}

theorem along_pure (hrefl : ∀ s, R s s) (a : α) : Along R (pure a : Prog σ ε α) := hrefl

theorem along_diverge : Along R (diverge : Prog σ ε α) := fun _ => trivial

theorem along_state (hrefl : ∀ s, R s s) : Along R (state : Prog σ ε σ) := hrefl

theorem along_update {f : σ → σ} (h : ∀ s, R s (f s)) : Along R (update f : Prog σ ε Unit) := h

theorem along_check (hrefl : ∀ s, R s s) (c : Prop) [Decidable c] :
    Along R (check c : Prog σ ε Unit) := by
  intro s
  rw [wlpe_check]
  exact fun _ => hrefl s

theorem along_raiseIf (hrefl : ∀ s, R s s) (c : Prop) [Decidable c] (e : ε) :
    Along R (raiseIf c e : Prog σ ε Unit) := by
  intro s
  rw [wlpe_raiseIf]
  split <;> exact hrefl s

theorem along_doIf (hrefl : ∀ s, R s s) (c : Prop) [Decidable c] {x : Prog σ ε Unit} (h : Along R x) :
    Along R (doIf c x) := by
  intro s
  rw [wlpe_doIf]
  split
  · exact h s
  · exact hrefl s

theorem along_ite (c : Prop) [Decidable c] {y : Prog σ ε α} (hx : Along R x) (hy : Along R y) :
    Along R (if c then x else y) := by
  split
  · exact hx
  · exact hy

theorem Along.bind (htrans : ∀ s t u, R s t → R t u → R s u) {f : α → Prog σ ε β} (hx : Along R x)
    (hf : ∀ a, Along R (f a)) : Along R (x >>= f) := by
  intro s
  rw [wlpe_bind]
  apply wlpe_mono_post (hx s)
  intro a t ht
  exact wlpe_mono (hf a t) (fun _ _ hu => htrans _ _ _ ht hu) fun _ _ hu => htrans _ _ _ ht hu

theorem along_loop (hrefl : ∀ s, R s s) (htrans : ∀ s t u, R s t → R t u → R s u)
    {body : Nat → Prog σ ε Unit} {n : Nat} (h : ∀ i < n, Along R (body i)) : Along R (loop n body) := by
  induction n with
  | zero => exact along_pure hrefl ()
  | succ n ih =>
    apply (ih fun i hi => h i (by omega)).bind htrans
    exact fun _ => h n (Nat.lt_succ_self n)

theorem along_zoom {τ : Type} {get : σ → τ} {set : τ → σ → σ} {y : Prog τ ε α} {R' : τ → τ → Prop}
    (h : Along R' y) (hset : ∀ s t, R' (get s) t → R s (set t s)) : Along R (zoom get set y) := by
  intro s
  rw [wlpe_zoom]
  exact wlpe_mono (h (get s)) (fun _ _ ht => hset s _ ht) fun _ _ ht => hset s _ ht

theorem along_ensuring (htrans : ∀ s t u, R s t → R t u → R s u) {f : σ → σ} (hx : Along R x)
    (hf : ∀ s, R s (f s)) : Along R (ensuring x f) := by
  intro s
  rw [wlpe_ensuring]
  exact wlpe_mono (hx s) (fun _ t ht => htrans _ _ _ ht (hf t)) fun _ t ht => htrans _ _ _ ht (hf t)

end

/-- From a state in `I` the program stays in `I`, and what it throws, it throws in a state in `P`. -/
def Throws (I : σ → Prop) (P : ε → σ → Prop) (x : Prog σ ε α) : Prop :=
  ∀ s, I s → wlpe x (fun _ t => I t) (fun e t => I t ∧ P e t) s

section

variable {I : σ → Prop} {P P' : ε → σ → Prop} {x : Prog σ ε α}

theorem throws_pure (a : α) : Throws I P (pure a : Prog σ ε α) := fun _ h => h

theorem throws_diverge : Throws I P (diverge : Prog σ ε α) := fun _ _ => trivial

theorem throws_state : Throws I P (state : Prog σ ε σ) := fun _ h => h

theorem throws_update {f : σ → σ} (h : ∀ s, I s → I (f s)) : Throws I P (update f : Prog σ ε Unit) := h

theorem throws_check (c : Prop) [Decidable c] : Throws I P (check c : Prog σ ε Unit) := by
  intro s hs
  rw [wlpe_check]
  exact fun _ => hs

theorem throws_ite (c : Prop) [Decidable c] {y : Prog σ ε α} (hx : Throws I P x) (hy : Throws I P y) :
    Throws I P (if c then x else y) := by
  split
  · exact hx
  · exact hy

theorem throws_doIf (c : Prop) [Decidable c] {x : Prog σ ε Unit} (h : Throws I P x) :
    Throws I P (doIf c x) :=
  throws_ite c h (throws_pure ())

theorem Throws.bind {f : α → Prog σ ε β} (hx : Throws I P x) (hf : ∀ a, Throws I P (f a)) :
    Throws I P (x >>= f) := by
  intro s hs
  rw [wlpe_bind]
  exact wlpe_mono_post (hx s hs) fun a t ht => hf a t ht

theorem throws_loop {body : Nat → Prog σ ε Unit} {n : Nat} (h : ∀ i, Throws I P (body i)) :
    Throws I P (loop n body) := by
  induction n with
  | zero => exact throws_pure ()
  | succ n ih => exact ih.bind fun _ => h n

theorem Throws.mono (hx : Throws I P x) (h : ∀ e t, I t → P e t → P' e t) : Throws I P' x := by
  intro s hs
  exact wlpe_mono (hx s hs) (fun _ _ ht => ht) fun e t ht => ⟨ht.1, h e t ht.1 ht.2⟩

theorem throws_zoom {τ : Type} {get : σ → τ} {set : τ → σ → σ} {y : Prog τ ε α} {J : τ → Prop} {R : ε → τ → Prop}
    (h : Throws J R y) (hget : ∀ s, I s → J (get s)) (hset : ∀ s t, I s → J t → I (set t s))
    (hP : ∀ s e t, R e t → P e (set t s)) : Throws I P (zoom get set y) := by
  intro s hs
  rw [wlpe_zoom]
  exact wlpe_mono (h (get s) (hget s hs)) (fun _ t ht => hset s t hs ht) fun e t ht =>
    ⟨hset s t hs ht.1, hP s e t ht.2⟩

theorem throws_ensuring {f : σ → σ} (hx : Throws I P x) (hI : ∀ s, I s → I (f s))
    (hP : ∀ e s, P e s → P e (f s)) : Throws I P (ensuring x f) := by
  intro s hs
  rw [wlpe_ensuring]
  exact wlpe_mono (hx s hs) (fun _ t ht => hI t ht) fun e t ht => ⟨hI t ht.1, hP e t ht.2⟩

end

end Prog

end CseOs.Framework
