import Mathlib.Logic.Relation

/-!
# Guarded transition systems

Reachability through labelled steps, each of which meets a guard on its source state and
label, and the rule that carries an invariant from the initial states along every run.
-/

namespace CseOs.Framework

variable {σ ℓ : Type*}

/-- The steps of a labelled relation whose label meets the guard in the source state. -/
def Guarded (guard : σ → ℓ → Prop) (step : σ → ℓ → σ → Prop) (s t : σ) : Prop :=
  ∃ l, guard s l ∧ step s l t

/-- States reached from an initial state by finitely many steps. -/
def Reachable (init : σ → Prop) (step : σ → σ → Prop) (s : σ) : Prop :=
  ∃ s₀, init s₀ ∧ Relation.ReflTransGen step s₀ s

namespace Reachable

variable {init : σ → Prop} {step : σ → σ → Prop}

theorem start {s : σ} (h : init s) : Reachable init step s :=
  ⟨s, h, .refl⟩

theorem next {s t : σ} (h : Reachable init step s) (hst : step s t) : Reachable init step t := by
  obtain ⟨s₀, h₀, hrun⟩ := h
  exact ⟨s₀, h₀, hrun.tail hst⟩

/-- A property of the initial states kept by every step from a reachable state holds in
every reachable state. -/
theorem invariant {P : σ → Prop} (h₀ : ∀ s, init s → P s)
    (hstep : ∀ s t, Reachable init step s → P s → step s t → P t) {s : σ}
    (h : Reachable init step s) : P s := by
  obtain ⟨s₀, hs₀, hrun⟩ := h
  induction hrun with
  | refl => exact h₀ s₀ hs₀
  | tail hrun hst ih => exact hstep _ _ ⟨s₀, hs₀, hrun⟩ ih hst

/-- Enlarging the step relation keeps reachable states reachable. -/
theorem mono {step' : σ → σ → Prop} (hsub : ∀ s t, step s t → step' s t) {s : σ}
    (h : Reachable init step s) : Reachable init step' s := by
  obtain ⟨s₀, h₀, hrun⟩ := h
  exact ⟨s₀, h₀, Relation.ReflTransGen.mono hsub _ _ hrun⟩

end Reachable

/-- A deterministic relation comes to a halt in one state at most. -/
theorem halts_unique {step : σ → σ → Prop} (hdet : Relator.RightUnique step) {s t u : σ}
    (ht : Relation.ReflTransGen step s t) (hu : Relation.ReflTransGen step s u)
    (htHalt : ∀ v, ¬ step t v) (huHalt : ∀ v, ¬ step u v) : t = u := by
  cases Relation.ReflTransGen.total_of_right_unique hdet ht hu with
  | inl h =>
    cases h.cases_head with
    | inl heq => exact heq
    | inr hstep =>
      obtain ⟨v, hv, _⟩ := hstep
      exact absurd hv (htHalt v)
  | inr h =>
    cases h.cases_head with
    | inl heq => exact heq.symm
    | inr hstep =>
      obtain ⟨v, hv, _⟩ := hstep
      exact absurd hv (huHalt v)

section Runs

variable (step : ℓ → σ → Option σ)

/-- `P` holds in the first state of a run and in every later one. -/
def EveryState (P : σ → Prop) : List ℓ → σ → Prop
  | [], s => P s
  | l :: ls, s => P s ∧ ∀ t, step l s = some t → EveryState P ls t

/-- Every step of a run that is taken meets `G`. -/
def EveryStep (G : σ → ℓ → Prop) : List ℓ → σ → Prop
  | [], _ => True
  | l :: ls, s => ∀ t, step l s = some t → G s l ∧ EveryStep G ls t

/-- When a step from a state with `P` keeps `P` exactly if it meets `G`, a run stays in `P`
exactly if all its steps meet `G`. -/
theorem everyState_iff_everyStep {P : σ → Prop} {G : σ → ℓ → Prop}
    (hstep : ∀ s l t, P s → step l s = some t → (P t ↔ G s l)) (ls : List ℓ) {s : σ} (h : P s) :
    EveryState step P ls s ↔ EveryStep step G ls s := by
  induction ls generalizing s with
  | nil => exact ⟨fun _ => trivial, fun _ => h⟩
  | cons l ls ih =>
    constructor
    · intro hrun t ht
      have hP : P t := by
        cases ls with
        | nil => exact hrun.2 t ht
        | cons => exact (hrun.2 t ht).1
      exact ⟨(hstep s l t h ht).mp hP, (ih hP).mp (hrun.2 t ht)⟩
    · intro hrun
      refine ⟨h, fun t ht => ?_⟩
      have hP : P t := (hstep s l t h ht).mpr (hrun t ht).1
      exact (ih hP).mpr (hrun t ht).2

end Runs

end CseOs.Framework
