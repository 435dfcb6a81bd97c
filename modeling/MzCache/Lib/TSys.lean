import Mathlib

/-!
# Transition systems

Reachability, invariants, and the rule that carries an inductive invariant to
every reachable state.
-/

namespace MzCache.Lib

/-- A transition system over the states `σ`. -/
structure TSys (σ : Type*) where
  init : σ → Prop
  step : σ → σ → Prop

namespace TSys

variable {σ : Type*} (T : TSys σ)

/-- States that finitely many steps reach from an initial one. -/
inductive Reachable : σ → Prop
  | start {s : σ} (h : T.init s) : Reachable s
  | next {s s' : σ} (h : Reachable s) (hs : T.step s s') : Reachable s'

/-- `P` holds in every reachable state. -/
def Invariant (P : σ → Prop) : Prop := ∀ s, T.Reachable s → P s

variable {T}

/-- What holds initially and survives every step holds always. -/
theorem invariant_of_step {P : σ → Prop} (hinit : ∀ s, T.init s → P s)
    (hstep : ∀ s s', P s → T.step s s' → P s') : T.Invariant P := by
  intro s hs
  induction hs with
  | start h => exact hinit _ h
  | next _ hs ih => exact hstep _ _ ih hs

/-- A run is a finite number of steps. -/
theorem Reachable.run {s s' : σ} (h : T.Reachable s) (hr : Relation.ReflTransGen T.step s s') :
    T.Reachable s' := by
  induction hr with
  | refl => exact h
  | tail _ hs ih => exact ih.next hs

end TSys

/-- What survives a step survives a run. -/
theorem run_preserves {σ : Type*} {step : σ → σ → Prop} {P : σ → Prop}
    (hstep : ∀ s s', P s → step s s' → P s') {s s' : σ} (hs : P s)
    (hr : Relation.ReflTransGen step s s') : P s' := by
  induction hr with
  | refl => exact hs
  | tail _ h ih => exact hstep _ _ ih h

end MzCache.Lib
