/-
  Runs of a transition system.

  A system is a partial step function `step : σ → α → Option σ`; an action `a` is enabled in `s`
  iff `step s a` is defined.

  * `Reach step ok s`: the states reached from `s` by runs all of whose steps satisfy `ok`.
  * `Reach.inv`: the induction rule for invariants.
  * `observed`: the steps of a system with an observer; `trail`: with its past.
  * `exec`: the run of a given list of actions, for evaluating concrete schedules.
  * `bind_ok`, `map_ok`: what a computation that did not fail went through.
-/
import Mathlib.Logic.Function.Basic

namespace Ferrum.Lib

variable {σ α : Type*}

/-- The states reached from `s` by steps that all satisfy `ok`. -/
inductive Reach (step : σ → α → Option σ) (ok : σ → α → Prop) (s : σ) : σ → Prop
  | refl : Reach step ok s s
  | tail {t u : σ} (a : α) : Reach step ok s t → ok t a → step t a = some u → Reach step ok s u

/-- No condition on the steps. -/
def anyStep : σ → α → Prop := fun _ _ => True

section
variable {step : σ → α → Option σ} {ok ok' : σ → α → Prop} {s t : σ}

/-- **Invariants.**  What holds initially and is kept by every step holds in every state reached. -/
theorem Reach.inv {I : σ → Prop} (h : Reach step ok s t) (h₀ : I s)
    (hs : ∀ x a y, Reach step ok s x → I x → ok x a → step x a = some y → I y) : I t := by
  induction h with
  | refl => exact h₀
  | tail a hr hok hst ih => exact hs _ a _ hr ih hok hst

theorem Reach.trans {u : σ} (h : Reach step ok s t) (h' : Reach step ok t u) :
    Reach step ok s u := by
  induction h' with
  | refl => exact h
  | tail a _ hok hst ih => exact .tail a ih hok hst

theorem Reach.mono (h : Reach step ok s t) (hok : ∀ x a, ok x a → ok' x a) :
    Reach step ok' s t := by
  induction h with
  | refl => exact .refl
  | tail a _ ha hst ih => exact .tail a ih (hok _ _ ha) hst

end

/-- The steps, with what an observer notes of each state and action. -/
def observed {ω : Type*} (step : σ → α → Option σ) (note : ω → σ → α → ω) (x : σ × ω) (a : α) :
    Option (σ × ω) :=
  (step x.1 a).map fun s => (s, note x.2 x.1 a)

theorem Reach.of_observed {ω : Type*} {step : σ → α → Option σ} {ok : σ → α → Prop}
    {note : ω → σ → α → ω} {s : σ} {o : ω} {x : σ × ω}
    (h : Reach (observed step note) (fun x a => ok x.1 a) (s, o) x) : Reach step ok s x.1 := by
  refine h.inv (I := fun x => Reach step ok s x.1) .refl fun x a y _ hx hok hst => ?_
  obtain ⟨t, ht, rfl⟩ := Option.map_eq_some_iff.1 hst
  exact hx.tail a hok ht

/-- The steps, with the states that a run came through, the last one first. -/
abbrev trail (step : σ → α → Option σ) : σ × List σ → α → Option (σ × List σ) :=
  observed step fun past s _ => s :: past

/-- The state after the actions `as`, if all of them are enabled. -/
def exec (step : σ → α → Option σ) : σ → List α → Option σ
  | s, [] => some s
  | s, a :: as => (step s a).bind fun t => exec step t as

theorem exec_cons {step : σ → α → Option σ} {s t : σ} {a : α} (h : step s a = some t)
    (as : List α) : exec step s (a :: as) = exec step t as := by
  rw [exec, h]
  rfl

theorem reach_of_exec {step : σ → α → Option σ} {s t : σ} {as : List α}
    (h : exec step s as = some t) : Reach step anyStep s t := by
  have key : ∀ (as : List α) (x : σ), Reach step anyStep s x → exec step x as = some t →
      Reach step anyStep s t := by
    intro as
    induction as with
    | nil => intro x hx h; simp only [exec, Option.some.injEq] at h; exact h ▸ hx
    | cons a as ih =>
      intro x hx h
      simp only [exec, Option.bind_eq_some_iff] at h
      obtain ⟨y, hy, h⟩ := h
      exact ih y (.tail a hx trivial hy) h
  exact key as s .refl h

/-- The state a schedule ends in is reached. -/
theorem reach_get {step : σ → α → Option σ} {s : σ} {as : List α} (h : (exec step s as).isSome) :
    Reach step anyStep s ((exec step s as).get h) :=
  reach_of_exec (Option.some_get h).symm

/-- The steps that satisfy `ok`. -/
def guarded (ok : σ → α → Prop) [∀ s a, Decidable (ok s a)] (step : σ → α → Option σ) (s : σ)
    (a : α) : Option σ :=
  if ok s a then step s a else none

theorem reach_guarded {ok : σ → α → Prop} [∀ s a, Decidable (ok s a)] {step : σ → α → Option σ}
    {s : σ} {as : List α} (h : (exec (guarded ok step) s as).isSome) :
    Reach step ok s ((exec (guarded ok step) s as).get h) := by
  refine (reach_get h).inv (I := Reach step ok s) .refl fun x a y _ hx _ hst => ?_
  unfold guarded at hst
  split at hst
  · next hok => exact hx.tail a hok hst
  · cases hst

/-- A schedule of an observed system is one of the system. -/
theorem exec_of_observed {ω : Type*} {ok : σ → α → Prop} [∀ s a, Decidable (ok s a)]
    {step : σ → α → Option σ} {note : ω → σ → α → ω} {s : σ} {o : ω} {x : σ × ω} {as : List α}
    (h : exec (guarded (fun x a => ok x.1 a) (observed step note)) (s, o) as = some x) :
    exec (guarded ok step) s as = some x.1 := by
  induction as generalizing s o with
  | nil => cases h; rfl
  | cons a as ih =>
    simp only [exec, Option.bind_eq_some_iff, guarded, Option.ite_none_right_eq_some] at h ⊢
    obtain ⟨y, ⟨hok, hst⟩, h⟩ := h
    obtain ⟨t, ht, rfl⟩ := Option.map_eq_some_iff.1 hst
    exact ⟨t, ⟨hok, ht⟩, ih h⟩

section
variable {ε α β : Type} {x : Except ε α}

theorem bind_ok {f : α → Except ε β} {b : β} (h : x >>= f = .ok b) :
    ∃ a, x = .ok a ∧ f a = .ok b := by
  cases x with
  | error _ => cases h
  | ok a => exact ⟨a, rfl, h⟩

theorem map_ok {f : α → β} {b : β} (h : x.map f = .ok b) : ∃ a, x = .ok a ∧ f a = b := by
  cases x with
  | error _ => cases h
  | ok a => exact ⟨a, rfl, Except.ok.inj h⟩

end

end Ferrum.Lib
