import Mathlib.Init

/-!
# Executable transition systems

A component that takes one step after another is a function `step : S → A → Option S`: the state
after the action, or `none` where the state does not allow it.  The nondeterminism (which party
moves, which environment event happens) is in the choice of the action.

## Main definitions

* `Reach step ok s₀ s` : `s` is reached from `s₀` by steps that all meet the condition `ok`, a
  condition on the state before the step and on its action.
* `runIf step ok s as` : the state a list of actions leads to, every step meeting `ok`.
* `AllSteps step P s as` : a condition on every step of a run.
* `observe step record` : the system with a history of its steps.
-/

namespace HpcAgentBench

namespace Lts

variable {S A : Type*} {step : S → A → Option S} {ok ok' : S → A → Prop}

/-- `s` is reached from `s₀` in zero or more steps that meet `ok`. -/
inductive Reach (step : S → A → Option S) (ok : S → A → Prop) (s₀ : S) : S → Prop
  | refl : Reach step ok s₀ s₀
  | tail {s s' : S} {a : A} (h : Reach step ok s₀ s) (hok : ok s a) (hs : step s a = some s') :
      Reach step ok s₀ s'

/-- The condition every step meets. -/
def always (_ : S) (_ : A) : Prop := True

instance (s : S) (a : A) : Decidable (always s a) := .isTrue trivial

namespace Reach

theorem single {s s' : S} {a : A} (hok : ok s a) (hs : step s a = some s') :
    Reach step ok s s' := tail refl hok hs

theorem trans {s₁ s₂ s₃ : S} (h₁ : Reach step ok s₁ s₂) (h₂ : Reach step ok s₂ s₃) :
    Reach step ok s₁ s₃ := by
  induction h₂ with
  | refl => exact h₁
  | tail _ hok hs ih => exact tail ih hok hs

theorem head {s₁ s₂ s₃ : S} {a : A} (hok : ok s₁ a) (hs : step s₁ a = some s₂)
    (h : Reach step ok s₂ s₃) : Reach step ok s₁ s₃ := trans (single hok hs) h

/-- A weaker condition on the steps reaches at least as much. -/
theorem mono {s₀ s : S} (h : Reach step ok s₀ s) (himp : ∀ s a, ok s a → ok' s a) :
    Reach step ok' s₀ s := by
  induction h with
  | refl => exact refl
  | tail _ hok hs ih => exact tail ih (himp _ _ hok) hs

/-- What holds at the start and is kept by every step that meets the condition holds in every
state reached. -/
theorem invariant {I : S → Prop} {s₀ s : S} (h : Reach step ok s₀ s) (h₀ : I s₀)
    (hstep : ∀ s a s', I s → ok s a → step s a = some s' → I s') : I s := by
  induction h with
  | refl => exact h₀
  | tail _ hok hs ih => exact hstep _ _ _ ih hok hs

/-- An invariant may be proved with another one at hand. -/
theorem invariant_of {I J : S → Prop} {s₀ s : S} (h : Reach step ok s₀ s)
    (hJ : ∀ s, Reach step ok s₀ s → J s) (h₀ : I s₀)
    (hstep : ∀ s a s', J s → I s → ok s a → step s a = some s' → I s') : I s := by
  induction h with
  | refl => exact h₀
  | tail h' hok hs ih => exact hstep _ _ _ (hJ _ h') ih hok hs

end Reach

/-- The state the actions `as` lead to, if every step is allowed and meets `ok`. -/
def runIf (step : S → A → Option S) (ok : S → A → Prop) [∀ s a, Decidable (ok s a)] :
    S → List A → Option S
  | s, [] => some s
  | s, a :: as => if ok s a then (step s a).bind fun s' => runIf step ok s' as else none

theorem Reach.of_runIf [∀ s a, Decidable (ok s a)] {s s' : S} {as : List A}
    (h : runIf step ok s as = some s') : Reach step ok s s' := by
  induction as generalizing s with
  | nil =>
    cases h
    exact .refl
  | cons a as ih =>
    simp only [runIf] at h
    split at h
    · obtain ⟨s₁, hs, hrest⟩ := Option.bind_eq_some_iff.mp h
      exact .head ‹_› hs (ih hrest)
    · cases h

/-- What a run that ends shows of its last state is shown of a reachable state. -/
theorem Reach.exists_of_runIf [∀ s a, Decidable (ok s a)] {P : S → Bool} {s : S} {as : List A}
    (h : (runIf step ok s as).any P = true) : ∃ s', Reach step ok s s' ∧ P s' = true := by
  obtain ⟨s', hs', hP⟩ := (Option.any_eq_true _ _).mp h
  exact ⟨s', .of_runIf hs', hP⟩

/-- Every step of the run of `as` from `s` meets `P`, up to the first action that is not allowed. -/
def AllSteps (step : S → A → Option S) (P : S → A → S → Prop) : S → List A → Prop
  | _, [] => True
  | s, a :: as => ∀ s', step s a = some s' → P s a s' ∧ AllSteps step P s' as

/-- Conditions that agree on the steps of every reachable state agree on runs. -/
theorem AllSteps.iff {P Q : S → A → S → Prop} {s₀ : S}
    (h : ∀ s a s', Reach step always s₀ s → step s a = some s' → (P s a s' ↔ Q s a s'))
    {as : List A} : AllSteps step P s₀ as ↔ AllSteps step Q s₀ as := by
  induction as generalizing s₀ with
  | nil => exact Iff.rfl
  | cons a as ih =>
    refine forall₂_congr fun s' hs => ?_
    refine and_congr (h s₀ a s' .refl hs) (ih fun s b t hreach ht => ?_)
    exact h s b t (hreach.head trivial hs) ht

/-- `step` with a history of the run, which `record` writes and no step reads. -/
def observe {H : Type*} (step : S → A → Option S) (record : S → A → H → H) (x : S × H) (a : A) :
    Option (S × H) := (step x.1 a).map fun s => (s, record x.1 a x.2)

section Observe

variable {H : Type*} {record : S → A → H → H}

theorem observe_eq_some {x y : S × H} {a : A} :
    observe step record x a = some y ↔ step x.1 a = some y.1 ∧ record x.1 a x.2 = y.2 := by
  obtain ⟨s', h'⟩ := y
  rw [observe, Option.map_eq_some_iff]
  constructor
  · rintro ⟨s, hs, heq⟩
    cases heq
    exact ⟨hs, rfl⟩
  · rintro ⟨hs, hrec⟩
    exact ⟨s', hs, by rw [hrec]⟩

end Observe

end Lts

end HpcAgentBench
