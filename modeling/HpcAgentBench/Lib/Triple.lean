import Mathlib

/-!
# Programs with a state and exceptions

A program of `Stateful σ ε` changes a state and may raise; the state outlives the exception.  A
triple `Triple I P x Q` says what a program does from a state of the invariant `I` with the
precondition `P`: it ends in a state of the invariant that extends the first one, and a result
satisfies the postcondition.  A condition that extensions keep is a frame.

## Main results

* `Triple.bind`, `Triple.mapM`, `Triple.foldlM` : the rules of sequences and loops.
* `Triple.frame` : a condition that extensions keep passes through.
-/

namespace HpcAgentBench

open List

/-- Programs over a state that may raise. -/
abbrev Stateful (σ ε : Type) := ExceptT ε (StateM σ)

namespace Stateful

variable {σ ε α β : Type}

/-- The outcome and the final state of a run. -/
def exec (x : Stateful σ ε α) (s : σ) : Except ε α × σ := x.run s

/-- A computation without a state. -/
def lift (x : Except ε α) : Stateful σ ε α := ExceptT.mk (pure x)

@[simp] theorem exec_pure (a : α) (s : σ) : (pure a : Stateful σ ε α).exec s = (.ok a, s) := rfl

@[simp] theorem exec_get (s : σ) : (get : Stateful σ ε σ).exec s = (.ok s, s) := rfl

@[simp] theorem exec_set (s t : σ) : (set t : Stateful σ ε PUnit).exec s = (.ok ⟨⟩, t) := rfl

@[simp] theorem exec_lift (x : Except ε α) (s : σ) : (lift x).exec s = (x, s) := rfl

theorem exec_bind (x : Stateful σ ε α) (f : α → Stateful σ ε β) (s : σ) :
    (x >>= f).exec s = match x.exec s with
      | (.ok a, t) => (f a).exec t
      | (.error e, t) => (.error e, t) := by
  have hbind : (x >>= f).exec s = (match x.exec s with
      | (result, t) => ExceptT.bindCont (fun a => (f a : Stateful σ ε β)) result t) := rfl
  rw [hbind]
  cases x.exec s with
  | mk result t =>
    cases result with
    | ok a => rfl
    | error e => rfl

theorem exec_mapM_lift {γ : Type} (f : γ → Except ε β) (l : List γ) (s : σ) :
    (l.mapM fun a => (lift (f a) : Stateful σ ε β)).exec s = (l.mapM f, s) := by
  induction l with
  | nil => rfl
  | cons a l ih =>
    rw [mapM_cons, exec_bind, exec_lift, mapM_cons]
    cases f a with
    | error e => rfl
    | ok b =>
      show ((l.mapM fun a => (lift (f a) : Stateful σ ε β)) >>= fun bs => pure (b :: bs)).exec s = _
      rw [exec_bind, ih]
      cases l.mapM f with
      | error e => rfl
      | ok bs => rfl

end Stateful

section Triple

variable {σ ε α β : Type} [Preorder σ]

/-- From a state of `I` with `P`, a program ends in a state of `I` that extends it, and its result
meets `Q`. -/
def Triple (I P : σ → Prop) (x : Stateful σ ε α) (Q : α → σ → Prop) : Prop :=
  ∀ s, I s → P s →
    I (x.exec s).2 ∧ s ≤ (x.exec s).2 ∧ ∀ a, (x.exec s).1 = .ok a → Q a (x.exec s).2

/-- A condition that every extension of a state keeps. -/
def Stable (F : σ → Prop) : Prop := ∀ s t, s ≤ t → F s → F t

namespace Triple

variable {I P : σ → Prop}
variable {Q : α → σ → Prop} {x : Stateful σ ε α} {γ : Type} {l : List γ}

theorem pure {a : α} (h : ∀ s, I s → P s → Q a s) :
    Triple I P (Pure.pure a : Stateful σ ε α) Q := by
  intro s hI hP
  refine ⟨hI, le_refl s, fun b hb => ?_⟩
  cases hb
  exact h s hI hP

theorem lift {x : Except ε α} (h : ∀ s a, I s → P s → x = .ok a → Q a s) :
    Triple I P (Stateful.lift x) Q := by
  intro s hI hP
  exact ⟨hI, le_refl s, fun a ha => h s a hI hP ha⟩

theorem bind {f : α → Stateful σ ε β} {R : β → σ → Prop} (hx : Triple I P x Q)
    (hf : ∀ a, Triple I (Q a) (f a) R) : Triple I P (x >>= f) R := by
  intro s hI hP
  obtain ⟨hI', hle, hQ⟩ := hx s hI hP
  rw [Stateful.exec_bind]
  cases hrun : x.exec s with
  | mk result t =>
    rw [hrun] at hI' hle hQ
    cases result with
    | error e => exact ⟨hI', hle, fun b hb => by cases hb⟩
    | ok a =>
      obtain ⟨hI'', hle', hR⟩ := hf a t hI' (hQ a rfl)
      exact ⟨hI'', hle.trans hle', hR⟩

theorem mono {P' : σ → Prop} {Q' : α → σ → Prop} (h : Triple I P x Q) (hP : ∀ s, I s → P' s → P s)
    (hQ : ∀ a s, I s → Q a s → Q' a s) : Triple I P' x Q' := by
  intro s hI hP'
  obtain ⟨hI', hle, hpost⟩ := h s hI (hP s hI hP')
  exact ⟨hI', hle, fun a ha => hQ a _ hI' (hpost a ha)⟩

/-- What the precondition says of no state. -/
theorem of_pre {φ : Prop} (hφ : ∀ s, I s → P s → φ) (h : φ → Triple I P x Q) : Triple I P x Q :=
  fun s hI hP => h (hφ s hI hP) s hI hP

theorem frame {F : σ → Prop} (h : Triple I P x Q) (hF : Stable F) :
    Triple I (fun s => P s ∧ F s) x (fun a s => Q a s ∧ F s) := by
  intro s hI hPF
  obtain ⟨hI', hle, hpost⟩ := h s hI hPF.1
  exact ⟨hI', hle, fun a ha => ⟨hpost a ha, hF s _ hle hPF.2⟩⟩

/-- A loop that collects one result for each element. -/
theorem mapM {f : γ → Stateful σ ε β} {R : γ → β → σ → Prop} (hR : ∀ a b, Stable (R a b))
    (hP : Stable P) (h : ∀ a ∈ l, Triple I P (f a) (R a)) :
    Triple I P (l.mapM f) (fun bs s => Forall₂ (fun a b => R a b s) l bs) := by
  induction l with
  | nil =>
    rw [mapM_nil]
    exact pure fun s _ _ => .nil
  | cons a l ih =>
    rw [mapM_cons]
    refine bind ((h a mem_cons_self).frame hP |>.mono (fun s _ hs => ⟨hs, hs⟩)
      fun _ _ _ hq => hq) fun b => ?_
    refine bind ((ih fun c hc => h c (mem_cons_of_mem _ hc)).frame (hR a b) |>.mono
      (fun s _ hs => ⟨hs.2, hs.1⟩) fun _ _ _ hq => hq) fun bs => ?_
    exact pure fun s _ hs => .cons hs.2 hs.1

/-- A loop with an invariant over the elements done. -/
theorem foldlM {f : β → γ → Stateful σ ε β} {J : List γ → β → σ → Prop} {b : β}
    (h : ∀ done a, done ++ [a] <+: l → ∀ b, Triple I (J done b) (f b a) (J (done ++ [a]))) :
    Triple I (J [] b) (l.foldlM f b) (J l) := by
  suffices ∀ rest done b, done ++ rest = l → Triple I (J done b) (rest.foldlM f b) (J l) from
    this l [] b rfl
  intro rest
  induction rest with
  | nil =>
    intro done b hl
    rw [append_nil] at hl
    subst hl
    exact pure fun s _ hs => hs
  | cons a rest ih =>
    intro done b hl
    rw [foldlM_cons]
    refine bind (h done a ⟨rest, by simpa using hl⟩ b) fun b' => ?_
    exact ih (done ++ [a]) b' (by simpa using hl)

end Triple

end Triple

end HpcAgentBench
