import Mathlib.Algebra.BigOperators.Group.List.Basic

/-!
# Independent steps

Steps that may fail, over states seen as cells (`view`), where each step `i` writes the cells it owns
and reads no cell another step owns.  Such steps can run in any order.  A step may also multiply
one value of a commutative monoid (`out`): whatever the order, the product is the same.

The reference of a step (`ref i`) is what it does when it runs first.

## Main results

* `Steps.run` : what a run in some order does, from the references alone.
* `Steps.run_perm` : two runs of the same steps agree.
-/

namespace HpcAgentBench

open List Option

/-! ### Computations that agree -/

section Rel

variable {α β γ δ : Type*} {r : α → β → Prop} {q : γ → δ → Prop}
variable {x : Option α} {y : Option β} {f : α → Option γ} {g : β → Option δ}

theorem rel_bind (h : Option.Rel r x y) (hfg : ∀ a b, r a b → Option.Rel q (f a) (g b)) :
    Option.Rel q (x.bind f) (y.bind g) := by
  cases h with
  | none => exact .none
  | some h => exact hfg _ _ h

theorem rel_bind_of_eq (h : Option.Rel r x y)
    (hfg : ∀ a b, x = some a → r a b → Option.Rel q (f a) (g b)) :
    Option.Rel q (x.bind f) (y.bind g) := by
  cases h with
  | none => exact .none
  | some h => exact hfg _ _ rfl h

theorem rel_and_eq (h : Option.Rel r x y) :
    Option.Rel (fun a b => x = some a ∧ r a b) x y := by
  cases h with
  | none => exact .none
  | some h => exact .some ⟨rfl, h⟩

theorem rel_map {x : Option α} {y : Option β} {f : α → γ} {g : β → δ}
    (h : Option.Rel r x y) (hfg : ∀ a b, r a b → q (f a) (g b)) :
    Option.Rel q (x.map f) (y.map g) := by
  cases h with
  | none => exact .none
  | some h => exact .some (hfg _ _ h)

theorem rel_of_eq {y : Option α} {r : α → α → Prop} (h : x = y) (hr : ∀ a, r a a) :
    Option.Rel r x y := by
  subst h
  cases x with
  | none => exact .none
  | some a => exact .some (hr a)

theorem rel_eq_iff {y : Option α} : Option.Rel (· = ·) x y ↔ x = y := by
  constructor
  · intro h
    cases h with
    | none => rfl
    | some h => rw [h]
  · exact fun h => rel_of_eq h fun _ => rfl

theorem rel_mono {r' : α → β → Prop} (h : Option.Rel r x y) (hr : ∀ a b, r a b → r' a b) :
    Option.Rel r' x y := by
  cases h with
  | none => exact .none
  | some h => exact .some (hr _ _ h)

end Rel

/-! ### Steps -/

namespace Steps

variable {ι κ α S M : Type*} [CommMonoid M]

/-- The steps of a list, in order. -/
def runAll (step : ι → S → Option S) (l : List ι) (s : S) : Option S :=
  l.foldlM (fun s i => step i s) s

variable {view : S → κ → α} {own : ι → κ → Prop} {out : S → M} {Inv : S → Prop}
  {ref : ι → Option S} {l : List ι} {step : ι → S → Option S}
variable {s : S}

/-- The state a step of `l` needs: its own cells, and the cells nobody owns, are those of `s`. -/
def Ready (view : S → κ → α) (own : ι → κ → Prop) (l : List ι) (s : S) (i : ι) (u : S) : Prop :=
  ∀ c, (own i c ∨ ∀ j ∈ l, ¬own j c) → view s c = view u c

/-- A step that keeps to its cells and does there what its reference does. -/
structure Keeps (view : S → κ → α) (own : ι → κ → Prop) (out : S → M) (Inv : S → Prop)
    (ref : ι → Option S) (l : List ι) (s : S) (step : ι → S → Option S) : Prop where
  frame : ∀ i ∈ l, ∀ u t, Inv u → step i u = some t →
    Inv t ∧ ∀ c, ¬own i c → view t c = view u c
  follows : ∀ i ∈ l, ∀ u, Inv u → Ready view own l s i u →
    Option.Rel (fun w t => (∀ c, own i c → view w c = view t c) ∧ out t = out u * out w)
      (ref i) (step i u)

/-- What a step multiplies by. -/
def contribution (out : S → M) (ref : ι → Option S) (i : ι) : M := ((ref i).map out).getD 1

/-- **A run in some order**: every step leaves its reference's cells, and the product is the
steps'. -/
theorem run (hkeeps : Keeps view own out Inv ref l s step)
    (hdisjoint : ∀ i ∈ l, ∀ j ∈ l, i ≠ j → ∀ c, own i c → ¬own j c) {todo : List ι}
    (htodo : todo ⊆ l) (hnodup : todo.Nodup) {u : S} (hinv : Inv u)
    (hready : ∀ i ∈ todo, Ready view own l s i u) :
    (∃ t, runAll step todo u = some t ∧ Inv t ∧
      (∀ i ∈ todo, ∃ w, ref i = some w ∧ ∀ c, own i c → view w c = view t c) ∧
      (∀ c, (∀ i ∈ todo, ¬own i c) → view t c = view u c) ∧
      out t = out u * (todo.map (contribution out ref)).prod) ∨
    (runAll step todo u = none ∧ ∃ i ∈ todo, ref i = none) := by
  induction todo generalizing u with
  | nil =>
    exact .inl ⟨u, rfl, hinv, fun _ hi => absurd hi not_mem_nil, fun _ _ => rfl, by simp⟩
  | cons i todo ih =>
    obtain ⟨hi, htodo⟩ := cons_subset.1 htodo
    obtain ⟨hnot, hnodup⟩ := nodup_cons.1 hnodup
    obtain ⟨hfirst, hready⟩ := forall_mem_cons.1 hready
    have hfollows := hkeeps.follows i hi u hinv hfirst
    unfold runAll
    rw [foldlM_cons]
    cases hstep : step i u with
    | none =>
      rw [hstep] at hfollows
      refine .inr ⟨rfl, i, mem_cons_self, ?_⟩
      cases href : ref i with
      | none => rfl
      | some w => rw [href] at hfollows; cases hfollows
    | some v =>
      obtain ⟨hinv', hframe⟩ := hkeeps.frame i hi u v hinv hstep
      rw [hstep] at hfollows
      cases href : ref i with
      | none => rw [href] at hfollows; cases hfollows
      | some w =>
        rw [href] at hfollows
        obtain ⟨hown, hout⟩ := rel_some_some.1 hfollows
        have hready' : ∀ j ∈ todo, Ready view own l s j v := by
          intro j hj c hc
          rw [hready j hj c hc, hframe c]
          rcases hc with hc | hc
          · exact fun h => hdisjoint i hi j (htodo hj) (fun h => hnot (h ▸ hj)) c h hc
          · exact hc i hi
        rcases ih htodo hnodup hinv' hready' with
          ⟨t, ht, hinvt, hrefs, hrest, houtt⟩ | ⟨hnone, j, hj, hrefj⟩
        · refine .inl ⟨t, ht, hinvt, ?_, fun c hc => ?_, ?_⟩
          · refine forall_mem_cons.2 ⟨⟨w, href, fun c hc => ?_⟩, hrefs⟩
            rw [hown c hc]
            exact (hrest c fun j hj =>
              hdisjoint i hi j (htodo hj) (fun h => hnot (h ▸ hj)) c hc).symm
          · obtain ⟨hci, hc⟩ := forall_mem_cons.1 hc
            exact (hrest c hc).trans (hframe c hci)
          · rw [houtt, hout, map_cons, prod_cons, contribution, href, mul_assoc]
            rfl
        · exact .inr ⟨hnone, j, mem_cons_of_mem _ hj, hrefj⟩

/-- **Two runs of the same steps**, in two orders, by two implementations whose references do the
same. -/
theorem run_perm {S' : Type*} {view' : S' → κ → α} {out' : S' → M} {Inv' : S' → Prop}
    {ref' : ι → Option S'} {step' : ι → S' → Option S'} {s' : S'}
    (hkeeps : Keeps view own out Inv ref l s step)
    (hkeeps' : Keeps view' own out' Inv' ref' l s' step')
    (href : ∀ i ∈ l, Option.Rel (fun w w' => (∀ c, own i c → view w c = view' w' c) ∧
      out w = out' w') (ref i) (ref' i))
    (hdisjoint : ∀ i ∈ l, ∀ j ∈ l, i ≠ j → ∀ c, own i c → ¬own j c) (hnodup : l.Nodup) {l' : List ι}
    (hperm : l'.Perm l) (hinv : Inv s) (hinv' : Inv' s') (hview : ∀ c, view s c = view' s' c)
    {t : S} (ht : runAll step l s = some t) :
    ∃ t', runAll step' l' s' = some t' ∧ Inv' t' ∧ (∀ c, view t c = view' t' c) ∧
      out t = out s * (l.map (contribution out ref)).prod ∧
      out' t' = out' s' * (l.map (contribution out ref)).prod := by
  rcases run hkeeps hdisjoint (List.Subset.refl l) hnodup hinv (fun _ _ _ _ => rfl) with
    ⟨u, hu, -, hrefs, hrest, hout⟩ | ⟨hnone, -⟩
  swap
  · rw [hnone] at ht
    cases ht
  obtain rfl := some.inj (ht.symm.trans hu)
  have hsubset : l' ⊆ l := fun i hi => hperm.mem_iff.1 hi
  have hcontribution : l.map (contribution out' ref') = l.map (contribution out ref) := by
    refine map_congr_left fun i hi => ?_
    have hrel := href i hi
    unfold contribution
    generalize ref i = x, ref' i = y at hrel
    cases hrel with
    | none => rfl
    | some h => exact h.2.symm
  rcases run hkeeps' hdisjoint hsubset (hperm.nodup_iff.2 hnodup) hinv' (fun _ _ _ _ => rfl) with
    ⟨t', ht', hinvt', hrefs', hrest', hout'⟩ | ⟨-, i, hi, hnone⟩
  · refine ⟨t', ht', hinvt', fun c => ?_, hout, ?_⟩
    · by_cases hc : ∃ i ∈ l, own i c
      · obtain ⟨i, hi, hc⟩ := hc
        obtain ⟨w, hw, hcells⟩ := hrefs i hi
        obtain ⟨w', hw', hcells'⟩ := hrefs' i (hperm.mem_iff.2 hi)
        have hrel := href i hi
        rw [hw, hw'] at hrel
        rw [← hcells c hc, ← hcells' c hc]
        exact (rel_some_some.1 hrel).1 c hc
      · push Not at hc
        rw [hrest c hc, hrest' c fun i hi => hc i (hsubset hi)]
        exact hview c
    · rw [hout', (hperm.map _).prod_eq, hcontribution]
  · obtain ⟨w, hw, -⟩ := hrefs i (hsubset hi)
    have hrel := href i (hsubset hi)
    rw [hw, hnone] at hrel
    cases hrel

end Steps

end HpcAgentBench
