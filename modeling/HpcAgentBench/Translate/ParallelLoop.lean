import HpcAgentBench.Translate.After
import HpcAgentBench.Translate.Slices
import Mathlib.Algebra.Ring.PUnit

/-!
# Parallel loops

The iterations of a loop that keep to their slices are independent steps over the cells of a store
(`Cell`), so that they can run in any order, each with its own copy of the scalars its body binds.

## Main results

* `iteration_follows`, `iteration_frame` : an iteration reads its own cells and those that no
  iteration owns, and leaves the cells of others.
* `parallel_safe_sound` : the decision `loopIsParallelSafe` is right, where what it does not look at
  does not matter (`OwnSlices`, `FoundAfter`).
-/

namespace HpcAgentBench

open List Option

namespace Translate

variable {V : Type}
variable {σ : State V}

/-- A store in which some names are bound to whatever `junk` says. -/
def State.forget (σ : State V) (names : List String) (junk : String → Option V) : State V :=
  { σ with scalars := fun x => if x ∈ names then junk x else σ.scalars x }

/-! ### Cells of a store -/

/-- A part of a store: an element of an array, its shape, the array itself where the loop does not
write it, or a scalar. -/
inductive Cell
  | scalar (x : String)
  | array (A : String)
  | shape (A : String)
  | element (A : String) (c : List ℕ)

/-- What a cell holds. -/
inductive Content (V : Type)
  | scalar (v : Option V)
  | array (a : Option (Arr V))
  | shape (s : Option (List ℕ))
  | element (v : Option V)

/-- A store as cells, the scalars of `hidden` aside. -/
def view (hidden written : List String) (σ : State V) : Cell → Content V
  | .scalar x => .scalar (if x ∈ hidden then none else σ.scalars x)
  | .array A => .array (if A ∈ written then none else σ.arrays A)
  | .shape A => .shape ((σ.arrays A).map Arr.shape)
  | .element A c => .element ((σ.arrays A).map (·.cells c))

/-- Stores of the same cells. -/
theorem eq_of_view {hidden written : List String} {τ : State V}
    (h : ∀ c, view hidden written σ c = view hidden written τ c) :
    σ.arrays = τ.arrays ∧ ∀ x, x ∉ hidden → σ.scalars x = τ.scalars x := by
  constructor
  · funext A
    have hshape : (σ.arrays A).map Arr.shape = (τ.arrays A).map Arr.shape := by
      injection h (.shape A)
    have hcells : ∀ c, (σ.arrays A).map (·.cells c) = (τ.arrays A).map (·.cells c) := fun c => by
      injection h (.element A c)
    cases ha : σ.arrays A with
    | none =>
      cases hb : τ.arrays A with
      | none => rfl
      | some b => rw [ha, hb] at hshape; cases hshape
    | some a =>
      cases hb : τ.arrays A with
      | none => rw [ha, hb] at hshape; cases hshape
      | some b =>
        rw [ha, hb] at hshape
        obtain ⟨shape, cells⟩ := a
        obtain ⟨shape', cells'⟩ := b
        obtain rfl : shape = shape' := some.inj hshape
        have : cells = cells' := funext fun c => by simpa [ha, hb] using hcells c
        rw [this]
  · intro x hx
    have hscalar := h (.scalar x)
    simp only [view, if_neg hx] at hscalar
    injection hscalar

/-- The cells an iteration owns: its slices of the written arrays, shaped as in `s`. -/
def Iteration.owns (it : Iteration V) (s : State V) : Cell → Prop
  | .element A c => A ∈ it.written ∧ ∃ a, s.arrays A = some a ∧ it.Own a.shape (it.axis A) c
  | _ => False

/-! ### A body without breaks -/

theorem exec_next {I : Interp V} {fuel : ℕ} {b : Block} (hb : b.breaks = false) {p : State V × Flow}
    (hp : exec I fuel b σ = some p) : p.2 = .next := by
  induction b generalizing σ p with
  | done =>
    obtain rfl := some.inj hp
    rfl
  | assign targets e rest ih =>
    obtain ⟨v, -, hp⟩ := bind_eq_some_iff.1 hp
    obtain ⟨τ, -, hp⟩ := bind_eq_some_iff.1 hp
    exact ih hb hp
  | augAssign target op e rest ih =>
    obtain ⟨old, -, hp⟩ := bind_eq_some_iff.1 hp
    obtain ⟨v, -, hp⟩ := bind_eq_some_iff.1 hp
    obtain ⟨w, -, hp⟩ := bind_eq_some_iff.1 hp
    obtain ⟨τ, -, hp⟩ := bind_eq_some_iff.1 hp
    exact ih hb hp
  | expr e rest ih =>
    obtain ⟨τ, -, hp⟩ := bind_eq_some_iff.1 hp
    exact ih hb hp
  | ifElse test body orelse rest ihb iho ihr =>
    simp only [Block.breaks, Bool.or_eq_false_iff] at hb
    obtain ⟨c, -, hp⟩ := bind_eq_some_iff.1 hp
    obtain ⟨⟨τ, flow⟩, hτ, hp⟩ := bind_eq_some_iff.1 hp
    have hflow : flow = .next := by
      split at hτ
      · exact ihb hb.1.1 hτ
      · exact iho hb.1.2 hτ
    subst hflow
    exact ihr hb.2 hp
  | forRange target args body rest _ ihr =>
    obtain ⟨vals, -, hp⟩ := bind_eq_some_iff.1 hp
    obtain ⟨τ, -, hp⟩ := bind_eq_some_iff.1 hp
    exact ihr hb hp
  | whileDo test body rest _ ihr =>
    obtain ⟨τ, -, hp⟩ := bind_eq_some_iff.1 hp
    exact ihr hb hp
  | brk rest _ => cases hb

/-- Iterations that never break run one after another. -/
theorem forSteps_eq_runAll {step : ℤ → State V → Option (State V × Flow)}
    (hnext : ∀ v σ p, step v σ = some p → p.2 = .next) (vals : List ℤ) (σ : State V) :
    forSteps step vals σ = Steps.runAll (fun v σ => (step v σ).map Prod.fst) vals σ := by
  induction vals generalizing σ with
  | nil => rfl
  | cons v vals ih =>
    simp only [forSteps, Steps.runAll, foldlM_cons]
    cases hstep : step v σ with
    | none => rfl
    | some p =>
      have hp := hnext v σ p hstep
      simp only [bind_some, hp, map_some]
      exact ih p.1

/-! ### Iterations as steps -/

section Iterations

/-- An iteration that can run from every store that starts it. -/
structure Independent (it : Iteration V) (body : Block) : Prop where
  sound : Iteration.Combine.Sound it
  fits : Iteration.Fits it body
  reads : readsBeforeWrite it.scratch body [it.idx] = false
  index : it.idx ∉ it.scratch

variable {it : Iteration V} {body : Block} {s : State V} {hidden : List String}

/-- The cells the iteration may read are the same in two stores. -/
def SameCells (it : Iteration V) (hidden : List String) (s u : State V) : Prop :=
  (∀ x, x ∉ hidden → s.scalars x = u.scalars x) ∧
    (∀ A, A ∉ it.written → s.arrays A = u.arrays A) ∧
    (∀ A, (s.arrays A).map Arr.shape = (u.arrays A).map Arr.shape) ∧
    ∀ A c, it.owns s (.element A c) → (s.arrays A).map (·.cells c) = (u.arrays A).map (·.cells c)

variable {u σ τ : State V}

/-- Two stores of the same cells agree, once the loop's variable is bound. -/
theorem agree_of_sameCells (h : SameCells it hidden s u)
    (hhidden : ∀ x ∈ hidden, x = it.idx ∨ x ∈ it.scratch ∨ some x = it.combine.acc)
    (hnamed : ∀ A, (s.arrays A).isSome → A ∈ it.arrays)
    (hσ : σ.arrays = s.arrays ∧ ∀ x, x ∉ hidden → σ.scalars x = s.scalars x)
    (hτ : τ.arrays = u.arrays ∧ ∀ x, x ∉ hidden → τ.scalars x = u.scalars x)
    (hstart : σ.scalars it.idx = some (it.I.ofInt it.i) ∧ τ.scalars it.idx = some (it.I.ofInt it.i))
    (hacc : it.AccRel σ τ) : it.Agree [it.idx] σ τ where
  scalars x hx hxacc := by
    by_cases hxi : x = it.idx
    · rw [hxi, hstart.1, hstart.2]
    · have hscratch : x ∉ it.scratch := fun hs => hxi (mem_singleton.1 (hx hs))
      have hx : x ∉ hidden := fun hh => by
        rcases hhidden x hh with h | h | h
        · exact hxi h
        · exact hscratch h
        · exact hxacc h
      rw [hσ.2 x hx, hτ.2 x hx, h.1 x hx]
  acc := hacc
  index := hstart
  named A hA := hnamed A (hσ.1 ▸ hA)
  others A hA := by rw [hσ.1, hτ.1, h.2.1 A hA]
  slices A hA := by
    rw [hσ.1, hτ.1]
    have hshape := h.2.2.1 A
    have hcells := h.2.2.2 A
    cases ha : s.arrays A with
    | none =>
      rw [ha] at hshape
      cases hb : u.arrays A with
      | none => exact .none
      | some b => rw [hb] at hshape; cases hshape
    | some a =>
      rw [ha] at hshape hcells
      cases hb : u.arrays A with
      | none => rw [hb] at hshape; cases hshape
      | some b =>
        rw [hb] at hshape hcells
        refine .some ⟨some.inj hshape, fun c hc => ?_⟩
        exact some.inj (hcells c ⟨hA, a, ha, hc⟩)

/-- What the iteration leaves in its own cells is the same in two stores that agree. -/
theorem owns_of_agree {bound : List String} (h : it.Agree bound σ τ)
    (hshape : ∀ A, (σ.arrays A).map Arr.shape = (s.arrays A).map Arr.shape) (c : Cell)
    (hc : it.owns s c) : view hidden it.written σ c = view hidden it.written τ c := by
  cases c with
  | element A c =>
    obtain ⟨hA, a, ha, hown⟩ := hc
    have hslices := h.slices A hA
    have hshape := hshape A
    simp only [view]
    generalize σ.arrays A = x, τ.arrays A = y at hslices hshape
    cases hslices with
    | none => rfl
    | some hxy =>
      rw [ha] at hshape
      exact congrArg _ (congrArg some (hxy.2 c (some.inj hshape ▸ hown)))
  | _ => exact hc.elim

/-- The iteration leaves the cells of others. -/
theorem view_of_stays (h : Iteration.Stays it σ τ)
    (hhidden : ∀ x, x ∉ hidden → x ∉ it.scratch ∧ some x ≠ it.combine.acc)
    (hσ : σ.arrays = u.arrays ∧ ∀ x, x ∉ hidden → σ.scalars x = u.scalars x)
    (hshape : ∀ A, (u.arrays A).map Arr.shape = (s.arrays A).map Arr.shape) (c : Cell)
    (hc : ¬it.owns s c) : view hidden it.written τ c = view hidden it.written u c := by
  have hslices : ∀ A, (τ.arrays A).map Arr.shape = (u.arrays A).map Arr.shape ∧
      ∀ c, ¬it.owns s (.element A c) →
        (τ.arrays A).map (·.cells c) = (u.arrays A).map (·.cells c) := by
    intro A
    by_cases hA : A ∈ it.written
    · have hslices := h.slices A hA
      rw [hσ.1] at hslices
      have hshape := hshape A
      generalize hx : u.arrays A = x, τ.arrays A = y at hslices hshape
      cases hslices with
      | none => exact ⟨rfl, fun _ _ => rfl⟩
      | @some a b hxy =>
        refine ⟨congrArg some hxy.1, fun c hc => congrArg some (hxy.2 c fun hown => ?_)⟩
        obtain ⟨a', ha', hshape⟩ := map_eq_some_iff.1 hshape.symm
        exact hc ⟨hA, a', ha', hshape ▸ hown⟩
    · rw [h.others A hA, hσ.1]
      exact ⟨rfl, fun _ _ => rfl⟩
  cases c with
  | scalar x =>
    simp only [view]
    by_cases hx : x ∈ hidden
    · rw [if_pos hx, if_pos hx]
    · rw [if_neg hx, if_neg hx, h.scalars x (hhidden x hx).1 (hhidden x hx).2, hσ.2 x hx]
  | array A =>
    simp only [view]
    by_cases hA : A ∈ it.written
    · rw [if_pos hA, if_pos hA]
    · rw [if_neg hA, if_neg hA, h.others A hA, hσ.1]
  | shape A => exact congrArg _ (hslices A).1
  | element A c => exact congrArg _ ((hslices A).2 c hc)

theorem shape_of_stays (h : Iteration.Stays it σ τ) (A : String) :
    (τ.arrays A).map Arr.shape = (σ.arrays A).map Arr.shape := by
  by_cases hA : A ∈ it.written
  · have hslices := h.slices A hA
    generalize σ.arrays A = x, τ.arrays A = y at hslices
    cases hslices with
    | none => rfl
    | some hxy => exact congrArg some hxy.1
  · rw [h.others A hA]

variable {loop : Loop} {fuel : ℕ}

variable (it hidden) in
/-- The loop's variable is bound first. -/
theorem start_of_set (hidden_idx : it.idx ∈ hidden)
    (hσ : σ.arrays = u.arrays ∧ ∀ x, x ∉ hidden → σ.scalars x = u.scalars x)
    (hτ : σ.set it.idx (it.I.ofInt it.i) = some τ) :
    (τ.arrays = u.arrays ∧ ∀ x, x ∉ hidden → τ.scalars x = u.scalars x) ∧
      τ.scalars it.idx = some (it.I.ofInt it.i) ∧ ∀ x, x ≠ it.idx → τ.scalars x = σ.scalars x := by
  unfold State.set at hτ
  split at hτ
  · cases hτ
  · obtain rfl := some.inj hτ
    refine ⟨⟨hσ.1, fun x hx => ?_⟩, State.setScalar_self, fun x hx => State.setScalar_of_ne hx⟩
    have hxi : x ≠ it.idx := fun hxi => hx (hxi ▸ hidden_idx)
    rw [State.setScalar_of_ne hxi, hσ.2 x hx]

variable (it) in
/-- **An iteration from two stores of the same cells** leaves the same in its own. -/
theorem iteration_follows (hind : Independent it loop.body) (hloop : loop.target = it.idx)
    {u σ τ : State V} (h : SameCells it hidden s u) (hidden_idx : it.idx ∈ hidden)
    (hhidden : ∀ x ∈ hidden, x = it.idx ∨ x ∈ it.scratch ∨ some x = it.combine.acc)
    (hnamed : ∀ A, (s.arrays A).isSome → A ∈ it.arrays)
    (hσ : σ.arrays = s.arrays ∧ ∀ x, x ∉ hidden → σ.scalars x = s.scalars x)
    (hτ : τ.arrays = u.arrays ∧ ∀ x, x ∉ hidden → τ.scalars x = u.scalars x)
    (hacc : it.AccRel σ τ) :
    Option.Rel (fun p q : State V × Flow =>
        (∀ c, it.owns s c → view hidden it.written p.1 c = view hidden it.written q.1 c) ∧
          it.AccRel p.1 q.1)
      (iteration it.I fuel loop it.i σ) (iteration it.I fuel loop it.i τ) := by
  unfold iteration
  rw [hloop]
  have hisSome : (σ.arrays it.idx).isSome = (τ.arrays it.idx).isSome := by
    have hshape := congrArg Option.isSome (h.2.2.1 it.idx)
    rw [isSome_map, isSome_map] at hshape
    rw [hσ.1, hτ.1, hshape]
  cases hset : σ.set it.idx (it.I.ofInt it.i) with
  | none =>
    have hset' : τ.set it.idx (it.I.ofInt it.i) = none := by
      unfold State.set at hset ⊢
      rw [← hisSome]
      split at hset
      · next hif => rw [if_pos hif]
      · cases hset
    rw [hset']
    exact .none
  | some σ' =>
    obtain ⟨τ', hset'⟩ : ∃ τ', τ.set it.idx (it.I.ofInt it.i) = some τ' := by
      unfold State.set at hset ⊢
      rw [← hisSome]
      split at hset
      · cases hset
      · next hif => exact ⟨_, if_neg hif⟩
    rw [hset', bind_some, bind_some]
    obtain ⟨hσ', hstart, hkeep⟩ := start_of_set it hidden hidden_idx hσ hset
    obtain ⟨hτ', hstart', hkeep'⟩ := start_of_set it hidden hidden_idx hτ hset'
    have hagree : it.Agree [it.idx] σ' τ' := by
      refine agree_of_sameCells h hhidden hnamed hσ' hτ' ⟨hstart, hstart'⟩ fun x hx => ?_
      have hxi : x ≠ it.idx := fun hxi => hind.sound.index (hxi ▸ hx)
      rw [hkeep x hxi, hkeep' x hxi]
      exact hacc x hx
    have hexec := Iteration.exec_agree hind.sound fuel hind.fits hind.reads hagree
    have hstarts : Iteration.Starts it σ' := ⟨hstart, hagree.named⟩
    cases hp : exec it.I fuel loop.body σ' with
    | none =>
      rw [hp] at hexec
      cases hq : exec it.I fuel loop.body τ' with
      | none => exact .none
      | some q => rw [hq] at hexec; cases hexec
    | some p =>
      rw [hp] at hexec
      cases hq : exec it.I fuel loop.body τ' with
      | none => rw [hq] at hexec; cases hexec
      | some q =>
        rw [hq] at hexec
        obtain ⟨-, hpq⟩ := rel_some_some.1 hexec
        have hstays := Iteration.exec_stays hind.sound.index fuel hind.fits hstarts hp
        refine .some ⟨fun c hc => owns_of_agree hpq (fun A => ?_) c hc, hpq.acc⟩
        rw [shape_of_stays hstays, hσ'.1]

variable (it) in
/-- **An iteration leaves the cells of others.** -/
theorem iteration_frame (hind : Independent it loop.body) (hloop : loop.target = it.idx)
    (hidden_idx : it.idx ∈ hidden)
    (hhidden : ∀ x, x ∉ hidden → x ∉ it.scratch ∧ some x ≠ it.combine.acc)
    (hnamed : ∀ A, (u.arrays A).isSome → A ∈ it.arrays)
    (hσ : σ.arrays = u.arrays ∧ ∀ x, x ∉ hidden → σ.scalars x = u.scalars x)
    (hshape : ∀ A, (u.arrays A).map Arr.shape = (s.arrays A).map Arr.shape) {p : State V × Flow}
    (hp : iteration it.I fuel loop it.i σ = some p) :
    (∀ A, (p.1.arrays A).map Arr.shape = (u.arrays A).map Arr.shape) ∧
      ∀ c, ¬it.owns s c → view hidden it.written p.1 c = view hidden it.written u c := by
  unfold iteration at hp
  rw [hloop] at hp
  obtain ⟨σ', hset, hp⟩ := bind_eq_some_iff.1 hp
  obtain ⟨hσ', hstart, -⟩ := start_of_set it hidden hidden_idx hσ hset
  have hstays := Iteration.exec_stays hind.sound.index fuel hind.fits
    ⟨hstart, fun A hA => hnamed A (hσ'.1 ▸ hA)⟩ hp
  refine ⟨fun A => ?_, fun c hc => view_of_stays hstays hhidden hσ' hshape c hc⟩
  rw [shape_of_stays hstays, hσ'.1]

end Iterations

/-! ### The parallel loop -/

/-- The names each iteration has its own copy of: the loop's variable, the variables of inner loops
and the scalars listed as private. -/
def privateNames (loop : Loop) (arrays : List String) (acc : Option String) : List String :=
  loop.target :: (loop.body.iterators ++ ompPrivateScalars loop arrays acc)

/-- The iterations of a loop in some order, each with its own copy of the private names. -/
def parallelLoop (I : Interp V) (fuel : ℕ) (loop : Loop) (arrays : List String)
    (junk : ℤ → String → Option V) (left : String → Option V) (order : List ℤ) (σ : State V) :
    Option (State V) :=
  (forSteps (fun v σ => iteration I fuel loop v (σ.forget (privateNames loop arrays none) (junk v)))
    order σ).map fun τ => τ.forget (privateNames loop arrays none) left

/-- In any order, the iterations leave every array, and every scalar read after the loop, as the
sequential loop does. -/
def AnyOrder (loop : Loop) (site : Site) (arrays : List String) (I : Interp V) (fuel : ℕ)
    (vals : List ℤ) (σ : State V) : Prop :=
  ∀ τ, forSteps (iteration I fuel loop) vals σ = some τ → ∀ order, order.Perm vals →
    ∀ junk left, ∃ τ', parallelLoop I fuel loop arrays junk left order σ = some τ' ∧
      τ'.arrays = τ.arrays ∧ ∀ x, site.mayRead loop .all x = true → τ'.scalars x = τ.scalars x

/-- What is read after a loop: no variable of the loop or of a loop inside it, and no scalar that
its body binds in a way that the analysis does not see. -/
structure FoundAfter (loop : Loop) (site : Site) : Prop where
  iterators : ∀ x ∈ loop.target :: loop.body.iterators, site.mayRead loop .all x = false
  scalars : ∀ x ∈ bodyScalars loop, site.mayRead loop .all x = true →
    site.mayRead loop .found x = true

/-- A loop that combines nothing. -/
def noCombine : Combine V := ⟨none, fun _ _ => True, fun _ => False, fun _ => False⟩

/-- An iteration of a loop. -/
def Loop.iter (loop : Loop) (I : Interp V) (arrays scratch : List String) (combine : Combine V)
    (i : ℤ) : Iteration V where
  I := I
  idx := loop.target
  i := i
  arrays := arrays
  written := loop.body.writtenArrays
  axis := writtenAxis loop
  scratch := scratch
  combine := combine

section Parallel

variable {loop : Loop} {site : Site} {arrays : List String} {I : Interp V}
variable {vals : List ℤ} {σ : State V} {b : Block} {x : String}

/-- Values that are not negative index different places. -/
theorem apart_of_nonneg (h : ∀ i ∈ vals, 0 ≤ i) :
    Apart loop vals σ := by
  have hwrap : ∀ n i p, 0 ≤ i → wrapIndex n i = some p → i.toNat = p := by
    intro n i p hi hp
    unfold wrapIndex at hp
    split at hp
    · exact some.inj hp
    · split at hp
      · omega
      · cases hp
  intro i hi j hj hij A _ a _ n _ p hp hq
  have hip := hwrap n i p (h i hi) hp
  have hjp := hwrap n j p (h j hj) hq
  have := h i hi
  have := h j hj
  omega

theorem nodup_rangeOf {args : List ℤ} (h : rangeOf args = some vals) : vals.Nodup := by
  have hrange : ∀ lo hi step : ℤ, step ≠ 0 → (rangeList lo hi step).Nodup := by
    intro lo hi step hstep
    refine List.Nodup.map (fun j k hjk => ?_) nodup_range
    have hjk : (j : ℤ) * step = k * step := by simpa using hjk
    exact_mod_cast mul_right_cancel₀ hstep hjk
  match args, h with
  | [hi], h => exact some.inj h ▸ hrange 0 hi 1 one_ne_zero
  | [lo, hi], h => exact some.inj h ▸ hrange lo hi 1 one_ne_zero
  | [lo, hi, step], h =>
    change (if step = 0 then none else some (rangeList lo hi step)) = some vals at h
    split at h
    · cases h
    · next hstep => exact some.inj h ▸ hrange lo hi step hstep

theorem nodup_rangeValues {args : Expr} (h : rangeValues I σ args = some vals) : vals.Nodup := by
  obtain ⟨vs, -, h⟩ := bind_eq_some_iff.1 h
  obtain ⟨ns, -, h⟩ := bind_eq_some_iff.1 h
  exact nodup_rangeOf h

/-- Two iterations own no cell in common. -/
theorem owns_disjoint {scratch : List String} {combine : Combine V} (hapart : Apart loop vals σ)
    {i j : ℤ} (hi : i ∈ vals) (hj : j ∈ vals) (hij : i ≠ j) (c : Cell)
    (hc : (loop.iter I arrays scratch combine i).owns σ c) :
    ¬(loop.iter I arrays scratch combine j).owns σ c := by
  cases c with
  | element A c =>
    rintro ⟨-, b, hb, m, q, hm, hq, hqc⟩
    obtain ⟨hA, a, ha, n, p, hn, hp, hpc⟩ := hc
    obtain rfl : a = b := some.inj (ha.symm.trans hb)
    obtain rfl : n = m := some.inj (hn.symm.trans hm)
    obtain rfl : p = q := some.inj (hpc.symm.trans hqc)
    exact hapart i hi j hj hij A hA a ha n hn p hp hq
  | _ => exact hc.elim

theorem updates_of_not_updatesScalar {it : Iteration V} (hacc : it.combine.acc = none)
    (h : updatesScalar b = false) : Iteration.Updates it b := by
  have hfree : ∀ e, it.FreeExpr e := fun e x _ => by simp [hacc]
  have hid : ∀ t : Target, t.id? = none ∨ t.id? ≠ it.combine.acc := fun t => by
    rw [hacc]
    exact em _
  induction b with
  | done => trivial
  | assign targets e rest ih =>
    refine ⟨.inl ⟨hfree e, fun t _ => hid t⟩, fun _ _ e _ => hfree e, ih ?_⟩
    simp only [updatesScalar, Block.walkNodes, any_cons, any_append,
      Bool.or_eq_false_iff] at h ⊢
    exact h.2.2
  | augAssign t op e rest ih =>
    simp only [updatesScalar, Block.walkNodes, any_cons, any_append,
      Bool.or_eq_false_iff] at h
    exact ⟨hfree e, .inl (isNone_iff_eq_none.1 (isSome_eq_false_iff.1 h.1)),
      fun e _ => hfree e, ih h.2.2⟩
  | expr e rest ih =>
    simp only [updatesScalar, Block.walkNodes, any_append, Bool.or_eq_false_iff] at h
    exact ⟨hfree e, ih h.2⟩
  | ifElse test body orelse rest ihb iho ihr =>
    simp only [updatesScalar, Block.walkNodes, any_append, Bool.or_eq_false_iff] at h
    exact ⟨hfree test, ihb h.1.1.2, iho h.1.2, ihr h.2⟩
  | forRange target args body rest ihb ihr =>
    simp only [updatesScalar, Block.walkNodes, any_cons, any_append,
      Bool.or_eq_false_iff] at h
    exact ⟨hfree args, by simp [hacc], ihb h.2.2.1.2, ihr h.2.2.2⟩
  | whileDo test body rest ihb ihr =>
    simp only [updatesScalar, Block.walkNodes, any_append, Bool.or_eq_false_iff] at h
    exact ⟨hfree test, ihb h.1.2, ihr h.2⟩
  | brk rest ih => exact ih h

/-- The variable of an inner loop is a name the body binds. -/
theorem store_of_iterator (h : .iterator x ∈ b.walkNodes) :
    .store (.name x) ∈ b.walkNodes := by
  have hexpr : ∀ e, .iterator x ∉ Block.exprNodes e := fun e he => by
    obtain ⟨_, -, hload⟩ := mem_map.1 he
    cases hload
  have htarget : ∀ t, .iterator x ∉ Block.targetNodes t := fun t ht => by
    rcases mem_cons.1 ht with ht | ht
    · cases ht
    · obtain ⟨e, -, he⟩ := mem_flatMap.1 ht
      exact hexpr e he
  induction b with
  | done => cases h
  | assign targets e rest ih =>
    simp only [Block.walkNodes, mem_cons, mem_append, reduceCtorEq, false_or] at h ⊢
    rcases h with (h | h) | h
    · obtain ⟨t, -, ht⟩ := mem_flatMap.1 h
      exact absurd ht (htarget t)
    · exact absurd h (hexpr e)
    · exact .inr (ih h)
  | augAssign t op e rest ih =>
    simp only [Block.walkNodes, mem_cons, mem_append, reduceCtorEq, false_or] at h ⊢
    rcases h with (h | h) | h
    · exact absurd h (htarget t)
    · exact absurd h (hexpr e)
    · exact .inr (ih h)
  | expr e rest ih =>
    simp only [Block.walkNodes, mem_append] at h ⊢
    rcases h with (h | h) | h
    · cases e <;> simp [Block.callNodes] at h
    · exact absurd h (hexpr e)
    · exact .inr (ih h)
  | ifElse test body orelse rest ihb iho ihr =>
    simp only [Block.walkNodes, mem_append] at h ⊢
    rcases h with ((h | h) | h) | h
    · exact absurd h (hexpr test)
    · exact .inl (.inl (.inr (ihb h)))
    · exact .inl (.inr (iho h))
    · exact .inr (ihr h)
  | forRange target args body rest ihb ihr =>
    simp only [Block.walkNodes, mem_cons, mem_append, reduceCtorEq, false_or,
      Block.Node.iterator.injEq] at h ⊢
    rcases h with rfl | (h | h) | h
    · exact .inl rfl
    · exact absurd h (hexpr _)
    · exact .inr (.inl (.inr (ihb h)))
    · exact .inr (.inr (ihr h))
  | whileDo test body rest ihb ihr =>
    simp only [Block.walkNodes, mem_append] at h ⊢
    rcases h with (h | h) | h
    · exact absurd h (hexpr test)
    · exact .inl (.inr (ihb h))
    · exact .inr (ihr h)
  | brk rest ih => exact ih h

theorem iterators_subset (b : Block) : b.iterators ⊆ b.bareStoreNames := by
  intro x hx
  obtain ⟨n, hn, hx⟩ := mem_filterMap.1 hx
  split at hx
  · obtain rfl := some.inj hx
    exact mem_filterMap.2 ⟨_, store_of_iterator hn, rfl⟩
  · cases hx

theorem privateNames_subset (loop : Loop) (arrays : List String) (acc : Option String) :
    privateNames loop arrays acc ⊆ loop.target :: loop.body.bareStoreNames := by
  refine cons_subset_cons _ (append_subset.2 ⟨iterators_subset _, fun x hx => ?_⟩)
  rw [ompPrivateScalars, mem_mergeSort, mem_dedup] at hx
  exact mem_of_mem_filter (mem_of_mem_filter hx)

/-- The checks of the decision. -/
theorem of_loopIsParallelSafe (hsafe : loopIsParallelSafe loop (some site) = true) :
    updatesScalar loop.body = false ∧ hasCarriedScalar loop = false ∧
      scalarsLiveAfter site loop = [] ∧
      ((writtenSubscripts loop.body loop.body.writtenArrays).all fun p =>
        subscriptIdxSafe p.2 loop.target) = true ∧
      writtenPartitionConsistent loop.body loop.target loop.body.writtenArrays = true := by
  simp only [loopIsParallelSafe, Bool.and_eq_true, Bool.not_eq_true', all_some,
    List.isEmpty_iff] at hsafe
  obtain ⟨⟨⟨⟨⟨hupdates, hcarried⟩, -⟩, hlive⟩, hsubscripts⟩, hconsistent⟩ := hsafe
  exact ⟨hupdates, hcarried, hlive, hsubscripts, hconsistent⟩

/-- The iterations of a loop that passes the decision. -/
theorem independent_of_safe (hsafe : loopIsParallelSafe loop (some site) = true)
    (hown : OwnSlices loop arrays) (i : ℤ) :
    Independent (loop.iter I arrays loop.body.bareStoreNames noCombine i) loop.body := by
  obtain ⟨hupdates, hcarried, -, hsubscripts, hconsistent⟩ := of_loopIsParallelSafe hsafe
  refine ⟨⟨by simp [Loop.iter, noCombine], fun _ h => h.elim, fun _ h => h.elim⟩, ?_, hcarried,
    hown.index⟩
  exact Iteration.fits_of_sliced (updates_of_not_updatesScalar rfl hupdates)
    (Iteration.sliced_body hown hsubscripts hconsistent rfl rfl rfl rfl fun x hx _ => hx)

/-- No scalar the loop has its own copy of is read after it. -/
theorem not_mayRead_of_safe (hsafe : loopIsParallelSafe loop (some site) = true)
    (hfound : FoundAfter loop site) (hx : site.mayRead loop .all x = true) :
    x ∉ loop.target :: loop.body.bareStoreNames := by
  intro hmem
  by_cases hiter : x ∈ loop.target :: loop.body.iterators
  · rw [hfound.iterators x hiter] at hx
    cases hx
  · have hstore : x ∈ loop.body.bareStoreNames :=
      (mem_cons.1 hmem).resolve_left fun h => hiter (h ▸ mem_cons_self)
    have hbody : x ∈ bodyScalars loop := mem_filter.2 ⟨hstore, by simpa using hiter⟩
    have hlive := mem_scalarsLiveAfter hbody (hfound.scalars x hbody hx)
    rw [(of_loopIsParallelSafe hsafe).2.2.1] at hlive
    cases hlive

/-- The iterations of a loop that passes the decision are independent steps. -/
theorem keeps_of_safe (hsafe : loopIsParallelSafe loop (some site) = true)
    (hown : OwnSlices loop arrays) {fuel : ℕ} (hnamed : ∀ A, (σ.arrays A).isSome → A ∈ arrays)
    (prep : ℤ → State V → State V) (hprep : ∀ v τ, (prep v τ).arrays = τ.arrays ∧
      ∀ x, x ∉ loop.target :: loop.body.bareStoreNames → (prep v τ).scalars x = τ.scalars x) :
    Steps.Keeps (view (loop.target :: loop.body.bareStoreNames) loop.body.writtenArrays)
      (fun i => (loop.iter I arrays loop.body.bareStoreNames noCombine i).owns σ) (fun _ => ())
      (fun τ => ∀ A, (τ.arrays A).map Arr.shape = (σ.arrays A).map Arr.shape)
      (fun i => (iteration I fuel loop i σ).map Prod.fst) vals σ
      (fun i τ => (iteration I fuel loop i (prep i τ)).map Prod.fst) where
  frame i hi u t hinv ht := by
    obtain ⟨p, hp, rfl⟩ := map_eq_some_iff.1 ht
    have hnamed' : ∀ A, (u.arrays A).isSome → A ∈ arrays := fun A hA => hnamed A <| by
      have hshape := congrArg Option.isSome (hinv A)
      rw [isSome_map, isSome_map] at hshape
      rwa [← hshape]
    have hframe := iteration_frame (loop.iter I arrays loop.body.bareStoreNames noCombine i)
      (independent_of_safe hsafe hown i) rfl mem_cons_self
      (fun x hx => ⟨fun hs => hx (mem_cons_of_mem _ hs), by simp [Loop.iter, noCombine]⟩)
      hnamed' (hprep i u) hinv hp
    exact ⟨fun A => (hframe.1 A).trans (hinv A), hframe.2⟩
  follows i hi u hinv hready := by
    have hscalar : ∀ x, x ∉ loop.target :: loop.body.bareStoreNames →
        σ.scalars x = u.scalars x := fun x hx => by
      have hview := hready (.scalar x) (.inr fun j _ => id)
      simp only [view, if_neg hx] at hview
      injection hview
    have hothers : ∀ A, A ∉ loop.body.writtenArrays → σ.arrays A = u.arrays A := fun A hA => by
      have hview := hready (.array A) (.inr fun j _ => id)
      simp only [view, if_neg hA] at hview
      injection hview
    have hsame : SameCells (loop.iter I arrays loop.body.bareStoreNames noCombine i)
        (loop.target :: loop.body.bareStoreNames) σ u := by
      refine ⟨hscalar, hothers, fun A => (hinv A).symm, fun A c hc => ?_⟩
      have hview := hready (.element A c) (.inl hc)
      injection hview
    refine rel_map (iteration_follows (loop.iter I arrays loop.body.bareStoreNames noCombine i)
      (independent_of_safe hsafe hown i) rfl hsame mem_cons_self (fun x hx => ?_) hnamed
      ⟨rfl, fun _ _ => rfl⟩ (hprep i u) fun x hx => by cases hx) fun p q hpq => ⟨hpq.1, rfl⟩
    rcases mem_cons.1 hx with hx | hx
    · exact .inl hx
    · exact .inr (.inl hx)

/-- **The parallel-loop analysis is sound** for a loop that keeps to its slices in ways it does not
check, and whose scalars are not read after it in ways it does not see. -/
theorem parallel_safe_sound (hsafe : loopIsParallelSafe loop (some site) = true)
    (hown : OwnSlices loop arrays) (hfound : FoundAfter loop site) {fuel : ℕ} {vals : List ℤ}
    {σ : State V} (hnamed : ∀ A, (σ.arrays A).isSome → A ∈ arrays)
    (hvals : rangeValues I σ loop.args = some vals) (hapart : Apart loop vals σ) :
    AnyOrder loop site arrays I fuel vals σ := by
  intro τ hτ order hperm junk left
  have hnext : ∀ v u p, iteration I fuel loop v u = some p → p.2 = .next := by
    intro v u p hp
    obtain ⟨u', -, hp⟩ := bind_eq_some_iff.1 hp
    exact exec_next hown.breaks hp
  rw [forSteps_eq_runAll hnext] at hτ
  have hforget : ∀ names ⊆ loop.target :: loop.body.bareStoreNames, ∀ junk (u : State V),
      (u.forget names junk).arrays = u.arrays ∧
        ∀ x, x ∉ loop.target :: loop.body.bareStoreNames →
          (u.forget names junk).scalars x = u.scalars x := by
    refine fun names hnames junk u => ⟨rfl, fun x hx => ?_⟩
    exact if_neg fun hmem => hx (hnames hmem)
  have hprivate := privateNames_subset loop arrays none
  obtain ⟨τ', hτ', -, hview, -⟩ := Steps.run_perm
    (keeps_of_safe hsafe hown hnamed (fun _ u => u) fun _ _ => ⟨rfl, fun _ _ => rfl⟩)
    (keeps_of_safe hsafe hown hnamed
      (fun v u => u.forget (privateNames loop arrays none) (junk v))
      fun v u => hforget _ hprivate (junk v) u)
    (fun _ _ => rel_of_eq rfl fun _ => ⟨fun _ _ => rfl, rfl⟩)
    (fun i hi j hj hij c => owns_disjoint hapart hi hj hij c) (nodup_rangeValues hvals) hperm
    (fun _ => rfl) (fun _ => rfl) (fun _ => rfl) hτ
  obtain ⟨harrays, hscalars⟩ := eq_of_view hview
  refine ⟨τ'.forget (privateNames loop arrays none) left, ?_, harrays.symm, fun x hx => ?_⟩
  · unfold parallelLoop
    rw [forSteps_eq_runAll (fun v u p hp => hnext v _ p hp), hτ']
    rfl
  · have hx := not_mayRead_of_safe hsafe hfound hx
    rw [(hforget _ hprivate left τ').2 x hx, hscalars x hx]

end Parallel

/-! ### A loop that passes the analysis -/

/-- `for i in range(2): s = a[i]; b[i] = s`. -/
def copyLoop : Loop where
  target := "i"
  args := .pair (.const (.int 2)) .unit
  body := .assign [.name "s"] (.subscript (.name "a") (.name "i")) <|
    .assign [.subscript (.name "b") (.name "i")] (.name "s") .done

/-- The loop, and nothing after it. -/
def lastSite : Site := ⟨[], .done, .done⟩

/-- The loop, then `s += 1; c[0] = s`. -/
def updateSite : Site where
  frames := []
  before := .done
  rest := .augAssign (.name "s") .add (.const (.int 1)) <|
    .assign [.subscript (.name "c") (.const (.int 0))] (.name "s") .done

/-- Arrays `a` of two ones, `b` and `c` of zeros. -/
def copyStore : State ℤ where
  scalars _ := none
  arrays A := if A = "a" then some ⟨[2], fun _ => 1⟩
    else if A = "b" then some ⟨[2], fun _ => 0⟩
    else if A = "c" then some ⟨[1], fun _ => 0⟩ else none

theorem copyStore_named : ∀ A, (copyStore.arrays A).isSome → A ∈ ["a", "b", "c"] := by
  intro A hA
  simp only [copyStore] at hA
  split at hA
  · simp_all
  split at hA
  · simp_all
  split at hA
  · simp_all
  · cases hA

theorem copyLoop_own : OwnSlices copyLoop ["a", "b", "c"] where
  breaks := rfl
  index := by decide
  bare := by decide
  stores := by decide
  calls := by decide

theorem copyLoop_vals : rangeValues intInterp copyStore copyLoop.args = some [0, 1] := rfl

theorem parallel_safe_sound_copy : AnyOrder copyLoop lastSite ["a", "b", "c"] intInterp 0 [0, 1]
    copyStore :=
  parallel_safe_sound (by decide) copyLoop_own ⟨by decide, by decide⟩ copyStore_named copyLoop_vals
    (apart_of_nonneg (by decide))

/-- A scalar that an augmented assignment after the loop reads is taken for one that is bound
there. -/
theorem parallel_safe_misses_update :
    loopIsParallelSafe copyLoop (some updateSite) = true ∧
      updateSite.mayRead copyLoop .all "s" = true ∧
      ¬AnyOrder copyLoop updateSite ["a", "b", "c"] intInterp 0 [0, 1] copyStore := by
  refine ⟨by decide, by decide, fun h => ?_⟩
  have hrun : (forSteps (iteration intInterp 0 copyLoop) [0, 1] copyStore).map
      (fun τ => τ.scalars "s") = some (some 1) := rfl
  obtain ⟨τ, hτ, hs⟩ := map_eq_some_iff.1 hrun
  obtain ⟨τ', hτ', -, hscalars⟩ := h τ hτ [0, 1] (.refl _) (fun _ _ => none) fun _ => none
  obtain ⟨u, -, rfl⟩ := map_eq_some_iff.1 hτ'
  have hprivate : "s" ∈ privateNames copyLoop ["a", "b", "c"] none := by
    refine mem_cons_of_mem _ (mem_append_right _ ?_)
    rw [ompPrivateScalars, mem_mergeSort]
    decide
  have hnone := hscalars "s" (by decide)
  rw [hs, State.forget] at hnone
  simp [hprivate] at hnone

end Translate

end HpcAgentBench
