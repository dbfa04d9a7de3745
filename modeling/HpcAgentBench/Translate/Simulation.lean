import HpcAgentBench.Translate.Parallelism

/-!
# Simulation

What one needs to know to compare the runs of two bodies: an expression reads the names it holds
(`eval_same`), and a loop of one body is followed by a loop of the other if each iteration is
(`forSteps_sim`, `whileSteps_sim`).
-/

namespace HpcAgentBench

open List Option

namespace Translate

/-- The names an expression can be a part of. -/
def Expr.bases : Expr → List String
  | .name id => [id]
  | .subscript value _ => value.bases
  | .ifExp _ body orelse => body.bases ++ orelse.bases
  | _ => []

/-- The names a target may store into. -/
def Target.bases : Target → List String
  | .name id => [id]
  | .subscript value _ => value.bases

/-! ### Stores that agree on some names -/

section Same

variable {V : Type} {I : Interp V} {σ τ : State V}
variable {e : Expr} {r : Reads V}

/-- Two stores that agree on some names. -/
def SameOn (names : List String) (σ τ : State V) : Prop :=
  ∀ x ∈ names, σ.scalars x = τ.scalars x ∧ σ.arrays x = τ.arrays x

theorem SameOn.mono {names names' : List String} (h : SameOn names σ τ) (hsub : names' ⊆ names) :
    SameOn names' σ τ := fun x hx => h x (hsub hx)

/-- A view is of an array the expression can be a part of. -/
theorem mem_bases {A : String} {index : List ℤ} (h : eval I σ e = some (.view A index)) :
    A ∈ e.bases := by
  induction e generalizing index with
  | name id =>
    simp only [eval] at h
    split at h
    · cases h
    · obtain ⟨a, -, ha⟩ := map_eq_some_iff.1 h
      injection ha with hA
      exact mem_singleton.2 hA.symm
  | subscript value slice ih _ =>
    obtain ⟨base, hbase, h⟩ := bind_eq_some_iff.1 h
    obtain ⟨vs, -, h⟩ := bind_eq_some_iff.1 h
    obtain ⟨ix, -, h⟩ := bind_eq_some_iff.1 h
    cases base with
    | values vs => cases h
    | view A' before =>
      obtain ⟨rfl, -⟩ : A' = A ∧ before ++ ix = index := by simpa using h
      exact ih hbase
  | ifExp test body orelse _ ihb iho =>
    obtain ⟨c, -, h⟩ := bind_eq_some_iff.1 h
    split at h
    · exact mem_append_left _ (ihb h)
    · exact mem_append_right _ (iho h)
  | unaryOp op operand =>
    obtain ⟨v, -, h⟩ := bind_eq_some_iff.1 h
    obtain ⟨w, -, h⟩ := map_eq_some_iff.1 h
    cases h
  | binOp op left right =>
    obtain ⟨a, -, h⟩ := bind_eq_some_iff.1 h
    obtain ⟨b, -, h⟩ := bind_eq_some_iff.1 h
    obtain ⟨w, -, h⟩ := map_eq_some_iff.1 h
    cases h
  | boolOp conj left right =>
    obtain ⟨a, -, h⟩ := bind_eq_some_iff.1 h
    split at h
    · obtain ⟨b, -, h⟩ := map_eq_some_iff.1 h
      cases h
    · cases h
  | call func args =>
    obtain ⟨f, -, h⟩ := bind_eq_some_iff.1 h
    obtain ⟨vs, -, h⟩ := bind_eq_some_iff.1 h
    obtain ⟨w, -, h⟩ := map_eq_some_iff.1 h
    cases h
  | pair head tail =>
    obtain ⟨v, -, h⟩ := bind_eq_some_iff.1 h
    obtain ⟨vs, -, h⟩ := map_eq_some_iff.1 h
    cases h
  | _ => cases h

theorem bases_subset (e : Expr) : e.bases ⊆ loadNames e := by
  induction e with
  | name id => exact List.Subset.refl _
  | subscript value slice ih _ =>
    rw [loadNames_subscript]
    exact fun A hA => mem_append_left _ (ih hA)
  | ifExp test body orelse _ ihb iho =>
    intro A hA
    simp only [loadNames, Expr.walkNodes, filterMap_append, filterMap_cons, Expr.id?,
      mem_append]
    rcases mem_append.1 hA with hA | hA
    · exact .inl (.inr (ihb hA))
    · exact .inr (iho hA)
  | _ => exact nil_subset _

theorem SameOn.sub {e' : Expr} (h : SameOn (loadNames e) σ τ) (hsub : e'.walkNodes ⊆ e.walkNodes) :
    SameOn (loadNames e') σ τ := h.mono (filterMap_subset _ hsub)

theorem force_same (h : ∀ A index, r = .view A index → σ.arrays A = τ.arrays A) :
    force I σ r = force I τ r := by
  cases r with
  | values vs => cases vs with
    | nil => rfl
    | cons v vs => cases vs <;> rfl
  | view A index => simp only [force, State.part, h A index rfl]

theorem items_same (h : ∀ A index, r = .view A index → σ.arrays A = τ.arrays A) :
    items I σ r = items I τ r := by
  cases r with
  | values vs => rfl
  | view A index => simp only [items, force_same h]

theorem view_same (h : SameOn (loadNames e) σ τ) (hr : eval I σ e = some r) (A : String)
    (index : List ℤ) (hA : r = .view A index) :
    σ.arrays A = τ.arrays A := by
  subst hA
  exact (h A (bases_subset e (mem_bases hr))).2

theorem forced_same (h : SameOn (loadNames e) σ τ) (he : eval I σ e = eval I τ e) :
    (eval I σ e).bind (force I σ) = (eval I τ e).bind (force I τ) := by
  rw [← he]
  exact bind_congr fun r hr => force_same (view_same h hr)

theorem items_same' (h : SameOn (loadNames e) σ τ) (he : eval I σ e = eval I τ e) :
    (eval I σ e).bind (items I σ) = (eval I τ e).bind (items I τ) := by
  rw [← he]
  exact bind_congr fun r hr => items_same (view_same h hr)

/-- An expression reads alike in stores that agree on its names. -/
theorem eval_same (h : SameOn (loadNames e) σ τ) : eval I σ e = eval I τ e := by
  induction e with
  | name id =>
    obtain ⟨hscalar, harray⟩ := h id (by simp [loadNames, Expr.walkNodes, Expr.id?])
    simp only [eval, hscalar, harray]
  | unaryOp op operand ih =>
    have hoperand : SameOn (loadNames operand) σ τ := h.sub (by simp [Expr.walkNodes])
    simp only [eval, forced_same hoperand (ih hoperand)]
  | binOp op left right ihl ihr | boolOp conj left right ihl ihr =>
    have hleft : SameOn (loadNames left) σ τ := h.sub (by simp [Expr.walkNodes])
    have hright : SameOn (loadNames right) σ τ := h.sub (by simp [Expr.walkNodes])
    simp only [eval, forced_same hleft (ihl hleft), forced_same hright (ihr hright)]
  | ifExp test body orelse iht ihb iho =>
    have htest : SameOn (loadNames test) σ τ := h.sub (fun n hn => by simp [Expr.walkNodes, hn])
    have hbody : SameOn (loadNames body) σ τ := h.sub (fun n hn => by simp [Expr.walkNodes, hn])
    have horelse : SameOn (loadNames orelse) σ τ := h.sub (fun n hn => by simp [Expr.walkNodes, hn])
    simp only [eval, forced_same htest (iht htest), ihb hbody, iho horelse]
  | call func args _ ih =>
    have hargs : SameOn (loadNames args) σ τ := h.sub (by simp [Expr.walkNodes])
    simp only [eval, items_same' hargs (ih hargs)]
  | subscript value slice ihv ihs =>
    have hvalue : SameOn (loadNames value) σ τ := h.sub (by simp [Expr.walkNodes])
    have hslice : SameOn (loadNames slice) σ τ := h.sub (by simp [Expr.walkNodes])
    simp only [eval, ihv hvalue, items_same' hslice (ihs hslice)]
  | pair head tail ihh iht =>
    have hhead : SameOn (loadNames head) σ τ := h.sub (by simp [Expr.walkNodes])
    have htail : SameOn (loadNames tail) σ τ := h.sub (by simp [Expr.walkNodes])
    simp only [eval, forced_same hhead (ihh hhead), items_same' htail (iht htail)]
  | _ => rfl

theorem value_same (h : SameOn (loadNames e) σ τ) : value I σ e = value I τ e :=
  forced_same h (eval_same h)

theorem force_arrays (harrays : σ.arrays = τ.arrays) (r : Reads V) : force I σ r = force I τ r :=
  force_same fun A _ _ => congrFun harrays A

theorem items_arrays (harrays : σ.arrays = τ.arrays) (r : Reads V) : items I σ r = items I τ r :=
  items_same fun A _ _ => congrFun harrays A

theorem items_of_force {v : V} (hv : force I σ r = some v) :
    items I σ r = some [v] := by
  cases r with
  | values vs =>
    match vs, hv with
    | [w], hv => exact congrArg (fun w => some [w]) (some.inj hv)
  | view A index => rw [items, hv, map_some]

end Same

/-! ### Loops -/

section Loops

variable {V W : Type} {R B : State V → State W → Prop}
variable {σ σ' : State V} {τ : State W}

/-- What holds of two runs where they end: one relation at the end of the list, another at a
`break`. -/
def Ends (R B : State V → State W → Prop) (flow : Flow) : State V → State W → Prop :=
  match flow with
  | .next => R
  | .brk => B

theorem forSteps_sim {f : ℤ → State V → Option (State V × Flow)}
    {g : ℤ → State W → Option (State W × Flow)}
    (hstep : ∀ v σ τ σ' flow, R σ τ → f v σ = some (σ', flow) →
      ∃ τ', g v τ = some (τ', flow) ∧ Ends R B flow σ' τ') (vals : List ℤ) (hR : R σ τ)
    (hrun : forSteps f vals σ = some σ') :
    ∃ τ', forSteps g vals τ = some τ' ∧ (R σ' τ' ∨ B σ' τ') := by
  induction vals generalizing σ τ with
  | nil =>
    obtain rfl := some.inj hrun
    exact ⟨τ, rfl, .inl hR⟩
  | cons v vals ih =>
    obtain ⟨⟨υ, flow⟩, hυ, hrun⟩ := bind_eq_some_iff.1 hrun
    obtain ⟨τ', hτ', hends⟩ := hstep v σ τ υ flow hR hυ
    cases flow with
    | next =>
      obtain ⟨τ'', hτ'', hend⟩ := ih hends hrun
      exact ⟨τ'', by rw [forSteps, hτ', bind_some, hτ''], hend⟩
    | brk =>
      obtain rfl := some.inj hrun
      exact ⟨τ', by rw [forSteps, hτ', bind_some], .inr hends⟩

theorem whileSteps_sim {test : State V → Option V} {test' : State W → Option W} {truth : V → Bool}
    {truth' : W → Bool} {f : State V → Option (State V × Flow)}
    {g : State W → Option (State W × Flow)}
    (htest : ∀ σ τ c, R σ τ → test σ = some c → ∃ c', test' τ = some c' ∧ truth' c' = truth c)
    (hstep : ∀ σ τ σ' flow, R σ τ → f σ = some (σ', flow) →
      ∃ τ', g τ = some (τ', flow) ∧ Ends R B flow σ' τ') (fuel : ℕ) (hR : R σ τ)
    (hrun : whileSteps test truth f fuel σ = some σ') :
    ∃ τ', whileSteps test' truth' g fuel τ = some τ' ∧ (R σ' τ' ∨ B σ' τ') := by
  induction fuel generalizing σ τ with
  | zero => cases hrun
  | succ fuel ih =>
    obtain ⟨c, hc, hrun⟩ := bind_eq_some_iff.1 hrun
    obtain ⟨c', hc', htruth⟩ := htest σ τ c hR hc
    simp only [whileSteps, hc', bind_some, htruth]
    split at hrun
    · next hcond =>
      obtain ⟨⟨υ, flow⟩, hυ, hrun⟩ := bind_eq_some_iff.1 hrun
      obtain ⟨τ', hτ', hends⟩ := hstep σ τ υ flow hR hυ
      rw [if_pos hcond, hτ', bind_some]
      cases flow with
      | next => exact ih hends hrun
      | brk =>
        obtain rfl := some.inj hrun
        exact ⟨τ', rfl, .inr hends⟩
    · next hcond =>
      rw [if_neg hcond]
      obtain rfl := some.inj hrun
      exact ⟨τ, rfl, .inl hR⟩

end Loops

end Translate

end HpcAgentBench
