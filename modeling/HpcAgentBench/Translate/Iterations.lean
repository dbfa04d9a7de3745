import HpcAgentBench.Translate.Agreement

/-!
# Iterations that keep to their slice

A body that reads and writes the arrays of its loop through the loop's variable alone (`Fits`) does
the same from every two stores that agree on the iteration's slice, and leaves everything else as
it was.

## Main results

* `exec_agree` : two stores that agree still agree after the body.
* `exec_stays` : the body keeps to the iteration's slice and to its own scalars.
-/

namespace HpcAgentBench

open List Option

namespace Translate

namespace Iteration

variable {V : Type} {it : Iteration V}

/-! ### Bodies -/

/-- A body that keeps to the iteration's slice. -/
def Fits (it : Iteration V) : Block → Prop
  | .done => True
  | .assign targets e rest =>
    ((it.FitsExpr e ∧ ∀ t ∈ targets, FitsTarget it t) ∨
      (it.SliceExpr e ∧
        ∃ x, targets = [.name x] ∧ some x = it.combine.acc ∧ it.combine.value e)) ∧ Fits it rest
  | .augAssign t op e rest =>
    it.FitsExpr e ∧ ((t.id? = none ∧ FitsTarget it t) ∨
      ∃ x, t = .name x ∧ some x = it.combine.acc ∧ it.combine.op op) ∧ Fits it rest
  | .expr e rest =>
    it.FitsExpr e ∧
      (∀ func args, e = .call func args → ∀ x, .name x ∈ args.elts → x ∉ it.arrays) ∧ Fits it rest
  | .ifElse test body orelse rest => it.FitsExpr test ∧ Fits it body ∧ Fits it orelse ∧ Fits it rest
  | .forRange target args body rest =>
    it.FitsExpr args ∧ FitsTarget it (.name target) ∧ Fits it body ∧ Fits it rest
  | .whileDo test body rest => it.FitsExpr test ∧ Fits it body ∧ Fits it rest
  | .brk rest => Fits it rest

/-- The ways to update the accumulator keep its values related. -/
structure Combine.Sound (it : Iteration V) : Prop where
  index : some it.idx ≠ it.combine.acc
  value : ∀ e, it.combine.value e → it.SliceExpr e → ∀ bound σ τ, it.Agree bound σ τ →
    (∀ x ∈ loadNames e, x ∈ it.scratch → x ∈ bound) →
    Option.Rel it.combine.rel (Translate.value it.I σ e) (Translate.value it.I τ e)
  op : ∀ op, it.combine.op op → ∀ a b v, it.combine.rel a b →
    Option.Rel it.combine.rel (it.I.binary op a v) (it.I.binary op b v)

/-! ### Loops of a body -/

section Loops

variable {R : State V → State V → Prop}

/-- Outcomes that end alike, in related stores. -/
def Alike (R : State V → State V → Prop) (p q : State V × Flow) : Prop := p.2 = q.2 ∧ R p.1 q.1

variable {f : ℤ → State V → Option (State V × Flow)} {σ τ : State V} {test : State V → Option V}
variable {truth : V → Bool}

theorem forSteps_rel (h : ∀ v σ τ, R σ τ → Option.Rel (Alike R) (f v σ) (f v τ)) (vals : List ℤ)
    (hR : R σ τ) : Option.Rel R (forSteps f vals σ) (forSteps f vals τ) := by
  induction vals generalizing σ τ with
  | nil => exact .some hR
  | cons v vals ih =>
    refine rel_bind (h v σ τ hR) ?_
    rintro ⟨σ', flow⟩ ⟨τ', flow'⟩ ⟨hflow, hR'⟩
    obtain rfl : flow = flow' := hflow
    cases flow with
    | next => exact ih hR'
    | brk => exact .some hR'

theorem whileSteps_rel {f : State V → Option (State V × Flow)}
    (htest : ∀ σ τ, R σ τ → test σ = test τ) (h : ∀ σ τ, R σ τ → Option.Rel (Alike R) (f σ) (f τ))
    (fuel : ℕ) (hR : R σ τ) :
    Option.Rel R (whileSteps test truth f fuel σ) (whileSteps test truth f fuel τ) := by
  induction fuel generalizing σ τ with
  | zero => exact .none
  | succ fuel ih =>
    refine rel_bind (rel_eq_iff.2 (htest σ τ hR)) ?_
    rintro c _ rfl
    split
    · refine rel_bind (h σ τ hR) ?_
      rintro ⟨σ', flow⟩ ⟨τ', flow'⟩ ⟨hflow, hR'⟩
      obtain rfl : flow = flow' := hflow
      cases flow with
      | next => exact ih hR'
      | brk => exact .some hR'
    · exact .some hR

variable (hrefl : ∀ σ, R σ σ) (htrans : ∀ {σ τ υ}, R σ τ → R τ υ → R σ υ)

include hrefl htrans

theorem forSteps_frame (h : ∀ v σ p, f v σ = some p → R σ p.1) (vals : List ℤ)
    (hτ : forSteps f vals σ = some τ) : R σ τ := by
  induction vals generalizing σ with
  | nil =>
    obtain rfl := some.inj hτ
    exact hrefl σ
  | cons v vals ih =>
    obtain ⟨⟨σ', flow⟩, hstep, hτ⟩ := bind_eq_some_iff.1 hτ
    cases flow with
    | next => exact htrans (h v σ _ hstep) (ih hτ)
    | brk =>
      obtain rfl := some.inj hτ
      exact h v σ _ hstep

theorem whileSteps_frame {f : State V → Option (State V × Flow)} (h : ∀ σ p, f σ = some p → R σ p.1)
    (fuel : ℕ) (hτ : whileSteps test truth f fuel σ = some τ) : R σ τ := by
  induction fuel generalizing σ with
  | zero => cases hτ
  | succ fuel ih =>
    obtain ⟨c, -, hτ⟩ := bind_eq_some_iff.1 hτ
    split at hτ
    · obtain ⟨⟨σ', flow⟩, hstep, hτ⟩ := bind_eq_some_iff.1 hτ
      cases flow with
      | next => exact htrans (h σ _ hstep) (ih hτ)
      | brk =>
        obtain rfl := some.inj hτ
        exact h σ _ hstep
    · obtain rfl := some.inj hτ
      exact hrefl σ

end Loops

/-! ### Two stores that agree -/

section Agreement

variable {bound : List String} {σ τ : State V}

/-- A call that is passed no array leaves the arrays. -/
theorem passArrays_eq {I : Interp V} (f : String) (vs : List V) {args : List Expr} {k : ℕ}
    (h : ∀ x, .name x ∈ args → σ.arrays x = none) : passArrays I f vs args k σ = σ := by
  induction args generalizing k with
  | nil => rfl
  | cons arg args ih =>
    have hstep : passArray I f vs k σ arg = σ := by
      unfold passArray
      split
      · next id a hid _ =>
        have harg : arg = .name id := by
          cases arg <;> simp [Expr.id?] at hid
          rw [hid]
        rw [h id (harg ▸ mem_cons_self)]
        rfl
      · rfl
    rw [passArrays, hstep]
    exact ih fun x hx => h x (mem_cons_of_mem _ hx)

/-- The names read by an expression are bound, where the analysis found none to be read before it is
written. -/
theorem any_unbound_eq_false {names scalars bound : List String} :
    (names.any fun name => name ∈ scalars && name ∉ bound) = false ↔
      ∀ x ∈ names, x ∈ scalars → x ∈ bound := by
  simp

theorem perform_agree (h : it.Agree bound σ τ) {e : Expr} (he : it.Known bound e)
    (hcalls : ∀ func args, e = .call func args → ∀ x, .name x ∈ args.elts → x ∉ it.arrays) :
    Option.Rel (it.Agree bound) (perform it.I σ e) (perform it.I τ e) := by
  have hread := eval_agree h he
  have hother : Option.Rel (it.Agree bound) ((eval it.I σ e).map fun _ => σ)
      ((eval it.I τ e).map fun _ => τ) :=
    rel_map (rel_eq_iff.2 hread.eq) fun _ _ _ => h
  cases e with
  | call func args =>
    have hargs := eval_agree h (e := args)
      (he.mono (by simp [Expr.walkNodes]) (by simp [Expr.bareNames]))
    refine rel_bind (rel_eq_iff.2 rfl) ?_
    rintro f _ rfl
    refine rel_map (rel_eq_iff.2 (hargs.items h)) ?_
    rintro vs _ rfl
    have hnone : ∀ x, .name x ∈ args.elts → σ.arrays x = none := by
      intro x hx
      by_contra hsome
      exact hcalls func args rfl x hx (h.named x (isSome_iff_ne_none.2 hsome))
    have hnone' : ∀ x, .name x ∈ args.elts → τ.arrays x = none := by
      intro x hx
      exact isNone_iff_eq_none.1
        (isSome_eq_false_iff.1 (by rw [← h.isSome x, hnone x hx]; rfl))
    rw [passArrays_eq f vs hnone, passArrays_eq f vs hnone']
    exact h
  | _ => exact hother

theorem stores_agree {targets : List Target} (htargets : ∀ t ∈ targets, FitsTarget it t) (v : V)
    {bound : List String} {σ τ : State V} (h : it.Agree bound σ τ)
    (hknown : ∀ t ∈ targets, ∀ e ∈ t.reads, ∀ x ∈ loadNames e, x ∈ it.scratch → x ∈ bound) :
    Option.Rel (it.Agree (bound ++ targets.filterMap Target.id?))
      (targets.foldlM (fun σ t => store it.I σ v t) σ)
      (targets.foldlM (fun σ t => store it.I σ v t) τ) := by
  induction targets generalizing bound σ τ with
  | nil => exact .some (by simpa using h)
  | cons t targets ih =>
    obtain ⟨ht, htargets⟩ := forall_mem_cons.1 htargets
    obtain ⟨hfirst, hknown⟩ := forall_mem_cons.1 hknown
    rw [foldlM_cons, foldlM_cons]
    refine rel_bind (store_agree h ht hfirst v) fun σ' τ' h' => ?_
    refine rel_mono (ih htargets h' fun t' ht' e he x hx hs =>
      mem_append_left _ (hknown t' ht' e he x hx hs)) fun _ _ h'' => h''.mono ?_
    cases t <;> simp [Target.id?, filterMap_cons]

end Agreement

section Exec

variable (hsound : Combine.Sound it)

include hsound

/-- **Two stores that agree still agree after a body that keeps to the iteration's slice** and
reads no scalar of its own before it is bound. -/
theorem exec_agree (fuel : ℕ) {b : Block} (hfits : Fits it b) {bound : List String}
    (hbound : readsBeforeWrite it.scratch b bound = false) {σ τ : State V}
    (h : it.Agree bound σ τ) :
    Option.Rel (Alike (it.Agree bound)) (exec it.I fuel b σ) (exec it.I fuel b τ) := by
  induction b generalizing bound σ τ with
  | done => exact .some ⟨rfl, h⟩
  | assign targets e rest ih =>
    obtain ⟨hassign, hrest⟩ := hfits
    simp only [readsBeforeWrite, Bool.or_eq_false_iff, any_unbound_eq_false] at hbound
    obtain ⟨hreads, hbound⟩ := hbound
    have he : ∀ x ∈ loadNames e, x ∈ it.scratch → x ∈ bound := fun x hx =>
      hreads x (mem_flatMap.2 ⟨e, by simp, hx⟩)
    rcases hassign with ⟨hfits, htargets⟩ | ⟨hslices, x, rfl, hx, hvalue⟩
    · refine rel_bind (rel_eq_iff.2 (value_agree h ⟨hfits, he⟩)) ?_
      rintro v _ rfl
      refine rel_bind (stores_agree htargets v h fun t ht e he x hx =>
        hreads x (mem_flatMap.2 ⟨e, ?_, hx⟩)) fun σ' τ' h' => ?_
      · exact mem_append_left _ (mem_flatMap.2 ⟨t, ht, he⟩)
      · exact rel_mono (ih hrest hbound h') fun p q hpq =>
          ⟨hpq.1, hpq.2.mono (subset_append_left _ _)⟩
    · refine rel_bind (hsound.value e hvalue hslices bound σ τ h he) fun v w hvw => ?_
      have hidx : x ≠ it.idx := fun hxi => hsound.index (hxi ▸ hx)
      simp only [foldlM_cons, foldlM_nil, bind_pure]
      exact rel_bind (set_acc_agree h hidx hx hvw) fun σ' τ' h' =>
        rel_mono (ih hrest hbound h') fun p q hpq =>
          ⟨hpq.1, hpq.2.mono (subset_append_left _ _)⟩
  | augAssign t op e rest ih =>
    obtain ⟨hfits, ht, hrest⟩ := hfits
    simp only [readsBeforeWrite, Bool.or_eq_false_iff, any_unbound_eq_false] at hbound
    obtain ⟨hreads, hbound⟩ := hbound
    have hvalue : value it.I σ e = value it.I τ e := value_agree h
      ⟨hfits, fun x hx => hreads x (mem_flatMap.2 ⟨e, by simp, hx⟩)⟩
    have hreads : ∀ e ∈ t.reads, ∀ x ∈ loadNames e, x ∈ it.scratch → x ∈ bound := fun e he x hx =>
      hreads x (mem_flatMap.2 ⟨e, mem_append_left _ he, hx⟩)
    have hnext : ∀ σ' τ', it.Agree (bound ++ t.id?.toList) σ' τ' →
        Option.Rel (Alike (it.Agree bound)) (exec it.I fuel rest σ') (exec it.I fuel rest τ') :=
      fun σ' τ' h' => rel_mono (ih hrest hbound h') fun p q hpq =>
        ⟨hpq.1, hpq.2.mono (subset_append_left _ _)⟩
    rcases ht with ⟨hid, ht⟩ | ⟨x, rfl, hx, hop⟩
    · cases t with
      | name x => cases hid
      | subscript base s =>
        have hold : value it.I σ (.subscript base s) = value it.I τ (.subscript base s) := by
          refine value_agree h ⟨ht.1, fun x hx => ?_⟩
          rcases mem_append.1 (loadNames_subscript base s ▸ hx) with hx | hx
          · exact hreads base (by simp [Target.reads]) x hx
          · exact hreads s (by simp [Target.reads]) x hx
        refine rel_bind (rel_eq_iff.2 hold) ?_
        rintro old _ rfl
        refine rel_bind (rel_eq_iff.2 hvalue) ?_
        rintro v _ rfl
        refine rel_bind (rel_eq_iff.2 rfl) ?_
        rintro w _ rfl
        exact rel_bind (store_agree h ht hreads w) hnext
    · have hidx : x ≠ it.idx := fun hxi => hsound.index (hxi ▸ hx)
      obtain ⟨a, b, ha, hb, hab⟩ := h.acc x hx
      have hold : Option.Rel it.combine.rel (value it.I σ (.name x)) (value it.I τ (.name x)) := by
        rw [value_name ha, value_name hb]
        exact .some hab
      refine rel_bind hold fun a b hab => rel_bind (rel_eq_iff.2 hvalue) ?_
      rintro v _ rfl
      refine rel_bind (hsound.op op hop a b v hab) fun w w' hw => ?_
      exact rel_bind (set_acc_agree h hidx hx hw) hnext
  | expr e rest ih =>
    obtain ⟨hfits, hcalls, hrest⟩ := hfits
    simp only [readsBeforeWrite, Bool.or_eq_false_iff, any_unbound_eq_false] at hbound
    exact rel_bind (perform_agree h ⟨hfits, hbound.1⟩ hcalls) fun σ' τ' h' =>
      ih hrest hbound.2 h'
  | ifElse test body orelse rest ihb iho ihr =>
    obtain ⟨htest, hbody, horelse, hrest⟩ := hfits
    simp only [readsBeforeWrite, Bool.or_eq_false_iff, any_unbound_eq_false] at hbound
    obtain ⟨⟨⟨hreads, hb⟩, ho⟩, hr⟩ := hbound
    refine rel_bind (rel_eq_iff.2 (value_agree h ⟨htest, hreads⟩)) ?_
    rintro c _ rfl
    have hbranch : Option.Rel (Alike (it.Agree bound))
        (if it.I.truth c then exec it.I fuel body σ else exec it.I fuel orelse σ)
        (if it.I.truth c then exec it.I fuel body τ else exec it.I fuel orelse τ) := by
      split
      · exact ihb hbody hb h
      · exact iho horelse ho h
    refine rel_bind hbranch ?_
    rintro ⟨σ', flow⟩ ⟨τ', flow'⟩ ⟨hflow, h'⟩
    obtain rfl : flow = flow' := hflow
    cases flow with
    | next => exact ihr hrest hr h'
    | brk => exact .some ⟨rfl, h'⟩
  | forRange target args body rest ihb ihr =>
    obtain ⟨hargs, htarget, hbody, hrest⟩ := hfits
    simp only [readsBeforeWrite, Bool.or_eq_false_iff, any_unbound_eq_false] at hbound
    obtain ⟨⟨hreads, hb⟩, hr⟩ := hbound
    rw [loadNames_call] at hreads
    refine rel_bind (rel_eq_iff.2 (rangeValues_agree h
      ⟨hargs, fun x hx => hreads x (mem_append_right _ hx)⟩)) ?_
    rintro vals _ rfl
    refine rel_bind (forSteps_rel (fun v σ τ h => ?_) vals h) fun σ' τ' h' => ihr hrest hr h'
    refine rel_bind (set_agree h htarget.2.1 htarget.2.2 (it.I.ofInt v)) fun σ' τ' h' => ?_
    exact rel_mono (ihb hbody hb h') fun p q hpq =>
      ⟨hpq.1, hpq.2.mono (subset_append_left _ _)⟩
  | whileDo test body rest ihb ihr =>
    obtain ⟨htest, hbody, hrest⟩ := hfits
    simp only [readsBeforeWrite, Bool.or_eq_false_iff, any_unbound_eq_false] at hbound
    obtain ⟨⟨hreads, hb⟩, hr⟩ := hbound
    refine rel_bind (whileSteps_rel (R := it.Agree bound)
      (fun σ τ h => value_agree h ⟨htest, hreads⟩) (fun σ τ h => ihb hbody hb h) fuel h) ?_
    exact fun σ' τ' h' => ihr hrest hr h'
  | brk rest _ => exact .some ⟨rfl, h⟩

end Exec

/-! ### What a body leaves alone -/

section Frame

variable {σ τ υ : State V}
variable {v : V}

/-- A store in which the iteration can run. -/
structure Starts (it : Iteration V) (σ : State V) : Prop where
  index : σ.scalars it.idx = some (it.I.ofInt it.i)
  named : ∀ A, (σ.arrays A).isSome → A ∈ it.arrays

/-- A store after some statements of the iteration. -/
structure Stays (it : Iteration V) (σ τ : State V) : Prop where
  scalars : ∀ x, x ∉ it.scratch → some x ≠ it.combine.acc → τ.scalars x = σ.scalars x
  bound : ∀ x, (σ.scalars x).isSome → (τ.scalars x).isSome
  index : τ.scalars it.idx = σ.scalars it.idx
  others : ∀ A, A ∉ it.written → τ.arrays A = σ.arrays A
  slices : ∀ A ∈ it.written, Option.Rel
    (fun a b : Arr V => b.shape = a.shape ∧ ∀ c, ¬it.Own a.shape (it.axis A) c →
      b.cells c = a.cells c) (σ.arrays A) (τ.arrays A)

theorem Stays.refl (σ : State V) : Stays it σ σ where
  scalars _ _ _ := rfl
  bound _ h := h
  index := rfl
  others _ _ := rfl
  slices _ _ := rel_of_eq rfl fun _ => ⟨rfl, fun _ _ => rfl⟩

theorem Stays.trans (h : Stays it σ τ) (h' : Stays it τ υ) : Stays it σ υ where
  scalars x hx hacc := (h'.scalars x hx hacc).trans (h.scalars x hx hacc)
  bound x hx := h'.bound x (h.bound x hx)
  index := h'.index.trans h.index
  others A hA := (h'.others A hA).trans (h.others A hA)
  slices A hA := by
    have hfirst := h.slices A hA
    have hsecond := h'.slices A hA
    generalize σ.arrays A = a, τ.arrays A = b, υ.arrays A = c at hfirst hsecond
    cases hfirst with
    | none =>
      cases hsecond
      exact .none
    | some hfirst =>
      cases hsecond with
      | some hsecond =>
        refine .some ⟨hsecond.1.trans hfirst.1, fun d hd => ?_⟩
        rw [hsecond.2 d (hfirst.1 ▸ hd), hfirst.2 d hd]

theorem Stays.isSome (h : Stays it σ τ) (A : String) :
    (τ.arrays A).isSome = (σ.arrays A).isSome := by
  by_cases hA : A ∈ it.written
  · have hslices := h.slices A hA
    generalize σ.arrays A = a, τ.arrays A = b at hslices
    cases hslices <;> rfl
  · rw [h.others A hA]

theorem Stays.starts (h : Stays it σ τ) (hσ : Starts it σ) : Starts it τ where
  index := h.index.trans hσ.index
  named A hA := hσ.named A (h.isSome A ▸ hA)

theorem set_stays {x : String} (hx : x ∈ it.scratch ∨ some x = it.combine.acc) (hidx : x ≠ it.idx)
    (hτ : σ.set x v = some τ) : Stays it σ τ := by
  unfold State.set at hτ
  split at hτ
  · cases hτ
  · obtain rfl := some.inj hτ
    refine ⟨fun y hy hacc => ?_, fun y hy => ?_, ?_, fun _ _ => rfl, fun _ _ => rel_of_eq rfl
      fun _ => ⟨rfl, fun _ _ => rfl⟩⟩
    · refine State.setScalar_of_ne fun hyx => ?_
      rcases hx with hx | hx
      · exact hy (hyx ▸ hx)
      · exact hacc (hyx ▸ hx)
    · by_cases hyx : y = x
      · rw [hyx, State.setScalar_self]
        rfl
      · rwa [State.setScalar_of_ne hyx]
    · exact State.setScalar_of_ne hidx.symm

/-- An element of the iteration's own slice is stored. -/
theorem setItem_stays {A : String} (hA : A ∈ it.written) {index : List ℤ}
    (hindex : index[it.axis A]? = some it.i) (hτ : σ.setItem A index v = some τ) :
    Stays it σ τ := by
  obtain ⟨a, ha, hτ⟩ := bind_eq_some_iff.1 hτ
  split at hτ
  · obtain ⟨c, hc, rfl⟩ := map_eq_some_iff.1 hτ
    refine ⟨fun _ _ _ => rfl, fun _ h => h, rfl, fun B hB => ?_, fun B hB => ?_⟩
    · exact State.setArray_of_ne fun hBA => hB (hBA ▸ hA)
    · by_cases hBA : B = A
      · subst hBA
        rw [State.setArray_self, ha]
        refine .some ⟨rfl, fun d hd => Arr.set_of_ne ?_⟩
        rintro rfl
        exact hd (locate_getElem? hc hindex)
      · rw [State.setArray_of_ne hBA]
        exact rel_of_eq rfl fun _ => ⟨rfl, fun _ _ => rfl⟩
  · cases hτ

theorem store_stays {t : Target} (ht : FitsTarget it t) (hσ : Starts it σ)
    (hτ : store it.I σ v t = some τ) : Stays it σ τ := by
  cases t with
  | name x => exact set_stays (.inl ht.1) ht.2.1 hτ
  | subscript base s =>
    obtain ⟨hfits, A, hA, rfl⟩ := ht
    simp only [store] at hτ
    split at hτ
    · next B index hr =>
      obtain ⟨b, hb, hr⟩ := bind_eq_some_iff.1 hr
      obtain ⟨vs, hvs, hr⟩ := bind_eq_some_iff.1 hr
      obtain ⟨index', hindex, hr⟩ := bind_eq_some_iff.1 hr
      cases b with
      | values _ => cases hr
      | view C before =>
        obtain ⟨rfl, rfl⟩ := eval_name_view hb
        injection hr with hr
        injection hr with hB hindex'
        subst hB hindex'
        have haxis := hfits.slices _ s (by simp [Expr.walkNodes]) hA
        exact setItem_stays hA (index_getElem? hσ.index hvs hindex haxis) hτ
    · cases hτ

theorem stores_stays {targets : List Target} (ht : ∀ t ∈ targets, FitsTarget it t) {σ τ : State V}
    (hσ : Starts it σ) (hτ : targets.foldlM (fun σ t => store it.I σ v t) σ = some τ) :
    Stays it σ τ := by
  induction targets generalizing σ with
  | nil =>
    obtain rfl := some.inj hτ
    exact .refl σ
  | cons t targets ih =>
    obtain ⟨ht, htargets⟩ := forall_mem_cons.1 ht
    rw [foldlM_cons] at hτ
    obtain ⟨υ, hυ, hτ⟩ := bind_eq_some_iff.1 hτ
    have hstays := store_stays ht hσ hυ
    exact hstays.trans (ih htargets (hstays.starts hσ) hτ)

theorem perform_stays {e : Expr} (hσ : Starts it σ)
    (hcalls : ∀ func args, e = .call func args → ∀ x, .name x ∈ args.elts → x ∉ it.arrays)
    (hτ : perform it.I σ e = some τ) : Stays it σ τ := by
  have hother : ((eval it.I σ e).map fun _ => σ) = some τ → Stays it σ τ := by
    intro hτ
    obtain ⟨r, -, rfl⟩ := map_eq_some_iff.1 hτ
    exact .refl σ
  cases e with
  | call func args =>
    obtain ⟨f, -, hτ⟩ := bind_eq_some_iff.1 hτ
    obtain ⟨vs, -, rfl⟩ := map_eq_some_iff.1 hτ
    rw [passArrays_eq f vs fun x hx => ?_]
    · exact .refl σ
    · by_contra hsome
      exact hcalls func args rfl x hx (hσ.named x (isSome_iff_ne_none.2 hsome))
  | _ => exact hother hτ

/-- **A body keeps to the iteration's slice and to its own scalars.** -/
theorem exec_stays (hidx : some it.idx ≠ it.combine.acc) (fuel : ℕ) {b : Block}
    (hfits : Fits it b) {σ : State V} (hσ : Starts it σ) {p : State V × Flow}
    (hp : exec it.I fuel b σ = some p) : Stays it σ p.1 := by
  induction b generalizing σ p with
  | done =>
    obtain rfl := some.inj hp
    exact .refl σ
  | assign targets e rest ih =>
    obtain ⟨hassign, hrest⟩ := hfits
    obtain ⟨v, -, hp⟩ := bind_eq_some_iff.1 hp
    obtain ⟨υ, hυ, hp⟩ := bind_eq_some_iff.1 hp
    have hstays : Stays it σ υ := by
      rcases hassign with ⟨-, htargets⟩ | ⟨-, x, rfl, hx, -⟩
      · exact stores_stays htargets hσ hυ
      · simp only [foldlM_cons, foldlM_nil, bind_pure] at hυ
        exact set_stays (.inr hx) (fun hxi => hidx (hxi ▸ hx)) hυ
    exact hstays.trans (ih hrest (hstays.starts hσ) hp)
  | augAssign t op e rest ih =>
    obtain ⟨-, ht, hrest⟩ := hfits
    obtain ⟨old, -, hp⟩ := bind_eq_some_iff.1 hp
    obtain ⟨v, -, hp⟩ := bind_eq_some_iff.1 hp
    obtain ⟨w, -, hp⟩ := bind_eq_some_iff.1 hp
    obtain ⟨υ, hυ, hp⟩ := bind_eq_some_iff.1 hp
    have hstays : Stays it σ υ := by
      rcases ht with ⟨-, ht⟩ | ⟨x, rfl, hx, -⟩
      · exact store_stays ht hσ hυ
      · exact set_stays (.inr hx) (fun hxi => hidx (hxi ▸ hx)) hυ
    exact hstays.trans (ih hrest (hstays.starts hσ) hp)
  | expr e rest ih =>
    obtain ⟨-, hcalls, hrest⟩ := hfits
    obtain ⟨υ, hυ, hp⟩ := bind_eq_some_iff.1 hp
    have hstays := perform_stays hσ hcalls hυ
    exact hstays.trans (ih hrest (hstays.starts hσ) hp)
  | ifElse test body orelse rest ihb iho ihr =>
    obtain ⟨-, hbody, horelse, hrest⟩ := hfits
    obtain ⟨c, -, hp⟩ := bind_eq_some_iff.1 hp
    obtain ⟨⟨υ, flow⟩, hυ, hp⟩ := bind_eq_some_iff.1 hp
    have hstays : Stays it σ υ := by
      split at hυ
      · exact ihb hbody hσ hυ
      · exact iho horelse hσ hυ
    cases flow with
    | next => exact hstays.trans (ihr hrest (hstays.starts hσ) hp)
    | brk =>
      obtain rfl := some.inj hp
      exact hstays
  | forRange target args body rest ihb ihr =>
    obtain ⟨-, htarget, hbody, hrest⟩ := hfits
    obtain ⟨vals, -, hp⟩ := bind_eq_some_iff.1 hp
    obtain ⟨υ, hυ, hp⟩ := bind_eq_some_iff.1 hp
    have hstays : Starts it σ → Stays it σ υ :=
      forSteps_frame (R := fun σ τ => Starts it σ → Stays it σ τ) (fun σ _ => .refl σ)
        (fun h h' hσ => (h hσ).trans (h' ((h hσ).starts hσ)))
        (fun v σ p hp hσ => by
          obtain ⟨υ, hυ, hp⟩ := bind_eq_some_iff.1 hp
          have hset : Stays it σ υ := set_stays (.inl htarget.1) htarget.2.1 hυ
          exact hset.trans (ihb hbody (hset.starts hσ) hp)) vals hυ
    exact (hstays hσ).trans (ihr hrest ((hstays hσ).starts hσ) hp)
  | whileDo test body rest ihb ihr =>
    obtain ⟨-, hbody, hrest⟩ := hfits
    obtain ⟨υ, hυ, hp⟩ := bind_eq_some_iff.1 hp
    have hstays : Starts it σ → Stays it σ υ :=
      whileSteps_frame (R := fun σ τ => Starts it σ → Stays it σ τ) (fun σ _ => .refl σ)
        (fun h h' hσ => (h hσ).trans (h' ((h hσ).starts hσ)))
        (fun σ p hp hσ => ihb hbody hσ hp) fuel hυ
    exact (hstays hσ).trans (ihr hrest ((hstays hσ).starts hσ) hp)
  | brk rest _ =>
    obtain rfl := some.inj hp
    exact .refl σ

end Frame

end Iteration

end Translate

end HpcAgentBench
