import HpcAgentBench.Lib.Independent
import HpcAgentBench.Translate.Parallelism

/-!
# What an iteration depends on

An iteration of a loop reads its own slice of the arrays the loop writes, the other arrays, the
scalars nobody binds, and the scalars it has bound itself (`Agree`).  One scalar may be an
accumulator, whose values are related instead of equal.

## Main results

* `eval_agree` : what an expression reads is the same in two stores that agree.
* `store_agree` : two stores that agree still agree after one store.
-/

namespace HpcAgentBench

open List Option

namespace Translate

/-- The names an expression reads other than as the array of a subscript. -/
def Expr.bareNames : Expr → List String
  | .const _ => []
  | .name id => [id]
  | .attr _ _ => []
  | .unaryOp _ operand => operand.bareNames
  | .binOp _ left right => left.bareNames ++ right.bareNames
  | .boolOp _ left right => left.bareNames ++ right.bareNames
  | .ifExp test body orelse => test.bareNames ++ body.bareNames ++ orelse.bareNames
  | .call _ args => args.bareNames
  | .subscript value index =>
    (match value with
      | .name _ => []
      | _ => value.bareNames) ++ index.bareNames
  | .slice lower upper step => lower.bareNames ++ upper.bareNames ++ step.bareNames
  | .unit => []
  | .pair head tail => head.bareNames ++ tail.bareNames

/-- The scalar combined, how its values are related, and the expressions and operators that may
update it. -/
structure Combine (V : Type) where
  acc : Option String
  rel : V → V → Prop
  /-- A value it may be assigned. -/
  value : Expr → Prop
  /-- An operator it may be updated by. -/
  op : Operator → Prop

/-- An iteration of a loop: the loop's variable and its value, the names of arrays, the arrays the
loop writes and the axis of each that the variable indexes, and the scalars the body binds. -/
structure Iteration (V : Type) where
  I : Interp V
  idx : String
  i : ℤ
  arrays : List String
  written : List String
  axis : String → ℕ
  scratch : List String
  combine : Combine V

variable {V : Type} (it : Iteration V)

namespace Iteration

/-- An element of the iteration's own slice. -/
def Own (shape : List ℕ) (axis : ℕ) (place : List ℕ) : Prop :=
  ∃ n j, shape[axis]? = some n ∧ wrapIndex n it.i = some j ∧ place[axis]? = some j

/-- The accumulator is bound in two stores, to related values. -/
def AccRel (σ τ : State V) : Prop :=
  ∀ x, some x = it.combine.acc →
    ∃ a b, σ.scalars x = some a ∧ τ.scalars x = some b ∧ it.combine.rel a b

/-- Two stores that agree on what the iteration may read, the scalars of `bound` included. -/
structure Agree (bound : List String) (σ τ : State V) : Prop where
  scalars : ∀ x, (x ∈ it.scratch → x ∈ bound) → some x ≠ it.combine.acc →
    σ.scalars x = τ.scalars x
  acc : it.AccRel σ τ
  index : σ.scalars it.idx = some (it.I.ofInt it.i) ∧ τ.scalars it.idx = some (it.I.ofInt it.i)
  named : ∀ A, (σ.arrays A).isSome → A ∈ it.arrays
  others : ∀ A, A ∉ it.written → σ.arrays A = τ.arrays A
  slices : ∀ A ∈ it.written, Option.Rel
    (fun a b : Arr V => a.shape = b.shape ∧ ∀ c, it.Own a.shape (it.axis A) c →
      a.cells c = b.cells c) (σ.arrays A) (τ.arrays A)

/-- An expression that reads its own slice of a written array, through a subscript. -/
structure SliceExpr (e : Expr) : Prop where
  slices : ∀ A s, .subscript (.name A) s ∈ e.walkNodes → A ∈ it.written →
    (indexExprs s)[it.axis A]? = some (.name it.idx)
  bare : ∀ A ∈ e.bareNames, A ∉ it.written

/-- An expression that does not read the accumulator. -/
def FreeExpr (e : Expr) : Prop := ∀ x ∈ loadNames e, some x ≠ it.combine.acc

/-- An expression that reads its own slices, and not the accumulator. -/
structure FitsExpr (e : Expr) : Prop extends it.SliceExpr e where
  acc : it.FreeExpr e

/-- An expression whose scalars are bound, or not bound by the body at all. -/
structure Known (bound : List String) (e : Expr) : Prop extends it.FitsExpr e where
  names : ∀ x ∈ loadNames e, x ∈ it.scratch → x ∈ bound

variable {it}
variable {e e' : Expr} {bound : List String}

theorem SliceExpr.mono (h : it.SliceExpr e) (hnodes : e'.walkNodes ⊆ e.walkNodes)
    (hbare : e'.bareNames ⊆ e.bareNames) : it.SliceExpr e' where
  slices A s hs := h.slices A s (hnodes hs)
  bare A hA := h.bare A (hbare hA)

theorem FreeExpr.mono (h : it.FreeExpr e) (hnodes : e'.walkNodes ⊆ e.walkNodes) :
    it.FreeExpr e' := fun x hx => h x (filterMap_subset _ hnodes hx)

theorem Known.mono (h : it.Known bound e) (hnodes : e'.walkNodes ⊆ e.walkNodes)
    (hbare : e'.bareNames ⊆ e.bareNames) :
    it.Known bound e' where
  toSliceExpr := h.toSliceExpr.mono hnodes hbare
  acc := h.acc.mono hnodes
  names x hx := h.names x (filterMap_subset _ hnodes hx)

theorem Known.known_name (h : it.Known bound e) {x : String} (hx : .name x ∈ e.walkNodes) :
    (x ∈ it.scratch → x ∈ bound) ∧ some x ≠ it.combine.acc := by
  have hload : x ∈ loadNames e := mem_filterMap.2 ⟨_, hx, rfl⟩
  exact ⟨h.names x hload, h.acc x hload⟩

theorem Agree.mono {bound' : List String} {σ τ : State V} (h : it.Agree bound σ τ)
    (hsubset : bound' ⊆ bound) : it.Agree bound' σ τ where
  scalars x hx := h.scalars x fun hs => hsubset (hx hs)
  acc := h.acc
  index := h.index
  named := h.named
  others := h.others
  slices := h.slices

/-! ### Expressions -/

section Eval

variable {bound : List String} {σ τ : State V}
variable {index : List ℤ} {k : ℕ} {A : String} {r : Reads V} {α : Type} {e : Expr} {x : String}

/-- A view of the iteration's own slice, or of an array the loop does not write. -/
def OwnView (it : Iteration V) : Reads V → Prop
  | .values _ => True
  | .view A index => A ∈ it.written → index[it.axis A]? = some it.i

theorem locate_getElem? {shape : List ℕ} {place : List ℕ} (h : locate shape index = some place)
    {i : ℤ} (hk : index[k]? = some i) :
    ∃ n j, shape[k]? = some n ∧ wrapIndex n i = some j ∧ place[k]? = some j := by
  induction index generalizing shape place k with
  | nil => cases hk
  | cons i' index ih =>
    cases shape with
    | nil => cases h
    | cons n shape =>
      obtain ⟨j, hj, h⟩ := bind_eq_some_iff.1 h
      obtain ⟨rest, hrest, rfl⟩ := map_eq_some_iff.1 h
      cases k with
      | zero =>
        obtain rfl : i' = i := by simpa using hk
        exact ⟨n, j, rfl, hj, rfl⟩
      | succ k =>
        obtain ⟨m, j', hm, hj', hc⟩ := ih hrest (by simpa using hk)
        exact ⟨m, j', by simpa using hm, hj', by simpa using hc⟩

/-- An own view reads the same part of both stores. -/
theorem part_agree (h : it.Agree bound σ τ) {A : String} {index : List ℤ}
    (hown : A ∈ it.written → index[it.axis A]? = some it.i) : σ.part A index = τ.part A index := by
  unfold State.part
  by_cases hA : A ∈ it.written
  · have hslices := h.slices A hA
    cases ha : σ.arrays A with
    | none =>
      rw [ha] at hslices
      cases hb : τ.arrays A with
      | none => rfl
      | some b => rw [hb] at hslices; cases hslices
    | some a =>
      rw [ha] at hslices
      cases hb : τ.arrays A with
      | none => rw [hb] at hslices; cases hslices
      | some b =>
        rw [hb] at hslices
        obtain ⟨hshape, hcells⟩ := rel_some_some.1 hslices
        rw [bind_some, bind_some, ← hshape]
        refine map_congr fun at_ hat => ?_
        refine congrArg (Arr.mk _) (funext fun rest => hcells _ ?_)
        obtain ⟨n, j, hn, hj, hc⟩ := locate_getElem? hat (hown hA)
        refine ⟨n, j, hn, hj, ?_⟩
        rw [getElem?_append_left (List.getElem?_eq_some_iff.1 hc).1]
        exact hc
  · rw [h.others A hA]

theorem force_agree (h : it.Agree bound σ τ) (hr : OwnView it r) :
    force it.I σ r = force it.I τ r := by
  cases r with
  | values vs => cases vs with
    | nil => rfl
    | cons v vs => cases vs <;> rfl
  | view A index => simp only [force, part_agree h hr]

theorem items_agree (h : it.Agree bound σ τ) (hr : OwnView it r) :
    items it.I σ r = items it.I τ r := by
  cases r with
  | values vs => rfl
  | view A index => simp only [items, force_agree h hr]

/-- A read, if there is one, is of an own view. -/
def OwnRead (it : Iteration V) (x : Option (Reads V)) : Prop := ∀ r, x = some r → OwnView it r

theorem OwnRead.values (vs : List V) : OwnRead it (some (.values vs)) := by
  rintro r ⟨⟩
  trivial

theorem OwnRead.map (x : Option α) (f : α → List V) :
    OwnRead it (x.map fun a => .values (f a)) := by
  cases x with
  | none => rintro r ⟨⟩
  | some a => exact .values _

theorem OwnRead.bind (x : Option α) {f : α → Option (Reads V)}
    (h : ∀ a, x = some a → OwnRead it (f a)) : OwnRead it (x.bind f) := by
  cases x with
  | none => rintro r ⟨⟩
  | some a => exact h a rfl

/-- An expression read alike from both stores. -/
structure ReadAlike (it : Iteration V) (σ τ : State V) (e : Expr) : Prop where
  eq : eval it.I σ e = eval it.I τ e
  own : OwnRead it (eval it.I σ e)

theorem ReadAlike.force (he : ReadAlike it σ τ e) (h : it.Agree bound σ τ) :
    (eval it.I σ e).bind (force it.I σ) = (eval it.I τ e).bind (force it.I τ) := by
  rw [← he.eq]
  exact bind_congr fun r hr => force_agree h (he.own r hr)

theorem ReadAlike.items (he : ReadAlike it σ τ e) (h : it.Agree bound σ τ) :
    (eval it.I σ e).bind (items it.I σ) = (eval it.I τ e).bind (items it.I τ) := by
  rw [← he.eq]
  exact bind_congr fun r hr => items_agree h (he.own r hr)

/-- Where the loop's variable stands alone in an index, the index is the iteration's. -/
theorem items_index (h : σ.scalars it.idx = some (it.I.ofInt it.i)) {s : Expr} {vs : List V}
    (hvs : (eval it.I σ s).bind (items it.I σ) = some vs) {k : ℕ}
    (hk : s.elts[k]? = some (.name it.idx)) : vs[k]? = some (it.I.ofInt it.i) := by
  induction s generalizing vs k with
  | pair head tail _ ih =>
    obtain ⟨r, hr, hvs⟩ := bind_eq_some_iff.1 hvs
    obtain ⟨v, hv, hr⟩ := bind_eq_some_iff.1 hr
    obtain ⟨rest, hrest, rfl⟩ := map_eq_some_iff.1 hr
    obtain rfl := some.inj hvs
    cases k with
    | zero =>
      obtain rfl : head = .name it.idx := by simpa [Expr.elts] using hk
      simp only [eval, h, bind_some, force] at hv
      rw [← some.inj hv]
      rfl
    | succ k => exact ih hrest (by simpa [Expr.elts] using hk)
  | name id =>
    obtain ⟨rfl, rfl⟩ : k = 0 ∧ id = it.idx := by
      cases k with
      | zero => exact ⟨rfl, by simpa [Expr.elts] using hk⟩
      | succ k => simp [Expr.elts] at hk
    simp only [eval, h, bind_some, items] at hvs
    rw [← some.inj hvs]
    rfl
  | unit => simp [Expr.elts] at hk
  | _ =>
    exfalso
    cases k with
    | zero | succ k => simp [Expr.elts] at hk

theorem mapM_getElem? {β : Type} {f : α → Option β} {l : List α} {bs : List β}
    (h : l.mapM f = some bs) {a : α} (hk : l[k]? = some a) : ∃ b, f a = some b ∧
      bs[k]? = some b := by
  induction l generalizing bs k with
  | nil => cases hk
  | cons x l ih =>
    rw [mapM_cons] at h
    obtain ⟨b, hb, h⟩ := bind_eq_some_iff.1 h
    obtain ⟨bs', hbs, h⟩ := bind_eq_some_iff.1 h
    obtain rfl := some.inj h
    cases k with
    | zero =>
      obtain rfl : x = a := by simpa using hk
      exact ⟨b, hb, rfl⟩
    | succ k =>
      obtain ⟨b', hb', hk'⟩ := ih hbs (by simpa using hk)
      exact ⟨b', hb', by simpa using hk'⟩

/-- The values a tuple index is read as. -/
theorem index_getElem? (h : σ.scalars it.idx = some (it.I.ofInt it.i)) {s : Expr} {vs : List V}
    (hvs : (eval it.I σ s).bind (items it.I σ) = some vs) (hindex : vs.mapM it.I.int = some index)
    (hk : s.elts[k]? = some (.name it.idx)) :
    index[k]? = some it.i := by
  obtain ⟨i, hi, hk⟩ := mapM_getElem? hindex (items_index h hvs hk)
  rw [it.I.int_ofInt] at hi
  rwa [some.inj hi]

/-- A name is bound to the same scalar in both stores, or to an array in both. -/
theorem eval_name_agree (h : it.Agree bound σ τ)
    (hx : (x ∈ it.scratch → x ∈ bound) ∧ some x ≠ it.combine.acc) :
    eval it.I σ (.name x) = eval it.I τ (.name x) := by
  simp only [eval, h.scalars x hx.1 hx.2]
  cases τ.scalars x with
  | some v => rfl
  | none =>
    by_cases hA : x ∈ it.written
    · exact rel_eq_iff.1 (rel_map (h.slices x hA) fun _ _ _ => rfl)
    · rw [h.others x hA]

theorem eval_name_view (hr : eval it.I σ (.name x) = some (.view A index)) :
    A = x ∧ index = [] := by
  simp only [eval] at hr
  split at hr
  · cases hr
  · obtain ⟨a, -, ha⟩ := map_eq_some_iff.1 hr
    injection ha with hA hindex
    exact ⟨hA.symm, hindex.symm⟩

/-- **What an expression reads is the same in both stores.** -/
theorem eval_agree (h : it.Agree bound σ τ) (he : it.Known bound e) :
    ReadAlike it σ τ e := by
  induction e with
  | const v => exact ⟨rfl, .values _⟩
  | name x =>
    refine ⟨eval_name_agree h (he.known_name (by simp [Expr.walkNodes])), ?_⟩
    intro r hr
    cases r with
    | values vs => trivial
    | view A index =>
      obtain ⟨rfl, rfl⟩ := eval_name_view hr
      exact fun hA => absurd hA (he.bare A (by simp [Expr.bareNames]))
  | attr value a => exact ⟨rfl, by rintro r ⟨⟩⟩
  | unaryOp op operand ih =>
    have hoperand := ih (he.mono (by simp [Expr.walkNodes]) (by simp [Expr.bareNames]))
    refine ⟨?_, ?_⟩
    · simp only [eval, hoperand.force h]
    · exact .bind _ fun v _ => .map _ _
  | binOp op left right ihl ihr =>
    have hleft := ihl (he.mono (by simp [Expr.walkNodes]) (by simp [Expr.bareNames]))
    have hright := ihr (he.mono (by simp [Expr.walkNodes]) (by simp [Expr.bareNames]))
    refine ⟨?_, ?_⟩
    · simp only [eval, hleft.force h, hright.force h]
    · exact .bind _ fun a _ => .bind _ fun b _ => .map _ _
  | boolOp conj left right ihl ihr =>
    have hleft := ihl (he.mono (by simp [Expr.walkNodes]) (by simp [Expr.bareNames]))
    have hright := ihr (he.mono (by simp [Expr.walkNodes]) (by simp [Expr.bareNames]))
    refine ⟨?_, ?_⟩
    · simp only [eval, hleft.force h, hright.force h]
    · refine .bind _ fun a _ => ?_
      split
      · exact .map _ _
      · exact .values _
  | ifExp test body orelse iht ihb iho =>
    have htest := iht (he.mono (by simp [Expr.walkNodes]) (by simp [Expr.bareNames]))
    have hbody := ihb
      (he.mono (fun n hn => by simp [Expr.walkNodes, hn]) (fun n hn => by simp [Expr.bareNames, hn]))
    have horelse := iho
      (he.mono (fun n hn => by simp [Expr.walkNodes, hn]) (fun n hn => by simp [Expr.bareNames, hn]))
    refine ⟨?_, ?_⟩
    · simp only [eval, htest.force h, hbody.eq, horelse.eq]
    · refine .bind _ fun c _ => ?_
      split
      · exact hbody.own
      · exact horelse.own
  | call func args _ ih =>
    have hargs := ih (he.mono (by simp [Expr.walkNodes]) (by simp [Expr.bareNames]))
    refine ⟨?_, ?_⟩
    · simp only [eval, hargs.items h]
    · exact .bind _ fun f _ => .bind _ fun vs _ => .map _ _
  | subscript value s ihv ihs =>
    have hs := ihs (he.mono (by simp [Expr.walkNodes]) (by simp [Expr.bareNames]))
    -- The array of a subscript need not be the iteration's own; its slice is.
    have hbase : eval it.I σ value = eval it.I τ value ∧ ∀ A before (index : List ℤ),
        eval it.I σ value = some (.view A before) → A ∈ it.written →
        (∀ k : ℕ, s.elts[k]? = some (Expr.name it.idx) → index[k]? = some it.i) →
        (before ++ index)[it.axis A]? = some it.i := by
      cases value with
      | name x =>
        refine ⟨eval_name_agree h (he.known_name (by simp [Expr.walkNodes])), ?_⟩
        intro A before index hr hA hindex
        obtain ⟨rfl, rfl⟩ := eval_name_view hr
        exact hindex _ (he.slices A s (by simp [Expr.walkNodes]) hA)
      | _ =>
        have hvalue := ihv (he.mono
          (fun n hn => mem_cons_of_mem _ (mem_append_left _ hn))
          (fun n hn => mem_append_left _ hn))
        refine ⟨hvalue.eq, fun A before index hr hA _ => ?_⟩
        have hbefore := hvalue.own _ hr hA
        rw [getElem?_append_left (List.getElem?_eq_some_iff.1 hbefore).1]
        exact hbefore
    refine ⟨?_, ?_⟩
    · simp only [eval, hbase.1, hs.items h]
    · refine .bind _ fun base hbase' => .bind _ fun vs hvs => .bind _ fun index hindex => ?_
      cases base with
      | values vs => rintro r ⟨⟩
      | view A before =>
        rintro r ⟨⟩
        exact fun hA => hbase.2 A before index hbase' hA fun k hk =>
          index_getElem? h.index.1 hvs hindex hk
  | slice lower upper step => exact ⟨rfl, by rintro r ⟨⟩⟩
  | unit => exact ⟨rfl, .values _⟩
  | pair head tail ihh iht =>
    have hhead := ihh (he.mono (by simp [Expr.walkNodes]) (by simp [Expr.bareNames]))
    have htail := iht (he.mono (by simp [Expr.walkNodes]) (by simp [Expr.bareNames]))
    refine ⟨?_, ?_⟩
    · simp only [eval, hhead.force h, htail.items h]
    · exact .bind _ fun v _ => .map _ _

theorem value_agree (h : it.Agree bound σ τ) (he : it.Known bound e) :
    value it.I σ e = value it.I τ e := (eval_agree h he).force h

theorem rangeValues_agree (h : it.Agree bound σ τ) {args : Expr} (he : it.Known bound args) :
    rangeValues it.I σ args = rangeValues it.I τ args := by
  unfold rangeValues tuple
  rw [(eval_agree h he).items h]

end Eval

/-! ### Stores -/

section Store

variable {bound : List String} {σ τ : State V}
variable {x A : String}

/-- A place the iteration may store to: a scalar of its own, or an element of its own slice. -/
def FitsTarget (it : Iteration V) : Target → Prop
  | .name x => x ∈ it.scratch ∧ x ≠ it.idx ∧ some x ≠ it.combine.acc
  | .subscript base s => it.FitsExpr (.subscript base s) ∧ ∃ A ∈ it.written, base = .name A

theorem Agree.isSome (h : it.Agree bound σ τ) (A : String) :
    (σ.arrays A).isSome = (τ.arrays A).isSome := by
  by_cases hA : A ∈ it.written
  · have hslices := h.slices A hA
    generalize σ.arrays A = a, τ.arrays A = b at hslices
    cases hslices <;> rfl
  · rw [h.others A hA]

/-- A scalar of its own is bound. -/
theorem set_agree (h : it.Agree bound σ τ) (hx : x ≠ it.idx) (hacc : some x ≠ it.combine.acc)
    (v : V) :
    Option.Rel (it.Agree (bound ++ [x])) (σ.set x v) (τ.set x v) := by
  unfold State.set
  rw [h.isSome x]
  split
  · exact .none
  · refine .some ⟨fun y hy hyacc => ?_, fun y hy => ?_, ⟨?_, ?_⟩, h.named, h.others, h.slices⟩
    · by_cases hyx : y = x
      · rw [hyx, State.setScalar_self, State.setScalar_self]
      · rw [State.setScalar_of_ne hyx, State.setScalar_of_ne hyx]
        refine h.scalars y (fun hs => ?_) hyacc
        rcases mem_append.1 (hy hs) with hy | hy
        · exact hy
        · exact absurd (mem_singleton.1 hy) hyx
    · have hyx : y ≠ x := fun hyx => hacc (hyx ▸ hy)
      rw [State.setScalar_of_ne hyx, State.setScalar_of_ne hyx]
      exact h.acc y hy
    · rw [State.setScalar_of_ne hx.symm]
      exact h.index.1
    · rw [State.setScalar_of_ne hx.symm]
      exact h.index.2

/-- The accumulator is updated. -/
theorem set_acc_agree (h : it.Agree bound σ τ) (hx : x ≠ it.idx) (hacc : some x = it.combine.acc)
    {v w : V} (hvw : it.combine.rel v w) :
    Option.Rel (it.Agree (bound ++ [x])) (σ.set x v) (τ.set x w) := by
  unfold State.set
  rw [h.isSome x]
  split
  · exact .none
  · refine .some ⟨fun y hy hyacc => ?_, fun y hy => ?_, ⟨?_, ?_⟩, h.named, h.others, h.slices⟩
    · have hyx : y ≠ x := fun hyx => hyacc (hyx ▸ hacc)
      rw [State.setScalar_of_ne hyx, State.setScalar_of_ne hyx]
      refine h.scalars y (fun hs => ?_) hyacc
      rcases mem_append.1 (hy hs) with hy | hy
      · exact hy
      · exact absurd (mem_singleton.1 hy) hyx
    · obtain rfl : y = x := some.inj (hy.trans hacc.symm)
      exact ⟨v, w, State.setScalar_self, State.setScalar_self, hvw⟩
    · rw [State.setScalar_of_ne hx.symm]
      exact h.index.1
    · rw [State.setScalar_of_ne hx.symm]
      exact h.index.2

/-- An element of its own slice is stored. -/
theorem setItem_agree (h : it.Agree bound σ τ) (hA : A ∈ it.written) {index : List ℤ} (v : V) :
    Option.Rel (it.Agree bound) (σ.setItem A index v) (τ.setItem A index v) := by
  unfold State.setItem
  have hslices := h.slices A hA
  cases ha : σ.arrays A with
  | none =>
    cases hb : τ.arrays A with
    | none => exact .none
    | some b => rw [ha, hb] at hslices; cases hslices
  | some a =>
    cases hb : τ.arrays A with
    | none => rw [ha, hb] at hslices; cases hslices
    | some b =>
      rw [ha, hb] at hslices
      obtain ⟨hshape, hcells⟩ := rel_some_some.1 hslices
      rw [bind_some, bind_some, ← hshape]
      split
      · refine rel_map (rel_of_eq rfl fun _ => rfl) ?_
        rintro c c' (rfl : c = c')
        refine ⟨h.scalars, h.acc, h.index, fun B hB => ?_, fun B hB => ?_, fun B hB => ?_⟩
        · by_cases hBA : B = A
          · exact hBA ▸ h.named A (by rw [ha]; rfl)
          · rw [State.setArray_of_ne hBA] at hB
            exact h.named B hB
        · have hBA : B ≠ A := fun hBA => hB (hBA ▸ hA)
          rw [State.setArray_of_ne hBA, State.setArray_of_ne hBA]
          exact h.others B hB
        · by_cases hBA : B = A
          · subst hBA
            rw [State.setArray_self, State.setArray_self]
            refine .some ⟨hshape, fun d hd => ?_⟩
            by_cases hdc : d = c
            · rw [hdc, Arr.set_self, Arr.set_self]
            · rw [Arr.set_of_ne hdc, Arr.set_of_ne hdc]
              exact hcells d hd
          · rw [State.setArray_of_ne hBA, State.setArray_of_ne hBA]
            exact h.slices B hB
      · exact .none

/-- The array and the index of a place stored to. -/
theorem target_view {base s : Expr} (hbase : base = .name A) {r : Reads V}
    (hr : eval it.I σ (.subscript base s) = some r) : ∃ index, r = .view A index := by
  subst hbase
  obtain ⟨b, hb, hr⟩ := bind_eq_some_iff.1 hr
  obtain ⟨vs, -, hr⟩ := bind_eq_some_iff.1 hr
  obtain ⟨index, -, hr⟩ := bind_eq_some_iff.1 hr
  cases b with
  | values _ => cases hr
  | view B before =>
    obtain ⟨rfl, rfl⟩ := eval_name_view hb
    exact ⟨index, (some.inj hr).symm⟩

theorem store_agree (h : it.Agree bound σ τ) {t : Target} (ht : FitsTarget it t)
    (hknown : ∀ e ∈ t.reads, ∀ x ∈ loadNames e, x ∈ it.scratch → x ∈ bound) (v : V) :
    Option.Rel (it.Agree (bound ++ t.id?.toList)) (store it.I σ v t) (store it.I τ v t) := by
  cases t with
  | name x => exact set_agree h ht.2.1 ht.2.2 v
  | subscript base s =>
    obtain ⟨hfits, A, hA, hbase⟩ := ht
    have hread : ReadAlike it σ τ (.subscript base s) := by
      refine eval_agree h ⟨hfits, fun x hx => ?_⟩
      rcases mem_append.1 (loadNames_subscript base s ▸ hx) with hx | hx
      · exact hknown base (by simp [Target.reads]) x hx
      · exact hknown s (by simp [Target.reads]) x hx
    simp only [store, ← hread.eq]
    cases hr : eval it.I σ (.subscript base s) with
    | none => exact .none
    | some r =>
      obtain ⟨index, rfl⟩ := target_view hbase hr
      refine rel_mono (setItem_agree h hA v) fun _ _ hσ => ?_
      rwa [Target.id?, toList_none, append_nil]

end Store

end Iteration

end Translate

end HpcAgentBench
