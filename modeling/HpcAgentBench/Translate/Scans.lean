import HpcAgentBench.Lib.AlongAxis
import HpcAgentBench.Lib.BasicIndex
import HpcAgentBench.Translate.CallArgs
import HpcAgentBench.Translate.Sorting

/-!
# Prefix scans

The loops for `cumsum`, `cumprod` and the running maximum and minimum: along one axis the target is
seeded with the first element and carried on, under a nest over the other axes.  An element is a
number or not a number (`none`).

## Main results

* `leaves_scan` : the nest leaves the running values at the shifted places of the target.
* `scan_lowering` : when that is what numpy defines.
-/

namespace HpcAgentBench

open List

namespace Translate

namespace Scans

open SparseEmit (add sub mul one subscript place rangeCall)

/-! ### The lowering -/

/-- What a scan carries on. -/
inductive ScanKind
  | sum
  | prod
  | maximum
  | minimum

/-- `prev if prev cmp cur else cur`. -/
def runningExtremeCombine (cmp : String) (prev cur : Expr) : Expr :=
  .ifExp (SparseEmit.compare cmp prev cur) prev cur

/-- The next running value, from the last one and the element. -/
def ScanKind.combine : ScanKind → Expr → Expr → Expr
  | .sum => add
  | .prod => mul
  | .maximum => runningExtremeCombine ">="
  | .minimum => runningExtremeCombine "<="

/-- The lower bound of a target's slice, where it is not left out or 0. -/
def sliceStart : Expr → Except String (Option Expr)
  | .slice lower _ _ =>
    if lower = .const .none ∨ lower = .const (.int 0) then .ok none else .ok (some lower)
  | _ => .error "cumulative scan: non-slice index in target"

/-- The base name of a target and what is added to the index of each axis. -/
def scanTargetOffsets (target : Target) (ndim : ℕ) : Except String (String × List (Option Expr)) :=
  match target with
  | .name id => .ok (id, replicate ndim none)
  | .subscript (.name base) slc =>
    if slc.elts.length ≠ ndim then .error "cumulative scan: slice-target rank mismatch"
    else
      match slc.elts.mapM sliceStart with
      | .error text => .error text
      | .ok starts => .ok (base, starts)
  | .subscript _ _ => .error "cumulative scan: unsupported target"

/-- The axis of a scan. -/
def scanAxis (axes : Option (List ℤ)) (rank : ℕ) : Except String ℕ :=
  match axes with
  | none => if rank ≠ 1 then .error "cumulative scan over >1-D needs an explicit axis" else .ok 0
  | some [] => .error "list index out of range"
  | some (axis :: _) =>
    if rank = 0 then .error "integer modulo by zero" else .ok (axis % rank).toNat

/-- The variable of an axis. -/
def scanVar (i : ℕ) : String := "__cs" ++ toString i

/-- The axes that are not scanned. -/
def outerAxes (n axis : ℕ) : List ℕ := (List.range n).filter (· ≠ axis)

/-- An index of the operand. -/
def scanIndex (n axis : ℕ) (e : Expr) : List Expr :=
  (List.range n).map fun i => if i = axis then e else .name (scanVar i)

def addOff (e : Expr) : Option Expr → Expr
  | none => e
  | some off => add e off

/-- An index of the target. -/
def targetIndex (n axis : ℕ) (starts : List (Option Expr)) (e : Expr) : List Expr :=
  (List.range n).map fun i =>
    addOff (if i = axis then e else .name (scanVar i)) (starts.getD i none)

section Expand

variable (constOrName : String → Expr)

/-- The seed and the recurrence along the axis. -/
def scanLine (combine : Expr → Expr → Expr) (base a : String) (shape : List String) (axis : ℕ)
    (starts : List (Option Expr)) : Block :=
  let n := shape.length
  let sc := scanVar axis
  .assign [place base (targetIndex n axis starts (.const (.int 0)))]
    (subscript a (scanIndex n axis (.const (.int 0))))
  (.forRange sc (rangeCall (some one) (constOrName (shape.getD axis "")))
    (.assign [place base (targetIndex n axis starts (.name sc))]
      (combine (subscript base (targetIndex n axis starts (sub (.name sc) one)))
        (subscript a (scanIndex n axis (.name sc)))) .done) .done)

/-- The scan under the loops over the other axes. -/
def scanNest (combine : Expr → Expr → Expr) (base a : String) (shape : List String) (axis : ℕ)
    (starts : List (Option Expr)) : Block :=
  let outer := outerAxes shape.length axis
  wrapForLoops ((outer.map scanVar).zip (outer.map fun i => constOrName (shape.getD i "")))
    (scanLine constOrName combine base a shape axis starts)

/-- The prefix scan that the four calls share. -/
def expandCumulative (combine : Expr → Expr → Expr) (target : Target) (args : List Expr)
    (kwargs : List CallKeyword) (shapes : ShapeTable) : Except String Block :=
  match args.head?.bind Expr.id? with
  | none => .error "cumulative scan needs a bare-Name array"
  | some a =>
    match shapes a with
    | none => .error "cumulative scan: operand shape unknown"
    | some shape =>
      match readAxisKeepdims args.tail kwargs with
      | .error text => .error text
      | .ok (axes, _) =>
        match scanAxis axes shape.length with
        | .error text => .error text
        | .ok axis =>
          match scanTargetOffsets target shape.length with
          | .error text => .error text
          | .ok (base, starts) => .ok (scanNest constOrName combine base a shape axis starts)

/-- `np.cumsum`. -/
def expandCumsum := expandCumulative constOrName (ScanKind.combine .sum)

/-- `np.cumprod`. -/
def expandCumprod := expandCumulative constOrName (ScanKind.combine .prod)

/-- `np.maximum.accumulate`. -/
def expandCummax := expandCumulative constOrName (ScanKind.combine .maximum)

/-- `np.minimum.accumulate`. -/
def expandCummin := expandCumulative constOrName (ScanKind.combine .minimum)

/-- The expander of a call. -/
def expandScan : ScanKind → Target → List Expr → List CallKeyword → ShapeTable →
    Except String Block
  | .sum => expandCumsum constOrName
  | .prod => expandCumprod constOrName
  | .maximum => expandCummax constOrName
  | .minimum => expandCummin constOrName

/-- A scan into a part of the target; `none` where it does not apply or is refused. -/
def expandSliceTargetCall (kind : ScanKind) (target : Target) (args : List Expr)
    (kwargs : List CallKeyword) (shapes : ShapeTable) : Option Block :=
  match target, kind with
  | .subscript (.name _) _, .sum => (expandCumsum constOrName target args kwargs shapes).toOption
  | .subscript (.name _) _, .prod => (expandCumprod constOrName target args kwargs shapes).toOption
  | _, _ => none

end Expand

/-! ### Elements that may not be numbers -/

section Elements

variable {K : Type}
variable {f : K → K → K} {line : ℕ → Option K} {k n : ℕ}

/-- An operation on numbers; it is not a number where one of them is not. -/
def lift (f : K → K → K) (x y : Option K) : Option K := x.bind fun a => y.map (f a)

section Kinds

variable [Add K] [Mul K] [LinearOrder K]

/-- `y <= x`, which no comparison with what is not a number says. -/
def atLeast : Option K → Option K → Bool
  | some a, some b => b ≤ a
  | _, _ => false

/-- What the combined expression computes. -/
def ScanKind.lowered : ScanKind → Option K → Option K → Option K
  | .sum, x, y => lift (· + ·) x y
  | .prod, x, y => lift (· * ·) x y
  | .maximum, x, y => if atLeast x y then x else y
  | .minimum, x, y => if atLeast y x then x else y

/-- The operation numpy accumulates. -/
def ScanKind.ufunc : ScanKind → Option K → Option K → Option K
  | .sum => lift (· + ·)
  | .prod => lift (· * ·)
  | .maximum => lift max
  | .minimum => lift min

end Kinds

/-- On a line of `n` elements, after one that is not a number there is no number. -/
def StaysNaN (line : ℕ → Option K) (n : ℕ) : Prop :=
  ∀ i j, i < j → j < n → line i = none → line j = none

/-- What a running value of a scan needs of its line. -/
def ScanKind.Keeps (kind : ScanKind) (line : ℕ → Option K) (n : ℕ) : Prop :=
  match kind with
  | .sum | .prod => True
  | .maximum | .minimum => StaysNaN line n

theorem lift_eq_none {x y : Option K} :
    lift f x y = none ↔ x = none ∨ y = none := by
  cases x <;> cases y <;> simp [lift]

/-- After one that is not a number the running value is none. -/
theorem running_lift_none {i : ℕ} (hik : i ≤ k) (hi : line i = none) :
    running (lift f) line k = none := by
  induction k with
  | zero =>
    obtain rfl : i = 0 := by omega
    exact hi
  | succ k ih =>
    rw [running, lift_eq_none]
    rcases Nat.eq_or_lt_of_le hik with rfl | hlt
    · exact .inr hi
    · exact .inl (ih (by omega))

/-- The running value is a number as long as the elements are. -/
theorem exists_of_running_none (h : running (lift f) line k = none) : ∃ i ≤ k, line i = none := by
  induction k with
  | zero => exact ⟨0, le_rfl, h⟩
  | succ k ih =>
    rw [running, lift_eq_none] at h
    rcases h with h | h
    · obtain ⟨i, hi, hnone⟩ := ih h
      exact ⟨i, by omega, hnone⟩
    · exact ⟨k + 1, le_rfl, h⟩

/-- An extreme of two that are numbers or both not is the lowered one. -/
theorem extreme_eq_iff {op : Option K → Option K → Option K}
    (hnum : ∀ a b, op (some a) (some b) = some (f a b)) (hnan : ∀ y, op none y = y)
    (hlast : ∀ x, op x none = none) :
    (∀ k < n, running op line k = running (lift f) line k) ↔ StaysNaN line n := by
  constructor
  · intro h i j hij hj hi
    by_contra hne
    obtain ⟨k, rfl⟩ : ∃ k, j = k + 1 := ⟨j - 1, by omega⟩
    have hnone := h (k + 1) hj
    rw [running_lift_none hij.le hi, running] at hnone
    cases hx : running op line k with
    | none => exact hne (by rw [hx, hnan] at hnone; exact hnone)
    | some a =>
      cases hy : line (k + 1) with
      | none => exact hne hy
      | some b =>
        rw [hx, hy, hnum] at hnone
        cases hnone
  · intro h k
    induction k with
    | zero => exact fun _ => rfl
    | succ k ih =>
      intro hk
      rw [running, running, ih (by omega)]
      cases hx : running (lift f) line k with
      | none =>
        obtain ⟨i, hi, hnone⟩ := exists_of_running_none hx
        rw [hnan, h i (k + 1) (by omega) hk hnone]
        rfl
      | some a =>
        cases hy : line (k + 1) with
        | none =>
          rw [hlast]
          rfl
        | some b =>
          rw [hnum]
          rfl

/-- **A lowered scan computes numpy's running values** just where what is not a number stays so. -/
theorem running_lowered_iff [Add K] [Mul K] [LinearOrder K] (kind : ScanKind) :
    (∀ k < n, running kind.lowered line k = running kind.ufunc line k) ↔ kind.Keeps line n := by
  cases kind with
  | sum | prod => exact iff_of_true (fun _ _ => rfl) trivial
  | maximum =>
    refine extreme_eq_iff (fun a b => ?_) (fun y => rfl) fun x => by cases x <;> rfl
    by_cases hab : b ≤ a
    · simp [ScanKind.lowered, atLeast, hab]
    · simp [ScanKind.lowered, atLeast, hab, (not_le.1 hab).le]
  | minimum =>
    refine extreme_eq_iff (fun a b => ?_) (fun y => ?_) fun x => by cases x <;> rfl
    · by_cases hab : a ≤ b
      · simp [ScanKind.lowered, atLeast, hab]
      · simp [ScanKind.lowered, atLeast, hab, (not_le.1 hab).le]
    · cases y <;> rfl

end Elements

/-! ### Indices -/

variable {n axis i k : ℕ} {jx : List ℕ} {e : Expr} {starts : List (Option Expr)} {lo : List ℕ}

theorem length_outerAxes (h : axis < n) : (outerAxes n axis).length = n - 1 := by
  rw [outerAxes, filter_range_ne h, length_eraseIdx_of_lt (by rwa [length_range]),
    length_range]

theorem outerAxes_map {α : Type} (l : List α) (d : α) (h : axis < l.length) :
    (outerAxes l.length axis).map (l.getD · d) = l.eraseIdx axis := by
  rw [outerAxes, filter_range_ne h, ← eraseIdx_map, map_getD_range]

theorem scanVar_injective {j : ℕ} (h : scanVar i = scanVar j) : i = j :=
  toString_injective ((String.append_right_inj _).1 h)

theorem nodup_outerVars (n axis : ℕ) : ((outerAxes n axis).map scanVar).Nodup :=
  (nodup_range.filter _).map fun _ _ => scanVar_injective

/-- The names a scan makes. -/
def scanTemps (n : ℕ) : List String := (List.range n).map scanVar

theorem scanVar_mem (h : i < n) : scanVar i ∈ scanTemps n :=
  mem_map.2 ⟨i, mem_range.2 h, rfl⟩

theorem outerVars_mem {x : String} (hx : x ∈ (outerAxes n axis).map scanVar) :
    x ∈ scanTemps n ∧ x ≠ scanVar axis := by
  obtain ⟨i, hi, rfl⟩ := mem_map.1 hx
  obtain ⟨hrange, hne⟩ := mem_filter.1 hi
  exact ⟨scanVar_mem (mem_range.1 hrange), fun h => by
    simp only [ne_eq, decide_not, Bool.not_eq_true', decide_eq_false_iff_not] at hne
    exact hne (scanVar_injective h)⟩

variable {V E : Type} {I : Interp V} {num : ℤ → V} {elt : E → V} {fuel : ℕ} {σ τ : State V}

/-- The index of the operand at a place of the nest. -/
theorem reads_scanIndex (haxis : axis < n) (hjx : AtIndex I τ ((outerAxes n axis).map scanVar) jx)
    (he : ReadsInt I τ e k) :
    Forall₂ (fun e (i : ℕ) => ReadsInt I τ e i) (scanIndex n axis e)
      (jx.insertIdx axis k) := by
  have hiters := readsInt_iters hjx
  rw [scanIndex, map_range_insertIdx (fun i => .name (scanVar i)) e haxis,
    ← filter_range_ne haxis]
  rw [map_map] at hiters
  exact forall₂_insert_pair hiters axis he

/-- A place of the operand moved on by the starts of the target. -/
def shifted (lo ix : List ℕ) : List ℕ := zipWith (· + ·) ix lo

/-- The starts of a target's axes, each read as a number. -/
def StartsRead (num : ℤ → V) (I : Interp V) (τ : State V) (starts : List (Option Expr))
    (lo : List ℕ) : Prop :=
  Forall₂ (fun s (l : ℕ) => match s with
    | none => l = 0
    | some e => ReadsNum num I τ e l) starts lo

theorem targetIndex_eq (h : starts.length = n) (e : Expr) :
    targetIndex n axis starts e = zipWith addOff (scanIndex n axis e) starts := by
  have hstarts : starts = (List.range n).map (starts.getD · none) := by
    rw [← h, map_getD_range]
  conv_rhs => rw [hstarts, scanIndex]
  rw [zipWith_map_left, zipWith_map_right, zipWith_self, targetIndex]

/-- The index of the target there. -/
theorem reads_targetIndex (hI : NodeArith I num) (haxis : axis < n)
    (hlo : StartsRead num I τ starts lo) (hn : starts.length = n)
    (hjx : AtIndex I τ ((outerAxes n axis).map scanVar) jx) (he : ReadsInt I τ e k) :
    Forall₂ (fun e (i : ℕ) => ReadsInt I τ e i) (targetIndex n axis starts e)
      (shifted lo (jx.insertIdx axis k)) := by
  have hindex := reads_scanIndex haxis hjx he
  rw [targetIndex_eq hn, shifted]
  clear hjx he hn
  generalize scanIndex n axis e = es at hindex
  generalize jx.insertIdx axis k = ix at hindex
  induction hlo generalizing es ix with
  | nil =>
    rw [zipWith_nil_right, zipWith_nil_right]
    exact .nil
  | @cons s l starts lo hs _ ih =>
    obtain _ | @⟨e, i, es, ix, he, hes⟩ := hindex
    · exact .nil
    refine .cons ?_ (ih _ _ hes)
    cases s with
    | none =>
      obtain rfl : l = 0 := hs
      exact he
    | some off =>
      refine hI.readsInt.1 ?_
      rw [Nat.cast_add]
      exact readsNum_binOp (hI.readsInt.2 he) hs (hI.add _ _)

/-! ### The scanned part of a target -/

/-- The running value at a place. -/
def runningAt (op : E → E → E) (f : List ℕ → E) (axis : ℕ) (ix : List ℕ) : E :=
  running op (fun j => f ((ix.eraseIdx axis).insertIdx axis j)) (ix.getD axis 0)

/-- The operand and the target of a scan. -/
structure ScanSetup (I : Interp V) (num : ℤ → V) (elt : E → V) (σ : State V)
    (constOrName : String → Expr) (source base : String) (shape : List String)
    (dim : String → ℕ) (axis : ℕ) (starts : List (Option Expr)) (lo size : List ℕ)
    (f : List ℕ → E) (g : List ℕ → V) : Prop where
  arith : NodeArith I num
  operand : Has elt σ source (shape.map dim) f
  target : Has id σ base size g
  inPlace : source = base → ∀ ix ∈ box (shape.map dim), shifted lo ix = ix
  axisIn : axis < shape.length
  rank : starts.length = shape.length
  offsets : ∀ τ, Framed (scanTemps shape.length) [base] σ τ → StartsRead num I τ starts lo
  fits : ∀ ix ∈ box (shape.map dim), shifted lo ix ∈ box size
  extents : ∀ τ, Framed (scanTemps shape.length) [base] σ τ →
    TokenExtents I τ constOrName dim shape
  fresh : ∀ x ∈ scanTemps shape.length, σ.arrays x = none

/-- The target where the places with `D` have their running values and all others what they had. -/
def Scanned (elt : E → V) (base : String) (dims lo size : List ℕ) (g : List ℕ → V)
    (R : List ℕ → E) (D : List ℕ → Prop) (τ : State V) : Prop :=
  ∃ h, Has id τ base size h ∧ (∀ ix ∈ box dims, D ix → h (shifted lo ix) = elt (R ix)) ∧
    (∀ ix ∈ box dims, ¬ D ix → h (shifted lo ix) = g (shifted lo ix)) ∧
    ∀ c, (∀ ix ∈ box dims, c ≠ shifted lo ix) → h c = g c

theorem shifted_injective {ix ix' : List ℕ} (hix : ix.length = lo.length)
    (hix' : ix'.length = lo.length) (h : shifted lo ix = shifted lo ix') : ix = ix' := by
  induction lo generalizing ix ix' with
  | nil => rw [length_eq_zero_iff.1 hix, length_eq_zero_iff.1 hix']
  | cons l lo ih =>
    match ix, ix', hix, hix' with
    | i :: ix, i' :: ix', hix, hix' =>
      rw [shifted, shifted, zipWith_cons_cons, zipWith_cons_cons, List.cons.injEq] at h
      rw [ih (Nat.succ.inj hix) (Nat.succ.inj hix') h.2, Nat.add_right_cancel h.1]

namespace Scanned

variable {base : String} {dims lo size : List ℕ} {g : List ℕ → V} {R : List ℕ → E}
variable {D D' : List ℕ → Prop}
variable {es : List Expr} {ix : List ℕ}

theorem congr (h : Scanned elt base dims lo size g R D τ)
    (hD : ∀ ix ∈ box dims, D ix ↔ D' ix) : Scanned elt base dims lo size g R D' τ := by
  obtain ⟨c, hc, hdone, hrest, hother⟩ := h
  exact ⟨c, hc, fun ix hix hD' => hdone ix hix ((hD ix hix).2 hD'),
    fun ix hix hD' => hrest ix hix (mt (hD ix hix).1 hD'), hother⟩

theorem setScalar (h : Scanned elt base dims lo size g R D τ) {x : String}
    (hx : τ.arrays x = none) (v : V) :
    Scanned elt base dims lo size g R D (τ.setScalar x v) := by
  obtain ⟨c, hc, hrest⟩ := h
  exact ⟨c, hc.setScalar hx v, hrest⟩

/-- One more place with its running value. -/
theorem store (h : Scanned elt base dims lo size g R D τ) (hlo : lo.length = dims.length)
    (hix : ix ∈ box dims) (hfits : shifted lo ix ∈ box size)
    (hes : Forall₂ (fun e (i : ℕ) => ReadsInt I τ e i) es (shifted lo ix)) {e : Expr}
    (he : value I τ e = some (elt (R ix))) {Q : State V → Prop} {rest : Block}
    (hrest : ∀ a, Scanned elt base dims lo size g R (fun ix' => D ix' ∨ ix' = ix)
      (τ.setArray base a) → Leaves I fuel rest (τ.setArray base a) Q) :
    Leaves I fuel (.assign [place base es] e rest) τ Q := by
  obtain ⟨c, hc, hdone, hkept, hother⟩ := h
  refine Leaves.storeElem hc (shifted lo ix) hes hfits he fun a ha => hrest a ?_
  have hne : ∀ ix' ∈ box dims, ix' ≠ ix → shifted lo ix' ≠ shifted lo ix := fun ix' hix' hne heq =>
    hne (shifted_injective ((length_of_mem_box hix').trans hlo.symm)
      ((length_of_mem_box hix).trans hlo.symm) heq)
  refine ⟨_, ha, fun ix' hix' hD => ?_, fun ix' hix' hD => ?_, fun c' hc' => ?_⟩
  · by_cases heq : ix' = ix
    · rw [heq, Function.update_self]
    · rw [Function.update_of_ne (hne ix' hix' heq)]
      exact hdone ix' hix' (hD.resolve_right heq)
  · obtain ⟨hnot, heq⟩ := not_or.1 hD
    rw [Function.update_of_ne (hne ix' hix' heq)]
    exact hkept ix' hix' hnot
  · rw [Function.update_of_ne (hc' ix hix)]
    exact hother c' hc'

/-- A place that has its running value. -/
theorem value_done (h : Scanned elt base dims lo size g R D τ) (hix : ix ∈ box dims)
    (hfits : shifted lo ix ∈ box size)
    (hes : Forall₂ (fun e (i : ℕ) => ReadsInt I τ e i) es (shifted lo ix)) (hD : D ix) :
    value I τ (subscript base es) = some (elt (R ix)) := by
  obtain ⟨c, hc, hdone, -⟩ := h
  rw [← hdone ix hix hD]
  exact hc.value _ hes hfits

end Scanned

section Nest

variable {constOrName : String → Expr} {source base : String} {shape : List String}
variable {dim : String → ℕ} {axis : ℕ} {starts : List (Option Expr)} {lo size : List ℕ}
variable {f : List ℕ → E} {g : List ℕ → V} {op : E → E → E} {D : List ℕ → Prop}
variable {combine : Expr → Expr → Expr}

namespace ScanSetup

variable (h : ScanSetup I num elt σ constOrName source base shape dim axis starts lo size f g)
include h

theorem lengthLo : lo.length = (shape.map dim).length := by
  have hself : Framed (scanTemps shape.length) [base] σ σ := .refl fun x hx => ⟨h.fresh x hx, by
    simpa using (h.target.ne_of_none (h.fresh x hx)).symm⟩
  rw [length_map, ← h.rank, (h.offsets σ hself).length_eq]

/-- The operand is read as it was, also where it is the target and the place is not yet written. -/
theorem value_source (hτ : Framed (scanTemps shape.length) [base] σ τ) {R : List ℕ → E}
    (hscan : Scanned elt base (shape.map dim) lo size g R D τ) {es : List Expr} {ix : List ℕ}
    (hix : ix ∈ box (shape.map dim))
    (hes : Forall₂ (fun e (i : ℕ) => ReadsInt I τ e i) es ix) (hD : ¬ D ix) :
    value I τ (subscript source es) = some (elt (f ix)) := by
  by_cases heq : source = base
  · subst heq
    obtain ⟨c, hc, -, hkept, -⟩ := hscan
    have hshift := h.inPlace rfl ix hix
    have hcell := hkept ix hix hD
    obtain ⟨-, a, ha, hshape, hcells⟩ := h.operand
    obtain ⟨-, b, hb, hshape', hcells'⟩ := h.target
    obtain rfl := Option.some.inj (ha.symm.trans hb)
    have hsize : ix ∈ box size := hshape' ▸ hshape.symm ▸ hix
    rw [← hcells ix hix, hcells' ix hsize, id, ← hshift, ← hcell, hshift]
    exact hc.value ix hes hsize
  · exact (h.operand.keep (by simpa using heq) hτ).value ix hes hix

end ScanSetup

/-- What the combined expression of two elements computes. -/
def Combines (I : Interp V) (elt : E → V) (combine : Expr → Expr → Expr) (op : E → E → E) : Prop :=
  ∀ τ p c x y, value I τ p = some (elt x) → value I τ c = some (elt y) →
    value I τ (combine p c) = some (elt (op x y))

/-- **One line of a scan.** -/
theorem leaves_scanLine
    (h : ScanSetup I num elt σ constOrName source base shape dim axis starts lo size f g)
    (hop : Combines I elt combine op) (hτ : Framed (scanTemps shape.length) [base] σ τ)
    {jx : List ℕ} (hjx : jx ∈ box ((shape.map dim).eraseIdx axis))
    (hat : AtIndex I τ ((outerAxes shape.length axis).map scanVar) jx)
    (hpos : 0 < (shape.map dim).getD axis 0)
    (hscan : Scanned elt base (shape.map dim) lo size g (runningAt op f axis) D τ)
    (hnew : ∀ ix, ix.eraseIdx axis = jx → ¬ D ix) :
    Leaves I fuel (scanLine constOrName combine base source shape axis starts) τ fun υ =>
      Framed (scanTemps shape.length) [base] σ υ ∧
      Scanned elt base (shape.map dim) lo size g (runningAt op f axis)
        (fun ix => D ix ∨ ix.eraseIdx axis = jx) υ ∧
      ∀ x ∈ (outerAxes shape.length axis).map scanVar, υ.scalars x = τ.scalars x := by
  have hI := h.arith
  have haxis := h.axisIn
  have hlen := length_of_mem_box hjx
  have haxis' : axis < (shape.map dim).length := by rwa [length_map]
  have hinsert : ∀ k, (jx.insertIdx axis k).eraseIdx axis = jx := fun k =>
    eraseIdx_insertIdx_self ..
  have hle : axis ≤ jx.length := by
    rw [hlen, length_eraseIdx_of_lt haxis']
    omega
  have hgetD : ∀ k, (jx.insertIdx axis k).getD axis 0 = k := fun k => getD_insertIdx hle
  have hbox : ∀ k < (shape.map dim).getD axis 0, jx.insertIdx axis k ∈ box (shape.map dim) :=
    fun k hk => mem_box.2 (forall₂_insertIdx haxis' hk (mem_box.1 hjx))
  -- A place of the line is told by its position on the axis.
  have hline : ∀ ix ∈ box (shape.map dim), ∀ k, ix.eraseIdx axis = jx → ix.getD axis 0 = k →
      ix = jx.insertIdx axis k := by
    rintro ix hix k rfl rfl
    rw [insertIdx_eraseIdx_getD (by rw [length_of_mem_box hix, length_map]; exact haxis)]
  have hvar := scanVar_mem haxis
  have hzero : ReadsInt I τ (.const (.int 0)) (0 : ℕ) := hI.readsInt.1 (readsNum_const hI 0)
  -- The seed.
  refine hscan.store h.lengthLo (hbox 0 hpos) (h.fits _ (hbox 0 hpos))
    (reads_targetIndex hI haxis (h.offsets τ hτ) h.rank hat hzero) ?_ fun a ha => ?_
  · rw [h.value_source hτ hscan (hbox 0 hpos) (reads_scanIndex haxis hat hzero)
      (hnew _ (hinsert 0)), runningAt, hgetD, hinsert, running]
  have hτ₁ := hτ.setArray (mem_singleton_self base) a
  have hdim : ReadsInt I (τ.setArray base a) (constOrName (shape.getD axis ""))
      ((shape.map dim).getD axis 0 : ℕ) := by
    have htok := h.extents _ hτ₁ (shape.getD axis "") (by
      rw [getD_eq_getElem?_getD, getElem?_eq_getElem haxis]
      exact getElem_mem haxis)
    have hdim : (shape.map dim).getD axis 0 = dim (shape.getD axis "") := by
      rw [getD_eq_getElem?_getD, getElem?_map, getElem?_eq_getElem haxis,
        getD_eq_getElem?_getD, getElem?_eq_getElem haxis]
      rfl
    rw [hdim]
    exact htok
  have hone : ReadsInt I (τ.setArray base a) one (1 : ℕ) :=
    hI.readsInt.1 (readsNum_const hI 1)
  -- The places of the line up to the loop's variable have their running values.
  refine Leaves.count (fun k υ => Framed (scanTemps shape.length) [base] σ υ ∧
    Scanned elt base (shape.map dim) lo size g (runningAt op f axis)
      (fun ix => D ix ∨ (ix.eraseIdx axis = jx ∧ ix.getD axis 0 < k)) υ ∧
    ∀ x ∈ (outerAxes shape.length axis).map scanVar, υ.scalars x = τ.scalars x)
    (show 1 ≤ (shape.map dim).getD axis 0 from hpos) (range_between hone hdim)
    ⟨hτ₁, ha.congr fun ix hix => ?_, fun _ _ => rfl⟩ ?_ ?_
  · refine or_congr_right ⟨?_, fun ⟨hjx, hk⟩ => ?_⟩
    · rintro rfl
      exact ⟨hinsert 0, by rw [hgetD]; exact Nat.one_pos⟩
    · exact hline ix hix 0 hjx (by omega)
  · rintro k υ hk hkd ⟨hυ, hscan', hkeep⟩
    obtain ⟨j, rfl⟩ : ∃ j, k = j + 1 := ⟨k - 1, by omega⟩
    have hnone := hυ.noArray hvar
    refine ⟨hnone, ?_⟩
    have hυ' := hυ.setScalar hvar (I.ofInt (j + 1 : ℕ))
    have hscan'' := hscan'.setScalar hnone (I.ofInt (j + 1 : ℕ))
    have hkeep' : ∀ x ∈ (outerAxes shape.length axis).map scanVar,
        (υ.setScalar (scanVar axis) (I.ofInt (j + 1 : ℕ))).scalars x = τ.scalars x := by
      intro x hx
      rw [State.setScalar_of_ne (outerVars_mem hx).2, hkeep x hx]
    have hat' := hat.congr hkeep'
    have hread : ReadsInt I (υ.setScalar (scanVar axis) (I.ofInt (j + 1 : ℕ)))
        (.name (scanVar axis)) (j + 1 : ℕ) := SparseEmit.readsInt_name State.setScalar_self
    have hprev : ReadsInt I (υ.setScalar (scanVar axis) (I.ofInt (j + 1 : ℕ)))
        (sub (.name (scanVar axis)) one) (j : ℕ) := by
      have hcast : (j : ℤ) = ((j + 1 : ℕ) : ℤ) - 1 := by omega
      refine hI.readsInt.1 ?_
      rw [hcast]
      exact readsNum_binOp (hI.readsInt.2 hread) (readsNum_const hI 1) (hI.sub _ _)
    have hplace := hbox (j + 1) hkd
    have hplace' := hbox j (by omega)
    refine hscan''.store h.lengthLo hplace (h.fits _ hplace)
      (reads_targetIndex hI haxis (h.offsets _ hυ') h.rank hat' hread) ?_ fun b hb => .done ?_
    · have hlast := hscan''.value_done hplace' (h.fits _ hplace')
        (reads_targetIndex hI haxis (h.offsets _ hυ') h.rank hat' hprev)
        (.inr ⟨hinsert j, by rw [hgetD]; exact Nat.lt_succ_self j⟩)
      have helem := h.value_source hυ' hscan'' hplace (reads_scanIndex haxis hat' hread)
        (by
          rw [not_or, hgetD]
          exact ⟨hnew _ (hinsert _), fun hlt => absurd hlt.2 (Nat.lt_irrefl _)⟩)
      rw [hop _ _ _ _ _ hlast helem, runningAt, runningAt, hgetD, hgetD, hinsert, hinsert, running]
    · refine ⟨hυ'.setArray (mem_singleton_self base) b, hb.congr fun ix hix => ?_, hkeep'⟩
      rw [or_assoc]
      refine or_congr_right ⟨?_, fun ⟨hjx, hlt⟩ => ?_⟩
      · rintro (⟨hjx, hlt⟩ | rfl)
        · exact ⟨hjx, by omega⟩
        · exact ⟨hinsert _, by rw [hgetD]; omega⟩
      · rcases Nat.lt_succ_iff_lt_or_eq.1 hlt with hlt | heq
        · exact .inl ⟨hjx, hlt⟩
        · exact .inr (hline ix hix _ hjx heq)
  · rintro υ ⟨hυ, hscan', hkeep⟩
    refine .done ⟨hυ, hscan'.congr fun ix hix => or_congr_right ?_, hkeep⟩
    refine ⟨fun hjx => hjx.1, fun hjx => ⟨hjx, ?_⟩⟩
    have hlt := (forall₂_iff_get.1 (mem_box.1 hix)).2 axis
      (by rw [length_of_mem_box hix]; exact haxis') haxis'
    rw [getD_eq_getElem?_getD, getD_eq_getElem?_getD, getElem?_eq_getElem
      (by rw [length_of_mem_box hix]; exact haxis'), getElem?_eq_getElem haxis']
    exact hlt

theorem mem_erased {dims ix : List ℕ} (h : ix ∈ box dims) (axis : ℕ) :
    ix.eraseIdx axis ∈ box (dims.eraseIdx axis) :=
  mem_box.2 (forall₂_eraseIdx axis (mem_box.1 h))

/-- The bounds of the nest's loops. -/
theorem scanNest_loops {axis : ℕ} (haxis : axis < shape.length) :
    (((outerAxes shape.length axis).map scanVar).zip
      ((outerAxes shape.length axis).map fun i => constOrName (shape.getD i ""))) =
    ((outerAxes shape.length axis).map scanVar).zip ((shape.eraseIdx axis).map constOrName) := by
  rw [← outerAxes_map shape "" haxis, map_map]
  rfl

/-- What the rules for nests ask of the loops over the other axes. -/
theorem scanNest_frame (haxis : axis < shape.length)
    (hextents : ∀ τ, Framed (scanTemps shape.length) [base] σ τ →
      TokenExtents I τ constOrName dim shape) :
    let loops := ((outerAxes shape.length axis).map scanVar).zip
      ((shape.eraseIdx axis).map constOrName)
    loops.map Prod.fst = (outerAxes shape.length axis).map scanVar ∧
    loops.length = ((shape.map dim).eraseIdx axis).length ∧
    ∀ τ, Framed (scanTemps shape.length) [base] σ τ →
      ∀ q ∈ loops.zip ((shape.map dim).eraseIdx axis), ReadsInt I τ q.1.2 q.2 := by
  have hlength : ((outerAxes shape.length axis).map scanVar).length =
      ((shape.eraseIdx axis).map constOrName).length := by
    rw [length_map, length_outerAxes haxis, length_map,
      length_eraseIdx_of_lt haxis]
  refine ⟨map_fst_zip hlength.le, ?_, fun τ hτ q hq => ?_⟩
  · rw [length_zip, hlength, Nat.min_self, eraseIdx_map, length_map,
      length_map]
  · rw [eraseIdx_map] at hq
    obtain ⟨tok, htok, hbound, hdim⟩ := exists_token hq
    rw [hbound, hdim]
    exact hextents τ hτ tok (mem_of_mem_eraseIdx htok)

/-- **The nest leaves the running values** at the shifted places of the target. -/
theorem leaves_scan
    (h : ScanSetup I num elt σ constOrName source base shape dim axis starts lo size f g)
    (hop : Combines I elt combine op) (hpos : 0 < (shape.map dim).getD axis 0) :
    Leaves I fuel (scanNest constOrName combine base source shape axis starts) σ fun τ =>
      Framed (scanTemps shape.length) [base] σ τ ∧
      Scanned elt base (shape.map dim) lo size g (runningAt op f axis) (fun _ => True) τ := by
  have hσ : Framed (scanTemps shape.length) [base] σ σ := .refl fun x hx => ⟨h.fresh x hx, by
    simpa using (h.target.ne_of_none (h.fresh x hx)).symm⟩
  obtain ⟨hfst, hlength, hbounds⟩ := scanNest_frame h.axisIn h.extents
  rw [scanNest, scanNest_loops h.axisIn]
  refine (Leaves.nest (scanTemps shape.length) [base] ((shape.map dim).eraseIdx axis)
    (fun done τ => Scanned elt base (shape.map dim) lo size g (runningAt op f axis)
      (fun ix => ix.eraseIdx axis ∈ done) τ) hlength ?_ ?_ hbounds hσ
    ⟨g, h.target, fun ix _ hix => absurd hix not_mem_nil, fun _ _ _ => rfl, fun _ _ => rfl⟩
    ?_ ?_).mono ?_
  · rw [hfst]
    exact nodup_outerVars _ _
  · rw [hfst]
    exact fun x hx => (outerVars_mem hx).1
  · rw [hfst]
    exact fun done τ hτ hscan x hx v => hscan.setScalar (hτ.noArray (outerVars_mem hx).1) v
  · rw [hfst]
    intro done jx later τ hbox hτ hscan hat
    have hmem : jx ∈ box ((shape.map dim).eraseIdx axis) := by rw [hbox]; simp
    refine (leaves_scanLine h hop hτ hmem hat hpos hscan fun ix hix hdone => ?_).mono ?_
    · exact notMem_of_box hbox (hix ▸ hdone)
    · rintro υ ⟨hυ, hscan', hkeep⟩
      refine ⟨hυ, hscan'.congr fun ix _ => ?_, hkeep⟩
      rw [mem_append, mem_singleton]
  · rintro τ ⟨hτ, hscan⟩
    exact ⟨hτ, hscan.congr fun ix hix => iff_of_true (mem_erased hix axis) trivial⟩

/-- With an axis without elements beside the scanned one, nothing is written. -/
theorem leaves_scan_nothing (haxis : axis < shape.length)
    (htarget : Has id σ base size g) (hfresh : ∀ x ∈ scanTemps shape.length, σ.arrays x = none)
    (hextents : ∀ τ, Framed (scanTemps shape.length) [base] σ τ →
      TokenExtents I τ constOrName dim shape)
    (hempty : 0 ∈ (shape.map dim).eraseIdx axis) :
    Leaves I fuel (scanNest constOrName combine base source shape axis starts) σ fun τ =>
      Framed (scanTemps shape.length) [base] σ τ ∧ τ.arrays = σ.arrays := by
  have hσ : Framed (scanTemps shape.length) [base] σ σ := .refl fun x hx => ⟨hfresh x hx, by
    simpa using (htarget.ne_of_none (hfresh x hx)).symm⟩
  obtain ⟨hfst, hlength, hbounds⟩ := scanNest_frame haxis hextents
  rw [scanNest, scanNest_loops haxis]
  refine Leaves.nest (scanTemps shape.length) [base] ((shape.map dim).eraseIdx axis)
    (fun _ τ => τ.arrays = σ.arrays) hlength ?_ ?_ hbounds hσ rfl (fun _ _ _ hτ _ _ _ => hτ) ?_
  · rw [hfst]
    exact nodup_outerVars _ _
  · rw [hfst]
    exact fun x hx => (outerVars_mem hx).1
  · -- An extent of 0 leaves no index of the box.
    intro done jx later τ hbox
    have hmem : jx ∈ box ((shape.map dim).eraseIdx axis) := by rw [hbox]; simp
    obtain ⟨i, hi, hzero⟩ := mem_iff_getElem.1 hempty
    have hlt := (forall₂_iff_get.1 (mem_box.1 hmem)).2 i
      (by rwa [length_of_mem_box hmem]) hi
    rw [get_eq_getElem, get_eq_getElem, hzero] at hlt
    exact absurd hlt (Nat.not_lt_zero _)

/-- **A scan along an axis without elements has no run**: the seed is read outside the operand. -/
theorem scanNest_empty (hI : NodeArith I num) (haxis : axis < shape.length)
    (hsource : Has elt σ source (shape.map dim) f)
    (hfresh : ∀ x ∈ scanTemps shape.length, σ.arrays x = none)
    (hextents : ∀ τ, Framed (scanTemps shape.length) [base] σ τ →
      TokenExtents I τ constOrName dim shape) (htarget : Has id σ base size g)
    (hpos : 0 ∉ (shape.map dim).eraseIdx axis) (hzero : (shape.map dim).getD axis 0 = 0) :
    exec I fuel (scanNest constOrName combine base source shape axis starts) σ = none := by
  obtain ⟨hfst, hlength, hbounds⟩ := scanNest_frame haxis hextents
  have hsub := fun x (hx : x ∈ (outerAxes shape.length axis).map scanVar) => (outerVars_mem hx).1
  rw [scanNest, scanNest_loops haxis]
  -- Nothing but the variables of the nest has changed when the first seed is read.
  refine exec_nest_none (fun τ => Framed (scanTemps shape.length) [base] σ τ ∧
    τ.arrays = σ.arrays) hlength ?_ ?_ (fun τ hτ => hbounds τ hτ.1) (fun n hn => ?_) ?_
    ⟨.refl fun x hx => ⟨hfresh x hx, by
      simpa using (htarget.ne_of_none (hfresh x hx)).symm⟩, rfl⟩
  · rw [hfst]
    exact nodup_outerVars _ _
  · rw [hfst]
    exact fun τ hτ x hx v => ⟨hτ.1.noArray (hsub x hx), hτ.1.setScalar (hsub x hx) v, hτ.2⟩
  · rcases Nat.eq_zero_or_pos n with rfl | h
    · exact absurd hn hpos
    · exact h
  · rw [hfst]
    rintro τ ⟨hτ, harrays⟩ hzeros
    have hat : AtIndex I τ ((outerAxes shape.length axis).map scanVar)
        (((outerAxes shape.length axis).map scanVar).map fun _ => 0) := by
      rw [AtIndex, forall₂_map_right_iff, forall₂_same]
      exact hzeros
    have hsource' : Has elt τ source (shape.map dim) f := by
      obtain ⟨hscalar, a, ha, hrest⟩ := hsource
      have htemp : source ∉ scanTemps shape.length := fun hmem => by
        rw [hfresh _ hmem] at ha
        cases ha
      exact ⟨by rw [hτ.scalars _ htemp, hscalar], a, by rw [harrays, ha], hrest⟩
    have hread := reads_scanIndex haxis hat
      (hI.readsInt.1 (readsNum_const hI 0) : ReadsInt I τ (.const (.int 0)) (0 : ℕ))
    have hlen : axis ≤ (((outerAxes shape.length axis).map scanVar).map fun _ => 0).length := by
      rw [length_map, length_map, length_outerAxes haxis]
      omega
    have hvalue := hsource'.value_outside hread
      (by
        rw [length_insertIdx, if_pos hlen, length_map, length_map,
          length_outerAxes haxis, length_map]
        omega)
      (fun hmem => by
        have hlt := (forall₂_iff_get.1 (mem_box.1 hmem)).2 axis
          (by rw [length_of_mem_box hmem, length_map]; exact haxis)
          (by rw [length_map]; exact haxis)
        rw [getD_eq_getElem?_getD, getElem?_eq_getElem
          (by rw [length_map]; exact haxis), Option.getD_some] at hzero
        rw [get_eq_getElem, get_eq_getElem, hzero] at hlt
        exact Nat.not_lt_zero _ hlt)
    change (Translate.value I τ (subscript source (scanIndex shape.length axis
      (.const (.int 0))))).bind _ = none
    rw [show Translate.value I τ (subscript source (scanIndex shape.length axis
      (.const (.int 0)))) = none from hvalue]
    rfl

end Nest

/-! ### What numpy defines -/

/-- The operations of a scan on elements. -/
structure ScanArith {V K : Type} [Add K] [Mul K] [LinearOrder K] (I : Interp V) (num : ℤ → V)
    (elt : Option K → V) : Prop extends NodeArith I num where
  injective : Function.Injective elt
  sum : ∀ x y, I.binary .add (elt x) (elt y) = some (elt (lift (· + ·) x y))
  product : ∀ x y, I.binary .mult (elt x) (elt y) = some (elt (lift (· * ·) x y))
  order : ∀ x y,
    (∃ c, I.binary (.other ">=") (elt x) (elt y) = some c ∧ I.truth c = atLeast x y) ∧
    ∃ c, I.binary (.other "<=") (elt x) (elt y) = some c ∧ I.truth c = atLeast y x

/-- The axis numpy scans along.  An argument that is no literal is one axis in range. -/
def ScansAlong (args : List Expr) (kwargs : List CallKeyword) (rank axis : ℕ) : Prop :=
  match args[1]?.or (lastKwarg kwargs "axis") with
  | none | some (.const .none) => rank = 1 ∧ axis = 0
  | some e =>
    match constInteger e with
    | some k => -rank ≤ k ∧ k < rank ∧ axis = (k % rank).toNat
    | none => axis < rank ∧ e.isTuple = false

/-- A bound or the step of a slice as it is read. -/
def PartReads (num : ℤ → V) (I : Interp V) (τ : State V) (e : Expr) (part : Option ℤ) : Prop :=
  match part with
  | none => e = .const .none
  | some z => e ≠ .const .none ∧ ReadsNum num I τ e z

/-- A slice as it is read. -/
def SliceReads (num : ℤ → V) (I : Interp V) (τ : State V) (e : Expr) (s : Slice) : Prop :=
  match e with
  | .slice lower upper step =>
    PartReads num I τ lower s.lower ∧ PartReads num I τ upper s.upper ∧
      PartReads num I τ step s.step
  | _ => False

/-- The slices of a target, one for each axis of the operand. -/
def RegionOf (num : ℤ → V) (I : Interp V) (τ : State V) (target : Target) (base : String)
    (region : List Slice) : Prop :=
  match target with
  | .name id => id = base ∧ ∀ s ∈ region, s = .full
  | .subscript (.name id) slc =>
    id = base ∧ Forall₂ (SliceReads num I τ) slc.elts region
  | _ => False

/-- The extents of a region. -/
def regionExtents (region : List Slice) (size : List ℕ) : List ℕ :=
  zipWith Slice.count region size

/-- The place in the target of a position of the region. -/
def regionPlace (region : List Slice) (size jx : List ℕ) : List ℕ :=
  zipWith (fun (p : Slice × ℕ) (j : ℕ) => (p.1.start p.2 + j * p.1.stride).toNat)
    (region.zip size) jx

/-- The element that is broadcast to a position: an axis of extent 1 has only the position 0. -/
def broadcastFrom (dims jx : List ℕ) : List ℕ :=
  zipWith (fun d j => if d = 1 then 0 else j) dims jx

/-- The region holds `R`, as far as the operand's extents go, and nothing else has changed. -/
def LeavesScan (I : Interp V) (elt : E → V) (fuel : ℕ) (σ : State V) (base : String)
    (dims : List ℕ) (region : List Slice) (size : List ℕ) (R : List ℕ → E) (g : List ℕ → V)
    (b : Block) : Prop :=
  Leaves I fuel b σ fun τ =>
    (∀ A, A ≠ base → τ.arrays A = σ.arrays A) ∧ ∃ h, Has id τ base size h ∧
      (∀ jx ∈ box (regionExtents region size),
        h (regionPlace region size jx) = elt (R (broadcastFrom dims jx))) ∧
      ∀ c ∈ box size, (∀ jx ∈ box (regionExtents region size), c ≠ regionPlace region size jx) →
        h c = g c

/-- A call that numpy accepts, with the names it reads and the region of its target.  The slices are
the same ones while the target is written. -/
structure ScanCall {V K : Type} [Add K] [Mul K] [LinearOrder K] (I : Interp V) (num : ℤ → V)
    (elt : Option K → V) (σ : State V) (constOrName : String → Expr) (target : Target)
    (args : List Expr) (kwargs : List CallKeyword) (source base : String) (shape : List String)
    (dim : String → ℕ) (axis : ℕ) (region : List Slice) (size : List ℕ)
    (f : List ℕ → Option K) (g : List ℕ → V) : Prop where
  arith : ScanArith I num elt
  argument : args.head? = some (.name source)
  /-- No keyword says again what a position does. -/
  once : args[1]? = none ∨ lastKwarg kwargs "axis" = none
  /-- A third argument is a dtype. -/
  dtype : args[2]?.bind evalAxes = none
  along : ScansAlong args kwargs shape.length axis
  operand : Has elt σ source (shape.map dim) f
  written : Has id σ base size g
  region : ∀ τ, Framed (scanTemps shape.length) [base] σ τ → RegionOf num I τ target base region
  extents : ∀ τ, Framed (scanTemps shape.length) [base] σ τ →
    TokenExtents I τ constOrName dim shape
  fresh : ∀ x ∈ scanTemps shape.length, σ.arrays x = none

/-- A slice of an axis of `n` elements that has `d` positions in a row, the first at its lower
bound. -/
def Straight (s : Slice) (n d : ℕ) : Prop :=
  s.count n = d ∧ ∀ j < d, s.start n + j * s.stride = s.lower.getD 0 + j

/-- Straight slices with the extents of the operand. -/
inductive StraightRegion : List Slice → List ℕ → List ℕ → Prop
  | nil : StraightRegion [] [] []
  | cons {s n d region size dims} : Straight s n d → StraightRegion region size dims →
    StraightRegion (s :: region) (n :: size) (d :: dims)

/-! ### Straight regions -/

/-- The lower bounds of slices. -/
def lows (region : List Slice) : List ℕ := region.map fun s => (s.lower.getD 0).toNat

section Region

variable {region : List Slice} {size dims jx : List ℕ}

theorem Straight.mem {s : Slice} {n d j : ℕ} (h : Straight s n d) (hj : j < d) :
    0 ≤ s.lower.getD 0 + j ∧ s.lower.getD 0 + j < n := by
  have hcount : j < s.count n := by rw [h.1]; exact hj
  have hstride : s.stride ≠ 0 := fun hzero => by
    rw [Slice.count_of_stride_eq_zero hzero] at hcount
    omega
  rw [← h.2 j hj]
  exact Slice.position_mem hstride hcount

theorem regionExtents_of_straight (h : StraightRegion region size dims) :
    regionExtents region size = dims := by
  induction h with
  | nil => rfl
  | cons hs _ ih => exact congrArg₂ List.cons hs.1 ih

theorem broadcastFrom_of_mem (hjx : jx ∈ box dims) : broadcastFrom dims jx = jx := by
  have hjx := mem_box.1 hjx
  induction hjx with
  | nil => rfl
  | @cons j d jx dims hj _ ih =>
    refine congrArg₂ List.cons ?_ (ih (mem_box.2 ‹_›))
    change (if d = 1 then 0 else j) = j
    split
    · omega
    · rfl

/-- A place of a straight region lies in the target, moved on by the lower bounds. -/
theorem regionPlace_of_straight (h : StraightRegion region size dims) (hjx : jx ∈ box dims) :
    regionPlace region size jx = shifted (lows region) jx ∧
      shifted (lows region) jx ∈ box size := by
  induction h generalizing jx with
  | nil =>
    obtain rfl := length_eq_zero_iff.1 (length_of_mem_box hjx)
    exact ⟨rfl, mem_box.2 .nil⟩
  | @cons s n d region size dims hs _ ih =>
    obtain _ | @⟨j, _, jx, _, hj, hjx⟩ := mem_box.1 hjx
    obtain ⟨hplace, hmem⟩ := ih (mem_box.2 hjx)
    have hline := hs.2 j hj
    have hfirst := hs.mem (show 0 < d by omega)
    have hin := hs.mem hj
    refine ⟨congrArg₂ List.cons ?_ hplace, mem_box.2 (.cons ?_ (mem_box.1 hmem))⟩
    · change (s.start n + j * s.stride).toNat = j + (s.lower.getD 0).toNat
      rw [hline]
      omega
    · change j + (s.lower.getD 0).toNat < n
      omega

/-- Where there is something to write, the lower bounds are natural numbers. -/
theorem lows_of_straight (h : StraightRegion region size dims) (hpos : ∀ d ∈ dims, 0 < d) :
    ∀ s ∈ region, ((s.lower.getD 0).toNat : ℤ) = s.lower.getD 0 := by
  induction h with
  | nil => exact fun s hs => absurd hs not_mem_nil
  | @cons s n d region size dims hs _ ih =>
    have hfirst := hs.mem (hpos d mem_cons_self)
    rintro s' (_ | ⟨_, hs'⟩)
    · omega
    · exact ih (fun d hd => hpos d (mem_cons_of_mem _ hd)) s' hs'

/-- A straight region with the extents of the whole target starts at its front. -/
theorem shifted_of_whole (h : StraightRegion region dims dims) (hjx : jx ∈ box dims) :
    shifted (lows region) jx = jx := by
  generalize hsize : dims = size at h
  have h' : StraightRegion region size dims := hsize ▸ h
  clear h
  induction h' generalizing jx with
  | nil =>
    obtain rfl := length_eq_zero_iff.1 (length_of_mem_box hjx)
    rfl
  | @cons s n d region size dims hs _ ih =>
    obtain ⟨rfl, rfl⟩ := cons.inj hsize
    obtain _ | @⟨j, _, jx, _, hj, hjx⟩ := mem_box.1 hjx
    have hfirst := hs.mem (show 0 < d by omega)
    have hlast := hs.mem (show d - 1 < d by omega)
    refine congrArg₂ List.cons ?_ (ih (mem_box.2 hjx) rfl)
    change j + (s.lower.getD 0).toNat = j
    omega

end Region

/-! ### Scans against numpy -/

section Numpy

variable {K : Type} [Add K] [Mul K] [LinearOrder K] {elt : Option K → V}
variable {args : List Expr} {kwargs : List CallKeyword} {axis : ℕ} {starts : List (Option Expr)}
variable {region : List Slice} {target : Target} {dims : List ℕ}

/-- What a scan combines is what its kind computes. -/
theorem combines_lowered (hI : ScanArith I num elt) (kind : ScanKind) :
    Combines I elt kind.combine kind.lowered := by
  intro τ p c x y hp hc
  -- A running extreme tests the two, and takes one of them.
  have hextreme : ∀ op d b, I.binary (.other op) (elt x) (elt y) = some d → I.truth d = b →
      value I τ (runningExtremeCombine op p c) = some (elt (if b then x else y)) := by
    intro op d b hd hb
    have htest : value I τ (SparseEmit.compare op p c) = some d := by
      rw [SparseEmit.compare, value_binOp, hp, Option.bind_some, hc, Option.bind_some, hd]
    rw [runningExtremeCombine, value_ifExp htest, hb]
    cases b
    · exact hc
    · exact hp
  obtain ⟨⟨d, hd, hge⟩, e, he, hle⟩ := hI.order x y
  cases kind with
  | sum =>
    change value I τ (.binOp .add p c) = _
    rw [value_binOp, hp, Option.bind_some, hc, Option.bind_some, hI.sum]
    rfl
  | prod =>
    change value I τ (.binOp .mult p c) = _
    rw [value_binOp, hp, Option.bind_some, hc, Option.bind_some, hI.product]
    rfl
  | maximum => exact hextreme ">=" d _ hd hge
  | minimum => exact hextreme "<=" e _ he hle

/-- The axis the expander reads is the one numpy scans along. -/
theorem axis_of_call {rank axis' : ℕ} {axes : Option (List ℤ)} {keep : Bool}
    (honce : args[1]? = none ∨ lastKwarg kwargs "axis" = none)
    (hdtype : args[2]?.bind evalAxes = none) (halong : ScansAlong args kwargs rank axis)
    (hread : readAxisKeepdims args.tail kwargs = .ok (axes, keep))
    (haxis : scanAxis axes rank = .ok axis') : axis' = axis ∧ axis < rank := by
  have htail : args.tail[1]? = args[2]? := by cases args <;> rfl
  have haxes : readAxes args.tail kwargs = .ok axes := by
    unfold readAxisKeepdims at hread
    split at hread
    · cases hread
    · rename_i axes' haxes
      split at hread
      · cases hread
        exact haxes
      · cases hread
        exact haxes
      · cases hread
  unfold readAxes at haxes
  rw [htail, hdtype] at haxes
  -- Without a keyword every axis is scanned, and there is one.
  have hnone : axes = none → rank = 1 ∧ axis' = 0 := by
    rintro rfl
    rw [scanAxis] at haxis
    split at haxis
    · cases haxis
    · rename_i hrank
      cases haxis
      exact ⟨not_not.1 hrank, rfl⟩
  cases hkey : lastKwarg kwargs "axis" with
  | none =>
    rw [hkey] at haxes
    obtain ⟨rfl, rfl⟩ := hnone (by cases haxes; rfl)
    rw [ScansAlong, hkey, Option.or_none] at halong
    split at halong
    · exact ⟨halong.2.symm, by omega⟩
    · exact ⟨halong.2.symm, by omega⟩
    · split at halong
      · obtain ⟨-, -, rfl⟩ := halong
        omega
      · exact ⟨by omega, halong.1⟩
  | some e =>
    have hpos : args[1]? = none := honce.resolve_right (by rw [hkey]; exact Option.some_ne_none e)
    rw [hkey] at haxes
    rw [ScansAlong, hkey, hpos, Option.none_or] at halong
    by_cases hlit : e = .const .none
    · subst hlit
      obtain ⟨rfl, rfl⟩ := hnone (by cases haxes; rfl)
      exact ⟨halong.2.symm, by omega⟩
    · obtain ⟨found, hfound, rfl⟩ : ∃ found, evalAxes e = some found ∧ axes = some found := by
        split at haxes
        · rename_i heq
          cases heq
        · rename_i heq
          exact absurd (Option.some.inj heq) hlit
        · rename_i heq
          obtain rfl := Option.some.inj heq
          split at haxes
          · cases haxes
          · rename_i found hfound
            exact ⟨found, hfound, (Except.ok.inj haxes).symm⟩
      split at halong
      · rename_i heq
        cases heq
      · rename_i heq
        exact absurd (Option.some.inj heq) hlit
      · rename_i e' _ heq
        obtain rfl := Option.some.inj heq
        unfold evalAxes at hfound
        split at halong
        · rename_i k hk
          obtain ⟨hlow, hhigh, rfl⟩ := halong
          rw [hk] at hfound
          cases hfound
          rw [scanAxis] at haxis
          split at haxis
          · omega
          · cases haxis
            have hrank : (0 : ℤ) < rank := by omega
            have hmod := Int.emod_lt_of_pos k hrank
            have hnonneg := Int.emod_nonneg k hrank.ne'
            exact ⟨rfl, by omega⟩
        · rename_i hk
          rw [hk, halong.2] at hfound
          cases hfound

/-- The start of a slice is its lower bound. -/
theorem startsRead_of_slices {es : List Expr} (hI : NodeArith I num)
    (hstarts : Forall₂ (fun e o => sliceStart e = .ok o) es starts)
    (hslices : Forall₂ (SliceReads num I τ) es region)
    (hlow : ∀ s ∈ region, ((s.lower.getD 0).toNat : ℤ) = s.lower.getD 0) :
    StartsRead num I τ starts (lows region) := by
  rw [StartsRead, lows, forall₂_map_right_iff]
  induction hslices generalizing starts with
  | nil =>
    cases hstarts
    exact .nil
  | @cons e s es region hs _ ih =>
    obtain _ | ⟨hstart, hstarts⟩ := hstarts
    refine .cons ?_ (ih hstarts fun s hs => hlow s (mem_cons_of_mem _ hs))
    have hlow := hlow s mem_cons_self
    cases e with
    | slice lower upper step =>
      have hlower := hs.1
      rw [sliceStart] at hstart
      split at hstart
      · rename_i hempty
        cases hstart
        cases hpart : s.lower with
        | none => rfl
        | some z =>
          rw [hpart] at hlower
          obtain ⟨hne, hread⟩ := hlower
          obtain rfl := hempty.resolve_left hne
          have hz := hI.num_injective (Option.some.inj
            (hread.symm.trans (readsNum_const hI 0)))
          rw [Option.getD_some, hz]
          rfl
      · rename_i hempty
        cases hstart
        cases hpart : s.lower with
        | none =>
          rw [hpart] at hlower
          exact absurd (.inl hlower) hempty
        | some z =>
          rw [hpart, Option.getD_some] at hlow
          rw [hpart] at hlower
          change ReadsNum num I τ lower ((some z).getD 0).toNat
          rw [Option.getD_some, hlow]
          exact hlower.2
    | _ => exact hs.elim

/-- A target's base and starts are those of its region. -/
theorem offsets_of_region {base base' : String} {n : ℕ} (hI : NodeArith I num)
    (htarget : scanTargetOffsets target n = .ok (base', starts))
    (hregion : RegionOf num I τ target base region) (hlength : region.length = n) :
    base' = base ∧ starts.length = n ∧
      ((∀ s ∈ region, ((s.lower.getD 0).toNat : ℤ) = s.lower.getD 0) →
        StartsRead num I τ starts (lows region)) := by
  cases target with
  | name id =>
    cases htarget
    obtain ⟨rfl, hfull⟩ := hregion
    refine ⟨rfl, length_replicate, fun _ => ?_⟩
    rw [StartsRead, lows, forall₂_map_right_iff, ← hlength, ← map_const',
      forall₂_map_left_iff, forall₂_same]
    intro s hs
    rw [hfull s hs]
    rfl
  | «subscript» value slc =>
    cases value with
    | name id =>
      obtain ⟨rfl, hslices⟩ := hregion
      rw [scanTargetOffsets] at htarget
      split at htarget
      · cases htarget
      · rename_i hn
        split at htarget
        · cases htarget
        · rename_i starts' hstarts
          cases htarget
          have hstarts := mapM_eq_ok.1 hstarts
          refine ⟨rfl, by rw [← hstarts.length_eq, not_not.1 hn], fun hlow =>
            startsRead_of_slices hI hstarts hslices hlow⟩
    | _ => cases htarget

/-- What the expander emits. -/
theorem expandCumulative_ok {constOrName : String → Expr} {combine : Expr → Expr → Expr}
    {shapes : ShapeTable} {source : String} {shape : List String} {b : Block}
    (hargs : args.head? = some (.name source)) (hshape : shapes source = some shape)
    (h : expandCumulative constOrName combine target args kwargs shapes = .ok b) :
    ∃ axes keep axis base starts, readAxisKeepdims args.tail kwargs = .ok (axes, keep) ∧
      scanAxis axes shape.length = .ok axis ∧
      scanTargetOffsets target shape.length = .ok (base, starts) ∧
      b = scanNest constOrName combine base source shape axis starts := by
  have hsource : args.head?.bind Expr.id? = some source := by rw [hargs]; rfl
  rw [expandCumulative, hsource] at h
  simp only [hshape] at h
  split at h
  · cases h
  · rename_i axes keep hread
    split at h
    · cases h
    · rename_i axis haxis
      split at h
      · cases h
      · rename_i base starts htarget
        cases h
        exact ⟨axes, keep, axis, base, starts, hread, haxis, htarget, rfl⟩

theorem expandScan_eq (constOrName : String → Expr) (kind : ScanKind) :
    expandScan constOrName kind = expandCumulative constOrName kind.combine := by
  cases kind <;> rfl

theorem length_of_straight {size : List ℕ} (h : StraightRegion region size dims) :
    region.length = dims.length := by
  induction h with
  | nil => rfl
  | cons _ _ ih => rw [length_cons, length_cons, ih]

/-- Extents that are not 0 on the axis nor beside it. -/
theorem pos_of_extents (hbeside : 0 ∉ dims.eraseIdx axis) (haxis : dims.getD axis 0 ≠ 0) :
    ∀ d ∈ dims, 0 < d := by
  intro d hd
  refine Nat.pos_of_ne_zero ?_
  rintro rfl
  obtain ⟨i, hi, hzero⟩ := mem_iff_getElem.1 hd
  by_cases hia : i = axis
  · subst hia
    rw [getD_eq_getElem?_getD, getElem?_eq_getElem hi] at haxis
    exact haxis hzero
  · exact hbeside (mem_eraseIdx_iff_getElem.2 ⟨i, hi, hia, hzero⟩)

section Call

variable {constOrName : String → Expr} {target : Target} {args : List Expr}
variable {kwargs : List CallKeyword} {source base : String} {shape : List String}
variable {dim : String → ℕ} {axis : ℕ} {region : List Slice} {size : List ℕ}
variable {f : List ℕ → Option K} {g : List ℕ → V}

theorem ScanCall.self (h : ScanCall I num elt σ constOrName target args kwargs source base shape
    dim axis region size f g) : Framed (scanTemps shape.length) [base] σ σ :=
  .refl fun x hx => ⟨h.fresh x hx, by
    simpa using (h.written.ne_of_none (h.fresh x hx)).symm⟩

/-- With something to scan and to write, the call is set up for the nest. -/
theorem ScanCall.setup {starts : List (Option Expr)} (h : ScanCall I num elt σ constOrName target
    args kwargs source base shape dim axis region size f g) (haxis : axis < shape.length)
    (htarget : scanTargetOffsets target shape.length = .ok (base, starts))
    (hstraight : StraightRegion region size (shape.map dim))
    (hpos : ∀ d ∈ shape.map dim, 0 < d) :
    ScanSetup I num elt σ constOrName source base shape dim axis starts (lows region) size f g where
  arith := h.arith.toNodeArith
  operand := h.operand
  target := h.written
  inPlace := by
    rintro rfl ix hix
    obtain ⟨-, a, ha, hshape, -⟩ := h.operand
    obtain ⟨-, a', ha', hshape', -⟩ := h.written
    obtain rfl := Option.some.inj (ha.symm.trans ha')
    obtain rfl := hshape.symm.trans hshape'
    exact shifted_of_whole hstraight hix
  axisIn := haxis
  rank := (offsets_of_region h.arith.toNodeArith htarget (h.region σ h.self)
    (by rw [length_of_straight hstraight, length_map])).2.1
  offsets τ hτ := (offsets_of_region h.arith.toNodeArith htarget (h.region τ hτ)
    (by rw [length_of_straight hstraight, length_map])).2.2 (lows_of_straight hstraight hpos)
  fits _ hix := (regionPlace_of_straight hstraight hix).2
  extents := h.extents
  fresh := h.fresh

end Call

/-- **A scan into a straight region** leaves what numpy does just where another axis is empty, or
the scanned one is not and no number follows what is not one under a running extreme. -/
theorem scan_lowering {V K : Type} [Add K] [Mul K] [LinearOrder K] (kind : ScanKind)
    (constOrName : String → Expr) (I : Interp V) (num : ℤ → V) (elt : Option K → V) (fuel : ℕ)
    (σ : State V) (shapes : ShapeTable) (target : Target) (args : List Expr)
    (kwargs : List CallKeyword) (source base : String) (shape : List String) (dim : String → ℕ)
    (axis : ℕ) (region : List Slice) (size : List ℕ) (f : List ℕ → Option K) (g : List ℕ → V)
    (b : Block)
    (h : ScanCall I num elt σ constOrName target args kwargs source base shape dim axis region size
      f g)
    (hshape : shapes source = some shape) (hstraight : StraightRegion region size (shape.map dim))
    (hb : expandScan constOrName kind target args kwargs shapes = .ok b) :
    LeavesScan I elt fuel σ base (shape.map dim) region size (runningAt kind.ufunc f axis) g b ↔
      0 ∈ (shape.map dim).eraseIdx axis ∨
      (0 < (shape.map dim).getD axis 0 ∧ ∀ jx ∈ box ((shape.map dim).eraseIdx axis),
        kind.Keeps (fun j => f (jx.insertIdx axis j)) ((shape.map dim).getD axis 0)) := by
  rw [expandScan_eq] at hb
  obtain ⟨axes, keep, axis', base', starts, hread, haxis, htarget, rfl⟩ :=
    expandCumulative_ok h.argument hshape hb
  obtain ⟨rfl, haxisIn⟩ := axis_of_call h.once h.dtype h.along hread haxis
  obtain ⟨rfl, -, -⟩ := offsets_of_region h.arith.toNodeArith htarget (h.region σ h.self)
    (by rw [length_of_straight hstraight, length_map])
  have hextents := regionExtents_of_straight hstraight
  have haxisLt : axis' < (shape.map dim).length := by rwa [length_map]
  by_cases hbeside : 0 ∈ (shape.map dim).eraseIdx axis'
  · refine iff_of_true ((leaves_scan_nothing haxisIn h.written h.fresh h.extents hbeside).mono ?_)
      (.inl hbeside)
    rintro τ ⟨hτ, harrays⟩
    have hempty : ∀ jx, jx ∉ box (shape.map dim) := fun jx hjx => by
      obtain ⟨i, hi, hzero⟩ := mem_iff_getElem.1 (mem_of_mem_eraseIdx hbeside)
      have hlt := (forall₂_iff_get.1 (mem_box.1 hjx)).2 i
        (by rwa [length_of_mem_box hjx]) hi
      rw [get_eq_getElem, get_eq_getElem, hzero] at hlt
      exact Nat.not_lt_zero _ hlt
    refine ⟨fun A _ => by rw [harrays], g, ?_, fun jx hjx => ?_, fun _ _ _ => rfl⟩
    · obtain ⟨hscalar, a, ha, hrest⟩ := h.written
      have htemp : base' ∉ scanTemps shape.length := fun hmem => by
        rw [h.fresh _ hmem] at ha
        cases ha
      exact ⟨by rw [hτ.scalars _ htemp, hscalar], a, by rw [harrays, ha], hrest⟩
    · rw [hextents] at hjx
      exact absurd hjx (hempty jx)
  by_cases hzero : (shape.map dim).getD axis' 0 = 0
  · refine iff_of_false ?_ ?_
    · rintro ⟨τ, hτ, -⟩
      rw [scanNest_empty h.arith.toNodeArith haxisIn h.operand h.fresh h.extents h.written hbeside
        hzero] at hτ
      cases hτ
    · rintro (h | ⟨hpos, -⟩)
      · exact hbeside h
      · exact hpos.ne' hzero
  have hpos := pos_of_extents hbeside hzero
  have haxisPos := Nat.pos_of_ne_zero hzero
  rw [or_iff_right hbeside, and_iff_right haxisPos]
  have hsetup := h.setup haxisIn htarget hstraight hpos
  have hleaves : Leaves I fuel (scanNest constOrName _ base' source shape axis' starts) σ _ :=
    leaves_scan hsetup (combines_lowered h.arith kind) haxisPos
  obtain ⟨τ, hτ, hframed, c, hc, hdone, -, hother⟩ := hleaves
  have hle : ∀ {jx}, jx ∈ box ((shape.map dim).eraseIdx axis') → axis' ≤ jx.length := by
    intro jx hjx
    rw [length_of_mem_box hjx, length_eraseIdx_of_lt haxisLt]
    omega
  constructor
  · rintro ⟨τ', hτ', -, c', hc', hregion, -⟩ jx hjx
    obtain rfl : τ = τ' := congrArg Prod.fst (Option.some.inj (hτ.symm.trans hτ'))
    refine (running_lowered_iff kind).1 fun k hk => ?_
    -- Both name the content of one place of the target.
    have hix : jx.insertIdx axis' k ∈ box (shape.map dim) :=
      mem_box.2 (forall₂_insertIdx haxisLt hk (mem_box.1 hjx))
    obtain ⟨hplace, hmem⟩ := regionPlace_of_straight hstraight hix
    have hnumpy := hregion _ (hextents.symm ▸ hix)
    rw [broadcastFrom_of_mem hix, hplace] at hnumpy
    have hcode := hdone _ hix trivial
    have hsame : c (shifted (lows region) (jx.insertIdx axis' k)) =
        c' (shifted (lows region) (jx.insertIdx axis' k)) := by
      obtain ⟨-, a, ha, -, hcells⟩ := hc
      obtain ⟨-, a', ha', -, hcells'⟩ := hc'
      obtain rfl := Option.some.inj (ha.symm.trans ha')
      exact (hcells _ hmem).symm.trans (hcells' _ hmem)
    have heq := h.arith.injective (hcode.symm.trans (hsame.trans hnumpy))
    rwa [runningAt, runningAt, eraseIdx_insertIdx_self, getD_insertIdx (hle hjx)] at heq
  · intro hkeeps
    refine ⟨τ, hτ, fun A hA => hframed.arrays A (by simpa using hA), c, hc, fun jx hjx => ?_,
      fun ix _ hix => hother ix fun jx hjx => ?_⟩
    · rw [hextents] at hjx
      obtain ⟨hplace, -⟩ := regionPlace_of_straight hstraight hjx
      rw [hplace, hdone jx hjx trivial, broadcastFrom_of_mem hjx, runningAt, runningAt]
      have hlt : jx.getD axis' 0 < (shape.map dim).getD axis' 0 := by
        have hlt := (forall₂_iff_get.1 (mem_box.1 hjx)).2 axis'
          (by rwa [length_of_mem_box hjx]) haxisLt
        rwa [getD_eq_getElem?_getD, getD_eq_getElem?_getD, getElem?_eq_getElem
          (by rwa [length_of_mem_box hjx]), getElem?_eq_getElem haxisLt]
      rw [(running_lowered_iff kind).2 (hkeeps _ (mem_erased hjx axis')) _ hlt]
    · rw [← (regionPlace_of_straight hstraight hjx).1]
      exact hix jx (hextents.symm ▸ hjx)

end Numpy

/-! ### Rational numbers and what is none -/

/-- A comparison; only `!=` holds of what is not a number. -/
def nanTest (op : String) : Option ℚ → Option ℚ → Bool
  | some a, some b => Sorting.numberTest op a b
  | _, _ => op = "!="

def truthNumber (c : Bool) : Option ℚ := some (if c then 1 else 0)

def nanBinary (x y : Option ℚ) : Operator → Option (Option ℚ)
  | .add => some (lift (· + ·) x y)
  | .sub => some (lift (· - ·) x y)
  | .mult => some (lift (· * ·) x y)
  | .floorDiv => if y = some 0 then none else some (lift (fun a b => ⌊a / b⌋) x y)
  | .other op =>
    if op = "/" then (if y = some 0 then none else some (lift (· / ·) x y))
    else if op = "%" then
      (if y = some 0 then none else some (lift (fun a b => a - b * ⌊a / b⌋) x y))
    else some (truthNumber (nanTest op x y))

/-- Exact arithmetic with a value that is not a number. -/
def nanInterp : Interp (Option ℚ) where
  const
    | .int n => some n
    | .float x => some x
    | .none => some 0
  unary _ _ := none
  binary op x y := nanBinary x y op
  call _ _ := none
  effect _ _ _ := none
  truth x := x ≠ some 0
  int x := x.bind fun a => if a.den = 1 then some a.num else none
  ofInt z := some z
  whole _ := none
  int_ofInt z := by simp

theorem truth_truthNumber (c : Bool) : nanInterp.truth (truthNumber c) = c := by
  cases c
  · simp [nanInterp, truthNumber]
  · simp [nanInterp, truthNumber]

theorem nanInterp_arith :
    ScanArith nanInterp (fun z => some (z : ℚ)) (id : Option ℚ → Option ℚ) where
  nat n := rfl
  const n := rfl
  add m n := by simp [nanInterp, nanBinary, lift]
  sub m n := by simp [nanInterp, nanBinary, lift]
  mult m n := by simp [nanInterp, nanBinary, lift]
  floorDiv m n hn := by
    simp [nanInterp, nanBinary, hn.ne', lift, Sorting.floor_div m hn]
  mod m n hn := by
    have hmod : (m : ℚ) - n * (m / n : ℤ) = (m % n : ℤ) := by
      rw [Int.emod_def]
      push_cast
      rfl
    simp [nanInterp, nanBinary, hn.ne', lift, Sorting.floor_div m hn, hmod]
  compare op hop m n := by
    refine ⟨truthNumber (nanTest op (some (m : ℚ)) (some (n : ℚ))), ?_, ?_⟩
    · simp only [mem_cons, not_mem_nil, or_false] at hop
      rcases hop with rfl | rfl | rfl | rfl | rfl <;> rfl
    · rw [truth_truthNumber]
      simp only [mem_cons, not_mem_nil, or_false] at hop
      rcases hop with rfl | rfl | rfl | rfl | rfl <;>
        simp [nanTest, Sorting.numberTest, SparseEmit.comparison]
  injective := fun _ _ h => h
  sum x y := rfl
  product x y := rfl
  order x y := by
    refine ⟨⟨truthNumber (nanTest ">=" x y), rfl, ?_⟩, truthNumber (nanTest "<=" x y), rfl, ?_⟩
    · rw [truth_truthNumber]
      cases x <;> cases y <;> simp [nanTest, atLeast, Sorting.numberTest]
    · rw [truth_truthNumber]
      cases x <;> cases y <;> simp [nanTest, atLeast, Sorting.numberTest]

/-- A vector. -/
def nanVec (xs : List (Option ℚ)) : Arr (Option ℚ) where
  shape := [xs.length]
  cells ix := xs.getD (ix.headD 0) none

theorem has_nanVec (xs : List (Option ℚ)) {σ : State (Option ℚ)} {A : String}
    (hscalar : σ.scalars A = none) (harray : σ.arrays A = some (nanVec xs)) :
    Has (id : Option ℚ → Option ℚ) σ A [xs.length] fun ix => xs.getD (ix.headD 0) none :=
  ⟨hscalar, nanVec xs, harray, rfl, fun _ _ => rfl⟩

/-- `row_offsets` has one element more than `m_sizes`. -/
def offsetState : State (Option ℚ) where
  scalars x := if x = "N" then some (some 2) else none
  arrays x :=
    if x = "m_sizes" then some (nanVec [some 3, some 4])
    else if x = "row_offsets" then some (nanVec [some 0, some 0, some 0])
    else none

def offsetShapes : ShapeTable := fun x => if x = "m_sizes" then some ["N"] else none

/-- `row_offsets[1:]`. -/
def offsetTarget : Target :=
  .subscript (.name "row_offsets") (.slice (.const (.int 1)) (.const .none) (.const .none))

theorem scanCall_offsets : ScanCall nanInterp (fun z => some (z : ℚ)) id offsetState tokenExpr
    offsetTarget [.name "m_sizes"] [] "m_sizes" "row_offsets" ["N"] (fun _ => 2) 0
    [⟨some 1, none, none⟩] [3] (fun ix => [some 3, some 4].getD (ix.headD 0) none)
    (fun ix => [some 0, some 0, some 0].getD (ix.headD 0) none) where
  arith := nanInterp_arith
  argument := rfl
  once := .inl rfl
  dtype := rfl
  along := ⟨rfl, rfl⟩
  operand := has_nanVec [some 3, some 4] rfl rfl
  written := has_nanVec [some 0, some 0, some 0] rfl rfl
  region τ _ := ⟨rfl, .cons ⟨⟨by decide, rfl⟩, rfl, rfl⟩ .nil⟩
  extents τ hτ tok htok := by
    obtain rfl := mem_singleton.1 htok
    exact value_name ((hτ.scalars "N" (by decide)).trans rfl)
  fresh x hx := by
    simp [scanTemps, scanVar] at hx
    subst hx
    rfl

/-- `row_offsets[1:] = np.cumsum(m_sizes)`. -/
theorem scan_lowering_offsets :
    ∃ b, expandScan tokenExpr .sum offsetTarget [.name "m_sizes"] [] offsetShapes = .ok b ∧
      LeavesScan nanInterp id 0 offsetState "row_offsets" [2] [⟨some 1, none, none⟩] [3]
        (runningAt (ScanKind.ufunc .sum) (fun ix => [some 3, some 4].getD (ix.headD 0) none) 0)
        (fun ix => [some 0, some 0, some 0].getD (ix.headD 0) none) b := by
  refine ⟨_, rfl, (scan_lowering .sum tokenExpr nanInterp (fun z => some (z : ℚ)) id 0 offsetState
    offsetShapes offsetTarget [.name "m_sizes"] [] "m_sizes" "row_offsets" ["N"] (fun _ => 2) 0
    [⟨some 1, none, none⟩] [3] _ _ _ scanCall_offsets rfl
    (.cons ⟨by decide, by decide⟩ .nil) rfl).2 (.inr ⟨by decide, fun _ _ => trivial⟩)⟩

/-- Nothing to add up. -/
def nothingState : State (Option ℚ) where
  scalars x := if x = "N" then some (some 0) else none
  arrays x := if x = "a" ∨ x = "out" then some (nanVec []) else none

/-- The sums of an array without elements are not refused, and their loops read outside of it. -/
theorem scan_of_nothing :
    ∃ b, expandScan tokenExpr .sum (.name "out") [.name "a"] []
        (fun x => if x = "a" then some ["N"] else none) = .ok b ∧
      ∀ fuel, exec nanInterp fuel b nothingState = none := by
  have hempty : Has (id : Option ℚ → Option ℚ) nothingState "a" (["N"].map fun _ => 0) _ :=
    has_nanVec [] rfl rfl
  refine ⟨_, rfl, fun fuel => scanNest_empty nanInterp_arith.toNodeArith (by decide) hempty
    (fun x hx => ?_) (fun τ hτ tok htok => ?_) (has_nanVec [] rfl rfl) (by decide) rfl⟩
  · simp [scanTemps, scanVar] at hx
    subst hx
    rfl
  · obtain rfl := mem_singleton.1 htok
    exact value_name ((hτ.scalars "N" (by decide)).trans rfl)

end Scans

end Translate

end HpcAgentBench
