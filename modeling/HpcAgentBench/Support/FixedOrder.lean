import HpcAgentBench.Lib.AlongAxis
import HpcAgentBench.Lib.Halving
import HpcAgentBench.Lib.Python

/-!
# Reductions in a fixed order

`exact_math.sum` adds along an axis by halving: whole arrays at a time, or, for a large host array
of float32 or float64, column by column in a loop that halves a buffer in place.
`exact_math.cumsum` doubles.  The addition is a parameter, of which nothing is assumed for `sum`.

## Main results

* `treeSumLoop_eq` : the loop over the buffer computes the totals of the whole-array halving.
* `fixed_order_sum` : every path of `sum` returns the same totals, each the tree of the length over
  its column, and each element is a leaf of that tree exactly once.
* `fixed_order_cumsum` : `cumsum` returns the sums of the elements up to each one, the last one
  first.
-/

namespace HpcAgentBench

open List Option

namespace FixedOrder

open Halving

variable {α : Type} (add : α → α → α)

/-! ### The loop over a buffer -/

/-- `for k in range(half): buf[k] = buf[k] + buf[half + k]`. -/
def pairInto (half : ℕ) (buf : List α) : Option (List α) :=
  (List.range half).foldlM (fun buf k => do
    let a ← buf[k]?
    let b ← buf[half + k]?
    some (buf.set k (add a b))) buf

/-- `if n % 2: buf[half] = buf[2 * half]`. -/
def carry (n half : ℕ) (buf : List α) : Option (List α) :=
  if n % 2 = 1 then buf[2 * half]?.map (buf.set half) else some buf

/-- One level of the loop: the first `n` elements of the buffer halved in place. -/
def level (n : ℕ) (buf : List α) : Option (List α) :=
  (pairInto add (n / 2) buf).bind (carry n (n / 2))

/-- `while n > 1`. -/
def halveInPlace (n : ℕ) (buf : List α) : Option (List α) :=
  if 1 < n then (level add n buf).bind (halveInPlace (n / 2 + n % 2)) else some buf
termination_by n
decreasing_by omega

/-- `for k in range(length): buf[k] = rows[k, j]`. -/
def fillColumn (rows : List (List α)) (j : ℕ) (buf : List α) : Option (List α) :=
  (List.range rows.length).foldlM (fun buf k => do
    let row ← rows[k]?
    let v ← row[j]?
    some (buf.set k v)) buf

/-- `tree_sum_loop`: one total a column; `buf` is the uninitialised buffer, which every column
reuses. -/
def treeSumLoop (rows : List (List α)) (width : ℕ) (buf : List α) : Option (List α) :=
  ((List.range width).foldlM (fun (out, buf) j => do
    let buf ← fillColumn rows j buf
    let buf ← halveInPlace add rows.length buf
    let total ← buf[0]?
    some (out ++ [total], buf)) ([], buf)).map Prod.fst

variable {buf : List α} {rows : List (List α)} {width j : ℕ} {axis : Option ℤ}
variable {x values : NdArray α} {along : ℕ}

theorem pairInto_eq {half : ℕ} (h : 2 * half ≤ buf.length) :
    pairInto add half buf = some
      (zipWith add (buf.take half) ((buf.drop half).take half) ++ buf.drop half) := by
  -- After `m` steps the first `m` elements are sums, the others are still to be read.
  have hsteps : ∀ m ≤ half, (List.range m).foldlM (fun buf k => do
      let a ← buf[k]?
      let b ← buf[half + k]?
      some (buf.set k (add a b))) buf =
      some (zipWith add (buf.take m) ((buf.drop half).take m) ++ buf.drop m) := by
    intro m
    induction m with
    | zero => intro _; simp
    | succ m ih =>
      intro hm
      have hlength : (zipWith add (buf.take m) ((buf.drop half).take m)).length = m := by
        simp only [length_zipWith, length_take, length_drop]
        omega
      have ha : buf[m]? = some buf[m] := getElem?_eq_getElem (by omega)
      have hb : buf[half + m]? = some buf[half + m] := getElem?_eq_getElem (by omega)
      have hdrop : m < (buf.drop half).length := by
        rw [length_drop]
        omega
      rw [range_succ, foldlM_append, ih (by omega)]
      simp only [foldlM_cons, foldlM_nil, bind_eq_bind, bind_some]
      rw [getElem?_append_right (by omega), hlength, getElem?_append_right (by omega),
        hlength, getElem?_drop, getElem?_drop, Nat.sub_self, Nat.add_zero, ha,
        show m + (half + m - m) = half + m by omega, hb]
      simp only [bind_some]
      rw [set_append_right _ _ (by omega), hlength, Nat.sub_self,
        drop_eq_getElem_cons (show m < buf.length by omega), set_cons_zero,
        take_succ_eq_append_getElem (show m < buf.length by omega),
        take_succ_eq_append_getElem hdrop, zipWith_append]
      · simp
      · simp only [length_take, length_drop]
        omega
  exact hsteps half le_rfl

/-- **A level halves the elements in use**, and the odd one is carried along. -/
theorem level_eq {n : ℕ} (h : n ≤ buf.length) :
    ∃ buf', level add n buf = some buf' ∧ buf'.length = buf.length ∧
      buf'.take (n / 2 + n % 2) = halve add (buf.take n) := by
  have hpaired : (zipWith add (buf.take (n / 2)) ((buf.drop (n / 2)).take (n / 2))).length =
      n / 2 := by
    simp only [length_zipWith, length_take, length_drop]
    omega
  have hhalf : halve add (buf.take n) =
      if n % 2 = 1 then zipWith add (buf.take (n / 2)) ((buf.drop (n / 2)).take (n / 2)) ++
        (buf.drop (2 * (n / 2))).take (n - 2 * (n / 2))
      else zipWith add (buf.take (n / 2)) ((buf.drop (n / 2)).take (n / 2)) := by
    have hlength : (buf.take n).length = n := by rw [length_take]; omega
    simp only [halve, hlength, drop_take, take_take]
    rw [Nat.min_eq_left (show n / 2 ≤ n by omega),
      Nat.min_eq_left (show n / 2 ≤ n - n / 2 by omega)]
  rw [level, pairInto_eq add (by omega), bind_some, carry]
  generalize zipWith add (buf.take (n / 2)) ((buf.drop (n / 2)).take (n / 2)) = paired at *
  by_cases hodd : n % 2 = 1
  · have hlt : 2 * (n / 2) < buf.length := by omega
    rw [if_pos hodd, getElem?_append_right (by omega), hpaired, getElem?_drop,
      show n / 2 + (2 * (n / 2) - n / 2) = 2 * (n / 2) by omega, getElem?_eq_getElem hlt]
    refine ⟨_, rfl, ?_, ?_⟩
    · rw [length_set, length_append, hpaired, length_drop]
      omega
    · rw [hhalf, if_pos hodd, set_append_right _ _ (by omega), hpaired, Nat.sub_self,
        drop_eq_getElem_cons (show n / 2 < buf.length by omega), set_cons_zero,
        drop_eq_getElem_cons hlt, show n - 2 * (n / 2) = 1 by omega, take_succ_cons,
        take_zero, hodd]
      rw [take_append, hpaired, take_of_length_le (by omega), Nat.add_sub_cancel_left]
      rfl
  · rw [if_neg hodd]
    refine ⟨_, rfl, ?_, ?_⟩
    · rw [length_append, hpaired, length_drop]
      omega
    · rw [hhalf, if_neg hodd, show n / 2 + n % 2 = n / 2 by omega, take_append, hpaired,
        Nat.sub_self, take_zero, append_nil, take_of_length_le (by omega)]

theorem halveInPlace_eq {n : ℕ} {buf : List α} (hn : 0 < n) (h : n ≤ buf.length) :
    ∃ buf', halveInPlace add n buf = some buf' ∧ buf'.length = buf.length ∧
      buf'.take 1 = halveAll add (buf.take n) := by
  induction n using Nat.strong_induction_on generalizing buf with
  | h n ih =>
    have hlength : (buf.take n).length = n := by rw [length_take]; omega
    by_cases hlong : 1 < n
    · obtain ⟨buf₁, hlevel, hlength₁, htake⟩ := level_eq add h
      obtain ⟨buf₂, hrest, hlength₂, htotal⟩ := @ih (n / 2 + n % 2) (by omega) buf₁
        (by omega) (by omega)
      refine ⟨buf₂, ?_, hlength₂.trans hlength₁, ?_⟩
      · rw [halveInPlace, if_pos hlong, hlevel, bind_some, hrest]
      · rw [htotal, htake, eq_comm, halveAll, if_pos (by rwa [hlength])]
    · refine ⟨buf, by rw [halveInPlace, if_neg hlong], rfl, ?_⟩
      rw [halveAll, if_neg (by rwa [hlength]), show n = 1 by omega]

/-- Column `j` of the rows. -/
def column (rows : List (List α)) (j : ℕ) : List α := rows.filterMap (·[j]?)

theorem map_some_column (h : ∀ row ∈ rows, row.length = width) (hj : j < width) :
    (column rows j).map some = rows.map (·[j]?) := by
  induction rows with
  | nil => rfl
  | cons row rows ih =>
    have hlt : j < row.length := by rwa [h row mem_cons_self]
    have hrow : row[j]? = some row[j] := getElem?_eq_getElem hlt
    have hcons : column (row :: rows) j = _ :: column rows j := filterMap_cons_some hrow
    rw [hcons, map_cons, map_cons, hrow, ih fun r hr => h r (mem_cons_of_mem _ hr)]

theorem length_column (h : ∀ row ∈ rows, row.length = width) (hj : j < width) :
    (column rows j).length = rows.length := by
  simpa using congrArg List.length (map_some_column h hj)

theorem fillColumn_eq (h : ∀ row ∈ rows, row.length = width) (hj : j < width)
    (hbuf : buf.length = rows.length) :
    fillColumn rows j buf = some (column rows j) := by
  have hlength := length_column h hj
  have hsteps : ∀ m ≤ rows.length, (List.range m).foldlM (fun buf k => do
      let row ← rows[k]?
      let v ← row[j]?
      some (buf.set k v)) buf = some ((column rows j).take m ++ buf.drop m) := by
    intro m
    induction m with
    | zero => intro _; simp
    | succ m ih =>
      intro hm
      have hm' : m < (column rows j).length := by omega
      have hv : rows[m]?.bind (·[j]?) = some (column rows j)[m] := by
        have hat := congrArg (·[m]?) (map_some_column h hj)
        simp only [getElem?_map] at hat
        rw [getElem?_eq_getElem (show m < (column rows j).length by omega)] at hat
        rw [getElem?_eq_getElem (show m < rows.length by omega)] at hat ⊢
        simpa using hat.symm
      rw [range_succ, foldlM_append, ih (by omega)]
      simp only [foldlM_cons, foldlM_nil, bind_eq_bind, bind_some]
      rw [← bind_assoc, hv, bind_some, bind_some,
        set_append_right _ _ (by rw [length_take]; omega), length_take,
        Nat.min_eq_left (by omega), Nat.sub_self,
        drop_eq_getElem_cons (show m < buf.length by omega), set_cons_zero,
        take_succ_eq_append_getElem (show m < (column rows j).length by omega),
        append_assoc]
      rfl
  rw [fillColumn, hsteps _ le_rfl, take_of_length_le (by omega),
    drop_eq_nil_of_le (by omega), append_nil]

/-- The total of a column by whole rows is the total of the column. -/
theorem column_halveAll (h : ∀ row ∈ rows, row.length = width) (hj : j < width) :
    (halveAll (zipWith add) rows).map (·[j]?) =
      (halveAll add (column rows j)).map some := by
  have hrows := @halveAll_map _ _ (zipWith add) (fun a b => a.bind fun a => b.map (add a))
    (fun row : List α => row[j]?) (fun a b => by
      rw [getElem?_zipWith]
      cases a[j]? <;> cases b[j]? <;> rfl) rows
  have hcolumn := @halveAll_map _ _ add (fun a b => a.bind fun a => b.map (add a)) some
    (fun _ _ => rfl) (column rows j)
  rw [hrows, hcolumn, map_some_column h hj]

/-- **The loop computes the totals of the whole-array halving**: it makes the additions of halving
the rows, column by column. -/
theorem treeSumLoop_eq {total : List α} (hrows : rows ≠ []) (h : ∀ row ∈ rows, row.length = width)
    (hbuf : buf.length = rows.length) (htotal : halveAll (zipWith add) rows = [total]) :
    treeSumLoop add rows width buf = some total := by
  have hwidth : total.length = width := by
    refine forall_mem_halveAll (zipWith add) (P := fun row => row.length = width) ?_ h total
      (by rw [htotal]; exact mem_singleton_self _)
    intro a b ha hb
    rw [length_zipWith, ha, hb, Nat.min_self]
  -- After `m` columns the first `m` totals are out; the buffer holds the remains of the last one.
  have hsteps : ∀ m ≤ width, ∃ buf' : List α, buf'.length = rows.length ∧
      (List.range m).foldlM (fun (state : List α × List α) j => do
        let buf ← fillColumn rows j state.2
        let buf ← halveInPlace add rows.length buf
        let total ← buf[0]?
        some (state.1 ++ [total], buf)) ([], buf) = some (total.take m, buf') := by
    intro m
    induction m with
    | zero => intro _; exact ⟨buf, hbuf, by simp⟩
    | succ m ih =>
      intro hm
      obtain ⟨buf₁, hlength₁, hfold⟩ := ih (by omega)
      have hlength := length_column h (show m < width by omega)
      obtain ⟨buf₂, hhalve, hlength₂, htake⟩ := @halveInPlace_eq _ add rows.length
        (column rows m) (length_pos_iff.2 hrows) (by omega)
      refine ⟨buf₂, by omega, ?_⟩
      have hm' : m < total.length := by omega
      have hhead : buf₂[0]? = some total[m] := by
        have hcolumn := column_halveAll add h (show m < width by omega)
        rw [← hlength, take_length] at htake
        rw [htotal, ← htake, map_take, map_singleton,
          getElem?_eq_getElem (by omega)] at hcolumn
        have hat := congrArg (·[0]?) hcolumn
        simp only [getElem?_cons_zero, getElem?_take_of_lt Nat.one_pos,
          getElem?_map] at hat
        cases hbuf₂ : buf₂[0]? with
        | none => rw [hbuf₂] at hat; cases hat
        | some v => rw [hbuf₂] at hat; cases hat; rfl
      rw [range_succ, foldlM_append, hfold]
      simp only [foldlM_cons, foldlM_nil, bind_eq_bind, bind_some]
      rw [fillColumn_eq h (by omega) hlength₁, bind_some, hhalve, bind_some, hhead,
        take_succ_eq_append_getElem (show m < total.length by omega)]
      rfl
  obtain ⟨buf', -, hfold⟩ := hsteps width le_rfl
  rw [treeSumLoop, hfold, take_of_length_le (by omega)]
  rfl

/-! ### Arrays and their axes -/

/-- `HOST_LOOP_MIN`. -/
def HOST_LOOP_MIN : ℕ := 2 ^ 16

/-- The data types the functions tell apart. -/
inductive Dtype
  | boolean
  | integer
  | float32
  | float64
  | other
  deriving DecidableEq, Repr

/-- `exact_in_any_order`: `values.dtype.kind in "biu"`. -/
def Dtype.exactInAnyOrder : Dtype → Bool
  | boolean | integer => true
  | _ => false

/-- What the functions use of the array module and of the values' type. -/
structure Setting (α : Type) where
  /-- `values.dtype`. -/
  dtype : Dtype
  /-- `xp is np`. -/
  isNumpy : Bool
  /-- The addition of two elements. -/
  add : α → α → α
  /-- The element of `xp.zeros`. -/
  zero : α
  /-- What `np.empty` leaves in a buffer. -/
  uninit : ℕ → α
  /-- The array module's own `sum` and `cumsum`, taken where every order is exact. -/
  exactSum : Option ℤ → Bool → NdArray α → Option (NdArray α)
  exactCumsum : Option ℤ → NdArray α → Option (NdArray α)

/-- The rows of `moveaxis(values, axis, 0)`, each in row-major order. -/
def moveaxis (axis : ℕ) (x : NdArray α) : List (List α) :=
  (List.range (x.shape.getD axis 0)).map fun k =>
    NdArray.pick x.data ((multiIndices ((x.shape.eraseIdx axis).map List.range)).map fun idx =>
      flatIndex x.shape (idx.insertIdx axis k))

/-- `reshape`: the same elements in another shape; an error when the sizes differ. -/
def reshape (shape : List ℕ) (data : List α) : Option (NdArray α) :=
  if h : data.length = shape.prod then some ⟨shape, data, h⟩ else none

/-- `values.reshape(-1)`. -/
def flatten (x : NdArray α) : NdArray α := ⟨[x.data.length], x.data, by simp⟩

/-- The array and the axis that are reduced: the flattened array for no axis; an error for an axis
of an array without axes. -/
def target (axis : Option ℤ) (x : NdArray α) : Option (NdArray α × ℕ) :=
  match axis with
  | none => some (flatten x, 0)
  | some axis => if x.shape = [] then none else some (x, (axis % x.shape.length).toNat)

/-- The halving of whole arrays: the first of the rows left. -/
def wholeSum (S : Setting α) (rows : List (List α)) (width : ℕ) : Option (List α) :=
  if rows.length = 0 then some (replicate width S.zero)
  else (halveAll (zipWith S.add) rows)[0]?

/-- The totals along an axis. -/
def totals (S : Setting α) (axis : ℕ) (x : NdArray α) : Option (List α) :=
  let rows := moveaxis axis x
  let width := (x.shape.eraseIdx axis).prod
  if 0 < rows.length ∧ (S.dtype = .float32 ∨ S.dtype = .float64) ∧ S.isNumpy = true ∧
      HOST_LOOP_MIN ≤ x.data.length then
    treeSumLoop S.add rows width ((List.range rows.length).map S.uninit)
  else wholeSum S rows width

/-- The shape of the totals. -/
def totalShape (axis : Option ℤ) (keepdims : Bool) (x : NdArray α) : List ℕ :=
  match axis with
  | none => if keepdims then replicate x.shape.length 1 else []
  | some axis =>
    let axis := (axis % x.shape.length).toNat
    if keepdims then (x.shape.eraseIdx axis).insertIdx axis 1 else x.shape.eraseIdx axis

/-- `exact_math.sum`. -/
def sum (S : Setting α) (axis : Option ℤ) (keepdims : Bool) (x : NdArray α) :
    Option (NdArray α) :=
  if S.dtype.exactInAnyOrder = true then S.exactSum axis keepdims x
  else do
    let (values, along) ← target axis x
    let data ← totals S along values
    reshape (totalShape axis keepdims x) data

/-- `xp.moveaxis(rows, 0, axis)` as elements of the shape. -/
def moveBack (shape : List ℕ) (axis : ℕ) (rows : List (List α)) : Option (List α) :=
  (multiIndices (shape.map List.range)).mapM fun idx => idx[axis]?.bind fun k =>
    rows[k]?.bind fun row => row[flatIndex (shape.eraseIdx axis) (idx.eraseIdx axis)]?

/-- `exact_math.cumsum`. -/
def cumsum (S : Setting α) (axis : Option ℤ) (x : NdArray α) : Option (NdArray α) :=
  if S.dtype.exactInAnyOrder = true then S.exactCumsum axis x
  else do
    let (values, along) ← target axis x
    let rows := moveaxis along values
    let data ← moveBack values.shape along (scan (zipWith S.add) rows.length 1 rows)
    reshape values.shape data

/-- The elements of `x` along an axis, at an index of the other axes. -/
def Column (x : NdArray α) (axis : ℕ) (idx : List ℕ) (col : ℕ → α) : Prop :=
  ∀ k < x.shape.getD axis 0, x.data[flatIndex x.shape (idx.insertIdx axis k)]? = some (col k)

/-! ### The rows of an array -/

theorem length_moveaxis (axis : ℕ) (x : NdArray α) :
    (moveaxis axis x).length = x.shape.getD axis 0 := by
  rw [moveaxis, length_map, length_range]

section Rows

variable {x : NdArray α} {axis : ℕ} (haxis : axis < x.shape.length)
variable {idx : List ℕ} {col : ℕ → α}
include haxis

theorem map_some_row {k : ℕ} (hk : k < x.shape.getD axis 0) :
    (NdArray.pick x.data ((multiIndices ((x.shape.eraseIdx axis).map List.range)).map fun idx =>
      flatIndex x.shape (idx.insertIdx axis k))).map some =
      (multiIndices ((x.shape.eraseIdx axis).map List.range)).map fun idx =>
        x.data[flatIndex x.shape (idx.insertIdx axis k)]? := by
  rw [NdArray.pick_eq_some, List.map_map]
  · rfl
  · intro p hp
    obtain ⟨idx, hidx, rfl⟩ := mem_map.1 hp
    rw [mem_multiIndices, forall₂_map_right_iff] at hidx
    rw [x.size_eq]
    exact flatIndex_lt (forall₂_insertIdx haxis hk (hidx.imp fun _ _ hi => mem_range.1 hi))

theorem length_of_mem_moveaxis :
    ∀ row ∈ moveaxis axis x, row.length = (x.shape.eraseIdx axis).prod := by
  intro row hrow
  obtain ⟨k, hk, rfl⟩ := mem_map.1 hrow
  have hlength := congrArg List.length (map_some_row haxis (mem_range.1 hk))
  rw [length_map, length_map, length_multiIndices, List.map_map] at hlength
  rw [hlength]
  simp [Function.comp_def]

theorem exists_column (hidx : Forall₂ (· < ·) idx (x.shape.eraseIdx axis))
    (hpos : 0 < x.shape.getD axis 0) : ∃ col, Column x axis idx col := by
  have hlt : ∀ k < x.shape.getD axis 0,
      flatIndex x.shape (idx.insertIdx axis k) < x.data.length := by
    intro k hk
    rw [x.size_eq]
    exact flatIndex_lt (forall₂_insertIdx haxis hk hidx)
  have hzero := hlt 0 hpos
  refine ⟨fun k => x.data.getD (flatIndex x.shape (idx.insertIdx axis k))
    x.data[flatIndex x.shape (idx.insertIdx axis 0)], fun k hk => ?_⟩
  dsimp only
  rw [getElem?_eq_getElem (hlt k hk), getD_eq_getElem _ _ (hlt k hk)]

/-- The rows of an array hold its columns. -/
theorem map_getElem?_moveaxis (hidx : Forall₂ (· < ·) idx (x.shape.eraseIdx axis))
    (hcol : Column x axis idx col) :
    (moveaxis axis x).map (·[flatIndex (x.shape.eraseIdx axis) idx]?) =
      ((List.range (x.shape.getD axis 0)).map col).map some := by
  rw [moveaxis, List.map_map, List.map_map]
  refine map_congr_left fun k hk => ?_
  have hk := mem_range.1 hk
  have hat := congrArg (·[flatIndex (x.shape.eraseIdx axis) idx]?) (map_some_row haxis hk)
  simp only [getElem?_map, getElem?_multiIndices_range hidx, map_some, hcol k hk] at hat
  simp only [Function.comp_apply]
  obtain ⟨v, hv, hat⟩ := map_eq_some_iff.1 hat
  rw [hv, some.inj hat]

theorem column_moveaxis (hidx : Forall₂ (· < ·) idx (x.shape.eraseIdx axis))
    (hcol : Column x axis idx col) :
    column (moveaxis axis x) (flatIndex (x.shape.eraseIdx axis) idx) =
      (List.range (x.shape.getD axis 0)).map col := by
  have hmap := map_some_column (length_of_mem_moveaxis haxis) (flatIndex_lt hidx)
  rw [map_getElem?_moveaxis haxis hidx hcol] at hmap
  exact map_injective_iff.2 (some_injective α) hmap

end Rows

/-- The axis that is reduced is one of the array's. -/
theorem target_lt (h : target axis x = some (values, along)) : along < values.shape.length := by
  cases axis with
  | none =>
    cases h
    exact Nat.one_pos
  | some axis =>
    rw [target] at h
    split at h
    · cases h
    · rename_i hne
      cases h
      have hpos : 0 < (x.shape.length : ℤ) := by
        have := length_pos_iff.2 hne
        omega
      have := Int.emod_nonneg axis (Int.ne_of_gt hpos)
      have := Int.emod_lt_of_pos axis hpos
      omega

theorem prod_totalShape {keepdims : Bool} (h : target axis x = some (values, along)) :
    (totalShape axis keepdims x).prod = (values.shape.eraseIdx along).prod := by
  have hlt := target_lt h
  cases axis with
  | none =>
    cases h
    cases keepdims <;> simp [totalShape, flatten]
  | some axis =>
    rw [target] at h
    split at h
    · cases h
    · cases h
      cases keepdims with
      | false => rfl
      | true =>
        refine (List.CommMonoid.prod_insertIdx ?_).trans (Nat.one_mul _)
        rw [length_eraseIdx_of_lt hlt]
        omega

/-! ### The totals -/

theorem length_total (h : ∀ row ∈ rows, row.length = width) (hrows : rows ≠ []) :
    ∃ total : List α, halveAll (zipWith add) rows = [total] ∧ total.length = width := by
  obtain ⟨total, htotal⟩ := length_eq_one_iff.1 (length_halveAll (zipWith add) hrows)
  refine ⟨total, htotal, forall_mem_halveAll (zipWith add)
    (P := fun row => row.length = width) ?_ h total
      (by rw [htotal]; exact mem_singleton_self _)⟩
  intro a b ha hb
  rw [length_zipWith, ha, hb, Nat.min_self]

variable {add}

/-- **Both paths compute the same totals**, each one the tree of the length over its column. -/
theorem totals_eq (S : Setting α) {axis : ℕ} (haxis : axis < x.shape.length) :
    ∃ total : List α, totals S axis x = some total ∧
      wholeSum S (moveaxis axis x) (x.shape.eraseIdx axis).prod = some total ∧
      total.length = (x.shape.eraseIdx axis).prod ∧
      (0 < x.shape.getD axis 0 → (∀ buf : List α, buf.length = x.shape.getD axis 0 →
        treeSumLoop S.add (moveaxis axis x) (x.shape.eraseIdx axis).prod buf = some total) ∧
        ∀ idx, Forall₂ (· < ·) idx (x.shape.eraseIdx axis) → ∀ col, Column x axis idx col →
          total[flatIndex (x.shape.eraseIdx axis) idx]? =
            some ((sumTree (x.shape.getD axis 0)).eval S.add col)) := by
  have hlength := length_moveaxis axis x
  have hwidth := length_of_mem_moveaxis haxis
  by_cases hpos : 0 < x.shape.getD axis 0
  · have hrows : moveaxis axis x ≠ [] := ne_nil_of_length_pos (by omega)
    obtain ⟨total, htotal, htotallength⟩ := length_total S.add hwidth hrows
    have hwhole : wholeSum S (moveaxis axis x) (x.shape.eraseIdx axis).prod = some total := by
      rw [wholeSum, if_neg (by omega), htotal]
      rfl
    have hloop : ∀ buf : List α, buf.length = x.shape.getD axis 0 →
        treeSumLoop S.add (moveaxis axis x) (x.shape.eraseIdx axis).prod buf = some total :=
      fun buf hbuf => treeSumLoop_eq S.add hrows hwidth (hbuf.trans hlength.symm) htotal
    refine ⟨total, ?_, hwhole, htotallength, fun _ => ⟨hloop, fun idx hidx col hcol => ?_⟩⟩
    · simp only [totals]
      split
      · exact hloop _ (by rw [length_map, length_range, hlength])
      · exact hwhole
    · have hcolumn := column_halveAll S.add hwidth (flatIndex_lt hidx)
      rw [htotal, column_moveaxis haxis hidx hcol, eval_sumTree S.add hpos] at hcolumn
      exact (cons.inj hcolumn).1
  · refine ⟨replicate (x.shape.eraseIdx axis).prod S.zero, ?_, ?_, length_replicate,
      fun h => absurd h hpos⟩
    · simp only [totals]
      rw [if_neg (fun h => hpos (hlength ▸ h.1)), wholeSum, if_pos (by omega)]
    · rw [wholeSum, if_pos (by omega)]

/-- **`sum` in a fixed order.** -/
theorem fixed_order_sum (S : Setting α) (hS : S.dtype.exactInAnyOrder = false) (keepdims : Bool)
    (htarget : target axis x = some (values, along)) :
    ∃ total : NdArray α, sum S axis keepdims x = some total ∧
      total.shape = totalShape axis keepdims x ∧
      wholeSum S (moveaxis along values) (values.shape.eraseIdx along).prod = some total.data := by
  obtain ⟨total, htotal, hwhole, hlength, -⟩ := totals_eq S (target_lt htarget)
  have hshape : total.length = (totalShape axis keepdims x).prod := by
    rw [hlength, prod_totalShape htarget]
  refine ⟨⟨_, total, hshape⟩, ?_, rfl, hwhole⟩
  rw [sum, if_neg (by rw [hS]; exact Bool.false_ne_true), htarget]
  simp only [bind_eq_bind, bind_some, htotal]
  rw [reshape, dif_pos hshape]

/-! ### The running sums -/

/-- The rows of the scan hold the sums of the columns. -/
theorem scan_moveaxis {axis : ℕ} (haxis : axis < x.shape.length)
    (hadd : ∀ a b c, add (add a b) c = add a (add b c)) {idx : List ℕ}
    (hidx : Forall₂ (· < ·) idx (x.shape.eraseIdx axis)) {col : ℕ → α}
    (hcol : Column x axis idx col) {k : ℕ} (hk : k < x.shape.getD axis 0) :
    ((scan (zipWith add) (moveaxis axis x).length 1 (moveaxis axis x))[k]?.bind fun row =>
      row[flatIndex (x.shape.eraseIdx axis) idx]?) = some (window add col k k) := by
  have hrows := @scan_map _ _ (zipWith add) (fun a b => a.bind fun a => b.map (add a))
    (fun row : List α => row[flatIndex (x.shape.eraseIdx axis) idx]?) (fun a b => by
      rw [getElem?_zipWith]
      cases a[flatIndex (x.shape.eraseIdx axis) idx]? <;>
        cases b[flatIndex (x.shape.eraseIdx axis) idx]? <;> rfl)
    (moveaxis axis x).length 1 (moveaxis axis x)
  have hcolumn := @scan_map _ _ add (fun a b => a.bind fun a => b.map (add a)) some
    (fun _ _ => rfl)
    (x.shape.getD axis 0) 1 ((List.range (x.shape.getD axis 0)).map col)
  rw [length_moveaxis, map_getElem?_moveaxis haxis hidx hcol, ← hcolumn] at hrows
  have hat := congrArg (·[k]?) hrows
  simp only [getElem?_map, getElem?_scan hadd col hk, map_some] at hat
  rw [length_moveaxis]
  obtain ⟨row, hrow, hvalue⟩ := map_eq_some_iff.1 hat
  rw [hrow, bind_some, hvalue]

/-- The elements of an array put together index by index. -/
theorem exists_gathered {shape : List ℕ} {f : List ℕ → Option α}
    (h : ∀ idx, Forall₂ (· < ·) idx shape → ∃ v, f idx = some v) :
    ∃ data : List α, (multiIndices (shape.map List.range)).mapM f = some data ∧
      data.length = shape.prod ∧
      ∀ idx, Forall₂ (· < ·) idx shape → data[flatIndex shape idx]? = f idx := by
  have hbounds : ∀ idx ∈ multiIndices (shape.map List.range), Forall₂ (· < ·) idx shape := by
    intro idx hidx
    rw [mem_multiIndices, forall₂_map_right_iff] at hidx
    exact hidx.imp fun _ _ hi => mem_range.1 hi
  obtain ⟨data, hdata⟩ := exists_mapM_some fun idx hidx => h idx (hbounds idx hidx)
  have hforall := mapM_eq_some.1 hdata
  have hlength : (multiIndices (shape.map List.range)).length = shape.prod := by
    rw [length_multiIndices, List.map_map]
    simp [Function.comp_def]
  have hdatalength : data.length = shape.prod := hforall.length_eq.symm.trans hlength
  refine ⟨data, hdata, hdatalength, fun idx hidx => ?_⟩
  have hlt := flatIndex_lt hidx
  have hat := (forall₂_iff_get.1 hforall).2 (flatIndex shape idx) (by omega) (by omega)
  have hidx' := getElem?_multiIndices_range hidx
  rw [getElem?_eq_getElem (by omega)] at hidx'
  rw [get_eq_getElem, get_eq_getElem, some.inj hidx'] at hat
  rw [hat, getElem?_eq_getElem]

/-- **`cumsum` returns the sums of the elements up to each one**, the last one first. -/
theorem fixed_order_cumsum (S : Setting α) (hS : S.dtype.exactInAnyOrder = false)
    (hadd : ∀ a b c, S.add (S.add a b) c = S.add a (S.add b c))
    (htarget : target axis x = some (values, along)) :
    ∃ out : NdArray α, cumsum S axis x = some out ∧ out.shape = values.shape ∧
      ∀ idx, Forall₂ (· < ·) idx (values.shape.eraseIdx along) → ∀ col,
        Column values along idx col → ∀ k < values.shape.getD along 0,
          out.data[flatIndex values.shape (idx.insertIdx along k)]? =
            some (window S.add col k k) := by
  have haxis := target_lt htarget
  set rows := scan (zipWith S.add) (moveaxis along values).length 1 (moveaxis along values)
  have hvalue : ∀ idx, Forall₂ (· < ·) idx (values.shape.eraseIdx along) → ∀ col,
      Column values along idx col → ∀ k < values.shape.getD along 0,
      ((idx.insertIdx along k)[along]?.bind fun i => rows[i]?.bind fun row =>
        row[flatIndex (values.shape.eraseIdx along) ((idx.insertIdx along k).eraseIdx along)]?) =
        some (window S.add col k k) := by
    intro idx hidx col hcol k hk
    have hle : along ≤ idx.length := by
      rw [hidx.length_eq, length_eraseIdx_of_lt haxis]
      omega
    rw [getElem?_insertIdx_self, if_pos hle, bind_some, eraseIdx_insertIdx_self]
    exact scan_moveaxis haxis hadd hidx hcol hk
  have hall : ∀ idx, Forall₂ (· < ·) idx values.shape → ∃ v,
      (idx[along]?.bind fun i => rows[i]?.bind fun row =>
        row[flatIndex (values.shape.eraseIdx along) (idx.eraseIdx along)]?) = some v := by
    intro idx hbounds
    have hlt : along < idx.length := by rw [hbounds.length_eq]; exact haxis
    have hk : idx[along] < values.shape.getD along 0 := by
      rw [getD_eq_getElem _ _ haxis]
      exact (forall₂_iff_get.1 hbounds).2 along hlt haxis
    have herase := forall₂_eraseIdx along hbounds
    obtain ⟨col, hcol⟩ := exists_column haxis herase (by omega)
    have hv := hvalue _ herase col hcol _ hk
    rw [insertIdx_eraseIdx_getElem hlt] at hv
    exact ⟨_, hv⟩
  obtain ⟨data, hdata, hlength, hat⟩ := exists_gathered hall
  refine ⟨⟨values.shape, data, hlength⟩, ?_, rfl, fun idx hidx col hcol k hk => ?_⟩
  · rw [cumsum, if_neg (by rw [hS]; exact Bool.false_ne_true), htarget]
    simp only [bind_eq_bind, bind_some]
    rw [show moveBack values.shape along rows = some data from hdata, bind_some, reshape,
      dif_pos hlength]
  · rw [hat _ (forall₂_insertIdx haxis hk hidx)]
    exact hvalue idx hidx col hcol k hk

/-- **Fixed-order reductions.**  `sum` returns what both paths compute, each total the tree of the
length over its column, in which each element is a leaf exactly once; `cumsum` returns the sums
`xₖ + (xₖ₋₁ + … + x₀)` when the addition is associative, which are the running sums when it is
commutative too. -/
theorem fixed_order_reductions (S : Setting α) (hS : S.dtype.exactInAnyOrder = false)
    {axis : Option ℤ} (keepdims : Bool) {x values : NdArray α} {along : ℕ}
    (htarget : target axis x = some (values, along)) :
    (∃ total : NdArray α, sum S axis keepdims x = some total ∧
      total.shape = totalShape axis keepdims x ∧
      wholeSum S (moveaxis along values) (values.shape.eraseIdx along).prod = some total.data ∧
      (0 < values.shape.getD along 0 →
        (∀ buf : List α, buf.length = values.shape.getD along 0 →
          treeSumLoop S.add (moveaxis along values) (values.shape.eraseIdx along).prod buf =
            some total.data) ∧
        ∀ idx, Forall₂ (· < ·) idx (values.shape.eraseIdx along) →
          ∃ col, Column values along idx col ∧
            total.data[flatIndex (values.shape.eraseIdx along) idx]? =
              some ((sumTree (values.shape.getD along 0)).eval S.add col))) ∧
      (0 < values.shape.getD along 0 → (sumTree (values.shape.getD along 0)).leaves.Perm
        (List.range (values.shape.getD along 0))) ∧
      ((∀ a b c, S.add (S.add a b) c = S.add a (S.add b c)) →
        ∃ out : NdArray α, cumsum S axis x = some out ∧ out.shape = values.shape ∧
          ∀ idx, Forall₂ (· < ·) idx (values.shape.eraseIdx along) → ∀ col,
            Column values along idx col → ∀ k < values.shape.getD along 0,
              out.data[flatIndex values.shape (idx.insertIdx along k)]? =
                  some (window S.add col k k) ∧
                ((∀ a b, S.add a b = S.add b a) →
                  window S.add col k k = runningSum S.add col k)) := by
  have haxis := target_lt htarget
  refine ⟨?_, fun hpos => leaves_sumTree hpos, fun hadd => ?_⟩
  · obtain ⟨total, hsum, hshape, hwhole⟩ := fixed_order_sum S hS keepdims htarget
    obtain ⟨total', -, hwhole', -, htree⟩ := totals_eq S haxis
    obtain rfl : total' = total.data := some.inj (hwhole'.symm.trans hwhole)
    refine ⟨total, hsum, hshape, hwhole, fun hpos => ⟨(htree hpos).1, fun idx hidx => ?_⟩⟩
    obtain ⟨col, hcol⟩ := exists_column haxis hidx hpos
    exact ⟨col, hcol, (htree hpos).2 idx hidx col hcol⟩
  · obtain ⟨out, hout, hshape, hat⟩ := fixed_order_cumsum S hS hadd htarget
    exact ⟨out, hout, hshape, fun idx hidx col hcol k hk =>
      ⟨hat idx hidx col hcol k hk, fun hcomm => window_eq_runningSum hcomm col k⟩⟩

/-- Doubles of a host, added by `add`. -/
def host (add : ℕ → ℕ → ℕ) : Setting ℕ where
  dtype := .float64
  isNumpy := true
  add := add
  zero := 0
  uninit _ := 7
  exactSum _ _ _ := none
  exactCumsum _ _ := none

theorem fixed_order_reductions_columns :
    ∃ total : NdArray ℕ, sum (host (· + ·)) (some (-1)) true ⟨[2, 3], [1, 2, 3, 4, 5, 6], rfl⟩ =
      some total ∧ total.shape = [2, 1] := by
  have htarget : target (some (-1)) (⟨[2, 3], [1, 2, 3, 4, 5, 6], rfl⟩ : NdArray ℕ) =
      some (⟨[2, 3], [1, 2, 3, 4, 5, 6], rfl⟩, 1) := rfl
  obtain ⟨⟨total, hsum, hshape, -⟩, -⟩ := fixed_order_reductions (host (· + ·)) rfl true htarget
  exact ⟨total, hsum, hshape⟩

/-- An associative addition that keeps its left operand: the scan returns the element itself, the
running sum is the first one. -/
theorem cumsum_reversed :
    (∀ a b c : ℕ, (host fun a _ => a).add ((host fun a _ => a).add a b) c =
      (host fun a _ => a).add a ((host fun a _ => a).add b c)) ∧
    cumsum (host fun a _ => a) (some 0) ⟨[2], [0, 1], rfl⟩ = some ⟨[2], [0, 1], rfl⟩ ∧
    (List.range 2).map (runningSum (host fun a _ => a).add fun k => [0, 1].getD k 0) = [0, 0] := by
  refine ⟨fun _ _ _ => rfl, ?_, rfl⟩
  have hscan : scan (zipWith fun a _ => a) 2 1 [[0], [1]] = [[0], [1]] := by
    rw [scan, if_pos (by decide), scan, if_neg (by decide)]
    rfl
  change ((moveBack [2] 0 (scan (zipWith fun a _ => a) 2 1 [[0], [1]])).bind fun data =>
    reshape [2] data) = _
  rw [hscan]
  rfl

end FixedOrder

end HpcAgentBench
