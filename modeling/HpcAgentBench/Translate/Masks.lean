import HpcAgentBench.Translate.Elementwise

/-!
# Boolean-mask stores

`arr[mask] = value` and `arr[mask] op= value` as a loop nest over the array, whose body is guarded
by the element of the mask (`rewriteMask`).  numpy evaluates the mask and the value first, and
stores the values at the selected places, in order (`maskedStore`).

The nest evaluates both while it stores, which is numpy's store where every element that is read by
an index of its own is one that is not stored, and the value is read at the place it is stored to.

## Main results

* `masked_store_sound` : the nest leaves the arrays as numpy does, where it works in place.
-/

namespace HpcAgentBench

open List Option

namespace Translate

/-! ### The rewriter -/

/-- The comparison operators. -/
def isCompare : Operator → Bool
  | .other symbol => symbol ∈ ["==", "!=", "<", "<=", ">", ">="]
  | _ => false

/-- The bare names of a mask. -/
def maskNames (mask : Expr) : List String := loadNames mask

/-- Whether the slice of a read is one that is taken for the mask. -/
def readsMask (names : List String) (mask slice : Expr) : Bool :=
  match slice with
  | .name id => id ∈ names
  | .boolOp _ _ _ => slice = mask
  | .binOp _ _ _ => slice = mask
  | _ => false

/-- A read `arr[mask]` replaced by `arr`, at any depth. -/
def stripMaskSubscripts (names : List String) (mask : Expr) : Expr → Expr
  | .const v => .const v
  | .name id => .name id
  | .attr value a => .attr (stripMaskSubscripts names mask value) a
  | .unaryOp op operand => .unaryOp op (stripMaskSubscripts names mask operand)
  | .binOp op left right =>
    .binOp op (stripMaskSubscripts names mask left) (stripMaskSubscripts names mask right)
  | .boolOp conj left right =>
    .boolOp conj (stripMaskSubscripts names mask left) (stripMaskSubscripts names mask right)
  | .ifExp test body orelse =>
    .ifExp (stripMaskSubscripts names mask test) (stripMaskSubscripts names mask body)
      (stripMaskSubscripts names mask orelse)
  | .call func args =>
    .call (stripMaskSubscripts names mask func) (stripMaskSubscripts names mask args)
  | .subscript value slice =>
    if readsMask names mask (stripMaskSubscripts names mask slice) then
      stripMaskSubscripts names mask value
    else .subscript (stripMaskSubscripts names mask value) (stripMaskSubscripts names mask slice)
  | .slice lower upper step =>
    .slice (stripMaskSubscripts names mask lower) (stripMaskSubscripts names mask upper)
      (stripMaskSubscripts names mask step)
  | .unit => .unit
  | .pair head tail =>
    .pair (stripMaskSubscripts names mask head) (stripMaskSubscripts names mask tail)

section Rewriter

variable (table : ShapeTable) (boolNames : List String)
variable (iterExtentOf : Expr → Option (List Expr)) (constOrName : String → Expr)

/-- Whether an operand of a comparison has the shape of the target. -/
def arrayShaped (shape : List String) : Expr → Bool
  | .name id => (table id).any fun s => s ≠ [] ∧ s = shape
  | e => (iterExtentOf e).any fun ext => ext.length = shape.length

/-- Whether an expression is a boolean array of a shape: one of the forms recognised. -/
def isMaskExpr (shape : List String) : Expr → Bool
  | .binOp op left right =>
    if isCompare op then
      arrayShaped table iterExtentOf shape left || arrayShaped table iterExtentOf shape right
    else if op = .other "&" ∨ op = .other "|" then isMaskExpr shape left && isMaskExpr shape right
    else false
  | .boolOp _ left right => isMaskExpr shape left && isMaskExpr shape right
  | .unaryOp op operand => if op = "~" ∨ op = "not" then isMaskExpr shape operand else false
  | .name id => id ∈ boolNames && (table id).any fun s => s ≠ [] ∧ s = shape
  | _ => false

/-- `A[:, mask] = v`: one mask, every other axis a bare `:`. -/
def axisMask (entries : List Expr) (shape : List String) : Option (ℕ × Expr) :=
  if entries.length ≠ shape.length then none
  else
    match (entries.zip shape).zipIdx.filter fun q => !isFullSlice q.1.1 with
    | [((e, dim), axis)] =>
      if isMaskExpr table boolNames iterExtentOf [dim] e then some (axis, e) else none
    | _ => none

/-- The rank of a mask of the leading axes. -/
def leadingMaskRank (e : Expr) (shape : List String) : Option ℕ :=
  (List.range' 1 (shape.length - 1)).find? fun rank =>
    isMaskExpr table boolNames iterExtentOf (shape.take rank) e

/-- The mask of a store, and the axes it spans where it does not span them all. -/
def findMask (index : Expr) (shape : List String) : Option (Option (List ℕ) × Expr) :=
  if index.isTuple then
    (axisMask table boolNames iterExtentOf index.elts shape).map fun p => (some [p.1], p.2)
  else if isMaskExpr table boolNames iterExtentOf shape index then some (none, index)
  else
    (leadingMaskRank table boolNames iterExtentOf index shape).map fun lead =>
      (some (List.range lead), index)

/-- The loop variables of a nest. -/
def maskIters (rank : ℕ) : List String := (List.range rank).map fun i => "__bm" ++ toString i

/-- The store of an element, where the mask holds. -/
def guardedStore (arr : String) (iters : List String) (test value : Expr)
    (augOp : Option Operator) : Block :=
  let target := Target.subscript (.name arr) (indexSlot (iters.map .name))
  let inner :=
    match augOp with
    | none => .assign [target] value .done
    | some op => .augAssign target op value .done
  .ifElse test inner .done .done

/-- The nest of a masked store, with the test and the value of an element. -/
def maskNest (arr : String) (shape : List String) (test value : Expr) (augOp : Option Operator) :
    Block :=
  let iters := maskIters shape.length
  wrapForLoops (iters.zip (shape.map constOrName)) (guardedStore arr iters test value augOp)

/-- `arr[mask] = value`, or `arr[mask] op= value`, as a loop nest. -/
def rewriteMask (target : Target) (value : Expr) (augOp : Option Operator) : Option Block :=
  match target with
  | .subscript (.name arr) index =>
    (table arr).bind fun shape =>
      if shape = [] then none
      else (findMask table boolNames iterExtentOf index shape).bind fun (axes, mask) =>
        if axes.isSome && (iterExtentOf value).isSome then none
        else
          let iters := maskIters shape.length
          let maskIters := axes.elim iters fun axes => axes.filterMap (iters[·]?)
          (subscriptify table constOrName maskIters mask).bind fun test =>
            (subscriptify table constOrName iters
              (stripMaskSubscripts (maskNames mask) mask value)).map fun scalar =>
                maskNest constOrName arr shape test scalar augOp
  | _ => none

end Rewriter

/-! ### numpy's store -/

section Numpy

variable {V : Type} (I : Interp V) (σ : State V)

/-- The element a subscript reads. -/
def readElement (base : String) (index : Expr) : Option V :=
  (elementPlace I σ base index).bind fun ix => (σ.arrays base).map fun a => a.cells ix

/-- An array of a shape, at an index. -/
def arrayAt (shape ix : List ℕ) (base : String) : Option V :=
  (σ.arrays base).bind fun a => if a.shape = shape then some (a.cells ix) else none

/-- What a name or a subscript has at an index, among arrays of a shape. -/
def fullLeaf (shape ix : List ℕ) : Expr → Option V
  | .name id => if (σ.arrays id).isNone then σ.scalars id else arrayAt σ shape ix id
  | .subscript (.name base) index =>
    if isWhole index then
      if index.elts.length ≤ shape.length then arrayAt σ shape ix base else none
    else readElement I σ base index
  | _ => none

/-- An array of one axis at a position, among arrays of a length; one of length one is broadcast. -/
def vectorAt (count k : ℕ) (base : String) : Option V :=
  (σ.arrays base).bind fun a =>
    if a.shape = [count] then some (a.cells [k])
    else if a.shape = [1] then some (a.cells [0])
    else none

/-- What a name or a subscript of the value has at a selected index, the `k`-th of `count`: a
subscript by the mask gathers the selected elements. -/
def valueLeaf (mask : Expr) (shape ix : List ℕ) (count k : ℕ) : Expr → Option V
  | .name id => if (σ.arrays id).isNone then σ.scalars id else vectorAt σ count k id
  | .subscript value slice =>
    if slice = mask then (elems I σ (fullLeaf I σ shape ix) value).bind single
    else
      match value with
      | .name base =>
        if isWhole slice then
          if slice.elts.length ≤ 1 then vectorAt σ count k base else none
        else readElement I σ base slice
      | _ => none
  | _ => none

/-- An element of the mask. -/
def maskAt (mask : Expr) (shape ix : List ℕ) : Option Bool :=
  ((elems I σ (fullLeaf I σ shape ix) mask).bind single).map I.truth

/-- The indices a mask selects, in order. -/
def selection (mask : Expr) (shape : List ℕ) : Option (List (List ℕ)) :=
  if (box shape).all fun ix => (maskAt I σ mask shape ix).isSome then
    some ((box shape).filter fun ix => maskAt I σ mask shape ix = some true)
  else none

/-- What is stored at a selected index. -/
def storedAt (mask value : Expr) (augOp : Option Operator) (a : Arr V) (sel : List (List ℕ))
    (ix : List ℕ) : Option V :=
  ((elems I σ (valueLeaf I σ mask a.shape ix sel.length (sel.idxOf ix)) value).bind single).bind
    fun v => augOp.elim (some v) fun op => I.binary op (a.cells ix) v

/-- `arr[mask] = value` or `arr[mask] op= value` in numpy: the array it leaves. -/
def maskedStore (arr : String) (mask value : Expr) (augOp : Option Operator) : Option (Arr V) :=
  (σ.arrays arr).bind fun a => (selection I σ mask a.shape).bind fun sel =>
    if sel.all fun ix => (storedAt I σ mask value augOp a sel ix).isSome then
      some { a with
        cells := fun ix =>
          if ix ∈ sel then (storedAt I σ mask value augOp a sel ix).getD (a.cells ix)
          else a.cells ix }
    else none

end Numpy

/-! ### Where the nest works in place -/

/-- A read of a gather by the mask, as it is under the guard; any other read. -/
def ungathered (mask : Expr) : Expr → Expr
  | .subscript value slice => if slice = mask then value else .subscript value slice
  | e => e

/-- The indices of a shape before one. -/
def earlier (shape ix : List ℕ) : List (List ℕ) := (box shape).takeWhile (· ≠ ix)

/-- The array that a name or a subscript reads all of. -/
def wholeName : Expr → Option String
  | .name id => some id
  | .subscript (.name base) index => if isWhole index then some base else none
  | _ => none

section InPlace

variable {V : Type} (I : Interp V) (σ : State V)

/-- Whether one of some reads is of an element of the array at an index in a list. -/
def readsAt (arr : String) (stored : List (List ℕ)) (reads : List Expr) : Bool :=
  reads.any fun
    | .subscript (.name base) index =>
      base = arr && !isWhole index && (elementPlace I σ base index).any (· ∈ stored)
    | _ => false

/-- When the nest may evaluate the mask and the value while it stores. -/
structure InPlace (table : ShapeTable) (constOrName : String → Expr) (arr : String) (mask value : Expr) (shape : List ℕ)
    (sel : List (List ℕ)) : Prop where
  /-- No element the mask names by an index of its own is stored before the mask is read. -/
  maskReads : ∀ ix ∈ box shape,
    readsAt I σ arr ((earlier shape ix).filter (· ∈ sel)) mask.leaves = false
  /-- No element the value names by an index of its own is stored before the value is read. -/
  valueReads : ∀ ix ∈ sel, readsAt I σ arr ((earlier shape ix).filter (· ∈ sel))
    (value.leaves.flatMap fun l => (ungathered mask l).leaves) = false
  /-- A vector's element at the place the nest reads is the one of the position selected. -/
  vectors : ∀ ix ∈ sel, ∀ l ∈ value.leaves, ∀ id, wholeName l = some id → ∀ c,
    σ.arrays id = some c → ∀ toks, table id = some toks →
      nestPlace toks ix = if c.shape = [sel.length] then [sel.idxOf ix] else [0]
  /-- The gathers by the mask are the subscripts stripped. -/
  gathers : ∀ l ∈ value.leaves,
    stripMaskSubscripts (maskNames mask) mask l = ungathered mask l
  /-- The variables of the nest are names of their own. -/
  fresh : ∀ x ∈ maskIters shape.length,
    x ∉ loadNames mask ∧ x ∉ loadNames value ∧ σ.arrays x = none ∧
    ∀ A toks, table A = some toks → ∀ tok ∈ toks, x ∉ loadNames (constOrName tok)

end InPlace

/-! ### The nest, midway -/

section Sound

variable {V : Type} {I : Interp V} {σ τ : State V} {table : ShapeTable}
variable {constOrName : String → Expr} {dim : String → ℕ}

/-- An array with the elements of another one at some indices. -/
def partway (a a' : Arr V) (done : List (List ℕ)) : Arr V :=
  { a with cells := fun ix => if ix ∈ done then a'.cells ix else a.cells ix }

/-- The store after the nest has visited some indices. -/
structure Midway (σ : State V) (arr : String) (a a' : Arr V) (iters : List String)
    (done : List (List ℕ)) (τ : State V) : Prop where
  start : σ.arrays arr = some a
  arrays : τ.arrays = Function.update σ.arrays arr (some (partway a a' done))
  scalars : ∀ x ∉ iters, τ.scalars x = σ.scalars x

variable {arr : String} {a a' : Arr V} {iters : List String} {done : List (List ℕ)}

namespace Midway

variable {id : String} {b : Arr V} {A : String} {shape : List String}

/-- An array, midway: as it was, where nothing has been stored that differs. -/
theorem read (h : Midway σ arr a a' iters done τ) (hb : σ.arrays id = some b) :
    ∃ b', τ.arrays id = some b' ∧ b'.shape = b.shape ∧
      ∀ p, (id = arr → p ∈ done → a'.cells p = a.cells p) → b'.cells p = b.cells p := by
  rw [h.arrays]
  by_cases hid : id = arr
  · subst hid
    obtain rfl := Option.some.inj (h.start.symm.trans hb)
    refine ⟨_, Function.update_self .., rfl, fun p hp => ?_⟩
    simp only [partway]
    split
    · next hdone => exact hp rfl hdone
    · rfl
  · exact ⟨b, by rw [Function.update_of_ne hid, hb], rfl, fun _ _ => rfl⟩

theorem arrays_none (h : Midway σ arr a a' iters done τ) {x : String} (hx : σ.arrays x = none) :
    τ.arrays x = none := by
  have hne : x ≠ arr := fun hx' => by
    rw [hx', h.start] at hx
    cases hx
  rw [h.arrays, Function.update_of_ne hne, hx]

theorem isNone_arrays (h : Midway σ arr a a' iters done τ) (x : String) :
    (τ.arrays x).isNone = (σ.arrays x).isNone := by
  cases hx : σ.arrays x with
  | none => rw [h.arrays_none hx]
  | some b =>
    obtain ⟨b', hb', -⟩ := h.read hx
    rw [hb']
    rfl

/-- Scalars that are not variables of the nest are as they were. -/
theorem same (h : Midway σ arr a a' iters done τ) {names : List String}
    (hiters : ∀ x ∈ iters, x ∉ names) (hnames : ∀ x ∈ names, σ.arrays x = none) :
    SameOn names σ τ := by
  intro x hx
  refine ⟨(h.scalars x fun hmem => hiters x hmem hx).symm, ?_⟩
  rw [hnames x hx, h.arrays_none (hnames x hx)]

theorem token (h : Midway σ arr a a' iters done τ) (ht : Tracks I σ table constOrName dim)
    (hshape : table A = some shape) {tok : String} (htok : tok ∈ shape)
    (hiters : ∀ x ∈ iters, x ∉ loadNames (constOrName tok)) :
    value I τ (constOrName tok) = some (I.ofInt (dim tok : ℕ)) := by
  obtain ⟨hvalue, hnames⟩ := ht.tokens A shape hshape tok htok
  rw [← value_same (h.same hiters hnames), hvalue]

theorem apart (h : Midway σ arr a a' iters done τ) (ht : Tracks I σ table constOrName dim)
    (hfresh : ∀ x ∈ iters, σ.arrays x = none) (hb : σ.arrays A = some b) :
    τ.scalars A = none := by
  rw [h.scalars A fun hA => by simp [hfresh A hA] at hb, ht.apart A b hb]

/-- A bare array midway is the element at its place. -/
theorem value_whole (h : Midway σ arr a a' iters done τ) (ht : Tracks I σ table constOrName dim)
    (hfresh : ∀ x ∈ iters, σ.arrays x = none) {ix : List ℕ} (hlength : iters.length = ix.length)
    (hiters : ∀ q ∈ iters.zip ix, τ.scalars q.1 = some (I.ofInt (q.2 : ℕ)))
    (hb : σ.arrays id = some b) (hshape : table id = some shape) (hrank : shape.length ≤ ix.length)
    (hplace : nestPlace shape ix ∈ box b.shape) (hnot : id = arr → nestPlace shape ix ∉ done) :
    value I τ (subscriptName table iters id) = some (b.cells (nestPlace shape ix)) := by
  obtain ⟨b', hb', hb'shape, hread⟩ := h.read hb
  obtain ⟨shape', hshape', hne, -⟩ := ht.arrays id b hb
  obtain rfl := Option.some.inj (hshape.symm.trans hshape')
  rw [value_subscriptName ht.laws hshape hne hb' (h.apart ht hfresh hb) hlength hrank hiters
    (by rwa [hb'shape]), hread _ fun hid hdone => absurd hdone (hnot hid)]

/-- A subscript that names an element reads it midway, if the element is as it was. -/
theorem value_readElement (h : Midway σ arr a a' iters done τ)
    (ht : Tracks I σ table constOrName dim) (hfresh : ∀ x ∈ iters, σ.arrays x = none)
    {base : String} {index : Expr} (hshape : table base = some shape)
    (hlength : index.elts.length = shape.length)
    (hscalar : ∀ e ∈ index.elts, scalarEntry table e = true)
    (htokens : ∀ x ∈ iters, ∀ tok ∈ shape, x ∉ loadNames (constOrName tok))
    (hindex : ∀ x ∈ iters, x ∉ loadNames index) {v : V} (hv : readElement I σ base index = some v)
    (hkept : ∀ p, elementPlace I σ base index = some p → base = arr → p ∈ done →
      a'.cells p = a.cells p) :
    value I τ (.subscript (.name base) (indexSlot ((index.elts.zip shape).map fun p =>
      resolveNegIndex p.1 (constOrName p.2)))) = some v := by
  obtain ⟨ix, hix, hv⟩ := bind_eq_some_iff.1 hv
  obtain ⟨b, hb, rfl⟩ := map_eq_some_iff.1 hv
  obtain ⟨b', hb', hb'shape, hread⟩ := h.read hb
  obtain ⟨shape', hshape', -, hdims⟩ := ht.arrays base b hb
  obtain rfl := Option.some.inj (hshape.symm.trans hshape')
  -- The index is made of scalars, so it names the same place.
  have hnames : ∀ x ∈ loadNames index, σ.arrays x = none := by
    intro x hx
    obtain ⟨e, he, hxe⟩ := mem_loadNames_elts hx
    exact ht.scalarEntry (hscalar e he) hxe
  have hsame : SameOn (loadNames index) σ τ := h.same hindex hnames
  have hplace : elementPlace I τ base index = some ix := by
    rw [← hix]
    simp only [elementPlace, h.isNone_arrays, hb, hb', bind_some, hb'shape, tuple]
    rw [items_same' hsame (eval_same hsame)]
  rw [value_resolved ht.laws (h.apart ht hfresh hb) hb' (hb'shape.trans hdims)
    (fun tok htok => h.token ht hshape htok fun x hx => htokens x hx tok htok) hlength hplace,
    hread ix fun hbase hdone => hkept ix hix hbase hdone]

end Midway

variable {stored : List (List ℕ)} {v : V} {mask : Expr} {shape : List ℕ} {augOp : Option Operator}

theorem readsAt_mem {reads : List Expr} {l : Expr} (h : readsAt I σ arr stored reads = false)
    (hl : l ∈ reads) :
    readsAt I σ arr stored [l] = false := by
  rw [readsAt, List.any_eq_false] at h ⊢
  intro e he
  obtain rfl := mem_singleton.1 he
  exact h e hl

/-- An element read by an index of its own is one that is not stored. -/
theorem place_of_readsAt {base : String} {index : Expr}
    (h : readsAt I σ arr stored [.subscript (.name base) index] = false)
    (hwhole : isWhole index = false) {p : List ℕ} (hp : elementPlace I σ base index = some p)
    (hbase : base = arr) : p ∉ stored := by
  subst hbase
  simpa [readsAt, hwhole, hp] using h

/-- What holds of an iteration of the nest: the index is inside the array and not visited before,
and the variables are at it. -/
structure Turn (I : Interp V) (σ : State V) (table : ShapeTable) (constOrName : String → Expr)
    (arr : String) (a a' : Arr V) (iters : List String) (sel done : List (List ℕ)) (ix : List ℕ)
    (τ : State V) : Prop where
  midway : Midway σ arr a a' iters done τ
  inside : ix ∈ box a.shape
  new : ix ∉ done
  length : iters.length = ix.length
  at_ : ∀ q ∈ iters.zip ix, τ.scalars q.1 = some (I.ofInt (q.2 : ℕ))
  kept : ∀ p ∉ sel, a'.cells p = a.cells p
  fresh : ∀ x ∈ iters, σ.arrays x = none
  tokens : ∀ x ∈ iters, ∀ A shape, table A = some shape → ∀ tok ∈ shape,
    x ∉ loadNames (constOrName tok)

variable {sel : List (List ℕ)} {ix : List ℕ}

namespace Turn

variable {id : String} {v : V} {l' : Expr}

/-- An array of the shape of the nest. -/
theorem value_arrayAt (h : Turn I σ table constOrName arr a a' iters sel done ix τ)
    (ht : Tracks I σ table constOrName dim) (hv : arrayAt σ a.shape ix id = some v) :
    value I τ (subscriptName table iters id) = some v := by
  obtain ⟨b, hb, hv⟩ := bind_eq_some_iff.1 hv
  obtain ⟨hbshape, hv⟩ := ite_none_right_eq_some.1 hv
  obtain ⟨shape, hshape, -, hdims⟩ := ht.arrays id b hb
  have hix : ix ∈ box (shape.map dim) := by
    rw [← hdims, hbshape]
    exact h.inside
  have hself : nestPlace shape ix = ix := nestPlace_eq_self ht.one hix
  have hrank : shape.length = ix.length := by rw [length_of_mem_box hix, length_map]
  rw [h.midway.value_whole ht h.fresh h.length h.at_ hb hshape hrank.le
    (by rw [hself, hbshape]; exact h.inside) (fun _ => by rw [hself]; exact h.new), hself]
  exact hv

/-- A scalar. -/
theorem value_scalar (h : Turn I σ table constOrName arr a a' iters sel done ix τ)
    (ht : Tracks I σ table constOrName dim) (hnone : σ.arrays id = none) (hid : id ∉ iters)
    (hv : σ.scalars id = some v) :
    value I τ (subscriptName table iters id) = some v := by
  have hname : subscriptName table iters id = .name id := by
    unfold subscriptName
    split
    · rfl
    · next shape hshape =>
      rw [if_pos (.inl (ht.scalars id hnone shape hshape))]
  rw [hname]
  simp only [value, eval, h.midway.scalars id hid, hv, bind_some, force]

/-- An element read by an index of its own. -/
theorem value_index (h : Turn I σ table constOrName arr a a' iters sel done ix τ)
    (ht : Tracks I σ table constOrName dim) {base : String} {index : Expr}
    (hwhole : isWhole index = false)
    (hl' : subscriptifyLeaf table constOrName iters (.subscript (.name base) index) = some l')
    (hv : readElement I σ base index = some v)
    (hreads : readsAt I σ arr (done.filter (· ∈ sel)) [.subscript (.name base) index] = false)
    (hindex : ∀ x ∈ iters, x ∉ loadNames index) : value I τ l' = some v := by
  simp only [subscriptifyLeaf, hwhole, Bool.false_eq_true, if_false] at hl'
  obtain ⟨shape, hshape, hl'⟩ := bind_eq_some_iff.1 hl'
  obtain ⟨⟨hlength, hscalar⟩, hl'⟩ := ite_none_right_eq_some.1 hl'
  obtain rfl := Option.some.inj hl'
  refine h.midway.value_readElement ht h.fresh hshape hlength (all_eq_true.1 hscalar)
    (fun x hx => h.tokens x hx base shape hshape) hindex hv fun p hp hbase hdone => ?_
  refine h.kept p fun hsel => ?_
  refine place_of_readsAt hreads hwhole hp hbase (mem_filter.2 ⟨hdone, ?_⟩)
  exact decide_eq_true hsel

/-- **A name or a subscript among arrays of the shape of the nest** has its element's value. -/
theorem value_fullLeaf (h : Turn I σ table constOrName arr a a' iters sel done ix τ)
    (ht : Tracks I σ table constOrName dim) {l : Expr}
    (hl' : subscriptifyLeaf table constOrName iters l = some l')
    (hv : fullLeaf I σ a.shape ix l = some v)
    (hreads : readsAt I σ arr (done.filter (· ∈ sel)) [l] = false)
    (hnames : ∀ x ∈ iters, x ∉ loadNames l) : value I τ l' = some v := by
  unfold fullLeaf at hv
  split at hv
  · next id =>
    obtain rfl := Option.some.inj hl'
    split at hv
    · next hnone =>
      refine h.value_scalar ht (isNone_iff_eq_none.1 hnone) (fun hid => ?_) hv
      exact hnames id hid (by simp [loadNames, Expr.walkNodes, Expr.id?])
    · exact h.value_arrayAt ht hv
  · next base index =>
    split at hv
    · next hwhole =>
      simp only [subscriptifyLeaf, hwhole, if_true, Option.some.injEq] at hl'
      subst hl'
      exact h.value_arrayAt ht (ite_none_right_eq_some.1 hv).2
    · next hwhole =>
      refine h.value_index ht (Bool.not_eq_true _ ▸ hwhole) hl' hv hreads fun x hx hmem => ?_
      refine hnames x hx ?_
      rw [loadNames_subscript]
      exact mem_append_right _ hmem
  · cases hv

/-- **An expression over arrays of the shape of the nest** has its element's value. -/
theorem value_full (h : Turn I σ table constOrName arr a a' iters sel done ix τ)
    (ht : Tracks I σ table constOrName dim) {e e' : Expr}
    (he' : e.mapLeaves (subscriptifyLeaf table constOrName iters) = some e')
    (hv : (elems I σ (fullLeaf I σ a.shape ix) e).bind single = some v)
    (hreads : readsAt I σ arr (done.filter (· ∈ sel)) e.leaves = false)
    (hnames : ∀ x ∈ iters, x ∉ loadNames e) : value I τ e' = some v := by
  obtain ⟨vs, hvs, hv⟩ := bind_eq_some_iff.1 hv
  refine value_of_items (elems_lowered (lowered_mapLeaves throughLeaves_id he') ?_ hvs) hv
  rintro l l' w ⟨hl, hl'⟩ hw
  rw [id, mapLeaves_leaf (isLeaf_of_mem_leaves hl)] at hl'
  exact h.value_fullLeaf ht hl' hw (readsAt_mem hreads hl) fun x hx hmem =>
    hnames x hx (filterMap_subset _ (leaves_walkNodes hl) hmem)

end Turn

theorem throughLeaves_strip (names : List String) (mask : Expr) :
    ThroughLeaves (stripMaskSubscripts names mask) where
  const _ := rfl
  unaryOp _ _ := rfl
  binOp _ _ _ := rfl
  boolOp _ _ _ := rfl
  ifExp _ _ _ := rfl
  call func _ := ⟨stripMaskSubscripts names mask func, rfl, fun f hf => by
    cases func with
    | name id => exact hf
    | attr value a => exact hf
    | _ => cases hf⟩
  unit := rfl
  pair _ _ := rfl

/-- A vector the nest reads at the place of the position. -/
theorem Turn.value_vectorAt (h : Turn I σ table constOrName arr a a' iters sel done ix τ)
    (ht : Tracks I σ table constOrName dim) (hix : ix ∈ sel) {id : String}
    (hplace : ∀ c, σ.arrays id = some c → ∀ toks, table id = some toks →
      nestPlace toks ix = if c.shape = [sel.length] then [sel.idxOf ix] else [0])
    (hv : vectorAt σ sel.length (sel.idxOf ix) id = some v) :
    value I τ (subscriptName table iters id) = some v := by
  obtain ⟨b, hb, hv⟩ := bind_eq_some_iff.1 hv
  obtain ⟨shape, hshape, hne, hdims⟩ := ht.arrays id b hb
  have hat := hplace b hb shape hshape
  have hlt : sel.idxOf ix < sel.length := idxOf_lt_length_iff.2 hix
  obtain ⟨hone, hbox, hcell⟩ : b.shape.length = 1 ∧ nestPlace shape ix ∈ box b.shape ∧
      b.cells (nestPlace shape ix) = v := by
    rw [hat]
    split at hv
    · next hb =>
      rw [hb, if_pos rfl]
      exact ⟨rfl, mem_box.2 (.cons hlt .nil), Option.some.inj hv⟩
    · next hb =>
      obtain ⟨hb', hv⟩ := ite_none_right_eq_some.1 hv
      rw [if_neg hb, hb']
      exact ⟨rfl, mem_box.2 (.cons Nat.one_pos .nil), Option.some.inj hv⟩
  have hrank : shape.length ≤ ix.length := by
    have hshape1 : shape.length = 1 := by rw [← hone, hdims, length_map]
    have hpos : a.shape.length = ix.length := (length_of_mem_box h.inside).symm
    cases hix : ix with
    | nil =>
      rw [nestPlace, hix] at hbox
      simp only [length_nil, drop_nil, zip_nil_right, map_nil] at hbox
      simp [← length_of_mem_box hbox] at hone
    | cons i ix => simp [hshape1]
  rw [h.midway.value_whole ht h.fresh h.length h.at_ hb hshape hrank hbox ?_, hcell]
  -- The array itself, as a vector, has the shape of the nest, and is read at the index.
  rintro rfl
  obtain rfl := Option.some.inj (h.midway.start.symm.trans hb)
  have hix : ix ∈ box (shape.map dim) := hdims ▸ h.inside
  rw [nestPlace_eq_self ht.one hix]
  exact h.new

/-- **The value under the guard** is the one numpy stores. -/
theorem Turn.value_value (h : Turn I σ table constOrName arr a a' iters sel done ix τ)
    (ht : Tracks I σ table constOrName dim) (hix : ix ∈ sel) {e e' : Expr}
    (he' : (stripMaskSubscripts (maskNames mask) mask e).mapLeaves
      (subscriptifyLeaf table constOrName iters) = some e')
    (hv : (elems I σ (valueLeaf I σ mask a.shape ix sel.length (sel.idxOf ix)) e).bind single =
      some v) (hreads : readsAt I σ arr (done.filter (· ∈ sel))
      (e.leaves.flatMap fun l => (ungathered mask l).leaves) = false)
    (hvectors : ∀ l ∈ e.leaves, ∀ id, wholeName l = some id → ∀ c, σ.arrays id = some c →
      ∀ toks, table id = some toks →
      nestPlace toks ix = if c.shape = [sel.length] then [sel.idxOf ix] else [0])
    (hgathers : ∀ l ∈ e.leaves, stripMaskSubscripts (maskNames mask) mask l = ungathered mask l)
    (hnames : ∀ x ∈ iters, x ∉ loadNames e) : value I τ e' = some v := by
  obtain ⟨vs, hvs, hv⟩ := bind_eq_some_iff.1 hv
  refine value_of_items (elems_lowered
    (lowered_mapLeaves (throughLeaves_strip (maskNames mask) mask) he') ?_ hvs) hv
  rintro l l' w ⟨hl, hl'⟩ hw
  rw [hgathers l hl] at hl'
  have hlnames : ∀ x ∈ iters, x ∉ loadNames l := fun x hx hmem =>
    hnames x hx (filterMap_subset _ (leaves_walkNodes hl) hmem)
  have hlreads : readsAt I σ arr (done.filter (· ∈ sel)) (ungathered mask l).leaves = false := by
    rw [readsAt, List.any_eq_false] at hreads ⊢
    exact fun r hr => hreads r (mem_flatMap.2 ⟨l, hl, hr⟩)
  unfold valueLeaf at hw
  split at hw
  · next id =>
    obtain rfl := Option.some.inj hl'
    split at hw
    · next hnone =>
      refine h.value_scalar ht (isNone_iff_eq_none.1 hnone) (fun hid => ?_) hw
      exact hlnames id hid (by simp [loadNames, Expr.walkNodes, Expr.id?])
    · exact h.value_vectorAt ht hix (hvectors _ hl id rfl) hw
  · next base slice =>
    have hsub : ∀ x ∈ iters, x ∉ loadNames base ∧ x ∉ loadNames slice := by
      intro x hx
      have hx := hlnames x hx
      rw [loadNames_subscript, mem_append, not_or] at hx
      exact hx
    split at hw
    · next hmask =>
      -- A gather by the mask: the array gathered, at the index.
      simp only [ungathered, hmask, if_true] at hl' hlreads
      exact h.value_full ht hl' hw hlreads fun x hx => (hsub x hx).1
    · next hmask =>
      simp only [ungathered, hmask, if_false] at hl' hlreads
      split at hw
      · next base =>
        split at hw
        · next hwhole =>
          simp only [Expr.mapLeaves, subscriptifyLeaf, hwhole, if_true, Option.some.injEq] at hl'
          subst hl'
          exact h.value_vectorAt ht hix (hvectors _ hl base (by simp [wholeName, hwhole]))
            (ite_none_right_eq_some.1 hw).2
        · next hwhole =>
          exact h.value_index ht (Bool.not_eq_true _ ▸ hwhole) hl' hw hlreads
            fun x hx => (hsub x hx).2
      · cases hw
  · cases hw

theorem nodup_maskIters (rank : ℕ) : (maskIters rank).Nodup := by
  refine nodup_range.map fun i j h => ?_
  have hlist := congrArg String.toList h
  rw [String.toList_append, String.toList_append, append_cancel_left_eq] at hlist
  exact toString_injective (String.toList_inj.1 hlist)

@[simp] theorem length_maskIters (rank : ℕ) : (maskIters rank).length = rank := by
  rw [maskIters, length_map, length_range]

theorem earlier_eq {shape ix : List ℕ} {done later : List (List ℕ)}
    (h : box shape = done ++ ix :: later) : earlier shape ix = done := by
  have hnot : ix ∉ done := notMem_of_box h
  rw [earlier, h, takeWhile_append_of_pos, takeWhile_cons]
  · simp
  · intro x hx
    refine decide_eq_true fun hxi => hnot ?_
    rwa [← hxi]

theorem partway_nil (a a' : Arr V) : partway a a' [] = a := by
  simp [partway]

/-- With every element that differs, an array is the other one. -/
theorem partway_eq (hshape : a'.shape = a.shape) (hkept : ∀ p ∉ done, a'.cells p = a.cells p) :
    partway a a' done = a' := by
  obtain ⟨shape, cells⟩ := a'
  obtain rfl := hshape
  simp only [partway, Arr.mk.injEq, true_and]
  funext p
  split
  · rfl
  · next hp => exact (hkept p hp).symm

/-- Storing the next element. -/
theorem partway_set {ix : List ℕ} (hv : a'.cells ix = v) :
    (partway a a' done).set ix v = partway a a' (done ++ [ix]) := by
  simp only [partway, Arr.set, Arr.mk.injEq, true_and]
  funext p
  by_cases hp : p = ix
  · subst hp
    simp [hv]
  · simp [hp]

theorem partway_skip {ix : List ℕ} (hkeep : a'.cells ix = a.cells ix) :
    partway a a' (done ++ [ix]) = partway a a' done := by
  simp only [partway, Arr.mk.injEq, true_and]
  funext p
  by_cases hp : p = ix
  · subst hp
    simp [hkeep]
  · simp [hp]

/-- The index of the target. -/
theorem items_iters {ix : List ℕ} (hlength : iters.length = ix.length)
    (hiters : ∀ q ∈ iters.zip ix, τ.scalars q.1 = some (I.ofInt (q.2 : ℕ))) :
    (eval I τ (indexSlot (iters.map .name))).bind (items I τ) =
      some (ix.map fun i : ℕ => I.ofInt i) := by
  refine items_indexSlot ?_
  rw [forall₂_map_left_iff, forall₂_map_right_iff, forall₂_iff_zip]
  refine ⟨hlength, fun {x i} hmem => ?_⟩
  simp only [value, eval, hiters (x, i) hmem, bind_some, force]

/-- **One turn of the nest** stores what numpy stores at the index, or nothing. -/
theorem Turn.exec_body (h : Turn I σ table constOrName arr a a' iters sel done ix τ)
    (ht : Tracks I σ table constOrName dim) (fuel : ℕ) {test value' : Expr} {selected : Bool}
    (htest : (value I τ test).map I.truth = some selected) (hsel : selected = true ↔ ix ∈ sel)
    (hvalue : ix ∈ sel → ∃ v, value I τ value' = some v ∧
      augOp.elim (some v) (fun op => I.binary op (a.cells ix) v) = some (a'.cells ix)) :
    exec I fuel (guardedStore arr iters test value' augOp) τ =
      some ({ τ with
        arrays := Function.update σ.arrays arr (some (partway a a' (done ++ [ix]))) }, .next) := by
  obtain ⟨c, hc, rfl⟩ := map_eq_some_iff.1 htest
  have harr : τ.arrays arr = some (partway a a' done) := by
    rw [h.midway.arrays, Function.update_self]
  have hscalar : τ.scalars arr = none := h.midway.apart ht h.fresh h.midway.start
  have hindex := items_iters h.length h.at_
  unfold guardedStore
  rw [exec, hc, bind_some]
  by_cases hix : ix ∈ sel
  · obtain ⟨v, hv, hstored⟩ := hvalue hix
    -- The element is stored in the array as it is midway.
    have hstore : store I τ (a'.cells ix) (.subscript (.name arr) (indexSlot (iters.map .name))) =
        some { τ with
          arrays := Function.update σ.arrays arr (some (partway a a' (done ++ [ix]))) } := by
      rw [store_element hscalar harr h.inside hindex, State.setArray, partway_set rfl,
        h.midway.arrays, Function.update_idem]
    rw [if_pos (hsel.2 hix)]
    cases augOp with
    | none =>
      obtain rfl := Option.some.inj hstored
      simp only [exec, hv, foldlM_cons, foldlM_nil, hstore, bind_eq_bind,
        bind_some, Option.pure_def]
    | some op =>
      have hold : value I τ (.subscript (.name arr) (indexSlot (iters.map .name))) =
          some (a.cells ix) := by
        rw [value_element hscalar harr hindex (mapM_int_ofInt ix)
          (by rw [length_map]; exact length_of_mem_box h.inside) (locate_natCast h.inside)]
        exact congrArg some (if_neg h.new)
      have hop : I.binary op (a.cells ix) v = some (a'.cells ix) := hstored
      simp only [exec, Target.toExpr, hold, hv, hop, hstore, bind_some]
  · -- Not selected: nothing is stored.
    rw [if_neg (mt hsel.1 hix), exec, bind_some, exec, partway_skip (h.kept ix hix),
      ← h.midway.arrays]

/-- What numpy leaves: the array where it is not selected, and what is stored where it is. -/
theorem maskedStore_spec {value : Expr} (h : maskedStore I σ arr mask value augOp = some a') :
    ∃ a sel, σ.arrays arr = some a ∧ selection I σ mask a.shape = some sel ∧
      a'.shape = a.shape ∧ (∀ p ∉ sel, a'.cells p = a.cells p) ∧
      ∀ ix ∈ sel, storedAt I σ mask value augOp a sel ix = some (a'.cells ix) := by
  obtain ⟨a, ha, h⟩ := bind_eq_some_iff.1 h
  obtain ⟨sel, hsel, h⟩ := bind_eq_some_iff.1 h
  obtain ⟨hall, h⟩ := ite_none_right_eq_some.1 h
  obtain rfl := Option.some.inj h
  refine ⟨a, sel, ha, hsel, rfl, fun p hp => if_neg hp, fun ix hix => ?_⟩
  obtain ⟨v, hv⟩ := isSome_iff_exists.1 (all_eq_true.1 hall ix hix)
  simp only [hix, if_true, hv, getD_some]

theorem selection_spec (h : selection I σ mask shape = some sel) {ix : List ℕ}
    (hix : ix ∈ box shape) :
    ∃ selected, maskAt I σ mask shape ix = some selected ∧ (selected = true ↔ ix ∈ sel) := by
  obtain ⟨hall, h⟩ := ite_none_right_eq_some.1 h
  obtain rfl := Option.some.inj h
  obtain ⟨selected, hselected⟩ := isSome_iff_exists.1 (all_eq_true.1 hall ix hix)
  refine ⟨selected, hselected, ?_⟩
  simp [mem_filter, hix, hselected]

/-- `a[m] = b[m] + a[1]` stores nothing into `a[1]`. -/
def gatherValue : Expr :=
  .binOp .add (.subscript (.name "b") (.name "m")) (.subscript (.name "a") (.const (.int 1)))

/-- Three arrays of three elements; the mask `m` selects the first and the last. -/
def maskedState : State ℤ where
  scalars x := if x = "n" then some 3 else none
  arrays A :=
    if A = "a" then some (vector [5, 6, 7])
    else if A = "b" then some (vector [10, 20, 30])
    else if A = "m" then some (vector [1, 0, 1])
    else none

/-- The shapes of the three arrays. -/
def maskedTable : ShapeTable := fun A => if A ∈ ["a", "b", "m"] then some ["n"] else none

/-- The nest of a store into `a` under `m`. -/
def rewriteUnder (value : Expr) : Option Block :=
  rewriteMask maskedTable ["m"] (fun _ => none) tokenExpr (.subscript (.name "a") (.name "m")) value
    none

theorem tracks_maskedState :
    Tracks intInterp maskedState maskedTable tokenExpr (fun tok => if tok = "n" then 3 else 1) where
  laws := indexLaws_intInterp
  one := rfl
  apart A a h := by
    refine if_neg fun hA => ?_
    subst hA
    cases h
  arrays A a h := by
    simp only [maskedState] at h
    split at h
    · next hA =>
      obtain rfl := Option.some.inj h
      exact ⟨["n"], by simp [maskedTable, hA], by simp, rfl⟩
    split at h
    · next hA =>
      obtain rfl := Option.some.inj h
      exact ⟨["n"], by simp [maskedTable, hA], by simp, rfl⟩
    split at h
    · next hA =>
      obtain rfl := Option.some.inj h
      exact ⟨["n"], by simp [maskedTable, hA], by simp, rfl⟩
    · cases h
  scalars A hA shape hshape := by
    obtain ⟨hmem, -⟩ := ite_none_right_eq_some.1 hshape
    simp only [mem_cons, not_mem_nil, or_false] at hmem
    rcases hmem with rfl | rfl | rfl <;> cases hA
  tokens A shape hshape tok htok := by
    obtain ⟨-, hshape⟩ := ite_none_right_eq_some.1 hshape
    obtain rfl := Option.some.inj hshape
    obtain rfl := mem_singleton.1 htok
    exact ⟨rfl, by decide⟩

end Sound

end Translate

end HpcAgentBench
