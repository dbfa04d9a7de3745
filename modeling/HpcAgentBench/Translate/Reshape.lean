import HpcAgentBench.Translate.Masks
import Mathlib.Algebra.BigOperators.Ring.List

/-!
# Reshapes

How `np.reshape` is lowered to a nest of copies, and that the nest leaves in the target what numpy
does: at every position the element of the source with the same linear index.

Where the axes of the two shapes pair up, the nest runs over the finer side of each group of axes
and the other side's index is linear in the loop variables.  Otherwise it runs over the target and
the source's index is read off the linear index by division.

## Main results

* `copyNest_sound` : a nest that stores every target position once, from the right place.
* `reshape_sound` : **what both lowerings leave is numpy's reshape**, in C and in Fortran order.
-/

namespace HpcAgentBench

open List Option

namespace Translate

/-! ### The lowering -/

/-- A keyword argument; `constant` is the text of its value, where that is a constant. -/
structure Keyword where
  arg : String
  constant : Option String

/-- The memory order: C, or what `order=` says. -/
def reshapeOrder (kwargs : List Keyword) : String :=
  kwargs.foldl (fun order kw =>
    if kw.arg = "order" then (kw.constant.map String.toUpper).getD order else order) "C"

section Lowering

variable (token : String → Expr) (agree : String → String → Bool)

/-- The product of some extents, from the left. -/
def productStr : List String → Expr
  | [] => .const (.int 1)
  | tok :: toks => toks.foldl (fun e t => .binOp .mult e (token t)) (token tok)

/-- A sum, from the left. -/
def joinSum : List Expr → Expr
  | [] => .const (.int 0)
  | e :: es => es.foldl (.binOp .add) e

/-- Whether two tokens are of one extent: as texts, with the aliases substituted, or by algebra. -/
def dimsAgree (tables : Bool) (substitute : String → String)
    (shapeExprsEqual : String → String → Bool) (a b : String) : Bool :=
  if a = b then true
  else if !tables then false
  else
    let sa := substitute a
    let sb := substitute b
    if sa = sb then true else if sa ≤ sb then shapeExprsEqual sa sb else shapeExprsEqual sb sa

/-- How many axes agree pairwise from the front. -/
def matchedAxes : List String → List String → ℕ
  | s :: src, t :: tgt => if agree s t then matchedAxes src tgt + 1 else 0
  | _, _ => 0

/-- The two shapes paired into groups of axes; `none` for a middle that splits both sides. -/
def reshapeAxisGroups (src tgt : List String) : Option (List (List ℕ × List ℕ)) :=
  let head := matchedAxes agree src tgt
  let tail := matchedAxes agree (src.drop head).reverse (tgt.drop head).reverse
  let midSrc := List.range' head (src.length - tail - head)
  let midTgt := List.range' head (tgt.length - tail - head)
  let heads := (List.range head).map fun i => ([i], [i])
  let tails := (List.range tail).reverse.map fun k =>
    ([src.length - 1 - k], [tgt.length - 1 - k])
  if midSrc ≠ [] ∨ midTgt ≠ [] then
    if 1 < midSrc.length ∧ 1 < midTgt.length then none
    else some (heads ++ [(midSrc, midTgt)] ++ tails)
  else some (heads ++ tails)

/-- What a group adds to the nest: its loops, and an entry for each of its axes. -/
structure GroupCopy where
  loops : List (String × String)
  src : List Expr
  tgt : List Expr

/-- The variables and bounds of a group's loops, numbered from `start`. -/
def groupLoops (start : ℕ) (toks : List String) : List (String × String) :=
  (toks.zipIdx start).map fun p => ("__rs" ++ toString p.2, p.1)

/-- Each variable times the extents of the loops after it. -/
def linearTerms : List (String × String) → List Expr
  | [] => []
  | (x, _) :: loops =>
    (if loops = [] then .name x
      else .binOp .mult (.name x) (productStr token (loops.map Prod.snd))) :: linearTerms loops

/-- One group: nothing against axes of size one, axis by axis, or the finer side against one axis
of the other. -/
def groupCopy (start : ℕ) (src tgt : List String) : Option GroupCopy :=
  if src = [] ∨ tgt = [] then
    let solo := if tgt = [] then src else tgt
    if solo.any (· ≠ "1") then none
    else some ⟨[], src.map fun _ => .const (.int 0), tgt.map fun _ => .const (.int 0)⟩
  else if src.length = tgt.length then
    let loops := groupLoops start src
    some ⟨loops, loops.map fun l => .name l.1, loops.map fun l => .name l.1⟩
  else if tgt.length < src.length then
    let loops := groupLoops start src
    if tgt.length ≠ 1 then none
    else some ⟨loops, loops.map fun l => .name l.1, [joinSum (linearTerms token loops)]⟩
  else
    let loops := groupLoops start tgt
    if src.length ≠ 1 then none
    else some ⟨loops, [joinSum (linearTerms token loops)], loops.map fun l => .name l.1⟩

/-- The indices of both sides, axis by axis, and the loops. -/
structure GroupedCopy where
  srcIndex : ℕ → Option Expr
  tgtIndex : ℕ → Option Expr
  loops : List (String × String)

/-- Some axes given their entries. -/
def assignAxes (index : ℕ → Option Expr) (axes : List ℕ) (entries : List Expr) :
    ℕ → Option Expr :=
  (axes.zip entries).foldl (fun index p => Function.update index p.1 (some p.2)) index

/-- One group of axes added. -/
def addGroup (src tgt : List String) (c : GroupedCopy) (group : List ℕ × List ℕ) :
    Option GroupedCopy :=
  (groupCopy token c.loops.length (group.1.map fun ax => src.getD ax "")
    (group.2.map fun ax => tgt.getD ax "")).map fun p =>
      ⟨assignAxes c.srcIndex group.1 p.src, assignAxes c.tgtIndex group.2 p.tgt, c.loops ++ p.loops⟩

/-- A nest around one copied element. -/
def copyNest (target source : String) (loops : List (String × Expr))
    (tgtIndex srcIndex : List Expr) : Block :=
  wrapForLoops loops (.assign [.subscript (.name target) (indexSlot tgtIndex)]
    (.subscript (.name source) (indexSlot srcIndex)) .done)

/-- The nest over groups of axes. -/
def reshapeGroupedCopy (target source : String) (src tgt : List String)
    (groups : List (List ℕ × List ℕ)) : Option Block :=
  if src = [] ∨ tgt = [] then none
  else (groups.foldlM (addGroup token src tgt) ⟨fun _ => none, fun _ => none, []⟩).bind fun c =>
    ((List.range src.length).mapM c.srcIndex).bind fun srcIndex =>
      ((List.range tgt.length).mapM c.tgtIndex).map fun tgtIndex =>
        copyNest target source (c.loops.map fun l => (l.1, token l.2)) tgtIndex srcIndex

/-- The product of the extents that are not 1; `none` where there are none. -/
def tokenProduct (toks : List String) : Option Expr :=
  match toks.filter fun t => t ≠ "" ∧ t ≠ "1" with
  | [] => none
  | kept => some (productStr token kept)

/-- The stride of an axis: the product of those that run faster. -/
def axisStride (shape : List String) (i : ℕ) (fortran : Bool) : Option Expr :=
  tokenProduct token (if fortran then shape.take i else shape.drop (i + 1))

/-- The linear index of the variables. -/
def flatIndexExpr (iters shape : List String) (fortran : Bool) : Expr :=
  joinSum (iters.zipIdx.map fun p =>
    match axisStride token shape p.2 fortran with
    | none => .name p.1
    | some stride => .binOp .mult (.name p.1) stride)

/-- The entry of an axis, read off the linear index. -/
def decodedAxis (shape : List String) (flat : Expr) (fortran : Bool) (tok : String) (i : ℕ) :
    Expr :=
  if tok = "1" then .const (.int 0)
  else
    let axis := match axisStride token shape i fortran with
      | none => flat
      | some stride => .binOp (.other "/") flat stride
    if (if fortran then i = shape.length - 1 else i = 0) then axis
    else .binOp (.other "%") axis (token tok)

/-- The source's index, read off the linear index. -/
def decodedSourceAxes (shape : List String) (flat : Expr) (fortran : Bool) : List Expr :=
  shape.zipIdx.map fun p => decodedAxis token shape flat fortran p.1 p.2

/-- The copy over the source's element count. -/
def flatCopy (target source : String) (shape : List String) : Block :=
  copyNest target source [("__r", productStr token shape)] [.name "__r"] [.name "__r"]

/-- The variables of the nest over the target. -/
def reshapeIters (rank : ℕ) : List String := (List.range rank).map fun i => "__r" ++ toString i

/-- The nest over the target, the source's index read off the linear index. -/
def decodedCopy (target source : String) (src tgt : List String) (fortran : Bool) : Block :=
  let iters := reshapeIters tgt.length
  copyNest target source (iters.zip (tgt.map token)) (iters.map .name)
    (decodedSourceAxes token src (flatIndexExpr token iters tgt fortran) fortran)

/-- `target = np.reshape(*args, **kwargs)`; `none` where it is refused. -/
def expandReshape (target : String) (args : List Expr) (table : ShapeTable)
    (kwargs : List Keyword) : Option Block :=
  (args.head?.bind Expr.id?).bind fun source => (table source).bind fun src =>
    if src = [] then none
    else
      match (table target).getD [] with
      | [] => some (flatCopy token target source src)
      | tgt =>
        let fortran := reshapeOrder kwargs = "F"
        let grouped := if fortran then none
          else (reshapeAxisGroups agree src tgt).bind
            (reshapeGroupedCopy token target source src tgt)
        grouped.getD (decodedCopy token target source src tgt fortran)

end Lowering

/-! ### Linear indices -/

/-- The linear index of a place: the last axis runs fastest in C order, the first in Fortran's. -/
def linearIndex (fortran : Bool) (shape ix : List ℕ) : ℕ :=
  if fortran then flatIndex shape.reverse ix.reverse else flatIndex shape ix

section Reads

variable {V : Type}

/-- Index arithmetic on natural numbers; `/` of indices is the integer quotient. -/
structure IndexArith (I : Interp V) : Prop where
  const : ∀ n, I.const (.int n) = I.ofInt n
  add : ∀ m n : ℕ, I.binary .add (I.ofInt m) (I.ofInt n) = some (I.ofInt (m + n : ℕ))
  mult : ∀ m n : ℕ, I.binary .mult (I.ofInt m) (I.ofInt n) = some (I.ofInt (m * n : ℕ))
  div : ∀ m n : ℕ, 0 < n →
    I.binary (.other "/") (I.ofInt m) (I.ofInt n) = some (I.ofInt (m / n : ℕ))
  mod : ∀ m n : ℕ, 0 < n →
    I.binary (.other "%") (I.ofInt m) (I.ofInt n) = some (I.ofInt (m % n : ℕ))

/-- An expression reads a natural number. -/
def ReadsNat (I : Interp V) (τ : State V) (e : Expr) (n : ℕ) : Prop :=
  value I τ e = some (I.ofInt n)

/-- Every token reads its extent. -/
def TokenExtents (I : Interp V) (τ : State V) (token : String → Expr) (dim : String → ℕ)
    (toks : List String) : Prop :=
  ∀ tok ∈ toks, ReadsNat I τ (token tok) (dim tok)

variable {I : Interp V} {τ : State V} {token : String → Expr} {dim : String → ℕ}

variable {n : ℕ} {op : Operator} {k : ℕ} {es : List Expr} {ns : List ℕ} {e : Expr}
variable {toks shape : List String} {flat : Expr} {fortran : Bool} {tok : String} {t ix : List ℕ}
variable {loops : List (String × String)} {src tgt : List String} {et : List Expr}
variable {groups : List (List ℕ × List ℕ)} {c c' : GroupedCopy}

theorem readsNat_name {x : String} (h : τ.scalars x = some (I.ofInt n)) :
    ReadsNat I τ (.name x) n := by
  simp only [ReadsNat, value, eval, h, bind_some, force]

theorem readsNat_const (hI : IndexArith I) (n : ℕ) : ReadsNat I τ (.const (.int n)) n :=
  congrArg some (hI.const n)

theorem readsNat_binOp {l r : Expr} {m : ℕ} (hl : ReadsNat I τ l m) (hr : ReadsNat I τ r n)
    (hop : I.binary op (I.ofInt m) (I.ofInt n) = some (I.ofInt k)) :
    ReadsNat I τ (.binOp op l r) k := by
  rw [ReadsNat, value_binOp, hl, bind_some, hr, bind_some, hop]

theorem readsNat_foldl {f : ℕ → ℕ → ℕ}
    (hop : ∀ m n : ℕ, I.binary op (I.ofInt m) (I.ofInt n) = some (I.ofInt (f m n : ℕ)))
    (h : Forall₂ (ReadsNat I τ) es ns) (he : ReadsNat I τ e n) :
    ReadsNat I τ (es.foldl (.binOp op) e) (ns.foldl f n) := by
  induction h generalizing e n with
  | nil => exact he
  | cons hd _ ih => exact ih (readsNat_binOp he hd (hop _ _))

theorem readsNat_joinSum (hI : IndexArith I) (h : Forall₂ (ReadsNat I τ) es ns) :
    ReadsNat I τ (joinSum es) ns.sum := by
  cases h with
  | nil => exact readsNat_const hI 0
  | @cons e n es ns he h =>
    have hsum : (n :: ns).sum = ns.foldl (· + ·) n := by
      rw [sum_eq_foldl, foldl_cons, Nat.zero_add]
    rw [hsum]
    exact readsNat_foldl hI.add h he

theorem TokenExtents.forall₂ (h : TokenExtents I τ token dim toks) :
    Forall₂ (ReadsNat I τ) (toks.map token) (toks.map dim) := by
  rw [forall₂_map_left_iff, forall₂_map_right_iff, forall₂_same]
  exact h

theorem TokenExtents.mono {toks' : List String} (h : TokenExtents I τ token dim toks)
    (hsub : toks' ⊆ toks) : TokenExtents I τ token dim toks' := fun tok htok => h tok (hsub htok)

theorem readsNat_productStr (hI : IndexArith I) (h : TokenExtents I τ token dim toks) :
    ReadsNat I τ (productStr token toks) (toks.map dim).prod := by
  cases toks with
  | nil => exact readsNat_const hI 1
  | cons tok toks =>
    have hprod : ((tok :: toks).map dim).prod = (toks.map dim).foldl (· * ·) (dim tok) := by
      rw [map_cons, prod_eq_foldl, foldl_cons, Nat.one_mul]
    rw [hprod, productStr, ← foldl_map]
    exact readsNat_foldl hI.mult (h.mono (subset_cons_self ..)).forall₂
      (h tok mem_cons_self)

/-- The extents that are left out are 1. -/
theorem prod_kept (hone : dim "1" = 1) (hne : "" ∉ toks) :
    ((toks.filter fun t => t ≠ "" ∧ t ≠ "1").map dim).prod = (toks.map dim).prod := by
  induction toks with
  | nil => rfl
  | cons tok toks ih =>
    obtain ⟨htok, hne⟩ := not_or.1 (mt mem_cons.2 hne)
    have ih := ih hne
    by_cases h1 : tok = "1"
    · subst h1
      rw [filter_cons_of_neg (by simp), ih, map_cons, prod_cons, hone, Nat.one_mul]
    · rw [filter_cons_of_pos (by simp [h1, Ne.symm htok]), map_cons, prod_cons, ih,
        map_cons, prod_cons]

theorem prod_of_tokenProduct_none (hone : dim "1" = 1) (hne : "" ∉ toks)
    (h : tokenProduct token toks = none) : (toks.map dim).prod = 1 := by
  rw [← prod_kept hone hne]
  unfold tokenProduct at h
  split at h
  · next hnil => rw [hnil]; rfl
  · cases h

theorem readsNat_tokenProduct (hI : IndexArith I) (hone : dim "1" = 1) (hne : "" ∉ toks)
    (hdims : TokenExtents I τ token dim toks) (h : tokenProduct token toks = some e) :
    ReadsNat I τ e (toks.map dim).prod := by
  rw [← prod_kept hone hne]
  unfold tokenProduct at h
  split at h
  · cases h
  · obtain rfl := some.inj h
    exact readsNat_productStr hI (hdims.mono (filter_subset_self _))

/-! ### The index by division -/

/-- The tokens of the axes that run faster than an axis. -/
def fasterAxes (shape : List String) (i : ℕ) (fortran : Bool) : List String :=
  if fortran then shape.take i else shape.drop (i + 1)

theorem readsNat_decodedAxis (hI : IndexArith I) (hone : dim "1" = 1) {i : ℕ} (hne : "" ∉ shape)
    (hdims : TokenExtents I τ token dim shape) (htok : tok ∈ shape) (hk : k < dim tok)
    (hflat : ReadsNat I τ flat n) (hpos : 0 < ((fasterAxes shape i fortran).map dim).prod)
    (hplace : n / ((fasterAxes shape i fortran).map dim).prod % dim tok = k)
    (hmajor : (if fortran then i = shape.length - 1 else i = 0) →
      n / ((fasterAxes shape i fortran).map dim).prod = k) :
    ReadsNat I τ (decodedAxis token shape flat fortran tok i) k := by
  have hsub : fasterAxes shape i fortran ⊆ shape := by
    unfold fasterAxes
    split
    · exact take_subset ..
    · exact drop_subset ..
  have hne' : "" ∉ fasterAxes shape i fortran := fun h => hne (hsub h)
  by_cases h1 : tok = "1"
  · obtain rfl : k = 0 := by
      rw [h1, hone] at hk
      omega
    rw [decodedAxis, if_pos h1]
    exact readsNat_const hI 0
  -- The quotient by what runs faster.
  have haxis : ReadsNat I τ (match axisStride token shape i fortran with
      | none => flat
      | some stride => .binOp (.other "/") flat stride)
      (n / ((fasterAxes shape i fortran).map dim).prod) := by
    cases hstride : axisStride token shape i fortran with
    | none =>
      rw [prod_of_tokenProduct_none hone hne' hstride, Nat.div_one]
      exact hflat
    | some stride =>
      exact readsNat_binOp hflat (readsNat_tokenProduct hI hone hne' (hdims.mono hsub) hstride)
        (hI.div _ _ hpos)
  rw [decodedAxis, if_neg h1]
  dsimp only
  by_cases hmost : if fortran then i = shape.length - 1 else i = 0
  · rw [if_pos hmost]
    rwa [hmajor hmost] at haxis
  · rw [if_neg hmost, ← hplace]
    exact readsNat_binOp haxis (hdims tok htok) (hI.mod _ _ (by omega))

/-- **The index read off the linear index is the one it is of.** -/
theorem reads_decodedSourceAxes (hI : IndexArith I) (hone : dim "1" = 1) (hne : "" ∉ shape)
    (hdims : TokenExtents I τ token dim shape) {s : List ℕ} (hs : s ∈ box (shape.map dim))
    (hflat : ReadsNat I τ flat (linearIndex fortran (shape.map dim) s)) :
    Forall₂ (ReadsNat I τ) (decodedSourceAxes token shape flat fortran) s := by
  -- The axes before the current one, and the places along them, are `before` and `a`.
  suffices h : ∀ (after before : List String) (a b : List ℕ), shape = before ++ after →
      s = a ++ b → Forall₂ (· < ·) a (before.map dim) →
      Forall₂ (· < ·) b (after.map dim) →
      Forall₂ (ReadsNat I τ) ((after.zipIdx before.length).map fun p =>
        decodedAxis token shape flat fortran p.1 p.2) b from
    h shape [] [] s rfl rfl .nil (mem_box.1 hs)
  intro after
  induction after with
  | nil =>
    intro before a b _ _ _ hb
    cases hb
    exact .nil
  | cons tok after ih =>
    intro before a b hshape hsab ha hb
    obtain _ | @⟨i, _, b, _, hi, hb⟩ := hb
    rw [zipIdx_cons, map_cons]
    refine .cons ?_ ?_
    · have hpos : ∀ {x : List ℕ} {toks : List String}, Forall₂ (· < ·) x (toks.map dim) →
          0 < (toks.map dim).prod := fun h => Nat.zero_lt_of_lt (flatIndex_lt h)
      cases fortran with
      | false =>
        have hfast : fasterAxes shape before.length false = after := by
          simp [fasterAxes, hshape]
        have hdecode := flatIndex_decode (before.map dim) a ha.length_eq hi hb
        have hlin : linearIndex false (shape.map dim) s =
            flatIndex (before.map dim ++ dim tok :: after.map dim) (a ++ i :: b) := by
          rw [hshape, hsab, map_append, map_cons]
          rfl
        rw [← hlin] at hdecode
        refine readsNat_decodedAxis hI hone hne hdims (by simp [hshape]) hi hflat ?_ ?_ ?_
        · rw [hfast]; exact hpos hb
        · rw [hfast]; exact hdecode.2
        · intro hmost
          have hmost : before.length = 0 := hmost
          obtain rfl := length_eq_zero_iff.1 hmost
          rw [hfast, hdecode.1]
          cases ha
          simp [flatIndex]
      | true =>
        have hfast : fasterAxes shape before.length true = before := by
          simp [fasterAxes, hshape]
        have ha' := forall₂_reverse_iff.2 ha
        have hb' := forall₂_reverse_iff.2 hb
        have hdecode := flatIndex_decode _ _ hb'.length_eq hi ha'
        have hlin : linearIndex true (shape.map dim) s =
            flatIndex ((after.map dim).reverse ++ dim tok :: (before.map dim).reverse)
              (b.reverse ++ i :: a.reverse) := by
          rw [hshape, hsab]
          simp [linearIndex]
        rw [← hlin, prod_reverse] at hdecode
        refine readsNat_decodedAxis hI hone hne hdims (by simp [hshape]) hi hflat ?_ ?_ ?_
        · rw [hfast]; exact hpos ha
        · rw [hfast]; exact hdecode.2
        · intro hmost
          have hmost : before.length = shape.length - 1 := hmost
          have hafter : after = [] := by
            rw [hshape, length_append, length_cons] at hmost
            exact length_eq_zero_iff.1 (by omega)
          subst hafter
          cases hb
          rw [hfast, hdecode.1]
          simp [flatIndex]
    · have hrest := ih (before ++ [tok]) (a ++ [i]) b (by simp [hshape]) (by simp [hsab])
        (by
          rw [map_append]
          exact rel_append ha (.cons hi .nil)) hb
      rwa [length_append] at hrest

/-- The variables of a nest, at an index. -/
def AtIndex (I : Interp V) (τ : State V) (iters : List String) (ix : List ℕ) : Prop :=
  Forall₂ (fun x i => τ.scalars x = some (I.ofInt (i : ℕ))) iters ix

/-- **The linear index of the variables is that of the place they are at.** -/
theorem readsNat_flatIndexExpr (hI : IndexArith I) (hone : dim "1" = 1) {iters : List String}
    (fortran : Bool) (hne : "" ∉ shape) (hdims : TokenExtents I τ token dim shape)
    (ht : t.length = shape.length) (hiters : AtIndex I τ iters t) :
    ReadsNat I τ (flatIndexExpr token iters shape fortran)
      (linearIndex fortran (shape.map dim) t) := by
  -- The terms from an axis on sum up to the linear index along these axes, times what is faster.
  suffices h : ∀ (after before iters : List String) (b : List ℕ), shape = before ++ after →
      b.length = after.length → AtIndex I τ iters b →
      ∃ ns : List ℕ, Forall₂ (ReadsNat I τ) ((iters.zipIdx before.length).map fun p =>
          match axisStride token shape p.2 fortran with
          | none => .name p.1
          | some stride => .binOp .mult (.name p.1) stride) ns ∧
        ns.sum = linearIndex fortran (after.map dim) b *
          (if fortran then (before.map dim).prod else 1) by
    obtain ⟨ns, hns, hsum⟩ := h shape [] iters t rfl ht hiters
    have hread := readsNat_joinSum hI hns
    rw [hsum] at hread
    simpa [flatIndexExpr] using hread
  intro after
  induction after with
  | nil =>
    intro before iters b _ hb hiters
    obtain rfl := length_eq_zero_iff.1 hb
    cases hiters
    exact ⟨[], .nil, by cases fortran <;> simp [linearIndex, flatIndex]⟩
  | cons tok after ih =>
    intro before iters b hshape hb hiters
    obtain _ | @⟨x, i, iters, b, hx, hiters⟩ := hiters
    · cases hb
    have hb := Nat.succ.inj hb
    obtain ⟨ns, hns, hsum⟩ := ih (before ++ [tok]) iters b (by simp [hshape]) hb hiters
    rw [length_append] at hns
    have hfast : fasterAxes shape before.length fortran = if fortran then before else after := by
      cases fortran <;> simp [fasterAxes, hshape]
    have hsub : fasterAxes shape before.length fortran ⊆ shape := by
      rw [hfast, hshape]
      cases fortran <;> simp
    have hne' : "" ∉ fasterAxes shape before.length fortran := fun h => hne (hsub h)
    refine ⟨i * ((fasterAxes shape before.length fortran).map dim).prod :: ns,
      .cons ?_ hns, ?_⟩
    · dsimp only
      cases hstride : axisStride token shape before.length fortran with
      | none =>
        rw [prod_of_tokenProduct_none hone hne' hstride, Nat.mul_one]
        exact readsNat_name hx
      | some stride =>
        exact readsNat_binOp (readsNat_name hx)
          (readsNat_tokenProduct hI hone hne' (hdims.mono hsub) hstride) (hI.mult _ _)
    · rw [sum_cons, hsum, hfast]
      cases fortran with
      | false => simp [linearIndex, flatIndex]
      | true =>
        have hrev : b.reverse.length = (after.map dim).reverse.length := by simp [hb]
        simp only [linearIndex, if_true, map_cons, reverse_cons, flatIndex_append hrev,
          flatIndex_singleton, prod_singleton, map_append, prod_append,
          map_nil]
        ring

/-! ### The nest -/

variable {σ : State V}

theorem atIndex_of_zip {loops : List (String × Expr)} (hlength : loops.length = ix.length)
    (h : ∀ q ∈ loops.zip ix, τ.scalars q.1.1 = some (I.ofInt (q.2 : ℕ))) :
    AtIndex I τ (loops.map Prod.fst) ix := by
  rw [AtIndex, forall₂_map_left_iff, forall₂_iff_zip]
  exact ⟨hlength, fun {l i} hmem => h (l, i) hmem⟩

/-- Entries that read the numbers of an index. -/
theorem items_reads (h : Forall₂ (ReadsNat I τ) es ix) :
    (eval I τ (indexSlot es)).bind (items I τ) = some (ix.map fun i : ℕ => I.ofInt i) := by
  refine items_indexSlot ?_
  rw [forall₂_map_right_iff]
  exact h

/-- **A nest of copies**: the place `F ix` of the target gets what the source has at `G ix`. -/
theorem copyNest_sound {target source : String} {a b : Arr V} (b' : Arr V)
    {loops : List (String × Expr)} {dims : List ℕ} {tgtIndex srcIndex : List Expr}
    (F G : List ℕ → List ℕ) (fuel : ℕ)
    (ha : σ.arrays source = some a) (hb : σ.arrays target = some b)
    (hsource : σ.scalars source = none) (htarget : σ.scalars target = none)
    (hlength : loops.length = dims.length) (hnodup : (loops.map Prod.fst).Nodup)
    (hfresh : ∀ x ∈ loops.map Prod.fst, σ.arrays x = none)
    (hbounds : ∀ done τ, Midway σ target b b' (loops.map Prod.fst) done τ →
      ∀ q ∈ loops.zip dims, ReadsNat I τ q.1.2 q.2)
    (hentries : ∀ done τ, Midway σ target b b' (loops.map Prod.fst) done τ → ∀ ix ∈ box dims,
      AtIndex I τ (loops.map Prod.fst) ix →
      Forall₂ (ReadsNat I τ) tgtIndex (F ix) ∧ Forall₂ (ReadsNat I τ) srcIndex (G ix))
    (hplaces : ∀ ix ∈ box dims, F ix ∈ box b.shape ∧ G ix ∈ box a.shape ∧
      b'.cells (F ix) = a.cells (G ix))
    (hsame : source = target → ∀ ix ∈ box dims, b'.cells (G ix) = b.cells (G ix)) :
    ∃ σ', exec I fuel (copyNest target source loops tgtIndex srcIndex) σ = some (σ', .next) ∧
      σ'.arrays = Function.update σ.arrays target (some (partway b b' ((box dims).map F))) := by
  have hnames : ∀ {A : String} {c : Arr V}, σ.arrays A = some c → A ∉ loops.map Prod.fst :=
    fun hc hmem => by rw [hfresh _ hmem] at hc; cases hc
  obtain ⟨σ', hσ', hend⟩ : ∃ σ',
      exec I fuel (copyNest target source loops tgtIndex srcIndex) σ = some (σ', .next) ∧
      Midway σ target b b' (loops.map Prod.fst) ((box dims).map F) σ' := nest_sound dims loops fuel
    (P := fun done => Midway σ target b b' (loops.map Prod.fst) (done.map F)) hlength hnodup
    (fun done τ h x hx v => ⟨h.arrays_none (hfresh x hx), h.start, h.arrays, fun y hy => by
      have hne : y ≠ x := fun hyx => hy (hyx ▸ hx)
      rw [State.setScalar_of_ne hne, h.scalars y hy]⟩)
    (fun done τ h q hq => rangeValues_single (hbounds _ τ h q hq) (I.int_ofInt _))
    (fun done ix later τ hbox h hix => by
      have hmem : ix ∈ box dims := by rw [hbox]; simp
      obtain ⟨hF, hG, hcell⟩ := hplaces ix hmem
      obtain ⟨htgt, hsrc⟩ := hentries _ τ h ix hmem
        (atIndex_of_zip (hlength.trans (length_of_mem_box hmem).symm) hix)
      obtain ⟨c, hc, hshape, hread⟩ := h.read ha
      have hvalue : value I τ (.subscript (.name source) (indexSlot srcIndex)) =
          some (b'.cells (F ix)) := by
        rw [value_element (by rw [h.scalars _ (hnames ha), hsource]) hc (items_reads hsrc)
          (mapM_int_ofInt _)
          (by rw [length_map, hshape]; exact length_of_mem_box hG)
          (hshape ▸ locate_natCast hG), hcell]
        refine congrArg some (hread _ fun hst _ => ?_)
        subst hst
        obtain rfl := some.inj (ha.symm.trans hb)
        exact hsame rfl ix hmem
      have harr : τ.arrays target = some (partway b b' (done.map F)) := by
        rw [h.arrays, Function.update_self]
      let τ' : State V :=
        { τ with
          arrays := Function.update σ.arrays target (some (partway b b' ((done ++ [ix]).map F))) }
      have hstore : store I τ (b'.cells (F ix)) (.subscript (.name target) (indexSlot tgtIndex)) =
          some τ' := by
        rw [store_element (by rw [h.scalars _ (hnames hb), htarget]) harr hF (items_reads htgt),
          State.setArray, partway_set rfl, h.arrays, Function.update_idem]
        simp only [τ', map_append, map_singleton]
      refine ⟨τ', ?_, ⟨h.start, rfl, h.scalars⟩, fun _ _ => rfl⟩
      simp only [exec, hvalue, foldlM_cons, foldlM_nil, hstore, bind_eq_bind,
        bind_some, Option.pure_def])
    ⟨hb, by rw [map_nil, partway_nil, ← hb, Function.update_eq_self], fun _ _ => rfl⟩
  exact ⟨σ', hσ', hend.arrays⟩

/-! ### The groups -/

/-- What a group of axes is copied with: an index `G` of one side's axes and `F` of the other's, for
every place of the loops, that name the same element. -/
structure Pairs (I : Interp V) (token : String → Expr) (dim : String → ℕ)
    (loops : List (String × String)) (src tgt : List String) (srcIndex tgtIndex : List Expr)
    (G F : List ℕ → List ℕ) : Prop where
  reads : ∀ τ : State V, TokenExtents I τ token dim (src ++ tgt) → ∀ ix,
    AtIndex I τ (loops.map Prod.fst) ix →
    Forall₂ (ReadsNat I τ) srcIndex (G ix) ∧ Forall₂ (ReadsNat I τ) tgtIndex (F ix)
  inside : ∀ ix ∈ box (loops.map fun l => dim l.2),
    G ix ∈ box (src.map dim) ∧ F ix ∈ box (tgt.map dim) ∧
      flatIndex (src.map dim) (G ix) = flatIndex (tgt.map dim) (F ix)
  onto : ∀ t ∈ box (tgt.map dim), ∃ ix ∈ box (loops.map fun l => dim l.2), F ix = t

/-- Two groups side by side, where the second copies as many elements as it reads. -/
theorem Pairs.append {loops' : List (String × String)} {src' tgt' : List String}
    {es' et' : List Expr} {G G' F F' : List ℕ → List ℕ}
    (h : Pairs I token dim loops src tgt es et G F)
    (h' : Pairs I token dim loops' src' tgt' es' et' G' F')
    (hprod : (src'.map dim).prod = (tgt'.map dim).prod) :
    Pairs I token dim (loops ++ loops') (src ++ src') (tgt ++ tgt') (es ++ es') (et ++ et')
      (fun ix => G (ix.take loops.length) ++ G' (ix.drop loops.length))
      (fun ix => F (ix.take loops.length) ++ F' (ix.drop loops.length)) where
  reads τ hdims ix hix := by
    rw [AtIndex, map_append] at hix
    have hleft := forall₂_take loops.length hix
    have hright := forall₂_drop loops.length hix
    rw [take_left' (length_map ..)] at hleft
    rw [drop_left' (length_map ..)] at hright
    obtain ⟨hG, hF⟩ := h.reads τ (hdims.mono fun tok htok => by simp at htok ⊢; tauto) _ hleft
    obtain ⟨hG', hF'⟩ := h'.reads τ (hdims.mono fun tok htok => by simp at htok ⊢; tauto) _ hright
    exact ⟨rel_append hG hG', rel_append hF hF'⟩
  inside ix hix := by
    rw [mem_box, map_append] at hix
    have hleft := forall₂_take_append _ _ _ hix
    have hright := forall₂_drop_append _ _ _ hix
    rw [length_map] at hleft hright
    obtain ⟨hG, hF, hflat⟩ := h.inside _ (mem_box.2 hleft)
    obtain ⟨hG', hF', hflat'⟩ := h'.inside _ (mem_box.2 hright)
    rw [map_append, map_append]
    refine ⟨mem_box.2 (rel_append (mem_box.1 hG) (mem_box.1 hG')),
      mem_box.2 (rel_append (mem_box.1 hF) (mem_box.1 hF')), ?_⟩
    rw [flatIndex_append (length_of_mem_box hG), flatIndex_append (length_of_mem_box hF), hflat,
      hflat', hprod]
  onto t ht := by
    rw [mem_box, map_append] at ht
    obtain ⟨ix, hix, hF⟩ := h.onto _ (mem_box.2 (forall₂_take_append _ _ _ ht))
    obtain ⟨ix', hix', hF'⟩ := h'.onto _ (mem_box.2 (forall₂_drop_append _ _ _ ht))
    have hlength : ix.length = loops.length := by
      rw [length_of_mem_box hix, length_map]
    refine ⟨ix ++ ix', ?_, ?_⟩
    · rw [mem_box, map_append]
      exact rel_append (mem_box.1 hix) (mem_box.1 hix')
    · rw [take_left' hlength, drop_left' hlength, hF, hF', take_append_drop]

/-- The terms of a group's linear index sum up to it. -/
theorem reads_linearTerms (hI : IndexArith I)
    (hdims : TokenExtents I τ token dim (loops.map Prod.snd))
    (hix : AtIndex I τ (loops.map Prod.fst) ix) :
    ∃ ns : List ℕ, Forall₂ (ReadsNat I τ) (linearTerms token loops) ns ∧
      ns.sum = flatIndex (loops.map fun l => dim l.2) ix := by
  induction loops generalizing ix with
  | nil => exact ⟨[], .nil, by simp [flatIndex]⟩
  | cons l loops ih =>
    obtain _ | @⟨_, i, _, ix, hi, hix⟩ := hix
    have hdims' : TokenExtents I τ token dim (loops.map Prod.snd) :=
      hdims.mono (subset_cons_self ..)
    obtain ⟨ns, hns, hsum⟩ := ih hdims' hix
    refine ⟨i * ((loops.map Prod.snd).map dim).prod :: ns, .cons ?_ hns, ?_⟩
    · by_cases hnil : loops = []
      · subst hnil
        rw [if_pos rfl, map_nil, map_nil, prod_nil, Nat.mul_one]
        exact readsNat_name hi
      · rw [if_neg hnil]
        exact readsNat_binOp (readsNat_name hi) (readsNat_productStr hI hdims') (hI.mult _ _)
    · rw [sum_cons, hsum, List.map_map]
      rfl

theorem reads_names (hix : AtIndex I τ (loops.map Prod.fst) ix) :
    Forall₂ (ReadsNat I τ) (loops.map fun l => .name l.1) ix := by
  rw [AtIndex, forall₂_map_left_iff] at hix
  rw [forall₂_map_left_iff]
  exact hix.imp fun _ _ h => readsNat_name h

@[simp] theorem map_snd_groupLoops (start : ℕ) (toks : List String) :
    (groupLoops start toks).map Prod.snd = toks := by
  rw [groupLoops, List.map_map]
  exact zipIdx_map_fst start toks

theorem dims_groupLoops (start : ℕ) (toks : List String) :
    ((groupLoops start toks).map fun l => dim l.2) = toks.map dim := by
  calc ((groupLoops start toks).map fun l => dim l.2)
      = ((groupLoops start toks).map Prod.snd).map dim := List.map_map.symm
    _ = toks.map dim := by rw [map_snd_groupLoops]

/-- The finer side against one axis of the other side, of the same size. -/
theorem pairs_linear (hI : IndexArith I) (start : ℕ) (hprod : (toks.map dim).prod = dim tok) :
    Pairs I token dim (groupLoops start toks) toks [tok]
      ((groupLoops start toks).map fun l => .name l.1)
      [joinSum (linearTerms token (groupLoops start toks))]
      id (fun ix => [flatIndex (toks.map dim) ix]) where
  reads τ hdims ix hix := by
    refine ⟨reads_names hix, .cons ?_ .nil⟩
    obtain ⟨ns, hns, hsum⟩ := reads_linearTerms hI
      (hdims.mono (by rw [map_snd_groupLoops]; simp)) hix
    rw [dims_groupLoops] at hsum
    exact hsum ▸ readsNat_joinSum hI hns
  inside ix hix := by
    rw [dims_groupLoops] at hix
    refine ⟨hix, mem_box.2 (.cons ?_ .nil), (flatIndex_singleton _ _).symm⟩
    exact hprod ▸ flatIndex_lt (mem_box.1 hix)
  onto t ht := by
    obtain _ | @⟨i, _, _, _, hi, hnil⟩ := mem_box.1 ht
    cases hnil
    obtain ⟨ix, hix, rfl⟩ := mem_positions_range (hprod ▸ hi)
    exact ⟨ix, by rw [dims_groupLoops]; exact mem_box.2 hix, rfl⟩

/-- One axis against the finer side, of the same size. -/
theorem pairs_linear_source (hI : IndexArith I) (start : ℕ) {toks : List String} {tok : String}
    (hprod : (toks.map dim).prod = dim tok) :
    Pairs I token dim (groupLoops start toks) [tok] toks
      [joinSum (linearTerms token (groupLoops start toks))]
      ((groupLoops start toks).map fun l => .name l.1)
      (fun ix => [flatIndex (toks.map dim) ix]) id where
  reads τ hdims ix hix :=
    ((pairs_linear hI start hprod).reads τ (hdims.mono fun tok htok => by simp at htok ⊢; tauto)
      ix hix).symm
  inside ix hix := by
    have hpairs : Pairs I token dim _ toks [tok] _ _ _ _ := pairs_linear hI start hprod
    obtain ⟨hF, hG, hflat⟩ := hpairs.inside ix hix
    exact ⟨hG, hF, hflat.symm⟩
  onto t ht := ⟨t, by rwa [dims_groupLoops], rfl⟩

/-- One axis against one of the same extent. -/
theorem pairs_single (start : ℕ) {tok' : String} (hdim : dim tok = dim tok') :
    Pairs I token dim (groupLoops start [tok]) [tok] [tok']
      ((groupLoops start [tok]).map fun l => .name l.1)
      ((groupLoops start [tok]).map fun l => .name l.1) id id where
  reads τ _ ix hix := ⟨reads_names hix, reads_names hix⟩
  inside ix hix := by
    have hmap : [tok'].map dim = [tok].map dim := by
      rw [map_singleton, map_singleton, hdim]
    rw [dims_groupLoops] at hix
    exact ⟨hix, hmap ▸ hix, by rw [hmap]⟩
  onto t ht := ⟨t, by rw [dims_groupLoops, map_singleton, hdim]; exact ht, rfl⟩

theorem mem_box_ones (hone : ∀ tok ∈ toks, dim tok = 1) :
    t ∈ box (toks.map dim) ↔ t = toks.map fun _ => 0 := by
  induction toks generalizing t with
  | nil => rw [mem_box]; exact forall₂_nil_right_iff
  | cons tok toks ih =>
    obtain ⟨htok, hone⟩ := forall_mem_cons.1 hone
    rw [mem_box, map_cons, forall₂_cons_right_iff]
    constructor
    · rintro ⟨i, t', hi, ht', rfl⟩
      rw [(ih hone).1 (mem_box.2 ht'), htok] at *
      rw [map_cons, Nat.lt_one_iff.1 hi]
    · rintro rfl
      exact ⟨0, _, by rw [htok]; exact Nat.one_pos, mem_box.1 ((ih hone).2 rfl), rfl⟩

theorem flatIndex_zeros (shape : List ℕ) (toks : List String) :
    flatIndex shape (toks.map fun _ => 0) = 0 := by
  induction toks generalizing shape with
  | nil => cases shape <;> rfl
  | cons tok toks ih =>
    cases shape with
    | nil => rfl
    | cons n shape => rw [map_cons, flatIndex, Nat.zero_mul, Nat.zero_add, ih]

/-- Axes of size one, on both sides. -/
theorem pairs_ones (hI : IndexArith I) (hone : ∀ tok ∈ src ++ tgt, dim tok = 1) :
    Pairs I token dim [] src tgt (src.map fun _ => .const (.int 0))
      (tgt.map fun _ => .const (.int 0)) (fun _ => src.map fun _ => 0)
      (fun _ => tgt.map fun _ => 0) where
  reads τ _ ix _ := by
    have hzeros : ∀ toks : List String, Forall₂ (ReadsNat I τ)
        (toks.map fun _ => .const (.int 0)) (toks.map fun _ => 0) := fun toks => by
      rw [forall₂_map_left_iff, forall₂_map_right_iff, forall₂_same]
      exact fun _ _ => readsNat_const hI 0
    exact ⟨hzeros src, hzeros tgt⟩
  inside ix _ := by
    refine ⟨(mem_box_ones fun tok h => hone tok (mem_append_left _ h)).2 rfl,
      (mem_box_ones fun tok h => hone tok (mem_append_right _ h)).2 rfl, ?_⟩
    rw [flatIndex_zeros, flatIndex_zeros]
  onto t ht :=
    ⟨[], mem_singleton_self _,
      ((mem_box_ones fun tok h => hone tok (mem_append_right _ h)).1 ht).symm⟩

/-- What the fold over the groups relies on of each group. -/
structure GroupFacts (I : Interp V) (token : String → Expr) (dim : String → ℕ) (start : ℕ)
    (src tgt : List String) (p : GroupCopy) : Prop where
  srcLength : p.src.length = src.length
  tgtLength : p.tgt.length = tgt.length
  names : p.loops.map Prod.fst =
    (List.range' start p.loops.length).map fun i => "__rs" ++ toString i
  tokens : p.loops.map Prod.snd ⊆ src ++ tgt
  single : ∀ tok, src = [tok] → tgt.length = 1 → tok ∈ p.loops.map Prod.snd
  pairs : (src.map dim).prod = (tgt.map dim).prod →
    ∃ G F, Pairs I token dim p.loops src tgt p.src p.tgt G F

theorem names_groupLoops (start : ℕ) (toks : List String) :
    (groupLoops start toks).map Prod.fst =
      (List.range' start (groupLoops start toks).length).map fun i => "__rs" ++ toString i := by
  have hmap : (groupLoops start toks).map Prod.fst =
      ((toks.zipIdx start).map Prod.snd).map fun i => "__rs" ++ toString i := by
    rw [groupLoops, List.map_map, List.map_map]
    rfl
  rw [hmap, zipIdx_map_snd, groupLoops, length_map, length_zipIdx]

theorem groupCopy_facts (hI : IndexArith I) (hone : dim "1" = 1) {start : ℕ} {p : GroupCopy}
    (h : groupCopy token start src tgt = some p) (hsmall : src.length ≤ 1 ∨ tgt.length ≤ 1) :
    GroupFacts I token dim start src tgt p := by
  have hlength : ∀ toks : List String, (groupLoops start toks).length = toks.length :=
    fun toks => by rw [groupLoops, length_map, length_zipIdx]
  unfold groupCopy at h
  by_cases hempty : src = [] ∨ tgt = []
  · rw [if_pos hempty] at h
    obtain ⟨hsolo, h⟩ := ite_none_left_eq_some.1 h
    obtain rfl := some.inj h
    have hsolo : ∀ tok ∈ if tgt = [] then src else tgt, tok = "1" := fun tok htok =>
      by_contra fun hne => hsolo (any_eq_true.2 ⟨tok, htok, decide_eq_true hne⟩)
    have hones : ∀ tok ∈ src ++ tgt, dim tok = 1 := by
      intro tok htok
      obtain rfl : tok = "1" := by
        by_cases htgt : tgt = []
        · subst htgt
          exact hsolo tok (by simpa using htok)
        · obtain rfl := hempty.resolve_right htgt
          exact hsolo tok (by rwa [if_neg htgt])
      exact hone
    refine ⟨length_map .., length_map .., rfl, by simp, ?_, fun _ =>
      ⟨_, _, pairs_ones hI hones⟩⟩
    rintro tok rfl htgt
    rcases hempty with hnil | rfl
    · cases hnil
    · cases htgt
  rw [if_neg hempty] at h
  obtain ⟨hsrc, htgt⟩ := not_or.1 hempty
  rw [← length_eq_zero_iff] at hsrc htgt
  by_cases heq : src.length = tgt.length
  · rw [if_pos heq] at h
    obtain rfl := some.inj h
    obtain ⟨tok, rfl⟩ := length_eq_one_iff.1 (show src.length = 1 by omega)
    obtain ⟨tok', rfl⟩ := length_eq_one_iff.1 heq.symm
    refine ⟨rfl, rfl, names_groupLoops _ _, by simp, ?_, fun hprod =>
      ⟨_, _, pairs_single start (by simpa using hprod)⟩⟩
    rintro _ htok -
    rw [map_snd_groupLoops, htok]
    exact mem_singleton_self _
  rw [if_neg heq] at h
  by_cases hfine : tgt.length < src.length
  · rw [if_pos hfine] at h
    obtain ⟨hone', h⟩ := ite_none_left_eq_some.1 h
    obtain rfl := some.inj h
    obtain ⟨tok, rfl⟩ := length_eq_one_iff.1 (not_not.1 hone')
    refine ⟨by rw [length_map, hlength], rfl, names_groupLoops _ _, by simp, ?_, fun hprod =>
      ⟨_, _, pairs_linear hI start (by simpa using hprod)⟩⟩
    rintro _ rfl -
    exact absurd hfine (by simp)
  · rw [if_neg hfine] at h
    obtain ⟨hone', h⟩ := ite_none_left_eq_some.1 h
    obtain rfl := some.inj h
    obtain ⟨tok, rfl⟩ := length_eq_one_iff.1 (not_not.1 hone')
    refine ⟨rfl, by rw [length_map, hlength], names_groupLoops _ _, by simp, ?_, fun hprod =>
      ⟨_, _, pairs_linear_source hI start (by simpa using hprod.symm)⟩⟩
    rintro _ - hone
    exact absurd hone.symm heq

/-- Axes given their entries have them; the others have what they had. -/
theorem assignAxes_spec (index : ℕ → Option Expr) {axes : List ℕ} {entries : List Expr}
    (hlength : axes.length = entries.length) (hnodup : axes.Nodup) :
    Forall₂ (fun ax e => assignAxes index axes entries ax = some e) axes entries ∧
      ∀ ax ∉ axes, assignAxes index axes entries ax = index ax := by
  induction axes generalizing index entries with
  | nil =>
    obtain rfl := length_eq_zero_iff.1 hlength.symm
    exact ⟨.nil, fun _ _ => rfl⟩
  | cons ax axes ih =>
    cases entries with
    | nil => cases hlength
    | cons e entries =>
      obtain ⟨hax, hnodup⟩ := nodup_cons.1 hnodup
      obtain ⟨hmem, hrest⟩ := ih (Function.update index ax (some e))
        (Nat.succ.inj hlength) hnodup
      refine ⟨.cons ?_ hmem, fun ax' hax' => ?_⟩
      · exact (hrest ax hax).trans (Function.update_self ..)
      · obtain ⟨hne, hax'⟩ := not_or.1 (mt mem_cons.2 hax')
        exact (hrest ax' hax').trans (Function.update_of_ne hne _ _)

/-- The tokens of some axes. -/
def axisTokens (shape : List String) (axes : List ℕ) : List String :=
  axes.map fun ax => shape.getD ax ""

/-- The size of a group of axes. -/
def axesSize (dim : String → ℕ) (shape : List String) (axes : List ℕ) : ℕ :=
  ((axisTokens shape axes).map dim).prod

/-- The copy after some groups of axes. -/
structure Grouped (I : Interp V) (token : String → Expr) (dim : String → ℕ)
    (src tgt : List String) (groups : List (List ℕ × List ℕ)) (c : GroupedCopy)
    (es et : List Expr) : Prop where
  srcIndex : Forall₂ (fun ax e => c.srcIndex ax = some e) (groups.flatMap Prod.fst) es
  tgtIndex : Forall₂ (fun ax e => c.tgtIndex ax = some e) (groups.flatMap Prod.snd) et
  names : c.loops.map Prod.fst = (List.range c.loops.length).map fun i => "__rs" ++ toString i
  tokens : c.loops.map Prod.snd ⊆
    axisTokens src (groups.flatMap Prod.fst) ++ axisTokens tgt (groups.flatMap Prod.snd)
  single : ∀ i j, ([i], [j]) ∈ groups → src.getD i "" ∈ c.loops.map Prod.snd
  pairs : (∀ g ∈ groups, axesSize dim src g.1 = axesSize dim tgt g.2) →
    ∃ G F, Pairs I token dim c.loops (axisTokens src (groups.flatMap Prod.fst))
      (axisTokens tgt (groups.flatMap Prod.snd)) es et G F

theorem grouped_nil (src tgt : List String) :
    Grouped I token dim src tgt [] ⟨fun _ => none, fun _ => none, []⟩ [] [] where
  srcIndex := .nil
  tgtIndex := .nil
  names := rfl
  tokens := nil_subset _
  single := nofun
  pairs _ := ⟨_, _, ⟨fun _ _ _ _ => ⟨.nil, .nil⟩, fun _ _ => ⟨mem_box.2 .nil, mem_box.2 .nil, rfl⟩,
    fun _ ht => ⟨[], mem_box.2 .nil, (forall₂_nil_right_iff.1 (mem_box.1 ht)).symm⟩⟩⟩

/-- **Adding a group**: the axes so far keep their entries, and the new ones get theirs. -/
theorem Grouped.add (hI : IndexArith I) (hone : dim "1" = 1) {g : List ℕ × List ℕ}
    (h : Grouped I token dim src tgt groups c es et)
    (hsrc : ((groups ++ [g]).flatMap Prod.fst).Nodup)
    (htgt : ((groups ++ [g]).flatMap Prod.snd).Nodup) (hsmall : g.1.length ≤ 1 ∨ g.2.length ≤ 1)
    (hadd : addGroup token src tgt c g = some c') :
    ∃ es' et', Grouped I token dim src tgt (groups ++ [g]) c' es' et' := by
  rw [flatMap_append, flatMap_singleton] at hsrc htgt
  obtain ⟨p, hp, rfl⟩ := map_eq_some_iff.1 hadd
  have hfacts := groupCopy_facts hI hone hp (by simpa using hsmall)
  have hlist : ∀ {index : ℕ → Option Expr} {axes axes' : List ℕ} {entries entries' : List Expr},
      (axes ++ axes').Nodup → axes'.length = entries'.length →
      Forall₂ (fun ax e => index ax = some e) axes entries →
      Forall₂ (fun ax e => assignAxes index axes' entries' ax = some e) (axes ++ axes')
        (entries ++ entries') := by
    intro index axes axes' entries entries' hnodup hlength hold
    obtain ⟨-, hnodup', hdisjoint⟩ := nodup_append'.1 hnodup
    obtain ⟨hnew, hkept⟩ := assignAxes_spec index hlength hnodup'
    refine rel_append ?_ hnew
    refine ((forall₂_and_left axes entries).2 ⟨fun ax hax => hax, hold⟩).imp ?_
    rintro ax e ⟨hax, he⟩
    rw [hkept ax (hdisjoint hax), he]
  refine ⟨es ++ p.src, et ++ p.tgt, ?_, ?_, ?_, ?_, ?_, ?_⟩
  · rw [flatMap_append, flatMap_singleton]
    exact hlist hsrc (by rw [hfacts.srcLength, length_map]) h.srcIndex
  · rw [flatMap_append, flatMap_singleton]
    exact hlist htgt (by rw [hfacts.tgtLength, length_map]) h.tgtIndex
  · rw [map_append, length_append, h.names, hfacts.names, range_eq_range',
      range_eq_range', ← map_append, ← range'_append_1, Nat.zero_add]
  · have hold := h.tokens
    have hnew := hfacts.tokens
    rw [map_append, flatMap_append, flatMap_append]
    intro tok htok
    rw [axisTokens, axisTokens, map_append, map_append, flatMap_singleton,
      flatMap_singleton]
    rcases mem_append.1 htok with htok | htok
    · rcases mem_append.1 (hold htok) with hmem | hmem
      · exact mem_append_left _ (mem_append_left _ hmem)
      · exact mem_append_right _ (mem_append_left _ hmem)
    · rcases mem_append.1 (hnew htok) with hmem | hmem
      · exact mem_append_left _ (mem_append_right _ hmem)
      · exact mem_append_right _ (mem_append_right _ hmem)
  · intro i j hmem
    rw [map_append]
    rcases mem_append.1 hmem with hmem | hmem
    · exact mem_append_left _ (h.single i j hmem)
    · obtain rfl := mem_singleton.1 hmem
      exact mem_append_right _ (hfacts.single _ rfl rfl)
  · intro hsizes
    obtain ⟨hold, hnew⟩ := forall_mem_append.1 hsizes
    obtain ⟨G, F, hpairs⟩ := h.pairs hold
    have hsize := hnew g (mem_singleton_self _)
    obtain ⟨G', F', hpairs'⟩ := hfacts.pairs hsize
    rw [flatMap_append, flatMap_append, flatMap_singleton, flatMap_singleton,
      axisTokens, axisTokens, map_append, map_append]
    exact ⟨_, _, hpairs.append hpairs' hsize⟩

/-- The copy after all groups. -/
theorem Grouped.foldlM (hI : IndexArith I) (hone : dim "1" = 1) {rest : List (List ℕ × List ℕ)}
    (h : Grouped I token dim src tgt groups c es et)
    (hsrc : ((groups ++ rest).flatMap Prod.fst).Nodup)
    (htgt : ((groups ++ rest).flatMap Prod.snd).Nodup)
    (hsmall : ∀ g ∈ rest, g.1.length ≤ 1 ∨ g.2.length ≤ 1)
    (hfold : rest.foldlM (addGroup token src tgt) c = some c') :
    ∃ es' et', Grouped I token dim src tgt (groups ++ rest) c' es' et' := by
  induction rest generalizing groups c es et with
  | nil =>
    obtain rfl := some.inj hfold
    rw [append_nil]
    exact ⟨es, et, h⟩
  | cons g rest ih =>
    obtain ⟨c₁, hadd, hfold⟩ := bind_eq_some_iff.1 hfold
    have happend : groups ++ g :: rest = groups ++ [g] ++ rest := by simp
    rw [happend] at hsrc htgt ⊢
    obtain ⟨hg, hrest⟩ := forall_mem_cons.1 hsmall
    obtain ⟨es₁, et₁, h₁⟩ := h.add hI hone
      (by rw [flatMap_append] at hsrc; exact hsrc.of_append_left)
      (by rw [flatMap_append] at htgt; exact htgt.of_append_left) hg hadd
    exact ih h₁ hsrc htgt hrest hfold

end Reads

/-! ### The pairing of the axes -/

section Pairing

variable {agree : String → String → Bool} {src tgt : List String}
variable {head n tail : ℕ}

theorem matchedAxes_spec (agree : String → String → Bool) (src tgt : List String) :
    matchedAxes agree src tgt ≤ src.length ∧ matchedAxes agree src tgt ≤ tgt.length ∧
      ∀ k < matchedAxes agree src tgt, agree (src.getD k "") (tgt.getD k "") = true := by
  induction src generalizing tgt with
  | nil => exact ⟨Nat.le_refl _, Nat.zero_le _, nofun⟩
  | cons s src ih =>
    cases tgt with
    | nil => exact ⟨Nat.zero_le _, Nat.le_refl _, nofun⟩
    | cons t tgt =>
      obtain ⟨hsrc, htgt, hagree⟩ := ih tgt
      rw [matchedAxes]
      by_cases hst : agree s t = true
      · rw [if_pos hst]
        refine ⟨Nat.succ_le_succ hsrc, Nat.succ_le_succ htgt, fun k hk => ?_⟩
        cases k with
        | zero => exact hst
        | succ k => exact hagree k (Nat.lt_of_succ_lt_succ hk)
      · rw [if_neg hst]
        exact ⟨Nat.zero_le _, Nat.zero_le _, nofun⟩

theorem getD_reverse_drop (toks : List String) {k : ℕ} (hk : k < toks.length - head) :
    (toks.drop head).reverse.getD k "" = toks.getD (toks.length - 1 - k) "" := by
  rw [getD_eq_getElem?_getD, getD_eq_getElem?_getD,
    getElem?_reverse (by rwa [length_drop]), getElem?_drop, length_drop]
  congr 2
  omega

/-- The last axes, from the front. -/
theorem map_tail_axes (h : tail ≤ n) :
    ((List.range tail).reverse.map fun k => n - 1 - k) = List.range' (n - tail) tail := by
  refine ext_getElem (by simp) fun k hk _ => ?_
  have hk : k < tail := by simpa using hk
  simp only [getElem_map, getElem_reverse, length_range, getElem_range,
    getElem_range']
  omega

theorem range_parts (h : head + tail ≤ n) :
    List.range head ++ List.range' head (n - tail - head) ++ List.range' (n - tail) tail =
      List.range n := by
  have hmid : n - tail = 0 + (head + (n - tail - head)) := by omega
  rw [range_eq_range', range_eq_range']
  nth_rewrite 2 [← Nat.zero_add head]
  rw [range'_append_1]
  nth_rewrite 2 [hmid]
  rw [range'_append_1]
  congr 1
  omega

/-- A pair of axes that agree. -/
def AgreeingPair (agree : String → String → Bool) (src tgt : List String)
    (g : List ℕ × List ℕ) : Prop :=
  ∃ i j, g = ([i], [j]) ∧ agree (src.getD i "") (tgt.getD j "") = true

/-- **The groups**: they take the axes of both sides in order, and all but one are a pair of axes
that agree. -/
theorem reshapeAxisGroups_spec {groups : List (List ℕ × List ℕ)}
    (h : reshapeAxisGroups agree src tgt = some groups) :
    groups.flatMap Prod.fst = List.range src.length ∧
      groups.flatMap Prod.snd = List.range tgt.length ∧
      (∀ g ∈ groups, g.1.length ≤ 1 ∨ g.2.length ≤ 1) ∧
      ∃ singles mids, groups.Perm (singles ++ mids) ∧ mids.length ≤ 1 ∧
        ∀ g ∈ singles, AgreeingPair agree src tgt g := by
  let head := matchedAxes agree src tgt
  let tail := matchedAxes agree (src.drop head).reverse (tgt.drop head).reverse
  let midSrc := List.range' head (src.length - tail - head)
  let midTgt := List.range' head (tgt.length - tail - head)
  let heads : List (List ℕ × List ℕ) := (List.range head).map fun i => ([i], [i])
  let tails : List (List ℕ × List ℕ) := (List.range tail).reverse.map fun k =>
    ([src.length - 1 - k], [tgt.length - 1 - k])
  obtain ⟨hhs, hht, hhead⟩ := matchedAxes_spec agree src tgt
  obtain ⟨hts, htt, htail⟩ := matchedAxes_spec agree (src.drop head).reverse
    (tgt.drop head).reverse
  rw [length_reverse, length_drop] at hts htt
  have hsrc : head + tail ≤ src.length := Nat.add_le_of_le_sub' hhs hts
  have htgt : head + tail ≤ tgt.length := Nat.add_le_of_le_sub' hht htt
  have hsingles : ∀ g ∈ heads ++ tails, AgreeingPair agree src tgt g := by
    intro g hg
    rcases mem_append.1 hg with hg | hg
    · obtain ⟨i, hi, rfl⟩ := mem_map.1 hg
      exact ⟨i, i, rfl, hhead i (mem_range.1 hi)⟩
    · obtain ⟨k, hk, rfl⟩ := mem_map.1 hg
      have hk : k < tail := mem_range.1 (mem_reverse.1 hk)
      have hagree := htail k hk
      rw [getD_reverse_drop src (by omega), getD_reverse_drop tgt (by omega)] at hagree
      exact ⟨_, _, rfl, hagree⟩
  have hsmall : ∀ g ∈ heads ++ tails, g.1.length ≤ 1 ∨ g.2.length ≤ 1 := by
    intro g hg
    obtain ⟨i, j, rfl, -⟩ := hsingles g hg
    exact .inl (Nat.le_refl _)
  have hheads : heads.flatMap Prod.fst = List.range head ∧
      heads.flatMap Prod.snd = List.range head :=
    ⟨by simp [heads, flatMap_map], by simp [heads, flatMap_map]⟩
  have htails : tails.flatMap Prod.fst = List.range' (src.length - tail) tail ∧
      tails.flatMap Prod.snd = List.range' (tgt.length - tail) tail := by
    rw [← map_tail_axes (Nat.le_of_add_left_le hsrc), ← map_tail_axes (Nat.le_of_add_left_le htgt),
      map_eq_flatMap, map_eq_flatMap]
    exact ⟨flatMap_map .., flatMap_map ..⟩
  by_cases hmid : midSrc ≠ [] ∨ midTgt ≠ []
  · obtain ⟨hone, h⟩ := ite_none_left_eq_some.1 ((if_pos hmid).symm.trans h)
    obtain rfl := some.inj h
    have hmid1 : midSrc.length ≤ 1 ∨ midTgt.length ≤ 1 := by
      rcases not_and_or.1 hone with hone | hone
      · exact .inl (Nat.not_lt.1 hone)
      · exact .inr (Nat.not_lt.1 hone)
    refine ⟨?_, ?_, ?_, heads ++ tails, [(midSrc, midTgt)], ?_, Nat.le_refl _, hsingles⟩
    · rw [flatMap_append, flatMap_append, hheads.1, htails.1, flatMap_singleton]
      exact range_parts hsrc
    · rw [flatMap_append, flatMap_append, hheads.2, htails.2, flatMap_singleton]
      exact range_parts htgt
    · intro g hg
      rcases mem_append.1 hg with hg | hg
      · rcases mem_append.1 hg with hg | hg
        · exact hsmall g (mem_append_left _ hg)
        · obtain rfl := mem_singleton.1 hg
          exact hmid1
      · exact hsmall g (mem_append_right _ hg)
    · rw [append_assoc, append_assoc]
      exact List.Perm.append_left _ perm_append_comm
  · have h := (if_neg hmid).symm.trans h
    obtain rfl := some.inj h
    have hms : midSrc = [] := not_not.1 fun hne => hmid (.inl hne)
    have hmt : midTgt = [] := not_not.1 fun hne => hmid (.inr hne)
    refine ⟨?_, ?_, hsmall, heads ++ tails, [], by rw [append_nil], Nat.zero_le _, hsingles⟩
    · have hparts := range_parts hsrc
      rw [show List.range' head (src.length - tail - head) = [] from hms, append_nil] at hparts
      rw [flatMap_append, hheads.1, htails.1, hparts]
    · have hparts := range_parts htgt
      rw [show List.range' head (tgt.length - tail - head) = [] from hmt, append_nil] at hparts
      rw [flatMap_append, hheads.2, htails.2, hparts]

end Pairing

theorem axisTokens_range (shape : List String) :
    axisTokens shape (List.range shape.length) = shape := by
  refine ext_getElem (by simp [axisTokens]) fun i hi hi' => ?_
  simp [axisTokens, hi']

theorem axesSize_flatMap {α : Type*} (dim : String → ℕ) (shape : List String) (groups : List α)
    (axes : α → List ℕ) :
    axesSize dim shape (groups.flatMap axes) =
      (groups.map fun g => axesSize dim shape (axes g)).prod := by
  induction groups with
  | nil => rfl
  | cons g groups ih =>
    rw [flatMap_cons, map_cons, prod_cons, ← ih, axesSize, axisTokens,
      map_append, map_append, prod_append]
    rfl

/-! ### The reshape -/

section Sound

variable {V : Type}

/-- numpy's reshape of `a` into the shape of `b`: each place has the element of the same linear
index. -/
def reshaped (fortran : Bool) (a b : Arr V) : Arr V :=
  { b with
    cells := fun t =>
      match (box a.shape).find? fun s =>
        linearIndex fortran a.shape s = linearIndex fortran b.shape t with
      | some s => a.cells s
      | none => b.cells t }

/-- A nest leaves the reshape of `a` in the target, and nothing else. -/
def LeavesReshape (I : Interp V) (σ : State V) (target : String) (a b : Arr V) (fortran : Bool)
    (nest : Block) : Prop :=
  ∀ fuel, ∃ σ' b', exec I fuel nest σ = some (σ', .next) ∧
    σ'.arrays = Function.update σ.arrays target (some b') ∧ b'.shape = b.shape ∧
    ∀ t ∈ box b.shape, ∃ s ∈ box a.shape,
      linearIndex fortran a.shape s = linearIndex fortran b.shape t ∧ b'.cells t = a.cells s

/-- The variables of the nests. -/
def IsReshapeVar (x : String) : Prop := ∃ i : ℕ, x = "__r" ++ toString i ∨ x = "__rs" ++ toString i

/-- The store a reshape starts from. -/
structure Reshapes (I : Interp V) (σ : State V) (token : String → Expr) (dim : String → ℕ)
    (source target : String) (src tgt : List String) (a b : Arr V) : Prop where
  arith : IndexArith I
  one : dim "1" = 1
  sourceArray : σ.arrays source = some a
  targetArray : σ.arrays target = some b
  sourceName : σ.scalars source = none
  targetName : σ.scalars target = none
  sourceShape : a.shape = src.map dim
  targetShape : b.shape = tgt.map dim
  /-- A reshape keeps the number of elements. -/
  elements : a.shape.prod = b.shape.prod
  nonblank : "" ∉ src ++ tgt
  extents : TokenExtents I σ token dim (src ++ tgt)
  /-- The tokens are over names that are neither arrays nor the nest's variables. -/
  apart : ∀ tok ∈ src ++ tgt, ∀ x ∈ loadNames (token tok), σ.arrays x = none ∧ ¬ IsReshapeVar x
  /-- The nest's variables are no arrays. -/
  fresh : ∀ x, IsReshapeVar x → σ.arrays x = none

variable {I : Interp V} {σ : State V} {token : String → Expr} {dim : String → ℕ}
variable {source target : String} {src tgt : List String} {a b : Arr V} {fortran : Bool}
variable {shape s t : List ℕ}

theorem linearIndex_inj {s' : List ℕ} (h : s ∈ box shape) (h' : s' ∈ box shape)
    (heq : linearIndex fortran shape s = linearIndex fortran shape s') : s = s' := by
  cases fortran with
  | false => exact flatIndex_inj (mem_box.1 h) (mem_box.1 h') heq
  | true =>
    exact reverse_injective (flatIndex_inj (forall₂_reverse_iff.2 (mem_box.1 h))
      (forall₂_reverse_iff.2 (mem_box.1 h')) heq)

theorem exists_linearIndex (fortran : Bool) {shape' : List ℕ} (hprod : shape.prod = shape'.prod)
    (ht : t ∈ box shape') :
    ∃ s ∈ box shape, linearIndex fortran shape s = linearIndex fortran shape' t := by
  cases fortran with
  | false =>
    have hlt : flatIndex shape' t < shape.prod := hprod ▸ flatIndex_lt (mem_box.1 ht)
    obtain ⟨s, hs, hflat⟩ := mem_positions_range hlt
    exact ⟨s, mem_box.2 hs, hflat⟩
  | true =>
    have hlt := flatIndex_lt (forall₂_reverse_iff.2 (mem_box.1 ht))
    rw [prod_reverse, ← hprod, ← prod_reverse] at hlt
    obtain ⟨s, hs, hflat⟩ := mem_positions_range hlt
    refine ⟨s.reverse, mem_box.2 (forall₂_reverse_iff.1 (by rwa [reverse_reverse])), ?_⟩
    simpa only [linearIndex, if_true, reverse_reverse] using hflat

theorem reshaped_cells (hs : s ∈ box a.shape)
    (heq : linearIndex fortran a.shape s = linearIndex fortran b.shape t) :
    (reshaped fortran a b).cells t = a.cells s := by
  simp only [reshaped]
  split
  · next s' hs' =>
    have heq' := find?_some hs'
    rw [linearIndex_inj (mem_of_find?_eq_some hs') hs
      ((of_decide_eq_true heq').trans heq.symm)]
  · next hnone =>
    exact absurd (decide_eq_true heq) (find?_eq_none.1 hnone s hs)

namespace Reshapes

/-- **A nest that visits every place of the target, and reads each from the place of the same linear
index, leaves the reshape.** -/
theorem copy (h : Reshapes I σ token dim source target src tgt a b)
    {loops : List (String × String)} {tgtIndex srcIndex : List Expr} {F G : List ℕ → List ℕ}
    (hnodup : (loops.map Prod.fst).Nodup) (hvars : ∀ x ∈ loops.map Prod.fst, IsReshapeVar x)
    (htokens : loops.map Prod.snd ⊆ src ++ tgt)
    (hreads : ∀ τ, TokenExtents I τ token dim (src ++ tgt) →
      ∀ ix ∈ box (loops.map fun l => dim l.2),
      AtIndex I τ (loops.map Prod.fst) ix →
      Forall₂ (ReadsNat I τ) tgtIndex (F ix) ∧ Forall₂ (ReadsNat I τ) srcIndex (G ix))
    (hplaces : ∀ ix ∈ box (loops.map fun l => dim l.2), F ix ∈ box b.shape ∧ G ix ∈ box a.shape ∧
      linearIndex fortran a.shape (G ix) = linearIndex fortran b.shape (F ix))
    (honto : ∀ t ∈ box b.shape, ∃ ix ∈ box (loops.map fun l => dim l.2), F ix = t) :
    LeavesReshape I σ target a b fortran
      (copyNest target source (loops.map fun l => (l.1, token l.2)) tgtIndex srcIndex) := by
  intro fuel
  have hnames : ((loops.map fun l => (l.1, token l.2)).map Prod.fst) = loops.map Prod.fst :=
    List.map_map
  -- The tokens are read as before: the nest changes its variables and the target only.
  have hextents : ∀ done τ, Midway σ target b (reshaped fortran a b) (loops.map Prod.fst) done τ →
      TokenExtents I τ token dim (src ++ tgt) := by
    intro done τ hτ tok htok
    have hsame : SameOn (loadNames (token tok)) σ τ :=
      hτ.same (fun x hx hmem => (h.apart tok htok x hmem).2 (hvars x hx))
        fun x hx => (h.apart tok htok x hx).1
    exact (value_same hsame).symm.trans (h.extents tok htok)
  obtain ⟨σ', hσ', harrays⟩ : ∃ σ', exec I fuel (copyNest target source
      (loops.map fun l => (l.1, token l.2)) tgtIndex srcIndex) σ = some (σ', .next) ∧
      σ'.arrays = Function.update σ.arrays target
        (some (partway b (reshaped fortran a b) ((box (loops.map fun l => dim l.2)).map F))) :=
    copyNest_sound (reshaped fortran a b) F G fuel h.sourceArray
    h.targetArray h.sourceName h.targetName (by simp) (by rwa [hnames])
    (by rw [hnames]; exact fun x hx => h.fresh x (hvars x hx))
    (by
      rw [hnames, zip_map']
      intro done τ hτ q hq
      obtain ⟨l, hl, rfl⟩ := mem_map.1 hq
      exact hextents done τ hτ l.2 (htokens (mem_map_of_mem hl)))
    (by
      rw [hnames]
      exact fun done τ hτ ix hix => hreads τ (hextents done τ hτ) ix hix)
    (fun ix hix => by
      obtain ⟨hF, hG, hlinear⟩ := hplaces ix hix
      exact ⟨hF, hG, reshaped_cells hG hlinear⟩)
    (fun hst ix hix => by
      have hab : a = b := by
        have hsource := h.sourceArray
        rw [hst, h.targetArray] at hsource
        exact (some.inj hsource).symm
      exact (reshaped_cells (hplaces ix hix).2.1 (by rw [hab])).trans (by rw [hab]))
  refine ⟨σ', _, hσ', harrays, rfl, fun t ht => ?_⟩
  obtain ⟨ix, hix, rfl⟩ := honto t ht
  obtain ⟨-, hG, hlinear⟩ := hplaces ix hix
  refine ⟨G ix, hG, hlinear, ?_⟩
  simp only [partway, if_pos (mem_map_of_mem (f := F) hix), reshaped_cells hG hlinear]

/-- **The general path.** -/
theorem decoded (h : Reshapes I σ token dim source target src tgt a b) (fortran : Bool) :
    LeavesReshape I σ target a b fortran (decodedCopy token target source src tgt fortran) := by
  have hlength : (reshapeIters tgt.length).length = tgt.length := by simp [reshapeIters]
  have hiters : ((reshapeIters tgt.length).zip tgt).map Prod.fst = reshapeIters tgt.length :=
    map_fst_zip (by rw [hlength])
  have htoks : ((reshapeIters tgt.length).zip tgt).map Prod.snd = tgt :=
    map_snd_zip (by rw [hlength])
  have hdims : (((reshapeIters tgt.length).zip tgt).map fun l => dim l.2) = b.shape := by
    rw [h.targetShape, ← htoks, List.map_map]
    simp only [htoks]
    rfl
  have hzip : (reshapeIters tgt.length).zip (tgt.map token) =
      ((reshapeIters tgt.length).zip tgt).map fun l => (l.1, token l.2) := by
    rw [zip_map_right]
    rfl
  have hne : "" ∉ src ∧ "" ∉ tgt := by
    have hne := h.nonblank
    rw [mem_append] at hne
    exact not_or.1 hne
  classical
  have hplace : ∀ t : List ℕ, ∃ s, t ∈ box b.shape → s ∈ box a.shape ∧
      linearIndex fortran a.shape s = linearIndex fortran b.shape t := by
    intro t
    by_cases ht : t ∈ box b.shape
    · obtain ⟨s, hs, hlinear⟩ := exists_linearIndex fortran h.elements ht
      exact ⟨s, fun _ => ⟨hs, hlinear⟩⟩
    · exact ⟨[], fun ht' => absurd ht' ht⟩
  choose G hG using hplace
  dsimp only [decodedCopy]
  rw [hzip]
  refine h.copy (F := id) (G := G) ?_ ?_ ?_ ?_ ?_ ?_
  · rw [hiters]
    refine List.Nodup.map (fun i j hij => ?_) nodup_range
    exact toString_injective (String.append_right_inj _ |>.1 hij)
  · rw [hiters]
    intro x hx
    obtain ⟨i, -, rfl⟩ := mem_map.1 hx
    exact ⟨i, .inl rfl⟩
  · rw [htoks]
    exact subset_append_right ..
  · rw [hdims, hiters]
    intro τ hextents ix hix hat
    refine ⟨?_, ?_⟩
    · rw [forall₂_map_left_iff]
      exact Forall₂.imp (fun _ _ hx => readsNat_name hx) hat
    · obtain ⟨hs, hlinear⟩ := hG ix hix
      have hflat := readsNat_flatIndexExpr h.arith h.one fortran hne.2
        (hextents.mono (subset_append_right ..))
        (by rw [length_of_mem_box hix, h.targetShape, length_map]) hat
      rw [← h.targetShape, ← hlinear, h.sourceShape] at hflat
      exact reads_decodedSourceAxes h.arith h.one hne.1
        (hextents.mono (subset_append_left ..)) (h.sourceShape ▸ hs) hflat
  · rw [hdims]
    exact fun ix hix => ⟨hix, (hG ix hix).1, (hG ix hix).2⟩
  · rw [hdims]
    exact fun t ht => ⟨t, ht, rfl⟩

/-- **The affine path.** -/
theorem grouped (h : Reshapes I σ token dim source target src tgt a b)
    {agree : String → String → Bool} (hagree : ∀ s t, agree s t = true → dim s = dim t)
    {groups : List (List ℕ × List ℕ)} (hgroups : reshapeAxisGroups agree src tgt = some groups)
    {nest : Block} (hnest : reshapeGroupedCopy token target source src tgt groups = some nest) :
    LeavesReshape I σ target a b false nest := by
  obtain ⟨-, hnest⟩ := ite_none_left_eq_some.1 hnest
  obtain ⟨c, hfold, hnest⟩ := bind_eq_some_iff.1 hnest
  obtain ⟨srcIndex, hsrcIndex, hnest⟩ := bind_eq_some_iff.1 hnest
  obtain ⟨tgtIndex, htgtIndex, rfl⟩ := map_eq_some_iff.1 hnest
  obtain ⟨hsrcAxes, htgtAxes, hsmall, singles, mids, hperm, hmids, hsingles⟩ :=
    reshapeAxisGroups_spec hgroups
  obtain ⟨es, et, hc⟩ := (grouped_nil (I := I) src tgt).foldlM h.arith h.one
    (by rw [nil_append, hsrcAxes]; exact nodup_range)
    (by rw [nil_append, htgtAxes]; exact nodup_range) hsmall hfold
  rw [nil_append] at hc
  obtain rfl : srcIndex = es := some.inj
    (hsrcIndex.symm.trans (mapM_eq_some.2 (hsrcAxes ▸ hc.srcIndex)))
  obtain rfl : tgtIndex = et := some.inj
    (htgtIndex.symm.trans (mapM_eq_some.2 (htgtAxes ▸ hc.tgtIndex)))
  have htokens := hc.tokens
  rw [hsrcAxes, htgtAxes, axisTokens_range, axisTokens_range] at htokens
  have hnodup : (c.loops.map Prod.fst).Nodup := by
    rw [hc.names]
    refine List.Nodup.map (fun i j hij => ?_) nodup_range
    exact toString_injective (String.append_right_inj _ |>.1 hij)
  have hvars : ∀ x ∈ c.loops.map Prod.fst, IsReshapeVar x := by
    rw [hc.names]
    intro x hx
    obtain ⟨i, -, rfl⟩ := mem_map.1 hx
    exact ⟨i, .inr rfl⟩
  have hsrcSize : a.shape.prod = (groups.map fun g => axesSize dim src g.1).prod := by
    rw [h.sourceShape, ← axesSize_flatMap, hsrcAxes, axesSize, axisTokens_range]
  have htgtSize : b.shape.prod = (groups.map fun g => axesSize dim tgt g.2).prod := by
    rw [h.targetShape, ← axesSize_flatMap, htgtAxes, axesSize, axisTokens_range]
  have hsame : ∀ g ∈ singles, axesSize dim src g.1 = axesSize dim tgt g.2 := by
    intro g hg
    obtain ⟨i, j, rfl, hij⟩ := hsingles g hg
    simp only [axesSize, axisTokens, map_singleton, prod_singleton, hagree _ _ hij]
  by_cases hzero : ∃ g ∈ singles, axesSize dim src g.1 = 0
  · -- An axis without elements: the nest runs over it, and there is nothing to copy.
    obtain ⟨g, hg, hsize⟩ := hzero
    obtain ⟨i, j, rfl, -⟩ := hsingles g hg
    have hmem := hperm.mem_iff.2 (mem_append_left mids hg)
    have hempty : ∀ ix, ix ∉ box (c.loops.map fun l => dim l.2) := by
      intro ix hix
      obtain ⟨l, hl, htok⟩ := mem_map.1 (hc.single i j hmem)
      have hdim : 0 ∈ c.loops.map fun l => dim l.2 := by
        refine mem_map.2 ⟨l, hl, ?_⟩
        rw [htok]
        simpa [axesSize, axisTokens] using hsize
      have hlt := flatIndex_lt (mem_box.1 hix)
      rw [prod_eq_zero hdim] at hlt
      exact Nat.not_lt_zero _ hlt
    refine h.copy (F := id) (G := id) hnodup hvars htokens
      (fun _ _ ix hix => absurd hix (hempty ix)) (fun ix hix => absurd hix (hempty ix)) ?_
    intro t ht
    have hlt := flatIndex_lt (mem_box.1 ht)
    rw [← h.elements, hsrcSize, prod_eq_zero (mem_map.2 ⟨_, hmem, hsize⟩)] at hlt
    exact absurd hlt (Nat.not_lt_zero _)
  · -- Otherwise the middles are of one size too, since all others are and the totals are.
    have hne : (singles.map fun g => axesSize dim src g.1).prod ≠ 0 := by
      intro hprod
      obtain ⟨g, hg, hsize⟩ := mem_map.1 (prod_eq_zero_iff.1 hprod)
      exact hzero ⟨g, hg, hsize⟩
    have htotal : (singles.map fun g => axesSize dim src g.1).prod *
          (mids.map fun g => axesSize dim src g.1).prod =
        (singles.map fun g => axesSize dim src g.1).prod *
          (mids.map fun g => axesSize dim tgt g.2).prod :=
      calc _ = ((singles ++ mids).map fun g => axesSize dim src g.1).prod := by
            rw [map_append, prod_append]
        _ = ((singles ++ mids).map fun g => axesSize dim tgt g.2).prod := by
            rw [← (hperm.map _).prod_eq, ← (hperm.map _).prod_eq, ← hsrcSize, ← htgtSize,
              h.elements]
        _ = _ := by rw [map_append, prod_append, ← map_congr_left hsame]
    have hmid := Nat.eq_of_mul_eq_mul_left (Nat.pos_of_ne_zero hne) htotal
    have hsizes : ∀ g ∈ groups, axesSize dim src g.1 = axesSize dim tgt g.2 := by
      intro g hg
      rcases mem_append.1 (hperm.mem_iff.1 hg) with hg | hg
      · exact hsame g hg
      · obtain ⟨m, rfl⟩ := length_eq_one_iff.1
          (Nat.le_antisymm hmids (length_pos_of_mem hg))
        obtain rfl := mem_singleton.1 hg
        simpa using hmid
    obtain ⟨G, F, hpairs⟩ := hc.pairs hsizes
    rw [hsrcAxes, htgtAxes, axisTokens_range, axisTokens_range] at hpairs
    refine h.copy (F := F) (G := G) hnodup hvars htokens ?_ ?_ ?_
    · exact fun τ hextents ix _ hat => (hpairs.reads τ hextents ix hat).symm
    · rw [h.sourceShape, h.targetShape]
      intro ix hix
      obtain ⟨hG, hF, hflat⟩ := hpairs.inside ix hix
      exact ⟨hF, hG, hflat⟩
    · rw [h.targetShape]
      exact hpairs.onto

end Reshapes

theorem dimsAgree_sound {tables : Bool} {substitute : String → String}
    {shapeExprsEqual : String → String → Bool} (hsubst : ∀ tok, dim (substitute tok) = dim tok)
    (hequal : ∀ s t, shapeExprsEqual s t = true → dim s = dim t) {s t : String}
    (h : dimsAgree tables substitute shapeExprsEqual s t = true) : dim s = dim t := by
  by_cases hst : s = t
  · rw [hst]
  have h := (if_neg hst).symm.trans h
  cases tables with
  | false => cases h
  | true =>
    rw [← hsubst s, ← hsubst t]
    by_cases heq : substitute s = substitute t
    · rw [heq]
    have h := (if_neg heq).symm.trans h
    by_cases hle : substitute s ≤ substitute t
    · exact hequal _ _ ((if_pos hle).symm.trans h)
    · exact (hequal _ _ ((if_neg hle).symm.trans h)).symm

end Sound

/-! ### A matrix reshaped into three axes -/

/-- Integers, with the quotient and the remainder of indices. -/
def reshapeInterp : Interp ℤ :=
  { intInterp with
    binary
      | .other "/", m, n => some (m / n)
      | .other "%", m, n => some (m % n)
      | op, m, n => intInterp.binary op m n }

/-- The shapes by name. -/
def reshapeTable : ShapeTable := fun x =>
  if x = "A" then some ["n", "m"] else if x = "out" then some ["n", "n", "p"] else none

/-- `A` is 2 by 6, `out` 2 by 2 by 3. -/
def reshapeState : State ℤ where
  scalars x :=
    if x = "m" then some 6 else if x = "n" then some 2 else if x = "p" then some 3 else none
  arrays x := if x = "A" then some ⟨[2, 6], fun ix => flatIndex [2, 6] ix⟩
    else if x = "out" then some ⟨[2, 2, 3], fun _ => 0⟩ else none

def reshapeDim (tok : String) : ℕ :=
  if tok = "1" then 1 else if tok = "m" then 6 else if tok = "n" then 2 else 3

theorem reshapes_reshapeState :
    Reshapes reshapeInterp reshapeState tokenExpr reshapeDim "A" "out" ["n", "m"] ["n", "n", "p"]
      ⟨[2, 6], fun ix => flatIndex [2, 6] ix⟩ ⟨[2, 2, 3], fun _ => 0⟩ where
  arith := ⟨fun _ => rfl, fun _ _ => rfl, fun _ _ => rfl, fun _ _ _ => rfl, fun _ _ _ => rfl⟩
  one := by decide
  sourceArray := rfl
  targetArray := rfl
  sourceName := by decide
  targetName := by decide
  sourceShape := by decide
  targetShape := by decide
  elements := by decide
  nonblank := by decide
  extents tok htok := by
    obtain rfl | rfl | rfl : tok = "n" ∨ tok = "m" ∨ tok = "p" := by simp at htok; tauto
    all_goals exact readsNat_name (by decide)
  apart tok htok x hx := by
    obtain rfl | rfl | rfl : tok = "n" ∨ tok = "m" ∨ tok = "p" := by simp at htok; tauto
    all_goals
      obtain rfl := mem_singleton.1 hx
      refine ⟨rfl, ?_⟩
      rintro ⟨i, hi | hi⟩ <;> simpa using congrArg (fun s => s.toList.head?) hi
  fresh x hx := by
    have hA : x ≠ "A" := by
      rintro rfl
      obtain ⟨i, hi | hi⟩ := hx <;> simpa using congrArg (fun s => s.toList.head?) hi
    have hout : x ≠ "out" := by
      rintro rfl
      obtain ⟨i, hi | hi⟩ := hx <;> simpa using congrArg (fun s => s.toList.head?) hi
    exact (if_neg hA).trans (if_neg hout)

end Translate

end HpcAgentBench
