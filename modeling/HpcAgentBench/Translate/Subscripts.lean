import HpcAgentBench.Translate.Syntax
import Mathlib.Data.List.Dedup

/-!
# Chained subscripts

The rewriting of a chain of subscripts `A[inner][outer]` into one subscript, and the cases in which
it stays a chain with part of the outer subscript moved into the inner one.

An Ellipsis is the name `...`.  The texts of the extents of an expression are a parameter.

## Main results

* `ChainedSubscriptFlattener.rewriteChain` : **the rewriting of one link of a chain.**
* `ChainedSubscriptFlattener.visit` : the rewriting of every chain of an expression.
-/

namespace HpcAgentBench

namespace Translate

/-! ### Entries of subscripts -/

namespace Expr

/-- `...` -/
def ellipsis : Expr := .name "..."

/-- `np.newaxis`, which parses as `None`. -/
def newaxis : Expr := .const .none

/-- The bare `:`. -/
def bare : Expr := .slice (.const .none) (.const .none) (.const .none)

/-- Whether an expression is a slice. -/
def isSlice : Expr → Bool
  | slice .. => true
  | _ => false

/-- An integer literal, signed or not. -/
def constInt : Expr → Option ℤ
  | const (.int n) => some n
  | unaryOp op operand =>
    if op = "-" then operand.constInt.map (-·) else if op = "+" then operand.constInt else none
  | _ => none

/-- An entry that takes one axis at one position. -/
def isScalarAxis : Expr → Bool
  | const value => value ≠ .none
  | name id => id ≠ "..."
  | binOp _ left right => left.isScalarAxis && right.isScalarAxis
  | unaryOp _ operand => operand.isScalarAxis
  | _ => false

/-- Whether an expression is spelled as a comparison. -/
def isCompare : Expr → Bool
  | binOp (.other symbol) _ _ =>
    symbol ∈ ["==", "!=", "<", "<=", ">", ">=", "is", "is not", "in", "not in"]
  | _ => false

/-- Whether an expression is an `and` or an `or`. -/
def isBoolOp : Expr → Bool
  | boolOp .. => true
  | _ => false

/-- The `slice` field of a subscript with these entries. -/
def indexSlot : List Expr → Expr
  | [e] => e
  | es => es.foldr .pair .unit

end Expr

/-! ### Slices of slices -/

/-- Whether the step of a slice is a negative literal. -/
def stepIsNegative (step : Expr) : Bool := step.constInt.any (· < 0)

/-- Whether one of the slices runs backward by a literal step. -/
def hasNegativeStep (elts : List Expr) : Bool :=
  elts.any fun
    | .slice _ _ step => stepIsNegative step
    | _ => false

/-- Whether the bounds of the slice `use` may be counted from where the slice `view` starts. -/
def rebasesOntoViewAxis : Expr → Expr → Bool
  | .slice vlower vupper vstep, .slice lower upper step =>
    !hasNegativeStep [.slice vlower vupper vstep, .slice lower upper step] &&
      !(([lower, upper, step] : List Expr).any fun bound => bound.constInt.any (· < 0)) &&
      (vupper = .const .none || upper = .const .none)
  | _, _ => false

/-- `step * factor`, or `factor` when the step is 1. -/
def viewScale (step factor : Expr) : Expr :=
  if step = .const .none ∨ step = .const (.int 1) then factor else .binOp .mult step factor

/-- `start + step * index`, without a start that is 0. -/
def viewOffset (start step index : Expr) : Expr :=
  if start = .const .none ∨ start = .const (.int 0) then viewScale step index
  else .binOp .add start (viewScale step index)

/-- A slice of the axis a slice keeps, as a slice of the axis under it. -/
def composeKeptAxis : Expr → Expr → Expr
  | .slice vstart vstop vstep, .slice ustart ustop ustep =>
    .slice (if ustart = .const .none then vstart else viewOffset vstart vstep ustart)
      (if ustop = .const .none then vstop else viewOffset vstart vstep ustop)
      (if ustep = .const .none then vstep else viewScale vstep ustep)
  | .slice vstart _ vstep, use => viewOffset vstart vstep use
  | _, use => use

/-- Whether an index is written as one that counts from the end. -/
def fromEnd : Expr → Bool
  | .unaryOp op _ => op = "-"
  | .const (.int n) => n < 0
  | _ => false

/-- The entry for the axis the slice `view` keeps once `use` indexes what it keeps; none where a
single entry cannot say it, or where `view` is no slice. -/
def composeOntoView (view use : Expr) (useIsArray : Bool) : Option Expr :=
  match view with
  | .slice lower _ step =>
    if view = .bare then some use
    else if use = .bare then some view
    else if use.isSlice then
      if rebasesOntoViewAxis view use then some (composeKeptAxis view use) else none
    else if step ≠ .const .none ∨ fromEnd use = true ∨ ¬ (useIsArray ∨ use.isScalarAxis) then none
    else if lower = .const .none then some use
    else some (.binOp .add lower use)
  | _ => none

/-! ### Result axes -/

/-- Where an axis of a result comes from. -/
inductive AxisLabel
  /-- The slice at a position of the inner subscript. -/
  | axis (pos : ℕ)
  /-- An axis of the base after the inner entries. -/
  | trail (t : ℕ)
  /-- Every axis after those. -/
  | rest
  /-- An axis of the inner index arrays broadcast together. -/
  | adv (k : ℕ)
  /-- An axis of the outer index arrays broadcast together. -/
  | outer (k : ℕ)
  /-- The newaxis at a position of the outer subscript. -/
  | new (pos : ℕ)
  deriving DecidableEq

namespace AxisLabel

/-- Whether a label stands for the axes nothing is known about. -/
def isRest : AxisLabel → Bool
  | rest => true
  | _ => false

/-- Whether a label is an axis of the base after the inner entries. -/
def isTrail : AxisLabel → Bool
  | trail _ => true
  | _ => false

/-- The number of a label. -/
def index : AxisLabel → ℕ
  | axis pos => pos
  | trail t => t
  | rest => 0
  | adv k => k
  | outer k => k
  | new pos => pos

end AxisLabel

/-- How an entry of a subscript takes part in the layout of the result. -/
inductive IndexEntry
  | slice (label : AxisLabel)
  | newaxis (label : AxisLabel)
  | scalar
  | array (axes : List AxisLabel)
  deriving DecidableEq

namespace IndexEntry

/-- The axis an entry keeps in its place. -/
def kept : IndexEntry → Option AxisLabel
  | slice label => some label
  | newaxis label => some label
  | _ => none

/-- The axes of an index array. -/
def axes : IndexEntry → Option (List AxisLabel)
  | array axes => some axes
  | _ => none

/-- Whether an entry is an advanced one. -/
def advanced : IndexEntry → Bool
  | scalar => true
  | array _ => true
  | _ => false

end IndexEntry

/-- The label that is the `offset`-th from the end of each list that is that long. -/
def alignedLabel (arrays : List (List AxisLabel)) (offset : ℕ) : Option AxisLabel :=
  match ((arrays.filter (offset ≤ ·.length)).filterMap fun axes =>
      axes[axes.length - offset]?).dedup with
  | [label] => some label
  | _ => none

/-- The order of the result axes of a subscript, none where its index arrays do not line up. -/
def resultAxes (entries : List IndexEntry) : Option (List AxisLabel) :=
  let kept := entries.filterMap IndexEntry.kept
  let arrays := entries.filterMap IndexEntry.axes
  if arrays = [] then some kept
  else
    let offsets := (List.range ((arrays.map List.length).foldr max 0)).reverse.map (· + 1)
    (offsets.mapM (alignedLabel arrays)).map fun broadcast =>
      let first := entries.findIdx IndexEntry.advanced
      let run := ((entries.drop first).reverse.dropWhile fun e => !e.advanced)
      if run.all IndexEntry.advanced then
        let before := ((entries.take first).filterMap IndexEntry.kept).length
        kept.take before ++ broadcast ++ kept.drop before
      else broadcast ++ kept

/-- The layout of one entry. -/
def entryModel (elt : Expr) (rank : ℕ) (label : AxisLabel) (broadcastRank : ℕ)
    (family : ℕ → AxisLabel) : IndexEntry :=
  if elt = .newaxis then .newaxis label
  else if elt.isSlice then .slice label
  else if rank = 0 then .scalar
  else .array ((List.range rank).map fun axis => family (broadcastRank - rank + axis))

/-! ### A chain being folded -/

/-- A chain `inner[outer]` being folded into one subscript, and into two with the bounded slices of
the outer one moved. -/
structure ChainFold where
  innerElts : List Expr
  /-- The entries of the one subscript, as far as they stand for inner ones. -/
  slots : List Expr
  slotModels : List IndexEntry
  slotNewaxes : List (List ℕ)
  foldedInner : List Expr
  foldedOuter : List Expr
  /-- The entries past the inner ones. -/
  tail : List (Expr × IndexEntry) := []
  /-- The outer entries on the axes of the inner index arrays. -/
  advUses : List (ℕ × Expr × IndexEntry) := []
  advNewaxes : List (ℕ × ℕ) := []
  foldedTail : List Expr := []
  folded : Bool := false
  flatOk : Bool := true

namespace ChainFold

/-- The outer entry at position `i` lands on the result axis `label` of the inner subscript. -/
def place (fold : ChainFold) (i : ℕ) (elt : Expr) (rank : ℕ) (label : AxisLabel)
    (model : IndexEntry) : ChainFold :=
  let bounded := elt.isSlice && elt ≠ .bare
  match label with
  | .adv k => { fold with advUses := fold.advUses ++ [(k, elt, model)] }
  | .axis pos =>
    match composeOntoView (fold.innerElts.getD pos .newaxis) elt (0 < rank) with
    | none => { fold with flatOk := false }
    | some composed =>
      { fold with
        slots := fold.slots.set pos composed
        slotModels := fold.slotModels.set pos model
        foldedInner := if bounded then fold.foldedInner.set pos composed else fold.foldedInner
        foldedOuter := if bounded then fold.foldedOuter.set i .bare else fold.foldedOuter
        folded := fold.folded || bounded }
  | label =>
    { fold with
      tail := fold.tail ++ [(elt, model)]
      foldedTail :=
        if bounded then
          fold.foldedTail ++ List.replicate (label.index - fold.foldedTail.length) .bare ++ [elt]
        else fold.foldedTail
      foldedOuter := if bounded then fold.foldedOuter.set i .bare else fold.foldedOuter
      folded := fold.folded || bounded }

/-- The outer newaxes just before the result axis `label`. -/
def attachNewaxes (fold : ChainFold) (pending : List ℕ) (label : AxisLabel) : ChainFold :=
  match label with
  | .axis pos => { fold with slotNewaxes := fold.slotNewaxes.modify pos (· ++ pending) }
  | .adv k => { fold with advNewaxes := fold.advNewaxes ++ pending.map (k, ·) }
  | _ => { fold with tail := fold.tail ++ pending.map fun i => (.newaxis, .newaxis (.new i)) }

/-- The entries of the one subscript; none where its result axes are not the expected ones. -/
def flatEntries (fold : ChainFold) (unusedTrails expected : List AxisLabel) :
    Option (List Expr) :=
  let slots := fold.slotNewaxes.zip (fold.slots.zip fold.slotModels)
  let entries := slots.flatMap fun (newaxes, slot, _) => newaxes.map (fun _ => .newaxis) ++ [slot]
  let layout := slots.flatMap fun (newaxes, _, model) =>
    newaxes.map (fun i => .newaxis (.new i)) ++ [model]
  if resultAxes (layout ++ fold.tail.map Prod.snd ++ unusedTrails.map .slice) = some expected then
    some (entries ++ fold.tail.map Prod.fst)
  else none

end ChainFold

/-- The walk over the entries of the outer subscript. -/
structure ChainWalk where
  fold : ChainFold
  outerModel : List IndexEntry := []
  /-- The newaxes since the last entry that takes an axis. -/
  pending : List ℕ := []
  consumed : ℕ := 0

/-- One entry of the outer subscript, its rank and its position. -/
def ChainWalk.step (innerAxes : List AxisLabel) (outerRank : ℕ) (w : ChainWalk)
    (entry : (Expr × ℕ) × ℕ) : ChainWalk :=
  let ((elt, rank), i) := entry
  if elt = .newaxis then
    { w with outerModel := w.outerModel ++ [.newaxis (.new i)], pending := w.pending ++ [i] }
  else
    let label := innerAxes.getD w.consumed .rest
    let model := entryModel elt rank label outerRank .outer
    { fold := (w.fold.attachNewaxes w.pending label).place i elt rank label model
      outerModel := w.outerModel ++ [model]
      pending := []
      consumed := w.consumed + 1 }

/-! ### The rewriting -/

/-- What the rewriting knows of the names of a kernel. -/
structure ChainedSubscriptFlattener where
  /-- The extents of each array; empty for other names. -/
  shapeTable : String → List String
  boolNames : List String
  explicitTrailingAxes : Bool
  /-- The texts of the extents of an expression. -/
  iterExtentOf : Expr → Option (List String)

namespace ChainedSubscriptFlattener

variable (F : ChainedSubscriptFlattener)

/-- Whether an entry reads an array with extents. -/
def readsSized (elt : Expr) : Bool :=
  elt.walkNodes.any fun
    | .name id => F.shapeTable id ≠ []
    | _ => false

/-- The rank of what an entry selects with, given whether it is an array with an index of rank 0 for
each axis. -/
def rankOf (elt : Expr) (everyAxisPicked : Bool) : Option ℕ :=
  if F.readsSized elt then
    match F.iterExtentOf elt with
    | some (d :: ds) => some (d :: ds).length
    | _ => if everyAxisPicked then some 0 else none
  else some 0

/-- The ranks of the elements of a tuple; of anything else, of itself. -/
def indexRanks : Expr → List (Option ℕ)
  | .unit => []
  | .pair head tail => (indexRanks head).take 1 ++ indexRanks tail
  | .subscript (.name id) index =>
    [F.rankOf (.subscript (.name id) index)
      (index.elts.length = (F.shapeTable id).length &&
        index.elts.all (fun d => !d.isSlice && d ≠ .newaxis && d ≠ .ellipsis) &&
        (indexRanks index).all (· = some 0))]
  | e => [F.rankOf e false]

/-- The rank of what an entry selects with: 0 for one position, none where it is not known. -/
def indexRank (elt : Expr) : Option ℕ := (F.indexRanks elt).headD none

/-- Whether an entry may be a mask. -/
def readsAMask (elt : Expr) : Bool :=
  elt.walkNodes.any fun
    | .name id => id ∈ F.boolNames
    | e => e.isCompare || e.isBoolOp

/-- The ranks of the entries; none where one of them has none or may be a mask. -/
def entryRanks (elts : List Expr) : Option (List ℕ) :=
  elts.mapM fun elt =>
    if elt.isSlice then some 0 else if F.readsAMask elt then none else F.indexRank elt

/-- The entries of an inner subscript with its Ellipsis written out, and the axes past them where
these are asked for; none where it is not known which axes they take. -/
def innerEntries (index : Expr) (rank : Option ℕ) : Option (List Expr) :=
  let elts := index.elts
  let expanded : Option (List Expr) :=
    match elts.countP (· = .ellipsis), rank with
    | 0, _ => some elts
    | 1, some r =>
      if r + 1 < elts.length then none
      else some (elts.flatMap fun e =>
        if e = .ellipsis then List.replicate (r + 1 - elts.length) .bare else [e])
    | _, _ => none
  expanded.bind fun elts =>
    if .newaxis ∈ elts ∨ rank.any (· < elts.length) = true then none
    else if F.explicitTrailingAxes then
      some (elts ++ List.replicate (rank.getD 0 - elts.length) .bare)
    else some elts

/-- Whether index arrays have every axis they are broadcast along at one extent. -/
def sameBroadcastExtents (arrays : List Expr) : Bool :=
  match arrays.mapM F.iterExtentOf with
  | none => false
  | some extents =>
    (List.range ((extents.map List.length).foldr max 0)).all fun offset =>
      ((extents.filter (offset < ·.length)).filterMap fun extent =>
        extent[extent.length - (offset + 1)]?).dedup.length ≤ 1

/-- An index array indexed by the outer entries on its axes, and its layout; `visit` rewrites what
comes of an array that is itself a subscript. -/
def indexIntoArray (visit : Expr → Expr) (array : Expr) (arrayRank broadcastRank : ℕ)
    (uses : List (ℕ × Expr × IndexEntry)) (newaxes : List (ℕ × ℕ)) : Option (Expr × IndexEntry) :=
  let axes := (List.range arrayRank).flatMap fun axis =>
    let k := broadcastRank - arrayRank + axis
    (newaxes.filter (·.1 = k)).map (fun p => (.newaxis, .newaxis (.new p.2))) ++
      [match uses.find? (·.1 = k) with
        | none => (.bare, .slice (.adv k))
        | some (_, use, model) => (use, model)]
  (resultAxes (axes.map Prod.snd)).map fun labels =>
    let entries := (axes.map Prod.fst).reverse.dropWhile (· = .bare)
    let layout := if labels = [] then .scalar else .array labels
    let indexed := .subscript array (.indexSlot entries.reverse)
    if entries = [] then (array, layout)
    else (match array with
      | .subscript .. => visit indexed
      | _ => indexed, layout)

/-- The inner index arrays, each indexed by the outer entries on its axes. -/
def indexInnerArrays (visit : Expr → Expr) (fold : ChainFold) (innerRanks : List ℕ)
    (advRank : ℕ) : ChainFold :=
  let arrays := innerRanks.zipIdx.filterMap fun (rank, pos) => if 0 < rank then some pos else none
  let indexes := fold.advUses.any fun use => use.2.1 ≠ .bare
  let flatOk := fold.flatOk && !(1 < arrays.length && indexes &&
    !F.sameBroadcastExtents (arrays.map (fold.innerElts.getD · .newaxis)))
  arrays.foldl (fun fold pos =>
    if fold.flatOk then
      match indexIntoArray visit (fold.innerElts.getD pos .newaxis) (innerRanks.getD pos 0)
          advRank fold.advUses fold.advNewaxes with
      | none => { fold with flatOk := false }
      | some (indexed, layout) =>
        { fold with slots := fold.slots.set pos indexed
                    slotModels := fold.slotModels.set pos layout }
    else fold) { fold with flatOk := flatOk }

/-- The rank of the array under a chain, where it is known. -/
def baseRank : Expr → Option ℕ
  | .name id => if F.shapeTable id = [] then none else some (F.shapeTable id).length
  | _ => none

/-- How many axes outer entries take. -/
def consuming (outerElts : List Expr) : ℕ := outerElts.countP (· ≠ .newaxis)

/-- The labels of the axes past the inner entries. -/
def tailLabels (innerElts outerElts : List Expr) (rank : Option ℕ) : List AxisLabel :=
  match rank with
  | some r => (List.range (r - innerElts.length)).map .trail
  | none => (List.range (consuming outerElts)).map .trail ++ [.rest]

/-- The chain `base[inner][outer]` with its outer entries walked: the fold, the result axes that are
expected and those past the inner entries that are not used. -/
def foldChain (innerElts outerElts : List Expr) (innerRanks outerRanks : List ℕ)
    (rank : Option ℕ) : Option (ChainFold × Option (List AxisLabel) × List AxisLabel) :=
  let advRank := innerRanks.foldr max 0
  let innerModel := (innerElts.zip innerRanks).zipIdx.map fun ((elt, rank), pos) =>
    entryModel elt rank (.axis pos) advRank .adv
  let tail := tailLabels innerElts outerElts rank
  (resultAxes (innerModel ++ tail.map .slice)).bind fun innerAxes =>
    if innerAxes.countP (!·.isRest) < consuming outerElts then none
    else
      let fold : ChainFold :=
        { innerElts := innerElts, slots := innerElts, slotModels := innerModel
          slotNewaxes := innerElts.map fun _ => [], foldedInner := innerElts
          foldedOuter := outerElts }
      let outerRank := outerRanks.foldr max 0
      let w := ((outerElts.zip outerRanks).zipIdx).foldl (ChainWalk.step innerAxes outerRank)
        { fold := fold }
      let fold := w.fold.attachNewaxes w.pending (innerAxes.getD w.consumed .rest)
      let expected := resultAxes (w.outerModel ++ (innerAxes.drop w.consumed).map .slice)
      let used := (innerAxes.take w.consumed).countP AxisLabel.isTrail
      some (fold, expected, tail.drop used)

/-- One subscript for `base[inner][outer]`, or two with outer slices moved inward; none where the
chain is kept. -/
def rewriteChain (visit : Expr → Expr) (base inner outer : Expr) : Option Expr :=
  let rank := F.baseRank base
  (F.innerEntries inner rank).bind fun innerElts =>
    let outerElts := outer.elts
    (F.entryRanks innerElts).bind fun innerRanks => (F.entryRanks outerElts).bind fun outerRanks =>
      if .ellipsis ∈ outerElts then
        if innerRanks.any (0 < ·) || outerRanks.any (0 < ·) || innerElts.any Expr.isSlice then none
        else some (.subscript base (.indexSlot (innerElts ++ outerElts)))
      else
        (foldChain innerElts outerElts innerRanks outerRanks rank).bind
          fun (fold, expected, unusedTrails) =>
            let fold := F.indexInnerArrays visit fold innerRanks (innerRanks.foldr max 0)
            let entries := if fold.flatOk then
              expected.bind fun expected => fold.flatEntries unusedTrails expected else none
            match entries with
            | some entries => some (.subscript base (.indexSlot entries))
            | none =>
              if fold.folded then
                some (.subscript
                  (.subscript base (.indexSlot (fold.foldedInner ++ fold.foldedTail)))
                  (.indexSlot fold.foldedOuter))
              else none

/-- Every chain of an expression rewritten, from the inside out. -/
def visitWith (visit : Expr → Expr) : Expr → Expr
  | .const value => .const value
  | .name id => .name id
  | .attr value a => .attr (visitWith visit value) a
  | .unaryOp op operand => .unaryOp op (visitWith visit operand)
  | .binOp op left right => .binOp op (visitWith visit left) (visitWith visit right)
  | .boolOp conj left right => .boolOp conj (visitWith visit left) (visitWith visit right)
  | .ifExp test body orelse =>
    .ifExp (visitWith visit test) (visitWith visit body) (visitWith visit orelse)
  | .call func args => .call (visitWith visit func) (visitWith visit args)
  | .subscript value index =>
    match visitWith visit value with
    | .subscript base inner =>
      (F.rewriteChain visit base inner (visitWith visit index)).getD
        (.subscript (.subscript base inner) (visitWith visit index))
    | value => .subscript value (visitWith visit index)
  | .slice lower upper step =>
    .slice (visitWith visit lower) (visitWith visit upper) (visitWith visit step)
  | .unit => .unit
  | .pair head tail => .pair (visitWith visit head) (visitWith visit tail)

/-- The rewriting, with index arrays that are indexed rewritten again at most `fuel` deep. -/
def visit : ℕ → Expr → Expr
  | 0 => F.visitWith id
  | fuel + 1 => F.visitWith (visit fuel)

end ChainedSubscriptFlattener

end Translate

end HpcAgentBench
