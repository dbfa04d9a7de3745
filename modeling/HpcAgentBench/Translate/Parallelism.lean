import HpcAgentBench.Translate.Semantics
import Mathlib.Algebra.GroupWithZero.Nat

/-!
# The parallel-loop analysis

Which loops of a kernel body the emitters run in parallel: loops whose iterations are independent
(`loopIsParallelSafe`) and loops that combine one scalar (`loopReduction`), with the scalars the
parallel region makes private (`ompPrivateScalars`).
-/

namespace HpcAgentBench

open List

namespace Translate

/-! ### Names -/

/-- The per-axis index expressions of a subscript. -/
def indexExprs (slice : Expr) : List Expr := slice.elts

/-- Whether a name is read anywhere in an expression. -/
def readsName (e : Expr) (name : String) : Bool := e.walkNodes.any (· = .name name)

/-- Names read in an expression. -/
def loadNames (e : Expr) : List String := e.walkNodes.filterMap Expr.id?

theorem loadNames_subscript (value slice : Expr) :
    loadNames (.subscript value slice) = loadNames value ++ loadNames slice :=
  filterMap_append

theorem loadNames_call (func args : Expr) :
    loadNames (.call func args) = loadNames func ++ loadNames args :=
  filterMap_append

theorem loadNames_elts {e e' : Expr} (h : e' ∈ e.elts) : loadNames e' ⊆ loadNames e := by
  refine filterMap_subset _ ?_
  induction e with
  | pair head tail _ ih =>
    rcases mem_cons.1 h with rfl | h
    · exact subset_cons_of_subset _ (subset_append_left _ _)
    · exact subset_cons_of_subset _ (List.Subset.trans (ih h) (subset_append_right _ _))
  | unit => cases h
  | _ =>
    obtain rfl := mem_singleton.1 h
    exact List.Subset.refl _

namespace Block

/-- The subscripts of a block, those stored to included. -/
def subscripts (body : Block) : List (Expr × Expr) :=
  body.walkNodes.filterMap fun
    | .load (.subscript value slice) => some (value, slice)
    | .store (.subscript value slice) => some (value, slice)
    | _ => none

/-- The arrays an assignment stores elements of. -/
def elementTargets (targets : List Target) : List String :=
  targets.filterMap fun
    | .subscript (.name id) _ => some id
    | _ => none

/-- Names of arrays written, by a subscript store, anywhere in a block. -/
def writtenArrays (body : Block) : List String :=
  body.walkNodes.flatMap fun
    | .assign targets _ => elementTargets targets
    | .augAssign target _ _ => elementTargets [target]
    | _ => []

/-- Names read anywhere in a block. -/
def loadNames (body : Block) : List String :=
  body.walkNodes.filterMap fun
    | .load (.name id) => some id
    | _ => none

/-- Names bound anywhere in a block, by an assignment or as a loop's variable. -/
def bareStoreNames (body : Block) : List String :=
  body.walkNodes.filterMap fun
    | .store (.name id) => some id
    | _ => none

/-- The variables of the loops in a block. -/
def iterators (body : Block) : List String :=
  body.walkNodes.filterMap fun
    | .iterator id => some id
    | _ => none

end Block

/-- The variable of a loop. -/
def loopIndex (loop : Loop) : String := loop.target

/-! ### Subscripts of written arrays -/

/-- A subscript whose iteration's slice is its own: the index is one of the axes, and part of no
other. -/
def subscriptIdxSafe (slice : Expr) (idx : String) : Bool :=
  ((indexExprs slice).all fun e => e = .name idx || !readsName e idx) &&
    (indexExprs slice).any (· = .name idx)

/-- The axes where the index stands alone. -/
def bareAxes (slice : Expr) (idx : String) : List ℕ :=
  (indexExprs slice).zipIdx.filterMap fun p => if p.1 = .name idx then some p.2 else none

/-- The subscripts of the written arrays. -/
def writtenSubscripts (body : Block) (written : List String) : List (String × Expr) :=
  body.subscripts.filterMap fun
    | (.name id, slice) => if id ∈ written then some (id, slice) else none
    | _ => none

/-- Every written array is indexed by `idx` on one axis. -/
def writtenPartitionConsistent (body : Block) (idx : String) (written : List String) : Bool :=
  written.all fun array =>
    (((writtenSubscripts body written).filter (·.1 = array)).flatMap
      (fun p => bareAxes p.2 idx)).dedup.length ≤ 1

/-! ### Scalars -/

/-- Whether some scalar is read before it is written. -/
def readsBeforeWrite (scalars : List String) : Block → List String → Bool
  | .done, _ => false
  | .assign targets value rest, bound =>
    ((targets.flatMap Target.reads ++ [value]).flatMap loadNames).any
        (fun name => name ∈ scalars && name ∉ bound) ||
      readsBeforeWrite scalars rest (bound ++ targets.filterMap Target.id?)
  | .augAssign target _ value rest, bound =>
    ((target.reads ++ [value]).flatMap loadNames).any
        (fun name => name ∈ scalars && name ∉ bound) ||
      readsBeforeWrite scalars rest (bound ++ target.id?.toList)
  | .expr value rest, bound =>
    (loadNames value).any (fun name => name ∈ scalars && name ∉ bound) ||
      readsBeforeWrite scalars rest bound
  | .ifElse test body orelse rest, bound =>
    (loadNames test).any (fun name => name ∈ scalars && name ∉ bound) ||
      readsBeforeWrite scalars body bound || readsBeforeWrite scalars orelse bound ||
      readsBeforeWrite scalars rest bound
  | .forRange target args body rest, bound =>
    (loadNames (.call (.name "range") args)).any (fun name => name ∈ scalars && name ∉ bound) ||
      readsBeforeWrite scalars body (bound ++ [target]) || readsBeforeWrite scalars rest bound
  | .whileDo test body rest, bound =>
    (loadNames test).any (fun name => name ∈ scalars && name ∉ bound) ||
      readsBeforeWrite scalars body bound || readsBeforeWrite scalars rest bound
  | .brk rest, bound => readsBeforeWrite scalars rest bound

/-- Whether the body reads a scalar before it writes it: a scalar carried between iterations. -/
def hasCarriedScalar (loop : Loop) : Bool :=
  readsBeforeWrite loop.body.bareStoreNames loop.body [loopIndex loop]

/-- The names a body binds, its loop variables aside. -/
def bodyScalars (loop : Loop) : List String :=
  loop.body.bareStoreNames.filter fun name => name ∉ loop.target :: loop.body.iterators

/-- Whether the body binds a scalar it never reads. -/
def assignsALiveOutScalar (loop : Loop) : Bool :=
  (bodyScalars loop).any fun name => name ∉ loop.body.loadNames

/-- The scalars the parallel region makes private, in sorted order. -/
def ompPrivateScalars (loop : Loop) (arrays : List String) (acc : Option String) : List String :=
  ((bodyScalars loop).filter fun name => name ∉ arrays && some name ≠ acc).dedup.mergeSort

/-! ### What runs after a loop -/

/-- The statement a list of statements belongs to. -/
inductive Owner
  /-- One branch of an `if`; the other branch. -/
  | branch (test : Expr) (first : Bool) (other : Block)
  | forRange (target : String) (args : Expr)
  | whileDo (test : Expr)

/-- A list of statements on the way to a loop: what stands before it and after it. -/
structure Frame where
  owner : Owner
  before : Block
  rest : Block

/-- Where a loop stands in a function: the lists around it, innermost first, and the function's own
statements before and after it. -/
structure Site where
  frames : List Frame
  before : Block
  rest : Block

/-- A statement: its list, given the statements after it. -/
abbrev Stmt := Block → Block

/-- The statement with a list as its body. -/
def Owner.stmt : Owner → Block → Stmt
  | .branch test true other, body => .ifElse test body other
  | .branch test false other, body => .ifElse test other body
  | .forRange target args, body => .forRange target args body
  | .whileDo test, body => .whileDo test body

/-- The loop as a statement. -/
def Loop.stmt (loop : Loop) : Stmt := .forRange loop.target loop.args loop.body

/-- The whole list a statement stands in. -/
def Frame.block (frame : Frame) (child : Stmt) : Block := frame.before.append (child frame.rest)

/-- What can run after a statement: the rest of every list around it, and every loop around it
again. -/
def stmtsAfter (top : Block) : List Frame → Stmt → Block
  | [], _ => top
  | frame :: frames, child =>
    frame.rest.append <|
      match frame.owner with
      | .branch .. => stmtsAfter top frames (frame.owner.stmt (frame.block child))
      | .forRange .. =>
        (frame.block child).append (stmtsAfter top frames (frame.owner.stmt (frame.block child)))
      | .whileDo test => .expr test
        ((frame.block child).append (stmtsAfter top frames (frame.owner.stmt (frame.block child))))

/-- The names a loop's body binds that something after the loop reads before rebinding. -/
def scalarsLiveAfter (site : Site) (loop : Loop) : List String :=
  (bodyScalars loop).filter fun name =>
    readsBeforeWrite [name] (stmtsAfter site.rest site.frames loop.stmt) []

/-! ### The decision -/

/-- Whether a statement of the body updates a scalar from itself. -/
def updatesScalar (body : Block) : Bool :=
  body.walkNodes.any fun
    | .assign targets value => targets.any fun t => t.id?.any (readsName value)
    | .augAssign target _ _ => target.id?.isSome
    | _ => false

/-- Whether the iterations of a loop may run in any order; `site` is where the loop stands, when
that is known. -/
def loopIsParallelSafe (loop : Loop) (site : Option Site) : Bool :=
  let idx := loopIndex loop
  let written := loop.body.writtenArrays
  !updatesScalar loop.body && !hasCarriedScalar loop && !assignsALiveOutScalar loop &&
    site.all (fun site => (scalarsLiveAfter site loop).isEmpty) &&
    ((writtenSubscripts loop.body written).all fun p => subscriptIdxSafe p.2 idx) &&
    writtenPartitionConsistent loop.body idx written

/-! ### Reductions -/

/-- Names of a maximum or a minimum of several values. -/
def maxNames : List String := ["max", "maximum", "amax", "fmax"]

def minNames : List String := ["min", "minimum", "amin", "fmin"]

/-- The operator a reduction combines with. -/
inductive ReductionOp
  | add | mult | max | min
  deriving DecidableEq, Repr

/-- The reduction of an augmented assignment. -/
def augReductionOp : Operator → Option ReductionOp
  | .add => some .add
  | .mult => some .mult
  | _ => none

/-- A bare read of the accumulator. -/
def readsAcc (e : Expr) (acc : String) : Bool := e = .name acc

/-- How a value combines the accumulator with one other term, if it does. -/
def reductionOp (value : Expr) (acc : String) : Option ReductionOp :=
  match value with
  | .binOp op left right =>
    (augReductionOp op).bind fun op =>
      if readsAcc left acc = readsAcc right acc then none
      else if readsName (if readsAcc left acc then right else left) acc then none
      else some op
  | .call func args =>
    (callLeaf func).bind fun leaf =>
      if leaf ∈ maxNames ∨ leaf ∈ minNames then
        let bare := args.elts.filter (readsAcc · acc)
        let rest := args.elts.filter fun a => !readsAcc a acc
        if bare.length = 1 && !rest.any (readsName · acc) then
          some (if leaf ∈ maxNames then .max else .min)
        else none
      else none
  | _ => none

/-- Scalars with the operator they are combined with. -/
abbrev Accs := List (String × ReductionOp)

/-- One more combine; none when the scalar is combined by another operator. -/
def Accs.note (accs : Accs) (name : String) (op : ReductionOp) : Option Accs :=
  if (accs.lookup name).getD op = op then some ((name, op) :: accs) else none

/-- The combines of one statement. -/
def nodeAccs (accs : Accs) : Block.Node → Option Accs
  | .augAssign (.name id) op _ => (augReductionOp op).bind (accs.note id)
  | .assign targets value =>
    targets.foldlM (fun accs t =>
      match t with
      | .name id =>
        match reductionOp value id with
        | some op => accs.note id op
        | none => if readsName value id then none else some accs
      | .subscript .. => some accs) accs
  | _ => some accs

/-- The scalars a body combines; none when a scalar is updated from itself in another way. -/
def scalarAccumulators (body : Block) : Option Accs := body.walkNodes.foldlM nodeAccs []

/-- Whether a statement rebinds the accumulator without reading it. -/
def accumulatorReset (body : Block) (acc : String) : Bool :=
  body.walkNodes.any fun
    | .assign targets value => targets.any (·.id? = some acc) && !readsName value acc
    | _ => false

/-- The reads of a name in an expression. -/
def countReads (e : Expr) (name : String) : ℕ := e.walkNodes.count (.name name)

/-- The reads of a name in a block, and those of them in the values that combine it. -/
def accReads (body : Block) (acc : String) : ℕ × ℕ :=
  (body.walkNodes.countP fun
      | .load e => e = .name acc
      | _ => false,
    (body.walkNodes.map fun
      | .augAssign target _ value => if target.id? = some acc then countReads value acc else 0
      | .assign targets value => if targets.any (·.id? = some acc) then countReads value acc else 0
      | _ => 0).sum)

/-- Whether the accumulator is read outside the values that combine it. -/
def accumulatorObserved (body : Block) (acc : String) : Bool :=
  (accReads body acc).1 ≠ (accReads body acc).2

/-- The operator and the scalar of a loop that combines one scalar. -/
def loopReduction (loop : Loop) : Option (ReductionOp × String) :=
  let idx := loopIndex loop
  let written := loop.body.writtenArrays
  (scalarAccumulators loop.body).bind fun accs =>
    match accs with
    | [] => none
    | (acc, op) :: others =>
      if others.any (·.1 ≠ acc) then none
      else if accumulatorObserved loop.body acc || accumulatorReset loop.body acc then none
      else if !(writtenSubscripts loop.body written).all fun p => subscriptIdxSafe p.2 idx then none
      else if !writtenPartitionConsistent loop.body idx written then none
      else some (op, acc)

end Translate

end HpcAgentBench
