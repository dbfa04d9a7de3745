import HpcAgentBench.Translate.Syntax

/-!
# Running a kernel body

What the statements of a body do to a store of scalars and arrays.  Values, their operators and the
functions a body calls are a parameter (`Interp`), so that a body can be run in any arithmetic.

A run that raises, or a `while` that does not end within `fuel` iterations, has no result.
-/

namespace HpcAgentBench

open Option

namespace Translate

/-! ### Values and stores -/

/-- An array: its extents, and its elements by index. -/
structure Arr (V : Type) where
  shape : List ℕ
  cells : List ℕ → V

/-- Values, the operators on them and the functions a body calls. -/
structure Interp (V : Type) where
  const : Literal → V
  unary : String → V → Option V
  binary : Operator → V → V → Option V
  /-- A function by the last part of its name. -/
  call : String → List V → Option V
  /-- What a call that is a statement leaves in an array it is passed. -/
  effect : String → List V → ℕ → Option (Arr V)
  truth : V → Bool
  int : V → Option ℤ
  ofInt : ℤ → V
  /-- An array, or a part of one, as an operand. -/
  whole : Arr V → V
  int_ofInt : ∀ n, int (ofInt n) = some n

/-- What the names of a body are bound to. -/
structure State (V : Type) where
  scalars : String → Option V
  arrays : String → Option (Arr V)

/-- What an expression reads: values, or a part of an array. -/
inductive Reads (V : Type)
  | values (vs : List V)
  | view (array : String) (index : List ℤ)

/-- An index along an axis of `n` elements: negative ones count from the end. -/
def wrapIndex (n : ℕ) (i : ℤ) : Option ℕ :=
  if 0 ≤ i ∧ i < n then some i.toNat
  else if -n ≤ i ∧ i < 0 then some (i + n).toNat
  else none

/-- The place an index names along the first axes of a shape. -/
def locate : List ℕ → List ℤ → Option (List ℕ)
  | _, [] => some []
  | [], _ :: _ => none
  | n :: shape, i :: index =>
    (wrapIndex n i).bind fun j => (locate shape index).map (j :: ·)

/-- The values `range(lo, hi, step)` runs through. -/
def rangeList (lo hi step : ℤ) : List ℤ :=
  let count := if 0 < step then (hi - lo + step - 1) / step else (lo - hi - step - 1) / -step
  (List.range count.toNat).map fun k : ℕ => lo + k * step

/-- `range` of one, two or three arguments. -/
def rangeOf : List ℤ → Option (List ℤ)
  | [hi] => some (rangeList 0 hi 1)
  | [lo, hi] => some (rangeList lo hi 1)
  | [lo, hi, step] => if step = 0 then none else some (rangeList lo hi step)
  | _ => none

/-- The last part of the name of what is called. -/
def callLeaf : Expr → Option String
  | .name id => some id
  | .attr _ attr => some attr
  | _ => none

variable {V : Type}

/-- An array with one element replaced. -/
def Arr.set (a : Arr V) (index : List ℕ) (v : V) : Arr V :=
  { a with cells := Function.update a.cells index v }

@[simp] theorem Arr.set_shape {a : Arr V} {c : List ℕ} {v : V} : (a.set c v).shape = a.shape := rfl

@[simp] theorem Arr.set_self {a : Arr V} {c : List ℕ} {v : V} : (a.set c v).cells c = v :=
  Function.update_self ..

@[simp] theorem Arr.set_of_ne {a : Arr V} {c d : List ℕ} {v : V} (h : d ≠ c) :
    (a.set c v).cells d = a.cells d := Function.update_of_ne h ..

namespace State

variable (σ : State V)

/-- A scalar rebound. -/
def setScalar (id : String) (v : V) : State V :=
  { σ with scalars := Function.update σ.scalars id (some v) }

/-- An array replaced. -/
def setArray (id : String) (a : Arr V) : State V :=
  { σ with arrays := Function.update σ.arrays id (some a) }

/-- A name rebound; none for the name of an array. -/
def set (id : String) (v : V) : Option (State V) :=
  if (σ.arrays id).isSome then none else some (σ.setScalar id v)

/-- An element stored; none unless the index names one element. -/
def setItem (id : String) (index : List ℤ) (v : V) : Option (State V) :=
  (σ.arrays id).bind fun a =>
    if index.length = a.shape.length then
      (locate a.shape index).map fun at_ =>
        σ.setArray id (a.set at_ v)
    else none

/-- The part of an array an index names. -/
def part (id : String) (index : List ℤ) : Option (Arr V) :=
  (σ.arrays id).bind fun a => (locate a.shape index).map fun at_ =>
    { shape := a.shape.drop index.length, cells := fun rest => a.cells (at_ ++ rest) }

variable {σ} {id x : String} {v : V} {a : Arr V}

@[simp] theorem setScalar_self : (σ.setScalar id v).scalars id = some v := Function.update_self ..

@[simp] theorem setScalar_of_ne (h : x ≠ id) : (σ.setScalar id v).scalars x = σ.scalars x :=
  Function.update_of_ne h ..

@[simp] theorem setScalar_arrays : (σ.setScalar id v).arrays = σ.arrays := rfl

theorem setScalar_eq_self (h : σ.scalars id = some v) : σ.setScalar id v = σ := by
  unfold setScalar
  rw [← h, Function.update_eq_self]

@[simp] theorem setArray_self : (σ.setArray id a).arrays id = some a := Function.update_self ..

@[simp] theorem setArray_of_ne (h : x ≠ id) : (σ.setArray id a).arrays x = σ.arrays x :=
  Function.update_of_ne h ..

@[simp] theorem setArray_scalars : (σ.setArray id a).scalars = σ.scalars := rfl

end State

/-! ### Expressions -/

section Eval

variable (I : Interp V) (σ : State V)

/-- A read as one operand: a whole part of an array is an operand too. -/
def force : Reads V → Option V
  | .values [v] => some v
  | .values _ => none
  | .view id index => (σ.part id index).map fun a =>
    if a.shape = [] then a.cells [] else I.whole a

/-- A read as the elements of a tuple. -/
def items : Reads V → Option (List V)
  | .values vs => some vs
  | .view id index => (force I σ (.view id index)).map fun v => [v]

/-- What an expression reads. -/
def eval : Expr → Option (Reads V)
  | .const value => some (.values [I.const value])
  | .name id =>
    match σ.scalars id with
    | some v => some (.values [v])
    | none => (σ.arrays id).map fun _ => .view id []
  | .attr _ _ => none
  | .unaryOp op operand =>
    ((eval operand).bind (force I σ)).bind fun v => (I.unary op v).map fun w => .values [w]
  | .binOp op left right =>
    ((eval left).bind (force I σ)).bind fun a => ((eval right).bind (force I σ)).bind fun b =>
      (I.binary op a b).map fun w => .values [w]
  | .boolOp conj left right =>
    ((eval left).bind (force I σ)).bind fun a =>
      if I.truth a = conj then ((eval right).bind (force I σ)).map fun b => .values [b]
      else some (.values [a])
  | .ifExp test body orelse =>
    ((eval test).bind (force I σ)).bind fun c => if I.truth c then eval body else eval orelse
  | .call func args =>
    (callLeaf func).bind fun f => ((eval args).bind (items I σ)).bind fun vs =>
      (I.call f vs).map fun w => .values [w]
  | .subscript value slice =>
    (eval value).bind fun base => ((eval slice).bind (items I σ)).bind fun vs =>
      (vs.mapM I.int).bind fun index =>
        match base with
        | .view id before => some (.view id (before ++ index))
        | .values _ => none
  | .slice _ _ _ => none
  | .unit => some (.values [])
  | .pair head tail =>
    ((eval head).bind (force I σ)).bind fun v => ((eval tail).bind (items I σ)).map fun vs =>
      .values (v :: vs)

/-- An expression as one value. -/
def value (e : Expr) : Option V := (eval I σ e).bind (force I σ)

/-- An expression as the elements of a tuple. -/
def tuple (e : Expr) : Option (List V) := (eval I σ e).bind (items I σ)

/-- The values a loop runs through. -/
def rangeValues (args : Expr) : Option (List ℤ) :=
  (tuple I σ args).bind fun vs => (vs.mapM I.int).bind rangeOf

theorem value_name {I : Interp V} {σ : State V} {x : String} {a : V} (h : σ.scalars x = some a) :
    value I σ (.name x) = some a := by
  simp only [value, eval, h, bind_some, force]

theorem value_binOp (op : Operator) (left right : Expr) :
    value I σ (.binOp op left right) =
      (value I σ left).bind fun a => (value I σ right).bind fun b => I.binary op a b := by
  simp only [value, eval, bind_assoc, bind_map]
  refine bind_congr fun r _ => bind_congr fun a _ => bind_congr fun r' _ =>
    bind_congr fun b _ => ?_
  cases I.binary op a b <;> rfl

theorem value_call (func args : Expr) :
    value I σ (.call func args) =
      (callLeaf func).bind fun f => (tuple I σ args).bind fun vs => I.call f vs := by
  simp only [value, tuple, eval, bind_assoc]
  refine bind_congr fun f _ => bind_congr fun r _ => bind_congr fun vs _ => ?_
  cases I.call f vs <;> rfl

theorem tuple_unit : tuple I σ .unit = some [] := rfl

theorem tuple_pair (head tail : Expr) :
    tuple I σ (.pair head tail) =
      (value I σ head).bind fun v => (tuple I σ tail).map fun vs => v :: vs := by
  simp only [value, tuple, eval, bind_assoc]
  refine bind_congr fun r _ => bind_congr fun v _ => ?_
  cases hr : (eval I σ tail).bind (items I σ) <;> rfl

theorem length_of_tuple {e : Expr} (he : e.isTuple = true) {vs : List V}
    (h : tuple I σ e = some vs) : vs.length = e.elts.length := by
  induction e generalizing vs with
  | unit =>
    obtain rfl := Option.some.inj h
    rfl
  | pair head tail _ ih =>
    rw [tuple_pair] at h
    obtain ⟨v, -, h⟩ := bind_eq_some_iff.1 h
    obtain ⟨ws, hws, rfl⟩ := map_eq_some_iff.1 h
    rw [List.length_cons, Expr.elts, List.length_cons, ih he hws]
  | _ => cases he

end Eval

/-! ### Statements -/

/-- How a list of statements ends. -/
inductive Flow
  | next
  /-- At a `break` of the loop around it. -/
  | brk
  deriving DecidableEq

/-- The iterations of a `for`, until one of them breaks. -/
def forSteps (step : ℤ → State V → Option (State V × Flow)) : List ℤ → State V → Option (State V)
  | [], σ => some σ
  | v :: vs, σ => (step v σ).bind fun r =>
    match r.2 with
    | .next => forSteps step vs r.1
    | .brk => some r.1

/-- The iterations of a `while`, at most `fuel` of them. -/
def whileSteps (test : State V → Option V) (truth : V → Bool)
    (step : State V → Option (State V × Flow)) : ℕ → State V → Option (State V)
  | 0, _ => none
  | fuel + 1, σ => (test σ).bind fun c =>
    if truth c then (step σ).bind fun r =>
      match r.2 with
      | .next => whileSteps test truth step fuel r.1
      | .brk => some r.1
    else some σ

section Exec

variable (I : Interp V)

/-- One store. -/
def store (σ : State V) (v : V) : Target → Option (State V)
  | .name id => σ.set id v
  | .subscript base index =>
    match eval I σ (.subscript base index) with
    | some (.view id at_) => σ.setItem id at_ v
    | _ => none

/-- The `k`-th argument of a call, an array where it is the name of one, after the call. -/
def passArray (f : String) (vs : List V) (k : ℕ) (σ : State V) (arg : Expr) : State V :=
  match arg.id?, I.effect f vs k with
  | some id, some a => if (σ.arrays id).isSome then σ.setArray id a else σ
  | _, _ => σ

/-- The arrays a call is passed by name, after the call. -/
def passArrays (f : String) (vs : List V) : List Expr → ℕ → State V → State V
  | [], _, σ => σ
  | arg :: args, k, σ => passArrays f vs args (k + 1) (passArray I f vs k σ arg)

/-- An expression that is a statement: a call may write the arrays it is passed. -/
def perform (σ : State V) : Expr → Option (State V)
  | .call func args =>
    (callLeaf func).bind fun f => ((eval I σ args).bind (items I σ)).map fun vs =>
      passArrays I f vs args.elts 0 σ
  | e => (eval I σ e).map fun _ => σ

/-- A list of statements. -/
def exec (fuel : ℕ) : Block → State V → Option (State V × Flow)
  | .done, σ => some (σ, .next)
  | .assign targets e rest, σ =>
    (value I σ e).bind fun v => (targets.foldlM (fun σ t => store I σ v t) σ).bind (exec fuel rest)
  | .augAssign target op e rest, σ =>
    (value I σ target.toExpr).bind fun old => (value I σ e).bind fun v =>
      (I.binary op old v).bind fun w => (store I σ w target).bind (exec fuel rest)
  | .expr e rest, σ => (perform I σ e).bind (exec fuel rest)
  | .ifElse test body orelse rest, σ =>
    (value I σ test).bind fun c =>
      (if I.truth c then exec fuel body σ else exec fuel orelse σ).bind fun r =>
        match r.2 with
        | .next => exec fuel rest r.1
        | .brk => some r
  | .forRange target args body rest, σ =>
    (rangeValues I σ args).bind fun vals =>
      (forSteps (fun v σ => (σ.set target (I.ofInt v)).bind (exec fuel body)) vals σ).bind
        (exec fuel rest)
  | .whileDo test body rest, σ =>
    (whileSteps (fun σ => value I σ test) I.truth (exec fuel body) fuel σ).bind (exec fuel rest)
  | .brk _, σ => some (σ, .brk)

/-- One iteration of a loop. -/
def iteration (fuel : ℕ) (loop : Loop) (v : ℤ) (σ : State V) : Option (State V × Flow) :=
  (σ.set loop.target (I.ofInt v)).bind (exec I fuel loop.body)

end Exec

/-- Exact integers: no functions, and calls that write nothing. -/
def intInterp : Interp ℤ where
  const
    | .int n => n
    | _ => 0
  unary op n := if op = "-" then some (-n) else none
  binary
    | .add, m, n => some (m + n)
    | .sub, m, n => some (m - n)
    | .mult, m, n => some (m * n)
    | .floorDiv, m, n => if n = 0 then none else some (Int.fdiv m n)
    | .other _, _, _ => none
  call _ _ := none
  effect _ _ _ := none
  truth n := n ≠ 0
  int n := some n
  ofInt n := n
  whole _ := 0
  int_ofInt _ := rfl

end Translate

end HpcAgentBench
