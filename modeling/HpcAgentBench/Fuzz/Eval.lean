import HpcAgentBench.Fuzz.Values

/-!
# Fuzz expressions

A constraint, a derived and a constructed size are expressions, evaluated by `safe_eval` over a map
of names: arithmetic, comparisons, Boolean and conditional logic, literals and a few builtins.  An
unknown name is a `NameError`, anything outside the language a `ValueError`.  The parser and the
arithmetic of doubles are parameters.

## Main results

* `eval_extends` : **a value stays where the names it reads keep theirs.**
-/

namespace HpcAgentBench

namespace Fuzz

/-! ### Expressions -/

inductive BinOp
  | add | sub | mult | div | floorDiv | mod | pow
  deriving DecidableEq, Repr

inductive UnaryOp
  | usub | uadd | not
  deriving DecidableEq, Repr

inductive CmpOp
  | eq | notEq | lt | ltE | gt | gtE
  /-- An operator outside the language, by name. -/
  | other (name : String)
  deriving DecidableEq, Repr

/-- The name of an operator outside the language. -/
def CmpOp.other? : CmpOp → Option String
  | other name => some name
  | _ => none

/-- A parsed expression. -/
inductive Expr
  /-- A literal: a Boolean, a number or a text. -/
  | constant (value : FuzzValue)
  | name (id : String)
  /-- A list or a tuple. -/
  | seq (elts : List Expr)
  | binOp (op : BinOp) (left right : Expr)
  | unaryOp (op : UnaryOp) (operand : Expr)
  | boolOp (isAnd : Bool) (values : List Expr)
  | compare (left : Expr) (ops : List CmpOp) (comparators : List Expr)
  | ifExp (test body orelse : Expr)
  /-- A call; no function where it is not a plain name. -/
  | call (func : Option String) (args : List Expr) (keywords : Bool)
  /-- A literal of another type, by its text. -/
  | otherConstant (text : String)
  /-- A node outside the language, by its dump. -/
  | other (dump : String)

/-- What the language provides to a fuzz table: the parser, texts, and the arithmetic that leaves
the integers. -/
structure Runtime extends Texts where
  parse : String → Except Err Expr
  /-- An operator with a double among its operands, a quotient, or a negative power. -/
  arith : BinOp → PyNum → PyNum → Except Err PyNum
  neg : Double → Double
  abs : Double → Double
  round : PyNum → Except Err ℤ
  /-- `round(x, digits)`. -/
  roundTo : PyNum → ℤ → Except Err PyNum
  toFloat : PyNum → Except Err Double
  /-- A word character of a pattern, and the value of a digit. -/
  isWord : Char → Bool
  digit? : Char → Option ℕ

namespace FuzzValue

/-- `bool(value)`. -/
def truthy : FuzzValue → Bool
  | bool b => b
  | num (.int z) => z ≠ 0
  | num (.float bits) => bits.toNat % 2 ^ 63 ≠ 0
  | str s => s ≠ ""
  | seq elements => elements ≠ []
  | map items => items ≠ []

/-- `len(value)`; none for a number. -/
def len? : FuzzValue → Option ℕ
  | str s => some s.length
  | seq elements => some elements.length
  | map items => some items.length
  | _ => none

end FuzzValue

section Apply

variable (rt : Runtime) (expr : String)

/-- A value error about the expression. -/
def valueError (what : String) (detail : String) : Err :=
  .py (.valueError (what ++ " in " ++ rt.repr (.str expr) ++ detail))

/-- `as_number`. -/
def asNumber (value : FuzzValue) : Except Err PyNum :=
  match value.number? with
  | some n => .ok n
  | none =>
    .error (.typeError ("non-numeric value in " ++ rt.repr (.str expr) ++ ": " ++ rt.repr value))

/-- `binop`. -/
def binop (op : BinOp) (left right : PyNum) : Except Err PyNum :=
  match op, left, right with
  | .add, .int a, .int b => .ok (.int (a + b))
  | .sub, .int a, .int b => .ok (.int (a - b))
  | .mult, .int a, .int b => .ok (.int (a * b))
  | .floorDiv, .int a, .int b => if b = 0 then .error (.py .zeroDivision) else .ok (.int (a.fdiv b))
  | .mod, .int a, .int b => if b = 0 then .error (.py .zeroDivision) else .ok (.int (a.fmod b))
  | .pow, .int a, .int b => if 0 ≤ b then .ok (.int (a ^ b.toNat)) else rt.arith op left right
  | _, _, _ => rt.arith op left right

/-- `unaryop`. -/
def unaryop (op : UnaryOp) (value : FuzzValue) : Except Err FuzzValue :=
  match op with
  | .not => .ok (.bool !value.truthy)
  | .usub => do
    match ← asNumber rt expr value with
    | .int z => return .int (-z)
    | .float bits => return .num (.float (rt.neg bits))
  | .uadd => do return .num (← asNumber rt expr value)

/-- `compare`. -/
def compare (op : CmpOp) (left right : FuzzValue) : Except Err Bool :=
  match op with
  | .eq => .ok (left.eq right)
  | .notEq => .ok (!left.eq right)
  | op => do
    let lhs ← asNumber rt expr left
    let rhs ← asNumber rt expr right
    match op with
    | .lt => return lhs.compare? rhs = some .lt
    | .ltE => return lhs.compare? rhs = some .lt || lhs.compare? rhs = some .eq
    | .gt => return lhs.compare? rhs = some .gt
    | .gtE => return lhs.compare? rhs = some .gt || lhs.compare? rhs = some .eq
    | .other name => throw (valueError rt expr "unsupported comparison" (": " ++ name))
    | _ => return false

/-- `min` or `max`: the first of the best numbers; `better` is the order of a better one. -/
def extremum (better : Ordering) : List FuzzValue → Except Err FuzzValue
  | [] => .error (.py (.valueError "iterable argument is empty"))
  | first :: rest => do
    let start ← asNumber rt expr first
    let (best, _) ← rest.foldlM (fun (best : FuzzValue × PyNum) value => do
      let n ← asNumber rt expr value
      return if n.compare? best.2 = some better then (value, n) else best) (first, start)
    return best

/-- `apply_func`. -/
def applyFunc (name : String) (args : List FuzzValue) : Except Err FuzzValue :=
  if name = "min" then extremum rt expr .lt args
  else if name = "max" then extremum rt expr .gt args
  else match args with
    | [] => .error (valueError rt expr (name ++ "() needs an argument") "")
    | first :: rest =>
      if name = "bool" then .ok (.bool first.truthy)
      else if name = "len" then
        match first.len? with
        | some n => .ok (.int n)
        | none => .error (.typeError
            ("len() of a number in " ++ rt.repr (.str expr) ++ ": " ++ rt.repr first))
      else if name = "abs" then do
        match ← asNumber rt expr first with
        | .int z => return .int |z|
        | .float bits => return .num (.float (rt.abs bits))
      else if name = "round" then do
        let number ← asNumber rt expr first
        match rest with
        | [] => return .int (← rt.round number)
        | digits :: _ =>
          match (← asNumber rt expr digits).toInt with
          | .ok k => return .num (← rt.roundTo number k)
          | .error e => throw (.py e)
      else if name = "float" then
        match first with
        | .str s => ((rt.float s).mapError .py).map fun bits => .num (.float bits)
        | _ => do return .num (.float (← rt.toFloat (← asNumber rt expr first)))
      else if name = "int" then
        match first with
        | .str s => ((rt.int s).mapError .py).map .int
        | _ => do return .int (← ((← asNumber rt expr first).toInt).mapError .py)
      else .error (valueError rt expr "disallowed call" "")

/-- The functions an expression may call. -/
def evalFuncs : List String := ["min", "max", "int", "abs", "round", "len", "bool", "float"]

end Apply

/-! ### Evaluation -/

section Eval

variable (rt : Runtime) (names : Params) (expr : String)

mutual

/-- `eval_node`. -/
def evalNode : Expr → Except Err FuzzValue
  | .constant value => .ok value
  | .name id =>
    match names.get? id with
    | some value => .ok value
    | none => .error (.nameError id)
  | .seq elts => (evalAll elts).map .seq
  | .binOp op left right => do
    let l ← evalNode left
    let r ← evalNode right
    let a ← asNumber rt expr l
    let b ← asNumber rt expr r
    return .num (← binop rt op a b)
  | .unaryOp op operand => do unaryop rt expr op (← evalNode operand)
  | .boolOp isAnd values => (evalBool isAnd values).map .bool
  | .compare left ops comparators => do
    let l ← evalNode left
    return .bool (← evalCompare l ops comparators)
  | .ifExp test body orelse => do
    let c ← evalNode test
    if c.truthy then evalNode body else evalNode orelse
  | .call func args keywords =>
    match func with
    | none => .error (valueError rt expr "disallowed call" "")
    | some name =>
      if name ∉ evalFuncs then .error (valueError rt expr "disallowed call" "")
      else if keywords then .error (valueError rt expr "keyword args not allowed" "")
      else do applyFunc rt expr name (← evalAll args)
  | .otherConstant text => .error (valueError rt expr "unsupported constant" (": " ++ text))
  | .other dump => .error (valueError rt expr "unsupported expression" (": " ++ dump))

/-- The elements from left to right. -/
def evalAll : List Expr → Except Err (List FuzzValue)
  | [] => .ok []
  | e :: es => do
    let v ← evalNode e
    return v :: (← evalAll es)

/-- `all(…)` or `any(…)`, up to the value that decides. -/
def evalBool (isAnd : Bool) : List Expr → Except Err Bool
  | [] => .ok isAnd
  | e :: es => do
    let v ← evalNode e
    if v.truthy = isAnd then evalBool isAnd es else return !isAnd

/-- `eval_compare`, after its first operand. -/
def evalCompare (left : FuzzValue) (ops : List CmpOp) : List Expr → Except Err Bool
  | [] => .ok true
  | e :: es =>
    match ops with
    | [] => .ok true
    | op :: ops =>
      match op.other? with
      | some name => .error (valueError rt expr "unsupported comparison" (": " ++ name))
      | none => do
        let right ← evalNode e
        if ← compare rt expr op left right then evalCompare right ops es else return false

end

/-- `safe_eval`. -/
def safeEval : Except Err FuzzValue := do evalNode rt names expr (← rt.parse expr)

end Eval

mutual

/-- The names an expression may read. -/
def Expr.reads : Expr → List String
  | .name id => [id]
  | .seq elts | .boolOp _ elts | .call _ elts _ => readsAll elts
  | .binOp _ left right => left.reads ++ right.reads
  | .unaryOp _ operand => operand.reads
  | .compare left _ comparators => left.reads ++ readsAll comparators
  | .ifExp test body orelse => test.reads ++ (body.reads ++ orelse.reads)
  | _ => []

def readsAll : List Expr → List String
  | [] => []
  | e :: es => e.reads ++ readsAll es

end

/-- A second map that keeps the values of these names. -/
def Keeps (ids : List String) (names names' : Params) : Prop :=
  ∀ id ∈ ids, ∀ v, names.get? id = some v → names'.get? id = some v

variable {ids ids' : List String} {names names' : Params}

theorem Keeps.left (h : Keeps (ids ++ ids') names names') : Keeps ids names names' :=
  fun id hid => h id (List.mem_append_left _ hid)

theorem Keeps.right (h : Keeps (ids ++ ids') names names') : Keeps ids' names names' :=
  fun id hid => h id (List.mem_append_right _ hid)

section Extends

variable {rt : Runtime} {names names' : Params} {expr : String}

mutual

/-- **A value stays where the names it reads keep theirs.** -/
theorem evalNode_extends (e : Expr) {v : FuzzValue} (h : Keeps e.reads names names')
    (hv : evalNode rt names expr e = .ok v) : evalNode rt names' expr e = .ok v := by
  match e with
  | .constant value => exact hv
  | .name id =>
    simp only [evalNode] at hv ⊢
    cases hid : names.get? id with
    | none =>
      rw [hid] at hv
      cases hv
    | some w =>
      rw [hid] at hv
      rw [h id (by simp [Expr.reads]) w hid]
      exact hv
  | .seq elts =>
    rw [evalNode] at hv ⊢
    cases hvs : evalAll rt names expr elts with
    | error err =>
      rw [hvs] at hv
      cases hv
    | ok vs =>
      rw [evalAll_extends elts (by simpa [Expr.reads] using h) hvs, ← hvs]
      exact hv
  | .binOp op left right =>
    rw [Expr.reads] at h
    rw [evalNode] at hv ⊢
    obtain ⟨l, hl, hv⟩ := bind_eq_ok.1 hv
    obtain ⟨r, hr, hv⟩ := bind_eq_ok.1 hv
    rw [evalNode_extends left h.left hl, evalNode_extends right h.right hr]
    exact hv
  | .unaryOp op operand =>
    rw [Expr.reads] at h
    rw [evalNode] at hv ⊢
    obtain ⟨w, hw, hv⟩ := bind_eq_ok.1 hv
    rw [evalNode_extends operand h hw]
    exact hv
  | .boolOp isAnd values =>
    rw [evalNode] at hv ⊢
    cases hb : evalBool rt names expr isAnd values with
    | error err =>
      rw [hb] at hv
      cases hv
    | ok b =>
      rw [evalBool_extends isAnd values (by simpa [Expr.reads] using h) hb, ← hb]
      exact hv
  | .compare left ops comparators =>
    rw [Expr.reads] at h
    rw [evalNode] at hv ⊢
    obtain ⟨l, hl, hv⟩ := bind_eq_ok.1 hv
    obtain ⟨b, hb, hv⟩ := bind_eq_ok.1 hv
    rw [evalNode_extends left h.left hl]
    refine bind_eq_ok.2 ⟨l, rfl, ?_⟩
    rw [evalCompare_extends comparators h.right hb]
    exact hv
  | .ifExp test body orelse =>
    rw [Expr.reads] at h
    rw [evalNode] at hv ⊢
    obtain ⟨c, hc, hv⟩ := bind_eq_ok.1 hv
    rw [evalNode_extends test h.left hc]
    refine bind_eq_ok.2 ⟨c, rfl, ?_⟩
    split at hv
    next htrue =>
      rw [if_pos htrue]
      exact evalNode_extends body h.right.left hv
    next hfalse =>
      rw [if_neg hfalse]
      exact evalNode_extends orelse h.right.right hv
  | .call none args keywords => exact hv
  | .call (some name) args keywords =>
    rw [evalNode] at hv ⊢
    split at hv
    next => cases hv
    next hname =>
      rw [if_neg hname]
      split at hv
      next => cases hv
      next hkey =>
        rw [if_neg hkey]
        obtain ⟨vs, hvs, hv⟩ := bind_eq_ok.1 hv
        rw [evalAll_extends args (by simpa [Expr.reads] using h) hvs]
        exact hv
  | .otherConstant text => exact hv
  | .other dump => exact hv

theorem evalAll_extends (es : List Expr) {vs : List FuzzValue}
    (h : Keeps (readsAll es) names names') (hv : evalAll rt names expr es = .ok vs) :
    evalAll rt names' expr es = .ok vs := by
  match es with
  | [] => exact hv
  | e :: es =>
    rw [readsAll] at h
    rw [evalAll] at hv ⊢
    obtain ⟨v, hhead, hv⟩ := bind_eq_ok.1 hv
    obtain ⟨ws, htail, hv⟩ := bind_eq_ok.1 hv
    rw [evalNode_extends e h.left hhead, evalAll_extends es h.right htail]
    exact hv

theorem evalBool_extends (isAnd : Bool) (es : List Expr) {b : Bool}
    (h : Keeps (readsAll es) names names') (hv : evalBool rt names expr isAnd es = .ok b) :
    evalBool rt names' expr isAnd es = .ok b := by
  match es with
  | [] => exact hv
  | e :: es =>
    rw [readsAll] at h
    rw [evalBool] at hv ⊢
    obtain ⟨v, hhead, hv⟩ := bind_eq_ok.1 hv
    rw [evalNode_extends e h.left hhead]
    refine bind_eq_ok.2 ⟨v, rfl, ?_⟩
    split at hv
    next hgo =>
      rw [if_pos hgo]
      exact evalBool_extends isAnd es h.right hv
    next hstop =>
      rw [if_neg hstop]
      exact hv

theorem evalCompare_extends (es : List Expr) {left : FuzzValue} {ops : List CmpOp} {b : Bool}
    (h : Keeps (readsAll es) names names')
    (hv : evalCompare rt names expr left ops es = .ok b) :
    evalCompare rt names' expr left ops es = .ok b := by
  match es with
  | [] =>
    rw [evalCompare] at hv ⊢
    exact hv
  | e :: es =>
    rw [readsAll] at h
    match ops with
    | [] => exact hv
    | op :: ops =>
      rw [evalCompare] at hv ⊢
      cases hop : op.other? with
      | some name =>
        rw [hop] at hv
        cases hv
      | none =>
        rw [hop] at hv
        obtain ⟨right, hright, hv⟩ := bind_eq_ok.1 hv
        obtain ⟨c, hc, hv⟩ := bind_eq_ok.1 hv
        rw [evalNode_extends e h.left hright]
        refine bind_eq_ok.2 ⟨right, rfl, bind_eq_ok.2 ⟨c, hc, ?_⟩⟩
        split at hv
        next hgo =>
          rw [if_pos hgo]
          exact evalCompare_extends es h.right hv
        next hstop =>
          rw [if_neg hstop]
          exact hv

end

end Extends

end Fuzz

end HpcAgentBench
