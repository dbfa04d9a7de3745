import HpcAgentBench.Fuzz.Consistent

/-!
# Fuzz expressions and the language's own evaluation

`safe_eval` walks the tree the language's own evaluation walks, with three ways of its own: `and`
and `or` give a truth value instead of an operand, a tuple is read as a list, and a call takes what
it needs of its arguments.  The evaluation of the language is stated here on the same trees, with
what lies outside the accepted grammar as a parameter.

## Main results

* `evalNode_pyEval` : the two evaluations of one tree.
* `safeEval_agrees` : **`safe_eval` is the language's evaluation of the expression it reads.**
-/

namespace HpcAgentBench

open List

namespace Fuzz

/-! ### Values and trees of the language -/

/-- A value of the language, a list and a tuple apart. -/
inductive PyValue
  | bool (b : Bool)
  | num (n : PyNum)
  | str (s : String)
  | list (elements : List PyValue)
  | tuple (elements : List PyValue)
  | dict (items : List (String × PyValue))

namespace PyValue

/-- The number a Boolean or a number is. -/
def number? : PyValue → Option PyNum
  | bool b => some (.int (if b then 1 else 0))
  | num n => some n
  | _ => none

/-- `bool(value)`. -/
def truthy : PyValue → Bool
  | bool b => b
  | num (.int z) => z ≠ 0
  | num (.float bits) => bits.toNat % 2 ^ 63 ≠ 0
  | str s => s ≠ ""
  | list elements => !elements.isEmpty
  | tuple elements => !elements.isEmpty
  | dict items => !items.isEmpty

/-- `len(value)`; none for a number. -/
def len? : PyValue → Option ℕ
  | str s => some s.length
  | list elements => some elements.length
  | tuple elements => some elements.length
  | dict items => some items.length
  | _ => none

mutual

/-- `v == w`: a list is no tuple. -/
def eq : PyValue → PyValue → Bool
  | str s, str t => s == t
  | list l, list m => eqAll l m
  | tuple l, tuple m => eqAll l m
  | dict a, dict b => a.length == b.length && eqItems a b
  | bool b, w => w.number?.any (PyNum.eq (.int (if b then 1 else 0)))
  | num n, w => w.number?.any n.eq
  | _, _ => false

def eqAll : List PyValue → List PyValue → Bool
  | [], [] => true
  | v :: l, w :: m => eq v w && eqAll l m
  | _, _ => false

def eqItems : List (String × PyValue) → List (String × PyValue) → Bool
  | [], _ => true
  | (k, v) :: items, b => (b.lookup k).any (eq v) && eqItems items b

end

end PyValue

mutual

/-- A value of `safe_eval`, its sequences as lists. -/
def FuzzValue.embed : FuzzValue → PyValue
  | .bool b => .bool b
  | .num n => .num n
  | .str s => .str s
  | .seq elements => .list (embedAll elements)
  | .map items => .dict (embedItems items)

def embedAll : List FuzzValue → List PyValue
  | [] => []
  | v :: vs => v.embed :: embedAll vs

def embedItems : List (String × FuzzValue) → List (String × PyValue)
  | [] => []
  | (k, v) :: items => (k, v.embed) :: embedItems items

end

/-- A parsed expression, a list and a tuple apart. -/
inductive PyExpr
  | constant (value : FuzzValue)
  | name (id : String)
  | list (elts : List PyExpr)
  | tuple (elts : List PyExpr)
  | binOp (op : BinOp) (left right : PyExpr)
  | unaryOp (op : UnaryOp) (operand : PyExpr)
  | boolOp (isAnd : Bool) (values : List PyExpr)
  | compare (left : PyExpr) (ops : List CmpOp) (comparators : List PyExpr)
  | ifExp (test body orelse : PyExpr)
  | call (func : Option String) (args : List PyExpr) (keywords : Bool)
  | otherConstant (text : String)
  | other (dump : String)

mutual

/-- The tree as `eval_node` tells its nodes apart. -/
def PyExpr.read : PyExpr → Expr
  | .constant value => .constant value
  | .name id => .name id
  | .list elts => .seq (readTrees elts)
  | .tuple elts => .seq (readTrees elts)
  | .binOp op left right => .binOp op left.read right.read
  | .unaryOp op operand => .unaryOp op operand.read
  | .boolOp isAnd values => .boolOp isAnd (readTrees values)
  | .compare left ops comparators => .compare left.read ops (readTrees comparators)
  | .ifExp test body orelse => .ifExp test.read body.read orelse.read
  | .call func args keywords => .call func (readTrees args) keywords
  | .otherConstant text => .otherConstant text
  | .other dump => .other dump

def readTrees : List PyExpr → List Expr
  | [] => []
  | e :: es => e.read :: readTrees es

end

/-! ### The language's own evaluation -/

/-- What the language does outside the grammar `safe_eval` accepts. -/
structure Beyond where
  /-- A name that is not bound: a builtin, or a `NameError`. -/
  name : String → Except Err PyValue
  /-- A literal of another type or another node, by its text. -/
  node : String → Except Err PyValue
  /-- An operator on operands that are not both numbers. -/
  arith : BinOp → PyValue → PyValue → Except Err PyValue
  sign : UnaryOp → PyValue → Except Err PyValue
  /-- Another comparison, or an order of values that are not both numbers. -/
  order : CmpOp → PyValue → PyValue → Except Err Bool
  /-- A call of something else, or with other arguments. -/
  call : Option String → List PyExpr → Except Err PyValue
  /-- A listed builtin on other values, or on another number of them. -/
  builtin : String → List PyValue → Except Err PyValue

/-- What `round` raises when its digits are a double. -/
def digitsError : Err := .typeError "'float' object cannot be interpreted as an integer"

section Python

variable (rt : Runtime) (py : Beyond)

/-- `min` or `max` of numbers: the first of the best. -/
def pyExtremum (better : Ordering) (start : PyValue × PyNum) : List (PyValue × PyNum) → PyValue
  | [] => start.1
  | next :: rest =>
    pyExtremum better (if next.2.compare? start.2 = some better then next else start) rest

/-- The values with the numbers they are, where all are. -/
def numbers? (args : List PyValue) : Option (List (PyValue × PyNum)) :=
  args.mapM fun v => v.number?.map fun n => (v, n)

/-- A listed builtin. -/
def pyBuiltin (name : String) (args : List PyValue) : Except Err PyValue :=
  if name = "min" ∨ name = "max" then
    match args, numbers? args with
    | _ :: _ :: _, some (start :: rest) =>
      .ok (pyExtremum (if name = "min" then .lt else .gt) start rest)
    | _, _ => py.builtin name args
  else match args with
    | [first] =>
      if name = "bool" then .ok (.bool first.truthy)
      else if name = "len" then
        match first.len? with
        | some n => .ok (.num (.int n))
        | none => py.builtin name args
      else if name = "abs" then
        match first.number? with
        | some (.int z) => .ok (.num (.int |z|))
        | some (.float bits) => .ok (.num (.float (rt.abs bits)))
        | none => py.builtin name args
      else if name = "round" then
        match first.number? with
        | some n => (rt.round n).map fun z => .num (.int z)
        | none => py.builtin name args
      else if name = "float" then
        match first, first.number? with
        | .str s, _ => ((rt.float s).mapError .py).map fun bits => .num (.float bits)
        | _, some n => (rt.toFloat n).map fun bits => .num (.float bits)
        | _, none => py.builtin name args
      else if name = "int" then
        match first, first.number? with
        | .str s, _ => ((rt.int s).mapError .py).map fun z => .num (.int z)
        | _, some n => (n.toInt.mapError .py).map fun z => .num (.int z)
        | _, none => py.builtin name args
      else py.builtin name args
    | [first, digits] =>
      if name = "round" then
        match first.number?, digits.number? with
        | some n, some (.int k) => (rt.roundTo n k).map .num
        | some _, some (.float _) => .error digitsError
        | _, _ => py.builtin name args
      else py.builtin name args
    | _ => py.builtin name args

/-- A comparison. -/
def pyCompare (op : CmpOp) (left right : PyValue) : Except Err Bool :=
  match op with
  | .eq => .ok (left.eq right)
  | .notEq => .ok (!left.eq right)
  | op =>
    match left.number?, right.number? with
    | some lhs, some rhs =>
      match op with
      | .lt => .ok (lhs.compare? rhs = some .lt)
      | .ltE => .ok (lhs.compare? rhs = some .lt || lhs.compare? rhs = some .eq)
      | .gt => .ok (lhs.compare? rhs = some .gt)
      | .gtE => .ok (lhs.compare? rhs = some .gt || lhs.compare? rhs = some .eq)
      | op => py.order op left right
    | _, _ => py.order op left right

variable (names : Params)

mutual

/-- The language's evaluation of an expression. -/
def pyEval : PyExpr → Except Err PyValue
  | .constant value => .ok value.embed
  | .name id =>
    match names.get? id with
    | some value => .ok value.embed
    | none => py.name id
  | .list elts => (pyEvalAll elts).map .list
  | .tuple elts => (pyEvalAll elts).map .tuple
  | .binOp op left right => do
    let l ← pyEval left
    let r ← pyEval right
    match l.number?, r.number? with
    | some a, some b => return .num (← binop rt op a b)
    | _, _ => py.arith op l r
  | .unaryOp op operand => do
    let v ← pyEval operand
    match op, v.number? with
    | .not, _ => return .bool !v.truthy
    | .usub, some (.int z) => return .num (.int (-z))
    | .usub, some (.float bits) => return .num (.float (rt.neg bits))
    | .uadd, some n => return .num n
    | op, none => py.sign op v
  | .boolOp isAnd values => pyEvalBool isAnd values
  | .compare left ops comparators => do
    let l ← pyEval left
    return .bool (← pyEvalCompare l ops comparators)
  | .ifExp test body orelse => do
    let c ← pyEval test
    if c.truthy then pyEval body else pyEval orelse
  | .call func args keywords =>
    match func, keywords with
    | some name, false =>
      if name ∈ evalFuncs ∧ names.get? name = none then do
        pyBuiltin rt py name (← pyEvalAll args)
      else py.call func args
    | _, _ => py.call func args
  | .otherConstant text => py.node text
  | .other dump => py.node dump

def pyEvalAll : List PyExpr → Except Err (List PyValue)
  | [] => .ok []
  | e :: es => do
    let v ← pyEval e
    return v :: (← pyEvalAll es)

/-- `and` or `or`: the operand that decides, or the last one. -/
def pyEvalBool (isAnd : Bool) : List PyExpr → Except Err PyValue
  | [] => .ok (.bool isAnd)
  | e :: es => do
    let v ← pyEval e
    if es.isEmpty then return v
    else if v.truthy = isAnd then pyEvalBool isAnd es
    else return v

/-- The comparisons of a chain up to the first that fails. -/
def pyEvalCompare (left : PyValue) (ops : List CmpOp) : List PyExpr → Except Err Bool
  | [] => .ok true
  | e :: es =>
    match ops with
    | [] => .ok true
    | op :: ops => do
      let right ← pyEval e
      if ← pyCompare py op left right then pyEvalCompare right ops es else return false

end

end Python

/-! ### Where the two evaluations agree -/

/-- The numbers of arguments on which a listed builtin of `safe_eval` is the language's. -/
def arityOk (func : Option String) (n : ℕ) : Bool :=
  match func with
  | none => true
  | some name =>
    if name ∉ evalFuncs then true
    else if name = "min" ∨ name = "max" then n ≠ 1
    else if name = "round" then n ≤ 2
    else n ≤ 1

mutual

/-- Every listed builtin is called with arguments it takes. -/
def PyExpr.wellCalled : PyExpr → Bool
  | .list elts | .tuple elts | .boolOp _ elts => allWellCalled elts
  | .binOp _ left right => left.wellCalled && right.wellCalled
  | .unaryOp _ operand => operand.wellCalled
  | .compare left _ comparators => left.wellCalled && allWellCalled comparators
  | .ifExp test body orelse => test.wellCalled && (body.wellCalled && orelse.wellCalled)
  | .call func args _ => arityOk func args.length && allWellCalled args
  | _ => true

def allWellCalled : List PyExpr → Bool
  | [] => true
  | e :: es => e.wellCalled && allWellCalled es

end

mutual

/-- The expression gives a Boolean by its form. -/
def PyExpr.isBool : PyExpr → Bool
  | .constant (.bool _) | .compare _ _ _ | .unaryOp .not _ => true
  | .boolOp _ values => allBool values
  | .ifExp _ body orelse => body.isBool && orelse.isBool
  | .call func args keywords => func == some "bool" && args.length == 1 && !keywords
  | _ => false

def allBool : List PyExpr → Bool
  | [] => true
  | e :: es => e.isBool && allBool es

end

mutual

/-- The expression has its own value in `safe_eval`; where `truth` is set only its truth counts, so
a tuple or an operand of another type does no harm. -/
def PyExpr.asWritten (truth : Bool) : PyExpr → Bool
  | .list elts => allAsWritten false elts
  | .tuple elts => truth && allAsWritten false elts
  | .binOp _ left right => left.asWritten false && right.asWritten false
  | .unaryOp op operand => operand.asWritten (op == .not)
  | .boolOp _ values => allAsWritten true values && (truth || allBool values)
  | .compare left _ comparators => left.asWritten false && allAsWritten false comparators
  | .ifExp test body orelse =>
    test.asWritten true && (body.asWritten truth && orelse.asWritten truth)
  | .call func args _ => allAsWritten (func == some "bool") args
  | _ => true

def allAsWritten (truth : Bool) : List PyExpr → Bool
  | [] => true
  | e :: es => e.asWritten truth && allAsWritten truth es

end

mutual

/-- The expression with every `and` and `or` under `bool` and every tuple a list. -/
def PyExpr.spelled : PyExpr → PyExpr
  | .list elts => .list (allSpelled elts)
  | .tuple elts => .list (allSpelled elts)
  | .binOp op left right => .binOp op left.spelled right.spelled
  | .unaryOp op operand => .unaryOp op operand.spelled
  | .boolOp isAnd values => .call (some "bool") [.boolOp isAnd (allSpelled values)] false
  | .compare left ops comparators => .compare left.spelled ops (allSpelled comparators)
  | .ifExp test body orelse => .ifExp test.spelled body.spelled orelse.spelled
  | .call func args keywords => .call func (allSpelled args) keywords
  | e => e

def allSpelled : List PyExpr → List PyExpr
  | [] => []
  | e :: es => e.spelled :: allSpelled es

end

/-! ### Values -/

theorem embedAll_eq_map (vs : List FuzzValue) : embedAll vs = vs.map FuzzValue.embed := by
  induction vs with
  | nil => rfl
  | cons v vs ih => rw [embedAll, ih, map_cons]

theorem length_embedItems (items : List (String × FuzzValue)) :
    (embedItems items).length = items.length := by
  induction items with
  | nil => rfl
  | cons item items ih => rw [embedItems, length_cons, ih, length_cons]

theorem lookup_embedItems (key : String) (items : List (String × FuzzValue)) :
    (embedItems items).lookup key = (items.lookup key).map FuzzValue.embed := by
  induction items with
  | nil => rfl
  | cons item items ih =>
    obtain ⟨k, v⟩ := item
    rw [embedItems, lookup_cons, lookup_cons, ih]
    cases key == k <;> rfl

@[simp] theorem number?_embed (v : FuzzValue) : v.embed.number? = v.number? := by
  cases v <;> simp [FuzzValue.embed, PyValue.number?, FuzzValue.number?]

@[simp] theorem truthy_embed (v : FuzzValue) : v.embed.truthy = v.truthy := by
  cases v with
  | bool b => rfl
  | num n => cases n <;> rfl
  | str s => rfl
  | seq elements => cases elements <;> rfl
  | map items => rcases items with _ | ⟨⟨k, v⟩, items⟩ <;> rfl

@[simp] theorem len?_embed (v : FuzzValue) : v.embed.len? = v.len? := by
  cases v with
  | seq elements => simp [FuzzValue.embed, PyValue.len?, FuzzValue.len?, embedAll_eq_map]
  | map items => simp [FuzzValue.embed, PyValue.len?, FuzzValue.len?, length_embedItems]
  | _ => rfl

mutual

theorem eq_embed (v w : FuzzValue) : v.embed.eq w.embed = v.eq w := by
  match v, w with
  | .bool b, w => simp only [FuzzValue.embed, PyValue.eq, FuzzValue.eq, number?_embed]
  | .num n, w => simp only [FuzzValue.embed, PyValue.eq, FuzzValue.eq, number?_embed]
  | .str s, .str t => rfl
  | .seq l, .seq m =>
    simp only [FuzzValue.embed, PyValue.eq, FuzzValue.eq]
    exact eqAll_embed l m
  | .map a, .map b =>
    simp only [FuzzValue.embed, PyValue.eq, FuzzValue.eq, length_embedItems]
    rw [eqItems_embed a b]
  | .str s, .bool _ | .str s, .num _ | .str s, .seq _ | .str s, .map _ => rfl
  | .seq l, .bool _ | .seq l, .num _ | .seq l, .str _ | .seq l, .map _ => rfl
  | .map a, .bool _ | .map a, .num _ | .map a, .str _ | .map a, .seq _ => rfl

theorem eqAll_embed (l m : List FuzzValue) :
    PyValue.eqAll (embedAll l) (embedAll m) = FuzzValue.eqAll l m := by
  match l, m with
  | [], [] | [], _ :: _ | _ :: _, [] => rfl
  | v :: l, w :: m =>
    simp only [embedAll, PyValue.eqAll, FuzzValue.eqAll]
    rw [eq_embed v w, eqAll_embed l m]

theorem eqItems_embed (a b : List (String × FuzzValue)) :
    PyValue.eqItems (embedItems a) (embedItems b) = FuzzValue.eqItems a b := by
  match a with
  | [] => rfl
  | (k, v) :: items =>
    have hany : ∀ o : Option FuzzValue,
        (o.map FuzzValue.embed).any (PyValue.eq v.embed) = o.any (FuzzValue.eq v) := by
      intro o
      cases o with
      | none => rfl
      | some w => exact eq_embed v w
    simp only [embedItems, PyValue.eqItems, FuzzValue.eqItems, lookup_embedItems]
    rw [hany, eqItems_embed items b]

end

/-! ### Results -/

/-- The result is a value with `P`, or the one error of a call that `safe_eval` does not raise. -/
def Lands {α : Type} (P : α → Prop) (result : Except Err α) : Prop :=
  result = .error digitsError ∨ ∃ w, result = .ok w ∧ P w

namespace Lands

variable {α β : Type} {P P' : α → Prop} {Q : β → Prop}
variable {result : Except Err α}

theorem ok {w : α} (h : P w) : Lands P (.ok w) := .inr ⟨w, rfl, h⟩

theorem mono (h : Lands P result) (himp : ∀ w, P w → P' w) :
    Lands P' result := by
  obtain herr | ⟨w, hw, hP⟩ := h
  · exact .inl herr
  · exact .inr ⟨w, hw, himp w hP⟩

theorem bind {f : α → Except Err β} (h : Lands P result) (hf : ∀ w, P w → Lands Q (f w)) :
    Lands Q (result >>= f) := by
  obtain rfl | ⟨w, rfl, hP⟩ := h
  · exact .inl rfl
  · exact hf w hP

theorem map {f : α → β} (h : Lands P result) (hf : ∀ w, P w → Q (f w)) :
    Lands Q (result.map f) := by
  obtain rfl | ⟨w, rfl, hP⟩ := h
  · exact .inl rfl
  · exact ok (hf w hP)

end Lands

/-- A value of the language beside one of `safe_eval`: of the same truth, and the same value unless
only the truth counts. -/
structure Agrees (truth : Bool) (v : FuzzValue) (w : PyValue) : Prop where
  truthy_eq : w.truthy = v.truthy
  eq_embed : truth = false → w = v.embed

variable {v : FuzzValue}

theorem Agrees.of_eq {truth : Bool} {w : PyValue} (h : w = v.embed) :
    Agrees truth v w := ⟨by rw [h, truthy_embed], fun _ => h⟩

/-! ### Builtins -/

section Builtins

variable {rt : Runtime} {py : Beyond} {expr : String}
variable {v : FuzzValue} {name : String} {first : FuzzValue}

theorem asNumber_eq_ok {n : PyNum} :
    asNumber rt expr v = .ok n ↔ v.number? = some n := by
  rw [asNumber]
  cases v.number? <;> simp

/-- `min` and `max` of numbers keep the first of the best on both sides. -/
theorem extremum_embed {better : Ordering} {rest : List FuzzValue} {best best' : FuzzValue × PyNum}
    (h : rest.foldlM (fun (best : FuzzValue × PyNum) value => do
      let n ← asNumber rt expr value
      return if n.compare? best.2 = some better then (value, n) else best) best = .ok best') :
    ∃ ns, numbers? (embedAll rest) = some ns ∧
      pyExtremum better (best.1.embed, best.2) ns = best'.1.embed := by
  induction rest generalizing best with
  | nil =>
    obtain rfl : best = best' := by simpa [pure, Except.pure] using h
    exact ⟨[], rfl, rfl⟩
  | cons v rest ih =>
    rw [foldlM_cons] at h
    obtain ⟨next, hnext, h⟩ := bind_eq_ok.1 h
    obtain ⟨n, hn, hnext⟩ := bind_eq_ok.1 hnext
    rw [asNumber_eq_ok] at hn
    obtain ⟨ns, hns, hbest⟩ := ih h
    refine ⟨(v.embed, n) :: ns, ?_, ?_⟩
    · rw [numbers?] at hns ⊢
      simp [embedAll, hn, hns]
    · obtain rfl := Except.ok.inj hnext
      rw [pyExtremum, ← hbest]
      dsimp only
      split <;> rfl

/-- `min` and `max` on two arguments or more. -/
theorem pyBuiltin_extremum {name : String} {better : Ordering} {first second : FuzzValue}
    {rest : List FuzzValue} {v : FuzzValue} (hname : name = "min" ∨ name = "max")
    (hbetter : better = if name = "min" then .lt else .gt)
    (h : extremum rt expr better (first :: second :: rest) = .ok v) :
    pyBuiltin rt py name (embedAll (first :: second :: rest)) = .ok v.embed := by
  rw [extremum] at h
  obtain ⟨start, hstart, h⟩ := bind_eq_ok.1 h
  obtain ⟨best, hbest, h⟩ := bind_eq_ok.1 h
  rw [asNumber_eq_ok] at hstart
  obtain rfl : best.1 = v := Except.ok.inj h
  obtain ⟨ns, hns, hext⟩ := extremum_embed hbest
  have hall : numbers? (embedAll (first :: second :: rest)) = some ((first.embed, start) :: ns) := by
    rw [numbers?] at hns ⊢
    rw [embedAll, mapM_cons, hns]
    simp [hstart]
  rw [embedAll, embedAll] at hall ⊢
  unfold pyBuiltin
  rw [if_pos hname, hall]
  dsimp only
  rw [← hbetter, hext]

/-- The builtins of one argument. -/
theorem pyBuiltin_one (hmin : ¬(name = "min" ∨ name = "max"))
    (h : applyFunc rt expr name [first] = .ok v) :
    pyBuiltin rt py name [first.embed] = .ok v.embed := by
  obtain ⟨hmin', hmax⟩ := not_or.mp hmin
  unfold applyFunc at h
  rw [if_neg hmin', if_neg hmax] at h
  unfold pyBuiltin
  rw [if_neg hmin]
  dsimp only at h ⊢
  by_cases hbool : name = "bool"
  · rw [if_pos hbool] at h ⊢
    rw [truthy_embed]
    exact Except.ok.inj h ▸ rfl
  rw [if_neg hbool] at h ⊢
  by_cases hlen : name = "len"
  · rw [if_pos hlen] at h ⊢
    rw [len?_embed]
    cases hlength : first.len? with
    | none => rw [hlength] at h; cases h
    | some n => rw [hlength] at h; exact Except.ok.inj h ▸ rfl
  rw [if_neg hlen] at h ⊢
  by_cases habs : name = "abs"
  · rw [if_pos habs] at h ⊢
    obtain ⟨n, hn, h⟩ := bind_eq_ok.1 h
    rw [number?_embed, asNumber_eq_ok.1 hn]
    cases n <;> exact Except.ok.inj h ▸ rfl
  rw [if_neg habs] at h ⊢
  by_cases hround : name = "round"
  · rw [if_pos hround] at h ⊢
    obtain ⟨n, hn, h⟩ := bind_eq_ok.1 h
    obtain ⟨z, hz, h⟩ := bind_eq_ok.1 h
    rw [number?_embed, asNumber_eq_ok.1 hn]
    dsimp only
    rw [hz]
    exact Except.ok.inj h ▸ rfl
  rw [if_neg hround] at h ⊢
  by_cases hfloat : name = "float"
  · rw [if_pos hfloat] at h ⊢
    cases first with
    | str s =>
      cases hs : rt.float s with
      | error err => simp only [hs, Except.mapError, Except.map] at h; cases h
      | ok bits =>
        simp only [hs, Except.mapError, Except.map, Except.ok.injEq] at h
        simp only [FuzzValue.embed, hs, Except.mapError, Except.map, ← h]
    | bool b | num b =>
      obtain ⟨n, hn, hv⟩ := bind_eq_ok.1 h
      obtain ⟨bits, hbits, hv⟩ := bind_eq_ok.1 hv
      have hn' := Option.some.inj (asNumber_eq_ok.1 hn)
      simp only [FuzzValue.embed, PyValue.number?, hn', hbits, Except.map]
      exact Except.ok.inj hv ▸ rfl
    | seq _ | map _ => cases h
  rw [if_neg hfloat] at h ⊢
  by_cases hint : name = "int"
  · rw [if_pos hint] at h ⊢
    cases first with
    | str s =>
      cases hs : rt.int s with
      | error err => simp only [hs, Except.mapError, Except.map] at h; cases h
      | ok z =>
        simp only [hs, Except.mapError, Except.map, Except.ok.injEq] at h
        simp only [FuzzValue.embed, hs, Except.mapError, Except.map, ← h]
    | bool b | num b =>
      obtain ⟨n, hn, hv⟩ := bind_eq_ok.1 h
      obtain ⟨z, hz, hv⟩ := bind_eq_ok.1 hv
      have hn' := Option.some.inj (asNumber_eq_ok.1 hn)
      simp only [FuzzValue.embed, PyValue.number?, hn', hz, Except.map]
      exact Except.ok.inj hv ▸ rfl
    | seq _ | map _ => cases h
  rw [if_neg hint] at h
  cases h

/-- `round` with digits, which the language takes as an integer only. -/
theorem pyBuiltin_round {first digits v : FuzzValue}
    (h : applyFunc rt expr "round" [first, digits] = .ok v) :
    Lands (· = v.embed) (pyBuiltin rt py "round" [first.embed, digits.embed]) := by
  unfold applyFunc at h
  simp only [String.reduceEq, if_false, if_true] at h
  obtain ⟨n, hn, h⟩ := bind_eq_ok.1 h
  obtain ⟨d, hd, h⟩ := bind_eq_ok.1 h
  unfold pyBuiltin
  simp only [String.reduceEq, or_self, if_false, if_true, number?_embed, asNumber_eq_ok.1 hn,
    asNumber_eq_ok.1 hd]
  cases d with
  | float bits => exact .inl rfl
  | int k =>
    obtain ⟨x, hx, h⟩ := bind_eq_ok.1 h
    dsimp only
    rw [hx]
    exact .ok (Except.ok.inj h ▸ rfl)

/-- **A listed builtin on arguments it takes gives the value `apply_func` gives.** -/
theorem pyBuiltin_agrees {args : List FuzzValue} (hname : name ∈ evalFuncs)
    (harity : arityOk (some name) args.length = true) (h : applyFunc rt expr name args = .ok v) :
    Lands (· = v.embed) (pyBuiltin rt py name (embedAll args)) := by
  rw [arityOk, if_neg (not_not.mpr hname)] at harity
  by_cases hmin : name = "min" ∨ name = "max"
  · rw [if_pos hmin] at harity
    have hext : extremum rt expr (if name = "min" then .lt else .gt) args = .ok v := by
      rw [← h, applyFunc.eq_def]
      rcases hmin with rfl | rfl
      · rfl
      · rfl
    rcases args with _ | ⟨first, _ | ⟨second, rest⟩⟩
    · cases hext
    · cases harity
    · exact .inr ⟨_, pyBuiltin_extremum hmin rfl hext, rfl⟩
  · rw [if_neg hmin] at harity
    rcases args with _ | ⟨first, _ | ⟨digits, _ | ⟨third, rest⟩⟩⟩
    · obtain ⟨hmin', hmax⟩ := not_or.mp hmin
      rw [applyFunc.eq_def, if_neg hmin', if_neg hmax] at h
      cases h
    · exact .inr ⟨_, pyBuiltin_one hmin h, rfl⟩
    · split at harity
      · rename_i hround
        subst hround
        exact pyBuiltin_round h
      · cases harity
    · split at harity
      · simp at harity
      · simp at harity


theorem pyCompare_agrees {op : CmpOp} {left right : FuzzValue} {b : Bool}
    (h : compare rt expr op left right = .ok b) :
    pyCompare py op left.embed right.embed = .ok b := by
  cases op with
  | eq | notEq => rw [pyCompare, eq_embed]; exact h
  | lt | ltE | gt | gtE =>
    obtain ⟨lhs, hl, h⟩ := bind_eq_ok.1 h
    obtain ⟨rhs, hr, h⟩ := bind_eq_ok.1 h
    simp only [pyCompare, number?_embed, asNumber_eq_ok.1 hl, asNumber_eq_ok.1 hr]
    exact h
  | other name =>
    obtain ⟨lhs, hl, h⟩ := bind_eq_ok.1 h
    obtain ⟨rhs, hr, h⟩ := bind_eq_ok.1 h
    cases h

end Builtins

/-! ### Evaluations -/

section Agree

variable {rt : Runtime} {py : Beyond} {names : Params} {expr : String}
variable {vs : List FuzzValue} {ws : List PyValue}

mutual

/-- A Boolean expression gives a Boolean. -/
theorem pyEval_isBool (hshadow : ∀ f ∈ evalFuncs, names.get? f = none) (e : PyExpr) {w : PyValue}
    (he : e.isBool = true) (h : pyEval rt py names e = .ok w) : ∃ b, w = .bool b := by
  match e with
  | .constant (.bool b) => exact ⟨b, (Except.ok.inj h).symm⟩
  | .compare left ops comparators =>
    rw [pyEval] at h
    obtain ⟨l, -, h⟩ := bind_eq_ok.1 h
    obtain ⟨b, -, h⟩ := bind_eq_ok.1 h
    exact ⟨b, (Except.ok.inj h).symm⟩
  | .unaryOp .not operand =>
    rw [pyEval] at h
    obtain ⟨v, -, h⟩ := bind_eq_ok.1 h
    exact ⟨_, (Except.ok.inj h).symm⟩
  | .boolOp isAnd values =>
    rw [pyEval] at h
    rw [PyExpr.isBool] at he
    exact pyEvalBool_isBool hshadow isAnd values he h
  | .ifExp test body orelse =>
    rw [PyExpr.isBool, Bool.and_eq_true] at he
    rw [pyEval] at h
    obtain ⟨c, -, h⟩ := bind_eq_ok.1 h
    split at h
    · exact pyEval_isBool hshadow body he.1 h
    · exact pyEval_isBool hshadow orelse he.2 h
  | .call func args keywords =>
    simp only [PyExpr.isBool, Bool.and_eq_true, beq_iff_eq, Bool.not_eq_true'] at he
    obtain ⟨⟨rfl, hargs⟩, rfl⟩ := he
    obtain ⟨arg, rfl⟩ := length_eq_one_iff.mp hargs
    have hmem : "bool" ∈ evalFuncs := by decide
    rw [pyEval, if_pos ⟨hmem, hshadow _ hmem⟩] at h
    obtain ⟨ws, hws, h⟩ := bind_eq_ok.1 h
    rw [pyEvalAll] at hws
    obtain ⟨v, -, hws⟩ := bind_eq_ok.1 hws
    obtain ⟨vs, hvs, hws⟩ := bind_eq_ok.1 hws
    obtain rfl : [] = vs := Except.ok.inj hvs
    obtain rfl : [v] = ws := Except.ok.inj hws
    exact ⟨v.truthy, (Except.ok.inj h).symm⟩

theorem pyEvalBool_isBool (hshadow : ∀ f ∈ evalFuncs, names.get? f = none) (isAnd : Bool)
    (es : List PyExpr) {w : PyValue} (hes : allBool es = true)
    (h : pyEvalBool rt py names isAnd es = .ok w) : ∃ b, w = .bool b := by
  match es with
  | [] => exact ⟨isAnd, (Except.ok.inj h).symm⟩
  | e :: es =>
    rw [allBool, Bool.and_eq_true] at hes
    rw [pyEvalBool] at h
    obtain ⟨v, hv, h⟩ := bind_eq_ok.1 h
    split at h
    · obtain rfl : v = w := Except.ok.inj h
      exact pyEval_isBool hshadow e hes.1 hv
    · split at h
      · exact pyEvalBool_isBool hshadow isAnd es hes.2 h
      · obtain rfl : v = w := Except.ok.inj h
        exact pyEval_isBool hshadow e hes.1 hv

end

theorem forall₂_eq_embedAll (h : Forall₂ (Agrees false) vs ws) : ws = embedAll vs := by
  induction h with
  | nil => rfl
  | cons hhead _ ih => rw [embedAll, hhead.eq_embed rfl, ih]

theorem length_evalAll {es : List PyExpr} (h : evalAll rt names expr (readTrees es) = .ok vs) :
    vs.length = es.length := by
  induction es generalizing vs with
  | nil =>
    obtain rfl : [] = vs := Except.ok.inj h
    rfl
  | cons e es ih =>
    rw [readTrees, evalAll] at h
    obtain ⟨v, -, h⟩ := bind_eq_ok.1 h
    obtain ⟨rest, hrest, h⟩ := bind_eq_ok.1 h
    obtain rfl : v :: rest = vs := Except.ok.inj h
    rw [length_cons, ih hrest, length_cons]

/-- `bool` reads the truth of its argument only. -/
theorem pyBuiltin_bool {args : List FuzzValue} {v : FuzzValue}
    (harity : arityOk (some "bool") args.length = true) (hargs : Forall₂ (Agrees true) args ws)
    (h : applyFunc rt expr "bool" args = .ok v) :
    pyBuiltin rt py "bool" ws = .ok v.embed := by
  match args, ws, hargs, harity with
  | [], _, _, _ => cases h
  | [first], [w], .cons hw .nil, _ =>
    obtain rfl : FuzzValue.bool first.truthy = v := Except.ok.inj h
    rw [FuzzValue.embed, ← hw.truthy_eq]
    rfl
  | first :: second :: rest, _, _, harity => simp [arityOk, evalFuncs] at harity

mutual

/-- **Where `safe_eval` returns, the language's evaluation of the same tree lands on a value of the
same truth**, and on the same value where the expression has its own. -/
theorem evalNode_pyEval (hshadow : ∀ f ∈ evalFuncs, names.get? f = none) (e : PyExpr) (truth : Bool)
    {v : FuzzValue} (hcalls : e.wellCalled = true) (hok : e.asWritten truth = true)
    (h : evalNode rt names expr e.read = .ok v) :
    Lands (Agrees truth v) (pyEval rt py names e) := by
  match e with
  | .constant value =>
    rw [pyEval]
    exact .ok (.of_eq (congrArg FuzzValue.embed (Except.ok.inj h)))
  | .name id =>
    rw [PyExpr.read, evalNode] at h
    rw [pyEval]
    cases hid : names.get? id with
    | none => rw [hid] at h; cases h
    | some w =>
      rw [hid] at h
      exact .ok (.of_eq (congrArg FuzzValue.embed (Except.ok.inj h)))
  | .list elts =>
    rw [PyExpr.wellCalled] at hcalls
    rw [PyExpr.asWritten] at hok
    rw [PyExpr.read, evalNode] at h
    rw [pyEval]
    cases hvs : evalAll rt names expr (readTrees elts) with
    | error err => rw [hvs] at h; cases h
    | ok vs =>
      rw [hvs] at h
      obtain rfl : FuzzValue.seq vs = v := Except.ok.inj h
      refine (evalAll_pyEvalAll hshadow elts false hcalls hok hvs).map fun ws hws => ?_
      exact .of_eq (by rw [forall₂_eq_embedAll hws, FuzzValue.embed])
  | .tuple elts =>
    rw [PyExpr.wellCalled] at hcalls
    rw [PyExpr.asWritten, Bool.and_eq_true] at hok
    rw [PyExpr.read, evalNode] at h
    rw [pyEval]
    cases hvs : evalAll rt names expr (readTrees elts) with
    | error err => rw [hvs] at h; cases h
    | ok vs =>
      rw [hvs] at h
      obtain rfl : FuzzValue.seq vs = v := Except.ok.inj h
      refine (evalAll_pyEvalAll hshadow elts false hcalls hok.2 hvs).map fun ws hws => ?_
      -- a tuple has the truth of the list it is read as
      refine ⟨?_, fun hvalue => absurd hok.1 (by simp [hvalue])⟩
      rw [forall₂_eq_embedAll hws, ← truthy_embed, FuzzValue.embed]
      rfl
  | .binOp op left right =>
    rw [PyExpr.wellCalled, Bool.and_eq_true] at hcalls
    rw [PyExpr.asWritten, Bool.and_eq_true] at hok
    rw [PyExpr.read, evalNode] at h
    obtain ⟨l, hl, h⟩ := bind_eq_ok.1 h
    obtain ⟨r, hr, h⟩ := bind_eq_ok.1 h
    obtain ⟨a, ha, h⟩ := bind_eq_ok.1 h
    obtain ⟨b, hb, h⟩ := bind_eq_ok.1 h
    obtain ⟨n, hn, h⟩ := bind_eq_ok.1 h
    rw [pyEval]
    refine (evalNode_pyEval hshadow left false hcalls.1 hok.1 hl).bind fun wl hwl => ?_
    refine (evalNode_pyEval hshadow right false hcalls.2 hok.2 hr).bind fun wr hwr => ?_
    rw [hwl.eq_embed rfl, hwr.eq_embed rfl, number?_embed, number?_embed, asNumber_eq_ok.1 ha,
      asNumber_eq_ok.1 hb]
    dsimp only
    rw [hn]
    exact .ok (.of_eq (congrArg FuzzValue.embed (Except.ok.inj h)))
  | .unaryOp op operand =>
    rw [PyExpr.wellCalled] at hcalls
    rw [PyExpr.asWritten] at hok
    rw [PyExpr.read, evalNode] at h
    obtain ⟨w, hw, h⟩ := bind_eq_ok.1 h
    rw [pyEval]
    refine (evalNode_pyEval hshadow operand _ hcalls hok hw).bind fun w' hw' => ?_
    cases op with
    | not =>
      obtain rfl : FuzzValue.bool (!w.truthy) = v := Except.ok.inj h
      exact .ok (.of_eq (by rw [hw'.truthy_eq, FuzzValue.embed]))
    | usub =>
      obtain ⟨n, hn, h⟩ := bind_eq_ok.1 h
      rw [hw'.eq_embed rfl, number?_embed, asNumber_eq_ok.1 hn]
      cases n <;> exact .ok (.of_eq (congrArg FuzzValue.embed (Except.ok.inj h)))
    | uadd =>
      obtain ⟨n, hn, h⟩ := bind_eq_ok.1 h
      rw [hw'.eq_embed rfl, number?_embed, asNumber_eq_ok.1 hn]
      exact .ok (.of_eq (congrArg FuzzValue.embed (Except.ok.inj h)))
  | .boolOp isAnd values =>
    rw [PyExpr.wellCalled] at hcalls
    rw [PyExpr.asWritten, Bool.and_eq_true] at hok
    rw [PyExpr.read, evalNode] at h
    rw [pyEval]
    cases hb : evalBool rt names expr isAnd (readTrees values) with
    | error err => rw [hb] at h; cases h
    | ok b =>
      rw [hb] at h
      obtain rfl : FuzzValue.bool b = v := Except.ok.inj h
      obtain hraise | ⟨w, hw, htruthy⟩ := evalBool_pyEvalBool hshadow isAnd values hcalls hok.1 hb
      · exact .inl hraise
      · refine .inr ⟨w, hw, htruthy, fun hvalue => ?_⟩
        -- as a value, the deciding operand is a Boolean
        subst hvalue
        obtain ⟨c, rfl⟩ := pyEvalBool_isBool hshadow isAnd values hok.2 hw
        exact congrArg PyValue.bool htruthy
  | .compare left ops comparators =>
    rw [PyExpr.wellCalled, Bool.and_eq_true] at hcalls
    rw [PyExpr.asWritten, Bool.and_eq_true] at hok
    rw [PyExpr.read, evalNode] at h
    obtain ⟨l, hl, h⟩ := bind_eq_ok.1 h
    obtain ⟨b, hb, h⟩ := bind_eq_ok.1 h
    rw [pyEval]
    refine (evalNode_pyEval hshadow left false hcalls.1 hok.1 hl).bind fun wl hwl => ?_
    rw [hwl.eq_embed rfl]
    refine (evalCompare_pyEvalCompare hshadow comparators hcalls.2 hok.2 hb).bind fun c hc => ?_
    obtain rfl := hc
    exact .ok (.of_eq (congrArg FuzzValue.embed (Except.ok.inj h)))
  | .ifExp test body orelse =>
    rw [PyExpr.wellCalled, Bool.and_eq_true, Bool.and_eq_true] at hcalls
    rw [PyExpr.asWritten, Bool.and_eq_true, Bool.and_eq_true] at hok
    rw [PyExpr.read, evalNode] at h
    obtain ⟨c, hc, h⟩ := bind_eq_ok.1 h
    rw [pyEval]
    refine (evalNode_pyEval hshadow test true hcalls.1 hok.1 hc).bind fun wc hwc => ?_
    rw [hwc.truthy_eq]
    split at h
    next htrue =>
      rw [if_pos htrue]
      exact evalNode_pyEval hshadow body truth hcalls.2.1 hok.2.1 h
    next hfalse =>
      rw [if_neg hfalse]
      exact evalNode_pyEval hshadow orelse truth hcalls.2.2 hok.2.2 h
  | .call func args keywords =>
    rw [PyExpr.wellCalled, Bool.and_eq_true] at hcalls
    rw [PyExpr.asWritten] at hok
    rw [PyExpr.read, evalNode.eq_def] at h
    cases func with
    | none => cases h
    | some name =>
      dsimp only at h
      split at h
      · cases h
      rename_i hname
      rw [not_not] at hname
      split at h
      · cases h
      rename_i hkey
      obtain rfl : keywords = false := by simpa using hkey
      obtain ⟨vs, hvs, h⟩ := bind_eq_ok.1 h
      rw [pyEval, if_pos ⟨hname, hshadow name hname⟩]
      have harity : arityOk (some name) vs.length = true := by
        rw [length_evalAll hvs]
        exact hcalls.1
      refine (evalAll_pyEvalAll hshadow args _ hcalls.2 hok hvs).bind fun ws hws => ?_
      by_cases hbool : name = "bool"
      · subst hbool
        exact .inr ⟨_, pyBuiltin_bool harity hws h, .of_eq rfl⟩
      · have hflag : (some name == some "bool") = false := by simpa using hbool
        rw [hflag] at hws
        rw [forall₂_eq_embedAll hws]
        exact (pyBuiltin_agrees hname harity h).mono fun w hw => .of_eq hw
  | .otherConstant text => cases h
  | .other dump => cases h

theorem evalAll_pyEvalAll (hshadow : ∀ f ∈ evalFuncs, names.get? f = none) (es : List PyExpr)
    (truth : Bool) {vs : List FuzzValue} (hcalls : allWellCalled es = true)
    (hok : allAsWritten truth es = true) (h : evalAll rt names expr (readTrees es) = .ok vs) :
    Lands (Forall₂ (Agrees truth) vs) (pyEvalAll rt py names es) := by
  match es with
  | [] =>
    obtain rfl : [] = vs := Except.ok.inj h
    exact .ok .nil
  | e :: es =>
    rw [allWellCalled, Bool.and_eq_true] at hcalls
    rw [allAsWritten, Bool.and_eq_true] at hok
    rw [readTrees, evalAll] at h
    obtain ⟨v, hv, h⟩ := bind_eq_ok.1 h
    obtain ⟨rest, hrest, h⟩ := bind_eq_ok.1 h
    obtain rfl : v :: rest = vs := Except.ok.inj h
    rw [pyEvalAll]
    refine (evalNode_pyEval hshadow e truth hcalls.1 hok.1 hv).bind fun w hw => ?_
    refine (evalAll_pyEvalAll hshadow es truth hcalls.2 hok.2 hrest).bind fun ws hws => ?_
    exact .ok (.cons hw hws)

theorem evalBool_pyEvalBool (hshadow : ∀ f ∈ evalFuncs, names.get? f = none) (isAnd : Bool)
    (es : List PyExpr) {b : Bool} (hcalls : allWellCalled es = true)
    (hok : allAsWritten true es = true)
    (h : evalBool rt names expr isAnd (readTrees es) = .ok b) :
    Lands (fun w => w.truthy = b) (pyEvalBool rt py names isAnd es) := by
  match es with
  | [] =>
    obtain rfl : isAnd = b := Except.ok.inj h
    exact .ok rfl
  | e :: es =>
    rw [allWellCalled, Bool.and_eq_true] at hcalls
    rw [allAsWritten, Bool.and_eq_true] at hok
    rw [readTrees, evalBool] at h
    obtain ⟨v, hv, h⟩ := bind_eq_ok.1 h
    rw [pyEvalBool]
    refine (evalNode_pyEval hshadow e true hcalls.1 hok.1 hv).bind fun w hw => ?_
    rw [hw.truthy_eq]
    split at h
    next hgo =>
      cases es with
      | nil =>
        -- the last operand decides, and is not looked at again
        obtain rfl : isAnd = b := Except.ok.inj h
        exact .ok (hw.truthy_eq.trans hgo)
      | cons e' es' =>
        rw [if_neg (by simp), if_pos hgo]
        exact evalBool_pyEvalBool hshadow isAnd (e' :: es') hcalls.2 hok.2 h
    next hstop =>
      obtain rfl : (!isAnd) = b := Except.ok.inj h
      have hdecides : w.truthy = !isAnd := by
        rw [hw.truthy_eq]
        cases hv : v.truthy <;> cases isAnd <;> simp_all
      split
      · exact .ok hdecides
      · exact .ok hdecides

theorem evalCompare_pyEvalCompare (hshadow : ∀ f ∈ evalFuncs, names.get? f = none)
    (es : List PyExpr) {left : FuzzValue} {ops : List CmpOp} {b : Bool}
    (hcalls : allWellCalled es = true) (hok : allAsWritten false es = true)
    (h : evalCompare rt names expr left ops (readTrees es) = .ok b) :
    Lands (· = b) (pyEvalCompare rt py names left.embed ops es) := by
  match es with
  | [] =>
    obtain rfl : true = b := Except.ok.inj h
    exact .ok rfl
  | e :: es =>
    rw [allWellCalled, Bool.and_eq_true] at hcalls
    rw [allAsWritten, Bool.and_eq_true] at hok
    rw [readTrees] at h
    match ops with
    | [] =>
      obtain rfl : true = b := Except.ok.inj h
      exact .ok rfl
    | op :: ops =>
      rw [evalCompare] at h
      cases hop : op.other? with
      | some name => rw [hop] at h; cases h
      | none =>
        rw [hop] at h
        obtain ⟨right, hright, h⟩ := bind_eq_ok.1 h
        obtain ⟨c, hc, h⟩ := bind_eq_ok.1 h
        rw [pyEvalCompare]
        refine (evalNode_pyEval hshadow e false hcalls.1 hok.1 hright).bind fun w hw => ?_
        rw [hw.eq_embed rfl, pyCompare_agrees hc]
        cases c with
        | true => exact evalCompare_pyEvalCompare hshadow es hcalls.2 hok.2 h
        | false => exact .ok (Except.ok.inj h)

end

end Agree

/-! ### The expression `safe_eval` reads -/

mutual

theorem asWritten_mono (e : PyExpr) (h : e.asWritten false = true) : e.asWritten true = true := by
  match e with
  | .constant _ | .name _ | .otherConstant _ | .other _ => rfl
  | .list elts | .binOp _ l r | .unaryOp _ o | .compare l _ cs | .call _ args _ =>
    rw [PyExpr.asWritten] at h ⊢
    exact h
  | .tuple elts => rw [PyExpr.asWritten] at h; cases h
  | .boolOp isAnd values =>
    rw [PyExpr.asWritten, Bool.and_eq_true] at h ⊢
    exact ⟨h.1, rfl⟩
  | .ifExp test body orelse =>
    rw [PyExpr.asWritten, Bool.and_eq_true, Bool.and_eq_true] at h ⊢
    exact ⟨h.1, asWritten_mono body h.2.1, asWritten_mono orelse h.2.2⟩

theorem allAsWritten_mono (es : List PyExpr) (h : allAsWritten false es = true) :
    allAsWritten true es = true := by
  match es with
  | [] => rfl
  | e :: es =>
    rw [allAsWritten, Bool.and_eq_true] at h ⊢
    exact ⟨asWritten_mono e h.1, allAsWritten_mono es h.2⟩

end

theorem asWritten_of_false {e : PyExpr} (h : e.asWritten false = true) (truth : Bool) :
    e.asWritten truth = true := by
  cases truth with
  | false => exact h
  | true => exact asWritten_mono e h

theorem allAsWritten_of_false {es : List PyExpr} (h : allAsWritten false es = true) (truth : Bool) :
    allAsWritten truth es = true := by
  cases truth with
  | false => exact h
  | true => exact allAsWritten_mono es h

mutual

/-- Spelled out, every expression has its own value in `safe_eval`. -/
theorem asWritten_spelled (e : PyExpr) : e.spelled.asWritten false = true := by
  match e with
  | .constant _ | .name _ | .otherConstant _ | .other _ => rfl
  | .list elts | .tuple elts =>
    rw [PyExpr.spelled, PyExpr.asWritten]
    exact allAsWritten_spelled elts
  | .binOp _ left right =>
    rw [PyExpr.spelled, PyExpr.asWritten, asWritten_spelled left, asWritten_spelled right]
    rfl
  | .unaryOp _ operand =>
    rw [PyExpr.spelled, PyExpr.asWritten]
    exact asWritten_of_false (asWritten_spelled operand) _
  | .boolOp isAnd values =>
    rw [PyExpr.spelled, PyExpr.asWritten, allAsWritten, PyExpr.asWritten,
      allAsWritten_of_false (allAsWritten_spelled values)]
    rfl
  | .compare left _ comparators =>
    rw [PyExpr.spelled, PyExpr.asWritten, asWritten_spelled left,
      allAsWritten_spelled comparators]
    rfl
  | .ifExp test body orelse =>
    rw [PyExpr.spelled, PyExpr.asWritten, asWritten_mono _ (asWritten_spelled test),
      asWritten_spelled body, asWritten_spelled orelse]
    rfl
  | .call _ args _ =>
    rw [PyExpr.spelled, PyExpr.asWritten]
    exact allAsWritten_of_false (allAsWritten_spelled args) _

theorem allAsWritten_spelled (es : List PyExpr) : allAsWritten false (allSpelled es) = true := by
  match es with
  | [] => rfl
  | e :: es => rw [allSpelled, allAsWritten, asWritten_spelled e, allAsWritten_spelled es]; rfl

end

theorem length_allSpelled (es : List PyExpr) : (allSpelled es).length = es.length := by
  induction es with
  | nil => rfl
  | cons e es ih => rw [allSpelled, length_cons, ih, length_cons]

mutual

theorem wellCalled_spelled (e : PyExpr) : e.spelled.wellCalled = e.wellCalled := by
  match e with
  | .constant _ | .name _ | .otherConstant _ | .other _ => rfl
  | .list elts | .tuple elts =>
    rw [PyExpr.spelled, PyExpr.wellCalled, PyExpr.wellCalled, allWellCalled_spelled elts]
  | .binOp _ left right =>
    rw [PyExpr.spelled, PyExpr.wellCalled, PyExpr.wellCalled, wellCalled_spelled left,
      wellCalled_spelled right]
  | .unaryOp _ operand =>
    rw [PyExpr.spelled, PyExpr.wellCalled, PyExpr.wellCalled, wellCalled_spelled operand]
  | .boolOp isAnd values =>
    rw [PyExpr.spelled, PyExpr.wellCalled, PyExpr.wellCalled, allWellCalled, PyExpr.wellCalled,
      allWellCalled_spelled values, allWellCalled, Bool.and_true]
    rfl
  | .compare left _ comparators =>
    rw [PyExpr.spelled, PyExpr.wellCalled, PyExpr.wellCalled, wellCalled_spelled left,
      allWellCalled_spelled comparators]
  | .ifExp test body orelse =>
    rw [PyExpr.spelled, PyExpr.wellCalled, PyExpr.wellCalled, wellCalled_spelled test,
      wellCalled_spelled body, wellCalled_spelled orelse]
  | .call _ args _ =>
    rw [PyExpr.spelled, PyExpr.wellCalled, PyExpr.wellCalled, length_allSpelled,
      allWellCalled_spelled args]

theorem allWellCalled_spelled (es : List PyExpr) :
    allWellCalled (allSpelled es) = allWellCalled es := by
  match es with
  | [] => rfl
  | e :: es =>
    rw [allSpelled, allWellCalled, allWellCalled, wellCalled_spelled e, allWellCalled_spelled es]

end

section Spelled

variable {rt : Runtime} {names : Params} {expr : String}

mutual

/-- `safe_eval` gives an expression and its spelling one value. -/
theorem evalNode_spelled (e : PyExpr) :
    evalNode rt names expr e.spelled.read = evalNode rt names expr e.read := by
  match e with
  | .constant _ | .name _ | .otherConstant _ | .other _ => rfl
  | .list elts | .tuple elts =>
    rw [PyExpr.spelled, PyExpr.read, PyExpr.read, evalNode, evalNode, evalAll_spelled elts]
  | .binOp op left right =>
    rw [PyExpr.spelled, PyExpr.read, PyExpr.read, evalNode, evalNode, evalNode_spelled left,
      evalNode_spelled right]
  | .unaryOp op operand =>
    rw [PyExpr.spelled, PyExpr.read, PyExpr.read, evalNode, evalNode, evalNode_spelled operand]
  | .boolOp isAnd values =>
    have hmem : ¬("bool" ∉ evalFuncs) := by decide
    simp only [PyExpr.spelled, PyExpr.read, readTrees, evalNode, evalAll, if_neg hmem]
    rw [evalBool_spelled isAnd values]
    cases evalBool rt names expr isAnd (readTrees values) <;> rfl
  | .compare left ops comparators =>
    rw [PyExpr.spelled, PyExpr.read, PyExpr.read, evalNode, evalNode, evalNode_spelled left]
    congr 1
    funext l
    rw [evalCompare_spelled comparators]
  | .ifExp test body orelse =>
    rw [PyExpr.spelled, PyExpr.read, PyExpr.read, evalNode, evalNode, evalNode_spelled test,
      evalNode_spelled body, evalNode_spelled orelse]
  | .call none args keywords => rfl
  | .call (some name) args keywords =>
    rw [PyExpr.spelled, PyExpr.read, PyExpr.read, evalNode, evalNode, evalAll_spelled args]

theorem evalAll_spelled (es : List PyExpr) :
    evalAll rt names expr (readTrees (allSpelled es)) =
      evalAll rt names expr (readTrees es) := by
  match es with
  | [] => rfl
  | e :: es =>
    rw [allSpelled, readTrees, readTrees, evalAll, evalAll, evalNode_spelled e,
      evalAll_spelled es]

theorem evalBool_spelled (isAnd : Bool) (es : List PyExpr) :
    evalBool rt names expr isAnd (readTrees (allSpelled es)) =
      evalBool rt names expr isAnd (readTrees es) := by
  match es with
  | [] => rfl
  | e :: es =>
    rw [allSpelled, readTrees, readTrees, evalBool, evalBool, evalNode_spelled e,
      evalBool_spelled isAnd es]

theorem evalCompare_spelled (es : List PyExpr) {left : FuzzValue} {ops : List CmpOp} :
    evalCompare rt names expr left ops (readTrees (allSpelled es)) =
      evalCompare rt names expr left ops (readTrees es) := by
  match es with
  | [] => rfl
  | e :: es =>
    rw [allSpelled, readTrees, readTrees]
    match ops with
    | [] => rfl
    | op :: ops =>
      rw [evalCompare, evalCompare, evalNode_spelled e]
      cases op.other? with
      | some name => rfl
      | none =>
        dsimp only
        congr 1
        funext right
        rw [evalCompare_spelled es]

end

end Spelled

/-! ### The text of an expression -/

/-- A runtime that reads the trees of the language's parser. -/
def Runtime.reading (rt : Runtime) (parse : String → Except Err PyExpr) : Runtime :=
  { rt with parse := fun expr => (parse expr).map PyExpr.read }

/-- **`safe_eval` is the language's evaluation of the expression it reads.**  Where the names are
no builtins and every listed builtin is called with arguments it takes, a value of `safe_eval` is
the language's value of the expression with `and` and `or` under `bool` and tuples as lists, and of
the expression itself where these make no difference by its form; or the language refuses the
double digits of a `round`. -/
theorem safeEval_agrees (rt : Runtime) (py : Beyond) (parse : String → Except Err PyExpr)
    (names : Params) (expr : String) {v : FuzzValue}
    (hshadow : ∀ f ∈ evalFuncs, names.get? f = none)
    (hcalls : ∀ e, parse expr = .ok e → e.wellCalled = true)
    (h : safeEval (rt.reading parse) names expr = .ok v) :
    ∃ e, parse expr = .ok e ∧
      Lands (· = v.embed) (pyEval (rt.reading parse) py names e.spelled) ∧
      (e.asWritten false = true →
        Lands (· = v.embed) (pyEval (rt.reading parse) py names e)) := by
  obtain ⟨tree, htree, h⟩ := bind_eq_ok.1 h
  cases he : parse expr with
  | error err =>
    simp only [Runtime.reading, he, Except.map] at htree
    cases htree
  | ok e =>
    obtain rfl : e.read = tree := by
      simpa only [Runtime.reading, he, Except.map, Except.ok.injEq] using htree
    have hcall := hcalls e he
    refine ⟨e, rfl, ?_, fun hown => ?_⟩
    · exact (evalNode_pyEval hshadow e.spelled false ((wellCalled_spelled e).trans hcall)
        (asWritten_spelled e) ((evalNode_spelled e).trans h)).mono fun w hw => hw.eq_embed rfl
    · exact (evalNode_pyEval hshadow e false hcall hown h).mono fun w hw => hw.eq_embed rfl

/-- The parser of one expression, `(N and 5) * 2`. -/
def guardedParse (_ : String) : Except Err PyExpr :=
  .ok (.binOp .mult (.boolOp true [.name "N", .constant (.int 5)]) (.constant (.int 2)))

/-- A language that refuses all that lies outside the grammar. -/
def strictBeyond : Beyond where
  name id := .error (.nameError id)
  node _ := .error .syntaxError
  arith _ _ _ := .error .syntaxError
  sign _ _ := .error .syntaxError
  order _ _ _ := .error .syntaxError
  call _ _ := .error .syntaxError
  builtin _ _ := .error .syntaxError

theorem nodup_oneSize (n : ℤ) : ([("N", FuzzValue.int n)].map (·.1)).Nodup := by simp

/-- One size `N`. -/
def oneSize (n : ℤ) : Params := ⟨[("N", .int n)], nodup_oneSize n⟩

theorem oneSize_number {n : ℤ} {id : String} (h : (oneSize n).get? id = some v) : v = .int n := by
  simp only [oneSize, Dict.get?, lookup_cons, lookup_nil] at h
  split at h
  · exact (Option.some.inj h).symm
  · cases h

theorem safeEval_guarded :
    safeEval (doublingRuntime.reading guardedParse) (oneSize 3) "(N and 5) * 2" = .ok (.int 2) :=
  rfl

theorem safeEval_agrees_guarded :
    ∃ e, guardedParse "(N and 5) * 2" = .ok e ∧
      Lands (· = (FuzzValue.int 2).embed)
        (pyEval (doublingRuntime.reading guardedParse) strictBeyond (oneSize 3) e.spelled) ∧
      (e.asWritten false = true →
        Lands (· = (FuzzValue.int 2).embed)
          (pyEval (doublingRuntime.reading guardedParse) strictBeyond (oneSize 3) e)) :=
  safeEval_agrees doublingRuntime strictBeyond guardedParse (oneSize 3) "(N and 5) * 2"
    (by decide) (fun e he => by obtain rfl := Except.ok.inj he; decide) safeEval_guarded

theorem safeEval_operand :
    ¬∀ (rt : Runtime) (py : Beyond) (parse : String → Except Err PyExpr) (names : Params)
      (expr : String) (v : FuzzValue),
      (∀ id w, names.get? id = some w → w.number?.isSome) →
      safeEval (rt.reading parse) names expr = .ok v →
      ∃ e w, parse expr = .ok e ∧ pyEval (rt.reading parse) py names e = .ok w ∧
        w.eq v.embed = true := by
  intro h
  obtain ⟨e, w, he, hw, heq⟩ := h doublingRuntime strictBeyond guardedParse (oneSize 3)
    "(N and 5) * 2" (.int 2) (fun id w hid => by rw [oneSize_number hid]; rfl) safeEval_guarded
  obtain rfl := Except.ok.inj he
  -- the language multiplies the operand 5
  obtain rfl : PyValue.num (.int 10) = w := Except.ok.inj hw
  revert heq
  decide

end Fuzz

end HpcAgentBench
