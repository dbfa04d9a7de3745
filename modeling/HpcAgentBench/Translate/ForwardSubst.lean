import HpcAgentBench.Translate.NarrowInt
import HpcAgentBench.Translate.Parallelism

/-!
# Forward substitution

The pass that replays the expression of a scalar at its reads: a scalar that is assigned once, in a
loop, and read deeper than it is assigned.  Each round deletes one assignment and replays its value
wherever the name was read (`Block.replay`), until no name qualifies.

The body of the function is a `Block`; the counts of a search (`Census`) are kept over the rounds.
-/

namespace HpcAgentBench

namespace Translate

/-! ### What may be replayed -/

/-- Callees that give the same value wherever they are replayed. -/
def fwdSubstPureCalls : List String :=
  ["sin", "cos", "tan", "tanh", "asin", "acos", "atan", "atan2", "sinh", "cosh", "asinh", "acosh",
    "atanh", "hypot", "exp", "exp2", "expm1", "log", "log2", "log10", "log1p", "sqrt", "cbrt", "pow",
    "fabs", "floor", "ceil", "round", "rint", "trunc", "fmod", "fmax", "fmin", "copysign", "erf",
    "erfc", "tgamma", "lgamma", "bessel_j0", "bessel_j1", "bessel_y0", "bessel_y1", "__npb_sign",
    "min", "max", "abs", "int", "float", "int_floor", "python_mod"]

/-- The most subscripts a replayed expression may hold. -/
def fwdSubstMaxSubscripts : ℕ := 3

/-- The most nodes a replayed expression may hold. -/
def fwdSubstMaxNodes : ℕ := 20

namespace Expr

/-- Whether an expression gives the same value wherever it is replayed. -/
def fwdSubstIsPure : Expr → Bool
  | const _ => true
  | name _ => true
  | attr _ _ => false
  | unaryOp _ operand => operand.fwdSubstIsPure
  | binOp _ left right => left.fwdSubstIsPure && right.fwdSubstIsPure
  | boolOp _ left right => left.fwdSubstIsPure && right.fwdSubstIsPure
  | ifExp test body orelse =>
    test.fwdSubstIsPure && body.fwdSubstIsPure && orelse.fwdSubstIsPure
  | call func args => func.id?.any (· ∈ fwdSubstPureCalls) && args.fwdSubstIsPure
  | subscript value index => value.fwdSubstIsPure && index.fwdSubstIsPure
  | slice _ _ _ => false
  | unit => true
  | pair head tail => head.fwdSubstIsPure && tail.fwdSubstIsPure

/-- The expression nodes of an expression; a tuple is one node and its elements, and the
arguments of a call (`spine`) are not a node of their own. -/
def nodeCount (spine : Bool) : Expr → ℕ
  | const _ => 1
  | name _ => 1
  | attr value _ => 1 + value.nodeCount false
  | unaryOp _ operand => 1 + operand.nodeCount false
  | binOp _ left right => 1 + left.nodeCount false + right.nodeCount false
  | boolOp _ left right => 1 + left.nodeCount false + right.nodeCount false
  | ifExp test body orelse =>
    1 + test.nodeCount false + body.nodeCount false + orelse.nodeCount false
  | call func args => 1 + func.nodeCount false + args.nodeCount true
  | subscript value index => 1 + value.nodeCount false + index.nodeCount false
  | slice lower upper step =>
    1 + lower.nodeCount false + upper.nodeCount false + step.nodeCount false
  | unit => if spine then 0 else 1
  | pair head tail => (if spine then 0 else 1) + head.nodeCount false + tail.nodeCount true

/-- The subscripts of an expression, each by what it is of. -/
def subscriptValues (e : Expr) : List Expr :=
  e.walkNodes.filterMap fun
    | subscript value _ => some value
    | _ => none

end Expr

/-! ### Replaying -/

section Replay

variable (name_ : String) (expr_ : Expr)

/-- An expression with another one for every read of a name. -/
def Expr.replay : Expr → Expr
  | .const value => .const value
  | .name id => if id = name_ then expr_ else .name id
  | .attr value a => .attr (replay value) a
  | .unaryOp op operand => .unaryOp op (replay operand)
  | .binOp op left right => .binOp op (replay left) (replay right)
  | .boolOp conj left right => .boolOp conj (replay left) (replay right)
  | .ifExp test body orelse => .ifExp (replay test) (replay body) (replay orelse)
  | .call func args => .call (replay func) (replay args)
  | .subscript value index => .subscript (replay value) (replay index)
  | .slice lower upper step => .slice (replay lower) (replay upper) (replay step)
  | .unit => .unit
  | .pair head tail => .pair (replay head) (replay tail)

/-- The reads of a target replayed; the name it binds is no read. -/
def Target.replay : Target → Target
  | .name id => .name id
  | .subscript value index =>
    .subscript (Expr.replay name_ expr_ value) (Expr.replay name_ expr_ index)

/-- One round: the assignment deleted and its value replayed at the reads of the name. -/
def Block.replay : Block → Block
  | .done => .done
  | .assign targets value rest =>
    if targets = [.name name_] ∧ value = expr_ then replay rest
    else .assign (targets.map (Target.replay name_ expr_)) (Expr.replay name_ expr_ value)
      (replay rest)
  | .augAssign target op value rest =>
    .augAssign (Target.replay name_ expr_ target) op (Expr.replay name_ expr_ value) (replay rest)
  | .expr value rest => .expr (Expr.replay name_ expr_ value) (replay rest)
  | .ifElse test body orelse rest =>
    .ifElse (Expr.replay name_ expr_ test) (replay body) (replay orelse) (replay rest)
  | .forRange target args body rest =>
    .forRange target (Expr.replay name_ expr_ args) (replay body) (replay rest)
  | .whileDo test body rest => .whileDo (Expr.replay name_ expr_ test) (replay body) (replay rest)
  | .brk rest => .brk (replay rest)

end Replay

/-! ### The search -/

namespace Block

/-- Every expression read, with the loops it is in; the header of a loop is outside its body. -/
def stmtExprsByDepth : Block → ℕ → List (Expr × ℕ)
  | done, _ => []
  | assign targets value rest, depth =>
    (targets.flatMap Target.reads ++ [value]).map (·, depth) ++ rest.stmtExprsByDepth depth
  | augAssign target _ value rest, depth =>
    (target.reads ++ [value]).map (·, depth) ++ rest.stmtExprsByDepth depth
  | expr value rest, depth => (value, depth) :: rest.stmtExprsByDepth depth
  | ifElse test body orelse rest, depth =>
    (test, depth) :: (body.stmtExprsByDepth depth ++ orelse.stmtExprsByDepth depth ++
      rest.stmtExprsByDepth depth)
  | forRange _ args body rest, depth =>
    (.call (.name "range") args, depth) ::
      (body.stmtExprsByDepth (depth + 1) ++ rest.stmtExprsByDepth depth)
  | whileDo test body rest, depth =>
    (test, depth) :: (body.stmtExprsByDepth (depth + 1) ++ rest.stmtExprsByDepth depth)
  | brk rest, depth => rest.stmtExprsByDepth depth

/-- The targets of the assignments of a block, the augmented ones included. -/
def storeTargets (b : Block) : List Target :=
  b.walkNodes.flatMap fun
    | .assign targets _ => targets
    | .augAssign target _ _ => [target]
    | _ => []

/-- Whether a name is read anywhere in a list of statements; an augmented assignment reads its
target. -/
def readIn (name : String) (b : Block) : Bool :=
  b.walkNodes.any fun
    | .load (.name id) => id = name
    | .augAssign (.name id) _ _ => id = name
    | _ => false

/-- The statements before an assignment whose reads of its name see it when the loop's body runs
again: up to the first that rebinds the name, whose value is still read before. -/
def liveOnLoopReentry (name : String) : Block → Block
  | done => done
  | assign targets value rest =>
    if name ∈ targets.filterMap Target.id? then expr value done
    else assign targets value (rest.liveOnLoopReentry name)
  | augAssign target op value rest => augAssign target op value (rest.liveOnLoopReentry name)
  | expr value rest => expr value (rest.liveOnLoopReentry name)
  | ifElse test body orelse rest => ifElse test body orelse (rest.liveOnLoopReentry name)
  | forRange target args body rest => forRange target args body (rest.liveOnLoopReentry name)
  | whileDo test body rest => whileDo test body (rest.liveOnLoopReentry name)
  | brk rest => brk (rest.liveOnLoopReentry name)

/-- The assignments of a block. -/
def assignCount (b : Block) : ℕ :=
  b.walkNodes.countP fun
    | .assign _ _ => true
    | _ => false

end Block

/-- What a search knows of a body. -/
structure Census where
  /-- How often each name is bound. -/
  storeCounts : String → ℕ
  /-- The variables of the loops. -/
  forTargets : List String
  /-- The names bound or stored into. -/
  written : List String
  /-- The names stored into. -/
  storedInto : List String
  /-- The deepest loop each name is read in. -/
  deepest : String → Option ℕ

/-- The census of a body. -/
def census (fn : Block) : Census where
  storeCounts name := fn.bareStoreNames.count name
  forTargets := fn.iterators
  written := fn.bareStoreNames ++ fn.storeTargets.filterMap fun t => baseName t.toExpr
  storedInto := fn.storeTargets.filterMap fun t => if t.id?.isSome then none else baseName t.toExpr
  deepest name :=
    (((fn.stmtExprsByDepth 0).filter fun p => name ∈ loadNames p.1).map Prod.snd).max?

namespace Census

section Search

variable (c : Census) (arrayNames params : List String)

/-- The census after the single assignment of a name is deleted and its value replayed. -/
def replayed (name : String) (expr : Expr) : Census where
  storeCounts x := if x = name then 0 else c.storeCounts x
  forTargets := c.forTargets
  written := if name ∈ c.storedInto then c.written else c.written.filter (· ≠ name)
  storedInto := c.storedInto
  deepest x :=
    let before := if x = name then none else c.deepest x
    if x ∈ loadNames expr then some (max ((c.deepest name).getD 0) (before.getD 0)) else before

/-- Every name an expression reads is a variable of a loop around, never bound, or bound once and
not as the variable of a loop. -/
def operandsStable (expr : Expr) (loopVars : List String) : Bool :=
  (loadNames expr).all fun id =>
    c.storeCounts id = 0 || id ∈ loopVars || (c.storeCounts id = 1 && id ∉ c.forTargets)

/-- Whether a name may be replayed: a scalar, in a loop, bound once, read deeper than it is bound,
its value small, pure and of stable operands. -/
def qualifies (name : String) (expr : Expr) (depth : ℕ)
    (loopVars : List String) : Bool :=
  0 < depth && name ∉ arrayNames && name ∉ params && name ∉ c.forTargets &&
    c.storeCounts name = 1 && (c.deepest name).any (depth < ·) &&
    expr.subscriptValues.length ≤ fwdSubstMaxSubscripts &&
    expr.nodeCount false ≤ fwdSubstMaxNodes && expr.fwdSubstIsPure &&
    (expr.subscriptValues.all fun value => (baseName value).any (· ∉ c.written)) &&
    c.operandsStable expr loopVars

/-- An assignment that qualifies, its name dead in every list that runs after it: the lists behind
it (`after`), and those before it in the loops around (`reentry`) and in its own. -/
def tryCandidate (name : String) (value : Expr) (depth : ℕ) (after reentry : List Block)
    (before : Block) (loopVars : List String) : Option (String × Expr) :=
  let outside := after ++ reentry.map (·.liveOnLoopReentry name) ++
    if 0 < depth then [before.liveOnLoopReentry name] else []
  if c.qualifies arrayNames params name value depth loopVars && !outside.any (·.readIn name) then
    some (name, value)
  else none

/-- The first candidate of a list of statements, after the statements `before`. -/
def scan (depth : ℕ) (after reentry : List Block) (loopVars : List String) (before : Block) :
    Block → Option (String × Expr)
  | .done => none
  | .assign targets value rest =>
    (match targets with
      | [.name name] => tryCandidate c arrayNames params name value depth after reentry before loopVars
      | _ => none) <|>
    scan depth after reentry loopVars (before.append (.assign targets value .done)) rest
  | .augAssign target op value rest =>
    scan depth after reentry loopVars (before.append (.augAssign target op value .done)) rest
  | .expr value rest =>
    scan depth after reentry loopVars (before.append (.expr value .done)) rest
  | .ifElse test body orelse rest =>
    let inner := if 0 < depth then reentry ++ [before] else reentry
    scan depth (orelse :: rest :: after) inner loopVars .done body <|>
    scan depth (body :: rest :: after) inner loopVars .done orelse <|>
    scan depth after reentry loopVars (before.append (.ifElse test body orelse .done)) rest
  | .forRange target args body rest =>
    let inner := if 0 < depth then reentry ++ [before] else reentry
    scan (depth + 1) (rest :: after) inner (loopVars ++ [target]) .done body <|>
    scan depth after reentry loopVars (before.append (.forRange target args body .done)) rest
  | .whileDo test body rest =>
    let inner := if 0 < depth then reentry ++ [before] else reentry
    scan (depth + 1) (rest :: after) inner loopVars .done body <|>
    scan depth after reentry loopVars (before.append (.whileDo test body .done)) rest
  | .brk rest => scan depth after reentry loopVars (before.append (.brk .done)) rest

end Search

end Census

/-! ### The rounds -/

section Rounds

variable (arrayNames params : List String)

/-- The first candidate of a body. -/
def nextCandidate (c : Census) (fn : Block) : Option (String × Expr) :=
  c.scan arrayNames params 0 [] [] [] .done fn

/-- At most so many rounds: what is replayed, in order, and the body they leave. -/
def rounds : ℕ → Census → Block → List (String × Expr) × Block
  | 0, _, fn => ([], fn)
  | n + 1, c, fn =>
    match nextCandidate arrayNames params c fn with
    | none => ([], fn)
    | some (name, expr) =>
      let later := rounds n (c.replayed name expr) (fn.replay name expr)
      ((name, expr) :: later.1, later.2)

/-- The pass: one assignment leaves each round. -/
def forwardSubstitute (fn : Block) : List (String × Expr) × Block :=
  rounds arrayNames params fn.assignCount (census fn) fn

end Rounds

end Translate

end HpcAgentBench
