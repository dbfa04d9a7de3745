import Mathlib.Algebra.Order.Ring.Rat
import Mathlib.Data.List.Basic

/-!
# Kernel bodies

The syntax of a kernel's body: the Python statements the emitters take.  A block is its first
statement and the rest of the block; a tuple is its first element and the rest of the tuple.

Comparisons are binary operations; a part of a slice that is left out is the literal `None`.
-/

namespace HpcAgentBench

namespace Translate

/-- A literal. -/
inductive Literal
  | none
  | int (n : ℤ)
  | float (x : ℚ)
  deriving DecidableEq

/-- A binary operator. -/
inductive Operator
  | add | sub | mult | floorDiv
  | other (symbol : String)
  deriving DecidableEq, Repr

/-- An expression that is read. -/
inductive Expr
  | const (value : Literal)
  | name (id : String)
  | attr (value : Expr) (attr : String)
  | unaryOp (op : String) (operand : Expr)
  | binOp (op : Operator) (left right : Expr)
  /-- `and` or `or`. -/
  | boolOp (conj : Bool) (left right : Expr)
  | ifExp (test body orelse : Expr)
  /-- A call; the arguments are a tuple. -/
  | call (func args : Expr)
  | subscript (value slice : Expr)
  | slice (lower upper step : Expr)
  | unit
  | pair (head tail : Expr)
  deriving DecidableEq

/-- What is stored to. -/
inductive Target
  | name (id : String)
  | subscript (value slice : Expr)
  deriving DecidableEq

/-- A list of statements. -/
inductive Block
  | done
  | assign (targets : List Target) (value : Expr) (rest : Block)
  | augAssign (target : Target) (op : Operator) (value : Expr) (rest : Block)
  | expr (value : Expr) (rest : Block)
  | ifElse (test : Expr) (body orelse rest : Block)
  /-- `for target in range(*args)`. -/
  | forRange (target : String) (args : Expr) (body rest : Block)
  | whileDo (test : Expr) (body rest : Block)
  | brk (rest : Block)
  deriving DecidableEq

/-- A loop `for target in range(*args)`. -/
structure Loop where
  target : String
  args : Expr
  body : Block

namespace Expr

/-- The elements of a tuple; of anything else, itself. -/
def elts : Expr → List Expr
  | unit => []
  | pair head tail => head :: tail.elts
  | e => [e]

/-- Whether an expression is a tuple. -/
def isTuple : Expr → Bool
  | unit => true
  | pair _ tail => tail.isTuple
  | _ => false

/-- Every node of an expression. -/
def walkNodes : Expr → List Expr
  | const value => [const value]
  | name id => [name id]
  | attr value a => attr value a :: value.walkNodes
  | unaryOp op operand => unaryOp op operand :: operand.walkNodes
  | binOp op left right => binOp op left right :: (left.walkNodes ++ right.walkNodes)
  | boolOp conj left right => boolOp conj left right :: (left.walkNodes ++ right.walkNodes)
  | ifExp test body orelse =>
    ifExp test body orelse :: (test.walkNodes ++ body.walkNodes ++ orelse.walkNodes)
  | call func args => call func args :: (func.walkNodes ++ args.walkNodes)
  | subscript value index => subscript value index :: (value.walkNodes ++ index.walkNodes)
  | slice lower upper step =>
    slice lower upper step :: (lower.walkNodes ++ upper.walkNodes ++ step.walkNodes)
  | unit => [unit]
  | pair head tail => pair head tail :: (head.walkNodes ++ tail.walkNodes)

/-- The name of a bare name. -/
def id? : Expr → Option String
  | name id => some id
  | _ => none

end Expr

namespace Target

/-- The target as it is read. -/
def toExpr : Target → Expr
  | name id => .name id
  | subscript value index => .subscript value index

/-- The name a bare target binds. -/
def id? : Target → Option String
  | name id => some id
  | subscript .. => none

/-- The expressions read to find the place stored to. -/
def reads : Target → List Expr
  | name _ => []
  | subscript value index => [value, index]

end Target

namespace Block

/-- One list of statements after another. -/
def append : Block → Block → Block
  | done, b => b
  | assign targets value rest, b => assign targets value (rest.append b)
  | augAssign target op value rest, b => augAssign target op value (rest.append b)
  | expr value rest, b => expr value (rest.append b)
  | ifElse test body orelse rest, b => ifElse test body orelse (rest.append b)
  | forRange target args body rest, b => forRange target args body (rest.append b)
  | whileDo test body rest, b => whileDo test body (rest.append b)
  | brk rest, b => brk (rest.append b)

/-- A statement or an expression of a block. -/
inductive Node
  | assign (targets : List Target) (value : Expr)
  | augAssign (target : Target) (op : Operator) (value : Expr)
  /-- The variable of a loop. -/
  | iterator (id : String)
  /-- A place stored to. -/
  | store (target : Target)
  /-- An expression that is read. -/
  | load (e : Expr)
  /-- A call that is a statement of its own. -/
  | callStmt (func args : Expr)

/-- The nodes of an expression. -/
def exprNodes (e : Expr) : List Node := e.walkNodes.map .load

/-- The nodes of a target. -/
def targetNodes (target : Target) : List Node := .store target :: target.reads.flatMap exprNodes

/-- The call of a statement that is one. -/
def callNodes : Expr → List Node
  | .call func args => [.callStmt func args]
  | _ => []

/-- Every node of a block. -/
def walkNodes : Block → List Node
  | done => []
  | assign targets value rest =>
    .assign targets value :: (targets.flatMap targetNodes ++ exprNodes value ++ rest.walkNodes)
  | augAssign target op value rest =>
    .augAssign target op value :: (targetNodes target ++ exprNodes value ++ rest.walkNodes)
  | expr value rest => callNodes value ++ exprNodes value ++ rest.walkNodes
  | ifElse test body orelse rest =>
    exprNodes test ++ body.walkNodes ++ orelse.walkNodes ++ rest.walkNodes
  | forRange target args body rest =>
    .iterator target :: .store (.name target) ::
      (exprNodes (.call (.name "range") args) ++ body.walkNodes ++ rest.walkNodes)
  | whileDo test body rest => exprNodes test ++ body.walkNodes ++ rest.walkNodes
  | brk rest => rest.walkNodes

end Block

end Translate

end HpcAgentBench
