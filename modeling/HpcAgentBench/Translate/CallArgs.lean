import HpcAgentBench.Translate.Syntax

/-!
# Arguments of numpy calls

How the expanders read the axes, `keepdims` and other arguments of a call, by keyword or by
position.  A truth value is the integer 0 or 1.
-/

namespace HpcAgentBench

namespace Translate

/-- A keyword argument. -/
structure CallKeyword where
  arg : String
  value : Expr

/-- A literal as it is tested. -/
def Literal.isTrue : Literal → Bool
  | .none => false
  | .int n => n ≠ 0
  | .float x => x ≠ 0

/-- A signed integer literal. -/
def constInteger : Expr → Option ℤ
  | .const (.int n) => some n
  | .unaryOp op e =>
    if op = "-" then (constInteger e).map (- ·) else if op = "+" then constInteger e else none
  | _ => none

/-- The axes of a literal specification; `none` when it is not one. -/
def evalAxes (e : Expr) : Option (List ℤ) :=
  match constInteger e with
  | some n => some [n]
  | none => if e.isTuple then e.elts.mapM constInteger else none

/-- The last keyword of a name. -/
def lastKwarg (kwargs : List CallKeyword) (name : String) : Option Expr :=
  (kwargs.reverse.find? (·.arg = name)).map (·.value)

/-- `axis` of a call: none for every axis. -/
def readAxes (args : List Expr) (kwargs : List CallKeyword) : Except String (Option (List ℤ)) :=
  match lastKwarg kwargs "axis" with
  | none => .ok (args[1]?.bind evalAxes)
  | some (.const .none) => .ok none
  | some e =>
    match evalAxes e with
    | none => .error "axis must be a compile-time integer or tuple of them"
    | some axes => .ok (some axes)

/-- `axis` and `keepdims` of a call. -/
def readAxisKeepdims (args : List Expr) (kwargs : List CallKeyword) :
    Except String (Option (List ℤ) × Bool) :=
  match readAxes args kwargs with
  | .error text => .error text
  | .ok axes =>
    match lastKwarg kwargs "keepdims" with
    | none => .ok (axes, false)
    | some (.const value) => .ok (axes, value.isTrue)
    | some _ => .error "keepdims must be a compile-time constant"

end Translate

end HpcAgentBench
