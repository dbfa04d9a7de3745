import HpcAgentBench.Lib.Compare
import HpcAgentBench.Lib.Dict

/-!
# Values of a fuzz table

A parameter of a manifest is a number, a text, a sequence or a mapping: an interval `[lo, hi]`, a
set, a smooth interval, a derived or constructed size, or a scalar.  A parameter map takes symbols
to values.
-/

namespace HpcAgentBench

namespace Fuzz

/-- A manifest parameter's raw spec, or the value drawn for it. -/
inductive FuzzValue
  | bool (b : Bool)
  | num (n : PyNum)
  | str (s : String)
  /-- A list or a tuple. -/
  | seq (elements : List FuzzValue)
  | map (items : List (String × FuzzValue))

/-- What reading a table raises. -/
inductive Err
  /-- `NameError`: a name that is not bound, or not yet. -/
  | nameError (name : String)
  /-- `SyntaxError`. -/
  | syntaxError
  /-- `TypeError` with its text. -/
  | typeError (msg : String)
  | py (e : PyErr)
  deriving DecidableEq, Repr

/-- A map of symbols to values. -/
abbrev Params := Dict String FuzzValue

/-- What the language makes of texts: `int(s)`, `float(s)` and `repr(value)`. -/
structure Texts where
  int : String → Except PyErr ℤ
  float : String → Except PyErr Double
  repr : FuzzValue → String

namespace FuzzValue

/-- An integer. -/
abbrev int (z : ℤ) : FuzzValue := .num (.int z)

/-- A value `isinstance` of `(bool, int, float)`, as a number. -/
def number? : FuzzValue → Option PyNum
  | bool b => some (.int (if b then 1 else 0))
  | num n => some n
  | _ => none

/-- `value.get(key)` of a mapping. -/
def get? (value : FuzzValue) (key : String) : Option FuzzValue :=
  match value with
  | map items => items.lookup key
  | _ => none

/-- The two numbers of an interval `[lo, hi]`; `is_range` when there are. -/
def range? : FuzzValue → Option (PyNum × PyNum)
  | seq [lo, hi] => do return (← lo.number?, ← hi.number?)
  | _ => none

/-- The members of a set `{set: [...]}`; `is_set` when there are. -/
def set? (value : FuzzValue) : Option (List FuzzValue) :=
  match value.get? "set" with
  | some (seq (m :: ms)) => some (m :: ms)
  | _ => none

/-- The bound and the interval of a smooth interval; `is_smooth` when there are. -/
def smooth? (value : FuzzValue) : Option (ℤ × PyNum × PyNum) :=
  match value.get? "smooth" with
  | some (num (.int bound)) => do
    let interval ← (← value.get? "range").range?
    return (bound, interval)
  | _ => none

/-- `range_of`. -/
def rangeOf (value : FuzzValue) : Option (PyNum × PyNum) :=
  match value.range? with
  | some interval => some interval
  | none => value.smooth?.map (·.2)

/-- The body of a derived size; `is_derive` when there is one. -/
def derive? (value : FuzzValue) : Option FuzzValue := value.get? "derive"

/-- The body of a constructed size; `is_construct` when there is one. -/
def construct? (value : FuzzValue) : Option FuzzValue := value.get? "construct"

/-- `hash(v)` does not raise. -/
def hashable : FuzzValue → Bool
  | seq _ | map _ => false
  | _ => true

mutual

/-- `v == w`: a Boolean is a number, a mapping is compared key by key. -/
def eq : FuzzValue → FuzzValue → Bool
  | str s, str t => s == t
  | seq l, seq m => eqAll l m
  | map a, map b => a.length == b.length && eqItems a b
  | bool b, w => w.number?.any (PyNum.eq (.int (if b then 1 else 0)))
  | num n, w => w.number?.any n.eq
  | _, _ => false

/-- Sequences of one length with equal elements. -/
def eqAll : List FuzzValue → List FuzzValue → Bool
  | [], [] => true
  | v :: l, w :: m => eq v w && eqAll l m
  | _, _ => false

/-- Every item has an equal one in the other mapping. -/
def eqItems : List (String × FuzzValue) → List (String × FuzzValue) → Bool
  | [], _ => true
  | (k, v) :: items, b => (b.lookup k).any (eq v) && eqItems items b

end

end FuzzValue

/-- `p == q` of two parameter maps. -/
def Params.eq (p q : Params) : Bool := p.size == q.size && FuzzValue.eqItems p.items q.items

end Fuzz

end HpcAgentBench
