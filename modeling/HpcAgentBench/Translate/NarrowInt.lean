import HpcAgentBench.Lib.IntType
import HpcAgentBench.Translate.Syntax

/-!
# Narrow integers

numpy computes with the integers of the operands' width; the native code computes in the wide
integers of its calling convention, and wraps the result of some operations (`wrapDtype`).

## Main results

* `promoteIntegers_eq` : the promoted type is the first that holds both operands' values.
* `narrow_wraps` : with these wraps, the native code computes numpy's values.
-/

namespace HpcAgentBench

open List Option

namespace Translate

/-! ### Dtypes -/

/-- The dtype of a name. -/
inductive Dtype
  /-- An integer of some bytes. -/
  | int (unsigned : Bool) (bytes : ℕ)
  /-- A float or a complex number. -/
  | float (name : String)
  /-- Any other, such as a bool or a storage format. -/
  | other (name : String)
  deriving DecidableEq

/-- Bytes of the integer that the calling convention passes by value. -/
def abiIntBytes : ℕ := 8

/-- The widest signed integer, in bytes. -/
def maxSignedBytes : ℕ := 8

/-- The bytes of an integer narrower than the calling convention's. -/
def narrowWidth : Dtype → Option ℕ
  | .int _ bytes => if bytes < abiIntBytes then some bytes else none
  | _ => none

/-- The result dtype of two integer dtypes. -/
def promoteIntegers (ua : Bool) (wa : ℕ) (ub : Bool) (wb : ℕ) : Dtype :=
  if ua = ub then .int ua (max wa wb)
  else
    let uw := if ua then wa else wb
    let sw := if ua then wb else wa
    if sw > uw then .int false sw
    else if uw * 2 > maxSignedBytes then .float "float64"
    else .int false (uw * 2)

/-! ### The inference -/

/-- The result dtype of an expression, where it is known. -/
inductive Category
  | float
  /-- An integer literal, which takes the dtype it meets. -/
  | weakInt
  | dtype (d : Dtype)
  deriving DecidableEq

/-- The category of a name's dtype. -/
def leafDtype : Option Dtype → Option Category
  | some (.int unsigned bytes) => some (.dtype (.int unsigned bytes))
  | some (.float _) => some .float
  | _ => none

/-- The promotion of two inferred categories. -/
def combineCategories : Option Category → Option Category → Option Category
  | none, _ => none
  | _, none => none
  | some .float, _ => some .float
  | _, some .float => some .float
  | some .weakInt, some .weakInt => some .weakInt
  | some .weakInt, b => b
  | a, some .weakInt => a
  | some (.dtype (.int ua wa)), some (.dtype (.int ub wb)) =>
    some (.dtype (promoteIntegers ua wa ub wb))
  | _, _ => none

/-- The operators under which integers stay integers. -/
def intPreserving : Operator → Bool
  | .add | .sub | .mult | .floorDiv => true
  | .other symbol => symbol ∈ ["%", "**", "&", "|", "^", "<<", ">>"]

/-- The operators whose wide result is wrapped. -/
def wrapBinop : Operator → Bool
  | .add | .sub | .mult => true
  | .floorDiv => false
  | .other symbol => symbol ∈ ["**", "<<"]

/-- The name a chain of subscripts starts from. -/
def baseName : Expr → Option String
  | .name id => some id
  | .subscript value _ => baseName value
  | _ => none

section Infer

variable (nameDtype : String → Option Dtype)

/-- The result dtype of an expression. -/
def infer : Expr → Option Category
  | .const (.int _) => some .weakInt
  | .const (.float _) => some .float
  | .name id => leafDtype (nameDtype id)
  | .subscript value _ => (baseName value).bind fun id => leafDtype (nameDtype id)
  | .unaryOp op operand => if op = "-" ∨ op = "+" then infer operand else none
  | .binOp op left right =>
    if op = .other "/" then some .float
    else if intPreserving op then combineCategories (infer left) (infer right) else none
  | _ => none

/-- Whether a node is one whose result can leave the width of its operands. -/
def wrapSite : Expr → Bool
  | .unaryOp op _ => op = "-"
  | .binOp op _ _ => wrapBinop op
  | _ => false

/-- The narrow dtype a node's result is wrapped to. -/
def wrapDtype (e : Expr) : Option Dtype :=
  if wrapSite e then
    match infer nameDtype e with
    | some (.dtype d) => if (narrowWidth d).isSome then some d else none
    | _ => none
  else none

end Infer

/-! ### numpy's evaluation -/

/-- The integers of a dtype of some bytes. -/
def intType (unsigned : Bool) (bytes : ℕ) : IntType := ⟨!unsigned, 8 * bytes⟩

/-- The integer types of numpy, the smaller first. -/
def numpyTypes : List IntType :=
  [⟨false, 8⟩, ⟨true, 8⟩, ⟨false, 16⟩, ⟨true, 16⟩, ⟨false, 32⟩, ⟨true, 32⟩, ⟨false, 64⟩, ⟨true, 64⟩]

/-- numpy's promotion: the first type that holds the values of both. -/
def numpyPromote (a b : IntType) : Option IntType :=
  numpyTypes.find? fun t => t.Contains a && t.Contains b

/-- An operator on integers; none where it has no value. -/
def evalOp (op : Operator) (x y : ℤ) : Option ℤ :=
  match op with
  | .add => some (x + y)
  | .sub => some (x - y)
  | .mult => some (x * y)
  | .floorDiv => if y = 0 then none else some (Int.fdiv x y)
  | .other symbol =>
    match symbol with
    | "%" => if y = 0 then none else some (Int.fmod x y)
    | "**" => if y < 0 then none else some (x ^ y.toNat)
    | "&" => some (Int.land x y)
    | "|" => some (Int.lor x y)
    | "^" => some (Int.xor x y)
    | "<<" => if y < 0 then none else some (x * 2 ^ y.toNat)
    | ">>" => if y < 0 then none else some (x >>> y.toNat)
    | _ => none

/-- A unary operator on integers. -/
def evalUnary (op : String) (x : ℤ) : Option ℤ :=
  if op = "-" then some (-x) else if op = "+" then some x else none

/-- A value of a type, or a literal. -/
structure Typed where
  type : Option IntType
  value : ℤ
  deriving DecidableEq

/-- A value wrapped to its type. -/
def Typed.ofWide (type : Option IntType) (x : ℤ) : Typed := ⟨type, type.elim x (·.wrap x)⟩

/-- The type two operands are computed in; none where a literal does not fit it. -/
def commonType (a b : Typed) : Option (Option IntType) :=
  match a.type, b.type with
  | none, none => some none
  | none, some t => if t.InRange a.value then some (some t) else none
  | some t, none => if t.InRange b.value then some (some t) else none
  | some t, some u => (numpyPromote t u).map some

/-- Whether a shift by `y` has a value in a type. -/
def shiftFits (op : Operator) (type : Option IntType) (y : ℤ) : Bool :=
  !(op = .other "<<" || op = .other ">>") || type.all fun t => y < t.bits

section Eval

variable (nameDtype : String → Option Dtype) (ρ : String → ℤ)

/-- numpy's evaluation: every operation wraps to the promoted type of its operands. -/
def numpyEval : Expr → Option Typed
  | .const (.int n) => some ⟨none, n⟩
  | .name id =>
    match nameDtype id with
    | some (.int unsigned bytes) => some ⟨some (intType unsigned bytes), ρ id⟩
    | _ => none
  | .unaryOp op operand =>
    (numpyEval operand).bind fun a => (evalUnary op a.value).map (Typed.ofWide a.type)
  | .binOp op left right =>
    (numpyEval left).bind fun a => (numpyEval right).bind fun b => (commonType a b).bind fun t =>
      if intPreserving op && shiftFits op t b.value then
        (evalOp op a.value b.value).map (Typed.ofWide t)
      else none
  | _ => none

/-- The native evaluation in wide integers, wrapped where `wrapDtype` says so; `abi` is what the
wide integers themselves do to a value that is not a literal. -/
def nativeEval (abi : ℤ → ℤ) : Expr → Option ℤ
  | .const (.int n) => some n
  | .name id => some (ρ id)
  | .unaryOp op operand => (nativeEval abi operand).bind fun a =>
    (evalUnary op a).map (store (.unaryOp op operand))
  | .binOp op left right => (nativeEval abi left).bind fun a => (nativeEval abi right).bind fun b =>
    (evalOp op a b).map (store (.binOp op left right))
  | _ => none
where
  /-- The result of a node. -/
  store (e : Expr) (x : ℤ) : ℤ :=
    match wrapDtype nameDtype e with
    | some (.int unsigned bytes) => (intType unsigned bytes).wrap x
    | _ => if infer nameDtype e = some .weakInt then x else abi x

/-- The integers of the calling convention. -/
def abiWrap : ℤ → ℤ := (intType false abiIntBytes).wrap

/-- No floor division of a type's least value by `-1`. -/
def NoLeastQuotient : Expr → Prop
  | .unaryOp _ operand => NoLeastQuotient operand
  | .binOp op left right =>
    NoLeastQuotient left ∧ NoLeastQuotient right ∧
      (op = .floorDiv → ∀ a b t, numpyEval nameDtype ρ left = some a →
        numpyEval nameDtype ρ right = some b → commonType a b = some (some t) →
        ¬(t.signed = true ∧ a.value = t.min ∧ b.value = -1))
  | _ => True

/-- The names of a tree are narrow integers, with values of their dtypes. -/
def NarrowNames : Expr → Prop
  | .name id => ∃ unsigned bytes, nameDtype id = some (.int unsigned bytes) ∧ bytes ∈ [1, 2, 4] ∧
    (intType unsigned bytes).InRange (ρ id)
  | .unaryOp _ operand => NarrowNames operand
  | .binOp _ left right => NarrowNames left ∧ NarrowNames right
  | _ => True

end Eval

/-! ### The two evaluations -/

section Agree

variable {nameDtype : String → Option Dtype} {ρ : String → ℤ}
variable {unsigned : Bool} {bytes : ℕ} {t : IntType} {a : Typed} {x : ℤ} {e : Expr}

/-- The dtypes that narrow integers are promoted to. -/
def Reached (unsigned : Bool) (bytes : ℕ) : Prop :=
  bytes ∈ [1, 2, 4] ∨ (unsigned = false ∧ bytes = 8)

/-- A typed value, and the category inferred for it. -/
inductive Agrees : Typed → Option Category → Prop
  | weak (v : ℤ) : Agrees ⟨none, v⟩ (some .weakInt)
  | int {unsigned : Bool} {bytes : ℕ} {v : ℤ} (hreached : Reached unsigned bytes)
    (hv : (intType unsigned bytes).InRange v) :
    Agrees ⟨some (intType unsigned bytes), v⟩ (some (.dtype (.int unsigned bytes)))

theorem bits_pos (h : Reached unsigned bytes) :
    0 < (intType unsigned bytes).bits := by
  have hbytes : 0 < bytes := by
    rcases h with h | ⟨-, rfl⟩
    · simp only [mem_cons, not_mem_nil, or_false] at h
      omega
    · omega
  simp only [intType]
  omega

/-- **The promoted dtype is numpy's**: the first that holds the values of both operands. -/
theorem promoteIntegers_eq {ua ub : Bool} {wa wb : ℕ} (ha : Reached ua wa) (hb : Reached ub wb) :
    ∃ u w, promoteIntegers ua wa ub wb = .int u w ∧ Reached u w ∧
      numpyPromote (intType ua wa) (intType ub wb) = some (intType u w) := by
  have hreached : ∀ {u w}, Reached u w → (u, w) ∈ [(true, 1), (true, 2), (true, 4), (false, 1),
      (false, 2), (false, 4), (false, 8)] := by
    rintro u w (h | ⟨rfl, rfl⟩)
    · simp only [mem_cons, not_mem_nil, or_false] at h
      rcases h with rfl | rfl | rfl <;> cases u <;> decide
    · decide
  have htable : ∀ p ∈ [(true, 1), (true, 2), (true, 4), (false, 1), (false, 2), (false, 4),
      (false, 8)], ∀ q ∈ [(true, 1), (true, 2), (true, 4), (false, 1), (false, 2), (false, 4),
      (false, 8)], ∃ r ∈ [(true, 1), (true, 2), (true, 4), (false, 1), (false, 2), (false, 4),
      (false, 8)], promoteIntegers p.1 p.2 q.1 q.2 = .int r.1 r.2 ∧
        numpyPromote (intType p.1 p.2) (intType q.1 q.2) = some (intType r.1 r.2) := by
    decide
  obtain ⟨⟨u, w⟩, hmem, hcode, hnumpy⟩ := htable _ (hreached ha) _ (hreached hb)
  refine ⟨u, w, hcode, ?_, hnumpy⟩
  simp only [mem_cons, Prod.mk.injEq, not_mem_nil, or_false] at hmem
  rcases hmem with ⟨rfl, rfl⟩ | ⟨rfl, rfl⟩ | ⟨rfl, rfl⟩ | ⟨rfl, rfl⟩ | ⟨rfl, rfl⟩ | ⟨rfl, rfl⟩ |
    ⟨rfl, rfl⟩
  all_goals first | exact .inr ⟨rfl, rfl⟩ | exact .inl (by decide)

/-- What a promoted type holds. -/
theorem contains_of_numpyPromote {a b : IntType} (h : numpyPromote a b = some t) :
    t.Contains a ∧ t.Contains b := by
  have hfound := find?_some h
  simpa using hfound

/-- The inferred category of an operation is the type numpy computes it in, which holds both
operands. -/
theorem commonType_agrees {b : Typed} {ca cb : Option Category} (ha : Agrees a ca)
    (hb : Agrees b cb) {t : Option IntType} (ht : commonType a b = some t) :
    (t = none ∧ combineCategories ca cb = some .weakInt) ∨
      ∃ unsigned bytes, t = some (intType unsigned bytes) ∧ Reached unsigned bytes ∧
        combineCategories ca cb = some (.dtype (.int unsigned bytes)) ∧
        (intType unsigned bytes).InRange a.value ∧ (intType unsigned bytes).InRange b.value := by
  cases ha with
  | weak v =>
    cases hb with
    | weak w =>
      obtain rfl := some.inj ht
      exact .inl ⟨rfl, rfl⟩
    | @int unsigned bytes w hreached hw =>
      simp only [commonType] at ht
      split at ht
      · next hv =>
        obtain rfl := some.inj ht
        exact .inr ⟨unsigned, bytes, rfl, hreached, rfl, hv, hw⟩
      · cases ht
  | @int unsigned bytes v hreached hv =>
    cases hb with
    | weak w =>
      simp only [commonType] at ht
      split at ht
      · next hw =>
        obtain rfl := some.inj ht
        exact .inr ⟨unsigned, bytes, rfl, hreached, rfl, hv, hw⟩
      · cases ht
    | @int unsigned' bytes' w hreached' hw =>
      obtain ⟨u, n, hcode, hn, hnumpy⟩ := promoteIntegers_eq hreached hreached'
      obtain ⟨t', ht', rfl⟩ := map_eq_some_iff.1 ht
      obtain rfl := some.inj (hnumpy.symm.trans ht')
      obtain ⟨hleft, hright⟩ := contains_of_numpyPromote hnumpy
      refine .inr ⟨u, n, rfl, hn, ?_, hleft.inRange hv, hright.inRange hw⟩
      rw [combineCategories, hcode]

/-- Every reached type is inside the wide integers. -/
theorem abiWrap_eq_self (h : Reached unsigned bytes) (hx : (intType unsigned bytes).InRange x) :
    abiWrap x = x := by
  refine IntType.wrap_eq_self (IntType.Contains.inRange ?_ hx)
  rcases h with h | ⟨rfl, rfl⟩
  · simp only [mem_cons, not_mem_nil, or_false] at h
    rcases h with rfl | rfl | rfl <;> cases unsigned <;> decide
  · decide

/-- A node whose result can leave its width is wrapped; any other must keep to it. -/
theorem store_eq_wrap (hreached : Reached unsigned bytes)
    (hinfer : infer nameDtype e = some (.dtype (.int unsigned bytes)))
    (hx : wrapSite e = true ∨ (intType unsigned bytes).InRange x) :
    nativeEval.store nameDtype abiWrap e x = (intType unsigned bytes).wrap x := by
  by_cases hnarrow : wrapSite e = true ∧ bytes < abiIntBytes
  · have hwrap : wrapDtype nameDtype e = some (.int unsigned bytes) := by
      simp [wrapDtype, hnarrow.1, hinfer, narrowWidth, hnarrow.2]
    rw [nativeEval.store, hwrap]
  · have hwrap : wrapDtype nameDtype e = none := by
      simp only [wrapDtype, hinfer, narrowWidth]
      split
      · next hsite =>
        have hwide : ¬bytes < abiIntBytes := fun h => hnarrow ⟨hsite, h⟩
        simp [hwide]
      · rfl
    rw [nativeEval.store, hwrap, hinfer]
    simp only [reduceCtorEq, if_false, some.injEq]
    rcases hx with hsite | hx
    · -- The wide integers wrap a result of their own width as numpy does.
      have hwide : unsigned = false ∧ bytes = 8 := by
        refine hreached.resolve_left fun h => hnarrow ⟨hsite, ?_⟩
        simp only [mem_cons, not_mem_nil, or_false] at h
        simp only [abiIntBytes]
        omega
      rw [hwide.1, hwide.2]
      rfl
    · rw [abiWrap_eq_self hreached hx, IntType.wrap_eq_self hx]

/-- An operation that is not wrapped keeps to the width of its operands. -/
theorem inRange_evalOp (hbits : 0 < t.bits) {op : Operator} (hpreserving : intPreserving op = true)
    (hop : wrapBinop op = false) {y z : ℤ} (hx : t.InRange x) (hy : t.InRange y)
    (hleast : op = .floorDiv → ¬(t.signed = true ∧ x = t.min ∧ y = -1))
    (hz : evalOp op x y = some z) : t.InRange z := by
  cases op with
  | add => cases hop
  | sub => cases hop
  | mult => cases hop
  | floorDiv =>
    simp only [evalOp] at hz
    split at hz
    · cases hz
    · next hzero =>
      obtain rfl := some.inj hz
      exact IntType.inRange_fdiv hbits hx hy hzero (hleast rfl)
  | other symbol =>
    simp only [intPreserving, mem_cons, not_mem_nil, or_false,
      decide_eq_true_eq] at hpreserving
    rcases hpreserving with rfl | rfl | rfl | rfl | rfl | rfl | rfl
    · simp only [evalOp] at hz
      split at hz
      · cases hz
      · next hzero =>
        obtain rfl := some.inj hz
        exact IntType.inRange_fmod hbits hy hzero
    · simp [wrapBinop] at hop
    · obtain rfl := some.inj hz
      exact (IntType.inRange_bitwise hbits hx hy).1
    · obtain rfl := some.inj hz
      exact (IntType.inRange_bitwise hbits hx hy).2.1
    · obtain rfl := some.inj hz
      exact (IntType.inRange_bitwise hbits hx hy).2.2
    · simp [wrapBinop] at hop
    · simp only [evalOp] at hz
      split at hz
      · cases hz
      · obtain rfl := some.inj hz
        exact IntType.inRange_shiftRight hbits hx _

theorem agrees_eval (hnames : NarrowNames nameDtype ρ e) (hleast : NoLeastQuotient nameDtype ρ e)
    (ha : numpyEval nameDtype ρ e = some a) :
    Agrees a (infer nameDtype e) ∧ nativeEval nameDtype ρ abiWrap e = some a.value := by
  induction e generalizing a with
  | const v =>
    cases v with
    | int n =>
      obtain rfl := some.inj ha
      exact ⟨.weak n, rfl⟩
    | none => cases ha
    | float _ => cases ha
  | name id =>
    obtain ⟨unsigned, bytes, hdtype, hbytes, hrange⟩ := hnames
    simp only [numpyEval, hdtype] at ha
    obtain rfl := some.inj ha
    refine ⟨?_, rfl⟩
    simp only [infer, hdtype, leafDtype]
    exact .int (.inl hbytes) hrange
  | unaryOp op operand ih =>
    obtain ⟨b, hb, ha⟩ := bind_eq_some_iff.1 ha
    obtain ⟨x, hx, rfl⟩ := map_eq_some_iff.1 ha
    obtain ⟨hagrees, hnative⟩ := ih hnames hleast hb
    have hop : op = "-" ∨ op = "+" := by
      simp only [evalUnary] at hx
      split at hx
      · exact .inl ‹_›
      · split at hx
        · exact .inr ‹_›
        · cases hx
    have hinfer : infer nameDtype (.unaryOp op operand) = infer nameDtype operand := by
      rw [infer, if_pos hop]
    rw [hinfer]
    simp only [nativeEval, hnative, bind_some, hx, map_some, Typed.ofWide]
    generalize hcategory : infer nameDtype operand = c at hagrees
    cases hagrees with
    | weak v =>
      refine ⟨.weak x, congrArg some ?_⟩
      simp [nativeEval.store, wrapDtype, hinfer, hcategory]
    | @int unsigned bytes v hreached hv =>
      refine ⟨.int hreached IntType.inRange_wrap, congrArg some ?_⟩
      refine store_eq_wrap hreached (hinfer.trans hcategory) ?_
      rcases hop with rfl | rfl
      · exact .inl rfl
      · have hxv : v = x := by simpa [evalUnary] using hx
        exact .inr (hxv ▸ hv)
  | binOp op left right ihl ihr =>
    obtain ⟨x, hx, ha⟩ := bind_eq_some_iff.1 ha
    obtain ⟨y, hy, ha⟩ := bind_eq_some_iff.1 ha
    obtain ⟨t, ht, ha⟩ := bind_eq_some_iff.1 ha
    split at ha
    swap
    · cases ha
    next hguard =>
    obtain ⟨z, hz, rfl⟩ := map_eq_some_iff.1 ha
    obtain ⟨hleft, hnativeLeft⟩ := ihl hnames.1 hleast.1 hx
    obtain ⟨hright, hnativeRight⟩ := ihr hnames.2 hleast.2.1 hy
    have hpreserving : intPreserving op = true := (Bool.and_eq_true_iff.1 hguard).1
    have hinfer : infer nameDtype (.binOp op left right) =
        combineCategories (infer nameDtype left) (infer nameDtype right) := by
      have hdiv : op ≠ .other "/" := fun h => by
        rw [h] at hpreserving
        simp [intPreserving] at hpreserving
      rw [infer, if_neg hdiv, if_pos hpreserving]
    simp only [nativeEval, hnativeLeft, hnativeRight, bind_some, hz, map_some,
      Typed.ofWide]
    rcases commonType_agrees hleft hright ht with ⟨rfl, hweak⟩ |
      ⟨unsigned, bytes, rfl, hreached, hcategory, hxt, hyt⟩
    · rw [hinfer, hweak]
      refine ⟨.weak z, congrArg some ?_⟩
      simp [nativeEval.store, wrapDtype, hinfer, hweak]
    · rw [hinfer, hcategory]
      refine ⟨.int hreached IntType.inRange_wrap, congrArg some ?_⟩
      refine store_eq_wrap hreached (hinfer.trans hcategory) ?_
      cases hop : wrapBinop op with
      | true => exact .inl hop
      | false =>
        exact .inr (inRange_evalOp (bits_pos hreached) hpreserving hop hxt hyt
          (fun h => hleast.2.2 h x y _ hx hy ht) hz)
  | _ => cases ha

/-- **The wraps are placed right**: the native evaluation gives numpy's value, which is one of the
inferred dtype. -/
theorem narrow_wraps {e : Expr} (hnames : NarrowNames nameDtype ρ e)
    (hleast : NoLeastQuotient nameDtype ρ e) {a : Typed} (ha : numpyEval nameDtype ρ e = some a) :
    nativeEval nameDtype ρ abiWrap e = some a.value ∧
      (infer nameDtype e = some .weakInt ∧ a.type = none ∨
        ∃ unsigned bytes, infer nameDtype e = some (.dtype (.int unsigned bytes)) ∧
          a.type = some (intType unsigned bytes) ∧
          (intType unsigned bytes).wrap a.value = a.value) := by
  obtain ⟨hagrees, hnative⟩ := agrees_eval hnames hleast ha
  refine ⟨hnative, ?_⟩
  generalize infer nameDtype e = c at hagrees
  cases hagrees with
  | weak v => exact .inl ⟨rfl, rfl⟩
  | int hreached hv => exact .inr ⟨_, _, rfl, rfl, IntType.wrap_eq_self hv⟩

end Agree

/-! ### Trees of narrow integers -/

/-- `(a + b) // 2`. -/
def meanTree : Expr :=
  .binOp .floorDiv (.binOp .add (.name "a") (.name "b")) (.const (.int 2))

/-- Two bytes. -/
def byteNames (_ : String) : Option Dtype := some (.int false 1)

theorem narrow_wraps_mean :
    nativeEval byteNames (fun _ => 100) abiWrap meanTree = some (-28) := by
  have hbyte : ∃ unsigned bytes, byteNames "a" = some (.int unsigned bytes) ∧ bytes ∈ [1, 2, 4] ∧
      (intType unsigned bytes).InRange 100 := ⟨false, 1, rfl, by decide, by decide⟩
  have hnumpy : numpyEval byteNames (fun _ => 100) meanTree =
      some ⟨some (intType false 1), -28⟩ := by
    decide
  have hnames : NarrowNames byteNames (fun _ => 100) meanTree := ⟨⟨hbyte, hbyte⟩, trivial⟩
  refine (narrow_wraps hnames ?_ hnumpy).1
  refine ⟨⟨trivial, trivial, fun h => by cases h⟩, trivial, fun _ x y t _ hy _ h => ?_⟩
  obtain rfl := some.inj hy
  exact absurd h.2.2 (by decide)

/-- `(u * i * i) // 2`. -/
def wideTree : Expr :=
  .binOp .floorDiv (.binOp .mult (.binOp .mult (.name "u") (.name "i")) (.name "i"))
    (.const (.int 2))

/-- An unsigned and a signed name of four bytes. -/
def wordNames (id : String) : Option Dtype := some (.int (id = "u") 4)

/-- The largest values of the two names. -/
def wordValues (id : String) : ℤ := if id = "u" then 4294967295 else 2147483647

/-- Integers without a bound are not those of the calling convention: the product of three words is
wrapped by numpy, and by no wrap of the native code. -/
theorem unbounded_differs :
    NarrowNames wordNames wordValues wideTree ∧
      infer wordNames wideTree = some (.dtype (.int false 8)) ∧
      (numpyEval wordNames wordValues wideTree).map Typed.value ≠
        (nativeEval wordNames wordValues id wideTree).map (intType false 8).wrap := by
  have hword : ∀ id, NarrowNames wordNames wordValues (.name id) := by
    intro id
    refine ⟨id = "u", 4, rfl, by decide, ?_⟩
    by_cases hid : id = "u"
    · simp only [hid, wordValues, if_true, decide_true]
      decide
    · simp only [hid, wordValues, if_false, decide_false]
      decide
  exact ⟨⟨⟨⟨hword _, hword _⟩, hword _⟩, trivial⟩, by decide, by decide⟩

-- A quotient can leave the width of its operands: the least value divided by `-1`.
example : (numpyEval byteNames (fun id => if id = "a" then -128 else -1)
      (.binOp .floorDiv (.binOp .floorDiv (.name "a") (.name "b")) (.const (.int 2)))).map
        Typed.value = some (-64) ∧
    nativeEval byteNames (fun id => if id = "a" then -128 else -1) abiWrap
      (.binOp .floorDiv (.binOp .floorDiv (.name "a") (.name "b")) (.const (.int 2))) = some 64 := by
  decide

end Translate

end HpcAgentBench
