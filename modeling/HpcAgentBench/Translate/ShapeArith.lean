import Mathlib.Tactic.Ring
import HpcAgentBench.Translate.ArithText

/-!
# Folding of shape expressions

`fold_shape_expr` parses the text of an extent, simplifies it bottom-up by integer identities and
writes it out again.

## Main results

* `visitBinOp_sound` : every rewrite keeps the value, whatever the signs.
* `visit_misread` : the text written for a folded expression evaluates to the value of the
  expression with each power whose base folds to a negative literal read as a negated power.
* `fold_shape_expr_value` : `fold_shape_expr` keeps the value, once and twice, where these powers
  have odd exponents.
-/

namespace HpcAgentBench

open List Option

namespace ArithText

open Arith

/-! ### Values -/

/-- A sign applied to a value. -/
def signed (negative : Bool) (v : ℤ) : ℤ := if negative then -v else v

/-- An operator on integers: no value for a zero divisor, none that is an integer for a negative
exponent. -/
def Op.apply (op : Op) (a b : ℤ) : Option ℤ :=
  match op with
  | add => some (a + b)
  | sub => some (a - b)
  | mult => some (a * b)
  | floorDiv => if b = 0 then none else some (Int.fdiv a b)
  | mod => if b = 0 then none else some (Int.fmod a b)
  | pow => if 0 ≤ b then some (a ^ b.toNat) else none

/-- The value of an expression. -/
def eval (env : Ident → ℤ) : Arith → Option ℤ
  | const n => some n
  | .name id => some (env id)
  | unary negative e => (eval env e).map (signed negative)
  | binOp op l r => (eval env l).bind fun a => (eval env r).bind (op.apply a)

/-- The value of a text. -/
def evalText (env : Ident → ℤ) (text : List Char) : Option ℤ := (parse text).bind (eval env)

end ArithText

namespace ShapeArith

open ArithText Arith

/-! ### The folder -/

/-- `const_int`: a literal, with its signs. -/
def constInt : Arith → Option ℤ
  | const n => some n
  | unary negative e => (constInt e).map (signed negative)
  | _ => none

/-- `exact_multiple_factor`. -/
def exactMultipleFactor (numerator denominator : Arith) : Option ℤ :=
  match numerator with
  | binOp .mult l r =>
    if (constInt l).isSome = true ∧ r = denominator then constInt l
    else if (constInt r).isSome = true ∧ l = denominator then constInt r
    else none
  | _ => none

/-- One side of `divide_multiple_term`: a literal multiple of the divisor, and the other factor. -/
def divideSide (divisor : ℤ) (constSide other : Arith) : Option Arith :=
  (constInt constSide).bind fun factor =>
    if Int.fmod factor divisor ≠ 0 then none
    else if Int.fdiv factor divisor = 1 then some other
    else some (binOp .mult (const (Int.fdiv factor divisor)) other)

/-- `divide_multiple_term`. -/
def divideMultipleTerm (term : Arith) (divisor : ℤ) : Option Arith :=
  match term with
  | binOp .mult l r => (divideSide divisor l r).orElse fun _ => divideSide divisor r l
  | _ => none

/-- A term of a chain that is no sum: a literal is added to the total. -/
def chainLeaf (sign : ℤ) (e : Arith) : List (ℤ × Arith) × ℤ :=
  match constInt e with
  | none => ([(sign, e)], 0)
  | some value => ([], sign * value)

/-- `walk`: the signed terms of a `+`/`-` chain and the total of its literals; `unaries` tells
whether signs are part of the chain, as they are in `gather_add_chain` only. -/
def chainTerms (unaries : Bool) : ℤ → Arith → List (ℤ × Arith) × ℤ
  | sign, binOp op l r =>
    if op = .add ∨ op = .sub then
      let left := chainTerms unaries sign l
      let right := chainTerms unaries (if op = .add then sign else -sign) r
      (left.1 ++ right.1, left.2 + right.2)
    else chainLeaf sign (binOp op l r)
  | sign, unary negative e =>
    if unaries = true then chainTerms unaries (if negative then -sign else sign) e
    else chainLeaf sign (unary negative e)
  | sign, e => chainLeaf sign e

/-- `scaled_term`. -/
def scaledTerm (coefficient : ℤ) (term : Arith) : Arith :=
  if coefficient = 1 then term else binOp .mult (const coefficient) term

/-- The first term with a positive sign, and the others in order. -/
def splitLead : List (ℤ × Arith) → Option ((ℤ × Arith) × List (ℤ × Arith))
  | [] => none
  | p :: ps => if 0 < p.1 then some (p, ps) else (splitLead ps).map fun r => (r.1, p :: r.2)

/-- A sum with another signed term. -/
def addSigned (out : Arith) (p : ℤ × Arith) : Arith :=
  binOp (if 0 < p.1 then .add else .sub) out (scaledTerm |p.1| p.2)

/-- A sum with a literal, none if it is zero. -/
def addLiteral (out : Arith) (total : ℤ) : Arith :=
  if total = 0 then out else binOp (if 0 < total then .add else .sub) out (const |total|)

/-- `exact_quotient_with_remainder`.  A term's sign is one, so `addSigned` adds the quotient
itself. -/
def exactQuotientWithRemainder (numerator : Arith) (divisor : ℤ) : Option Arith :=
  if divisor ≤ 0 then none
  else
    let (terms, constant) := chainTerms false 1 numerator
    if terms = [] then none
    else do
      let exact ← terms.mapM fun p => (divideMultipleTerm p.2 divisor).map fun q => (p.1, q)
      let (lead, others) ← splitLead exact
      some (addLiteral (others.foldl addSigned lead.2) (Int.fdiv constant divisor))

/-- A term's sign added to those of the same term, or the term appended. -/
def addTerm : List (ℤ × Arith) → ℤ × Arith → List (ℤ × Arith)
  | [], p => [p]
  | q :: qs, p => if q.2 = p.2 then (q.1 + p.1, q.2) :: qs else q :: addTerm qs p

/-- `combine_like_terms`. -/
def combineLikeTerms (terms : List (ℤ × Arith)) : List (ℤ × Arith) :=
  (terms.foldl addTerm []).filter fun p => p.1 ≠ 0

/-- `gather_add_chain`; the chain itself when no term has a positive sign. -/
def gatherAddChain (node : Arith) : Arith :=
  let (terms, total) := chainTerms true 1 node
  match splitLead (combineLikeTerms terms) with
  | none => node
  | some (lead, others) =>
    addLiteral (others.foldl addSigned (scaledTerm lead.1 lead.2)) total

/-- `FOLD_OPS`. -/
def foldOps (op : Op) (a b : ℤ) : Option ℤ :=
  match op with
  | .add => some (a + b)
  | .sub => some (a - b)
  | .mult => some (a * b)
  | _ => none

/-- An operation on two literals. -/
def foldLiterals (op : Op) (left right : Option ℤ) : Option Arith := do
  let a ← left
  let b ← right
  match op with
  | .floorDiv => if b = 0 then none else some (const (Int.fdiv a b))
  | .mod => if b = 0 then none else some (const (Int.fmod a b))
  | op => (foldOps op a b).map const

/-- A division by the other factor of a multiple, or of a sum of multiples. -/
def foldDivision (op : Op) (l r : Arith) : Option Arith :=
  if op = .floorDiv then
    match constInt r with
    | none => (exactMultipleFactor l r).map const
    | some divisor => exactQuotientWithRemainder l divisor
  else none

/-- The identities. -/
def foldUnit (op : Op) (l r : Arith) : Option Arith :=
  match op with
  | .add => if constInt r = some 0 then some l else if constInt l = some 0 then some r else none
  | .mult => if constInt r = some 1 then some l else if constInt l = some 1 then some r else none
  | .sub => if constInt r = some 0 then some l else none
  | .floorDiv => if constInt r = some 1 then some l else none
  | _ => none

/-- `visit_BinOp`, after the operands have been visited. -/
def visitBinOp (op : Op) (l r : Arith) : Arith :=
  match foldLiterals op (constInt l) (constInt r) with
  | some e => e
  | none => match foldDivision op l r with
    | some e => e
    | none => match foldUnit op l r with
      | some e => e
      | none => if op = .add ∨ op = .sub then gatherAddChain (binOp op l r) else binOp op l r

/-- `ShapeArithFolder().visit`. -/
def visit : Arith → Arith
  | const n => const n
  | .name id => .name id
  | unary negative e => unary negative (visit e)
  | binOp op l r => visitBinOp op (visit l) (visit r)

/-- `fold_shape_expr`. -/
def foldShapeExpr (text : List Char) : List Char :=
  if text.any (fun c => c = '+' ∨ c = '-' ∨ c = '*' ∨ c = '/') = true then
    match parse text with
    | none => text
    | some e => unparse (visit e)
  else text

/-! ### Values of terms -/

/-- A reading of expressions that gives literals, signs and every operator but the power their
meaning. -/
structure Meaning (D : Arith → Option ℤ) : Prop where
  const : ∀ n, D (const n) = some n
  unary : ∀ negative e, D (unary negative e) = (D e).map (signed negative)
  binOp : ∀ op l r, op ≠ .pow → D (binOp op l r) = (D l).bind fun a => (D r).bind (op.apply a)

/-- The signed terms have the sum `t`. -/
def Total (D : Arith → Option ℤ) : List (ℤ × Arith) → ℤ → Prop
  | [], t => t = 0
  | p :: ps, t => ∃ v t', D p.2 = some v ∧ Total D ps t' ∧ t = p.1 * v + t'

section Sound

variable {D : Arith → Option ℤ}

variable {ps : List (ℤ × Arith)} {s t : ℤ} {e : Arith} {op : Op} {l r : Arith} {v a b : ℤ}
variable {out : Arith} {p : ℤ × Arith} {others : List (ℤ × Arith)} {lead : ℤ × Arith}
variable {terms : List (ℤ × Arith)} {divisor : ℤ} {q : Arith} {exact : List (ℤ × Arith)}

theorem Total.append {qs : List (ℤ × Arith)} (hs : Total D ps s) (ht : Total D qs t) :
    Total D (ps ++ qs) (s + t) := by
  induction ps generalizing s with
  | nil =>
    obtain rfl : s = 0 := hs
    rwa [nil_append, Int.zero_add]
  | cons p ps ih =>
    obtain ⟨v, s', hv, hs', rfl⟩ := hs
    exact ⟨v, s' + t, hv, ih hs', by rw [Int.add_assoc]⟩

variable (hD : Meaning D)
include hD

theorem eq_of_constInt {n : ℤ} (h : constInt e = some n) : D e = some n := by
  induction e generalizing n with
  | const m =>
    obtain rfl := some.inj h
    exact hD.const m
  | unary negative e ih =>
    obtain ⟨m, hm, rfl⟩ := map_eq_some_iff.1 h
    rw [hD.unary, ih hm]
    rfl
  | name id => cases h
  | binOp op l r => cases h

/-- A binary operation other than the power has a value exactly when its operands have. -/
theorem binOp_eq_some (hop : op ≠ .pow) (h : D (binOp op l r) = some v) :
    ∃ a b, D l = some a ∧ D r = some b ∧ op.apply a b = some v := by
  rw [hD.binOp op l r hop] at h
  obtain ⟨a, ha, h⟩ := bind_eq_some_iff.1 h
  obtain ⟨b, hb, h⟩ := bind_eq_some_iff.1 h
  exact ⟨a, b, ha, hb, h⟩

theorem binOp_of_values (hop : op ≠ .pow) (ha : D l = some a) (hb : D r = some b) :
    D (binOp op l r) = op.apply a b := by
  rw [hD.binOp op l r hop, ha, bind_some, hb, bind_some]

theorem chainLeaf_sound (sign : ℤ) (h : D e = some v) :
    ∃ t, Total D (chainLeaf sign e).1 t ∧ sign * v = t + (chainLeaf sign e).2 := by
  rw [chainLeaf]
  cases hconst : constInt e with
  | none => exact ⟨sign * v, ⟨v, 0, h, rfl, by rw [Int.add_zero]⟩, by rw [Int.add_zero]⟩
  | some n =>
    obtain rfl : n = v := some.inj ((eq_of_constInt hD hconst).symm.trans h)
    exact ⟨0, rfl, by rw [Int.zero_add]⟩

/-- **The terms of a chain and its literals add up to its value.** -/
theorem chainTerms_sound (unaries : Bool) (sign : ℤ) (h : D e = some v) :
    ∃ t, Total D (chainTerms unaries sign e).1 t ∧
      sign * v = t + (chainTerms unaries sign e).2 := by
  induction e generalizing sign v with
  | const n | name id => exact chainLeaf_sound hD sign h
  | unary negative e ih =>
    rw [chainTerms]
    split
    · rw [hD.unary] at h
      obtain ⟨w, hw, rfl⟩ := map_eq_some_iff.1 h
      obtain ⟨t, ht, heq⟩ := ih (if negative then -sign else sign) hw
      refine ⟨t, ht, ?_⟩
      rw [← heq]
      cases negative with
      | false => rfl
      | true =>
        change sign * -w = -sign * w
        ring
    · exact chainLeaf_sound hD sign h
  | binOp op l r ihl ihr =>
    rw [chainTerms]
    split
    · rename_i hop
      have hpow : op ≠ .pow := by rintro rfl; exact hop.elim (nomatch ·) (nomatch ·)
      obtain ⟨a, b, ha, hb, hv⟩ := binOp_eq_some hD hpow h
      obtain ⟨s, hs, hsum⟩ := ihl sign ha
      obtain ⟨t, ht, htotal⟩ := ihr (if op = .add then sign else -sign) hb
      refine ⟨s + t, hs.append ht, ?_⟩
      have hvalue : sign * v = sign * a + (if op = .add then sign else -sign) * b := by
        rcases hop with rfl | rfl
        · cases hv
          rw [if_pos rfl]
          ring
        · cases hv
          rw [if_neg (by decide)]
          ring
      rw [hvalue, hsum, htotal]
      ring
    · exact chainLeaf_sound hD sign h

theorem scaledTerm_sound (c : ℤ) (h : D e = some v) :
    D (scaledTerm c e) = some (c * v) := by
  rw [scaledTerm]
  split
  · rename_i hc
    rw [h, hc, Int.one_mul]
  · exact binOp_of_values hD (by decide) (hD.const c) h

theorem addSigned_sound (hout : D out = some s) (hp : D p.2 = some v) :
    D (addSigned out p) = some (s + p.1 * v) := by
  rw [addSigned]
  have hscaled := scaledTerm_sound hD |p.1| hp
  split
  · rename_i hpos
    rw [binOp_of_values hD (by decide) hout hscaled, abs_of_pos hpos]
    rfl
  · rename_i hpos
    rw [binOp_of_values hD (by decide) hout hscaled, abs_of_nonpos (by omega)]
    exact congrArg some (by ring)

theorem foldl_addSigned_sound (hout : D out = some s) (hps : Total D ps t) :
    D (ps.foldl addSigned out) = some (s + t) := by
  induction ps generalizing out s t with
  | nil =>
    obtain rfl : t = 0 := hps
    rwa [Int.add_zero]
  | cons p ps ih =>
    obtain ⟨v, t', hv, ht', rfl⟩ := hps
    rw [foldl_cons, ih (addSigned_sound hD hout hv) ht', Int.add_assoc]

theorem addLiteral_sound (total : ℤ) (hout : D out = some s) :
    D (addLiteral out total) = some (s + total) := by
  rw [addLiteral]
  split
  · rename_i hzero
    rw [hout, hzero, Int.add_zero]
  · split
    · rename_i hpos
      rw [binOp_of_values hD (by decide) hout (hD.const _), abs_of_pos hpos]
      rfl
    · rename_i hpos
      rw [binOp_of_values hD (by decide) hout (hD.const _), abs_of_nonpos (by omega)]
      exact congrArg some (by ring)

omit hD in
/-- The leading term and the others have the sum of all. -/
theorem splitLead_sound (h : splitLead ps = some (lead, others)) (ht : Total D ps t) :
    ∃ v t', D lead.2 = some v ∧ Total D others t' ∧ t = lead.1 * v + t' := by
  induction ps generalizing others t with
  | nil => cases h
  | cons p ps ih =>
    obtain ⟨w, s, hw, hs, rfl⟩ := ht
    rw [splitLead] at h
    split at h
    · cases h
      exact ⟨w, s, hw, hs, rfl⟩
    · obtain ⟨⟨lead', others'⟩, hsplit, heq⟩ := map_eq_some_iff.1 h
      cases heq
      obtain ⟨v, t', hv, ht', rfl⟩ := ih hsplit hs
      exact ⟨v, p.1 * w + t', hv, ⟨w, t', hw, ht', rfl⟩, by ring⟩

omit hD in
theorem addTerm_sound {acc : List (ℤ × Arith)} (hacc : Total D acc s) (hp : D p.2 = some v) :
    Total D (addTerm acc p) (s + p.1 * v) := by
  induction acc generalizing s with
  | nil =>
    obtain rfl : s = 0 := hacc
    exact ⟨v, 0, hp, rfl, by ring⟩
  | cons q qs ih =>
    obtain ⟨w, s', hw, hs', rfl⟩ := hacc
    rw [addTerm]
    split
    · rename_i hsame
      obtain rfl : w = v := some.inj (hw.symm.trans (hsame ▸ hp))
      exact ⟨w, s', hw, hs', by ring⟩
    · exact ⟨w, s' + p.1 * v, hw, ih hs', by ring⟩

omit hD in
theorem combineLikeTerms_sound (h : Total D terms t) :
    Total D (combineLikeTerms terms) t := by
  have hsum : ∀ (ps acc : List (ℤ × Arith)) (s t : ℤ), Total D acc s → Total D ps t →
      Total D (ps.foldl addTerm acc) (s + t) := by
    intro ps
    induction ps with
    | nil =>
      rintro acc s t hacc (rfl : t = 0)
      rwa [Int.add_zero]
    | cons p ps ih =>
      rintro acc s t hacc ⟨v, t', hv, ht', rfl⟩
      rw [← Int.add_assoc]
      exact ih _ _ _ (addTerm_sound hacc hv) ht'
  have hfilter : ∀ (ps : List (ℤ × Arith)) (t : ℤ), Total D ps t →
      Total D (ps.filter fun p => p.1 ≠ 0) t := by
    intro ps
    induction ps with
    | nil => exact fun t h => h
    | cons p ps ih =>
      rintro t ⟨v, t', hv, ht', rfl⟩
      by_cases hp : p.1 = 0
      · rw [filter_cons_of_neg (by simpa using hp), hp, Int.zero_mul, Int.zero_add]
        exact ih t' ht'
      · rw [filter_cons_of_pos (by simpa using hp)]
        exact ⟨v, t', hv, ih t' ht', rfl⟩
  have hall := hsum terms [] 0 t rfl h
  rw [Int.zero_add] at hall
  exact hfilter _ _ hall

theorem gatherAddChain_sound (h : D e = some v) :
    D (gatherAddChain e) = some v := by
  obtain ⟨t, ht, heq⟩ := chainTerms_sound hD true 1 h
  rw [gatherAddChain]
  dsimp only
  split
  · exact h
  · rename_i lead others hsplit
    obtain ⟨w, t', hw, ht', rfl⟩ := splitLead_sound hsplit (combineLikeTerms_sound ht)
    rw [addLiteral_sound hD _ (foldl_addSigned_sound hD (scaledTerm_sound hD lead.1 hw) ht'),
      ← heq, Int.one_mul]

/-! ### Divisions -/

theorem exactMultipleFactor_sound {k : ℤ} (h : exactMultipleFactor l r = some k) (ha : D l = some a)
    (hb : D r = some b) : a = k * b := by
  unfold exactMultipleFactor at h
  split at h
  · rename_i l₁ l₂
    obtain ⟨x, y, hx, hy, hxy⟩ := binOp_eq_some hD (by decide) ha
    cases hxy
    split at h
    · rename_i hside
      obtain rfl : x = k := some.inj (hx.symm.trans (eq_of_constInt hD h))
      obtain rfl : y = b := some.inj (hy.symm.trans (hside.2 ▸ hb))
      rfl
    · split at h
      · rename_i hside
        obtain rfl : y = k := some.inj (hy.symm.trans (eq_of_constInt hD h))
        obtain rfl : x = b := some.inj (hx.symm.trans (hside.2 ▸ hb))
        exact Int.mul_comm _ _
      · cases h
  · cases h

theorem divideSide_sound {c other : Arith} {x y : ℤ} (h : divideSide divisor c other = some q)
    (hx : D c = some x) (hy : D other = some y) :
    ∃ w, D q = some w ∧ x * y = divisor * w := by
  obtain ⟨factor, hfactor, h⟩ := bind_eq_some_iff.1 h
  obtain rfl : factor = x := some.inj ((eq_of_constInt hD hfactor).symm.trans hx)
  split at h
  · cases h
  · rename_i hmod
    have hmul : factor = divisor * Int.fdiv factor divisor := by
      have := Int.mul_fdiv_add_fmod factor divisor
      omega
    split at h
    · rename_i hone
      cases h
      exact ⟨y, hy, by rw [hone] at hmul; rw [hmul, Int.mul_one]⟩
    · cases h
      refine ⟨Int.fdiv factor divisor * y, binOp_of_values hD (by decide) (hD.const _) hy, ?_⟩
      rw [← Int.mul_assoc, ← hmul]

theorem divideMultipleTerm_sound {term : Arith} (h : divideMultipleTerm term divisor = some q)
    (hv : D term = some v) :
    ∃ w, D q = some w ∧ v = divisor * w := by
  unfold divideMultipleTerm at h
  split at h
  · rename_i l r
    obtain ⟨x, y, hx, hy, hxy⟩ := binOp_eq_some hD (by decide) hv
    cases hxy
    cases hside : divideSide divisor l r with
    | some q' =>
      rw [hside] at h
      cases h
      exact divideSide_sound hD hside hx hy
    | none =>
      rw [hside] at h
      rw [Int.mul_comm]
      exact divideSide_sound hD h hy hx
  · cases h

omit hD in
/-- The terms of a chain have the sign it starts with, or the other one. -/
theorem sign_of_mem_chainTerms {unaries : Bool} {sign : ℤ} (h : p ∈ (chainTerms unaries sign e).1) :
    p.1 = sign ∨ p.1 = -sign := by
  have hleaf : ∀ e sign, p ∈ (chainLeaf sign e).1 → p.1 = sign ∨ p.1 = -sign := by
    intro e sign h
    rw [chainLeaf] at h
    split at h
    · exact .inl (congrArg Prod.fst (mem_singleton.1 h))
    · cases h
  induction e generalizing sign with
  | const n => exact hleaf _ _ h
  | name id => exact hleaf _ _ h
  | unary negative e ih =>
    rw [chainTerms] at h
    split at h
    · have := ih h
      cases negative <;> simp only [if_true, Bool.false_eq_true, if_false] at this <;> omega
    · exact hleaf _ _ h
  | binOp op l r ihl ihr =>
    rw [chainTerms] at h
    split at h
    · rcases mem_append.1 h with h | h
      · exact ihl h
      · have := ihr h
        split at this <;> omega
    · exact hleaf _ _ h

omit hD in
theorem sign_of_quotients {P : ℤ → Prop}
    (h : (terms.mapM fun p => (divideMultipleTerm p.2 divisor).map fun q => (p.1, q)) = some exact)
    (hP : ∀ p ∈ terms, P p.1) : ∀ p ∈ exact, P p.1 := by
  induction terms generalizing exact with
  | nil =>
    cases h
    exact fun p hp => absurd hp not_mem_nil
  | cons p terms ih =>
    obtain ⟨q', exact', hq', hrest, rfl⟩ := mapM_cons_eq_some h
    obtain ⟨q, -, rfl⟩ := map_eq_some_iff.1 hq'
    exact forall_mem_cons.2 ⟨hP p mem_cons_self,
      ih hrest fun p hp => hP p (mem_cons_of_mem _ hp)⟩

omit hD in
theorem splitLead_mem (h : splitLead ps = some (lead, others)) : lead ∈ ps ∧ 0 < lead.1 := by
  induction ps generalizing others with
  | nil => cases h
  | cons p ps ih =>
    rw [splitLead] at h
    split at h
    · rename_i hpos
      cases h
      exact ⟨mem_cons_self, hpos⟩
    · obtain ⟨⟨lead', others'⟩, hsplit, heq⟩ := map_eq_some_iff.1 h
      cases heq
      exact ⟨mem_cons_of_mem _ (ih hsplit).1, (ih hsplit).2⟩

theorem quotients_sound
    (h : (terms.mapM fun p => (divideMultipleTerm p.2 divisor).map fun q => (p.1, q)) = some exact)
    (ht : Total D terms t) : ∃ t', Total D exact t' ∧ t = divisor * t' := by
  induction terms generalizing exact t with
  | nil =>
    cases h
    obtain rfl : t = 0 := ht
    exact ⟨0, rfl, (Int.mul_zero _).symm⟩
  | cons p terms ih =>
    obtain ⟨v, s, hv, hs, rfl⟩ := ht
    obtain ⟨q', exact', hq', hrest, rfl⟩ := mapM_cons_eq_some h
    obtain ⟨q, hq, rfl⟩ := map_eq_some_iff.1 hq'
    obtain ⟨w, hw, rfl⟩ := divideMultipleTerm_sound hD hq hv
    obtain ⟨t', ht', rfl⟩ := ih hrest hs
    exact ⟨p.1 * w + t', ⟨w, t', hw, ht', rfl⟩, by ring⟩

/-- **An exact quotient and the rounded remainder**: `(d * a + c) // d = a + c // d` for every `a`
and `c`. -/
theorem exactQuotientWithRemainder_sound {numerator : Arith}
    (h : exactQuotientWithRemainder numerator divisor = some q) (hv : D numerator = some v) :
    D q = some (Int.fdiv v divisor) := by
  rw [exactQuotientWithRemainder] at h
  split at h
  · cases h
  · rename_i hpos
    obtain ⟨t, ht, heq⟩ := chainTerms_sound hD false 1 hv
    dsimp only at h
    split at h
    · cases h
    · obtain ⟨exact, hexact, h⟩ := bind_eq_some_iff.1 h
      obtain ⟨⟨lead, others⟩, hsplit, h⟩ := bind_eq_some_iff.1 h
      cases h
      obtain ⟨t', ht', rfl⟩ := quotients_sound hD hexact ht
      obtain ⟨w, s, hw, hs, rfl⟩ := splitLead_sound hsplit ht'
      have hsigns := sign_of_quotients (P := fun c => c = 1 ∨ c = -1) hexact
        fun p hp => sign_of_mem_chainTerms hp
      obtain ⟨hmem, hlead⟩ := splitLead_mem hsplit
      have hone : lead.1 = 1 := by
        rcases hsigns lead hmem with h | h <;> omega
      rw [addLiteral_sound hD _ (foldl_addSigned_sound hD hw hs)]
      rw [Int.one_mul, hone, Int.one_mul] at heq
      rw [heq, Int.fdiv_eq_ediv_of_nonneg _ (by omega), Int.fdiv_eq_ediv_of_nonneg _ (by omega),
        Int.add_comm (divisor * _), Int.add_mul_ediv_left _ _ (by omega), Int.add_comm]

/-! ### The rewrites -/

theorem foldLiterals_sound (h : foldLiterals op (constInt l) (constInt r) = some e)
    (ha : D l = some a) (hb : D r = some b) (hv : op.apply a b = some v) : D e = some v := by
  obtain ⟨x, hx, h⟩ := bind_eq_some_iff.1 h
  obtain ⟨y, hy, h⟩ := bind_eq_some_iff.1 h
  obtain rfl : x = a := some.inj ((eq_of_constInt hD hx).symm.trans ha)
  obtain rfl : y = b := some.inj ((eq_of_constInt hD hy).symm.trans hb)
  cases op with
  | add | sub | mult =>
    cases h
    rw [hD.const]
    exact hv
  | floorDiv | mod =>
    dsimp only at h
    split at h
    · cases h
    · rename_i hzero
      cases h
      rw [hD.const]
      exact ((if_neg hzero).symm.trans hv)
  | pow => cases h

theorem foldDivision_sound (h : foldDivision op l r = some e) (ha : D l = some a)
    (hb : D r = some b) (hv : op.apply a b = some v) : D e = some v := by
  rw [foldDivision] at h
  split at h
  · rename_i hop
    subst hop
    obtain ⟨hzero, rfl⟩ : b ≠ 0 ∧ Int.fdiv a b = v := by
      rw [Op.apply] at hv
      split at hv
      · cases hv
      · rename_i hzero
        exact ⟨hzero, some.inj hv⟩
    split at h
    · obtain ⟨k, hk, rfl⟩ := map_eq_some_iff.1 h
      obtain rfl := exactMultipleFactor_sound hD hk ha hb
      rw [hD.const, Int.mul_fdiv_cancel _ hzero]
    · rename_i divisor hdivisor
      obtain rfl : divisor = b := some.inj ((eq_of_constInt hD hdivisor).symm.trans hb)
      exact exactQuotientWithRemainder_sound hD h ha
  · cases h

theorem foldUnit_sound (h : foldUnit op l r = some e) (ha : D l = some a) (hb : D r = some b)
    (hv : op.apply a b = some v) : D e = some v := by
  have hleft : ∀ {n}, constInt l = some n → a = n := fun hn =>
    some.inj (ha.symm.trans (eq_of_constInt hD hn))
  have hright : ∀ {n}, constInt r = some n → b = n := fun hn =>
    some.inj (hb.symm.trans (eq_of_constInt hD hn))
  cases op with
  | add =>
    dsimp only [foldUnit] at h
    split at h
    · rename_i hzero
      cases h
      rw [ha, ← hv, hright hzero]
      exact congrArg some (Int.add_zero a).symm
    · split at h
      · rename_i hzero
        cases h
        rw [hb, ← hv, hleft hzero]
        exact congrArg some (Int.zero_add b).symm
      · cases h
  | mult =>
    dsimp only [foldUnit] at h
    split at h
    · rename_i hone
      cases h
      rw [ha, ← hv, hright hone]
      exact congrArg some (Int.mul_one a).symm
    · split at h
      · rename_i hone
        cases h
        rw [hb, ← hv, hleft hone]
        exact congrArg some (Int.one_mul b).symm
      · cases h
  | sub =>
    dsimp only [foldUnit] at h
    split at h
    · rename_i hzero
      cases h
      rw [ha, ← hv, hright hzero]
      exact congrArg some (Int.sub_zero a).symm
    · cases h
  | floorDiv =>
    dsimp only [foldUnit] at h
    split at h
    · rename_i hone
      cases h
      rw [ha, ← hv, hright hone]
      exact congrArg some (Int.fdiv_one a).symm
    · cases h
  | mod => cases h
  | pow => cases h

/-- **Every rewrite keeps the value**, whatever the signs. -/
theorem visitBinOp_sound (hop : op ≠ .pow) (ha : D l = some a) (hb : D r = some b)
    (hv : op.apply a b = some v) :
    D (visitBinOp op l r) = some v := by
  have hnode : D (binOp op l r) = some v := (binOp_of_values hD hop ha hb).trans hv
  rw [visitBinOp]
  split
  · rename_i h
    exact foldLiterals_sound hD h ha hb hv
  · split
    · rename_i h
      exact foldDivision_sound hD h ha hb hv
    · split
      · rename_i h
        exact foldUnit_sound hD h ha hb hv
      · split
        · exact gatherAddChain_sound hD hnode
        · exact hnode

end Sound

/-! ### The text that is written -/

/-- The text of an expression gives literals, signs and operators their meaning. -/
theorem meaning_reread (env : Ident → ℤ) : Meaning fun e => eval env (reread e) where
  const n := by
    rw [reread]
    split
    · rename_i hn
      exact congrArg some (by
        change -((n.natAbs : ℕ) : ℤ) = n
        omega)
    · rfl
  unary negative e := rfl
  binOp op l r hop := by
    have hread : rereadBinOp op l (reread l) (reread r) = binOp op (reread l) (reread r) := by
      cases op with
      | pow => exact absurd rfl hop
      | _ => rfl
    change eval env (rereadBinOp op l (reread l) (reread r)) = _
    rw [hread]
    rfl

variable {env : Ident → ℤ} {e : Arith} {v : ℤ} {text : List Char}

theorem eval_reread_pow {l r : Arith} {a b : ℤ} (ha : eval env (reread l) = some a)
    (hb : eval env (reread r) = some b) :
    eval env (reread (binOp .pow l r)) =
      if (negLiteral l).isSome = true then (Op.pow.apply (-a) b).map (signed true)
      else Op.pow.apply a b := by
  cases hneg : negLiteral l with
  | none =>
    change eval env (rereadBinOp .pow l (reread l) (reread r)) = _
    rw [rereadBinOp_pow_of_none _ _ hneg]
    change (eval env (reread l)).bind _ = _
    rw [ha, bind_some, hb]
    rfl
  | some k =>
    have hbase : -a = k := by
      obtain ⟨rfl, -⟩ := negLiteral_eq_some hneg
      have := some.inj (((meaning_reread env).const (-k)).symm.trans ha)
      omega
    change eval env (rereadBinOp .pow l (reread l) (reread r)) = _
    rw [rereadBinOp_pow_of_some _ _ hneg]
    change (((eval env (reread r)).bind (Op.pow.apply k))).map (signed true) = _
    rw [hb, hbase]
    rfl

/-- The power is not folded. -/
theorem visitBinOp_pow (l r : Arith) : visitBinOp .pow l r = binOp .pow l r := by
  have hliterals : foldLiterals .pow (constInt l) (constInt r) = none := by
    rw [foldLiterals]
    cases constInt l <;> cases constInt r <;> rfl
  rw [visitBinOp, hliterals]
  rfl

/-- The value of an expression when each power whose base folds to a negative literal is read as the
negated power of the absolute value. -/
def misread (env : Ident → ℤ) : Arith → Option ℤ
  | const n => some n
  | .name id => some (env id)
  | unary negative e => (misread env e).map (signed negative)
  | binOp op l r => (misread env l).bind fun a => (misread env r).bind fun b =>
    if op = .pow ∧ (negLiteral (visit l)).isSome = true then
      (Op.pow.apply (-a) b).map (signed true)
    else op.apply a b

/-- **What the folded text evaluates to.** -/
theorem visit_misread {w : ℤ} (h : misread env e = some w) :
    eval env (reread (visit e)) = some w := by
  induction e generalizing w with
  | const n =>
    obtain rfl := some.inj h
    exact (meaning_reread env).const n
  | name id => exact h
  | unary negative e ih =>
    obtain ⟨v, hv, rfl⟩ := map_eq_some_iff.1 h
    exact (congrArg (Option.map (signed negative)) (ih hv)).trans rfl
  | binOp op l r ihl ihr =>
    obtain ⟨a, ha, h⟩ := bind_eq_some_iff.1 h
    obtain ⟨b, hb, h⟩ := bind_eq_some_iff.1 h
    rw [visit]
    by_cases hop : op = .pow
    · subst hop
      rw [visitBinOp_pow, eval_reread_pow (ihl ha) (ihr hb)]
      simpa only [true_and] using h
    · rw [if_neg fun h => hop h.1] at h
      exact visitBinOp_sound (meaning_reread env) hop (ihl ha) (ihr hb) h

/-- Each power whose base folds to a negative literal has an odd exponent. -/
def OddPowers (env : Ident → ℤ) : Arith → Prop
  | const _ => True
  | .name _ => True
  | unary _ e => OddPowers env e
  | binOp op l r => OddPowers env l ∧ OddPowers env r ∧
    (op = .pow → (negLiteral (visit l)).isSome = true → ∀ b, eval env r = some b → Odd b)

/-- An odd power is the same read either way. -/
theorem misread_of_oddPowers (hv : eval env e = some v) (hodd : OddPowers env e) :
    misread env e = some v := by
  induction e generalizing v with
  | const n => exact hv
  | name id => exact hv
  | unary negative e ih =>
    obtain ⟨w, hw, rfl⟩ := map_eq_some_iff.1 hv
    rw [misread, ih hw hodd]
    rfl
  | binOp op l r ihl ihr =>
    obtain ⟨a, ha, hv⟩ := bind_eq_some_iff.1 hv
    obtain ⟨b, hb, hv⟩ := bind_eq_some_iff.1 hv
    obtain ⟨hl, hr, hpow⟩ := hodd
    rw [misread, ihl ha hl, bind_some, ihr hb hr, bind_some]
    split
    · rename_i hneg
      obtain ⟨rfl, hneg⟩ := hneg
      have hb' := hpow rfl hneg b hb
      rw [Op.apply] at hv
      split at hv
      · rename_i hpos
        cases hv
        rw [Op.apply, if_pos hpos]
        refine congrArg some ?_
        have hodd : Odd b.toNat := by
          rw [← Int.odd_coe_nat, Int.toNat_of_nonneg hpos]
          exact hb'
        change -((-a) ^ b.toNat) = a ^ b.toNat
        rw [hodd.neg_pow, neg_neg]
      · cases hv
    · exact hv

/-- The folded text of a text of the grammar. -/
theorem parse_foldShapeExpr (h : parse text = some e) :
    parse (foldShapeExpr text) = some (reread (visit e)) ∨ foldShapeExpr text = text := by
  rw [foldShapeExpr, h]
  split
  · exact .inl (parse_unparse _)
  · exact .inr rfl

theorem foldShapeExpr_sound (hparse : parse text = some e) (hv : eval env e = some v)
    (hodd : OddPowers env e) :
    evalText env (foldShapeExpr text) = some v := by
  rcases parse_foldShapeExpr hparse with h | h
  · rw [evalText, h, bind_some, visit_misread (misread_of_oddPowers hv hodd)]
  · rw [h, evalText, hparse, bind_some, hv]

/-- **Folding a shape expression keeps its value**, once and twice, where each power whose base
folds to a negative literal has an odd exponent; in general the folded text has the value of the
expression with these powers read as negated ones. -/
theorem fold_shape_expr_value {text : List Char} {e : Arith} {env : Ident → ℤ} {v : ℤ}
    (hparse : parse text = some e) (hv : eval env e = some v) :
    (OddPowers env e → evalText env (foldShapeExpr text) = some v ∧
      ((∀ e', parse (foldShapeExpr text) = some e' → OddPowers env e') →
        evalText env (foldShapeExpr (foldShapeExpr text)) = some v)) ∧
      (foldShapeExpr text ≠ text → ∀ w, misread env e = some w →
        (evalText env (foldShapeExpr text) = some v ↔ w = v)) := by
  refine ⟨fun hodd => ?_, fun hne w hw => ?_⟩
  · have honce := foldShapeExpr_sound hparse hv hodd
    refine ⟨honce, fun hagain => ?_⟩
    obtain ⟨e', he', hv'⟩ := bind_eq_some_iff.1 honce
    exact foldShapeExpr_sound he' hv' (hagain e' he')
  · have hfolded := (parse_foldShapeExpr hparse).resolve_right hne
    rw [evalText, hfolded, bind_some, visit_misread hw]
    exact some_inj

/-- The values of a text whose names are all `n`. -/
theorem fold_shape_expr_power :
    evalText (fun _ => 3) (foldShapeExpr "(1 - 3) ** n".toList) = some (-8) := by
  have hodd : OddPowers (fun _ => 3) ((parse "(1 - 3) ** n".toList).getD (const 0)) := by
    refine ⟨⟨trivial, trivial, nofun⟩, trivial, fun _ _ b hb => ?_⟩
    obtain rfl : (3 : ℤ) = b := some.inj hb
    exact ⟨1, rfl⟩
  exact ((fold_shape_expr_value rfl rfl).1 hodd).1

/-- `(1 - 3) ** n` folds to `-2 ** n`: four and minus four at two. -/
theorem fold_shape_expr_negated :
    String.ofList (foldShapeExpr "(1 - 3) ** n".toList) = "-2 ** n" ∧
      evalText (fun _ => 2) "(1 - 3) ** n".toList = some 4 ∧
      evalText (fun _ => 2) (foldShapeExpr "(1 - 3) ** n".toList) = some (-4) := by
  refine ⟨rfl, rfl, rfl⟩

end ShapeArith

end HpcAgentBench
