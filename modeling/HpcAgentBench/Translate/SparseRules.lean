import HpcAgentBench.Translate.Loops
import HpcAgentBench.Translate.SparseEmit
import HpcAgentBench.Translate.SparseFormats

/-!
# Rules for the loops of sparse products

Integers index and are compared, elements are added and multiplied exactly (`SparseArith`).  The
rules say what the statements of the emitted nests leave in that arithmetic.

## Main results

* `Leaves.accumulate` : an element of the target added to.
* `Leaves.fill` : an array filled with one value.
-/

namespace HpcAgentBench

open List Option

namespace Translate

namespace SparseEmit

variable {V K : Type} [Semiring K]

/-! ### Arithmetic -/

/-- What a comparison of integers says. -/
def comparison (op : String) (m n : ℤ) : Bool :=
  if op = "<" then m < n
  else if op = "<=" then m ≤ n
  else if op = ">=" then n ≤ m
  else if op = "==" then m = n
  else m ≠ n

/-- Integers for indices, exact arithmetic for elements. -/
structure SparseArith (I : Interp V) (elt : K → V) : Prop where
  int : ∀ n, I.const (.int n) = I.ofInt n
  zero : I.const (.float 0) = elt 0
  addInt : ∀ m n, I.binary .add (I.ofInt m) (I.ofInt n) = some (I.ofInt (m + n))
  subInt : ∀ m n, I.binary .sub (I.ofInt m) (I.ofInt n) = some (I.ofInt (m - n))
  mulInt : ∀ m n, I.binary .mult (I.ofInt m) (I.ofInt n) = some (I.ofInt (m * n))
  floorDiv : ∀ m n, 0 < n → I.binary .floorDiv (I.ofInt m) (I.ofInt n) = some (I.ofInt (m / n))
  addElt : ∀ a b, I.binary .add (elt a) (elt b) = some (elt (a + b))
  mulElt : ∀ a b, I.binary .mult (elt a) (elt b) = some (elt (a * b))
  compare : ∀ op ∈ ["<", "<=", ">=", "==", "!="], ∀ m n,
    ∃ c, I.binary (.other op) (I.ofInt m) (I.ofInt n) = some c ∧ I.truth c = comparison op m n

/-- Exact integers, with comparisons. -/
def sparseInterp : Interp ℤ where
  const := intInterp.const
  unary := intInterp.unary
  binary
    | .other op, m, n => some (if comparison op m n then 1 else 0)
    | op, m, n => intInterp.binary op m n
  call := intInterp.call
  effect := intInterp.effect
  truth := intInterp.truth
  int := intInterp.int
  ofInt := intInterp.ofInt
  whole := intInterp.whole
  int_ofInt := intInterp.int_ofInt

theorem sparseInterp_arith : SparseArith sparseInterp (id : ℤ → ℤ) where
  int _ := rfl
  zero := rfl
  addInt _ _ := rfl
  subInt _ _ := rfl
  mulInt _ _ := rfl
  floorDiv m n hn := by
    have hdiv : m / n = Int.fdiv m n := (Int.fdiv_eq_ediv_of_nonneg m hn.le).symm
    rw [hdiv]
    exact if_neg hn.ne'
  addElt _ _ := rfl
  mulElt _ _ := rfl
  compare op _ m n := by
    refine ⟨_, rfl, ?_⟩
    change decide ((if comparison op m n = true then (1 : ℤ) else 0) ≠ 0) = comparison op m n
    cases comparison op m n <;> rfl

variable {I : Interp V} {elt : K → V} {fuel : ℕ} {σ τ : State V} {Q R : State V → Prop}
variable {rest : Block} {a b : Expr} {m n : ℤ}

theorem readsInt_name {x : String} (h : τ.scalars x = some (I.ofInt n)) :
    ReadsInt I τ (.name x) n := value_name h

theorem readsInt_const (hI : SparseArith I elt) (n : ℤ) : ReadsInt I τ (.const (.int n)) n :=
  congrArg some (hI.int n)

theorem readsInt_add (hI : SparseArith I elt) (ha : ReadsInt I τ a m) (hb : ReadsInt I τ b n) :
    ReadsInt I τ (add a b) (m + n) := by
  rw [ReadsInt, add, value_binOp, ha, bind_some, hb, bind_some, hI.addInt]

theorem readsInt_sub (hI : SparseArith I elt) (ha : ReadsInt I τ a m) (hb : ReadsInt I τ b n) :
    ReadsInt I τ (sub a b) (m - n) := by
  rw [ReadsInt, sub, value_binOp, ha, bind_some, hb, bind_some, hI.subInt]

theorem readsInt_mul (hI : SparseArith I elt) (ha : ReadsInt I τ a m) (hb : ReadsInt I τ b n) :
    ReadsInt I τ (mul a b) (m * n) := by
  rw [ReadsInt, mul, value_binOp, ha, bind_some, hb, bind_some, hI.mulInt]

theorem readsInt_floorDiv (hI : SparseArith I elt) (hn : 0 < n) (ha : ReadsInt I τ a m)
    (hb : ReadsInt I τ b n) : ReadsInt I τ (.binOp .floorDiv a b) (m / n) := by
  rw [ReadsInt, value_binOp, ha, bind_some, hb, bind_some, hI.floorDiv _ _ hn]

theorem value_mulElt (hI : SparseArith I elt) {x y : K} (ha : value I τ a = some (elt x))
    (hb : value I τ b = some (elt y)) : value I τ (mul a b) = some (elt (x * y)) := by
  rw [mul, value_binOp, ha, bind_some, hb, bind_some, hI.mulElt]

theorem value_zero (hI : SparseArith I elt) : value I τ zero = some (elt 0) :=
  congrArg some hI.zero

theorem value_compare (hI : SparseArith I elt) (op : String)
    (hop : op ∈ ["<", "<=", ">=", "==", "!="]) (ha : ReadsInt I τ a m) (hb : ReadsInt I τ b n) :
    ∃ c, value I τ (compare op a b) = some c ∧ I.truth c = comparison op m n := by
  obtain ⟨c, hc, htruth⟩ := hI.compare op hop m n
  refine ⟨c, ?_, htruth⟩
  rw [compare, value_binOp, ha, bind_some, hb, bind_some, hc]

/-- The test that a column is one of the matrix. -/
theorem value_onMatrix (hI : SparseArith I elt) (ha : ReadsInt I τ a m) (hb : ReadsInt I τ b n) :
    ∃ c, value I τ (onMatrix a b) = some c ∧ I.truth c = decide (0 ≤ m ∧ m < n) := by
  obtain ⟨c, hc, hctruth⟩ := value_compare hI "<=" (by decide) (readsInt_const hI 0) ha
  obtain ⟨d, hd, hdtruth⟩ := value_compare hI "<" (by decide) ha hb
  have hvalue : value I τ (onMatrix a b) = if I.truth c = true then some d else some c := by
    have hc' : (eval I τ (compare "<=" (.const (.int 0)) a)).bind (force I τ) = some c := hc
    have hd' : (eval I τ (compare "<" a b)).bind (force I τ) = some d := hd
    simp only [onMatrix, value, eval, hc', bind_some]
    by_cases ht : I.truth c = true
    · simp only [ht, if_true, hd', map_some, bind_some, force]
    · simp only [if_neg ht, bind_some, force]
  have hle : comparison "<=" 0 m = decide (0 ≤ m) := rfl
  have hlt : comparison "<" m n = decide (m < n) := rfl
  rw [hvalue]
  by_cases h0 : 0 ≤ m
  · have ht : I.truth c = true := by rw [hctruth, hle, decide_eq_true h0]
    refine ⟨d, if_pos ht, ?_⟩
    rw [hdtruth, hlt]
    simp [h0]
  · have ht : I.truth c = false := by rw [hctruth, hle, decide_eq_false h0]
    refine ⟨c, if_neg (by rw [ht]; decide), ?_⟩
    rw [ht]
    simp [h0]

end SparseEmit

/-! ### Vectors -/

open SparseEmit

/-- A vector by its position. -/
def at1 {α : Type*} (g : ℕ → α) (ix : List ℕ) : α := g (ix.headD 0)

variable {n : ℕ} {ix : List ℕ} {k : ℕ} {V α : Type} {τ : State V} {enc : α → V} {A : String}

theorem update_at1 {α : Type*} (g : ℕ → α) (k : ℕ) (v : α) (hix : ix ∈ box [n]) :
    (Function.update (at1 g) ([k] : List ℕ) v : List ℕ → α) ix =
      at1 (Function.update g k v) ix := by
  obtain _ | @⟨i, _, _, _, _, hnil⟩ := mem_box.1 hix
  cases hnil
  have hat : at1 (Function.update g k v) [i] = Function.update g k v i := rfl
  by_cases hik : i = k
  · rw [hat, hik, Function.update_self, Function.update_self]
  · rw [hat, Function.update_of_ne (by simpa using hik), Function.update_of_ne hik]
    rfl

theorem eq_singleton_of_mem_box (h : ix ∈ box [n]) : ∃ i < n, ix = [i] := by
  obtain _ | @⟨i, _, _, _, hi, hnil⟩ := mem_box.1 h
  cases hnil
  exact ⟨i, hi, rfl⟩

theorem mem_box_singleton : [k] ∈ box [n] ↔ k < n :=
  ⟨fun h => (List.forall₂_cons.1 (mem_box.1 h)).1, fun h => mem_box.2 (.cons h .nil)⟩

theorem Has.value1 {I : Interp V} {g : ℕ → α} {e : Expr} (h : Has enc τ A [n] (at1 g))
    (he : ReadsInt I τ e (k : ℕ)) (hk : k < n) :
    Translate.value I τ (subscript A [e]) = some (enc (g k)) :=
  h.value [k] (.cons he .nil) (mem_box_singleton.2 hk)

theorem Has.toVec {f : List ℕ → α} (h : Has enc τ A [n] f) : Has enc τ A [n] (at1 fun k => f [k]) :=
  h.congr fun ix hix => by
    obtain _ | @⟨i, _, _, _, _, hnil⟩ := mem_box.1 hix
    cases hnil
    rfl

theorem Has.congrVec {β : Type} {enc' : β → V} {f : ℕ → α} {g : ℕ → β} (h : Has enc τ A [n] (at1 f))
    (hfg : ∀ k < n, enc (f k) = enc' (g k)) :
    Has enc' τ A [n] (at1 g) :=
  h.congr fun ix hix => by
    obtain _ | @⟨i, _, _, _, hi, hnil⟩ := mem_box.1 hix
    cases hnil
    exact hfg i hi

/-! ### Statements of the nests -/

namespace Leaves

variable {V K : Type} [Semiring K] {I : Interp V} {elt : K → V} {fuel : ℕ} {σ τ : State V}
variable {Q R : State V → Prop} {rest : Block}
variable {T : String} {shape : List ℕ} {es : List Expr} {e : Expr} {v : K} {n k : ℕ} {i : Expr}

/-- A test whose outcome is known. -/
theorem guard {test : Expr} {body : Block} {c : V} {φ : Prop} [Decidable φ]
    (htest : value I σ test = some c) (hc : I.truth c = decide φ)
    (hbody : φ → Leaves I fuel body σ R) (hskip : ¬ φ → R σ)
    (hrest : ∀ τ, R τ → Leaves I fuel rest τ Q) :
    Leaves I fuel (.ifElse test body .done rest) σ Q := by
  refine ifElse htest ?_ hrest
  rw [hc]
  by_cases hφ : φ
  · rw [if_pos (decide_eq_true hφ)]
    exact hbody hφ
  · rw [if_neg (by simpa using hφ)]
    exact done (hskip hφ)

/-- **An element added to.** -/
theorem accumulate (hI : SparseArith I elt) {g : List ℕ → K} (hT : Has elt σ T shape g)
    (ix : List ℕ) (hes : Forall₂ (fun e (i : ℕ) => ReadsInt I σ e i) es ix)
    (hix : ix ∈ box shape) (he : value I σ e = some (elt v))
    (h : ∀ a, Has elt (σ.setArray T a) T shape (Function.update g ix (g ix + v)) →
      Leaves I fuel rest (σ.setArray T a) Q) :
    Leaves I fuel (.augAssign (place T es) .add e rest) σ Q := by
  obtain ⟨a, hstore, hT'⟩ := hT.store hes hix (g ix + v)
  exact augAssign (hT.value ix hes hix) he (hI.addElt _ _) hstore (h a hT')

/-- An element stored. -/
theorem storeElem {α : Type*} {enc : α → V} {g : List ℕ → α} (hT : Has enc σ T shape g)
    (ix : List ℕ) (hes : Forall₂ (fun e (i : ℕ) => ReadsInt I σ e i) es ix)
    (hix : ix ∈ box shape) {v : α} (he : value I σ e = some (enc v))
    (h : ∀ a, Has enc (σ.setArray T a) T shape (Function.update g ix v) →
      Leaves I fuel rest (σ.setArray T a) Q) :
    Leaves I fuel (.assign [place T es] e rest) σ Q := by
  obtain ⟨a, hstore, hT'⟩ := hT.store hes hix v
  exact assign he hstore (h a hT')

theorem storeVec {α : Type} {enc : α → V} {g : ℕ → α} (hT : Has enc σ T [n] (at1 g))
    (hi : ReadsInt I σ i (k : ℕ)) (hk : k < n) {v : α} (he : value I σ e = some (enc v))
    (h : ∀ a, Has enc (σ.setArray T a) T [n] (at1 (Function.update g k v)) →
      Leaves I fuel rest (σ.setArray T a) Q) :
    Leaves I fuel (.assign [place T [i]] e rest) σ Q :=
  storeElem hT [k] (.cons hi .nil) (mem_box_singleton.2 hk) he fun a ha =>
    h a (ha.congr fun _ hix => congrArg enc (update_at1 g k v hix))

theorem accumulateVec (hI : SparseArith I elt) {g : ℕ → K} (hT : Has elt σ T [n] (at1 g))
    (hi : ReadsInt I σ i (k : ℕ)) (hk : k < n) (he : value I σ e = some (elt v))
    (h : ∀ a, Has elt (σ.setArray T a) T [n] (at1 (Function.update g k (g k + v))) →
      Leaves I fuel rest (σ.setArray T a) Q) :
    Leaves I fuel (.augAssign (place T [i]) .add e rest) σ Q :=
  accumulate hI hT [k] (.cons hi .nil) (mem_box_singleton.2 hk) he fun a ha =>
    h a (ha.congr fun _ hix => congrArg elt (update_at1 g k _ hix))

/-- **An array filled with one value.** -/
theorem fill {β : Type*} {enc : β → V} {x A : String} {v : β} {f : List ℕ → V} {stop : Expr}
    (hx : σ.arrays x = none) (hstop : ReadsInt I σ stop n) (hA : Has id σ A [n] f)
    (he : ∀ τ, Framed [x] [A] σ τ → value I τ e = some (enc v))
    (hrest : ∀ τ, Framed [x] [A] σ τ → Has enc τ A [n] (at1 fun _ => v) → Leaves I fuel rest τ Q) :
    Leaves I fuel (.forRange x (.pair stop .unit) (.assign [place A [.name x]] e .done) rest) σ
      Q := by
  refine countStop (fun k τ => Framed [x] [A] σ τ ∧
    ∃ g, Has id τ A [n] g ∧ ∀ i < k, g [i] = enc v) hstop
    ⟨.refl fun y hy => by
      obtain rfl := mem_singleton.1 hy
      exact ⟨hx, by simpa using (hA.ne_of_none hx).symm⟩, f, hA, by omega⟩ ?_ ?_
  · rintro k τ hk ⟨hτ, g, hg, hdone⟩
    have hnone := hτ.noArray (mem_singleton_self x)
    refine ⟨hnone, ?_⟩
    have hτ' := hτ.setScalar (mem_singleton_self x) (I.ofInt (k : ℕ))
    refine storeElem (v := enc v) (hg.setScalar hnone _) [k]
      (.cons (readsInt_name State.setScalar_self) .nil) (mem_box.2 (.cons hk .nil)) (he _ hτ') ?_
    intro a hA'
    refine done ⟨hτ'.setArray (mem_singleton_self A) a, _, hA', fun i hi => ?_⟩
    by_cases hik : i = k
    · rw [hik, Function.update_self]
    · rw [Function.update_of_ne (by simpa using hik)]
      exact hdone i (by omega)
  · rintro τ ⟨hτ, g, hg, hdone⟩
    refine hrest τ hτ (hg.congr fun ix hix => ?_)
    obtain _ | @⟨i, _, _, _, hi, hnil⟩ := mem_box.1 hix
    cases hnil
    exact hdone i hi

end Leaves

end Translate

end HpcAgentBench
