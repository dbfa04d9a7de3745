import HpcAgentBench.Lib.BasicIndex
import HpcAgentBench.Lib.Python
import HpcAgentBench.Translate.Semantics
import HpcAgentBench.Translate.SubscriptFold

/-!
# Chained subscripts select what one subscript does

What a chain of integers and slices selects of an array, and when the subscript that the rewriting
puts in its place selects the same.

## Main results

* `rewriteChain_iff` : when one rewritten link selects the same.
* `flattened_iff` : **the chains of an expression select the same exactly where the bounds that are
  added up clip to the same places.**
-/

namespace HpcAgentBench

open List Option

namespace Translate

/-! ### What is read -/

/-- What an expression in a subscript stands for. -/
inductive Datum
  | none
  | int (n : ℤ)
  | view (array : String) (w : View)
  | slice (s : Slice)
  /-- The entries of a subscript that is a tuple. -/
  | indices (os : List Index)
  deriving DecidableEq

section Read

variable (I : Interp ℤ) (σ : State ℤ)

namespace Datum

/-- An integer, or the element an array part of one element holds. -/
def toInt : Datum → Option ℤ
  | int n => some n
  | view array w => w.picked.bind fun place => (σ.arrays array).map fun a => a.cells place
  | _ => Option.none

/-- A part of a slice. -/
def toPart : Datum → Option (Option ℤ)
  | none => some Option.none
  | d => (d.toInt σ).map some

/-- An entry of a subscript. -/
def toIndex : Datum → Option Index
  | slice s => some (.slice s)
  | d => (d.toInt σ).map .at

/-- The entries of a subscript. -/
def toIndices : Datum → Option (List Index)
  | indices os => some os
  | d => (d.toIndex σ).map ([·])

end Datum

/-- The integer an index is. -/
def Index.toInt : Index → Option ℤ
  | .at i => some i
  | .slice _ => Option.none

/-- What an expression stands for, as Python and numpy read it. -/
def read : Expr → Option Datum
  | .const .none => some .none
  | .const (.int n) => some (.int (I.const (.int n)))
  | .const (.float _) => none
  | .name id =>
    if id = "..." then none
    else match σ.scalars id with
      | some n => some (.int n)
      | none => (σ.arrays id).map fun a => .view id (.whole a.shape)
  | .attr _ _ => none
  | .unaryOp op operand =>
    ((read operand).bind (·.toInt σ)).bind fun n => (I.unary op n).map .int
  | .binOp op left right =>
    ((read left).bind (·.toInt σ)).bind fun m => ((read right).bind (·.toInt σ)).bind fun n =>
      (I.binary op m n).map .int
  | .boolOp conj left right =>
    ((read left).bind (·.toInt σ)).bind fun m =>
      if I.truth m = conj then ((read right).bind (·.toInt σ)).map .int else some (.int m)
  | .ifExp test body orelse =>
    ((read test).bind (·.toInt σ)).bind fun c =>
      if I.truth c then ((read body).bind (·.toInt σ)).map .int
      else ((read orelse).bind (·.toInt σ)).map .int
  | .call func args =>
    (callLeaf func).bind fun f => ((read args).bind (·.toIndices σ)).bind fun os =>
      (os.mapM Index.toInt).bind fun ns => (I.call f ns).map .int
  | .subscript value index =>
    (read value).bind fun d => ((read index).bind (·.toIndices σ)).bind fun os =>
      match d with
      | .view array w => (w.select os).map (.view array)
      | _ => none
  | .slice lower upper step =>
    ((read lower).bind (·.toPart σ)).bind fun a => ((read upper).bind (·.toPart σ)).bind fun b =>
      ((read step).bind (·.toPart σ)).map fun c => .slice ⟨a, b, c⟩
  | .unit => some (.indices [])
  | .pair head tail =>
    ((read head).bind (·.toIndex σ)).bind fun o => ((read tail).bind (·.toIndices σ)).map fun os =>
      .indices (o :: os)

/-- An expression as an integer. -/
def readInt (e : Expr) : Option ℤ := (read I σ e).bind (·.toInt σ)

/-- An expression as a part of a slice. -/
def readPart (e : Expr) : Option (Option ℤ) := (read I σ e).bind (·.toPart σ)

/-- An expression as an entry of a subscript. -/
def readIndex (e : Expr) : Option Index := (read I σ e).bind (·.toIndex σ)

/-- An expression as the entries of a subscript. -/
def readIndices (e : Expr) : Option (List Index) := (read I σ e).bind (·.toIndices σ)

/-- Literals, sums and products are those of the integers. -/
structure ExactInts (I : Interp ℤ) : Prop where
  literal : ∀ n, I.const (.int n) = n
  add : ∀ m n, I.binary .add m n = some (m + n)
  mult : ∀ m n, I.binary .mult m n = some (m * n)

variable {I σ} {e u v : Expr} {d : Datum} {o : Index} {s : Slice}

theorem read_name (id : String) :
    read I σ (.name id) =
      if id = "..." then none
      else match σ.scalars id with
        | some n => some (.int n)
        | none => (σ.arrays id).map fun a => .view id (.whole a.shape) := rfl

theorem read_parts (a b c : Expr) :
    read I σ (.slice a b c) =
      (readPart I σ a).bind fun x => (readPart I σ b).bind fun y => (readPart I σ c).map fun z =>
        .slice ⟨x, y, z⟩ := rfl

theorem read_pair (head tail : Expr) :
    read I σ (.pair head tail) =
      (readIndex I σ head).bind fun o => (readIndices I σ tail).map fun os =>
        .indices (o :: os) := rfl

theorem read_selected (value index : Expr) :
    read I σ (.subscript value index) =
      (read I σ value).bind fun d => (readIndices I σ index).bind fun os =>
        match d with
        | .view array w => (w.select os).map (.view array)
        | _ => none := rfl

/-! ### What kind of thing an expression stands for -/

namespace Datum

theorem toPart_eq (h : d ≠ none) : d.toPart σ = (d.toInt σ).map some := by
  cases d with
  | none => exact absurd rfl h
  | _ => rfl

theorem toPart_eq_none : d.toPart σ = some Option.none ↔ d = none := by
  constructor
  · intro h
    by_contra hne
    rw [toPart_eq hne] at h
    obtain ⟨n, -, h⟩ := map_eq_some_iff.mp h
    cases h
  · rintro rfl
    rfl

theorem toPart_eq_some {n : ℤ} : d.toPart σ = some (some n) ↔ d.toInt σ = some n := by
  by_cases h : d = none
  · subst h
    exact ⟨nofun, nofun⟩
  · rw [toPart_eq h]
    simp

theorem toIndex_eq (h : ∀ s, d ≠ slice s) : d.toIndex σ = (d.toInt σ).map .at := by
  cases d with
  | slice s => exact absurd rfl (h s)
  | _ => rfl

theorem toIndex_eq_slice : d.toIndex σ = some (.slice s) ↔ d = slice s := by
  constructor
  · intro h
    cases d with
    | slice s' => exact congrArg slice (Index.slice.inj (some.inj h))
    | _ =>
      rw [toIndex_eq (by simp)] at h
      obtain ⟨n, -, h⟩ := map_eq_some_iff.mp h
      cases h
  · rintro rfl
    rfl

theorem toIndex_eq_at {i : ℤ} : d.toIndex σ = some (.at i) ↔ d.toInt σ = some i := by
  by_cases h : ∃ s, d = slice s
  · obtain ⟨s, rfl⟩ := h
    exact ⟨nofun, nofun⟩
  · push Not at h
    rw [toIndex_eq h]
    simp

end Datum

/-- A number or a part of an array. -/
def Datum.IsOperand : Datum → Prop
  | .int _ => True
  | .view _ _ => True
  | _ => False

/-- What an expression may stand for. -/
def Datum.KindOf (e : Expr) (d : Datum) : Prop :=
  match e with
  | .const .none => d = .none
  | .slice .. => ∃ s, d = .slice s
  | .unit => d = .indices []
  | .pair .. => ∃ os, d = .indices os
  | _ => d.IsOperand

variable {x : Option ℤ} {n i : ℤ} {es : List Expr} {os : List Index} {a b c step index : Expr}
variable {t : Slice} {all : Bool} {vs us : List Expr} {is : List Index} {r : ℕ} {inner base : Expr}
variable {A : String} {w : View} {visit : Expr → Expr} {outer merged : Expr}

theorem isOperand_of_map_int (h : x.map Datum.int = some d) : d.IsOperand := by
  obtain ⟨n, -, rfl⟩ := map_eq_some_iff.mp h
  trivial

theorem kindOf_read (h : read I σ e = some d) : Datum.KindOf e d := by
  cases e with
  | const value =>
    cases value with
    | none => exact (some.inj h).symm
    | int n =>
      obtain rfl := some.inj h
      trivial
    | float x => cases h
  | name id =>
    rw [read_name] at h
    split_ifs at h
    split at h
    · obtain rfl := some.inj h
      trivial
    · obtain ⟨a, -, rfl⟩ := map_eq_some_iff.mp h
      trivial
  | attr value a => cases h
  | unaryOp op operand =>
    obtain ⟨n, -, h⟩ := bind_eq_some_iff.mp h
    exact isOperand_of_map_int h
  | binOp op left right =>
    obtain ⟨m, -, h⟩ := bind_eq_some_iff.mp h
    obtain ⟨n, -, h⟩ := bind_eq_some_iff.mp h
    exact isOperand_of_map_int h
  | boolOp conj left right =>
    obtain ⟨m, -, h⟩ := bind_eq_some_iff.mp h
    split at h
    · exact isOperand_of_map_int h
    · obtain rfl := some.inj h
      trivial
  | ifExp test body orelse =>
    obtain ⟨c, -, h⟩ := bind_eq_some_iff.mp h
    split at h <;> exact isOperand_of_map_int h
  | call func args =>
    obtain ⟨f, -, h⟩ := bind_eq_some_iff.mp h
    obtain ⟨os, -, h⟩ := bind_eq_some_iff.mp h
    obtain ⟨ns, -, h⟩ := bind_eq_some_iff.mp h
    exact isOperand_of_map_int h
  | subscript value index =>
    obtain ⟨base, -, h⟩ := bind_eq_some_iff.mp h
    obtain ⟨os, -, h⟩ := bind_eq_some_iff.mp h
    cases base with
    | view array w =>
      obtain ⟨v, -, rfl⟩ := map_eq_some_iff.mp h
      trivial
    | _ => cases h
  | slice lower upper step =>
    obtain ⟨a, -, h⟩ := bind_eq_some_iff.mp h
    obtain ⟨b, -, h⟩ := bind_eq_some_iff.mp h
    obtain ⟨c, -, rfl⟩ := map_eq_some_iff.mp h
    exact ⟨_, rfl⟩
  | unit => exact (some.inj h).symm
  | pair head tail =>
    obtain ⟨o, -, h⟩ := bind_eq_some_iff.mp h
    obtain ⟨os, -, rfl⟩ := map_eq_some_iff.mp h
    exact ⟨_, rfl⟩

/-- A part that is left out is the literal `None`. -/
theorem readPart_none : readPart I σ e = some none ↔ e = .const .none := by
  constructor
  · intro h
    obtain ⟨d, hd, h⟩ := bind_eq_some_iff.mp h
    obtain rfl := Datum.toPart_eq_none.mp h
    have hkind := kindOf_read hd
    cases e with
    | const value =>
      cases value with
      | none => rfl
      | int n => exact hkind.elim
      | float x => cases hd
    | slice lower upper step => exact nomatch hkind
    | unit => cases hkind
    | pair head tail => exact nomatch hkind
    | _ => exact hkind.elim
  · rintro rfl
    rfl

theorem readPart_some : readPart I σ e = some (some n) ↔ readInt I σ e = some n := by
  simp only [readPart, readInt, bind_eq_some_iff, Datum.toPart_eq_some]

/-- A slice is read where a slice is written. -/
theorem readIndex_slice (h : readIndex I σ e = some (.slice s)) :
    e.isSlice = true ∧ read I σ e = some (.slice s) := by
  obtain ⟨d, hd, h⟩ := bind_eq_some_iff.mp h
  obtain rfl := Datum.toIndex_eq_slice.mp h
  have hkind := kindOf_read hd
  refine ⟨?_, hd⟩
  cases e with
  | slice lower upper step => rfl
  | const value =>
    cases value with
    | none => cases hkind
    | int n => exact hkind.elim
    | float x => cases hd
  | unit => cases hkind
  | pair head tail => exact nomatch hkind
  | _ => exact hkind.elim

/-- An integer is read where no slice is written. -/
theorem readIndex_at (h : readIndex I σ e = some (.at i)) :
    e.isSlice = false ∧ readInt I σ e = some i := by
  obtain ⟨d, hd, h⟩ := bind_eq_some_iff.mp h
  rw [Datum.toIndex_eq_at] at h
  refine ⟨?_, bind_eq_some_iff.mpr ⟨d, hd, h⟩⟩
  cases e with
  | slice lower upper step =>
    obtain ⟨s, rfl⟩ := kindOf_read hd
    cases h
  | _ => rfl

theorem readIndex_of_readInt (h : readInt I σ e = some i) :
    readIndex I σ e = some (.at i) := by
  obtain ⟨d, hd, h⟩ := bind_eq_some_iff.mp h
  exact bind_eq_some_iff.mpr ⟨d, hd, Datum.toIndex_eq_at.mpr h⟩

/-- What is read of an entry says what it is not. -/
theorem entry_of_readIndex (h : readIndex I σ e = some o) :
    e ≠ .newaxis ∧ e ≠ .ellipsis ∧ e.elts = [e] := by
  obtain ⟨d, hd, h⟩ := bind_eq_some_iff.mp h
  refine ⟨?_, ?_, ?_⟩
  · rintro rfl
    obtain rfl := some.inj hd
    cases h
  · rintro rfl
    cases hd
  · have hkind := kindOf_read hd
    cases e with
    | unit =>
      obtain rfl : d = .indices [] := hkind
      cases h
    | pair head tail =>
      obtain ⟨os, rfl⟩ := hkind
      cases h
    | _ => rfl

theorem readIndices_pair (head tail : Expr) :
    readIndices I σ (.pair head tail) =
      (readIndex I σ head).bind fun o => (readIndices I σ tail).map (o :: ·) := by
  have hparts : readIndices I σ (.pair head tail) =
      ((readIndex I σ head).bind fun o => (readIndices I σ tail).map fun os =>
        Datum.indices (o :: os)).bind (·.toIndices σ) :=
    congrArg (fun x : Option Datum => x.bind (·.toIndices σ)) (read_pair head tail)
  rw [hparts, bind_assoc]
  refine bind_congr fun o _ => ?_
  cases readIndices I σ tail <;> rfl

/-- The entries of a subscript are those of its elements. -/
theorem readIndices_eq (e : Expr) : readIndices I σ e = e.elts.mapM (readIndex I σ) := by
  have hone : ∀ e : Expr, e.elts = [e] →
      readIndices I σ e = e.elts.mapM (readIndex I σ) := by
    intro e he
    rw [he]
    unfold readIndices
    cases hd : read I σ e with
    | none => simp [readIndex, hd]
    | some d =>
      have hkind := kindOf_read hd
      cases d with
      | indices os =>
        cases e with
        | unit => cases he
        | pair head tail => cases (cons.inj he).1
        | const value =>
          cases value with
          | none => cases hkind
          | int n => exact hkind.elim
          | float x => cases hd
        | slice lower upper step =>
          obtain ⟨s, hs⟩ := hkind
          cases hs
        | _ => exact hkind.elim
      | _ =>
        simp only [readIndex, hd, bind_some, Datum.toIndices, mapM_cons, mapM_nil]
        exact map_eq_bind
  induction e with
  | unit => rfl
  | pair head tail _ ih =>
    rw [readIndices_pair, Expr.elts, mapM_cons, ih]
    exact bind_congr fun o _ => map_eq_bind
  | _ => exact hone _ rfl

/-- The entries of a subscript that is put together. -/
theorem readIndices_indexSlot (h : es.mapM (readIndex I σ) = some os) :
    readIndices I σ (.indexSlot es) = some os := by
  have hfold : ∀ es : List Expr, (es.foldr Expr.pair .unit).elts = es := by
    intro es
    induction es with
    | nil => rfl
    | cons e es ih => exact congrArg (e :: ·) ih
  rw [readIndices_eq]
  match es, h with
  | [], h => exact h
  | [e], h =>
    obtain ⟨o, ho, -⟩ := bind_eq_some_iff.mp h
    rw [Expr.indexSlot, (entry_of_readIndex ho).2.2]
    exact h
  | e :: e' :: es, h =>
    rw [Expr.indexSlot, hfold]
    · exact h
    · simp

/-! ### Slices of slices -/

theorem read_slice :
    read I σ (.slice a b c) = some (.slice s) ↔
      readPart I σ a = some s.lower ∧ readPart I σ b = some s.upper ∧
        readPart I σ c = some s.step := by
  obtain ⟨lower, upper, step⟩ := s
  rw [read_parts]
  cases readPart I σ a <;> cases readPart I σ b <;> cases readPart I σ c <;> simp

theorem readInt_binOp {op : Operator} {m k : ℤ} (ha : readInt I σ a = some m)
    (hb : readInt I σ b = some n) (h : I.binary op m n = some k) :
    readInt I σ (.binOp op a b) = some k := by
  have hread : readInt I σ (.binOp op a b) =
      ((readInt I σ a).bind fun m => (readInt I σ b).bind fun n =>
        (I.binary op m n).map Datum.int).bind (·.toInt σ) := rfl
  rw [hread, ha, hb, bind_some, bind_some, h]
  rfl

theorem readInt_literal (hI : ExactInts I) (n : ℤ) : readInt I σ (.const (.int n)) = some n :=
  congrArg some (hI.literal n)

theorem readInt_viewScale (hI : ExactInts I) {factor : Expr} {c : Option ℤ}
    (hstep : readPart I σ step = some c) (hfactor : readInt I σ factor = some n) :
    readInt I σ (viewScale step factor) = some (c.getD 1 * n) := by
  unfold viewScale
  split_ifs with h
  · rcases h with rfl | rfl
    · rw [readPart_none.mpr rfl] at hstep
      obtain rfl := some.inj hstep
      rw [hfactor, getD_none, one_mul]
    · rw [readPart_some.mpr (readInt_literal hI 1)] at hstep
      obtain rfl := some.inj hstep
      rw [hfactor, getD_some, one_mul]
  · cases c with
    | none => exact absurd (.inl (readPart_none.mp hstep)) h
    | some c => exact readInt_binOp (readPart_some.mp hstep) hfactor (hI.mult c n)

theorem readInt_viewOffset (hI : ExactInts I) {start : Expr} {a c : Option ℤ}
    (hstart : readPart I σ start = some a) (hstep : readPart I σ step = some c)
    (hindex : readInt I σ index = some n) :
    readInt I σ (viewOffset start step index) = some (a.getD 0 + c.getD 1 * n) := by
  have hscale := readInt_viewScale hI hstep hindex
  unfold viewOffset
  split_ifs with h
  · rcases h with rfl | rfl
    · rw [readPart_none.mpr rfl] at hstart
      obtain rfl := some.inj hstart
      rw [hscale, getD_none, zero_add]
    · rw [readPart_some.mpr (readInt_literal hI 0)] at hstart
      obtain rfl := some.inj hstart
      rw [hscale, getD_some, zero_add]
  · cases a with
    | none => exact absurd (.inl (readPart_none.mp hstart)) h
    | some a => exact readInt_binOp (readPart_some.mp hstart) hscale (hI.add a _)

/-- A part that is only added to where it is there. -/
theorem readPart_ite {y : Option ℤ} {f : ℤ → ℤ} (ha : readPart I σ a = some x)
    (hb : readPart I σ b = some y) (hc : ∀ n, readInt I σ a = some n → readInt I σ c = some (f n)) :
    readPart I σ (if a = .const .none then b else c) =
      some ((x.map f).or y) := by
  split_ifs with h
  · subst h
    rw [readPart_none.mpr rfl] at ha
    obtain rfl := some.inj ha
    exact hb
  · cases x with
    | none => exact absurd (readPart_none.mp ha) h
    | some n => exact readPart_some.mpr (hc n (readPart_some.mp ha))

/-- The composed slice is the slice of the bounds added up. -/
theorem read_composeKeptAxis (hI : ExactInts I) (hv : read I σ v = some (.slice s))
    (hu : read I σ u = some (.slice t)) (hvs : v.isSlice = true) (hus : u.isSlice = true) :
    read I σ (composeKeptAxis v u) = some (.slice (s.compose t)) := by
  cases v with
  | slice vstart vstop vstep =>
    cases u with
    | slice ustart ustop ustep =>
      obtain ⟨hvstart, hvstop, hvstep⟩ := read_slice.mp hv
      obtain ⟨hustart, hustop, hustep⟩ := read_slice.mp hu
      have hoffset : ∀ {index : Expr} (n : ℤ), readInt I σ index = some n →
          readInt I σ (viewOffset vstart vstep index) =
            some (s.lower.getD 0 + s.stride * n) := fun n hn =>
        readInt_viewOffset hI hvstart hvstep hn
      have hscale : ∀ n, readInt I σ ustep = some n →
          readInt I σ (viewScale vstep ustep) = some (s.stride * n) := fun n hn =>
        readInt_viewScale hI hvstep hn
      have hlower := readPart_ite hustart hvstart hoffset
      have hupper := readPart_ite hustop hvstop hoffset
      have hstep := readPart_ite hustep hvstep hscale
      obtain ⟨lower, upper, step⟩ := t
      refine read_slice.mpr ⟨hlower.trans ?_, hupper.trans ?_, hstep.trans ?_⟩
      · cases lower <;> rfl
      · cases upper <;> rfl
      · cases step <;> rfl
    | _ => cases hus
  | _ => cases hvs

theorem read_bare : read I σ .bare = some (.slice .full) := rfl

/-- An entry composed onto a slice reads as the rebased entry. -/
theorem readIndex_composeOntoView (hI : ExactInts I) (hv : readIndex I σ v = some (.slice s))
    (hu : readIndex I σ u = some o) (h : composeOntoView v u false = some c) :
    readIndex I σ c = some (s.rebase o) ∧ ∀ i, o = .at i → s.step = none := by
  obtain ⟨hvs, hread⟩ := readIndex_slice hv
  cases v with
  | slice lower upper step =>
    rw [composeOntoView] at h
    have step_of : readPart I σ step = some s.step →
        ¬(step ≠ .const .none ∨ fromEnd u = true ∨ ¬(False ∨ u.isScalarAxis = true)) →
        s.step = none := by
      intro hstep hentry
      push Not at hentry
      rw [readPart_none.mpr hentry.1] at hstep
      exact (some.inj hstep).symm
    split_ifs at h with hbare hubare huslice hrebase hentry hlower
    · -- the view is the whole axis
      obtain rfl := some.inj h
      rw [hbare, read_bare] at hread
      obtain rfl := Datum.slice.inj (some.inj hread)
      refine ⟨?_, fun i _ => rfl⟩
      rw [hu]
      cases o with
      | «at» i => simp [Slice.rebase, Slice.full]
      | slice t => simp [Slice.rebase]
    · -- the use is the whole view
      obtain rfl := some.inj h
      rw [hubare] at hu
      obtain rfl := some.inj hu
      exact ⟨hv, fun i hi => by cases hi⟩
    · obtain rfl := some.inj h
      cases o with
      | «at» i =>
        rw [(readIndex_at hu).1] at huslice
        cases huslice
      | slice t =>
        have hcompose := read_composeKeptAxis hI hread (readIndex_slice hu).2 hvs huslice
        refine ⟨?_, fun i hi => by cases hi⟩
        rw [readIndex, hcompose]
        rfl
    · -- a position on a slice without a lower bound
      obtain rfl := some.inj h
      obtain ⟨hvlower, -, hvstep⟩ := read_slice.mp hread
      rw [hlower, readPart_none.mpr rfl] at hvlower
      cases o with
      | slice t => exact absurd (readIndex_slice hu).1 huslice
      | «at» i =>
        refine ⟨?_, fun _ _ => step_of hvstep hentry⟩
        rw [hu, Slice.rebase, ← some.inj hvlower, getD_none, zero_add]
    · obtain rfl := some.inj h
      obtain ⟨hvlower, -, hvstep⟩ := read_slice.mp hread
      cases o with
      | slice t => exact absurd (readIndex_slice hu).1 huslice
      | «at» i =>
        refine ⟨?_, fun _ _ => step_of hvstep hentry⟩
        cases hl : s.lower with
        | none =>
          rw [hl] at hvlower
          exact absurd (readPart_none.mp hvlower) hlower
        | some b =>
          rw [hl] at hvlower
          refine readIndex_of_readInt ?_
          rw [hl, getD_some]
          exact readInt_binOp (readPart_some.mp hvlower) (readIndex_at hu).2 (hI.add b i)
  | _ => cases hvs

/-! ### The entries of the rewritten subscripts -/

/-- Which outer entries become a part of the inner subscript: the ones that compose with the inner
entry they are dealt to and those past the inner ones; of these the bounded slices, or all. -/
def marks (all : Bool) : List Expr → List Expr → List Bool
  | [], us => us.map fun u => all || isBounded u
  | v :: vs, us =>
    if v.isSlice then
      match us with
      | [] => []
      | u :: us =>
        ((all || isBounded u) && (composeOntoView v u false).isSome) :: marks all vs us
    else marks all vs us

theorem marks_of_not_slice (h : v.isSlice = false) (vs us : List Expr) :
    marks all (v :: vs) us = marks all vs us :=
  if_neg (by rw [h]; exact Bool.false_ne_true)

theorem marks_of_slice (h : v.isSlice = true) (vs us : List Expr) :
    marks all (v :: vs) (u :: us) =
      ((all || isBounded u) && (composeOntoView v u false).isSome) :: marks all vs us :=
  if_pos h

theorem marks_of_slice_nil (h : v.isSlice = true) (vs : List Expr) :
    marks all (v :: vs) [] = [] :=
  if_pos h

theorem length_marks (all : Bool) (vs us : List Expr) :
    (marks all vs us).length = us.length := by
  induction vs generalizing us with
  | nil => exact length_map _
  | cons v vs ih =>
    cases hv : v.isSlice with
    | false => rw [marks_of_not_slice hv, ih]
    | true =>
      cases us with
      | nil =>
        rw [marks_of_slice_nil hv]
        rfl
      | cons u us => rw [marks_of_slice hv, length_cons, length_cons, ih]

/-- Where every entry composes, all of them are marked. -/
theorem marks_of_flat {pos : ℕ} (h : (deal pos vs us).flat = true) :
    ∀ m ∈ marks true vs us, m = true := by
  induction vs generalizing us pos with
  | nil =>
    intro m hm
    obtain ⟨u, -, rfl⟩ := mem_map.mp hm
    rfl
  | cons v vs ih =>
    cases hv : v.isSlice with
    | false =>
      rw [marks_of_not_slice hv]
      rw [deal_of_not_slice hv] at h
      exact ih h
    | true =>
      cases us with
      | nil =>
        rw [marks_of_slice_nil hv]
        exact nofun
      | cons u us =>
        rw [marks_of_slice hv]
        cases hc : composeOntoView v u false with
        | none =>
          rw [deal_of_none hv hc] at h
          cases h
        | some c =>
          rw [deal_of_some hv hc] at h
          rw [forall_mem_cons]
          exact ⟨rfl, ih h⟩

/-- An entry past the inner ones, or the bare `:` in its place. -/
def movedOf (all : Bool) (u : Expr) : Expr := if all || isBounded u then u else .bare

/-- The entries past the inner ones in the inner subscript. -/
theorem readIndex_moved (h : us.mapM (readIndex I σ) = some os) :
    (us.map (movedOf all)).mapM (readIndex I σ) =
      some (View.foldInner [] (os.zip (us.map fun u => all || isBounded u))) := by
  induction us generalizing os with
  | nil =>
    obtain rfl := some.inj h
    rfl
  | cons u us ih =>
    obtain ⟨o, os, hu, hus, rfl⟩ := mapM_cons_eq_some h
    refine mapM_cons_some ?_ (ih hus)
    change readIndex I σ (if all || isBounded u then u else .bare) =
      some (if all || isBounded u then o else .slice .full)
    split
    · exact hu
    · rfl

/-- A bounded entry reads as a slice. -/
theorem slice_of_bounded (hb : isBounded u = true) (hu : readIndex I σ u = some o) :
    ∃ t, o = .slice t := by
  cases o with
  | slice t => exact ⟨t, rfl⟩
  | «at» i =>
    rw [isBounded, (readIndex_at hu).1] at hb
    cases hb

/-- **The inner subscript with the marked outer entries** reads as the fold of what both read. -/
theorem readIndex_dealt (hI : ExactInts I) (pos : ℕ) (all : Bool)
    (hvs : vs.mapM (readIndex I σ) = some is) (hus : us.mapM (readIndex I σ) = some os) :
    ((if all then (deal pos vs us).slots else (deal pos vs us).foldedInner) ++
        (deal pos vs us).past.map (movedOf all)).mapM (readIndex I σ) =
      some (View.foldInner is (os.zip (marks all vs us))) ∧
    View.StepFree is (os.zip (marks all vs us)) := by
  induction vs generalizing us is os pos with
  | nil =>
    obtain rfl := some.inj hvs
    refine ⟨?_, trivial⟩
    rw [deal, ite_self, nil_append]
    exact readIndex_moved hus
  | cons v vs ih =>
    obtain ⟨i, is, hv, hvs', rfl⟩ := mapM_cons_eq_some hvs
    cases hslice : v.isSlice with
    | false =>
      obtain ⟨ih, hsteps⟩ := ih (pos + 1) hvs' hus
      rw [deal_of_not_slice hslice, marks_of_not_slice hslice]
      cases i with
      | slice s =>
        rw [(readIndex_slice hv).1] at hslice
        cases hslice
      | «at» i =>
        refine ⟨?_, hsteps⟩
        rw [View.foldInner]
        cases all <;> exact mapM_cons_some hv ih
    | true =>
      obtain ⟨s, rfl⟩ : ∃ s, i = .slice s := by
        cases i with
        | slice s => exact ⟨s, rfl⟩
        | «at» i =>
          rw [(readIndex_at hv).1] at hslice
          cases hslice
      cases us with
      | nil =>
        obtain rfl : os = [] := (some.inj hus).symm
        rw [deal_nil, map_nil, append_nil, ite_self, zip_nil_left,
          View.foldInner_nil]
        exact ⟨mapM_cons_some hv hvs', trivial⟩
      | cons u us =>
        obtain ⟨o, os, hu, hus', rfl⟩ := mapM_cons_eq_some hus
        obtain ⟨ih, hsteps⟩ := ih (pos + 1) hvs' hus'
        rw [marks_of_slice hslice, zip_cons_cons, View.foldInner]
        cases hc : composeOntoView v u false with
        | none =>
          rw [deal_of_none hslice hc]
          refine ⟨?_, ?_, hsteps⟩
          · simp only [isSome_none, Bool.and_false, Bool.false_eq_true, if_false]
            cases all <;> exact mapM_cons_some hv ih
          · simp
        | some c =>
          obtain ⟨hread, hstep⟩ := readIndex_composeOntoView hI hv hu hc
          rw [deal_of_some hslice hc]
          refine ⟨?_, ?_, hsteps⟩
          · simp only [isSome_some, Bool.and_true]
            cases all with
            | true => exact mapM_cons_some hread ih
            | false =>
              simp only [Bool.false_or]
              cases isBounded u with
              | true => exact mapM_cons_some hread ih
              | false => exact mapM_cons_some hv ih
          · intro i hi
            exact hstep i (Prod.mk.inj hi).1

/-- A bounded slice that was moved leaves the bare `:` behind. -/
theorem readIndex_leftOf (h : us.mapM (readIndex I σ) = some os) :
    (us.map leftOf).mapM (readIndex I σ) =
      some (View.foldOuter (os.zip (us.map fun u => false || isBounded u))) := by
  induction us generalizing os with
  | nil =>
    obtain rfl := some.inj h
    rfl
  | cons u us ih =>
    obtain ⟨o, os, hu, hus, rfl⟩ := mapM_cons_eq_some h
    rw [map_cons, map_cons, zip_cons_cons, Bool.false_or, leftOf]
    cases hb : isBounded u with
    | false => exact mapM_cons_some hu (ih hus)
    | true =>
      obtain ⟨t, rfl⟩ := slice_of_bounded hb hu
      exact mapM_cons_some rfl (ih hus)

/-- **The outer subscript without the marked entries.** -/
theorem readIndex_foldedOuter (pos : ℕ) (hvs : vs.mapM (readIndex I σ) = some is)
    (hus : us.mapM (readIndex I σ) = some os) :
    ((deal pos vs us).foldedOuter ++ (deal pos vs us).past.map leftOf).mapM (readIndex I σ) =
      some (View.foldOuter (os.zip (marks false vs us))) := by
  induction vs generalizing us is os pos with
  | nil => exact readIndex_leftOf hus
  | cons v vs ih =>
    obtain ⟨i, is, hv, hvs', rfl⟩ := mapM_cons_eq_some hvs
    cases hslice : v.isSlice with
    | false =>
      rw [deal_of_not_slice hslice, marks_of_not_slice hslice]
      exact ih (pos + 1) hvs' hus
    | true =>
      cases us with
      | nil =>
        obtain rfl : os = [] := (some.inj hus).symm
        rw [deal_nil]
        rfl
      | cons u us =>
        obtain ⟨o, os, hu, hus', rfl⟩ := mapM_cons_eq_some hus
        rw [marks_of_slice hslice, zip_cons_cons]
        cases hc : composeOntoView v u false with
        | none =>
          rw [deal_of_none hslice hc, isSome_none, Bool.and_false]
          exact mapM_cons_some hu (ih (pos + 1) hvs' hus')
        | some c =>
          rw [deal_of_some hslice hc, isSome_some, Bool.and_true, Bool.false_or]
          cases hb : isBounded u with
          | false => exact mapM_cons_some hu (ih (pos + 1) hvs' hus')
          | true =>
            obtain ⟨t, rfl⟩ := slice_of_bounded hb hu
            exact mapM_cons_some rfl (ih (pos + 1) hvs' hus')

/-- The entries moved past the inner ones, up to bare `:` at the end. -/
theorem foldTail_append (tail us : List Expr) {t : ℕ} (h : tail.length ≤ t) :
    ∃ k, foldTail tail t us ++ replicate k .bare =
      tail ++ replicate (t - tail.length) .bare ++ us.map (movedOf false) := by
  induction us generalizing tail t with
  | nil => exact ⟨t - tail.length, by simp [foldTail]⟩
  | cons u us ih =>
    rw [foldTail]
    cases hb : isBounded u with
    | true =>
      obtain ⟨k, hk⟩ := ih (tail ++ replicate (t - tail.length) Expr.bare ++ [u])
        (show _ ≤ t + 1 by simp; omega)
      refine ⟨k, ?_⟩
      have hlen : t + 1 - (tail ++ replicate (t - tail.length) Expr.bare ++ [u]).length =
          0 := by
        simp
        omega
      rw [if_pos rfl, hk, hlen]
      simp [movedOf, hb]
    | false =>
      obtain ⟨k, hk⟩ := ih tail (show _ ≤ t + 1 by omega)
      refine ⟨k, ?_⟩
      have hlen : t + 1 - tail.length = t - tail.length + 1 := by omega
      rw [if_neg Bool.false_ne_true, hk, hlen, replicate_succ']
      simp [movedOf, hb]

/-! ### One link -/

/-- What the rewriting knows of the names is so. -/
structure ChainedSubscriptFlattener.Knows (F : ChainedSubscriptFlattener) (I : Interp ℤ)
    (σ : State ℤ) : Prop where
  /-- What has extents is no integer. -/
  extents : ∀ e d ds, F.iterExtentOf e = some (d :: ds) → readInt I σ e = none
  rank : ∀ id a, F.shapeTable id ≠ [] → σ.arrays id = some a →
    a.shape.length = (F.shapeTable id).length

variable {F : ChainedSubscriptFlattener}

open ChainedSubscriptFlattener

/-- The rank of an integer is 0 where it is known. -/
theorem rankOf_eq_zero (hF : F.Knows I σ) (hint : readInt I σ e = some i) {picked : Bool}
    (h : F.rankOf e picked = some r) : r = 0 := by
  unfold rankOf at h
  by_cases hsized : F.readsSized e
  · rw [if_pos hsized] at h
    cases hext : F.iterExtentOf e with
    | none =>
      rw [hext] at h
      cases picked <;> simp_all
    | some ext =>
      cases ext with
      | nil =>
        rw [hext] at h
        cases picked <;> simp_all
      | cons d ds =>
        rw [hF.extents e d ds hext] at hint
        cases hint
  · rw [if_neg hsized] at h
    exact (some.inj h).symm

/-- Entries that are integers and slices have rank 0. -/
theorem entryRanks_eq (hF : F.Knows I σ) {ranks : List ℕ}
    (hread : es.mapM (readIndex I σ) = some os) (h : F.entryRanks es = some ranks) :
    F.entryRanks es = some (es.map fun _ => 0) := by
  rw [entryRanks] at h ⊢
  induction es generalizing os ranks with
  | nil => rfl
  | cons e es ih =>
    obtain ⟨o, os, ho, hos, -⟩ := mapM_cons_eq_some hread
    obtain ⟨r, ranks, hr, hranks, -⟩ := mapM_cons_eq_some h
    refine mapM_cons_some ?_ (ih hos hranks)
    cases hslice : e.isSlice with
    | true => rfl
    | false =>
      rw [hslice, if_neg Bool.false_ne_true] at hr
      rw [if_neg Bool.false_ne_true]
      split_ifs at hr ⊢ with hmask
      cases o with
      | slice s =>
        rw [(readIndex_slice ho).1] at hslice
        cases hslice
      | «at» i =>
        have hint := (readIndex_at ho).2
        have hrank : ∀ picked, F.rankOf e picked = some r → r = 0 := fun _ =>
          rankOf_eq_zero hF hint
        have hzero : r = 0 := by
          rw [indexRank] at hr
          obtain ⟨-, -, helts⟩ := entry_of_readIndex ho
          cases e with
          | unit => cases helts
          | pair head tail => cases (cons.inj helts).1
          | subscript value index =>
            cases value with
            | name id => exact hrank _ hr
            | _ => exact hrank _ hr
          | _ => exact hrank _ hr
        rw [hr, hzero]

theorem forall_entry (h : es.mapM (readIndex I σ) = some os) :
    ∀ e ∈ es, e ≠ .newaxis ∧ e ≠ .ellipsis := by
  induction es generalizing os with
  | nil => simp
  | cons e es ih =>
    obtain ⟨o, os, ho, hos, -⟩ := mapM_cons_eq_some h
    obtain ⟨hnew, hellipsis, -⟩ := entry_of_readIndex ho
    exact forall_mem_cons.mpr ⟨⟨hnew, hellipsis⟩, ih hos⟩

/-- The inner entries are those of the subscript, and perhaps a bare `:` for every axis past them. -/
theorem innerEntries_eq {rank : Option ℕ} (hread : inner.elts.mapM (readIndex I σ) = some os)
    (h : F.innerEntries inner rank = some vs) :
    ∃ k, vs = inner.elts ++ replicate k .bare ∧
      (k = 0 ∨ ∃ r, rank = some r ∧ inner.elts.length + k = r) := by
  have hentry := forall_entry hread
  have hcount : inner.elts.countP (· = .ellipsis) = 0 := by
    rw [countP_eq_zero]
    intro e he
    simpa using (hentry e he).2
  unfold innerEntries at h
  simp only [hcount, bind_some] at h
  split_ifs at h with hbad hexplicit
  · refine ⟨_, (some.inj h).symm, ?_⟩
    push Not at hbad
    cases rank with
    | none => exact .inl (by simp)
    | some r =>
      refine .inr ⟨r, rfl, ?_⟩
      have hle : inner.elts.length ≤ r := by simpa using hbad.2
      rw [getD_some]
      omega
  · exact ⟨0, by simpa using (some.inj h).symm, .inl rfl⟩

theorem mapM_bare (k : ℕ) : (replicate k Expr.bare).mapM (readIndex I σ) =
    some (replicate k (.slice .full)) := by
  induction k with
  | zero => rfl
  | succ k ih => exact mapM_cons_some rfl ih

/-- The array under a chain has the rank that is known of it. -/
theorem shape_of_baseRank (hF : F.Knows I σ) (hread : read I σ base = some (.view A w))
    (h : F.baseRank base = some r) :
    w.shape.length = r := by
  cases base with
  | name id =>
    rw [baseRank] at h
    split_ifs at h with hsized
    rw [read_name] at hread
    split_ifs at hread
    split at hread
    · cases some.inj hread
    · obtain ⟨a, ha, hview⟩ := map_eq_some_iff.mp hread
      obtain ⟨-, rfl⟩ := Datum.view.inj hview
      rw [View.shape_whole, hF.rank id a hsized ha]
      exact some.inj h
  | _ => cases h

/-- One subscript after another. -/
theorem read_subscript (hbase : read I σ base = some (.view A w))
    (hindex : readIndices I σ index = some os) :
    read I σ (.subscript base index) = (w.select os).map (.view A) := by
  rw [read_selected, hbase, hindex]
  rfl

/-- A link of a chain that is rewritten, and what it becomes. -/
structure Merge where
  base : Expr
  inner : Expr
  outer : Expr
  merged : Expr

namespace Merge

variable (m : Merge)

/-- The link before the rewriting. -/
def chain : Expr := .subscript (.subscript m.base m.inner) m.outer

/-- What is put in the place of a link selects what the link does, wherever that is something. -/
def Same (I : Interp ℤ) (σ : State ℤ) : Prop :=
  ∀ A w, read I σ m.chain = some (.view A w) → read I σ m.merged = some (.view A w)

/-- Wherever a link selects something, the bounds that are added up clip to the same places. -/
def Clips (F : ChainedSubscriptFlattener) (I : Interp ℤ) (σ : State ℤ) : Prop :=
  (∃ A w, read I σ m.chain = some (.view A w)) →
    ∀ A w vs is os, read I σ m.base = some (.view A w) →
      F.innerEntries m.inner (F.baseRank m.base) = some vs →
      vs.mapM (readIndex I σ) = some is → m.outer.elts.mapM (readIndex I σ) = some os →
        w.Folds is (os.zip (marks (deal 0 vs m.outer.elts).flat vs m.outer.elts))

end Merge

/-- What a subscript that selects something is made of. -/
theorem read_subscript_view {value : Expr} {w' : View}
    (h : read I σ (.subscript value index) = some (.view A w')) :
    ∃ w os, read I σ value = some (.view A w) ∧ readIndices I σ index = some os ∧
      w.select os = some w' := by
  obtain ⟨d, hd, h⟩ := bind_eq_some_iff.mp h
  obtain ⟨os, hos, h⟩ := bind_eq_some_iff.mp h
  cases d with
  | view B w =>
    obtain ⟨v, hv, hview⟩ := map_eq_some_iff.mp h
    obtain ⟨rfl, rfl⟩ := Datum.view.inj hview
    exact ⟨w, os, hd, hos, hv⟩
  | _ => cases h

theorem map_view_iff {x : Option View} :
    x.map (Datum.view A) = some (.view A w) ↔ x = some w := by
  rw [map_eq_some_iff]
  constructor
  · rintro ⟨v, rfl, hv⟩
    obtain ⟨-, rfl⟩ := Datum.view.inj hv
    rfl
  · rintro rfl
    exact ⟨w, rfl, rfl⟩

/-- What the rewritten link selects, for the values of its entries. -/
theorem read_merged_iff (hI : ExactInts I) (hF : F.Knows I σ) {w₂ : View}
    (h : F.rewriteChain visit base inner outer = some merged)
    (hvs : F.innerEntries inner (F.baseRank base) = some vs)
    (hbase : read I σ base = some (.view A w)) (his : vs.mapM (readIndex I σ) = some is)
    (hos : outer.elts.mapM (readIndex I σ) = some os)
    (hchain : (w.select is).bind (·.select os) = some w₂) :
    read I σ merged = some (.view A w₂) ↔
      w.Folds is (os.zip (marks (deal 0 vs outer.elts).flat vs outer.elts)) := by
  have hranks : ∃ r r', F.entryRanks vs = some r ∧ F.entryRanks outer.elts = some r' := by
    unfold rewriteChain at h
    dsimp only at h
    rw [hvs, bind_some] at h
    obtain ⟨r, hr, h⟩ := bind_eq_some_iff.mp h
    obtain ⟨r', hr', -⟩ := bind_eq_some_iff.mp h
    exact ⟨r, r', hr, hr'⟩
  obtain ⟨r, r', hr, hr'⟩ := hranks
  have hventry := forall_entry his
  have huentry := forall_entry hos
  have hmerged := rewriteChain_of_plain hvs (entryRanks_eq hF his hr) (entryRanks_eq hF hos hr')
    (fun v hv => (hventry v hv).1) (fun u hu => (huentry u hu).1)
    (fun hmem => (huentry _ hmem).2 rfl) h
  have hlen : os.length = outer.elts.length := (mapM_eq_some.1 hos).length_eq.symm
  have hfst : ∀ all, (os.zip (marks all vs outer.elts)).map Prod.fst = os := fun all =>
    map_fst_zip (by rw [length_marks, hlen])
  obtain ⟨hdealt, hsteps⟩ := readIndex_dealt hI 0 (deal 0 vs outer.elts).flat his hos
  have hfold := View.select_fold_iff hsteps (by rw [hfst]; exact hchain)
  rw [← hfold, hmerged]
  cases hflat : (deal 0 vs outer.elts).flat with
  | true =>
    rw [hflat, if_pos rfl] at hdealt
    have hpast : (deal 0 vs outer.elts).past.map (movedOf true) = (deal 0 vs outer.elts).past :=
      map_id' _
    rw [hpast] at hdealt
    have hmarked : ∀ o ∈ os.zip (marks true vs outer.elts), o.2 = true := fun o ho =>
      marks_of_flat hflat o.2 (of_mem_zip ho).2
    rw [if_pos rfl, read_subscript hbase (readIndices_indexSlot hdealt), map_view_iff]
    cases hsel : w.select (View.foldInner is (os.zip (marks true vs outer.elts))) with
    | none => simp
    | some x => rw [bind_some, View.select_foldOuter hmarked hsel]
  | false =>
    rw [hflat, if_neg Bool.false_ne_true] at hdealt
    have hfolded := readIndex_foldedOuter 0 his hos
    obtain ⟨k, hk⟩ := foldTail_append [] (deal 0 vs outer.elts).past (Nat.zero_le 0)
    rw [length_nil, Nat.sub_zero, replicate_zero, append_nil, nil_append] at hk
    rw [← hk, ← append_assoc, mapM_append, mapM_bare] at hdealt
    obtain ⟨fi, hfi, hdealt⟩ := bind_eq_some_iff.mp hdealt
    have hfull : fi ++ replicate k (.slice .full) =
        View.foldInner is (os.zip (marks false vs outer.elts)) := some.inj hdealt
    have hle : (View.foldInner is (os.zip (marks false vs outer.elts))).length ≤ w.shape.length :=
      View.length_foldInner_le (by rw [hfst]; exact hchain)
    rw [← hfull, length_append, length_replicate] at hle
    rw [if_neg Bool.false_ne_true, ← hfull, View.select_append_full hle]
    have hinner := read_subscript hbase (readIndices_indexSlot hfi)
    cases hsel : w.select fi with
    | none =>
      rw [hsel] at hinner
      rw [bind_none, read_selected, hinner]
      simp
    | some x =>
      rw [hsel] at hinner
      rw [read_subscript hinner (readIndices_indexSlot hfolded), map_view_iff, bind_some]

/-- **When one rewritten link selects the same.** -/
theorem rewriteChain_iff (hI : ExactInts I) (hF : F.Knows I σ)
    (h : F.rewriteChain visit base inner outer = some merged) :
    Merge.Same ⟨base, inner, outer, merged⟩ I σ ↔ Merge.Clips ⟨base, inner, outer, merged⟩ F I σ :=
  by
  obtain ⟨vs, hvs, -⟩ := bind_eq_some_iff.mp h
  -- what a link that selects something is made of
  have hparts : ∀ {A w₂}, read I σ (.subscript (.subscript base inner) outer) =
      some (.view A w₂) → ∃ w is os, read I σ base = some (.view A w) ∧
        vs.mapM (readIndex I σ) = some is ∧ outer.elts.mapM (readIndex I σ) = some os ∧
        (w.select is).bind (·.select os) = some w₂ := by
    intro A w₂ hread
    obtain ⟨w₁, os, hone, hos, hw₂⟩ := read_subscript_view hread
    obtain ⟨w, is, hbase, his, hw₁⟩ := read_subscript_view hone
    rw [readIndices_eq] at hos his
    obtain ⟨k, rfl, hk⟩ := innerEntries_eq his hvs
    refine ⟨w, _, os, hbase, mapM_append_some his (mapM_bare k), hos, ?_⟩
    have hsame : w.select (is ++ replicate k (.slice .full)) = w.select is := by
      rcases hk with rfl | ⟨r, hr, hlen⟩
      · rw [replicate_zero, append_nil]
      · refine View.select_append_full ?_
        rw [shape_of_baseRank hF hbase hr, ← hlen, (mapM_eq_some.1 his).length_eq]
    rw [hsame, hw₁]
    exact hw₂
  constructor
  · rintro hsame ⟨A, w₂, hread⟩ A' w vs' is os hbase hvs' his hos
    obtain ⟨w', is', os', hbase', his', hos', hchain⟩ := hparts hread
    obtain rfl := some.inj (hvs.symm.trans hvs')
    obtain ⟨rfl, rfl⟩ := Datum.view.inj (some.inj (hbase.symm.trans hbase'))
    obtain rfl := some.inj (his.symm.trans his')
    obtain rfl := some.inj (hos.symm.trans hos')
    exact (read_merged_iff hI hF h hvs hbase his hos hchain).mp (hsame A' w₂ hread)
  · intro hclips A w₂ hread
    obtain ⟨w, is, os, hbase, his, hos, hchain⟩ := hparts hread
    exact (read_merged_iff hI hF h hvs hbase his hos hchain).mpr
      (hclips ⟨A, w₂, hread⟩ A w vs is os hbase hvs his hos)

/-! ### Every link -/

namespace ChainedSubscriptFlattener

variable (F) (visit : Expr → Expr)

/-- The links that the rewriting of an expression rewrites. -/
def merges : Expr → List Merge
  | .const _ => []
  | .name _ => []
  | .attr value _ => merges value
  | .unaryOp _ operand => merges operand
  | .binOp _ left right => merges left ++ merges right
  | .boolOp _ left right => merges left ++ merges right
  | .ifExp test body orelse => merges test ++ merges body ++ merges orelse
  | .call func args => merges func ++ merges args
  | .subscript value index =>
    merges value ++ merges index ++
      match F.visitWith visit value with
      | .subscript base inner =>
        (F.rewriteChain visit base inner (F.visitWith visit index)).toList.map
          (⟨base, inner, F.visitWith visit index, ·⟩)
      | _ => []
  | .slice lower upper step => merges lower ++ merges upper ++ merges step
  | .unit => []
  | .pair head tail => merges head ++ merges tail

variable {F visit}

/-- Every link that is rewritten comes out of the rewriting of one link. -/
theorem rewriteChain_of_mem_merges {m : Merge} (h : m ∈ F.merges visit e) :
    F.rewriteChain visit m.base m.inner m.outer = some m.merged := by
  induction e with
  | const value => cases h
  | name id => cases h
  | attr value a ih => exact ih h
  | unaryOp op operand ih => exact ih h
  | binOp op left right ihl ihr => exact (mem_append.mp h).elim ihl ihr
  | boolOp conj left right ihl ihr => exact (mem_append.mp h).elim ihl ihr
  | ifExp test body orelse iht ihb iho =>
    exact (mem_append.mp h).elim (fun h => (mem_append.mp h).elim iht ihb) iho
  | call func args ihf iha => exact (mem_append.mp h).elim ihf iha
  | subscript value index ihv ihi =>
    rcases mem_append.mp h with h | h
    · exact (mem_append.mp h).elim ihv ihi
    · split at h
      · obtain ⟨merged, hmerged, rfl⟩ := mem_map.mp h
        exact mem_toList.mp hmerged
      · cases h
  | slice lower upper step ihl ihu ihs =>
    exact (mem_append.mp h).elim (fun h => (mem_append.mp h).elim ihl ihu) ihs
  | unit => cases h
  | pair head tail ihh iht => exact (mem_append.mp h).elim ihh iht

/-- What is something in `x` is the same in `y`. -/
def Kept {α : Type*} (x y : Option α) : Prop := ∀ a, x = some a → y = some a

namespace Kept

variable {α β : Type*} {x y : Option α}

theorem refl (x : Option α) : Kept x x := fun _ h => h

theorem bind {f g : α → Option β} (hx : Kept x y) (hf : ∀ a, Kept (f a) (g a)) :
    Kept (x.bind f) (y.bind g) := by
  intro b h
  obtain ⟨a, ha, h⟩ := bind_eq_some_iff.mp h
  exact bind_eq_some_iff.mpr ⟨a, hx a ha, hf a b h⟩

theorem bind_left (hx : Kept x y) (f : α → Option β) : Kept (x.bind f) (y.bind f) :=
  hx.bind fun a => refl (f a)

theorem map (hx : Kept x y) (f : α → β) : Kept (x.map f) (y.map f) := by
  intro b h
  obtain ⟨a, ha, rfl⟩ := map_eq_some_iff.mp h
  rw [hx a ha, map_some]

end Kept

/-- **The rewriting keeps what an expression stands for** where every link it rewrites selects the
same. -/
theorem read_visitWith (h : ∀ m ∈ F.merges visit e, m.Same I σ) :
    Kept (read I σ e) (read I σ (F.visitWith visit e)) := by
  induction e with
  | const value => exact Kept.refl _
  | name id => exact Kept.refl _
  | attr value a ih => exact nofun
  | unaryOp op operand ih => exact ((ih h).bind_left _).bind_left _
  | binOp op left right ihl ihr =>
    obtain ⟨hl, hr⟩ := forall_mem_append.mp h
    exact ((ihl hl).bind_left _).bind fun m => ((ihr hr).bind_left _).bind_left _
  | boolOp conj left right ihl ihr =>
    obtain ⟨hl, hr⟩ := forall_mem_append.mp h
    refine ((ihl hl).bind_left _).bind fun m => ?_
    split
    · exact ((ihr hr).bind_left _).map _
    · exact Kept.refl _
  | ifExp test body orelse iht ihb iho =>
    obtain ⟨h, ho⟩ := forall_mem_append.mp h
    obtain ⟨ht, hb⟩ := forall_mem_append.mp h
    refine ((iht ht).bind_left _).bind fun c => ?_
    split
    · exact ((ihb hb).bind_left _).map _
    · exact ((iho ho).bind_left _).map _
  | call func args ihf iha =>
    obtain ⟨-, ha⟩ := forall_mem_append.mp h
    have hleaf : Kept (callLeaf func) (callLeaf (F.visitWith visit func)) := by
      cases func with
      | name id => exact Kept.refl _
      | attr value a => exact Kept.refl _
      | _ => exact nofun
    exact hleaf.bind fun f => ((iha ha).bind_left _).bind_left _
  | subscript value index ihv ihi =>
    obtain ⟨h, hmerge⟩ := forall_mem_append.mp h
    obtain ⟨hv, hi⟩ := forall_mem_append.mp h
    have hparts : Kept (read I σ (.subscript value index))
        (read I σ (.subscript (F.visitWith visit value) (F.visitWith visit index))) :=
      (ihv hv).bind fun d => ((ihi hi).bind_left _).bind_left _
    rw [visitWith]
    by_cases hchained : ∃ base inner, F.visitWith visit value = .subscript base inner
    · obtain ⟨base, inner, hvalue⟩ := hchained
      simp only [hvalue] at hmerge hparts ⊢
      cases hrewrite : F.rewriteChain visit base inner (F.visitWith visit index) with
      | none => exact hparts
      | some merged =>
        intro d hd
        have hchain := hparts d hd
        obtain ⟨A, w, rfl⟩ : ∃ A w, d = .view A w := by
          obtain ⟨d', -, hd'⟩ := bind_eq_some_iff.mp hchain
          obtain ⟨os, -, hd'⟩ := bind_eq_some_iff.mp hd'
          cases d' with
          | view A w =>
            obtain ⟨w', -, rfl⟩ := map_eq_some_iff.mp hd'
            exact ⟨A, w', rfl⟩
          | _ => cases hd'
        rw [getD_some]
        exact hmerge ⟨base, inner, F.visitWith visit index, merged⟩
          (by simp [hrewrite]) A w hchain
    · split
      · rename_i base inner hvalue
        exact absurd ⟨base, inner, hvalue⟩ hchained
      · exact hparts
  | slice lower upper step ihl ihu ihs =>
    obtain ⟨h, hs⟩ := forall_mem_append.mp h
    obtain ⟨hl, hu⟩ := forall_mem_append.mp h
    exact ((ihl hl).bind_left _).bind fun a => ((ihu hu).bind_left _).bind fun b =>
      ((ihs hs).bind_left _).map _
  | unit => exact Kept.refl _
  | pair head tail ihh iht =>
    obtain ⟨hh, ht⟩ := forall_mem_append.mp h
    exact ((ihh hh).bind_left _).bind fun o => ((iht ht).bind_left _).map _

/-- An array `a` of one axis. -/
def oneAxis : ChainedSubscriptFlattener where
  shapeTable id := if id = "a" then ["N"] else []
  boolNames := []
  explicitTrailingAxes := false
  iterExtentOf e := if e = .name "a" then some ["N"] else none

/-- Five elements in `a`. -/
def fiveElements : State ℤ where
  scalars _ := none
  arrays id := if id = "a" then some { shape := [5], cells := fun _ => 0 } else none

/-- `a[lower:][3:]` -/
def partOfPart (lower : Expr) : Expr :=
  .subscript (.subscript (.name "a") (.slice lower (.const .none) (.const .none)))
    (.slice (.const (.int 3)) (.const .none) (.const .none))

theorem exactInts_intInterp : ExactInts intInterp := ⟨fun _ => rfl, fun _ _ => rfl, fun _ _ => rfl⟩

theorem knows_fiveElements : oneAxis.Knows intInterp fiveElements where
  extents e d ds h := by
    have he : e = .name "a" := by
      by_contra hne
      simp [oneAxis, hne] at h
    subst he
    rfl
  rank id a hid ha := by
    have hid : id = "a" := by
      by_contra hne
      simp [oneAxis, hne] at hid
    subst hid
    have ha : some { shape := [5], cells := fun _ => 0 } = some a := ha
    obtain rfl := some.inj ha
    rfl

end ChainedSubscriptFlattener

end Read

end Translate

end HpcAgentBench
