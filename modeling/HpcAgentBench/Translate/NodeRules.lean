import HpcAgentBench.Translate.Reshape
import HpcAgentBench.Translate.SparseRules

/-!
# Rules for the loops of library calls

The nests that are emitted for calls of numpy's functions: indices are integers (`NodeArith`), a
`while` ends when a measure runs out, and a nest is followed index by index of its box.

## Main results

* `Leaves.whileDo` : a `while` with an invariant and a measure.
* `Leaves.nest` : a nest that deals with one index of its box in each round.
-/

namespace HpcAgentBench

open List Option

namespace Translate

variable {V : Type} {I : Interp V} {fuel : ℕ} {σ τ : State V}

/-! ### Indices -/

/-- The arithmetic of indices; `num` is how numbers are written, the natural ones as they index. -/
structure NodeArith (I : Interp V) (num : ℤ → V) : Prop where
  nat : ∀ n : ℕ, num n = I.ofInt n
  const : ∀ n : ℕ, I.const (.int n) = num n
  add : ∀ m n, I.binary .add (num m) (num n) = some (num (m + n))
  sub : ∀ m n, I.binary .sub (num m) (num n) = some (num (m - n))
  mult : ∀ m n, I.binary .mult (num m) (num n) = some (num (m * n))
  floorDiv : ∀ m n, 0 < n → I.binary .floorDiv (num m) (num n) = some (num (m / n))
  mod : ∀ m n, 0 < n → I.binary (.other "%") (num m) (num n) = some (num (m % n))
  compare : ∀ op ∈ ["<", "<=", ">=", "==", "!="], ∀ m n,
    ∃ c, I.binary (.other op) (num m) (num n) = some c ∧
      I.truth c = SparseEmit.comparison op m n

/-- An expression reads a number. -/
def ReadsNum (num : ℤ → V) (I : Interp V) (τ : State V) (e : Expr) (z : ℤ) : Prop :=
  value I τ e = some (num z)

section Reads

variable {num : ℤ → V} {a b : Expr} {m n : ℤ}
variable {c : V} {iters : List String} {ix shape : List ℕ}

theorem NodeArith.readsInt (hI : NodeArith I num) {e : Expr} {k : ℕ} :
    ReadsNum num I τ e k ↔ ReadsInt I τ e k := by
  rw [ReadsNum, ReadsInt, hI.nat]

theorem readsNum_name {x : String} (h : τ.scalars x = some (num n)) :
    ReadsNum num I τ (.name x) n := value_name h

theorem readsNum_const (hI : NodeArith I num) (n : ℕ) :
    ReadsNum num I τ (.const (.int n)) n := congrArg some (hI.const n)

theorem readsNum_binOp {op : Operator} {k : ℤ} (ha : ReadsNum num I τ a m)
    (hb : ReadsNum num I τ b n) (hop : I.binary op (num m) (num n) = some (num k)) :
    ReadsNum num I τ (.binOp op a b) k := by
  rw [ReadsNum, value_binOp, ha, bind_some, hb, bind_some, hop]

theorem value_comparison (hI : NodeArith I num) (op : String)
    (hop : op ∈ ["<", "<=", ">=", "==", "!="]) (ha : ReadsNum num I τ a m)
    (hb : ReadsNum num I τ b n) :
    ∃ c, value I τ (SparseEmit.compare op a b) = some c ∧
      I.truth c = SparseEmit.comparison op m n := by
  obtain ⟨c, hc, htruth⟩ := hI.compare op hop m n
  refine ⟨c, ?_, htruth⟩
  rw [SparseEmit.compare, value_binOp, ha, bind_some, hb, bind_some, hc]

/-- `and` of two tests: the second is only read where the first holds. -/
theorem value_and (ha : value I τ a = some c) (φ : Prop) [Decidable φ] (hc : I.truth c = decide φ)
    {ψ : Prop} [Decidable ψ] (hb : φ → ∃ d, value I τ b = some d ∧ I.truth d = decide ψ) :
    ∃ d, value I τ (.boolOp true a b) = some d ∧ I.truth d = decide (φ ∧ ψ) := by
  have ha' : (eval I τ a).bind (force I τ) = some c := ha
  by_cases hφ : φ
  · obtain ⟨d, hd, htruth⟩ := hb hφ
    have hd' : (eval I τ b).bind (force I τ) = some d := hd
    refine ⟨d, ?_, by simp [htruth, hφ]⟩
    simp only [value, eval, ha', bind_some, hc, hφ, decide_true, if_true, hd',
      map_some, force]
  · refine ⟨c, ?_, by simp [hc, hφ]⟩
    simp only [value, eval, ha', bind_some, hc, hφ, decide_false, Bool.false_eq_true,
      if_false, force]

theorem value_ifExp {test body orelse : Expr} (htest : value I τ test = some c) :
    value I τ (.ifExp test body orelse) =
      if I.truth c then value I τ body else value I τ orelse := by
  have htest' : (eval I τ test).bind (force I τ) = some c := htest
  simp only [value, eval, htest', bind_some]
  split <;> rfl

theorem NodeArith.num_injective (hI : NodeArith I num) : Function.Injective num := by
  intro m n hmn
  obtain ⟨c, hc, htruth⟩ := hI.compare "==" (by decide) m m
  obtain ⟨d, hd, htruth'⟩ := hI.compare "==" (by decide) m n
  rw [← hmn, hc] at hd
  obtain rfl := Option.some.inj hd
  rw [htruth] at htruth'
  simpa [SparseEmit.comparison] using htruth'

/-- The variables of a nest at an index, as entries. -/
theorem readsInt_iters (h : AtIndex I τ iters ix) :
    List.Forall₂ (fun e (i : ℕ) => ReadsInt I τ e i) (iters.map .name) ix := by
  rw [forall₂_map_left_iff]
  exact h.imp fun _ _ hx => SparseEmit.readsInt_name hx

theorem AtIndex.congr (h : AtIndex I τ iters ix) {υ : State V}
    (hkeep : ∀ x ∈ iters, υ.scalars x = τ.scalars x) : AtIndex I υ iters ix := by
  have hzip := forall₂_iff_zip.1 h
  refine forall₂_iff_zip.2 ⟨hzip.1, fun {x i} hxi => ?_⟩
  rw [hkeep x (of_mem_zip hxi).1]
  exact hzip.2 hxi

/-! ### Places outside an array -/

theorem mem_box_of_locate {at_ : List ℕ} (hlength : ix.length = shape.length)
    (h : locate shape (ix.map fun i : ℕ => (i : ℤ)) = some at_) : ix ∈ box shape := by
  rw [mem_box]
  induction ix generalizing shape at_ with
  | nil =>
    obtain rfl := length_eq_zero_iff.1 hlength.symm
    exact .nil
  | cons i ix ih =>
    obtain _ | ⟨n, shape⟩ := shape
    · cases hlength
    rw [map_cons, locate] at h
    obtain ⟨j, hj, h⟩ := bind_eq_some_iff.1 h
    obtain ⟨js, hjs, -⟩ := map_eq_some_iff.1 h
    refine .cons ?_ (ih (Nat.succ.inj hlength) hjs)
    unfold wrapIndex at hj
    split at hj
    · omega
    · obtain ⟨hrange, -⟩ := ite_none_right_eq_some.1 hj
      omega

/-- **Reading outside an array has no result.** -/
theorem Has.value_outside {α : Type*} {enc : α → V} {A : String} {f : List ℕ → α}
    (h : Has enc τ A shape f) {es : List Expr}
    (hes : List.Forall₂ (fun e (i : ℕ) => ReadsInt I τ e i) es ix)
    (hlength : ix.length = shape.length) (hix : ix ∉ box shape) :
    Translate.value I τ (.subscript (.name A) (indexSlot es)) = none := by
  obtain ⟨hscalar, a, ha, rfl, -⟩ := h
  have hnone : locate a.shape (ix.map fun i : ℕ => (i : ℤ)) = none :=
    eq_none_iff_forall_ne_some.2 fun _ hat => hix (mem_box_of_locate hlength hat)
  rw [Translate.value, eval_element hscalar ha (Has.items hes) (mapM_int_ofInt ix),
    bind_some, force, State.part, ha, bind_some, hnone]
  rfl

end Reads

/-! ### Statements after one another -/

theorem exec_append (b c : Block) (σ : State V) :
    exec I fuel (b.append c) σ = (exec I fuel b σ).bind fun r =>
      match r.2 with
      | .next => exec I fuel c r.1
      | .brk => some r := by
  have hend : ∀ {rest : Block}, (∀ σ, exec I fuel (rest.append c) σ = (exec I fuel rest σ).bind
      fun r => match r.2 with
        | .next => exec I fuel c r.1
        | .brk => some r) → ∀ o : Option (State V), o.bind (exec I fuel (rest.append c)) =
      (o.bind (exec I fuel rest)).bind fun r => match r.2 with
        | .next => exec I fuel c r.1
        | .brk => some r := by
    intro rest ih o
    rw [bind_assoc]
    exact bind_congr fun σ _ => ih σ
  induction b generalizing σ with
  | done => rfl
  | brk rest => rfl
  | assign targets e rest ih =>
    rw [Block.append, exec, exec, bind_assoc]
    exact bind_congr fun v _ => hend ih _
  | augAssign target op e rest ih =>
    simp only [Block.append, exec, bind_assoc]
    exact bind_congr fun _ _ => bind_congr fun _ _ => bind_congr fun _ _ =>
      bind_congr fun σ _ => ih σ
  | expr e rest ih =>
    rw [Block.append, exec, exec]
    exact hend ih _
  | ifElse test body orelse rest _ _ ih =>
    rw [Block.append, exec, exec, bind_assoc]
    refine bind_congr fun v _ => ?_
    rw [bind_assoc]
    refine bind_congr fun r _ => ?_
    cases hr : r.2 with
    | next => exact ih r.1
    | brk => simp only [bind_some, hr]
  | forRange target args body rest _ ih =>
    rw [Block.append, exec, exec, bind_assoc]
    exact bind_congr fun v _ => hend ih _
  | whileDo test body rest _ ih =>
    rw [Block.append, exec, exec]
    exact hend ih _

namespace Leaves

variable {Q R : State V → Prop} {rest : Block}
variable {body : Block}

theorem append {b c : Block} (h : Leaves I fuel b σ R)
    (hrest : ∀ τ, R τ → Leaves I fuel c τ Q) : Leaves I fuel (b.append c) σ Q := by
  obtain ⟨τ, hτ, hR⟩ := h
  obtain ⟨υ, hυ, hQ⟩ := hrest τ hR
  exact ⟨υ, by rw [exec_append, hτ, bind_some, hυ], hQ⟩

/-- **A `while` with an invariant**, and a measure that each iteration makes smaller. -/
theorem whileDo {test : Expr} (Inv : ℕ → State V → Prop) {m : ℕ} (hinit : Inv m σ)
    (hfuel : m < fuel) (hstep : ∀ k τ, k ≤ m → Inv k τ → ∃ c, value I τ test = some c ∧
      (I.truth c = true → ∃ j < k, Leaves I fuel body τ (Inv j)) ∧ (I.truth c = false → R τ))
    (hrest : ∀ τ, R τ → Leaves I fuel rest τ Q) :
    Leaves I fuel (.whileDo test body rest) σ Q := by
  suffices h : ∀ (f k : ℕ) (τ : State V), k < f → k ≤ m → Inv k τ →
      ∃ υ, whileSteps (fun σ => value I σ test) I.truth (exec I fuel body) f τ = some υ ∧ R υ by
    obtain ⟨τ, hτ, hR⟩ := h fuel m σ hfuel le_rfl hinit
    obtain ⟨υ, hυ, hQ⟩ := hrest τ hR
    exact ⟨υ, by rw [exec, hτ, bind_some, hυ], hQ⟩
  intro f
  induction f with
  | zero => exact fun k _ hk => absurd hk (Nat.not_lt_zero k)
  | succ f ih =>
    intro k τ hk hm hInv
    obtain ⟨c, hc, hgo, hstop⟩ := hstep k τ hm hInv
    rw [whileSteps, hc, bind_some]
    cases htruth : I.truth c with
    | true =>
      obtain ⟨j, hj, υ, hυ, hInv'⟩ := hgo htruth
      rw [if_pos rfl, hυ, bind_some]
      exact ih j υ (by omega) (by omega) hInv'
    | false => exact ⟨τ, if_neg (by decide), hstop htruth⟩

/-- **A nest, index by index of its box.** -/
theorem nest (temps written : List String) (shape : List ℕ) {loops : List (String × Expr)}
    (P : List (List ℕ) → State V → Prop) (hlength : loops.length = shape.length)
    (hnodup : (loops.map Prod.fst).Nodup) (htemps : ∀ x ∈ loops.map Prod.fst, x ∈ temps)
    (hbounds : ∀ τ, Framed temps written σ τ → ∀ q ∈ loops.zip shape, ReadsInt I τ q.1.2 q.2)
    (hσ : Framed temps written σ σ) (hinit : P [] σ)
    (hscalar : ∀ done τ, Framed temps written σ τ → P done τ → ∀ x ∈ loops.map Prod.fst, ∀ v,
      P done (τ.setScalar x v))
    (hbody : ∀ done ix later τ, box shape = done ++ ix :: later → Framed temps written σ τ →
      P done τ → AtIndex I τ (loops.map Prod.fst) ix → Leaves I fuel body τ fun υ =>
      Framed temps written σ υ ∧ P (done ++ [ix]) υ ∧
      ∀ x ∈ loops.map Prod.fst, υ.scalars x = τ.scalars x) :
    Leaves I fuel (wrapForLoops loops body) σ fun τ =>
      Framed temps written σ τ ∧ P (box shape) τ := by
  refine nest_sound shape loops fuel (P := fun done τ => Framed temps written σ τ ∧ P done τ)
    hlength hnodup ?_ ?_ ?_ ⟨hσ, hinit⟩
  · rintro done τ ⟨hτ, hP⟩ x hx v
    exact ⟨hτ.noArray (htemps x hx), hτ.setScalar (htemps x hx) v, hscalar done τ hτ hP x hx v⟩
  · rintro done τ ⟨hτ, -⟩ q hq
    exact rangeValues_single (hbounds τ hτ q hq) (I.int_ofInt _)
  · rintro done ix later τ hbox ⟨hτ, hP⟩ hix
    have hmem : ix ∈ box shape := by rw [hbox]; simp
    obtain ⟨υ, hυ, hframed, hPυ, hkeep⟩ := hbody done ix later τ hbox hτ hP
      (atIndex_of_zip (hlength.trans (length_of_mem_box hmem).symm) hix)
    exact ⟨υ, hυ, ⟨hframed, hPυ⟩, hkeep⟩

end Leaves

/-- **A nest whose first round has no result has none.** -/
theorem exec_nest_none {body : Block} {shape : List ℕ} {loops : List (String × Expr)}
    (P : State V → Prop) (hlength : loops.length = shape.length)
    (hnodup : (loops.map Prod.fst).Nodup)
    (hset : ∀ τ, P τ → ∀ x ∈ loops.map Prod.fst, ∀ v, τ.arrays x = none ∧ P (τ.setScalar x v))
    (hbounds : ∀ τ, P τ → ∀ q ∈ loops.zip shape, ReadsInt I τ q.1.2 q.2)
    (hpos : ∀ n ∈ shape, 0 < n)
    (hbody : ∀ τ, P τ → (∀ x ∈ loops.map Prod.fst, τ.scalars x = some (I.ofInt (0 : ℕ))) →
      exec I fuel body τ = none) (hτ : P τ) :
    exec I fuel (wrapForLoops loops body) τ = none := by
  induction loops generalizing shape τ P with
  | nil => exact hbody τ hτ fun x hx => by cases hx
  | cons loop loops ih =>
    obtain ⟨x, bound⟩ := loop
    obtain _ | ⟨n, shape⟩ := shape
    · cases hlength
    rw [map_cons, nodup_cons] at hnodup
    have hrange := rangeValues_single (hbounds τ hτ ((x, bound), n) mem_cons_self)
      (I.int_ofInt _)
    obtain ⟨m, rfl⟩ : ∃ m, n = m + 1 := ⟨n - 1, by have := hpos n mem_cons_self; omega⟩
    obtain ⟨hnone, hτ'⟩ := hset τ hτ x mem_cons_self (I.ofInt (0 : ℕ))
    have hinner := ih (fun υ => P υ ∧ υ.scalars x = some (I.ofInt (0 : ℕ)))
      (Nat.succ.inj hlength) hnodup.2
      (fun υ hυ y hy v => by
        have hyx : x ≠ y := fun h => hnodup.1 (h ▸ hy)
        obtain ⟨hy', hυ'⟩ := hset υ hυ.1 y (mem_cons_of_mem _ hy) v
        exact ⟨hy', hυ', by rw [State.setScalar_of_ne hyx, hυ.2]⟩)
      (fun υ hυ q hq => hbounds υ hυ.1 q (mem_cons_of_mem _ hq))
      (fun k hk => hpos k (mem_cons_of_mem _ hk))
      (fun υ hυ hzero => hbody υ hυ.1 fun y hy => (mem_cons.1 hy).elim
        (fun h => h ▸ hυ.2) (hzero y))
      (τ := τ.setScalar x (I.ofInt (0 : ℕ))) ⟨hτ', State.setScalar_self⟩
    change exec I fuel (.forRange x (.pair bound .unit) (wrapForLoops loops body) .done) τ = none
    rw [exec, hrange, bind_some, range_succ_eq_map, map_cons, forSteps, State.set,
      hnone]
    change ((exec I fuel (wrapForLoops loops body) (τ.setScalar x (I.ofInt (0 : ℕ)))).bind
      _).bind _ = none
    rw [hinner]
    rfl

end Translate

end HpcAgentBench
