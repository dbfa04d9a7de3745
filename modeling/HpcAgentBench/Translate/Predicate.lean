import HpcAgentBench.Translate.After
import HpcAgentBench.Translate.NarrowInt
import HpcAgentBench.Translate.NodeRules

/-!
# If-conversion

A value-dependent `if` in a loop becomes assignments `t = c ? e : t`, so that the loop keeps an
affine domain.  The guards are the tests themselves where no branch writes what a test reads, and
flags set where the `if` stood otherwise.

An assignment whose branch is not taken reads and writes its target nevertheless: the bodies agree
where these targets can be read and stored to, and nowhere else.

## Main results

* `Predicates.run` : what guarded assignments do beside the branches they come from.
* `if_conversion` : when a converted body does what the body does.
-/

namespace HpcAgentBench

open List

namespace Translate

namespace Predicate

/-! ### The conversion -/

/-- Every variable the statements assign, arrays by name, through nested `if`s. -/
def written : Block → List String
  | .assign targets _ rest => targets.filterMap (baseName ·.toExpr) ++ written rest
  | .augAssign target _ _ rest => (baseName target.toExpr).toList ++ written rest
  | .ifElse _ body orelse rest => written body ++ written orelse ++ written rest
  | .expr _ rest | .forRange _ _ _ rest | .whileDo _ _ rest | .brk rest => written rest
  | .done => []

/-- Every variable a test of an `if` among the statements reads. -/
def testsRead : Block → List String
  | .ifElse test body orelse rest =>
    loadNames test ++ testsRead body ++ testsRead orelse ++ testsRead rest
  | .assign _ _ rest | .augAssign _ _ _ rest | .expr _ rest | .forRange _ _ _ rest
  | .whileDo _ _ rest | .brk rest => testsRead rest
  | .done => []

/-- Single-target assignments and nested `if`s of them. -/
def convertible : Block → Bool
  | .assign targets _ rest =>
    targets.length == 1 && targets.all (fun t => (baseName t.toExpr).isSome) && convertible rest
  | .augAssign target _ _ rest => (baseName target.toExpr).isSome && convertible rest
  | .ifElse _ body orelse rest => convertible body && convertible orelse && convertible rest
  | .done => true
  | _ => false

/-- `guard and test`, or `test` alone at the top. -/
def conj : Option Expr → Expr → Expr
  | none, test => test
  | some guard, test => .boolOp true guard test

def negate (test : Expr) : Expr := .unaryOp "not" test

/-- An assignment as `target = guard ? value : target`. -/
def predicated (value guard : Expr) (rest : Block) : List Target → Block
  | target :: _ => .assign [target] (.ifExp guard value target.toExpr) rest
  | [] => rest

/-- What an augmented assignment stores. -/
def augmented (target : Target) (op : Operator) (value : Expr) : Expr :=
  .binOp op target.toExpr value

/-- Each assignment guarded by the conjunction of its tests. -/
def inline : Block → Expr → Block
  | .assign targets value rest, guard =>
    predicated value guard (inline rest guard) targets
  | .augAssign target op value rest, guard =>
    predicated (augmented target op value) guard (inline rest guard) [target]
  | .ifElse test body orelse rest, guard =>
    (inline body (conj (some guard) test)).append
      ((inline orelse (conj (some guard) (negate test))).append (inline rest guard))
  | _, _ => .done

/-- Statements, the state of the flags' counter behind them, and the flags they set. -/
structure Flagged where
  body : Block
  counter : ℕ
  flags : List String

def flagName (n : ℕ) : String := "pluto_pred" ++ toString n

/-- The number of the next flag that is no name of the kernel. -/
def fresh (taken : List String) (n : ℕ) : ℕ :=
  ((List.range' n (taken.length + 1)).find? fun m => flagName m ∉ taken).getD n

/-- The value of a flag. -/
def flagValue (guard : Option Expr) (test : Expr) : Expr :=
  let bit := Expr.ifExp test (.const (.int 1)) (.const (.int 0))
  match guard with
  | none => bit
  | some guard => .ifExp guard bit (.const (.int 0))

/-- The guard of the branch not taken where the flag is set. -/
def others (guard : Option Expr) (flag : Expr) : Expr := conj guard (negate flag)

/-- One flag per test, set where its `if` stood, and assignments guarded by flags alone. -/
def branch (taken : List String) : Block → Option Expr → ℕ → Flagged
  | .assign targets value rest, guard, n =>
    let r := branch taken rest guard n
    match guard with
    | none => { r with body := .assign targets value r.body }
    | some guard => { r with body := predicated value guard r.body targets }
  | .augAssign target op value rest, guard, n =>
    let r := branch taken rest guard n
    match guard with
    | none => { r with body := .augAssign target op value r.body }
    | some guard => { r with body := predicated (augmented target op value) guard r.body [target] }
  | .ifElse test body orelse rest, guard, n =>
    let flag := flagName (fresh taken n)
    let b := branch taken body (some (.name flag)) (fresh taken n + 1)
    let o := branch taken orelse (some (others guard (.name flag))) b.counter
    let r := branch taken rest guard o.counter
    ⟨.assign [.name flag] (flagValue guard test) (b.body.append (o.body.append r.body)),
      r.counter, flag :: (b.flags ++ o.flags ++ r.flags)⟩
  | _, _, n => ⟨.done, n, []⟩

/-- An `if` as guarded assignments. -/
def convert (taken : List String) (test : Expr) (body orelse : Block) (n : ℕ) : Flagged :=
  let node := Block.ifElse test body orelse .done
  if (testsRead node).all (· ∉ written node) then
    ⟨(inline body test).append (inline orelse (negate test)), n, []⟩
  else branch taken node none n

/-- Every convertible value-dependent `if` inside a loop, converted; `depth` loops are around. -/
def visit (valueDependent : Expr → Bool) (taken : List String) : Block → ℕ → ℕ → Flagged
  | .ifElse test body orelse rest, depth, n =>
    if 0 < depth && valueDependent test && convertible body && convertible orelse then
      let c := convert taken test body orelse n
      let r := visit valueDependent taken rest depth c.counter
      ⟨c.body.append r.body, r.counter, c.flags ++ r.flags⟩
    else
      let b := visit valueDependent taken body depth n
      let o := visit valueDependent taken orelse depth b.counter
      let r := visit valueDependent taken rest depth o.counter
      ⟨.ifElse test b.body o.body r.body, r.counter, b.flags ++ o.flags ++ r.flags⟩
  | .forRange x args body rest, depth, n =>
    let b := visit valueDependent taken body (depth + 1) n
    let r := visit valueDependent taken rest depth b.counter
    ⟨.forRange x args b.body r.body, r.counter, b.flags ++ r.flags⟩
  | .whileDo test body rest, depth, n =>
    let b := visit valueDependent taken body depth n
    let r := visit valueDependent taken rest depth b.counter
    ⟨.whileDo test b.body r.body, r.counter, b.flags ++ r.flags⟩
  | .assign targets value rest, depth, n =>
    let r := visit valueDependent taken rest depth n
    { r with body := .assign targets value r.body }
  | .augAssign target op value rest, depth, n =>
    let r := visit valueDependent taken rest depth n
    { r with body := .augAssign target op value r.body }
  | .expr e rest, depth, n =>
    let r := visit valueDependent taken rest depth n
    { r with body := .expr e r.body }
  | .brk rest, depth, n =>
    let r := visit valueDependent taken rest depth n
    { r with body := .brk r.body }
  | .done, _, n => ⟨.done, n, []⟩

/-- Every name of the statements. -/
def names : Block → List String
  | .assign targets value rest =>
    targets.flatMap (loadNames ·.toExpr) ++ loadNames value ++ names rest
  | .augAssign target _ value rest => loadNames target.toExpr ++ loadNames value ++ names rest
  | .expr value rest => loadNames value ++ names rest
  | .ifElse test body orelse rest =>
    loadNames test ++ names body ++ names orelse ++ names rest
  | .forRange x args body rest =>
    x :: "range" :: (loadNames args ++ names body ++ names rest)
  | .whileDo test body rest => loadNames test ++ names body ++ names rest
  | .brk rest => names rest
  | .done => []

/-- Nested `if`s, assignments and augmented assignments. -/
def straight : Block → Bool
  | .assign _ _ rest | .augAssign _ _ _ rest => straight rest
  | .ifElse _ body orelse rest => straight body && straight orelse && straight rest
  | .done => true
  | _ => false

/-! ### What is compared -/

section Run

variable {V : Type} (I : Interp V) (fuel : ℕ)

/-- `1` is true, `0` is false, and `not` is the other truth value. -/
structure Laws : Prop where
  one : I.truth (I.const (.int 1)) = true
  zero : I.truth (I.const (.int 0)) = false
  not : ∀ v, ∃ w, I.unary "not" v = some w ∧ I.truth w = !I.truth v

/-- The target can be read and stored to: it is bound, and its index is in range. -/
def Readable (σ : State V) (t : Target) : Prop :=
  ∃ v τ, value I σ t.toExpr = some v ∧ store I σ v t = some τ

/-- Statements that run only where they are selected. -/
def skim (selected : Bool) (b : Block) (σ : State V) : Option (State V × Flow) :=
  if selected then exec I fuel b σ else some (σ, .next)

/-- Which branches of an `if` are selected. -/
def arms (σ : State V) (selected : Bool) (test : Expr) : Option (Bool × Bool) :=
  if selected then (value I σ test).map fun v => (I.truth v, !I.truth v) else some (false, false)

/-- The targets of the assignments that are not selected can be read where they stand. -/
def Spared : Bool → Block → State V → Prop
  | c, .assign targets value rest, σ =>
    (c = false → ∀ t ∈ targets, Readable I σ t) ∧
      ∀ τ, skim I fuel c (.assign targets value .done) σ = some (τ, .next) → Spared c rest τ
  | c, .augAssign target op value rest, σ =>
    (c = false → Readable I σ target) ∧
      ∀ τ, skim I fuel c (.augAssign target op value .done) σ = some (τ, .next) → Spared c rest τ
  | c, .ifElse test body orelse rest, σ =>
    (∀ d υ, arms I σ c test = some d → skim I fuel d.1 body σ = some (υ, .next) →
      Spared d.1 body σ ∧ Spared d.2 orelse υ) ∧
      ∀ τ, skim I fuel c (.ifElse test body orelse .done) σ = some (τ, .next) → Spared c rest τ
  | _, _, _ => True

/-- The same of every `if` of a body that is converted, as the body runs. -/
def Kept (valueDependent : Expr → Bool) : Block → State V → Prop
  | .assign targets value rest, σ =>
    ∀ τ, exec I fuel (.assign targets value .done) σ = some (τ, .next) →
      Kept valueDependent rest τ
  | .augAssign target op value rest, σ =>
    ∀ τ, exec I fuel (.augAssign target op value .done) σ = some (τ, .next) →
      Kept valueDependent rest τ
  | .ifElse test body orelse rest, σ =>
    (if valueDependent test && convertible body && convertible orelse then
      Spared I fuel true (.ifElse test body orelse .done) σ
    else ∀ v, value I σ test = some v →
      (I.truth v = true → Kept valueDependent body σ) ∧
      (I.truth v = false → Kept valueDependent orelse σ)) ∧
    ∀ τ, exec I fuel (.ifElse test body orelse .done) σ = some (τ, .next) →
      Kept valueDependent rest τ
  | _, _ => True

/-- The arrays are those of the kernel's names, and both stores agree but for flags. -/
structure Alike (names : List String) (σ τ : State V) : Prop where
  arrays : τ.arrays = σ.arrays
  scalars : ∀ x ∈ names, τ.scalars x = σ.scalars x
  named : ∀ x, x ∉ names → σ.arrays x = none

/-- Nothing but these names has changed. -/
def Outside (ws : List String) (σ τ : State V) : Prop :=
  ∀ x, x ∉ ws → σ.scalars x = τ.scalars x ∧ σ.arrays x = τ.arrays x

end Run

/-! ### Stores that differ in flags -/

section Alike

variable {V : Type} {I : Interp V} {fuel : ℕ} {σ σ' τ : State V} {kernel ws : List String}
variable {t : Target} {v : V} {A : String}

/-- Storing what is read back changes nothing. -/
theorem store_back (hv : value I σ t.toExpr = some v) (hs : store I σ v t = some τ) : τ = σ := by
  cases t with
  | name x =>
    simp only [store, State.set] at hs
    split at hs
    · cases hs
    · next harray =>
      obtain rfl := Option.some.inj hs
      refine State.setScalar_eq_self ?_
      simp only [Target.toExpr, value, eval] at hv
      cases hx : σ.scalars x with
      | some w => simpa [hx, force] using hv
      | none => simp [hx, Option.not_isSome_iff_eq_none.1 harray] at hv
  | subscript base index =>
    simp only [store] at hs
    simp only [Target.toExpr, value] at hv
    split at hs
    · next id ix hr =>
      obtain ⟨a, ha, hs⟩ := Option.bind_eq_some_iff.1 hs
      obtain ⟨hlength, hs⟩ := Option.ite_none_right_eq_some.1 hs
      obtain ⟨p, hp, rfl⟩ := Option.map_eq_some_iff.1 hs
      rw [hr, Option.bind_some] at hv
      simp only [force, State.part, ha, hp, Option.bind_some, Option.map_some, hlength,
        drop_length, if_true, append_nil, Option.some.injEq] at hv
      have hset : a.set p v = a := by
        rw [Arr.set, ← hv, Function.update_eq_self]
      rw [hset, State.setArray, ← ha, Function.update_eq_self]
    · cases hs

theorem bases_of_baseName {e : Expr} (h : baseName e = some A) : e.bases = [A] := by
  induction e with
  | name id => rw [Expr.bases, Option.some.inj h]
  | subscript value _ ih _ => exact ih h
  | _ => cases h

theorem mem_loadNames_of_baseName {e : Expr} (h : baseName e = some A) : A ∈ loadNames e :=
  bases_subset e (by rw [bases_of_baseName h]; exact mem_singleton_self A)

theorem store_outside (ht : baseName t.toExpr = some A) (hs : store I σ v t = some τ) :
    Outside [A] σ τ := by
  intro x hx
  have hne : x ≠ A := fun h => hx (mem_singleton.2 h)
  cases t with
  | name y =>
    obtain rfl := Option.some.inj ht
    simp only [store, State.set] at hs
    split at hs
    · cases hs
    · obtain rfl := Option.some.inj hs
      exact ⟨(State.setScalar_of_ne hne).symm, rfl⟩
  | subscript base index =>
    simp only [store] at hs
    split at hs
    · next id ix hr =>
      have hid := mem_bases hr
      rw [bases_of_baseName (e := .subscript base index) ht, mem_singleton] at hid
      obtain ⟨a, ha, hs⟩ := Option.bind_eq_some_iff.1 hs
      obtain ⟨-, hs⟩ := Option.ite_none_right_eq_some.1 hs
      obtain ⟨p, -, rfl⟩ := Option.map_eq_some_iff.1 hs
      exact ⟨rfl, (State.setArray_of_ne (by rwa [hid])).symm⟩
    · cases hs

namespace Alike

theorem symm (h : Alike kernel σ τ) : Alike kernel τ σ where
  arrays := h.arrays.symm
  scalars x hx := (h.scalars x hx).symm
  named x hx := by rw [h.arrays, h.named x hx]

theorem same (h : Alike kernel σ τ) {xs : List String} (hxs : xs ⊆ kernel) : SameOn xs σ τ :=
  fun x hx => ⟨(h.scalars x (hxs hx)).symm, by rw [h.arrays]⟩

theorem value (h : Alike kernel σ τ) {e : Expr} (he : loadNames e ⊆ kernel) :
    Translate.value I τ e = Translate.value I σ e := (value_same (h.same he)).symm

theorem store (h : Alike kernel σ σ') (ht : loadNames t.toExpr ⊆ kernel)
    (hs : Translate.store I σ v t = some τ) :
    ∃ τ', Translate.store I σ' v t = some τ' ∧ Alike kernel τ τ' := by
  cases t with
  | name y =>
    simp only [Translate.store, State.set, h.arrays] at hs ⊢
    split at hs
    · cases hs
    · next harray =>
      obtain rfl := Option.some.inj hs
      refine ⟨_, if_neg harray, h.arrays, fun x hx => ?_, h.named⟩
      by_cases hxy : x = y
      · rw [hxy, State.setScalar_self, State.setScalar_self]
      · rw [State.setScalar_of_ne hxy, State.setScalar_of_ne hxy, h.scalars x hx]
  | subscript base index =>
    have hsame : eval I σ (.subscript base index) = eval I σ' (.subscript base index) :=
      eval_same (h.same ht)
    simp only [Translate.store] at hs
    split at hs
    · next id ix hr =>
      obtain ⟨a, ha, hs⟩ := Option.bind_eq_some_iff.1 hs
      obtain ⟨hlength, hs⟩ := Option.ite_none_right_eq_some.1 hs
      obtain ⟨p, hp, rfl⟩ := Option.map_eq_some_iff.1 hs
      have hkernel : id ∈ kernel := by
        by_contra hid
        rw [h.named id hid] at ha
        cases ha
      refine ⟨σ'.setArray id (a.set p v), ?_, ?_, h.scalars, fun x hx => ?_⟩
      · rw [Translate.store, ← hsame, hr]
        simp only [State.setItem, h.arrays, ha, Option.bind_some, hlength, if_true, hp,
          Option.map_some]
      · rw [State.setArray, State.setArray, h.arrays]
      · rw [State.setArray_of_ne (by rintro rfl; exact hx hkernel), h.named x hx]
    · cases hs

/-- A flag set. -/
theorem setFlag (h : Alike kernel σ σ') (hA : A ∉ kernel) : Alike kernel σ (σ'.setScalar A v) where
  arrays := h.arrays
  scalars x hx := by rw [State.setScalar_of_ne (by rintro rfl; exact hA hx), h.scalars x hx]
  named := h.named

end Alike

theorem Outside.value (h : Outside ws σ τ) {e : Expr} (he : ∀ x ∈ loadNames e, x ∉ ws) :
    value I τ e = value I σ e :=
  (value_same fun x hx => h x (he x hx)).symm

theorem Outside.trans {ws' : List String} {υ : State V} (h : Outside ws σ τ)
    (h' : Outside ws' τ υ) : Outside (ws ++ ws') σ υ := fun x hx =>
  ⟨(h x fun hx' => hx (mem_append_left _ hx')).1.trans
      (h' x fun hx' => hx (mem_append_right _ hx')).1,
    (h x fun hx' => hx (mem_append_left _ hx')).2.trans
      (h' x fun hx' => hx (mem_append_right _ hx')).2⟩

end Alike

/-! ### Guarded assignments -/

section Guarded

variable {V : Type} {I : Interp V} {fuel : ℕ} {kernel : List String}

/-- What a guard says. -/
def Says (I : Interp V) (guard : Option Expr) (c : Bool) (σ : State V) : Prop :=
  match guard with
  | none => c = true
  | some g => ∃ v, value I σ g = some v ∧ I.truth v = c

/-- What is set up where an `if` stands makes the guards of its branches say which is selected. -/
def Enters (I : Interp V) (kernel : List String) (guard : Option Expr) (test : Expr) (pre : Block)
    (g g' : Expr) : Prop :=
  ∀ fuel c d (σ σ' : State V), Alike kernel σ σ' → Says I guard c σ' → arms I σ c test = some d →
    ∃ τ, exec I fuel pre σ' = some (τ, .next) ∧ Alike kernel σ τ ∧ Outside (written pre) σ' τ ∧
      Says I (some g) d.1 τ ∧ Says I (some g') d.2 τ

/-- Guarded assignments made from nested `if`s. -/
inductive Predicates (I : Interp V) (kernel : List String) : Option Expr → Block → Block → Prop
  | done {guard} : Predicates I kernel guard .done .done
  | assign {g t value rest rest' A} (ht : baseName t.toExpr = some A)
      (hnames : loadNames t.toExpr ⊆ kernel) (hvalue : loadNames value ⊆ kernel)
      (hrest : Predicates I kernel (some g) rest rest') :
      Predicates I kernel (some g) (.assign [t] value rest) (predicated value g rest' [t])
  | augAssign {g t op value rest rest' A} (ht : baseName t.toExpr = some A)
      (hnames : loadNames t.toExpr ⊆ kernel) (hvalue : loadNames (augmented t op value) ⊆ kernel)
      (hrest : Predicates I kernel (some g) rest rest') :
      Predicates I kernel (some g) (.augAssign t op value rest)
        (predicated (augmented t op value) g rest' [t])
  | ifElse (pre : Block) {guard test body orelse rest g g' body' orelse' rest'}
      (henter : Enters I kernel guard test pre g g')
      (hbody : Predicates I kernel (some g) body body')
      (horelse : Predicates I kernel (some g') orelse orelse')
      (hrest : Predicates I kernel guard rest rest')
      (hg : ∀ x ∈ loadNames g, x ∉ written body')
      (hg' : ∀ x ∈ loadNames g', x ∉ written body' ++ written orelse') :
      Predicates I kernel guard (.ifElse test body orelse rest)
        (pre.append (body'.append (orelse'.append rest')))

/-- A run succeeds just where the condition holds, and ends as told. -/
structure Succeeds (P : Prop) (run : Option (State V × Flow)) (Q : State V → Prop) : Prop where
  of : P → ∃ τ, run = some (τ, .next) ∧ Q τ
  only : run.isSome = true → P

namespace Succeeds

variable {P P' : Prop} {Q R : State V → Prop} {run : Option (State V × Flow)}

theorem append {a b : Block} {σ : State V} (ha : Succeeds P (exec I fuel a σ) R)
    (hb : ∀ υ, R υ → Succeeds P' (exec I fuel b υ) Q) :
    Succeeds (P ∧ P') (exec I fuel (a.append b) σ) Q where
  of h := by
    obtain ⟨υ, hυ, hR⟩ := ha.of h.1
    obtain ⟨τ, hτ, hQ⟩ := (hb υ hR).of h.2
    exact ⟨τ, by rw [exec_append, hυ, Option.bind_some, hτ], hQ⟩
  only h := by
    obtain ⟨r, hr⟩ := Option.isSome_iff_exists.1 h
    rw [exec_append] at hr
    obtain ⟨s, hs, hr⟩ := Option.bind_eq_some_iff.1 hr
    have hP := ha.only (by rw [hs, Option.isSome_some])
    obtain ⟨υ, hυ, hR⟩ := ha.of hP
    obtain rfl : s = (υ, .next) := Option.some.inj (hs.symm.trans hυ)
    exact ⟨hP, (hb υ hR).only (Option.isSome_iff_exists.2 ⟨r, hr⟩)⟩

theorem congr (h : Succeeds P run Q) (hP : P ↔ P') : Succeeds P' run Q :=
  ⟨fun h' => h.of (hP.2 h'), fun hr => hP.1 (h.only hr)⟩

theorem mono (h : Succeeds P run R) (hQ : ∀ τ, R τ → Q τ) : Succeeds P run Q where
  of hP := by
    obtain ⟨τ, hτ, hR⟩ := h.of hP
    exact ⟨τ, hτ, hQ τ hR⟩
  only := h.only

theorem always {τ : State V} (h : run = some (τ, .next)) (hQ : Q τ) : Succeeds True run Q :=
  ⟨fun _ => ⟨τ, h, hQ⟩, fun _ => trivial⟩

end Succeeds

/-- A store beside the one the body left, with nothing else changed. -/
def Beside (kernel ws : List String) (τ σ' τ' : State V) : Prop :=
  Alike kernel τ τ' ∧ Outside ws σ' τ'

variable {σ σ' τ : State V} {c : Bool} {g : Expr} {guard : Option Expr} {t : Target} {A : String}

theorem next_inj {υ : State V} {f f' : Flow} (h : some (σ, f) = some (υ, f')) : σ = υ :=
  congrArg Prod.fst (Option.some.inj h)

theorem forall_after {run : Option (State V × Flow)} {P : State V → Prop}
    (h : run = some (τ, .next)) : (∀ υ, run = some (υ, .next) → P υ) ↔ P τ :=
  ⟨fun hP => hP τ h, fun hP _ hυ => next_inj (h.symm.trans hυ) ▸ hP⟩

theorem skim_append {a b : Block} (h : skim I fuel c (a.append b) σ = some (τ, .next)) :
    ∃ υ, skim I fuel c a σ = some (υ, .next) ∧ skim I fuel c b υ = some (τ, .next) := by
  cases c with
  | false => exact ⟨σ, rfl, h⟩
  | true =>
    rw [skim, if_pos rfl, exec_append] at h
    obtain ⟨⟨υ, flow⟩, hυ, h⟩ := Option.bind_eq_some_iff.1 h
    cases flow with
    | next => exact ⟨υ, hυ, h⟩
    | brk => cases h

/-- The selected branches of an `if`, one after the other. -/
theorem skim_arms {test : Expr} {body orelse : Block}
    (h : skim I fuel c (.ifElse test body orelse .done) σ = some (τ, .next)) :
    ∃ d υ, arms I σ c test = some d ∧ skim I fuel d.1 body σ = some (υ, .next) ∧
      skim I fuel d.2 orelse υ = some (τ, .next) := by
  cases c with
  | false => exact ⟨_, σ, rfl, rfl, h⟩
  | true =>
    rw [skim, if_pos rfl, exec] at h
    obtain ⟨v, hv, h⟩ := Option.bind_eq_some_iff.1 h
    obtain ⟨⟨υ, flow⟩, hυ, h⟩ := Option.bind_eq_some_iff.1 h
    have harms : arms I σ true test = some (I.truth v, !I.truth v) := by
      rw [arms, if_pos rfl, hv, Option.map_some]
    cases flow with
    | brk => cases h
    | next =>
      obtain rfl := next_inj h
      cases htruth : I.truth v with
      | true =>
        rw [htruth, if_pos rfl] at hυ
        exact ⟨(true, false), υ, by rw [harms, htruth]; rfl, hυ, rfl⟩
      | false =>
        rw [htruth, if_neg Bool.false_ne_true] at hυ
        exact ⟨(false, true), σ, by rw [harms, htruth]; rfl, rfl, hυ⟩

theorem exec_augAssign (op : Operator) (value : Expr) (rest : Block) :
    exec I fuel (.augAssign t op value rest) σ =
      exec I fuel (.assign [t] (augmented t op value) rest) σ := by
  rw [exec, exec, augmented, value_binOp]
  simp only [Option.bind_assoc, foldlM_cons, foldlM_nil, Option.bind_eq_bind,
    Option.pure_def, Option.bind_some]

theorem exec_assign_inv {value : Expr}
    (h : exec I fuel (.assign [t] value .done) σ = some (τ, .next)) :
    ∃ v, Translate.value I σ value = some v ∧ store I σ v t = some τ := by
  obtain ⟨v, hv, h⟩ := Option.bind_eq_some_iff.1 h
  obtain ⟨υ, hυ, h⟩ := Option.bind_eq_some_iff.1 h
  obtain rfl := next_inj h
  exact ⟨v, hv, by simpa using hυ⟩

/-- A guarded assignment, selected or not. -/
theorem predicated_beside {value : Expr} (hσ : Alike kernel σ σ') (hg : Says I (some g) c σ')
    (ht : baseName t.toExpr = some A) (hnames : loadNames t.toExpr ⊆ kernel)
    (hvalue : loadNames value ⊆ kernel)
    (hrun : skim I fuel c (.assign [t] value .done) σ = some (τ, .next)) :
    Succeeds (c = false → Readable I σ t) (exec I fuel (predicated value g .done [t]) σ')
      (Beside kernel [A] τ σ') := by
  obtain ⟨w, hw, rfl⟩ := hg
  cases htruth : I.truth w with
  | true =>
    rw [htruth] at hrun
    obtain ⟨v, hv, hs⟩ := exec_assign_inv hrun
    obtain ⟨τ', hτ', halike⟩ := hσ.store hnames hs
    have hread : Translate.value I σ' (.ifExp g value t.toExpr) = some v := by
      rw [value_ifExp hw, if_pos htruth, hσ.value hvalue, hv]
    exact ⟨fun _ => ⟨τ', exec_assign hread hτ' .done, halike, store_outside ht hτ'⟩,
      fun _ => nofun⟩
  | false =>
    rw [htruth] at hrun
    obtain rfl := next_inj hrun
    have hread : Translate.value I σ' (.ifExp g value t.toExpr) = Translate.value I σ t.toExpr := by
      rw [value_ifExp hw, htruth, if_neg Bool.false_ne_true, hσ.value hnames]
    refine ⟨fun h => ?_, fun h _ => ?_⟩
    · obtain ⟨v, υ, hv, hs⟩ := h rfl
      obtain rfl := store_back hv hs
      obtain ⟨τ', hτ', halike⟩ := hσ.store hnames hs
      exact ⟨τ', exec_assign (hread.trans hv) hτ' .done, halike, store_outside ht hτ'⟩
    · obtain ⟨⟨υ, flow⟩, h⟩ := Option.isSome_iff_exists.1 h
      obtain ⟨v, hv, h⟩ := Option.bind_eq_some_iff.1 h
      obtain ⟨υ', hυ', -⟩ := Option.bind_eq_some_iff.1 h
      have hs : store I σ' v t = some υ' := by simpa using hυ'
      obtain ⟨τ', hτ', -⟩ := hσ.symm.store hnames hs
      exact ⟨v, τ', hread.symm.trans hv, hτ'⟩

theorem Says.outside {ws : List String} (h : Says I guard c σ) (hout : Outside ws σ τ)
    (hapart : ∀ g ∈ guard, ∀ x ∈ loadNames g, x ∉ ws) : Says I guard c τ := by
  cases guard with
  | none => exact h
  | some g =>
    obtain ⟨v, hv, htruth⟩ := h
    exact ⟨v, (hout.value (hapart g rfl)).trans hv, htruth⟩

theorem written_append (a b : Block) : written (a.append b) = written a ++ written b := by
  induction a with
  | done => rfl
  | assign _ _ _ ih => simp only [Block.append, written, ih, append_assoc]
  | augAssign _ _ _ _ ih => simp only [Block.append, written, ih, append_assoc]
  | ifElse _ _ _ _ _ _ ih => simp only [Block.append, written, ih, append_assoc]
  | expr _ _ ih => exact ih
  | forRange _ _ _ _ _ ih => exact ih
  | whileDo _ _ _ _ ih => exact ih
  | brk _ ih => exact ih

theorem written_predicated (ht : baseName t.toExpr = some A) (value g : Expr) (rest : Block) :
    written (predicated value g rest [t]) = [A] ++ written rest := by
  simp [predicated, written, ht]

/-- A guarded assignment and what follows it. -/
theorem predicated_append {value : Expr} {rest rest' : Block} {υ : State V}
    (hσ : Alike kernel σ σ') (hg : Says I (some g) c σ') (ht : baseName t.toExpr = some A)
    (hnames : loadNames t.toExpr ⊆ kernel) (hvalue : loadNames value ⊆ kernel)
    (hapart : ∀ g' ∈ some g, ∀ x ∈ loadNames g', x ∉ written (predicated value g rest' [t]))
    (hυ : skim I fuel c (.assign [t] value .done) σ = some (υ, .next))
    (hrest : ∀ υ', Alike kernel υ υ' → Says I (some g) c υ' →
      (∀ g' ∈ some g, ∀ x ∈ loadNames g', x ∉ written rest') →
      Succeeds (Spared I fuel c rest υ) (exec I fuel rest' υ')
        (Beside kernel (written rest') τ υ')) :
    Succeeds ((c = false → Readable I σ t) ∧ Spared I fuel c rest υ)
      (exec I fuel (predicated value g rest' [t]) σ')
      (Beside kernel (written (predicated value g rest' [t])) τ σ') := by
  rw [written_predicated ht] at hapart ⊢
  refine (predicated_beside hσ hg ht hnames hvalue hυ).append (b := rest') fun υ' hυ' =>
    (hrest υ' hυ'.1 (hg.outside hυ'.2 fun g' hg' x hx hmem => ?_)
      fun g' hg' x hx hmem => ?_).mono fun τ' hτ' => ⟨hτ'.1, hυ'.2.trans hτ'.2⟩
  · exact hapart g' hg' x hx (mem_append_left _ hmem)
  · exact hapart g' hg' x hx (mem_append_right _ hmem)

theorem skim_augAssign (op : Operator) (value : Expr) (rest : Block) :
    skim I fuel c (.augAssign t op value rest) σ =
      skim I fuel c (.assign [t] (augmented t op value) rest) σ := by
  rw [skim, skim, exec_augAssign]

/-- **Guarded assignments do what the selected branches do**, just where the targets of the others
can be read. -/
theorem Predicates.run {b b' : Block} (h : Predicates I kernel guard b b')
    (hσ : Alike kernel σ σ') (hg : Says I guard c σ')
    (hapart : ∀ g ∈ guard, ∀ x ∈ loadNames g, x ∉ written b')
    (hrun : skim I fuel c b σ = some (τ, .next)) :
    Succeeds (Spared I fuel c b σ) (exec I fuel b' σ') (Beside kernel (written b') τ σ') := by
  induction h generalizing c σ σ' τ with
  | done =>
    obtain rfl : σ = τ := by
      cases c <;> exact next_inj hrun
    exact ⟨fun _ => ⟨σ', rfl, hσ, fun _ _ => ⟨rfl, rfl⟩⟩, fun _ => trivial⟩
  | @assign g t value rest rest' A ht hnames hvalue _ ih =>
    obtain ⟨υ, hυ, hlast⟩ := skim_append (a := .assign [t] value .done) (b := rest) hrun
    exact (predicated_append hσ hg ht hnames hvalue hapart hυ fun υ' ha hg' hapart' =>
      ih ha hg' hapart' hlast).congr (and_congr (by simp) (forall_after hυ).symm)
  | @augAssign g t op value rest rest' A ht hnames hvalue _ ih =>
    obtain ⟨υ, hυ, hlast⟩ := skim_append (a := .augAssign t op value .done) (b := rest) hrun
    have hstore := (skim_augAssign op value .done).symm.trans hυ
    exact (predicated_append hσ hg ht hnames hvalue hapart hstore fun υ' ha hg' hapart' =>
      ih ha hg' hapart' hlast).congr (and_congr Iff.rfl (forall_after hυ).symm)
  | @ifElse pre guard test body orelse rest g₁ g₂ body' orelse' rest' henter _ _ _ hg₁ hg₂ ihb iho
      ihr =>
    obtain ⟨υ, hυ, hlast⟩ := skim_append (a := .ifElse test body orelse .done) (b := rest) hrun
    obtain ⟨d, υ₁, hd, hbody, horelse⟩ := skim_arms hυ
    obtain ⟨τ₀, hpre, halike, hout, hsays₁, hsays₂⟩ := henter fuel c d σ σ' hσ hg hd
    simp only [written_append] at hapart ⊢
    -- The guard of what follows reads nothing that is written before it.
    have hbefore : ∀ g ∈ guard, ∀ x ∈ loadNames g,
        x ∉ written pre ++ (written body' ++ written orelse') := fun g hg x hx hmem =>
      hapart g hg x hx (by simp only [mem_append] at hmem ⊢; tauto)
    have hafter : ∀ g ∈ guard, ∀ x ∈ loadNames g, x ∉ written rest' := fun g hg x hx hmem =>
      hapart g hg x hx (by simp only [mem_append]; tauto)
    have honly : ∀ {g' : Expr} {ws : List String}, (∀ x ∈ loadNames g', x ∉ ws) →
        ∀ g ∈ some g', ∀ x ∈ loadNames g, x ∉ ws := fun h g hg => by
      obtain rfl := Option.some.inj hg
      exact h
    have hrest : ∀ υ'', Beside kernel (written pre ++ (written body' ++ written orelse')) υ σ' υ'' →
        Succeeds (Spared I fuel c rest υ) (exec I fuel rest' υ'')
          (Beside kernel (written rest') τ υ'') := fun υ'' h =>
      ihr h.1 (hg.outside h.2 hbefore) hafter hlast
    have helse : ∀ υ', Beside kernel (written body') υ₁ τ₀ υ' →
        Succeeds (Spared I fuel d.2 orelse υ₁) (exec I fuel orelse' υ')
          (Beside kernel (written orelse') υ υ') := fun υ' h =>
      iho h.1 (hsays₂.outside h.2 (honly fun x hx => hg₂ x hx ∘ mem_append_left _))
        (honly fun x hx => hg₂ x hx ∘ mem_append_right _) horelse
    have hsum := (Succeeds.always (Q := fun τ₁ => τ₁ = τ₀) hpre rfl).append
      (b := body'.append (orelse'.append rest')) fun τ₁ hτ₁ => hτ₁ ▸
        (ihb halike hsays₁ (honly hg₁) hbody).append (b := orelse'.append rest') fun υ' hυ' =>
          (helse υ' hυ').append (b := rest') fun υ'' hυ'' =>
            (hrest υ'' ⟨hυ''.1, hout.trans (hυ'.2.trans hυ''.2)⟩).mono (R := _) (Q := Beside kernel
              (written pre ++ (written body' ++ (written orelse' ++ written rest'))) τ σ')
              fun τ' hτ' => ⟨hτ'.1, hout.trans (hυ'.2.trans (hυ''.2.trans hτ'.2))⟩
    refine hsum.congr ⟨fun h => ⟨fun d' υ' hd' hυ' => ?_, fun υ' hυ' => ?_⟩, fun h =>
      ⟨trivial, (h.1 d υ₁ hd hbody).1, (h.1 d υ₁ hd hbody).2, h.2 υ hυ⟩⟩
    · obtain rfl := Option.some.inj (hd.symm.trans hd')
      obtain rfl := next_inj (hbody.symm.trans hυ')
      exact ⟨h.2.1, h.2.2.1⟩
    · exact (forall_after hυ).2 h.2.2.2 υ' hυ'

end Guarded

/-! ### The two forms -/

section Forms

variable {V : Type} {I : Interp V} {fuel : ℕ} {kernel taken : List String} {σ σ' τ : State V}
variable {guard : Option Expr} {c x y : Bool} {g test e : Expr} {n n' k : ℕ}

theorem says_negate (hI : Laws I) (h : Says I (some e) x σ) : Says I (some (negate e)) (!x) σ := by
  obtain ⟨v, hv, rfl⟩ := h
  obtain ⟨w, hw, htruth⟩ := hI.not v
  refine ⟨w, ?_, htruth⟩
  have hv' : (eval I σ e).bind (force I σ) = some v := hv
  simp only [negate, value, eval, hv', Option.bind_some, hw, Option.map_some, force]

theorem says_conj (hg : Says I guard c σ) (h : c = true → Says I (some e) x σ)
    (hx : c = false → x = false) : Says I (some (conj guard e)) x σ := by
  cases guard with
  | none => exact h hg
  | some g =>
    obtain ⟨w, hw, rfl⟩ := hg
    obtain ⟨d, hd, htruth⟩ := value_and hw (I.truth w = true) (by simp) (ψ := x = true)
      fun hc => by
        obtain ⟨d, hd, htruth⟩ := h hc
        exact ⟨d, hd, by simpa using htruth⟩
    refine ⟨d, hd, htruth.trans ?_⟩
    cases hw' : I.truth w <;> simp [hw', hx]

/-- What the selected branches are, where the tests are read in a store with flags. -/
theorem arms_says {d : Bool × Bool} (hσ : Alike kernel σ σ') (htest : loadNames test ⊆ kernel)
    (hd : arms I σ c test = some d) :
    (c = true → Says I (some test) d.1 σ' ∧ d.2 = !d.1) ∧ (c = false → d = (false, false)) := by
  cases c with
  | false => exact ⟨nofun, fun _ => (Option.some.inj hd).symm⟩
  | true =>
    obtain ⟨v, hv, rfl⟩ := Option.map_eq_some_iff.1 hd
    exact ⟨fun _ => ⟨⟨v, (hσ.value htest).trans hv, rfl⟩, rfl⟩, nofun⟩

/-- The tests themselves are the guards. -/
theorem enters_inline (hI : Laws I) (guard : Option Expr) (htest : loadNames test ⊆ kernel) :
    Enters I kernel guard test .done (conj guard test) (conj guard (negate test)) := by
  intro fuel c d σ σ' hσ hg hd
  obtain ⟨hsel, hnot⟩ := arms_says hσ htest hd
  refine ⟨σ', rfl, hσ, fun _ _ => ⟨rfl, rfl⟩,
    says_conj hg (fun hc => (hsel hc).1) fun hc => by rw [hnot hc],
    says_conj hg (fun hc => ?_) fun hc => by rw [hnot hc]⟩
  rw [(hsel hc).2]
  exact says_negate hI (hsel hc).1

/-- The flag holds what its `if` tested. -/
theorem value_flagValue {d : Bool × Bool} (hI : Laws I) (hg : Says I guard c σ')
    (hsel : c = true → Says I (some test) d.1 σ') (hnot : c = false → d.1 = false) :
    Says I (some (flagValue guard test)) d.1 σ' := by
  have hbit (hc : c = true) :
      Says I (some (.ifExp test (.const (.int 1)) (.const (.int 0)))) d.1 σ' := by
    obtain ⟨v, hv, htruth⟩ := hsel hc
    cases hd : d.1 with
    | false =>
      refine ⟨_, (value_ifExp hv).trans ?_, hI.zero⟩
      rw [htruth, hd, if_neg Bool.false_ne_true]
      rfl
    | true =>
      refine ⟨_, (value_ifExp hv).trans ?_, hI.one⟩
      rw [htruth, hd, if_pos rfl]
      rfl
  cases guard with
  | none => exact hbit hg
  | some g =>
    obtain ⟨w, hw, rfl⟩ := hg
    cases hc : I.truth w with
    | true =>
      obtain ⟨b, hb, htruth⟩ := hbit hc
      exact ⟨b, (value_ifExp hw).trans (by rw [hc, if_pos rfl, hb]), htruth⟩
    | false =>
      rw [hnot hc]
      exact ⟨_, (value_ifExp hw).trans (by rw [hc, if_neg Bool.false_ne_true]; rfl), hI.zero⟩

/-- A flag that is no name of the kernel is the guard. -/
theorem enters_flag {flag : String} (hI : Laws I) (htest : loadNames test ⊆ kernel)
    (hflag : flag ∉ kernel) (hguard : ∀ g ∈ guard, ∀ x ∈ loadNames g, x ∉ [flag]) :
    Enters I kernel guard test (.assign [.name flag] (flagValue guard test) .done) (.name flag)
      (others guard (.name flag)) := by
  intro fuel c d σ σ' hσ hg hd
  obtain ⟨hsel, hnot⟩ := arms_says hσ htest hd
  obtain ⟨b, hb, htruth⟩ := value_flagValue hI hg (fun hc => (hsel hc).1) fun hc => by rw [hnot hc]
  have hstore : store I σ' b (.name flag) = some (σ'.setScalar flag b) := by
    rw [store, State.set, hσ.arrays, hσ.named flag hflag]
    rfl
  have hout := store_outside (t := .name flag) rfl hstore
  have hsays : Says I (some (.name flag)) d.1 (σ'.setScalar flag b) :=
    ⟨b, value_name State.setScalar_self, htruth⟩
  refine ⟨_, exec_assign hb hstore .done, hσ.setFlag hflag, hout, hsays,
    says_conj (hg.outside hout hguard) (fun hc => ?_) fun hc => by rw [hnot hc]⟩
  rw [(hsel hc).2]
  exact says_negate hI hsays

theorem loadNames_boolOp (conj : Bool) (a b : Expr) :
    loadNames (.boolOp conj a b) = loadNames a ++ loadNames b := filterMap_append

theorem loadNames_negate (e : Expr) : loadNames (negate e) = loadNames e := rfl

theorem loadNames_augmented (t : Target) (op : Operator) (e : Expr) :
    loadNames (augmented t op e) = loadNames t.toExpr ++ loadNames e := filterMap_append

theorem convertible_assign {targets : List Target} {value : Expr} {rest : Block}
    (h : convertible (.assign targets value rest) = true) :
    ∃ t A, targets = [t] ∧ baseName t.toExpr = some A ∧ convertible rest = true := by
  simp only [convertible, Bool.and_eq_true, beq_iff_eq, length_eq_one_iff] at h
  obtain ⟨⟨⟨t, rfl⟩, hall⟩, hrest⟩ := h
  obtain ⟨A, hA⟩ := Option.isSome_iff_exists.1 (all_eq_true.1 hall t mem_cons_self)
  exact ⟨t, A, rfl, hA, hrest⟩

theorem convertible_augAssign {t : Target} {op : Operator} {value : Expr} {rest : Block}
    (h : convertible (.augAssign t op value rest) = true) :
    (∃ A, baseName t.toExpr = some A) ∧ convertible rest = true := by
  simpa only [convertible, Bool.and_eq_true, Option.isSome_iff_exists] using h

/-- Conjunctions of tests guard where no branch writes what a test reads. -/
theorem inline_predicates (hI : Laws I) {b : Block} (hconv : convertible b = true)
    (hnames : names b ⊆ kernel) (hapart : ∀ x ∈ loadNames g ++ testsRead b, x ∉ written b) :
    Predicates I kernel (some g) b (inline b g) ∧ written (inline b g) = written b := by
  induction b generalizing g with
  | done => exact ⟨.done, rfl⟩
  | assign targets value rest ih =>
    obtain ⟨t, A, rfl, hA, hconv⟩ := convertible_assign hconv
    simp only [names, flatMap_singleton, append_subset] at hnames
    simp only [testsRead, written, mem_append, not_or] at hapart
    obtain ⟨hrest, hwritten⟩ := ih hconv hnames.2 fun x hx => (hapart x (mem_append.1 hx)).2
    exact ⟨.assign hA hnames.1.1 hnames.1.2 hrest, by
      rw [inline, written_predicated hA, hwritten, written, filterMap_cons, hA]; rfl⟩
  | augAssign t op value rest ih =>
    obtain ⟨⟨A, hA⟩, hconv⟩ := convertible_augAssign hconv
    simp only [names, append_subset] at hnames
    simp only [testsRead, written, mem_append, not_or] at hapart
    obtain ⟨hrest, hwritten⟩ := ih hconv hnames.2 fun x hx => (hapart x (mem_append.1 hx)).2
    refine ⟨.augAssign hA hnames.1.1 ?_ hrest, by
      rw [inline, written_predicated hA, hwritten, written, hA]; rfl⟩
    rw [loadNames_augmented]
    exact append_subset.2 hnames.1
  | ifElse test body orelse rest ihb iho ihr =>
    simp only [convertible, Bool.and_eq_true] at hconv
    simp only [names, append_subset] at hnames
    simp only [testsRead, written, mem_append, not_or] at hapart
    have hbranch : ∀ e, loadNames e = loadNames test → ∀ x ∈ loadNames (conj (some g) e),
        x ∈ loadNames g ∨ x ∈ loadNames test := fun e he x hx => by
      rwa [conj, loadNames_boolOp, mem_append, he] at hx
    obtain ⟨hb, hwb⟩ := @ihb (conj (some g) test) hconv.1.1 hnames.1.1.2 fun x hx =>
      (hapart x (by have := hbranch test rfl x; rw [mem_append] at hx; tauto)).1.1
    obtain ⟨ho, hwo⟩ := @iho (conj (some g) (negate test)) hconv.1.2 hnames.1.2 fun x hx =>
      (hapart x (by have := hbranch (negate test) rfl x; rw [mem_append] at hx; tauto)).1.2
    obtain ⟨hr, hwr⟩ := @ihr g hconv.2 hnames.2 fun x hx =>
      (hapart x (by rw [mem_append] at hx; tauto)).2
    refine ⟨.ifElse .done (enters_inline hI (some g) hnames.1.1.1) hb ho hr ?_ ?_, by
      simp only [inline, written_append, hwb, hwo, hwr, written, append_assoc]⟩
    · intro x hx
      rw [hwb]
      exact (hapart x (by have := hbranch test rfl x hx; tauto)).1.1
    · intro x hx
      rw [hwb, hwo, mem_append, not_or]
      exact (hapart x (by have := hbranch (negate test) rfl x hx; tauto)).1
  | _ => cases hconv

theorem flagName_injective (h : flagName n = flagName n') : n = n' :=
  toString_injective ((String.append_right_inj _).1 h)

theorem fresh_spec (taken : List String) (n : ℕ) :
    n ≤ fresh taken n ∧ flagName (fresh taken n) ∉ taken := by
  unfold fresh
  cases hfind : (List.range' n (taken.length + 1)).find? fun m => flagName m ∉ taken with
  | some m =>
    have hmem := mem_range'_1.1 (mem_of_find?_eq_some hfind)
    exact ⟨hmem.1, by simpa using find?_some hfind⟩
  | none =>
    -- There are more candidates than names.
    have hall : (List.range' n (taken.length + 1)).map flagName ⊆ taken := fun x hx => by
      obtain ⟨m, hm, rfl⟩ := mem_map.1 hx
      simpa using find?_eq_none.1 hfind m hm
    have hnodup : ((List.range' n (taken.length + 1)).map flagName).Nodup :=
      (nodup_range' (h := Nat.one_pos)).map fun _ _ => flagName_injective
    have hle := (hnodup.subperm hall).length_le
    rw [length_map, length_range'] at hle
    omega

/-- The guard reads flags that are set already. -/
def FlagsBelow (taken : List String) (n : ℕ) (g : Expr) : Prop :=
  ∀ x ∈ loadNames g, x ∉ taken ∧ ∃ m < n, x = flagName m

/-- Names of the kernel and flags between two numbers. -/
def Writes (taken : List String) (n n' : ℕ) (ws : List String) : Prop :=
  ∀ x ∈ ws, x ∈ taken ∨ ∃ m, n ≤ m ∧ m < n' ∧ x = flagName m

theorem FlagsBelow.apart {ws : List String} (h : FlagsBelow taken n g)
    (hws : Writes taken n n' ws) : ∀ x ∈ loadNames g, x ∉ ws := by
  intro x hx hmem
  obtain ⟨hnew, m, hm, rfl⟩ := h x hx
  rcases hws _ hmem with hold | ⟨m', hm', -, heq⟩
  · exact hnew hold
  · have := flagName_injective heq
    omega

theorem Writes.mono {ws : List String} (h : Writes taken n n' ws) {m m' : ℕ} (hm : m ≤ n)
    (hm' : n' ≤ m') : Writes taken m m' ws := fun x hx =>
  (h x hx).imp_right fun ⟨k, hk, hk', heq⟩ => ⟨k, hm.trans hk, hk'.trans_le hm', heq⟩

theorem Writes.append {ws ws' : List String} (h : Writes taken n n' ws)
    (h' : Writes taken n n' ws') : Writes taken n n' (ws ++ ws') := fun x hx =>
  (mem_append.1 hx).elim (h x) (h' x)

/-- What a branch under flags is, and what it writes. -/
def Branched (I : Interp V) (taken : List String) (guard : Option Expr) (b : Block) (n : ℕ) :
    Prop :=
  let r := branch taken b guard n
  Predicates I taken guard b r.body ∧ n ≤ r.counter ∧ Writes taken n r.counter (written r.body)

/-- An `if` under flags, from its branches and what follows it. -/
theorem branched_ifElse (hI : Laws I) {body orelse rest : Block} (htest : loadNames test ⊆ taken)
    (hguard : ∀ g ∈ guard, FlagsBelow taken n g)
    (hbody : ∀ g n, FlagsBelow taken n g → Branched I taken (some g) body n)
    (horelse : ∀ g n, FlagsBelow taken n g → Branched I taken (some g) orelse n)
    (hrest : ∀ n', n ≤ n' → Branched I taken guard rest n') :
    Branched I taken guard (.ifElse test body orelse rest) n := by
  obtain ⟨hle, hnew⟩ := fresh_spec taken n
  have hflag : FlagsBelow taken (fresh taken n + 1) (.name (flagName (fresh taken n))) := by
    intro x hx
    obtain rfl := mem_singleton.1 hx
    exact ⟨hnew, _, Nat.lt_succ_self _, rfl⟩
  have hothers : FlagsBelow taken (fresh taken n + 1)
      (others guard (.name (flagName (fresh taken n)))) := by
    intro x hx
    cases guard with
    | none => exact hflag x hx
    | some g =>
      rw [others, conj, loadNames_boolOp, mem_append] at hx
      rcases hx with hx | hx
      · obtain ⟨htaken, m, hm, rfl⟩ := hguard g rfl x hx
        exact ⟨htaken, m, by omega, rfl⟩
      · exact hflag x hx
  obtain ⟨hb, hnb, hwb⟩ := hbody _ _ hflag
  obtain ⟨ho, hno, hwo⟩ := horelse _ _ fun x hx =>
    (hothers x hx).imp_right fun ⟨m, hm, heq⟩ => ⟨m, hm.trans_le hnb, heq⟩
  obtain ⟨hr, hnr, hwr⟩ := hrest _ ((hle.trans (Nat.le_succ _)).trans (hnb.trans hno))
  have hwrites := (hwb.mono le_rfl hno).append (hwo.mono hnb le_rfl)
  refine ⟨.ifElse (.assign [.name (flagName (fresh taken n))] (flagValue guard test) .done)
    (enters_flag hI htest hnew fun g hg x hx hmem => ?_) hb ho hr (hflag.apart hwb)
    (hothers.apart hwrites), by simp only [branch]; omega, ?_⟩
  · obtain ⟨-, m, hm, rfl⟩ := hguard g hg x hx
    have := flagName_injective (mem_singleton.1 hmem)
    omega
  · have hset : Writes taken n (fresh taken n + 1) [flagName (fresh taken n)] := fun x hx =>
      .inr ⟨_, hle, Nat.lt_succ_self _, mem_singleton.1 hx⟩
    simp only [branch, written, written_append]
    exact (hset.mono le_rfl (by omega)).append ((hwb.mono (by omega) (by omega)).append
      ((hwo.mono (by omega) (by omega)).append (hwr.mono (by omega) le_rfl)))

/-- Flags guard whatever the branches write. -/
theorem branched (hI : Laws I) {b : Block} (hconv : convertible b = true) (hnames : names b ⊆ taken)
    (hg : FlagsBelow taken n g) : Branched I taken (some g) b n := by
  induction b generalizing g n with
  | done => exact ⟨.done, le_rfl, nofun⟩
  | assign targets value rest ih =>
    obtain ⟨t, A, rfl, hA, hconv⟩ := convertible_assign hconv
    simp only [names, flatMap_singleton, append_subset] at hnames
    obtain ⟨hrest, hle, hwrites⟩ := ih hconv hnames.2 hg
    refine ⟨.assign hA hnames.1.1 hnames.1.2 hrest, hle, ?_⟩
    rw [branch, written_predicated hA]
    exact Writes.append (fun x hx => .inl (mem_singleton.1 hx ▸
      hnames.1.1 (mem_loadNames_of_baseName hA))) hwrites
  | augAssign t op value rest ih =>
    obtain ⟨⟨A, hA⟩, hconv⟩ := convertible_augAssign hconv
    simp only [names, append_subset] at hnames
    obtain ⟨hrest, hle, hwrites⟩ := ih hconv hnames.2 hg
    refine ⟨.augAssign hA hnames.1.1 ?_ hrest, hle, ?_⟩
    · rw [loadNames_augmented]
      exact append_subset.2 hnames.1
    rw [branch, written_predicated hA]
    exact Writes.append (fun x hx => .inl (mem_singleton.1 hx ▸
      hnames.1.1 (mem_loadNames_of_baseName hA))) hwrites
  | ifElse test body orelse rest ihb iho ihr =>
    simp only [convertible, Bool.and_eq_true] at hconv
    simp only [names, append_subset] at hnames
    exact branched_ifElse hI hnames.1.1.1 (fun g' hg' => Option.some.inj hg' ▸ hg)
      (fun g n h => ihb hconv.1.1 hnames.1.1.2 h) (fun g n h => iho hconv.1.2 hnames.1.2 h)
      fun n' hn' => ihr hconv.2 hnames.2 fun x hx =>
        (hg x hx).imp_right fun ⟨m, hm, heq⟩ => ⟨m, hm.trans_le hn', heq⟩
  | _ => cases hconv

/-- **A converted `if`** is guarded assignments. -/
theorem convert_predicates (hI : Laws I) {body orelse : Block} (hbody : convertible body = true)
    (horelse : convertible orelse = true)
    (hnames : names (.ifElse test body orelse .done) ⊆ taken) :
    Predicates I taken none (.ifElse test body orelse .done)
      (convert taken test body orelse n).body := by
  simp only [names, append_subset] at hnames
  rw [convert]
  split
  · next hapart =>
    simp only [all_eq_true, decide_eq_true_eq, testsRead, written, append_nil,
      mem_append, not_or] at hapart
    obtain ⟨hb, hwb⟩ := inline_predicates (g := test) hI hbody hnames.1.1.2 fun x hx =>
      (hapart x (by rw [mem_append] at hx; tauto)).1
    obtain ⟨ho, hwo⟩ := inline_predicates (g := negate test) hI horelse hnames.1.2 fun x hx =>
      (hapart x (by rw [loadNames_negate, mem_append] at hx; tauto)).2
    have hif := Predicates.ifElse .done (enters_inline hI none hnames.1.1.1) hb ho .done
      (fun x hx => by rw [hwb]; exact (hapart x (.inl (.inl hx))).1) fun x hx => by
        rw [hwb, hwo, mem_append, not_or]
        exact hapart x (.inl (.inl hx))
    rwa [Block.append_done] at hif
  · exact (branched_ifElse (n := n) hI hnames.1.1.1 (fun g hg => by cases hg)
      (fun g n h => branched hI hbody hnames.1.1.2 h)
      (fun g n h => branched hI horelse hnames.1.2 h) fun _ _ => ⟨.done, le_rfl, nofun⟩).1

/-! ### A body -/

theorem stores_alike {targets : List Target} {v : V} (hσ : Alike taken σ σ')
    (hnames : targets.flatMap (loadNames ·.toExpr) ⊆ taken)
    (h : targets.foldlM (fun σ t => store I σ v t) σ = some τ) :
    ∃ τ', targets.foldlM (fun σ t => store I σ v t) σ' = some τ' ∧ Alike taken τ τ' := by
  induction targets generalizing σ σ' with
  | nil =>
    obtain rfl := Option.some.inj h
    exact ⟨σ', rfl, hσ⟩
  | cons t targets ih =>
    rw [flatMap_cons, append_subset] at hnames
    rw [foldlM_cons] at h
    obtain ⟨υ, hυ, h⟩ := Option.bind_eq_some_iff.1 h
    obtain ⟨υ', hυ', halike⟩ := hσ.store hnames.1 hυ
    obtain ⟨τ', hτ', hend⟩ := ih halike hnames.2 h
    exact ⟨τ', by rw [foldlM_cons, hυ']; exact hτ', hend⟩

/-- An assignment outside every converted `if`. -/
theorem assign_alike {targets : List Target} {e : Expr} (hσ : Alike taken σ σ')
    (htargets : targets.flatMap (loadNames ·.toExpr) ⊆ taken) (he : loadNames e ⊆ taken)
    (h : exec I fuel (.assign targets e .done) σ = some (τ, .next)) :
    ∃ τ', exec I fuel (.assign targets e .done) σ' = some (τ', .next) ∧ Alike taken τ τ' := by
  obtain ⟨v, hv, h⟩ := Option.bind_eq_some_iff.1 h
  obtain ⟨υ, hυ, h⟩ := Option.bind_eq_some_iff.1 h
  obtain rfl := next_inj h
  obtain ⟨τ', hτ', halike⟩ := stores_alike hσ htargets hυ
  exact ⟨τ', by rw [exec, hσ.value he, hv, Option.bind_some, hτ']; rfl, halike⟩

theorem exec_ifElse_done (body orelse : Block) :
    exec I fuel (.ifElse test body orelse .done) σ = (value I σ test).bind fun v =>
      if I.truth v then exec I fuel body σ else exec I fuel orelse σ := by
  rw [exec]
  refine Option.bind_congr fun v _ => ?_
  generalize (if I.truth v then exec I fuel body σ else exec I fuel orelse σ) = run
  obtain _ | ⟨υ, _ | _⟩ := run <;> rfl

variable {valueDependent : Expr → Bool} {depth : ℕ}

/-- **A body runs as before** just where the targets of the branches not taken can be read. -/
theorem visit_run (hI : Laws I) {b : Block} (hstraight : straight b = true)
    (hnames : names b ⊆ taken) (hσ : Alike taken σ σ')
    (hrun : exec I fuel b σ = some (τ, .next)) :
    Succeeds (Kept I fuel valueDependent b σ)
      (exec I fuel (visit valueDependent taken b (depth + 1) n).body σ') (Alike taken τ) := by
  induction b generalizing n σ σ' τ with
  | done =>
    obtain rfl := next_inj hrun
    exact .always rfl hσ
  | assign targets value rest ih =>
    simp only [names, append_subset] at hnames
    obtain ⟨υ, hυ, hlast⟩ := skim_append (c := true) (a := .assign targets value .done) hrun
    obtain ⟨υ', hυ', halike⟩ := assign_alike hσ hnames.1.1 hnames.1.2 hυ
    exact ((Succeeds.always (Q := Alike taken υ) hυ' halike).append fun υ₁ h =>
      ih (n := n) hstraight hnames.2 h hlast).congr
      ((true_and _).to_iff.trans (forall_after hυ).symm)
  | augAssign t op value rest ih =>
    simp only [names, append_subset] at hnames
    obtain ⟨υ, hυ, hlast⟩ := skim_append (c := true) (a := .augAssign t op value .done) hrun
    have hstore := (skim_augAssign op value .done).symm.trans hυ
    obtain ⟨υ', hυ', halike⟩ := assign_alike hσ (by simpa using hnames.1.1)
      (by rw [loadNames_augmented]; exact append_subset.2 hnames.1) hstore
    rw [← exec_augAssign] at hυ'
    exact ((Succeeds.always (Q := Alike taken υ) hυ' halike).append fun υ₁ h =>
      ih (n := n) hstraight hnames.2 h hlast).congr
      ((true_and _).to_iff.trans (forall_after hυ).symm)
  | ifElse test body orelse rest ihb iho ihr =>
    simp only [straight, Bool.and_eq_true] at hstraight
    have hsplit := hnames
    simp only [names, append_subset] at hsplit
    obtain ⟨υ, hυ, hlast⟩ := skim_append (c := true) (a := .ifElse test body orelse .done) hrun
    have hthen : ∀ {P : Prop}, (Kept I fuel valueDependent (.ifElse test body orelse rest) σ ↔
        P ∧ ∀ τ, exec I fuel (.ifElse test body orelse .done) σ = some (τ, .next) →
          Kept I fuel valueDependent rest τ) →
        (P ∧ Kept I fuel valueDependent rest υ ↔
          Kept I fuel valueDependent (.ifElse test body orelse rest) σ) := fun h =>
      (and_congr Iff.rfl (forall_after hυ).symm).trans h.symm
    rw [visit]
    simp only [Nat.succ_pos, decide_true, Bool.true_and]
    split
    · next hconv =>
      have hparts := hconv
      simp only [Bool.and_eq_true] at hparts
      have hpred := convert_predicates (n := n) hI hparts.1.2 hparts.2
        (by simpa only [names, append_nil, append_subset] using hsplit.1)
      refine ((hpred.run hσ rfl (fun g hg => by cases hg) hυ).append fun υ' h =>
        ihr hstraight.2 hsplit.2 h.1 hlast).congr (hthen ?_)
      rw [Kept, if_pos hconv]
    · next hconv =>
      obtain ⟨v, hv, hbranch⟩ := Option.bind_eq_some_iff.1 ((exec_ifElse_done _ _).symm.trans hυ)
      refine (Succeeds.append (a := .ifElse test _ _ .done) (P := (∀ v, value I σ test = some v →
        (I.truth v = true → Kept I fuel valueDependent body σ) ∧
        (I.truth v = false → Kept I fuel valueDependent orelse σ))) ?_ fun υ' h =>
        ihr hstraight.2 hsplit.2 h hlast).congr (hthen (by rw [Kept, if_neg hconv]))
      have hexec : ∀ b o : Block, exec I fuel (.ifElse test b o .done) σ' =
          if I.truth v then exec I fuel b σ' else exec I fuel o σ' := fun b o => by
        rw [exec_ifElse_done, hσ.value hsplit.1.1.1, hv, Option.bind_some]
      rw [hexec]
      cases htruth : I.truth v with
      | true =>
        rw [htruth, if_pos rfl] at hbranch
        rw [if_pos rfl]
        refine (ihb hstraight.1.1 hsplit.1.1.2 hσ hbranch).congr ⟨fun h v' hv' => ?_, fun h =>
          (h v hv).1 htruth⟩
        obtain rfl := Option.some.inj (hv.symm.trans hv')
        exact ⟨fun _ => h, fun hf => absurd (hf.symm.trans htruth) Bool.false_ne_true⟩
      | false =>
        rw [htruth, if_neg Bool.false_ne_true] at hbranch
        rw [if_neg Bool.false_ne_true]
        refine (iho hstraight.1.2 hsplit.1.2 hσ hbranch).congr ⟨fun h v' hv' => ?_, fun h =>
          (h v hv).2 htruth⟩
        obtain rfl := Option.some.inj (hv.symm.trans hv')
        exact ⟨fun hf => absurd (htruth.symm.trans hf) Bool.false_ne_true, fun _ => h⟩
  | _ => cases hstraight

end Forms

/-- **If-conversion is exact** just where every target of a branch that is not taken can be read and
stored to as it stands. -/
theorem if_conversion {V : Type} (I : Interp V) (hI : Laws I) (fuel : ℕ)
    (valueDependent : Expr → Bool) (b : Block) (taken : List String) (depth n : ℕ) (σ τ : State V)
    (hstraight : straight b = true) (htaken : names b ⊆ taken)
    (hnamed : ∀ x, x ∉ taken → σ.arrays x = none)
    (hrun : exec I fuel b σ = some (τ, .next)) :
    (∃ τ', exec I fuel (visit valueDependent taken b (depth + 1) n).body σ = some (τ', .next) ∧
      τ'.arrays = τ.arrays ∧ ∀ x ∈ taken, τ'.scalars x = τ.scalars x) ↔
    Kept I fuel valueDependent b σ := by
  have hσ : Alike taken σ σ := ⟨rfl, fun _ _ => rfl, hnamed⟩
  have h : Succeeds (Kept I fuel valueDependent b σ)
      (exec I fuel (visit valueDependent taken b (depth + 1) n).body σ) (Alike taken τ) :=
    visit_run hI hstraight htaken hσ hrun
  constructor
  · rintro ⟨τ', hτ', -⟩
    exact h.only (by rw [hτ', Option.isSome_some])
  · intro hkept
    obtain ⟨τ', hτ', halike⟩ := h.of hkept
    exact ⟨τ', hτ', halike.arrays, halike.scalars⟩

/-- Exact integers, with `not`. -/
def notInterp : Interp ℤ :=
  { intInterp with unary := fun op n => if op = "not" then some (if n = 0 then 1 else 0) else none }

theorem notInterp_laws : Laws notInterp where
  one := rfl
  zero := rfl
  not n := by
    refine ⟨_, rfl, ?_⟩
    by_cases h : n = 0 <;> simp [h, notInterp, intInterp]

/-- `A[i]`. -/
def cell (A : String) (i : Expr) : Target := .subscript (.name A) i

/-- `if a[0]: best = a[0]; a[0] = 0`, whose branch writes what its test reads. -/
def latch : Block :=
  .ifElse (cell "a" (.const (.int 0))).toExpr
    (.assign [.name "best"] (cell "a" (.const (.int 0))).toExpr
      (.assign [cell "a" (.const (.int 0))] (.const (.int 0)) .done)) .done .done

def latchStart : State ℤ where
  scalars _ := none
  arrays x := if x = "a" then some ⟨[1], fun _ => 3⟩ else none

theorem if_conversion_latch :
    ∃ τ', exec notInterp 0 (visit (fun _ => true) ["a", "best"] latch 1 0).body latchStart =
      some (τ', .next) ∧ τ'.scalars "best" = some 3 := by
  obtain ⟨τ', hτ', -, hscalars⟩ := (if_conversion notInterp notInterp_laws 0 (fun _ => true) latch
    ["a", "best"] 0 0 latchStart
    ((latchStart.setScalar "best" 3).setArray "a" (Arr.set ⟨[1], fun _ => 3⟩ [0] 0)) rfl (by decide)
    (fun x hx => if_neg (by rintro rfl; exact hx (by decide))) rfl).2 (by
      refine ⟨?_, fun _ _ => trivial⟩
      rw [if_pos (by decide)]
      refine ⟨fun d υ hd hυ => ?_, fun _ _ => trivial⟩
      obtain rfl := Option.some.inj hd
      exact ⟨⟨nofun, fun _ _ => ⟨nofun, fun _ _ => trivial⟩⟩, trivial⟩)
  exact ⟨τ', hτ', hscalars "best" (by decide)⟩

/-- `if seen[0]: a[at[0]] = 1`. -/
def guarded : Block :=
  .ifElse (cell "seen" (.const (.int 0))).toExpr
    (.assign [cell "a" (cell "at" (.const (.int 0))).toExpr] (.const (.int 1)) .done) .done .done

/-- `seen = [0]`, `at = [5]`, and two elements of `a`. -/
def guardedStart : State ℤ where
  scalars _ := none
  arrays x :=
    if x = "seen" then some ⟨[1], fun _ => 0⟩ else if x = "at" then some ⟨[1], fun _ => 5⟩
    else if x = "a" then some ⟨[2], fun _ => 0⟩ else none

/-- The guard kept the index in range. -/
theorem if_conversion_past_end :
    exec notInterp 0 guarded guardedStart = some (guardedStart, .next) ∧
      exec notInterp 0 (visit (fun _ => true) ["seen", "a", "at"] guarded 1 0).body guardedStart =
        none :=
  ⟨rfl, rfl⟩

end Predicate

end Translate

end HpcAgentBench
