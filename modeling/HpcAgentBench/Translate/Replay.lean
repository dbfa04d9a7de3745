import HpcAgentBench.Translate.ForwardSubst
import HpcAgentBench.Translate.Simulation

/-!
# Replaying keeps the meaning

A body with an expression replayed at the reads of a name runs like the body that binds the name, if
the name never holds a stale value where it is read: no path leads from its assignment, through a
store of something the expression reads, to a read of the name (`Block.held`).

The source counts the stores of what the expression reads, and does not ask where they are.

## Main results

* `exec_replay` : one round keeps the arrays and every other name.
* `forward_substitute_sound` : so do all the rounds, where no round replays a stale value.
-/

namespace HpcAgentBench

open List Option

namespace Translate

/-! ### What a name holds -/

/-- What a name holds, by the paths to a point: its value is the one its expression has now
(`fresh`), or anything. -/
inductive Held
  | unbound
  | fresh
  | stale
  deriving DecidableEq

namespace Held

/-- What it holds where two paths meet. -/
def join : Held → Held → Held
  | unbound, h => h
  | fresh, stale => stale
  | fresh, _ => fresh
  | stale, _ => stale

/-- What it holds after something its expression reads is stored. -/
def touch : Held → Held
  | unbound => unbound
  | _ => stale

/-- What it holds whenever a loop's body is entered, the way through the body being `f`. -/
def around (f : Held → Held) (h : Held) : Held :=
  let again (h : Held) := h.join (f h)
  again (again h)

/-- To hold no more than. -/
def Le (a b : Held) : Prop := a.join b = b

theorem le_join_left (a b : Held) : a.Le (a.join b) := by
  cases a <;> cases b <;> rfl

theorem le_join_right (a b : Held) : b.Le (a.join b) := by
  cases a <;> cases b <;> rfl

theorem le_around (f : Held → Held) (h : Held) : h.Le (around f h) := by
  simp only [around, Le]
  cases h <;> cases hunbound : f unbound <;> cases hfresh : f fresh <;> cases hstale : f stale <;>
    simp [join, *]

/-- Around the loop once more, the name holds nothing new. -/
theorem around_le (f : Held → Held) (h : Held) : (f (around f h)).Le (around f h) := by
  simp only [around, Le]
  cases h <;> cases hunbound : f unbound <;> cases hfresh : f fresh <;> cases hstale : f stale <;>
    simp [join, *]

end Held

/-! ### Paths from the assignment to the reads -/

/-- Whether a name is called. -/
def Expr.calls (name : String) (e : Expr) : Bool :=
  e.walkNodes.any fun
    | .call func _ => func = .name name
    | _ => false

/-- What a name holds after a list of statements, at its end and at a `break`, and whether it is
read where it is stale. -/
structure Paths where
  fall : Held
  brk : Held
  misread : Bool

section Paths

variable (arrays : List String) (name_ : String) (expr_ : Expr)

/-- The arrays that a statement of its own passes by name. -/
def passed : Expr → List String
  | .call _ args => (args.elts.filterMap Expr.id?).filter (· ∈ arrays)
  | _ => []

/-- A stale read; calling the name is one. -/
def Expr.misread (h : Held) (e : Expr) : Bool :=
  (h = .stale && name_ ∈ loadNames e) || e.calls name_

/-- What the name holds after some names are stored. -/
def touched (names : List String) (h : Held) : Held :=
  if names.any (· ∈ loadNames expr_) then h.touch else h

/-- What the name holds after some targets are stored, one after another. -/
def heldStores : List Target → Held → Held × Bool
  | [], h => (h, false)
  | t :: ts, h =>
    let later := heldStores ts (touched expr_ t.bases h)
    (later.1, t.reads.any (·.misread name_ h) || later.2)

/-- What the name holds along the paths of a list of statements. -/
def Block.held : Held → Block → Paths
  | h, .done => ⟨h, .unbound, false⟩
  | h, .assign targets value rest =>
    let after :=
      if targets = [.name name_] then (.fresh, false)
      else heldStores name_ expr_ targets h
    let p := held after.1 rest
    ⟨p.fall, p.brk, value.misread name_ h || after.2 || p.misread⟩
  | h, .augAssign target _ value rest =>
    let after := heldStores name_ expr_ [target] h
    let p := held after.1 rest
    ⟨p.fall, p.brk, target.toExpr.misread name_ h || value.misread name_ h || after.2 || p.misread⟩
  | h, .expr value rest =>
    let p := held (touched expr_ (passed arrays value) h) rest
    -- A bare name is no statement: its value may be one.
    ⟨p.fall, p.brk, value = .name name_ || value.misread name_ h || p.misread⟩
  | h, .ifElse test body orelse rest =>
    let first := held h body
    let other := held h orelse
    let p := held (first.fall.join other.fall) rest
    ⟨p.fall, (first.brk.join other.brk).join p.brk,
      test.misread name_ h || first.misread || other.misread || p.misread⟩
  | h, .forRange target args body rest =>
    let around := Held.around (fun h => (held (touched expr_ [target] h) body).fall) h
    let inner := held (touched expr_ [target] around) body
    let p := held (around.join inner.brk) rest
    ⟨p.fall, p.brk, args.misread name_ h || inner.misread || p.misread⟩
  | h, .whileDo test body rest =>
    let around := Held.around (fun h => (held h body).fall) h
    let inner := held around body
    let p := held (around.join inner.brk) rest
    ⟨p.fall, p.brk, test.misread name_ around || inner.misread || p.misread⟩
  | h, .brk _ => ⟨.unbound, h, false⟩

end Paths

/-! ### Expressions -/

section Replayed

variable {V : Type} {I : Interp V} {arrays : List String} {name_ : String} {expr_ : Expr}

/-- What it says of two runs that a name holds so much: where it is bound in the one, it is to the
value its expression has in the other. -/
def Holds (I : Interp V) (name_ : String) (expr_ : Expr) (h : Held) (σ τ : State V) : Prop :=
  match h with
  | .unbound => σ.scalars name_ = none
  | .fresh => ∀ v, σ.scalars name_ = some v → value I τ expr_ = some v
  | .stale => True

/-- The store of a body, and of the body with the expression replayed. -/
structure Replayed (I : Interp V) (arrays : List String) (name_ : String) (expr_ : Expr) (h : Held)
    (σ τ : State V) : Prop where
  scalars : ∀ x, x ≠ name_ → σ.scalars x = τ.scalars x
  stores : σ.arrays = τ.arrays
  named : ∀ A, (σ.arrays A).isSome → A ∈ arrays
  held : Holds I name_ expr_ h σ τ

/-- A name and an expression for it, which is neither a tuple nor an array and does not read the
name. -/
structure IsScalar (arrays : List String) (name_ : String) (expr_ : Expr) : Prop where
  elts : expr_.elts = [expr_]
  named : ∀ A ∈ arrays, expr_ ≠ .name A
  free : name_ ∉ loadNames expr_
  notRange : name_ ≠ "range"

instance : Decidable (IsScalar arrays name_ expr_) :=
  decidable_of_iff (expr_.elts = [expr_] ∧ (∀ A ∈ arrays, expr_ ≠ .name A) ∧
    name_ ∉ loadNames expr_ ∧ name_ ≠ "range")
    ⟨fun h => ⟨h.1, h.2.1, h.2.2.1, h.2.2.2⟩, fun h => ⟨h.elts, h.named, h.free, h.notRange⟩⟩

variable {σ τ : State V} {h h' : Held}
variable {e e' : Expr} {v : V} {vs : List V} {f : String} {σ' : State V} {k : ℕ} {arg : Expr}
variable {B : String} {b : Block}

theorem Holds.mono (hheld : Holds I name_ expr_ h σ τ) (hle : h.Le h') :
    Holds I name_ expr_ h' σ τ := by
  cases h with
  | unbound =>
    cases h' with
    | unbound => exact hheld
    | fresh => exact fun v hv => by rw [hheld] at hv; cases hv
    | stale => trivial
  | fresh =>
    cases h' with
    | unbound => cases hle
    | fresh => exact hheld
    | stale => trivial
  | stale =>
    cases h' with
    | stale => trivial
    | _ => cases hle

theorem Replayed.mono (hσ : Replayed I arrays name_ expr_ h σ τ) (hle : h.Le h') :
    Replayed I arrays name_ expr_ h' σ τ :=
  ⟨hσ.scalars, hσ.stores, hσ.named, hσ.held.mono hle⟩

/-- A read of the one run, and the read replayed in the other: the same, or the expression for the
value of the name. -/
def SameRead (I : Interp V) (τ : State V) (r r' : Reads V) : Prop :=
  r' = r ∨ ∃ v, r = .values [v] ∧ force I τ r' = some v

/-- An expression reads in the one run what its replay reads in the other. -/
def ReadsAs (I : Interp V) (σ τ : State V) (e e' : Expr) : Prop :=
  ∀ r, eval I σ e = some r → ∃ r', eval I τ e' = some r' ∧ SameRead I τ r r'

theorem ReadsAs.force (he : ReadsAs I σ τ e e') (harrays : σ.arrays = τ.arrays)
    (hv : (eval I σ e).bind (force I σ) = some v) : (eval I τ e').bind (force I τ) = some v := by
  obtain ⟨r, hr, hv⟩ := bind_eq_some_iff.1 hv
  obtain ⟨r', hr', rfl | ⟨w, rfl, hw⟩⟩ := he r hr
  · rw [hr', bind_some, ← force_arrays harrays, hv]
  · rw [hr', bind_some, hw]
    exact hv

theorem ReadsAs.items (he : ReadsAs I σ τ e e') (harrays : σ.arrays = τ.arrays)
    (hvs : (eval I σ e).bind (items I σ) = some vs) :
    (eval I τ e').bind (items I τ) = some vs := by
  obtain ⟨r, hr, hvs⟩ := bind_eq_some_iff.1 hvs
  obtain ⟨r', hr', rfl | ⟨w, rfl, hw⟩⟩ := he r hr
  · rw [hr', bind_some, ← items_arrays harrays, hvs]
  · rw [hr', bind_some, items_of_force hw]
    exact hvs

theorem misread_sub (he : e.misread name_ h = false) (hsub : e'.walkNodes ⊆ e.walkNodes) :
    e'.misread name_ h = false := by
  simp only [Expr.misread, Bool.or_eq_false_iff, Bool.and_eq_false_iff, decide_eq_false_iff_not] at he ⊢
  refine ⟨he.1.imp_right fun hx hx' => hx (filterMap_subset _ hsub hx'), ?_⟩
  have hcalls := he.2
  simp only [Expr.calls, List.any_eq_false] at hcalls ⊢
  exact fun n hn => hcalls n (hsub hn)

theorem callLeaf_replay {func : Expr} (hfunc : func ≠ .name name_) (hf : callLeaf func = some f) :
    callLeaf (Expr.replay name_ expr_ func) = some f := by
  cases func with
  | name id =>
    have hid : id ≠ name_ := fun hid => hfunc (congrArg Expr.name hid)
    rw [Expr.replay, if_neg hid]
    exact hf
  | attr value a => exact hf
  | _ => cases hf

/-- **What an expression reads, its replay reads**, where the name is not stale. -/
theorem eval_replay (hname : name_ ∉ arrays) (hσ : Replayed I arrays name_ expr_ h σ τ)
    (he : e.misread name_ h = false) : ReadsAs I σ τ e (Expr.replay name_ expr_ e) := by
  induction e with
  | const v => exact fun r hr => ⟨r, hr, .inl rfl⟩
  | name id =>
    intro r hr
    by_cases hid : id = name_
    · subst hid
      have harray : σ.arrays id = none :=
        not_isSome_iff_eq_none.1 fun hsome => hname (hσ.named id hsome)
      have hfresh : Holds I id expr_ .fresh σ τ := by
        refine hσ.held.mono ?_
        have hstale : h ≠ .stale := by
          rintro rfl
          simp [Expr.misread, loadNames, Expr.walkNodes, Expr.id?] at he
        cases h with
        | unbound => rfl
        | fresh => rfl
        | stale => exact absurd rfl hstale
      cases hv : σ.scalars id with
      | none => simp [eval, hv, harray] at hr
      | some v =>
        simp only [eval, hv] at hr
        obtain ⟨r', hr', hforce⟩ := bind_eq_some_iff.1 (hfresh v hv)
        rw [Expr.replay, if_pos rfl]
        exact ⟨r', hr', .inr ⟨v, (some.inj hr).symm, hforce⟩⟩
    · refine ⟨r, ?_, .inl rfl⟩
      rw [Expr.replay, if_neg hid, ← hr]
      simp only [eval, hσ.scalars id hid, hσ.stores]
  | attr value a => exact fun r hr => by cases hr
  | unaryOp op operand ih =>
    have hoperand := ih (misread_sub he (by simp [Expr.walkNodes]))
    intro r hr
    obtain ⟨v, hv, hr⟩ := bind_eq_some_iff.1 hr
    refine ⟨r, ?_, .inl rfl⟩
    simp only [Expr.replay, eval, hoperand.force hσ.stores hv, bind_some, hr]
  | binOp op left right ihl ihr =>
    have hleft := ihl (misread_sub he (by simp [Expr.walkNodes]))
    have hright := ihr (misread_sub he (by simp [Expr.walkNodes]))
    intro r hr
    obtain ⟨a, ha, hr⟩ := bind_eq_some_iff.1 hr
    obtain ⟨b, hb, hr⟩ := bind_eq_some_iff.1 hr
    refine ⟨r, ?_, .inl rfl⟩
    simp only [Expr.replay, eval, hleft.force hσ.stores ha, hright.force hσ.stores hb,
      bind_some, hr]
  | boolOp conj left right ihl ihr =>
    have hleft := ihl (misread_sub he (by simp [Expr.walkNodes]))
    have hright := ihr (misread_sub he (by simp [Expr.walkNodes]))
    intro r hr
    obtain ⟨a, ha, hr⟩ := bind_eq_some_iff.1 hr
    refine ⟨r, ?_, .inl rfl⟩
    simp only [Expr.replay, eval, hleft.force hσ.stores ha, bind_some]
    split at hr
    · next htruth =>
      obtain ⟨b, hb, hr⟩ := map_eq_some_iff.1 hr
      rw [if_pos htruth, hright.force hσ.stores hb, map_some, hr]
    · next htruth => rw [if_neg htruth, hr]
  | ifExp test body orelse iht ihb iho =>
    have htest := iht (misread_sub he fun n hn => by simp [Expr.walkNodes, hn])
    have hbody := ihb (misread_sub he fun n hn => by simp [Expr.walkNodes, hn])
    have horelse := iho (misread_sub he fun n hn => by simp [Expr.walkNodes, hn])
    intro r hr
    obtain ⟨c, hc, hr⟩ := bind_eq_some_iff.1 hr
    simp only [Expr.replay, eval, htest.force hσ.stores hc, bind_some]
    split at hr
    · next htruth =>
      rw [if_pos htruth]
      exact hbody r hr
    · next htruth =>
      rw [if_neg htruth]
      exact horelse r hr
  | call func args _ ih =>
    have hargs := ih (misread_sub he (by simp [Expr.walkNodes]))
    have hfunc : func ≠ .name name_ := by
      rintro rfl
      simp [Expr.misread, Expr.calls, Expr.walkNodes] at he
    intro r hr
    obtain ⟨f, hf, hr⟩ := bind_eq_some_iff.1 hr
    obtain ⟨vs, hvs, hr⟩ := bind_eq_some_iff.1 hr
    refine ⟨r, ?_, .inl rfl⟩
    simp only [Expr.replay, eval, callLeaf_replay hfunc hf, hargs.items hσ.stores hvs,
      bind_some, hr]
  | subscript value slice ihv ihs =>
    have hvalue := ihv (misread_sub he (by simp [Expr.walkNodes]))
    have hslice := ihs (misread_sub he (by simp [Expr.walkNodes]))
    intro r hr
    obtain ⟨base, hbase, hr⟩ := bind_eq_some_iff.1 hr
    obtain ⟨vs, hvs, hr⟩ := bind_eq_some_iff.1 hr
    obtain ⟨index, hindex, hr⟩ := bind_eq_some_iff.1 hr
    cases base with
    | values ws => cases hr
    | view A before =>
      -- A part of an array is no scalar's value.
      obtain ⟨base', hbase', rfl | ⟨w, hw, -⟩⟩ := hvalue _ hbase
      · refine ⟨r, ?_, .inl rfl⟩
        simp only [Expr.replay, eval, hbase', hslice.items hσ.stores hvs, bind_some, hindex, hr]
      · cases hw
  | slice lower upper step => exact fun r hr => by cases hr
  | unit => exact fun r hr => ⟨r, hr, .inl rfl⟩
  | pair head tail ihh iht =>
    have hhead := ihh (misread_sub he (by simp [Expr.walkNodes]))
    have htail := iht (misread_sub he (by simp [Expr.walkNodes]))
    intro r hr
    obtain ⟨v, hv, hr⟩ := bind_eq_some_iff.1 hr
    obtain ⟨vs, hvs, hr⟩ := map_eq_some_iff.1 hr
    refine ⟨r, ?_, .inl rfl⟩
    simp only [Expr.replay, eval, hhead.force hσ.stores hv, htail.items hσ.stores hvs,
      bind_some, map_some, hr]

/-! ### Stores -/

/-- What a name holds after some names are stored, in both runs alike. -/
theorem Replayed.touch (hσ : Replayed I arrays name_ expr_ h σ τ) {names : List String}
    {τ' : State V} (hscalars : ∀ x, x ≠ name_ → σ'.scalars x = τ'.scalars x)
    (hstores : σ'.arrays = τ'.arrays) (hnamed : ∀ A, (σ'.arrays A).isSome → A ∈ arrays)
    (hkeeps : σ'.scalars name_ = σ.scalars name_)
    (hothers : ∀ x, x ∉ names → τ'.scalars x = τ.scalars x ∧ τ'.arrays x = τ.arrays x) :
    Replayed I arrays name_ expr_ (touched expr_ names h) σ' τ' := by
  refine ⟨hscalars, hstores, hnamed, ?_⟩
  unfold touched
  split
  · next hread =>
    cases h with
    | unbound => exact hkeeps.trans hσ.held
    | _ => trivial
  · next hread =>
    have hsame : SameOn (loadNames expr_) τ' τ := fun x hx => hothers x fun hmem =>
      hread (any_eq_true.2 ⟨x, hmem, by simpa using hx⟩)
    cases h with
    | unbound => exact hkeeps.trans hσ.held
    | fresh => exact fun v hv => (value_same hsame).trans (hσ.held v (hkeeps ▸ hv))
    | stale => trivial

theorem set_replay (hσ : Replayed I arrays name_ expr_ h σ τ) {x : String} (hx : x ≠ name_)
    (hset : σ.set x v = some σ') :
    ∃ τ', τ.set x v = some τ' ∧ Replayed I arrays name_ expr_ (touched expr_ [x] h) σ' τ' := by
  simp only [State.set] at hset ⊢
  rw [← hσ.stores]
  split at hset
  · cases hset
  · next harray =>
    obtain rfl := some.inj hset
    rw [if_neg harray]
    refine ⟨_, rfl, hσ.touch (fun y hy => ?_) hσ.stores hσ.named ?_ fun y hy => ⟨?_, rfl⟩⟩
    · by_cases hyx : y = x
      · rw [hyx, State.setScalar_self, State.setScalar_self]
      · rw [State.setScalar_of_ne hyx, State.setScalar_of_ne hyx, hσ.scalars y hy]
    · rw [State.setScalar_of_ne hx.symm]
    · rw [State.setScalar_of_ne fun hyx => hy (mem_singleton.2 hyx)]

theorem setItem_replay (hσ : Replayed I arrays name_ expr_ h σ τ) {A : String} {index : List ℤ}
    (names : List String) (hA : A ∈ names) (hset : σ.setItem A index v = some σ') :
    ∃ τ', τ.setItem A index v = some τ' ∧
      Replayed I arrays name_ expr_ (touched expr_ names h) σ' τ' := by
  simp only [State.setItem] at hset ⊢
  rw [← hσ.stores]
  obtain ⟨a, ha, hset⟩ := bind_eq_some_iff.1 hset
  rw [ha, bind_some]
  split at hset
  · next hlength =>
    obtain ⟨place, hplace, rfl⟩ := map_eq_some_iff.1 hset
    rw [if_pos hlength, hplace, map_some]
    refine ⟨_, rfl, hσ.touch hσ.scalars ?_ (fun B hB => ?_) rfl fun y hy => ⟨rfl, ?_⟩⟩
    · simp only [State.setArray, hσ.stores]
    · by_cases hBA : B = A
      · exact hσ.named B (by rw [hBA, ha]; rfl)
      · rw [State.setArray_of_ne hBA] at hB
        exact hσ.named B hB
    · rw [State.setArray_of_ne fun hyA : y = A => hy (hyA ▸ hA)]
  · cases hset

theorem misread_subscript {value slice : Expr} (hvalue : value.misread name_ h = false)
    (hslice : slice.misread name_ h = false) :
    (Expr.subscript value slice).misread name_ h = false := by
  simp only [Expr.misread, Bool.or_eq_false_iff, Bool.and_eq_false_iff, loadNames_subscript,
    decide_eq_false_iff_not, mem_append, not_or, Expr.calls, Expr.walkNodes, any_cons,
    any_append] at hvalue hslice ⊢
  refine ⟨?_, trivial, hvalue.2, hslice.2⟩
  rcases hvalue.1 with hstale | hvalue
  · exact .inl hstale
  · exact hslice.1.imp_right fun hslice => ⟨hvalue, hslice⟩

theorem store_replay (hname : name_ ∉ arrays) (hσ : Replayed I arrays name_ expr_ h σ τ)
    {t : Target} (ht : t ≠ .name name_) (hread : t.reads.any (·.misread name_ h) = false)
    (hstore : store I σ v t = some σ') :
    ∃ τ', store I τ v (t.replay name_ expr_) = some τ' ∧
      Replayed I arrays name_ expr_ (touched expr_ t.bases h) σ' τ' := by
  cases t with
  | name x => exact set_replay hσ (fun hx => ht (congrArg Target.name hx)) hstore
  | subscript base index =>
    simp only [Target.reads, any_cons, any_nil, Bool.or_false, Bool.or_eq_false_iff] at hread
    have hsub := eval_replay hname hσ (misread_subscript hread.1 hread.2)
    simp only [store] at hstore
    split at hstore
    · next A place hview =>
      -- The place stored to is the same: a part of an array is no scalar's value.
      obtain ⟨r', hr', rfl | ⟨w, hw, -⟩⟩ := hsub _ hview
      · have hA : A ∈ (Expr.subscript base index).bases := mem_bases hview
        obtain ⟨τ', hτ', hreplayed⟩ := setItem_replay hσ base.bases hA hstore
        refine ⟨τ', ?_, hreplayed⟩
        rw [Target.replay, store, show eval I τ (.subscript (Expr.replay name_ expr_ base)
          (Expr.replay name_ expr_ index)) = _ from hr']
        exact hτ'
      · cases hw
    · cases hstore

theorem stores_replay (hname : name_ ∉ arrays) (targets : List Target)
    (htargets : .name name_ ∉ targets) {h : Held} (hσ : Replayed I arrays name_ expr_ h σ τ)
    (hread : (heldStores name_ expr_ targets h).2 = false)
    (hstore : targets.foldlM (fun σ t => store I σ v t) σ = some σ') :
    ∃ τ', (targets.map (Target.replay name_ expr_)).foldlM (fun τ t => store I τ v t) τ = some τ' ∧
      Replayed I arrays name_ expr_ (heldStores name_ expr_ targets h).1 σ' τ' := by
  induction targets generalizing h σ τ with
  | nil =>
    obtain rfl := some.inj hstore
    exact ⟨τ, rfl, hσ⟩
  | cons t ts ih =>
    simp only [heldStores, Bool.or_eq_false_iff] at hread
    rw [foldlM_cons] at hstore
    obtain ⟨υ, hυ, hstore⟩ := bind_eq_some_iff.1 hstore
    obtain ⟨υ', hυ', hreplayed⟩ :=
      store_replay hname hσ (fun ht => htargets (ht ▸ mem_cons_self)) hread.1 hυ
    obtain ⟨τ', hτ', hend⟩ :=
      ih (fun ht => htargets (mem_cons_of_mem _ ht)) hreplayed hread.2 hstore
    refine ⟨τ', ?_, hend⟩
    rw [map_cons, foldlM_cons, hυ']
    exact hτ'

/-! ### Calls that are statements -/

theorem elts_replay (hscalar : IsScalar arrays name_ expr_) (args : Expr) :
    (Expr.replay name_ expr_ args).elts = args.elts.map (Expr.replay name_ expr_) := by
  induction args with
  | name id =>
    simp only [Expr.replay]
    split
    · simp [Expr.elts, Expr.replay, hscalar.elts, *]
    · simp [Expr.elts, Expr.replay, *]
  | pair head tail _ ih => simp only [Expr.replay, Expr.elts, ih, map_cons]
  | _ => rfl

theorem passArray_scalars :
    (passArray I f vs k σ arg).scalars = σ.scalars := by
  unfold passArray
  split
  · split <;> rfl
  · rfl

theorem passArrays_scalars {args : List Expr} :
    (passArrays I f vs args k σ).scalars = σ.scalars := by
  induction args generalizing k σ with
  | nil => rfl
  | cons arg args ih => rw [passArrays, ih, passArray_scalars]

theorem passArray_arrays (hB : arg ≠ .name B) :
    (passArray I f vs k σ arg).arrays B = σ.arrays B := by
  unfold passArray
  split
  · next id a hid _ =>
    have harg : arg = .name id := by
      cases arg <;> simp [Expr.id?] at hid
      rw [hid]
    have hBid : B ≠ id := fun h => hB (h ▸ harg)
    split
    · rw [State.setArray_of_ne hBid]
    · rfl
  · rfl

theorem passArray_isSome :
    ((passArray I f vs k σ arg).arrays B).isSome = (σ.arrays B).isSome := by
  unfold passArray
  split
  · next id a _ _ =>
    split
    · next hsome =>
      by_cases hB : B = id
      · rw [hB, State.setArray_self, hsome, isSome_some]
      · rw [State.setArray_of_ne hB]
    · rfl
  · rfl

/-- A scalar that is passed is not written. -/
theorem passArray_replay (hname : name_ ∉ arrays) (hscalar : IsScalar arrays name_ expr_)
    (hstores : σ.arrays = τ.arrays) (hnamed : ∀ A, (σ.arrays A).isSome → A ∈ arrays) (f : String)
    (vs : List V) (k : ℕ) (arg : Expr) :
    (passArray I f vs k σ arg).arrays =
      (passArray I f vs k τ (Expr.replay name_ expr_ arg)).arrays := by
  by_cases harg : arg = .name name_
  · subst harg
    rw [Expr.replay, if_pos rfl]
    funext B
    have hleft : (passArray I f vs k σ (.name name_)).arrays B = σ.arrays B := by
      by_cases hB : Expr.name name_ = .name B
      · have hnone : ¬(σ.arrays name_).isSome := fun hsome => hname (hnamed _ hsome)
        simp only [passArray, Expr.id?]
        split
        · next id a hid _ =>
          obtain rfl := some.inj hid
          rw [if_neg hnone]
        · rfl
      · exact passArray_arrays hB
    have hright : (passArray I f vs k τ expr_).arrays B = τ.arrays B := by
      by_cases hB : expr_ = .name B
      · have hnone : ¬(τ.arrays B).isSome := fun hsome =>
          hscalar.named B (hnamed _ (by rw [hstores]; exact hsome)) hB
        subst hB
        simp only [passArray, Expr.id?]
        split
        · next id a hid _ =>
          obtain rfl := some.inj hid
          rw [if_neg hnone]
        · rfl
      · exact passArray_arrays hB
    rw [hleft, hright, hstores]
  · have hid : (Expr.replay name_ expr_ arg).id? = arg.id? := by
      cases arg with
      | name id =>
        have hne : id ≠ name_ := fun h => harg (congrArg Expr.name h)
        simp only [Expr.replay, if_neg hne]
      | _ => rfl
    unfold passArray
    rw [hid]
    split
    · rw [← hstores]
      split
      · simp only [State.setArray, hstores]
      · exact hstores
    · exact hstores

theorem passArrays_replay (hname : name_ ∉ arrays) (hscalar : IsScalar arrays name_ expr_)
    (hstores : σ.arrays = τ.arrays) (hnamed : ∀ A, (σ.arrays A).isSome → A ∈ arrays) (f : String)
    (vs : List V) (args : List Expr) (k : ℕ) :
    (passArrays I f vs args k σ).arrays =
        (passArrays I f vs (args.map (Expr.replay name_ expr_)) k τ).arrays ∧
      (∀ A, ((passArrays I f vs args k σ).arrays A).isSome → A ∈ arrays) ∧
      ∀ A, A ∉ (args.filterMap Expr.id?).filter (· ∈ arrays) →
        (passArrays I f vs args k σ).arrays A = σ.arrays A := by
  induction args generalizing k σ τ with
  | nil => exact ⟨hstores, hnamed, fun _ _ => rfl⟩
  | cons arg args ih =>
    have hstep := passArray_replay (I := I) hname hscalar hstores hnamed f vs k arg
    have hnamed' : ∀ A, ((passArray I f vs k σ arg).arrays A).isSome → A ∈ arrays := fun A hA =>
      hnamed A (passArray_isSome (I := I) ▸ hA)
    obtain ⟨heq, hsome, hothers⟩ := ih hstep hnamed' (k + 1)
    refine ⟨heq, hsome, fun A hA => ?_⟩
    rw [passArrays, hothers A fun hmem => hA ?_]
    · by_cases harg : arg = .name A
      · subst harg
        -- What is passed is no array.
        have hnone : ¬(σ.arrays A).isSome := fun h => hA (by simp [Expr.id?, hnamed A h])
        have hafter : ¬((passArray I f vs k σ (.name A)).arrays A).isSome := by
          rwa [passArray_isSome]
        rw [not_isSome_iff_eq_none.1 hnone, not_isSome_iff_eq_none.1 hafter]
      · exact passArray_arrays harg
    · simp only [mem_filter, mem_filterMap, decide_eq_true_eq] at hmem ⊢
      obtain ⟨⟨e, he, hid⟩, hmem⟩ := hmem
      exact ⟨⟨e, mem_cons_of_mem _ he, hid⟩, hmem⟩

theorem perform_replay (hname : name_ ∉ arrays) (hscalar : IsScalar arrays name_ expr_)
    (hσ : Replayed I arrays name_ expr_ h σ τ) (hbare : e ≠ .name name_)
    (he : e.misread name_ h = false) (hrun : perform I σ e = some σ') :
    ∃ τ', perform I τ (Expr.replay name_ expr_ e) = some τ' ∧
      Replayed I arrays name_ expr_ (touched expr_ (passed arrays e) h) σ' τ' := by
  have hreads := eval_replay hname hσ he
  have hkeep : (∃ r, eval I σ e = some r ∧ σ = σ') →
      ∃ τ', (eval I τ (Expr.replay name_ expr_ e)).map (fun _ => τ) = some τ' ∧
        Replayed I arrays name_ expr_ (touched expr_ (passed arrays e) h) σ' τ' := by
    rintro ⟨r, hr, rfl⟩
    obtain ⟨r', hr', -⟩ := hreads r hr
    exact ⟨τ, by rw [hr', map_some],
      hσ.touch hσ.scalars hσ.stores hσ.named rfl fun _ _ => ⟨rfl, rfl⟩⟩
  cases e with
  | call func args =>
    obtain ⟨f, hf, hrun⟩ := bind_eq_some_iff.1 hrun
    obtain ⟨vs, hvs, rfl⟩ := map_eq_some_iff.1 hrun
    have hfunc : func ≠ .name name_ := by
      rintro rfl
      simp [Expr.misread, Expr.calls, Expr.walkNodes] at he
    have hargs : ReadsAs I σ τ args (Expr.replay name_ expr_ args) :=
      eval_replay hname hσ (misread_sub he (by simp [Expr.walkNodes]))
    obtain ⟨heq, hnamed, hothers⟩ :=
      passArrays_replay (I := I) hname hscalar hσ.stores hσ.named f vs args.elts 0
    refine ⟨passArrays I f vs (Expr.replay name_ expr_ args).elts 0 τ, ?_, ?_⟩
    · simp only [Expr.replay, perform, callLeaf_replay hfunc hf, hargs.items hσ.stores hvs,
        bind_some, map_some]
    · rw [elts_replay hscalar]
      refine hσ.touch (fun x hx => ?_) heq hnamed ?_ fun x hx => ⟨?_, ?_⟩
      · rw [passArrays_scalars, passArrays_scalars, hσ.scalars x hx]
      · rw [passArrays_scalars]
      · rw [passArrays_scalars]
      · rw [← congrFun heq x, hothers x hx, hσ.stores]
  | name id =>
    have hid : id ≠ name_ := fun hid => hbare (congrArg Expr.name hid)
    have hreplay : Expr.replay name_ expr_ (.name id) = .name id := by rw [Expr.replay, if_neg hid]
    have hend := hkeep (by simpa [perform] using hrun)
    rw [hreplay] at hend ⊢
    exact hend
  | _ => exact hkeep (by simpa [perform] using hrun)

/-! ### Statements -/

/-- The one statement that binds the name is the assignment replayed. -/
structure BoundOnce (name_ : String) (expr_ : Expr) (b : Block) : Prop where
  assign : ∀ targets value, .assign targets value ∈ b.walkNodes → .name name_ ∈ targets →
    targets = [.name name_] ∧ value = expr_
  aug : ∀ op value, .augAssign (.name name_) op value ∉ b.walkNodes
  iterator : .iterator name_ ∉ b.walkNodes

theorem BoundOnce.mono {b' : Block} (h : BoundOnce name_ expr_ b)
    (hsub : b'.walkNodes ⊆ b.walkNodes) : BoundOnce name_ expr_ b' where
  assign targets value hmem := h.assign targets value (hsub hmem)
  aug op value hmem := h.aug op value (hsub hmem)
  iterator hmem := h.iterator (hsub hmem)

/-- What the name holds where a list ends. -/
def Paths.ends (p : Paths) : Flow → Held
  | .next => p.fall
  | .brk => p.brk

theorem value_replay (hname : name_ ∉ arrays) (hσ : Replayed I arrays name_ expr_ h σ τ)
    (he : e.misread name_ h = false) (hv : value I σ e = some v) :
    value I τ (Expr.replay name_ expr_ e) = some v :=
  (eval_replay hname hσ he).force hσ.stores hv

theorem rangeValues_replay (hname : name_ ∉ arrays) (hσ : Replayed I arrays name_ expr_ h σ τ)
    {args : Expr} (he : args.misread name_ h = false) {vals : List ℤ}
    (hvals : rangeValues I σ args = some vals) :
    rangeValues I τ (Expr.replay name_ expr_ args) = some vals := by
  obtain ⟨vs, hvs, hvals⟩ := bind_eq_some_iff.1 hvals
  have hvs' : tuple I τ (Expr.replay name_ expr_ args) = some vs :=
    (eval_replay hname hσ he).items hσ.stores hvs
  rw [rangeValues, hvs', bind_some, hvals]

/-- The assignment: the one run binds the name, the other does not. -/
theorem replayed_assign (hscalar : IsScalar arrays name_ expr_)
    (hσ : Replayed I arrays name_ expr_ h σ τ) (hv : value I σ expr_ = some v)
    (hset : σ.set name_ v = some σ') :
    Replayed I arrays name_ expr_ .fresh σ' τ := by
  simp only [State.set] at hset
  split at hset
  · cases hset
  obtain rfl := some.inj hset
  refine ⟨fun x hx => ?_, hσ.stores, hσ.named, fun w hw => ?_⟩
  · rw [State.setScalar_of_ne hx, hσ.scalars x hx]
  · rw [State.setScalar_self] at hw
    obtain rfl := some.inj hw
    refine (value_same fun x hx => ⟨(hσ.scalars x ?_).symm, (congrFun hσ.stores x).symm⟩).trans hv
    exact fun hxn => hscalar.free (hxn ▸ hx)

/-- **One round keeps the meaning**: where the body runs to its end, so does the body with the
expression replayed, with the same arrays and the same scalars but the name. -/
theorem exec_replay (hname : name_ ∉ arrays) (hscalar : IsScalar arrays name_ expr_) (fuel : ℕ)
    (honce : BoundOnce name_ expr_ b) {h : Held}
    (hread : (b.held arrays name_ expr_ h).misread = false) {σ τ : State V} {flow : Flow}
    (hσ : Replayed I arrays name_ expr_ h σ τ) (hrun : exec I fuel b σ = some (σ', flow)) :
    ∃ τ', exec I fuel (b.replay name_ expr_) τ = some (τ', flow) ∧
      Replayed I arrays name_ expr_ ((b.held arrays name_ expr_ h).ends flow) σ' τ' := by
  induction b generalizing h σ τ σ' flow with
  | done | brk rest _ =>
    obtain ⟨rfl, rfl⟩ := Prod.mk.inj (some.inj hrun)
    exact ⟨τ, rfl, hσ⟩
  | assign targets value rest ih =>
    obtain ⟨v, hv, hrun⟩ := bind_eq_some_iff.1 hrun
    obtain ⟨υ, hυ, hrun⟩ := bind_eq_some_iff.1 hrun
    have hrest : BoundOnce name_ expr_ rest := honce.mono fun n hn => by simp [Block.walkNodes, hn]
    simp only [Block.held, Bool.or_eq_false_iff] at hread
    by_cases htargets : targets = [.name name_]
    · obtain ⟨-, rfl⟩ := honce.assign targets value (by simp [Block.walkNodes])
        (htargets ▸ mem_singleton.2 rfl)
      rw [if_pos htargets] at hread
      have hset : σ.set name_ v = some υ := by simpa [htargets, store] using hυ
      obtain ⟨τ', hτ', hend⟩ := ih hrest hread.2 (replayed_assign hscalar hσ hv hset) hrun
      refine ⟨τ', ?_, ?_⟩
      · rw [Block.replay, if_pos ⟨htargets, rfl⟩, hτ']
      · simp only [Block.held, if_pos htargets]
        cases flow <;> exact hend
    · rw [if_neg htargets] at hread
      have hfree : Target.name name_ ∉ targets := fun hmem =>
        htargets (honce.assign targets value (by simp [Block.walkNodes]) hmem).1
      obtain ⟨υ', hυ', hreplayed⟩ := stores_replay hname targets hfree hσ hread.1.2 hυ
      obtain ⟨τ', hτ', hend⟩ := ih hrest hread.2 hreplayed hrun
      refine ⟨τ', ?_, ?_⟩
      · rw [Block.replay, if_neg fun h => htargets h.1, exec, value_replay hname hσ hread.1.1 hv,
          bind_some, hυ', bind_some, hτ']
      · simp only [Block.held, if_neg htargets]
        cases flow <;> exact hend
  | augAssign target op value rest ih =>
    obtain ⟨old, hold, hrun⟩ := bind_eq_some_iff.1 hrun
    obtain ⟨v, hv, hrun⟩ := bind_eq_some_iff.1 hrun
    obtain ⟨w, hw, hrun⟩ := bind_eq_some_iff.1 hrun
    obtain ⟨υ, hυ, hrun⟩ := bind_eq_some_iff.1 hrun
    have hrest : BoundOnce name_ expr_ rest := honce.mono fun n hn => by simp [Block.walkNodes, hn]
    simp only [Block.held, Bool.or_eq_false_iff] at hread
    have hfree : target ≠ .name name_ := by
      rintro rfl
      exact honce.aug op value (by simp [Block.walkNodes])
    have htoExpr : (target.replay name_ expr_).toExpr = Expr.replay name_ expr_ target.toExpr := by
      cases target with
      | name x =>
        have hx : x ≠ name_ := fun hx => hfree (congrArg Target.name hx)
        simp only [Target.replay, Target.toExpr, Expr.replay, if_neg hx]
      | subscript base index => rfl
    obtain ⟨υ', hυ', hreplayed⟩ := stores_replay hname [target]
      (fun hmem => hfree (mem_singleton.1 hmem).symm) hσ hread.1.2
      (show [target].foldlM (fun σ t => store I σ w t) σ = some υ by simpa using hυ)
    obtain ⟨τ', hτ', hend⟩ := ih hrest hread.2 hreplayed hrun
    refine ⟨τ', ?_, ?_⟩
    · have hstore : store I τ w (target.replay name_ expr_) = some υ' := by simpa using hυ'
      rw [Block.replay, exec, htoExpr, value_replay hname hσ hread.1.1.1 hold, bind_some,
        value_replay hname hσ hread.1.1.2 hv, bind_some, hw, bind_some, hstore,
        bind_some, hτ']
    · cases flow <;> exact hend
  | expr value rest ih =>
    obtain ⟨υ, hυ, hrun⟩ := bind_eq_some_iff.1 hrun
    simp only [Block.held, Bool.or_eq_false_iff, decide_eq_false_iff_not] at hread
    obtain ⟨υ', hυ', hreplayed⟩ := perform_replay hname hscalar hσ hread.1.1 hread.1.2 hυ
    obtain ⟨τ', hτ', hend⟩ := ih (honce.mono fun n hn => by simp [Block.walkNodes, hn]) hread.2 hreplayed hrun
    refine ⟨τ', by rw [Block.replay, exec, hυ', bind_some, hτ'], ?_⟩
    cases flow <;> exact hend
  | ifElse test body orelse rest ihb iho ihr =>
    obtain ⟨c, hc, hrun⟩ := bind_eq_some_iff.1 hrun
    obtain ⟨⟨υ, inner⟩, hυ, hrun⟩ := bind_eq_some_iff.1 hrun
    simp only [Block.held, Bool.or_eq_false_iff] at hread
    have hbranch : ∃ υ', (if I.truth c then exec I fuel (body.replay name_ expr_) τ
          else exec I fuel (orelse.replay name_ expr_) τ) = some (υ', inner) ∧
        Replayed I arrays name_ expr_ (((body.held arrays name_ expr_ h).ends inner).join
          ((orelse.held arrays name_ expr_ h).ends inner)) υ υ' := by
      split at hυ
      · next htruth =>
        obtain ⟨υ', hυ', hend⟩ :=
          ihb (honce.mono fun n hn => by simp [Block.walkNodes, hn]) hread.1.1.2 hσ hυ
        exact ⟨υ', by rw [if_pos htruth, hυ'], hend.mono (Held.le_join_left _ _)⟩
      · next htruth =>
        obtain ⟨υ', hυ', hend⟩ :=
          iho (honce.mono fun n hn => by simp [Block.walkNodes, hn]) hread.1.2 hσ hυ
        exact ⟨υ', by rw [if_neg htruth, hυ'], hend.mono (Held.le_join_right _ _)⟩
    obtain ⟨υ', hυ', hend⟩ := hbranch
    have htest := value_replay hname hσ hread.1.1.1 hc
    cases inner with
    | next =>
      obtain ⟨τ', hτ', hlast⟩ :=
        ihr (honce.mono fun n hn => by simp [Block.walkNodes, hn]) hread.2 hend hrun
      refine ⟨τ', by rw [Block.replay, exec, htest, bind_some, hυ', bind_some, hτ'], ?_⟩
      cases flow with
      | next => exact hlast
      | brk => exact hlast.mono (Held.le_join_right _ _)
    | brk =>
      obtain ⟨rfl, rfl⟩ := Prod.mk.inj (some.inj hrun)
      exact ⟨υ', by rw [Block.replay, exec, htest, bind_some, hυ', bind_some],
        hend.mono (Held.le_join_left _ _)⟩
  | forRange target args body rest ihb ihr =>
    obtain ⟨vals, hvals, hrun⟩ := bind_eq_some_iff.1 hrun
    obtain ⟨υ, hυ, hrun⟩ := bind_eq_some_iff.1 hrun
    simp only [Block.held, Bool.or_eq_false_iff] at hread
    set way := fun h => (body.held arrays name_ expr_ (touched expr_ [target] h)).fall with hway
    set around := Held.around way h with haround
    set inner := body.held arrays name_ expr_ (touched expr_ [target] around) with hinner
    have htarget : target ≠ name_ := by
      rintro rfl
      exact honce.iterator (by simp [Block.walkNodes])
    -- Around the loop the name holds no more than `around`, at a `break` no more than the body says.
    obtain ⟨υ', hυ', hend⟩ := forSteps_sim
      (R := Replayed I arrays name_ expr_ around) (B := Replayed I arrays name_ expr_ inner.brk)
      (g := fun v τ => (τ.set target (I.ofInt v)).bind (exec I fuel (body.replay name_ expr_)))
      (fun v σ τ σ' flow hστ hstep => by
        obtain ⟨ν, hν, hstep⟩ := bind_eq_some_iff.1 hstep
        obtain ⟨ν', hν', hset⟩ := set_replay hστ htarget hν
        obtain ⟨τ', hτ', hends⟩ :=
          ihb (honce.mono fun n hn => by simp [Block.walkNodes, hn]) hread.1.2 hset hstep
        refine ⟨τ', by rw [hν', bind_some, hτ'], ?_⟩
        cases flow with
        | next => exact hends.mono (Held.around_le way h)
        | brk => exact hends)
      vals (hσ.mono (Held.le_around way h)) hυ
    have hafter : Replayed I arrays name_ expr_ (around.join inner.brk) υ υ' :=
      hend.elim (·.mono (Held.le_join_left _ _)) (·.mono (Held.le_join_right _ _))
    obtain ⟨τ', hτ', hlast⟩ :=
      ihr (honce.mono fun n hn => by simp [Block.walkNodes, hn]) hread.2 hafter hrun
    refine ⟨τ', ?_, ?_⟩
    · rw [Block.replay, exec, rangeValues_replay hname hσ hread.1.1 hvals, bind_some, hυ',
        bind_some, hτ']
    · cases flow <;> exact hlast
  | whileDo test body rest ihb ihr =>
    obtain ⟨υ, hυ, hrun⟩ := bind_eq_some_iff.1 hrun
    simp only [Block.held, Bool.or_eq_false_iff] at hread
    set way := fun h => (body.held arrays name_ expr_ h).fall with hway
    set around := Held.around way h with haround
    set inner := body.held arrays name_ expr_ around with hinner
    have htest : ∀ (σ τ : State V) (c : V), Replayed I arrays name_ expr_ around σ τ →
        value I σ test = some c →
        ∃ c', value I τ (Expr.replay name_ expr_ test) = some c' ∧ I.truth c' = I.truth c :=
      fun σ τ c hστ hc => ⟨c, value_replay hname hστ hread.1.1 hc, rfl⟩
    obtain ⟨υ', hυ', hend⟩ := whileSteps_sim
      (R := Replayed I arrays name_ expr_ around) (B := Replayed I arrays name_ expr_ inner.brk)
      (g := exec I fuel (body.replay name_ expr_)) htest
      (fun σ τ σ' flow hστ hstep => by
        obtain ⟨τ', hτ', hends⟩ :=
          ihb (honce.mono fun n hn => by simp [Block.walkNodes, hn]) hread.1.2 hστ hstep
        refine ⟨τ', hτ', ?_⟩
        cases flow with
        | next => exact hends.mono (Held.around_le way h)
        | brk => exact hends)
      fuel (hσ.mono (Held.le_around way h)) hυ
    have hafter : Replayed I arrays name_ expr_ (around.join inner.brk) υ υ' :=
      hend.elim (·.mono (Held.le_join_left _ _)) (·.mono (Held.le_join_right _ _))
    obtain ⟨τ', hτ', hlast⟩ :=
      ihr (honce.mono fun n hn => by simp [Block.walkNodes, hn]) hread.2 hafter hrun
    refine ⟨τ', by rw [Block.replay, exec, hυ', bind_some, hτ'], ?_⟩
    cases flow <;> exact hlast

end Replayed

end Translate

end HpcAgentBench
