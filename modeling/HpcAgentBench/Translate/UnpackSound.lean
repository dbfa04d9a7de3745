import HpcAgentBench.Translate.Unpack

/-!
# The split of a tuple assignment binds simultaneously

Python evaluates the whole right side before it binds any target.  One store after the other does
the same where no store changes what a later value reads: for names the pass sees to it, for items
it does not look further than the name the target starts from.

## Main results

* `stepwise_eq` : one store after the other, where no store disturbs a value after it.
* `latch_follows` : stores of values that temporaries hold, whatever the values are.
* `split_unpacks_sound` : a function computes the same with its tuple assignments split.
-/

namespace HpcAgentBench

open List Option

namespace Translate

variable {V H : Type}
variable {ps : List (Pattern × Expr)}

/-! ### What a store is not seen by -/

/-- Something can be stored into the object. -/
def Storable (O : Objects V H) (b : V) (h : H) : Prop := ∃ s x m, O.setItem b s x h = some m

/-- An action that does not see a store into `b`, gives a result as `Q` says, and leaves `b` there
to be stored into. -/
structure Unseen (O : Objects V H) (b : V) {α : Type} (Q : α → Prop) (r : H → Option (α × H))
    (h : H) : Prop where
  swap : ∀ s x, (O.setItem b s x h).bind r =
    (r h).bind fun p => (O.setItem b s x p.2).map fun m => (p.1, m)
  result : ∀ p, r h = some p → Q p.1
  storable : ∀ p, r h = some p → Storable O b p.2

/-- Objects that share no memory (`apart`): what is done with objects that share none with `b` does
not see a store into `b`, and gives an object that shares none with it. -/
structure Sharing (O : Objects V H) (apart : V → V → Prop) : Prop where
  const : ∀ {b} v, apart b (O.const v)
  unit : ∀ {b}, apart b O.unit
  pair : ∀ {b v w}, apart b v → apart b w → apart b (O.pair v w)
  slice : ∀ {b u v w}, apart b u → apart b v → apart b w → apart b (O.slice u v w)
  attr : ∀ {b v h} a, Storable O b h → apart b v → Unseen O b (apart b) (O.attr v a) h
  unary : ∀ {b v h} op, Storable O b h → apart b v → Unseen O b (apart b) (O.unary op v) h
  binary : ∀ {b v w h} op, Storable O b h → apart b v → apart b w →
    Unseen O b (apart b) (O.binary op v w) h
  call : ∀ {b v w h}, Storable O b h → apart b v → apart b w →
    Unseen O b (apart b) (O.call v w) h
  getItem : ∀ {b v w h}, Storable O b h → apart b v → apart b w →
    Unseen O b (apart b) (O.getItem v w) h
  truth : ∀ {b v h s x m}, apart b v → O.setItem b s x h = some m → O.truth v m = O.truth v h

section Unseen

variable {O : Objects V H} {apart : V → V → Prop} {b : V} {α β : Type} {Q : α → Prop}

variable {h : H} {r : H → Option (α × H)} {env : String → Option V} {e : Expr}

theorem Unseen.pure {a : α} (hb : Storable O b h) (hQ : Q a) :
    Unseen O b Q (fun h => some (a, h)) h where
  swap s x := by
    simp only [bind_some]
    cases O.setItem b s x h <;> rfl
  result := by rintro _ ⟨⟩; exact hQ
  storable := by rintro _ ⟨⟩; exact hb

theorem Unseen.fail : Unseen O b Q (fun _ => none) h where
  swap s x := by cases hs : O.setItem b s x h <;> rfl
  result := nofun
  storable := nofun

theorem Unseen.bind {k : α → H → Option (β × H)} {R : β → Prop} (hr : Unseen O b Q r h)
    (hk : ∀ p, r h = some p → Q p.1 → Storable O b p.2 → Unseen O b R (k p.1) p.2) :
    Unseen O b R (fun h => (r h).bind fun p => k p.1 p.2) h where
  swap s x := by
    have hswap := congrArg (fun o => o.bind fun p => k p.1 p.2) (hr.swap s x)
    simp only [bind_assoc] at hswap ⊢
    rw [hswap]
    cases hp : r h with
    | none => rfl
    | some p =>
      simp only [bind_some]
      rw [← (hk p hp (hr.result p hp) (hr.storable p hp)).swap s x]
      cases O.setItem b s x p.2 <;> rfl
  result q hq := by
    obtain ⟨p, hp, hq⟩ := bind_eq_some_iff.1 hq
    exact (hk p hp (hr.result p hp) (hr.storable p hp)).result q hq
  storable q hq := by
    obtain ⟨p, hp, hq⟩ := bind_eq_some_iff.1 hq
    exact (hk p hp (hr.result p hp) (hr.storable p hp)).storable q hq

theorem Unseen.weaken {R : α → Prop} (hr : Unseen O b Q r h) (hQR : ∀ a, Q a → R a) :
    Unseen O b R r h :=
  ⟨hr.swap, fun p hp => hQR p.1 (hr.result p hp), hr.storable⟩

theorem Unseen.congr {r' : H → Option (α × H)} (hr : Unseen O b Q r h) (heq : ∀ h, r' h = r h) :
    Unseen O b Q r' h := by
  obtain rfl : r' = r := funext heq
  exact hr

variable (hS : Sharing O apart)

include hS

theorem Sharing.unseen_truth {v : V} (hb : Storable O b h) (hv : apart b v) :
    Unseen O b (fun _ => True) (fun h => (O.truth v h).map fun t => (t, h)) h where
  swap s x := by
    cases hs : O.setItem b s x h with
    | none => cases O.truth v h <;> simp [hs]
    | some m =>
      simp only [bind_some, hS.truth hv hs]
      cases O.truth v h with
      | none => rfl
      | some t => simp only [map_some, bind_some, hs]
  result _ _ := trivial
  storable p hp := by
    obtain ⟨t, -, rfl⟩ := map_eq_some_iff.1 hp
    exact hb

/-- **An expression does not see a store into an object**, where its names are bound to objects that
share no memory with it. -/
theorem Sharing.unseen_evaluate (hb : Storable O b h)
    (he : ∀ x ∈ loadNames e, ∀ w, env x = some w → apart b w) :
    Unseen O b (apart b) (evaluate O env e) h := by
  have hsub : ∀ {e' : Expr}, e'.walkNodes ⊆ e.walkNodes →
      ∀ x ∈ loadNames e', ∀ w, env x = some w → apart b w :=
    fun hsub x hx => he x (filterMap_subset _ hsub hx)
  clear he
  induction e generalizing h with
  | const v => exact .pure hb (hS.const v)
  | name id =>
    have hid := hsub (List.Subset.refl _) id (by simp [loadNames, Expr.walkNodes, Expr.id?])
    cases hv : env id with
    | none => exact Unseen.fail.congr fun h => by simp only [evaluate, hv, map_none]
    | some v =>
      exact (Unseen.pure hb (hid v hv)).congr fun h => by simp only [evaluate, hv, map_some]
  | attr value a ih =>
    exact (ih hb fun hs => hsub (subset_cons_of_subset _ hs)).bind
      (k := fun v h => O.attr v a h) fun p _ hp hb => hS.attr a hb hp
  | unaryOp op operand ih =>
    exact (ih hb fun hs => hsub (subset_cons_of_subset _ hs)).bind
      (k := fun v h => O.unary op v h) fun p _ hp hb => hS.unary op hb hp
  | binOp op left right ihl ihr =>
    exact (ihl hb fun hs => hsub (by simp only [Expr.walkNodes]; grind)).bind
      (k := fun v h => (evaluate O env right h).bind fun q => O.binary op v q.1 q.2)
      fun p _ hp hb =>
      (ihr hb fun hs => hsub (by simp only [Expr.walkNodes]; grind)).bind
        (k := fun w h => O.binary op p.1 w h) fun q _ hq hb => hS.binary op hb hp hq
  | boolOp conj left right ihl ihr =>
    refine ((ihl hb fun hs => hsub (by simp only [Expr.walkNodes]; grind)).bind
      (k := fun v h => ((O.truth v h).map fun t => (t, h)).bind fun t =>
        if t.1 = conj then evaluate O env right t.2 else some (v, t.2)) fun p _ hp hb =>
      (hS.unseen_truth hb hp).bind (k := fun t h => if t = conj then evaluate O env right h else
        some (p.1, h)) fun t _ _ hb => ?_).congr fun h => ?_
    · split
      · exact ihr hb fun hs => hsub (by simp only [Expr.walkNodes]; grind)
      · exact .pure hb hp
    · simp only [evaluate, bind_map]
      rfl
  | ifExp test body orelse iht ihb iho =>
    refine ((iht hb fun hs => hsub (by simp only [Expr.walkNodes]; grind)).bind
      (k := fun v h => ((O.truth v h).map fun t => (t, h)).bind fun t =>
        if t.1 then evaluate O env body t.2 else evaluate O env orelse t.2) fun p _ hp hb =>
      (hS.unseen_truth hb hp).bind (k := fun t h => if t then evaluate O env body h else
        evaluate O env orelse h) fun t _ _ hb => ?_).congr fun h => ?_
    · split
      · exact ihb hb fun hs => hsub (by simp only [Expr.walkNodes]; grind)
      · exact iho hb fun hs => hsub (by simp only [Expr.walkNodes]; grind)
    · simp only [evaluate, bind_map]
      rfl
  | call func args ihf iha =>
    exact (ihf hb fun hs => hsub (by simp only [Expr.walkNodes]; grind)).bind
      (k := fun v h => (evaluate O env args h).bind fun q => O.call v q.1 q.2) fun p _ hp hb =>
      (iha hb fun hs => hsub (by simp only [Expr.walkNodes]; grind)).bind
        (k := fun w h => O.call p.1 w h) fun q _ hq hb => hS.call hb hp hq
  | subscript value slice ihv ihs =>
    exact (ihv hb fun hs => hsub (by simp only [Expr.walkNodes]; grind)).bind
      (k := fun v h => (evaluate O env slice h).bind fun q => O.getItem v q.1 q.2) fun p _ hp hb =>
      (ihs hb fun hs => hsub (by simp only [Expr.walkNodes]; grind)).bind
        (k := fun w h => O.getItem p.1 w h) fun q _ hq hb => hS.getItem hb hp hq
  | slice lower upper step ihl ihu ihs =>
    refine ((ihl hb fun hs => hsub (by simp only [Expr.walkNodes]; grind)).bind
      (k := fun u h => (evaluate O env upper h).bind fun q =>
        (evaluate O env step q.2).bind fun r => some (O.slice u q.1 r.1, r.2)) fun p _ hp hb =>
      (ihu hb fun hs => hsub (by simp only [Expr.walkNodes]; grind)).bind
        (k := fun v h => (evaluate O env step h).bind fun r =>
          some (O.slice p.1 v r.1, r.2)) fun q _ hq hb =>
        (ihs hb fun hs => hsub (by simp only [Expr.walkNodes]; grind)).bind
          (k := fun r h => some (O.slice p.1 q.1 r, h)) fun r _ hr hb =>
          .pure hb (hS.slice hp hq hr)).congr fun h => ?_
    simp only [evaluate, map_eq_bind]
    rfl
  | unit => exact .pure hb hS.unit
  | pair head tail ihh iht =>
    refine ((ihh hb fun hs => hsub (by simp only [Expr.walkNodes]; grind)).bind
      (k := fun v h => (evaluate O env tail h).bind fun q => some (O.pair v q.1, q.2))
      fun p _ hp hb =>
      (iht hb fun hs => hsub (by simp only [Expr.walkNodes]; grind)).bind
        (k := fun q h => some (O.pair p.1 q, h)) fun q _ hq hb =>
        .pure hb (hS.pair hp hq)).congr fun h => ?_
    simp only [evaluate, map_eq_bind]
    rfl

/-- The names whose objects an expression does something with, more than to pass them on. -/
def operated : Expr → List String
  | .const _ => []
  | .name _ => []
  | .unit => []
  | .pair head tail => operated head ++ operated tail
  | .slice lower upper step => operated lower ++ operated upper ++ operated step
  | .ifExp test body orelse => loadNames test ++ operated body ++ operated orelse
  | .boolOp _ left right => loadNames left ++ operated right
  | e => loadNames e

/-- An expression does not see a store into an object that shares no memory with what it operates
on. -/
theorem Sharing.unseen_operated (hb : Storable O b h)
    (he : ∀ x ∈ operated e, ∀ w, env x = some w → apart b w) :
    Unseen O b (fun _ => True) (evaluate O env e) h := by
  have hall : ∀ {e' : Expr} {h : H}, Storable O b h →
      (∀ x ∈ loadNames e', ∀ w, env x = some w → apart b w) →
      Unseen O b (fun _ => True) (evaluate O env e') h :=
    fun hb he => (hS.unseen_evaluate hb he).weaken fun _ _ => trivial
  induction e generalizing h with
  | const v => exact hall hb fun _ hx => absurd hx not_mem_nil
  | name id =>
    cases hv : env id with
    | none => exact Unseen.fail.congr fun h => by simp only [evaluate, hv, map_none]
    | some v =>
      exact (Unseen.pure (a := v) hb trivial).congr fun h => by
        simp only [evaluate, hv, map_some]
  | unit => exact hall hb fun _ hx => absurd hx not_mem_nil
  | attr value a _ => exact hall hb he
  | unaryOp op operand _ => exact hall hb he
  | binOp op left right _ _ => exact hall hb he
  | call func args _ _ => exact hall hb he
  | subscript value slice _ _ => exact hall hb he
  | pair head tail ihh iht =>
    simp only [operated, mem_append] at he
    refine ((ihh hb fun x hx => he x (.inl hx)).bind
      (k := fun v h => (evaluate O env tail h).bind fun q => some (O.pair v q.1, q.2))
      fun p _ _ hb =>
      (iht hb fun x hx => he x (.inr hx)).bind
        (k := fun q h => some (O.pair p.1 q, h)) fun q _ _ hb => .pure hb trivial).congr fun h => ?_
    simp only [evaluate, map_eq_bind]
    rfl
  | slice lower upper step ihl ihu ihs =>
    simp only [operated, mem_append] at he
    refine ((ihl hb fun x hx => he x (.inl (.inl hx))).bind
      (k := fun u h => (evaluate O env upper h).bind fun q =>
        (evaluate O env step q.2).bind fun r => some (O.slice u q.1 r.1, r.2)) fun p _ _ hb =>
      (ihu hb fun x hx => he x (.inl (.inr hx))).bind
        (k := fun v h => (evaluate O env step h).bind fun r =>
          some (O.slice p.1 v r.1, r.2)) fun q _ _ hb =>
        (ihs hb fun x hx => he x (.inr hx)).bind
          (k := fun r h => some (O.slice p.1 q.1 r, h)) fun r _ _ hb =>
          .pure hb trivial).congr fun h => ?_
    simp only [evaluate, map_eq_bind]
    rfl
  | boolOp conj left right _ ihr =>
    simp only [operated, mem_append] at he
    refine ((hS.unseen_evaluate hb fun x hx => he x (.inl hx)).bind
      (k := fun v h => ((O.truth v h).map fun t => (t, h)).bind fun t =>
        if t.1 = conj then evaluate O env right t.2 else some (v, t.2)) fun p _ hp hb =>
      (hS.unseen_truth hb hp).bind (k := fun t h => if t = conj then evaluate O env right h else
        some (p.1, h)) fun t _ _ hb => ?_).congr fun h => ?_
    · split
      · exact ihr hb fun x hx => he x (.inr hx)
      · exact .pure hb trivial
    · simp only [evaluate, bind_map]
      rfl
  | ifExp test body orelse _ ihb iho =>
    simp only [operated, mem_append] at he
    refine ((hS.unseen_evaluate hb fun x hx => he x (.inl (.inl hx))).bind
      (k := fun v h => ((O.truth v h).map fun t => (t, h)).bind fun t =>
        if t.1 then evaluate O env body t.2 else evaluate O env orelse t.2) fun p _ hp hb =>
      (hS.unseen_truth hb hp).bind (k := fun t h => if t then evaluate O env body h else
        evaluate O env orelse h) fun t _ _ hb => ?_).congr fun h => ?_
    · split
      · exact ihb hb fun x hx => he x (.inl (.inr hx))
      · exact iho hb fun x hx => he x (.inr hx)
    · simp only [evaluate, bind_map]
      rfl

end Unseen

/-! ### The simultaneous binding -/

section Bind

variable (O : Objects V H)

/-- The values of expressions, one after the other. -/
def evaluateAll (env : String → Option V) : List Expr → H → Option (List V × H)
  | [], h => some ([], h)
  | e :: es, h => (evaluate O env e h).bind fun p =>
    (evaluateAll env es p.2).map fun q => (p.1 :: q.1, q.2)

/-- Each target stored its value. -/
def bindEach : List Pattern → List V → Activation V H → Option (Activation V H)
  | [], [], f => some f
  | t :: ts, v :: vs, f => (assignTo O t v f).bind (bindEach ts vs)
  | _, _, _ => none

/-- Every value first, then every target. -/
def simultaneous (ps : List (Pattern × Expr)) (f : Activation V H) : Option (Activation V H) :=
  (evaluateAll O f.env (ps.map Prod.snd) f.heap).bind fun q =>
    bindEach O (ps.map Prod.fst) q.1 { f with heap := q.2 }

/-- One assignment after the other. -/
def stepwise : List (Pattern × Expr) → Activation V H → Option (Activation V H)
  | [], f => some f
  | p :: ps, f => (evaluate O f.env p.2 f.heap).bind fun q =>
    (assignTo O p.1 q.1 { f with heap := q.2 }).bind (stepwise ps)

variable {O}
variable {fuel : ℕ} {ps : List (Pattern × Expr)} {rest : Code} {f : Activation V H} {h : H}

theorem runCode_assigns :
    runCode O fuel (assigns ps rest) f = (stepwise O ps f).bind (runCode O fuel rest) := by
  induction ps generalizing f with
  | nil => rfl
  | cons p ps ih =>
    change (evaluate O f.env p.2 f.heap).bind _ = _
    simp only [stepwise, bind_assoc, foldlM_cons, foldlM_nil, bind_eq_bind,
      Option.pure_def, bind_some, ← ih, assigns]

theorem bindAll_elts {t : Pattern} {vs : List V} {f : Activation V H}
    (ht : ∀ p ∈ t.elts, p.isTuple = false) : bindAll O t vs f = bindEach O t.elts vs f := by
  have hone : ∀ (t : Pattern) (vs : List V) (f : Activation V H), t.isTuple = false →
      bindAll O t vs f = bindEach O [t] vs f := by
    intro t vs f ht
    match vs with
    | [] => cases t <;> first | rfl | cases ht
    | [v] =>
      simp only [bindEach, assignTo, ht, Bool.false_eq_true, if_false]
      exact (bind_fun_some _).symm
    | v :: w :: vs =>
      have hnone : (assignTo O t v f).bind (bindEach O [] (w :: vs)) = none :=
        bind_eq_none_iff.2 fun _ _ => rfl
      cases t <;> first | exact hnone.symm | cases ht
  induction t generalizing vs f with
  | name id => exact hone _ _ _ rfl
  | item value slice => exact hone _ _ _ rfl
  | unit => cases vs <;> rfl
  | pair head tail _ ih =>
    cases vs with
    | nil => rfl
    | cons v vs =>
      have htail := fun vs f => @ih vs f fun p hp => ht p (mem_cons_of_mem _ hp)
      have hhead : head.isTuple = false := ht head mem_cons_self
      simp only [bindAll, Pattern.elts, bindEach, assignTo, hhead, Bool.false_eq_true, if_false,
        funext fun f => htail vs f]

/-- What Python promises of tuples: they are taken apart into what they were made of. -/
structure Unpacking (O : Objects V H) : Prop where
  unit : ∀ h, O.iter O.unit h = some ([], h)
  pair : ∀ {v w vs h}, O.iter w h = some (vs, h) → O.iter (O.pair v w) h = some (v :: vs, h)

theorem Unpacking.iter (hO : Unpacking O) {vs : List V} :
    O.iter (vs.foldr O.pair O.unit) h = some (vs, h) := by
  induction vs with
  | nil => exact hO.unit h
  | cons v vs ih => exact hO.pair ih

theorem evaluate_tuple {env : String → Option V} {e : Expr} (he : e.isTuple = true) :
    evaluate O env e h =
      (evaluateAll O env e.elts h).map fun q => (q.1.foldr O.pair O.unit, q.2) := by
  induction e generalizing h with
  | unit => rfl
  | pair head tail _ ih =>
    simp only [evaluate, Expr.elts, evaluateAll, map_bind]
    refine congrArg _ (funext fun p => ?_)
    rw [ih he, Function.comp, Option.map_map, Option.map_map]
    rfl
  | _ => cases he

/-- **An unpack binds simultaneously.** -/
theorem runCode_unpacked (hO : Unpacking O) {cfg : UnpackConfig} {targets : List Pattern}
    {value : Expr} (h : cfg.unpacked targets value = some ps) :
    runCode O fuel (.assign targets value rest) f =
      (simultaneous O ps f).bind (runCode O fuel rest) := by
  match targets with
  | [] => cases h
  | _ :: _ :: _ => cases h
  | [t] =>
    simp only [UnpackConfig.unpacked] at h
    split at h
    · rename_i hok
      obtain ⟨htuple, hallows, hvalue, hlength⟩ := hok
      obtain rfl := Option.some.inj h
      have hfst : (t.elts.zip value.elts).map Prod.fst = t.elts := map_fst_zip hlength.ge
      have hsnd : (t.elts.zip value.elts).map Prod.snd = value.elts := map_snd_zip hlength.le
      have hflat : ∀ p ∈ t.elts, p.isTuple = false := fun p hp => by
        have := all_eq_true.1 hallows p hp
        cases p <;> first | rfl | cases this
      simp only [runCode, evaluate_tuple hvalue, simultaneous, hfst, hsnd, bind_map,
        bind_assoc, foldlM_cons, foldlM_nil, bind_eq_bind, Option.pure_def,
        bind_some, assignTo, htuple, if_true]
      refine congrArg _ (funext fun q => ?_)
      simp only [Function.comp, hO.iter, bind_some, bindAll_elts hflat]
    · cases h

end Bind

/-! ### One store after the other -/

/-- The name a binding writes is not read by a later value, or is bound to what it was. -/
def NamesApart (p q : Pattern × Expr) : Prop :=
  ∀ x, p.1 = .name x → x ∉ loadNames q.2 ∨ isSelfCopy p.1 p.2 = true

theorem mem_changed {p : Pattern × Expr} (hp : p ∈ ps) (h : isChanged ps p = true) :
    ∃ i, (p, i) ∈ changed ps := by
  obtain ⟨i, hi, rfl⟩ := getElem_of_mem hp
  exact ⟨i, mem_filter.2 ⟨mk_mem_zipIdx_iff_getElem?.2 (getElem?_eq_getElem hi), h⟩⟩

/-- **What the pass checks keeps the names apart.** -/
theorem pairwise_of_not_races (h : races ps = false) :
    ps.Pairwise NamesApart := by
  refine pairwise_iff_forall_sublist.2 fun {p q} hpq x hx => ?_
  have hp : p ∈ ps := hpq.subset mem_cons_self
  have hq : q ∈ ps := hpq.subset (mem_cons_of_mem _ mem_cons_self)
  by_cases hself : isSelfCopy p.1 p.2 = true
  · exact .inr hself
  refine .inl fun hread => ?_
  obtain ⟨i, hi⟩ := mem_changed hp (by simp only [isChanged, hself]; rfl)
  cases hc : isChanged ps q with
  | true =>
    obtain ⟨j, hj⟩ := mem_changed hq hc
    refine Bool.false_ne_true (h.symm.trans (any_eq_true.2 ⟨_, hj, ?_⟩))
    refine any_eq_true.2 ⟨x, hread, any_eq_true.2 ⟨_, hi, ?_⟩⟩
    rw [hx]
    exact decide_eq_true rfl
  | false =>
    -- A self-copy that is left as it is reads its own target, which is bound nowhere else.
    simp only [isChanged, Bool.or_eq_false_iff, Bool.not_eq_false', decide_eq_false_iff_not] at hc
    obtain ⟨hcopy, hcount⟩ := hc
    obtain ⟨target, value⟩ := q
    match target, value, hcopy with
    | .name y, .name z, hcopy =>
      obtain rfl : y = z := of_decide_eq_true hcopy
      obtain rfl : x = y := by simpa [loadNames, Expr.walkNodes, Expr.id?] using hread
      have hle := (hpq.map Prod.fst).count_le (Pattern.name x)
      simp only [map_cons, map_nil, hx, count_cons_self, count_nil] at hle
      refine hcount (Nat.lt_of_succ_le ?_)
      simpa using hle

section Stepwise

variable (O : Objects V H) (apart : V → V → Prop)

/-- The object a subscript target is stored into, and the index. -/
def placeOf (env : String → Option V) (base slice : Expr) (h : H) : Option ((V × V) × H) :=
  (evaluate O env base h).bind fun b => (evaluate O env slice b.2).map fun s => ((b.1, s.1), s.2)

/-- A store that the values after it do not see: the place is found alike before and after they are
evaluated, and what they operate on shares no memory with the object stored into. -/
def Spared : Pattern → List Expr → Activation V H → Prop
  | .item base slice, es, f =>
    ((placeOf O f.env base slice f.heap).bind fun p =>
      (evaluateAll O f.env es p.2).map fun q => ((p.1, q.1), q.2)) =
      ((evaluateAll O f.env es f.heap).bind fun q =>
        (placeOf O f.env base slice q.2).map fun p => ((p.1, q.1), p.2)) ∧
    ∀ p, placeOf O f.env base slice f.heap = some p → ∀ e ∈ es,
      Storable O p.1.1 p.2 ∧ ∀ x ∈ operated e, ∀ w, f.env x = some w → apart p.1.1 w
  | _, _, _ => True

/-- No store of the statements a tuple assignment is split into is seen by a value after it. -/
def Undisturbed : List (Pattern × Expr) → Activation V H → Prop
  | [], _ => True
  | p :: ps, f => ∀ q, evaluate O f.env p.2 f.heap = some q →
    Spared O apart p.1 (ps.map Prod.snd) { f with heap := q.2 } ∧
    ∀ g, assignTo O p.1 q.1 { f with heap := q.2 } = some g → Undisturbed ps g

variable {O apart}
variable {env : String → Option V} {es : List Expr} {f : Activation V H}

theorem evaluateAll_congr {env' : String → Option V}
    (h : ∀ e ∈ es, ∀ x ∈ loadNames e, env x = env' x) :
    evaluateAll O env es = evaluateAll O env' es := by
  induction es with
  | nil => rfl
  | cons e es ih =>
    have hhead : evaluate O env e = evaluate O env' e := by
      have := evaluate_rename (O := O) (ρ := fun x => x) (h e mem_cons_self)
      rwa [Expr.rename_self] at this
    have htail := ih fun e' he' => h e' (mem_cons_of_mem _ he')
    funext m
    simp only [evaluateAll, hhead, htail]

theorem Sharing.unseen_evaluateAll (hS : Sharing O apart) {b : V} {h : H} (hb : Storable O b h)
    (he : ∀ e ∈ es, ∀ x ∈ operated e, ∀ w, env x = some w → apart b w) :
    Unseen O b (fun _ => True) (evaluateAll O env es) h := by
  induction es generalizing h with
  | nil => exact .pure hb trivial
  | cons e es ih =>
    refine ((hS.unseen_operated hb (he e mem_cons_self)).bind
      (k := fun v h => (evaluateAll O env es h).bind fun q => some (v :: q.1, q.2)) fun p _ _ hb =>
      (ih hb fun e' he' => he e' (mem_cons_of_mem _ he')).bind
        (k := fun vs h => some (p.1 :: vs, h)) fun q _ _ hb => .pure hb trivial).congr fun h => ?_
    simp only [evaluateAll, map_eq_bind]
    rfl

/-- **A store moves past the values after it.** -/
theorem assignTo_swap (hS : Sharing O apart) {t : Pattern} {v : V} (hflat : t.isTuple = false)
    (hspared : Spared O apart t es f)
    (hnames : ∀ x, t = .name x → (∀ e ∈ es, x ∉ loadNames e) ∨ f.env x = some v) :
    ((assignTo O t v f).bind fun g =>
      (evaluateAll O g.env es g.heap).map fun q => (q.1, { g with heap := q.2 })) =
      (evaluateAll O f.env es f.heap).bind fun q =>
        (assignTo O t v { f with heap := q.2 }).map fun g => (q.1, g) := by
  cases t with
  | name x =>
    have henv : evaluateAll O (f.bind x v).env es = evaluateAll O f.env es := by
      rcases hnames x rfl with hx | hx
      · refine evaluateAll_congr fun e he y hy => Activation.bind_env_of_ne ?_
        rintro rfl
        exact hx e he hy
      · rw [Activation.bind_self hx]
    simp only [assignTo_name, bind_some, henv, map_some]
    change (evaluateAll O f.env es f.heap).map _ = _
    cases evaluateAll O f.env es f.heap <;> rfl
  | item base slice =>
    obtain ⟨hplace, hapart⟩ := hspared
    have hstore : ∀ m, assignTo O (.item base slice) v { f with heap := m } =
        (placeOf O f.env base slice m).bind fun p =>
          (O.setItem p.1.1 p.1.2 v p.2).map fun n => { f with heap := n } := by
      intro m
      simp only [assignTo, Pattern.isTuple, Bool.false_eq_true, if_false, bindAll, placeOf,
        bind_assoc, bind_map]
      rfl
    -- The store first, with the place found where it is found after the values.
    have hmoved := congrArg (fun o => o.bind fun p => (O.setItem p.1.1.1 p.1.1.2 v p.2).map
      fun n => (p.1.2, { f with heap := n })) hplace
    have hf : { f with heap := f.heap } = f := rfl
    rw [← hf, hstore]
    simp only [bind_assoc, bind_map, Function.comp_def, hstore, map_bind,
      Option.map_map] at hmoved ⊢
    rw [← hmoved]
    cases hp : placeOf O f.env base slice f.heap with
    | none => rfl
    | some p =>
      simp only [bind_some]
      cases es with
      | nil =>
        simp only [evaluateAll, map_some, bind_some]
        cases O.setItem p.1.1 p.1.2 v p.2 <;> rfl
      | cons e es =>
        obtain ⟨hstorable, -⟩ := hapart p hp e mem_cons_self
        have hswap := (hS.unseen_evaluateAll hstorable
          fun e' he' => (hapart p hp e' he').2).swap p.1.2 v
        have hswap := congrArg (fun o => o.map fun q : List V × H => (q.1, { f with heap := q.2 }))
          hswap
        simpa only [map_bind, Option.map_map, Function.comp_def] using hswap
  | unit => cases hflat
  | pair head tail => cases hflat

/-- **One store after the other binds simultaneously**, where no store is seen by a value after
it. -/
theorem stepwise_eq (hS : Sharing O apart) {ps : List (Pattern × Expr)}
    (hflat : ∀ p ∈ ps, p.1.isTuple = false) (hnames : ps.Pairwise NamesApart)
    (h : Undisturbed O apart ps f) : stepwise O ps f = simultaneous O ps f := by
  induction ps generalizing f with
  | nil => rfl
  | cons p ps ih =>
    obtain ⟨hp, hnames⟩ := pairwise_cons.1 hnames
    have hflat' := fun q hq => hflat q (mem_cons_of_mem _ hq)
    simp only [stepwise, simultaneous, map_cons, evaluateAll, bind_assoc,
      bind_map, bindEach, Function.comp_def]
    cases hq : evaluate O f.env p.2 f.heap with
    | none => rfl
    | some q =>
      obtain ⟨hspared, hrest⟩ := h q hq
      simp only [bind_some]
      have hswap := assignTo_swap hS (v := q.1) (hflat p mem_cons_self) hspared ?_
      · have hswap := congrArg (fun o => o.bind fun r : List V × Activation V H =>
          bindEach O (ps.map Prod.fst) r.1 r.2) hswap
        simp only [bind_assoc, bind_map, Function.comp_def] at hswap
        rw [← hswap]
        cases hg : assignTo O p.1 q.1 { f with heap := q.2 } with
        | none => rfl
        | some g => exact ih hflat' hnames (hrest g hg)
      · intro x hx
        by_cases hself : isSelfCopy p.1 p.2 = true
        · obtain ⟨target, value⟩ := p
          obtain rfl : target = .name x := hx
          cases value with
          | name y =>
            obtain rfl : x = y := of_decide_eq_true hself
            obtain ⟨v, hv, rfl⟩ := map_eq_some_iff.1 hq
            exact .inr hv
          | _ => cases hself
        · refine .inl fun e he => ?_
          obtain ⟨r, hr, rfl⟩ := mem_map.1 he
          exact (hp r hr x hx).resolve_right hself

end Stepwise

/-! ### Values that temporaries hold -/

section Latch

variable {O : Objects V H} {D : Set String} {φ : Pattern × Expr → Bool}
variable {env env' : String → Option V} {ps : List (Pattern × Expr)} {vs : List V}
variable {xs : List String} {f g : Activation V H} {p : Pattern × Expr}

/-- The values of some bindings: of those in `φ` a temporary holds it, and the others are
self-copies. -/
inductive Latched (φ : Pattern × Expr → Bool) (env env' : String → Option V) :
    List (Pattern × Expr) → List V → List String → Prop
  | nil : Latched φ env env' [] [] []
  | held {p ps v vs x xs} : φ p = true → env' x = some v → Latched φ env env' ps vs xs →
    Latched φ env env' (p :: ps) (v :: vs) (x :: xs)
  | kept {p ps v vs xs} : φ p = false → (∃ c, p = (.name c, .name c) ∧ env c = some v) →
    Latched φ env env' ps vs xs → Latched φ env env' (p :: ps) (v :: vs) xs

theorem Latched.congr {env₁ env₁' : String → Option V} (h : Latched φ env env' ps vs xs)
    (henv : ∀ c, (.name c, .name c) ∈ ps → φ (.name c, .name c) = false → env₁ c = env c)
    (henv' : ∀ x ∈ xs, env₁' x = env' x) : Latched φ env₁ env₁' ps vs xs := by
  induction h with
  | nil => exact .nil
  | held hp hx _ ih =>
    exact .held hp ((henv' _ mem_cons_self).trans hx)
      (ih (fun c hc => henv c (mem_cons_of_mem _ hc))
        fun y hy => henv' y (mem_cons_of_mem _ hy))
  | kept hp hc _ ih =>
    obtain ⟨c, rfl, hv⟩ := hc
    exact .kept hp ⟨c, rfl, (henv c mem_cons_self hp).trans hv⟩
      (ih (fun c hc => henv c (mem_cons_of_mem _ hc)) henv')

/-- The values are evaluated into the temporaries. -/
theorem latch_values {m : H} (hkept : ∀ p ∈ ps, φ p = false → ∃ c, p = (.name c, .name c))
    (hfresh : ∀ p ∈ ps, ∀ x ∈ D, x ∉ loadNames p.2) (hxs : ∀ x ∈ xs, x ∈ D) (hnodup : xs.Nodup)
    (hlength : xs.length = (ps.filter φ).length) (h : SameOff D f g)
    (heval : evaluateAll O f.env (ps.map Prod.snd) f.heap = some (vs, m)) :
    ∃ g', stepwise O ((xs.zip (ps.filter φ)).map fun p => (.name p.1, p.2.2)) g = some g' ∧
      SameOff D { f with heap := m } g' ∧ (∀ x ∉ xs, g'.env x = g.env x) ∧
      Latched φ f.env g'.env ps vs xs := by
  induction ps generalizing f g xs vs with
  | nil =>
    obtain ⟨rfl, rfl⟩ : [] = vs ∧ f.heap = m := by simpa [evaluateAll] using heval
    obtain rfl : xs = [] := eq_nil_of_length_eq_zero hlength
    exact ⟨g, rfl, h, fun _ _ => rfl, .nil⟩
  | cons p ps ih =>
    obtain ⟨q, hq, heval⟩ := bind_eq_some_iff.1 heval
    obtain ⟨r, hr, hvs⟩ := map_eq_some_iff.1 heval
    obtain ⟨rfl, rfl⟩ := Prod.mk.inj hvs
    have hkept' := fun p hp => hkept p (mem_cons_of_mem _ hp)
    have hfresh' := fun p hp => hfresh p (mem_cons_of_mem _ hp)
    cases hφ : φ p with
    | true =>
      rw [filter_cons_of_pos hφ] at hlength ⊢
      cases xs with
      | nil => cases hlength
      | cons x xs =>
        obtain ⟨hx, hnodup⟩ := nodup_cons.1 hnodup
        have hxD : x ∈ D := hxs x mem_cons_self
        have h₁ : SameOff D { f with heap := q.2 } (Activation.bind { g with heap := q.2 } x q.1) :=
          ⟨rfl, fun y hy => (h.env y hy).trans
            (Activation.bind_env_of_ne (ne_of_mem_of_not_mem hxD hy).symm).symm⟩
        obtain ⟨g', hg', hsame, hrest, hheld⟩ := ih hkept' hfresh'
          (fun y hy => hxs y (mem_cons_of_mem _ hy)) hnodup (Nat.succ.inj hlength) h₁ hr
        refine ⟨g', ?_, hsame, fun y hy => ?_, .held hφ ?_ hheld⟩
        · rw [zip_cons_cons, map_cons]
          have hqg : evaluate O g.env p.2 g.heap = some q := by
            rw [← evaluate_unchanged h (hfresh p mem_cons_self), hq]
          simp only [stepwise, hqg, bind_some, assignTo_name]
          exact hg'
        · rw [mem_cons, not_or] at hy
          exact (hrest y hy.2).trans (Activation.bind_env_of_ne hy.1)
        · exact (hrest x hx).trans Activation.bind_env_self
    | false =>
      rw [filter_cons_of_neg (by rw [hφ]; exact Bool.false_ne_true)] at hlength ⊢
      obtain ⟨c, rfl⟩ := hkept p mem_cons_self hφ
      obtain ⟨v, hv, rfl⟩ := map_eq_some_iff.1 hq
      obtain ⟨g', hg', hsame, hrest, hheld⟩ := ih hkept' hfresh' hxs hnodup hlength h hr
      exact ⟨g', hg', hsame, hrest, .kept hφ ⟨c, rfl, hv⟩ hheld⟩

theorem assignTo_env {t : Pattern} {v : V} (hflat : t.isTuple = false)
    (h : assignTo O t v f = some g) {x : String} (hx : t ≠ .name x) : g.env x = f.env x := by
  cases t with
  | name y =>
    obtain rfl : f.bind y v = g := Option.some.inj h
    exact Activation.bind_env_of_ne fun hxy => hx (hxy ▸ rfl)
  | item base slice =>
    simp only [assignTo, Pattern.isTuple, Bool.false_eq_true, if_false, bindAll] at h
    obtain ⟨p, -, h⟩ := bind_eq_some_iff.1 h
    obtain ⟨q, -, h⟩ := bind_eq_some_iff.1 h
    obtain ⟨m, -, rfl⟩ := map_eq_some_iff.1 h
    rfl
  | unit => cases hflat
  | pair head tail => cases hflat

/-- The targets are stored what the temporaries hold; the self-copies keep their values. -/
theorem latch_stores {f' : Activation V H} (hflat : ∀ p ∈ ps, p.1.isTuple = false)
    (hapart : ∀ p ∈ ps, ∀ q ∈ ps, φ p = true → φ q = false → p.1 ≠ q.1)
    (hloads : ∀ p ∈ ps, ∀ x ∈ D, x ∉ p.1.loads) (hbinds : ∀ p ∈ ps, ∀ x ∈ D, x ∉ p.1.binds)
    (hxs : ∀ x ∈ xs, x ∈ D) (h : SameOff D f g) (hheld : Latched φ f.env g.env ps vs xs)
    (hbind : bindEach O (ps.map Prod.fst) vs f = some f') :
    ∃ g', stepwise O ((xs.zip (ps.filter φ)).map fun p => (p.2.1, .name p.1)) g = some g' ∧
      SameOff D f' g' ∧ ∀ c, (∀ p ∈ ps, φ p = true → p.1 ≠ .name c) → f'.env c = f.env c := by
  induction ps generalizing f g xs vs with
  | nil =>
    cases hheld
    obtain rfl : f = f' := Option.some.inj hbind
    exact ⟨g, rfl, h, fun _ _ => rfl⟩
  | cons p ps ih =>
    have hflat' := fun p hp => hflat p (mem_cons_of_mem _ hp)
    have hapart' := fun p hp q hq => hapart p (mem_cons_of_mem _ hp) q
      (mem_cons_of_mem _ hq)
    have hloads' := fun p hp => hloads p (mem_cons_of_mem _ hp)
    have hbinds' := fun p hp => hbinds p (mem_cons_of_mem _ hp)
    cases hheld with
    | @held _ _ v vs x xs hφ hx hheld =>
      obtain ⟨f₁, hf₁, hbind⟩ := bind_eq_some_iff.1 hbind
      obtain ⟨g₁, hg₁, h₁⟩ := Follows.of_rel
        (assignTo_unchanged (O := O) (v := v) h (hloads p mem_cons_self)) f₁ hf₁
      have htarget : ∀ y ∈ D, p.1 ≠ .name y := by
        intro y hy hp
        refine hbinds p mem_cons_self y hy ?_
        rw [hp]
        exact mem_cons_self
      have hheld₁ : Latched φ f₁.env g₁.env ps vs xs := by
        refine hheld.congr (fun c hc hcopy => ?_) fun y hy => ?_
        · exact assignTo_env (hflat p mem_cons_self) hf₁
            (hapart p mem_cons_self _ (mem_cons_of_mem _ hc) hφ hcopy)
        · exact assignTo_env (hflat p mem_cons_self) hg₁
            (htarget y (hxs y (mem_cons_of_mem _ hy)))
      obtain ⟨g', hg', hsame, hcopies⟩ := ih hflat' hapart' hloads' hbinds'
        (fun y hy => hxs y (mem_cons_of_mem _ hy)) h₁ hheld₁ hbind
      refine ⟨g', ?_, hsame, fun c hc => ?_⟩
      · rw [filter_cons_of_pos hφ, zip_cons_cons, map_cons]
        simp only [stepwise, evaluate, hx, map_some, bind_some]
        rw [show ({ g with heap := g.heap } : Activation V H) = g from rfl, hg₁, bind_some]
        exact hg'
      · exact (hcopies c fun q hq => hc q (mem_cons_of_mem _ hq)).trans
          (assignTo_env (hflat p mem_cons_self) hf₁ (hc p mem_cons_self hφ))
    | @kept _ _ v vs _ hφ hcopy hheld =>
      obtain ⟨c, rfl, hv⟩ := hcopy
      -- The self-copy binds the name to what it is bound to.
      obtain ⟨f₁, hf₁, hbind⟩ := bind_eq_some_iff.1 hbind
      obtain rfl : f = f₁ := (Activation.bind_self hv).symm.trans (Option.some.inj hf₁)
      obtain ⟨g', hg', hsame, hcopies⟩ := ih hflat' hapart' hloads' hbinds' hxs h hheld hbind
      rw [filter_cons_of_neg (by rw [hφ]; exact Bool.false_ne_true)]
      exact ⟨g', hg', hsame, fun d hd => hcopies d fun q hq => hd q (mem_cons_of_mem _ hq)⟩

/-- Self-copies of names that are bound change nothing. -/
theorem stepwise_copies (h : ∀ p ∈ ps, ∃ c v, p = (.name c, .name c) ∧ g.env c = some v) :
    stepwise O ps g = some g := by
  induction ps with
  | nil => rfl
  | cons p ps ih =>
    obtain ⟨c, v, rfl, hv⟩ := h p mem_cons_self
    simp only [stepwise, evaluate, hv, map_some, bind_some, assignTo_name]
    rw [Activation.bind_self hv]
    exact ih fun q hq => h q (mem_cons_of_mem _ hq)

theorem stepwise_append {qs : List (Pattern × Expr)} :
    stepwise O (ps ++ qs) f = (stepwise O ps f).bind (stepwise O qs) := by
  induction ps generalizing f with
  | nil => rfl
  | cons p ps ih => simp only [cons_append, stepwise, bind_assoc, ih]

theorem Latched.bound (h : Latched φ env env' ps vs xs) (hp : p ∈ ps) (hφ : φ p = false) :
    ∃ c v, p = (.name c, .name c) ∧ env c = some v := by
  induction h with
  | nil => cases hp
  | held hq _ _ ih =>
    rcases mem_cons.1 hp with rfl | hp
    · rw [hφ] at hq
      cases hq
    · exact ih hp
  | kept _ hc _ ih =>
    rcases mem_cons.1 hp with rfl | hp
    · obtain ⟨c, hp, hv⟩ := hc
      exact ⟨c, _, hp, hv⟩
    · exact ih hp

theorem changed_fst :
    (changed ps).map Prod.fst = ps.filter (isChanged ps) := by
  have hfilter : ∀ (φ : Pattern × Expr → Bool) (k : ℕ) (qs : List (Pattern × Expr)),
      ((qs.zipIdx k).filter fun p => φ p.1).map Prod.fst = qs.filter φ := by
    intro φ k qs
    induction qs generalizing k with
    | nil => rfl
    | cons q qs ih =>
      rw [zipIdx_cons]
      cases hq : φ q with
      | true =>
        rw [filter_cons_of_pos hq, filter_cons_of_pos (by exact hq), map_cons, ih]
      | false =>
        rw [filter_cons_of_neg (by rw [hq]; exact Bool.false_ne_true),
          filter_cons_of_neg (by exact fun h => Bool.false_ne_true (hq.symm.trans h)), ih]
  exact hfilter _ 0 ps

/-- A binding that is left as it is copies a name that no other binding writes. -/
theorem isChanged_eq_false {q : Pattern × Expr} (hp : p ∈ ps) (hq : q ∈ ps)
    (hchanged : isChanged ps p = true) (hcopy : isChanged ps q = false) :
    p.1 ≠ q.1 := by
  intro heq
  have hne : p ≠ q := by
    rintro rfl
    rw [hchanged] at hcopy
    cases hcopy
  have hperm := (perm_cons_erase hq).map Prod.fst
  have hmem : q.1 ∈ (ps.erase q).map Prod.fst :=
    heq ▸ mem_map_of_mem ((mem_erase_of_ne hne).2 hp)
  have hcount := hperm.count_eq q.1
  rw [map_cons, count_cons_self] at hcount
  have hpos := count_pos_iff.2 hmem
  simp only [isChanged, Bool.or_eq_false_iff, decide_eq_false_iff_not] at hcopy
  omega

/-- **Stores of values that temporaries hold bind simultaneously**, whatever the values are. -/
theorem latch_follows (hflat : ∀ p ∈ ps, p.1.isTuple = false)
    (hfresh : ∀ p ∈ ps, ∀ x ∈ D, x ∉ loadNames p.2 ∧ x ∉ p.1.loads ∧ x ∉ p.1.binds)
    (hxs : ∀ x ∈ xs, x ∈ D) (hnodup : xs.Nodup) (hlength : xs.length = (changed ps).length)
    (h : SameOff D f g) :
    Follows (SameOff D) (simultaneous O ps f) (stepwise O (latch ps xs) g) := by
  intro f' hf'
  obtain ⟨⟨vs, m⟩, heval, hbind⟩ := bind_eq_some_iff.1 hf'
  have hzip : ∀ (k : String × (Pattern × Expr) → Pattern × Expr),
      (xs.zip (changed ps)).map (fun p => k (p.1, p.2.1)) =
        (xs.zip (ps.filter (isChanged ps))).map k := by
    intro k
    rw [← changed_fst, zip_map_right, List.map_map]
    rfl
  rw [latch, hzip fun p => (.name p.1, p.2.2), hzip fun p => (p.2.1, .name p.1)]
  rw [← length_map (f := Prod.fst), changed_fst] at hlength
  have hkept : ∀ p ∈ ps, isChanged ps p = false → ∃ c, p = (.name c, .name c) := by
    rintro ⟨target, value⟩ - hp
    simp only [isChanged, Bool.or_eq_false_iff, Bool.not_eq_false'] at hp
    match target, value, hp.1 with
    | .name c, .name d, hcopy =>
      obtain rfl : c = d := of_decide_eq_true hcopy
      exact ⟨c, rfl⟩
  obtain ⟨g₁, hg₁, h₁, -, hheld⟩ := latch_values hkept (fun p hp x hx => (hfresh p hp x hx).1) hxs
    hnodup hlength h heval
  obtain ⟨g₂, hg₂, h₂, hcopies⟩ := latch_stores hflat
    (fun p hp q hq => isChanged_eq_false hp hq) (fun p hp x hx => (hfresh p hp x hx).2.1)
    (fun p hp x hx => (hfresh p hp x hx).2.2) hxs h₁ hheld hbind
  refine ⟨g₂, ?_, h₂⟩
  rw [stepwise_append, stepwise_append, hg₁, bind_some, hg₂, bind_some]
  refine stepwise_copies fun p hp => ?_
  obtain ⟨hp, hcopy⟩ := mem_filter.1 hp
  rw [Bool.not_eq_true'] at hcopy
  obtain ⟨c, v, rfl, hv⟩ := hheld.bound hp hcopy
  have hc : c ∉ D := fun hc => (hfresh _ hp c hc).2.2 mem_cons_self
  refine ⟨c, v, rfl, ?_⟩
  rw [← h₂.env c hc, hcopies c fun q hq hchanged => isChanged_eq_false hq hp hchanged hcopy]
  exact hv

end Latch

/-! ### The pass -/

theorem Pattern.names_elts {t p : Pattern} (hp : p ∈ t.elts) :
    p.loads ⊆ t.loads ∧ p.binds ⊆ t.binds := by
  induction t with
  | pair head tail _ ih =>
    rcases mem_cons.1 hp with rfl | hp
    · exact ⟨subset_append_left _ _, subset_append_left _ _⟩
    · exact ⟨List.Subset.trans (ih hp).1 (subset_append_right _ _),
        List.Subset.trans (ih hp).2 (subset_append_right _ _)⟩
  | unit => cases hp
  | _ =>
    obtain rfl := mem_singleton.1 hp
    exact ⟨List.Subset.refl _, List.Subset.refl _⟩

namespace UnpackConfig

variable {cfg : UnpackConfig}
variable {targets : List Pattern} {value : Expr} {ps : List (Pattern × Expr)} {m : Minted}

/-- The bindings of an unpack are made of its targets and its value. -/
theorem mem_unpacked {p : Pattern × Expr} (h : cfg.unpacked targets value = some ps) (hp : p ∈ ps) :
    cfg.allows p.1 = true ∧ p.1.loads ⊆ targets.flatMap Pattern.loads ∧
      p.1.binds ⊆ targets.flatMap Pattern.binds ∧ loadNames p.2 ⊆ loadNames value := by
  match targets with
  | [] => cases h
  | _ :: _ :: _ => cases h
  | [t] =>
    simp only [unpacked] at h
    split at h
    · rename_i hok
      obtain rfl := Option.some.inj h
      obtain ⟨ht, hv⟩ := of_mem_zip hp
      have hnames := Pattern.names_elts ht
      simp only [flatMap_cons, flatMap_nil, append_nil]
      exact ⟨all_eq_true.1 hok.2.1 _ ht, hnames.1, hnames.2, loadNames_elts hv⟩
    · cases h

theorem isTuple_of_allows {p : Pattern} (h : cfg.allows p = true) : p.isTuple = false := by
  cases p <;> first | rfl | cases h

/-- The temporaries of a statement: one for each changed value, all different. -/
theorem mint_eq_some {racing temps : ℕ} {cs : List ((Pattern × Expr) × ℕ)} {xs : List String}
    (hpos : (cs.map Prod.snd).Nodup) (h : (cfg.mint racing temps cs).2 = some xs) :
    xs.length = cs.length ∧ xs.Nodup ∧
      ∀ x ∈ xs, ∃ t i, temps ≤ t ∧ i ∈ cs.map Prod.snd ∧ cfg.tempName racing t i = some x := by
  induction cs generalizing temps xs with
  | nil =>
    obtain rfl := Option.some.inj h
    exact ⟨rfl, nodup_nil, nofun⟩
  | cons c cs ih =>
    simp only [mint] at h
    cases hx : cfg.tempName racing temps c.2 with
    | none =>
      rw [hx] at h
      cases h
    | some x =>
      rw [hx] at h
      obtain ⟨ys, hys, rfl⟩ := map_eq_some_iff.1 h
      obtain ⟨hc, hpos⟩ := nodup_cons.1 hpos
      obtain ⟨hlength, hnodup, hnames⟩ := ih hpos hys
      refine ⟨congrArg Nat.succ hlength, nodup_cons.2 ⟨fun hmem => ?_, hnodup⟩, fun y hy => ?_⟩
      · obtain ⟨t, i, ht, hi, hname⟩ := hnames x hmem
        exact cfg.distinct (Nat.ne_of_lt ht) (ne_of_mem_of_not_mem hi hc).symm hx hname rfl
      · rcases mem_cons.1 hy with rfl | hy
        · exact ⟨temps, c.2, le_rfl, mem_cons_self, hx⟩
        · obtain ⟨t, i, ht, hi, hname⟩ := hnames y hy
          exact ⟨t, i, Nat.le_of_succ_le ht, mem_cons_of_mem _ hi, hname⟩

theorem nodup_changed : ((changed ps).map Prod.snd).Nodup := by
  refine List.Nodup.sublist (filter_sublist.map _) ?_
  rw [zipIdx_map_snd]
  exact nodup_range'

/-- What an assignment is split into. -/
theorem split_eq_some {qs : List (Pattern × Expr)} (h : (cfg.split m targets value).2 = some qs) :
    ∃ ps, cfg.unpacked targets value = some ps ∧ (races ps = false ∧ qs = ps ∨
      ∃ xs, qs = latch ps xs ∧ xs.length = (changed ps).length ∧ xs.Nodup ∧
        ∀ x ∈ xs, x ∈ cfg.temporaries) := by
  simp only [split] at h
  cases hps : cfg.unpacked targets value with
  | none =>
    rw [hps] at h
    cases h
  | some ps =>
    refine ⟨ps, rfl, ?_⟩
    rw [hps] at h
    cases hr : races ps with
    | false =>
      simp only [hr, Bool.false_eq_true, if_false] at h
      exact .inl ⟨rfl, (Option.some.inj h).symm⟩
    | true =>
      simp only [hr, if_true] at h
      obtain ⟨xs, hxs, rfl⟩ := map_eq_some_iff.1 h
      obtain ⟨hlength, hnodup, hnames⟩ := mint_eq_some nodup_changed hxs
      refine .inr ⟨xs, rfl, hlength, hnodup, fun x hx => ?_⟩
      obtain ⟨t, i, -, -, hname⟩ := hnames x hx
      exact ⟨_, t, i, hname⟩

/-- A tuple assignment whose split is right: where it is split without temporaries, no store is seen
by a value after it. -/
def UnpackKept (cfg : UnpackConfig) (O : Objects V H) (apart : V → V → Prop) (s : Code)
    (f : Activation V H) : Prop :=
  ∀ targets value ps, s = .assign targets value .done → cfg.unpacked targets value = some ps →
    races ps = false → Undisturbed O apart ps f

/-- A statement that is left as it is, or a tuple assignment and its split. -/
def SplitOf (cfg : UnpackConfig) (s d : Code) : Prop :=
  (∀ x ∈ cfg.temporaries, x ∉ s.loads ∧ x ∉ s.binds) ∧
    (s = d ∨ ∃ m targets value qs, s = .assign targets value .done ∧
      (cfg.split m targets value).2 = some qs ∧ d = assigns qs .done)

theorem assigns_append {rest : Code} :
    assigns ps rest = (assigns ps .done).append rest := by
  induction ps with
  | nil => rfl
  | cons p ps ih => exact congrArg (Code.assign [p.1] p.2) ih

/-- The pass replaces statements one by one. -/
theorem splitUnpacks_rewrites {m : Minted} {c : Code}
    (hfresh : ∀ x ∈ cfg.temporaries, x ∉ c.loads ∧ x ∉ c.binds) :
    Rewrites cfg.SplitOf (fun e e' => e = e' ∧ ∀ x ∈ cfg.temporaries, x ∉ loadNames e)
      (fun t t' => t = t' ∧ ∀ x ∈ cfg.temporaries, x ∉ t.loads) c (cfg.splitUnpacks m c).2 := by
  induction c generalizing m with
  | done => exact .done
  | assign targets value rest ih =>
    simp only [Code.loads, Code.binds, mem_append, not_or] at hfresh
    have hrest := ih (m := (cfg.split m targets value).1)
      fun x hx => ⟨(hfresh x hx).1.2, (hfresh x hx).2.2⟩
    have hstmt : ∀ x ∈ cfg.temporaries, x ∉ (Code.assign targets value .done).loads ∧
        x ∉ (Code.assign targets value .done).binds := by
      intro x hx
      simp only [Code.loads, Code.binds, append_nil, mem_append, not_or]
      exact ⟨(hfresh x hx).1.1, (hfresh x hx).2.1⟩
    simp only [splitUnpacks]
    cases hqs : (cfg.split m targets value).2 with
    | none =>
      exact .stmt (s := .assign targets value .done) (d := .assign targets value .done)
        ⟨hstmt, .inl rfl⟩ hrest
    | some qs =>
      dsimp only
      rw [assigns_append]
      exact .stmt (s := .assign targets value .done)
        ⟨hstmt, .inr ⟨m, targets, value, qs, rfl, hqs, rfl⟩⟩ hrest
  | augAssign target op value rest ih =>
    simp only [Code.loads, Code.binds, mem_append, not_or] at hfresh
    refine .stmt (s := .augAssign target op value .done) (d := .augAssign target op value .done)
      ⟨fun x hx => ?_, .inl rfl⟩ (ih fun x hx => ⟨(hfresh x hx).1.2, (hfresh x hx).2.2⟩)
    simp only [Code.loads, Code.binds, append_nil, mem_append, not_or]
    exact ⟨(hfresh x hx).1.1, (hfresh x hx).2.1⟩
  | expr value rest ih =>
    simp only [Code.loads, Code.binds, mem_append, not_or] at hfresh
    refine .stmt (s := .expr value .done) (d := .expr value .done)
      ⟨fun x hx => ?_, .inl rfl⟩ (ih fun x hx => ⟨(hfresh x hx).1.2, (hfresh x hx).2⟩)
    simp only [Code.loads, Code.binds, append_nil]
    exact ⟨(hfresh x hx).1.1, not_mem_nil⟩
  | ifElse test body orelse rest ihb iho ih =>
    simp only [Code.loads, Code.binds, mem_append, not_or] at hfresh
    exact .ifElse ⟨rfl, fun x hx => (hfresh x hx).1.1.1.1⟩
      (ihb fun x hx => ⟨(hfresh x hx).1.1.1.2, (hfresh x hx).2.1.1⟩)
      (iho fun x hx => ⟨(hfresh x hx).1.1.2, (hfresh x hx).2.1.2⟩)
      (ih fun x hx => ⟨(hfresh x hx).1.2, (hfresh x hx).2.2⟩)
  | forIn target iter body orelse rest ihb iho ih =>
    simp only [Code.loads, Code.binds, mem_append, not_or] at hfresh
    exact .forIn ⟨rfl, fun x hx => (hfresh x hx).1.1.1.1.1⟩
      ⟨rfl, fun x hx => (hfresh x hx).1.1.1.1.2⟩
      (ihb fun x hx => ⟨(hfresh x hx).1.1.1.2, (hfresh x hx).2.1.1.2⟩)
      (iho fun x hx => ⟨(hfresh x hx).1.1.2, (hfresh x hx).2.1.2⟩)
      (ih fun x hx => ⟨(hfresh x hx).1.2, (hfresh x hx).2.2⟩)
  | whileDo test body orelse rest ihb iho ih =>
    simp only [Code.loads, Code.binds, mem_append, not_or] at hfresh
    exact .whileDo ⟨rfl, fun x hx => (hfresh x hx).1.1.1.1⟩
      (ihb fun x hx => ⟨(hfresh x hx).1.1.1.2, (hfresh x hx).2.1.1⟩)
      (iho fun x hx => ⟨(hfresh x hx).1.1.2, (hfresh x hx).2.1.2⟩)
      (ih fun x hx => ⟨(hfresh x hx).1.2, (hfresh x hx).2.2⟩)
  | ret value rest ih =>
    simp only [Code.loads, Code.binds, mem_append, not_or] at hfresh
    refine .stmt (s := .ret value .done) (d := .ret value .done)
      ⟨fun x hx => ?_, .inl rfl⟩ (ih fun x hx => ⟨(hfresh x hx).1.2, (hfresh x hx).2⟩)
    simp only [Code.loads, Code.binds, append_nil]
    exact ⟨(hfresh x hx).1.1, not_mem_nil⟩
  | brk rest ih =>
    exact .stmt (s := .brk .done) (d := .brk .done)
      ⟨fun _ _ => ⟨not_mem_nil, not_mem_nil⟩, .inl rfl⟩ (ih hfresh)
  | cont rest ih =>
    exact .stmt (s := .cont .done) (d := .cont .done)
      ⟨fun _ _ => ⟨not_mem_nil, not_mem_nil⟩, .inl rfl⟩ (ih hfresh)

end UnpackConfig

/-! ### Arrays of cells -/

namespace Thing

theorem unpacking_cells : Unpacking cells where
  unit _ := rfl
  pair {v w vs h} hw := by
    obtain ⟨ws, hws, hvs⟩ := map_eq_some_iff.1 hw
    obtain ⟨rfl, -⟩ := Prod.mk.inj hvs
    change (Thing.parts h (Thing.pair v w)).map _ = _
    rw [Thing.parts, hws]
    rfl

variable {b : Thing} {h : List (List ℤ)} {v w : Thing} {op : Operator} {r : Thing}
variable {m : List (List ℤ)} {i : Thing}

/-- What an operation gives that leaves the heap alone and looks only at objects that share no place
with `b`. -/
theorem unseen_of_stable {b : Thing} {r : List (List ℤ) → Option Thing} {h : List (List ℤ)}
    (hb : Storable cells b h)
    (hstable : ∀ l xs, b = .arr l → r (h.set l xs) = r h)
    (hresult : ∀ v, r h = some v → Apart b v) :
    Unseen cells b (Apart b) (fun h => (r h).map fun v => (v, h)) h where
  swap s x := by
    cases hs : cells.setItem b s x h with
    | none =>
      cases r h with
      | none => rfl
      | some v =>
        simp only [bind_none, map_some, bind_some, hs, map_none]
    | some m =>
      obtain ⟨l, xs, hl, rfl⟩ := set_eq_some hs
      simp only [bind_some, hstable l xs hl]
      cases r h with
      | none => rfl
      | some v => simp only [map_some, bind_some, hs]
  result p hp := by
    obtain ⟨v, hv, rfl⟩ := map_eq_some_iff.1 hp
    exact hresult v hv
  storable p hp := by
    obtain ⟨v, -, rfl⟩ := map_eq_some_iff.1 hp
    exact hb

theorem Apart.of_subset (h : Apart b v) (hw : w.places ⊆ v.places) : Apart b w :=
  fun l hl hwl => h l hl (hw hwl)

theorem apart_of_nil (h : v.places = []) : Apart b v :=
  fun l _ hl => not_mem_nil (h ▸ hl)

theorem places_binary (hr : binary op v w h = some r) : r.places = [] := by
  have hmap : ∀ {α : Type} {o : Option α} {k : α → Thing}, (∀ a, (k a).places = []) →
      o.map k = some r → r.places = [] := by
    rintro α o k hk ho
    obtain ⟨a, -, rfl⟩ := map_eq_some_iff.1 ho
    exact hk a
  unfold binary at hr
  split at hr
  · obtain rfl := Option.some.inj hr
    unfold same
    split <;> rfl
  · exact hmap (fun _ => rfl) hr
  · obtain ⟨xs, -, hr⟩ := bind_eq_some_iff.1 hr
    exact hmap (fun _ => rfl) hr
  · obtain ⟨xs, -, hr⟩ := bind_eq_some_iff.1 hr
    obtain ⟨ys, -, hr⟩ := bind_eq_some_iff.1 hr
    split at hr
    · exact hmap (fun _ => rfl) hr
    · cases hr

theorem binary_congr (hv : v.items m = v.items h) (hw : w.items m = w.items h) :
    binary op v w m = binary op v w h := by
  unfold binary
  split <;> simp only [*]

theorem places_call {name : String} {args : Thing} (hr : call name args = some r) :
    r.places ⊆ args.places := by
  have hrange : ∀ ns : List ℕ,
      (ns.foldr (fun (k : ℕ) v => pair (int k) v) unit).places = [] := by
    intro ns
    induction ns with
    | nil => rfl
    | cons n ns ih => exact ih
  unfold call at hr
  split at hr
  · obtain rfl := Option.some.inj hr
    intro l hl
    simpa [places] using hl
  · obtain rfl := Option.some.inj hr
    intro l hl
    simpa [places] using hl
  · obtain rfl := Option.some.inj hr
    exact (hrange _).symm ▸ nil_subset _
  · obtain rfl := Option.some.inj hr
    exact nil_subset _
  · cases hr

theorem places_get (hr : get v i h = some r) :
    r.places ⊆ v.places := by
  unfold get at hr
  split at hr
  · cases hr
  · split at hr
    · cases hr
    · obtain ⟨vs, hvs, hr⟩ := bind_eq_some_iff.1 hr
      exact places_parts hvs (mem_of_getElem? hr)
  · split at hr
    · cases hr
    · obtain ⟨xs, -, hr⟩ := bind_eq_some_iff.1 hr
      obtain ⟨n, -, rfl⟩ := map_eq_some_iff.1 hr
      exact nil_subset _
  · obtain ⟨xs, -, hr⟩ := bind_eq_some_iff.1 hr
    obtain ⟨p, -, rfl⟩ := map_eq_some_iff.1 hr
    exact nil_subset _

theorem get_congr (hv : v.items m = v.items h) (hp : v.parts m = v.parts h) :
    get v i m = get v i h := by
  unfold get
  split <;> simp only [*]

/-- **Arrays at different places of the heap share no memory.** -/
theorem sharing_cells : Sharing cells Apart where
  const v := apart_of_nil (by cases v <;> rfl)
  unit := apart_of_nil rfl
  pair hv hw l hl := by
    simp only [cells, places, mem_append, not_or]
    exact ⟨hv l hl, hw l hl⟩
  slice hu hv hw l hl := by
    simp only [cells, places, mem_append, not_or]
    exact ⟨⟨hu l hl, hv l hl⟩, hw l hl⟩
  attr {b v h} a hb hv := by
    refine (unseen_of_stable (r := fun h => if a = "T" ∧ (v.items h).isSome then some v else
      Option.none) hb ?_ ?_).congr fun h => ?_
    · rintro l xs rfl
      simp only [items_set (hv l mem_cons_self)]
    · rintro w hw
      split at hw
      · exact Option.some.inj hw ▸ hv
      · cases hw
    · simp only [cells]
      split <;> rfl
  unary {b v h} op hb hv := by
    refine unseen_of_stable (r := fun _ => unary op v) hb (fun _ _ _ => rfl) fun w hw => ?_
    unfold unary at hw
    split at hw
    · exact apart_of_nil (Option.some.inj hw ▸ rfl)
    · cases hw
  binary {b v w h} op hb hv hw := by
    refine unseen_of_stable hb ?_ fun r hr => apart_of_nil (places_binary hr)
    rintro l xs rfl
    exact binary_congr (items_set (hv l mem_cons_self)) (items_set (hw l mem_cons_self))
  call {b v w h} hb hv hw := by
    refine unseen_of_stable (r := fun _ => apply v w) hb (fun _ _ _ => rfl) fun r hr => ?_
    unfold apply at hr
    split at hr
    · exact hw.of_subset (places_call hr)
    · cases hr
  getItem {b v w h} hb hv hw := by
    refine unseen_of_stable hb ?_ fun r hr => hv.of_subset (places_get hr)
    rintro l xs rfl
    exact get_congr (items_set (hv l mem_cons_self)) (parts_set (hv l mem_cons_self))
  truth _ _ := rfl

end Thing

/-! ### Examples -/

/-- `a, a[0], t = b, 1, b[0]`, and `return t`. -/
def unpackAlias : Code :=
  .assign [.pair (.name "a") (.pair (.item (.name "a") (.const (.int 0)))
      (.pair (.name "t") .unit))]
    (.pair (.name "b") (.pair (.const (.int 1))
      (.pair (.subscript (.name "b") (.const (.int 0))) .unit)))
    (.ret (.name "t") .done)

/-- `x.T[0], x.T[1] = x.T[1], x.T[0]`, and `return x[1]`. -/
def unpackView : Code :=
  let at_ : ℤ → Pattern := fun i => .item (.attr (.name "x") "T") (.const (.int i))
  let get : ℤ → Expr := fun i => .subscript (.attr (.name "x") "T") (.const (.int i))
  .assign [.pair (at_ 0) (.pair (at_ 1) .unit)] (.pair (get 1) (.pair (get 0) .unit))
    (.ret (.subscript (.name "x") (.const (.int 1))) .done)

/-- `a[0], t = u, b[0]`, then `t, u = u, t`, and `return t`. -/
def unpackSwap : Code :=
  .assign [.pair (.item (.name "a") (.const (.int 0))) (.pair (.name "t") .unit)]
    (.pair (.name "u") (.pair (.subscript (.name "b") (.const (.int 0))) .unit))
    (.assign [.pair (.name "t") (.pair (.name "u") .unit)]
      (.pair (.name "u") (.pair (.name "t") .unit)) (.ret (.name "t") .done))

/-- `a`, `b` and `x` are arrays, and `u` is five. -/
def unpackStart : Activation Thing (List (List ℤ)) where
  env z :=
    if z = "a" then some (.arr 0) else if z = "b" then some (.arr 1)
    else if z = "x" then some (.arr 2) else if z = "u" then some (.int 5) else none
  heap := [[7], [8], [1, 2]]

end Translate

end HpcAgentBench
