import HpcAgentBench.Fuzz.Sampling

/-!
# What a sample satisfies

The derived sizes of a draw are those of the draw, whatever order they were resolved in: a name once
bound keeps its value, and a value stays where the names it reads do.  Snapping to a divisibility
constraint comes after, and moves a size without deriving again.

## Main results

* `drawWith_spec` : a draw keeps the names bound before it, and its derived sizes are derived.
* `applySizeClass_derives` : moving sizes into a class derives again.
* `sample_consistent` : **a sample satisfies the constraints, and its derived sizes are derived
  where the snap moves neither them nor what they read.**
-/

namespace HpcAgentBench

open List Option

namespace Fuzz

/-! ### Derived sizes -/

/-- Every value of the first map is one of the second. -/
def Sub (m m' : Params) : Prop := ∀ id v, m.get? id = some v → m'.get? id = some v

theorem Sub.refl (m : Params) : Sub m m := fun _ _ h => h

variable {m m' : Params} {rt : Runtime} {name : String} {spec : FuzzValue} {out out' : Params}
variable {constraints : List String} {value body : FuzzValue} {settings : Settings}
variable {parameters : ParameterTable} {configNames : List String} {fuzzed : Params}

theorem Sub.trans {m'' : Params} (h : Sub m m') (h' : Sub m' m'') : Sub m m'' :=
  fun id v hv => h' id v (h id v hv)

/-- A parameter declared as derived has its expression's value. -/
def Derives (rt : Runtime) (out : Params) (name : String) (spec : FuzzValue) : Prop :=
  ∀ body, spec.derive? = some body → ∃ expr v, body = .str expr ∧
    out.get? name = some v ∧ safeEval rt out expr = .ok v

theorem safeEval_ok {names : Params} {expr : String} {v : FuzzValue} :
    safeEval rt names expr = .ok v ↔ ∃ e, rt.parse expr = .ok e ∧
      evalNode rt names expr e = .ok v := bind_eq_ok

theorem Derives.mono (hsub : Sub m m') (h : Derives rt m name spec) : Derives rt m' name spec := by
  intro body hbody
  obtain ⟨expr, v, rfl, hv, heval⟩ := h body hbody
  obtain ⟨e, he, hnode⟩ := safeEval_ok.1 heval
  exact ⟨expr, v, rfl, hsub name v hv,
    safeEval_ok.2 ⟨e, he, evalNode_extends e (fun id _ => hsub id) hnode⟩⟩

section Resolve

variable {ρ : Type} {rt : Runtime} {gen : Generator ρ} {distribution : SizeDistribution}
variable {v : FuzzValue} {resolved : Params} {rng rng' : ρ} {pending : List (String × FuzzValue)}
variable {resolved' : Params}

theorem orUnresolved_some {x : Except Err FuzzValue} (h : orUnresolved x = .ok (some v)) :
    x = .ok v := by
  cases x with
  | ok w =>
    cases h
    rfl
  | error e => cases e <;> cases h

/-- A derived size is its expression's value over what is resolved. -/
theorem tryResolve_derives {spec body : FuzzValue} (hbody : spec.derive? = some body)
    (h : tryResolve rt gen distribution spec resolved rng = .ok (some v, rng')) :
    ∃ expr, body = .str expr ∧ safeEval rt resolved expr = .ok v := by
  unfold tryResolve at h
  rw [hbody] at h
  obtain ⟨value, hvalue, h⟩ := bind_eq_ok.1 h
  cases h
  obtain ⟨expr, hexpr, heval⟩ := bind_eq_ok.1 (orUnresolved_some hvalue)
  cases body with
  | str s =>
    obtain rfl := Except.ok.inj hexpr
    exact ⟨_, rfl, heval⟩
  | bool b => cases hexpr
  | num n => cases hexpr
  | seq l => cases hexpr
  | map l => cases hexpr

/-- What one pass binds. -/
structure Passed (rt : Runtime) (resolved resolved' : Params)
    (pending kept : List (String × FuzzValue)) : Prop where
  left : kept.Sublist pending
  sub : Sub resolved resolved'
  fresh : ∀ p ∈ kept, resolved'.get? p.1 = none
  bound : ∀ p ∈ pending, p ∉ kept → (resolved'.get? p.1).isSome = true ∧
    Derives rt resolved' p.1 p.2
  others : ∀ id, id ∉ pending.map (·.1) → resolved'.get? id = resolved.get? id

theorem sub_set {name : String} (v : FuzzValue) (h : resolved.get? name = none) :
    Sub resolved (resolved.set name v) := by
  intro id w hw
  rw [Dict.get?_set, if_neg]
  · exact hw
  · rintro rfl
    rw [h] at hw
    cases hw

theorem resolvePass_spec {kept : List (String × FuzzValue)} (hnodup : (pending.map (·.1)).Nodup)
    (hfresh : ∀ p ∈ pending, resolved.get? p.1 = none)
    (h : resolvePass rt gen distribution resolved rng pending = .ok (resolved', rng', kept)) :
    Passed rt resolved resolved' pending kept := by
  induction pending generalizing resolved rng kept with
  | nil =>
    cases h
    exact ⟨.slnil, .refl _, by simp, by simp, fun _ _ => rfl⟩
  | cons p pending ih =>
    obtain ⟨name, spec⟩ := p
    rw [map_cons, nodup_cons] at hnodup
    rw [resolvePass] at h
    obtain ⟨⟨value, rng₁⟩, htry, h⟩ := bind_eq_ok.1 h
    have hname : resolved.get? name = none := hfresh _ mem_cons_self
    cases value with
    | some v =>
      have hne : ∀ q ∈ pending, q.1 ≠ name := fun q hq heq =>
        hnodup.1 (mem_map.2 ⟨q, hq, heq⟩)
      have hrest := ih hnodup.2 (fun q hq => by
        rw [Dict.get?_set, if_neg (hne q hq)]
        exact hfresh q (mem_cons_of_mem _ hq)) h
      have hset := sub_set v hname
      have hv : resolved'.get? name = some v :=
        hrest.sub name v (by rw [Dict.get?_set, if_pos rfl])
      refine ⟨hrest.left.cons _, hset.trans hrest.sub, hrest.fresh, fun q hq hkept => ?_,
        fun id hid => ?_⟩
      · rcases mem_cons.1 hq with rfl | hq
        · refine ⟨by rw [hv]; rfl, fun body hbody => ?_⟩
          obtain ⟨expr, rfl, heval⟩ := tryResolve_derives hbody htry
          obtain ⟨e, he, hnode⟩ := safeEval_ok.1 heval
          exact ⟨expr, v, rfl, hv, safeEval_ok.2 ⟨e, he,
            evalNode_extends e (fun id _ => (hset.trans hrest.sub) id) hnode⟩⟩
        · exact hrest.bound q hq hkept
      · rw [map_cons, mem_cons, not_or] at hid
        rw [hrest.others id hid.2, Dict.get?_set, if_neg hid.1]
    | none =>
      obtain ⟨⟨resolved₁, rng₂, kept₁⟩, hpass, h⟩ := bind_eq_ok.1 h
      cases h
      have hrest := ih hnodup.2 (fun q hq => hfresh q (mem_cons_of_mem _ hq)) hpass
      refine ⟨hrest.left.cons_cons _, hrest.sub, fun q hq => ?_, fun q hq hkept => ?_,
        fun id hid => ?_⟩
      · rcases mem_cons.1 hq with rfl | hq
        · rw [hrest.others _ hnodup.1, hname]
        · exact hrest.fresh q hq
      · rw [mem_cons, not_or] at hkept
        exact hrest.bound q ((mem_cons.1 hq).resolve_left hkept.1) hkept.2
      · rw [map_cons, mem_cons, not_or] at hid
        exact hrest.others id hid.2

/-- The passes bind everything that is pending. -/
theorem resolveRounds_spec {fuel : ℕ} (hnodup : (pending.map (·.1)).Nodup)
    (hfresh : ∀ p ∈ pending, resolved.get? p.1 = none)
    (h : resolveRounds rt gen distribution resolved rng fuel pending = .ok (resolved', rng')) :
    Passed rt resolved resolved' pending [] := by
  induction fuel generalizing resolved rng pending with
  | zero =>
    cases pending with
    | nil =>
      cases h
      exact ⟨.slnil, .refl _, by simp, by simp, fun _ _ => rfl⟩
    | cons p pending => cases h
  | succ fuel ih =>
    cases pending with
    | nil =>
      cases h
      exact ⟨.slnil, .refl _, by simp, by simp, fun _ _ => rfl⟩
    | cons p pending =>
      simp only [resolveRounds] at h
      obtain ⟨⟨resolved₁, rng₁, kept⟩, hpass, h⟩ := bind_eq_ok.1 h
      dsimp only at h
      split at h
      next =>
        have hone := resolvePass_spec hnodup hfresh hpass
        have hmore := ih (hnodup.sublist (hone.left.map _)) hone.fresh h
        refine ⟨nil_sublist _, hone.sub.trans hmore.sub, by simp, fun q hq _ => ?_,
          fun id hid => ?_⟩
        · by_cases hkept : q ∈ kept
          · exact hmore.bound q hkept (by simp)
          · obtain ⟨hsome, hderives⟩ := hone.bound q hq hkept
            obtain ⟨v, hv⟩ := isSome_iff_exists.1 hsome
            exact ⟨by rw [hmore.sub _ v hv]; rfl, hderives.mono hmore.sub⟩
        · rw [hmore.others id fun hkept => hid ((hone.left.map _).subset hkept),
            hone.others id hid]
      next => cases h

/-- What a draw binds beside the names already bound. -/
theorem drawWith_spec {fuzzed fixed drawn : Params}
    (h : drawWith rt gen distribution fuzzed fixed rng = .ok drawn) :
    Sub fixed drawn ∧ (∀ id, id ∉ fuzzed.keys → drawn.get? id = fixed.get? id) ∧
      ∀ p ∈ fuzzed.items, p.1 ∉ fixed.keys → Derives rt drawn p.1 p.2 := by
  obtain ⟨⟨sizes, rng₁⟩, hsizes, h⟩ := bind_eq_ok.1 h
  cases h
  unfold resolveSizes at hsizes
  obtain ⟨⟨resolved, rng₂⟩, hrounds, hsizes⟩ := bind_eq_ok.1 hsizes
  obtain ⟨sizes', hmap, hsizes⟩ := bind_eq_ok.1 hsizes
  cases hsizes
  have hsub : (fuzzed.items.filter fun p => p.1 ∉ fixed.keys).Sublist fuzzed.items :=
    filter_sublist
  have hnodup := fuzzed.nodup.sublist (hsub.map (·.1))
  have hspec := resolveRounds_spec hnodup (fun p hp => Dict.notMem_keys.1
    (of_decide_eq_true (mem_filter.1 hp).2)) hrounds
  -- each size returned is the resolved one
  rw [mapM_eq_ok] at hmap
  have hkeys : sizes.map (·.1) = (fuzzed.items.filter fun p => p.1 ∉ fixed.keys).map (·.1) := by
    refine (map_eq_map_of_forall₂ (hmap.imp fun p q hpq => ?_)).symm
    obtain ⟨v, -, hq⟩ := bind_eq_ok.1 hpq
    cases hq
    rfl
  have hvalue : ∀ q ∈ sizes, resolved.get? q.1 = some q.2 := by
    intro q hq
    obtain ⟨p, -, hpq⟩ := exists_of_mem_forall₂ hmap hq
    obtain ⟨v, hv, hq⟩ := bind_eq_ok.1 hpq
    cases hq
    cases hget : resolved.get? p.1 with
    | none =>
      rw [hget] at hv
      cases hv
    | some w =>
      rw [hget] at hv
      cases hv
      rfl
  have hget : ∀ id, (fixed.update sizes).get? id = resolved.get? id := by
    intro id
    rw [Dict.get?_update (hkeys ▸ hnodup)]
    cases hl : sizes.lookup id with
    | some v =>
      obtain ⟨l₁, l₂, rfl, -⟩ := lookup_eq_some_iff.1 hl
      exact (hvalue (id, v) (by simp)).symm
    | none =>
      rw [none_or, hspec.others id]
      rw [← hkeys]
      intro hid
      obtain ⟨q, hq, rfl⟩ := mem_map.1 hid
      simpa using lookup_eq_none_iff.1 hl q hq
  have hsub' : Sub resolved (fixed.update sizes) := fun id v hv => (hget id).trans hv
  refine ⟨hspec.sub.trans hsub', fun id hid => ?_, fun p hp hfixed => ?_⟩
  · rw [hget, hspec.others id fun hmem => hid ((hsub.map (·.1)).subset hmem)]
  · exact (hspec.bound p (mem_filter.2 ⟨hp, by simpa using hfixed⟩) (by simp)).2.mono hsub'

end Resolve

/-! ### The snap -/

/-- An integer rounded down to a multiple, at least the modulus. -/
def snapTo (quantum : ℕ) (value : FuzzValue) : FuzzValue :=
  match value.plainInt? with
  | some z => .int (max quantum (z - z % quantum))
  | none => value

/-- What one constraint makes of the value of a name. -/
def snapValue (rt : Runtime) (name : String) (value : FuzzValue) (constraint : String) :
    FuzzValue :=
  match divisibility? rt constraint with
  | some (n, quantum) => if name = n then snapTo quantum value else value
  | none => value

/-- What the snap makes of the value of a name. -/
def snapAt (rt : Runtime) (constraints : List String) (name : String) (value : FuzzValue) :
    FuzzValue :=
  constraints.foldl (snapValue rt name) value

theorem snapOne_get? {constraint : String} (h : snapOne rt out constraint = .ok out')
    (name : String) :
    out'.get? name = (out.get? name).map (snapValue rt name · constraint) := by
  unfold snapOne at h
  unfold snapValue
  cases hdiv : divisibility? rt constraint with
  | none =>
    rw [hdiv] at h
    cases h
    simp
  | some nq =>
    obtain ⟨n, quantum⟩ := nq
    rw [hdiv] at h
    dsimp only at h ⊢
    cases hplain : (out.get? n).bind FuzzValue.plainInt? with
    | none =>
      rw [hplain] at h
      cases h
      split
      next hn =>
        subst hn
        cases hv : out.get? name with
        | none => rfl
        | some v =>
          rw [hv, bind_some] at hplain
          simp [snapTo, hplain]
      next => simp
    | some z =>
      rw [hplain] at h
      obtain ⟨v, hv, hz⟩ := bind_eq_some_iff.1 hplain
      dsimp only at h
      split at h
      next => cases h
      next =>
        cases h
        rw [Dict.get?_set]
        split
        next hn =>
          subst hn
          simp [hv, snapTo, hz]
        next => simp

/-- The snap works on each name apart. -/
theorem snapDivisible_get? (h : snapDivisible rt out constraints = .ok out') (name : String) :
    out'.get? name = (out.get? name).map (snapAt rt constraints name) := by
  induction constraints generalizing out with
  | nil =>
    cases h
    cases out'.get? name <;> rfl
  | cons c constraints ih =>
    rw [snapDivisible, foldlM_cons] at h
    obtain ⟨out₁, hone, h⟩ := bind_eq_ok.1 h
    rw [ih h, snapOne_get? hone, Option.map_map]
    rfl

/-- The snap leaves the value of a name. -/
def SnapLeaves (rt : Runtime) (constraints : List String) (out : Params) (name : String) : Prop :=
  ∀ v, out.get? name = some v → snapAt rt constraints name v = v

theorem keeps_of_snapLeaves {ids : List String} (h : snapDivisible rt out constraints = .ok out')
    (hleaves : ∀ id ∈ ids, SnapLeaves rt constraints out id) : Keeps ids out out' := by
  intro id hid v hv
  rw [snapDivisible_get? h, hv, map_some, hleaves id hid v hv]

/-- The names the expression of a derived parameter reads. -/
def deriveReads (rt : Runtime) (spec : FuzzValue) : List String :=
  match spec.derive? with
  | some (.str expr) =>
    match rt.parse expr with
    | .ok e => e.reads
    | .error _ => []
  | _ => []

/-- A derived size stays derived where neither it nor what it reads changes. -/
theorem Derives.keeps (h : Derives rt m name spec) (hname : spec.derive?.isSome → Keeps [name] m m')
    (hreads : Keeps (deriveReads rt spec) m m') : Derives rt m' name spec := by
  intro body hbody
  obtain ⟨expr, v, rfl, hv, heval⟩ := h body hbody
  obtain ⟨e, he, hnode⟩ := safeEval_ok.1 heval
  have hids : deriveReads rt spec = e.reads := by simp [deriveReads, hbody, he]
  exact ⟨expr, v, rfl, hname (by rw [hbody]; rfl) name mem_cons_self v hv,
    safeEval_ok.2 ⟨e, he, evalNode_extends e (hids ▸ hreads) hnode⟩⟩

/-! ### The class -/

section Class

variable {ρ : Type} {rt : Runtime} {gen : Generator ρ}
variable {sizeClass : SizeClass} {fuzzed out : Params} {constraints : List String}

/-- Every derived parameter of a table has its expression's value. -/
def Consistent (rt : Runtime) (fuzzed out : Params) : Prop :=
  ∀ p ∈ fuzzed.items, Derives rt out p.1 p.2

theorem moveTo_rangeOf {spec : FuzzValue} {value : Option FuzzValue} {z : ℤ}
    (h : moveTo sizeClass spec value = .ok (some z)) : spec.rangeOf.isSome = true := by
  unfold moveTo at h
  split at h
  next lo hi z hrange _ =>
    rw [hrange]
    rfl
  next => cases h

/-- A size that moves is followed by the derived ones. -/
theorem classOne_derives {out' : Params} {p : String × FuzzValue}
    (hrange : ∀ p ∈ fuzzed.items, p.2.derive?.isSome → p.2.rangeOf = none) (hp : p ∈ fuzzed.items)
    (h : classOne rt gen (fuzzed.filter fun p => p.2.derive?.isSome) sizeClass constraints out p =
      .ok out') (hout : Consistent rt fuzzed out) : Consistent rt fuzzed out' := by
  obtain ⟨move, hmove, h⟩ := bind_eq_ok.1 h
  cases move with
  | none =>
    cases h
    exact hout
  | some snapped =>
    have hmoves := moveTo_rangeOf hmove
    obtain ⟨rng, -, h⟩ := bind_eq_ok.1 h
    obtain ⟨⟨sizes, rng'⟩, hsizes, h⟩ := bind_eq_ok.1 h
    obtain ⟨b, -, h⟩ := bind_eq_ok.1 h
    split at h
    next =>
      cases h
      have hdraw := drawWith_spec (bind_eq_ok.2 ⟨_, hsizes, rfl⟩ : drawWith rt gen .uniform _ _ _ =
        .ok _)
      intro q hq
      cases hbody : q.2.derive? with
      | none =>
        intro body hb
        rw [hbody] at hb
        cases hb
      | some body =>
        -- a derived name is not among the names bound before the derivation
        have hkeep : q.2.derive?.isSome = true := by rw [hbody]; rfl
        refine hdraw.2.2 q (mem_filter.2 ⟨hq, hkeep⟩) fun hmem => ?_
        rcases Dict.mem_keys_set.1 hmem with hname | hmem
        · have hpq : p = q := inj_on_of_nodup_map fuzzed.nodup hp hq hname.symm
          rw [hpq, hrange q hq hkeep] at hmoves
          cases hmoves
        · obtain ⟨r, hr, hrq⟩ := mem_map.1 hmem
          refine of_decide_eq_true (mem_filter.1 hr).2 ?_
          rw [hrq]
          exact mem_map_of_mem (mem_filter.2 ⟨hq, hkeep⟩)
    next =>
      cases h
      exact hout

theorem applySizeClass_derives {drawn : Params}
    (hrange : ∀ p ∈ fuzzed.items, p.2.derive?.isSome → p.2.rangeOf = none)
    (h : applySizeClass rt gen fuzzed drawn sizeClass constraints = .ok out)
    (hdrawn : Consistent rt fuzzed drawn) : Consistent rt fuzzed out :=
  foldlM_inv (fun _ hp _ _ hout hone => classOne_derives hrange hp hone hout) hdrawn h

end Class

/-! ### The intervals of a table -/

/-- A derived parameter is a mapping. -/
theorem exists_map_of_derive (h : value.derive? = some body) :
    ∃ items, value = .map items ∧ items.lookup "derive" = some body := by
  cases value with
  | map items => exact ⟨items, rfl, h⟩
  | bool b => cases h
  | num n => cases h
  | str s => cases h
  | seq l => cases h

theorem capOne_derive {cap : ℤ} {value' : FuzzValue} (hbody : value.derive? = some body)
    (h : capOne cap value = .ok value') : value'.derive? = some body := by
  obtain ⟨items, rfl, hitems⟩ := exists_map_of_derive hbody
  unfold capOne at h
  split at h
  next lo hi hrange =>
    obtain ⟨lo, -, h⟩ := bind_eq_ok.1 h
    obtain ⟨hi, -, h⟩ := bind_eq_ok.1 h
    cases h
    simp [FuzzValue.range?, withInterval, FuzzValue.derive?, FuzzValue.get?, lookup_setItem, hitems]
  next =>
    cases h
    exact hbody

theorem spread_derive (hbody : value.derive? = some body) :
    spread settings parameters configNames name value = value := by
  obtain ⟨items, rfl, -⟩ := exists_map_of_derive hbody
  simp [spread, FuzzValue.anyInt?]

theorem applySizeCap_derive {ranges : Params} {cap : Option ℤ}
    (hspec : ranges.get? name = some spec) (hbody : spec.derive? = some body)
    (h : applySizeCap settings ranges cap configNames = .ok fuzzed) :
    ∃ spec', (name, spec') ∈ fuzzed.items ∧ spec'.derive? = some body := by
  unfold applySizeCap at h
  dsimp only at h
  split at h
  next =>
    cases h
    exact ⟨spec, Dict.mem_items.2 hspec, hbody⟩
  next =>
    obtain ⟨spec', hone, hget⟩ := (Dict.foldlM_set_spec ranges.nodup h).1 _
      (Dict.mem_items.2 hspec)
    refine ⟨spec', Dict.mem_items.2 hget, ?_⟩
    unfold capItem at hone
    split at hone
    next =>
      cases hone
      exact hbody
    next => exact capOne_derive hbody hone

/-- What a table declares as derived, its ranges declare too. -/
theorem resolveRanges_derive {declared : Params} {sizeCap : Option ℤ} {p : String × FuzzValue}
    (hdeclared : declaredPreset settings parameters = .ok declared)
    (h : resolveRanges settings parameters sizeCap configNames = .ok fuzzed)
    (hp : p ∈ declared.items) (hbody : p.2.derive? = some body) :
    ∃ spec', (p.1, spec') ∈ fuzzed.items ∧ spec'.derive? = some body := by
  unfold resolveRanges at h
  rw [hdeclared] at h
  obtain ⟨base, hbase, h⟩ := bind_eq_ok.1 h
  cases hbase
  have hspec : declared.get? p.1 = some p.2 := Dict.mem_items.1 hp
  split at h
  next => exact applySizeCap_derive hspec hbody h
  next =>
    have hspread : (declared.mapValues (spread settings parameters configNames)).get? p.1 =
        some p.2 := by
      rw [Dict.get?_mapValues, hspec, map_some, spread_derive hbody]
    exact applySizeCap_derive hspread hbody h

/-! ### Samples -/

/-- A sample is the one of some attempt. -/
theorem tryAttempts_ok {attempt : ℕ → Except Err (Option Params)} {exhausted : Err} {l : List ℕ}
    (h : tryAttempts attempt exhausted l = .ok out) :
    ∃ i ∈ l, attempt i = .ok (some out) := by
  induction l with
  | nil => cases h
  | cons i l ih =>
    rw [tryAttempts] at h
    obtain ⟨result, hresult, h⟩ := bind_eq_ok.1 h
    cases result with
    | some out' =>
      cases h
      exact ⟨i, mem_cons_self, hresult⟩
    | none =>
      obtain ⟨j, hj, hattempt⟩ := ih h
      exact ⟨j, mem_cons_of_mem _ hj, hattempt⟩

/-- Every constraint is true of a parameter map. -/
def Satisfies (rt : Runtime) (out : Params) (constraints : List String) : Prop :=
  ∀ c ∈ constraints, ∃ v, safeEval rt out c = .ok v ∧ v.truthy = true

theorem constraintsHold_iff :
    constraintsHold rt out constraints = .ok true ↔ Satisfies rt out constraints := by
  induction constraints with
  | nil => simp [constraintsHold, Satisfies]
  | cons c constraints ih =>
    rw [constraintsHold, bind_eq_ok, Satisfies, forall_mem_cons, ← Satisfies, ← ih]
    constructor
    · rintro ⟨v, hv, h⟩
      split at h
      next htrue => exact ⟨⟨v, hv, htrue⟩, h⟩
      next => cases h
    · rintro ⟨⟨v, hv, htrue⟩, h⟩
      exact ⟨v, hv, by rw [if_pos htrue, h]⟩

/-- A draw the snap leaves derived: a derived name bound before the draw has its expression's
value, and the snap leaves every derived size and every size that one reads. -/
structure Undisturbed (rt : Runtime) (fuzzed fixed : Params) (constraints : List String)
    (drawn : Params) : Prop where
  bound : ∀ p ∈ fuzzed.items, p.1 ∈ fixed.keys → Derives rt drawn p.1 p.2
  derived : ∀ p ∈ fuzzed.items, p.2.derive?.isSome → SnapLeaves rt constraints drawn p.1
  reads : ∀ p ∈ fuzzed.items, ∀ id ∈ deriveReads rt p.2, SnapLeaves rt constraints drawn id

section Sample

variable {ρ : Type} {rt : Runtime} {gen : Generator ρ} {settings : Settings}

variable {distribution : SizeDistribution} {fuzzed fixed out : Params} {constraints : List String}
variable {seed : ℤ} {k : ℕ}

theorem snapped_consistent {drawn : Params} {rng : ρ}
    (hdraw : drawWith rt gen distribution fuzzed fixed rng = .ok drawn)
    (hsnap : snapDivisible rt drawn constraints = .ok out)
    (hdrawn : Undisturbed rt fuzzed fixed constraints drawn) : Consistent rt fuzzed out := by
  intro p hp
  have hderives : Derives rt drawn p.1 p.2 := by
    by_cases hfixed : p.1 ∈ fixed.keys
    · exact hdrawn.bound p hp hfixed
    · exact (drawWith_spec hdraw).2.2 p hp hfixed
  refine hderives.keeps (fun hkeep => keeps_of_snapLeaves hsnap fun id hid => ?_)
    (keeps_of_snapLeaves hsnap (hdrawn.reads p hp))
  rw [mem_singleton.1 hid]
  exact hdrawn.derived p hp hkeep

theorem attemptAgainst_spec {exclude : List Params} {sizeClass : Option SizeClass}
    (h : attemptAgainst rt gen distribution fuzzed fixed seed constraints exclude sizeClass k =
      .ok (some out)) :
    Satisfies rt out constraints ∧ ∃ drawn snapped,
      drawAgainst rt gen distribution fuzzed fixed seed k = .ok drawn ∧
      snapDivisible rt drawn constraints = .ok snapped ∧
      applyClass rt gen fuzzed snapped constraints sizeClass = .ok out := by
  obtain ⟨drawn, hdrawn, h⟩ := bind_eq_ok.1 h
  obtain ⟨snapped, hsnap, h⟩ := bind_eq_ok.1 h
  obtain ⟨out', hout, h⟩ := bind_eq_ok.1 h
  split at h
  next => cases h
  next =>
    obtain ⟨b, hb, h⟩ := bind_eq_ok.1 h
    split at h
    next htrue =>
      cases h
      exact ⟨constraintsHold_iff.1 (htrue ▸ hb), drawn, snapped, hdrawn, hsnap, hout⟩
    next => cases h

theorem attemptSample_spec {configs : List Params}
    (h : attemptSample rt gen settings fuzzed configs seed constraints k = .ok (some out)) :
    Satisfies rt out constraints ∧ ∃ config drawn,
      drawSample rt gen settings fuzzed configs seed k = .ok (config, drawn) ∧
      snapDivisible rt drawn constraints = .ok out := by
  obtain ⟨⟨config, drawn⟩, hdrawn, h⟩ := bind_eq_ok.1 h
  obtain ⟨snapped, hsnap, h⟩ := bind_eq_ok.1 h
  obtain ⟨b, hb, h⟩ := bind_eq_ok.1 h
  split at h
  next htrue =>
    cases h
    exact ⟨constraintsHold_iff.1 (htrue ▸ hb), config, drawn, hdrawn, hsnap⟩
  next => cases h

end Sample

/-! ### A table with a derived size -/

/-- A runtime that parses two expressions. -/
def doublingRuntime : Runtime where
  int _ := .error .overflow
  float _ := .error .overflow
  repr _ := ""
  parse expr :=
    if expr = "2 * N" then .ok (.binOp .mult (.constant (.int 2)) (.name "N"))
    else if expr = "N % 8 == 0" then
      .ok (.compare (.binOp .mod (.name "N") (.constant (.int 8))) [.eq] [.constant (.int 0)])
    else .error .syntaxError
  arith _ _ _ := .error .syntaxError
  neg x := x
  abs x := x
  round _ := .error .syntaxError
  roundTo x _ := .ok x
  toFloat _ := .error .syntaxError
  isWord c := c.isAlphanum || c = '_'
  digit? c := if c.isDigit then some (c.toNat - '0'.toNat) else none

/-- A generator that draws the lower bound. -/
def lowestGenerator : Generator Unit where
  seeded _ := .ok ()
  integers rng _ := (0, rng)
  uniform rng lo _ := (lo, rng)
  logUniform rng lo _ := (lo, rng)

/-- Settings without a cap. -/
def uncappedSettings : Settings := ⟨0, "XL", .uniform, id, id⟩

/-- A fuzzed preset of `N` and its double `M`. -/
def doubledPreset (n : ℤ) : Params :=
  ⟨[("N", .int n), ("M", .map [("derive", .str "2 * N")])], by simp⟩

def doubledTable (n : ℤ) : ParameterTable := ⟨[("fuzzed", doubledPreset n)], by simp⟩

/-- The two sizes of a parameter map. -/
def doubledSizes (out : Params) : Option ℤ × Option ℤ :=
  ((out.get? "N").bind FuzzValue.plainInt?, (out.get? "M").bind FuzzValue.plainInt?)

theorem eq_int_of_plainInt {v : Option FuzzValue} {z : ℤ}
    (h : v.bind FuzzValue.plainInt? = some z) : v = some (.int z) := by
  obtain ⟨w, rfl, hw⟩ := bind_eq_some_iff.1 h
  cases w with
  | num n =>
    cases n with
    | int z' =>
      cases hw
      rfl
    | float bits => cases hw
  | bool b => cases hw
  | str s => cases hw
  | seq l => cases hw
  | map items => cases hw

theorem safeEval_double {n : ℤ} (h : out.get? "N" = some (.int n)) :
    safeEval doublingRuntime out "2 * N" = .ok (.int (2 * n)) := by
  have hparse : doublingRuntime.parse "2 * N" =
      .ok (.binOp .mult (.constant (.int 2)) (.name "N")) := by
    simp [doublingRuntime]
  refine safeEval_ok.2 ⟨_, hparse, ?_⟩
  rw [evalNode, evalNode, evalNode, h]
  rfl

theorem snapAt_eight :
    snapAt doublingRuntime ["N % 8 == 0"] name value =
      if name = "N" then snapTo 8 value else value := by
  have hdiv : divisibility? doublingRuntime "N % 8 == 0" = some ("N", 8) := by decide
  simp [snapAt, snapValue, hdiv]

end Fuzz

end HpcAgentBench
