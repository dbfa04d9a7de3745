import HpcAgentBench.Translate.Ssa

/-!
# Versions are what the reads see

The run of a renamed body follows that of the body: where the versions are kept, every name that is
read later has in one run what its current version has in the other (`Sees`).

## Main results

* `walk_sim` : the statements the walk returns follow those of the body.
* `ssa_rename_sound` : the renamed body computes what the body does.
-/

namespace HpcAgentBench

open List Option

namespace Translate

/-! ### Names of versions -/

/-- A name, or a name made for one of its shapes. -/
def IsVersion (x n : String) : Prop := n = x ∨ ∃ k : ℕ, n = x ++ "__v" ++ toString k

/-- What precedes the last letter that is no digit. -/
theorem append_digits_inj {a b ds es : List Char} {c : Char} (hc : c.isDigit = false)
    (hds : ∀ d ∈ ds, d.isDigit = true) (hes : ∀ d ∈ es, d.isDigit = true)
    (h : a ++ c :: ds = b ++ c :: es) : a = b := by
  have hnot : ∀ {l : List Char}, (∀ d ∈ l, d.isDigit = true) → c ∉ l := fun hl hmem => by
    rw [hl c hmem] at hc
    cases hc
  rcases append_eq_append_iff.1 h with ⟨as, hb, has⟩ | ⟨bs, ha, hbs⟩
  · cases as with
    | nil => simpa using hb.symm
    | cons d as =>
      rw [cons_append, List.cons.injEq] at has
      exact absurd (has.2 ▸ mem_append_right as mem_cons_self) (hnot hds)
  · cases bs with
    | nil => simpa using ha
    | cons d bs =>
      rw [cons_append, List.cons.injEq] at hbs
      exact absurd (hbs.2 ▸ mem_append_right bs mem_cons_self) (hnot hes)

/-- Versions of two names of a body are different. -/
theorem version_inj {N : List String} (hN : OwnNames N) {x y n : String} (hx : x ∈ N)
    (hy : y ∈ N) (h : IsVersion x n) (h' : IsVersion y n) : x = y := by
  rcases h with rfl | ⟨k, rfl⟩
  · rcases h' with h' | ⟨j, h'⟩
    · exact h'
    · exact absurd h' (hN y hy n hx j)
  · rcases h' with h' | ⟨j, h'⟩
    · exact absurd h'.symm (hN x hx y hy k)
    · have hlist := congrArg String.toList h'
      simp only [String.toList_append, append_assoc] at hlist
      have hv : ("__v" : String).toList = ['_', '_', 'v'] := rfl
      rw [hv] at hlist
      have hcut := append_digits_inj (a := x.toList ++ ['_', '_']) (b := y.toList ++ ['_', '_'])
        (c := 'v') (by decide) digits_of_toString digits_of_toString (by simpa using hlist)
      exact String.toList_inj.1 (append_cancel_right hcut)

/-- A map from names to their versions. -/
def IsVersionMap (ρ : String → String) : Prop := ∀ x, IsVersion x (ρ x)

/-- The versions a state has recorded are versions. -/
def VersionsOk (st : SsaRenamer) : Prop := ∀ x, ∀ p ∈ st.version x, IsVersion x p.2

section Rebind

variable {P : Extents}
variable {versions : List (List String × String)} {x n : String} {toks : List String}
variable {before : Code} {scope : SsaScope}

theorem isVersion_of_lookup (h : ∀ p ∈ versions, IsVersion x p.2)
    (hn : versions.lookup toks = some n) : IsVersion x n := by
  induction versions with
  | nil => cases hn
  | cons p versions ih =>
    rw [lookup_cons] at hn
    split at hn
    · obtain rfl := some.inj hn
      exact h p mem_cons_self
    · exact ih (fun q hq => h q (mem_cons_of_mem _ hq)) hn

theorem isVersion_of_equalExtent {pin : Pin} {shapes : Shapes} (h : ∀ p ∈ versions, IsVersion x p.2)
    {r : String × Bool} (hr : equalExtentVersion P versions toks pin shapes = some r) :
    IsVersion x r.1 := by
  obtain ⟨p, hp, hr⟩ := exists_of_findSome?_eq_some hr
  simp only at hr
  split at hr
  · cases hr
  split at hr
  · obtain rfl := some.inj hr
    exact h p hp
  split at hr
  · obtain rfl := some.inj hr
    exact h p hp
  · cases hr

theorem isVersion_of_mint (h : mint before x versions scope = some n) : IsVersion x n := by
  unfold mint at h
  split at h
  · exact .inl (some.inj h).symm
  · simp only at h
    split at h
    · cases h
    · exact .inr ⟨_, (some.inj h).symm⟩

/-- What a binding of a name does: the name takes one of its versions, and only its place in the map
changes. -/
theorem rebind_spec {orig : String} {value : Expr} {ρ : String → String} {st : SsaRenamer}
    (hst : VersionsOk st) {b : String × (String → String) × SsaRenamer}
    (h : rebind P orig value before ρ scope st = some b) :
    IsVersion orig b.1 ∧ VersionsOk b.2.2 ∧
      (b.2.1 = Function.update ρ orig b.1 ∨ b.2.1 = ρ ∧ b.1 = orig) := by
  unfold rebind at h
  simp only at h
  split at h
  · obtain rfl := some.inj h
    exact ⟨.inl rfl, hst, .inr ⟨rfl, rfl⟩⟩
  rename_i ext _
  obtain ⟨⟨n, merged⟩, hn, rfl⟩ := map_eq_some_iff.1 h
  have hversion : IsVersion orig n := by
    rcases hknown : ((st.version orig).lookup _).map (·, false) with _ | known
    · rw [hknown, orElse_none] at hn
      rcases hequal : equalExtentVersion P _ _ _ _ with _ | equal
      · rw [hequal, orElse_none] at hn
        obtain ⟨m, hm, hpair⟩ := map_eq_some_iff.1 hn
        obtain ⟨rfl, -⟩ := Prod.mk.inj hpair
        exact isVersion_of_mint hm
      · rw [hequal, orElse_some] at hn
        obtain rfl := some.inj hn
        exact isVersion_of_equalExtent (hst orig) hequal
    · rw [hknown, orElse_some] at hn
      obtain rfl : known = (n, merged) := by simpa using hn
      obtain ⟨m, hm, hpair⟩ := map_eq_some_iff.1 hknown
      obtain ⟨rfl, -⟩ := Prod.mk.inj hpair
      exact isVersion_of_lookup (hst orig) hm
  have hok : ∀ toks x, ∀ p ∈ Function.update st.version orig
      (if ((st.version orig).lookup toks).isSome then st.version orig
        else st.version orig ++ [(toks, n)]) x, IsVersion x p.2 := by
    intro toks x p hp
    by_cases hx : x = orig
    · subst hx
      rw [Function.update_self] at hp
      split at hp
      · exact hst x p hp
      · rcases mem_append.1 hp with hp | hp
        · exact hst x p hp
        · obtain rfl := mem_singleton.1 hp
          exact hversion
    · rw [Function.update_of_ne hx] at hp
      exact hst x p hp
  refine ⟨hversion, ?_, .inl rfl⟩
  intro x p hp
  simp only [apply_ite SsaRenamer.version, ite_self] at hp
  exact hok (ext.map P.unparse) x p hp

end Rebind

/-! ### Live names -/

variable {out out' more : List String}

theorem Pattern.liveIn_append {p : Pattern} (h : out ⊆ out' ++ more) :
    p.liveIn out ⊆ p.liveIn out' ++ more := by
  intro x hx
  rcases mem_append.1 hx with hx | hx
  · exact mem_append_left _ (mem_append_left _ hx)
  · obtain ⟨hout, hbinds⟩ := mem_filter.1 hx
    rcases mem_append.1 (h hout) with hout | hmore
    · exact mem_append_left _ (mem_append_right _ (mem_filter.2 ⟨hout, hbinds⟩))
    · exact mem_append_right _ hmore

theorem foldr_liveIn_append (targets : List Pattern) (h : out ⊆ out' ++ more) :
    targets.foldr Pattern.liveIn out ⊆ targets.foldr Pattern.liveIn out' ++ more := by
  induction targets with
  | nil => exact h
  | cons t ts ih => exact Pattern.liveIn_append ih

/-- More names that are read at the end of a list are at most those more at its start. -/
theorem Code.liveIn_append (c : Code) (out out' : LiveOut) (hnext : out.next ⊆ out'.next ++ more)
    (hbrk : out.brk ⊆ out'.brk ++ more) (hcont : out.cont ⊆ out'.cont ++ more) :
    c.liveIn out ⊆ c.liveIn out' ++ more := by
  induction c generalizing out out' with
  | done => exact hnext
  | assign targets value rest ih =>
    have htargets := foldr_liveIn_append targets (ih out out' hnext hbrk hcont)
    simp only [liveIn]
    grind
  | augAssign target op value rest ih | expr value rest ih =>
    have hrest := ih out out' hnext hbrk hcont
    simp only [liveIn]
    grind
  | ifElse test body orelse rest ihb iho ih =>
    have hrest := ih out out' hnext hbrk hcont
    have hbody := ihb { out with next := rest.liveIn out }
      { out' with next := rest.liveIn out' } hrest hbrk hcont
    have horelse := iho { out with next := rest.liveIn out }
      { out' with next := rest.liveIn out' } hrest hbrk hcont
    simp only [liveIn]
    grind
  | forIn target iter body orelse rest _ iho ih | whileDo test body orelse rest _ iho ih =>
    have hrest := ih out out' hnext hbrk hcont
    have horelse := iho { out with next := rest.liveIn out }
      { out' with next := rest.liveIn out' } hrest hbrk hcont
    simp only [liveIn]
    grind
  | ret value rest => exact subset_append_left _ _
  | brk rest => exact hbrk
  | cont rest => exact hcont

/-- A list of statements that ends at its last one falls through. -/
theorem falls_of_next {V H : Type} {O : Objects V H} {fuel : ℕ} {c : Code}
    {f g : Activation V H} (h : runCode O fuel c f = some (g, .next)) : c.falls = true := by
  have hand : ∀ {r : Activation V H × Exit V} {k g}, andThen r k = some (g, Exit.next) →
      ∃ f', r = (f', .next) ∧ k f' = some (g, .next) := by
    rintro ⟨f', exit⟩ k g h
    cases exit <;> first | exact ⟨f', rfl, h⟩ | cases h
  have hloop : ∀ {r : Activation V H × Exit V} {o k g}, afterLoop r o k = some (g, Exit.next) →
      ∃ f', k f' = some (g, .next) := by
    rintro ⟨f', exit⟩ o k g h
    cases exit with
    | next | cont =>
      obtain ⟨s, -, h⟩ := bind_eq_some_iff.1 h
      obtain ⟨f', -, hk⟩ := hand h
      exact ⟨f', hk⟩
    | brk => exact ⟨f', h⟩
    | ret v => cases h
  induction c generalizing f g with
  | done => rfl
  | assign targets value rest ih =>
    obtain ⟨p, -, h⟩ := bind_eq_some_iff.1 h
    obtain ⟨f', -, h⟩ := bind_eq_some_iff.1 h
    exact ih h
  | augAssign target op value rest ih =>
    obtain ⟨f', -, h⟩ := bind_eq_some_iff.1 h
    exact ih h
  | expr value rest ih =>
    obtain ⟨p, -, h⟩ := bind_eq_some_iff.1 h
    exact ih h
  | ifElse test body orelse rest ihb iho ih =>
    obtain ⟨c, -, h⟩ := bind_eq_some_iff.1 h
    obtain ⟨r, hr, h⟩ := bind_eq_some_iff.1 h
    obtain ⟨f', rfl, hrest⟩ := hand h
    simp only [Code.falls, Bool.and_eq_true, Bool.or_eq_true]
    refine ⟨?_, ih hrest⟩
    split at hr
    · exact .inl (ihb hr)
    · exact .inr (iho hr)
  | forIn target iter body orelse rest _ _ ih =>
    obtain ⟨p, -, h⟩ := bind_eq_some_iff.1 h
    obtain ⟨q, -, h⟩ := bind_eq_some_iff.1 h
    obtain ⟨r, -, h⟩ := bind_eq_some_iff.1 h
    obtain ⟨f', hrest⟩ := hloop h
    exact ih hrest
  | whileDo test body orelse rest _ _ ih =>
    obtain ⟨r, -, h⟩ := bind_eq_some_iff.1 h
    obtain ⟨f', hrest⟩ := hloop h
    exact ih hrest
  | ret value rest =>
    obtain ⟨p, -, h⟩ := map_eq_some_iff.1 h
    cases h
  | brk rest => cases h
  | cont rest => cases h

/-! ### Two runs -/

section Sees

variable {V H : Type} {O : Objects V H} {N : List String} {ρ ρ' : String → String}
variable {f g : Activation V H} {live : List String}

/-- Two activations where every name that may be read has, in one, what its version has in the
other. -/
structure Sees (N : List String) (ρ : String → String) (live : List String)
    (f g : Activation V H) : Prop where
  heap : f.heap = g.heap
  env : ∀ x ∈ live, x ∈ N → f.env x = g.env (ρ x)

theorem Sees.mono (h : Sees N ρ live f g) {less : List String} (hsub : less ⊆ live) :
    Sees N ρ less f g := ⟨h.heap, fun x hx => h.env x (hsub hx)⟩

theorem Sees.withHeap (h : Sees N ρ live f g) (m : H) :
    Sees N ρ live { f with heap := m } { g with heap := m } := ⟨rfl, h.env⟩

theorem Sees.sameVersions (h : Sees N ρ live f g) (hρ : SameVersions ρ ρ' live) :
    Sees N ρ' live f g := ⟨h.heap, fun x hx hN => by rw [h.env x hx hN, hρ x hx]⟩

variable {e : Expr} {p : Pattern} {v : V}

/-- An expression whose names may be read has one value. -/
theorem Sees.evaluate_eq (h : Sees N ρ live f g) {e : Expr} (hlive : loadNames e ⊆ live)
    (hN : loadNames e ⊆ N) :
    evaluate O f.env e f.heap = evaluate O g.env (e.rename ρ) g.heap := by
  rw [h.heap, evaluate_rename fun x hx => h.env x (hlive hx) (hN hx)]

/-- A name bound, and one of its versions. -/
theorem Sees.bind (hown : OwnNames N) (hρ : IsVersionMap ρ) {x n : String} (hx : x ∈ N)
    (hn : IsVersion x n) (hρ' : ∀ y, y ≠ x → ρ' y = ρ y) (hkept : x ∈ live → ρ' x = n)
    (h : Sees N ρ (live.filter (· ≠ x)) f g) (v : V) :
    Sees N ρ' live (f.bind x v) (g.bind n v) := by
  refine ⟨h.heap, fun y hy hyN => ?_⟩
  by_cases hyx : y = x
  · subst hyx
    rw [hkept hy]
    simp only [Activation.bind, Function.update_self]
  · -- The version of another name is another name.
    have hne : ρ y ≠ n := fun he => hyx (version_inj hown hyN hx (hρ y) (he ▸ hn))
    simp only [Activation.bind, Function.update_of_ne hyx, hρ' y hyx, Function.update_of_ne hne]
    exact h.env y (mem_filter.2 ⟨hy, by simpa using hyx⟩) hyN

variable (hown : OwnNames N) (hρ : IsVersionMap ρ)

include hown hρ

/-- The stores of a target that no version is made for. -/
theorem bindAll_sim {vs : List V} (hkept : p.Kept ρ live) (hbinds : p.binds ⊆ N)
    (hloads : p.loads ⊆ N) (h : Sees N ρ (p.liveIn live) f g) :
    Option.Rel (Sees N ρ live) (bindAll O p vs f) (bindAll O (p.renameLoads ρ) vs g) := by
  induction p generalizing vs f g live with
  | name id =>
    rcases vs with _ | ⟨v, _ | ⟨v', vs⟩⟩
    · exact .none
    · refine .some (Sees.bind hown hρ (hbinds mem_cons_self) (.inl rfl) (fun _ _ => rfl)
        hkept (h.mono ?_) v)
      intro y hy
      simpa [Pattern.liveIn, Pattern.loads, Pattern.binds] using hy
    · exact .none
  | item value slice =>
    rcases vs with _ | ⟨v, _ | ⟨v', vs⟩⟩
    · exact .none
    · have hlive : loadNames value ++ loadNames slice ⊆ (Pattern.item value slice).liveIn live :=
        subset_append_left _ _
      obtain ⟨hlv, hls⟩ := append_subset.1 hlive
      obtain ⟨hNv, hNs⟩ := append_subset.1 hloads
      have hrest : live ⊆ (Pattern.item value slice).liveIn live := by
        intro y hy
        exact mem_append_right _ (mem_filter.2 ⟨hy, by simp [Pattern.binds]⟩)
      simp only [bindAll, Pattern.renameLoads]
      refine rel_bind (rel_eq_iff.2 (h.evaluate_eq hlv hNv)) ?_
      rintro p _ rfl
      have hslice := (h.withHeap p.2).evaluate_eq (O := O) hls hNs
      refine rel_bind (rel_eq_iff.2 hslice) ?_
      rintro q _ rfl
      refine rel_map (rel_eq_iff.2 rfl) ?_
      rintro m _ rfl
      exact (h.mono hrest).withHeap m
    · exact .none
  | unit =>
    cases vs with
    | nil =>
      refine .some (h.mono fun y hy => ?_)
      exact mem_append_right _ (mem_filter.2 ⟨hy, by simp [Pattern.binds]⟩)
    | cons => exact .none
  | pair head tail ihh iht =>
    cases vs with
    | nil => exact .none
    | cons v vs =>
      have htuple : (head.renameLoads ρ).isTuple = head.isTuple := by cases head <;> rfl
      obtain ⟨hbh, hbt⟩ := append_subset.1 hbinds
      obtain ⟨hlh, hlt⟩ := append_subset.1 hloads
      have hhead : Sees N ρ (head.liveIn (tail.liveIn live)) f g := by
        refine h.mono ?_
        simp only [Pattern.liveIn, Pattern.loads, Pattern.binds]
        grind
      simp only [bindAll, Pattern.renameLoads, htuple]
      have hstored : ∀ {vs f g}, Sees N ρ (head.liveIn (tail.liveIn live)) f g →
          Option.Rel (Sees N ρ (tail.liveIn live)) (bindAll O head vs f)
            (bindAll O (head.renameLoads ρ) vs g) :=
        fun h => ihh hkept.1 hbh hlh h
      refine rel_bind (?_ : Option.Rel (Sees N ρ (tail.liveIn live)) _ _)
        fun f' g' h' => iht hkept.2 hbt hlt h'
      split
      · rw [h.heap]
        refine rel_bind (rel_eq_iff.2 rfl) ?_
        rintro p _ rfl
        exact hstored (hhead.withHeap p.2)
      · exact hstored hhead

/-- A store that no version is made for. -/
theorem assignTo_sim (hkept : p.Kept ρ live) (hbinds : p.binds ⊆ N) (hloads : p.loads ⊆ N)
    (h : Sees N ρ (p.liveIn live) f g) :
    Option.Rel (Sees N ρ live) (assignTo O p v f) (assignTo O (p.renameLoads ρ) v g) := by
  have htuple : (p.renameLoads ρ).isTuple = p.isTuple := by cases p <;> rfl
  simp only [assignTo, htuple]
  split
  · rw [h.heap]
    refine rel_bind (rel_eq_iff.2 rfl) ?_
    rintro q _ rfl
    exact bindAll_sim hown hρ hkept hbinds hloads (h.withHeap q.2)
  · exact bindAll_sim hown hρ hkept hbinds hloads h

theorem targets_sim {targets : List Pattern} (hkept : TargetsKept ρ targets live)
    (hbinds : targets.flatMap Pattern.binds ⊆ N) (hloads : targets.flatMap Pattern.loads ⊆ N)
    (h : Sees N ρ (targets.foldr Pattern.liveIn live) f g) :
    Option.Rel (Sees N ρ live) (targets.foldlM (fun f t => assignTo O t v f) f)
      ((targets.map (Pattern.renameLoads ρ)).foldlM (fun f t => assignTo O t v f) g) := by
  induction targets generalizing f g with
  | nil => exact .some h
  | cons t ts ih =>
    rw [flatMap_cons, append_subset] at hbinds hloads
    rw [map_cons, foldlM_cons, foldlM_cons]
    refine rel_bind (assignTo_sim hown hρ hkept.1 hbinds.1 hloads.1 h) fun f' g' h' => ?_
    exact ih hkept.2 hbinds.2 hloads.2 h'

/-- An augmented assignment of a name that is its own version, or of an item. -/
theorem augment_sim {op : Operator} (hkept : ∀ x ∈ p.binds, ρ x = x) (hbinds : p.binds ⊆ N)
    (hloads : p.loads ⊆ N) (he : loadNames e ⊆ N)
    (h : Sees N ρ (p.binds ++ p.loads ++ loadNames e ++ live) f g) :
    Option.Rel (Sees N ρ live) (augment O p op e f)
      (augment O (p.renameLoads ρ) op (e.rename ρ) g) := by
  have hlive : loadNames e ⊆ p.binds ++ p.loads ++ loadNames e ++ live := by grind
  have hrest : Sees N ρ live f g := h.mono (subset_append_right _ _)
  cases p with
  | name id =>
    have hid : f.env id = g.env id := by
      have hid := h.env id (by simp [Pattern.binds]) (hbinds mem_cons_self)
      rwa [hkept id mem_cons_self] at hid
    simp only [augment, Pattern.renameLoads]
    refine rel_bind (rel_eq_iff.2 hid) ?_
    rintro old _ rfl
    refine rel_bind (rel_eq_iff.2 (h.evaluate_eq hlive he)) ?_
    rintro p _ rfl
    refine rel_map (rel_eq_iff.2 rfl) ?_
    rintro q _ rfl
    refine Sees.bind hown hρ (hbinds mem_cons_self) (.inl rfl) (fun _ _ => rfl)
      (fun _ => hkept id mem_cons_self) ((hrest.mono ?_).withHeap q.2) q.1
    exact filter_sublist.subset
  | item base slice =>
    obtain ⟨hNb, hNs⟩ := append_subset.1 hloads
    have hlb : loadNames base ⊆ (Pattern.item base slice).binds ++ (Pattern.item base slice).loads ++
        loadNames e ++ live := by simp only [Pattern.loads]; grind
    have hls : loadNames slice ⊆ (Pattern.item base slice).binds ++
        (Pattern.item base slice).loads ++ loadNames e ++ live := by
      simp only [Pattern.loads]; grind
    simp only [augment, Pattern.renameLoads]
    refine rel_bind (rel_eq_iff.2 (h.evaluate_eq hlb hNb)) ?_
    rintro b _ rfl
    refine rel_bind (rel_eq_iff.2 ((h.withHeap b.2).evaluate_eq hls hNs)) ?_
    rintro s _ rfl
    refine rel_bind (rel_eq_iff.2 rfl) ?_
    rintro old _ rfl
    refine rel_bind (rel_eq_iff.2 ((h.withHeap old.2).evaluate_eq hlive he)) ?_
    rintro p _ rfl
    refine rel_bind (rel_eq_iff.2 rfl) ?_
    rintro q _ rfl
    refine rel_map (rel_eq_iff.2 rfl) ?_
    rintro m _ rfl
    exact hrest.withHeap m
  | unit => exact .none
  | pair head tail => exact .none

end Sees

/-! ### The walk -/

section Walk

variable {P : Extents} {ρ : String → String} {scope : SsaScope} {before : Code} {st : SsaRenamer}

variable {ρ' : String → String} {c : Code} {r : Code × (String → String) × SsaRenamer}
variable {live : List String}

theorem isVersionMap_of_rebind {orig n : String} (hρ : IsVersionMap ρ) (hn : IsVersion orig n)
    (hmap : ρ' = Function.update ρ orig n ∨ ρ' = ρ ∧ n = orig) :
    IsVersionMap ρ' := by
  rcases hmap with rfl | ⟨rfl, -⟩
  · intro x
    by_cases hx : x = orig
    · rw [hx, Function.update_self]
      exact hn
    · rw [Function.update_of_ne hx]
      exact hρ x
  · exact hρ

/-- The map and the state stay maps to versions. -/
theorem walk_versions (h : walk P c ρ scope before st = some r) (hst : VersionsOk st)
    (hρ : IsVersionMap ρ) :
    VersionsOk r.2.2 ∧ IsVersionMap r.2.1 := by
  induction c generalizing ρ scope before st r with
  | done =>
    obtain rfl := some.inj h
    exact ⟨hst, hρ⟩
  | assign targets value rest ih =>
    simp only [walk] at h
    split at h
    · next orig _ =>
      obtain ⟨b, hb, h⟩ := bind_eq_some_iff.1 h
      obtain ⟨s, hs, rfl⟩ := map_eq_some_iff.1 h
      obtain ⟨hversion, hst', hmap⟩ := rebind_spec hst hb
      exact (ih hs hst' (isVersionMap_of_rebind hρ hversion hmap) :)
    · obtain ⟨s, hs, rfl⟩ := map_eq_some_iff.1 h
      exact (ih hs hst hρ :)
  | augAssign target op value rest ih | expr value rest ih =>
    obtain ⟨s, hs, rfl⟩ := map_eq_some_iff.1 h
    exact (ih hs hst hρ :)
  | ifElse test body orelse rest ihb iho ih | forIn target iter body orelse rest ihb iho ih =>
    obtain ⟨b, hb, h⟩ := bind_eq_some_iff.1 h
    obtain ⟨o, ho, h⟩ := bind_eq_some_iff.1 h
    obtain ⟨s, hs, rfl⟩ := map_eq_some_iff.1 h
    exact (ih hs (iho ho (ihb hb hst hρ).1 hρ).1 hρ :)
  | whileDo test body orelse rest ihb iho ih =>
    obtain ⟨b, hb, h⟩ := bind_eq_some_iff.1 h
    obtain ⟨o, ho, h⟩ := bind_eq_some_iff.1 h
    obtain ⟨s, hs, rfl⟩ := map_eq_some_iff.1 h
    exact (ih hs (iho ho (ihb hb hst hρ).1 hρ).1 hρ :)
  | ret value rest ih | brk rest ih | cont rest ih =>
    obtain ⟨s, hs, rfl⟩ := map_eq_some_iff.1 h
    exact (ih hs hst hρ :)

variable {V H : Type} {O : Objects V H} {N : List String}

variable {f g : Activation V H}

/-- The runs of a branch, under the map after it. -/
theorem branch_rel {fuel : ℕ} {body body' : Code}
    {brk cont : Activation V H → Activation V H → Prop}
    (h : Option.Rel (ExitRel (Sees N ρ' live) brk cont) (runCode O fuel body f)
      (runCode O fuel body' g)) (hkept : body.falls = true → SameVersions ρ' ρ live) :
    Option.Rel (ExitRel (Sees N ρ live) brk cont) (runCode O fuel body f)
      (runCode O fuel body' g) := by
  generalize hr : runCode O fuel body f = r at h
  generalize runCode O fuel body' g = s at h
  cases h with
  | none => exact .none
  | @some a b hab =>
    refine .some ?_
    obtain ⟨f', exit⟩ := a
    obtain ⟨g', exit'⟩ := b
    cases exit <;> cases exit' <;> first | exact hab | exact hab.elim | skip
    exact Sees.sameVersions hab (hkept (falls_of_next hr))

theorem testOf_sim {e : Expr} (h : Sees N ρ live f g) (hlive : loadNames e ⊆ live)
    (hN : loadNames e ⊆ N) :
    testOf O e f = testOf O (e.rename ρ) g := by
  simp only [testOf, h.evaluate_eq hlive hN]

variable (hown : OwnNames N)

include hown

/-- **The statements the walk returns follow those of the body.** -/
theorem walk_sim {loop : String → String} {out : LiveOut} (h : walk P c ρ scope before st = some r)
    (hst : VersionsOk st) (hρ : IsVersionMap ρ) (hloads : c.loads ⊆ N) (hbinds : c.binds ⊆ N)
    (hkeeps : Keeps P c ρ loop scope before st out) (fuel : ℕ) (hfg : Sees N ρ (c.liveIn out) f g) :
    Option.Rel (ExitRel (Sees N r.2.1 out.next) (Sees N loop out.brk) (Sees N loop out.cont))
      (runCode O fuel c f) (runCode O fuel r.1 g) := by
  induction c generalizing ρ scope before st r loop out f g with
  | done =>
    obtain rfl := some.inj h
    exact .some hfg
  | assign targets value rest ih =>
    simp only [Code.loads, append_subset] at hloads
    simp only [Code.binds, append_subset] at hbinds
    obtain ⟨⟨hlt, hlv⟩, hlr⟩ := hloads
    obtain ⟨hbt, hbr⟩ := hbinds
    have hvalue := hfg.evaluate_eq (O := O) (subset_append_left _ _) hlv
    have hstores := hfg.mono (subset_append_right _ _)
    simp only [walk] at h
    simp only [Keeps] at hkeeps
    cases htarget : plainTarget targets with
    | some orig =>
      -- A plain binding: the name takes a version, which the map has from now on.
      obtain rfl : targets = [.name orig] := by
        unfold plainTarget at htarget
        split at htarget
        · rw [some.inj htarget]
        · cases htarget
      simp only [htarget] at h hkeeps
      obtain ⟨b, hb, h⟩ := bind_eq_some_iff.1 h
      obtain ⟨s, hs, rfl⟩ := map_eq_some_iff.1 h
      obtain ⟨hkept, hkeeps⟩ := hkeeps b hb
      obtain ⟨hversion, hst', hmap⟩ := rebind_spec hst hb
      have hρ' := isVersionMap_of_rebind hρ hversion hmap
      have hothers : ∀ y, y ≠ orig → b.2.1 y = ρ y := by
        intro y hy
        rcases hmap with hmap | ⟨hmap, -⟩
        · rw [hmap, Function.update_of_ne hy]
        · rw [hmap]
      refine rel_bind (rel_eq_iff.2 hvalue) ?_
      rintro p _ rfl
      refine rel_bind (r := Sees N b.2.1 (rest.liveIn out)) (.some ?_)
        fun f' g' h' => ih hs hst' hρ' hlr hbr hkeeps h'
      refine Sees.bind hown hρ (hbt (by simp [Pattern.binds])) hversion hothers hkept
        ((hstores.mono fun y hy => ?_).withHeap p.2) p.1
      simpa [Pattern.liveIn, Pattern.loads, Pattern.binds] using hy
    | none =>
      simp only [htarget] at h hkeeps
      obtain ⟨s, hs, rfl⟩ := map_eq_some_iff.1 h
      refine rel_bind (rel_eq_iff.2 hvalue) ?_
      rintro p _ rfl
      exact rel_bind (targets_sim hown hρ hkeeps.1 hbt hlt (hstores.withHeap p.2))
        fun f' g' h' => ih hs hst hρ hlr hbr hkeeps.2 h'
  | augAssign target op value rest ih =>
    simp only [Code.loads, append_subset] at hloads
    simp only [Code.binds, append_subset] at hbinds
    obtain ⟨s, hs, rfl⟩ := map_eq_some_iff.1 h
    exact rel_bind (augment_sim hown hρ hkeeps.1 hbinds.1 hloads.1.1.2 hloads.1.2 hfg)
      fun f' g' h' => ih hs hst hρ hloads.2 hbinds.2 hkeeps.2 h'
  | expr value rest ih =>
    simp only [Code.loads, append_subset] at hloads
    obtain ⟨s, hs, rfl⟩ := map_eq_some_iff.1 h
    refine rel_bind (rel_eq_iff.2 (hfg.evaluate_eq (subset_append_left _ _) hloads.1)) ?_
    rintro p _ rfl
    exact ih hs hst hρ hloads.2 hbinds hkeeps
      ((hfg.mono (subset_append_right _ _)).withHeap p.2)
  | ifElse test body orelse rest ihb iho ih =>
    simp only [Code.loads, append_subset] at hloads
    simp only [Code.binds, append_subset] at hbinds
    obtain ⟨⟨⟨hlt, hlb⟩, hlo⟩, hlr⟩ := hloads
    obtain ⟨⟨hbb, hbo⟩, hbr⟩ := hbinds
    obtain ⟨b, hb, h⟩ := bind_eq_some_iff.1 h
    obtain ⟨o, ho, h⟩ := bind_eq_some_iff.1 h
    obtain ⟨s, hs, rfl⟩ := map_eq_some_iff.1 h
    obtain ⟨hkb, hkeeps⟩ := hkeeps
    obtain ⟨hsb, hko, hkeeps⟩ := hkeeps b hb
    obtain ⟨hso, hkr⟩ := hkeeps o ho
    have hstb := (walk_versions hb hst hρ).1
    have hsto := (walk_versions ho hstb hρ).1
    simp only [Code.liveIn] at hfg
    refine rel_bind (rel_eq_iff.2 (testOf_sim hfg ?_ hlt)) ?_
    · exact subset_append_of_subset_left _ (subset_append_left _ _)
    rintro c _ rfl
    refine rel_bind (r := ExitRel (Sees N ρ (rest.liveIn out)) (Sees N loop out.brk)
      (Sees N loop out.cont)) ?_ fun _ _ hends =>
        andThen_rel hends fun f' g' h' => ih hs hsto hρ hlr hbr hkr h'
    split
    · refine branch_rel (ihb hb hst hρ hlb hbb hkb ((hfg.mono ?_).withHeap c.2)) hsb
      exact subset_append_of_subset_left _ (subset_append_right _ _)
    · refine branch_rel (iho ho hstb hρ hlo hbo hko ((hfg.mono ?_).withHeap c.2)) hso
      exact subset_append_right _ _
  | forIn target iter body orelse rest ihb iho ih =>
    simp only [Code.loads, append_subset] at hloads
    simp only [Code.binds, append_subset] at hbinds
    obtain ⟨⟨⟨⟨hlt, hli⟩, hlb⟩, hlo⟩, hlr⟩ := hloads
    obtain ⟨⟨⟨hbt, hbb⟩, hbo⟩, hbr⟩ := hbinds
    obtain ⟨b, hb, h⟩ := bind_eq_some_iff.1 h
    obtain ⟨o, ho, h⟩ := bind_eq_some_iff.1 h
    obtain ⟨s, hs, rfl⟩ := map_eq_some_iff.1 h
    obtain ⟨hown', hkt, hkb, hkeeps⟩ := hkeeps
    obtain ⟨hsb, hko, hkeeps⟩ := hkeeps b hb
    obtain ⟨hso, hkr⟩ := hkeeps o ho
    have hstb := (walk_versions hb hst hρ).1
    have hsto := (walk_versions ho hstb hρ).1
    have hself : target.renameLoads ρ = target := renameLoads_eq_self hown'
    -- What may be read at the head of the loop may be read before every iteration.
    generalize hhead : (Code.forIn target (.const .none) body orelse rest).liveIn out = head at *
    have hlive : rest.liveIn out ⊆ head := by
      rw [← hhead]
      exact subset_append_right _ _
    have horelse : orelse.liveIn { out with next := rest.liveIn out } ⊆ head := by
      rw [← hhead]
      exact subset_append_of_subset_left _ (subset_append_right _ _)
    have hitem : target.liveIn (body.liveIn ⟨head, rest.liveIn out, head⟩) ⊆ head := by
      have hbody := body.liveIn_append ⟨head, rest.liveIn out, head⟩ ⟨[], [], []⟩
        (List.Subset.refl _) hlive (List.Subset.refl _)
      refine List.Subset.trans (Pattern.liveIn_append hbody) (append_subset.2 ⟨?_, List.Subset.refl _⟩)
      rw [← hhead]
      refine subset_append_of_subset_left _ (subset_append_of_subset_left _ ?_)
      exact subset_append_right _ _
    have hstart : Sees N ρ head f g := by
      refine hfg.mono ?_
      rw [← hhead]
      simp only [Code.liveIn, show loadNames (.const .none) = [] from rfl, nil_append]
      grind
    refine rel_bind (rel_eq_iff.2 (hfg.evaluate_eq ?_ hli)) ?_
    · exact subset_append_of_subset_left _
        (subset_append_of_subset_left _ (subset_append_left _ _))
    rintro p _ rfl
    refine rel_bind (rel_eq_iff.2 rfl) ?_
    rintro q _ rfl
    refine rel_bind (forItems_rel (R := Sees N ρ head) (B := Sees N ρ (rest.liveIn out))
      (fun v f' g' h' => ?_) q.1 (hstart.withHeap q.2)) fun _ _ hends =>
        afterLoop_rel hends
          (fun f' g' h' => branch_rel (iho ho hstb hρ hlo hbo hko (h'.mono horelse)) hso)
          fun f' g' h' => ih hs hsto hρ hlr hbr hkr h'
    have hbound := assignTo_sim (O := O) (v := v) hown hρ hkt hbt hlt (h'.mono hitem)
    rw [hself] at hbound
    exact rel_bind hbound fun f'' g'' h'' =>
      branch_rel (ihb hb hst hρ hlb hbb hkb h'') hsb
  | whileDo test body orelse rest ihb iho ih =>
    simp only [Code.loads, append_subset] at hloads
    simp only [Code.binds, append_subset] at hbinds
    obtain ⟨⟨⟨hlt, hlb⟩, hlo⟩, hlr⟩ := hloads
    obtain ⟨⟨hbb, hbo⟩, hbr⟩ := hbinds
    obtain ⟨b, hb, h⟩ := bind_eq_some_iff.1 h
    obtain ⟨o, ho, h⟩ := bind_eq_some_iff.1 h
    obtain ⟨s, hs, rfl⟩ := map_eq_some_iff.1 h
    obtain ⟨hkb, hkeeps⟩ := hkeeps
    obtain ⟨hsb, hko, hkeeps⟩ := hkeeps b hb
    obtain ⟨hso, hkr⟩ := hkeeps o ho
    have hstb := (walk_versions hb hst hρ).1
    have hsto := (walk_versions ho hstb hρ).1
    generalize hhead : (Code.whileDo test body orelse rest).liveIn out = head at *
    have hlive : rest.liveIn out ⊆ head := by
      rw [← hhead]
      exact subset_append_right _ _
    have horelse : orelse.liveIn { out with next := rest.liveIn out } ⊆ head := by
      rw [← hhead]
      exact subset_append_of_subset_left _ (subset_append_right _ _)
    have hbody : body.liveIn ⟨head, rest.liveIn out, head⟩ ⊆ head := by
      have hbody := body.liveIn_append ⟨head, rest.liveIn out, head⟩ ⟨[], [], []⟩
        (List.Subset.refl _) hlive (List.Subset.refl _)
      refine List.Subset.trans hbody (append_subset.2 ⟨?_, List.Subset.refl _⟩)
      rw [← hhead]
      refine subset_append_of_subset_left _ (subset_append_of_subset_left _ ?_)
      exact subset_append_right _ _
    have htest : loadNames test ⊆ head := by
      rw [← hhead]
      exact subset_append_of_subset_left _
        (subset_append_of_subset_left _ (subset_append_left _ _))
    refine rel_bind (whileItems_rel (R := Sees N ρ head) (B := Sees N ρ (rest.liveIn out))
      (fun f' g' h' => testOf_sim h' htest hlt) (fun f' g' m h' => h'.withHeap m)
      (fun f' g' h' => branch_rel (ihb hb hst hρ hlb hbb hkb (h'.mono hbody)) hsb) fuel hfg)
      fun _ _ hends =>
        afterLoop_rel hends
          (fun f' g' h' => branch_rel (iho ho hstb hρ hlo hbo hko (h'.mono horelse)) hso)
          fun f' g' h' => ih hs hsto hρ hlr hbr hkr h'
  | ret value rest ih =>
    simp only [Code.loads, append_subset] at hloads
    obtain ⟨s, hs, rfl⟩ := map_eq_some_iff.1 h
    refine rel_map (rel_eq_iff.2 (hfg.evaluate_eq (List.Subset.refl _) hloads.1)) ?_
    rintro p _ rfl
    exact ⟨rfl, rfl⟩
  | brk rest ih | cont rest ih =>
    obtain ⟨s, hs, rfl⟩ := map_eq_some_iff.1 h
    exact .some (hfg.sameVersions hkeeps)

end Walk

/-- The extent of a name is its shape. -/
def nameExtents : Extents where
  iterExtentOf
    | .name id, shapes => (shapes id).map (·.map .name)
    | .binOp _ (.name id) _, shapes => (shapes id).map (·.map .name)
    | _, _ => none
  unparse
    | .name id => id
    | _ => ""
  shapeExprsEqual a b := a = b
  shapesAgreeUnder _ _ _ _ := false

/-- `a` and `b` have different lengths. -/
def twoShapes : Shapes := fun x => if x = "a" then some ["n"] else if x = "b" then some ["m"] else none

/-- `x = a; y = x + x; x = b; for i in y: x = x + x`, and `return x`. -/
def reboundBody : Code :=
  .assign [.name "x"] (.name "a")
    (.assign [.name "y"] (.binOp .add (.name "x") (.name "x"))
      (.assign [.name "x"] (.name "b")
        (.forIn (.name "i") (.name "y") (.assign [.name "x"] (.binOp .add (.name "x") (.name "x"))
          .done) .done (.ret (.name "x") .done))))

/-- `a` has three elements and `b` has two. -/
def reboundStart : Activation (List ℤ) Unit where
  env x := if x = "a" then some [1, 2, 3] else if x = "b" then some [5, 7] else none
  heap := ()

theorem ownNames_reboundBody : OwnNames (reboundBody.loads ++ reboundBody.binds) := by
  intro x hx y hy k h
  have hlength : ∀ z ∈ reboundBody.loads ++ reboundBody.binds, z.length = 1 := by decide
  have hlengths := congrArg String.length h
  simp only [String.length_append, hlength x hx, hlength y hy,
    show ("__v" : String).length = 3 from rfl] at hlengths
  omega

/-- `x = a; x = b; x += c; return x`. -/
def augmentedBody : Code :=
  .assign [.name "x"] (.name "a") (.assign [.name "x"] (.name "b")
    (.augAssign (.name "x") .add (.name "c") (.ret (.name "x") .done)))

/-- Three arrays of two elements. -/
def augmentedStart : Activation (List ℤ) Unit where
  env x :=
    if x = "a" then some [1, 2] else if x = "b" then some [5, 7]
    else if x = "c" then some [10, 20] else none
  heap := ()

end Translate

end HpcAgentBench
