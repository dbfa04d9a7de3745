import HpcAgentBench.Translate.ParallelLoop

/-!
# Reductions

A loop that combines one scalar (`loopReduction`) can be split into groups of iterations, each with
its own partial result, where the values are combined by the same operator in exact arithmetic
(`Exact`).

## Main results

* `updates_of_reduction` : the statements that name the accumulator are those that combine it.
* `reduction_sound` : the recognition of reductions is right, where what it does not look at does not
  matter (`OwnSlices`, `CombinesAlone`).
-/

namespace HpcAgentBench

open List Option

namespace Translate

variable {V : Type}

/-! ### Exact arithmetic -/

/-- The Python function that combines any number of values. -/
def ReductionOp.builtin : ReductionOp → Option String
  | .max => some "max"
  | .min => some "min"
  | _ => none

/-- The functions that combine two values. -/
def ReductionOp.pairwise : ReductionOp → List String
  | .max => ["maximum", "fmax"]
  | .min => ["minimum", "fmin"]
  | _ => []

/-- Values that an operator combines exactly: in any order and any grouping. -/
structure Exact (I : Interp V) (op : ReductionOp) (combine : V → V → V) (identity : V) : Prop where
  assoc : ∀ a b c, combine (combine a b) c = combine a (combine b c)
  comm : ∀ a b, combine a b = combine b a
  identity_combine : ∀ a, combine identity a = a
  binary : ∀ o, augReductionOp o = some op → ∀ a b, I.binary o a b = some (combine a b)
  builtin : ∀ f, op.builtin = some f → ∀ v w vs,
    I.call f (v :: w :: vs) = some ((w :: vs).foldl combine v)
  pairwise : ∀ f ∈ op.pairwise, ∀ a b, I.call f [a, b] = some (combine a b)

/-- The values as a commutative monoid. -/
abbrev Exact.monoid {I : Interp V} {op : ReductionOp} {combine : V → V → V} {identity : V}
    (h : Exact I op combine identity) : CommMonoid V where
  mul := combine
  one := identity
  mul_assoc := h.assoc
  mul_comm := h.comm
  one_mul := h.identity_combine
  mul_one a := (h.comm a identity).trans (h.identity_combine a)

/-! ### What the recognition leaves unchecked -/

/-- A call that combines its arguments, as the recognition takes it to do. -/
def plainCall (op : ReductionOp) (value : Expr) : Bool :=
  match value with
  | .call func args =>
    args.isTuple && ((func.id?.isSome && func.id? = op.builtin && 2 ≤ args.elts.length) ||
      ((callLeaf func).any (· ∈ op.pairwise) && args.elts.length = 2))
  | _ => true

/-- A statement that combines the accumulator does nothing else, and combines it with a value that
does not depend on it. -/
def combinesAlone (op : ReductionOp) (acc : String) : Block.Node → Bool
  | .assign targets value =>
    !targets.any (·.id? = some acc) || (targets = [.name acc] && plainCall op value)
  | .augAssign target _ value => target.id? ≠ some acc || !readsName value acc
  | _ => true

/-- What the recognition of a reduction does not look at: the value an augmented assignment
combines, other targets of an assignment, what a call combines, the accumulator as a loop variable,
other scalars that are carried or read after the loop. -/
structure CombinesAlone (loop : Loop) (site : Site) (op : ReductionOp) (acc : String) : Prop where
  statements : loop.body.walkNodes.all (combinesAlone op acc) = true
  index : acc ≠ loop.target
  iterators : acc ∉ loop.body.iterators
  carried : readsBeforeWrite (loop.body.bareStoreNames.filter (· ≠ acc)) loop.body [loop.target] =
    false
  after : ∀ x ∈ loop.target :: loop.body.bareStoreNames, x ≠ acc → site.mayRead loop .all x = false

/-! ### The loop in groups -/

section Groups

variable {G : Type} [DecidableEq G]

/-- An iteration with the partial result of its group as the accumulator. -/
def groupStep (I : Interp V) (fuel : ℕ) (loop : Loop) (acc : String) (prep : ℤ → State V → State V)
    (group : ℤ → G) (v : ℤ) (u : State V × (G → V)) : Option (State V × (G → V)) :=
  (iteration I fuel loop v ((prep v u.1).setScalar acc (u.2 (group v)))).bind fun p =>
    match p.2 with
    | .next => (p.1.scalars acc).map fun a => (p.1, Function.update u.2 (group v) a)
    | .brk => none

/-- The iterations of a loop in some order, each group with its own partial result, which are
combined with the value the accumulator had. -/
def groupedLoop (I : Interp V) (fuel : ℕ) (loop : Loop) (arrays : List String) (acc : String)
    (combine : V → V → V) (identity : V) (junk : ℤ → String → Option V) (left : String → Option V)
    (group : ℤ → G) (groups : List G) (order : List ℤ) (σ : State V) (a : V) : Option (State V) :=
  (Steps.runAll (groupStep I fuel loop acc
      (fun v u => u.forget (privateNames loop arrays (some acc)) (junk v)) group) order
    (σ, fun _ => identity)).map fun u =>
      (u.1.forget (privateNames loop arrays (some acc)) left).setScalar acc
        ((groups.map u.2).foldl combine a)

end Groups

/-- In any groups and any order, the iterations leave the accumulator, every array, and every scalar
read after the loop, as the sequential loop does. -/
def AnyGroups (loop : Loop) (site : Site) (arrays : List String) (acc : String)
    (combine : V → V → V) (identity : V) (I : Interp V) (fuel : ℕ) (vals : List ℤ)
    (σ : State V) : Prop :=
  ∀ τ, forSteps (iteration I fuel loop) vals σ = some τ → ∀ a, σ.scalars acc = some a →
    ∀ (G : Type) (_ : DecidableEq G) (group : ℤ → G) (groups : List G), groups.Nodup →
      (∀ v ∈ vals, group v ∈ groups) → ∀ order, order.Perm vals → ∀ junk left,
        ∃ τ', groupedLoop I fuel loop arrays acc combine identity junk left group groups order σ a =
            some τ' ∧
          τ'.scalars acc = τ.scalars acc ∧ τ'.arrays = τ.arrays ∧
          ∀ x, site.mayRead loop .all x = true → τ'.scalars x = τ.scalars x

/-! ### The recognition -/

section Recognition

variable {op : ReductionOp} {acc : String}
variable {accs : Accs} {x : String} {o : ReductionOp} {accs' : Accs}

/-- Each name is combined by one operator. -/
def Accs.Single (accs : Accs) : Prop :=
  ∀ x o o', (x, o) ∈ accs → (x, o') ∈ accs → o = o'

theorem mem_of_lookup (hsingle : accs.Single) (h : (x, o) ∈ accs) : accs.lookup x = some o := by
  induction accs with
  | nil => cases h
  | cons entry accs ih =>
    obtain ⟨y, o'⟩ := entry
    rw [lookup_cons]
    by_cases hxy : x = y
    · subst hxy
      rw [beq_self_eq_true, hsingle x o' o mem_cons_self h]
    · rw [beq_false_of_ne hxy]
      refine ih (fun z a b ha hb => hsingle z a b (mem_cons_of_mem _ ha)
        (mem_cons_of_mem _ hb)) ?_
      rcases mem_cons.1 h with h | h
      · exact absurd (congrArg Prod.fst h) hxy
      · exact h

/-- One more combine keeps the earlier ones. -/
theorem note_spec (hsingle : accs.Single) (h : accs.note x o = some accs') :
    accs' = (x, o) :: accs ∧ accs'.Single := by
  unfold Accs.note at h
  split at h
  · next hlookup =>
    obtain rfl := some.inj h
    have hx : ∀ o', (x, o') ∈ accs → o' = o := fun o' ho' => by
      rw [mem_of_lookup hsingle ho'] at hlookup
      exact hlookup
    refine ⟨rfl, fun y a b hya hyb => ?_⟩
    rcases mem_cons.1 hya with ha | ha
    · obtain ⟨rfl, rfl⟩ := Prod.mk.inj ha
      rcases mem_cons.1 hyb with hb | hb
      · exact (Prod.mk.inj hb).2.symm
      · exact (hx b hb).symm
    · rcases mem_cons.1 hyb with hb | hb
      · obtain ⟨rfl, rfl⟩ := Prod.mk.inj hb
        exact hx a ha
      · exact hsingle y a b ha hb
  · cases h

/-- What a statement of a recognised body may do to a scalar. -/
def Combines (accs : Accs) : Block.Node → Prop
  | .augAssign (.name x) o _ => ∃ r, augReductionOp o = some r ∧ (x, r) ∈ accs
  | .assign targets value => ∀ x, .name x ∈ targets →
    (∃ r, reductionOp value x = some r ∧ (x, r) ∈ accs) ∨ readsName value x = false
  | _ => True

theorem Combines.mono {n : Block.Node} (h : Combines accs n) (hsubset : accs ⊆ accs') :
    Combines accs' n := by
  match n, h with
  | .augAssign (.name x) o value, ⟨r, hr, hmem⟩ => exact ⟨r, hr, hsubset hmem⟩
  | .augAssign (.subscript base s) o value, _ => trivial
  | .assign targets value, h =>
    intro x hx
    rcases h x hx with ⟨r, hr, hmem⟩ | hfree
    · exact .inl ⟨r, hr, hsubset hmem⟩
    · exact .inr hfree
  | .iterator _, _ => trivial
  | .store _, _ => trivial
  | .load _, _ => trivial
  | .callStmt _ _, _ => trivial

/-- The targets of one assignment. -/
theorem targets_spec {value : Expr} {targets : List Target} {accs accs' : Accs}
    (hsingle : accs.Single)
    (h : targets.foldlM (fun (accs : Accs) t =>
      match t with
      | .name id =>
        match reductionOp value id with
        | some op => accs.note id op
        | none => if readsName value id then none else some accs
      | .subscript .. => some accs) accs = some accs') :
    accs ⊆ accs' ∧ accs'.Single ∧ Combines accs' (.assign targets value) := by
  induction targets generalizing accs with
  | nil =>
    obtain rfl := some.inj h
    exact ⟨List.Subset.refl _, hsingle, fun x hx => absurd hx not_mem_nil⟩
  | cons t targets ih =>
    rw [foldlM_cons] at h
    obtain ⟨accs₁, hfirst, h⟩ := bind_eq_some_iff.1 h
    have hnext : accs ⊆ accs₁ ∧ accs₁.Single ∧ ∀ x, t = .name x →
        (∃ r, reductionOp value x = some r ∧ (x, r) ∈ accs₁) ∨ readsName value x = false := by
      cases t with
      | name id =>
        simp only at hfirst
        split at hfirst
        · next op hop =>
          obtain ⟨rfl, hsingle'⟩ := note_spec hsingle hfirst
          refine ⟨subset_cons_self _ _, hsingle', ?_⟩
          rintro x ⟨⟩
          exact .inl ⟨op, hop, mem_cons_self⟩
        · split at hfirst
          · cases hfirst
          · next hreads =>
            obtain rfl := some.inj hfirst
            refine ⟨List.Subset.refl _, hsingle, ?_⟩
            rintro x ⟨⟩
            exact .inr (Bool.eq_false_iff.2 hreads)
      | subscript base s =>
        obtain rfl := some.inj hfirst
        exact ⟨List.Subset.refl _, hsingle, by rintro x ⟨⟩⟩
    obtain ⟨hsubset, hsingle', hcombines⟩ := ih hnext.2.1 h
    refine ⟨List.Subset.trans hnext.1 hsubset, hsingle', fun x hx => ?_⟩
    rcases mem_cons.1 hx with hx | hx
    · rcases hnext.2.2 x hx.symm with ⟨r, hr, hmem⟩ | hfree
      · exact .inl ⟨r, hr, hsubset hmem⟩
      · exact .inr hfree
    · exact hcombines x hx

theorem nodeAccs_spec {accs accs' : Accs} {n : Block.Node} (hsingle : accs.Single)
    (h : nodeAccs accs n = some accs') : accs ⊆ accs' ∧ accs'.Single ∧ Combines accs' n := by
  have hsame : ∀ {m : Block.Node}, some accs = some accs' → Combines accs m →
      accs ⊆ accs' ∧ accs'.Single ∧ Combines accs' m := by
    rintro m ⟨⟩ hm
    exact ⟨List.Subset.refl _, hsingle, hm⟩
  match n, h with
  | .augAssign (.name x) o value, h =>
    obtain ⟨r, hr, h⟩ := bind_eq_some_iff.1 h
    obtain ⟨rfl, hsingle'⟩ := note_spec hsingle h
    exact ⟨subset_cons_self _ _, hsingle', r, hr, mem_cons_self⟩
  | .augAssign (.subscript base s) o value, h => exact hsame h trivial
  | .assign targets value, h => exact targets_spec hsingle h
  | .iterator _, h => exact hsame h trivial
  | .store _, h => exact hsame h trivial
  | .load _, h => exact hsame h trivial
  | .callStmt _ _, h => exact hsame h trivial

theorem foldlM_nodeAccs_spec {nodes : List Block.Node} (hsingle : accs.Single)
    (h : nodes.foldlM nodeAccs accs = some accs') :
    accs ⊆ accs' ∧ accs'.Single ∧ ∀ n ∈ nodes, Combines accs' n := by
  induction nodes generalizing accs with
  | nil =>
    obtain rfl := some.inj h
    exact ⟨List.Subset.refl _, hsingle, fun n hn => absurd hn not_mem_nil⟩
  | cons n nodes ih =>
    rw [foldlM_cons] at h
    obtain ⟨accs₁, hfirst, h⟩ := bind_eq_some_iff.1 h
    obtain ⟨hsubset, hsingle', hn⟩ := nodeAccs_spec hsingle hfirst
    obtain ⟨hsubset', hsingle'', hnodes⟩ := ih hsingle' h
    refine ⟨List.Subset.trans hsubset hsubset', hsingle'', ?_⟩
    exact forall_mem_cons.2 ⟨hn.mono hsubset', hnodes⟩

/-- The checks of the recognition. -/
theorem of_loopReduction {loop : Loop} (h : loopReduction loop = some (op, acc)) :
    (∃ accs, (∀ n ∈ loop.body.walkNodes, Combines accs n) ∧ ∀ x o, (x, o) ∈ accs → x = acc ∧ o = op) ∧
      accumulatorObserved loop.body acc = false ∧ accumulatorReset loop.body acc = false ∧
      ((writtenSubscripts loop.body loop.body.writtenArrays).all fun p =>
        subscriptIdxSafe p.2 loop.target) = true ∧
      writtenPartitionConsistent loop.body loop.target loop.body.writtenArrays = true := by
  obtain ⟨accs, haccs, h⟩ := bind_eq_some_iff.1 h
  obtain ⟨-, hsingle, hnodes⟩ := foldlM_nodeAccs_spec
    (fun _ _ _ h => absurd h not_mem_nil) haccs
  cases accs with
  | nil => cases h
  | cons entry others =>
    obtain ⟨x, o⟩ := entry
    simp only at h
    split at h
    · cases h
    next hothers =>
    split at h
    · cases h
    next hobserved =>
    split at h
    · cases h
    next hsafe =>
    split at h
    · cases h
    next hconsistent =>
    obtain ⟨rfl, rfl⟩ := Prod.mk.inj (some.inj h)
    simp only [Bool.or_eq_true, not_or, Bool.not_eq_true] at hobserved
    have hname : ∀ y o', (y, o') ∈ (x, o) :: others → y = x := by
      intro y o' hy
      rcases mem_cons.1 hy with hy | hy
      · exact (Prod.mk.inj hy).1
      · by_contra hne
        exact hothers (any_eq_true.2 ⟨_, hy, by simpa using hne⟩)
    simp only [Bool.not_eq_false, Bool.not_eq_true'] at hsafe hconsistent
    refine ⟨⟨_, hnodes, fun y o' hy => ?_⟩, hobserved.1, hobserved.2, hsafe, hconsistent⟩
    obtain rfl := hname y o' hy
    exact ⟨rfl, hsingle y o' o hy mem_cons_self⟩

end Recognition

/-! ### Reads of the accumulator -/

section Reads

variable {acc : String}

/-- The reads of a name among some nodes. -/
def nodeReads (acc : String) (nodes : List Block.Node) : ℕ :=
  nodes.countP fun
    | .load e => e = .name acc
    | _ => false

/-- Those of them in the values that combine it. -/
def combineReads (acc : String) (nodes : List Block.Node) : ℕ :=
  (nodes.map fun
    | .augAssign target _ value => if target.id? = some acc then countReads value acc else 0
    | .assign targets value => if targets.any (·.id? = some acc) then countReads value acc else 0
    | _ => 0).sum

theorem nodeReads_append (ns ms : List Block.Node) :
    nodeReads acc (ns ++ ms) = nodeReads acc ns + nodeReads acc ms := countP_append

theorem combineReads_append (ns ms : List Block.Node) :
    combineReads acc (ns ++ ms) = combineReads acc ns + combineReads acc ms := by
  simp only [combineReads, map_append, sum_append]

theorem nodeReads_exprNodes (e : Expr) : nodeReads acc (Block.exprNodes e) = countReads e acc := by
  unfold nodeReads Block.exprNodes countReads
  rw [countP_map, count_eq_countP]
  exact countP_congr fun x _ => by simp

variable (acc) in
theorem combineReads_exprNodes (e : Expr) : combineReads acc (Block.exprNodes e) = 0 := by
  unfold combineReads Block.exprNodes
  rw [List.map_map]
  exact sum_eq_zero fun n hn => by
    obtain ⟨_, -, rfl⟩ := mem_map.1 hn
    rfl

variable {α : Type} {f : α → List Block.Node}

theorem combineReads_flatMap (hf : ∀ a, combineReads acc (f a) = 0) (l : List α) :
    combineReads acc (l.flatMap f) = 0 := by
  induction l with
  | nil => rfl
  | cons a l ih => rw [flatMap_cons, combineReads_append, hf, ih]

variable (acc) in
theorem combineReads_targetNodes (t : Target) : combineReads acc (Block.targetNodes t) = 0 := by
  have hreads := combineReads_flatMap (combineReads_exprNodes acc) t.reads
  simpa [Block.targetNodes, combineReads] using hreads

theorem readsName_eq_false {e : Expr} (h : countReads e acc = 0) : readsName e acc = false := by
  rw [countReads, count_eq_zero] at h
  simp only [readsName, List.any_eq_false, decide_eq_true_eq]
  exact fun n hn heq => h (heq ▸ hn)

theorem nodeReads_flatMap_eq_zero {l : List α} (h : nodeReads acc (l.flatMap f) = 0) {a : α}
    (ha : a ∈ l) : nodeReads acc (f a) = 0 := by
  unfold nodeReads at h ⊢
  rw [countP_eq_zero] at h ⊢
  exact fun n hn => h n (mem_flatMap.2 ⟨a, ha, hn⟩)

/-- A target finds its place without the accumulator. -/
theorem reads_of_targetNodes {t : Target} (h : nodeReads acc (Block.targetNodes t) = 0) :
    ∀ e ∈ t.reads, readsName e acc = false := by
  intro e he
  have hreads : nodeReads acc (t.reads.flatMap Block.exprNodes) = 0 := by
    simpa [Block.targetNodes, nodeReads] using h
  have he := nodeReads_flatMap_eq_zero hreads he
  rw [nodeReads_exprNodes] at he
  exact readsName_eq_false he

variable (acc) in
theorem combineReads_callNodes (e : Expr) : combineReads acc (Block.callNodes e) = 0 := by
  cases e <;> rfl

variable (acc) in
/-- The values that combine a name read it where it is read. -/
theorem combineReads_le (b : Block) :
    combineReads acc b.walkNodes ≤ nodeReads acc b.walkNodes := by
  induction b with
  | done => exact le_rfl
  | assign targets e rest ih =>
    have htargets := combineReads_flatMap (combineReads_targetNodes acc) targets
    have hnode : combineReads acc [.assign targets e] ≤ countReads e acc := by
      simp only [combineReads, map_cons, map_nil, sum_cons, sum_nil]
      split <;> omega
    have hnodes : (Block.assign targets e rest).walkNodes = [.assign targets e] ++
      (targets.flatMap Block.targetNodes ++ Block.exprNodes e ++ rest.walkNodes) := rfl
    simp only [hnodes, combineReads_append, nodeReads_append, nodeReads_exprNodes,
      combineReads_exprNodes] at ih ⊢
    omega
  | augAssign t op e rest ih =>
    have htarget := combineReads_targetNodes acc t
    have hnode : combineReads acc [.augAssign t op e] ≤ countReads e acc := by
      simp only [combineReads, map_cons, map_nil, sum_cons, sum_nil]
      split <;> omega
    have hnodes : (Block.augAssign t op e rest).walkNodes = [.augAssign t op e] ++
      (Block.targetNodes t ++ Block.exprNodes e ++ rest.walkNodes) := rfl
    simp only [hnodes, combineReads_append, nodeReads_append, nodeReads_exprNodes,
      combineReads_exprNodes] at ih ⊢
    omega
  | expr e rest ih =>
    have hcall := combineReads_callNodes acc e
    simp only [Block.walkNodes, combineReads_append, nodeReads_append, nodeReads_exprNodes,
      combineReads_exprNodes] at ih ⊢
    omega
  | ifElse test body orelse rest ihb iho ihr =>
    simp only [Block.walkNodes, combineReads_append, nodeReads_append, nodeReads_exprNodes,
      combineReads_exprNodes] at ihb iho ihr ⊢
    omega
  | forRange target args body rest ihb ihr =>
    have hnodes : (Block.forRange target args body rest).walkNodes =
      [.iterator target, .store (.name target)] ++
        (Block.exprNodes (.call (.name "range") args) ++ body.walkNodes ++ rest.walkNodes) := rfl
    have hhead : combineReads acc [.iterator target, .store (.name target)] = 0 := rfl
    simp only [hnodes, combineReads_append, nodeReads_append, nodeReads_exprNodes,
      combineReads_exprNodes, hhead] at ihb ihr ⊢
    omega
  | whileDo test body rest ihb ihr =>
    simp only [Block.walkNodes, combineReads_append, nodeReads_append, nodeReads_exprNodes,
      combineReads_exprNodes] at ihb ihr ⊢
    omega
  | brk rest ih => exact ih

end Reads

/-! ### The statements of a recognised body -/

section Updates

variable {op : ReductionOp} {acc : String} {combine : V → V → V} {m : V} {it : Iteration V}

/-- The combines of a reduction; the values of the accumulator differ by the factor `m`. -/
def reduceCombine (op : ReductionOp) (acc : String) (combine : V → V → V) (m : V) : Combine V where
  acc := some acc
  rel a b := b = combine m a
  value e := reductionOp e acc = some op ∧ plainCall op e = true
  op o := augReductionOp o = some op

theorem freeExpr_of_readsName (hcombine : it.combine = reduceCombine op acc combine m) {e : Expr}
    (h : readsName e acc = false) : it.FreeExpr e := by
  intro x hx hacc
  obtain rfl : x = acc := by simpa [hcombine, reduceCombine] using hacc
  obtain ⟨n, hn, hid⟩ := mem_filterMap.1 hx
  obtain rfl : n = .name x := by
    cases n <;> simp [Expr.id?] at hid
    rw [hid]
  simp only [readsName, List.any_eq_false, decide_eq_true_eq] at h
  exact h _ hn rfl

/-- **The statements that name the accumulator are those that combine it.** -/
theorem updates_of_reduction (hcombine : it.combine = reduceCombine op acc combine m) {accs : Accs}
    (haccs : ∀ x o, (x, o) ∈ accs → x = acc ∧ o = op) {b : Block}
    (hnodes : ∀ n ∈ b.walkNodes, Combines accs n)
    (halone : ∀ n ∈ b.walkNodes, combinesAlone op acc n = true)
    (hreset : ∀ targets value, .assign targets value ∈ b.walkNodes →
      targets.any (·.id? = some acc) = true → readsName value acc = true)
    (hiterators : ∀ x, .iterator x ∈ b.walkNodes → x ≠ acc)
    (hreads : nodeReads acc b.walkNodes = combineReads acc b.walkNodes) :
    Iteration.Updates it b := by
  have hfree : ∀ {e : Expr}, countReads e acc = 0 → it.FreeExpr e := fun h =>
    freeExpr_of_readsName hcombine (readsName_eq_false h)
  induction b with
  | done => trivial
  | assign targets e rest ih =>
    have hnodesEq : (Block.assign targets e rest).walkNodes = [.assign targets e] ++
      (targets.flatMap Block.targetNodes ++ Block.exprNodes e ++ rest.walkNodes) := rfl
    have hmem : .assign targets e ∈ (Block.assign targets e rest).walkNodes := mem_cons_self
    have hsub : rest.walkNodes ⊆ (Block.assign targets e rest).walkNodes := fun n hn =>
      mem_cons_of_mem _ (mem_append_right _ hn)
    have hle := combineReads_le acc rest
    have hzero := combineReads_flatMap (combineReads_targetNodes acc) targets
    rw [hnodesEq] at hreads
    simp only [combineReads_append, nodeReads_append, nodeReads_exprNodes, combineReads_exprNodes,
      hzero] at hreads
    have hassign : combineReads acc [.assign targets e] =
        if targets.any (·.id? = some acc) then countReads e acc else 0 := by
      simp [combineReads]
    have hnode : nodeReads acc [.assign targets e] = 0 := rfl
    have hcount : combineReads acc [.assign targets e] ≤ countReads e acc := by
      rw [hassign]
      split <;> omega
    have htargets : nodeReads acc (targets.flatMap Block.targetNodes) = 0 := by omega
    refine ⟨?_, fun t ht e' he' => freeExpr_of_readsName hcombine
      (reads_of_targetNodes (nodeReads_flatMap_eq_zero htargets ht) e' he'),
      ih (fun n hn => hnodes n (hsub hn)) (fun n hn => halone n (hsub hn))
        (fun _ _ hn => hreset _ _ (hsub hn)) (fun x hx => hiterators x (hsub hx)) (by omega)⟩
    cases hany : targets.any (·.id? = some acc) with
    | false =>
      rw [hassign, hany] at hreads
      refine .inl ⟨hfree (by simp at hreads; omega), fun t ht => ?_⟩
      have hid := List.any_eq_false.1 hany t ht
      simp only [hcombine, reduceCombine]
      exact .inr (by simpa using hid)
    | true =>
      have halone := halone _ hmem
      simp only [combinesAlone, hany, Bool.not_true, Bool.false_or, Bool.and_eq_true,
        decide_eq_true_eq] at halone
      obtain ⟨rfl, hplain⟩ := halone
      refine .inr ⟨acc, rfl, by rw [hcombine]; rfl, ?_⟩
      rw [hcombine]
      refine ⟨?_, hplain⟩
      rcases hnodes _ hmem acc mem_cons_self with ⟨r, hr, hmem⟩ | hfree
      · rw [hr, (haccs _ _ hmem).2]
      · rw [hreset _ _ hmem hany] at hfree
        cases hfree
  | augAssign t o e rest ih =>
    have hnodesEq : (Block.augAssign t o e rest).walkNodes = [.augAssign t o e] ++
      (Block.targetNodes t ++ Block.exprNodes e ++ rest.walkNodes) := rfl
    have hmem : .augAssign t o e ∈ (Block.augAssign t o e rest).walkNodes := mem_cons_self
    have hsub : rest.walkNodes ⊆ (Block.augAssign t o e rest).walkNodes := fun n hn =>
      mem_cons_of_mem _ (mem_append_right _ hn)
    have hle := combineReads_le acc rest
    have hzero := combineReads_targetNodes acc t
    rw [hnodesEq] at hreads
    simp only [combineReads_append, nodeReads_append, nodeReads_exprNodes, combineReads_exprNodes,
      hzero] at hreads
    have hassign : combineReads acc [.augAssign t o e] =
        if t.id? = some acc then countReads e acc else 0 := by
      simp [combineReads]
    have hnode : nodeReads acc [.augAssign t o e] = 0 := rfl
    have hcount : combineReads acc [.augAssign t o e] ≤ countReads e acc := by
      rw [hassign]
      split <;> omega
    have htarget : nodeReads acc (Block.targetNodes t) = 0 := by omega
    have hrest := ih (fun n hn => hnodes n (hsub hn)) (fun n hn => halone n (hsub hn))
      (fun _ _ hn => hreset _ _ (hsub hn)) (fun x hx => hiterators x (hsub hx)) (by omega)
    have htargetFree : ∀ e ∈ t.reads, it.FreeExpr e := fun e' he' =>
      freeExpr_of_readsName hcombine (reads_of_targetNodes htarget e' he')
    cases t with
    | name x =>
      obtain ⟨r, hr, hxr⟩ := hnodes _ hmem
      obtain ⟨rfl, rfl⟩ := haccs _ _ hxr
      have halone := halone _ hmem
      simp only [combinesAlone, Target.id?, ne_eq, not_true_eq_false, decide_false, Bool.false_or,
        Bool.not_eq_true'] at halone
      refine ⟨freeExpr_of_readsName hcombine halone, .inr ⟨x, rfl, by rw [hcombine]; rfl, ?_⟩,
        htargetFree, hrest⟩
      rw [hcombine]
      exact hr
    | subscript base s =>
      rw [hassign] at hreads
      exact ⟨hfree (by simp [Target.id?] at hreads; omega), .inl rfl, htargetFree, hrest⟩
  | expr e rest ih =>
    have hsub : rest.walkNodes ⊆ (Block.expr e rest).walkNodes := fun n hn =>
      mem_append_right _ hn
    have hle := combineReads_le acc rest
    have hcall := combineReads_callNodes acc e
    simp only [Block.walkNodes, combineReads_append, nodeReads_append, nodeReads_exprNodes,
      combineReads_exprNodes] at hreads
    exact ⟨hfree (by omega), ih (fun n hn => hnodes n (hsub hn)) (fun n hn => halone n (hsub hn))
      (fun _ _ hn => hreset _ _ (hsub hn)) (fun x hx => hiterators x (hsub hx)) (by omega)⟩
  | ifElse test body orelse rest ihb iho ihr =>
    have hb := combineReads_le acc body
    have ho := combineReads_le acc orelse
    have hr := combineReads_le acc rest
    simp only [Block.walkNodes, combineReads_append, nodeReads_append, nodeReads_exprNodes,
      combineReads_exprNodes] at hreads
    simp only [Block.walkNodes, mem_append] at hnodes halone hreset hiterators
    refine ⟨hfree (by omega), ihb ?_ ?_ ?_ ?_ (by omega), iho ?_ ?_ ?_ ?_ (by omega),
      ihr ?_ ?_ ?_ ?_ (by omega)⟩
    all_goals grind
  | forRange target args body rest ihb ihr =>
    have hb := combineReads_le acc body
    have hr := combineReads_le acc rest
    have hnodesEq : (Block.forRange target args body rest).walkNodes =
      [.iterator target, .store (.name target)] ++
        (Block.exprNodes (.call (.name "range") args) ++ body.walkNodes ++ rest.walkNodes) := rfl
    have hhead : combineReads acc [.iterator target, .store (.name target)] = 0 := rfl
    rw [hnodesEq] at hreads
    simp only [combineReads_append, nodeReads_append, nodeReads_exprNodes, combineReads_exprNodes,
      hhead] at hreads
    have hargs : countReads args acc ≤ countReads (.call (.name "range") args) acc := by
      unfold countReads
      exact List.Sublist.count_le _ (((sublist_append_right _ _).cons _))
    simp only [Block.walkNodes, mem_cons, mem_append] at hnodes halone hreset hiterators
    refine ⟨hfree (by omega), ?_, ihb ?_ ?_ ?_ ?_ (by omega), ihr ?_ ?_ ?_ ?_ (by omega)⟩
    · simp only [hcombine, reduceCombine]
      exact fun h => hiterators target (.inl rfl) (some.inj h)
    all_goals grind
  | whileDo test body rest ihb ihr =>
    have hb := combineReads_le acc body
    have hr := combineReads_le acc rest
    simp only [Block.walkNodes, combineReads_append, nodeReads_append, nodeReads_exprNodes,
      combineReads_exprNodes] at hreads
    simp only [Block.walkNodes, mem_append] at hnodes halone hreset hiterators
    refine ⟨hfree (by omega), ihb ?_ ?_ ?_ ?_ (by omega), ihr ?_ ?_ ?_ ?_ (by omega)⟩
    all_goals grind
  | brk rest ih => exact ih hnodes halone hreset hiterators hreads

end Updates

/-! ### Values that combine the accumulator -/

section Values

variable {op : ReductionOp} {acc : String} {combine : V → V → V} {identity m : V}
  {it : Iteration V} {bound : List String} {σ τ : State V}
variable {vs ws : List V} {args : Expr}

/-- A factor of one value is a factor of the combination. -/
theorem foldl_combine (h : Exact it.I op combine identity) (vs : List V) (a : V) :
    vs.foldl combine (combine m a) = combine m (vs.foldl combine a) := by
  induction vs generalizing a with
  | nil => rfl
  | cons v vs ih => rw [foldl_cons, foldl_cons, h.assoc, ih]

/-- Lists of values, equal but for one that has the factor `m` in the second. -/
def Scaled (combine : V → V → V) (m : V) (vs ws : List V) : Prop :=
  ∃ pre a post, vs = pre ++ a :: post ∧ ws = pre ++ combine m a :: post

theorem Scaled.cons (h : Scaled combine m vs ws) (v : V) :
    Scaled combine m (v :: vs) (v :: ws) := by
  obtain ⟨pre, a, post, rfl, rfl⟩ := h
  exact ⟨v :: pre, a, post, rfl, rfl⟩

theorem Scaled.foldl (hexact : Exact it.I op combine identity) {v w : V}
    (h : Scaled combine m (v :: vs) (w :: ws)) :
    ws.foldl combine w = combine m (vs.foldl combine v) := by
  obtain ⟨pre, a, post, hv, hw⟩ := h
  cases pre with
  | nil =>
    obtain ⟨rfl, rfl⟩ := cons.inj hv
    obtain ⟨rfl, rfl⟩ := cons.inj hw
    exact foldl_combine hexact ws v
  | cons x pre =>
    obtain ⟨rfl, hvs⟩ := cons.inj hv
    obtain ⟨rfl, hws⟩ := cons.inj hw
    change vs = pre ++ a :: post at hvs
    change ws = pre ++ combine m a :: post at hws
    rw [hvs, hws, foldl_append, foldl_append, foldl_cons, foldl_cons,
      ← hexact.assoc, hexact.comm _ m, hexact.assoc, foldl_combine hexact]

/-- The names of a tuple are those of its elements. -/
theorem freeExpr_of_elts (h : ∀ a ∈ args.elts, it.FreeExpr a) : it.FreeExpr args := by
  induction args with
  | unit =>
    intro x hx
    simp [loadNames, Expr.walkNodes, Expr.id?] at hx
  | pair head tail _ ih =>
    intro x hx
    have hx : x ∈ loadNames head ++ loadNames tail := by
      simpa only [loadNames, Expr.walkNodes, filterMap_cons, Expr.id?, filterMap_append]
        using hx
    rcases mem_append.1 hx with hx | hx
    · exact h head mem_cons_self x hx
    · exact ih (fun a ha => h a (mem_cons_of_mem _ ha)) x hx
  | _ => exact h _ mem_cons_self

theorem value_acc (hcombine : it.combine = reduceCombine op acc combine m)
    (h : it.Agree bound σ τ) : ∃ a, value it.I σ (.name acc) = some a ∧
      value it.I τ (.name acc) = some (combine m a) := by
  obtain ⟨a, b, ha, hb, hab⟩ := h.acc acc (by rw [hcombine]; rfl)
  rw [hcombine] at hab
  obtain rfl : b = combine m a := hab
  exact ⟨a, Translate.value_name ha, Translate.value_name hb⟩

/-- The arguments of a call, one of which is the accumulator. -/
theorem tuple_scaled (hcombine : it.combine = reduceCombine op acc combine m)
    (h : it.Agree bound σ τ) (htuple : args.isTuple = true) (hs : it.SliceExpr args)
    (hnames : ∀ x ∈ loadNames args, x ∈ it.scratch → x ∈ bound)
    (hbare : (args.elts.filter (readsAcc · acc)).length = 1)
    (hrest : ∀ a ∈ args.elts, readsAcc a acc = false → readsName a acc = false) :
    Option.Rel (Scaled combine m) (tuple it.I σ args) (tuple it.I τ args) := by
  induction args with
  | unit => simp [Expr.elts] at hbare
  | pair head tail _ ih =>
    have hload : ∀ x, x ∈ loadNames head ∨ x ∈ loadNames tail → x ∈ loadNames (.pair head tail) := by
      intro x hx
      simpa only [loadNames, Expr.walkNodes, filterMap_cons, Expr.id?, filterMap_append,
        mem_append] using hx
    have hhead : it.SliceExpr head := hs.mono (by simp [Expr.walkNodes]) (by simp [Expr.bareNames])
    have htail : it.SliceExpr tail := hs.mono (by simp [Expr.walkNodes]) (by simp [Expr.bareNames])
    rw [tuple_pair, tuple_pair]
    rw [Expr.elts, filter_cons] at hbare
    obtain ⟨hfirst, hothers⟩ := forall_mem_cons.1 hrest
    split at hbare
    · next hacc =>
      obtain rfl : head = .name acc := by simpa [readsAcc] using hacc
      have hfree : it.FreeExpr tail := freeExpr_of_elts fun a ha => by
        refine freeExpr_of_readsName hcombine (hothers a ha ?_)
        rw [length_cons, Nat.add_eq_right, length_eq_zero_iff,
          filter_eq_nil_iff] at hbare
        exact Bool.eq_false_iff.2 (hbare a ha)
      obtain ⟨a, ha, hb⟩ := value_acc hcombine h
      rw [ha, hb, bind_some, bind_some]
      refine rel_map (rel_eq_iff.2 ((Iteration.eval_agree h ⟨⟨htail, hfree⟩, fun x hx =>
        hnames x (hload x (.inr hx))⟩).items h)) ?_
      rintro vs _ rfl
      exact ⟨[], a, vs, rfl, rfl⟩
    · next hacc =>
      have hfree := freeExpr_of_readsName hcombine (hfirst (Bool.eq_false_iff.2 hacc))
      refine rel_bind (rel_eq_iff.2 (Iteration.value_agree h ⟨⟨hhead, hfree⟩, fun x hx =>
        hnames x (hload x (.inl hx))⟩)) ?_
      rintro v _ rfl
      exact rel_map (ih htuple htail (fun x hx => hnames x (hload x (.inr hx))) hbare hothers)
        fun vs ws hscaled => hscaled.cons v
  | _ => cases htuple

/-- A sum or a product with the accumulator as one operand, which the other does not read. -/
theorem reductionOp_binOp {o : Operator} {left right : Expr}
    (h : reductionOp (.binOp o left right) acc = some op) : augReductionOp o = some op ∧
      ((left = .name acc ∧ readsName right acc = false) ∨
        (right = .name acc ∧ readsName left acc = false)) := by
  obtain ⟨r, hr, h⟩ := bind_eq_some_iff.1 h
  cases hleft : readsAcc left acc <;> cases hright : readsAcc right acc <;>
    simp only [hleft, hright, if_true, if_false, Bool.false_eq_true, Bool.true_eq_false,
      reduceCtorEq] at h
  · split at h
    · cases h
    · next hfree =>
      obtain rfl := some.inj h
      exact ⟨hr, .inr ⟨by simpa [readsAcc] using hright, Bool.eq_false_iff.2 hfree⟩⟩
  · split at h
    · cases h
    · next hfree =>
      obtain rfl := some.inj h
      exact ⟨hr, .inl ⟨by simpa [readsAcc] using hleft, Bool.eq_false_iff.2 hfree⟩⟩

/-- **A value that combines the accumulator** has the factor the accumulator has. -/
theorem value_scaled (hexact : Exact it.I op combine identity)
    (hcombine : it.combine = reduceCombine op acc combine m) (h : it.Agree bound σ τ) {e : Expr}
    (hop : reductionOp e acc = some op) (hplain : plainCall op e = true) (hs : it.SliceExpr e)
    (hnames : ∀ x ∈ loadNames e, x ∈ it.scratch → x ∈ bound) :
    Option.Rel (fun a b => b = combine m a) (value it.I σ e) (value it.I τ e) := by
  cases e with
  | binOp o left right =>
    obtain ⟨ho, hop⟩ := reductionOp_binOp hop
    have hload : ∀ x, x ∈ loadNames left ∨ x ∈ loadNames right →
        x ∈ loadNames (.binOp o left right) := by
      intro x hx
      simpa only [loadNames, Expr.walkNodes, filterMap_cons, Expr.id?, filterMap_append,
        mem_append] using hx
    obtain ⟨a, ha, hb⟩ := value_acc hcombine h
    rw [value_binOp, value_binOp]
    rcases hop with ⟨rfl, hfree⟩ | ⟨rfl, hfree⟩
    · have hright : it.SliceExpr right :=
        hs.mono (by simp [Expr.walkNodes]) (by simp [Expr.bareNames])
      rw [ha, hb, bind_some, bind_some]
      refine rel_bind (rel_eq_iff.2 (Iteration.value_agree h
        ⟨⟨hright, freeExpr_of_readsName hcombine hfree⟩, fun x hx =>
          hnames x (hload x (.inr hx))⟩)) ?_
      rintro v _ rfl
      rw [hexact.binary o ho, hexact.binary o ho]
      exact .some (hexact.assoc m a v)
    · have hleft : it.SliceExpr left :=
        hs.mono (by simp [Expr.walkNodes]) (by simp [Expr.bareNames])
      refine rel_bind (rel_eq_iff.2 (Iteration.value_agree h
        ⟨⟨hleft, freeExpr_of_readsName hcombine hfree⟩, fun x hx =>
          hnames x (hload x (.inl hx))⟩)) ?_
      rintro v _ rfl
      rw [ha, hb, bind_some, bind_some, hexact.binary o ho, hexact.binary o ho]
      exact .some (by rw [← hexact.assoc, hexact.comm v m, hexact.assoc])
  | call func args =>
    obtain ⟨leaf, hleaf, hop⟩ := bind_eq_some_iff.1 hop
    split at hop
    swap
    · cases hop
    simp only [Bool.and_eq_true, decide_eq_true_eq, Bool.not_eq_true', List.any_eq_false] at hop
    split at hop
    swap
    · cases hop
    next hbare =>
    simp only [plainCall, Bool.and_eq_true, Bool.or_eq_true, decide_eq_true_eq] at hplain
    obtain ⟨htuple, hplain⟩ := hplain
    have hscaled := tuple_scaled hcombine h htuple
      (hs.mono (by simp [Expr.walkNodes]) (by simp [Expr.bareNames]))
      (fun x hx => hnames x (loadNames_call func args ▸ mem_append_right _ hx)) hbare.1
      (fun a ha hacc => Bool.eq_false_iff.2 (hbare.2 a (mem_filter.2 ⟨ha, by simp [hacc]⟩)))
    rw [value_call, value_call, hleaf, bind_some, bind_some]
    cases hvs : tuple it.I σ args with
    | none =>
      rw [hvs] at hscaled
      cases hws : tuple it.I τ args with
      | none => exact .none
      | some ws => rw [hws] at hscaled; cases hscaled
    | some vs =>
      rw [hvs] at hscaled
      cases hws : tuple it.I τ args with
      | none => rw [hws] at hscaled; cases hscaled
      | some ws =>
        rw [hws] at hscaled
        have hscaled := rel_some_some.1 hscaled
        have hlength := length_of_tuple it.I σ htuple hvs
        have hlength' := length_of_tuple it.I τ htuple hws
        rw [bind_some, bind_some]
        rcases hplain with ⟨⟨hname, hbuiltin⟩, htwo⟩ | ⟨hpair, htwo⟩
        · obtain rfl : func = .name leaf := by
            cases func <;> simp [Expr.id?, callLeaf] at hname hleaf
            rw [hleaf]
          rw [← hlength'] at hlength htwo
          rcases ws with _ | ⟨w, _ | ⟨w', ws⟩⟩
          · simp at htwo
          · simp at htwo
          rcases vs with _ | ⟨v, _ | ⟨v', vs⟩⟩
          · simp at hlength
          · simp at hlength
          rw [hexact.builtin leaf hbuiltin.symm, hexact.builtin leaf hbuiltin.symm]
          exact .some (hscaled.foldl hexact)
        · rw [hleaf] at hpair
          have hpair : leaf ∈ op.pairwise := by simpa using hpair
          rw [← hlength'] at hlength htwo
          obtain ⟨w, w', rfl⟩ := length_eq_two.1 (by simpa using htwo)
          obtain ⟨v, v', rfl⟩ := length_eq_two.1 hlength
          rw [hexact.pairwise leaf hpair, hexact.pairwise leaf hpair]
          exact .some (hscaled.foldl hexact)
  | _ => cases hop

end Values

/-! ### Groups of iterations -/

section Groups

variable {loop : Loop} {site : Site} {arrays : List String} {op : ReductionOp} {acc : String}
  {I : Interp V} {combine : V → V → V} {identity : V}

/-- An iteration of a reduction whose accumulator starts from `m`. -/
def reduceIter (loop : Loop) (I : Interp V) (arrays : List String) (op : ReductionOp) (acc : String)
    (combine : V → V → V) (m : V) (i : ℤ) : Iteration V :=
  loop.iter I arrays (loop.body.bareStoreNames.filter (· ≠ acc)) (reduceCombine op acc combine m) i

/-- The iterations of a recognised loop. -/
theorem independent_of_reduction (h : loopReduction loop = some (op, acc))
    (hexact : Exact I op combine identity) (hown : OwnSlices loop arrays)
    (halone : CombinesAlone loop site op acc) (m : V) (i : ℤ) :
    Independent (reduceIter loop I arrays op acc combine m i) loop.body := by
  obtain ⟨⟨accs, hnodes, haccs⟩, hobserved, hreset, hsafe, hconsistent⟩ := of_loopReduction h
  refine ⟨⟨fun hidx => halone.index (some.inj hidx).symm, fun e he hs bound σ τ hagree hnames
    => value_scaled hexact rfl hagree he.1 he.2 hs hnames, fun o ho a b v hab => ?_⟩, ?_,
    halone.carried, fun hmem => hown.index (mem_of_mem_filter hmem)⟩
  · obtain rfl : b = combine m a := hab
    change Option.Rel _ (I.binary o a v) (I.binary o (combine m a) v)
    rw [hexact.binary o ho, hexact.binary o ho]
    exact .some (hexact.assoc m a v)
  · refine Iteration.fits_of_sliced (updates_of_reduction rfl haccs hnodes
      (all_eq_true.1 halone.statements) (fun targets value hn hany => ?_) (fun x hx hxacc => ?_)
      (of_not_not fun hne => decide_eq_false_iff_not.1 hobserved hne))
      (Iteration.sliced_body hown hsafe hconsistent rfl rfl rfl rfl fun x hx hxacc => ?_)
    · have hnode := List.any_eq_false.1 hreset _ hn
      simpa [hany] using hnode
    · exact halone.iterators (mem_filterMap.2 ⟨_, hx, by rw [hxacc]⟩)
    · refine mem_filter.2 ⟨hx, decide_eq_true fun hxa => hxacc ?_⟩
      rw [hxa]
      rfl

variable {G : Type} [DecidableEq G]
variable {groups : List G} {g : G} {fuel : ℕ} {vals : List ℤ} {σ : State V}

/-- The product of the partial results. -/
def partials (hexact : Exact I op combine identity) (groups : List G) (u : State V × (G → V)) : V :=
  letI := hexact.monoid
  (groups.map u.2).prod

theorem partials_update (hexact : Exact I op combine identity) (hnodup : groups.Nodup)
    (hg : g ∈ groups) (σ τ : State V) (f : G → V) (a : V) :
    partials hexact groups (τ, Function.update f g (combine (f g) a)) =
      combine (partials hexact groups (σ, f)) a := by
  let _ := hexact.monoid
  change (groups.map (Function.update f g (f g * a))).prod = (groups.map f).prod * a
  induction groups with
  | nil => cases hg
  | cons x groups ih =>
    obtain ⟨hx, hnodup⟩ := nodup_cons.1 hnodup
    rw [map_cons, prod_cons, map_cons, prod_cons]
    by_cases hxg : x = g
    · subst hxg
      have hrest : groups.map (Function.update f x (f x * a)) = groups.map f :=
        map_congr_left fun y hy => Function.update_of_ne (fun hyx => hx (by rwa [← hyx])) ..
      rw [hrest, Function.update_self, mul_right_comm]
    · rw [Function.update_of_ne hxg, ih hnodup ((mem_cons.1 hg).resolve_left (Ne.symm hxg)),
        mul_assoc]

omit [DecidableEq G] in
theorem partials_one (hexact : Exact I op combine identity) (groups : List G) (σ : State V) :
    partials hexact groups (σ, fun _ => identity) = identity := by
  let _ := hexact.monoid
  change (groups.map fun _ => (1 : V)).prod = 1
  induction groups with
  | nil => rfl
  | cons x groups ih => rw [map_cons, prod_cons, ih, one_mul]

theorem partials_single (hexact : Exact I op combine identity) (hnodup : groups.Nodup)
    (hg : g ∈ groups) (τ : State V) (a : V) :
    partials hexact groups (τ, Function.update (fun _ => identity) g a) = a := by
  have hupdate := partials_update hexact hnodup hg τ τ (fun _ => identity) a
  rwa [partials_one, hexact.identity_combine] at hupdate

omit [DecidableEq G] in
/-- The combination of the partial results. -/
theorem foldl_partials (hexact : Exact I op combine identity) (groups : List G)
    (u : State V × (G → V)) (a : V) :
    (groups.map u.2).foldl combine a = combine a (partials hexact groups u) := by
  let _ := hexact.monoid
  change (groups.map u.2).foldl (· * ·) a = a * (groups.map u.2).prod
  generalize groups.map u.2 = vs
  induction vs generalizing a with
  | nil => exact (mul_one a).symm
  | cons v vs ih => rw [foldl_cons, ih, prod_cons, mul_assoc]

/-- The names that a group's iterations may bind. -/
def reduceHidden (loop : Loop) (acc : String) : List String :=
  acc :: loop.target :: loop.body.bareStoreNames

/-- What an iteration does on its own: the store it leaves, and its partial result. -/
def alone (I : Interp V) (fuel : ℕ) (loop : Loop) (acc : String) (identity : V) (σ : State V)
    (i : ℤ) : Option (State V × V) :=
  (iteration I fuel loop i (σ.setScalar acc identity)).bind fun p =>
    (p.1.scalars acc).map fun a => (p.1, a)

/-- The iterations of a recognised loop, in groups, are independent steps. -/
theorem keeps_of_reduction (h : loopReduction loop = some (op, acc))
    (hexact : Exact I op combine identity) (hown : OwnSlices loop arrays)
    (halone : CombinesAlone loop site op acc) (hnamed : ∀ A, (σ.arrays A).isSome → A ∈ arrays)
    (prep : ℤ → State V → State V) (hprep : ∀ v τ, (prep v τ).arrays = τ.arrays ∧
      ∀ x, x ∉ reduceHidden loop acc → (prep v τ).scalars x = τ.scalars x) {group : ℤ → G}
    (hnodup : groups.Nodup) (hgroup : ∀ v ∈ vals, group v ∈ groups) (f : G → V) :
    letI := hexact.monoid
    Steps.Keeps (fun u => view (reduceHidden loop acc) loop.body.writtenArrays u.1)
      (fun i => (reduceIter loop I arrays op acc combine identity i).owns σ)
      (partials hexact groups)
      (fun u => ∀ A, (u.1.arrays A).map Arr.shape = (σ.arrays A).map Arr.shape)
      (fun i => (alone I fuel loop acc identity σ i).map fun w =>
        (w.1, Function.update (fun _ => identity) (group i) w.2)) vals (σ, f)
      (groupStep I fuel loop acc prep group) := by
  let _ := hexact.monoid
  have hset : ∀ v (u : State V) a, ((prep v u).setScalar acc a).arrays = u.arrays ∧
      ∀ x, x ∉ reduceHidden loop acc → ((prep v u).setScalar acc a).scalars x = u.scalars x := by
    refine fun v u a => ⟨(hprep v u).1, fun x hx => ?_⟩
    have hxa : x ≠ acc := fun hxa => hx (mem_cons.2 (.inl hxa))
    rw [State.setScalar_of_ne hxa, (hprep v u).2 x hx]
  have hnext : ∀ v u p, iteration I fuel loop v u = some p → p.2 = .next := by
    intro v u p hp
    obtain ⟨u', -, hp⟩ := bind_eq_some_iff.1 hp
    exact exec_next hown.breaks hp
  constructor
  · intro i hi u t hinv ht
    obtain ⟨p, hp, ht⟩ := bind_eq_some_iff.1 ht
    rw [hnext _ _ p hp] at ht
    obtain ⟨a, -, rfl⟩ := map_eq_some_iff.1 ht
    have hnamed' : ∀ A, (u.1.arrays A).isSome → A ∈ arrays := fun A hA => hnamed A <| by
      have hshape := congrArg Option.isSome (hinv A)
      rw [isSome_map, isSome_map] at hshape
      rwa [← hshape]
    have hframe := iteration_frame (reduceIter loop I arrays op acc combine identity i)
      (independent_of_reduction h hexact hown halone identity i) rfl
      (mem_cons_of_mem _ mem_cons_self) (fun x hx => ⟨fun hs => hx ?_, fun hxa => hx ?_⟩)
      hnamed' (hset i u.1 _) hinv hp
    · exact ⟨fun A => (hframe.1 A).trans (hinv A), hframe.2⟩
    · exact mem_cons_of_mem _ (mem_cons_of_mem _ (mem_of_mem_filter hs))
    · exact mem_cons.2 (.inl (some.inj hxa))
  · intro i hi u hinv hready
    have hscalar : ∀ x, x ∉ reduceHidden loop acc → σ.scalars x = u.1.scalars x := fun x hx => by
      have hview := hready (.scalar x) (.inr fun j _ => id)
      simp only [view, if_neg hx] at hview
      injection hview
    have hothers : ∀ A, A ∉ loop.body.writtenArrays → σ.arrays A = u.1.arrays A := fun A hA => by
      have hview := hready (.array A) (.inr fun j _ => id)
      simp only [view, if_neg hA] at hview
      injection hview
    have hsame : SameCells (reduceIter loop I arrays op acc combine (u.2 (group i)) i)
        (reduceHidden loop acc) σ u.1 := by
      refine ⟨hscalar, hothers, fun A => (hinv A).symm, fun A c hc => ?_⟩
      have hview := hready (.element A c) (.inl hc)
      injection hview
    have hbegin : ∀ x, x ∉ reduceHidden loop acc →
        (σ.setScalar acc identity).scalars x = σ.scalars x := fun x hx =>
      State.setScalar_of_ne fun hxa => hx (mem_cons.2 (.inl hxa))
    have hfollows : Option.Rel _ (iteration I fuel loop i (σ.setScalar acc identity))
        (iteration I fuel loop i ((prep i u.1).setScalar acc (u.2 (group i)))) :=
      iteration_follows (reduceIter loop I arrays op acc combine (u.2 (group i)) i)
        (independent_of_reduction h hexact hown halone _ i) rfl hsame
        (mem_cons_of_mem _ mem_cons_self) (fun x hx => ?_) hnamed ⟨rfl, hbegin⟩
        (hset i u.1 (u.2 (group i))) fun x hx => ?_
    · unfold alone groupStep
      cases hp : iteration I fuel loop i (σ.setScalar acc identity) with
      | none =>
        rw [hp] at hfollows
        cases hq : iteration I fuel loop i ((prep i u.1).setScalar acc (u.2 (group i))) with
        | none => exact .none
        | some q => rw [hq] at hfollows; cases hfollows
      | some p =>
        rw [hp] at hfollows
        cases hq : iteration I fuel loop i ((prep i u.1).setScalar acc (u.2 (group i))) with
        | none => rw [hq] at hfollows; cases hfollows
        | some q =>
          rw [hq] at hfollows
          obtain ⟨hcells, hacc⟩ := rel_some_some.1 hfollows
          obtain ⟨a, b, ha, hb, hab⟩ := hacc acc rfl
          obtain rfl : b = combine (u.2 (group i)) a := hab
          simp only [bind_some, hnext _ _ q hq, ha, hb, map_some]
          refine .some ⟨hcells, ?_⟩
          have hone := partials_single hexact hnodup (hgroup i hi) p.1 a
          change partials hexact groups (q.1, _) = combine (partials hexact groups u) _
          rw [partials_update hexact hnodup (hgroup i hi) u.1, hone]
    · rcases mem_cons.1 hx with hx | hx
      · exact .inr (.inr (by rw [hx]; rfl))
      · rcases mem_cons.1 hx with hx | hx
        · exact .inl hx
        · by_cases hxa : x = acc
          · exact .inr (.inr (by rw [hxa]; rfl))
          · exact .inr (.inl (mem_filter.2 ⟨hx, decide_eq_true hxa⟩))
    · obtain rfl : x = acc := some.inj hx
      refine ⟨identity, u.2 (group i), State.setScalar_self, State.setScalar_self, ?_⟩
      exact ((hexact.comm _ _).trans (hexact.identity_combine _)).symm

/-- The sequential loop is one group. -/
theorem runAll_of_forSteps (h : loopReduction loop = some (op, acc))
    (hexact : Exact I op combine identity) (hown : OwnSlices loop arrays)
    (halone : CombinesAlone loop site op acc) {τ : State V}
    (hnamed : ∀ A, (σ.arrays A).isSome → A ∈ arrays)
    (hτ : forSteps (iteration I fuel loop) vals σ = some τ) {a : V} (ha : σ.scalars acc = some a) :
    ∃ b, Steps.runAll (groupStep I fuel loop acc (fun _ u => u) fun _ => ()) vals (σ, fun _ => a) =
      some (τ, fun _ => b) ∧ τ.scalars acc = some b := by
  induction vals generalizing σ a with
  | nil =>
    obtain rfl := some.inj hτ
    exact ⟨a, rfl, ha⟩
  | cons v vals ih =>
    obtain ⟨⟨σ', flow⟩, hstep, hτ⟩ := bind_eq_some_iff.1 hτ
    obtain ⟨σ₁, hset, hexec⟩ := bind_eq_some_iff.1 hstep
    obtain rfl : flow = .next := exec_next hown.breaks hexec
    obtain ⟨hstart, hindex, -⟩ := start_of_set
      (reduceIter loop I arrays op acc combine identity v) [loop.target] mem_cons_self ⟨rfl, fun _ _ => rfl⟩ hset
    have hind := independent_of_reduction h hexact hown halone identity v
    have hstays := Iteration.exec_stays hind.sound.index fuel hind.fits
      ⟨hindex, fun A hA => hnamed A (hstart.1 ▸ hA)⟩ hexec
    have hbound : (σ'.scalars acc).isSome := by
      refine hstays.bound acc ?_
      rw [hstart.2 acc (by simpa using halone.index), ha]
      rfl
    obtain ⟨a', ha'⟩ := isSome_iff_exists.1 hbound
    have hgroup : groupStep I fuel loop acc (fun _ u => u) (fun _ => ()) v (σ, fun _ => a) =
        some (σ', fun _ => a') := by
      unfold groupStep
      rw [State.setScalar_eq_self ha, hstep, bind_some]
      simp only [ha', map_some]
      have hupdate : Function.update (fun _ : Unit => a) () a' = fun _ => a' := by
        funext u
        cases u
        exact Function.update_self ..
      rw [hupdate]
    have hnamed' : ∀ A, (σ'.arrays A).isSome → A ∈ arrays := fun A hA => by
      rw [hstays.isSome A, hstart.1] at hA
      exact hnamed A hA
    obtain ⟨b, hrun, hb⟩ := ih hnamed' hτ ha'
    refine ⟨b, ?_, hb⟩
    unfold Steps.runAll at hrun ⊢
    rw [foldlM_cons, hgroup]
    exact hrun

end Groups

theorem exact_add : Exact intInterp .add (· + ·) 0 where
  assoc := add_assoc
  comm := add_comm
  identity_combine := zero_add
  binary o ho a b := by
    cases o with
    | add => rfl
    | _ => cases ho
  builtin _ hf := by cases hf
  pairwise _ hf := by cases hf

/-- `for i in range(2): s += a[i]`. -/
def sumLoop : Loop where
  target := "i"
  args := .pair (.const (.int 2)) .unit
  body := .augAssign (.name "s") .add (.subscript (.name "a") (.name "i")) .done

/-- `for i in range(2): s += s * a[i]`. -/
def growLoop : Loop where
  target := "i"
  args := .pair (.const (.int 2)) .unit
  body := .augAssign (.name "s") .add
    (.binOp .mult (.name "s") (.subscript (.name "a") (.name "i"))) .done

/-- The accumulator is one. -/
def sumStore : State ℤ := copyStore.setScalar "s" 1

theorem growLoop_private : privateNames growLoop ["a", "b", "c"] (some "s") = ["i"] := by
  have hnone : (bodyScalars growLoop).filter
      (fun name => name ∉ ["a", "b", "c"] && some name ≠ some "s") = [] := by decide
  rw [privateNames, ompPrivateScalars, hnone, dedup_nil, mergeSort_nil]
  decide

end Translate

end HpcAgentBench
