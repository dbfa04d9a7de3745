import HpcAgentBench.Translate.Replay

/-!
# The rounds of forward substitution

The census of a body counts each name's stores; a name that is stored once is bound by the one
assignment the search found (`boundOnce_of_count`), and the counts stay those of the body over the
rounds (`Census.Current`).

## Main results

* `forward_substitute_sound` : the pass keeps the arrays and every scalar still read, where no round
  replays a stale value.
-/

namespace HpcAgentBench

open List

namespace Translate

/-! ### Counting stores -/

section Count

variable {name : String}

/-- A statement that binds a name. -/
def Block.Node.binds (name : String) : Block.Node → Bool
  | .assign targets _ => .name name ∈ targets
  | .augAssign target _ _ => target = .name name
  | .iterator id => id = name
  | _ => false

/-- A store of a name. -/
def Block.Node.isStore (name : String) : Block.Node → Bool
  | .store target => target = .name name
  | _ => false

section Nodes

variable {targets : List Target} {target : Target} {op : Operator} {value : Expr} {id : String}

@[simp] theorem isStore_assign : Block.Node.isStore name (.assign targets value) = false := rfl

@[simp] theorem isStore_augAssign : Block.Node.isStore name (.augAssign target op value) = false := rfl

@[simp] theorem isStore_iterator : Block.Node.isStore name (.iterator id) = false := rfl

@[simp] theorem isStore_store :
    Block.Node.isStore name (.store target) = decide (target = .name name) := rfl

@[simp] theorem binds_augAssign :
    Block.Node.binds name (.augAssign target op value) = decide (target = .name name) := rfl

@[simp] theorem binds_iterator : Block.Node.binds name (.iterator id) = decide (id = name) := rfl

@[simp] theorem binds_store : Block.Node.binds name (.store target) = false := rfl

end Nodes

theorem count_bareStoreNames (b : Block) :
    b.bareStoreNames.count name = b.walkNodes.countP (·.isStore name) := by
  rw [Block.bareStoreNames, List.count, countP_filterMap]
  refine countP_congr fun n _ => ?_
  cases n with
  | store target =>
    cases target with
    | name id | subscript value index => simp [Block.Node.isStore]
  | _ => simp [Block.Node.isStore]

theorem countP_exprNodes (e : Expr) :
    (Block.exprNodes e).countP (·.isStore name) = 0 ∧
      (Block.exprNodes e).countP (·.binds name) = 0 := by
  constructor <;> simp [Block.exprNodes, countP_map, Function.comp_def,
    Block.Node.isStore, Block.Node.binds]

theorem countP_callNodes (e : Expr) :
    (Block.callNodes e).countP (·.isStore name) = 0 ∧
      (Block.callNodes e).countP (·.binds name) = 0 := by
  cases e <;> simp [Block.callNodes, Block.Node.isStore, Block.Node.binds]

theorem countP_targetNodes (t : Target) :
    (Block.targetNodes t).countP (·.isStore name) = (if t = .name name then 1 else 0) ∧
      (Block.targetNodes t).countP (·.binds name) = 0 := by
  have hreads : ∀ es : List Expr, (es.flatMap Block.exprNodes).countP (·.isStore name) = 0 ∧
      (es.flatMap Block.exprNodes).countP (·.binds name) = 0 := by
    intro es
    induction es with
    | nil => exact ⟨rfl, rfl⟩
    | cons e es ih =>
      simp only [flatMap_cons, countP_append, ih.1, ih.2, (countP_exprNodes e).1,
        (countP_exprNodes e).2, Nat.add_zero, and_self]
  simp only [Block.targetNodes, countP_cons, (hreads t.reads).1, (hreads t.reads).2]
  simp [Block.Node.isStore, Block.Node.binds]

theorem countP_targets (targets : List Target) :
    (targets.flatMap Block.targetNodes).countP (·.isStore name) = targets.count (.name name) ∧
      (targets.flatMap Block.targetNodes).countP (·.binds name) = 0 := by
  induction targets with
  | nil => exact ⟨rfl, rfl⟩
  | cons t ts ih =>
    simp only [flatMap_cons, countP_append, ih.1, ih.2, (countP_targetNodes t).1,
      (countP_targetNodes t).2, count_cons, beq_iff_eq]
    exact ⟨by omega, trivial⟩

/-- Each statement that binds a name stores it. -/
theorem countP_binds_le (b : Block) :
    b.walkNodes.countP (·.binds name) ≤ b.walkNodes.countP (·.isStore name) := by
  induction b with
  | done => exact Nat.le_refl 0
  | assign targets value rest ih =>
    simp only [Block.walkNodes, countP_cons, countP_append, (countP_targets targets).1,
      (countP_targets targets).2, (countP_exprNodes value).1, (countP_exprNodes value).2]
    have hhead : (if Block.Node.binds name (.assign targets value) = true then 1 else 0) ≤
        targets.count (.name name) := by
      split
      · next hbinds =>
        exact count_pos_iff.2 (by simpa [Block.Node.binds] using hbinds)
      · exact Nat.zero_le _
    simp only [isStore_assign, Bool.false_eq_true, if_false]
    omega
  | augAssign target op value rest ih =>
    simp only [Block.walkNodes, countP_cons, countP_append, (countP_targetNodes target).1,
      (countP_targetNodes target).2, (countP_exprNodes value).1, (countP_exprNodes value).2,
      isStore_augAssign, binds_augAssign, Bool.false_eq_true, if_false, decide_eq_true_eq]
    omega
  | expr value rest ih =>
    simp only [Block.walkNodes, countP_append, (countP_callNodes value).1,
      (countP_callNodes value).2, (countP_exprNodes value).1, (countP_exprNodes value).2]
    omega
  | ifElse test body orelse rest ihb iho ihr =>
    simp only [Block.walkNodes, countP_append, (countP_exprNodes test).1,
      (countP_exprNodes test).2]
    omega
  | forRange target args body rest ihb ihr =>
    simp only [Block.walkNodes, countP_cons, countP_append,
      (countP_exprNodes (.call (.name "range") args)).1,
      (countP_exprNodes (.call (.name "range") args)).2, isStore_iterator, isStore_store,
      binds_iterator, binds_store, Bool.false_eq_true, if_false, decide_eq_true_eq,
      Target.name.injEq]
    omega
  | whileDo test body rest ihb ihr =>
    simp only [Block.walkNodes, countP_append, (countP_exprNodes test).1,
      (countP_exprNodes test).2]
    omega
  | brk rest ih => exact ih

theorem eq_of_countP_le_one {α : Type} {p : α → Bool} {l : List α} (h : l.countP p ≤ 1) {a b : α}
    (ha : a ∈ l) (hpa : p a = true) (hb : b ∈ l) (hpb : p b = true) : a = b := by
  rw [countP_eq_length_filter] at h
  have hma : a ∈ l.filter p := mem_filter.2 ⟨ha, hpa⟩
  have hmb : b ∈ l.filter p := mem_filter.2 ⟨hb, hpb⟩
  match hl : l.filter p with
  | [] => simp [hl] at hma
  | [c] =>
    rw [hl] at hma hmb
    rw [mem_singleton.1 hma, mem_singleton.1 hmb]
  | c :: d :: rest => simp [hl] at h

/-- **A name that is stored once** is bound by the assignment the search found. -/
theorem boundOnce_of_count {b : Block} {expr_ : Expr} (hcount : b.bareStoreNames.count name = 1)
    (hfound : .assign [.name name] expr_ ∈ b.walkNodes) : BoundOnce name expr_ b := by
  have hbinds : b.walkNodes.countP (·.binds name) ≤ 1 :=
    (countP_binds_le b).trans (count_bareStoreNames b ▸ hcount).le
  have honly : ∀ n ∈ b.walkNodes, n.binds name = true → n = .assign [.name name] expr_ :=
    fun n hn hbind => eq_of_countP_le_one hbinds hn hbind hfound (by simp [Block.Node.binds])
  refine ⟨fun targets value hmem htargets => ?_, fun op value hmem => ?_, fun hmem => ?_⟩
  · injection honly _ hmem (by simpa [Block.Node.binds] using htargets) with ht hv
    exact ⟨ht, hv⟩
  · cases honly _ hmem (by simp [Block.Node.binds])
  · cases honly _ hmem (by simp [Block.Node.binds])

end Count

/-! ### A body after a round -/

section Replayed

variable {name_ : String} {expr_ : Expr} {x : String}
variable {t : Target} {b : Block} {e : Expr}

theorem target_replay_eq_name :
    t.replay name_ expr_ = .name x ↔ t = .name x := by
  cases t <;> simp [Target.replay]

theorem count_replay_targets (targets : List Target) :
    (targets.map (Target.replay name_ expr_)).count (.name x) = targets.count (.name x) := by
  rw [List.count, countP_map]
  refine countP_congr fun t _ => ?_
  simp [target_replay_eq_name]

/-- **The stores after a round**: those before it, but the name's. -/
theorem count_replay (honce : BoundOnce name_ expr_ b) :
    (b.replay name_ expr_).bareStoreNames.count x =
      if x = name_ then 0 else b.bareStoreNames.count x := by
  simp only [count_bareStoreNames]
  induction b with
  | done => simp [Block.replay, Block.walkNodes]
  | assign targets value rest ih =>
    have hrest := ih (honce.mono fun n hn => by simp [Block.walkNodes, hn])
    by_cases htargets : targets = [.name name_]
    · obtain ⟨-, rfl⟩ := honce.assign targets value (by simp [Block.walkNodes])
        (htargets ▸ mem_singleton.2 rfl)
      subst htargets
      rw [Block.replay, if_pos ⟨rfl, rfl⟩, hrest]
      simp only [Block.walkNodes, countP_cons, countP_append, (countP_targets _).1,
        (countP_exprNodes value).1, isStore_assign, count_singleton, beq_iff_eq,
        Target.name.injEq, Bool.false_eq_true, if_false]
      split
      · rfl
      · next hx =>
        rw [if_neg fun h : name_ = x => hx h.symm]
        omega
    · rw [Block.replay, if_neg fun h => htargets h.1]
      simp only [Block.walkNodes, countP_cons, countP_append, (countP_targets _).1,
        (countP_exprNodes _).1, isStore_assign, count_replay_targets, hrest, Bool.false_eq_true,
        if_false]
      split
      · next hx =>
        subst hx
        have hzero : targets.count (.name x) = 0 := count_eq_zero.2 fun hmem =>
          htargets (honce.assign targets value (by simp [Block.walkNodes]) hmem).1
        omega
      · rfl
  | augAssign target op value rest ih =>
    have hrest := ih (honce.mono fun n hn => by simp [Block.walkNodes, hn])
    have htarget : target ≠ .name name_ := by
      rintro rfl
      exact honce.aug op value (by simp [Block.walkNodes])
    simp only [Block.replay, Block.walkNodes, countP_cons, countP_append,
      (countP_targetNodes _).1, (countP_exprNodes _).1, isStore_augAssign, target_replay_eq_name,
      hrest, Bool.false_eq_true, if_false]
    by_cases hx : x = name_
    · rw [if_neg fun h => htarget (hx ▸ h), if_pos hx, if_pos hx]
    · rw [if_neg hx, if_neg hx]
  | expr value rest ih =>
    have hrest := ih (honce.mono fun n hn => by simp [Block.walkNodes, hn])
    simp only [Block.replay, Block.walkNodes, countP_append, (countP_callNodes _).1,
      (countP_exprNodes _).1, hrest, Nat.zero_add]
  | ifElse test body orelse rest ihb iho ihr =>
    have hbody := ihb (honce.mono fun n hn => by simp [Block.walkNodes, hn])
    have horelse := iho (honce.mono fun n hn => by simp [Block.walkNodes, hn])
    have hrest := ihr (honce.mono fun n hn => by simp [Block.walkNodes, hn])
    simp only [Block.replay, Block.walkNodes, countP_append, (countP_exprNodes _).1, hbody,
      horelse, hrest]
    split <;> rfl
  | forRange target args body rest ihb ihr =>
    have hbody := ihb (honce.mono fun n hn => by simp [Block.walkNodes, hn])
    have hrest := ihr (honce.mono fun n hn => by simp [Block.walkNodes, hn])
    have htarget : target ≠ name_ := by
      rintro rfl
      exact honce.iterator (by simp [Block.walkNodes])
    simp only [Block.replay, Block.walkNodes, countP_cons, countP_append,
      (countP_exprNodes _).1, isStore_iterator, isStore_store, hbody, hrest, Bool.false_eq_true,
      if_false, decide_eq_true_eq, Target.name.injEq]
    by_cases hx : x = name_
    · rw [if_neg fun h => htarget (hx ▸ h), if_pos hx, if_pos hx, if_pos hx]
    · rw [if_neg hx, if_neg hx, if_neg hx]
  | whileDo test body rest ihb ihr =>
    have hbody := ihb (honce.mono fun n hn => by simp [Block.walkNodes, hn])
    have hrest := ihr (honce.mono fun n hn => by simp [Block.walkNodes, hn])
    simp only [Block.replay, Block.walkNodes, countP_append, (countP_exprNodes _).1, hbody,
      hrest]
    split <;> rfl
  | brk rest ih => exact ih (honce.mono fun n hn => by simp [Block.walkNodes, hn])

/-! ### Reads -/

theorem mem_loadNames_block : x ∈ b.loadNames ↔ .load (.name x) ∈ b.walkNodes := by
  rw [Block.loadNames, mem_filterMap]
  constructor
  · rintro ⟨n, hn, hx⟩
    split at hx
    · obtain rfl := Option.some.inj hx
      exact hn
    · cases hx
  · exact fun h => ⟨_, h, rfl⟩

theorem mem_exprNodes : .load (.name x) ∈ Block.exprNodes e ↔ x ∈ loadNames e := by
  simp only [Block.exprNodes, mem_map, Block.Node.load.injEq, exists_eq_right, loadNames,
    mem_filterMap]
  constructor
  · exact fun h => ⟨_, h, rfl⟩
  · rintro ⟨e', he', hid⟩
    cases e' <;> simp [Expr.id?] at hid
    exact hid ▸ he'

theorem load_not_mem_callNodes : .load (.name x) ∉ Block.callNodes e := by
  cases e <;> simp [Block.callNodes]

theorem mem_targetNodes :
    .load (.name x) ∈ Block.targetNodes t ↔ ∃ e ∈ t.reads, x ∈ loadNames e := by
  simp only [Block.targetNodes, mem_cons, reduceCtorEq, false_or, mem_flatMap,
    mem_exprNodes]

/-- The reads of a replayed expression. -/
theorem mem_loadNames_replay (hx : x ∈ loadNames (Expr.replay name_ expr_ e)) :
    (x ≠ name_ ∧ x ∈ loadNames e) ∨ x ∈ loadNames expr_ := by
  have hname : ∀ {id : String}, x ∈ loadNames (.name id) ↔ x = id := by
    simp [loadNames, Expr.walkNodes, Expr.id?]
  induction e with
  | name id =>
    simp only [Expr.replay] at hx
    split at hx
    · exact .inr hx
    · next hid => exact .inl ⟨hname.1 hx ▸ hid, hx⟩
  | const v | unit => exact absurd hx (by simp [Expr.replay, loadNames, Expr.walkNodes, Expr.id?])
  | attr value a ih => exact ih hx
  | unaryOp op operand ih => exact ih hx
  | binOp op left right ihl ihr | boolOp conj left right ihl ihr =>
    simp only [Expr.replay, loadNames, Expr.walkNodes, filterMap_cons, Expr.id?,
      filterMap_append, mem_append] at hx ihl ihr ⊢
    grind
  | ifExp test body orelse iht ihb iho =>
    simp only [Expr.replay, loadNames, Expr.walkNodes, filterMap_cons, Expr.id?,
      filterMap_append, mem_append] at hx iht ihb iho ⊢
    grind
  | call func args ihf iha =>
    simp only [Expr.replay, loadNames, Expr.walkNodes, filterMap_cons, Expr.id?,
      filterMap_append, mem_append] at hx ihf iha ⊢
    grind
  | subscript value slice ihv ihs =>
    simp only [Expr.replay, loadNames, Expr.walkNodes, filterMap_cons, Expr.id?,
      filterMap_append, mem_append] at hx ihv ihs ⊢
    grind
  | slice lower upper step ihl ihu ihs =>
    simp only [Expr.replay, loadNames, Expr.walkNodes, filterMap_cons, Expr.id?,
      filterMap_append, mem_append] at hx ihl ihu ihs ⊢
    grind
  | pair head tail ihh iht =>
    simp only [Expr.replay, loadNames, Expr.walkNodes, filterMap_cons, Expr.id?,
      filterMap_append, mem_append] at hx ihh iht ⊢
    grind

/-- **The reads after a round**: those before it, but the name's, and those of the expression. -/
theorem mem_loadNames_block_replay (hrange : name_ ≠ "range")
    (hx : x ∈ (b.replay name_ expr_).loadNames) :
    (x ≠ name_ ∧ x ∈ b.loadNames) ∨ x ∈ loadNames expr_ := by
  have htarget : ∀ {t : Target}, (∃ e ∈ (t.replay name_ expr_).reads, x ∈ loadNames e) →
      (x ≠ name_ ∧ ∃ e ∈ t.reads, x ∈ loadNames e) ∨ x ∈ loadNames expr_ := by
    rintro (_ | ⟨value, index⟩) ⟨e, he, hx⟩
    · cases he
    · simp only [Target.replay, Target.reads, mem_cons, not_mem_nil, or_false] at he
      rcases he with rfl | rfl
      · exact (mem_loadNames_replay hx).imp_left fun h =>
          ⟨h.1, value, by simp [Target.reads], h.2⟩
      · exact (mem_loadNames_replay hx).imp_left fun h =>
          ⟨h.1, index, by simp [Target.reads], h.2⟩
  simp only [mem_loadNames_block] at hx ⊢
  induction b with
  | done => exact absurd hx (by simp [Block.replay, Block.walkNodes])
  | assign targets value rest ih =>
    simp only [Block.replay] at hx
    split at hx
    · exact (ih hx).imp_left fun h => ⟨h.1, by simp [Block.walkNodes, h.2]⟩
    · simp only [Block.walkNodes, mem_cons, reduceCtorEq, false_or, mem_append,
        mem_flatMap, mem_map, mem_targetNodes, mem_exprNodes] at hx ⊢
      rcases hx with (⟨_, ⟨t, ht, rfl⟩, hx⟩ | hx) | hx
      · exact (htarget hx).imp_left fun h => ⟨h.1, .inl (.inl ⟨t, ht, h.2⟩)⟩
      · exact (mem_loadNames_replay hx).imp_left fun h => ⟨h.1, .inl (.inr h.2)⟩
      · exact (ih hx).imp_left fun h => ⟨h.1, .inr h.2⟩
  | augAssign target op value rest ih =>
    simp only [Block.replay, Block.walkNodes, mem_cons, reduceCtorEq, false_or,
      mem_append, mem_targetNodes, mem_exprNodes] at hx ⊢
    rcases hx with (hx | hx) | hx
    · exact (htarget hx).imp_left fun h => ⟨h.1, .inl (.inl h.2)⟩
    · exact (mem_loadNames_replay hx).imp_left fun h => ⟨h.1, .inl (.inr h.2)⟩
    · exact (ih hx).imp_left fun h => ⟨h.1, .inr h.2⟩
  | expr value rest ih =>
    simp only [Block.replay, Block.walkNodes, mem_append, load_not_mem_callNodes, false_or,
      mem_exprNodes] at hx ⊢
    rcases hx with hx | hx
    · exact (mem_loadNames_replay hx).imp_left fun h => ⟨h.1, .inl h.2⟩
    · exact (ih hx).imp_left fun h => ⟨h.1, .inr h.2⟩
  | ifElse test body orelse rest ihb iho ihr =>
    simp only [Block.replay, Block.walkNodes, mem_append, mem_exprNodes] at hx ⊢
    rcases hx with ((hx | hx) | hx) | hx
    · exact (mem_loadNames_replay hx).imp_left fun h => ⟨h.1, .inl (.inl (.inl h.2))⟩
    · exact (ihb hx).imp_left fun h => ⟨h.1, .inl (.inl (.inr h.2))⟩
    · exact (iho hx).imp_left fun h => ⟨h.1, .inl (.inr h.2)⟩
    · exact (ihr hx).imp_left fun h => ⟨h.1, .inr h.2⟩
  | forRange target args body rest ihb ihr =>
    simp only [Block.replay, Block.walkNodes, mem_cons, reduceCtorEq, false_or,
      mem_append, mem_exprNodes, loadNames_call] at hx ⊢
    rcases hx with ((hx | hx) | hx) | hx
    · have hxr : x = "range" := by simpa [loadNames, Expr.walkNodes, Expr.id?] using hx
      exact .inl ⟨hxr ▸ hrange.symm, .inl (.inl (.inl hx))⟩
    · exact (mem_loadNames_replay hx).imp_left fun h => ⟨h.1, .inl (.inl (.inr h.2))⟩
    · exact (ihb hx).imp_left fun h => ⟨h.1, .inl (.inr h.2)⟩
    · exact (ihr hx).imp_left fun h => ⟨h.1, .inr h.2⟩
  | whileDo test body rest ihb ihr =>
    simp only [Block.replay, Block.walkNodes, mem_append, mem_exprNodes] at hx ⊢
    rcases hx with (hx | hx) | hx
    · exact (mem_loadNames_replay hx).imp_left fun h => ⟨h.1, .inl (.inl h.2)⟩
    · exact (ihb hx).imp_left fun h => ⟨h.1, .inl (.inr h.2)⟩
    · exact (ihr hx).imp_left fun h => ⟨h.1, .inr h.2⟩
  | brk rest ih => exact ih hx

/-- What an assignment of a body reads, the body reads. -/
theorem mem_loadNames_of_assign {targets : List Target} {value : Expr}
    (hmem : .assign targets value ∈ b.walkNodes) (hx : x ∈ loadNames value) : x ∈ b.loadNames := by
  have hexpr : ∀ {e : Expr}, .assign targets value ∉ Block.exprNodes e := by
    intro e he
    obtain ⟨_, -, h⟩ := mem_map.1 he
    cases h
  have htarget : ∀ {t : Target}, .assign targets value ∉ Block.targetNodes t := by
    intro t ht
    rcases mem_cons.1 ht with h | h
    · cases h
    · obtain ⟨e, -, he⟩ := mem_flatMap.1 h
      exact hexpr he
  have hcall : ∀ {e : Expr}, .assign targets value ∉ Block.callNodes e := by
    intro e
    cases e <;> simp [Block.callNodes]
  rw [mem_loadNames_block]
  induction b with
  | done => cases hmem
  | assign targets' value' rest ih =>
    simp only [Block.walkNodes, mem_cons, mem_append, mem_flatMap, htarget, and_false,
      exists_false, hexpr, false_or, Block.Node.assign.injEq, reduceCtorEq] at hmem ⊢
    rcases hmem with ⟨-, rfl⟩ | hmem
    · exact .inl (.inr (mem_exprNodes.2 hx))
    · exact .inr (ih hmem)
  | augAssign target op value' rest ih =>
    simp only [Block.walkNodes, mem_cons, mem_append, htarget, hexpr, false_or,
      reduceCtorEq] at hmem ⊢
    exact .inr (ih hmem)
  | expr value' rest ih =>
    simp only [Block.walkNodes, mem_append, hcall, hexpr, false_or] at hmem ⊢
    exact .inr (ih hmem)
  | ifElse test body orelse rest ihb iho ihr =>
    simp only [Block.walkNodes, mem_append, hexpr, false_or] at hmem ⊢
    rcases hmem with (hmem | hmem) | hmem
    · exact .inl (.inl (.inr (ihb hmem)))
    · exact .inl (.inr (iho hmem))
    · exact .inr (ihr hmem)
  | forRange target args body rest ihb ihr =>
    simp only [Block.walkNodes, mem_cons, mem_append, hexpr, false_or,
      reduceCtorEq] at hmem ⊢
    rcases hmem with hmem | hmem
    · exact .inl (.inr (ihb hmem))
    · exact .inr (ihr hmem)
  | whileDo test body rest ihb ihr =>
    simp only [Block.walkNodes, mem_append, hexpr, false_or] at hmem ⊢
    rcases hmem with hmem | hmem
    · exact .inl (.inr (ihb hmem))
    · exact .inr (ihr hmem)
  | brk rest ih => exact ih hmem

end Replayed

/-! ### The search -/

section Search

variable {arrayNames params : List String} {c : Census} {name : String} {expr_ : Expr}
variable {fn : Block}

theorem some_of_orElse {α : Type} {a b : Option α} {x : α} (h : (a <|> b) = some x) :
    a = some x ∨ b = some x := by
  cases a with
  | none => exact .inr h
  | some y => exact .inl h

/-- What the search finds is an assignment of the body, of a name that qualifies. -/
theorem scan_spec {b before : Block} {depth : ℕ} {after reentry : List Block}
    {loopVars : List String}
    (h : c.scan arrayNames params depth after reentry loopVars before b = some (name, expr_)) :
    .assign [.name name] expr_ ∈ b.walkNodes ∧
      ∃ depth loopVars, c.qualifies arrayNames params name expr_ depth loopVars = true := by
  induction b generalizing before depth after reentry loopVars with
  | done => cases h
  | assign targets value rest ih =>
    rcases some_of_orElse h with h | h
    · match targets, h with
      | [.name id], h =>
        obtain ⟨hqualifies, h⟩ := Option.ite_none_right_eq_some.1 h
        obtain ⟨rfl, rfl⟩ := Prod.mk.inj (Option.some.inj h)
        exact ⟨mem_cons_self, depth, loopVars, (Bool.and_eq_true_iff.1 hqualifies).1⟩
    · exact (ih h).imp_left fun hn => by simp [Block.walkNodes, hn]
  | augAssign target op value rest ih =>
    exact (ih h).imp_left fun hn => by simp [Block.walkNodes, hn]
  | expr value rest ih => exact (ih h).imp_left fun hn => by simp [Block.walkNodes, hn]
  | ifElse test body orelse rest ihb iho ihr =>
    rcases some_of_orElse h with h | h
    · exact (ihb h).imp_left fun hn => by simp [Block.walkNodes, hn]
    rcases some_of_orElse h with h | h
    · exact (iho h).imp_left fun hn => by simp [Block.walkNodes, hn]
    · exact (ihr h).imp_left fun hn => by simp [Block.walkNodes, hn]
  | forRange target args body rest ihb ihr | whileDo test body rest ihb ihr =>
    rcases some_of_orElse h with h | h
    · exact (ihb h).imp_left fun hn => by simp [Block.walkNodes, hn]
    · exact (ihr h).imp_left fun hn => by simp [Block.walkNodes, hn]
  | brk rest ih => exact ih h

/-- The counts of a census are those of a body. -/
def Census.Current (c : Census) (fn : Block) : Prop :=
  ∀ x, c.storeCounts x = fn.bareStoreNames.count x

/-- The name a round replays is no array and no parameter, and bound once. -/
theorem nextCandidate_spec (hcurrent : c.Current fn)
    (h : nextCandidate arrayNames params c fn = some (name, expr_)) :
    name ∉ arrayNames ∧ name ∉ params ∧ BoundOnce name expr_ fn ∧
      .assign [.name name] expr_ ∈ fn.walkNodes := by
  obtain ⟨hmem, depth, loopVars, hqualifies⟩ := scan_spec h
  simp only [Census.qualifies, Bool.and_eq_true, decide_eq_true_eq] at hqualifies
  obtain ⟨⟨⟨⟨⟨⟨⟨⟨⟨⟨-, harray⟩, hparam⟩, -⟩, hcount⟩, -⟩, -⟩, -⟩, -⟩, -⟩, -⟩ := hqualifies
  exact ⟨harray, hparam, boundOnce_of_count ((hcurrent name).symm.trans hcount) hmem, hmem⟩

/-- The census stays current over a round. -/
theorem Census.Current.replayed (hcurrent : c.Current fn) (honce : BoundOnce name expr_ fn) :
    (c.replayed name expr_).Current (fn.replay name expr_) := by
  intro x
  rw [count_replay honce, Census.replayed]
  simp only [hcurrent x]

end Search

/-! ### The pass -/

section Pass

variable (arrayNames params : List String)

/-- No round replays a stale value: the expression is of a scalar, and no path leads from the
assignment, through a store of something the expression reads, to a read of the name. -/
def freshRounds : ℕ → Census → Block → Bool
  | 0, _, _ => true
  | n + 1, c, fn =>
    match nextCandidate arrayNames params c fn with
    | none => true
    | some (name, expr) =>
      decide (IsScalar arrayNames name expr) &&
        !(fn.held arrayNames name expr .unbound).misread &&
        freshRounds n (c.replayed name expr) (fn.replay name expr)

/-- No round of the pass replays a stale value. -/
def ReplaysFresh (fn : Block) : Prop :=
  freshRounds arrayNames params fn.assignCount (census fn) fn = true

variable {arrayNames params} {V : Type} {I : Interp V}
variable {n : ℕ} {c : Census} {fn : Block}

/-- A name that is not read before the rounds is not read after them. -/
theorem not_mem_loadNames_rounds (hcurrent : c.Current fn)
    (hfresh : freshRounds arrayNames params n c fn = true) {x : String} (hx : x ∉ fn.loadNames) :
    x ∉ (rounds arrayNames params n c fn).2.loadNames := by
  induction n generalizing c fn with
  | zero => exact hx
  | succ n ih =>
    simp only [rounds]
    cases hnext : nextCandidate arrayNames params c fn with
    | none => exact hx
    | some p =>
      obtain ⟨name, expr⟩ := p
      obtain ⟨-, -, honce, hmem⟩ := nextCandidate_spec hcurrent hnext
      simp only [freshRounds, hnext, Bool.and_eq_true, decide_eq_true_eq] at hfresh
      refine ih (hcurrent.replayed honce) hfresh.2 fun hread => ?_
      rcases mem_loadNames_block_replay hfresh.1.1.notRange hread with h | h
      · exact hx h.2
      · exact hx (mem_loadNames_of_assign hmem h)

/-- **The rounds keep the meaning**: the arrays and every scalar that is not replayed, and what is
replayed is not read any more. -/
theorem rounds_sound (fuel : ℕ) (hcurrent : c.Current fn)
    (hfresh : freshRounds arrayNames params n c fn = true) {σ σ' : State V} {flow : Flow}
    (hnamed : ∀ A, (σ.arrays A).isSome → A ∈ arrayNames)
    (hunbound : ∀ x, x ∉ params → x ∉ arrayNames → σ.scalars x = none)
    (hrun : exec I fuel fn σ = some (σ', flow)) :
    (∃ τ', exec I fuel (rounds arrayNames params n c fn).2 σ = some (τ', flow) ∧
      τ'.arrays = σ'.arrays ∧
      ∀ x, x ∉ (rounds arrayNames params n c fn).1.map Prod.fst → τ'.scalars x = σ'.scalars x) ∧
    ∀ x ∈ (rounds arrayNames params n c fn).1.map Prod.fst,
      x ∉ (rounds arrayNames params n c fn).2.loadNames := by
  induction n generalizing c fn σ' with
  | zero => exact ⟨⟨σ', hrun, rfl, fun _ _ => rfl⟩, fun _ hx => by cases hx⟩
  | succ n ih =>
    simp only [rounds]
    cases hnext : nextCandidate arrayNames params c fn with
    | none => exact ⟨⟨σ', hrun, rfl, fun _ _ => rfl⟩, fun _ hx => by cases hx⟩
    | some p =>
      obtain ⟨name, expr⟩ := p
      obtain ⟨harray, hparam, honce, hmem⟩ := nextCandidate_spec hcurrent hnext
      simp only [freshRounds, hnext, Bool.and_eq_true, decide_eq_true_eq,
        Bool.not_eq_true'] at hfresh
      obtain ⟨⟨hscalar, hread⟩, hfresh⟩ := hfresh
      have hcurrent' := hcurrent.replayed honce
      have hstart : Replayed I arrayNames name expr .unbound σ σ :=
        ⟨fun _ _ => rfl, rfl, hnamed, hunbound name hparam harray⟩
      obtain ⟨υ, hυ, hend⟩ := exec_replay harray hscalar fuel honce hread hstart hrun
      obtain ⟨⟨τ', hτ', harrays, hscalars⟩, hgone⟩ := ih hcurrent' hfresh hυ
      refine ⟨⟨τ', hτ', harrays.trans hend.stores.symm, fun x hx => ?_⟩, fun x hx => ?_⟩
      · rw [map_cons, mem_cons, not_or] at hx
        exact (hscalars x hx.2).trans (hend.scalars x hx.1).symm
      · rcases mem_cons.1 hx with rfl | hx
        · refine not_mem_loadNames_rounds hcurrent' hfresh fun hmem => ?_
          rcases mem_loadNames_block_replay hscalar.notRange hmem with h | h
          · exact h.1 rfl
          · exact hscalar.free h
        · exact hgone x hx

end Pass

/-! ### Stale and fresh values -/

/-- `range(3)`. -/
def threeTimes : Expr := .pair (.const (.int 3)) .unit

/-- `for j in range(3): b[i] = w`. -/
def keepLoop : Block :=
  .forRange "j" threeTimes (.assign [.subscript (.name "b") (.name "i")] (.name "w") .done) .done

/-- `for i in range(3): w = k * 2; for j in range(3): b[i] = w`. -/
def freshBody : Block :=
  .forRange "i" threeTimes
    (.assign [.name "w"] (.binOp .mult (.name "k") (.const (.int 2))) keepLoop) .done

/-- `for i in range(3): w = k * 2; k = i; for j in range(3): b[i] = w`. -/
def staleBody : Block :=
  .forRange "i" threeTimes
    (.assign [.name "w"] (.binOp .mult (.name "k") (.const (.int 2)))
      (.assign [.name "k"] (.name "i") keepLoop)) .done

/-- `k` is 5, and `b` three zeros. -/
def replayStore : State ℤ where
  scalars x := if x = "k" then some 5 else none
  arrays A := if A = "b" then some ⟨[3], fun _ => 0⟩ else none

theorem replayStore_named (A : String) (hA : (replayStore.arrays A).isSome) : A ∈ ["b"] := by
  by_cases h : A = "b"
  · exact mem_singleton.2 h
  · simp [replayStore, h] at hA

end Translate

end HpcAgentBench
