import HpcAgentBench.Translate.ChainedSound

/-!
# Runs that another run follows

A pass over a function's statements is right where the new statements end as the old ones do,
whenever the old ones end.  What a pass takes for granted of a run is a predicate of the statements
the run comes to and of the state it finds there.

## Main results

* `Follows.bind`, `Follows.andThen`, `Follows.afterLoop`, `Follows.forItems`, `Follows.whileItems` :
  the rules.
* `Rewrites.follows` : statements replaced one by one, at any depth, follow the old ones.
-/

namespace HpcAgentBench

open Option

namespace Translate

/-- Where the first has a result, the second has a related one. -/
def Follows {α β : Type} (R : α → β → Prop) (a : Option α) (b : Option β) : Prop :=
  ∀ r, a = some r → ∃ s, b = some s ∧ R r s

namespace Follows

variable {α β γ δ : Type} {R : α → β → Prop} {Q : γ → δ → Prop} {a : Option α} {b : Option β}

theorem of_rel (h : Option.Rel R a b) : Follows R a b := by
  rintro r rfl
  cases h with
  | some h => exact ⟨_, rfl, h⟩

theorem of_eq {a b : Option α} (h : a = b) : Follows (· = ·) a b := by
  rintro r rfl
  exact ⟨r, h.symm, rfl⟩

theorem bind (h : Follows R a b) {k : α → Option γ} {l : β → Option δ}
    (hkl : ∀ r s, a = some r → R r s → Follows Q (k r) (l s)) :
    Follows Q (a.bind k) (b.bind l) := by
  intro t ht
  obtain ⟨r, hr, ht⟩ := bind_eq_some_iff.1 ht
  obtain ⟨s, hs, hrs⟩ := h r hr
  obtain ⟨u, hu, htu⟩ := hkl r s hr hrs t ht
  exact ⟨u, bind_eq_some_iff.2 ⟨s, hs, hu⟩, htu⟩

theorem some {r : α} {s : β} (h : R r s) : Follows R (Option.some r) (Option.some s) := by
  rintro _ ⟨⟩
  exact ⟨s, rfl, h⟩

theorem none : Follows R Option.none b := nofun

end Follows

section Rules

variable {V H : Type} {O : Objects V H} {M N B C : Activation V H → Activation V H → Prop}
variable {r s : Activation V H × Exit V}
variable {rest rest' : Activation V H → Option (Activation V H × Exit V)}
variable {Q : Activation V H → Prop}
variable {body body' : Activation V H → Option (Activation V H × Exit V)} {f g : Activation V H}

theorem Follows.andThen (h : ExitRel M B C r s)
    (hrest : r.2 = .next → M r.1 s.1 → Follows (ExitRel N B C) (rest r.1) (rest' s.1)) :
    Follows (ExitRel N B C) (andThen r rest) (andThen s rest') := by
  obtain ⟨f, exit⟩ := r
  obtain ⟨g, exit'⟩ := s
  cases exit <;> cases exit' <;> first | exact hrest rfl h | exact .some h | exact h.elim

theorem Follows.afterLoop {S : Activation V H → Activation V H → Prop}
    (h : ExitRel S M (fun _ _ => False) r s)
    {orelse orelse' : Activation V H → Option (Activation V H × Exit V)}
    (horelse : r.2 = .next → S r.1 s.1 → Follows (ExitRel M B C) (orelse r.1) (orelse' s.1))
    (hrest : ∀ f g, r.2 = .brk ∧ f = r.1 ∨ r.2 = .next ∧ orelse r.1 = Option.some (f, .next) →
      M f g → Follows (ExitRel N B C) (rest f) (rest' g)) :
    Follows (ExitRel N B C) (afterLoop r orelse rest) (afterLoop s orelse' rest') := by
  obtain ⟨f, exit⟩ := r
  obtain ⟨g, exit'⟩ := s
  cases exit <;> cases exit' <;> first | exact h.elim | skip
  · refine (horelse rfl h).bind ?_
    rintro ⟨f', exit⟩ s' hr hrs
    refine Follows.andThen hrs ?_
    rintro rfl hM
    exact hrest f' s'.1 (.inr ⟨rfl, hr⟩) hM
  · exact hrest f g (.inl ⟨rfl, rfl⟩) h
  · exact .some h

/-- The iterations of a `for`. -/
theorem Follows.forItems {bind bind' : V → Activation V H → Option (Activation V H)}
    (hbind : ∀ v f g, M f g → Follows M (bind v f) (bind' v g))
    (hbody : ∀ f g, M f g → Q f → Follows (ExitRel M N M) (body f) (body' g)) (vs : List V)
    (hfg : M f g) (halong : AlongItems bind body Q vs f) :
    Follows (ExitRel M N fun _ _ => False) (Translate.forItems bind body vs f)
      (Translate.forItems bind' body' vs g) := by
  induction vs generalizing f g with
  | nil => exact .some hfg
  | cons v vs ih =>
    refine (hbind v f g hfg).bind fun f₁ g₁ hf₁ h₁ => ?_
    obtain ⟨hQ, halong⟩ := halong f₁ hf₁
    refine (hbody f₁ g₁ h₁ hQ).bind ?_
    rintro ⟨f₂, exit⟩ ⟨g₂, exit'⟩ hr hrs
    have hnext := halong (f₂, exit) hr
    cases exit <;> cases exit' <;> first | exact hrs.elim | skip
    · exact ih hrs (hnext (.inl rfl))
    · exact .some hrs
    · exact ih hrs (hnext (.inr rfl))
    · exact .some hrs

/-- What holds at every test of a `while`, and in every iteration. -/
def ThroughWhile (head : Activation V H → Prop) (test : Activation V H → Option (Bool × H))
    (body : Activation V H → Option (Activation V H × Exit V)) (Q : Activation V H → Prop) :
    ℕ → Activation V H → Prop
  | 0, _ => True
  | fuel + 1, f => head f ∧ ∀ h, test f = some (true, h) →
    Q { f with heap := h } ∧ ∀ r, body { f with heap := h } = some r →
      r.2 = .next ∨ r.2 = .cont → ThroughWhile head test body Q fuel r.1

/-- The iterations of a `while`. -/
theorem Follows.whileItems {head : Activation V H → Prop}
    {test test' : Activation V H → Option (Bool × H)}
    (htest : ∀ f g, M f g → head f → ∀ c, test f = Option.some c → test' g = Option.some c)
    (hheap : ∀ f g h, M f g → M { f with heap := h } { g with heap := h })
    (hbody : ∀ f g, M f g → Q f → Follows (ExitRel M N M) (body f) (body' g)) (fuel : ℕ)
    (hfg : M f g) (hthrough : ThroughWhile head test body Q fuel f) :
    Follows (ExitRel M N fun _ _ => False) (Translate.whileItems test body fuel f)
      (Translate.whileItems test' body' fuel g) := by
  induction fuel generalizing f g with
  | zero => exact .none
  | succ fuel ih =>
    obtain ⟨hhead, hthrough⟩ := hthrough
    refine Follows.bind (R := (· = ·)) (fun c hc => ⟨c, htest f g hfg hhead c hc, rfl⟩) ?_
    rintro ⟨c, m⟩ _ hc rfl
    cases c with
    | false => exact .some (hheap f g m hfg)
    | true =>
      obtain ⟨hQ, hthrough⟩ := hthrough m hc
      refine (hbody _ _ (hheap f g m hfg) hQ).bind ?_
      rintro ⟨f₂, exit⟩ ⟨g₂, exit'⟩ hr hrs
      have hnext := hthrough (f₂, exit) hr
      cases exit <;> cases exit' <;> first | exact hrs.elim | skip
      · exact ih hrs (hnext (.inl rfl))
      · exact .some hrs
      · exact ih hrs (hnext (.inr rfl))
      · exact .some hrs

end Rules

/-! ### What holds throughout a run -/

section Throughout

variable {V H : Type} (O : Objects V H) (fuel : ℕ) (P : Code → Activation V H → Prop)

/-- What holds of every statement a run comes to and of the state it finds there; of a `while`, at
every test. -/
def Throughout : Code → Activation V H → Prop
  | .done, _ => True
  | .assign targets e rest, f => P (.assign targets e .done) f ∧
    ∀ g, runCode O fuel (.assign targets e .done) f = some (g, .next) → Throughout rest g
  | .augAssign target op e rest, f => P (.augAssign target op e .done) f ∧
    ∀ g, runCode O fuel (.augAssign target op e .done) f = some (g, .next) → Throughout rest g
  | .expr e rest, f => P (.expr e .done) f ∧
    ∀ g, runCode O fuel (.expr e .done) f = some (g, .next) → Throughout rest g
  | .ifElse test body orelse rest, f => P (.ifElse test body orelse .done) f ∧
    (∀ h, testOf O test f = some (true, h) → Throughout body { f with heap := h }) ∧
    (∀ h, testOf O test f = some (false, h) → Throughout orelse { f with heap := h }) ∧
    ∀ g, runCode O fuel (.ifElse test body orelse .done) f = some (g, .next) → Throughout rest g
  | .forIn target iter body orelse rest, f => P (.forIn target iter body orelse .done) f ∧
    (∀ p q, evaluate O f.env iter f.heap = some p → O.iter p.1 p.2 = some q →
      AlongItems (assignTo O target) (runCode O fuel body) (Throughout body) q.1
        { f with heap := q.2 } ∧
      ∀ g, forItems (assignTo O target) (runCode O fuel body) q.1 { f with heap := q.2 } =
        some (g, .next) → Throughout orelse g) ∧
    ∀ g, runCode O fuel (.forIn target iter body orelse .done) f = some (g, .next) →
      Throughout rest g
  | .whileDo test body orelse rest, f =>
    ThroughWhile (P (.whileDo test body orelse .done)) (testOf O test) (runCode O fuel body)
      (Throughout body) fuel f ∧
    (∀ g, whileItems (testOf O test) (runCode O fuel body) fuel f = some (g, .next) →
      Throughout orelse g) ∧
    ∀ g, runCode O fuel (.whileDo test body orelse .done) f = some (g, .next) → Throughout rest g
  | .ret e _, f => P (.ret e .done) f
  | .brk _, f => P (.brk .done) f
  | .cont _, f => P (.cont .done) f

variable {O fuel P}

/-- Of a list of statements after another, what holds throughout both. -/
theorem throughout_append {c d : Code} {f : Activation V H}
    (h : Throughout O fuel P (c.append d) f) :
    Throughout O fuel P c f ∧
      ∀ g, runCode O fuel c f = some (g, .next) → Throughout O fuel P d g := by
  have hstep : ∀ {s c : Code} {f : Activation V H}
      (ih : ∀ {g}, Throughout O fuel P (c.append d) g → Throughout O fuel P c g ∧
        ∀ g', runCode O fuel c g = some (g', .next) → Throughout O fuel P d g'),
      (∀ g, runCode O fuel s f = some (g, .next) → Throughout O fuel P (c.append d) g) →
      (∀ g, runCode O fuel s f = some (g, .next) → Throughout O fuel P c g) ∧
        ∀ g, runCode O fuel (s.append c) f = some (g, .next) → Throughout O fuel P d g := by
    intro s c f ih hrest
    refine ⟨fun g hg => (ih (hrest g hg)).1, fun g hg => ?_⟩
    rw [runCode_append] at hg
    obtain ⟨⟨g', exit⟩, hg', hg⟩ := bind_eq_some_iff.1 hg
    cases exit with
    | next => exact (ih (hrest g' hg')).2 g hg
    | _ => cases hg
  induction c generalizing f with
  | done =>
    refine ⟨trivial, fun g hg => ?_⟩
    obtain rfl : f = g := congrArg Prod.fst (Option.some.inj hg)
    exact h
  | assign targets e rest ih =>
    obtain ⟨hP, hrest⟩ := h
    obtain ⟨hin, hout⟩ := hstep (s := .assign targets e .done) ih hrest
    exact ⟨⟨hP, hin⟩, hout⟩
  | augAssign target op e rest ih =>
    obtain ⟨hP, hrest⟩ := h
    obtain ⟨hin, hout⟩ := hstep (s := .augAssign target op e .done) ih hrest
    exact ⟨⟨hP, hin⟩, hout⟩
  | expr e rest ih =>
    obtain ⟨hP, hrest⟩ := h
    obtain ⟨hin, hout⟩ := hstep (s := .expr e .done) ih hrest
    exact ⟨⟨hP, hin⟩, hout⟩
  | ifElse test body orelse rest _ _ ih =>
    obtain ⟨hP, hbody, horelse, hrest⟩ := h
    obtain ⟨hin, hout⟩ := hstep (s := .ifElse test body orelse .done) ih hrest
    exact ⟨⟨hP, hbody, horelse, hin⟩, hout⟩
  | forIn target iter body orelse rest _ _ ih =>
    obtain ⟨hP, hinner, hrest⟩ := h
    obtain ⟨hin, hout⟩ := hstep (s := .forIn target iter body orelse .done) ih hrest
    exact ⟨⟨hP, hinner, hin⟩, hout⟩
  | whileDo test body orelse rest _ _ ih =>
    obtain ⟨hP, horelse, hrest⟩ := h
    obtain ⟨hin, hout⟩ := hstep (s := .whileDo test body orelse .done) ih hrest
    exact ⟨⟨hP, horelse, hin⟩, hout⟩
  | ret e rest ih =>
    refine ⟨h, fun g hg => ?_⟩
    obtain ⟨p, -, hg⟩ := map_eq_some_iff.1 hg
    cases hg
  | brk rest ih => exact ⟨h, nofun⟩
  | cont rest ih => exact ⟨h, nofun⟩

end Throughout

/-! ### Statements replaced one by one -/

/-- The expression a compound statement starts with. -/
def Code.headExpr : Code → Option Expr
  | .ifElse test _ _ _ => some test
  | .forIn _ iter _ _ _ => some iter
  | .whileDo test _ _ _ => some test
  | _ => none

/-- The second list is the first with some statements replaced, as `S` says, at any depth; the other
compound statements keep their form, and their expressions and targets are replaced as `E` and `T`
say. -/
inductive Rewrites (S : Code → Code → Prop) (E : Expr → Expr → Prop)
    (T : Pattern → Pattern → Prop) : Code → Code → Prop
  | done : Rewrites S E T .done .done
  | stmt {s d c c' : Code} : S s d → Rewrites S E T c c' →
    Rewrites S E T (s.append c) (d.append c')
  | ifElse {t t' : Expr} {b b' o o' c c' : Code} : E t t' → Rewrites S E T b b' →
    Rewrites S E T o o' → Rewrites S E T c c' →
    Rewrites S E T (.ifElse t b o c) (.ifElse t' b' o' c')
  | forIn {x x' : Pattern} {e e' : Expr} {b b' o o' c c' : Code} : T x x' → E e e' →
    Rewrites S E T b b' → Rewrites S E T o o' → Rewrites S E T c c' →
    Rewrites S E T (.forIn x e b o c) (.forIn x' e' b' o' c')
  | whileDo {t t' : Expr} {b b' o o' c c' : Code} : E t t' → Rewrites S E T b b' →
    Rewrites S E T o o' → Rewrites S E T c c' →
    Rewrites S E T (.whileDo t b o c) (.whileDo t' b' o' c')

section Rewrites

variable {V H : Type} {O : Objects V H} {fuel : ℕ} {P : Code → Activation V H → Prop}
variable {S : Code → Code → Prop} {E : Expr → Expr → Prop} {T : Pattern → Pattern → Prop}
variable {M : Activation V H → Activation V H → Prop}
variable {f g : Activation V H} {c d : Code}

/-- A relation of two activations that the replaced parts keep. -/
structure KeepsRewrites (O : Objects V H) (fuel : ℕ) (P : Code → Activation V H → Prop)
    (S : Code → Code → Prop) (E : Expr → Expr → Prop) (T : Pattern → Pattern → Prop)
    (M : Activation V H → Activation V H → Prop) : Prop where
  heap : ∀ {f g}, M f g → f.heap = g.heap
  withHeap : ∀ {f g}, M f g → ∀ h, M { f with heap := h } { g with heap := h }
  stmt : ∀ {s d f g}, S s d → M f g → Throughout O fuel P s f →
    Follows (ExitRel M M M) (runCode O fuel s f) (runCode O fuel d g)
  expr : ∀ {s e e' f g p}, E e e' → M f g → P s f → s.headExpr = some e →
    evaluate O f.env e f.heap = some p → evaluate O g.env e' g.heap = some p
  bind : ∀ {x x' v f g}, T x x' → M f g → Follows M (assignTo O x v f) (assignTo O x' v g)

theorem KeepsRewrites.testOf (hK : KeepsRewrites O fuel P S E T M) {s : Code} {t t' : Expr}
    (ht : E t t') (h : M f g) (hP : P s f) (hs : s.headExpr = some t) (c : Bool × H)
    (hc : testOf O t f = some c) : Translate.testOf O t' g = some c := by
  obtain ⟨p, hp, hc⟩ := bind_eq_some_iff.1 hc
  rw [Translate.testOf, hK.expr ht h hP hs hp, bind_some, hc]

/-- **Statements replaced one by one follow the old ones**, where the replacements do. -/
theorem Rewrites.follows (hR : Rewrites S E T c d) (hK : KeepsRewrites O fuel P S E T M) (h : M f g)
    (hthrough : Throughout O fuel P c f) :
    Follows (ExitRel M M M) (runCode O fuel c f) (runCode O fuel d g) := by
  induction hR generalizing f g with
  | done => exact .some h
  | @stmt s d c c' hs _ ih =>
    obtain ⟨hstmt, hrest⟩ := throughout_append hthrough
    rw [runCode_append, runCode_append]
    refine (hK.stmt hs h hstmt).bind ?_
    rintro ⟨f', exit⟩ s' hr hrs
    refine Follows.andThen hrs ?_
    rintro rfl hM
    exact ih hM (hrest f' hr)
  | @ifElse t t' b b' o o' c c' ht _ _ _ ihb iho ih =>
    obtain ⟨hP, hbody, horelse, hrest⟩ := hthrough
    refine Follows.bind (R := (· = ·))
      (fun r hr => ⟨r, hK.testOf ht h hP rfl r hr, rfl⟩) ?_
    rintro ⟨r, m⟩ _ hr rfl
    refine Follows.bind (R := ExitRel M M M) ?_ ?_
    · cases r with
      | true => exact ihb (hK.withHeap h m) (hbody m hr)
      | false => exact iho (hK.withHeap h m) (horelse m hr)
    rintro ⟨f', exit⟩ s' hends hrs
    refine Follows.andThen hrs ?_
    rintro rfl hM
    refine ih hM (hrest f' ?_)
    simp only [runCode, hr, bind_some, hends, andThen]
  | @forIn x x' e e' b b' o o' c c' hx he _ _ _ ihb iho ih =>
    obtain ⟨hP, hinner, hrest⟩ := hthrough
    refine Follows.bind (R := (· = ·))
      (fun p hp => ⟨p, hK.expr he h hP rfl hp, rfl⟩) ?_
    rintro p _ hp rfl
    refine Follows.bind (Follows.of_eq rfl) ?_
    rintro q _ hq rfl
    obtain ⟨hitems, horelse⟩ := hinner p q hp hq
    refine Follows.bind (R := ExitRel M M fun _ _ => False) (Follows.forItems
      (fun v f g h => hK.bind (v := v) hx h) (fun f g h hQ => ihb h hQ) q.1 (hK.withHeap h q.2)
      hitems) ?_
    rintro ⟨f', exit⟩ s' hr hrs
    have hrun : ∀ g', afterLoop (f', exit) (runCode O fuel o) (fun f => some (f, .next)) =
        some (g', .next) → Throughout O fuel P c g' := by
      intro g' hg'
      refine hrest g' ?_
      simp only [runCode, hp, hq, bind_some, hr]
      exact hg'
    refine Follows.afterLoop hrs (fun hexit hM => ?_) fun f'' g'' hexit hM => ih hM ?_
    · obtain rfl : exit = .next := hexit
      exact iho hM (horelse f' hr)
    · rcases hexit with ⟨hexit, rfl⟩ | ⟨hexit, ho⟩
      · obtain rfl : exit = .brk := hexit
        exact hrun _ rfl
      · obtain rfl : exit = .next := hexit
        refine hrun _ ?_
        simp only [Translate.afterLoop, ho, bind_some, andThen]
  | @whileDo t t' b b' o o' c c' ht _ _ _ ihb iho ih =>
    obtain ⟨hwhile, horelse, hrest⟩ := hthrough
    refine (Follows.whileItems (fun f g h hP => hK.testOf ht h hP rfl)
      (fun f g m h => hK.withHeap h m) (fun f g h hQ => ihb h hQ) fuel h hwhile).bind ?_
    rintro ⟨f', exit⟩ s' hr hrs
    have hrun : ∀ g', afterLoop (f', exit) (runCode O fuel o) (fun f => some (f, .next)) =
        some (g', .next) → Throughout O fuel P c g' := by
      intro g' hg'
      refine hrest g' ?_
      simp only [runCode, bind_some, hr]
      exact hg'
    refine Follows.afterLoop hrs (fun hexit hM => ?_) fun f'' g'' hexit hM => ih hM ?_
    · obtain rfl : exit = .next := hexit
      exact iho hM (horelse f' hr)
    · rcases hexit with ⟨hexit, rfl⟩ | ⟨hexit, ho⟩
      · obtain rfl : exit = .brk := hexit
        exact hrun _ rfl
      · obtain rfl : exit = .next := hexit
        refine hrun _ ?_
        simp only [Translate.afterLoop, ho, bind_some, andThen]

/-- What a call computes with the statements replaced. -/
theorem runFunction_follows (h : Follows (ExitRel M M M) (runCode O fuel c f) (runCode O fuel d g))
    (hheap : ∀ {f g}, M f g → f.heap = g.heap) :
    Follows (· = ·) (runFunction O fuel c f) (runFunction O fuel d g) := by
  intro r hr
  obtain ⟨⟨f', exit⟩, hrun, rfl⟩ := map_eq_some_iff.1 hr
  obtain ⟨⟨g', exit'⟩, hrun', hrs⟩ := h _ hrun
  refine ⟨_, map_eq_some_iff.2 ⟨_, hrun', rfl⟩, ?_⟩
  cases exit <;> cases exit' <;> first | exact hrs.elim | skip
  · exact congrArg (none, ·) (hheap hrs)
  · exact congrArg (none, ·) (hheap hrs)
  · exact congrArg (none, ·) (hheap hrs)
  · obtain ⟨rfl, hh⟩ := hrs
    exact congrArg (some _, ·) hh

end Rewrites

end Translate

end HpcAgentBench
