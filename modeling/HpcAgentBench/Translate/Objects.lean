import HpcAgentBench.Lib.Independent
import HpcAgentBench.Translate.Parallelism

/-!
# Function bodies over objects

The statements of a Python function, before the arrays of a kernel are known: a name is bound to
any object, an assignment may take a tuple apart, and a function may return.  Objects, the heap they
live in and what one does with them are a parameter (`Objects`), so that a pass over the source can
be compared with it whatever the objects are.

A run that raises, or a `while` that does not end within `fuel` iterations, has no result.
-/

namespace HpcAgentBench

open List Option

namespace Translate

/-- What an assignment binds: a name, an item of an object, or each part of a tuple. -/
inductive Pattern
  | name (id : String)
  | item (value slice : Expr)
  | unit
  | pair (head tail : Pattern)
  deriving DecidableEq

/-- A list of statements of a function. -/
inductive Code
  | done
  | assign (targets : List Pattern) (value : Expr) (rest : Code)
  | augAssign (target : Pattern) (op : Operator) (value : Expr) (rest : Code)
  | expr (value : Expr) (rest : Code)
  | ifElse (test : Expr) (body orelse rest : Code)
  /-- `for target in iter: body`, and the `else` of a loop that does not break. -/
  | forIn (target : Pattern) (iter : Expr) (body orelse rest : Code)
  | whileDo (test : Expr) (body orelse rest : Code)
  | ret (value : Expr) (rest : Code)
  | brk (rest : Code)
  | cont (rest : Code)
  deriving DecidableEq

namespace Pattern

/-- Whether a target is a tuple of targets. -/
def isTuple : Pattern → Bool
  | unit => true
  | pair _ _ => true
  | _ => false

/-- The names a target binds. -/
def binds : Pattern → List String
  | name id => [id]
  | item _ _ => []
  | unit => []
  | pair head tail => head.binds ++ tail.binds

/-- The names read to find the places stored to. -/
def loads : Pattern → List String
  | name _ => []
  | item value slice => loadNames value ++ loadNames slice
  | unit => []
  | pair head tail => head.loads ++ tail.loads

end Pattern

/-- One list of statements after another. -/
def Code.append : Code → Code → Code
  | .done, c => c
  | .assign targets value rest, c => .assign targets value (rest.append c)
  | .augAssign target op value rest, c => .augAssign target op value (rest.append c)
  | .expr value rest, c => .expr value (rest.append c)
  | .ifElse test body orelse rest, c => .ifElse test body orelse (rest.append c)
  | .forIn target iter body orelse rest, c => .forIn target iter body orelse (rest.append c)
  | .whileDo test body orelse rest, c => .whileDo test body orelse (rest.append c)
  | .ret value rest, c => .ret value (rest.append c)
  | .brk rest, c => .brk (rest.append c)
  | .cont rest, c => .cont (rest.append c)

/-- The names a list of statements reads; an augmented assignment reads what it updates. -/
def Code.loads : Code → List String
  | .done => []
  | .assign targets value rest => targets.flatMap Pattern.loads ++ loadNames value ++ rest.loads
  | .augAssign target _ value rest =>
    target.binds ++ target.loads ++ loadNames value ++ rest.loads
  | .expr value rest => loadNames value ++ rest.loads
  | .ifElse test body orelse rest => loadNames test ++ body.loads ++ orelse.loads ++ rest.loads
  | .forIn target iter body orelse rest =>
    target.loads ++ loadNames iter ++ body.loads ++ orelse.loads ++ rest.loads
  | .whileDo test body orelse rest => loadNames test ++ body.loads ++ orelse.loads ++ rest.loads
  | .ret value rest => loadNames value ++ rest.loads
  | .brk rest => rest.loads
  | .cont rest => rest.loads

/-- The names a list of statements binds. -/
def Code.binds : Code → List String
  | .done => []
  | .assign targets _ rest => targets.flatMap Pattern.binds ++ rest.binds
  | .augAssign target _ _ rest => target.binds ++ rest.binds
  | .expr _ rest => rest.binds
  | .ifElse _ body orelse rest => body.binds ++ orelse.binds ++ rest.binds
  | .forIn target _ body orelse rest => target.binds ++ body.binds ++ orelse.binds ++ rest.binds
  | .whileDo _ body orelse rest => body.binds ++ orelse.binds ++ rest.binds
  | .ret _ rest => rest.binds
  | .brk rest => rest.binds
  | .cont rest => rest.binds

/-! ### Objects -/

/-- Objects, and what is done with them: `none` where Python raises. -/
structure Objects (V H : Type) where
  const : Literal → V
  /-- The empty tuple, and a tuple with one more object in front. -/
  unit : V
  pair : V → V → V
  slice : V → V → V → V
  attr : V → String → H → Option (V × H)
  unary : String → V → H → Option (V × H)
  binary : Operator → V → V → H → Option (V × H)
  /-- `old op= new`: what the target is bound to; an array is written in place. -/
  inplace : Operator → V → V → H → Option (V × H)
  /-- A call, its arguments a tuple. -/
  call : V → V → H → Option (V × H)
  getItem : V → V → H → Option (V × H)
  setItem : V → V → V → H → Option H
  /-- The objects an object is taken apart into, or a loop runs through. -/
  iter : V → H → Option (List V × H)
  truth : V → H → Option Bool

/-- What the names of a function are bound to, and the heap. -/
structure Activation (V H : Type) where
  env : String → Option V
  heap : H

/-- How a list of statements ends. -/
inductive Exit (V : Type)
  | next
  | brk
  | cont
  | ret (value : V)

section Eval

variable {V H : Type} (O : Objects V H) (env : String → Option V)

/-- The value of an expression, and the heap after it. -/
def evaluate : Expr → H → Option (V × H)
  | .const v, h => some (O.const v, h)
  | .name id, h => (env id).map fun v => (v, h)
  | .attr value a, h => (evaluate value h).bind fun p => O.attr p.1 a p.2
  | .unaryOp op operand, h => (evaluate operand h).bind fun p => O.unary op p.1 p.2
  | .binOp op left right, h =>
    (evaluate left h).bind fun p => (evaluate right p.2).bind fun q => O.binary op p.1 q.1 q.2
  | .boolOp conj left right, h =>
    (evaluate left h).bind fun p => (O.truth p.1 p.2).bind fun t =>
      if t = conj then evaluate right p.2 else some p
  | .ifExp test body orelse, h =>
    (evaluate test h).bind fun p => (O.truth p.1 p.2).bind fun t =>
      if t then evaluate body p.2 else evaluate orelse p.2
  | .call func args, h =>
    (evaluate func h).bind fun p => (evaluate args p.2).bind fun q => O.call p.1 q.1 q.2
  | .subscript value slice, h =>
    (evaluate value h).bind fun p => (evaluate slice p.2).bind fun q => O.getItem p.1 q.1 q.2
  | .slice lower upper step, h =>
    (evaluate lower h).bind fun p => (evaluate upper p.2).bind fun q =>
      (evaluate step q.2).map fun r => (O.slice p.1 q.1 r.1, r.2)
  | .unit, h => some (O.unit, h)
  | .pair head tail, h =>
    (evaluate head h).bind fun p => (evaluate tail p.2).map fun q => (O.pair p.1 q.1, q.2)

end Eval

/-! ### Statements -/

section Exec

variable {V H : Type} (O : Objects V H)
variable {r : Activation V H × Exit V} {k l : Activation V H → Option (Activation V H × Exit V)}

/-- A name bound. -/
def Activation.bind (f : Activation V H) (id : String) (v : V) : Activation V H :=
  { f with env := Function.update f.env id (some v) }

/-- The objects a target is stored: one, or one for each part of a tuple. -/
def bindAll : Pattern → List V → Activation V H → Option (Activation V H)
  | .name id, [v], f => some (f.bind id v)
  | .item value slice, [v], f =>
    (evaluate O f.env value f.heap).bind fun p => (evaluate O f.env slice p.2).bind fun q =>
      (O.setItem p.1 q.1 v q.2).map fun h => { f with heap := h }
  | .unit, [], f => some f
  | .pair head tail, v :: vs, f =>
    (if head.isTuple then
      (O.iter v f.heap).bind fun p => bindAll head p.1 { f with heap := p.2 }
    else bindAll head [v] f).bind (bindAll tail vs)
  | _, _, _ => none

/-- A store of an object. -/
def assignTo (target : Pattern) (v : V) (f : Activation V H) : Option (Activation V H) :=
  if target.isTuple then (O.iter v f.heap).bind fun p => bindAll O target p.1 { f with heap := p.2 }
  else bindAll O target [v] f

/-- `target op= value`. -/
def augment (target : Pattern) (op : Operator) (value : Expr) (f : Activation V H) :
    Option (Activation V H) :=
  match target with
  | .name id =>
    (f.env id).bind fun old => (evaluate O f.env value f.heap).bind fun p =>
      (O.inplace op old p.1 p.2).map fun q => Activation.bind { f with heap := q.2 } id q.1
  | .item base slice =>
    (evaluate O f.env base f.heap).bind fun b => (evaluate O f.env slice b.2).bind fun s =>
      (O.getItem b.1 s.1 s.2).bind fun old => (evaluate O f.env value old.2).bind fun p =>
        (O.inplace op old.1 p.1 p.2).bind fun q =>
          (O.setItem b.1 s.1 q.1 q.2).map fun h => { f with heap := h }
  | _ => none

/-- What follows a list of statements that ends at its last one. -/
def andThen (r : Activation V H × Exit V) (next : Activation V H → Option (Activation V H × Exit V)) :
    Option (Activation V H × Exit V) :=
  match r.2 with
  | .next => next r.1
  | _ => some r

/-- What follows a loop: its `else` if it has not broken. -/
def afterLoop (r : Activation V H × Exit V) (orelse rest : Activation V H → Option (Activation V H × Exit V)) :
    Option (Activation V H × Exit V) :=
  match r.2 with
  | .brk => rest r.1
  | .ret v => some (r.1, .ret v)
  | _ => (orelse r.1).bind fun s => andThen s rest

/-- The iterations of a `for`. -/
def forItems (bind : V → Activation V H → Option (Activation V H))
    (body : Activation V H → Option (Activation V H × Exit V)) :
    List V → Activation V H → Option (Activation V H × Exit V)
  | [], f => some (f, .next)
  | v :: vs, f => (bind v f).bind fun f => (body f).bind fun r =>
    match r.2 with
    | .next => forItems bind body vs r.1
    | .cont => forItems bind body vs r.1
    | .brk => some (r.1, .brk)
    | .ret w => some (r.1, .ret w)

/-- The iterations of a `while`, at most `fuel` of them. -/
def whileItems (test : Activation V H → Option (Bool × H))
    (body : Activation V H → Option (Activation V H × Exit V)) : ℕ → Activation V H → Option (Activation V H × Exit V)
  | 0, _ => none
  | fuel + 1, f => (test f).bind fun c =>
    if c.1 then (body { f with heap := c.2 }).bind fun r =>
      match r.2 with
      | .next => whileItems test body fuel r.1
      | .cont => whileItems test body fuel r.1
      | .brk => some (r.1, .brk)
      | .ret w => some (r.1, .ret w)
    else some ({ f with heap := c.2 }, .next)

/-- The test of a statement. -/
def testOf (e : Expr) (f : Activation V H) : Option (Bool × H) :=
  (evaluate O f.env e f.heap).bind fun p => (O.truth p.1 p.2).map fun t => (t, p.2)

/-- A list of statements. -/
def runCode (fuel : ℕ) : Code → Activation V H → Option (Activation V H × Exit V)
  | .done, f => some (f, .next)
  | .assign targets e rest, f =>
    (evaluate O f.env e f.heap).bind fun p =>
      (targets.foldlM (fun f t => assignTo O t p.1 f) { f with heap := p.2 }).bind
        (runCode fuel rest)
  | .augAssign target op e rest, f => (augment O target op e f).bind (runCode fuel rest)
  | .expr e rest, f =>
    (evaluate O f.env e f.heap).bind fun p => runCode fuel rest { f with heap := p.2 }
  | .ifElse test body orelse rest, f =>
    (testOf O test f).bind fun c =>
      (if c.1 then runCode fuel body { f with heap := c.2 }
        else runCode fuel orelse { f with heap := c.2 }).bind fun r =>
          andThen r (runCode fuel rest)
  | .forIn target iter body orelse rest, f =>
    (evaluate O f.env iter f.heap).bind fun p => (O.iter p.1 p.2).bind fun q =>
      (forItems (assignTo O target) (runCode fuel body) q.1 { f with heap := q.2 }).bind fun r =>
        afterLoop r (runCode fuel orelse) (runCode fuel rest)
  | .whileDo test body orelse rest, f =>
    (whileItems (testOf O test) (runCode fuel body) fuel f).bind fun r =>
      afterLoop r (runCode fuel orelse) (runCode fuel rest)
  | .ret e _, f =>
    (evaluate O f.env e f.heap).map fun p => ({ f with heap := p.2 }, .ret p.1)
  | .brk _, f => some (f, .brk)
  | .cont _, f => some (f, .cont)

theorem andThen_bind :
    (andThen r k).bind (andThen · l) = andThen r fun f => (k f).bind (andThen · l) := by
  obtain ⟨f, exit⟩ := r
  cases exit <;> rfl

theorem afterLoop_bind {o : Activation V H → Option (Activation V H × Exit V)} :
    (afterLoop r o k).bind (andThen · l) = afterLoop r o fun f => (k f).bind (andThen · l) := by
  obtain ⟨f, exit⟩ := r
  cases exit <;> first
    | rfl
    | (simp only [afterLoop, bind_assoc, andThen_bind])

/-- **A list of statements runs to its end before the next one.** -/
theorem runCode_append {fuel : ℕ} {c d : Code} {f : Activation V H} :
    runCode O fuel (c.append d) f = (runCode O fuel c f).bind (andThen · (runCode O fuel d)) := by
  induction c generalizing f with
  | done => rfl
  | assign targets value rest ih | augAssign target op value rest ih | expr value rest ih =>
    simp only [Code.append, runCode, bind_assoc, funext fun f => ih (f := f)]
  | ifElse test body orelse rest _ _ ih =>
    simp only [Code.append, runCode, bind_assoc, andThen_bind, funext fun f => ih (f := f)]
  | forIn target iter body orelse rest _ _ ih | whileDo test body orelse rest _ _ ih =>
    simp only [Code.append, runCode, bind_assoc, afterLoop_bind,
      funext fun f => ih (f := f)]
  | ret value rest ih =>
    simp only [Code.append, runCode]
    rcases evaluate O f.env value f.heap with _ | p <;> rfl
  | brk rest ih => rfl
  | cont rest ih => rfl

/-- A call of a function: what it returns, if it does, and the heap it leaves. -/
def runFunction (fuel : ℕ) (body : Code) (f : Activation V H) : Option (Option V × H) :=
  (runCode O fuel body f).map fun r =>
    match r.2 with
    | .ret v => (some v, r.1.heap)
    | _ => (none, r.1.heap)

end Exec

/-! ### Two runs -/

section Related

variable {V H : Type} {O : Objects V H}

/-- Outcomes that end alike: what holds of the two at each kind of end. -/
def ExitRel (next brk cont : Activation V H → Activation V H → Prop)
    (r s : Activation V H × Exit V) : Prop :=
  match r.2, s.2 with
  | .next, .next => next r.1 s.1
  | .brk, .brk => brk r.1 s.1
  | .cont, .cont => cont r.1 s.1
  | .ret v, .ret w => v = w ∧ r.1.heap = s.1.heap
  | _, _ => False

variable {R B C D : Activation V H → Activation V H → Prop}
variable {r s : Activation V H × Exit V}
variable {rest rest' : Activation V H → Option (Activation V H × Exit V)}
variable {bind bind' : V → Activation V H → Option (Activation V H)}
variable {body body' : Activation V H → Option (Activation V H × Exit V)} {f g : Activation V H}
variable {test test' : Activation V H → Option (Bool × H)}

theorem andThen_rel (h : ExitRel R B C r s)
    (hrest : ∀ f g, R f g → Option.Rel (ExitRel D B C) (rest f) (rest' g)) :
    Option.Rel (ExitRel D B C) (andThen r rest) (andThen s rest') := by
  obtain ⟨f, exit⟩ := r
  obtain ⟨g, exit'⟩ := s
  cases exit <;> cases exit' <;> first | exact hrest f g h | exact .some h | exact h.elim

theorem afterLoop_rel {S : Activation V H → Activation V H → Prop}
    (h : ExitRel S R (fun _ _ => False) r s)
    {orelse orelse' : Activation V H → Option (Activation V H × Exit V)}
    (horelse : ∀ f g, S f g → Option.Rel (ExitRel R B C) (orelse f) (orelse' g))
    (hrest : ∀ f g, R f g → Option.Rel (ExitRel D B C) (rest f) (rest' g)) :
    Option.Rel (ExitRel D B C) (afterLoop r orelse rest) (afterLoop s orelse' rest') := by
  obtain ⟨f, exit⟩ := r
  obtain ⟨g, exit'⟩ := s
  cases exit <;> cases exit' <;> first | exact h.elim | skip
  · exact rel_bind (horelse f g h) fun _ _ h => andThen_rel h hrest
  · exact hrest f g h
  · exact .some h

/-- The iterations of two loops over the same objects, where what holds of the two activations may
depend on the objects that are left. -/
theorem forItems_rel_along {I : List V → Activation V H → Activation V H → Prop}
    (h : ∀ v vs f g, I (v :: vs) f g →
      Option.Rel (ExitRel (I vs) B (I vs)) ((bind v f).bind body) ((bind' v g).bind body'))
    (vs : List V) (hfg : I vs f g) :
    Option.Rel (ExitRel (I []) B fun _ _ => False) (forItems bind body vs f)
      (forItems bind' body' vs g) := by
  induction vs generalizing f g with
  | nil => exact .some hfg
  | cons v vs ih =>
    simp only [forItems, ← bind_assoc]
    refine rel_bind (h v vs f g hfg) ?_
    rintro ⟨f', exit⟩ ⟨g', exit'⟩ hends
    cases exit <;> cases exit' <;> first | exact hends.elim | skip
    · exact ih hends
    · exact .some hends
    · exact ih hends
    · exact .some hends

theorem forItems_rel (h : ∀ v f g, R f g →
      Option.Rel (ExitRel R B R) ((bind v f).bind body) ((bind' v g).bind body')) (vs : List V)
    (hfg : R f g) :
    Option.Rel (ExitRel R B fun _ _ => False) (forItems bind body vs f)
      (forItems bind' body' vs g) :=
  forItems_rel_along (I := fun _ => R) (fun v _ => h v) vs hfg

/-- The iterations of two loops, where what holds of the two activations may depend on how many are
left. -/
theorem whileItems_rel_along {I : ℕ → Activation V H → Activation V H → Prop}
    (htest : ∀ fuel f g, I fuel f g → test f = test' g)
    (hstop : ∀ fuel f g h, I fuel f g → R { f with heap := h } { g with heap := h })
    (h : ∀ fuel f g m, I (fuel + 1) f g → test f = some (true, m) →
      Option.Rel (ExitRel (I fuel) B (I fuel)) (body { f with heap := m })
      (body' { g with heap := m })) (fuel : ℕ) (hfg : I fuel f g) :
    Option.Rel (ExitRel R B fun _ _ => False) (whileItems test body fuel f)
      (whileItems test' body' fuel g) := by
  induction fuel generalizing f g with
  | zero => exact .none
  | succ fuel ih =>
    have htests := htest (fuel + 1) f g hfg
    rw [whileItems, whileItems, ← htests]
    rcases hc : test f with _ | ⟨c, m⟩
    · exact .none
    · simp only [bind_some]
      cases c with
      | false => exact .some (hstop (fuel + 1) f g m hfg)
      | true =>
        refine rel_bind (h fuel f g m hfg hc) ?_
        rintro ⟨f', exit⟩ ⟨g', exit'⟩ hends
        cases exit <;> cases exit' <;> first | exact hends.elim | skip
        · exact ih hends
        · exact .some hends
        · exact ih hends
        · exact .some hends

theorem whileItems_rel (htest : ∀ f g, R f g → test f = test' g)
    (hheap : ∀ f g h, R f g → R { f with heap := h } { g with heap := h })
    (h : ∀ f g, R f g → Option.Rel (ExitRel R B R) (body f) (body' g)) (fuel : ℕ) (hfg : R f g) :
    Option.Rel (ExitRel R B fun _ _ => False) (whileItems test body fuel f)
      (whileItems test' body' fuel g) :=
  whileItems_rel_along (I := fun _ => R) (fun _ => htest) (fun _ => hheap)
    (fun _ f g m hfg _ => h _ _ (hheap f g m hfg)) fuel hfg

/-- Outcomes of a call, where the two bodies end alike. -/
theorem runFunction_eq {fuel : ℕ} {c d : Code}
    (h : Option.Rel (ExitRel (fun f g => f.heap = g.heap) (fun f g => f.heap = g.heap)
      fun f g => f.heap = g.heap) (runCode O fuel c f) (runCode O fuel d g)) :
    runFunction O fuel c f = runFunction O fuel d g := by
  rw [runFunction, runFunction]
  generalize runCode O fuel c f = a at h
  generalize runCode O fuel d g = b at h
  cases h with
  | none => rfl
  | @some p q hpq =>
    obtain ⟨f', exit⟩ := p
    obtain ⟨g', exit'⟩ := q
    cases exit <;> cases exit' <;> first | exact hpq.elim | skip
    · exact congrArg some (congrArg (none, ·) hpq)
    · exact congrArg some (congrArg (none, ·) hpq)
    · exact congrArg some (congrArg (none, ·) hpq)
    · obtain ⟨rfl, hheap⟩ := hpq
      exact congrArg some (congrArg (some _, ·) hheap)

theorem ExitRel.mono {next next' brk brk' cont cont' : Activation V H → Activation V H → Prop}
    (h : ExitRel next brk cont r s) (hnext : ∀ f g, next f g → next' f g)
    (hbrk : ∀ f g, brk f g → brk' f g) (hcont : ∀ f g, cont f g → cont' f g) :
    ExitRel next' brk' cont' r s := by
  obtain ⟨f, exit⟩ := r
  obtain ⟨g, exit'⟩ := s
  cases exit <;> cases exit' <;> first | exact h.elim | skip
  · exact hnext f g h
  · exact hbrk f g h
  · exact hcont f g h
  · exact h

end Related

/-! ### Renaming -/

/-- An expression with every name replaced. -/
def Expr.rename (ρ : String → String) : Expr → Expr
  | .const v => .const v
  | .name id => .name (ρ id)
  | .attr value a => .attr (value.rename ρ) a
  | .unaryOp op operand => .unaryOp op (operand.rename ρ)
  | .binOp op left right => .binOp op (left.rename ρ) (right.rename ρ)
  | .boolOp conj left right => .boolOp conj (left.rename ρ) (right.rename ρ)
  | .ifExp test body orelse => .ifExp (test.rename ρ) (body.rename ρ) (orelse.rename ρ)
  | .call func args => .call (func.rename ρ) (args.rename ρ)
  | .subscript value index => .subscript (value.rename ρ) (index.rename ρ)
  | .slice lower upper step => .slice (lower.rename ρ) (upper.rename ρ) (step.rename ρ)
  | .unit => .unit
  | .pair head tail => .pair (head.rename ρ) (tail.rename ρ)

/-- A target with every name that is read replaced. -/
def Pattern.renameLoads (ρ : String → String) : Pattern → Pattern
  | .name id => .name id
  | .item value slice => .item (value.rename ρ) (slice.rename ρ)
  | .unit => .unit
  | .pair head tail => .pair (head.renameLoads ρ) (tail.renameLoads ρ)

section Rename

variable {V H : Type} {O : Objects V H} {env env' : String → Option V} {ρ : String → String}
variable {e : Expr}

/-- **An expression has the value of the renamed one**, where the new names are bound to what the
old ones are. -/
theorem evaluate_rename (h : ∀ x ∈ loadNames e, env x = env' (ρ x)) :
    evaluate O env e = evaluate O env' (e.rename ρ) := by
  have hsub : ∀ {e' : Expr}, e'.walkNodes ⊆ e.walkNodes →
      ∀ x ∈ loadNames e', env x = env' (ρ x) :=
    fun hsub x hx => h x (filterMap_subset _ hsub hx)
  clear h
  induction e with
  | const v => rfl
  | name id =>
    funext heap
    have hid : env id = env' (ρ id) := hsub (List.Subset.refl _) id
      (by simp [loadNames, Expr.walkNodes, Expr.id?])
    simp only [evaluate, Expr.rename, hid]
  | attr value a ih =>
    have hvalue := ih fun hs => hsub (subset_cons_of_subset _ hs)
    funext heap
    simp only [evaluate, Expr.rename, hvalue]
  | unaryOp op operand ih =>
    have hoperand := ih fun hs => hsub (subset_cons_of_subset _ hs)
    funext heap
    simp only [evaluate, Expr.rename, hoperand]
  | binOp op left right ihl ihr | boolOp conj left right ihl ihr =>
    have hleft := ihl fun hs => hsub (by simp only [Expr.walkNodes]; grind)
    have hright := ihr fun hs => hsub (by simp only [Expr.walkNodes]; grind)
    funext heap
    simp only [evaluate, Expr.rename, hleft, hright]
  | ifExp test body orelse iht ihb iho =>
    have htest := iht fun hs => hsub (by simp only [Expr.walkNodes]; grind)
    have hbody := ihb fun hs => hsub (by simp only [Expr.walkNodes]; grind)
    have horelse := iho fun hs => hsub (by simp only [Expr.walkNodes]; grind)
    funext heap
    simp only [evaluate, Expr.rename, htest, hbody, horelse]
  | call func args ihf iha =>
    have hfunc := ihf fun hs => hsub (by simp only [Expr.walkNodes]; grind)
    have hargs := iha fun hs => hsub (by simp only [Expr.walkNodes]; grind)
    funext heap
    simp only [evaluate, Expr.rename, hfunc, hargs]
  | subscript value slice ihv ihs =>
    have hvalue := ihv fun hs => hsub (by simp only [Expr.walkNodes]; grind)
    have hslice := ihs fun hs => hsub (by simp only [Expr.walkNodes]; grind)
    funext heap
    simp only [evaluate, Expr.rename, hvalue, hslice]
  | slice lower upper step ihl ihu ihs =>
    have hlower := ihl fun hs => hsub (by simp only [Expr.walkNodes]; grind)
    have hupper := ihu fun hs => hsub (by simp only [Expr.walkNodes]; grind)
    have hstep := ihs fun hs => hsub (by simp only [Expr.walkNodes]; grind)
    funext heap
    simp only [evaluate, Expr.rename, hlower, hupper, hstep]
  | unit => rfl
  | pair head tail ihh iht =>
    have hhead := ihh fun hs => hsub (by simp only [Expr.walkNodes]; grind)
    have htail := iht fun hs => hsub (by simp only [Expr.walkNodes]; grind)
    funext heap
    simp only [evaluate, Expr.rename, hhead, htail]

theorem rename_eq_self (h : ∀ x ∈ loadNames e, ρ x = x) : e.rename ρ = e := by
  have hsub : ∀ {e' : Expr}, e'.walkNodes ⊆ e.walkNodes → ∀ x ∈ loadNames e', ρ x = x :=
    fun hsub x hx => h x (filterMap_subset _ hsub hx)
  clear h
  induction e with
  | const v => rfl
  | name id => exact congrArg Expr.name (hsub (List.Subset.refl _) id
      (by simp [loadNames, Expr.walkNodes, Expr.id?]))
  | unit => rfl
  | _ =>
    simp only [Expr.walkNodes] at hsub
    simp only [Expr.rename]
    grind

theorem renameLoads_eq_self {p : Pattern} (h : ∀ x ∈ p.loads, ρ x = x) : p.renameLoads ρ = p := by
  induction p with
  | name id => rfl
  | item value slice =>
    rw [Pattern.renameLoads, rename_eq_self fun x hx => h x (mem_append_left _ hx),
      rename_eq_self fun x hx => h x (mem_append_right _ hx)]
  | unit => rfl
  | pair head tail ihh iht =>
    rw [Pattern.renameLoads, ihh fun x hx => h x (mem_append_left _ hx),
      iht fun x hx => h x (mem_append_right _ hx)]

end Rename

/-! ### Lists of integers -/

/-- Lists of integers, which `+` adds element by element; nothing is shared, so there is no heap. -/
def listObjects : Objects (List ℤ) Unit where
  const
    | .int n => [n]
    | _ => []
  unit := []
  pair xs ys := xs ++ ys
  slice _ _ _ := []
  attr _ _ _ := none
  unary _ _ _ := none
  binary
    | .add, xs, ys, h => if xs.length = ys.length then some (zipWith (· + ·) xs ys, h) else none
    | _, _, _, _ => none
  inplace
    | .add, xs, ys, h => if xs.length = ys.length then some (zipWith (· + ·) xs ys, h) else none
    | _, _, _, _ => none
  call _ _ _ := none
  getItem _ _ _ := none
  setItem _ _ _ _ := none
  iter xs h := some (xs.map fun x => [x], h)
  truth xs _ := some (xs ≠ [])

end Translate

end HpcAgentBench
