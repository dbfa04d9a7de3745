import HpcAgentBench.Translate.Chained

/-!
# Names of one value are one name

The statements after a chained assignment run alike on the aliases and on the one name they are
spelled with, as long as all of these name one value.

## Main results

* `runCode_renamed` : a list of statements and the renamed one keep every relation under which the
  names they use correspond.
* `split_sound` : one split changes nothing a call computes.
* `split_chained_sound` : the pass changes nothing a call computes.
-/

namespace HpcAgentBench

open List Option

namespace Translate

variable {V H : Type} {O : Objects V H}
variable {f : Activation V H} {x : String} {v : V} {ρ : String → String} {e : Expr} {p : Pattern}
variable {c d : Code} {ss ts : List Code} {fuel : ℕ} {D E : Set String} {g : Activation V H}
variable {y holder : String} {live : List String} {targets : List Pattern} {value : Expr}
variable {inPlace scopeBody : Bool} {outer : List String} {stmts : List Code}
variable {seen kept bound names : List String} {U : Set String} {aliases : List String}
variable {shared : Bool} {W : Set String} {rest : List Code} {P : Activation V H → Prop}
variable {path : List Move} {m : Move} {list : Code}

/-- An object that an augmented assignment leaves its target bound to, as it does an array. -/
def UpdatesInPlace (O : Objects V H) (v : V) : Prop :=
  ∀ op w h q, O.inplace op v w h = some q → q.1 = v

/-! ### Renamed statements -/

/-- A relation of two activations that statements keep when they are renamed: the names in `reads`
are bound alike, those in `binds` may be bound anew, and those in `shared` are only written in
place. -/
structure Respects (O : Objects V H) (ρ : String → String) (reads binds shared : Set String)
    (M : Activation V H → Activation V H → Prop) : Prop where
  heap : ∀ {f g}, M f g → f.heap = g.heap
  withHeap : ∀ {f g}, M f g → ∀ h, M { f with heap := h } { g with heap := h }
  env : ∀ {f g}, M f g → ∀ x ∈ reads, f.env x = g.env (ρ x)
  own : ∀ x ∈ binds, ρ x = x
  bind : ∀ {f g}, M f g → ∀ x ∈ binds, ∀ v, M (f.bind x v) (g.bind x v)
  inPlace : ∀ {f g}, M f g → ∀ x ∈ shared, ∃ v, f.env x = some v ∧ UpdatesInPlace O v

/-- A name bound to what it is bound to. -/
theorem Activation.bind_self (h : f.env x = some v) :
    f.bind x v = f := by
  rw [Activation.bind, ← h, Function.update_eq_self]

section Respects

variable {ρ : String → String} {reads binds shared : Set String}
variable {M : Activation V H → Activation V H → Prop} {f g : Activation V H}
variable {e : Expr} {p : Pattern} {v : V}

theorem Respects.evaluate_eq (hM : Respects O ρ reads binds shared M) (h : M f g)
    (he : ∀ x ∈ loadNames e, x ∈ reads) :
    evaluate O f.env e f.heap = evaluate O g.env (e.rename ρ) g.heap := by
  rw [hM.heap h, evaluate_rename fun x hx => hM.env h x (he x hx)]

/-- An expression evaluated in two activations whose heaps are replaced by one. -/
theorem Respects.evaluate_eq_at (hM : Respects O ρ reads binds shared M) (h : M f g)
    (he : ∀ x ∈ loadNames e, x ∈ reads) (m : H) :
    evaluate O f.env e m = evaluate O g.env (e.rename ρ) m :=
  hM.evaluate_eq (hM.withHeap h m) he

theorem isTuple_rename : (p.rename ρ).isTuple = p.isTuple := by cases p <;> rfl

theorem bindAll_renamed (hM : Respects O ρ reads binds shared M) {vs : List V}
    (hreads : ∀ x ∈ p.loads, x ∈ reads) (hbinds : ∀ x ∈ p.binds, x ∈ binds) (h : M f g) :
    Option.Rel M (bindAll O p vs f) (bindAll O (p.rename ρ) vs g) := by
  induction p generalizing vs f g with
  | name id =>
    match vs with
    | [] => exact .none
    | _ :: _ :: _ => exact .none
    | [v] =>
      have hid : id ∈ binds := hbinds id mem_cons_self
      rw [Pattern.rename, hM.own id hid]
      exact .some (hM.bind h id hid v)
  | item value slice =>
    match vs with
    | [] => exact .none
    | _ :: _ :: _ => exact .none
    | [v] =>
      simp only [bindAll, Pattern.rename]
      refine rel_bind (rel_eq_iff.2
        (hM.evaluate_eq h fun x hx => hreads x (mem_append_left _ hx))) ?_
      rintro p _ rfl
      refine rel_bind (rel_eq_iff.2
        (hM.evaluate_eq_at h (fun x hx => hreads x (mem_append_right _ hx)) p.2)) ?_
      rintro q _ rfl
      refine rel_map (rel_eq_iff.2 rfl) ?_
      rintro m _ rfl
      exact hM.withHeap h m
  | unit =>
    match vs with
    | [] => exact .some h
    | _ :: _ => exact .none
  | pair head tail ihh iht =>
    match vs with
    | [] => exact .none
    | v :: vs =>
      have hhead : ∀ {vs f g}, M f g →
          Option.Rel M (bindAll O head vs f) (bindAll O (head.rename ρ) vs g) :=
        fun h => ihh (fun x hx => hreads x (mem_append_left _ hx))
          (fun x hx => hbinds x (mem_append_left _ hx)) h
      simp only [bindAll, Pattern.rename, isTuple_rename]
      refine rel_bind (?_ : Option.Rel M _ _) fun f' g' h' =>
        iht (fun x hx => hreads x (mem_append_right _ hx))
          (fun x hx => hbinds x (mem_append_right _ hx)) h'
      split
      · rw [hM.heap h]
        refine rel_bind (rel_eq_iff.2 rfl) ?_
        rintro p _ rfl
        exact hhead (hM.withHeap h p.2)
      · exact hhead h

theorem assignTo_renamed (hM : Respects O ρ reads binds shared M)
    (hreads : ∀ x ∈ p.loads, x ∈ reads) (hbinds : ∀ x ∈ p.binds, x ∈ binds) (h : M f g) :
    Option.Rel M (assignTo O p v f) (assignTo O (p.rename ρ) v g) := by
  simp only [assignTo, isTuple_rename]
  split
  · rw [hM.heap h]
    refine rel_bind (rel_eq_iff.2 rfl) ?_
    rintro q _ rfl
    exact bindAll_renamed hM hreads hbinds (hM.withHeap h q.2)
  · exact bindAll_renamed hM hreads hbinds h

theorem targets_renamed (hM : Respects O ρ reads binds shared M) {targets : List Pattern}
    (hreads : ∀ x ∈ targets.flatMap Pattern.loads, x ∈ reads)
    (hbinds : ∀ x ∈ targets.flatMap Pattern.binds, x ∈ binds) (h : M f g) :
    Option.Rel M (targets.foldlM (fun f t => assignTo O t v f) f)
      ((targets.map (Pattern.rename ρ)).foldlM (fun f t => assignTo O t v f) g) := by
  induction targets generalizing f g with
  | nil => exact .some h
  | cons t ts ih =>
    rw [map_cons, foldlM_cons, foldlM_cons]
    refine rel_bind (assignTo_renamed hM
      (fun x hx => hreads x (mem_flatMap.2 ⟨t, mem_cons_self, hx⟩))
      (fun x hx => hbinds x (mem_flatMap.2 ⟨t, mem_cons_self, hx⟩)) h) ?_
    intro f' g' h'
    exact ih (fun x hx => hreads x (by simp only [flatMap_cons, mem_append]; exact .inr hx))
      (fun x hx => hbinds x (by simp only [flatMap_cons, mem_append]; exact .inr hx)) h'

theorem testOf_renamed (hM : Respects O ρ reads binds shared M) (he : ∀ x ∈ loadNames e, x ∈ reads)
    (h : M f g) :
    testOf O e f = testOf O (e.rename ρ) g := by
  rw [testOf, testOf, hM.evaluate_eq h he]

/-- An augmented assignment binds its target anew, or writes an object in place. -/
theorem augment_renamed (hM : Respects O ρ reads binds shared M) {target : Pattern}
    {op : Operator} {value : Expr} (hreads : ∀ x ∈ target.binds ++ target.loads, x ∈ reads)
    (hvalue : ∀ x ∈ loadNames value, x ∈ reads)
    (hbinds : ∀ x ∈ target.binds, x ∈ binds ∨ x ∈ shared) (h : M f g) :
    Option.Rel M (augment O target op value f)
      (augment O (target.rename ρ) op (value.rename ρ) g) := by
  cases target with
  | name id =>
    have hid : id ∈ (Pattern.name id).binds := mem_cons_self
    have henv := hM.env h id (hreads id (mem_append_left _ hid))
    simp only [augment, Pattern.rename, ← henv]
    refine rel_bind (r := fun v w => v = w ∧ f.env id = some v) ?_ ?_
    · cases f.env id with
      | none => exact .none
      | some v => exact .some ⟨rfl, rfl⟩
    rintro old _ ⟨rfl, hold⟩
    refine rel_bind (rel_eq_iff.2 (hM.evaluate_eq h hvalue)) ?_
    rintro p _ rfl
    refine rel_map (r := fun q q' => q = q' ∧ O.inplace op old p.1 p.2 = some q) ?_ ?_
    · cases O.inplace op old p.1 p.2 with
      | none => exact .none
      | some q => exact .some ⟨rfl, rfl⟩
    rintro q _ ⟨rfl, hq⟩
    rcases hbinds id hid with hb | hs
    · rw [hM.own id hb]
      exact hM.bind (hM.withHeap h q.2) id hb q.1
    · -- Written in place: both names stay bound to the object.
      obtain ⟨v, hv, hplace⟩ := hM.inPlace h id hs
      obtain rfl : v = old := some.inj (hv.symm.trans hold)
      rw [hplace op p.1 p.2 q hq, Activation.bind_self (f := { f with heap := q.2 }) hold,
        Activation.bind_self (f := { g with heap := q.2 }) (henv ▸ hold)]
      exact hM.withHeap h q.2
  | item base slice =>
    have hbase : ∀ x ∈ loadNames base, x ∈ reads := fun x hx =>
      hreads x (mem_append_right _ (mem_append_left _ hx))
    have hslice : ∀ x ∈ loadNames slice, x ∈ reads := fun x hx =>
      hreads x (mem_append_right _ (mem_append_right _ hx))
    simp only [augment, Pattern.rename]
    refine rel_bind (rel_eq_iff.2 (hM.evaluate_eq h hbase)) ?_
    rintro b _ rfl
    refine rel_bind (rel_eq_iff.2 (hM.evaluate_eq_at h hslice b.2)) ?_
    rintro s _ rfl
    refine rel_bind (rel_eq_iff.2 rfl) ?_
    rintro old _ rfl
    refine rel_bind (rel_eq_iff.2 (hM.evaluate_eq_at h hvalue old.2)) ?_
    rintro p _ rfl
    refine rel_bind (rel_eq_iff.2 rfl) ?_
    rintro q _ rfl
    refine rel_map (rel_eq_iff.2 rfl) ?_
    rintro m _ rfl
    exact hM.withHeap h m
  | unit => exact .none
  | pair head tail => exact .none

/-- **A list of statements and the renamed one keep every relation they respect**; a `break` or a
`continue` that leaves the list finds it weakened. -/
theorem runCode_renamed (hM : Respects O ρ reads binds shared M) {c : Code} (fuel : ℕ)
    {B C : Activation V H → Activation V H → Prop} (hreads : ∀ x ∈ c.loads, x ∈ reads)
    (hbinds : ∀ x ∈ c.rebinds true, x ∈ binds)
    (haug : ∀ x ∈ c.rebinds false, x ∈ binds ∨ x ∈ shared)
    (hleaves : c.leavesBlock = false ∨ ∀ f g, M f g → B f g ∧ C f g) (h : M f g) :
    Option.Rel (ExitRel M B C) (runCode O fuel c f) (runCode O fuel (c.rename ρ) g) := by
  induction c generalizing f g B C with
  | done => exact .some h
  | assign targets value rest ih =>
    simp only [Code.loads, Code.rebinds, mem_append] at hreads hbinds haug
    simp only [runCode, Code.rename]
    refine rel_bind (rel_eq_iff.2 (hM.evaluate_eq h fun x hx => hreads x (.inl (.inr hx)))) ?_
    rintro p _ rfl
    refine rel_bind (targets_renamed hM (fun x hx => hreads x (.inl (.inl hx)))
      (fun x hx => hbinds x (.inl hx)) (hM.withHeap h p.2)) fun f' g' h' => ?_
    exact ih (fun x hx => hreads x (.inr hx)) (fun x hx => hbinds x (.inr hx))
      (fun x hx => haug x (.inr hx)) hleaves h'
  | augAssign target op value rest ih =>
    simp only [Code.loads, Code.rebinds, mem_append] at hreads hbinds haug
    simp only [runCode, Code.rename]
    refine rel_bind (augment_renamed hM
      (fun x hx => hreads x (.inl (.inl (mem_append.1 hx))))
      (fun x hx => hreads x (.inl (.inr hx))) (fun x hx => haug x (.inl (by simpa using hx))) h)
      fun f' g' h' => ?_
    exact ih (fun x hx => hreads x (.inr hx)) (fun x hx => hbinds x (.inr hx))
      (fun x hx => haug x (.inr hx)) hleaves h'
  | expr value rest ih =>
    simp only [Code.loads, Code.rebinds, mem_append] at hreads hbinds haug
    simp only [runCode, Code.rename]
    refine rel_bind (rel_eq_iff.2 (hM.evaluate_eq h fun x hx => hreads x (.inl hx))) ?_
    rintro p _ rfl
    exact ih (fun x hx => hreads x (.inr hx)) hbinds haug hleaves (hM.withHeap h p.2)
  | ifElse test body orelse rest ihb iho ih =>
    simp only [Code.loads, Code.rebinds, mem_append] at hreads hbinds haug
    simp only [Code.leavesBlock, Bool.or_eq_false_iff] at hleaves
    simp only [runCode, Code.rename]
    refine rel_bind (rel_eq_iff.2
      (testOf_renamed hM (fun x hx => hreads x (.inl (.inl (.inl hx)))) h)) ?_
    rintro c _ rfl
    refine rel_bind (r := ExitRel M B C) ?_ fun r s hrs => andThen_rel hrs fun f' g' h' =>
      ih (fun x hx => hreads x (.inr hx)) (fun x hx => hbinds x (.inr hx))
        (fun x hx => haug x (.inr hx)) (hleaves.imp_left And.right) h'
    split
    · exact ihb (fun x hx => hreads x (.inl (.inl (.inr hx))))
        (fun x hx => hbinds x (.inl (.inl hx))) (fun x hx => haug x (.inl (.inl hx)))
        (hleaves.imp_left fun h => h.1.1) (hM.withHeap h c.2)
    · exact iho (fun x hx => hreads x (.inl (.inr hx)))
        (fun x hx => hbinds x (.inl (.inr hx))) (fun x hx => haug x (.inl (.inr hx)))
        (hleaves.imp_left fun h => h.1.2) (hM.withHeap h c.2)
  | forIn target iter body orelse rest ihb iho ih =>
    simp only [Code.loads, Code.rebinds, mem_append] at hreads hbinds haug
    simp only [Code.leavesBlock, Bool.or_eq_false_iff] at hleaves
    simp only [runCode, Code.rename]
    refine rel_bind (rel_eq_iff.2
      (hM.evaluate_eq h fun x hx => hreads x (.inl (.inl (.inl (.inr hx)))))) ?_
    rintro p _ rfl
    refine rel_bind (rel_eq_iff.2 rfl) ?_
    rintro q _ rfl
    refine rel_bind (forItems_rel (R := M) (B := M) (fun v f' g' h' => ?_) q.1
      (hM.withHeap h q.2)) fun r s hrs => afterLoop_rel hrs
        (fun f' g' h' => iho (fun x hx => hreads x (.inl (.inr hx)))
          (fun x hx => hbinds x (.inl (.inr hx))) (fun x hx => haug x (.inl (.inr hx)))
          (hleaves.imp_left And.left) h')
        fun f' g' h' => ih (fun x hx => hreads x (.inr hx)) (fun x hx => hbinds x (.inr hx))
          (fun x hx => haug x (.inr hx)) (hleaves.imp_left And.right) h'
    refine rel_bind (assignTo_renamed hM (fun x hx => hreads x (.inl (.inl (.inl (.inl hx)))))
      (fun x hx => hbinds x (.inl (.inl (.inl hx)))) h') fun f'' g'' h'' => ?_
    exact ihb (fun x hx => hreads x (.inl (.inl (.inr hx))))
      (fun x hx => hbinds x (.inl (.inl (.inr hx)))) (fun x hx => haug x (.inl (.inl (.inr hx))))
      (.inr fun _ _ h => ⟨h, h⟩) h''
  | whileDo test body orelse rest ihb iho ih =>
    simp only [Code.loads, Code.rebinds, mem_append] at hreads hbinds haug
    simp only [Code.leavesBlock, Bool.or_eq_false_iff] at hleaves
    simp only [runCode, Code.rename]
    refine rel_bind (whileItems_rel (R := M) (B := M)
      (fun f' g' h' => testOf_renamed hM (fun x hx => hreads x (.inl (.inl (.inl hx)))) h')
      (fun f' g' m h' => hM.withHeap h' m) (fun f' g' h' => ?_) fuel h) fun r s hrs =>
        afterLoop_rel hrs
        (fun f' g' h' => iho (fun x hx => hreads x (.inl (.inr hx)))
          (fun x hx => hbinds x (.inl (.inr hx))) (fun x hx => haug x (.inl (.inr hx)))
          (hleaves.imp_left And.left) h')
        fun f' g' h' => ih (fun x hx => hreads x (.inr hx)) (fun x hx => hbinds x (.inr hx))
          (fun x hx => haug x (.inr hx)) (hleaves.imp_left And.right) h'
    exact ihb (fun x hx => hreads x (.inl (.inl (.inr hx))))
      (fun x hx => hbinds x (.inl (.inl hx))) (fun x hx => haug x (.inl (.inl hx)))
      (.inr fun _ _ h => ⟨h, h⟩) h'
  | ret value rest ih =>
    simp only [Code.loads, mem_append] at hreads
    simp only [runCode, Code.rename]
    refine rel_map (rel_eq_iff.2 (hM.evaluate_eq h fun x hx => hreads x (.inl hx))) ?_
    rintro p _ rfl
    exact ⟨rfl, rfl⟩
  | brk rest ih => exact .some ((hleaves.resolve_left (by simp [Code.leavesBlock]) f g h).1)
  | cont rest ih => exact .some ((hleaves.resolve_left (by simp [Code.leavesBlock]) f g h).2)

end Respects

/-! ### Names of a list -/

theorem loadNames_rename :
    loadNames (e.rename ρ) = (loadNames e).map ρ := by
  simp only [loadNames]
  induction e with
  | const v => rfl
  | name id => rfl
  | unit => rfl
  | _ =>
    simp only [Expr.rename, Expr.walkNodes, filterMap_append, map_append,
      filterMap_cons, Expr.id?, *]

theorem Pattern.loads_rename :
    (p.rename ρ).loads = p.loads.map ρ := by
  induction p with
  | name id => rfl
  | item value slice => simp only [rename, loads, loadNames_rename, map_append]
  | unit => rfl
  | pair head tail ihh iht => simp only [rename, loads, ihh, iht, map_append]

theorem Pattern.binds_rename :
    (p.rename ρ).binds = p.binds.map ρ := by
  induction p with
  | name id => rfl
  | item value slice => rfl
  | unit => rfl
  | pair head tail ihh iht => simp only [rename, binds, ihh, iht, map_append]

theorem Code.loads_rename :
    (c.rename ρ).loads = c.loads.map ρ := by
  have htargets : ∀ ts : List Pattern, (ts.map (Pattern.rename ρ)).flatMap Pattern.loads =
      (ts.flatMap Pattern.loads).map ρ := fun ts => by
    induction ts with
    | nil => rfl
    | cons t ts ih => simp only [map_cons, flatMap_cons, map_append, ih,
        Pattern.loads_rename]
  induction c <;> simp only [rename, loads, map_append, map_nil, loadNames_rename,
    Pattern.loads_rename, Pattern.binds_rename, *]

theorem Code.loads_append : (c.append d).loads = c.loads ++ d.loads := by
  induction c <;> simp only [append, loads, nil_append, append_assoc, *]

theorem Code.loads_ofStmts : (ofStmts ss).loads = ss.flatMap loads := by
  induction ss with
  | nil => rfl
  | cons s ss ih =>
    rw [flatMap_cons, ← ih]
    exact loads_append

theorem Code.append_assoc {e : Code} : (c.append d).append e = c.append (d.append e) := by
  induction c <;> simp only [append, *]

theorem Code.ofStmts_append :
    ofStmts (ss ++ ts) = (ofStmts ss).append (ofStmts ts) := by
  induction ss with
  | nil => rfl
  | cons s ss ih =>
    show s.append (ofStmts (ss ++ ts)) = (s.append (ofStmts ss)).append (ofStmts ts)
    rw [ih, append_assoc]

theorem Code.ofStmts_stmts : ofStmts c.stmts = c := by
  induction c with
  | done => rfl
  | assign targets value rest ih => exact congrArg (assign targets value) ih
  | augAssign target op value rest ih => exact congrArg (augAssign target op value) ih
  | expr value rest ih => exact congrArg (expr value) ih
  | ifElse test body orelse rest _ _ ih => exact congrArg (ifElse test body orelse) ih
  | forIn target iter body orelse rest _ _ ih => exact congrArg (forIn target iter body orelse) ih
  | whileDo test body orelse rest _ _ ih => exact congrArg (whileDo test body orelse) ih
  | ret value rest ih => exact congrArg (ret value) ih
  | brk rest ih => exact congrArg brk ih
  | cont rest ih => exact congrArg cont ih

theorem runCode_ofStmts_append :
    runCode O fuel (Code.ofStmts (ss ++ ts)) f =
      (runCode O fuel (Code.ofStmts ss) f).bind (andThen · (runCode O fuel (Code.ofStmts ts))) := by
  rw [Code.ofStmts_append, runCode_append]

theorem runCode_ofStmts_cons {s : Code} :
    runCode O fuel (Code.ofStmts (s :: ss)) f =
      (runCode O fuel s f).bind (andThen · (runCode O fuel (Code.ofStmts ss))) :=
  runCode_append O

/-- What is bound anew where arrays are written in place is bound anew. -/
theorem Code.rebinds_subset : c.rebinds true ⊆ c.rebinds false := by
  induction c <;> simp only [rebinds] <;> grind

/-- What is only written in place is read. -/
theorem Code.rebinds_or_loads (h : x ∈ c.rebinds false) :
    x ∈ c.rebinds true ∨ x ∈ c.loads := by
  induction c <;> simp only [rebinds, loads, mem_append] at h ⊢ <;> grind

theorem Expr.rename_self : e.rename (fun x => x) = e := rename_eq_self fun _ _ => rfl

theorem Pattern.rename_self : p.rename (fun x => x) = p := by
  induction p <;> simp only [rename, Expr.rename_self, *]

theorem Code.rename_self : c.rename (fun x => x) = c := by
  have htargets : ∀ ts : List Pattern, ts.map (Pattern.rename fun x => x) = ts := fun ts =>
    (map_congr_left fun _ _ => Pattern.rename_self).trans (map_id ts)
  induction c <;> simp only [rename, Expr.rename_self, Pattern.rename_self, *]

/-! ### Activations that differ in some names -/

/-- Two activations that differ in some names only. -/
structure SameOff (D : Set String) (f g : Activation V H) : Prop where
  heap : f.heap = g.heap
  env : ∀ x ∉ D, f.env x = g.env x

theorem SameOff.refl (D : Set String) (f : Activation V H) : SameOff D f f := ⟨rfl, fun _ _ => rfl⟩

theorem SameOff.mono (h : SameOff D f g) (hDE : D ⊆ E) :
    SameOff E f g := ⟨h.heap, fun x hx => h.env x fun hD => hx (hDE hD)⟩

theorem Activation.bind_congr (h : y ≠ x → f.env y = g.env y) :
    (f.bind x v).env y = (g.bind x v).env y := by
  by_cases hy : y = x
  · subst hy
    simp only [bind, Function.update_self]
  · simp only [bind, Function.update_of_ne hy]
    exact h hy

theorem Activation.bind_env_of_ne (h : y ≠ x) :
    (f.bind x v).env y = f.env y := Function.update_of_ne h _ _

theorem Activation.bind_env_self :
    (f.bind x v).env x = some v := Function.update_self _ _ _

theorem SameOff.respects (D : Set String) :
    Respects O (fun x => x) (fun x => x ∉ D) Set.univ ∅ (SameOff D) where
  heap h := h.heap
  withHeap h _ := ⟨rfl, h.env⟩
  env h := h.env
  own _ _ := rfl
  bind h _ _ _ := ⟨h.heap, fun y hy => Activation.bind_congr fun _ => h.env y hy⟩
  inPlace _ _ hx := hx.elim

/-- Statements that read none of the names are the same in both. -/
theorem runCode_unchanged (h : SameOff D f g) (hc : ∀ x ∈ D, x ∉ c.loads) :
    Option.Rel (ExitRel (SameOff D) (SameOff D) (SameOff D)) (runCode O fuel c f)
      (runCode O fuel c g) := by
  have hrun := runCode_renamed (SameOff.respects (O := O) D) (c := c) fuel (B := SameOff D)
    (C := SameOff D) (fun x hx hD => hc x hD hx) (fun _ _ => Set.mem_univ _)
    (fun _ _ => .inl (Set.mem_univ _)) (.inr fun _ _ h => ⟨h, h⟩) h
  rwa [Code.rename_self] at hrun

/-- A store in two activations that differ in names it does not read. -/
theorem assignTo_unchanged (h : SameOff D f g) (hp : ∀ x ∈ D, x ∉ p.loads) :
    Option.Rel (SameOff D) (assignTo O p v f) (assignTo O p v g) := by
  have hstore := assignTo_renamed (O := O) (v := v) (p := p) (SameOff.respects D)
    (fun x hx hD => hp x hD hx) (fun _ _ => Set.mem_univ _) h
  rwa [Pattern.rename_self] at hstore

theorem evaluate_unchanged (h : SameOff D f g) (he : ∀ x ∈ D, x ∉ loadNames e) :
    evaluate O f.env e f.heap = evaluate O g.env e g.heap := by
  have heval := (SameOff.respects (O := O) D).evaluate_eq h (e := e) fun x hx hD => he x hD hx
  rwa [Expr.rename_self] at heval

theorem testOf_unchanged (h : SameOff D f g) (he : ∀ x ∈ D, x ∉ loadNames e) :
    testOf O e f = testOf O e g := by
  rw [testOf, testOf, evaluate_unchanged h he]

/-- Two activations after a chained assignment: the one has its value in all of `live`, the other in
the holder; they differ in these names and in some more. -/
structure Shares (v : V) (holder : String) (live : List String) (D : Set String)
    (f g : Activation V H) : Prop where
  heap : f.heap = g.heap
  env : ∀ x ∉ D, x ∉ live → f.env x = g.env x
  names : ∀ x ∈ live, f.env x = some v
  held : g.env holder = some v

section Shares

variable {v : V} {holder : String} {live : List String} {D U : Set String} {f g : Activation V H}
variable {x : String}

theorem aliasMap_of_mem (h : x ∈ live) : aliasMap holder live x = holder := if_pos h

theorem aliasMap_of_notMem (h : x ∉ live) : aliasMap holder live x = x := if_neg h

theorem Shares.env_alias (h : Shares v holder live D f g) (hx : x ∈ live ∨ x ∉ D) :
    f.env x = g.env (aliasMap holder live x) := by
  by_cases hlive : x ∈ live
  · rw [aliasMap_of_mem hlive, h.names x hlive, h.held]
  · rw [aliasMap_of_notMem hlive]
    exact h.env x (hx.resolve_left hlive) hlive

theorem Shares.respects (hholder : holder ∉ live) {inPlace : Bool}
    (hplace : inPlace = true → UpdatesInPlace O v) :
    Respects O (aliasMap holder live) (fun x => x ∈ live ∨ x ∉ D)
      (fun x => x ≠ holder ∧ x ∉ live)
      (fun x => inPlace = true ∧ (x ∈ live ∨ x = holder ∧ x ∉ D)) (Shares v holder live D) where
  heap h := h.heap
  withHeap h _ := ⟨rfl, h.env, h.names, h.held⟩
  env h _ hx := h.env_alias hx
  own _ hx := aliasMap_of_notMem hx.2
  bind {f g} h x hx w := by
    refine ⟨h.heap, fun y hD hlive => Activation.bind_congr fun _ => h.env y hD hlive,
      fun y hy => ?_, ?_⟩
    · rw [Activation.bind_env_of_ne (ne_of_mem_of_not_mem hy hx.2)]
      exact h.names y hy
    · rw [Activation.bind_env_of_ne (Ne.symm hx.1)]
      exact h.held
  inPlace {f g} h x hx := by
    refine ⟨v, ?_, hplace hx.1⟩
    rcases hx.2 with hlive | ⟨rfl, hD⟩
    · exact h.names x hlive
    · rw [h.env x hD hholder, h.held]

/-- The bindings of the aliases that are still read. -/
theorem stitches_run (fuel : ℕ) (names : List String) (hnames : holder ∉ names)
    (hheld : g.env holder = some v) :
    ∃ g', runCode O fuel (Code.ofStmts (names.map (bindTo holder))) g = some (g', .next) ∧
      g'.heap = g.heap ∧ (∀ x ∈ names, g'.env x = some v) ∧ ∀ x ∉ names, g'.env x = g.env x := by
  induction names generalizing g with
  | nil => exact ⟨g, rfl, rfl, by simp, fun _ _ => rfl⟩
  | cons x names ih =>
    have hx : holder ≠ x := fun he => hnames (he ▸ mem_cons_self)
    obtain ⟨g', hrun, hheap, hbound, hrest⟩ := ih (g := g.bind x v)
      (fun hmem => hnames (mem_cons_of_mem _ hmem))
      (by rw [Activation.bind_env_of_ne hx, hheld])
    refine ⟨g', ?_, hheap, ?_, ?_⟩
    · rw [map_cons, runCode_ofStmts_cons]
      simp only [bindTo, runCode, evaluate, hheld, map_some, bind_some,
        foldlM_cons, foldlM_nil, assignTo, Pattern.isTuple, bindAll, Bool.false_eq_true,
        if_false, Option.pure_def, andThen, bind_eq_bind]
      exact hrun
    · intro y hy
      by_cases hmem : y ∈ names
      · exact hbound y hmem
      · obtain rfl := (mem_cons.1 hy).resolve_right hmem
        rw [hrest y hmem, Activation.bind_env_self]
    · intro y hy
      rw [mem_cons, not_or] at hy
      rw [hrest y hy.2, Activation.bind_env_of_ne hy.1]

/-- Statements after the aliases that they read are bound. -/
theorem stitched_sim (fuel : ℕ) (reads : List String) (ss : List Code) (hholder : holder ∉ live)
    (hD : ∀ x ∈ D, x ∈ U ∧ x ∉ ss.flatMap Code.loads)
    (hreads : ∀ x ∈ live, x ∉ reads → x ∈ U ∧ x ∉ ss.flatMap Code.loads)
    (h : Shares v holder live D f g) :
    Option.Rel (ExitRel (SameOff U) (SameOff U) (SameOff U)) (runCode O fuel (Code.ofStmts ss) f)
      (runCode O fuel (Code.ofStmts (stitches holder live reads ++ ss)) g) := by
  obtain ⟨g', hrun, hheap, hbound, hrest⟩ := stitches_run (O := O) fuel
    (live.filter (· ∈ reads)) (fun hmem => hholder (mem_of_mem_filter hmem)) h.held
  have hmem : ∀ {x}, x ∈ live.filter (· ∈ reads) ↔ x ∈ live ∧ x ∈ reads := by
    simp only [mem_filter, decide_eq_true_eq, implies_true]
  rw [stitches, runCode_ofStmts_append, hrun, bind_some, andThen]
  have hoff : SameOff (fun x => x ∈ D ∨ x ∈ live ∧ x ∉ reads) f g' := by
    refine ⟨h.heap.trans hheap.symm, fun x hx => ?_⟩
    by_cases hx' : x ∈ live.filter (· ∈ reads)
    · rw [hbound x hx', h.names x (hmem.1 hx').1]
    · rw [hrest x hx']
      exact h.env x (fun hD => hx (.inl hD)) fun hlive =>
        hx (.inr ⟨hlive, fun hr => hx' (hmem.2 ⟨hlive, hr⟩)⟩)
  have hunread : ∀ x, x ∈ D ∨ x ∈ live ∧ x ∉ reads → x ∈ U ∧ x ∉ ss.flatMap Code.loads :=
    fun x hx => hx.elim (hD x) fun hx => hreads x hx.1 hx.2
  refine rel_mono (runCode_unchanged hoff fun x hx => ?_) fun r s hrs =>
    hrs.mono (fun _ _ h => h.mono fun x hx => (hunread x hx).1)
      (fun _ _ h => h.mono fun x hx => (hunread x hx).1)
      fun _ _ h => h.mono fun x hx => (hunread x hx).1
  rw [Code.loads_ofStmts]
  exact (hunread x hx).2

end Shares

/-! ### Statements that bind an alias anew -/

/-- Two activations in the middle of an assignment that binds some aliases anew: those not yet bound
still have the value, and so have, in the other, the names in `kept`. -/
structure Rebinding (v : V) (kept live : List String) (D : Set String) (bound : List String)
    (f g : Activation V H) : Prop where
  heap : f.heap = g.heap
  env : ∀ x ∉ D, x ∉ live ∨ x ∈ bound → f.env x = g.env x
  names : ∀ x ∈ live, x ∉ bound → f.env x = some v
  held : ∀ x ∈ kept, x ∉ bound → g.env x = some v

section Rebinding

variable {v : V} {holder : String} {kept live bound : List String} {D : Set String}
variable {f g : Activation V H}
variable {p : Pattern} {w : V} {targets : List Pattern}

theorem Rebinding.withHeap (h : Rebinding v kept live D bound f g) (m : H) :
    Rebinding v kept live D bound { f with heap := m } { g with heap := m } :=
  ⟨rfl, h.env, h.names, h.held⟩

theorem Rebinding.evaluate_eq (h : Rebinding v kept live D bound f g) (hkept : holder ∈ kept)
    {e : Expr} (hreads : ∀ x ∈ loadNames e, x ∈ live ∨ x ∉ D)
    (hfirst : ∀ x ∈ loadNames e, x ∈ live → x ∉ bound ∧ holder ∉ bound) :
    evaluate O f.env e f.heap = evaluate O g.env (e.rename (aliasMap holder live)) g.heap := by
  rw [h.heap, evaluate_rename fun x hx => ?_]
  by_cases hlive : x ∈ live
  · obtain ⟨hx', hholder⟩ := hfirst x hx hlive
    rw [aliasMap_of_mem hlive, h.names x hlive hx', h.held holder hkept hholder]
  · rw [aliasMap_of_notMem hlive]
    exact h.env x ((hreads x hx).resolve_left hlive) (.inl hlive)

theorem Rebinding.bind (h : Rebinding v kept live D bound f g) (x : String) (w : V) :
    Rebinding v kept live D (bound ++ [x]) (f.bind x w) (g.bind x w) := by
  have hne : ∀ {y}, y ∉ bound ++ [x] → y ∉ bound ∧ y ≠ x := fun hy => by simpa using hy
  refine ⟨h.heap, fun y hD hy => Activation.bind_congr fun hyx => h.env y hD ?_,
    fun y hlive hy => ?_, fun y hkept hy => ?_⟩
  · simpa [hyx] using hy
  · rw [Activation.bind_env_of_ne (hne hy).2]
    exact h.names y hlive (hne hy).1
  · rw [Activation.bind_env_of_ne (hne hy).2]
    exact h.held y hkept (hne hy).1

theorem isTuple_renameLoads {ρ : String → String} :
    (p.renameLoads ρ).isTuple = p.isTuple := by cases p <;> rfl

theorem bindAll_rebinding (hkept : holder ∈ kept) {vs : List V}
    (hreads : ∀ x ∈ p.loads, x ∈ live ∨ x ∉ D) (hfirst : p.ReadsFirst holder live bound)
    (h : Rebinding v kept live D bound f g) :
    Option.Rel (Rebinding v kept live D (bound ++ p.binds)) (bindAll O p vs f)
      (bindAll O (p.renameLoads (aliasMap holder live)) vs g) := by
  induction p generalizing vs f g bound with
  | name id =>
    rcases vs with _ | ⟨w, _ | ⟨w', vs⟩⟩
    · exact .none
    · exact .some (h.bind id w)
    · exact .none
  | item value slice =>
    rcases vs with _ | ⟨w, _ | ⟨w', vs⟩⟩
    · exact .none
    · have hvalue := h.evaluate_eq (O := O) (e := value) hkept
        (fun x hx => hreads x (mem_append_left _ hx))
        fun x hx => hfirst x (mem_append_left _ hx)
      simp only [bindAll, Pattern.renameLoads, Pattern.binds, append_nil]
      refine rel_bind (rel_eq_iff.2 hvalue) ?_
      rintro p _ rfl
      have hslice := (h.withHeap p.2).evaluate_eq (O := O) (e := slice) hkept
        (fun x hx => hreads x (mem_append_right _ hx))
        fun x hx => hfirst x (mem_append_right _ hx)
      refine rel_bind (rel_eq_iff.2 hslice) ?_
      rintro q _ rfl
      refine rel_map (rel_eq_iff.2 rfl) ?_
      rintro m _ rfl
      exact h.withHeap m
    · exact .none
  | unit =>
    cases vs with
    | nil =>
      rw [Pattern.binds, append_nil]
      exact .some h
    | cons => exact .none
  | pair head tail ihh iht =>
    cases vs with
    | nil => exact .none
    | cons w vs =>
      have hhead : ∀ {vs f g}, Rebinding v kept live D bound f g →
          Option.Rel (Rebinding v kept live D (bound ++ head.binds)) (bindAll O head vs f)
            (bindAll O (head.renameLoads (aliasMap holder live)) vs g) :=
        fun h => ihh (fun x hx => hreads x (mem_append_left _ hx)) hfirst.1 h
      simp only [bindAll, Pattern.renameLoads, isTuple_renameLoads, Pattern.binds]
      refine rel_bind (?_ : Option.Rel (Rebinding v kept live D (bound ++ head.binds)) _ _)
        fun f' g' h' => ?_
      · split
        · rw [h.heap]
          refine rel_bind (rel_eq_iff.2 rfl) ?_
          rintro p _ rfl
          exact hhead (h.withHeap p.2)
        · exact hhead h
      · rw [← append_assoc]
        exact iht (fun x hx => hreads x (mem_append_right _ hx)) hfirst.2 h'

theorem assignTo_rebinding (hkept : holder ∈ kept) (hreads : ∀ x ∈ p.loads, x ∈ live ∨ x ∉ D)
    (hfirst : p.ReadsFirst holder live bound) (h : Rebinding v kept live D bound f g) :
    Option.Rel (Rebinding v kept live D (bound ++ p.binds)) (assignTo O p w f)
      (assignTo O (p.renameLoads (aliasMap holder live)) w g) := by
  simp only [assignTo, isTuple_renameLoads]
  split
  · rw [h.heap]
    refine rel_bind (rel_eq_iff.2 rfl) ?_
    rintro q _ rfl
    exact bindAll_rebinding hkept hreads hfirst (h.withHeap q.2)
  · exact bindAll_rebinding hkept hreads hfirst h

theorem targets_rebinding (hkept : holder ∈ kept)
    (hreads : ∀ x ∈ targets.flatMap Pattern.loads, x ∈ live ∨ x ∉ D)
    (hfirst : TargetsReadFirst holder live bound targets) (h : Rebinding v kept live D bound f g) :
    Option.Rel (Rebinding v kept live D (bound ++ targets.flatMap Pattern.binds))
      (targets.foldlM (fun f t => assignTo O t w f) f)
      ((targets.map (Pattern.renameLoads (aliasMap holder live))).foldlM
        (fun f t => assignTo O t w f) g) := by
  induction targets generalizing f g bound with
  | nil =>
    rw [flatMap_nil, append_nil]
    exact .some h
  | cons t ts ih =>
    rw [flatMap_cons] at hreads
    rw [map_cons, foldlM_cons, foldlM_cons, flatMap_cons, ← append_assoc]
    refine rel_bind (assignTo_rebinding hkept
      (fun x hx => hreads x (mem_append_left _ hx)) hfirst.1 h) fun f' g' h' => ?_
    exact ih (fun x hx => hreads x (mem_append_right _ hx)) hfirst.2 h'

/-- An assignment that binds some of the names of the value anew. -/
theorem rebinding_run (fuel : ℕ) {B C : Activation V H → Activation V H → Prop}
    (hkept : holder ∈ kept) {value : Expr}
    (hreads : ∀ x ∈ (Code.assign targets value .done).loads, x ∈ live ∨ x ∉ D)
    (hfirst : TargetsReadFirst holder live [] targets) (h : Rebinding v kept live D [] f g) :
    Option.Rel (ExitRel (Rebinding v kept live D (targets.flatMap Pattern.binds)) B C)
      (runCode O fuel (.assign targets value .done) f)
      (runCode O fuel (renameReads (aliasMap holder live) targets value) g) := by
  simp only [Code.loads, append_nil, mem_append] at hreads
  simp only [renameReads, runCode]
  have hvalue := h.evaluate_eq (O := O) (e := value) hkept
    (fun x hx => hreads x (.inr hx)) fun x _ _ => ⟨not_mem_nil, not_mem_nil⟩
  refine rel_bind (rel_eq_iff.2 hvalue) ?_
  rintro p _ rfl
  have htargets := targets_rebinding (O := O) (w := p.1) hkept
    (fun x hx => hreads x (.inl hx)) hfirst (h.withHeap p.2)
  exact rel_bind htargets fun f' g' h' => .some h'

end Rebinding

/-! ### The statements after a chained assignment -/

theorem bindTo_loads {name : String} : (bindTo holder name).loads = [holder] := rfl

theorem stitches_loads {reads : List String}
    (h : x ∈ (stitches holder live reads).flatMap Code.loads) : x = holder := by
  obtain ⟨c, hc, hx⟩ := mem_flatMap.1 h
  obtain ⟨y, -, rfl⟩ := mem_map.1 hc
  simpa [bindTo_loads] using hx

theorem mem_map_aliasMap {l : List String} (h : x ∈ l.map (aliasMap holder live)) :
    x = holder ∨ x ∈ l := by
  obtain ⟨y, hy, rfl⟩ := mem_map.1 h
  unfold aliasMap
  split
  · exact .inl rfl
  · exact .inr hy

theorem Pattern.loads_renameLoads :
    (p.renameLoads ρ).loads = p.loads.map ρ := by
  induction p with
  | name id => rfl
  | item value slice => simp only [renameLoads, loads, loadNames_rename, map_append]
  | unit => rfl
  | pair head tail ihh iht => simp only [renameLoads, loads, ihh, iht, map_append]

theorem renameReads_loads :
    (renameReads ρ targets value).loads = (Code.assign targets value .done).loads.map ρ := by
  have htargets : (targets.map (Pattern.renameLoads ρ)).flatMap Pattern.loads =
      (targets.flatMap Pattern.loads).map ρ := by
    induction targets with
    | nil => rfl
    | cons t ts ih => simp only [map_cons, flatMap_cons, map_append, ih,
        Pattern.loads_renameLoads]
  simp only [renameReads, Code.loads, htargets, loadNames_rename, map_append, map_nil]

theorem plainRebinding_eq {stmt : Code} {p : List Pattern × Expr → Bool}
    (h : (plainRebinding stmt).filter p = some (targets, value)) :
    stmt = .assign targets value .done := by
  obtain ⟨h, -⟩ := filter_eq_some_iff.1 h
  unfold plainRebinding at h
  split at h
  · obtain ⟨rfl, rfl⟩ := Prod.mk.inj (some.inj h)
    rfl
  · cases h

/-- The renamed statements read what the statements read, and the holder. -/
theorem renameAliases_loads
    (h : x ∈ (renameAliases inPlace scopeBody outer seen holder live stmts).flatMap Code.loads) :
    x = holder ∨ x ∈ live ∨ x ∈ stmts.flatMap Code.loads := by
  fun_induction renameAliases inPlace scopeBody outer seen holder live stmts with
  | case1 => cases h
  | case2 => exact .inl (stitches_loads h)
  | case3 => exact .inr (.inr h)
  | case4 seen holder live stmt rest _ rebound _ stmt' ih =>
    rw [flatMap_cons, mem_append] at h ⊢
    rcases h with h | h
    · rcases mem_map_aliasMap (Code.loads_rename ▸ h) with h | h
      · exact .inl h
      · exact .inr (.inr (.inl h))
    · rcases ih h with h | h | h
      · exact .inl h
      · exact .inr (.inl h)
      · exact .inr (.inr (.inr h))
  | case5 seen holder live stmt rest =>
    rw [flatMap_append, mem_append] at h
    exact h.imp stitches_loads .inr
  | case6 seen holder live stmt rest _ rebound after _ targets value hplain stmt' =>
    obtain rfl := plainRebinding_eq hplain
    rw [flatMap_cons, mem_append] at h ⊢
    rcases h with h | h
    · rcases mem_map_aliasMap (renameReads_loads ▸ h) with h | h
      · exact .inl h
      · exact .inr (.inr (.inl h))
    · exact .inr (.inr (.inr h))
  | case7 seen holder live stmt rest _ rebound after _ targets value hplain stmt' left _ next
      others hleft ih =>
    obtain rfl := plainRebinding_eq hplain
    have hsub : ∀ y ∈ next :: others, y ∈ live := fun y hy =>
      mem_of_mem_filter (mem_of_mem_filter (hleft ▸ hy))
    rw [flatMap_cons, mem_append, flatMap_cons, mem_append, bindTo_loads,
      mem_singleton] at h
    rw [flatMap_cons, mem_append]
    rcases h with h | h | h
    · exact .inl h
    · rcases mem_map_aliasMap (renameReads_loads ▸ h) with h | h
      · exact .inl h
      · exact .inr (.inr (.inl h))
    · rcases ih h with rfl | h | h
      · exact .inr (.inl (hsub _ mem_cons_self))
      · exact .inr (.inl (hsub _ (mem_cons_of_mem _ h)))
      · exact .inr (.inr (.inr h))
  | case8 seen holder live stmt rest _ rebound _ targets value hplain stmt' left _ ih =>
    obtain rfl := plainRebinding_eq hplain
    rw [flatMap_cons, mem_append] at h ⊢
    rcases h with h | h
    · rcases mem_map_aliasMap (renameReads_loads ▸ h) with h | h
      · exact .inl h
      · exact .inr (.inr (.inl h))
    · rcases ih h with h | h | h
      · exact .inl h
      · exact .inr (.inl (mem_of_mem_filter h))
      · exact .inr (.inr (.inr h))

theorem Shares.rebinding (h : Shares v holder live D f g) :
    Rebinding v [holder] live D [] f g :=
  ⟨h.heap, fun x hD hx => h.env x hD (hx.resolve_right not_mem_nil), fun x hx _ => h.names x hx,
    fun _ hx _ => mem_singleton.1 hx ▸ h.held⟩

theorem Rebinding.sameOff (h : Rebinding v kept live D bound f g) :
    SameOff (fun x => x ∈ D ∨ x ∈ live ∧ x ∉ bound) f g := by
  refine ⟨h.heap, fun x hx => h.env x (fun hD => hx (.inl hD)) ?_⟩
  by_cases hlive : x ∈ live
  · exact .inr (by_contra fun hbound => hx (.inr ⟨hlive, hbound⟩))
  · exact .inl hlive

/-- The names of the value that an assignment binds anew. -/
theorem mem_rebound :
    x ∈ names.filter (· ∈ (Code.assign targets value .done).rebinds inPlace) ↔
      x ∈ names ∧ x ∈ targets.flatMap Pattern.binds := by
  simp only [Code.rebinds, append_nil, mem_filter, decide_eq_true_eq]

/-- What holds when the rebinding is over and the holder keeps the value. -/
theorem Rebinding.shares {left : List String} (h : Rebinding v kept live D bound f g)
    (hkept : holder ∈ kept) (hholder : holder ∉ bound) (hleft : ∀ x ∈ left, x ∈ live ∧ x ∉ bound)
    (hE : ∀ x ∉ E, x ∉ left → x ∉ D ∧ (x ∉ live ∨ x ∈ bound ∨ x = holder)) :
    Shares v holder left E f g := by
  refine ⟨h.heap, fun x hx hl => ?_, fun x hx => h.names x (hleft x hx).1 (hleft x hx).2,
    h.held holder hkept hholder⟩
  obtain ⟨hD, hcases⟩ := hE x hx hl
  by_cases hlive : x ∈ live ∧ x ∉ bound
  · obtain rfl := (hcases.resolve_left (not_not.2 hlive.1)).resolve_left hlive.2
    rw [h.names x hlive.1 hlive.2, h.held x hkept hlive.2]
  · rw [not_and_or, not_not] at hlive
    exact h.env x hD hlive

/-- **The statements after a chained assignment do the same under the holder's name**: they end with
the names different that nothing outside reads. -/
theorem renameAliases_sim (fuel : ℕ) (hplace : inPlace = true → UpdatesInPlace O v)
    (hscope : scopeBody = true → ∀ x, x ∈ U) (hnodup : (holder :: live).Nodup)
    (hD : ∀ x ∈ D, x ∈ U ∧ x ∉ stmts.flatMap Code.loads) (hU : ∀ x ∈ live, x ∉ outer ++ seen →
      x ∉ (renameAliases inPlace scopeBody outer seen holder live stmts).flatMap Code.loads → x ∈ U)
    (hkept : RebindingsReadFirst inPlace scopeBody outer seen holder live stmts)
    (h : Shares v holder live D f g) :
    Option.Rel (ExitRel (SameOff U) (SameOff U) (SameOff U)) (runCode O fuel (Code.ofStmts stmts) f)
      (runCode O fuel
        (Code.ofStmts (renameAliases inPlace scopeBody outer seen holder live stmts)) g) := by
  fun_induction renameAliases inPlace scopeBody outer seen holder live stmts generalizing D f g with
  | case1 seen holder live hs => exact .some ⟨h.heap, fun x hx => absurd (hscope hs x) hx⟩
  | case2 seen holder live =>
    have hholder := (nodup_cons.1 hnodup).1
    have hstitched := stitched_sim (O := O) fuel (outer ++ seen) [] hholder hD (fun x hx hread => ⟨hU x hx hread fun hl => ?_, not_mem_nil⟩) h
    · rwa [append_nil] at hstitched
    · exact hholder (stitches_loads hl ▸ hx)
  | case3 seen holder stmt rest =>
    have hoff : SameOff D f g := ⟨h.heap, fun x hx => h.env x hx not_mem_nil⟩
    refine rel_mono (runCode_unchanged hoff fun x hx => ?_) fun r s hrs =>
      hrs.mono (fun _ _ h => h.mono fun x hx => (hD x hx).1)
        (fun _ _ h => h.mono fun x hx => (hD x hx).1) fun _ _ h => h.mono fun x hx => (hD x hx).1
    rw [Code.loads_ofStmts]
    exact (hD x hx).2
  | case4 seen holder live stmt rest hlive rebound hrebound =>
    rename_i stmt' ih
    have hholder := (nodup_cons.1 hnodup).1
    rw [RebindingsReadFirst] at hkept
    simp only [if_neg hlive] at hkept
    rw [if_pos hrebound] at hkept
    have hown : ∀ x ∈ stmt.rebinds inPlace, x ≠ holder ∧ x ∉ live := by
      have hnone := filter_eq_nil_iff.1 hrebound.1
      intro x hx
      refine ⟨fun he => hnone x (he ▸ mem_cons_self) (decide_eq_true hx), fun hl =>
        hnone x (mem_cons_of_mem _ hl) (decide_eq_true hx)⟩
    have hreads : ∀ x ∈ stmt.loads, x ∈ live ∨ x ∉ D := fun x hx =>
      .inr fun hxD => (hD x hxD).2 (mem_flatMap.2 ⟨stmt, mem_cons_self, hx⟩)
    have hstmt := runCode_renamed (Shares.respects (D := D) hholder hplace) fuel
      (c := stmt) (B := SameOff U) (C := SameOff U) hreads ?_ ?_ ?_ h
    rotate_left
    · intro x hx
      cases inPlace with
      | true => exact hown x hx
      | false => exact hown x (Code.rebinds_subset hx)
    · intro x hx
      cases inPlace with
      | false => exact .inl (hown x hx)
      | true =>
        -- What is only written in place may be the holder or an alias.
        rcases Code.rebinds_or_loads hx with hx | hx
        · exact .inl (hown x hx)
        · by_cases hl : x ∈ live
          · exact .inr ⟨rfl, .inl hl⟩
          · by_cases hh : x = holder
            · exact .inr ⟨rfl, .inr ⟨hh, (hreads x hx).resolve_left hl⟩⟩
            · exact .inl ⟨hh, hl⟩
    · rcases hrebound.2 with hs | hleaves
      · exact .inr fun f g h => ⟨⟨h.heap, fun x hx => absurd (hscope hs x) hx⟩,
          ⟨h.heap, fun x hx => absurd (hscope hs x) hx⟩⟩
      · exact .inl hleaves
    rw [runCode_ofStmts_cons, runCode_ofStmts_cons]
    refine rel_bind hstmt fun r s hrs => andThen_rel hrs fun f' g' h' => ih hnodup ?_ ?_ hkept h'
    · intro x hx
      refine ⟨(hD x hx).1, fun hl => (hD x hx).2 ?_⟩
      rw [flatMap_cons]
      exact mem_append_right _ hl
    · intro x hx hout hl
      simp only [mem_append, not_or] at hout
      refine hU x hx (by simp only [mem_append, not_or]; exact ⟨hout.1, hout.2.1⟩) fun hm => ?_
      rw [flatMap_cons, mem_append] at hm
      exact hm.elim hout.2.2 hl
  | case5 seen holder live stmt rest hlive rebound after =>
    rename_i hrebound hplain
    have hholder := (nodup_cons.1 hnodup).1
    refine stitched_sim fuel _ (stmt :: rest) hholder hD (fun x hx hread => ?_) h
    simp only [mem_append, not_or] at hread
    have hrest : x ∉ (stmt :: rest).flatMap Code.loads := by
      rw [flatMap_cons, mem_append, not_or]
      exact ⟨hread.1.2, hread.2⟩
    refine ⟨hU x hx ?_ fun hl => ?_, hrest⟩
    · simp only [mem_append, not_or]
      exact ⟨hread.1.1.1, hread.1.1.2⟩
    · rw [flatMap_append, mem_append] at hl
      rcases hl with hl | hl
      · exact hholder (stitches_loads hl ▸ hx)
      · exact hrest hl
  | case6 seen holder live stmt rest hlive rebound after hrebound targets value hplain stmt' =>
    rename_i left hmem hleft
    obtain rfl := plainRebinding_eq hplain
    rw [RebindingsReadFirst] at hkept
    simp only [if_neg hlive] at hkept
    rw [if_neg hrebound, hplain] at hkept
    -- No alias that is still read is left.
    have hunread : ∀ x, x ∈ D ∨ x ∈ live ∧ x ∉ targets.flatMap Pattern.binds →
        x ∈ U ∧ x ∉ rest.flatMap Code.loads := by
      rintro x (hx | ⟨hx, hbound⟩)
      · exact ⟨(hD x hx).1, fun hl => (hD x hx).2 (mem_append_right _ hl)⟩
      · have hxleft : x ∈ left := mem_filter.2
          ⟨hx, decide_eq_true fun hr => hbound (mem_rebound.1 hr).2⟩
        have hread := filter_eq_nil_iff.1 hleft x hxleft
        simp only [decide_eq_true_eq, mem_append, not_or] at hread
        refine ⟨hU x hx ?_ fun hl => ?_, hread.2⟩
        · simp only [mem_append, not_or]
          exact ⟨hread.1.1.1, hread.1.1.2⟩
        · exact (mem_append.1 hl).elim hread.1.2 hread.2
    rw [runCode_ofStmts_cons, runCode_ofStmts_cons]
    refine rel_bind (rebinding_run (O := O) fuel (B := SameOff U) (C := SameOff U)
      mem_cons_self (fun x hx => .inr fun hxD => (hD x hxD).2
        (mem_flatMap.2 ⟨_, mem_cons_self, hx⟩)) hkept.1 h.rebinding) fun r s hrs =>
      andThen_rel hrs fun f' g' h' => ?_
    refine rel_mono (runCode_unchanged h'.sameOff fun x hx => ?_) fun r s hrs =>
      hrs.mono (fun _ _ h => h.mono fun x hx => (hunread x hx).1)
        (fun _ _ h => h.mono fun x hx => (hunread x hx).1)
        fun _ _ h => h.mono fun x hx => (hunread x hx).1
    rw [Code.loads_ofStmts]
    exact (hunread x hx).2
  | case7 seen holder live stmt rest hlive rebound after hrebound targets value hplain stmt' left
      hmem next =>
    rename_i others hleft ih
    obtain rfl := plainRebinding_eq hplain
    rw [RebindingsReadFirst] at hkept
    simp only [if_neg hlive] at hkept
    rw [if_neg hrebound, hplain] at hkept
    simp only at hkept
    rw [if_pos hmem, hleft] at hkept
    have hmemleft : ∀ x, x ∈ left ↔ x ∈ live ∧ x ∉ targets.flatMap Pattern.binds := by
      intro x
      rw [mem_filter, decide_eq_true_eq]
      exact and_congr_right fun hx => not_congr
        (mem_rebound.trans (and_iff_right (mem_cons_of_mem _ hx)))
    have hnew : ∀ x ∈ next :: others, x ∈ live ∧ x ∉ targets.flatMap Pattern.binds := fun x hx =>
      (hmemleft x).1 (mem_of_mem_filter (hleft ▸ hx))
    have hnextlive := (hnew next mem_cons_self).1
    have hne : holder ≠ next := fun he => (nodup_cons.1 hnodup).1 (he ▸ hnextlive)
    -- The first alias that is still read takes the value over.
    have hbound : Rebinding v [holder, next] live D [] f (g.bind next v) := by
      refine ⟨h.heap, fun x hxD hx => ?_, fun x hx _ => h.names x hx, fun x hx _ => ?_⟩
      · have hx := hx.resolve_right not_mem_nil
        rw [Activation.bind_env_of_ne (ne_of_mem_of_not_mem hnextlive hx).symm]
        exact h.env x hxD hx
      · by_cases hxn : x = next
        · rw [hxn, Activation.bind_env_self]
        · rw [Activation.bind_env_of_ne hxn]
          obtain rfl : x = holder := by simpa [hxn] using hx
          exact h.held
    have hbind : runCode O fuel (bindTo holder next) g = some (g.bind next v, .next) := by
      simp only [bindTo, runCode, evaluate, h.held, map_some, bind_some,
        foldlM_cons, foldlM_nil, assignTo, Pattern.isTuple, bindAll, Bool.false_eq_true,
        if_false, Option.pure_def, bind_eq_bind]
    rw [runCode_ofStmts_cons, runCode_ofStmts_cons, hbind, bind_some, andThen,
      runCode_ofStmts_cons]
    refine rel_bind (rebinding_run (O := O) fuel (B := SameOff U) (C := SameOff U)
      mem_cons_self (fun x hx => .inr fun hxD => (hD x hxD).2
        (mem_flatMap.2 ⟨_, mem_cons_self, hx⟩)) hkept.1 hbound) fun r s hrs =>
      andThen_rel hrs fun f' g' h' => ih (D := fun x => x ∈ D ∨ x ∈ left ∧ x ∉ next :: others)
        ?_ ?_ ?_ hkept.2 (h'.shares (by simp) (hnew next mem_cons_self).2
          (fun x hx => hnew x (mem_cons_of_mem _ hx)) ?_)
    · rw [← hleft]
      exact ((nodup_cons.1 hnodup).2.filter _).filter _
    · rintro x (hx | ⟨hx, hnot⟩)
      · exact ⟨(hD x hx).1, fun hl => (hD x hx).2 (mem_append_right _ hl)⟩
      · have hread : x ∉ outer ++ seen ++ stmt'.loads ++ after := fun hr =>
          hnot (hleft ▸ mem_filter.2 ⟨hx, decide_eq_true hr⟩)
        simp only [mem_append, not_or] at hread
        refine ⟨hU x ((hmemleft x).1 hx).1 ?_ fun hl => ?_, hread.2⟩
        · simp only [mem_append, not_or]
          exact ⟨hread.1.1.1, hread.1.1.2⟩
        · simp only [flatMap_cons, mem_append, bindTo_loads, mem_singleton] at hl
          rcases hl with rfl | hl | hl
          · exact (nodup_cons.1 hnodup).1 ((hmemleft x).1 hx).1
          · exact hread.1.2 hl
          · rcases renameAliases_loads hl with rfl | hl | hl
            · exact hnot mem_cons_self
            · exact hnot (mem_cons_of_mem _ hl)
            · exact hread.2 hl
    · intro x hx hout hl
      simp only [mem_append, mem_cons, not_or] at hout
      refine hU x (hnew x (mem_cons_of_mem _ hx)).1 ?_ fun hm => ?_
      · simp only [mem_append, not_or]
        exact ⟨hout.1, hout.2.1⟩
      · simp only [flatMap_cons, mem_append, bindTo_loads, mem_singleton] at hm
        rcases hm with hm | hm | hm
        · exact hout.2.2.1 hm
        · exact hout.2.2.2 hm
        · exact hl hm
    · intro x hx hxo
      refine ⟨fun hxD => hx (.inl hxD), ?_⟩
      by_cases hxl : x ∈ left
      · refine .inr (.inr ?_)
        have hxn : x ∈ next :: others := by_contra fun hnot => hx (.inr ⟨hxl, hnot⟩)
        exact (mem_cons.1 hxn).resolve_right hxo
      · rw [hmemleft, not_and_or, not_not] at hxl
        exact hxl.imp_right .inl
  | case8 seen holder live stmt rest hlive rebound hrebound targets value hplain stmt' =>
    rename_i left hmem ih
    obtain rfl := plainRebinding_eq hplain
    rw [RebindingsReadFirst] at hkept
    simp only [if_neg hlive] at hkept
    rw [if_neg hrebound, hplain] at hkept
    simp only at hkept
    rw [if_neg hmem] at hkept
    have hmemleft : ∀ x, x ∈ left ↔ x ∈ live ∧ x ∉ targets.flatMap Pattern.binds := by
      intro x
      rw [mem_filter, decide_eq_true_eq]
      exact and_congr_right fun hx => not_congr
        (mem_rebound.trans (and_iff_right (mem_cons_of_mem _ hx)))
    have hholder : holder ∉ targets.flatMap Pattern.binds := fun hb =>
      hmem (mem_rebound.2 ⟨mem_cons_self, hb⟩)
    rw [runCode_ofStmts_cons, runCode_ofStmts_cons]
    refine rel_bind (rebinding_run (O := O) fuel (B := SameOff U) (C := SameOff U)
      mem_cons_self (fun x hx => .inr fun hxD => (hD x hxD).2
        (mem_flatMap.2 ⟨_, mem_cons_self, hx⟩)) hkept.1 h.rebinding) fun r s hrs =>
      andThen_rel hrs fun f' g' h' => ih ?_ ?_ ?_ hkept.2 (h'.shares mem_cons_self hholder
        (fun x hx => (hmemleft x).1 hx) (E := D) fun x hxD hx => ⟨hxD, ?_⟩)
    · exact nodup_cons.2 ⟨fun hl => (nodup_cons.1 hnodup).1 ((hmemleft _).1 hl).1,
        (nodup_cons.1 hnodup).2.filter _⟩
    · exact fun x hx => ⟨(hD x hx).1, fun hl => (hD x hx).2 (mem_append_right _ hl)⟩
    · intro x hx hout hl
      simp only [mem_append, not_or] at hout
      refine hU x ((hmemleft x).1 hx).1 ?_ fun hm => ?_
      · simp only [mem_append, not_or]
        exact ⟨hout.1, hout.2.1⟩
      · exact (mem_append.1 hm).elim hout.2.2 hl
    · rw [hmemleft, not_and_or, not_not] at hx
      exact hx.imp_right .inl

/-! ### The targets of a chained assignment -/

/-- What holds after the targets of a chain: nothing is renamed, or the aliases are shared. -/
def AfterTargets (v : V) (holder : String) (aliases : List String) (D : Set String)
    (f g : Activation V H) : Prop :=
  if aliases = [] then SameOff D f g else Shares v holder aliases D f g

theorem Shares.afterTargets (h : Shares v holder aliases D f g) :
    AfterTargets v holder aliases D f g := by
  unfold AfterTargets
  by_cases hnone : aliases = []
  · subst hnone
    rw [if_pos rfl]
    exact ⟨h.heap, fun x hx => h.env x hx not_mem_nil⟩
  · rwa [if_neg hnone]

/-- One more target that is an alias of the holder. -/
theorem Shares.bind_alias (h : Shares v holder aliases D f g) (x : String) :
    Shares v holder (if x ≠ holder ∧ x ∉ aliases then aliases ++ [x] else aliases) D (f.bind x v)
      g := by
  have hnames : ∀ y ∈ aliases, (f.bind x v).env y = some v := by
    intro y hy
    by_cases hyx : y = x
    · rw [hyx, Activation.bind_env_self]
    · rw [Activation.bind_env_of_ne hyx]
      exact h.names y hy
  split
  · refine ⟨h.heap, fun y hD hy => ?_, fun y hy => ?_, h.held⟩
    · rw [mem_append, not_or, mem_singleton] at hy
      rw [Activation.bind_env_of_ne hy.2]
      exact h.env y hD hy.1
    · rcases mem_append.1 hy with hy | hy
      · exact hnames y hy
      · rw [mem_singleton.1 hy, Activation.bind_env_self]
  · rename_i hold
    refine ⟨h.heap, fun y hD hy => ?_, hnames, h.held⟩
    by_cases hyx : y = x
    · -- The holder once more.
      subst hyx
      obtain rfl : y = holder := by_contra fun hne => hold ⟨hne, hy⟩
      rw [Activation.bind_env_self, h.held]
    · rw [Activation.bind_env_of_ne hyx]
      exact h.env y hD hy

theorem aliasMap_nil : aliasMap holder [] = fun x => x :=
  funext fun _ => aliasMap_of_notMem not_mem_nil

theorem assignTo_name :
    assignTo O (.name x) v f = some (f.bind x v) := rfl

theorem aliasOf_eq_some {t : Pattern} (h : aliasOf shared t = some x) :
    t = .name x ∧ shared = true := by
  cases t with
  | name y =>
    simp only [aliasOf, ite_none_right_eq_some, some.injEq] at h
    exact ⟨congrArg _ h.2, h.1⟩
  | item value slice => cases h
  | unit => cases h
  | pair head tail => cases h

/-- The statements that store the holder in the targets. -/
theorem splitTargets_sim (fuel : ℕ) (hholder : holder ∉ aliases)
    (hapart : TargetsApart shared holder aliases targets)
    (hheads : ∀ x ∈ ((splitTargets shared holder aliases targets).1).flatMap Code.loads, x ∈ D →
      x = holder) (hfresh : holder ∈ D → holder ∉ targets.flatMap Pattern.loads)
    (h : Shares v holder aliases D f g) :
    Option.Rel (ExitRel (AfterTargets v holder (splitTargets shared holder aliases targets).2 D)
        (fun _ _ => False) fun _ _ => False)
      ((targets.foldlM (fun f t => assignTo O t v f) f).map fun f => (f, Exit.next))
      (runCode O fuel (Code.ofStmts (splitTargets shared holder aliases targets).1) g) := by
  induction targets generalizing aliases f g with
  | nil => exact .some h.afterTargets
  | cons t ts ih =>
    rw [flatMap_cons, mem_append, not_or] at hfresh
    rcases hname : aliasOf shared t with _ | x
    · simp only [splitTargets, hname] at hheads ⊢
      simp only [TargetsApart, hname] at hapart
      rw [flatMap_cons] at hheads
      have hloads : (Code.assign [t.rename (aliasMap holder aliases)] (.name holder) .done).loads =
          t.loads.map (aliasMap holder aliases) ++ [holder] := by
        simp [Code.loads, Pattern.loads_rename, loadNames, Expr.walkNodes, Expr.id?]
      -- What the target reads is an alias or the same in both.
      have hreads : ∀ x ∈ t.loads, x ∈ aliases ∨ x ∉ D := by
        intro x hx
        by_cases hal : x ∈ aliases
        · exact .inl hal
        refine .inr fun hxD => ?_
        have hmap : aliasMap holder aliases x = x := aliasMap_of_notMem hal
        obtain rfl := hheads x (mem_append_left _ (by
          rw [hloads]
          exact mem_append_left _ (mem_map.2 ⟨x, hx, hmap⟩))) hxD
        exact (hfresh hxD).1 hx
      rw [runCode_ofStmts_cons, foldlM_cons, bind_eq_bind]
      have hhead : runCode O fuel (.assign [t.rename (aliasMap holder aliases)] (.name holder)
          .done) g = (assignTo O (t.rename (aliasMap holder aliases)) v g).map fun g =>
            (g, Exit.next) := by
        simp only [runCode, evaluate, h.held, map_some, bind_some, foldlM_cons,
          foldlM_nil, Option.pure_def, bind_eq_bind]
        rcases assignTo O (t.rename (aliasMap holder aliases)) v g <;> rfl
      rw [hhead]
      rcases hapart.1 with hown | ⟨rfl, rfl⟩
      · have hstore := assignTo_renamed (O := O) (v := v)
          (Shares.respects (D := D) (v := v) hholder (Bool.false_ne_true · |>.elim)) hreads hown h
        rw [Option.bind_map, map_bind]
        exact rel_bind hstore fun f' g' h' => ih hholder hapart.2
          (fun x hx => hheads x (mem_append_right _ hx)) (fun hD => (hfresh hD).2) h'
      · -- The last target, and no name is renamed.
        have hoff : SameOff D f g := ⟨h.heap, fun x hx => h.env x hx not_mem_nil⟩
        have hstore := assignTo_renamed (O := O) (v := v) (p := t) (SameOff.respects D)
          (fun x hx => (hreads x hx).resolve_left not_mem_nil) (fun _ _ => Set.mem_univ _) hoff
        rw [Pattern.rename_self] at hstore
        rw [aliasMap_nil, Pattern.rename_self, Option.bind_map, map_bind]
        refine rel_bind hstore fun f' g' h' => .some ?_
        show AfterTargets v holder [] D f' g'
        rwa [AfterTargets, if_pos rfl]
    · obtain ⟨rfl, -⟩ := aliasOf_eq_some hname
      simp only [splitTargets, hname] at hheads ⊢
      simp only [TargetsApart, hname] at hapart
      rw [foldlM_cons, assignTo_name]
      refine ih ?_ hapart hheads (fun hD => (hfresh hD).2) (h.bind_alias x)
      split
      · rename_i hx
        rw [mem_append, not_or, mem_singleton]
        exact ⟨hholder, Ne.symm hx.1⟩
      · exact hholder

theorem splitTargets_nodup (h : (holder :: aliases).Nodup) :
    (holder :: (splitTargets shared holder aliases targets).2).Nodup := by
  induction targets generalizing aliases with
  | nil => exact h
  | cons t ts ih =>
    rw [splitTargets]
    split
    · refine ih ?_
      split
      · rename_i x _ hx
        rw [← cons_append]
        refine nodup_append.2 ⟨h, nodup_cons.2 ⟨not_mem_nil, nodup_nil⟩, fun a ha b hb => ?_⟩
        obtain rfl := mem_singleton.1 hb
        rintro rfl
        exact (mem_cons.1 ha).elim hx.1 hx.2
      · exact h
    · exact ih h

theorem splitTargets_unshared :
    (splitTargets false holder aliases targets).2 = aliases := by
  induction targets generalizing aliases with
  | nil => rfl
  | cons t ts ih =>
    have hname : aliasOf false t = none := by cases t <;> rfl
    simp only [splitTargets, hname]
    exact ih

/-- The names a split leaves different: a temporary, and an alias that is not read outside. -/
def Stale (temp : Bool) (holder : String) (aliases reads : List String) : Set String := fun x =>
  x = holder ∧ temp = true ∨ x ∈ aliases ∧ x ∉ reads

/-- The targets of a chain: the first takes the value, or a temporary does. -/
theorem holderOf_cases (cfg : ChainConfig) (temps : ℕ) (targets : List Pattern) (value : Expr) :
    (holderOf cfg temps targets value).2 = targets ∨
      targets = .name (holderOf cfg temps targets value).1 ::
        (holderOf cfg temps targets value).2 := by
  unfold holderOf
  split
  · split
    · exact .inl rfl
    · exact .inr rfl
  · exact .inl rfl

/-- The value of a chain, held by its first target or by a temporary. -/
theorem holder_sim (temp : Bool) (holder : String) (v : V) (h : SameOff W f g) :
    Shares v holder [] (fun x => x ∈ W ∨ x = holder ∧ temp = true)
      (if temp then f else f.bind holder v) (g.bind holder v) := by
  cases temp with
  | false =>
    refine ⟨h.heap, fun x hx _ => Activation.bind_congr fun _ => h.env x fun hW => hx (.inl hW),
      (fun _ hx => nomatch hx), Activation.bind_env_self⟩
  | true =>
    refine ⟨h.heap, fun x hx _ => ?_, (fun _ hx => nomatch hx), Activation.bind_env_self⟩
    rw [Activation.bind_env_of_ne fun he => hx (.inr ⟨he, rfl⟩)]
    exact h.env x fun hW => hx (.inl hW)

/-- **A chained assignment and the statements after it do what their split does.** -/
theorem splitChain_sim {looped temp : Bool} {others : List Pattern} {heads : List Code} (fuel : ℕ)
    (hchain : ChainKept shared inPlace scopeBody looped temp names outer holder others value rest)
    (htargets : if temp then targets = others else targets = .name holder :: others)
    (hsplit : splitTargets shared holder [] others = (heads, aliases))
    (hplace : ∀ p, shared = true → inPlace = true → evaluate O f.env value f.heap = some p →
      UpdatesInPlace O p.1)
    (hnames : ∀ x ∈ (Code.assign targets value (Code.ofStmts rest)).loads, x ∈ names)
    (hW : ∀ x ∈ W, looped = true ∧ x ∈ Stale temp holder aliases (outer ++
      (renameAliases inPlace scopeBody outer [] holder aliases rest).flatMap Code.loads))
    (hU : ∀ x ∈ Stale temp holder aliases (outer ++
      (renameAliases inPlace scopeBody outer [] holder aliases rest).flatMap Code.loads), x ∈ U)
    (hscope : scopeBody = true → ∀ x, x ∈ U) (h : SameOff W f g) :
    Option.Rel (ExitRel (SameOff U) (SameOff U) (SameOff U))
      (runCode O fuel (.assign targets value (Code.ofStmts rest)) f)
      (runCode O fuel (Code.ofStmts (.assign [.name holder] value .done :: (heads ++
        if aliases = [] then rest
        else renameAliases inPlace scopeBody outer [] holder aliases rest))) g) := by
  obtain ⟨hfresh, hapart, hrebind, hagain⟩ := hchain
  have hnodup : (holder :: (splitTargets shared holder [] others).2).Nodup :=
    splitTargets_nodup (nodup_cons.2 ⟨not_mem_nil, nodup_nil⟩)
  have hsim := fun {v : V} {D : Set String} {f g : Activation V H} =>
    splitTargets_sim (O := O) (v := v) (D := D) (f := f) (g := g) fuel not_mem_nil hapart
  rw [hsplit] at hrebind hagain hnodup hsim
  simp only [Code.loads, mem_append, Code.loads_ofStmts] at hnames
  -- The value reads nothing that differs.
  have hvalue : evaluate O f.env value f.heap = evaluate O g.env value g.heap := by
    refine evaluate_unchanged h fun x hxW hx => ?_
    obtain ⟨hloop, ⟨rfl, htemp⟩ | ⟨hal, hread⟩⟩ := hW x hxW
    · exact hfresh htemp (hnames x (.inl (.inr hx)))
    · exact hread (hagain hloop x hal (mem_append_left _ hx))
  rw [runCode_ofStmts_cons]
  simp only [runCode, foldlM_cons, foldlM_nil, Option.pure_def, bind_eq_bind,
    assignTo_name, bind_some, Option.bind_assoc, ← hvalue]
  refine rel_bind (r := fun p q => p = q ∧ evaluate O f.env value f.heap = some p) ?_ ?_
  · cases evaluate O f.env value f.heap with
    | none => exact .none
    | some p => exact .some ⟨rfl, rfl⟩
  rintro p _ ⟨rfl, hp⟩
  simp only [andThen]
  have hheld := holder_sim temp holder p.1
    (f := { f with heap := p.2 }) (g := { g with heap := p.2 }) (W := W) ⟨rfl, h.env⟩
  have hstores : targets.foldlM (fun f t => assignTo O t p.1 f) { f with heap := p.2 } =
      others.foldlM (fun f t => assignTo O t p.1 f)
        (if temp then { f with heap := p.2 } else Activation.bind { f with heap := p.2 } holder
          p.1) := by
    cases temp with
    | true => rw [show targets = others from htargets]; rfl
    | false => rw [show targets = .name holder :: others from htargets]; rfl
  have hdiffer : ∀ x, x ∈ W ∨ x = holder ∧ temp = true → x ∈ aliases ∨ x = holder ∧ temp = true := by
    rintro x (hx | hx)
    · obtain ⟨-, hx | hx⟩ := hW x hx
      · exact .inr hx
      · exact .inl hx.1
    · exact .inr hx
  rw [hstores, runCode_ofStmts_append]
  have hheads := hsim (fun x hx hxD => ?_) (fun hxD => ?_) hheld
  · rw [show ∀ (a : Option (Activation V H)) k, a.bind k =
      (a.map fun f => (f, Exit.next)).bind (andThen · k) from fun a k => by cases a <;> rfl]
    refine rel_bind hheads fun r s hrs => andThen_rel (hrs.mono (fun _ _ h => h)
      (fun _ _ h => h.elim) fun _ _ h => h.elim) fun f' g' h' => ?_
    have h' : AfterTargets p.1 holder aliases (fun x => x ∈ W ∨ x = holder ∧ temp = true) f' g' := h'
    have hunread : temp = true → holder ∉ rest.flatMap Code.loads := fun htemp hx =>
      hfresh htemp (hnames holder (.inr hx))
    by_cases hnone : aliases = []
    · -- Nothing is renamed: at most the temporary differs.
      rw [if_pos hnone]
      have hoff : SameOff (fun x => x ∈ W ∨ x = holder ∧ temp = true) f' g' := by
        simpa only [AfterTargets, if_pos hnone] using h'
      have hstale : ∀ x, x ∈ W ∨ x = holder ∧ temp = true →
          x ∈ U ∧ x ∉ rest.flatMap Code.loads := by
        intro x hx
        rcases hdiffer x hx with hx | hx
        · rw [hnone] at hx
          cases hx
        · exact ⟨hU x (.inl hx), hx.1 ▸ hunread hx.2⟩
      refine rel_mono (runCode_unchanged hoff fun x hx => ?_) fun r s hrs =>
        hrs.mono (fun _ _ h => h.mono fun x hx => (hstale x hx).1)
          (fun _ _ h => h.mono fun x hx => (hstale x hx).1)
          fun _ _ h => h.mono fun x hx => (hstale x hx).1
      rw [Code.loads_ofStmts]
      exact (hstale x hx).2
    · rw [if_neg hnone]
      have hshares : Shares p.1 holder aliases (fun x => x ∈ W ∨ x = holder ∧ temp = true) f'
          g' := by
        simpa only [AfterTargets, if_neg hnone] using h'
      have hshared : shared = true := by
        cases shared with
        | true => rfl
        | false => exact absurd ((congrArg Prod.snd hsplit).symm.trans splitTargets_unshared) hnone
      refine renameAliases_sim (D := fun x => x = holder ∧ temp = true) fuel
        (fun hin => hplace p hshared hin hp) hscope hnodup
        (fun x hx => ⟨hU x (.inl hx), hx.1 ▸ hunread hx.2⟩) (fun x hx hout hl => ?_) hrebind
        ⟨hshares.heap, fun x hx hal => hshares.env x (fun hxD => ?_) hal, hshares.names,
          hshares.held⟩
      · rw [append_nil] at hout
        exact hU x (.inr ⟨hx, fun hm => (mem_append.1 hm).elim hout hl⟩)
      · exact (hdiffer x hxD).elim hal hx
  · rcases hxD with hxW | hxt
    · obtain ⟨hloop, hxt | ⟨hal, hread⟩⟩ := hW x hxW
      · exact hxt.1
      · exact absurd (hagain hloop x hal (mem_append_right _ hx)) hread
    · exact hxt.1
  · have htemp : temp = true := by
      rcases hxD with hxW | hxt
      · obtain ⟨-, hxt | ⟨hal, -⟩⟩ := hW holder hxW
        · exact hxt.2
        · exact absurd hal (nodup_cons.1 hnodup).1
      · exact hxt.2
    rw [htemp, if_pos rfl] at htargets
    rw [← htargets]
    exact fun hx => hfresh htemp (hnames holder (.inl (.inl hx)))

/-! ### The way to a chained assignment -/

section Along

variable (O) (fuel : ℕ) (P : Activation V H → Prop)

/-- What holds in every iteration of a `for`. -/
def AlongItems (bind : V → Activation V H → Option (Activation V H))
    (body : Activation V H → Option (Activation V H × Exit V)) (P : Activation V H → Prop) :
    List V → Activation V H → Prop
  | [], _ => True
  | v :: vs, f => ∀ g, bind v f = some g →
    P g ∧ ∀ r, body g = some r → r.2 = .next ∨ r.2 = .cont → AlongItems bind body P vs r.1

/-- What holds in every iteration of a `while`. -/
def AlongWhile (test : Activation V H → Option (Bool × H))
    (body : Activation V H → Option (Activation V H × Exit V)) (P : Activation V H → Prop) :
    ℕ → Activation V H → Prop
  | 0, _ => True
  | fuel + 1, f => ∀ h, test f = some (true, h) →
    P { f with heap := h } ∧ ∀ r, body { f with heap := h } = some r →
      r.2 = .next ∨ r.2 = .cont → AlongWhile test body P fuel r.1

/-- What holds whenever a run comes to the list of statements at the end of a path. -/
def Along : List Move → Code → Activation V H → Prop
  | [], _, f => P f
  | .next :: path, c, f => ∀ d g, c.child .next = some d →
    runCode O fuel (c.setChild .next .done) f = some (g, .next) → Along path d g
  | .body :: path, .ifElse test body _ _, f => ∀ h, testOf O test f = some (true, h) →
    Along path body { f with heap := h }
  | .orelse :: path, .ifElse test _ orelse _, f => ∀ h, testOf O test f = some (false, h) →
    Along path orelse { f with heap := h }
  | .body :: path, .forIn target iter body _ _, f => ∀ p q,
    evaluate O f.env iter f.heap = some p → O.iter p.1 p.2 = some q →
    AlongItems (assignTo O target) (runCode O fuel body) (Along path body) q.1
      { f with heap := q.2 }
  | .orelse :: path, .forIn target iter body orelse _, f => ∀ p q g,
    evaluate O f.env iter f.heap = some p → O.iter p.1 p.2 = some q →
    forItems (assignTo O target) (runCode O fuel body) q.1 { f with heap := q.2 } = some (g, .next) →
    Along path orelse g
  | .body :: path, .whileDo test body _ _, f =>
    AlongWhile (testOf O test) (runCode O fuel body) (Along path body) fuel f
  | .orelse :: path, .whileDo test body orelse _, f => ∀ g,
    whileItems (testOf O test) (runCode O fuel body) fuel f = some (g, .next) → Along path orelse g
  | _, _, _ => True

end Along

/-- What always holds, holds whenever a run comes to a list of statements. -/
theorem along_of_forall (hP : ∀ f, P f) : Along O fuel P path c f := by
  have hitems : ∀ {bind body} {Q : Activation V H → Prop} (vs : List V) f, (∀ f, Q f) →
      AlongItems bind body Q vs f := by
    intro bind body Q vs
    induction vs with
    | nil => exact fun f _ => trivial
    | cons v vs ih => exact fun f hQ g _ => ⟨hQ g, fun r _ _ => ih r.1 hQ⟩
  have hwhile : ∀ {test body} {Q : Activation V H → Prop} (n : ℕ) f, (∀ f, Q f) →
      AlongWhile test body Q n f := by
    intro test body Q n
    induction n with
    | zero => exact fun f _ => trivial
    | succ n ih => exact fun f hQ h _ => ⟨hQ _, fun r _ _ => ih r.1 hQ⟩
  induction path generalizing c f with
  | nil => exact hP f
  | cons m path ih =>
    cases m with
    | next => exact fun d g _ _ => ih
    | body =>
      cases c with
      | ifElse => exact fun _ _ => ih
      | forIn => exact fun p q _ _ => hitems q.1 _ fun _ => ih
      | whileDo => exact hwhile fuel f fun _ => ih
      | _ => trivial
    | orelse =>
      cases c with
      | ifElse => exact fun _ _ => ih
      | forIn => exact fun _ _ _ _ _ _ => ih
      | whileDo => exact fun _ _ => ih
      | _ => trivial

/-- The first statement of a list and those after it. -/
theorem Code.setChild_next (h : c.child .next = some d) (e : Code) :
    c.setChild .next e = (c.setChild .next .done).append e := by
  cases c <;> first | rfl | cases h

theorem Code.setChild_self (h : c.child m = some d) :
    c.setChild m d = c := by
  cases m <;> cases c <;> cases h <;> rfl

theorem SameOff.withHeap (h : SameOff D f g) (m : H) :
    SameOff D { f with heap := m } { g with heap := m } := ⟨rfl, h.env⟩

/-- Outcomes of one iteration, with what holds of the iterations that follow it. -/
theorem ExitRel.along {Q : Activation V H → Prop} {r s : Activation V H × Exit V}
    (h : ExitRel (SameOff U) (SameOff U) (SameOff U) r s) (hQ : r.2 = .next ∨ r.2 = .cont → Q r.1) :
    ExitRel (fun f g => SameOff U f g ∧ Q f) (SameOff U) (fun f g => SameOff U f g ∧ Q f) r s := by
  obtain ⟨f, exit⟩ := r
  obtain ⟨g, exit'⟩ := s
  cases exit <;> cases exit' <;> first | exact h.elim | skip
  · exact ⟨h, hQ (.inl rfl)⟩
  · exact h
  · exact ⟨h, hQ (.inr rfl)⟩
  · exact h

/-- **A function with one list of statements replaced**: where the two lists run alike, so do the
functions, as long as the statements around read none of the names that differ. -/
theorem replace_sim {new : Code} {L : Set String} (hat : c.at_ path = some list) (hWL : W ⊆ L)
    (hLU : L ⊆ U) (hloop : c.inLoop path = true → L = U)
    (hpre : ∀ x ∈ W, x ∉ (Code.replace .done path c).loads)
    (hpost : inScopeBody path = true ∨ ∀ x ∈ U, x ∉ (Code.replace .done path c).loads)
    (hlist : ∀ f g, SameOff L f g → P f → Option.Rel (ExitRel (SameOff U) (SameOff U) (SameOff U))
      (runCode O fuel list f) (runCode O fuel new g)) (halong : Along O fuel P path c f)
    (h : SameOff W f g) :
    Option.Rel (ExitRel (SameOff U) (SameOff U) (SameOff U)) (runCode O fuel c f)
      (runCode O fuel (Code.replace new path c) g) := by
  induction path generalizing c W f g with
  | nil =>
    obtain rfl := some.inj hat
    exact hlist f g (h.mono hWL) halong
  | cons m path ih =>
    obtain ⟨d, hd, hlast⟩ := bind_eq_some_iff.1 hat
    have hreplace : ∀ e, Code.replace e (m :: path) c = c.setChild m (Code.replace e path d) := by
      intro e
      simp only [Code.replace, hd]
    have hinner : d.inLoop path = true → L = U := fun hl => hloop (by
      simp only [Code.inLoop, hd, hl, Bool.or_true])
    have hmono : ∀ {r s : Activation V H × Exit V},
        ExitRel (SameOff W) (SameOff W) (SameOff W) r s →
        ExitRel (SameOff U) (SameOff U) (SameOff U) r s := fun hrs =>
      hrs.mono (fun _ _ h => h.mono (hWL.trans hLU)) (fun _ _ h => h.mono (hWL.trans hLU))
        fun _ _ h => h.mono (hWL.trans hLU)
    rw [hreplace] at hpre hpost
    rw [hreplace]
    cases m with
    | next =>
      have hhead : ∀ e, (c.setChild .next e).loads = (c.setChild .next .done).loads ++ e.loads :=
        fun e => by rw [Code.setChild_next hd, Code.loads_append]
      rw [hhead] at hpre hpost
      have hself : (c.setChild .next .done).append d = c := by
        rw [← Code.setChild_next hd, Code.setChild_self hd]
      have hrun : runCode O fuel c f = (runCode O fuel (c.setChild .next .done) f).bind
          (andThen · (runCode O fuel d)) := by
        rw [← runCode_append, hself]
      rw [hrun, Code.setChild_next hd (Code.replace new path d), runCode_append]
      refine rel_bind_of_eq (runCode_unchanged h fun x hx hl =>
        hpre x hx (mem_append_left _ hl)) ?_
      rintro ⟨f', exit⟩ ⟨g', exit'⟩ hhead hrs
      cases exit <;> cases exit' <;> first | exact hrs.elim | skip
      · exact ih hlast hWL hinner (fun x hx hl => hpre x hx (mem_append_right _ hl))
          (hpost.imp (fun hs => by simpa [inScopeBody] using hs)
            fun hs x hx hl => hs x hx (mem_append_right _ hl)) (halong d f' hd hhead) hrs
      · exact .some (hmono hrs)
      · exact .some (hmono hrs)
      · exact .some (hmono hrs)
    | body =>
      have hpost := hpost.resolve_left (by simp [inScopeBody])
      cases c with
      | ifElse test body orelse rest =>
        obtain rfl := some.inj hd
        simp only [Code.setChild, Code.loads, mem_append, not_or] at hpre hpost
        simp only [Code.setChild, runCode]
        refine rel_bind_of_eq (rel_eq_iff.2 (testOf_unchanged h fun x hx => (hpre x hx).1.1.1)) ?_
        rintro t _ ht rfl
        refine rel_bind (r := ExitRel (SameOff U) (SameOff U) (SameOff U)) ?_ fun r s hrs =>
          andThen_rel hrs fun f' g' h' => runCode_unchanged h' fun x hx => (hpost x hx).2
        obtain ⟨t, m⟩ := t
        cases t with
        | true =>
          exact ih hlast hWL hinner (fun x hx => (hpre x hx).1.1.2)
            (.inr fun x hx => (hpost x hx).1.1.2) (halong m ht) (h.withHeap m)
        | false =>
          exact rel_mono (runCode_unchanged (h.withHeap m) fun x hx => (hpre x hx).1.2)
            fun r s hrs => hmono hrs
      | forIn target iter body orelse rest =>
        obtain rfl := some.inj hd
        obtain rfl := hloop rfl
        simp only [Code.setChild, Code.loads, mem_append, not_or] at hpre hpost
        simp only [Code.setChild, runCode]
        refine rel_bind_of_eq (rel_eq_iff.2
          (evaluate_unchanged h fun x hx => (hpre x hx).1.1.1.2)) ?_
        rintro p _ hp rfl
        refine rel_bind_of_eq (rel_eq_iff.2 rfl) ?_
        rintro q _ hq rfl
        refine rel_bind (forItems_rel_along (B := SameOff L) (I := fun vs f g => SameOff L f g ∧
            AlongItems (assignTo O target) (runCode O fuel body) (Along O fuel P path body) vs f)
          (fun v vs f' g' h' => ?_) q.1 ⟨(h.mono hWL).withHeap q.2, halong p q hp hq⟩)
          fun r s hrs => afterLoop_rel (hrs.mono (fun _ _ h => h.1) (fun _ _ h => h)
            fun _ _ h => h)
            (fun f' g' h' => runCode_unchanged h' fun x hx => (hpost x hx).1.2)
            fun f' g' h' => runCode_unchanged h' fun x hx => (hpost x hx).2
        refine rel_bind_of_eq (assignTo_unchanged h'.1 fun x hx => (hpost x hx).1.1.1.1) ?_
        intro f'' g'' hbind h''
        obtain ⟨hhere, hafter⟩ := h'.2 f'' hbind
        have hbody := ih hlast subset_rfl (fun _ => rfl) (fun x hx => (hpost x hx).1.1.2)
          (.inr fun x hx => (hpost x hx).1.1.2) hhere h''
        exact rel_mono (rel_and_eq hbody) fun r s hrs => hrs.2.along fun hr => hafter r hrs.1 hr
      | whileDo test body orelse rest =>
        obtain rfl := some.inj hd
        obtain rfl := hloop rfl
        simp only [Code.setChild, Code.loads, mem_append, not_or] at hpre hpost
        simp only [Code.setChild, runCode]
        refine rel_bind (whileItems_rel_along (R := SameOff L) (B := SameOff L)
          (I := fun n f g => SameOff L f g ∧
            AlongWhile (testOf O test) (runCode O fuel body) (Along O fuel P path body) n f)
          (fun n f' g' h' => testOf_unchanged h'.1 fun x hx => (hpost x hx).1.1.1)
          (fun n f' g' m h' => h'.1.withHeap m) (fun n f' g' m h' ht => ?_) fuel
          ⟨h.mono hWL, halong⟩)
          fun r s hrs => afterLoop_rel hrs
            (fun f' g' h' => runCode_unchanged h' fun x hx => (hpost x hx).1.2)
            fun f' g' h' => runCode_unchanged h' fun x hx => (hpost x hx).2
        obtain ⟨hhere, hafter⟩ := h'.2 m ht
        have hbody := ih hlast subset_rfl (fun _ => rfl) (fun x hx => (hpost x hx).1.1.2)
          (.inr fun x hx => (hpost x hx).1.1.2) hhere (h'.1.withHeap m)
        exact rel_mono (rel_and_eq hbody) fun r s hrs => hrs.2.along fun hr => hafter r hrs.1 hr
      | _ => cases hd
    | orelse =>
      have hpost := hpost.resolve_left (by simp [inScopeBody])
      cases c with
      | ifElse test body orelse rest =>
        obtain rfl := some.inj hd
        simp only [Code.setChild, Code.loads, mem_append, not_or] at hpre hpost
        simp only [Code.setChild, runCode]
        refine rel_bind_of_eq (rel_eq_iff.2 (testOf_unchanged h fun x hx => (hpre x hx).1.1.1)) ?_
        rintro t _ ht rfl
        refine rel_bind (r := ExitRel (SameOff U) (SameOff U) (SameOff U)) ?_ fun r s hrs =>
          andThen_rel hrs fun f' g' h' => runCode_unchanged h' fun x hx => (hpost x hx).2
        obtain ⟨t, m⟩ := t
        cases t with
        | true =>
          exact rel_mono (runCode_unchanged (h.withHeap m) fun x hx => (hpre x hx).1.1.2)
            fun r s hrs => hmono hrs
        | false =>
          exact ih hlast hWL hinner (fun x hx => (hpre x hx).1.2)
            (.inr fun x hx => (hpost x hx).1.2) (halong m ht) (h.withHeap m)
      | forIn target iter body orelse rest =>
        obtain rfl := some.inj hd
        simp only [Code.setChild, Code.loads, mem_append, not_or] at hpre hpost
        simp only [Code.setChild, runCode]
        refine rel_bind_of_eq (rel_eq_iff.2
          (evaluate_unchanged h fun x hx => (hpre x hx).1.1.1.2)) ?_
        rintro p _ hp rfl
        refine rel_bind_of_eq (rel_eq_iff.2 rfl) ?_
        rintro q _ hq rfl
        have hbody : ∀ v f' g', SameOff W f' g' →
            Option.Rel (ExitRel (SameOff W) (SameOff W) (SameOff W))
              ((assignTo O target v f').bind (runCode O fuel body))
              ((assignTo O target v g').bind (runCode O fuel body)) := fun v f' g' h' =>
          rel_bind (assignTo_unchanged h' fun x hx => (hpre x hx).1.1.1.1)
            fun f'' g'' h'' => runCode_unchanged h'' fun x hx => (hpre x hx).1.1.2
        refine rel_bind (rel_and_eq (forItems_rel hbody q.1 (h.withHeap q.2))) ?_
        rintro ⟨f', exit⟩ ⟨g', exit'⟩ ⟨hitems, hrs⟩
        cases exit <;> cases exit' <;> first | exact hrs.elim | skip
        · refine rel_bind (ih hlast hWL hinner (fun x hx => (hpre x hx).1.2)
            (.inr fun x hx => (hpost x hx).1.2) (halong p q f' hp hq hitems) hrs) fun r s hrs =>
            andThen_rel hrs fun f' g' h' => runCode_unchanged h' fun x hx => (hpost x hx).2
        · exact runCode_unchanged (SameOff.mono hrs (hWL.trans hLU)) fun x hx => (hpost x hx).2
        · exact .some hrs
      | whileDo test body orelse rest =>
        obtain rfl := some.inj hd
        simp only [Code.setChild, Code.loads, mem_append, not_or] at hpre hpost
        simp only [Code.setChild, runCode]
        refine rel_bind (rel_and_eq (whileItems_rel (R := SameOff W) (B := SameOff W)
          (fun f' g' h' => testOf_unchanged h' fun x hx => (hpre x hx).1.1.1)
          (fun f' g' m h' => h'.withHeap m)
          (fun f' g' h' => runCode_unchanged h' fun x hx => (hpre x hx).1.1.2) fuel h)) ?_
        rintro ⟨f', exit⟩ ⟨g', exit'⟩ ⟨hitems, hrs⟩
        cases exit <;> cases exit' <;> first | exact hrs.elim | skip
        · refine rel_bind (ih hlast hWL hinner (fun x hx => (hpre x hx).1.2)
            (.inr fun x hx => (hpost x hx).1.2) (halong f' hitems) hrs) fun r s hrs =>
            andThen_rel hrs fun f' g' h' => runCode_unchanged h' fun x hx => (hpost x hx).2
        · exact runCode_unchanged (SameOff.mono hrs (hWL.trans hLU)) fun x hx => (hpost x hx).2
        · exact .some hrs
      | _ => cases hd

/-! ### One split -/

theorem Code.loads_child (h : c.child m = some d) : d.loads ⊆ c.loads := by
  cases m <;> cases c <;> cases h <;> simp only [loads] <;> grind

theorem Code.loads_at (h : c.at_ path = some list) :
    list.loads ⊆ c.loads := by
  induction path generalizing c with
  | nil =>
    obtain rfl := some.inj h
    exact List.Subset.refl _
  | cons m path ih =>
    obtain ⟨d, hd, hlast⟩ := bind_eq_some_iff.1 h
    exact List.Subset.trans (ih hlast) (loads_child hd)

theorem Code.loads_setChild {e : Code} (h : c.child m = some d) (he : e.loads ⊆ d.loads) :
    (c.setChild m e).loads ⊆ c.loads := by
  cases m <;> cases c <;> cases h <;> simp only [setChild, loads] <;> grind

theorem Code.loads_replace_done :
    (replace .done path c).loads ⊆ c.loads := by
  induction path generalizing c with
  | nil => exact nil_subset _
  | cons m path ih =>
    rw [replace]
    split
    · rename_i d hd
      exact loads_setChild hd ih
    · exact List.Subset.refl _

theorem Code.inLoop_of_scope (h : inScopeBody path = true) :
    c.inLoop path = false := by
  induction path generalizing c with
  | nil => rfl
  | cons m path ih =>
    simp only [inScopeBody, all_cons, Bool.and_eq_true, decide_eq_true_eq] at h
    obtain ⟨rfl, h⟩ := h
    simp only [inLoop, Bool.false_or]
    split
    · exact ih h
    · rfl

/-- A numeric literal gives the same number whenever it is evaluated, and leaves the heap alone. -/
def LiteralsRepeat (O : Objects V H) : Prop :=
  ∀ e, isScalarLiteral e = true → ∃ r : Option V, ∀ env h, evaluate O env e h = r.map fun v => (v, h)

/-- A literal assigned to each of some targets. -/
theorem repeat_literal {r : Option V} (fuel : ℕ)
    (hvalue : ∀ env h, evaluate O env value h = r.map fun v => (v, h)) (htargets : targets ≠ [])
    (f : Activation V H) :
    runCode O fuel (.assign targets value (Code.ofStmts rest)) f =
      runCode O fuel (Code.ofStmts (targets.map (fun t => .assign [t] value .done) ++ rest)) f := by
  cases r with
  | none =>
    obtain ⟨t, ts, rfl⟩ := exists_cons_of_ne_nil htargets
    rw [map_cons, cons_append, runCode_ofStmts_cons]
    simp only [runCode, hvalue, map_none, bind_none]
  | some v =>
    have hstores : ∀ (ts : List Pattern) (f : Activation V H),
        runCode O fuel (Code.ofStmts (ts.map (fun t => .assign [t] value .done) ++ rest)) f =
          (ts.foldlM (fun f t => assignTo O t v f) f).bind (runCode O fuel (Code.ofStmts rest)) := by
      intro ts
      induction ts with
      | nil => exact fun f => rfl
      | cons t ts ih =>
        intro f
        rw [map_cons, cons_append, runCode_ofStmts_cons, foldlM_cons]
        simp only [runCode, hvalue, map_some, bind_some, foldlM_cons,
          foldlM_nil, Option.pure_def, bind_eq_bind, Option.bind_assoc, andThen, ih]
    rw [hstores]
    simp only [runCode, hvalue, map_some, bind_some]

/-- A value whose rank is known, and not zero, is an array: it is updated in place. -/
def RankKnown (O : Objects V H) (cfg : ChainConfig) (value : Expr) (f : Activation V H) : Prop :=
  ∀ r p, cfg.rankOf value = some r → r ≠ 0 → evaluate O f.env value f.heap = some p →
    UpdatesInPlace O p.1

/-- **One split changes nothing a call computes.** -/
theorem split_sound {cfg : ChainConfig} {temps : ℕ} {body : Code} {rest : Code}
    (hliterals : cfg.repeatLiterals = true → LiteralsRepeat O)
    (hat : body.at_ path = some (.assign targets value rest)) (htargets : targets ≠ [])
    (hkept : SplitKept cfg temps path body)
    (hrank : Along O fuel (RankKnown O cfg value) path body f) :
    runFunction O fuel (splitAt cfg temps path body) f = runFunction O fuel body f := by
  refine (runFunction_eq ?_).symm
  simp only [SplitKept, hat] at hkept
  simp only [splitAt, hat, splitList]
  have hloop : body.inLoop path = true → inScopeBody path = false := fun hl => by
    by_contra hs
    rw [Code.inLoop_of_scope (Bool.not_eq_false _ ▸ hs)] at hl
    cases hl
  cases hliteral : cfg.repeatLiterals && isScalarLiteral value with
  | true =>
    rw [Bool.and_eq_true] at hliteral
    obtain ⟨r, hr⟩ := hliterals hliteral.1 value hliteral.2
    have hsplit : splitChain cfg temps (inScopeBody path) (Code.replace .done path body).loads
        targets value rest.stmts = targets.map (fun t => .assign [t] value .done) ++ rest.stmts := by
      simp only [splitChain, hliteral, Bool.and_self, if_true]
    rw [hsplit]
    refine rel_mono (replace_sim (U := ∅) (W := ∅) (L := ∅) (P := RankKnown O cfg value) hat
      (fun _ h => h) (fun _ h => h) (fun _ => rfl) (fun _ h => h.elim) (.inr fun _ h => h.elim)
      (fun f' g' h' _ => ?_) hrank (SameOff.refl ∅ f)) fun r s hrs =>
        hrs.mono (fun _ _ h => h.heap) (fun _ _ h => h.heap) fun _ _ h => h.heap
    rw [← repeat_literal fuel hr htargets g', Code.ofStmts_stmts]
    exact runCode_unchanged h' fun _ h => h.elim
  | false =>
    replace hkept := hkept.resolve_left (by simp [hliteral])
    have hcases := holderOf_cases cfg temps targets value
    rcases hheld : holderOf cfg temps targets value with ⟨holder, others⟩
    rcases hsplit : splitTargets (decide (cfg.rankOf value ≠ some 0)) holder [] others with
      ⟨heads, aliases⟩
    rw [hheld] at hkept hcases
    have hchain : splitChain cfg temps (inScopeBody path) (Code.replace .done path body).loads
        targets value rest.stmts = .assign [.name holder] value .done :: (heads ++
          if aliases = [] then rest.stmts
          else renameAliases (cfg.rankOf value).isSome (inScopeBody path)
            (Code.replace .done path body).loads [] holder aliases rest.stmts) := by
      simp only [splitChain, hliteral, Bool.false_eq_true, if_false, hheld, hsplit]
    have htemp : if decide (others = targets) = true then targets = others
        else targets = .name holder :: others := by
      by_cases ho : others = targets
      · rw [decide_eq_true ho, if_pos rfl, ho]
      · rw [decide_eq_false ho, if_neg Bool.false_ne_true]
        exact hcases.resolve_left ho
    rw [hchain]
    generalize hstale : Stale (decide (others = targets)) holder aliases
      ((Code.replace .done path body).loads ++
        (renameAliases (cfg.rankOf value).isSome (inScopeBody path)
          (Code.replace .done path body).loads [] holder aliases rest.stmts).flatMap Code.loads) =
      stale
    have houter : ∀ x ∈ stale, x ∉ (Code.replace .done path body).loads := by
      rw [← hstale]
      rintro x (⟨rfl, ht⟩ | ⟨-, hx⟩) hl
      · exact hkept.fresh ht (Code.loads_replace_done hl)
      · exact hx (mem_append_left _ hl)
    -- In the body of the function nothing runs after the list but its rest.
    refine rel_mono (replace_sim (U := fun x => inScopeBody path = true ∨ x ∈ stale) (W := ∅)
      (L := fun x => body.inLoop path = true ∧ x ∈ stale) (P := RankKnown O cfg value) hat
      (fun _ h => h.elim) (fun _ h => .inr h.2) (fun hl => ?_) (fun _ h => h.elim) ?_
      (fun f' g' h' hrank => ?_) hrank (SameOff.refl ∅ f)) fun r s hrs =>
        hrs.mono (fun _ _ h => h.heap) (fun _ _ h => h.heap) fun _ _ h => h.heap
    · ext x
      show _ ∧ _ ↔ _ ∨ _
      simp only [hl, hloop hl, true_and, Bool.false_eq_true, false_or]
    · cases hs : inScopeBody path with
      | true => exact .inl rfl
      | false =>
        refine .inr fun x hx => houter x ?_
        exact Or.resolve_left hx (by simp)
    · have hsim := splitChain_sim (O := O) (U := fun x => inScopeBody path = true ∨ x ∈ stale)
        (W := fun x => body.inLoop path = true ∧ x ∈ stale) fuel hkept htemp hsplit
        (fun p hshared hin hp => ?_) ?_ (fun x hx => hstale ▸ hx) (fun x hx => .inr (hstale ▸ hx))
        (fun hs x => .inl hs) h'
      · rwa [Code.ofStmts_stmts] at hsim
      · obtain ⟨r, hr⟩ := isSome_iff_exists.1 hin
        refine hrank r p hr ?_ hp
        rintro rfl
        exact (of_decide_eq_true hshared) hr
      · rw [Code.ofStmts_stmts]
        exact fun x hx => Code.loads_at hat hx

/-! ### The pass -/

theorem Code.at_cons (hd : c.child m = some d) (h : d.at_ path = some list) :
    c.at_ (m :: path) = some list := by
  rw [at_, hd, bind_some, h]

/-- A path found in one of the lists inside a statement leads to what it leads to there. -/
theorem Code.at_map {found : Option (List Move)} {Q : Code → Prop} (hd : c.child m = some d)
    (hfound : ∀ p, found = some p → ∃ list, d.at_ p = some list ∧ Q list)
    (h : found.map (m :: ·) = some path) : ∃ list, c.at_ path = some list ∧ Q list := by
  obtain ⟨p, hp, rfl⟩ := map_eq_some_iff.1 h
  obtain ⟨list, hlist, hQ⟩ := hfound p hp
  exact ⟨list, at_cons hd hlist, hQ⟩

/-- A list of statements that starts with a chained assignment. -/
def Code.IsChain (c : Code) : Prop :=
  ∃ targets value rest, c = .assign targets value rest ∧ targets ≠ []

theorem Code.chainHere_at : ∀ path, c.chainHere = some path →
    ∃ list, c.at_ path = some list ∧ list.IsChain := by
  induction c with
  | done => exact fun _ h => nomatch h
  | assign targets value rest ih =>
    intro path h
    rw [chainHere] at h
    split at h
    · rename_i hmany
      obtain rfl := some.inj h
      refine ⟨_, rfl, targets, value, rest, rfl, ?_⟩
      rintro rfl
      cases hmany
    · exact at_map rfl ih h
  | augAssign target op value rest ih | expr value rest ih => exact fun path h => at_map rfl ih h
  | ifElse test body orelse rest _ _ ih => exact fun path h => at_map rfl ih h
  | forIn target iter body orelse rest _ _ ih => exact fun path h => at_map rfl ih h
  | whileDo test body orelse rest _ _ ih | ret value rest ih => exact fun path h => at_map rfl ih h
  | brk rest ih | cont rest ih => exact fun path h => at_map rfl ih h

theorem Code.chainInside_at : ∀ path, c.chainInside = some path →
    ∃ list, c.at_ path = some list ∧ list.IsChain := by
  have hor : ∀ {a b : Option (List Move)} {path}, a.or b = some path →
      a = some path ∨ b = some path := by
    intro a b path h
    cases a with
    | none => exact .inr h
    | some p => exact .inl h
  induction c with
  | done => exact fun _ h => nomatch h
  | assign targets value rest ih => exact fun path h => at_map rfl ih h
  | augAssign target op value rest ih | expr value rest ih => exact fun path h => at_map rfl ih h
  | ifElse test body orelse rest ihb iho ih | forIn target iter body orelse rest ihb iho ih =>
    intro path h
    rcases hor h with h | h
    · rcases hor h with h | h
      · rcases hor h with h | h
        · rcases hor h with h | h
          · exact at_map rfl chainHere_at h
          · exact at_map rfl chainHere_at h
        · exact at_map rfl ihb h
      · exact at_map rfl iho h
    · exact at_map rfl ih h
  | whileDo test body orelse rest ihb iho ih =>
    intro path h
    rcases hor h with h | h
    · rcases hor h with h | h
      · rcases hor h with h | h
        · rcases hor h with h | h
          · exact at_map rfl chainHere_at h
          · exact at_map rfl chainHere_at h
        · exact at_map rfl ihb h
      · exact at_map rfl iho h
    · exact at_map rfl ih h
  | ret value rest ih | brk rest ih | cont rest ih => exact fun path h => at_map rfl ih h

/-- The chained assignment that is split next is one. -/
theorem Code.nextChain_at (h : c.nextChain = some path) :
    ∃ list, c.at_ path = some list ∧ list.IsChain := by
  unfold nextChain at h
  rcases hc : c.chainHere with _ | p
  · rw [hc, none_or] at h
    exact chainInside_at path h
  · rw [hc, some_or] at h
    obtain rfl := some.inj h
    exact chainHere_at p hc

/-- The ranks the pass goes by are those of the runs of the bodies it splits. -/
def RanksKnown (O : Objects V H) (cfg : ChainConfig) (fuel : ℕ) (f : Activation V H) :
    ℕ → ℕ → Code → Prop
  | 0, _, _ => True
  | count + 1, temps, body =>
    match body.nextChain with
    | none => True
    | some path =>
      (∀ targets value rest, body.at_ path = some (.assign targets value rest) →
        Along O fuel (RankKnown O cfg value) path body f) ∧
        RanksKnown O cfg fuel f count (tempsOf cfg temps (body.at_ path))
          (splitAt cfg temps path body)

/-- No rank is known, and no literal is repeated. -/
def plainChain : ChainConfig where
  tempName k := "chain_" ++ toString k
  repeatLiterals := false
  exprRank _ := none

/-- `for i in k: y = x = x + one`, and `return result`. -/
def chainLoop (result : String) : Code :=
  .forIn (.name "i") (.name "k")
    (.assign [.name "y", .name "x"] (.binOp .add (.name "x") (.name "one")) .done) .done
    (.ret (.name result) .done)

/-- `x` is zero, and the loop runs three times. -/
def chainStart : Activation (List ℤ) Unit where
  env z :=
    if z = "x" then some [0] else if z = "one" then some [1]
    else if z = "k" then some [0, 0, 0] else none
  heap := ()

/-- Where no rank is known there is nothing to be wrong about. -/
theorem ranksKnown_plainChain (O : Objects V H) (fuel : ℕ) (f : Activation V H) (count temps : ℕ)
    (body : Code) : RanksKnown O plainChain fuel f count temps body := by
  induction count generalizing temps body with
  | zero => trivial
  | succ count ih =>
    rw [RanksKnown]
    split
    · trivial
    · refine ⟨fun targets value rest _ => along_of_forall fun f r p hr hzero _ => ?_, ih _ _⟩
      cases value <;> first | exact absurd (some.inj hr).symm hzero | cases hr

end Translate

end HpcAgentBench
