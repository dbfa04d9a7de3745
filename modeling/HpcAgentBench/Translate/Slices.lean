import HpcAgentBench.Translate.Iterations
import Mathlib.Data.List.Dedup

/-!
# Loops that keep to their slices

What the analysis of a loop checks about its subscripts, and what it leaves unchecked (`OwnSlices`),
give bodies that keep to the slice of the iteration.

## Main results

* `fits_of_sliced` : a body all of whose subscripts are sliced keeps to the iteration's slice.
* `sliced_body` : the subscripts of a loop that passes the analysis are.
-/

namespace HpcAgentBench

open List

namespace Translate

/-! ### What the analysis leaves unchecked -/

/-- The names read to find the place stored to, other than as the array of a subscript. -/
def Target.bareNames : Target → List String
  | .name _ => []
  | .subscript base s => (Expr.subscript base s).bareNames

namespace Block

/-- The names a block reads other than as the array of a subscript. -/
def bareNames : Block → List String
  | .done => []
  | .assign targets e rest => targets.flatMap Target.bareNames ++ e.bareNames ++ rest.bareNames
  | .augAssign t _ e rest => t.bareNames ++ e.bareNames ++ rest.bareNames
  | .expr e rest => e.bareNames ++ rest.bareNames
  | .ifElse test body orelse rest =>
    test.bareNames ++ body.bareNames ++ orelse.bareNames ++ rest.bareNames
  | .forRange _ args body rest => args.bareNames ++ body.bareNames ++ rest.bareNames
  | .whileDo test body rest => test.bareNames ++ body.bareNames ++ rest.bareNames
  | .brk rest => rest.bareNames

/-- Whether a block breaks the loop around it. -/
def breaks : Block → Bool
  | .done => false
  | .assign _ _ rest => rest.breaks
  | .augAssign _ _ _ rest => rest.breaks
  | .expr _ rest => rest.breaks
  | .ifElse _ body orelse rest => body.breaks || orelse.breaks || rest.breaks
  | .forRange _ _ _ rest => rest.breaks
  | .whileDo _ _ rest => rest.breaks
  | .brk _ => true

/-- Whether every element stored is one of an array by its name. -/
def storesByName (body : Block) : Bool :=
  body.walkNodes.all fun
    | .store (.subscript base _) => base.id?.isSome
    | _ => true

/-- Whether no call that is a statement is passed an array by its name. -/
def passesNone (body : Block) (arrays : List String) : Bool :=
  body.walkNodes.all fun
    | .callStmt _ args => args.elts.all fun arg => arg.id?.all (· ∉ arrays)
    | _ => true

end Block

/-- What the analysis of a loop does not look at: breaks, the loop's variable bound in the body,
written arrays read as a whole, elements of elements stored, arrays passed to calls. -/
structure OwnSlices (loop : Loop) (arrays : List String) : Prop where
  breaks : loop.body.breaks = false
  index : loop.target ∉ loop.body.bareStoreNames
  bare : ∀ A ∈ loop.body.bareNames, A ∉ loop.body.writtenArrays
  stores : loop.body.storesByName = true
  calls : loop.body.passesNone arrays = true

/-- The axis of a written array that the loop's variable indexes. -/
def writtenAxis (loop : Loop) (array : String) : ℕ :=
  (((writtenSubscripts loop.body loop.body.writtenArrays).filter (·.1 = array)).flatMap
    fun p => bareAxes p.2 loop.target).headD 0

/-- No two iterations index the same place of a written array. -/
def Apart {V : Type} (loop : Loop) (vals : List ℤ) (σ : State V) : Prop :=
  ∀ i ∈ vals, ∀ j ∈ vals, i ≠ j → ∀ A ∈ loop.body.writtenArrays, ∀ a, σ.arrays A = some a →
    ∀ n, a.shape[writtenAxis loop A]? = some n → ∀ p, wrapIndex n i = some p →
      wrapIndex n j ≠ some p

/-! ### Subscripts of written arrays -/

section Axes

variable {loop : Loop}

theorem mem_bareAxes {slice : Expr} {idx : String} {k : ℕ} :
    k ∈ bareAxes slice idx ↔ (indexExprs slice)[k]? = some (.name idx) := by
  simp only [bareAxes, mem_filterMap, Prod.exists]
  constructor
  · rintro ⟨e, n, hmem, hk⟩
    split at hk
    · next he =>
      obtain rfl := Option.some.inj hk
      rw [← he]
      exact mem_zipIdx_iff_getElem?.1 hmem
    · cases hk
  · intro hk
    exact ⟨_, k, mem_zipIdx_iff_getElem?.2 hk, by simp⟩

theorem eq_of_dedup_length_le {l : List ℕ} (h : l.dedup.length ≤ 1) {a b : ℕ} (ha : a ∈ l)
    (hb : b ∈ l) : a = b := by
  match hl : l.dedup with
  | [] => exact absurd (mem_dedup.2 ha) (hl ▸ not_mem_nil)
  | [c] =>
    have ha := mem_dedup.2 ha
    have hb := mem_dedup.2 hb
    rw [hl, mem_singleton] at ha hb
    rw [ha, hb]
  | _ :: _ :: _ => simp [hl] at h

/-- The loop's variable stands alone on the axis of a written array. -/
theorem getElem_writtenAxis
    (hsafe : ((writtenSubscripts loop.body loop.body.writtenArrays).all fun p =>
      subscriptIdxSafe p.2 loop.target) = true)
    (hconsistent : writtenPartitionConsistent loop.body loop.target loop.body.writtenArrays = true)
    {A : String} {s : Expr} (hs : (A, s) ∈ writtenSubscripts loop.body loop.body.writtenArrays)
    (hA : A ∈ loop.body.writtenArrays) :
    (indexExprs s)[writtenAxis loop A]? = some (.name loop.target) := by
  have hsafe := all_eq_true.1 hsafe _ hs
  simp only [subscriptIdxSafe, Bool.and_eq_true, any_eq_true, decide_eq_true_eq] at hsafe
  obtain ⟨-, e, he, rfl⟩ := hsafe
  obtain ⟨k, hk⟩ := mem_iff_getElem?.1 he
  have hmem : k ∈ ((writtenSubscripts loop.body loop.body.writtenArrays).filter
      (·.1 = A)).flatMap fun p => bareAxes p.2 loop.target :=
    mem_flatMap.2 ⟨(A, s), mem_filter.2 ⟨hs, by simp⟩, mem_bareAxes.2 hk⟩
  have hlength := all_eq_true.1 hconsistent A hA
  rw [decide_eq_true_eq] at hlength
  have haxis : writtenAxis loop A = k := by
    refine eq_of_dedup_length_le hlength ?_ hmem
    unfold writtenAxis
    generalize ((writtenSubscripts loop.body loop.body.writtenArrays).filter
      (·.1 = A)).flatMap (fun p => bareAxes p.2 loop.target) = axes at hmem
    cases axes with
    | nil => cases hmem
    | cons axis axes => exact mem_cons_self
  rw [haxis]
  exact hk

end Axes

/-- The array of an element stored is a written array. -/
theorem mem_writtenArrays {b : Block} {A : String} {s : Expr}
    (h : .store (.subscript (.name A) s) ∈ b.walkNodes) : A ∈ b.writtenArrays := by
  have hexpr : ∀ e, .store (.subscript (.name A) s) ∉ Block.exprNodes e := by
    intro e he
    obtain ⟨_, -, hload⟩ := mem_map.1 he
    cases hload
  have htarget : ∀ t, .store (.subscript (.name A) s) ∈ Block.targetNodes t →
      t = .subscript (.name A) s := by
    intro t ht
    rcases mem_cons.1 ht with ht | ht
    · injection ht with ht
      exact ht.symm
    · obtain ⟨e, -, he⟩ := mem_flatMap.1 ht
      exact absurd he (hexpr e)
  induction b with
  | done => cases h
  | assign targets value rest ih =>
    simp only [Block.walkNodes, mem_cons, mem_append, reduceCtorEq, false_or] at h
    rcases h with (h | h) | h
    · obtain ⟨t, ht, hstore⟩ := mem_flatMap.1 h
      refine mem_flatMap.2 ⟨_, mem_cons_self, mem_filterMap.2 ⟨t, ht, ?_⟩⟩
      rw [htarget t hstore]
    · exact absurd h (hexpr value)
    · exact mem_flatMap.2 <| (mem_flatMap.1 (ih h)).imp fun n hn =>
        ⟨mem_cons_of_mem _ (mem_append_right _ hn.1), hn.2⟩
  | augAssign target op value rest ih =>
    simp only [Block.walkNodes, mem_cons, mem_append, reduceCtorEq, false_or] at h
    rcases h with (h | h) | h
    · refine mem_flatMap.2 ⟨_, mem_cons_self, mem_filterMap.2
        ⟨target, mem_cons_self, ?_⟩⟩
      rw [htarget target h]
    · exact absurd h (hexpr value)
    · exact mem_flatMap.2 <| (mem_flatMap.1 (ih h)).imp fun n hn =>
        ⟨mem_cons_of_mem _ (mem_append_right _ hn.1), hn.2⟩
  | expr value rest ih =>
    simp only [Block.walkNodes, mem_append] at h
    rcases h with (h | h) | h
    · cases value <;> simp [Block.callNodes] at h
    · exact absurd h (hexpr value)
    · exact mem_flatMap.2 <| (mem_flatMap.1 (ih h)).imp fun n hn =>
        ⟨mem_append_right _ hn.1, hn.2⟩
  | ifElse test body orelse rest ihb iho ihr =>
    simp only [Block.walkNodes, mem_append] at h
    simp only [Block.writtenArrays, mem_flatMap, Block.walkNodes, mem_append] at ihb iho ihr ⊢
    rcases h with ((h | h) | h) | h
    · exact absurd h (hexpr test)
    · exact (ihb h).imp fun n hn => ⟨.inl (.inl (.inr hn.1)), hn.2⟩
    · exact (iho h).imp fun n hn => ⟨.inl (.inr hn.1), hn.2⟩
    · exact (ihr h).imp fun n hn => ⟨.inr hn.1, hn.2⟩
  | forRange target args body rest ihb ihr =>
    simp only [Block.walkNodes, mem_cons, mem_append, reduceCtorEq, false_or,
      Block.Node.store.injEq] at h
    simp only [Block.writtenArrays, mem_flatMap, Block.walkNodes, mem_cons,
      mem_append] at ihb ihr ⊢
    rcases h with (h | h) | h
    · exact absurd h (hexpr _)
    · exact (ihb h).imp fun n hn => ⟨.inr (.inr (.inl (.inr hn.1))), hn.2⟩
    · exact (ihr h).imp fun n hn => ⟨.inr (.inr (.inr hn.1)), hn.2⟩
  | whileDo test body rest ihb ihr =>
    simp only [Block.walkNodes, mem_append] at h
    simp only [Block.writtenArrays, mem_flatMap, Block.walkNodes, mem_append] at ihb ihr ⊢
    rcases h with (h | h) | h
    · exact absurd h (hexpr test)
    · exact (ihb h).imp fun n hn => ⟨.inl (.inr hn.1), hn.2⟩
    · exact (ihr h).imp fun n hn => ⟨.inr hn.1, hn.2⟩
  | brk rest ih => exact ih h

/-! ### Bodies that keep to their slices -/

namespace Iteration

variable {V : Type} {it : Iteration V}

/-- The statements that update the accumulator are the only ones that name it. -/
def Updates (it : Iteration V) : Block → Prop
  | .done => True
  | .assign targets e rest =>
    ((it.FreeExpr e ∧ ∀ t ∈ targets, t.id? = none ∨ t.id? ≠ it.combine.acc) ∨
      ∃ x, targets = [.name x] ∧ some x = it.combine.acc ∧ it.combine.value e) ∧
    (∀ t ∈ targets, ∀ e ∈ t.reads, it.FreeExpr e) ∧ Updates it rest
  | .augAssign t op e rest =>
    it.FreeExpr e ∧ (t.id? = none ∨ ∃ x, t = .name x ∧ some x = it.combine.acc ∧ it.combine.op op) ∧
    (∀ e ∈ t.reads, it.FreeExpr e) ∧ Updates it rest
  | .expr e rest => it.FreeExpr e ∧ Updates it rest
  | .ifElse test body orelse rest =>
    it.FreeExpr test ∧ Updates it body ∧ Updates it orelse ∧ Updates it rest
  | .forRange target args body rest =>
    it.FreeExpr args ∧ some target ≠ it.combine.acc ∧ Updates it body ∧ Updates it rest
  | .whileDo test body rest => it.FreeExpr test ∧ Updates it body ∧ Updates it rest
  | .brk rest => Updates it rest

/-- A target that is a scalar of the body, or an element of the iteration's own slice. -/
def SliceTarget (it : Iteration V) : Target → Prop
  | .name x => (some x ≠ it.combine.acc → x ∈ it.scratch) ∧ x ≠ it.idx
  | .subscript base s => ∃ A ∈ it.written, base = .name A ∧
    (indexExprs s)[it.axis A]? = some (.name it.idx)

/-- A body all of whose subscripts of written arrays are the iteration's own. -/
structure Sliced (it : Iteration V) (b : Block) : Prop where
  loads : ∀ A s, .load (.subscript (.name A) s) ∈ b.walkNodes → A ∈ it.written →
    (indexExprs s)[it.axis A]? = some (.name it.idx)
  stores : ∀ t, .store t ∈ b.walkNodes → SliceTarget it t
  bare : ∀ A ∈ b.bareNames, A ∉ it.written
  calls : ∀ func args, .callStmt func args ∈ b.walkNodes → ∀ x, .name x ∈ args.elts → x ∉ it.arrays

namespace Sliced

variable {b b' : Block}

theorem mono (h : Sliced it b) (hnodes : b'.walkNodes ⊆ b.walkNodes)
    (hbare : b'.bareNames ⊆ b.bareNames) : Sliced it b' where
  loads A s hs := h.loads A s (hnodes hs)
  stores t ht := h.stores t (hnodes ht)
  bare A hA := h.bare A (hbare hA)
  calls func args hcall := h.calls func args (hnodes hcall)

theorem expr (h : Sliced it b) {e : Expr} (hnodes : Block.exprNodes e ⊆ b.walkNodes)
    (hbare : e.bareNames ⊆ b.bareNames) : it.SliceExpr e where
  slices A s hs := h.loads A s (hnodes (mem_map_of_mem hs))
  bare A hA := h.bare A (hbare hA)

theorem target (h : Sliced it b) {t : Target} (hnodes : Block.targetNodes t ⊆ b.walkNodes)
    (hbare : t.bareNames ⊆ b.bareNames) (hfree : ∀ e ∈ t.reads, it.FreeExpr e)
    (hacc : t.id? = none ∨ t.id? ≠ it.combine.acc) : FitsTarget it t := by
  have ht := h.stores t (hnodes mem_cons_self)
  cases t with
  | name x =>
    have hacc : some x ≠ it.combine.acc := by simpa [Target.id?] using hacc
    exact ⟨ht.1 hacc, ht.2, hacc⟩
  | subscript base s =>
    obtain ⟨A, hA, rfl, haxis⟩ := ht
    refine ⟨⟨⟨fun B s' hs hB => ?_, fun B hB => h.bare B (hbare hB)⟩, fun x hx => ?_⟩, A, hA, rfl⟩
    · rcases mem_cons.1 hs with hs | hs
      · obtain ⟨rfl, rfl⟩ : B = A ∧ s' = s := by simpa using hs
        exact haxis
      · refine h.loads B s' (hnodes (mem_cons_of_mem _ ?_)) hB
        rcases mem_append.1 hs with hs | hs
        · exact mem_flatMap.2 ⟨_, by simp [Target.reads], mem_map_of_mem hs⟩
        · exact mem_flatMap.2 ⟨s, by simp [Target.reads], mem_map_of_mem hs⟩
    · rcases mem_append.1 (loadNames_subscript _ s ▸ hx) with hx | hx
      · exact hfree _ (by simp [Target.reads]) x hx
      · exact hfree s (by simp [Target.reads]) x hx

end Sliced

/-- **A body all of whose subscripts are sliced keeps to the iteration's slice.** -/
theorem fits_of_sliced {b : Block} (hupdates : Updates it b) (h : Sliced it b) : Fits it b := by
  induction b with
  | done => trivial
  | assign targets e rest ih =>
    obtain ⟨hassign, hreads, hrest⟩ := hupdates
    have he : it.SliceExpr e := h.expr (fun n hn => by simp [Block.walkNodes, hn])
      fun A hA => by simp [Block.bareNames, hA]
    refine ⟨?_, ih hrest (h.mono (fun n hn => by simp [Block.walkNodes, hn])
      fun A hA => by simp [Block.bareNames, hA])⟩
    rcases hassign with ⟨hfree, htargets⟩ | hcombine
    · refine .inl ⟨⟨he, hfree⟩, fun t ht => ?_⟩
      have hnodes : Block.targetNodes t ⊆ targets.flatMap Block.targetNodes :=
        fun n hn => mem_flatMap.2 ⟨t, ht, hn⟩
      have hbare : t.bareNames ⊆ targets.flatMap Target.bareNames :=
        fun A hA => mem_flatMap.2 ⟨t, ht, hA⟩
      refine h.target (fun n hn => ?_) (fun A hA => ?_) (hreads t ht) (htargets t ht)
      · exact mem_cons_of_mem _ (mem_append_left _ (mem_append_left _ (hnodes hn)))
      · exact mem_append_left _ (mem_append_left _ (hbare hA))
    · exact .inr ⟨he, hcombine⟩
  | augAssign t op e rest ih =>
    obtain ⟨hfree, ht, hreads, hrest⟩ := hupdates
    refine ⟨⟨h.expr (fun n hn => by simp [Block.walkNodes, hn])
      fun A hA => by simp [Block.bareNames, hA], hfree⟩, ?_, ih hrest
        (h.mono (fun n hn => by simp [Block.walkNodes, hn]) fun A hA => by simp [Block.bareNames, hA])⟩
    rcases ht with hid | hcombine
    · exact .inl ⟨hid, h.target (fun n hn => by simp [Block.walkNodes, hn])
        (fun A hA => by simp [Block.bareNames, hA]) hreads (.inl hid)⟩
    · exact .inr hcombine
  | expr e rest ih =>
    refine ⟨⟨h.expr (fun n hn => by simp [Block.walkNodes, hn])
      fun A hA => by simp [Block.bareNames, hA], hupdates.1⟩, ?_, ih hupdates.2
        (h.mono (fun n hn => by simp [Block.walkNodes, hn]) fun A hA => by simp [Block.bareNames, hA])⟩
    rintro func args rfl
    exact h.calls func args (by simp [Block.walkNodes, Block.callNodes])
  | ifElse test body orelse rest ihb iho ihr =>
    obtain ⟨htest, hbody, horelse, hrest⟩ := hupdates
    refine ⟨⟨h.expr ?_ ?_, htest⟩, ihb hbody (h.mono ?_ ?_), iho horelse (h.mono ?_ ?_),
      ihr hrest (h.mono ?_ ?_)⟩
    all_goals exact fun n hn => by simp [Block.walkNodes, Block.bareNames, hn]
  | forRange target args body rest ihb ihr =>
    obtain ⟨hargs, htarget, hbody, hrest⟩ := hupdates
    have hiterator := h.stores (.name target) (by simp [Block.walkNodes])
    refine ⟨⟨h.expr ?_ ?_, hargs⟩, ⟨hiterator.1 htarget, hiterator.2, htarget⟩,
      ihb hbody (h.mono ?_ ?_), ihr hrest (h.mono ?_ ?_)⟩
    · intro n hn
      have hn : n ∈ Block.exprNodes (.call (.name "range") args) := by
        obtain ⟨e, he, rfl⟩ := mem_map.1 hn
        exact mem_map_of_mem (mem_cons_of_mem _ (mem_append_right _ he))
      simp [Block.walkNodes, hn]
    all_goals exact fun n hn => by simp [Block.walkNodes, Block.bareNames, hn]
  | whileDo test body rest ihb ihr =>
    obtain ⟨htest, hbody, hrest⟩ := hupdates
    refine ⟨⟨h.expr ?_ ?_, htest⟩, ihb hbody (h.mono ?_ ?_), ihr hrest (h.mono ?_ ?_)⟩
    all_goals exact fun n hn => by simp [Block.walkNodes, Block.bareNames, hn]
  | brk rest ih => exact ih hupdates (h.mono (List.Subset.refl _) (List.Subset.refl _))

/-- **The subscripts of a loop that passes the analysis are sliced.** -/
theorem sliced_body {loop : Loop} {arrays : List String} (hown : OwnSlices loop arrays)
    (hsafe : ((writtenSubscripts loop.body loop.body.writtenArrays).all fun p =>
      subscriptIdxSafe p.2 loop.target) = true)
    (hconsistent : writtenPartitionConsistent loop.body loop.target loop.body.writtenArrays = true)
    (hidx : it.idx = loop.target) (harrays : it.arrays = arrays)
    (hwritten : it.written = loop.body.writtenArrays) (haxis : it.axis = writtenAxis loop)
    (hscratch : ∀ x ∈ loop.body.bareStoreNames, some x ≠ it.combine.acc → x ∈ it.scratch) :
    Sliced it loop.body where
  loads A s hs hA := by
    rw [hwritten] at hA
    rw [haxis, hidx]
    refine getElem_writtenAxis hsafe hconsistent (mem_filterMap.2 ⟨(.name A, s), ?_, ?_⟩) hA
    · exact mem_filterMap.2 ⟨_, hs, rfl⟩
    · simp [hA]
  stores t ht := by
    cases t with
    | name x =>
      have hx : x ∈ loop.body.bareStoreNames := mem_filterMap.2 ⟨_, ht, rfl⟩
      exact ⟨hscratch x hx, fun hxi => hown.index (hidx ▸ hxi ▸ hx)⟩
    | subscript base s =>
      obtain ⟨A, hA⟩ := Option.isSome_iff_exists.1 (all_eq_true.1 hown.stores _ ht)
      obtain rfl : base = .name A := by
        cases base <;> simp [Expr.id?] at hA
        rw [hA]
      have hA := mem_writtenArrays ht
      refine ⟨A, hwritten ▸ hA, rfl, ?_⟩
      rw [haxis, hidx]
      refine getElem_writtenAxis hsafe hconsistent (mem_filterMap.2 ⟨(.name A, s), ?_, ?_⟩) hA
      · exact mem_filterMap.2 ⟨_, ht, rfl⟩
      · simp [hA]
  bare A hA := hwritten ▸ hown.bare A hA
  calls func args hcall x hx := by
    have hargs := all_eq_true.1 (all_eq_true.1 hown.calls _ hcall) _ hx
    simpa [Expr.id?, harrays] using hargs

end Iteration

end Translate

end HpcAgentBench
