import HpcAgentBench.Translate.SparseStore

/-!
# The walk of the stored entries

An accumulator (`Acc`) holds what the items visited so far add up to.  The nests of the generic
products fill it with zeros and visit the stored entries of the matrix, one after another.

## Main results

* `Acc.add` : one more item.
* `leaves_entryLoops` : the inner statements run for every stored entry.
-/

namespace HpcAgentBench

open List

namespace Translate

namespace SparseEmit

/-- The temporaries of the nests. -/
def sparseTemps : List String :=
  ["__i", "__j", "__k", "__jd", "__r", "__s", "__gr", "__sell_acc", "__col", "__e", "__d", "__o",
    "__bi", "__bj", "__c", "__zi", "__zc", "__ei", "__ej", "__ek", "__er", "__ec", "__ev", "__eb",
    "__ebj", "__ea", "__ed", "__eo", "__es"]

variable {V K : Type} [Semiring K]

/-- A matrix in the store before a nest, and what the size texts denote while it runs. -/
structure Setting (I : Interp V) (elt : K → V) (exprOf : String → Expr) (size : String → Option ℕ)
    (written : List String) (bufs : Buffers) (st : Storage K) (σ : State V) : Prop where
  arith : SparseArith I elt
  fresh : ∀ x ∈ sparseTemps, σ.arrays x = none ∧ x ∉ written
  name : ∀ text n, size text = some n → ∀ τ, Framed sparseTemps written σ τ →
    ReadsInt I τ (.name text) n
  expr : ∀ text n, size text = some n → ∀ τ, Framed sparseTemps written σ τ →
    ReadsInt I τ (exprOf text) n
  matrix : HasStorage I elt σ bufs st
  /-- The buffers are not written. -/
  buffers : ∀ p ∈ st.bufferShapes, bufs p.1 ∉ written
  wellFormed : st.WellFormed

section Accumulate

variable {α : Type} {I : Interp V} {elt : K → V} {fuel : ℕ} {σ τ : State V} {written : List String}
variable {T : String} {shape : List ℕ} {ok ok' : List ℕ → Prop} {key : α → List ℕ} {val : α → K}
variable {seen : List α} {Q : State V → Prop} {rest : Block}

/-- The target holds, where `ok`, what the items seen add up to. -/
structure Acc (I : Interp V) (elt : K → V) (written : List String) (σ : State V) (T : String)
    (shape : List ℕ) (ok : List ℕ → Prop) (key : α → List ℕ) (val : α → K) (seen : List α)
    (τ : State V) : Prop where
  framed : Framed sparseTemps written σ τ
  target : ∃ g : List ℕ → V, Has id τ T shape g ∧
    ∀ ix ∈ box shape, ok ix → g ix = elt (gather key val seen ix)

namespace Acc

variable {x : String} {es : List Expr} {e : Expr}

theorem noArray (h : Acc I elt written σ T shape ok key val seen τ) (hx : x ∈ sparseTemps) :
    τ.arrays x = none := h.framed.noArray hx

theorem setScalar (h : Acc I elt written σ T shape ok key val seen τ) {x : String}
    (hx : x ∈ sparseTemps) (v : V) :
    Acc I elt written σ T shape ok key val seen (τ.setScalar x v) := by
  obtain ⟨g, hg, hcells⟩ := h.target
  exact ⟨h.framed.setScalar hx v, g, hg.setScalar (h.noArray hx) v, hcells⟩

theorem mono (h : Acc I elt written σ T shape ok key val seen τ)
    (hok : ∀ ix ∈ box shape, ok' ix → ok ix) :
    Acc I elt written σ T shape ok' key val seen τ := by
  obtain ⟨g, hg, hcells⟩ := h.target
  exact ⟨h.framed, g, hg, fun ix hix hix' => hcells ix hix (hok ix hix hix')⟩

/-- Nothing visited, nothing known. -/
theorem start (hτ : Framed sparseTemps written σ τ) {f : List ℕ → V} (hT : Has id τ T shape f) :
    Acc I elt written σ T shape (fun _ => False) key val [] τ :=
  ⟨hτ, f, hT, fun _ _ hfalse => hfalse.elim⟩

/-- The whole target known. -/
theorem has (h : Acc I elt written σ T shape ok key val seen τ) (hok : ∀ ix ∈ box shape, ok ix) :
    Has elt τ T shape (gather key val seen) := by
  obtain ⟨g, hg, hcells⟩ := h.target
  exact hg.congr fun ix hix => hcells ix hix (hok ix hix)

/-- **One more item**: its value is added under its key. -/
theorem add (h : Acc I elt written σ T shape ok key val seen τ) (hI : SparseArith I elt)
    (hT : T ∈ written) (a : α) (hes : List.Forall₂ (fun e (i : ℕ) => ReadsInt I τ e i) es (key a))
    (hbox : key a ∈ box shape) (hok : ok (key a)) (he : value I τ e = some (elt (val a)))
    (hrest : ∀ b, Acc I elt written σ T shape ok key val (seen ++ [a]) (τ.setArray T b) →
      Leaves I fuel rest (τ.setArray T b) Q) :
    Leaves I fuel (.augAssign (place T es) .add e rest) τ Q := by
  obtain ⟨g, hg, hcells⟩ := h.target
  have hold : g (key a) = elt (gather key val seen (key a)) := hcells _ hbox hok
  obtain ⟨b, hstore, hg'⟩ := hg.store hes hbox (elt (gather key val seen (key a) + val a))
  refine Leaves.augAssign (hg.value (key a) hes hbox) he ?_ hstore
    (hrest b ⟨h.framed.setArray hT b, _, hg', fun ix hix hix' => ?_⟩)
  · exact hold ▸ hI.addElt _ _
  · rw [gather_concat]
    by_cases hkey : ix = key a
    · rw [hkey, Function.update_self, Function.update_self]
    · rw [Function.update_of_ne hkey, Function.update_of_ne hkey]
      exact hcells ix hix hix'

/-- A zero stored where nothing has been added. -/
theorem reset (h : Acc I elt written σ T shape ok key val seen τ) (hI : SparseArith I elt)
    (hT : T ∈ written) (ix : List ℕ) (hes : List.Forall₂ (fun e (i : ℕ) => ReadsInt I τ e i) es ix)
    (hbox : ix ∈ box shape) (hnew : ∀ a ∈ seen, key a ≠ ix)
    (hrest : ∀ b, Acc I elt written σ T shape (fun ix' => ok ix' ∨ ix' = ix) key val seen
      (τ.setArray T b) → Leaves I fuel rest (τ.setArray T b) Q) :
    Leaves I fuel (.assign [place T es] zero rest) τ Q := by
  obtain ⟨g, hg, hcells⟩ := h.target
  obtain ⟨b, hstore, hg'⟩ := hg.store hes hbox (elt 0)
  refine Leaves.assign (value_zero hI) hstore
    (hrest b ⟨h.framed.setArray hT b, _, hg', fun ix' hix hix' => ?_⟩)
  by_cases hkey : ix' = ix
  · rw [hkey, Function.update_self, gather_of_not_mem val hnew]
  · rw [Function.update_of_ne hkey]
    exact hcells ix' hix (hix'.resolve_right hkey)

/-- A sum stored under a new key. -/
theorem put (h : Acc I elt written σ T shape ok key val seen τ) (hT : T ∈ written) (ix : List ℕ)
    (more : List α) (hes : List.Forall₂ (fun e (i : ℕ) => ReadsInt I τ e i) es ix)
    (hbox : ix ∈ box shape) (hnew : ∀ a ∈ seen, key a ≠ ix) (hmore : ∀ a ∈ more, key a = ix)
    (he : value I τ e = some (elt (more.map val).sum))
    (hrest : ∀ b, Acc I elt written σ T shape (fun ix' => ok ix' ∨ ix' = ix) key val (seen ++ more)
      (τ.setArray T b) → Leaves I fuel rest (τ.setArray T b) Q) :
    Leaves I fuel (.assign [place T es] e rest) τ Q := by
  obtain ⟨g, hg, hcells⟩ := h.target
  obtain ⟨b, hstore, hg'⟩ := hg.store hes hbox (elt (more.map val).sum)
  refine Leaves.assign he hstore
    (hrest b ⟨h.framed.setArray hT b, _, hg', fun ix' hix hix' => ?_⟩)
  rw [gather_append]
  by_cases hkey : ix' = ix
  · subst hkey
    have hall : more.filter (fun a => key a = ix') = more :=
      filter_eq_self.2 fun a ha => decide_eq_true (hmore a ha)
    rw [Function.update_self, gather_of_not_mem val hnew, zero_add, gather, hall]
  · rw [Function.update_of_ne hkey, hcells ix' hix (hix'.resolve_right hkey),
      gather_of_not_mem val fun a ha hne => hkey (hne.symm.trans (hmore a ha)), add_zero]

end Acc

end Accumulate

/-! ### Zeros -/

section Zero

variable {α : Type} {I : Interp V} {elt : K → V} {exprOf : String → Expr}
variable {size : String → Option ℕ} {written : List String} {bufs : Buffers} {st : Storage K}
variable {fuel : ℕ} {σ τ : State V} {T : String} (key : α → List ℕ) (val : α → K)
variable {Q : State V → Prop} {rest : Block}
variable {rows row : String} {n : ℕ} {f : List ℕ → V}

theorem Setting.framed (S : Setting I elt exprOf size written bufs st σ) :
    Framed sparseTemps written σ σ := .refl S.fresh

theorem Setting.storage (S : Setting I elt exprOf size written bufs st σ)
    (hτ : Framed sparseTemps written σ τ) : HasStorage I elt τ bufs st :=
  S.matrix.keep hτ S.buffers

/-- Fewer arrays are written. -/
theorem Setting.narrow (S : Setting I elt exprOf size written bufs st σ) {written' : List String}
    (h : written' ⊆ written) : Setting I elt exprOf size written' bufs st σ where
  arith := S.arith
  fresh x hx := ⟨(S.fresh x hx).1, fun hmem => (S.fresh x hx).2 (h hmem)⟩
  name text n hn τ hτ := S.name text n hn τ (S.framed.trans hτ (List.Subset.refl _) h)
  expr text n hn τ hτ := S.expr text n hn τ (S.framed.trans hτ (List.Subset.refl _) h)
  matrix := S.matrix
  buffers p hp hmem := S.buffers p hp (h hmem)
  wellFormed := S.wellFormed

/-- A vector of zeros. -/
theorem leaves_zeroFill (S : Setting I elt exprOf size written bufs st σ) (hT : T ∈ written)
    (hrows : size rows = some n) (hrow : row ∈ sparseTemps) (hτ : Framed sparseTemps written σ τ)
    (hf : Has id τ T [n] f) (hrest : ∀ υ, Acc I elt written σ T [n] (fun _ => True) key val [] υ →
      Leaves I fuel rest υ Q) :
    Leaves I fuel (zeroFill exprOf T rows row rest) τ Q := by
  refine Leaves.countStop
    (fun k => Acc I elt written σ T [n] (fun ix => ∃ i < k, ix = [i]) key val [])
    (S.expr rows n hrows τ hτ) ((Acc.start hτ hf).mono (by simp)) ?_ ?_
  · intro k υ hk hυ
    refine ⟨hυ.noArray hrow, (hυ.setScalar hrow _).reset S.arith hT [k]
      (.cons (readsInt_name State.setScalar_self) .nil) (mem_box_singleton.2 hk) (by simp)
      fun b hb => .done (hb.mono ?_)⟩
    rintro ix - ⟨i, hi, rfl⟩
    by_cases hik : i = k
    · exact .inr (by rw [hik])
    · exact .inl ⟨i, by omega, rfl⟩
  · intro υ hυ
    refine hrest υ (hυ.mono fun ix hix _ => ?_)
    obtain _ | @⟨i, _, _, _, hi, hnil⟩ := mem_box.1 hix
    cases hnil
    exact ⟨i, hi, rfl⟩

/-- A matrix of zeros. -/
theorem leaves_zeroFill2 (S : Setting I elt exprOf size written bufs st σ) (hT : T ∈ written)
    {cols col : String} {m : ℕ} (hrows : size rows = some n) (hcols : size cols = some m)
    (hrow : row ∈ sparseTemps) (hcol : col ∈ sparseTemps) (hne : row ≠ col)
    (hτ : Framed sparseTemps written σ τ) (hf : Has id τ T [n, m] f)
    (hrest : ∀ υ, Acc I elt written σ T [n, m] (fun _ => True) key val [] υ →
      Leaves I fuel rest υ Q) :
    Leaves I fuel (zeroFill2 exprOf T rows cols row col rest) τ Q := by
  refine Leaves.countStop
    (fun k => Acc I elt written σ T [n, m] (fun ix => ix.headD 0 < k) key val [])
    (S.expr rows n hrows τ hτ) ((Acc.start hτ hf).mono (by simp)) ?_ ?_
  · intro k υ hk hυ
    have hυ' := hυ.setScalar hrow (I.ofInt (k : ℕ))
    refine ⟨hυ.noArray hrow, Leaves.countStop (fun l υ =>
      Acc I elt written σ T [n, m] (fun ix => ix.headD 0 < k ∨ ∃ j < l, ix = [k, j]) key val [] υ ∧
        υ.scalars row = some (I.ofInt (k : ℕ))) (S.expr cols m hcols _ hυ'.framed)
      ⟨hυ'.mono (by simp), State.setScalar_self⟩ ?_ ?_⟩
    · rintro l υ hl ⟨hυ, hk'⟩
      refine ⟨hυ.noArray hcol, (hυ.setScalar hcol _).reset S.arith hT [k, l]
        (.cons (readsInt_name ((State.setScalar_of_ne hne).trans hk'))
          (.cons (readsInt_name State.setScalar_self) .nil)) (mem_box_pair.2 ⟨hk, hl⟩) (by simp)
        fun b hb => .done ⟨hb.mono ?_, (State.setScalar_of_ne hne).trans hk'⟩⟩
      rintro ix - (hlt | ⟨j, hj, rfl⟩)
      · exact .inl (.inl hlt)
      · by_cases hjl : j = l
        · exact .inr (by rw [hjl])
        · exact .inl (.inr ⟨j, by omega, rfl⟩)
    · rintro υ ⟨hυ, -⟩
      refine .done (hυ.mono fun ix hix hlt => ?_)
      obtain _ | @⟨i, _, _, _, hi, htail⟩ := mem_box.1 hix
      obtain _ | @⟨j, _, _, _, hj, hnil⟩ := htail
      cases hnil
      by_cases hik : i = k
      · exact .inr ⟨j, hj, by rw [hik]⟩
      · exact .inl (show i < k by have : i < k + 1 := hlt; omega)
  · intro υ hυ
    refine hrest υ (hυ.mono fun ix hix _ => ?_)
    obtain _ | @⟨i, _, _, _, hi, htail⟩ := mem_box.1 hix
    exact hi

end Zero

/-! ### Rows of slots -/

/-- **A loop over the slots of a row.** -/
theorem leaves_rowSlots {β : Type} {I : Interp V} {elt : K → V} {fuel : ℕ} {τ : State V}
    {Q : State V → Prop} {rest body : Block} (hI : SparseArith I elt) {s : Compressed}
    {ptr row x : String} {i : ℕ} (hptr : Has (nat I) τ ptr [s.outer + 1] (at1 s.indptr))
    (hrow : τ.scalars row = some (nat I i)) (hi : i < s.outer) (hs : s.WellFormed)
    (items : ℕ → List β) (P : List β → State V → Prop) (before : List β) (hinit : P before τ)
    (hstep : ∀ k seen τ, k ∈ s.rowSlots i → P seen τ → τ.arrays x = none ∧
      Leaves I fuel body (τ.setScalar x (nat I k)) (P (seen ++ items k)))
    (hrest : ∀ τ, P (before ++ (s.rowSlots i).flatMap items) τ → Leaves I fuel rest τ Q) :
    Leaves I fuel (.forRange x (rowRange ptr row) body rest) τ Q := by
  have hnext := readsInt_add hI (readsInt_name hrow) (readsInt_const (τ := τ) hI 1)
  refine Leaves.visit items P before (hptr.value1 (readsInt_name hrow) (by omega))
    (hptr.value1 (k := i + 1) hnext (by omega)) (hs.mono i hi) hinit ?_ hrest
  intro k seen τ hlo hhi hτ
  exact hstep k seen τ ((s.mem_rowSlots hs hi).2 ⟨hlo, hhi⟩) hτ

/-! ### The walk -/

section Walk

variable {I : Interp V} {elt : K → V} {exprOf : String → Expr} {size : String → Option ℕ}
variable {written : List String} {bufs : Buffers} {fuel : ℕ} {σ τ : State V}
variable {P : List (Entry K) → State V → Prop} {entries : List (Entry K)} {inner : Block}
variable {s : Compressed} {data : ℕ → K} {ext : EntryExtents}

/-- Statements that deal with one entry, bound to `__er`, `__ec` and `__ev`. -/
structure Inner (I : Interp V) (elt : K → V) (fuel : ℕ) (written : List String) (σ : State V)
    (inner : Block) (entries : List (Entry K)) (P : List (Entry K) → State V → Prop) : Prop where
  framed : ∀ seen τ, P seen τ → Framed sparseTemps written σ τ
  setScalar : ∀ seen τ x v, x ∈ sparseTemps → P seen τ → P seen (τ.setScalar x v)
  visit : ∀ seen e τ, e ∈ entries → P seen τ → τ.scalars "__er" = some (nat I e.row) →
    τ.scalars "__ec" = some (nat I e.col) → τ.scalars "__ev" = some (elt e.val) →
    Leaves I fuel inner τ fun τ' => P (seen ++ [e]) τ' ∧ Framed ["__c"] written τ τ'

namespace Inner

variable {seen : List (Entry K)}

theorem noArray (h : Inner I elt fuel written σ inner entries P) (hτ : P seen τ) {x : String}
    (hx : x ∈ sparseTemps) : τ.arrays x = none :=
  (h.framed _ _ hτ).noArray hx

/-- The scalars that an entry's statements may change. -/
def changed : List String := ["__er", "__ec", "__ev", "__c"]

theorem frame (h : Inner I elt fuel written σ inner entries P) (hτ : P seen τ) {temps : List String}
    (htemps : temps ⊆ sparseTemps) :
    Framed temps written τ τ :=
  .refl fun x hx => ⟨h.noArray hτ (htemps hx), ((h.framed _ _ hτ).fresh x (htemps hx)).2⟩

/-- **An entry bound and dealt with.** -/
theorem bindEntry (h : Inner I elt fuel written σ inner entries P) {e : Entry K} (he : e ∈ entries)
    (hτ : P seen τ) {row col value : Expr}
    (hreads : ∀ τ', Framed ["__er", "__ec"] [] τ τ' → ReadsInt I τ' row e.row ∧
      ReadsInt I τ' col e.col ∧ Translate.value I τ' value = some (elt e.val)) :
    Leaves I fuel (SparseEmit.bindEntry row col value inner) τ fun τ' =>
      P (seen ++ [e]) τ' ∧ Framed changed written τ τ' := by
  have hbase : Framed ["__er", "__ec"] [] τ τ :=
    .refl fun x hx => ⟨h.noArray hτ (by revert x; decide), not_mem_nil⟩
  have hchanged : Framed changed written τ τ := h.frame hτ (by decide)
  -- The row, the column and the value.
  refine Leaves.assignName (hreads τ hbase).1 (hbase.noArray (by decide)) ?_
  have hτ₁ := hbase.setScalar (x := "__er") (by decide) (nat I e.row)
  have hP₁ := h.setScalar _ _ "__er" (nat I e.row) (by decide) hτ
  refine Leaves.assignName (hreads _ hτ₁).2.1 (hτ₁.noArray (by decide)) ?_
  have hτ₂ := hτ₁.setScalar (x := "__ec") (by decide) (nat I e.col)
  have hP₂ := h.setScalar _ _ "__ec" (nat I e.col) (by decide) hP₁
  refine Leaves.assignName (hreads _ hτ₂).2.2 (h.noArray hP₂ (by decide)) ?_
  have hP₃ := h.setScalar _ _ "__ev" (elt e.val) (by decide) hP₂
  refine (h.visit seen e _ he hP₃ (by simp) (by simp) State.setScalar_self).mono ?_
  rintro τ' ⟨hP', hτ'⟩
  exact ⟨hP', (((hchanged.setScalar (by decide) _).setScalar (by decide) _).setScalar
    (by decide) _).trans hτ' (by decide) (List.Subset.refl _)⟩

end Inner

theorem leaves_csrEntries (S : Setting I elt exprOf size written bufs (.csr s data) σ)
    (hrows : size ext.rows = some s.outer)
    (h : Inner I elt fuel written σ inner (Storage.csr s data).entries P) (hτ : P [] τ) :
    Leaves I fuel (csrEntries exprOf bufs ext inner) τ (P (Storage.csr s data).entries) := by
  have hs : s.WellFormed := S.wellFormed
  rw [walk_csr] at h ⊢
  refine Leaves.visitAll _ P [] (S.expr _ _ hrows τ (h.framed _ _ hτ)) hτ ?_
  intro i seen τ hi hτ
  refine ⟨h.noArray hτ (by decide), ?_⟩
  have hτ₁ := h.setScalar _ _ "__ei" (nat I i) (by decide) hτ
  have hcsr : HasCsr I elt _ bufs s data := S.storage (h.framed _ _ hτ₁)
  refine leaves_rowSlots S.arith hcsr.indptr State.setScalar_self hi hs _
    (fun seen τ => P seen τ ∧ τ.scalars "__ei" = some (nat I i)) _ ⟨hτ₁, State.setScalar_self⟩ ?_
    fun τ hτ => .done hτ.1
  rintro k seen τ hk ⟨hτ, hei⟩
  refine ⟨h.noArray hτ (by decide), ?_⟩
  have hτ₂ := h.setScalar _ _ "__ek" (nat I k) (by decide) hτ
  have hei₂ : (τ.setScalar "__ek" (nat I k)).scalars "__ei" = some (nat I i) :=
    (State.setScalar_of_ne (by decide)).trans hei
  have hentry : (⟨i, s.indices k, data k⟩ : Entry K) ∈ (List.range s.outer).flatMap fun i =>
      (s.rowSlots i).flatMap fun k => [⟨i, s.indices k, data k⟩] :=
    mem_flatMap.2 ⟨i, mem_range.2 hi,
      mem_flatMap.2 ⟨k, hk, mem_singleton_self _⟩⟩
  refine (h.bindEntry hentry hτ₂ fun τ' hτ' => ?_).mono ?_
  · have hek := (hτ'.scalars "__ek" (by decide)).trans State.setScalar_self
    have hcsr : HasCsr I elt τ' bufs s data :=
      S.storage ((h.framed _ _ hτ₂).trans hτ' (by decide) (by simp))
    have hslot := hs.slot_lt hi hk
    exact ⟨readsInt_name ((hτ'.scalars "__ei" (by decide)).trans hei₂),
      hcsr.indices.value1 (readsInt_name hek) hslot, hcsr.data.value1 (readsInt_name hek) hslot⟩
  · rintro τ' ⟨hP', hτ'⟩
    exact ⟨hP', (hτ'.scalars "__ei" (by decide)).trans hei₂⟩

theorem leaves_cscEntries (S : Setting I elt exprOf size written bufs (.csc s data) σ)
    (hcols : size ext.cols = some s.outer)
    (h : Inner I elt fuel written σ inner (Storage.csc s data).entries P) (hτ : P [] τ) :
    Leaves I fuel (cscEntries exprOf bufs ext inner) τ (P (Storage.csc s data).entries) := by
  have hs : s.WellFormed := S.wellFormed
  rw [walk_csc] at h ⊢
  refine Leaves.visitAll _ P [] (S.expr _ _ hcols τ (h.framed _ _ hτ)) hτ ?_
  intro j seen τ hj hτ
  refine ⟨h.noArray hτ (by decide), ?_⟩
  have hτ₁ := h.setScalar _ _ "__ej" (nat I j) (by decide) hτ
  have hcsc : HasCsr I elt _ bufs s data := S.storage (h.framed _ _ hτ₁)
  refine leaves_rowSlots S.arith hcsc.indptr State.setScalar_self hj hs _
    (fun seen τ => P seen τ ∧ τ.scalars "__ej" = some (nat I j)) _ ⟨hτ₁, State.setScalar_self⟩ ?_
    fun τ hτ => .done hτ.1
  rintro k seen τ hk ⟨hτ, hej⟩
  refine ⟨h.noArray hτ (by decide), ?_⟩
  have hτ₂ := h.setScalar _ _ "__ek" (nat I k) (by decide) hτ
  have hej₂ : (τ.setScalar "__ek" (nat I k)).scalars "__ej" = some (nat I j) :=
    (State.setScalar_of_ne (by decide)).trans hej
  have hentry : (⟨s.indices k, j, data k⟩ : Entry K) ∈ (List.range s.outer).flatMap fun j =>
      (s.rowSlots j).flatMap fun k => [⟨s.indices k, j, data k⟩] :=
    mem_flatMap.2 ⟨j, mem_range.2 hj,
      mem_flatMap.2 ⟨k, hk, mem_singleton_self _⟩⟩
  refine (h.bindEntry hentry hτ₂ fun τ' hτ' => ?_).mono ?_
  · have hek := (hτ'.scalars "__ek" (by decide)).trans State.setScalar_self
    have hcsc : HasCsr I elt τ' bufs s data :=
      S.storage ((h.framed _ _ hτ₂).trans hτ' (by decide) (by simp))
    have hslot := hs.slot_lt hj hk
    exact ⟨hcsc.indices.value1 (readsInt_name hek) hslot,
      readsInt_name ((hτ'.scalars "__ej" (by decide)).trans hej₂),
      hcsc.data.value1 (readsInt_name hek) hslot⟩
  · rintro τ' ⟨hP', hτ'⟩
    exact ⟨hP', (hτ'.scalars "__ej" (by decide)).trans hej₂⟩

theorem leaves_cooEntries {s : Coordinates}
    (S : Setting I elt exprOf size written bufs (.coo s data) σ)
    (hcount : size ext.count = some s.slots)
    (h : Inner I elt fuel written σ inner (Storage.coo s data).entries P) (hτ : P [] τ) :
    Leaves I fuel (cooEntries exprOf bufs ext inner) τ (P (Storage.coo s data).entries) := by
  rw [walk_coo] at h ⊢
  refine Leaves.visitAll _ P [] (S.expr _ _ hcount τ (h.framed _ _ hτ)) hτ ?_
  intro k seen τ hk hτ
  refine ⟨h.noArray hτ (by decide), ?_⟩
  have hτ₁ := h.setScalar _ _ "__ek" (nat I k) (by decide) hτ
  have hentry : (⟨s.row k, s.col k, data k⟩ : Entry K) ∈
      (List.range s.slots).flatMap fun k => [⟨s.row k, s.col k, data k⟩] :=
    mem_flatMap.2 ⟨k, mem_range.2 hk, mem_singleton_self _⟩
  refine (h.bindEntry hentry hτ₁ fun τ' hτ' => ?_).mono fun τ' hτ' => hτ'.1
  have hek := readsInt_name (I := I) ((hτ'.scalars "__ek" (by decide)).trans State.setScalar_self)
  obtain ⟨hrow, hcol, hdata⟩ := S.storage ((h.framed _ _ hτ₁).trans hτ' (by decide) (by simp))
  exact ⟨hrow.value1 hek hk, hcol.value1 hek hk, hdata.value1 hek hk⟩

theorem leaves_bcsrEntries {r c : ℕ} {data : ℕ → ℕ → ℕ → K}
    (S : Setting I elt exprOf size written bufs (.bcsr s r c data) σ)
    (hcount : size ext.count = some s.outer) (hr : size ext.blockRows = some r)
    (hc : size ext.blockCols = some c)
    (h : Inner I elt fuel written σ inner (Storage.bcsr s r c data).entries P) (hτ : P [] τ) :
    Leaves I fuel (bcsrEntries exprOf bufs ext inner) τ (P (Storage.bcsr s r c data).entries) := by
  have hs : s.WellFormed := S.wellFormed
  have hI := S.arith
  rw [walk_bcsr] at h ⊢
  refine Leaves.visitAll _ P [] (S.expr _ _ hcount τ (h.framed _ _ hτ)) hτ ?_
  intro bi seen τ hbi hτ
  refine ⟨h.noArray hτ (by decide), ?_⟩
  have hτ₁ := h.setScalar _ _ "__eb" (nat I bi) (by decide) hτ
  obtain ⟨hptr, -, -⟩ := S.storage (h.framed _ _ hτ₁)
  refine leaves_rowSlots hI hptr State.setScalar_self hbi hs _
    (fun seen τ => P seen τ ∧ τ.scalars "__eb" = some (nat I bi)) _ ⟨hτ₁, State.setScalar_self⟩ ?_
    fun τ hτ => .done hτ.1
  rintro k seen τ hk ⟨hτ, heb⟩
  refine ⟨h.noArray hτ (by decide), ?_⟩
  have hτ₂ := h.setScalar _ _ "__ek" (nat I k) (by decide) hτ
  obtain ⟨-, hindices, -⟩ := S.storage (h.framed _ _ hτ₂)
  have hslot := hs.slot_lt hbi hk
  refine Leaves.assignName (hindices.value1 (readsInt_name State.setScalar_self) hslot)
    (h.noArray hτ₂ (by decide)) ?_
  have hτ₃ := h.setScalar _ _ "__ebj" (nat I (s.indices k)) (by decide) hτ₂
  -- The elements of the block.
  let Block (seen : List (Entry K)) (τ : State V) : Prop := P seen τ ∧
    τ.scalars "__eb" = some (nat I bi) ∧ τ.scalars "__ek" = some (nat I k) ∧
    τ.scalars "__ebj" = some (nat I (s.indices k))
  have hblock : Block seen ((τ.setScalar "__ek" (nat I k)).setScalar "__ebj"
      (nat I (s.indices k))) :=
    ⟨hτ₃, (State.setScalar_of_ne (by decide)).trans
      ((State.setScalar_of_ne (by decide)).trans heb),
      (State.setScalar_of_ne (by decide)).trans State.setScalar_self, State.setScalar_self⟩
  refine (Leaves.visitAll (fun a => (List.range c).flatMap fun b =>
    [(⟨bi * r + a, s.indices k * c + b, data k a b⟩ : Entry K)]) Block seen
    (S.expr _ _ hr _ (h.framed _ _ hτ₃)) hblock ?_).mono fun τ hτ => ⟨hτ.1, hτ.2.1⟩
  rintro a seen τ ha ⟨hτ, heb, hek, hebj⟩
  refine ⟨h.noArray hτ (by decide), ?_⟩
  have hτ₄ := h.setScalar _ _ "__ea" (nat I a) (by decide) hτ
  refine (Leaves.visitAll _ (fun seen τ => Block seen τ ∧ τ.scalars "__ea" = some (nat I a)) seen
    (S.expr _ _ hc _ (h.framed _ _ hτ₄)) ⟨⟨hτ₄, ?_, ?_, ?_⟩, State.setScalar_self⟩ ?_).mono
      fun τ hτ => hτ.1
  · exact (State.setScalar_of_ne (by decide)).trans heb
  · exact (State.setScalar_of_ne (by decide)).trans hek
  · exact (State.setScalar_of_ne (by decide)).trans hebj
  rintro b seen τ hb ⟨⟨hτ, heb, hek, hebj⟩, hea⟩
  refine ⟨h.noArray hτ (by decide), ?_⟩
  have hτ₅ := h.setScalar _ _ "__ed" (nat I b) (by decide) hτ
  have hentry : (⟨bi * r + a, s.indices k * c + b, data k a b⟩ : Entry K) ∈
      (List.range s.outer).flatMap fun bi =>
        (s.rowSlots bi).flatMap fun k => blockEntries r c bi (s.indices k) (data k) :=
    mem_flatMap.2 ⟨bi, mem_range.2 hbi, mem_flatMap.2 ⟨k, hk,
      mem_flatMap.2 ⟨a, mem_range.2 ha, mem_flatMap.2
        ⟨b, mem_range.2 hb, mem_singleton_self _⟩⟩⟩⟩
  have hkept : ∀ x v, x ≠ "__ed" → τ.scalars x = some v →
      (τ.setScalar "__ed" (nat I b)).scalars x = some v :=
    fun x v hx hv => (State.setScalar_of_ne hx).trans hv
  refine (h.bindEntry hentry hτ₅ fun τ' hτ' => ?_).mono ?_
  · have hframe := (h.framed _ _ hτ₅).trans hτ' (by decide) (by simp)
    have reads : ∀ x ∉ ["__er", "__ec"], ∀ n : ℕ,
        (τ.setScalar "__ed" (nat I b)).scalars x = some (nat I n) → ReadsInt I τ' (.name x) n :=
      fun x hx n hn => readsInt_name ((hτ'.scalars x hx).trans hn)
    obtain ⟨-, -, hdata⟩ := S.storage hframe
    have hr' := S.expr _ _ hr τ' hframe
    have hc' := S.expr _ _ hc τ' hframe
    refine ⟨?_, ?_, ?_⟩
    · exact readsInt_add hI (readsInt_mul hI
        (reads "__eb" (by decide) bi (hkept _ _ (by decide) heb)) hr')
        (reads "__ea" (by decide) a (hkept _ _ (by decide) hea))
    · exact readsInt_add hI (readsInt_mul hI (reads "__ebj" (by decide) _
        (hkept _ _ (by decide) hebj)) hc') (reads "__ed" (by decide) b State.setScalar_self)
    · exact hdata.value3 (reads "__ek" (by decide) k (hkept _ _ (by decide) hek))
        (reads "__ea" (by decide) a (hkept _ _ (by decide) hea))
        (reads "__ed" (by decide) b State.setScalar_self) hslot ha hb
  · rintro τ' ⟨hP', hτ'⟩
    have kept : ∀ x ∉ Inner.changed, x ≠ "__ed" → ∀ v, τ.scalars x = some v →
        τ'.scalars x = some v :=
      fun x hx hne v hv => (hτ'.scalars x hx).trans (hkept x v hne hv)
    exact ⟨⟨hP', kept _ (by decide) (by decide) _ heb, kept _ (by decide) (by decide) _ hek,
      kept _ (by decide) (by decide) _ hebj⟩, kept _ (by decide) (by decide) _ hea⟩

theorem leaves_diaEntries {s : Diagonals K} (S : Setting I elt exprOf size written bufs (.dia s) σ)
    (hcount : size ext.count = some s.count) (hrows : size ext.rows = some s.rows)
    (hcols : size ext.cols = some s.cols) (h : Inner I elt fuel written σ inner s.entries P)
    (hτ : P [] τ) :
    Leaves I fuel (diaEntries exprOf bufs ext inner) τ (P s.entries) := by
  have hI := S.arith
  rw [Diagonals.entries] at h ⊢
  refine Leaves.visitAll _ P [] (S.expr _ _ hcount τ (h.framed _ _ hτ)) hτ ?_
  intro d seen τ hd hτ
  refine ⟨h.noArray hτ (by decide), ?_⟩
  have hτ₁ := h.setScalar _ _ "__ed" (nat I d) (by decide) hτ
  obtain ⟨hoffsets, -⟩ := S.storage (h.framed _ _ hτ₁)
  refine Leaves.assignName (hoffsets.value1 (readsInt_name State.setScalar_self) hd)
    (h.noArray hτ₁ (by decide)) ?_
  have hτ₂ := h.setScalar _ _ "__eo" (I.ofInt (s.offsets d)) (by decide) hτ₁
  refine (Leaves.visitAll _ (fun seen τ => P seen τ ∧ τ.scalars "__ed" = some (nat I d) ∧
    τ.scalars "__eo" = some (I.ofInt (s.offsets d))) seen (S.expr _ _ hrows _ (h.framed _ _ hτ₂))
    ⟨hτ₂, (State.setScalar_of_ne (by decide)).trans State.setScalar_self, State.setScalar_self⟩
    ?_).mono fun τ hτ => hτ.1
  rintro i seen τ hi ⟨hτ, hed, heo⟩
  refine ⟨h.noArray hτ (by decide), ?_⟩
  have hτ₃ := h.setScalar _ _ "__ei" (nat I i) (by decide) hτ
  have heo₃ : (τ.setScalar "__ei" (nat I i)).scalars "__eo" = some (I.ofInt (s.offsets d)) :=
    (State.setScalar_of_ne (by decide)).trans heo
  refine Leaves.assignName (readsInt_add hI (readsInt_name State.setScalar_self)
    (readsInt_name heo₃)) (h.noArray hτ₃ (by decide)) ?_
  have hτ₄ := h.setScalar _ _ "__ec" (I.ofInt (i + s.offsets d)) (by decide) hτ₃
  obtain ⟨υ, hυ⟩ : ∃ υ, υ = (τ.setScalar "__ei" (nat I i)).setScalar "__ec"
    (I.ofInt (i + s.offsets d)) := ⟨_, rfl⟩
  have hei : υ.scalars "__ei" = some (nat I i) := by
    rw [hυ, State.setScalar_of_ne (by decide), State.setScalar_self]
  have hec : υ.scalars "__ec" = some (I.ofInt (i + s.offsets d)) := by
    rw [hυ, State.setScalar_self]
  have hkept : υ.scalars "__ed" = some (nat I d) ∧
      υ.scalars "__eo" = some (I.ofInt (s.offsets d)) := by
    rw [hυ, State.setScalar_of_ne (by decide), State.setScalar_of_ne (by decide),
      State.setScalar_of_ne (by decide), State.setScalar_of_ne (by decide)]
    exact ⟨hed, heo⟩
  rw [← hυ] at hτ₄
  change Leaves I fuel _ ((τ.setScalar "__ei" (nat I i)).setScalar "__ec" _) _
  rw [← hυ]
  obtain ⟨t, ht, htruth⟩ := value_onMatrix hI (readsInt_name hec)
    (S.expr _ _ hcols υ (h.framed _ _ hτ₄))
  refine Leaves.guard ht htruth ?_ ?_ fun τ hτ => .done hτ
  · intro hin
    rw [if_pos hin]
    -- On the matrix, the column is a number.
    obtain ⟨j, hj⟩ : ∃ j : ℕ, (i : ℤ) + s.offsets d = j := ⟨_, (Int.toNat_of_nonneg hin.1).symm⟩
    have hjc : j < s.cols := by have := hin.2; omega
    have hentry : (⟨i, j, s.data d j⟩ : Entry K) ∈ (List.range s.count).flatMap fun d =>
        (List.range s.rows).flatMap fun (i : ℕ) =>
          if 0 ≤ i + s.offsets d ∧ i + s.offsets d < s.cols then
            [⟨i, (i + s.offsets d).toNat, s.data d (i + s.offsets d).toNat⟩]
          else [] := by
      refine mem_flatMap.2 ⟨d, mem_range.2 hd, mem_flatMap.2
        ⟨i, mem_range.2 hi, ?_⟩⟩
      rw [if_pos hin, hj]
      exact mem_singleton_self _
    rw [hj, Int.toNat_natCast]
    rw [hj] at hec
    refine Leaves.assignName (value_name hei) (h.noArray hτ₄ (by decide)) ?_
    have hτ₅ := h.setScalar _ _ "__er" (nat I i) (by decide) hτ₄
    have hed₅ := hkept.1
    have hec₅ := hec
    rw [← State.setScalar_of_ne (v := nat I i) (show "__ed" ≠ "__er" by decide)] at hed₅
    rw [← State.setScalar_of_ne (v := nat I i) (show "__ec" ≠ "__er" by decide)] at hec₅
    obtain ⟨-, hdata⟩ := S.storage (h.framed _ _ hτ₅)
    refine Leaves.assignName (hdata.value2 (i := d) (j := j) (readsInt_name hed₅)
      (readsInt_name hec₅) hd hjc) (h.noArray hτ₅ (by decide)) ?_
    have hτ₆ := h.setScalar _ _ "__ev" (elt (s.data d j)) (by decide) hτ₅
    refine (h.visit seen ⟨i, j, s.data d j⟩ _ hentry hτ₆ ?_ ?_ State.setScalar_self).mono ?_
    · exact (State.setScalar_of_ne (by decide)).trans State.setScalar_self
    · exact (State.setScalar_of_ne (by decide)).trans hec₅
    · rintro τ' ⟨hP', hτ'⟩
      refine ⟨hP', ?_, ?_⟩
      · rw [hτ'.scalars _ (by decide), State.setScalar_of_ne (by decide), hed₅]
      · rw [hτ'.scalars _ (by decide), State.setScalar_of_ne (by decide),
          State.setScalar_of_ne (by decide), hkept.2]
  · intro hout
    rw [if_neg hout, append_nil]
    exact ⟨hτ₄, hkept⟩

theorem leaves_ellEntries {s : Padded K} (S : Setting I elt exprOf size written bufs (.ell s) σ)
    (hcount : size ext.count = some s.width) (hrows : size ext.rows = some s.rows)
    (h : Inner I elt fuel written σ inner s.entries P) (hτ : P [] τ) :
    Leaves I fuel (ellEntries exprOf bufs ext inner) τ (P s.entries) := by
  have hI := S.arith
  rw [Padded.entries] at h ⊢
  refine Leaves.visitAll _ P [] (S.expr _ _ hrows τ (h.framed _ _ hτ)) hτ ?_
  intro i seen τ hi hτ
  refine ⟨h.noArray hτ (by decide), ?_⟩
  have hτ₁ := h.setScalar _ _ "__ei" (nat I i) (by decide) hτ
  refine (Leaves.visitAll _ (fun seen τ => P seen τ ∧ τ.scalars "__ei" = some (nat I i)) seen
    (S.expr _ _ hcount _ (h.framed _ _ hτ₁)) ⟨hτ₁, State.setScalar_self⟩ ?_).mono fun τ hτ => hτ.1
  rintro j seen τ hj ⟨hτ, hei⟩
  refine ⟨h.noArray hτ (by decide), ?_⟩
  have hτ₂ := h.setScalar _ _ "__es" (nat I j) (by decide) hτ
  have hei₂ : (τ.setScalar "__es" (nat I j)).scalars "__ei" = some (nat I i) :=
    (State.setScalar_of_ne (by decide)).trans hei
  obtain ⟨hindices, -⟩ := S.storage (h.framed _ _ hτ₂)
  refine Leaves.assignName (hindices.value2 (readsInt_name hei₂)
    (readsInt_name State.setScalar_self) hi hj) (h.noArray hτ₂ (by decide)) ?_
  have hτ₃ := h.setScalar _ _ "__ec" (I.ofInt (s.indices i j)) (by decide) hτ₂
  obtain ⟨υ, hυ⟩ : ∃ υ, υ = (τ.setScalar "__es" (nat I j)).setScalar "__ec"
    (I.ofInt (s.indices i j)) := ⟨_, rfl⟩
  have heiυ : υ.scalars "__ei" = some (nat I i) := by
    rw [hυ, State.setScalar_of_ne (by decide), hei₂]
  have hesυ : υ.scalars "__es" = some (nat I j) := by
    rw [hυ, State.setScalar_of_ne (by decide), State.setScalar_self]
  have hecυ : υ.scalars "__ec" = some (I.ofInt (s.indices i j)) := by
    rw [hυ, State.setScalar_self]
  rw [← hυ] at hτ₃
  change Leaves I fuel _ ((τ.setScalar "__es" (nat I j)).setScalar "__ec" _) _
  rw [← hυ]
  obtain ⟨t, ht, htruth⟩ := value_compare hI ">=" (by decide) (readsInt_name hecυ)
    (readsInt_const hI 0)
  refine Leaves.guard (φ := 0 ≤ s.indices i j) ht htruth ?_ ?_ fun τ hτ => .done hτ
  · intro hin
    rw [if_pos hin]
    obtain ⟨col, hcol⟩ : ∃ col : ℕ, s.indices i j = col := ⟨_, (Int.toNat_of_nonneg hin).symm⟩
    have hentry : (⟨i, col, s.data i j⟩ : Entry K) ∈ (List.range s.rows).flatMap fun i =>
        (List.range s.width).flatMap fun j =>
          if 0 ≤ s.indices i j then [⟨i, (s.indices i j).toNat, s.data i j⟩] else [] := by
      refine mem_flatMap.2 ⟨i, mem_range.2 hi, mem_flatMap.2
        ⟨j, mem_range.2 hj, ?_⟩⟩
      rw [if_pos hin, hcol]
      exact mem_singleton_self _
    rw [hcol, Int.toNat_natCast]
    rw [hcol] at hecυ
    refine Leaves.assignName (value_name heiυ) (h.noArray hτ₃ (by decide)) ?_
    have hτ₄ := h.setScalar _ _ "__er" (nat I i) (by decide) hτ₃
    have kept : ∀ x ≠ "__er", ∀ v, υ.scalars x = some v →
        (υ.setScalar "__er" (nat I i)).scalars x = some v :=
      fun x hx v hv => (State.setScalar_of_ne hx).trans hv
    obtain ⟨-, hdata⟩ := S.storage (h.framed _ _ hτ₄)
    refine Leaves.assignName (hdata.value2 (readsInt_name (kept _ (by decide) _ heiυ))
      (readsInt_name (kept _ (by decide) _ hesυ)) hi hj) (h.noArray hτ₄ (by decide)) ?_
    have hτ₅ := h.setScalar _ _ "__ev" (elt (s.data i j)) (by decide) hτ₄
    refine (h.visit seen ⟨i, col, s.data i j⟩ _ hentry hτ₅ ?_ ?_ State.setScalar_self).mono ?_
    · exact (State.setScalar_of_ne (by decide)).trans State.setScalar_self
    · exact (State.setScalar_of_ne (by decide)).trans (kept _ (by decide) _ hecυ)
    · rintro τ' ⟨hP', hτ'⟩
      refine ⟨hP', ?_⟩
      rw [hτ'.scalars _ (by decide), State.setScalar_of_ne (by decide),
        kept _ (by decide) _ heiυ]
  · intro hout
    rw [if_neg hout, append_nil]
    exact ⟨hτ₃, heiυ⟩

end Walk

end SparseEmit

end Translate

end HpcAgentBench
