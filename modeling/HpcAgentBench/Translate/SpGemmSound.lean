import HpcAgentBench.Translate.SpGemm

/-!
# The result of the two-pass product

The rows that the numeric pass drains, laid out one after another as the symbolic pass counted them,
are a matrix of compressed rows.

## Main results

* `dense_productMatrix` : the matrix is `A @ B`.
* `spgemm_sound` : **the emitted statements leave that matrix**, each row drained into the slots
  that were counted for it, no column twice.
-/

namespace HpcAgentBench

open List

namespace Translate

namespace SparseEmit

/-! ### The matrix -/

/-- Rows laid out one after another. -/
theorem getElem?_rows {α : Type*} (r : ℕ → List α) {i n e : ℕ} (hi : i < n)
    (he : e < (r i).length) :
    ((List.range n).flatMap r)[((List.range i).flatMap r).length + e]? = (r i)[e]? := by
  obtain ⟨m, rfl⟩ : ∃ m, n = i + 1 + m := ⟨n - (i + 1), by omega⟩
  rw [range_add, flatMap_append, range_succ, flatMap_append,
    flatMap_singleton, append_assoc, getElem?_append_right (by omega),
    Nat.add_sub_cancel_left, getElem?_append_left he]

section Product

variable {K : Type} [Semiring K] (A B : Compressed) (aData bData : ℕ → K)

/-- A row of the result: its columns, each with what it adds up to. -/
def rowEntries (i : ℕ) : List (ℕ × K) :=
  (rowCols A B i).map fun k => (k, rowTotal A B aData bData i k)

/-- The slots of the result. -/
def productSlots : List (ℕ × K) := (List.range A.outer).flatMap (rowEntries A B aData bData)

/-- The result. -/
def productMatrix : Compressed where
  outer := A.outer
  inner := B.inner
  slots := rowStart A B A.outer
  indptr := rowStart A B
  indices p := (((productSlots A B aData bData)[p]?).map Prod.fst).getD 0

/-- Its values. -/
def productData (p : ℕ) : K := (((productSlots A B aData bData)[p]?).map Prod.snd).getD 0

variable {A B aData bData}
variable {i : ℕ}

theorem length_rowEntries (n : ℕ) :
    ((List.range n).flatMap (rowEntries A B aData bData)).length = rowStart A B n := by
  simp only [rowStart, rowEntries, length_flatMap, length_map]

theorem productSlots_getElem? {e : ℕ} (hi : i < A.outer) (he : e < (rowCols A B i).length) :
    (productSlots A B aData bData)[rowStart A B i + e]? =
      some ((rowCols A B i)[e], rowTotal A B aData bData i (rowCols A B i)[e]) := by
  have hrow := getElem?_rows (rowEntries A B aData bData) hi (e := e)
    (by rwa [rowEntries, length_map])
  rw [length_rowEntries] at hrow
  rw [productSlots, hrow, rowEntries, getElem?_map, getElem?_eq_getElem he]
  rfl

/-- **A row of the result.** -/
theorem map_rowSlots (aData bData : ℕ → K) (hi : i < A.outer) :
    ((productMatrix A B aData bData).rowSlots i).map (fun p =>
      ((productMatrix A B aData bData).indices p, productData A B aData bData p)) =
      rowEntries A B aData bData i := by
  have hlength : (productMatrix A B aData bData).rowSlots i =
      List.range' (rowStart A B i) (rowCols A B i).length := by
    rw [Compressed.rowSlots]
    simp only [productMatrix, rowStart_succ, Nat.add_sub_cancel_left]
  rw [hlength, rowEntries]
  refine ext_getElem (by simp) fun e he he' => ?_
  have he : e < (rowCols A B i).length := by simpa using he
  rw [getElem_map, getElem_map, getElem_range', Nat.one_mul]
  simp only [productMatrix, productData, productSlots_getElem? hi he, Option.map_some,
    Option.getD_some]

theorem map_indices (aData bData : ℕ → K) (hi : i < A.outer) :
    ((productMatrix A B aData bData).rowSlots i).map
      (productMatrix A B aData bData).indices = rowCols A B i := by
  have hrow := congrArg (List.map Prod.fst) (map_rowSlots (B := B) aData bData hi)
  rw [map_map, rowEntries, map_map] at hrow
  exact hrow.trans (map_id _)

theorem productMatrix_wellFormed (hA : A.WellFormed) (hB : B.WellFormed)
    (hinner : A.inner = B.outer) :
    (productMatrix A B aData bData).WellFormed where
  mono i _ := rowStart_mono (Nat.le_succ i)
  last _ hi := rowStart_mono hi
  inner i hi p hlo hhi := by
    have hi : i < A.outer := hi
    have hmem : (productMatrix A B aData bData).indices p ∈ rowCols A B i := by
      rw [← map_indices aData bData hi]
      refine mem_map_of_mem ?_
      rw [Compressed.rowSlots, mem_range'_1]
      omega
    obtain ⟨q, hq, hcol⟩ := mem_map.1 (mem_enlisted.1 hmem)
    rw [← hcol]
    exact productCol_lt hA hB hinner hi hq

/-- What a column of a row adds up to is the dense product. -/
theorem rowTotal_eq (hA : A.WellFormed) (hinner : A.inner = B.outer) (hi : i < A.outer) (j : ℕ) :
    rowTotal A B aData bData i j = mulVec A.inner (dense (Storage.csr A aData).entries)
      (fun m => dense (Storage.csr B bData).entries m j) i := by
  have hcol : ∀ i < A.outer, ∀ jj ∈ A.rowSlots i, A.indices jj < A.inner := fun i hi jj hjj =>
    have ⟨hlo, hhi⟩ := (A.mem_rowSlots hA hi).1 hjj
    hA.inner i hi jj hlo hhi
  have hcols : ∀ e ∈ (Storage.csr A aData).entries, e.col < A.inner := by
    intro e he
    rw [entries_csr] at he
    obtain ⟨i', hi', he⟩ := mem_flatMap.1 he
    obtain ⟨jj, hjj, rfl⟩ := mem_map.1 he
    exact hcol i' (mem_range.1 hi') jj hjj
  rw [← gather_row hcols, entries_csr A, gather_rows, if_pos hi, rowTotal, products, gather_flatMap,
    map_map]
  · refine congrArg List.sum (map_congr_left fun jj hjj => ?_)
    -- The products with the row of `B` that a slot selects.
    rw [gather_map]
    refine (gather_mul_left B.indices bData (aData jj) _ j).trans ?_
    rw [← dense_csr B bData (hinner ▸ hcol i hi jj hjj)]
    rfl
  · intro i' e he
    obtain ⟨k, -, rfl⟩ := mem_map.1 he
    rfl

/-- **The result is `A @ B`.** -/
theorem dense_productMatrix (hA : A.WellFormed) (hinner : A.inner = B.outer) (hi : i < A.outer)
    (j : ℕ) :
    dense (Storage.csr (productMatrix A B aData bData)
      (productData A B aData bData)).entries i j =
      mulVec A.inner (dense (Storage.csr A aData).entries)
        (fun m => dense (Storage.csr B bData).entries m j) i := by
  rw [dense_csr _ _ (show i < (productMatrix A B aData bData).outer from hi),
    ← rowTotal_eq hA hinner hi]
  have hrow := gather_map (K := K) (fun p => ((productMatrix A B aData bData).indices p,
    productData A B aData bData p)) Prod.fst Prod.snd
    ((productMatrix A B aData bData).rowSlots i)
  rw [map_rowSlots aData bData hi, rowEntries, gather_map] at hrow
  refine (congrFun hrow j).symm.trans ?_
  by_cases hj : j ∈ rowCols A B i
  · exact gather_nodup (nodup_enlisted _) (rowTotal A B aData bData i) hj
  · refine (gather_of_not_mem _ fun k hk (hkj : k = j) => hj (hkj ▸ hk)).trans
      (gather_of_not_mem _ fun p hp hpj => hj ?_).symm
    exact mem_enlisted.2 (mem_map.2 ⟨p, hp, hpj⟩)

end Product

/-! ### The passes -/

section Passes

variable {V K : Type} [Semiring K] {I : Interp V} {elt : K → V} {lhs rhs out : Buffers}
variable {nRows nCols : String} {A B : Compressed} {aData bData : ℕ → K} {room fuel : ℕ}
variable {σ τ υ : State V}
variable {i : ℕ} {f g : ℕ → V}

/-- The symbolic pass, and what comes before it. -/
def symbolicPass (lhs rhs out : Buffers) (nRows nCols : String) : Block :=
  .assign [place (out "indptr") [.const (.int 0)]] (.const (.int 0))
    (.forRange "__i" (rangeCall none (.name nRows)) (pass1Row lhs rhs out nCols) .done)

/-- The buffers of the result and the scratch arrays, whatever they hold. -/
structure HasOutput (out : Buffers) (A B : Compressed) (room : ℕ) (σ : State V) : Prop where
  indptr : ∃ f, Has id σ (out "indptr") [A.outer + 1] f
  indices : ∃ f, Has id σ (out "indices") [room] f
  data : ∃ f, Has id σ (out "data") [room] f
  mark : ∃ f, Has id σ mark [B.inner] f
  acc : ∃ f, Has id σ acc [B.inner] f

/-- The store after some rows have been counted. -/
structure Counted (I : Interp V) (out : Buffers) (A B : Compressed) (σ : State V) (i : ℕ)
    (τ : State V) : Prop where
  framed : Framed spgemmTemps [mark, out "indptr"] σ τ
  mark : ∃ f, Has id τ mark [B.inner] f
  indptr : ∃ ptr, Has id τ (out "indptr") [A.outer + 1] (at1 ptr) ∧
    ∀ i' ≤ i, ptr i' = nat I (rowStart A B i')

/-- What the three buffers and the two scratch arrays are called. -/
theorem Multiplies.names (h : Multiplies I elt lhs rhs out nRows nCols A B aData bData room) :
    out "indptr" ≠ out "indices" ∧ out "indptr" ≠ out "data" ∧
    out "indptr" ∉ [mark, acc] ∧ out "indices" ∉ [mark, acc] ∧ out "data" ∉ [mark, acc] := by
  have hnodup := h.nodup
  simp only [spgemmWritten, nodup_cons, mem_cons, not_or] at hnodup
  simp only [mem_cons, not_or]
  tauto

theorem symbolic_step (h : Multiplies I elt lhs rhs out nRows nCols A B aData bData room)
    (hσ : Ready I elt lhs rhs nRows nCols A B aData bData σ) (hi : i < A.outer)
    (hτ : Counted I out A B σ i τ) :
    τ.arrays "__i" = none ∧
      Leaves I fuel (pass1Row lhs rhs out nCols) (τ.setScalar "__i" (nat I i))
        (Counted I out A B σ (i + 1)) := by
  have hwritten : [mark, out "indptr"] ⊆ spgemmWritten out := by simp [spgemmWritten]
  have hnone := hτ.framed.noArray (x := "__i") (by decide)
  have hτ₁ := hτ.framed.setScalar (x := "__i") (by decide) (nat I i)
  obtain ⟨ptr, hptr, hstarts⟩ := hτ.indptr
  obtain ⟨f, hmark⟩ := hτ.mark
  refine ⟨hnone, (leaves_pass1Row h (hσ.keep h hτ₁ (by simp) hwritten) hi State.setScalar_self
    (hmark.setScalar hnone _) (hptr.setScalar hnone _) (hstarts i (Nat.le_refl i))).mono ?_⟩
  rintro υ ⟨hυ, hmark', hptr'⟩
  refine ⟨hτ₁.trans hυ (by decide) (by simp), hmark', _, hptr', fun i' hi' => ?_⟩
  by_cases hlast : i' = i + 1
  · rw [hlast, Function.update_self]
  · rw [Function.update_of_ne hlast]
    exact hstarts i' (by omega)

/-- **The symbolic pass leaves the row pointers of the result.** -/
theorem exec_symbolicPass (fuel : ℕ)
    (h : Multiplies I elt lhs rhs out nRows nCols A B aData bData room)
    (hσ : Ready I elt lhs rhs nRows nCols A B aData bData σ) (hout : HasOutput out A B room σ) :
    ∃ counted, exec I fuel (symbolicPass lhs rhs out nRows nCols) σ = some (counted, .next) ∧
      (∀ rest, exec I fuel (.assign [place (out "indptr") [.const (.int 0)]] (.const (.int 0))
        (.forRange "__i" (rangeCall none (.name nRows)) (pass1Row lhs rhs out nCols) rest)) σ =
          exec I fuel rest counted) ∧
      Framed spgemmTemps [mark, out "indptr"] σ counted ∧
      (∃ f, Has id counted mark [B.inner] f) ∧
      Has (nat I) counted (out "indptr") [A.outer + 1] (at1 (rowStart A B)) := by
  have hI := h.arith
  have hwritten : [mark, out "indptr"] ⊆ spgemmWritten out := by simp [spgemmWritten]
  obtain ⟨f, hindptr⟩ := hout.indptr
  obtain ⟨g, hmark⟩ := hout.mark
  have hne : out "indptr" ∉ [mark, acc] := h.names.2.2.1
  have hat : List.Forall₂ (fun e (i : ℕ) => ReadsInt I σ e i) [.const (.int 0)] [0] :=
    .cons (readsInt_const hI 0) .nil
  obtain ⟨a, hstore, hindptr'⟩ :=
    hindptr.store hat (mem_box_singleton.2 (Nat.succ_pos _)) (nat I 0)
  have hfirst : ∀ rest, exec I fuel (.assign [place (out "indptr") [.const (.int 0)]]
      (.const (.int 0)) rest) σ = exec I fuel rest (σ.setArray (out "indptr") a) :=
    exec_assign (readsInt_const hI 0) hstore
  have hσ₁ := (hσ.framed h (List.Subset.refl _) hwritten).setArray (A := out "indptr") (by simp) a
  have hnRows := (hσ.keep h hσ₁ (List.Subset.refl _) hwritten).nRows
  have hstart : Counted I out A B σ 0 (σ.setArray (out "indptr") a) := by
    refine ⟨hσ₁, ⟨g, hmark.setArray (fun heq => hne (by simp [← heq])) a⟩, _, hindptr'.toVec,
      fun i' hi' => ?_⟩
    obtain rfl := Nat.le_zero.1 hi'
    exact Function.update_self ..
  obtain ⟨hall, -, hloop⟩ := Leaves.countTurns fuel "__i" (pass1Row lhs rhs out nCols)
    (Counted I out A B σ) (readsInt_name hnRows) hstart
    fun i τ hi hτ => symbolic_step h hσ hi hτ
  have hend := hall A.outer (Nat.le_refl _)
  obtain ⟨ptr, hptr, hstarts⟩ := hend.indptr
  refine ⟨_, (hfirst _).trans hloop, fun rest => (hfirst _).trans (exec_forRange hloop rest),
    hend.framed, hend.mark, hptr.congrVec fun k hk => hstarts k (by omega)⟩

/-- The store while rows are drained. -/
structure Draining (I : Interp V) (out : Buffers) (A B : Compressed) (room : ℕ) (υ : State V)
    (f g : ℕ → V) (τ : State V) : Prop where
  framed : Framed spgemmTemps [mark, acc, out "indices", out "data"] υ τ
  mark : ∃ f, Has id τ mark [B.inner] f
  acc : ∃ f, Has id τ acc [B.inner] f
  indptr : Has (nat I) τ (out "indptr") [A.outer + 1] (at1 (rowStart A B))
  indices : Has id τ (out "indices") [room] (at1 f)
  data : Has id τ (out "data") [room] (at1 g)

/-- The columns of a row, stored where the row starts. -/
def withCols (I : Interp V) (A B : Compressed) (i : ℕ) (f : ℕ → V) : ℕ → V :=
  stored (rowStart A B i) ((rowCols A B i).map (nat I)) f

/-- Their values. -/
def withData (elt : K → V) (A B : Compressed) (aData bData : ℕ → K) (i : ℕ) (g : ℕ → V) : ℕ → V :=
  stored (rowStart A B i) ((rowCols A B i).map fun k => elt (rowTotal A B aData bData i k)) g

/-- **A row drained**, whatever the buffers held before. -/
theorem numeric_step (fuel : ℕ) (h : Multiplies I elt lhs rhs out nRows nCols A B aData bData room)
    (hσ : Ready I elt lhs rhs nRows nCols A B aData bData σ) (hi : i < A.outer)
    (hτ : Draining I out A B room σ f g τ) :
    τ.arrays "__i" = none ∧
      Leaves I fuel (pass2Row lhs rhs out nCols) (τ.setScalar "__i" (nat I i)) fun υ =>
        Draining I out A B room σ (withCols I A B i f) (withData elt A B aData bData i g) υ ∧
        υ.scalars "__len" = some (nat I (rowCols A B i).length) := by
  have hwritten : [mark, acc, out "indices", out "data"] ⊆ spgemmWritten out := by
    simp [spgemmWritten]
  have hnone := hτ.framed.noArray (x := "__i") (by decide)
  have hτ₁ := hτ.framed.setScalar (x := "__i") (by decide) (nat I i)
  obtain ⟨fm, hmark⟩ := hτ.mark
  obtain ⟨fa, hacc⟩ := hτ.acc
  have hroom : rowStart A B i + (rowCols A B i).length ≤ room := by
    rw [← rowStart_succ]
    exact (rowStart_mono hi).trans h.room
  refine ⟨hnone, (leaves_pass2Row h (hσ.keep h hτ₁ (by simp) hwritten) hi State.setScalar_self
    (hmark.setScalar hnone _) (hacc.setScalar hnone _)
    (fun k => nat I (rowStart A B k)) ((hτ.indptr.setScalar hnone _).congr fun _ _ => rfl)
    rfl (hτ.indices.setScalar hnone _) (hτ.data.setScalar hnone _) hroom).mono ?_⟩
  rintro υ ⟨hυ, hlen, fm', fa', hmark', hacc', hindices, hdata⟩
  have hptr : out "indptr" ∉ [mark, acc, out "indices", out "data"] := by
    obtain ⟨h₁, h₂, h₃, -⟩ := h.names
    simp only [mem_cons, not_or] at h₃ ⊢
    tauto
  exact ⟨⟨hτ₁.trans hυ (by decide) (List.Subset.refl _), ⟨_, hmark'⟩, ⟨_, hacc'⟩,
    (hτ.indptr.setScalar hnone _).keep hptr hυ, hindices, hdata⟩, hlen⟩

/-- The result's buffers hold the slots before the end of some rows. -/
def Filled (I : Interp V) (elt : K → V) (A B : Compressed) (aData bData : ℕ → K) (i : ℕ)
    (f g : ℕ → V) : Prop :=
  ∀ p < rowStart A B i, f p = nat I ((productMatrix A B aData bData).indices p) ∧
    g p = elt (productData A B aData bData p)

theorem stored_add {start e : ℕ} {vs : List V} (he : e < vs.length) (f : ℕ → V) :
    stored start vs f (start + e) = vs[e] := by
  rw [stored, if_pos (by omega), Nat.add_sub_cancel_left, getElem?_eq_getElem he]
  rfl

/-- One more row. -/
theorem Filled.succ (hi : i < A.outer) (h : Filled I elt A B aData bData i f g) :
    Filled I elt A B aData bData (i + 1) (withCols I A B i f)
      (withData elt A B aData bData i g) := by
  intro p hp
  rw [rowStart_succ] at hp
  by_cases hbefore : p < rowStart A B i
  · rw [withCols, withData, stored_of_lt hbefore, stored_of_lt hbefore]
    exact h p hbefore
  · obtain ⟨e, rfl⟩ : ∃ e, p = rowStart A B i + e := ⟨p - rowStart A B i, by omega⟩
    have he : e < (rowCols A B i).length := by omega
    rw [withCols, withData, stored_add (by rwa [length_map]),
      stored_add (by rwa [length_map]), getElem_map, getElem_map]
    simp only [productMatrix, productData, productSlots_getElem? hi he, Option.map_some,
      Option.getD_some, and_self]

/-! ### The product -/

/-- The run of one row of the numeric pass. -/
structure RowRun (I : Interp V) (fuel : ℕ) (lhs rhs out : Buffers) (nCols : String) (room : ℕ)
    (C : Compressed) (i : ℕ) (τ τ' : State V) : Prop where
  run : exec I fuel (pass2Row lhs rhs out nCols) (τ.setScalar "__i" (nat I i)) = some (τ', .next)
  /-- As many columns are drained as were counted. -/
  drained : τ'.scalars "__len" = some (nat I (C.indptr (i + 1) - C.indptr i))
  /-- Whatever the buffers hold, only the slots of the row are written. -/
  confined : ∀ f g υ, Framed [] [out "indices", out "data"] τ υ →
    Has id υ (out "indices") [room] (at1 f) → Has id υ (out "data") [room] (at1 g) →
    Leaves I fuel (pass2Row lhs rhs out nCols) (υ.setScalar "__i" (nat I i)) fun υ' =>
      ∃ f' g', Has id υ' (out "indices") [room] (at1 f') ∧ Has id υ' (out "data") [room] (at1 g') ∧
        ∀ p, ¬ (C.indptr i ≤ p ∧ p < C.indptr (i + 1)) → f' p = f p ∧ g' p = g p

/-- A run of the emitted statements: `counted` is the store between the passes. -/
structure ProductRun (I : Interp V) (elt : K → V) (fuel : ℕ) (lhs rhs out : Buffers)
    (nRows nCols : String) (room : ℕ) (C : Compressed) (cData : ℕ → K) (σ counted σ' : State V) :
    Prop where
  symbolic : exec I fuel (symbolicPass lhs rhs out nRows nCols) σ = some (counted, .next)
  whole : exec I fuel (expandMatmulCsrCsr lhs rhs out nRows nCols) σ = some (σ', .next)
  counts : Has (nat I) counted (out "indptr") [C.outer + 1] (at1 C.indptr)
  last : σ' = turns I fuel "__i" (pass2Row lhs rhs out nCols) counted C.outer
  rows : ∀ i < C.outer, RowRun I fuel lhs rhs out nCols room C i
    (turns I fuel "__i" (pass2Row lhs rhs out nCols) counted i)
    (turns I fuel "__i" (pass2Row lhs rhs out nCols) counted (i + 1))
  indptr : Has (nat I) σ' (out "indptr") [C.outer + 1] (at1 C.indptr)
  indices : ∃ f, Has id σ' (out "indices") [room] (at1 f) ∧ ∀ p < C.slots, f p = nat I (C.indices p)
  data : ∃ g, Has id σ' (out "data") [room] (at1 g) ∧ ∀ p < C.slots, g p = elt (cData p)

theorem rowRun_of_draining (h : Multiplies I elt lhs rhs out nRows nCols A B aData bData room)
    (hσ : Ready I elt lhs rhs nRows nCols A B aData bData σ) (hi : i < A.outer)
    (hτ : Draining I out A B room σ f g τ)
    (hrun : exec I fuel (pass2Row lhs rhs out nCols) (τ.setScalar "__i" (nat I i)) =
      some (υ, .next)) :
    RowRun I fuel lhs rhs out nCols room (productMatrix A B aData bData) i τ υ where
  run := hrun
  drained := by
    obtain ⟨υ', hυ', -, hlen⟩ := (numeric_step fuel h hσ hi hτ).2
    obtain rfl : υ' = υ := congrArg Prod.fst (Option.some.inj (hυ'.symm.trans hrun))
    rw [hlen]
    simp only [productMatrix, rowStart_succ, Nat.add_sub_cancel_left]
  confined f g υ hυ hindices hdata := by
    obtain ⟨hii, hid, hptr, hiw, hdw⟩ := h.names
    simp only [mem_cons, not_or] at hptr hiw hdw
    have hkeep : ∀ A ∈ [mark, acc], A ∉ [out "indices", out "data"] := by
      simp only [mem_cons, not_or]
      rintro A (rfl | rfl | hA)
      · exact ⟨Ne.symm hiw.1, Ne.symm hdw.1, not_mem_nil⟩
      · exact ⟨Ne.symm hiw.2.1, Ne.symm hdw.2.1, not_mem_nil⟩
      · exact absurd hA not_mem_nil
    obtain ⟨fm, hmark⟩ := hτ.mark
    obtain ⟨fa, hacc⟩ := hτ.acc
    refine (numeric_step fuel h hσ hi (f := f) (g := g) (τ := υ)
      ⟨?_, ⟨fm, ?_⟩, ⟨fa, ?_⟩, ?_, hindices, hdata⟩).2.mono ?_
    · exact hτ.framed.trans hυ (by simp) (by simp)
    · exact hmark.keep (hkeep mark (by simp)) hυ
    · exact hacc.keep (hkeep acc (by simp)) hυ
    · exact hτ.indptr.keep (by simp [hii, hid]) hυ
    · rintro υ' ⟨hυ', -⟩
      refine ⟨_, _, hυ'.indices, hυ'.data, fun p hp => ?_⟩
      simp only [productMatrix, rowStart_succ, not_and, not_lt] at hp
      by_cases hlo : rowStart A B i ≤ p
      · exact ⟨stored_of_ge (by simpa using hp hlo) f, stored_of_ge (by simpa using hp hlo) g⟩
      · exact ⟨stored_of_lt (by omega) _ f, stored_of_lt (by omega) _ g⟩

/-- **The two-pass product**: the result is a well-formed matrix of compressed rows and `A @ B`, no
column is twice in a row, and each row is drained into the slots that were counted for it. -/
theorem spgemm_sound (h : Multiplies I elt lhs rhs out nRows nCols A B aData bData room)
    (hσ : Ready I elt lhs rhs nRows nCols A B aData bData σ) (hout : HasOutput out A B room σ)
    (fuel : ℕ) :
    ∃ (C : Compressed) (cData : ℕ → K) (counted σ' : State V),
      ProductRun I elt fuel lhs rhs out nRows nCols room C cData σ counted σ' ∧
      C.outer = A.outer ∧ C.inner = B.inner ∧ C.indptr 0 = 0 ∧ C.WellFormed ∧
      (∀ i < C.outer, ((C.rowSlots i).map C.indices).Nodup) ∧
      ∀ i < A.outer, ∀ j < B.inner, dense (Storage.csr C cData).entries i j =
        ∑ m ∈ Finset.range A.inner, dense (Storage.csr A aData).entries i m *
          dense (Storage.csr B bData).entries m j := by
  obtain ⟨counted, hcounted, hrest, hframe, hmark, hptr⟩ :=
    exec_symbolicPass fuel h hσ hout
  have hsym : [mark, out "indptr"] ⊆ spgemmWritten out := by simp [spgemmWritten]
  have hready := hσ.keep h hframe (List.Subset.refl _) hsym
  obtain ⟨hii, hid, hptrw, hiw, hdw⟩ := h.names
  simp only [mem_cons, not_or] at hptrw hiw hdw
  obtain ⟨fa, hacc⟩ := hout.acc
  obtain ⟨f, hindices⟩ := hout.indices
  obtain ⟨g, hdata⟩ := hout.data
  have hwritten : [mark, acc, out "indices", out "data"] ⊆ spgemmWritten out := by
    simp [spgemmWritten]
  have hstart : Draining I out A B room counted (fun k => f [k]) (fun k => g [k]) counted := by
    refine ⟨hready.framed h (List.Subset.refl _) hwritten, hmark, ⟨fa, hacc.keep ?_ hframe⟩, hptr,
      (hindices.keep ?_ hframe).toVec, (hdata.keep ?_ hframe).toVec⟩
    · simp [Ne.symm hptrw.2.1, show acc ≠ mark by decide]
    · simp [hiw.1, Ne.symm hii]
    · simp [hdw.1, Ne.symm hid]
  obtain ⟨hall, hruns, hloop⟩ := Leaves.countTurns fuel "__i" (pass2Row lhs rhs out nCols)
    (n := A.outer) (fun i τ => ∃ f g, Draining I out A B room counted f g τ ∧
      Filled I elt A B aData bData i f g)
    (readsInt_name hready.nRows) ⟨_, _, hstart, fun p hp => absurd hp (Nat.not_lt_zero p)⟩ <| by
      rintro i τ hi ⟨f, g, hτ, hfilled⟩
      exact ⟨(numeric_step fuel h hready hi hτ).1,
        (numeric_step fuel h hready hi hτ).2.mono fun υ hυ => ⟨_, _, hυ.1, hfilled.succ hi⟩⟩
  obtain ⟨f', g', hend, hfilled⟩ := hall A.outer (Nat.le_refl _)
  refine ⟨productMatrix A B aData bData, productData A B aData bData, counted, _,
    ⟨hcounted, (hrest _).trans hloop, hptr, rfl, fun i hi => ?_, hend.indptr,
      ⟨f', hend.indices, fun p hp => (hfilled p hp).1⟩,
      ⟨g', hend.data, fun p hp => (hfilled p hp).2⟩⟩,
    rfl, rfl, rfl, productMatrix_wellFormed h.left h.right h.inner, fun i hi => ?_,
    fun i hi j _ => dense_productMatrix h.left h.inner hi j⟩
  · obtain ⟨f, g, hτ, -⟩ := hall i (Nat.le_of_lt hi)
    exact rowRun_of_draining h hready hi hτ (hruns i hi)
  · rw [map_indices (A := A) aData bData hi]
    exact nodup_enlisted _

end Passes

/-- A vector of numbers. -/
def numbers (l : List ℕ) : Arr ℤ := ⟨[l.length], at1 fun k => (l.getD k 0 : ℕ)⟩

/-- Two rows, one with a column twice and one empty. -/
def smallLeft : Compressed where
  outer := 2
  inner := 3
  slots := 3
  indptr k := [0, 3, 3].getD k 0
  indices k := [2, 0, 2].getD k 0

def smallRight : Compressed where
  outer := 3
  inner := 2
  slots := 4
  indptr k := [0, 2, 2, 4].getD k 0
  indices k := [1, 0, 1, 1].getD k 0

def smallStore : State ℤ where
  scalars x := List.lookup x [("NR", 2), ("NK", 2)]
  arrays x := List.lookup x [("A_indptr", numbers [0, 3, 3]), ("A_indices", numbers [2, 0, 2]),
    ("A_data", numbers [1, 2, 3]), ("B_indptr", numbers [0, 2, 2, 4]),
    ("B_indices", numbers [1, 0, 1, 1]), ("B_data", numbers [4, 5, 6, 7]),
    ("C_indptr", numbers [9, 9, 9]), ("C_indices", numbers [9, 9, 9]),
    ("C_data", numbers [9, 9, 9]), ("__csr_mark", numbers [9, 9]), ("__csr_acc", numbers [9, 9])]

theorem spgemm_sound_small :
    ∃ (C : Compressed) (cData : ℕ → ℤ) (counted σ' : State ℤ),
      ProductRun sparseInterp id 0 ("A_" ++ ·) ("B_" ++ ·) ("C_" ++ ·) "NR" "NK" 3 C cData
        smallStore counted σ' := by
  have hleft : smallLeft.WellFormed := .of_slots (by decide) (by decide) (by decide)
  have hright : smallRight.WellFormed := .of_slots (by decide) (by decide) (by decide)
  have hmult : Multiplies sparseInterp id ("A_" ++ ·) ("B_" ++ ·) ("C_" ++ ·) "NR" "NK" smallLeft
      smallRight (fun k => ([1, 2, 3].getD k 0 : ℕ)) (fun k => ([4, 5, 6, 7].getD k 0 : ℕ)) 3 :=
    ⟨sparseInterp_arith, hleft, hright, rfl, by decide, by decide, by decide, by decide, by decide,
      by decide, by decide⟩
  have hready : Ready sparseInterp id ("A_" ++ ·) ("B_" ++ ·) "NR" "NK" smallLeft smallRight
      (fun k => ([1, 2, 3].getD k 0 : ℕ)) (fun k => ([4, 5, 6, 7].getD k 0 : ℕ)) smallStore :=
    ⟨⟨⟨rfl, _, rfl, rfl, fun _ _ => rfl⟩, ⟨rfl, _, rfl, rfl, fun _ _ => rfl⟩,
      ⟨rfl, _, rfl, rfl, fun _ _ => rfl⟩⟩, ⟨⟨rfl, _, rfl, rfl, fun _ _ => rfl⟩,
      ⟨rfl, _, rfl, rfl, fun _ _ => rfl⟩, ⟨rfl, _, rfl, rfl, fun _ _ => rfl⟩⟩, rfl, rfl, by decide⟩
  have hout : HasOutput ("C_" ++ ·) smallLeft smallRight 3 smallStore :=
    ⟨⟨_, rfl, _, rfl, rfl, fun _ _ => rfl⟩, ⟨_, rfl, _, rfl, rfl, fun _ _ => rfl⟩,
      ⟨_, rfl, _, rfl, rfl, fun _ _ => rfl⟩, ⟨_, rfl, _, rfl, rfl, fun _ _ => rfl⟩,
      ⟨_, rfl, _, rfl, rfl, fun _ _ => rfl⟩⟩
  obtain ⟨C, cData, counted, σ', hrun, -⟩ := spgemm_sound hmult hready hout 0
  exact ⟨C, cData, counted, σ', hrun⟩

end SparseEmit

end Translate

end HpcAgentBench
