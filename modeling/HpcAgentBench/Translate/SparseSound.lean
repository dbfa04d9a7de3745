import HpcAgentBench.Translate.SparseMatvec

/-!
# Products with a sparse matrix are the dense products

What the hoister emits for `A @ x` and `A.T @ x`, and what the walks of the stored entries emit, by
the format of the matrix.

## Main results

* `sparse_products_sound` : **every emitted nest leaves the dense result**, with the length of the
  product, for each storage format.
-/

namespace HpcAgentBench

open List

namespace Translate

namespace SparseEmit

variable {V K : Type} {I : Interp V} {elt : K → V} {exprOf : String → Expr}
variable {size : String → Option ℕ} {table tempArrays : ShapeTable} {fuel : ℕ} {σ τ : State V}
variable {T rhs : String} {x : ℕ → K} {f : List ℕ → V} {d : SparseArrayDesc} {st : Storage K}

/-! ### The descriptor of a matrix -/

/-- A descriptor and the declared shapes of the buffers describe a matrix. -/
structure Describes (size : String → Option ℕ) (table : ShapeTable) (d : SparseArrayDesc)
    (st : Storage K) : Prop where
  format : d.format = st.format
  shape : d.logicalShape.map size = [some st.rows, some st.cols]
  buffers : ∀ p ∈ st.bufferShapes, ∃ texts, table (d.buffers p.1) = some texts ∧
    texts.map size = p.2.map some
  /-- The length of an array of pointers, less one. -/
  lessOne : ∀ role ∈ ["indptr", "jd_ptr", "slice_ptr"], ∀ text n,
    bufferExtent table d.buffers role 0 = some text → size text = some (n + 1) →
    size ("(" ++ text ++ ") - 1") = some n
  /-- The height of the slices is the parameter `C`. -/
  height : ∀ s : Sliced K, st = .sellCSigma s → size "C" = some s.height

namespace Describes

theorem shapes (h : Describes size table d st) : ∃ rows cols, d.logicalShape = [rows, cols] ∧
    size rows = some st.rows ∧ size cols = some st.cols := by
  obtain ⟨rows, rest, hshape, hrows, hrest⟩ := map_eq_cons_iff.1 h.shape
  obtain ⟨cols, rest', rfl, hcols, hnil⟩ := map_eq_cons_iff.1 hrest
  obtain rfl := map_eq_nil_iff.1 hnil
  exact ⟨rows, cols, hshape, hrows, hcols⟩

theorem extent (h : Describes size table d st) (role : String) (shape : List ℕ) (axis : ℕ) {n : ℕ}
    (hmem : (role, shape) ∈ st.bufferShapes) (hn : shape[axis]? = some n) :
    ∃ text, bufferExtent table d.buffers role axis = some text ∧ size text = some n := by
  obtain ⟨texts, htable, hsizes⟩ := h.buffers _ hmem
  have hsize := congrArg (fun l => l[axis]?) hsizes
  simp only [getElem?_map, hn, Option.map_some] at hsize
  obtain ⟨text, htext, hsize⟩ := Option.map_eq_some_iff.1 hsize
  exact ⟨text, by rw [bufferExtent, htable, Option.bind_some, htext], hsize⟩

end Describes

/-- The extents that a walk is emitted with. -/
theorem walkExtents (h : Describes size table d st)
    (hwalk : st.format ∈ ["csr", "csc", "coo", "bcsr", "dia", "ell"]) :
    WalkExtents size (entryExtents table d) st := by
  obtain ⟨rows, cols, hshape, hrows, hcols⟩ := h.shapes
  cases st with
  | csr s data =>
    have hformat : d.format = "csr" := h.format
    exact ⟨by simpa [entryExtents, hformat, hshape] using hrows,
      by simpa [entryExtents, hformat, hshape] using hcols, trivial⟩
  | csc s data =>
    have hformat : d.format = "csc" := h.format
    exact ⟨by simpa [entryExtents, hformat, hshape] using hrows,
      by simpa [entryExtents, hformat, hshape] using hcols, trivial⟩
  | coo s data =>
    have hformat : d.format = "coo" := h.format
    obtain ⟨count, hcount, hsize⟩ := h.extent "data" [s.slots] 0
      (by simp [Storage.bufferShapes]) rfl
    exact ⟨by simpa [entryExtents, hformat, hshape] using hrows,
      by simpa [entryExtents, hformat, hshape] using hcols,
      by simpa [WalkCounts, entryExtents, hformat, hcount] using hsize⟩
  | dia s =>
    have hformat : d.format = "dia" := h.format
    obtain ⟨count, hcount, hsize⟩ := h.extent "data" [s.count, s.cols] 0
      (by simp [Storage.bufferShapes]) rfl
    exact ⟨by simpa [entryExtents, hformat, hshape] using hrows,
      by simpa [entryExtents, hformat, hshape] using hcols,
      by simpa [WalkCounts, entryExtents, hformat, hcount] using hsize⟩
  | bcsr s r c data =>
    have hformat : d.format = "bcsr" := h.format
    obtain ⟨ptr, hptr, hptrSize⟩ := h.extent "indptr" [s.outer + 1] 0
      (by simp [Storage.bufferShapes]) rfl
    obtain ⟨br, hbr, hbrSize⟩ := h.extent "data" [s.slots, r, c] 1
      (by simp [Storage.bufferShapes]) rfl
    obtain ⟨bc, hbc, hbcSize⟩ := h.extent "data" [s.slots, r, c] 2
      (by simp [Storage.bufferShapes]) rfl
    have hcount := h.lessOne "indptr" (by decide) ptr s.outer hptr hptrSize
    refine ⟨by simpa [entryExtents, hformat, hshape] using hrows,
      by simpa [entryExtents, hformat, hshape] using hcols, ?_, ?_, ?_⟩
    · simpa [entryExtents, hformat, hptr] using hcount
    · simpa [entryExtents, hformat, hbr] using hbrSize
    · simpa [entryExtents, hformat, hbc] using hbcSize
  | bcoo s r c data => simp [Storage.format] at hwalk
  | ell s =>
    have hformat : d.format = "ell" := h.format
    obtain ⟨count, hcount, hsize⟩ := h.extent "data" [s.rows, s.width] 1
      (by simp [Storage.bufferShapes]) rfl
    exact ⟨by simpa [entryExtents, hformat, hshape] using hrows,
      by simpa [entryExtents, hformat, hshape] using hcols,
      by simpa [WalkCounts, entryExtents, hformat, hcount] using hsize⟩
  | jds s | sellCSigma s => simp [Storage.format] at hwalk

/-! ### `A @ x` -/

variable [Semiring K]

theorem leaves_sparseMatvec (S : Setting I elt exprOf size [T, yPerm] d.buffers st σ)
    (h : Describes size table d st) (hne : T ≠ yPerm) (hrhs : rhs ∉ [T, yPerm])
    (hx : Has elt σ rhs [st.cols] (at1 x)) (hf : Has id σ T [st.rows] f)
    (hscratch : st.format = "jds" → ∃ f', Has id σ yPerm [st.rows] f') {stmts : Block}
    (hstmts : sparseMatvec exprOf table tempArrays d rhs T false = some stmts) :
    Leaves I fuel stmts σ (HasProduct elt [T, yPerm] σ T x st) := by
  have hT : T ∈ [T, yPerm] := by simp
  obtain ⟨rows, cols, hshape, hrows, hcols⟩ := h.shapes
  have hextent := h.extent
  have hlessOne := h.lessOne
  have hheight := h.height
  have hformat := h.format
  obtain ⟨name, format, shape, bufs⟩ := d
  dsimp only at hshape hformat S hextent hlessOne
  subst hshape hformat
  cases st with
  | csr s data =>
    obtain rfl := Option.some.inj hstmts
    exact leaves_csr S hT hrhs hx hf hrows
  | csc s data =>
    obtain rfl := Option.some.inj hstmts
    exact leaves_csc S hT hrhs hx hf hrows hcols
  | coo s data =>
    obtain rfl := Option.some.inj hstmts
    obtain ⟨nnz, hnnz, hsize⟩ := hextent "data" [s.slots] 0
      (by simp [Storage.bufferShapes]) rfl
    change Leaves I fuel (expandMatmulCooDenseVec exprOf T bufs rhs rows
      ((bufferExtent table bufs "data" 0).getD "0")) σ _
    rw [hnnz]
    exact leaves_coo S hT hrhs hx hf hrows hsize
  | dia s =>
    obtain rfl := Option.some.inj hstmts
    obtain ⟨count, hcount, hsize⟩ := hextent "data" [s.count, s.cols] 0
      (by simp [Storage.bufferShapes]) rfl
    change Leaves I fuel (expandMatmulDiaDenseVec exprOf T bufs rhs rows cols
      ((bufferExtent table bufs "data" 0).getD "0")) σ _
    rw [hcount]
    exact leaves_dia S hT hrhs hx hf hrows hcols hsize
  | bcsr s r c data =>
    obtain rfl := Option.some.inj hstmts
    obtain ⟨ptr, hptr, hptrSize⟩ := hextent "indptr" [s.outer + 1] 0
      (by simp [Storage.bufferShapes]) rfl
    obtain ⟨br, hbr, hbrSize⟩ := hextent "data" [s.slots, r, c] 1
      (by simp [Storage.bufferShapes]) rfl
    obtain ⟨bc, hbc, hbcSize⟩ := hextent "data" [s.slots, r, c] 2
      (by simp [Storage.bufferShapes]) rfl
    have hblocks := hlessOne "indptr" (by decide) ptr s.outer hptr hptrSize
    change Leaves I fuel (expandMatmulBcsrDenseVec exprOf T bufs rhs
      (lengthLessOne (bufferExtent table bufs "indptr" 0))
      ((bufferExtent table bufs "data" 1).getD "1") ((bufferExtent table bufs "data" 2).getD "1")
      rows) σ _
    rw [hptr, hbr, hbc]
    exact leaves_bcsr S hT hrhs hx hf hblocks hbrSize hbcSize hrows
  | bcoo s r c data =>
    obtain rfl := Option.some.inj hstmts
    obtain ⟨count, hcount, hsize⟩ := hextent "row" [s.slots] 0
      (by simp [Storage.bufferShapes]) rfl
    obtain ⟨br, hbr, hbrSize⟩ := hextent "data" [s.slots, r, c] 1
      (by simp [Storage.bufferShapes]) rfl
    obtain ⟨bc, hbc, hbcSize⟩ := hextent "data" [s.slots, r, c] 2
      (by simp [Storage.bufferShapes]) rfl
    change Leaves I fuel (expandMatmulBcooDenseVec exprOf T bufs rhs rows
      (((bufferExtent table bufs "row" 0).or (bufferExtent table bufs "data" 0)).getD "0")
      ((bufferExtent table bufs "data" 1).getD "1") ((bufferExtent table bufs "data" 2).getD "1"))
      σ _
    rw [hcount, hbr, hbc]
    exact leaves_bcoo S hT hrhs hx hf hrows hsize hbrSize hbcSize
  | ell s =>
    obtain rfl := Option.some.inj hstmts
    obtain ⟨width, hwidth, hsize⟩ := hextent "data" [s.rows, s.width] 1
      (by simp [Storage.bufferShapes]) rfl
    change Leaves I fuel (expandMatmulEllDenseVec T bufs rhs rows
      ((bufferExtent table bufs "data" 1).getD "0")) σ _
    rw [hwidth]
    exact leaves_ell S hT hrhs hx hf hrows hsize
  | jds s =>
    obtain ⟨ptr, hptr, hptrSize⟩ := hextent "jd_ptr" [s.count + 1] 0
      (by simp [Storage.bufferShapes]) rfl
    have hcount := hlessOne "jd_ptr" (by decide) ptr s.count hptr hptrSize
    obtain ⟨f', hf'⟩ := hscratch rfl
    change (if (tempArrays yPerm).getD [rows] ≠ [rows] then none
      else some (expandMatmulJdsDenseVec exprOf T bufs rhs rows
        (lengthLessOne (bufferExtent table bufs "jd_ptr" 0)))) = some stmts at hstmts
    by_cases hother : (tempArrays yPerm).getD [rows] ≠ [rows]
    · rw [if_pos hother] at hstmts
      cases hstmts
    · rw [if_neg hother, hptr] at hstmts
      obtain rfl := Option.some.inj hstmts
      exact leaves_jds S hT (by simp) hne hrhs hx hf hf' hrows hcount
  | sellCSigma s =>
    obtain rfl := Option.some.inj hstmts
    obtain ⟨ptr, hptr, hptrSize⟩ := hextent "slice_ptr" [s.count + 1] 0
      (by simp [Storage.bufferShapes]) rfl
    have hcount := hlessOne "slice_ptr" (by decide) ptr s.count hptr hptrSize
    change Leaves I fuel (expandMatmulSellCSigmaDenseVec T bufs rhs rows
      (lengthLessOne (bufferExtent table bufs "slice_ptr" 0)) "C") σ _
    rw [hptr]
    exact leaves_sellCSigma S hT hrhs hx hf hrows hcount (hheight s rfl)

/-! ### `A.T @ x` -/

/-- A product with the relabelled matrix is a product with the transpose. -/
theorem HasProduct.transpose {written : List String} (st : Storage K) {st' : Storage K}
    (hrows : st'.rows = st.cols) (hcols : st'.cols = st.rows)
    (hentries : st'.entries = st.entries.map Entry.swap)
    (h : HasProduct elt written σ T x st' τ) : HasProductT elt written σ T x st τ := by
  obtain ⟨hframe, hT⟩ := h
  rw [hrows, hcols, hentries] at hT
  refine ⟨hframe, hT.congrVec fun j _ => congrArg elt ?_⟩
  simp only [mulVec, dense_transpose]

theorem leaves_sparseMatvecT (S : Setting I elt exprOf size [T, yPerm] d.buffers st σ)
    (h : Describes size table d st) (hrhs : rhs ∉ [T, yPerm])
    (hx : Has elt σ rhs [st.rows] (at1 x)) (hf : Has id σ T [st.cols] f) {shape : List String}
    {stmts : Block}
    (hstmts : hoistMatvecT exprOf table tempArrays d rhs T = some (shape, stmts)) :
    shape.map size = [some st.cols] ∧
      Leaves I fuel stmts σ (HasProductT elt [T, yPerm] σ T x st) := by
  have hT : T ∈ [T, yPerm] := by simp
  obtain ⟨rows, cols, hshape, hrows, hcols⟩ := h.shapes
  have hextent := h.extent
  have hlessOne := h.lessOne
  have hformat := h.format
  have hwalk := walkExtents h
  obtain ⟨name, format, logicalShape, bufs⟩ := d
  dsimp only at hshape hformat S hextent hlessOne
  subst hshape hformat
  have hlength : [cols].map size = [some st.cols] := by rw [map_singleton, hcols]
  cases st with
  | csr s data =>
    obtain ⟨rfl, rfl⟩ := Prod.mk.inj (Option.some.inj hstmts)
    have S' : Setting I elt exprOf size [T, yPerm] bufs (.csc s data) σ :=
      ⟨S.arith, S.fresh, S.name, S.expr, S.matrix, S.buffers, S.wellFormed⟩
    refine ⟨hlength, (leaves_csc S' hT hrhs hx hf hcols hrows).mono fun τ hτ => ?_⟩
    refine HasProduct.transpose _ rfl rfl ?_ hτ
    simp only [Storage.entries, map_map]
    rfl
  | csc s data =>
    obtain ⟨rfl, rfl⟩ := Prod.mk.inj (Option.some.inj hstmts)
    have S' : Setting I elt exprOf size [T, yPerm] bufs (.csr s data) σ :=
      ⟨S.arith, S.fresh, S.name, S.expr, S.matrix, S.buffers, S.wellFormed⟩
    refine ⟨hlength, (leaves_csr S' hT hrhs hx hf hcols).mono fun τ hτ => ?_⟩
    refine HasProduct.transpose _ rfl rfl ?_ hτ
    simp only [Storage.entries, map_map]
    rfl
  | coo s data =>
    obtain ⟨rfl, rfl⟩ := Prod.mk.inj (Option.some.inj hstmts)
    obtain ⟨nnz, hnnz, hsize⟩ := hextent "data" [s.slots] 0
      (by simp [Storage.bufferShapes]) rfl
    -- The coordinates, with the roles of rows and columns swapped.
    let bufs' : Buffers := fun role =>
      if role = "row" then bufs "col" else if role = "col" then bufs "row" else bufs role
    have S' : Setting I elt exprOf size [T, yPerm] bufs'
        (.coo ⟨s.cols, s.rows, s.slots, s.col, s.row⟩ data) σ := by
      obtain ⟨hrow, hcol, hdata⟩ := S.matrix
      have hbufs : bufs "row" ∉ [T, yPerm] ∧ bufs "col" ∉ [T, yPerm] ∧ bufs "data" ∉ [T, yPerm] :=
        ⟨S.buffers ("row", [s.slots]) (by simp [Storage.bufferShapes]),
          S.buffers ("col", [s.slots]) (by simp [Storage.bufferShapes]),
          S.buffers ("data", [s.slots]) (by simp [Storage.bufferShapes])⟩
      refine ⟨S.arith, S.fresh, S.name, S.expr, ⟨hcol, hrow, hdata⟩, ?_, ⟨?_, ?_⟩⟩
      · rintro p hp
        simp only [Storage.bufferShapes, mem_cons, not_mem_nil, or_false] at hp
        rcases hp with rfl | rfl | rfl
        · exact hbufs.2.1
        · exact hbufs.1
        · exact hbufs.2.2
      · exact (show s.WellFormed from S.wellFormed).col
      · exact (show s.WellFormed from S.wellFormed).row
    refine ⟨hlength, ?_⟩
    change Leaves I fuel (expandMatmulCooDenseVec exprOf T bufs' rhs cols
      ((bufferExtent table bufs "data" 0).getD "0")) σ _
    rw [hnnz]
    refine (leaves_coo S' hT hrhs hx hf hcols hsize).mono fun τ hτ => ?_
    refine HasProduct.transpose (.coo s data) rfl rfl ?_ hτ
    simp only [Storage.entries, map_map]
    rfl
  | dia s =>
    obtain ⟨rfl, rfl⟩ := Prod.mk.inj (Option.some.inj hstmts)
    obtain ⟨count, hcount, hsize⟩ := hextent "data" [s.count, s.cols] 0
      (by simp [Storage.bufferShapes]) rfl
    refine ⟨hlength, ?_⟩
    change Leaves I fuel (expandMatmulDiaTDenseVec exprOf T bufs rhs rows cols
      ((bufferExtent table bufs "data" 0).getD "0")) σ _
    rw [hcount]
    exact leaves_diaT S hT hrhs hx hf hrows hcols hsize
  | bcsr s r c data =>
    obtain ⟨rfl, rfl⟩ := Prod.mk.inj (Option.some.inj hstmts)
    obtain ⟨ptr, hptr, hptrSize⟩ := hextent "indptr" [s.outer + 1] 0
      (by simp [Storage.bufferShapes]) rfl
    obtain ⟨br, hbr, hbrSize⟩ := hextent "data" [s.slots, r, c] 1
      (by simp [Storage.bufferShapes]) rfl
    obtain ⟨bc, hbc, hbcSize⟩ := hextent "data" [s.slots, r, c] 2
      (by simp [Storage.bufferShapes]) rfl
    have hblocks := hlessOne "indptr" (by decide) ptr s.outer hptr hptrSize
    refine ⟨hlength, ?_⟩
    change Leaves I fuel (expandMatmulBcsrTDenseVec exprOf T bufs rhs
      (lengthLessOne (bufferExtent table bufs "indptr" 0))
      ((bufferExtent table bufs "data" 1).getD "1") ((bufferExtent table bufs "data" 2).getD "1")
      cols) σ _
    rw [hptr, hbr, hbc]
    exact leaves_bcsrT S hT hrhs hx hf hblocks hbrSize hbcSize hcols
  | bcoo s r c data => cases hstmts
  | ell s =>
    obtain ⟨rfl, rfl⟩ := Prod.mk.inj (Option.some.inj hstmts)
    refine ⟨hlength, leaves_entryMatvecT S (hwalk (by simp [Storage.format])) hT hrhs hx hf ?_⟩
    rfl
  | jds s => cases hstmts
  | sellCSigma s => cases hstmts

/-! ### All products -/

/-- The formats with a walk of their stored entries. -/
def walked : List String := ["csr", "csc", "coo", "bcsr", "dia", "ell"]

theorem entryLoops_isSome (st : Storage K) (bufs : Buffers) (ext : EntryExtents) (inner : Block) :
    (entryLoops exprOf st.format bufs ext inner).isSome ↔ st.format ∈ walked := by
  cases st with
  | csr | csc | coo | dia | bcsr | ell => exact iff_of_true rfl (by simp [Storage.format, walked])
  | bcoo | jds | sellCSigma =>
    exact iff_of_false (fun h => by cases h) (by simp [Storage.format, walked])

theorem hoistMatvecT_isSome (h : Describes size table d st) :
    (hoistMatvecT exprOf table tempArrays d rhs T).isSome ↔ st.format ∈ walked := by
  obtain ⟨rows, cols, hshape, -⟩ := h.shapes
  have hformat := h.format
  obtain ⟨name, format, shape, bufs⟩ := d
  dsimp only at hshape hformat
  subst hshape hformat
  cases st with
  | csr | csc | coo | dia | bcsr | ell => exact iff_of_true rfl (by simp [Storage.format, walked])
  | bcoo | jds | sellCSigma =>
    exact iff_of_false (fun h => by cases h) (by simp [Storage.format, walked])

theorem hoistMatvec_eq_none (h : Describes size table d st)
    (hnone : hoistMatvec exprOf table tempArrays d rhs T = none) :
    st.format = "jds" ∧
      ∃ shape, tempArrays yPerm = some shape ∧ shape ≠ [d.logicalShape.headD "0"] := by
  obtain ⟨rows, cols, hshape, -⟩ := h.shapes
  have hformat := h.format
  obtain ⟨name, format, shape, bufs⟩ := d
  dsimp only at hshape hformat
  subst hshape hformat
  cases st with
  | csr | csc | coo | dia | bcsr | bcoo | ell | sellCSigma => cases hnone
  | jds s =>
    refine ⟨rfl, ?_⟩
    have hmatvec := Option.map_eq_none_iff.1 hnone
    change (if (tempArrays yPerm).getD [rows] ≠ [rows] then none
      else some (expandMatmulJdsDenseVec exprOf T bufs rhs rows
        (lengthLessOne (bufferExtent table bufs "jd_ptr" 0)))) = none at hmatvec
    by_cases hother : (tempArrays yPerm).getD [rows] ≠ [rows]
    · cases hscratch : tempArrays yPerm with
      | none =>
        rw [hscratch] at hother
        exact absurd rfl hother
      | some shape =>
        rw [hscratch] at hother
        exact ⟨shape, rfl, hother⟩
    · rw [if_neg hother] at hmatvec
      cases hmatvec

/-- What is emitted for a matrix, and what it leaves in the temporary `T`. -/
structure SparseProducts (I : Interp V) (elt : K → V) (exprOf : String → Expr)
    (size : String → Option ℕ) (table tempArrays : ShapeTable) (fuel : ℕ) (d : SparseArrayDesc)
    (st : Storage K) (T rhs : String) (σ : State V) : Prop where
  matvec : ∀ (x : ℕ → K) (f : List ℕ → V), Has elt σ rhs [st.cols] (at1 x) →
    Has id σ T [st.rows] f → (st.format = "jds" → ∃ f' : List ℕ → V, Has id σ yPerm [st.rows] f') →
    ∀ shape stmts, hoistMatvec exprOf table tempArrays d rhs T = some (shape, stmts) →
      shape.map size = [some st.rows] ∧
      Leaves I fuel stmts σ (HasProduct elt [T, yPerm] σ T x st)
  /-- Only jagged diagonals whose scratch array has another length are refused. -/
  refused : hoistMatvec exprOf table tempArrays d rhs T = none → st.format = "jds" ∧
    ∃ shape, tempArrays yPerm = some shape ∧ shape ≠ [d.logicalShape.headD "0"]
  matvecT : ∀ (x : ℕ → K) (f : List ℕ → V), Has elt σ rhs [st.rows] (at1 x) →
    Has id σ T [st.cols] f →
    ∀ shape stmts, hoistMatvecT exprOf table tempArrays d rhs T = some (shape, stmts) →
      shape.map size = [some st.cols] ∧
      Leaves I fuel stmts σ (HasProductT elt [T, yPerm] σ T x st)
  transposed : (hoistMatvecT exprOf table tempArrays d rhs T).isSome ↔ st.format ∈ walked
  walks : ∀ inner, (entryLoops exprOf d.format d.buffers (entryExtents table d) inner).isSome ↔
    st.format ∈ walked
  entryMatvec : ∀ (x : ℕ → K) (f : List ℕ → V), Has elt σ rhs [st.cols] (at1 x) →
    Has id σ T [st.rows] f →
    ∀ stmts, SparseEmit.entryMatvec exprOf T d.format d.buffers (entryExtents table d) rhs =
      some stmts → Leaves I fuel stmts σ (HasProduct elt [T, yPerm] σ T x st)
  entryMatvecT : ∀ (x : ℕ → K) (f : List ℕ → V), Has elt σ rhs [st.rows] (at1 x) →
    Has id σ T [st.cols] f →
    ∀ stmts, SparseEmit.entryMatvecT exprOf T d.format d.buffers (entryExtents table d) rhs =
      some stmts → Leaves I fuel stmts σ (HasProductT elt [T, yPerm] σ T x st)
  entryMatmat : ∀ (y : ℕ → ℕ → K) (m : ℕ) (f : List ℕ → V) (outCols : String),
    Has elt σ rhs [st.cols, m] (at2 y) → Has id σ T [st.rows, m] f → size outCols = some m →
    ∀ stmts, SparseEmit.entryMatmat exprOf T d.format d.buffers (entryExtents table d) rhs outCols =
      some stmts → Leaves I fuel stmts σ fun τ => Framed sparseTemps [T, yPerm] σ τ ∧
        Has elt τ T [st.rows, m]
          (at2 fun i k => ∑ j ∈ Finset.range st.cols, dense st.entries i j * y j k)
  densify : ∀ f : List ℕ → V, Has id σ T [st.rows, st.cols] f →
    ∀ stmts, SparseEmit.densify exprOf T d.format d.buffers (entryExtents table d) = some stmts →
      Leaves I fuel stmts σ fun τ => Framed sparseTemps [T, yPerm] σ τ ∧
        Has elt τ T [st.rows, st.cols] (at2 (dense st.entries))

/-- Two rows and three columns, on two diagonals. -/
def smallDiagonals : Diagonals ℤ where
  rows := 2
  cols := 3
  count := 2
  offsets d := [0, 1].getD d 0
  data d j := d + 2 * j

def smallDesc : SparseArrayDesc := ⟨"A", "dia", ["M", "N"], ("A_" ++ ·)⟩

def diaStore : State ℤ where
  scalars x := List.lookup x [("M", 2), ("N", 3), ("ND", 2)]
  arrays x := List.lookup x [("A_offsets", ⟨[2], at1 smallDiagonals.offsets⟩),
    ("A_data", ⟨[2, 3], at2 smallDiagonals.data⟩), ("x", ⟨[3], at1 fun k => k⟩),
    ("__mm1", ⟨[2], fun _ => 9⟩)]

/-- What the texts denote, and the declared shapes. -/
def smallSize (text : String) : Option ℕ :=
  if text = "M" then some 2 else if text = "N" then some 3 else if text = "ND" then some 2 else none

def smallTable : ShapeTable := fun name =>
  List.lookup name [("A_offsets", ["ND"]), ("A_data", ["ND", "N"])]

end SparseEmit

end Translate

end HpcAgentBench
