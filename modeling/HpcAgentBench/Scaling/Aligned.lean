import HpcAgentBench.Scaling.Sizing
import Mathlib.Data.String.Basic

/-!
# Aligned problems of the machine-learning track

The fuzz cells of a kernel are rounded up so that a rank's block of a split size is a multiple of
64 at every graded rank count.  `mlAligned` rounds to 64 times the largest count, which says
nothing about a count that does not divide it.

## Main results

* `blocks_iff` : the blocks of an extent are one positive multiple of 64 exactly if the extent is a
  positive multiple of 64 per rank.
* `mlAligned_blocks_iff` : the rounded cells are aligned at every count exactly if each count
  divides the rounded number of rounds.
* `mlAligned_three_of_four` : the counts 3 and 4.
-/

namespace HpcAgentBench

open List

namespace Scaling

open Fuzz

/-! ### The cells -/

/-- What `ml_aligned` reads of a kernel's manifest. -/
structure MlSpec where
  /-- The shape expressions of `init.arrays`. -/
  shapes : List String
  /-- The `fuzzed` preset. -/
  fuzzed : Params
  /-- `mpi.split`: each array's split symbol. -/
  split : List (String × Option String)
  /-- `mpi.rank_block_exempt`. -/
  rankBlockExempt : List String

/-- One cell of a score. -/
structure ScoreCell where
  label : String
  params : Params
  timed : Bool

section Cells

variable (shapeDims : String → List String)

/-- `aligned_symbols`. -/
def alignedSymbols (spec : MlSpec) : List String :=
  (spec.split.filterMap (·.2)).filter (· ∉ spec.rankBlockExempt)

/-- `shape_symbols`; `shapeDims` are the axes of a shape expression, as texts. -/
def shapeSymbols (spec : MlSpec) : List String :=
  ((spec.shapes.flatMap shapeDims).map strip).filter (· ∈ spec.fuzzed.keys)

/-- The shape symbols the fuzzed preset draws. -/
def drawnSymbols (spec : MlSpec) : List String :=
  (shapeSymbols shapeDims spec).filter fun s => ((spec.fuzzed.getD s (.int 0)).set?).isNone

/-- `-(-max(1, value) // step) * step`. -/
def roundUp (value : ℤ) (step : ℕ) : ℤ := -(-(max 1 value) / step) * step

/-- One parameter of a cell. -/
def alignValue (spec : MlSpec) (floor : ℤ) (name : String) : FuzzValue → FuzzValue
  | .num (.int value) =>
    if name ∈ drawnSymbols shapeDims spec then
      let step := if name ∈ alignedSymbols spec then rankBlockQuantum * (max 1 floor).toNat
        else rankBlockQuantum
      .int (roundUp value step)
    else .int value
  | value => value

/-- The parameters of an aligned cell. -/
def alignParams (spec : MlSpec) (floor : ℤ) (params : Params) : Params :=
  params.mapValues (alignValue shapeDims spec floor)

/-- Equality of two points: parameters in name order. -/
def samePoint (p q : List (String × FuzzValue)) : Bool :=
  p.length == q.length && (p.zip q).all fun x => x.1.1 == x.2.1 && x.1.2.eq x.2.2

/-- The loop of `ml_aligned`, with the points it has seen. -/
def alignCells (spec : MlSpec) (floor : ℤ) :
    List (List (String × FuzzValue)) → List ScoreCell → Except Err (List ScoreCell)
  | _, [] => .ok []
  | seen, cell :: cells => do
    let params := alignParams shapeDims spec floor cell.params
    let point := params.sortedItems
    if point.any fun p => !p.2.hashable then throw (.typeError "unhashable type")
    if seen.any (samePoint point) then alignCells spec floor seen cells
    else
      let rest ← alignCells spec floor (point :: seen) cells
      return { cell with params := params } :: rest

/-- `ml_aligned`. -/
def mlAligned (spec : MlSpec) (cells : List ScoreCell) (floor : ℤ) : Except Err (List ScoreCell) :=
  alignCells shapeDims spec floor [] cells

/-- `ml_fuzz_cells`, of the correctness cells of the kernel. -/
def mlFuzzCells (spec : MlSpec) (correctnessCells : List ScoreCell) (floor : ℤ) :
    Except Err (List ScoreCell) :=
  mlAligned shapeDims spec
    (correctnessCells.filter fun cell => !(":max".toList.isSuffixOf cell.label.toList)) floor

end Cells

/-! ### Blocks of an extent -/

/-- Every rank's block of an extent is one positive multiple of 64. -/
def EvenBlocks (n : ℤ) (ranks : ℕ) : Prop :=
  ∃ j, 0 < j ∧ ∀ c < ranks, (Mpi.blockBounds n.toNat ranks c).2 -
    (Mpi.blockBounds n.toNat ranks c).1 = rankBlockQuantum * j

theorem length_block (n parts c : ℕ) : (Mpi.blockBounds n parts c).2 -
    (Mpi.blockBounds n parts c).1 = n / parts + if c < n % parts then 1 else 0 := by
  simp only [Mpi.blockBounds]
  rw [Nat.add_assoc, Nat.add_sub_cancel_left]

variable {n : ℤ} {texts : Texts} {p q : Params} {sym : String}

theorem blocks_iff {ranks : ℕ} (hr : 0 < ranks) :
    EvenBlocks n ranks ↔ 0 < n ∧ ((rankBlockQuantum * ranks : ℕ) : ℤ) ∣ n := by
  constructor
  · rintro ⟨j, hj, hblocks⟩
    have hlast := hblocks (ranks - 1) (by omega)
    have hfirst := hblocks 0 hr
    rw [length_block] at hlast hfirst
    have hmod := Nat.mod_lt n.toNat hr
    have hzero : n.toNat % ranks = 0 := by
      by_contra hne
      rw [if_pos (Nat.pos_of_ne_zero hne)] at hfirst
      rw [if_neg (by omega)] at hlast
      omega
    rw [hzero, if_neg (by omega), Nat.add_zero] at hfirst
    have heq : rankBlockQuantum * ranks * j = n.toNat := by
      rw [← Nat.mul_div_cancel' (Nat.dvd_of_mod_eq_zero hzero), hfirst]
      ring
    have hpos : 0 < rankBlockQuantum * ranks * j := by
      have : 0 < rankBlockQuantum := by decide
      positivity
    refine ⟨by omega, j, ?_⟩
    rw [← Nat.cast_mul, heq]
    omega
  · rintro ⟨hn, j, rfl⟩
    have hj : 0 < j := by
      refine pos_of_mul_pos_right hn (Int.natCast_nonneg _)
    lift j to ℕ using hj.le
    refine ⟨j, by exact_mod_cast hj, fun c _ => ?_⟩
    rw [← Nat.cast_mul, Int.toNat_natCast]
    exact blocks_of_multiple hr j

/-- How many rounds of `step` elements a size is rounded up to. -/
def rounds (value : ℤ) (step : ℕ) : ℕ := (-(-(max 1 value) / step)).toNat

theorem roundUp_eq (value : ℤ) {step : ℕ} (hs : 0 < step) :
    roundUp value step = ((rounds value step * step : ℕ) : ℤ) ∧ 0 < rounds value step := by
  have hneg : -(max 1 value) / (step : ℤ) < 0 :=
    Int.ediv_neg_of_neg_of_pos (by omega) (by exact_mod_cast hs)
  have hcast : ((rounds value step : ℕ) : ℤ) = -(-(max 1 value) / step) := by
    rw [rounds]
    omega
  exact ⟨by rw [roundUp, Nat.cast_mul, hcast], by rw [rounds]; omega⟩

/-! ### Equal points -/

theorem extent_eq_ok_of_eq {v w : FuzzValue} (hp : p.get? sym = some v) (hq : q.get? sym = some w)
    (h : v.eq w = true) :
    extent texts p sym = .ok n ↔ extent texts q sym = .ok n := by
  have hnum {x : PyNum} (hx : w.number?.any x.eq = true) : extent texts q sym = x.toInt := by
    obtain ⟨y, hy, hxy⟩ := (Option.any_eq_true _ _).1 hx
    rw [PyNum.toInt_eq_of_eq hxy]
    cases w with
    | bool b =>
      cases hy
      cases b <;> (simp only [extent, hq, orRaise]; rfl)
    | num m =>
      cases hy
      simp only [extent, hq, orRaise]
      rfl
    | str s => cases hy
    | seq l => cases hy
    | map l => cases hy
  cases v with
  | bool b =>
    rw [hnum h]
    cases b <;> (simp only [extent, hp, orRaise]; rfl)
  | num m =>
    rw [hnum h]
    simp only [extent, hp, orRaise]
    rfl
  | str s =>
    cases w with
    | str t =>
      obtain rfl : s = t := by simpa [FuzzValue.eq] using h
      simp only [extent, hp, hq]
    | _ => simp [FuzzValue.eq] at h
  | seq l =>
    cases w with
    | seq m => simp [extent, hp, hq, orRaise, bind, Except.bind, throw, throwThe,
        MonadExceptOf.throw]
    | _ => simp [FuzzValue.eq] at h
  | map l =>
    cases w with
    | map m => simp [extent, hp, hq, orRaise, bind, Except.bind, throw, throwThe,
        MonadExceptOf.throw]
    | _ => simp [FuzzValue.eq] at h

theorem samePoint_forall₂ {p q : List (String × FuzzValue)} (h : samePoint p q = true) :
    List.Forall₂ (fun x y => x.1 = y.1 ∧ x.2.eq y.2 = true) p q := by
  induction p generalizing q with
  | nil =>
    cases q with
    | nil => exact .nil
    | cons y q => simp [samePoint] at h
  | cons x p ih =>
    cases q with
    | nil => simp [samePoint] at h
    | cons y q =>
      simp only [samePoint, length_cons, zip_cons_cons, all_cons,
        Bool.and_eq_true, beq_iff_eq, Nat.add_right_cancel_iff] at h
      refine .cons h.2.1 (ih ?_)
      simp only [samePoint, Bool.and_eq_true, beq_iff_eq]
      exact ⟨h.1, h.2.2⟩

/-- Problems at equal points have equal sizes. -/
theorem extent_of_samePoint (h : samePoint p.sortedItems q.sortedItems = true) :
    extent texts p sym = .ok n ↔ extent texts q sym = .ok n := by
  have hall := samePoint_forall₂ h
  have hmem {d : Params} {v : FuzzValue} : (sym, v) ∈ d.sortedItems ↔ d.get? sym = some v := by
    rw [d.sortedItems_perm.mem_iff, Dict.mem_items]
  cases hp : p.get? sym with
  | some v =>
    obtain ⟨i, hi, hget⟩ := getElem_of_mem (hmem.2 hp)
    have hi' : i < q.sortedItems.length := hall.length_eq ▸ hi
    have hrel := hall.get hi hi'
    simp only [get_eq_getElem, hget] at hrel
    have hq : (sym, q.sortedItems[i].2) ∈ q.sortedItems := by
      rw [hrel.1]
      exact getElem_mem hi'
    exact extent_eq_ok_of_eq hp (hmem.1 hq) hrel.2
  | none =>
    cases hq : q.get? sym with
    | none => simp [extent, hp, hq, orRaise, bind, Except.bind]
    | some w =>
      obtain ⟨x, hx, hname, -⟩ := exists_of_mem_forall₂ hall (hmem.2 hq)
      have : p.get? sym = some x.2 := hmem.1 (by rw [← show x.1 = sym from hname]; exact hx)
      rw [hp] at this
      cases this

/-! ### The rounded cells -/

section Rounded

variable {shapeDims : String → List String} {spec : MlSpec}
variable {cells out : List ScoreCell} {texts : Texts} {largest : ℕ}

/-- The loop keeps one cell of every point, aligned. -/
theorem alignCells_run {floor : ℤ} {seen : List (List (String × FuzzValue))}
    (h : alignCells shapeDims spec floor seen cells = .ok out) :
    (∀ cell ∈ out, ∃ c ∈ cells, cell.params = alignParams shapeDims spec floor c.params) ∧
      ∀ c ∈ cells,
        (∃ point ∈ seen, samePoint (alignParams shapeDims spec floor c.params).sortedItems
          point = true) ∨
        ∃ cell ∈ out, cell.params = alignParams shapeDims spec floor c.params ∨
          samePoint (alignParams shapeDims spec floor c.params).sortedItems
            cell.params.sortedItems = true := by
  induction cells generalizing seen out with
  | nil =>
    cases h
    simp
  | cons c cells ih =>
    rw [alignCells] at h
    set params := alignParams shapeDims spec floor c.params with hparams
    dsimp only at h
    by_cases hhash : (params.sortedItems.any fun p => !p.2.hashable) = true
    · simp only [hhash, if_true] at h
      cases h
    simp only [hhash] at h
    by_cases hseen : seen.any (samePoint params.sortedItems) = true
    · obtain ⟨hout, hin⟩ := ih (by simpa [hseen, bind, Except.bind] using h)
      refine ⟨fun cell hcell => ?_, fun c' hc' => ?_⟩
      · obtain ⟨c', hc', heq⟩ := hout cell hcell
        exact ⟨c', mem_cons_of_mem _ hc', heq⟩
      · rcases mem_cons.1 hc' with rfl | hc'
        · obtain ⟨point, hpoint, heq⟩ := any_eq_true.1 hseen
          exact .inl ⟨point, hpoint, heq⟩
        · exact hin c' hc'
    · simp only [hseen] at h
      obtain ⟨rest, hrest, h⟩ := bind_eq_ok.1 h
      cases h
      obtain ⟨hout, hin⟩ := ih hrest
      refine ⟨fun cell hcell => ?_, fun c' hc' => ?_⟩
      · rcases mem_cons.1 hcell with rfl | hcell
        · exact ⟨c, mem_cons_self, rfl⟩
        · obtain ⟨c', hc', heq⟩ := hout cell hcell
          exact ⟨c', mem_cons_of_mem _ hc', heq⟩
      · rcases mem_cons.1 hc' with rfl | hc'
        · exact .inr ⟨_, mem_cons_self, .inl rfl⟩
        · rcases hin c' hc' with ⟨point, hpoint, heq⟩ | ⟨cell, hcell, heq⟩
          · rcases mem_cons.1 hpoint with rfl | hpoint
            · exact .inr ⟨_, mem_cons_self, .inr heq⟩
            · exact .inl ⟨point, hpoint, heq⟩
          · exact .inr ⟨cell, mem_cons_of_mem _ hcell, heq⟩

/-- The blocks of every aligned split symbol, at every graded rank count. -/
def AlignedBlocks (texts : Texts) (counts : List ℕ) (split : List String) (params : Params) :
    Prop :=
  ∀ sym ∈ split, ∀ n, extent texts params sym = .ok n → ∀ P ∈ counts, EvenBlocks n P

/-- A symbol of a cell, before it is rounded, comes out even over `P` ranks. -/
def RoundsEven (texts : Texts) (drawn : List String) (largest P : ℕ) (params : Params)
    (sym : String) : Prop :=
  match params.get? sym with
  | some (.num (.int value)) =>
    if sym ∈ drawn then P ∣ rounds value (rankBlockQuantum * largest) * largest
    else 0 < value ∧ ((rankBlockQuantum * P : ℕ) : ℤ) ∣ value
  | _ => ∀ n, extent texts params sym = .ok n → 0 < n ∧ ((rankBlockQuantum * P : ℕ) : ℤ) ∣ n

theorem extent_alignParams (hl : 0 < largest) {params : Params} {sym : String}
    (hsym : sym ∈ alignedSymbols spec) {P : ℕ} :
    (∀ n, extent texts (alignParams shapeDims spec largest params) sym = .ok n →
      0 < n ∧ ((rankBlockQuantum * P : ℕ) : ℤ) ∣ n) ↔
      RoundsEven texts (drawnSymbols shapeDims spec) largest P params sym := by
  have hget : (alignParams shapeDims spec largest params).get? sym =
      (params.get? sym).map (alignValue shapeDims spec largest sym) := Dict.get?_mapValues
  have hmax : (max 1 (largest : ℤ)).toNat = largest := by omega
  have hstep : 0 < rankBlockQuantum * largest := Nat.mul_pos (by decide) hl
  unfold RoundsEven
  split
  next value hv =>
    rw [hv, Option.map_some] at hget
    simp only [alignValue, if_pos hsym, hmax] at hget
    split
    next hdrawn =>
      rw [if_pos hdrawn] at hget
      obtain ⟨heq, hpos⟩ := roundUp_eq value hstep
      rw [heq] at hget
      simp only [extent_int hget, Except.ok.injEq, forall_eq']
      have hassoc : rounds value (rankBlockQuantum * largest) * (rankBlockQuantum * largest) =
          rankBlockQuantum * (rounds value (rankBlockQuantum * largest) * largest) := by ring
      rw [hassoc, Int.natCast_dvd_natCast,
        Nat.mul_dvd_mul_iff_left (show 0 < rankBlockQuantum by decide)]
      refine and_iff_right ?_
      have : 0 < rankBlockQuantum * (rounds value (rankBlockQuantum * largest) * largest) :=
        Nat.mul_pos (by decide) (Nat.mul_pos hpos hl)
      exact_mod_cast this
    next hdrawn =>
      rw [if_neg hdrawn] at hget
      simp only [extent_int hget, Except.ok.injEq, forall_eq']
  next hother =>
    have hsame : ∀ v, params.get? sym = some v →
        alignValue shapeDims spec largest sym v = v := by
      rintro v hv
      unfold alignValue
      split
      next value => exact (hother value hv).elim
      next => rfl
    have hget' : (alignParams shapeDims spec largest params).get? sym = params.get? sym := by
      rw [hget]
      cases hv : params.get? sym with
      | none => rfl
      | some v => rw [Option.map_some, hsame v hv]
    simp only [extent, hget']

/-- What the rounded cells of a list give, cell by cell. -/
theorem mlAligned_blocks {counts : List ℕ} (hpos : ∀ P ∈ counts, 0 < P)
    (hlargest : counts.max? = some largest) (h : mlAligned shapeDims spec cells largest = .ok out) :
    (∀ cell ∈ out, AlignedBlocks texts counts (alignedSymbols spec) cell.params) ↔
      ∀ cell ∈ cells, ∀ sym ∈ alignedSymbols spec, ∀ P ∈ counts,
        RoundsEven texts (drawnSymbols shapeDims spec) largest P cell.params sym := by
  have hl : 0 < largest := hpos largest (max?_mem hlargest)
  obtain ⟨hout, hin⟩ := alignCells_run h
  have hcell (params : Params) :
      AlignedBlocks texts counts (alignedSymbols spec)
          (alignParams shapeDims spec largest params) ↔
        ∀ sym ∈ alignedSymbols spec, ∀ P ∈ counts,
          RoundsEven texts (drawnSymbols shapeDims spec) largest P params sym := by
    constructor
    · intro hal sym hsym P hP
      refine (extent_alignParams hl hsym).1 fun n hn => ?_
      exact (blocks_iff (hpos P hP)).1 (hal sym hsym n hn P hP)
    · intro hev sym hsym n hn P hP
      exact (blocks_iff (hpos P hP)).2 ((extent_alignParams hl hsym).2 (hev sym hsym P hP) n hn)
  constructor
  · intro hall cell hmem
    rw [← hcell]
    rcases hin cell hmem with ⟨point, hpoint, -⟩ | ⟨kept, hkept, heq | heq⟩
    · cases hpoint
    · exact heq ▸ hall kept hkept
    · intro sym hsym n hn P hP
      exact hall kept hkept sym hsym n ((extent_of_samePoint heq).1 hn) P hP
  · intro hall cell hmem
    obtain ⟨c, hc, heq⟩ := hout cell hmem
    rw [heq, hcell]
    exact hall c hc

/-- **Which cells are aligned.**  For every kernel, every tuple of positive rank counts and every
list of cells: in all the cells `mlAligned` or `mlFuzzCells` returns, every rank's block of every
aligned split symbol is one positive multiple of 64 at every rank count, if and only if each rank
count divides the largest count times the rounds each drawn size is rounded up to, and the other
sizes are positive multiples of 64 per rank as they are. -/
theorem mlAligned_blocks_iff (texts : Texts) (shapeDims : String → List String) (spec : MlSpec)
    {counts : List ℕ} (hpos : ∀ P ∈ counts, 0 < P) {largest : ℕ}
    (hlargest : counts.max? = some largest) (cells : List ScoreCell) :
    (∀ out, mlAligned shapeDims spec cells largest = .ok out →
      ((∀ cell ∈ out, AlignedBlocks texts counts (alignedSymbols spec) cell.params) ↔
        ∀ cell ∈ cells, ∀ sym ∈ alignedSymbols spec, ∀ P ∈ counts,
          RoundsEven texts (drawnSymbols shapeDims spec) largest P cell.params sym)) ∧
    ∀ out, mlFuzzCells shapeDims spec cells largest = .ok out →
      ((∀ cell ∈ out, AlignedBlocks texts counts (alignedSymbols spec) cell.params) ↔
        ∀ cell ∈ cells, ¬ ":max".toList <:+ cell.label.toList →
          ∀ sym ∈ alignedSymbols spec, ∀ P ∈ counts,
            RoundsEven texts (drawnSymbols shapeDims spec) largest P cell.params sym) := by
  refine ⟨fun out h => mlAligned_blocks hpos hlargest h, fun out h => ?_⟩
  rw [mlAligned_blocks hpos hlargest h]
  simp only [mem_filter, Bool.not_eq_true', and_imp]
  refine forall₂_congr fun cell _ => ?_
  rw [← Bool.not_eq_true, isSuffixOf_iff_suffix]

end Rounded

/-! ### Two lists of rank counts -/

/-- One array of the length `N`, split over the ranks. -/
def lineSpec : MlSpec where
  shapes := ["(N,)"]
  fuzzed := Dict.empty.set "N" (.seq [.int 1, .int 1000])
  split := [("y", some "N")]
  rankBlockExempt := []

/-- The axes of its shape. -/
def lineDims (expr : String) : List String := if expr = "(N,)" then ["N"] else []

def lineCell (n : ℤ) : ScoreCell := ⟨"cfg0:fuzz1", lineParams n, false⟩

theorem mlAligned_line :
    mlAligned lineDims lineSpec [lineCell 100] 4 = .ok [lineCell 256] := rfl

theorem mlAligned_powers : mlAligned lineDims lineSpec [lineCell 100] 4 = .ok [lineCell 256] ∧
    ∀ cell ∈ [lineCell 256], AlignedBlocks noTexts [1, 2, 4] ["N"] cell.params := by
  refine ⟨mlAligned_line, ?_⟩
  refine ((mlAligned_blocks_iff noTexts lineDims lineSpec (by decide) rfl [lineCell 100]).1 _
    mlAligned_line).2 ?_
  intro cell hcell sym hsym P hP
  obtain rfl : cell = lineCell 100 := by simpa using hcell
  obtain rfl : sym = "N" := by simpa using show sym ∈ ["N"] from hsym
  have hdvd : ∀ P ∈ [1, 2, 4], P ∣ rounds 100 (rankBlockQuantum * 4) * 4 := by decide
  exact hdvd P hP

/-- Over three of at most four ranks a size of 100, rounded to 256, has blocks of 86 and 85. -/
theorem mlAligned_three_of_four : [3, 4].max? = some 4 ∧
    mlAligned lineDims lineSpec [lineCell 100] 4 = .ok [lineCell 256] ∧
    ¬ ∀ cell ∈ [lineCell 256], AlignedBlocks noTexts [3, 4] ["N"] cell.params := by
  refine ⟨rfl, mlAligned_line, fun h => ?_⟩
  have heven := h (lineCell 256) (by simp) "N" (by simp) 256 rfl 3 (by simp)
  rw [blocks_iff (by decide)] at heven
  exact absurd heven.2 (by decide)

end Scaling

end HpcAgentBench
