import HpcAgentBench.Lib.NdArray
import HpcAgentBench.Lib.Number
import Mathlib.Algebra.Order.BigOperators.GroupWithZero.List

/-!
# Data-distribution descriptors

How a global array is partitioned across a processor grid: `ownedIndices` says which indices of
one axis a grid coordinate owns, `scatter` cuts an array into one tile per rank, and `gather`
rebuilds the array from the tiles.

## Main results

* `exists_owner`, `owner_unique` : along a split axis every index is owned by exactly one
  coordinate, whatever the scheme, the extent and the number of parts.
* `Grid.exists_rank` : every coordinate vector of the grid is the one of some rank.
* `gather_scatter` : if no two axes of an array are dealt to one grid dimension of more than one
  part, `gather` rebuilds exactly the array `scatter` cut.
* `Descriptor.scatter_spec` puts these together for a resolved descriptor.

Two axes on one grid dimension leave the off-diagonal blocks without an owner
(`Descriptor.gather_scatter_shared_grid_dim`); the source refuses such a layout where a
request is lowered, not here.
-/

namespace HpcAgentBench

open List Option

namespace Mpi

/-- How the blocks of a split axis are dealt to the coordinates of its grid dimension. -/
inductive Scheme
  /-- One contiguous band per coordinate. -/
  | block
  /-- Single elements, round-robin. -/
  | cyclic
  /-- Blocks of `blockSize` elements, round-robin. -/
  | blockCyclic
  deriving DecidableEq, Repr

/-- How one array dimension is laid out: whole on every rank, or dealt to a grid dimension. -/
structure AxisDist where
  /-- The grid dimension it is dealt to; none keeps it whole on every rank. -/
  gridDim : Option ℕ
  scheme : Scheme := .block
  /-- Used by `blockCyclic` only. -/
  blockSize : ℤ := 1
  deriving DecidableEq, Repr

/-- One array's distribution: one `AxisDist` per dimension, or the whole array everywhere. -/
structure ArrayDist where
  axes : List AxisDist := []
  replicated : Bool := false
  deriving DecidableEq, Repr

/-- The processor grid. -/
structure Grid where
  dims : List ℕ
  dims_pos : ∀ d ∈ dims, 0 < d
  deriving DecidableEq

namespace Grid

variable (grid : Grid)

/-- The number of ranks. -/
def nranks : ℕ := grid.dims.prod

/-- Row-major strides, each the next one times the next extent. -/
def strides : List ℕ → List ℕ
  | [] => []
  | [_] => [1]
  | _ :: d :: ds => (strides (d :: ds)).headD 1 * d :: strides (d :: ds)

/-- Row-major rank → grid coordinates. -/
def coordsOf (rank : ℕ) : List ℕ :=
  zipWith (fun stride d => rank / stride % d) (strides grid.dims) grid.dims

theorem strides_cons (d : ℕ) (ds : List ℕ) : strides (d :: ds) = ds.prod :: strides ds := by
  induction ds generalizing d with
  | nil => rfl
  | cons e ds ih =>
    rw [strides, ih e, headD_cons, prod_cons, Nat.mul_comm]

theorem nranks_pos : 0 < grid.nranks :=
  prod_pos grid.dims_pos

/-- `coordsOf` on the list of extents. -/
theorem zipWith_strides_cons (d : ℕ) (ds : List ℕ) (rank : ℕ) :
    zipWith (fun stride d => rank / stride % d) (strides (d :: ds)) (d :: ds) =
      rank / ds.prod % d ::
        zipWith (fun stride d => rank / stride % d) (strides ds) ds := by
  rw [strides_cons, zipWith_cons_cons]

theorem zipWith_strides_add (ds : List ℕ) (h : ∀ d ∈ ds, 0 < d) (r k : ℕ) :
    zipWith (fun stride d => (r + k * ds.prod) / stride % d) (strides ds) ds =
      zipWith (fun stride d => r / stride % d) (strides ds) ds := by
  induction ds generalizing k with
  | nil => rfl
  | cons d ds ih =>
    have hds : ∀ e ∈ ds, 0 < e := fun e he => h e (mem_cons_of_mem _ he)
    have hpos : 0 < ds.prod := prod_pos hds
    have hassoc : k * (d :: ds).prod = k * d * ds.prod := by rw [prod_cons]; ring
    rw [zipWith_strides_cons, zipWith_strides_cons, hassoc, ih hds, Nat.add_mul_div_right _ _ hpos,
      Nat.add_mul_mod_self_right]

theorem coords_lt (rank : ℕ) : Forall₂ (· < ·) (grid.coordsOf rank) grid.dims := by
  obtain ⟨dims, hpos⟩ := grid
  simp only [coordsOf]
  induction dims with
  | nil => exact .nil
  | cons d ds ih =>
    rw [zipWith_strides_cons]
    exact .cons (Nat.mod_lt _ (hpos d mem_cons_self))
      (ih fun e he => hpos e (mem_cons_of_mem _ he))

/-- Every coordinate vector of the grid belongs to a rank. -/
theorem exists_rank {coords : List ℕ} (h : Forall₂ (· < ·) coords grid.dims) :
    ∃ rank < grid.nranks, grid.coordsOf rank = coords := by
  obtain ⟨dims, hpos⟩ := grid
  simp only [coordsOf, nranks] at h ⊢
  induction dims generalizing coords with
  | nil => cases h; exact ⟨0, by simp, rfl⟩
  | cons d ds ih =>
    cases h with
    | @cons c _ cs _ hc hcs =>
      have hds : ∀ e ∈ ds, 0 < e := fun e he => hpos e (mem_cons_of_mem _ he)
      obtain ⟨r, hr, hrc⟩ := ih hds hcs
      refine ⟨r + c * ds.prod, ?_, ?_⟩
      · calc r + c * ds.prod < ds.prod + c * ds.prod := by omega
          _ = (c + 1) * ds.prod := by ring
          _ ≤ d * ds.prod := Nat.mul_le_mul_right _ hc
          _ = (d :: ds).prod := (prod_cons).symm
      · have hdiv : (r + c * ds.prod) / ds.prod = c := by
          rw [Nat.add_mul_div_right _ _ (prod_pos hds), Nat.div_eq_of_lt hr, Nat.zero_add]
        rw [zipWith_strides_cons, zipWith_strides_add ds hds, hdiv, hrc, Nat.mod_eq_of_lt hc]

end Grid

/-! ### Ownership along one axis -/

/-- Load-balanced contiguous block `[lo, hi)` of `range n` for coordinate `coord` of `parts`. -/
def blockBounds (n parts coord : ℕ) : ℕ × ℕ :=
  let base := n / parts
  let rem := n % parts
  let lo := coord * base + min coord rem
  let hi := lo + base + (if coord < rem then 1 else 0)
  (lo, hi)

/-- Block width applied on a split axis: the declared one for `blockCyclic`, else 1. -/
def effectiveBlockSize (axis : AxisDist) : ℕ :=
  match axis.scheme with
  | .blockCyclic => (max 1 axis.blockSize).toNat
  | _ => 1

/-- The indices of a length-`n` split axis dealt to coordinate `coord` of `parts`. -/
def dealt (n parts coord : ℕ) (axis : AxisDist) : List ℕ :=
  if axis.scheme = .block then
    let (lo, hi) := blockBounds n parts coord
    List.range' lo (hi - lo)
  else (List.range n).filter fun i => i / effectiveBlockSize axis % parts == coord

/-- The indices of a length-`n` axis that grid coordinates `coords` own. -/
def ownedIndices (n : ℕ) (axis : AxisDist) (grid : Grid) (coords : List ℕ) :
    Except PyErr (List ℕ) :=
  match axis.gridDim with
  | none => .ok (List.range n)
  | some g => do
    let parts ← item grid.dims g
    let coord ← item coords g
    return dealt n parts coord axis

variable {axis : AxisDist} {grid : Grid} {parts : ℕ} {coords : List ℕ} {c n i p : ℕ}
variable {shape : List ℕ} {dist : ArrayDist} {lists : List (List ℕ)} {rank : ℕ}

theorem ownedIndices_whole (h : axis.gridDim = none) (n : ℕ) (grid : Grid) (coords : List ℕ) :
    ownedIndices n axis grid coords = .ok (List.range n) := by
  simp only [ownedIndices, h]

theorem ownedIndices_split {g : ℕ} (h : axis.gridDim = some g) (hp : grid.dims[g]? = some parts)
    (hc : coords[g]? = some c) (n : ℕ) :
    ownedIndices n axis grid coords = .ok (dealt n parts c axis) := by
  have hp' : item grid.dims g = .ok parts := item_eq_ok.2 hp
  have hc' : item coords g = .ok c := item_eq_ok.2 hc
  simp only [ownedIndices, h, hp', hc']
  rfl

theorem one_le_effectiveBlockSize (axis : AxisDist) : 1 ≤ effectiveBlockSize axis := by
  unfold effectiveBlockSize
  split <;> omega

theorem blockBounds_snd (n parts coord : ℕ) :
    (blockBounds n parts coord).2 = (blockBounds n parts (coord + 1)).1 := by
  simp only [blockBounds, Nat.succ_mul]
  split_ifs <;> omega

theorem blockBounds_fst_mono (n parts : ℕ) : Monotone fun c => (blockBounds n parts c).1 := by
  refine monotone_nat_of_le_succ fun c => ?_
  simp only [blockBounds, Nat.succ_mul]
  generalize n / parts = base
  omega

theorem blockBounds_parts (hp : 0 < parts) (n : ℕ) :
    (blockBounds n parts parts).1 = n := by
  have hmin : min parts (n % parts) = n % parts := by
    have := Nat.mod_lt n hp
    omega
  simp only [blockBounds, hmin]
  exact Nat.div_add_mod n parts

theorem mem_dealt_block (hs : axis.scheme = .block) :
    i ∈ dealt n parts c axis ↔
      (blockBounds n parts c).1 ≤ i ∧ i < (blockBounds n parts (c + 1)).1 := by
  have hmono := blockBounds_fst_mono n parts (Nat.le_succ c)
  simp only at hmono
  rw [dealt, if_pos hs, mem_range'_1, blockBounds_snd]
  omega

theorem mem_dealt_cyclic (hs : axis.scheme ≠ .block) :
    i ∈ dealt n parts c axis ↔ i < n ∧ i / effectiveBlockSize axis % parts = c := by
  rw [dealt, if_neg hs, mem_filter, mem_range, beq_iff_eq]

/-- A monotone ladder from `0` up to `f p` catches every number below `f p` on one rung. -/
theorem exists_rung {f : ℕ → ℕ} (h0 : f 0 = 0) (hi : i < f p) :
    ∃ c < p, f c ≤ i ∧ i < f (c + 1) := by
  induction p with
  | zero => omega
  | succ p ih =>
    by_cases hp : i < f p
    · obtain ⟨c, hc, hl, hu⟩ := ih hp
      exact ⟨c, by omega, hl, hu⟩
    · exact ⟨p, by omega, by omega, hi⟩

/-- Every index of a split axis is dealt to some coordinate. -/
theorem exists_owner (hp : 0 < parts) (axis : AxisDist) (hi : i < n) :
    ∃ c < parts, i ∈ dealt n parts c axis := by
  by_cases hs : axis.scheme = .block
  · have h0 : (blockBounds n parts 0).1 = 0 := by simp [blockBounds]
    obtain ⟨c, hc, hl, hu⟩ := exists_rung (f := fun c => (blockBounds n parts c).1) h0
      (p := parts) (i := i) (by simpa only [blockBounds_parts hp] using hi)
    exact ⟨c, hc, (mem_dealt_block hs).2 ⟨hl, hu⟩⟩
  · exact ⟨i / effectiveBlockSize axis % parts, Nat.mod_lt _ hp,
      (mem_dealt_cyclic hs).2 ⟨hi, rfl⟩⟩

/-- No index of a split axis is dealt to two coordinates. -/
theorem owner_unique {c' : ℕ} (h : i ∈ dealt n parts c axis) (h' : i ∈ dealt n parts c' axis) :
    c = c' := by
  by_cases hs : axis.scheme = .block
  · obtain ⟨hl, hu⟩ := (mem_dealt_block hs).1 h
    obtain ⟨hl', hu'⟩ := (mem_dealt_block hs).1 h'
    have hmono := blockBounds_fst_mono n parts
    -- two different rungs of a monotone ladder do not overlap
    rcases Nat.lt_trichotomy c c' with hlt | heq | hgt
    · have hle := hmono (show c + 1 ≤ c' by omega)
      simp only at hle
      omega
    · exact heq
    · have hle := hmono (show c' + 1 ≤ c by omega)
      simp only at hle
      omega
  · rw [← ((mem_dealt_cyclic hs).1 h).2, ← ((mem_dealt_cyclic hs).1 h').2]

theorem lt_of_mem_dealt (hc : c < parts) (h : i ∈ dealt n parts c axis) : i < n := by
  by_cases hs : axis.scheme = .block
  · have hu := ((mem_dealt_block hs).1 h).2
    have hle := blockBounds_fst_mono n parts (show c + 1 ≤ parts by omega)
    simp only [blockBounds_parts (show 0 < parts by omega)] at hle
    omega
  · exact ((mem_dealt_cyclic hs).1 h).1

theorem nodup_dealt (n parts c : ℕ) (axis : AxisDist) : (dealt n parts c axis).Nodup := by
  unfold dealt
  split_ifs
  · exact nodup_range'
  · exact nodup_range.filter _

/-! ### Tiles -/

variable {α : Type}
variable {a : NdArray α} {tiles : List (NdArray α)}

/-- The owned indices of every axis; the text is the source's. -/
def axisIndexLists (shape : List ℕ) (dist : ArrayDist) (grid : Grid) (coords : List ℕ) :
    Except PyErr (List (List ℕ)) := do
  if dist.axes.length ≠ shape.length then
    throw (.valueError (s!"ArrayDist has {dist.axes.length} axes but the array has " ++
      s!"{shape.length} dimension(s)"))
  (shape.zip dist.axes).mapM fun p => ownedIndices p.1 p.2 grid coords

/-- The shape of `rank`'s local tile. -/
def localShape (shape : List ℕ) (dist : ArrayDist) (grid : Grid) (rank : ℕ) :
    Except PyErr (List ℕ) :=
  if dist.replicated then .ok shape
  else do
    let lists ← axisIndexLists shape dist grid (grid.coordsOf rank)
    return lists.map List.length

/-- Partition `a` into one tile per rank. -/
def scatter (a : NdArray α) (dist : ArrayDist) (grid : Grid) : Except PyErr (List (NdArray α)) :=
  if dist.replicated then .ok (replicate grid.nranks a)
  else (List.range grid.nranks).mapM fun rank => do
    let lists ← axisIndexLists a.shape dist grid (grid.coordsOf rank)
    orRaise .indexError (a.ixGet lists)

/-- `out[...] = tile`, for tiles of `out`'s own shape (the only ones a caller has). -/
def assignAll (out tile : NdArray α) : Except PyErr (NdArray α) :=
  if tile.shape = out.shape then .ok tile
  else .error (.valueError "could not broadcast input array")

/-- Write `rank`'s tile at the indices it owns. -/
def gatherStep (tiles : List (NdArray α)) (dist : ArrayDist) (grid : Grid)
    (globalShape : List ℕ) (out : NdArray α) (rank : ℕ) : Except PyErr (NdArray α) := do
  let lists ← axisIndexLists globalShape dist grid (grid.coordsOf rank)
  let tile ← item tiles rank
  orRaise .indexError (out.ixSet lists tile)

/-- Rebuild the global array from the tiles.  `fresh` is what the new buffer held. -/
def gather (tiles : List (NdArray α)) (dist : ArrayDist) (grid : Grid) (globalShape : List ℕ)
    (fresh : ℕ → α) : Except PyErr (NdArray α) :=
  let out := NdArray.empty globalShape fresh
  if dist.replicated then do
    let tile ← item tiles 0
    assignAll out tile
  else (List.range grid.nranks).foldlM (gatherStep tiles dist grid globalShape) out

theorem axisIndexLists_eq_ok :
    axisIndexLists shape dist grid coords = .ok lists ↔
      dist.axes.length = shape.length ∧
        Forall₂ (fun p l => ownedIndices p.1 p.2 grid coords = .ok l)
          (shape.zip dist.axes) lists := by
  unfold axisIndexLists
  by_cases h : dist.axes.length = shape.length
  · simp [h, mapM_eq_ok]
  · simp [h, bind, Except.bind, throw, throwThe, MonadExceptOf.throw]

theorem length_localShape {s : List ℕ} (h : localShape shape dist grid rank = .ok s) :
    s.length = shape.length := by
  unfold localShape at h
  split_ifs at h
  · cases h; rfl
  · obtain ⟨lists, hl, hs⟩ := bind_eq_ok.1 h
    obtain ⟨hlen, hall⟩ := axisIndexLists_eq_ok.1 hl
    have := hall.length_eq
    cases hs
    rw [length_map, ← this, length_zip, hlen, Nat.min_self]

/-- A grid coordinate owns only indices of the axis. -/
theorem lt_of_owned {l : List ℕ} (h : ownedIndices n axis grid (grid.coordsOf rank) = .ok l) :
    ∀ i ∈ l, i < n := by
  cases hg : axis.gridDim with
  | none =>
    rw [ownedIndices_whole hg] at h
    cases h
    exact fun i hi => mem_range.1 hi
  | some g =>
    have hlt := grid.coords_lt rank
    simp only [ownedIndices, hg, bind_eq_ok, item_eq_ok, pure, Except.pure,
      Except.ok.injEq] at h
    obtain ⟨parts, hp, c, hc, rfl⟩ := h
    have hcp : c < parts := by
      obtain ⟨hc', rfl⟩ := List.getElem?_eq_some_iff.1 hc
      obtain ⟨hp', rfl⟩ := List.getElem?_eq_some_iff.1 hp
      exact hlt.get hc' hp'
    exact fun i hi => lt_of_mem_dealt hcp hi

theorem inBounds_of_axisIndexLists
    (h : axisIndexLists shape dist grid (grid.coordsOf rank) = .ok lists) :
    InBounds lists shape := by
  obtain ⟨hlen, hall⟩ := axisIndexLists_eq_ok.1 h
  obtain ⟨axes, replicated⟩ := dist
  simp only at hlen hall
  clear h
  induction shape generalizing axes lists with
  | nil =>
    rw [zip_nil_left, forall₂_nil_left_iff] at hall
    subst hall
    exact .nil
  | cons n ns ih =>
    cases axes with
    | nil => simp at hlen
    | cons ax axs =>
      cases hall with
      | cons hl hls => exact .cons (lt_of_owned hl) (ih axs (by simpa using hlen) hls)

/-- What every rank reads and writes: its index lists, inside the array. -/
theorem scatter_eq_ok (hrep : dist.replicated = false) :
    scatter a dist grid = .ok tiles ↔
      Forall₂ (fun rank t => ∃ lists,
        axisIndexLists a.shape dist grid (grid.coordsOf rank) = .ok lists ∧
          a.ixGet lists = some t) (List.range grid.nranks) tiles := by
  simp [scatter, hrep, mapM_eq_ok, bind_eq_ok]

/-- Every axis list matches the array and every split axis names a dimension of the grid. -/
def ArrayDist.Fits (dist : ArrayDist) (shape : List ℕ) (grid : Grid) : Prop :=
  dist.replicated = false → dist.axes.length = shape.length ∧
    ∀ axis ∈ dist.axes, ∀ g, axis.gridDim = some g → g < grid.dims.length

/-- No two axes are dealt to one grid dimension of more than one part. -/
def ArrayDist.Separated (dist : ArrayDist) (grid : Grid) : Prop :=
  dist.axes.Pairwise fun x y =>
    ∀ g, x.gridDim = some g → y.gridDim = some g → grid.dims[g]? = some 1

theorem exists_ownedIndices (h : ∀ g, axis.gridDim = some g → g < grid.dims.length) (n rank : ℕ) :
    ∃ l, ownedIndices n axis grid (grid.coordsOf rank) = .ok l := by
  cases hg : axis.gridDim with
  | none => exact ⟨_, ownedIndices_whole hg _ _ _⟩
  | some g =>
    have hlt := h g hg
    have hc : g < (grid.coordsOf rank).length := by rw [(grid.coords_lt rank).length_eq]; exact hlt
    exact ⟨_, ownedIndices_split hg (getElem?_eq_getElem hlt) (getElem?_eq_getElem hc) n⟩

theorem exists_axisIndexLists {shape : List ℕ} {dist : ArrayDist} {grid : Grid}
    (hrep : dist.replicated = false) (h : dist.Fits shape grid) (rank : ℕ) :
    ∃ lists, axisIndexLists shape dist grid (grid.coordsOf rank) = .ok lists := by
  obtain ⟨hlen, hdim⟩ := h hrep
  simp only [axisIndexLists_eq_ok, hlen, true_and]
  have hdim' : ∀ p ∈ shape.zip dist.axes, ∀ g, p.2.gridDim = some g → g < grid.dims.length :=
    fun p hp => hdim p.2 (of_mem_zip hp).2
  generalize shape.zip dist.axes = ps at hdim'
  induction ps with
  | nil => exact ⟨[], .nil⟩
  | cons p ps ih =>
    obtain ⟨l, hl⟩ := exists_ownedIndices (hdim' p mem_cons_self) p.1 rank
    obtain ⟨ls, hls⟩ := ih fun q hq => hdim' q (mem_cons_of_mem _ hq)
    exact ⟨l :: ls, .cons hl hls⟩

/-- Index lists are found only for an array that fits its distribution. -/
theorem fits_of_axisIndexLists (h : axisIndexLists shape dist grid coords = .ok lists) :
    dist.Fits shape grid := by
  obtain ⟨hlen, hall⟩ := axisIndexLists_eq_ok.1 h
  refine fun _ => ⟨hlen, fun axis hax g hg => ?_⟩
  obtain ⟨k, hk, rfl⟩ := getElem_of_mem hax
  have hz : k < (shape.zip dist.axes).length := by rw [length_zip]; omega
  have hl : k < lists.length := by rw [← hall.length_eq]; exact hz
  have hown := hall.get hz hl
  simp only [get_eq_getElem, getElem_zip, ownedIndices, hg, bind_eq_ok,
    item_eq_ok] at hown
  obtain ⟨parts, hp, -⟩ := hown
  exact (List.getElem?_eq_some_iff.1 hp).1

/-- `scatter` raises on no array that fits its distribution. -/
theorem exists_scatter (h : dist.Fits a.shape grid) : ∃ tiles, scatter a dist grid = .ok tiles := by
  cases hrep : dist.replicated with
  | true => exact ⟨replicate grid.nranks a, by simp [scatter, hrep]⟩
  | false =>
    simp only [scatter_eq_ok hrep]
    generalize List.range grid.nranks = ranks
    induction ranks with
    | nil => exact ⟨[], .nil⟩
    | cons r rs ih =>
      obtain ⟨lists, hl⟩ := exists_axisIndexLists hrep h r
      obtain ⟨t, ht⟩ := NdArray.ixGet_isSome (inBounds_of_axisIndexLists hl)
      obtain ⟨ts, hts⟩ := ih
      exact ⟨t :: ts, .cons ⟨lists, hl, ht⟩ hts⟩

/-- Changing a coordinate that a split axis does not use leaves what it owns unchanged. -/
theorem ownedIndices_congr {coords' : List ℕ}
    (h : ∀ g, axis.gridDim = some g → coords[g]? = coords'[g]?) :
    ownedIndices n axis grid coords = ownedIndices n axis grid coords' := by
  cases hg : axis.gridDim with
  | none => rw [ownedIndices_whole hg, ownedIndices_whole hg]
  | some g => simp only [ownedIndices, hg, item, h g hg]

/-- Every cell of the array has coordinates owning it along all axes at once. -/
theorem exists_owning_coords {axes : List AxisDist} (hlen : axes.length = shape.length)
    (hdim : ∀ axis ∈ axes, ∀ g, axis.gridDim = some g → g < grid.dims.length)
    (hsep : axes.Pairwise fun x y =>
      ∀ g, x.gridDim = some g → y.gridDim = some g → grid.dims[g]? = some 1) {idx : List ℕ}
    (hidx : Forall₂ (· < ·) idx shape) :
    ∃ coords lists, Forall₂ (· < ·) coords grid.dims ∧
      Forall₂ (fun p l => ownedIndices p.1 p.2 grid coords = .ok l) (shape.zip axes) lists ∧
      Forall₂ (· ∈ ·) idx lists := by
  -- induction on the axes, the coordinates of the later axes being adjusted for the first one
  induction axes generalizing shape idx with
  | nil =>
    cases shape with
    | nil => cases hidx; exact ⟨grid.coordsOf 0, [], grid.coords_lt 0, .nil, .nil⟩
    | cons => simp at hlen
  | cons ax axs ih =>
    cases hidx with
    | nil => simp at hlen
    | @cons i n is ns hi his =>
      rw [pairwise_cons] at hsep
      obtain ⟨coords, lists, hlt, hown, hmem⟩ :=
        ih (by simpa using hlen) (fun x hx => hdim x (mem_cons_of_mem _ hx)) hsep.2 his
      cases hg : ax.gridDim with
      | none =>
        exact ⟨coords, List.range n :: lists, hlt, .cons (ownedIndices_whole hg _ _ _) hown,
          .cons (mem_range.2 hi) hmem⟩
      | some g =>
        have hgd : g < grid.dims.length := hdim ax mem_cons_self g hg
        have hp : grid.dims[g]? = some grid.dims[g] := getElem?_eq_getElem hgd
        have hpos : 0 < grid.dims[g] := grid.dims_pos _ (getElem_mem hgd)
        obtain ⟨c, hc, hci⟩ := exists_owner hpos ax hi
        have hgc : g < coords.length := by rw [hlt.length_eq]; exact hgd
        refine ⟨coords.set g c, dealt n grid.dims[g] c ax :: lists, ?_, .cons ?_ ?_,
          .cons hci hmem⟩
        · rw [forall₂_iff_get]
          refine ⟨by simpa using hlt.length_eq, fun k h₁ h₂ => ?_⟩
          have hk := hlt.get (by simpa using h₁) h₂
          simp only [get_eq_getElem, getElem_set] at hk ⊢
          split_ifs with hkg
          · subst hkg; exact hc
          · exact hk
        · exact ownedIndices_split hg hp (by simp [hgc]) n
        · have hkeep : ∀ p ∈ ns.zip axs, ownedIndices p.1 p.2 grid coords =
              ownedIndices p.1 p.2 grid (coords.set g c) := by
            refine fun p hp' => ownedIndices_congr fun g' hg' => ?_
            by_cases hgg : g' = g
            · -- a shared grid dimension has one part, so both coordinates are 0
              subst hgg
              have hone := hsep.1 p.2 (of_mem_zip hp').2 g' hg hg'
              rw [hp, some.injEq] at hone
              have hk : coords[g'] < grid.dims[g'] := hlt.get hgc hgd
              have hc0 : coords[g'] = c := by omega
              simp [hgc, hc0]
            · simp [getElem?_set_ne (Ne.symm hgg)]
          refine ((forall₂_and_left _ _).2 ⟨hkeep, hown⟩).imp fun p l h => ?_
          rw [← h.1]
          exact h.2

/-- Every cell of the array is in the tile of some rank. -/
theorem exists_owning_rank (hrep : dist.replicated = false) (hfit : dist.Fits shape grid)
    (hsep : dist.Separated grid) (hp : p < shape.prod) :
    ∃ rank < grid.nranks, ∃ lists,
      axisIndexLists shape dist grid (grid.coordsOf rank) = .ok lists ∧
        p ∈ positions shape lists := by
  obtain ⟨hlen, hdim⟩ := hfit hrep
  obtain ⟨idx, hidx, rfl⟩ := mem_positions_range hp
  obtain ⟨coords, lists, hlt, hown, hmem⟩ := exists_owning_coords hlen hdim hsep hidx
  obtain ⟨rank, hrank, rfl⟩ := grid.exists_rank hlt
  exact ⟨rank, hrank, lists, axisIndexLists_eq_ok.2 ⟨hlen, hown⟩, mem_positions.2 ⟨idx, hmem, rfl⟩⟩

/-- The gather loop over `ranks`: cells that hold the element of `a` keep it, and every cell a
rank of the loop owns gets it. -/
theorem foldlM_gatherStep (ranks : List ℕ)
    (h : ∀ r ∈ ranks, ∃ lists t, axisIndexLists a.shape dist grid (grid.coordsOf r) = .ok lists ∧
      tiles[r]? = some t ∧ a.ixGet lists = some t) (out : NdArray α) (hs : out.shape = a.shape) :
    ∃ out' : NdArray α, ranks.foldlM (gatherStep tiles dist grid a.shape) out = .ok out' ∧
      out'.shape = a.shape ∧
      (∀ p : ℕ, out.data[p]? = a.data[p]? → out'.data[p]? = a.data[p]?) ∧
      ∀ r ∈ ranks, ∀ lists, axisIndexLists a.shape dist grid (grid.coordsOf r) = .ok lists →
        ∀ p ∈ positions a.shape lists, out'.data[p]? = a.data[p]? := by
  induction ranks generalizing out with
  | nil => exact ⟨out, rfl, hs, fun _ hp => hp, by simp⟩
  | cons r rs ih =>
    obtain ⟨lists, t, hl, ht, hget⟩ := h r mem_cons_self
    obtain ⟨out₁, hset, hs₁, hcell⟩ := NdArray.exists_ixSet_ixGet hget hs
    obtain ⟨out', hloop, hs', hkeep, hown⟩ :=
      ih (fun q hq => h q (mem_cons_of_mem _ hq)) out₁ hs₁
    have hstep : gatherStep tiles dist grid a.shape out r = .ok out₁ := by
      simp only [gatherStep, bind_eq_ok, item_eq_ok, orRaise_eq_ok]
      exact ⟨lists, hl, t, ht, hset⟩
    refine ⟨out', ?_, hs', fun p hp => hkeep p ?_, ?_⟩
    · rw [foldlM_cons, hstep]
      exact hloop
    · rw [hcell]
      split_ifs
      · rfl
      · exact hp
    · intro q hq lists' hl' p hp
      rcases mem_cons.1 hq with rfl | hq
      · rw [hl] at hl'
        cases hl'
        exact hkeep p (by rw [hcell, if_pos hp])
      · exact hown q hq lists' hl' p hp

/-- **Gathering the scattered tiles rebuilds the array**, whatever the new buffer held. -/
theorem gather_scatter (h : scatter a dist grid = .ok tiles)
    (hsep : dist.replicated = false → dist.Separated grid) (fresh : ℕ → α) :
    gather tiles dist grid a.shape fresh = .ok a := by
  cases hrep : dist.replicated with
  | true =>
    have h0 : tiles[0]? = some a := by
      simp only [scatter, hrep, ↓reduceIte, Except.ok.injEq] at h
      subst h
      simp [grid.nranks_pos]
    simp only [gather, hrep, ↓reduceIte, bind_eq_ok, item_eq_ok]
    exact ⟨a, h0, by simp [assignAll, NdArray.empty]⟩
  | false =>
    have hall := (scatter_eq_ok hrep).1 h
    have hlen : tiles.length = grid.nranks := by simpa using hall.length_eq.symm
    have htile : ∀ r ∈ List.range grid.nranks, ∃ lists t,
        axisIndexLists a.shape dist grid (grid.coordsOf r) = .ok lists ∧
          tiles[r]? = some t ∧ a.ixGet lists = some t := by
      intro r hr
      have hr' : r < tiles.length := by rw [hlen]; exact mem_range.1 hr
      have hget := hall.get (i := r) (by simpa using hr) hr'
      simp only [get_eq_getElem, getElem_range] at hget
      obtain ⟨lists, hl, ht⟩ := hget
      exact ⟨lists, tiles[r], hl, getElem?_eq_getElem hr', ht⟩
    obtain ⟨out', hloop, hs', -, hown⟩ :=
      foldlM_gatherStep _ htile (.empty a.shape fresh) rfl
    obtain ⟨lists₀, -, hl₀, -⟩ := htile 0 (mem_range.2 grid.nranks_pos)
    have hfit := fits_of_axisIndexLists hl₀
    simp only [gather, hrep, Bool.false_eq_true, ↓reduceIte, hloop, Except.ok.injEq]
    refine NdArray.ext_data hs' (ext_getElem? fun p => ?_)
    by_cases hp : p < a.shape.prod
    · obtain ⟨rank, hrank, lists, hl, hmem⟩ := exists_owning_rank hrep hfit (hsep hrep) hp
      exact hown rank (mem_range.2 hrank) lists hl p hmem
    · rw [getElem?_eq_none (by rw [out'.size_eq, hs']; omega),
        getElem?_eq_none (by rw [a.size_eq]; omega)]

/-- Two gather loops over the same tiles agree on every cell a rank of the loop owns. -/
theorem foldlM_gatherStep_agree (ranks : List ℕ)
    (h : ∀ r ∈ ranks, ∃ lists t, axisIndexLists shape dist grid (grid.coordsOf r) = .ok lists ∧
      tiles[r]? = some t ∧ t.shape = lists.map List.length) (out out' : NdArray α)
    (hs : out.shape = shape) (hs' : out'.shape = shape) :
    ∃ r r' : NdArray α, ranks.foldlM (gatherStep tiles dist grid shape) out = .ok r ∧
      ranks.foldlM (gatherStep tiles dist grid shape) out' = .ok r' ∧
      r.shape = shape ∧ r'.shape = shape ∧
      (∀ p : ℕ, out.data[p]? = out'.data[p]? → r.data[p]? = r'.data[p]?) ∧
      ∀ q ∈ ranks, ∀ lists, axisIndexLists shape dist grid (grid.coordsOf q) = .ok lists →
        ∀ p ∈ positions shape lists, r.data[p]? = r'.data[p]? := by
  induction ranks generalizing out out' with
  | nil => exact ⟨out, out', rfl, rfl, hs, hs', fun _ hp => hp, by simp⟩
  | cons q rest ih =>
    obtain ⟨lists, t, hl, ht, htile⟩ := h q mem_cons_self
    obtain ⟨out₁, out₁', hset, hset', hs₁, hs₁', hcell⟩ :=
      NdArray.exists_ixSet_agree (hs.trans hs'.symm)
        (by rw [hs]; exact inBounds_of_axisIndexLists hl) htile
    obtain ⟨r, r', hloop, hloop', hr, hr', hkeep, hown⟩ :=
      ih (fun k hk => h k (mem_cons_of_mem _ hk)) out₁ out₁' (hs₁.trans hs) (hs₁'.trans hs')
    have hstep : gatherStep tiles dist grid shape out q = .ok out₁ := by
      simp only [gatherStep, bind_eq_ok, item_eq_ok, orRaise_eq_ok]
      exact ⟨lists, hl, t, ht, hset⟩
    have hstep' : gatherStep tiles dist grid shape out' q = .ok out₁' := by
      simp only [gatherStep, bind_eq_ok, item_eq_ok, orRaise_eq_ok]
      exact ⟨lists, hl, t, ht, hset'⟩
    refine ⟨r, r', ?_, ?_, hr, hr', fun p hp => hkeep p (hcell p (.inr hp)), ?_⟩
    · rw [foldlM_cons, hstep]; exact hloop
    · rw [foldlM_cons, hstep']; exact hloop'
    · intro k hk lists' hl' p hp
      rcases mem_cons.1 hk with rfl | hk
      · rw [hl] at hl'
        cases hl'
        exact hkeep p (hcell p (.inl (by rw [hs]; exact hp)))
      · exact hown k hk lists' hl' p hp

/-- Tiles of the shapes their ranks declare gather to one array, whatever the new buffer held. -/
theorem exists_gather
    (h : Forall₂ (fun rank t => localShape shape dist grid rank = .ok t.shape)
      (List.range grid.nranks) tiles) (hsep : dist.replicated = false → dist.Separated grid) :
    ∃ out, ∀ fresh, gather tiles dist grid shape fresh = .ok out := by
  have hget : ∀ r < grid.nranks, ∃ t, tiles[r]? = some t ∧
      localShape shape dist grid r = .ok t.shape := by
    intro r hr
    have hr' : r < tiles.length := by rw [← h.length_eq]; simpa using hr
    have hloc := h.get (i := r) (by simpa using hr) hr'
    simp only [get_eq_getElem, getElem_range] at hloc
    exact ⟨tiles[r], getElem?_eq_getElem hr', hloc⟩
  cases hrep : dist.replicated with
  | true =>
    obtain ⟨t, ht, hloc⟩ := hget 0 grid.nranks_pos
    simp only [localShape, hrep, ↓reduceIte, Except.ok.injEq] at hloc
    refine ⟨t, fun fresh => ?_⟩
    simp only [gather, hrep, ↓reduceIte, bind_eq_ok, item_eq_ok]
    exact ⟨t, ht, by simp [assignAll, NdArray.empty, hloc]⟩
  | false =>
    have htile : ∀ r ∈ List.range grid.nranks, ∃ lists t,
        axisIndexLists shape dist grid (grid.coordsOf r) = .ok lists ∧
          tiles[r]? = some t ∧ t.shape = lists.map List.length := by
      intro r hr
      obtain ⟨t, ht, hloc⟩ := hget r (mem_range.1 hr)
      simp only [localShape, hrep, Bool.false_eq_true, ↓reduceIte] at hloc
      obtain ⟨lists, hl, hshape⟩ := bind_eq_ok.1 hloc
      exact ⟨lists, t, hl, ht, (Except.ok.inj hshape).symm⟩
    obtain ⟨lists₀, -, hl₀, -⟩ := htile 0 (mem_range.2 grid.nranks_pos)
    have hfit := fits_of_axisIndexLists hl₀
    have hloop : ∀ fresh fresh', ∃ r : NdArray α,
        gather tiles dist grid shape fresh = .ok r ∧
          gather tiles dist grid shape fresh' = .ok r := by
      intro fresh fresh'
      obtain ⟨r, r', hloop, hloop', hr, hr', -, hown⟩ := foldlM_gatherStep_agree _ htile
        (.empty shape fresh) (.empty shape fresh') rfl rfl
      have hrr : r = r' := by
        refine NdArray.ext_data (hr.trans hr'.symm) (ext_getElem? fun p => ?_)
        by_cases hp : p < shape.prod
        · obtain ⟨rank, hrank, lists, hl, hmem⟩ := exists_owning_rank hrep hfit (hsep hrep) hp
          exact hown rank (mem_range.2 hrank) lists hl p hmem
        · rw [getElem?_eq_none (by rw [r.size_eq, hr]; omega),
            getElem?_eq_none (by rw [r'.size_eq, hr']; omega)]
      subst hrr
      simp only [gather, hrep, Bool.false_eq_true, ↓reduceIte]
      exact ⟨r, hloop, hloop'⟩
    by_cases hinh : Nonempty (ℕ → α)
    · obtain ⟨fresh₀⟩ := hinh
      obtain ⟨out, hout, -⟩ := hloop fresh₀ fresh₀
      refine ⟨out, fun fresh => ?_⟩
      obtain ⟨r, hr, hr'⟩ := hloop fresh₀ fresh
      rw [hout] at hr
      cases hr
      exact hr'
    · obtain ⟨t, -, -⟩ := hget 0 grid.nranks_pos
      exact ⟨t, fun fresh => (hinh ⟨fresh⟩).elim⟩

/-! ### Resolved descriptors -/

/-- The resolved distribution of one submission and binding. -/
structure Descriptor where
  grid : Grid
  /-- Each array's distribution, by name. -/
  arrays : List (String × ArrayDist)
  /-- The axes each size symbol sizes: `(array, axis)` in binding order. -/
  symbolAxes : List (String × List (String × ℕ)) := []
  deriving DecidableEq

namespace Descriptor

variable (d : Descriptor)

/-- The distribution used for `name`.  An array of at most one element is a wrapped scalar,
replicated whatever its layout. -/
def distFor (name : String) (globalShape : List ℕ) : Except PyErr ArrayDist :=
  if globalShape.prod ≤ 1 then .ok { replicated := true } else getItem d.arrays name

/-- Shape of `rank`'s tile of array `name`. -/
def localShape (name : String) (globalShape : List ℕ) (rank : ℕ) : Except PyErr (List ℕ) := do
  let dist ← d.distFor name globalShape
  Mpi.localShape globalShape dist d.grid rank

/-- Partition array `name` into one tile per rank. -/
def scatter (name : String) (a : NdArray α) : Except PyErr (List (NdArray α)) := do
  let dist ← d.distFor name a.shape
  Mpi.scatter a dist d.grid

/-- Reconstruct global array `name` from per-rank tiles. -/
def gather (name : String) (tiles : List (NdArray α)) (globalShape : List ℕ) (fresh : ℕ → α) :
    Except PyErr (NdArray α) := do
  let dist ← d.distFor name globalShape
  Mpi.gather tiles dist d.grid globalShape fresh

/-- What the axes a size symbol sizes have shown so far. -/
structure SymbolScan where
  /-- The distinct `(grid dimension, block width)` of the split ones. -/
  schemes : List (ℕ × ℕ) := []
  sizesReplicatedAxis : Bool := false
  /-- The local extent along the first split one. -/
  localVal : Option ℕ := none

/-- The distribution of a split axis of an array, with the grid dimension it is dealt to. -/
def splitAxis (arr : String) (axis : ℕ) : Option (ℕ × AxisDist) := do
  let ad ← d.arrays.lookup arr
  if ad.replicated then none
  else
    let axdist ← ad.axes[axis]?
    let g ← axdist.gridDim
    return (g, axdist)

/-- Look at one axis sized by a symbol of the given global value. -/
def scanAxis (value : PyNum) (coords : List ℕ) (s : SymbolScan) (candidate : String × ℕ) :
    Except PyErr SymbolScan :=
  match d.splitAxis candidate.1 candidate.2 with
  | none => .ok { s with sizesReplicatedAxis := true }
  | some (g, axdist) => do
    let schemes := s.schemes.insert (g, effectiveBlockSize axdist)
    match s.localVal with
    | some _ => return { s with schemes }
    | none =>
      let n ← value.toInt
      let owned ← ownedIndices n.toNat axdist d.grid coords
      return { s with schemes, localVal := some owned.length }

/-- The refusal of a symbol whose axes are split in different ways. -/
def conflict (sym : String) (schemes : List (ℕ × ℕ)) : PyErr :=
  let sorted := schemes.mergeSort fun x y => x.1 < y.1 || (x.1 == y.1 && x.2 ≤ y.2)
  .valueError (s!"size symbol '{sym}' sizes axes with CONFLICTING decompositions " ++
    listText (fun p => s!"({p.1}, {p.2})") sorted ++
    " (different grid dimension or per-rank block count), so its " ++
    "per-rank value is ambiguous. Decompose with DISTINCT symbols, one per extent")

/-- The local value of one size symbol, written over its global one when every axis it sizes is
split. -/
def localizeSymbol (globals : List (String × PyNum)) (coords : List ℕ)
    (out : List (String × PyNum)) (entry : String × List (String × ℕ)) :
    Except PyErr (List (String × PyNum)) :=
  match globals.lookup entry.1 with
  | none => .ok out
  | some value => do
    let scan ← entry.2.foldlM (d.scanAxis value coords) {}
    if 1 < scan.schemes.length then throw (conflict entry.1 scan.schemes)
    match scan.localVal, scan.sizesReplicatedAxis with
    | some n, false => return setItem out entry.1 (.int n)
    | _, _ => return out

/-- Each scalar as `rank` receives it: a size symbol as its local extent where every axis it sizes
is split the same way, everything else as the global value. -/
def localSizeScalars (globals : List (String × PyNum)) (rank : ℕ) :
    Except PyErr (List (String × PyNum)) :=
  d.symbolAxes.foldlM (d.localizeSymbol globals (d.grid.coordsOf rank)) globals

variable {d}
variable {name : String} {a : NdArray α} {tiles : List (NdArray α)}

theorem scatter_eq_ok :
    d.scatter name a = .ok tiles ↔
      ∃ dist, d.distFor name a.shape = .ok dist ∧ Mpi.scatter a dist d.grid = .ok tiles :=
  bind_eq_ok

/-- One tile per rank, each of the shape its rank declares. -/
theorem scatter_shape (h : d.scatter name a = .ok tiles) :
    Forall₂ (fun rank t => d.localShape name a.shape rank = .ok t.shape)
      (List.range d.grid.nranks) tiles := by
  obtain ⟨dist, hdist, ht⟩ := scatter_eq_ok.1 h
  have hlocal : ∀ rank, d.localShape name a.shape rank =
      Mpi.localShape a.shape dist d.grid rank := fun rank => by
    simp only [localShape, hdist]; rfl
  simp only [hlocal]
  cases hrep : dist.replicated with
  | true =>
    simp only [Mpi.scatter, hrep, ↓reduceIte, Except.ok.injEq] at ht
    subst ht
    rw [forall₂_iff_get]
    refine ⟨by simp, fun i h₁ h₂ => ?_⟩
    simp [Mpi.localShape, hrep]
  | false =>
    refine ((Mpi.scatter_eq_ok hrep).1 ht).imp fun rank t => ?_
    rintro ⟨lists, hl, hget⟩
    rw [NdArray.shape_ixGet hget]
    simp only [Mpi.localShape, hrep, Bool.false_eq_true, ↓reduceIte, bind_eq_ok]
    exact ⟨lists, hl, rfl⟩

theorem length_scatter_shape (h : d.scatter name a = .ok tiles) :
    ∀ t ∈ tiles, t.shape.length = a.shape.length := by
  intro t ht
  obtain ⟨r, hr, rfl⟩ := getElem_of_mem ht
  have hall := scatter_shape h
  have hlocal := hall.get (i := r) (by rw [hall.length_eq]; exact hr) hr
  obtain ⟨dist, -, hs⟩ := bind_eq_ok.1 hlocal
  exact length_localShape hs

theorem length_scatter (h : d.scatter name a = .ok tiles) : tiles.length = d.grid.nranks := by
  simpa using (scatter_shape h).length_eq.symm

theorem exists_gather {shape : List ℕ}
    (h : Forall₂ (fun rank t => d.localShape name shape rank = .ok t.shape)
      (List.range d.grid.nranks) tiles)
    (hsep : ∀ dist, d.distFor name shape = .ok dist → dist.replicated = false →
      dist.Separated d.grid) :
    ∃ out, ∀ fresh, d.gather name tiles shape fresh = .ok out := by
  have hlen := h.length_eq
  have h0 : 0 < tiles.length := by rw [← hlen]; simpa using d.grid.nranks_pos
  have hfirst := h.get (i := 0) (by simpa using d.grid.nranks_pos) h0
  obtain ⟨dist, hdist, -⟩ := bind_eq_ok.1 hfirst
  obtain ⟨out, hout⟩ := Mpi.exists_gather (h.imp fun rank t ht => by
    obtain ⟨dist', hdist', ht⟩ := bind_eq_ok.1 ht
    rw [hdist] at hdist'
    cases hdist'
    exact ht) (hsep dist hdist)
  refine ⟨out, fun fresh => ?_⟩
  simp only [gather, hdist]
  exact hout fresh

theorem gather_scatter (h : d.scatter name a = .ok tiles)
    (hsep : ∀ dist, d.distFor name a.shape = .ok dist → dist.replicated = false →
      dist.Separated d.grid) (fresh : ℕ → α) :
    d.gather name tiles a.shape fresh = .ok a := by
  obtain ⟨dist, hdist, ht⟩ := scatter_eq_ok.1 h
  simp only [gather, hdist]
  exact Mpi.gather_scatter ht (hsep dist hdist) fresh

/-- Sets of indices, one per coordinate, that deal `range n` out exactly. -/
structure Deals (n parts : ℕ) (own : ℕ → List ℕ) : Prop where
  disjoint : ∀ c < parts, ∀ c' < parts, c ≠ c' → (own c).Disjoint (own c')
  nodup : ∀ c < parts, (own c).Nodup
  covers : ∀ i, i < n ↔ ∃ c < parts, i ∈ own c

theorem deals_dealt {n parts : ℕ} (hp : 0 < parts) (axis : AxisDist) :
    Deals n parts fun c => dealt n parts c axis where
  disjoint _ _ _ _ hne _ hi hi' := hne (owner_unique hi hi')
  nodup c _ := nodup_dealt n parts c axis
  covers _ := ⟨fun hi => exists_owner hp axis hi, fun ⟨_, hc, hi⟩ => lt_of_mem_dealt hc hi⟩

/-- **Scatter and gather of a resolved descriptor.**  An array that fits its distribution is cut
into tiles; there is one tile per rank, of the shape declared for it; along a split axis the
ranks own, by their coordinate, index sets that deal the axis out exactly; and the tiles
gather back to the array when no two of its axes share a split grid dimension. -/
theorem scatter_spec (d : Descriptor) (name : String) (a : NdArray α) (fresh : ℕ → α) :
    (∀ dist, d.distFor name a.shape = .ok dist → dist.Fits a.shape d.grid →
      ∃ tiles, d.scatter name a = .ok tiles) ∧
    (∀ tiles, d.scatter name a = .ok tiles →
      Forall₂ (fun rank t => d.localShape name a.shape rank = .ok t.shape)
        (List.range d.grid.nranks) tiles ∧
      ((∀ dist, d.distFor name a.shape = .ok dist → dist.replicated = false →
          dist.Separated d.grid) →
        d.gather name tiles a.shape fresh = .ok a)) ∧
    ∀ (n : ℕ) (axis : AxisDist) (g parts : ℕ), axis.gridDim = some g →
      d.grid.dims[g]? = some parts →
      ∃ own, Deals n parts own ∧ ∀ rank, ∃ c < parts, (d.grid.coordsOf rank)[g]? = some c ∧
        ownedIndices n axis d.grid (d.grid.coordsOf rank) = .ok (own c) := by
  refine ⟨fun dist hdist hfit => ?_, fun tiles h => ⟨scatter_shape h, fun hsep => ?_⟩, ?_⟩
  · obtain ⟨tiles, ht⟩ := exists_scatter hfit
    exact ⟨tiles, scatter_eq_ok.2 ⟨dist, hdist, ht⟩⟩
  · exact gather_scatter h hsep fresh
  · intro n axis g parts hg hp
    obtain ⟨hgd, hparts⟩ := List.getElem?_eq_some_iff.1 hp
    have hpos : 0 < parts := hparts ▸ d.grid.dims_pos _ (getElem_mem hgd)
    refine ⟨fun c => dealt n parts c axis, deals_dealt hpos axis, fun rank => ?_⟩
    have hlt := d.grid.coords_lt rank
    have hgc : g < (d.grid.coordsOf rank).length := by rw [hlt.length_eq]; exact hgd
    have hc := hlt.get hgc hgd
    simp only [get_eq_getElem, hparts] at hc
    exact ⟨_, hc, getElem?_eq_getElem hgc,
      ownedIndices_split hg hp (getElem?_eq_getElem hgc) n⟩

/-- A 2-by-3 grid, rows dealt in blocks of two and columns round-robin. -/
def blockCyclicExample : Descriptor where
  grid := ⟨[2, 3], by decide⟩
  arrays := [("A", { axes := [{ gridDim := some 0, scheme := .blockCyclic, blockSize := 2 },
    { gridDim := some 1, scheme := .cyclic }] })]

theorem scatter_spec_blockCyclic :
    ∃ tiles, blockCyclicExample.scatter "A" (.empty [5, 4] id) = .ok tiles ∧
      blockCyclicExample.gather "A" tiles [5, 4] (fun _ => 0) = .ok (.empty [5, 4] id) := by
  have h := scatter_spec blockCyclicExample "A" (.empty [5, 4] id) fun _ => 0
  obtain ⟨tiles, ht⟩ := h.1 _ rfl fun _ => ⟨rfl, by simp [blockCyclicExample]⟩
  refine ⟨tiles, ht, (h.2.1 tiles ht).2 fun dist hd _ => ?_⟩
  cases hd
  simp [ArrayDist.Separated]

theorem two_ranks_pos : ∀ d ∈ [2], 0 < d := by decide

/-- Both axes on one grid dimension of two parts. -/
def sharedGridDim : Descriptor where
  grid := ⟨[2], two_ranks_pos⟩
  arrays := [("C", { axes := [{ gridDim := some 0 }, { gridDim := some 0 }] })]

/-- Both axes on one grid dimension: the ranks own the diagonal blocks only, and the gathered
array keeps what the new buffer held elsewhere. -/
theorem gather_scatter_shared_grid_dim :
    ∃ tiles, sharedGridDim.scatter "C" ⟨[2, 2], [1, 2, 3, 4], rfl⟩ = .ok tiles ∧
      sharedGridDim.gather "C" tiles [2, 2] (fun _ => 0) = .ok ⟨[2, 2], [1, 0, 0, 4], rfl⟩ ∧
      sharedGridDim.gather "C" tiles [2, 2] (fun _ => 0) ≠ .ok ⟨[2, 2], [1, 2, 3, 4], rfl⟩ :=
  ⟨[⟨[1, 1], [1], rfl⟩, ⟨[1, 1], [4], rfl⟩], by decide, by decide, by decide⟩

end Descriptor

end Mpi

end HpcAgentBench
