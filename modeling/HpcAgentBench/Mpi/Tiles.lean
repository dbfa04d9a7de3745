import HpcAgentBench.Lib.Select
import HpcAgentBench.Mpi.Descriptor
import Mathlib.Data.Rat.Floor

/-!
# Counter-based inputs of the distributed kernels

Every value of an input is computed from the seed, the array's name and the value's global flat
index, so a rank builds its own tile of an array without the rest: `makeTiles` generates the tile
of every input, `sliceTile` cuts one from a tensor that already exists.

A values function is handed whole chunks of indices.  Most compute every value from its own
index; the tokens of the mixture-of-experts layer are a transform of a whole row
(`tokenValues`).  `ArraySpec.MixesLast` says how many of the last axes a values function mixes.

## Main results

* `generate_eq` : what is generated does not depend on the chunks.
* `makeTiles_eq_slices` : where every rank holds the mixed axes whole, each rank's tile is the
  slice of the array at the indices it owns, and what `sliceTile` cuts from the array.
* `tokenValues_mixesLast` : the tokens mix one axis.
-/

namespace HpcAgentBench

open List

namespace Mpi

open NdArray

/-! ### The hash -/

/-- The low 32 bits. -/
def mask32 : ℕ := 0xFFFFFFFF

/-- A 32-bit avalanche mix of values in `[0, 2 ^ 32)`. -/
def mix32 (h : ℕ) : ℕ :=
  let h := h ^^^ (h >>> 16)
  let h := (h * 0x7FEB352D) &&& mask32
  let h := h ^^^ (h >>> 15)
  let h := (h * 0x5BD1E995) &&& mask32
  h ^^^ (h >>> 16)

/-- One bit of the cyclic redundancy check with the reflected polynomial. -/
def crc32Bit (c : ℕ) : ℕ := if c % 2 = 1 then (c >>> 1) ^^^ 0xEDB88320 else c >>> 1

/-- `zlib.crc32`. -/
def crc32 (bytes : List UInt8) : ℕ :=
  mask32 ^^^ bytes.foldl (fun c b => crc32Bit^[8] (c ^^^ b.toNat)) mask32

/-- The 32-bit key of one array's stream: a function of the seed and the array's name only. -/
def arrayKey (seed : ℕ) (name : String) : ℕ :=
  mix32 ((mix32 (seed &&& mask32) ^^^ crc32 name.toUTF8.data.toList) &&& mask32)

/-- A draw from `[0, 1)` on a `2 ^ -24` grid for a global index. -/
def uniform (index key : ℕ) : ℚ :=
  let h := mix32 ((index >>> 32) ^^^ key)
  let h := mix32 ((index &&& mask32) ^^^ h)
  let h := mix32 (h ^^^ mix32 (key ^^^ 0x9E3779B9))
  ((h >>> (32 - 24) : ℕ) : ℚ) * (1 / (1 <<< 24 : ℕ))

/-- A second independent stream derived from `key`. -/
def subKey (key salt : ℕ) : ℕ := mix32 ((key ^^^ (salt * 0x3C6EF372)) &&& mask32)

variable {h n : ℕ} {ns shape : List ℕ} {m axis rank world lo hi : ℕ} {grid : Grid}
variable {split : List (String × Option ℕ)} {whole : List String} {row : List ℚ} {k : ℕ}

example : crc32 "123456789".toUTF8.data.toList = 0xCBF43926 := by decide +kernel

/-! ### Layouts -/

variable {V α δ : Type}

/-- One kernel input: its global shape, how the values of a chunk are generated from their global
flat indices and the array's key, and whether it is an index. -/
structure ArraySpec (V : Type) where
  shape : List ℕ
  values : NdArray ℕ → ℕ → Except PyErr (NdArray V)
  integer : Bool := false

/-- What the tensors of a device do with a value. -/
structure Device (V α δ : Type) where
  int64 : δ
  /-- A value converted to an element type. -/
  convert : δ → V → α
  /-- What a new buffer holds. -/
  fresh : ℕ → α
  /-- Elements generated per chunk. -/
  chunkElements : ℕ

/-- `[lo, hi)` of a length-`n` axis owned by `rank` of `world`. -/
def blockRange (n : ℕ) (shard : ℕ × ℕ) : Except PyErr (ℕ × ℕ) :=
  if shard.2 = 0 then .error .zeroDivision else .ok (blockBounds n shard.2 shard.1)

/-- Per-axis `[lo, hi)` of one rank's tile; the whole array when replicated or unsharded. -/
def tileRanges (shape : List ℕ) (splitAxis : Option ℕ) (shard : Option (ℕ × ℕ)) :
    Except PyErr (List (ℕ × ℕ)) :=
  let ranges := shape.map fun n => (0, n)
  match shard, splitAxis with
  | some shard, some axis => do
    let n ← item shape axis
    let range ← blockRange n shard
    return ranges.set axis range
  | _, _ => .ok ranges

/-- Per-axis global indices of the contiguous-block tile on a single axis. -/
def tileIndexArrays (shape : List ℕ) (splitAxis : Option ℕ) (shard : Option (ℕ × ℕ)) :
    Except PyErr (List (List ℕ)) := do
  let ranges ← tileRanges shape splitAxis shard
  return ranges.map fun r => List.range' r.1 (r.2 - r.1)

/-- Per-axis global indices owned under a declared distribution; the whole extent when it is
absent or replicated. -/
def layoutIndexArrays (shape : List ℕ) (dist : Option ArrayDist) (grid : Grid)
    (coords : List ℕ) : Except PyErr (List (List ℕ)) :=
  match dist with
  | none => .ok (shape.map List.range)
  | some dist =>
    if dist.replicated then .ok (shape.map List.range)
    else if dist.axes.length ≠ shape.length then
      .error (.valueError (s!"layout has {dist.axes.length} axes but the array has " ++
        s!"{shape.length} dimension(s)"))
    else (shape.zip dist.axes).mapM fun p => ownedIndices p.1 p.2 grid coords

/-! ### Generation -/

/-- The strides of a row-major array. -/
def ArraySpec.strides (spec : ArraySpec V) : List ℕ :=
  (List.range spec.shape.length).map fun d => (spec.shape.drop (d + 1)).prod

/-- The part of the flat index that comes from the axes after the first. -/
def innerIndex (strides : List ℕ) (axisIndices : List (List ℕ)) : NdArray ℕ :=
  ((axisIndices.zip strides).drop 1).foldl
    (fun inner p => inner.outerAdd (vector (p.1.map (· * p.2)))) ⟨[], [0], rfl⟩

/-- Generate the rows `[start, stop)` of a tile into `out`. -/
def generateChunk (dev : Device V α δ) (spec : ArraySpec V) (key : ℕ) (outDtype : δ)
    (idx0 : List ℕ) (inner : NdArray ℕ) (rowsPerChunk : ℕ) (out : NdArray α) (start : ℕ) :
    Except PyErr (NdArray α) := do
  let stop := min idx0.length (start + rowsPerChunk)
  let stride ← item spec.strides 0
  let rows := vector ((idx0.extract start stop).map (· * stride))
  let values ← spec.values (rows.outerAdd inner) key
  orRaise (.runtimeError "The expanded size of the tensor must match the existing size")
    (out.setRows start stop (values.map (dev.convert outDtype)))

/-- Materialise one rank's tile, chunked along the first axis: `axisIndices` names, for every
axis, the global indices the rank owns. -/
def generate (dev : Device V α δ) (spec : ArraySpec V) (key : ℕ) (axisIndices : List (List ℕ))
    (dtype : δ) : Except PyErr (NdArray α) := do
  let shape := axisIndices.map List.length
  let outDtype := if spec.integer then dev.int64 else dtype
  let out := NdArray.empty shape dev.fresh
  if shape.prod = 0 then return out
  let inner := innerIndex spec.strides axisIndices
  let rowElements := max 1 (shape.drop 1).prod
  let rowsPerChunk := max 1 (dev.chunkElements / rowElements)
  let idx0 ← item axisIndices 0
  let starts := List.range' 0 ((idx0.length + rowsPerChunk - 1) / rowsPerChunk) rowsPerChunk
  starts.foldlM (generateChunk dev spec key outDtype idx0 inner rowsPerChunk) out

/-- The distribution an input is generated under, given the declared ones. -/
def declaredDist (layout : List (String × ArrayDist)) (whole : List String) (name : String) :
    Option ArrayDist :=
  if name ∈ whole then none else layout.lookup name

/-- The axis an input is split on by default. -/
def defaultAxis (split : List (String × Option ℕ)) (whole : List String) (name : String) :
    Except PyErr (Option ℕ) :=
  if name ∈ whole then .ok none else getItem split name

/-- Every input's tile for `shard` (all of it when there is none), in the order of `specs`.  An
input named in `whole` is generated whole on every rank; `layout` with `grid` overrides the
default split. -/
def makeTiles (dev : Device V α δ) (specs : List (String × ArraySpec V))
    (split : List (String × Option ℕ)) (seed : ℕ) (dtype : δ) (shard : Option (ℕ × ℕ))
    (whole : List String := []) (layout : Option (List (String × ArrayDist)) := none)
    (grid : Option Grid := none) : Except PyErr (List (NdArray α)) :=
  match layout with
  | some layout =>
    match grid, shard with
    | some grid, some (rank, _) =>
      specs.mapM fun (name, spec) => do
        let lists ← layoutIndexArrays spec.shape (declaredDist layout whole name) grid
          (grid.coordsOf rank)
        generate dev spec (arrayKey seed name) lists dtype
    | _, _ => .error (.valueError "make_tiles: layout requires both grid and shard=(rank, world)")
  | none =>
    specs.mapM fun (name, spec) => do
      let axis ← defaultAxis split whole name
      let lists ← tileIndexArrays spec.shape axis shard
      generate dev spec (arrayKey seed name) lists dtype

/-- `shard`'s tile of a global tensor that exists already. -/
def sliceTile (full : NdArray α) (splitAxis : Option ℕ) (shard : ℕ × ℕ)
    (layout : Option ArrayDist := none) (grid : Option Grid := none) :
    Except PyErr (NdArray α) :=
  match layout with
  | some layout =>
    match grid with
    | none => .error (.valueError "slice_tile: layout requires grid")
    | some grid =>
      if layout.replicated then .ok full
      else do
        let lists ← layoutIndexArrays full.shape (some layout) grid (grid.coordsOf shard.1)
        orRaise .indexError (full.indexSelectFrom 0 lists)
  | none =>
    match splitAxis with
    | none => .ok full
    | some axis => do
      let n ← item full.shape axis
      let (lo, hi) ← blockRange n shard
      orRaise (.runtimeError "start + length exceeds dimension size") (full.narrow axis lo (hi - lo))

/-! ### What a values function mixes -/

/-- The consecutive flat indices of the `p`-th run of `m`. -/
def run (m p : ℕ) : List ℕ := (List.range m).map (p * m + ·)

/-- The extents of the last `t` axes. -/
def lastAxes (t : ℕ) (shape : List ℕ) : List ℕ := shape.drop (shape.length - t)

/-- The values of the indices of one run of the last `t` axes are computed from these indices
alone, by `f`.  With `t = 0` every value is computed from its own index. -/
structure ArraySpec.MixesLast (spec : ArraySpec V) (t : ℕ) (f : ℕ → List ℕ → List V) : Prop where
  /-- The first axis, which is cut in chunks, is not mixed. -/
  le : t ≤ spec.shape.length - 1
  length : ∀ key r, r.length = (lastAxes t spec.shape).prod → (f key r).length = r.length
  values : ∀ (index : NdArray ℕ) key (runs : List (List ℕ)), index.shape.length = spec.shape.length →
    lastAxes t index.shape = lastAxes t spec.shape → index.data = runs.flatten →
    (∀ r ∈ runs, r.length = (lastAxes t spec.shape).prod) →
    ∃ v, spec.values index key = .ok v ∧ v.shape = index.shape ∧
      v.data = runs.flatMap (f key)

/-- The rank holds the last `t` axes whole. -/
def HoldsLast (t : ℕ) (shape : List ℕ) (lists : List (List ℕ)) : Prop :=
  lists.drop (shape.length - t) = (lastAxes t shape).map List.range

@[simp] theorem length_run (m p : ℕ) : (run m p).length = m := by
  rw [run, List.length_map, length_range]

theorem strides_eq_cons (spec : ArraySpec V) (h : spec.shape = n :: ns) :
    spec.strides = ns.prod :: (List.range ns.length).map fun d => (ns.drop (d + 1)).prod := by
  rw [ArraySpec.strides, h, length_cons, range_succ_eq_map, map_cons, map_map]
  rfl

/-- The broadcast sum over the axes adds the flat index of the rest of the axes. -/
theorem foldl_outerAdd (ns : List ℕ) {lists : List (List ℕ)} (h : lists.length = ns.length)
    (a : NdArray ℕ) :
    let out := (lists.zip ((List.range ns.length).map fun d => (ns.drop (d + 1)).prod)).foldl
      (fun inner p => inner.outerAdd (vector (p.1.map (· * p.2)))) a
    out.shape = a.shape ++ lists.map List.length ∧
      out.data = a.data.flatMap fun x => (positions ns lists).map (x + ·) := by
  induction ns generalizing lists a with
  | nil =>
    rw [length_nil, length_eq_zero_iff] at h
    subst h
    simp [positions, multiIndices, flatIndex]
  | cons n ns ih =>
    cases lists with
    | nil => cases h
    | cons l lists =>
      have hstrides : (List.range (n :: ns).length).map (fun d => ((n :: ns).drop (d + 1)).prod) =
          ns.prod :: (List.range ns.length).map fun d => (ns.drop (d + 1)).prod := by
        rw [length_cons, range_succ_eq_map, map_cons, map_map]
        rfl
      obtain ⟨hs, hd⟩ := ih (Nat.succ.inj h) (a.outerAdd (vector (l.map (· * ns.prod))))
      simp only [hstrides, zip_cons_cons, foldl_cons]
      refine ⟨by rw [hs]; simp [outerAdd, vector], ?_⟩
      rw [hd]
      simp only [outerAdd, vector, flatMap_assoc, map_map, positions_cons,
        flatMap_map, map_flatMap]
      refine flatMap_congr fun x _ => flatMap_congr fun i _ => ?_
      refine map_congr_left fun q _ => ?_
      simp only [Function.comp_apply]
      omega

/-- The indices of the axes after the first are the flat indices of their product. -/
theorem innerIndex_spec {spec : ArraySpec V} (h : spec.shape = n :: ns) {l : List ℕ}
    {lists : List (List ℕ)} (hlen : lists.length = ns.length) :
    (innerIndex spec.strides (l :: lists)).shape = lists.map List.length ∧
      (innerIndex spec.strides (l :: lists)).data = positions ns lists := by
  obtain ⟨hs, hd⟩ := foldl_outerAdd ns hlen ⟨[], [0], rfl⟩
  rw [innerIndex, strides_eq_cons spec h, zip_cons_cons, drop_one, tail_cons]
  exact ⟨by simpa using hs, by simpa using hd⟩

/-- The runs of the product of the first axes, the last `t` being whole. -/
theorem positions_runs {t : ℕ} {lists : List (List ℕ)} (hlen : lists.length = shape.length)
    (hlast : HoldsLast t shape lists) :
    positions shape lists =
      (positions (shape.take (shape.length - t)) (lists.take (shape.length - t))).flatMap
        (run (lastAxes t shape).prod) := by
  have hcut : (lists.take (shape.length - t)).length = (shape.take (shape.length - t)).length := by
    rw [length_take, length_take, hlen]
  have h := positions_append_whole (lastAxes t shape) hcut
  rw [← hlast, lastAxes, take_append_drop, take_append_drop] at h
  exact h

/-- The elements of the tile at the product of the lists. -/
def ArraySpec.tileData (spec : ArraySpec V) (t : ℕ) (f : ℕ → List ℕ → List V) (key : ℕ)
    (convert : V → α) (lists : List (List ℕ)) : List α :=
  (positions (spec.shape.take (spec.shape.length - t))
      (lists.take (spec.shape.length - t))).flatMap fun p =>
    (f key (run (lastAxes t spec.shape).prod p)).map convert

section Chunks

variable {spec : ArraySpec V} {t n : ℕ} {ns : List ℕ} {f : ℕ → List ℕ → List V}
  {ls : List (List ℕ)} {key : ℕ} {convert : V → α}

theorem holdsLast_cons (ht : t ≤ ns.length) (l : List ℕ) :
    HoldsLast t (n :: ns) (l :: ls) ↔
      ls.drop (ns.length - t) = (ns.drop (ns.length - t)).map List.range := by
  have hk : (n :: ns).length - t = (ns.length - t) + 1 := by rw [length_cons]; omega
  rw [HoldsLast, lastAxes, hk, drop_succ_cons, drop_succ_cons]

theorem length_flatMap_runs {β : Type} {m : ℕ} {g : ℕ → List β} (hg : ∀ p, (g p).length = m)
    (ps : List ℕ) : (ps.flatMap g).length = (ps.flatMap (run m)).length := by
  simp only [length_flatMap, hg, length_run]

theorem ArraySpec.MixesLast.length_map (hmix : spec.MixesLast t f) (p : ℕ) :
    ((f key (run (lastAxes t spec.shape).prod p)).map convert).length =
      (lastAxes t spec.shape).prod := by
  rw [List.length_map, hmix.length key _ (length_run _ _), length_run]

variable (key convert) in
theorem length_tileData (hmix : spec.MixesLast t f) {lists : List (List ℕ)}
    (hlen : lists.length = spec.shape.length) (hlast : HoldsLast t spec.shape lists) :
    (spec.tileData t f key convert lists).length = (lists.map List.length).prod := by
  rw [ArraySpec.tileData, length_flatMap_runs fun p => hmix.length_map p,
    ← positions_runs hlen hlast, length_positions]

theorem tileData_append (hshape : spec.shape = n :: ns) (ht : t ≤ ns.length) (l l' : List ℕ) :
    spec.tileData t f key convert ((l ++ l') :: ls) =
      spec.tileData t f key convert (l :: ls) ++ spec.tileData t f key convert (l' :: ls) := by
  have hk : spec.shape.length - t = (ns.length - t) + 1 := by
    rw [hshape, length_cons]; omega
  simp only [ArraySpec.tileData, hk, take_succ_cons, positions_cons_append,
    flatMap_append]

variable {idx0 : List ℕ} {start stop : ℕ}

variable (key) in
/-- One chunk: the rows `[start, stop)` of the tile, and no other. -/
theorem generateChunk_spec (dev : Device V α δ) (hmix : spec.MixesLast t f)
    (hshape : spec.shape = n :: ns) (hls : ls.length = ns.length)
    (hlast : HoldsLast t spec.shape (idx0 :: ls)) (outDtype : δ) (rowsPerChunk : ℕ)
    {out : NdArray α} (hout : out.shape = idx0.length :: ls.map List.length)
    (hstart : start < idx0.length) (hstop : stop = min idx0.length (start + rowsPerChunk)) :
    ∃ out', generateChunk dev spec key outDtype idx0 (innerIndex spec.strides (idx0 :: ls))
        rowsPerChunk out start = .ok out' ∧ out'.shape = out.shape ∧
      out'.data = out.data.take (start * (ls.map List.length).prod) ++
        spec.tileData t f key (dev.convert outDtype) (idx0.extract start stop :: ls) ++
        out.data.drop (stop * (ls.map List.length).prod) := by
  have ht : t ≤ ns.length := by simpa [hshape] using hmix.le
  obtain ⟨hinner, hpos⟩ := innerIndex_spec hshape (l := idx0) hls
  set chunk := idx0.extract start stop with hchunk
  have hclen : chunk.length = stop - start := by
    rw [hchunk, extract_eq_take_drop, length_take, length_drop]
    omega
  have hholds : HoldsLast t spec.shape (chunk :: ls) := by
    rw [hshape] at hlast ⊢
    exact (holdsLast_cons ht chunk).2 ((holdsLast_cons ht idx0).1 hlast)
  set index := (vector (chunk.map (· * ns.prod))).outerAdd (innerIndex spec.strides (idx0 :: ls))
    with hindex
  have hishape : index.shape = chunk.length :: ls.map List.length := by
    simp [hindex, outerAdd, vector, hinner]
  have hidata : index.data = positions spec.shape (chunk :: ls) := by
    rw [hshape, positions_cons]
    simp only [hindex, outerAdd, vector, hpos, flatMap_map]
  have hilast : lastAxes t index.shape = lastAxes t spec.shape := by
    have hmap := congrArg (List.map List.length) hholds
    rw [map_length_range, map_drop] at hmap
    rw [← hmap, lastAxes, hishape, hshape]
    simp [hls]
  obtain ⟨v, hv, hvs, hvd⟩ := hmix.values index key _ (by rw [hishape, hshape]; simp [hls]) hilast
    (by rw [hidata, positions_runs (by rw [hshape]; simp [hls]) hholds, flatMap_def])
    (by
      intro r hr
      obtain ⟨p, -, rfl⟩ := mem_map.1 hr
      exact length_run _ _)
  have hrows : (v.map (dev.convert outDtype)).shape = (stop - start) :: ls.map List.length := by
    rw [NdArray.map, hvs, hishape, hclen]
  obtain ⟨out', ho, hos, hod⟩ := exists_setRows hout (show start ≤ stop by omega)
    (show stop ≤ idx0.length by omega) hrows
  refine ⟨out', ?_, hos.trans hout.symm, ?_⟩
  · have hstride : item spec.strides 0 = .ok ns.prod := by
      rw [strides_eq_cons spec hshape]; rfl
    simp only [generateChunk, hstride, ← hstop, ← hchunk, bind_eq_ok]
    exact ⟨_, rfl, v, hv, orRaise_eq_ok.2 ho⟩
  · rw [hod]
    simp only [NdArray.map, hvd, ArraySpec.tileData, flatMap_map, map_flatMap]

theorem take_append_extract (l : List ℕ) (h : start ≤ stop) :
    l.take start ++ l.extract start stop = l.take stop := by
  obtain ⟨k, rfl⟩ := Nat.exists_eq_add_of_le h
  rw [extract_eq_take_drop, Nat.add_sub_cancel_left, take_add]

variable (key) in
/-- The chunks from `start` on complete the tile. -/
theorem foldlM_generateChunk (dev : Device V α δ) (hmix : spec.MixesLast t f)
    (hshape : spec.shape = n :: ns) (hls : ls.length = ns.length)
    (hlast : HoldsLast t spec.shape (idx0 :: ls)) (outDtype : δ) (rowsPerChunk count start : ℕ)
    (out : NdArray α) (hcover : idx0.length ≤ start + count * rowsPerChunk)
    (hinside : ∀ i < count, start + i * rowsPerChunk < idx0.length)
    (hout : out.shape = idx0.length :: ls.map List.length)
    (hdone : out.data.take (start * (ls.map List.length).prod) =
      spec.tileData t f key (dev.convert outDtype) (idx0.take start :: ls)) :
    ∃ out', (List.range' start count rowsPerChunk).foldlM (generateChunk dev spec key outDtype
        idx0 (innerIndex spec.strides (idx0 :: ls)) rowsPerChunk) out = .ok out' ∧
      out'.shape = idx0.length :: ls.map List.length ∧
      out'.data = spec.tileData t f key (dev.convert outDtype) (idx0 :: ls) := by
  have ht : t ≤ ns.length := by simpa [hshape] using hmix.le
  have hlength : ∀ o : NdArray α, o.shape = idx0.length :: ls.map List.length →
      o.data.length = idx0.length * (ls.map List.length).prod := fun o ho => by
    rw [o.size_eq, ho, prod_cons]
  induction count generalizing start out with
  | zero =>
    rw [Nat.zero_mul, Nat.add_zero] at hcover
    refine ⟨out, rfl, hout, ?_⟩
    rwa [take_of_length_le hcover, take_of_length_le] at hdone
    rw [hlength out hout]
    exact Nat.mul_le_mul_right _ hcover
  | succ count ih =>
    have hstart : start < idx0.length := by simpa using hinside 0 (Nat.succ_pos _)
    obtain ⟨out', ho, hos, hod⟩ := generateChunk_spec key dev hmix hshape hls hlast outDtype rowsPerChunk hout hstart rfl
    rw [range'_succ, foldlM_cons, ho]
    refine ih _ _ ?_ ?_ (hos.trans hout) ?_
    · rw [Nat.succ_mul] at hcover; omega
    · intro i hi
      have := hinside (i + 1) (by omega)
      rw [Nat.succ_mul] at this
      omega
    · set w := (ls.map List.length).prod with hw
      set stop := min idx0.length (start + rowsPerChunk) with hstop
      -- what is written now lies before `stop`, and nothing of the tile lies behind it
      have hlen : (spec.tileData t f key (dev.convert outDtype) (idx0.take stop :: ls)).length =
          stop * w := by
        rw [length_tileData _ _ hmix (by rw [hshape, length_cons, length_cons, hls])]
        · rw [map_cons, prod_cons, length_take, min_eq_left (by omega)]
        · rw [hshape] at hlast ⊢
          exact (holdsLast_cons ht _).2 ((holdsLast_cons ht idx0).1 hlast)
      rw [hdone, ← tileData_append hshape ht, take_append_extract _ (by omega)] at hod
      have htake : out'.data.take (stop * w) =
          spec.tileData t f key (dev.convert outDtype) (idx0.take stop :: ls) := by
        rw [hod, take_append_of_le_length hlen.ge, take_of_length_le hlen.le]
      rcases Nat.le_total (start + rowsPerChunk) idx0.length with hle | hle
      · rwa [hstop, min_eq_right hle] at htake
      · rw [hstop, min_eq_left hle] at htake
        have hall := hlength out' (hos.trans hout)
        rw [take_of_length_le hall.le, take_of_length_le le_rfl] at htake
        rw [take_of_length_le (by rw [hall]; exact Nat.mul_le_mul_right _ hle), htake,
          take_of_length_le hle]

end Chunks

/-! ### Tiles are slices -/

variable {spec : ArraySpec V} {t : ℕ} {f : ℕ → List ℕ → List V} {lists : List (List ℕ)}
variable {full : NdArray α} {runs : List (List α)}

theorem generate_nil (dev : Device V α δ) (spec : ArraySpec V) (key : ℕ) (dtype : δ) :
    generate dev spec key [] dtype = .error .indexError := rfl

/-- **What is generated does not depend on the chunks.**  The tile at the product of the lists
holds, for every run of the last `t` axes, the values of the run's own flat indices. -/
theorem generate_eq (dev : Device V α δ) (hmix : spec.MixesLast t f) (key : ℕ)
    (hne : spec.shape ≠ []) (hlen : lists.length = spec.shape.length)
    (hlast : HoldsLast t spec.shape lists) (dtype : δ) :
    ∃ out, generate dev spec key lists dtype = .ok out ∧ out.shape = lists.map List.length ∧
      out.data = spec.tileData t f key
        (dev.convert (if spec.integer then dev.int64 else dtype)) lists := by
  obtain ⟨n, ns, hshape⟩ := exists_cons_of_ne_nil hne
  obtain ⟨idx0, ls, rfl⟩ : ∃ idx0 ls, lists = idx0 :: ls :=
    exists_cons_of_length_pos (by rw [hlen, hshape]; simp)
  have hls : ls.length = ns.length := by simpa [hshape] using hlen
  by_cases hprod : ((idx0 :: ls).map List.length).prod = 0
  · refine ⟨NdArray.empty ((idx0 :: ls).map List.length) dev.fresh, ?_, rfl, ?_⟩
    · rw [generate, if_pos hprod]; rfl
    · have hzero := length_tileData key (dev.convert (if spec.integer then dev.int64 else dtype))
        hmix hlen hlast
      rw [hprod, length_eq_zero_iff] at hzero
      rw [hzero]
      simp only [NdArray.empty, hprod, range_zero, map_nil]
  · set rows := max 1 (dev.chunkElements / max 1 (((idx0 :: ls).map List.length).drop 1).prod)
      with hrows
    have hpos : 0 < rows := by omega
    obtain ⟨out, ho, hos, hod⟩ := foldlM_generateChunk key dev hmix hshape hls hlast
      (if spec.integer then dev.int64 else dtype) rows ((idx0.length + rows - 1) / rows) 0
      (NdArray.empty ((idx0 :: ls).map List.length) dev.fresh)
      (by
        have := Nat.lt_div_mul_add hpos (a := idx0.length + rows - 1)
        omega)
      (by
        intro i hi
        have hle := (Nat.le_div_iff_mul_le hpos).1 (Nat.succ_le_of_lt hi)
        rw [Nat.succ_mul] at hle
        omega)
      rfl
      (by simp [ArraySpec.tileData, hshape, positions, multiIndices,
          show ns.length + 1 - t = ns.length - t + 1 by
            have := hmix.le; rw [hshape, length_cons] at this; omega])
    refine ⟨out, ?_, hos, hod⟩
    rw [generate, if_neg hprod]
    exact ho

theorem inBounds_take (h : InBounds lists shape) (k : ℕ) :
    InBounds (lists.take k) (shape.take k) :=
  forall₂_take k h

/-- The elements at the runs of the listed positions, of an array made of such runs. -/
theorem pick_runs {L : ℕ} {g : ℕ → List α} (hg : ∀ p, (g p).length = m) {ps : List ℕ}
    (hps : ∀ p ∈ ps, p < L) :
    pick ((List.range L).flatMap g) (ps.flatMap (run m)) = ps.flatMap g := by
  induction ps with
  | nil => rfl
  | cons p ps ih =>
    have hp : p < L := hps p mem_cons_self
    have hrun : pick ((List.range L).flatMap g) (run m p) = g p := by
      apply map_injective_iff.2 (Option.some_injective α)
      have hget : ∀ j ∈ List.range m, ((List.range L).flatMap g)[p * m + j]? = (g p)[j]? := by
        intro j hj
        rw [getElem?_flatMap_const hg _ _ (mem_range.1 hj), getElem?_range hp,
          Option.bind_some]
      rw [pick_eq_some, run, map_map]
      · apply ext_getElem
        · simp [hg]
        · intro i hi _
          simp only [List.length_map, length_range] at hi
          have hi' : i < (g p).length := by rw [hg]; exact hi
          simp only [getElem_map, getElem_range, Function.comp_apply]
          rw [hget i (mem_range.2 hi), getElem?_eq_getElem hi']
      · intro q hq
        obtain ⟨j, hj, rfl⟩ := mem_map.1 hq
        have hj := mem_range.1 hj
        simp only [length_flatMap, hg, map_const', length_range, sum_replicate,
          smul_eq_mul]
        calc p * m + j < p * m + m := by omega
          _ = (p + 1) * m := by ring
          _ ≤ L * m := Nat.mul_le_mul_right _ hp
    rw [flatMap_cons, pick, filterMap_append, ← pick, ← pick, hrun,
      ih fun q hq => hps q (mem_cons_of_mem _ hq), flatMap_cons]

theorem holdsLast_whole (t : ℕ) (shape : List ℕ) : HoldsLast t shape (shape.map List.range) := by
  rw [HoldsLast, lastAxes, map_drop]

/-- A tile is the selection of the whole array at the same lists, whatever the chunks of the two
and the buffers they were written into. -/
theorem generate_slice (dev : Device V α δ) {chunk : ℕ} {fresh : ℕ → α} (hmix : spec.MixesLast t f)
    {key : ℕ} {dtype : δ}
    (hfull : generate { dev with chunkElements := chunk, fresh := fresh } spec key
      (spec.shape.map List.range) dtype = .ok full) (hin : InBounds lists spec.shape)
    (hlast : HoldsLast t spec.shape lists) :
    full.shape = spec.shape ∧
      ∃ tile, generate dev spec key lists dtype = .ok tile ∧ full.ixGet lists = some tile := by
  have hne : spec.shape ≠ [] := by
    intro h
    rw [h, map_nil, generate_nil] at hfull
    cases hfull
  obtain ⟨full', hf, hfs, hfd⟩ := generate_eq
    { dev with chunkElements := chunk, fresh := fresh } hmix key hne (List.length_map _)
    (holdsLast_whole t spec.shape) dtype
  rw [hfull, Except.ok.injEq] at hf
  subst hf
  rw [map_length_range] at hfs
  obtain ⟨tile, ht, hts, htd⟩ := generate_eq dev hmix key hne hin.length_eq hlast dtype
  refine ⟨hfs, tile, ht, ixGet_eq_some.2 ⟨by rw [hfs]; exact hin, hts, ?_⟩⟩
  rw [hfs, positions_runs hin.length_eq hlast, htd, hfd]
  simp only [ArraySpec.tileData, ← map_take, positions_whole]
  refine (pick_runs (fun p => hmix.length_map p) fun p hp => ?_).symm
  exact lt_of_mem_positions (inBounds_take hin _) hp

/-! ### Every tile of a kernel -/

/-- The declared distributions with their grid; without them the default split is used. -/
abbrev Declared := Option (List (String × ArrayDist) × Grid)

/-- The global indices of every axis that `shard` owns of an input. -/
def ownedLists (split : List (String × Option ℕ)) (shard : ℕ × ℕ) (whole : List String)
    (declared : Declared) (input : String × ArraySpec V) : Except PyErr (List (List ℕ)) :=
  match declared with
  | some (layout, grid) =>
    layoutIndexArrays input.2.shape (declaredDist layout whole input.1) grid
      (grid.coordsOf shard.1)
  | none => do
    let axis ← defaultAxis split whole input.1
    tileIndexArrays input.2.shape axis (some shard)

/-- The slice of an input's whole array at the indices `shard` owns. -/
def ownedSlice (split : List (String × Option ℕ)) (shard : ℕ × ℕ) (whole : List String)
    (declared : Declared) (input : (String × ArraySpec V) × NdArray α) :
    Except PyErr (NdArray α) := do
  let lists ← ownedLists split shard whole declared input.1
  orRaise .indexError (input.2.ixGet lists)

/-- What `sliceTile` cuts from an input's whole array, called with the input's layout. -/
def inputSlice (split : List (String × Option ℕ)) (shard : ℕ × ℕ) (whole : List String)
    (declared : Declared) (input : (String × ArraySpec V) × NdArray α) :
    Except PyErr (NdArray α) :=
  match declared with
  | some (layout, grid) =>
    sliceTile input.2 none shard (declaredDist layout whole input.1.1) grid
  | none => do
    let axis ← defaultAxis split whole input.1.1
    sliceTile input.2 axis shard

theorem mapM_eq_mapM_zip {ε β γ ι : Type} {F : ι → Except ε γ} {G : ι × β → Except ε γ}
    {l : List ι} {m : List β} (h : Forall₂ (fun a b => F a = G (a, b)) l m) :
    l.mapM F = (l.zip m).mapM G := by
  induction h with
  | nil => rfl
  | cons hab _ ih => rw [zip_cons_cons, mapM_cons, mapM_cons, hab, ih]

theorem makeTiles_eq_mapM (dev : Device V α δ) (specs : List (String × ArraySpec V))
    (split : List (String × Option ℕ)) (seed : ℕ) (dtype : δ) (shard : ℕ × ℕ)
    (whole : List String) (declared : Declared) :
    makeTiles dev specs split seed dtype (some shard) whole (declared.map (·.1))
        (declared.map (·.2)) =
      specs.mapM fun input => ownedLists split shard whole declared input >>= fun lists =>
        generate dev input.2 (arrayKey seed input.1) lists dtype := by
  cases declared with
  | some d => rfl
  | none => simp only [makeTiles, ownedLists, Option.map_none, bind_assoc]

theorem inBounds_set_whole (hn : shape[axis]? = some n) {ix : List ℕ} (hix : ∀ i ∈ ix, i < n) :
    InBounds (axisLists shape axis ix) shape := by
  induction shape generalizing axis with
  | nil => cases hn
  | cons m shape ih =>
    cases axis with
    | zero =>
      obtain rfl : m = n := by simpa using hn
      exact .cons hix (inBounds_whole shape)
    | succ axis => exact .cons (fun _ hi => mem_range.1 hi) (ih (by simpa using hn))

/-- The lists of the default tile: the rank's block on the split axis, the others whole. -/
theorem tileIndexArrays_eq_ok (shape : List ℕ) (axis : Option ℕ) (shard : ℕ × ℕ) :
    tileIndexArrays shape axis (some shard) = .ok lists ↔
      match axis with
      | none => lists = shape.map List.range
      | some axis => ∃ n lo hi, shape[axis]? = some n ∧ blockRange n shard = .ok (lo, hi) ∧
          lists = axisLists shape axis (List.range' lo (hi - lo)) := by
  have hrange : (fun n : ℕ => List.range' 0 n) = List.range := by
    funext n; rw [range_eq_range']
  cases axis with
  | none =>
    simp only [tileIndexArrays, tileRanges, bind, Except.bind, pure, Except.pure, map_map,
      Except.ok.injEq, Function.comp_def, Nat.sub_zero, hrange]
    exact eq_comm
  | some axis =>
    simp only [tileIndexArrays, tileRanges, bind_eq_ok, item_eq_ok, pure, Except.pure,
      Except.ok.injEq, axisLists]
    constructor
    · rintro ⟨ranges, ⟨n, hn, r, hr, rfl⟩, rfl⟩
      refine ⟨n, r.1, r.2, hn, hr, ?_⟩
      simp only [map_set, map_map, Function.comp_def, Nat.sub_zero, hrange]
    · rintro ⟨n, lo, hi, hn, hr, rfl⟩
      refine ⟨_, ⟨n, hn, (lo, hi), hr, rfl⟩, ?_⟩
      simp only [map_set, map_map, Function.comp_def, Nat.sub_zero, hrange]

/-- The block of a rank of the world lies in the axis. -/
theorem blockRange_spec (hrank : rank < world) (h : blockRange n (rank, world) = .ok (lo, hi)) :
    lo ≤ hi ∧ hi ≤ n := by
  have hw : world ≠ 0 := by omega
  simp only [blockRange, hw, ↓reduceIte, Except.ok.injEq] at h
  have hmono := blockBounds_fst_mono n world (show rank + 1 ≤ world by omega)
  simp only [blockBounds_parts (show 0 < world by omega), ← blockBounds_snd, h] at hmono
  have hstep := blockBounds_fst_mono n world (Nat.le_succ rank)
  simp only [Nat.succ_eq_add_one, ← blockBounds_snd, h] at hstep
  exact ⟨hstep, hmono⟩

theorem inBounds_tileIndexArrays {axis : Option ℕ} (hrank : rank < world)
    (h : tileIndexArrays shape axis (some (rank, world)) = .ok lists) : InBounds lists shape := by
  rw [tileIndexArrays_eq_ok] at h
  cases axis with
  | none => subst h; exact inBounds_whole shape
  | some axis =>
    obtain ⟨n, lo, hi, hn, hr, rfl⟩ := h
    refine inBounds_set_whole hn fun i hi => ?_
    have := blockRange_spec hrank hr
    rw [mem_range'_1] at hi
    omega

theorem layoutIndexArrays_split {dist : ArrayDist} (hrep : dist.replicated = false)
    {coords : List ℕ} :
    layoutIndexArrays shape (some dist) grid coords = .ok lists ↔
      axisIndexLists shape dist grid coords = .ok lists := by
  rw [axisIndexLists_eq_ok, ← mapM_eq_ok]
  simp only [layoutIndexArrays, hrep, Bool.false_eq_true, ↓reduceIte]
  split_ifs with h
  · simp [h]
  · simp [not_not.1 h]

theorem inBounds_layoutIndexArrays {dist : Option ArrayDist}
    (h : layoutIndexArrays shape dist grid (grid.coordsOf rank) = .ok lists) :
    InBounds lists shape := by
  cases dist with
  | none => cases h; exact inBounds_whole shape
  | some dist =>
    by_cases hrep : dist.replicated = false
    · exact inBounds_of_axisIndexLists ((layoutIndexArrays_split hrep).1 h)
    · rw [Bool.not_eq_false] at hrep
      simp only [layoutIndexArrays, hrep, ↓reduceIte, Except.ok.injEq] at h
      subst h
      exact inBounds_whole shape

variable {declared : Declared}

theorem inBounds_ownedLists (hrank : rank < world) {input : String × ArraySpec V}
    (h : ownedLists split (rank, world) whole declared input = .ok lists) :
    InBounds lists input.2.shape := by
  cases declared with
  | some d => exact inBounds_layoutIndexArrays h
  | none =>
    obtain ⟨axis, -, ht⟩ := bind_eq_ok.1 h
    exact inBounds_tileIndexArrays hrank ht

/-- The default tile of a split axis and what is cut along it, once the rank's block is known. -/
theorem narrow_block (hrank : rank < world) (hn : full.shape[axis]? = some n)
    (hr : blockRange n (rank, world) = .ok (lo, hi)) :
    ∃ tile, full.narrow axis lo (hi - lo) = some tile ∧
      full.ixGet (axisLists full.shape axis (List.range' lo (hi - lo))) = some tile := by
  obtain ⟨hle, hhi⟩ := blockRange_spec hrank hr
  obtain ⟨hlt, hget⟩ := List.getElem?_eq_some_iff.1 hn
  have hin : InBounds (axisLists full.shape axis (List.range' lo (hi - lo))) full.shape := by
    refine inBounds_set_whole hn fun i hi => ?_
    rw [mem_range'_1] at hi
    omega
  obtain ⟨tile, ht⟩ := ixGet_isSome hin
  refine ⟨tile, ?_, ht⟩
  rw [NdArray.narrow, if_pos, NdArray.indexSelect, if_pos hlt, ht]
  rw [getD_eq_getElem _ _ hlt, hget]
  omega

/-- `sliceTile` cuts the slice at the owned indices. -/
theorem inputSlice_eq (hrank : rank < world) {input : (String × ArraySpec V) × NdArray α}
    (hshape : input.2.shape = input.1.2.shape) :
    inputSlice split (rank, world) whole declared input =
      ownedSlice split (rank, world) whole declared input := by
  obtain ⟨⟨name, spec⟩, full⟩ := input
  simp only at hshape
  have hwhole : full.ixGet (spec.shape.map List.range) = some full := hshape ▸ full.ixGet_whole
  cases declared with
  | some d =>
    obtain ⟨layout, grid⟩ := d
    simp only [inputSlice, ownedSlice, ownedLists]
    cases hd : declaredDist layout whole name with
    | none => simp [sliceTile, layoutIndexArrays, bind, Except.bind, hwhole, orRaise]
    | some dist =>
      by_cases hrep : dist.replicated = false
      · simp only [sliceTile, hrep, Bool.false_eq_true, ↓reduceIte, hshape]
        cases hl : layoutIndexArrays spec.shape (some dist) grid (grid.coordsOf rank) with
        | error e => rfl
        | ok lists =>
          have hin : InBounds lists full.shape := hshape ▸ inBounds_layoutIndexArrays hl
          simp only [bind, Except.bind, indexSelectFrom_zero hin]
      · rw [Bool.not_eq_false] at hrep
        simp [sliceTile, layoutIndexArrays, hrep, bind, Except.bind, hwhole, orRaise]
  | none =>
    simp only [inputSlice, ownedSlice, ownedLists]
    cases hax : defaultAxis split whole name with
    | error e => rfl
    | ok axis =>
      cases axis with
      | none =>
        have hl : tileIndexArrays spec.shape none (some (rank, world)) =
            .ok (spec.shape.map List.range) :=
          (tileIndexArrays_eq_ok spec.shape none (rank, world)).2 rfl
        simp only [bind, Except.bind, hl, hwhole, orRaise, sliceTile]
      | some axis =>
        rw [← hshape]
        cases hn : full.shape[axis]? with
        | none =>
          simp only [bind, Except.bind, sliceTile, tileIndexArrays, tileRanges, item, hn, orRaise]
        | some n =>
          cases hr : blockRange n (rank, world) with
          | error e =>
            simp only [bind, Except.bind, sliceTile, tileIndexArrays, tileRanges, item, hn, orRaise,
              hr]
          | ok range =>
            obtain ⟨lo, hi⟩ := range
            obtain ⟨tile, hnarrow, hget⟩ := narrow_block hrank hn hr
            have hl := (tileIndexArrays_eq_ok full.shape (some axis) (rank, world)).2
              ⟨n, lo, hi, hn, hr, rfl⟩
            simp only [bind, Except.bind, hl, hget, sliceTile, item, hn, orRaise, hr, hnarrow]

/-- **Sharded generation equals slicing.**  Let every values function mix at most axes that
`shard` holds whole.  Then `makeTiles` for the shard gives, input by input, the slice of the whole
array at the indices the shard owns, and this is what `sliceTile` cuts; the whole arrays may have
been generated in other chunks. -/
theorem makeTiles_eq_slices {dev : Device V α δ} {chunk : ℕ} {fresh : ℕ → α}
    {specs : List (String × ArraySpec V)} {split : List (String × Option ℕ)} {seed : ℕ} {dtype : δ}
    {fulls : List (NdArray α)}
    (hfull : makeTiles { dev with chunkElements := chunk, fresh := fresh } specs split seed dtype
      none = .ok fulls)
    {rank world : ℕ} (hrank : rank < world) {whole : List String} {declared : Declared}
    (hmix : ∀ input ∈ specs, ∃ t f, input.2.MixesLast t f ∧
      ∀ lists, ownedLists split (rank, world) whole declared input = .ok lists →
        HoldsLast t input.2.shape lists) :
    makeTiles dev specs split seed dtype (some (rank, world)) whole (declared.map (·.1))
        (declared.map (·.2)) =
      (specs.zip fulls).mapM (ownedSlice split (rank, world) whole declared) ∧
    makeTiles dev specs split seed dtype (some (rank, world)) whole (declared.map (·.1))
        (declared.map (·.2)) =
      (specs.zip fulls).mapM (inputSlice split (rank, world) whole declared) := by
  simp only [makeTiles, mapM_eq_ok, bind_eq_ok] at hfull
  have hgen : Forall₂ (fun input full =>
      generate { dev with chunkElements := chunk, fresh := fresh } input.2 (arrayKey seed input.1)
        (input.2.shape.map List.range) dtype = .ok full) specs fulls := by
    refine hfull.imp fun input full h => ?_
    obtain ⟨axis, -, lists, hlists, hg⟩ := h
    have hl : lists = input.2.shape.map List.range := by
      simp only [tileIndexArrays, tileRanges, bind, Except.bind, pure, Except.pure,
        Except.ok.injEq, map_map] at hlists
      rw [← hlists]
      refine map_congr_left fun n _ => ?_
      rw [Function.comp_apply, Nat.sub_zero, range_eq_range']
    rwa [hl] at hg
  have hslice : Forall₂ (fun input full => full.shape = input.2.shape ∧
      (ownedLists split (rank, world) whole declared input >>= fun lists =>
        generate dev input.2 (arrayKey seed input.1) lists dtype) =
      ownedSlice split (rank, world) whole declared (input, full)) specs fulls := by
    refine ((forall₂_and_left _ _).2 ⟨hmix, hgen⟩).imp fun input full h => ?_
    obtain ⟨⟨t, f, hm, hhold⟩, hg⟩ := h
    refine ⟨(generate_slice dev hm hg (inBounds_whole _) (holdsLast_whole t _)).1, ?_⟩
    cases hl : ownedLists split (rank, world) whole declared input with
    | error e => simp only [ownedSlice, hl, bind, Except.bind]
    | ok lists =>
      obtain ⟨-, tile, ht, hget⟩ :=
        generate_slice dev hm hg (inBounds_ownedLists hrank hl) (hhold lists hl)
      simp only [ownedSlice, hl, bind, Except.bind, ht, hget, orRaise]
  rw [makeTiles_eq_mapM]
  exact ⟨mapM_eq_mapM_zip (hslice.imp fun _ _ h => h.2), mapM_eq_mapM_zip
    (hslice.imp fun _ _ h => by rw [inputSlice_eq hrank h.1]; exact h.2)⟩

/-! ### Values functions -/

/-- Every value of a chunk computed from its own index. -/
def pointwise (g : ℕ → ℕ → V) (index : NdArray ℕ) (key : ℕ) : Except PyErr (NdArray V) :=
  .ok (index.map (g · key))

/-- Values uniform on `[low, high)`, before they are rounded to the element type. -/
def uniformRange (low high : ℚ) : NdArray ℕ → ℕ → Except PyErr (NdArray ℚ) :=
  pointwise fun index key => low + (high - low) * uniform index key

/-- A pointwise values function mixes no axis. -/
theorem mixesLast_pointwise (g : ℕ → ℕ → V) (shape : List ℕ) (integer : Bool) :
    (⟨shape, pointwise g, integer⟩ : ArraySpec V).MixesLast 0 fun key r => r.map (g · key) where
  le := Nat.zero_le _
  length _ _ _ := List.length_map _
  values index key runs _ _ hd _ := by
    refine ⟨_, rfl, rfl, ?_⟩
    calc index.data.map (g · key) = runs.flatten.map (g · key) := by rw [hd]
      _ = runs.flatMap fun r => r.map (g · key) := by rw [map_flatten, flatMap_def]

/-- No axis has to be whole for a pointwise values function. -/
theorem holdsLast_zero (h : InBounds lists shape) : HoldsLast 0 shape lists := by
  rw [HoldsLast, lastAxes, Nat.sub_zero, drop_length, ← h.length_eq, drop_length]
  rfl

/-! ### The tokens of the mixture-of-experts layer -/

/-- The planted logit at a global index, before the transform. -/
def tokenLogit (modelDim numExperts index key : ℕ) : ℚ :=
  let token := index / modelDim
  let column : ℤ := index % modelDim
  let c := -1 + 2 * uniform index key
  let first := min (uniform token (subKey key 1) * numExperts).floor (numExperts - 1)
  let offset := (uniform token (subKey key 2) * (numExperts - 1)).floor
  let second := (first + 1 + min offset (numExperts - 2)) % numExperts
  let jitter1 := 1 / 2 * uniform token (subKey key 3)
  let jitter2 := 1 / 2 * uniform token (subKey key 4)
  let c := if column = first then 3 + jitter1 else c
  if column = second then 2 + jitter2 else c

/-- One pass of the Walsh-Hadamard transform: sums and differences of neighbouring blocks of `h`. -/
def butterfly (h : ℕ) (row : List ℚ) : List ℚ :=
  (List.range (row.length / (2 * h))).flatMap fun g =>
    let a := (row.drop (g * (2 * h))).take h
    let b := (row.drop (g * (2 * h) + h)).take h
    zipWith (· + ·) a b ++ zipWith (· - ·) a b

/-- The passes for block lengths `h`, `2 * h`, … below the length of the row. -/
def hadamardLoop : ℕ → ℕ → List ℚ → Except PyErr (List ℚ)
  | 0, _, row => .ok row
  | fuel + 1, h, row =>
    if h < row.length then
      if row.length / (2 * h) * (2 * h) = row.length then
        hadamardLoop fuel (2 * h) (butterfly h row)
      else .error (.runtimeError "shape is invalid for input")
    else .ok row

/-- Unnormalised Walsh-Hadamard transform of one row. -/
def hadamardRow (row : List ℚ) : Except PyErr (List ℚ) := hadamardLoop row.length 1 row

/-- The rows of the last axis. -/
def lastRuns (a : NdArray α) : List (List α) :=
  let n := a.shape.getLast?.getD 1
  (List.range (a.shape.dropLast.prod)).map fun r => (a.data.drop (r * n)).take n

/-- The rows of the tokens: the transform of the planted logits of a whole row.  `sqrt` is
`math.sqrt`. -/
def tokenValues (sqrt : ℕ → ℚ) (modelDim numExperts : ℕ) (index : NdArray ℕ) (key : ℕ) :
    Except PyErr (NdArray ℚ) := do
  let rows ← (lastRuns (index.map fun i => tokenLogit modelDim numExperts i key)).mapM hadamardRow
  let data := rows.flatten.map (· / sqrt modelDim)
  if h : data.length = index.shape.prod then return ⟨index.shape, data, h⟩
  else throw (.runtimeError "shape is invalid for input")

theorem length_butterfly (hdvd : row.length / (2 * h) * (2 * h) = row.length) :
    (butterfly h row).length = row.length := by
  have hblock : ∀ g ∈ List.range (row.length / (2 * h)),
      (zipWith (· + ·) ((row.drop (g * (2 * h))).take h)
          ((row.drop (g * (2 * h) + h)).take h) ++
        zipWith (· - ·) ((row.drop (g * (2 * h))).take h)
          ((row.drop (g * (2 * h) + h)).take h)).length = 2 * h := by
    intro g hg
    have hle : (g + 1) * (2 * h) ≤ row.length := by
      rw [← hdvd]
      exact Nat.mul_le_mul_right _ (Nat.succ_le_of_lt (mem_range.1 hg))
    rw [Nat.succ_mul] at hle
    simp only [length_append, length_zipWith, length_take, length_drop]
    omega
  rw [butterfly, length_flatMap, map_congr_left hblock, map_const',
    length_range, sum_replicate, smul_eq_mul, hdvd]

/-- The transform of a row of a power of two entries exists and has as many entries. -/
theorem hadamardLoop_pow (j fuel : ℕ) (hrow : row.length = 2 ^ k) :
    ∃ out, hadamardLoop fuel (2 ^ j) row = .ok out ∧ out.length = 2 ^ k := by
  induction fuel generalizing j row with
  | zero => exact ⟨row, rfl, hrow⟩
  | succ fuel ih =>
    rw [hadamardLoop]
    split_ifs with hlt hdvd
    · rw [← pow_succ']
      exact ih _ (by rw [length_butterfly (by simpa [pow_succ'] using hdvd), hrow])
    · refine absurd ?_ hdvd
      rw [hrow] at hlt ⊢
      have hjk : j + 1 ≤ k := (Nat.pow_lt_pow_iff_right (by omega)).1 hlt
      rw [← pow_succ']
      exact Nat.div_mul_cancel (pow_dvd_pow 2 hjk)
    · exact ⟨row, rfl, hrow⟩

theorem drop_take_flatten (h : ∀ r ∈ runs, r.length = n) {i : ℕ} (hi : i < runs.length) :
    (runs.flatten.drop (i * n)).take n = runs[i] := by
  induction runs generalizing i with
  | nil => cases hi
  | cons r runs ih =>
    have hr := h r mem_cons_self
    cases i with
    | zero => simp [← hr]
    | succ i =>
      have hsplit : (i + 1) * n = r.length + i * n := by rw [hr]; ring
      have hi' : i < runs.length := by simpa using hi
      have hdrop : (r :: runs).flatten.drop ((i + 1) * n) = runs.flatten.drop (i * n) := by
        rw [flatten_cons, hsplit, ← drop_drop, drop_left]
      rw [hdrop, ih (fun r' hr' => h r' (mem_cons_of_mem _ hr')) hi']
      rfl

/-- The rows of the last axis, of an array given by its rows. -/
theorem lastRuns_eq {a : NdArray α} (hn : 0 < n) (hs : a.shape = [m, n])
    (hd : a.data = runs.flatten) (h : ∀ r ∈ runs, r.length = n) :
    lastRuns a = runs := by
  have hlen : runs.length = m := by
    have hsize := a.size_eq
    rw [hd, hs, length_flatten, map_congr_left h, map_const', sum_replicate,
      smul_eq_mul] at hsize
    exact Nat.eq_of_mul_eq_mul_right hn (by simpa using hsize)
  have hlast : lastRuns a = (List.range m).map fun r => (a.data.drop (r * n)).take n := by
    simp [lastRuns, hs]
  rw [hlast, hd]
  apply ext_getElem
  · rw [List.length_map, length_range, hlen]
  · intro i _ hi
    rw [getElem_map, getElem_range, drop_take_flatten h hi]

/-- The values of one row of tokens. -/
def tokenRow (sqrt : ℕ → ℚ) (modelDim numExperts key : ℕ) (row : List ℕ) : List ℚ :=
  match hadamardRow (row.map fun i => tokenLogit modelDim numExperts i key) with
  | .ok out => out.map (· / sqrt modelDim)
  | .error _ => []

theorem hadamardRow_tokens (sqrt : ℕ → ℚ) (numExperts key : ℕ) {row : List ℕ}
    (hrow : row.length = 2 ^ k) :
    ∃ out, hadamardRow (row.map fun i => tokenLogit (2 ^ k) numExperts i key) = .ok out ∧
      tokenRow sqrt (2 ^ k) numExperts key row = out.map (· / sqrt (2 ^ k)) ∧
      out.length = 2 ^ k := by
  have hlen : (row.map fun i => tokenLogit (2 ^ k) numExperts i key).length = 2 ^ k := by
    rw [List.length_map, hrow]
  obtain ⟨out, ho, hlen⟩ :=
    hadamardLoop_pow 0 (row.map fun i => tokenLogit (2 ^ k) numExperts i key).length hlen
  have ho' : hadamardRow (row.map fun i => tokenLogit (2 ^ k) numExperts i key) = .ok out := ho
  exact ⟨out, ho', by simp only [tokenRow, ho'], hlen⟩

/-- The tokens mix the last axis, whose extent the kernel requires to be a power of two. -/
theorem tokenValues_mixesLast (sqrt : ℕ → ℚ) (numTokens k numExperts : ℕ) (integer : Bool) :
    (⟨[numTokens, 2 ^ k], tokenValues sqrt (2 ^ k) numExperts, integer⟩ :
      ArraySpec ℚ).MixesLast 1 (tokenRow sqrt (2 ^ k) numExperts) where
  le := le_rfl
  length key r hr := by
    have hr : r.length = 2 ^ k := by simpa [lastAxes] using hr
    obtain ⟨out, -, hrow, hlen⟩ := hadamardRow_tokens sqrt numExperts key hr
    rw [hrow, List.length_map, hlen, hr]
  values index key runs hdims hlast hd hruns := by
    have hruns : ∀ r ∈ runs, r.length = 2 ^ k := by simpa [lastAxes] using hruns
    obtain ⟨m, hs⟩ : ∃ m, index.shape = [m, 2 ^ k] := by
      match hs : index.shape, hdims with
      | [m, n], _ => rw [hs] at hlast; exact ⟨m, by simpa [lastAxes] using hlast⟩
    set logit := fun i => tokenLogit (2 ^ k) numExperts i key with hlogit
    have hrows : lastRuns (index.map logit) = runs.map (List.map logit) := by
      refine lastRuns_eq (a := index.map logit) (Nat.two_pow_pos k) hs ?_ ?_
      · rw [← map_flatten, ← hd]
        rfl
      · intro r hr
        obtain ⟨r', hr', rfl⟩ := mem_map.1 hr
        rw [List.length_map, hruns r' hr']
    obtain ⟨outs, houts⟩ : ∃ outs, Forall₂ (fun r out => hadamardRow (r.map logit) = .ok out ∧
        tokenRow sqrt (2 ^ k) numExperts key r = out.map (· / sqrt (2 ^ k))) runs outs :=
      exists_forall₂ fun r hr => by
        obtain ⟨out, ho, hrow, -⟩ := hadamardRow_tokens sqrt numExperts key (hruns r hr)
        exact ⟨out, ho, hrow⟩
    have hmapM : (runs.map (List.map logit)).mapM hadamardRow = .ok outs := by
      rw [mapM_eq_ok, forall₂_map_left_iff]
      exact houts.imp fun _ _ h => h.1
    have hdata : outs.flatten.map (· / sqrt (2 ^ k)) =
        runs.flatMap (tokenRow sqrt (2 ^ k) numExperts key) := by
      rw [map_flatten, flatMap_def,
        ← map_eq_map_of_forall₂ (houts.imp fun _ _ h => h.2)]
    have hlen : (outs.flatten.map (· / sqrt (2 ^ k))).length = index.shape.prod := by
      rw [hdata, ← index.size_eq, hd, length_flatMap, length_flatten]
      congr 1
      refine map_congr_left fun r hr => ?_
      obtain ⟨out, -, hrow, hout⟩ := hadamardRow_tokens sqrt numExperts key (hruns r hr)
      rw [hrow, List.length_map, hout, hruns r hr]
    refine ⟨⟨index.shape, _, hlen⟩, ?_, rfl, hdata⟩
    simp only [tokenValues, ← hlogit, hrows, hmapM, bind, Except.bind, hlen, ↓reduceDIte, pure,
      Except.pure]

/-! ### A kernel with mixed rows -/

/-- The tokens of a small mixture-of-experts layer. -/
def moeTokens : ArraySpec ℚ where
  shape := [3, 2 ^ 2]
  values := tokenValues (fun _ => 2) (2 ^ 2) 2

/-- The tokens, and a bias for every expert. -/
def moeSpecs : List (String × ArraySpec ℚ) :=
  [("x", moeTokens),
   ("expert_bias", { shape := [2, 4], values := uniformRange (-1 / 10) (1 / 10) })]

/-- Both inputs are split on their first axis by default. -/
def moeSplit : List (String × Option ℕ) := [("x", some 0), ("expert_bias", some 0)]

/-- A device that keeps the values as they are. -/
def exactDevice : Device ℚ ℚ Unit where
  int64 := ()
  convert _ q := q
  fresh _ := 0
  chunkElements := 2 ^ 24

/-- Two ranks. -/
def pairGrid : Grid := ⟨[2], Descriptor.two_ranks_pos⟩

/-- The tokens dealt round-robin, the biases in blocks along their second axis. -/
def dealtTokens : Declared :=
  some ([("x", { axes := [{ gridDim := some 0, scheme := .cyclic }, { gridDim := none }] }),
    ("expert_bias", { axes := [{ gridDim := none }, { gridDim := some 0 }] })], pairGrid)

/-- The tokens split along the axis their transform runs over. -/
def splitTokens : Declared :=
  some ([("x", { axes := [{ gridDim := none }, { gridDim := some 0 }] }),
    ("expert_bias", { replicated := true })], pairGrid)

theorem makeTiles_eq_slices_dealt : ∃ fulls,
    makeTiles { exactDevice with chunkElements := 1 } moeSpecs moeSplit 11 () none = .ok fulls ∧
    makeTiles exactDevice moeSpecs moeSplit 11 () (some (1, 2)) [] (dealtTokens.map (·.1))
        (dealtTokens.map (·.2)) =
      (moeSpecs.zip fulls).mapM (ownedSlice moeSplit (1, 2) [] dealtTokens) ∧
    makeTiles exactDevice moeSpecs moeSplit 11 () (some (1, 2)) [] (dealtTokens.map (·.1))
        (dealtTokens.map (·.2)) =
      (moeSpecs.zip fulls).mapM (inputSlice moeSplit (1, 2) [] dealtTokens) := by
  obtain ⟨fulls, hfull⟩ := exists_of_isOk
    (x := makeTiles { exactDevice with chunkElements := 1 } moeSpecs moeSplit 11 () none)
    (by decide)
  refine ⟨fulls, hfull, makeTiles_eq_slices hfull (by decide) ?_⟩
  intro input hinput
  rcases mem_pair.1 hinput with rfl | rfl
  · refine ⟨1, _, tokenValues_mixesLast _ 3 2 2 false, fun lists h => ?_⟩
    have hl : ownedLists moeSplit (1, 2) [] dealtTokens ("x", moeTokens) =
      .ok [[1], [0, 1, 2, 3]] := by decide
    cases hl.symm.trans h
    rfl
  · exact ⟨0, _, mixesLast_pointwise _ _ _, fun lists h =>
      holdsLast_zero (inBounds_ownedLists (by decide) h)⟩

/-- Tokens split along the axis their transform runs over are not slices of the whole array. -/
theorem makeTiles_mixed_axis : ∃ fulls,
    makeTiles exactDevice moeSpecs moeSplit 11 () none = .ok fulls ∧
    makeTiles exactDevice moeSpecs moeSplit 11 () (some (0, 2)) [] (splitTokens.map (·.1))
        (splitTokens.map (·.2)) ≠
      (moeSpecs.zip fulls).mapM (ownedSlice moeSplit (0, 2) [] splitTokens) ∧
    makeTiles exactDevice moeSpecs moeSplit 11 () (some (0, 2)) [] (splitTokens.map (·.1))
        (splitTokens.map (·.2)) ≠
      (moeSpecs.zip fulls).mapM (inputSlice moeSplit (0, 2) [] splitTokens) := by
  have hdiff : (match makeTiles exactDevice moeSpecs moeSplit 11 () none with
      | .error _ => false
      | .ok fulls =>
        makeTiles exactDevice moeSpecs moeSplit 11 () (some (0, 2)) [] (splitTokens.map (·.1))
            (splitTokens.map (·.2)) !=
          (moeSpecs.zip fulls).mapM (ownedSlice moeSplit (0, 2) [] splitTokens) &&
        makeTiles exactDevice moeSpecs moeSplit 11 () (some (0, 2)) [] (splitTokens.map (·.1))
            (splitTokens.map (·.2)) !=
          (moeSpecs.zip fulls).mapM (inputSlice moeSplit (0, 2) [] splitTokens)) = true := by
    decide +kernel
  split at hdiff
  · cases hdiff
  · rename_i fulls hfulls
    rw [Bool.and_eq_true, bne_iff_ne, bne_iff_ne] at hdiff
    exact ⟨fulls, hfulls, hdiff⟩

end Mpi

end HpcAgentBench
