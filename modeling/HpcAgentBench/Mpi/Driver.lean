import HpcAgentBench.Mpi.CDriver

/-!
# The two drivers

`pyDriver` is the interpreted driver: it decodes the infile, scatters what it decoded, runs the
kernel and packs the outfile.  `gatherOutputs` rebuilds the global outputs from a decoded outfile.

## Main result

* `drivers_agree` : on one infile the two drivers compute the same outputs, for every kernel, as
  long as the declared C type of every scalar holds its value.

A scalar whose C type is narrower than its slot reaches a compiled kernel rounded and an
interpreted one unrounded (`drivers_differ_single`).
-/

namespace HpcAgentBench

open List

namespace Mpi

/-! ### The interpreted driver -/

namespace Buffer

/-- `buf[...] = other`: the same array with other bytes. -/
def fill (b : Buffer) (bytes : List UInt8) : Buffer :=
  if h : b.cells.data.length * b.dtype.itemsize ≤ bytes.length then
    ⟨b.dtype, b.cells.shape, cellsOf b.dtype.itemsize b.cells.data.length bytes h,
      by rw [length_cellsOf, b.cells.size_eq]⟩
  else b

/-- The elements of an array of the given type. -/
def cellsAs (b : Buffer) (dtype : DType) : Except PyErr (NdArray (Cell dtype.itemsize)) :=
  if h : b.dtype = dtype then .ok (h ▸ b.cells) else .error (.valueError "dtype mismatch")

end Buffer

/-- What one rank holds after the scatter. -/
structure PyRank where
  tiles : List Buffer
  scalars : List PyNum
  workspaceBytes : ℤ

/-- What the rank passes to the kernel. -/
def PyRank.args (p : PyRank) : RankArgs := ⟨p.tiles.map Buffer.tobytes, p.scalars, p.workspaceBytes⟩

/-- The grid dimensions of the Cartesian communicator. -/
def cartDims (nranks : ℕ) (grid : List ℕ) : Except PyErr (List ℕ) :=
  if grid = [] then .ok [nranks]
  else if grid.prod = nranks then .ok grid
  else .error (.valueError
    s!"grid {listText toString grid} spans {grid.prod} ranks but launched {nranks}")

/-- What the scatter hands to `rank`. -/
def scatterRank (parsed : ParsedInfile) (rank : ℕ) : Except PyErr PyRank := do
  let tiles ← parsed.ptrs.mapM fun p => item p.tiles rank
  let scalars ← item parsed.scalarValues rank
  let ws ← item parsed.workspaceBytes rank
  return ⟨tiles, scalars, ws⟩

/-- One repeat: every rank's tiles after the kernel ran on its pristine ones. -/
def pyRepeat (kernel : Kernel) (ranks : List PyRank) : List (List Buffer) :=
  zipWith (fun p result => zipWith Buffer.fill p.tiles result) ranks
    (kernel.run (ranks.map PyRank.args))

/-- The tiles after the timed loop. -/
def pyRepeats (kernel : Kernel) (ranks : List PyRank) (k : ℕ) : List (List Buffer) :=
  (List.range k).foldl (fun _compute _ => pyRepeat kernel ranks) (ranks.map (·.tiles))

/-- The tiles of pointer `i` from every rank. -/
def gatherOutput (nranks : ℕ) (ptrs : List PtrPlan) (compute : List (List Buffer)) (i : ℕ) :
    Except PyErr (Output nranks) := do
  let p ← item ptrs i
  let tiles ← compute.mapM fun own => do
    let b ← item own i
    b.cellsAs p.dtype
  if h : tiles.length = nranks then return ⟨p.name, p.dtype, tiles, h⟩
  else throw .indexError

/-- The driver, from the infile to the outfile.  `times` are the measured seconds. -/
def pyDriver (worldSize : ℕ) (grid : List ℕ) (kernel : Kernel) (times : ℕ → Double)
    (raw : List UInt8) : Except PyErr (List UInt8) := do
  let _dims ← cartDims worldSize grid
  let parsed ← unpackInfile raw
  let ranks ← (List.range worldSize).mapM (scatterRank parsed)
  let compute := pyRepeats kernel ranks parsed.kRepeats.toNat
  let outputs ← (indicesWhere PtrPlan.isOutput parsed.ptrs).mapM
    (gatherOutput worldSize parsed.ptrs compute)
  packOutfile worldSize parsed.kRepeats ((List.range parsed.kRepeats.toNat).map times) outputs

/-! ### Rebuilding the global outputs -/

/-- One output pointer's global buffer.  `fresh` is what the new buffer held. -/
def gatherPointer (d : Descriptor) (arrays : List (String × Buffer)) (a : Arg) (o : DecodedOutput)
    (fresh : ℕ → Cell o.dtype.itemsize) : Except PyErr Buffer := do
  let buffer ← getItem arrays a.name
  let gshape := buffer.cells.shape
  let shaped ← o.tiles.zipIdx.mapM fun p => do
    let shape ← d.localShape a.name gshape p.2
    reshape p.1.data shape
  let out ← d.gather a.name shaped gshape fresh
  return ⟨o.dtype, out⟩

/-- Reassemble each output pointer's global buffer from the tiles a driver wrote. -/
def gatherOutputs (binding : Binding) (d : Descriptor) (arrays : List (String × Buffer))
    (decoded : List DecodedOutput) (fresh : String → (dtype : DType) → ℕ → Cell dtype.itemsize) :
    Except PyErr (List (String × Buffer)) := do
  let outPtrs := binding.pointers.filter Arg.isOutput
  if outPtrs.length ≠ decoded.length then
    let order := if decoded.length < outPtrs.length then "shorter" else "longer"
    throw (.valueError s!"zip() argument 2 is {order} than argument 1")
  (outPtrs.zip decoded).foldlM (fun outputs p => do
    let out ← gatherPointer d arrays p.1 p.2 (fresh p.1.name p.2.dtype)
    return setItem outputs p.1.name out) []

/-! ### The timed loops -/

theorem foldl_range_const {α : Type} (a b : α) (k : ℕ) :
    (List.range k).foldl (fun _ _ => b) a = if k = 0 then a else b := by
  cases k with
  | zero => rfl
  | succ k => rw [range_succ, foldl_append]; rfl

namespace Buffer

/-- Element type and shape. -/
def kindOf (b : Buffer) : DType × List ℕ := (b.dtype, b.cells.shape)

theorem kindOf_fill (b : Buffer) (bytes : List UInt8) : (b.fill bytes).kindOf = b.kindOf := by
  unfold fill
  split_ifs <;> rfl

variable {b : Buffer}

theorem tobytes_fill {bytes : List UInt8} (h : bytes.length = b.tobytes.length) :
    (b.fill bytes).tobytes = bytes := by
  have hlen : b.cells.data.length * b.dtype.itemsize = bytes.length := by
    rw [h, tobytes, length_joined]
  rw [fill, dif_pos hlen.le]
  exact joined_cellsOf hlen

theorem cellsAs_eq {dtype : DType} (h : b.dtype = dtype) :
    ∃ c, b.cellsAs dtype = .ok c ∧ c.shape = b.cells.shape ∧ joined c.data = b.tobytes := by
  subst h
  exact ⟨b.cells, by simp [cellsAs], rfl, rfl⟩

end Buffer

theorem map_zipWith_fill {tiles : List Buffer} {result : List (List UInt8)}
    (h : result.map List.length = tiles.map fun t => t.tobytes.length) :
    (zipWith Buffer.fill tiles result).map Buffer.tobytes = result ∧
      (zipWith Buffer.fill tiles result).map Buffer.kindOf = tiles.map Buffer.kindOf := by
  induction tiles generalizing result with
  | nil =>
    obtain rfl := map_eq_nil_iff.1 h
    exact ⟨rfl, rfl⟩
  | cons t tiles ih =>
    cases result with
    | nil => simp at h
    | cons bytes result =>
      rw [map_cons, map_cons, List.cons.injEq] at h
      obtain ⟨hbytes, hkinds⟩ := ih h.2
      simp only [zipWith_cons_cons, map_cons, hbytes, hkinds, Buffer.tobytes_fill h.1,
        Buffer.kindOf_fill, and_self]

/-- The interpreted loop computes the bytes of the compiled one, in arrays of the scattered types
and shapes. -/
theorem pyRepeats_spec (kernel : Kernel) (ranks : List PyRank) (k : ℕ) :
    (pyRepeats kernel ranks k).map (·.map Buffer.tobytes) =
        cRepeats kernel (ranks.map PyRank.args) k ∧
      (pyRepeats kernel ranks k).map (·.map Buffer.kindOf) =
        ranks.map (·.tiles.map Buffer.kindOf) := by
  rw [pyRepeats, cRepeats, foldl_range_const, foldl_range_const]
  split_ifs
  · simp only [map_map, Function.comp_def, PyRank.args, and_self]
  · have hsizes : (kernel.run (ranks.map PyRank.args)).map (·.map List.length) =
        ranks.map fun p => p.tiles.map fun t => t.tobytes.length := by
      rw [kernel.sizes_run, map_map]
      simp only [Function.comp_def, PyRank.args, map_map]
    rw [pyRepeat]
    generalize kernel.run (ranks.map PyRank.args) = results at hsizes
    induction ranks generalizing results with
    | nil =>
      obtain rfl := map_eq_nil_iff.1 hsizes
      exact ⟨rfl, rfl⟩
    | cons p ranks ih =>
      cases results with
      | nil => simp at hsizes
      | cons result results =>
        rw [map_cons, map_cons, List.cons.injEq] at hsizes
        obtain ⟨hbytes, hkinds⟩ := ih results hsizes.2
        obtain ⟨hb, hk⟩ := map_zipWith_fill hsizes.1
        simp only [zipWith_cons_cons, map_cons, hb, hk, hbytes, hkinds, and_self]

/-! ### The scatters -/

/-- Every scalar is a number its declared C type holds. -/
def ScalarsExact (binding : Binding) (rows : List (List PyNum)) : Prop :=
  ∀ row ∈ rows, ∀ p ∈ binding.scalars.zip row, castScalar p.1.dtype p.2 = .ok p.2

instance (binding : Binding) (rows : List (List PyNum)) : Decidable (ScalarsExact binding rows) :=
  inferInstanceAs (Decidable (∀ row ∈ rows, ∀ p ∈ binding.scalars.zip row, _))

theorem mapM_castScalar {args : List Arg} {row : List PyNum} (hlen : row.length = args.length)
    (h : ∀ p ∈ args.zip row, castScalar p.1.dtype p.2 = .ok p.2) :
    ((args.map fun a => (a.dtype, a.dtype.isIntKind)).zip row).mapM
      (fun p => castScalar p.1.1 p.2) = .ok row := by
  induction args generalizing row with
  | nil => obtain rfl := length_eq_zero_iff.1 hlen; rfl
  | cons a args ih =>
    cases row with
    | nil => simp at hlen
    | cons x row =>
      have hfirst := h (a, x) (by simp)
      have hrest := ih (by simpa using hlen) fun p hp => h p (by simp [hp])
      rw [map_cons, zip_cons_cons, mapM_cons, hrest]
      simp only [hfirst]
      rfl

namespace Sections

variable {ev : Evaluator} {binding : Binding} {d : Descriptor} {data : List (String × Buffer)}
  {scalars : List (String × PyNum)} {kRepeats : ℤ} {workspaceExpr : Option String}
  {raw : List UInt8} (s : Sections ev binding d data scalars kRepeats workspaceExpr raw)
variable {b : Baked} {i : ℕ} {ranks : List PyRank} {compute : List (List Buffer)}

theorem plans_tiles : Forall₂ (fun plan ts => PtrPlan.tiles plan = ts) s.plans s.ptrTiles := by
  rw [forall₂_iff_get]
  have hlen := s.length_ptrTiles
  refine ⟨by simp [plans, hlen], fun i h₁ h₂ => ?_⟩
  simp [plans, planOf]

/-- What `rank` holds after the scatter, in both drivers. -/
theorem exists_rank (hb : genMpiDriver binding d.grid.dims = .ok b)
    (hexact : ScalarsExact binding (s.slots.map fun cells => zipWith slotValue cells s.codes))
    {rank : ℕ} (hr : rank < d.grid.nranks) :
    ∃ p, scatterRank s.parsed rank = .ok p ∧
      cRankArgs b s.cHdr raw (s.ptrTiles.map fun tiles => tiles.map Buffer.tobytes)
        (s.slots.map fun cells => zipWith slotValue cells s.codes) rank = .ok p.args ∧
      Forall₂ (fun ts t => ts[rank]? = some t) s.ptrTiles p.tiles := by
  have hslots : rank < s.slots.length := by rw [s.length_slots]; exact hr
  have hws : rank < s.wsBytes.length := by rw [s.length_wsBytes]; exact hr
  obtain ⟨tiles, htiles⟩ : ∃ tiles,
      Forall₂ (fun ts t => ts[rank]? = some t) s.ptrTiles tiles := by
    refine exists_forall₂ fun ts hts => ?_
    obtain ⟨i, hi, rfl⟩ := getElem_of_mem hts
    have hlen := (s.tiles_spec hi (by rw [← s.length_ptrTiles]; exact hi)).1
    exact ⟨_, getElem?_eq_getElem (by rw [hlen]; exact hr)⟩
  have hitems : s.parsed.ptrs.mapM (fun p => item p.tiles rank) = .ok tiles := by
    rw [mapM_eq_ok]
    refine (forall₂_comp s.plans_tiles htiles).imp fun plan t => ?_
    rintro ⟨ts, rfl, ht⟩
    exact item_eq_ok.2 ht
  have hown : (s.ptrTiles.map fun tiles => tiles.map Buffer.tobytes).mapM (at' · rank) =
      .ok (tiles.map Buffer.tobytes) := by
    rw [mapM_eq_ok, forall₂_map_left_iff, forall₂_map_right_iff]
    refine htiles.imp fun ts t ht => ?_
    rw [at', getElem?_map, ht, Option.map_some, orFault_some]
  have hrow : (s.slots.map fun cells => zipWith slotValue cells s.codes)[rank]? =
      some (zipWith slotValue s.slots[rank] s.codes) := by
    rw [getElem?_map, getElem?_eq_getElem hslots, Option.map_some]
  have hrowLen : (zipWith slotValue s.slots[rank] s.codes).length = binding.scalars.length := by
    have hcells := (s.slots_eq.get (by rw [s.slots_eq.length_eq]; exact hslots) hslots).1
    simp only [get_eq_getElem] at hcells
    rw [length_zipWith, hcells, Nat.min_self, s.length_codes]
  have hcast := mapM_castScalar hrowLen (hexact _ (mem_of_getElem? hrow))
  refine ⟨⟨tiles, zipWith slotValue s.slots[rank] s.codes, s.wsBytes[rank]⟩, ?_, ?_, htiles⟩
  · refine bind_eq_ok.2 ⟨tiles, hitems, bind_eq_ok.2 ⟨_, item_eq_ok.2 hrow, bind_eq_ok.2 ?_⟩⟩
    exact ⟨_, item_eq_ok.2 (getElem?_eq_getElem hws), rfl⟩
  · have hat : at' (s.slots.map fun cells => zipWith slotValue cells s.codes) rank =
        .ok (zipWith slotValue s.slots[rank] s.codes) := by rw [at', hrow, orFault_some]
    rw [← (genMpiDriver_eq_ok hb).2.2.2.2] at hcast
    refine bind_eq_ok.2 ⟨_, hown, bind_eq_ok.2 ⟨_, hat, bind_eq_ok.2 ⟨_, hcast, bind_eq_ok.2 ?_⟩⟩⟩
    exact ⟨_, s.rdi_wsbytes hb hws, rfl⟩

theorem fits_count (hi : i < s.ptrTiles.length) :
    ∀ t ∈ s.ptrTiles[i], FitsI64 (t.cells.shape.prod : ℤ) := by
  intro t ht
  refine fits_of_i64 s.tileTable_eq _ (mem_flatten.2 ⟨tileMeta (maxNdim s.ptrTiles) t, ?_, ?_⟩)
  · exact mem_flatten.2 ⟨_, mem_map_of_mem (getElem_mem hi), mem_map_of_mem ht⟩
  · exact mem_cons_self

theorem fits_metaRow (hi : i < s.metaRows.length) : ∀ z ∈ s.metaRows[i], FitsI64 z :=
  fun z hz => fits_of_i64 s.metas_eq z (mem_flatten.2 ⟨_, getElem_mem hi, hz⟩)

/-- Every rank's buffer of pointer `i`, of the type and shape of its tile. -/
theorem exists_buffers (hranks : Forall₂ (fun (rank : ℕ) (p : PyRank) =>
      Forall₂ (fun (ts : List Buffer) t => ts[rank]? = some t) s.ptrTiles p.tiles)
      (List.range d.grid.nranks) ranks)
    (hkinds : compute.map (·.map Buffer.kindOf) = ranks.map (·.tiles.map Buffer.kindOf))
    (hi : i < s.ptrTiles.length) :
    ∃ bufs : List Buffer, Forall₂ (fun (own : List Buffer) b => own[i]? = some b) compute bufs ∧
      Forall₂ (fun b t => Buffer.kindOf b = Buffer.kindOf t) bufs s.ptrTiles[i] := by
  have ha : i < binding.pointers.length := by rw [← s.length_ptrTiles]; exact hi
  have htiles := (s.tiles_spec hi ha).1
  have hlen : compute.length = ranks.length := by simpa using congrArg List.length hkinds
  have hnranks : ranks.length = d.grid.nranks := by simpa using hranks.length_eq.symm
  refine exists_forall₂_mid ?_
  rw [forall₂_iff_get]
  refine ⟨by rw [hlen, hnranks, htiles], fun r h₁ h₂ => ?_⟩
  simp only [get_eq_getElem] at h₂ ⊢
  have hr : r < ranks.length := by rw [← hlen]; exact h₁
  have hrank := hranks.get (i := r) (by simpa [hnranks] using hr) hr
  simp only [get_eq_getElem, getElem_range] at hrank
  have hip : i < ranks[r].tiles.length := by rw [← hrank.length_eq]; exact hi
  have htile := hrank.get hi hip
  simp only [get_eq_getElem, getElem?_eq_getElem h₂, Option.some.injEq] at htile
  have hrow : compute[r].map Buffer.kindOf = ranks[r].tiles.map Buffer.kindOf := by
    have := getElem_of_eq hkinds (i := r) (by simpa using h₁)
    simpa using this
  have hic : i < compute[r].length := by
    have := congrArg List.length hrow
    simp only [length_map] at this
    omega
  refine ⟨compute[r][i], getElem?_eq_getElem hic, ?_⟩
  have hcell := getElem_of_eq hrow (i := i) (by simpa using hic)
  rw [getElem_map, getElem_map] at hcell
  rw [hcell, htile]

/-- Output pointer `i` after the loops: what the interpreted driver gathers for it, and that the
compiled one gathers the same bytes. -/
theorem exists_gatherOutput (hranks : Forall₂ (fun (rank : ℕ) (p : PyRank) =>
      Forall₂ (fun (ts : List Buffer) t => ts[rank]? = some t) s.ptrTiles p.tiles)
      (List.range d.grid.nranks) ranks)
    (hkinds : compute.map (·.map Buffer.kindOf) = ranks.map (·.tiles.map Buffer.kindOf))
    (hi : i < s.ptrTiles.length) (ha : i < binding.pointers.length) :
    ∃ o : Output d.grid.nranks, gatherOutput d.grid.nranks s.plans compute i = .ok o ∧
      o.dtype = binding.pointers[i].dtype ∧
      o.tiles.map (·.shape) = s.ptrTiles[i].map (·.cells.shape) ∧
      (compute.map (·.map Buffer.tobytes)).mapM (at' · i) = .ok (o.tiles.map fun t => joined t.data) := by
  obtain ⟨bufs, hown, hkind⟩ := s.exists_buffers hranks hkinds hi
  obtain ⟨htiles, hdt⟩ := s.tiles_spec hi ha
  obtain ⟨plan, hplan, hdtype⟩ : ∃ plan, item s.plans i = .ok plan ∧
      plan.dtype = binding.pointers[i].dtype := by
    refine ⟨planOf i binding.pointers[i] s.ptrTiles[i], ?_, rfl⟩
    rw [item_eq_ok, plans, getElem?_mapIdx,
      getElem?_eq_getElem (by rw [length_zip]; omega), Option.map_some, getElem_zip]
  obtain ⟨cells, hcells⟩ : ∃ cells, Forall₂
      (fun (b : Buffer) (c : NdArray (Cell plan.dtype.itemsize)) =>
        b.cellsAs plan.dtype = .ok c ∧ c.shape = b.cells.shape ∧ joined c.data = b.tobytes)
      bufs cells := by
    refine exists_forall₂ fun b hb => ?_
    obtain ⟨r, hr, rfl⟩ := getElem_of_mem hb
    have hr' : r < s.ptrTiles[i].length := by rw [← hkind.length_eq]; exact hr
    refine Buffer.cellsAs_eq ?_
    rw [hdtype, ← hdt _ (getElem_mem hr')]
    exact congrArg Prod.fst (hkind.get hr hr')
  have hgather : compute.mapM (fun own => do
      let b ← item own i
      b.cellsAs plan.dtype) = .ok cells := by
    rw [mapM_eq_ok]
    refine (forall₂_comp hown hcells).imp fun own c => ?_
    rintro ⟨b, hb, hc, -, -⟩
    exact bind_eq_ok.2 ⟨b, item_eq_ok.2 hb, hc⟩
  have hlen : cells.length = d.grid.nranks := by
    rw [← hcells.length_eq, hkind.length_eq, htiles]
  refine ⟨⟨plan.name, plan.dtype, cells, hlen⟩, ?_, hdtype, ?_, ?_⟩
  · refine bind_eq_ok.2 ⟨_, hplan, bind_eq_ok.2 ⟨_, hgather, ?_⟩⟩
    rw [dif_pos hlen]
    rfl
  · refine map_eq_map_of_forall₂ ?_
    have hflip : Forall₂ (fun (c : NdArray (Cell plan.dtype.itemsize)) (b : Buffer) =>
        c.shape = b.cells.shape) cells bufs := (hcells.imp fun b c h => h.2.1).flip
    refine (forall₂_comp hflip hkind).imp fun c t => ?_
    rintro ⟨b, hc, hb⟩
    rw [hc]
    exact congrArg Prod.snd hb
  · rw [mapM_eq_ok, forall₂_map_left_iff, forall₂_map_right_iff]
    refine (forall₂_comp hown hcells).imp fun own c => ?_
    rintro ⟨b, hb, -, -, hbytes⟩
    rw [at', getElem?_map, hb, Option.map_some, orFault_some, hbytes]

/-- Output `i` as both drivers write it. -/
structure Writes (b : Baked) (compute : List (List Buffer)) (i : ℕ)
    (p : Output d.grid.nranks × FlatOutput d.grid.nranks) : Prop where
  gathered : gatherOutput d.grid.nranks s.plans compute i = .ok p.1
  payload_eq : List.flatten <$> (compute.map (·.map Buffer.tobytes)).mapM (at' · i) = .ok p.2.payload
  elemSize_eq : at' b.elemSize i = .ok p.2.dtype.itemsize
  typeCode_eq : at' b.typeCode i = .ok p.2.code
  count_eq : (·.map fun c : ℕ => (c : ℤ)) <$>
    at' (s.ptrTiles.map fun tiles => tiles.map fun t => t.cells.shape.prod) i = .ok p.2.counts
  meta_eq : outMeta p.1.dtype = .ok p.2.metaRow
  counts_eq : p.1.tiles.map (fun t => (t.shape.prod : ℤ)) = p.2.counts
  decoded_eq : p.1.decoded = p.2.decoded
  fits_meta : ∀ z ∈ p.2.metaRow, FitsI64 z
  fits_counts : ∀ z ∈ p.2.counts, FitsI64 z

theorem exists_writes (hb : genMpiDriver binding d.grid.dims = .ok b)
    (hranks : Forall₂ (fun (rank : ℕ) (p : PyRank) =>
      Forall₂ (fun (ts : List Buffer) t => ts[rank]? = some t) s.ptrTiles p.tiles)
      (List.range d.grid.nranks) ranks)
    (hkinds : compute.map (·.map Buffer.kindOf) = ranks.map (·.tiles.map Buffer.kindOf))
    (hi : i < s.ptrTiles.length) (ha : i < binding.pointers.length) :
    ∃ p, s.Writes b compute i p := by
  obtain ⟨o, hgather, hdtype, hshapes, hbytes⟩ := s.exists_gatherOutput hranks hkinds hi ha
  obtain ⟨-, hsizes, hcodes, -, -⟩ := genMpiDriver_eq_ok hb
  have hcodes' := mapM_eq_ok.1 hcodes
  have hic : i < b.typeCode.length := by rw [← hcodes'.length_eq]; exact ha
  have hcode : typeCode o.dtype = .ok b.typeCode[i] := by
    rw [hdtype]; exact hcodes'.get ha hic
  obtain ⟨hdecoded, hcounts, hpayload⟩ := Output.toFlat_spec hcode
  have hprods : o.tiles.map (fun t => (t.shape.prod : ℤ)) =
      s.ptrTiles[i].map fun t => (t.cells.shape.prod : ℤ) := by
    have := congrArg (List.map fun shape : List ℕ => (shape.prod : ℤ)) hshapes
    simpa only [map_map, Function.comp_def] using this
  have him : i < s.metaRows.length := by rw [s.length_metaRows]; exact ha
  refine ⟨(o, o.toFlat hcode), ?_⟩
  constructor
  · exact hgather
  · rw [map_eq_ok]
    exact ⟨_, hbytes, hpayload.symm⟩
  · rw [at'_eq (by rw [hsizes, length_map]; exact ha)]
    simp only [hsizes, getElem_map, Output.toFlat, hdtype]
  · exact at'_eq hic
  · rw [map_eq_ok]
    refine ⟨_, at'_eq (by rw [length_map]; exact hi), ?_⟩
    rw [hcounts, hprods, getElem_map, map_map]
    rfl
  · exact bind_eq_ok.2 ⟨_, hcode, rfl⟩
  · exact hcounts.symm
  · exact hdecoded.symm
  · have hrow := s.metaRows_eq.get ha him
    obtain ⟨code, hcode', hrow⟩ := bind_eq_ok.1 hrow
    simp only [get_eq_getElem] at hcode' hrow
    rw [← hdtype, hcode] at hcode'
    cases hcode'
    have hrow' : s.metaRows[i] = [(o.dtype.itemsize : ℤ),
        if binding.pointers[i].isOutput then 1 else 0, b.typeCode[i]] := by
      rw [hdtype]; exact (Except.ok.inj hrow).symm
    have hfits := s.fits_metaRow him
    rw [hrow'] at hfits
    intro z hz
    refine hfits z ?_
    simp only [FlatOutput.metaRow, Output.toFlat, mem_cons, not_mem_nil, or_false] at hz ⊢
    tauto
  · rw [hcounts, hprods]
    intro z hz
    obtain ⟨t, ht, rfl⟩ := mem_map.1 hz
    exact s.fits_count hi t ht

end Sections

/-! ### The outfiles -/

theorem cartDims_nranks (grid : Grid) : ∃ dims, cartDims grid.nranks grid.dims = .ok dims := by
  unfold cartDims
  by_cases h : grid.dims = []
  · exact ⟨_, if_pos h⟩
  · rw [if_neg h]
    exact ⟨_, if_pos rfl⟩

namespace Sections

variable {ev : Evaluator} {binding : Binding} {d : Descriptor} {data : List (String × Buffer)}
  {scalars : List (String × PyNum)} {k : ℕ} {workspaceExpr : Option String}
  {raw : List UInt8} (s : Sections ev binding d data scalars k workspaceExpr raw)
variable {b : Baked}

theorem indicesWhere_plans :
    indicesWhere PtrPlan.isOutput s.plans = indicesWhere Arg.isOutput binding.pointers := by
  refine indicesWhere_congr (ext_getElem ?_ fun i h₁ h₂ => ?_)
  · simp [plans, s.length_ptrTiles]
  · simp [plans, planOf]

section Writes

variable {b : Baked} {compute : List (List Buffer)}
  {pairs : List (Output d.grid.nranks × FlatOutput d.grid.nranks)}
  (hb : genMpiDriver binding d.grid.dims = .ok b)
  (hpairs : Forall₂ (s.Writes b compute) b.outIndex pairs)

include hpairs

theorem writes_of_mem {p : Output d.grid.nranks × FlatOutput d.grid.nranks} (hp : p ∈ pairs) :
    ∃ i, s.Writes b compute i p := by
  obtain ⟨j, hj, rfl⟩ := getElem_of_mem hp
  exact ⟨_, hpairs.get (by rw [hpairs.length_eq]; exact hj) hj⟩

include hb in
theorem i64_outHeader :
    i64 [magicNumber, wireVersion, (d.grid.nranks : ℤ), (k : ℤ), (pairs.length : ℤ)] =
      .ok ([magicNumber, wireVersion, (d.grid.nranks : ℤ), (k : ℤ),
        (pairs.length : ℤ)].flatMap rawI64) := by
  refine i64_of_fits fun z hz => fits_of_i64 s.header_eq z ?_
  rw [← hpairs.length_eq, (genMpiDriver_eq_ok hb).2.2.2.1, length_indicesWhere] at hz
  simp only [mem_cons, not_mem_nil, or_false] at hz ⊢
  tauto

include hb in
/-- What the compiled driver writes decodes to the outputs it gathered. -/
theorem exists_cOutfile (times : ℕ → Double) :
    ∃ rawC out, cOutfile b s.cHdr
        (s.ptrTiles.map fun tiles => tiles.map fun t => t.cells.shape.prod) times
        (compute.map (·.map Buffer.tobytes)) = .ok rawC ∧
      unpackOutfile rawC = .ok out ∧ out.outputs = pairs.map fun p => p.2.decoded := by
  have hmetas : b.outIndex.mapM (fun i => do
      let es ← at' b.elemSize i
      let code ← at' b.typeCode i
      return [(es : ℤ), code]) = .ok (pairs.map fun p => p.2.metaRow) := by
    rw [mapM_eq_ok, forall₂_map_right_iff]
    refine hpairs.imp fun i p h => ?_
    exact bind_eq_ok.2 ⟨_, h.elemSize_eq, bind_eq_ok.2 ⟨_, h.typeCode_eq, rfl⟩⟩
  have hcounts : b.outIndex.mapM (fun i => (·.map fun c : ℕ => (c : ℤ)) <$>
      at' (s.ptrTiles.map fun tiles => tiles.map fun t => t.cells.shape.prod) i) =
        .ok (pairs.map fun p => p.2.counts) := by
    rw [mapM_eq_ok, forall₂_map_right_iff]
    exact hpairs.imp fun i p h => h.count_eq
  have hpayload : b.outIndex.mapM (fun i => List.flatten <$>
      (compute.map (·.map Buffer.tobytes)).mapM (at' · i)) =
        .ok (pairs.map fun p => p.2.payload) := by
    rw [mapM_eq_ok, forall₂_map_right_iff]
    exact hpairs.imp fun i p h => h.payload_eq
  have hmetaBytes : i64 (pairs.map fun p => p.2.metaRow).flatten =
      .ok ((pairs.map fun p => p.2.metaRow).flatten.flatMap rawI64) := i64_of_fits fun z hz => by
    obtain ⟨row, hrow, hz⟩ := mem_flatten.1 hz
    obtain ⟨p, hp, rfl⟩ := mem_map.1 hrow
    obtain ⟨i, hw⟩ := s.writes_of_mem hpairs hp
    exact hw.fits_meta z hz
  have hcountBytes : i64 (pairs.map fun p => p.2.counts).flatten =
      .ok ((pairs.map fun p => p.2.counts).flatten.flatMap rawI64) := i64_of_fits fun z hz => by
    obtain ⟨row, hrow, hz⟩ := mem_flatten.1 hz
    obtain ⟨p, hp, rfl⟩ := mem_map.1 hrow
    obtain ⟨i, hw⟩ := s.writes_of_mem hpairs hp
    exact hw.fits_counts z hz
  have hheader := s.i64_outHeader hb hpairs
  rw [← hpairs.length_eq] at hheader
  have hzeros : (replicate k (0 : Double)).length = k := by simp
  have htimes : ((List.range k).map times).length = k := by simp
  have hlayout := unpackOutfile_layout (pairs.map (·.2)) htimes hzeros hzeros
    (by rw [length_map, ← hpairs.length_eq]; exact hheader)
    (by rw [map_map]; exact hmetaBytes) (by rw [map_map]; exact hcountBytes) rfl
  simp only [map_map, Function.comp_def] at hlayout
  exact ⟨_, _, bind_eq_ok.2 ⟨_, hmetas, bind_eq_ok.2 ⟨_, hcounts, bind_eq_ok.2
    ⟨_, hpayload, rfl⟩⟩⟩, hlayout, rfl⟩

include hb in
/-- What the interpreted driver packs decodes to the outputs it gathered. -/
theorem exists_pyOutfile (times : ℕ → Double) :
    ∃ rawPy out, packOutfile d.grid.nranks k ((List.range k).map times) (pairs.map (·.1)) =
        .ok rawPy ∧
      unpackOutfile rawPy = .ok out ∧ out.outputs = pairs.map fun p => p.1.decoded := by
  have hmetas : ∀ o ∈ pairs.map (·.1), ∃ row bytes, outMeta o.dtype = .ok row ∧
      i64 row = .ok bytes := fun o ho => by
    obtain ⟨p, hp, rfl⟩ := mem_map.1 ho
    obtain ⟨i, hw⟩ := s.writes_of_mem hpairs hp
    exact ⟨_, _, hw.meta_eq, i64_of_fits hw.fits_meta⟩
  have hcounts : ∀ o ∈ pairs.map (·.1), ∃ bytes,
      i64 (o.tiles.map fun t => (t.shape.prod : ℤ)) = .ok bytes := fun o ho => by
    obtain ⟨p, hp, rfl⟩ := mem_map.1 ho
    obtain ⟨i, hw⟩ := s.writes_of_mem hpairs hp
    exact ⟨_, by rw [hw.counts_eq]; exact i64_of_fits hw.fits_counts⟩
  have hheader : ∃ bytes, i64 [magicNumber, wireVersion, (d.grid.nranks : ℤ),
      (((List.range k).map times).length : ℤ), ((pairs.map (·.1)).length : ℤ)] = .ok bytes := by
    rw [length_map, length_map, length_range]
    exact ⟨_, s.i64_outHeader hb hpairs⟩
  obtain ⟨rawPy, hpack⟩ := exists_packOutfile hheader hmetas hcounts
  rw [length_map, length_range] at hpack
  exact ⟨rawPy, _, hpack, unpackOutfile_packOutfile hpack, by rw [map_map]; rfl⟩

end Writes

/-- A decoded output has one flat tile per rank, as long as the tile packed for it. -/
def TilesOf (data : List (String × Buffer)) (d : Descriptor) (a : Arg) (o : DecodedOutput) : Prop :=
  ∃ ts, pointerTiles d data a = .ok ts ∧
    o.tiles.map (·.data.length) = ts.map fun t => t.cells.shape.prod

theorem tilesOf_of_writes {compute : List (List Buffer)} {i : ℕ}
    {p : Output d.grid.nranks × FlatOutput d.grid.nranks} (h : s.Writes b compute i p) {a : Arg}
    (ha : binding.pointers[i]? = some a) : TilesOf data d a p.1.decoded := by
  obtain ⟨hi, rfl⟩ := List.getElem?_eq_some_iff.1 ha
  have hit : i < s.ptrTiles.length := by rw [s.length_ptrTiles]; exact hi
  refine ⟨_, s.ptrTiles_eq.get hi hit, ?_⟩
  obtain ⟨counts, hat, hcounts⟩ := map_eq_ok.1 h.count_eq
  rw [at'_eq (by rw [length_map]; exact hit), getElem_map] at hat
  cases hat
  rw [← h.counts_eq] at hcounts
  have hprods : s.ptrTiles[i].map (fun t => t.cells.shape.prod) = p.1.tiles.map (·.shape.prod) := by
    refine map_injective_iff.2 (Nat.cast_injective (R := ℤ)) ?_
    simpa only [map_map, Function.comp_def] using hcounts
  rw [get_eq_getElem, hprods, Output.decoded, map_map]
  exact map_congr_left fun t _ => t.size_eq

theorem exists_outfiles (hb : genMpiDriver binding d.grid.dims = .ok b)
    (hexact : ScalarsExact binding (s.slots.map fun cells => zipWith slotValue cells s.codes))
    (hmeta : metaNbytes b s.cHdr < 2 ^ 31) (kernel : Kernel) (times times' : ℕ → Double) :
    ∃ rawC rawPy outC outPy, cDriver b d.grid.nranks kernel times raw = .ok rawC ∧
      pyDriver d.grid.nranks d.grid.dims kernel times' raw = .ok rawPy ∧
      unpackOutfile rawC = .ok outC ∧ unpackOutfile rawPy = .ok outPy ∧
      outC.outputs = outPy.outputs ∧
      Forall₂ (TilesOf data d) (binding.pointers.filter Arg.isOutput) outPy.outputs := by
  -- the scatters
  obtain ⟨ranks, hranks⟩ := exists_forall₂ (l := List.range d.grid.nranks) fun rank hr =>
    s.exists_rank hb hexact (mem_range.1 hr)
  have hpyRanks : (List.range d.grid.nranks).mapM (scatterRank s.parsed) = .ok ranks :=
    mapM_eq_ok.2 (hranks.imp fun _ _ h => h.1)
  have hcRanks : (List.range d.grid.nranks).mapM (cRankArgs b s.cHdr raw
      (s.ptrTiles.map fun tiles => tiles.map Buffer.tobytes)
      (s.slots.map fun cells => zipWith slotValue cells s.codes)) =
        .ok (ranks.map PyRank.args) := by
    rw [mapM_eq_ok, forall₂_map_right_iff]
    exact hranks.imp fun _ _ h => h.2.1
  -- the loops
  obtain ⟨hbytes, hkinds⟩ := pyRepeats_spec kernel ranks k
  -- the outputs
  have hout := (genMpiDriver_eq_ok hb).2.2.2.1
  obtain ⟨pairs, hpairs⟩ := exists_forall₂ (l := b.outIndex)
    (R := s.Writes b (pyRepeats kernel ranks k)) fun i hi => by
      rw [hout] at hi
      obtain ⟨ha, -⟩ := exists_of_mem_indicesWhere hi
      exact s.exists_writes hb (hranks.imp fun _ _ h => h.2.2) hkinds
        (by rw [s.length_ptrTiles]; exact ha) ha
  obtain ⟨rawC, outC, hC, hrawC, houtC⟩ := s.exists_cOutfile hb hpairs times
  obtain ⟨rawPy, outPy, hPy, hrawPy, houtPy⟩ := s.exists_pyOutfile hb hpairs times'
  have hgather : (indicesWhere PtrPlan.isOutput s.parsed.ptrs).mapM
      (gatherOutput d.grid.nranks s.parsed.ptrs (pyRepeats kernel ranks k)) =
        .ok (pairs.map (·.1)) := by
    rw [parsed, s.indicesWhere_plans, ← hout, mapM_eq_ok, forall₂_map_right_iff]
    exact hpairs.imp fun i p h => h.gathered
  refine ⟨rawC, rawPy, outC, outPy, ?_, ?_, hrawC, hrawPy, ?_, ?_⟩
  · rw [hbytes] at hC
    rw [cDriver, s.cHeader_eq hb]
    refine bind_eq_ok.2 ⟨_, rfl, ?_⟩
    rw [if_neg (by omega)]
    exact bind_eq_ok.2 ⟨_, s.cSlots_eq hb, bind_eq_ok.2 ⟨_, s.cCounts_eq hb, bind_eq_ok.2
      ⟨_, s.cTiles_eq hb, bind_eq_ok.2 ⟨_, hcRanks, hC⟩⟩⟩⟩
  · obtain ⟨dims, hdims⟩ := cartDims_nranks d.grid
    exact bind_eq_ok.2 ⟨_, hdims, bind_eq_ok.2 ⟨_, s.unpack_eq, bind_eq_ok.2 ⟨_, hpyRanks,
      bind_eq_ok.2 ⟨_, hgather, hPy⟩⟩⟩⟩
  · rw [houtC, houtPy]
    refine map_congr_left fun p hp => ?_
    obtain ⟨i, hw⟩ := s.writes_of_mem hpairs hp
    exact hw.decoded_eq.symm
  · rw [houtPy, forall₂_map_right_iff]
    have hflip := (forall₂_indicesWhere (f := Arg.isOutput) (l := binding.pointers)).flip
    rw [← hout] at hflip
    refine (forall₂_comp hflip hpairs).imp fun a p => ?_
    rintro ⟨i, hia, hw⟩
    exact s.tilesOf_of_writes hw hia

end Sections

/-! ### The global outputs -/

section Gather

variable {binding : Binding} {d : Descriptor} {data : List (String × Buffer)} {a : Arg}

/-- The shape a rank's tile is given back is as large as the one it was packed with. -/
theorem exists_localShape {α : Type} {name : String} {cells : NdArray α} {rank : ℕ}
    {shape : List ℕ} (h : d.localShape name (ascontiguousarray cells).shape rank = .ok shape) :
    ∃ shape', d.localShape name cells.shape rank = .ok shape' ∧ shape'.prod = shape.prod := by
  by_cases hs : cells.shape = []
  · -- a 0-d array is replicated with either shape
    have hone : (ascontiguousarray cells).shape = [1] := by simp [ascontiguousarray, hs]
    rw [hone] at h
    have hrep : d.localShape name [1] rank = .ok [1] := rfl
    rw [hrep] at h
    cases h
    exact ⟨[], by rw [hs]; rfl, rfl⟩
  · rw [ascontiguousarray_eq hs] at h
    exact ⟨shape, h, rfl⟩

theorem exists_gatherPointer {o : DecodedOutput} (h : Sections.TilesOf data d a o)
    (hsep : ∀ buf, data.lookup a.name = some buf → ∀ dist,
      d.distFor a.name buf.cells.shape = .ok dist → dist.replicated = false →
        dist.Separated d.grid) :
    ∃ buf, ∀ fresh, gatherPointer d data a o fresh = .ok buf := by
  obtain ⟨tiles, htiles, hlens⟩ := h
  obtain ⟨cells, ts, hlookup, hscatter, rfl⟩ := pointerTiles_eq_ok htiles
  have hshapes := Descriptor.scatter_shape hscatter
  have hlen : o.tiles.length = d.grid.nranks := by
    have := congrArg List.length hlens
    simp only [length_map] at this
    rw [this, ← hshapes.length_eq, length_range]
  obtain ⟨shaped, hshaped⟩ : ∃ shaped, Forall₂
      (fun (p : NdArray (Cell o.dtype.itemsize) × ℕ) c =>
        d.localShape a.name cells.shape p.2 = .ok (NdArray.shape c) ∧
          reshape p.1.data (NdArray.shape c) = .ok c) o.tiles.zipIdx shaped := by
    refine exists_forall₂ fun p hp => ?_
    obtain ⟨hr, hpr⟩ := List.getElem?_eq_some_iff.1 (mem_zipIdx_iff_getElem?.1 hp)
    have hts : p.2 < ts.length := by rw [← hshapes.length_eq, length_range, ← hlen]; exact hr
    have hrank := hshapes.get (i := p.2) (by rw [length_range, ← hlen]; exact hr) hts
    simp only [get_eq_getElem, getElem_range] at hrank
    obtain ⟨shape, hshape, hprod⟩ := exists_localShape hrank
    have hsize : p.1.data.length = shape.prod := by
      have := getElem_of_eq hlens (i := p.2) (by simpa using hr)
      rw [hprod, ← hpr]
      simpa using this
    exact ⟨⟨shape, p.1.data, hsize⟩, hshape, by simp [reshape, hsize]⟩
  have hmapM : o.tiles.zipIdx.mapM (fun p => do
      let shape ← d.localShape a.name cells.shape p.2
      reshape p.1.data shape) = .ok shaped :=
    mapM_eq_ok.2 (hshaped.imp fun p c hc => bind_eq_ok.2 ⟨_, hc.1, hc.2⟩)
  have hranks : Forall₂ (fun rank t => d.localShape a.name cells.shape rank = .ok t.shape)
      (List.range d.grid.nranks) shaped := by
    have hsnd : o.tiles.zipIdx.map Prod.snd = List.range d.grid.nranks := by
      rw [zipIdx_map_snd, hlen, range_eq_range']
    rw [← hsnd, forall₂_map_left_iff]
    exact hshaped.imp fun p c hc => hc.1
  obtain ⟨out, hout⟩ := Descriptor.exists_gather hranks (hsep _ hlookup)
  refine ⟨⟨o.dtype, out⟩, fun fresh => ?_⟩
  exact bind_eq_ok.2 ⟨_, getItem_eq_ok.2 hlookup, bind_eq_ok.2 ⟨_, hmapM, bind_eq_ok.2
    ⟨_, hout fresh, rfl⟩⟩⟩

/-- No two axes of an output array share a split grid dimension. -/
def OutputsSeparated (binding : Binding) (d : Descriptor) (data : List (String × Buffer)) : Prop :=
  ∀ a ∈ binding.pointers.filter Arg.isOutput, ∀ buf, data.lookup a.name = some buf → ∀ dist,
    d.distFor a.name buf.cells.shape = .ok dist → dist.replicated = false → dist.Separated d.grid

theorem exists_gatherOutputs {decoded : List DecodedOutput}
    (h : Forall₂ (Sections.TilesOf data d) (binding.pointers.filter Arg.isOutput) decoded)
    (hsep : OutputsSeparated binding d data) :
    ∃ outputs, ∀ fresh, gatherOutputs binding d data decoded fresh = .ok outputs := by
  have hlen := h.length_eq
  unfold OutputsSeparated at hsep
  unfold gatherOutputs
  generalize binding.pointers.filter Arg.isOutput = args at h hsep hlen
  simp only [hlen, ne_eq, not_true_eq_false, ↓reduceIte]
  generalize ([] : List (String × Buffer)) = acc
  clear hlen
  induction h generalizing acc with
  | nil => exact ⟨acc, fun _ => rfl⟩
  | @cons a o args decoded ho _ ih =>
    obtain ⟨buf, hbuf⟩ := exists_gatherPointer ho (hsep a mem_cons_self)
    obtain ⟨outputs, hrest⟩ := ih (fun x hx => hsep x (mem_cons_of_mem _ hx))
      (setItem acc a.name buf)
    refine ⟨outputs, fun fresh => ?_⟩
    rw [zip_cons_cons, foldlM_cons]
    exact bind_eq_ok.2 ⟨_, bind_eq_ok.2 ⟨buf, hbuf _, rfl⟩, hrest fresh⟩

end Gather

/-- **The two drivers implement one protocol.**  On an infile packed for the binding that is baked
in, the compiled driver finds for every pointer and rank the count and the bytes packed for them,
and every scalar in the class it was packed in.  When the declared C type of every scalar holds
its value, the outfiles of the two drivers decode to the same outputs, for every kernel, and
gather to the same global arrays, whatever the new buffers held. -/
theorem drivers_agree {ev : Evaluator} {binding : Binding} {d : Descriptor}
    {data : List (String × Buffer)} {scalars : List (String × PyNum)} {k : ℕ}
    {workspaceExpr : Option String} {raw : List UInt8}
    (h : packInfile ev binding d data scalars k workspaceExpr = .ok raw) :
    ∃ b hdr ptrTiles rows,
      genMpiDriver binding d.grid.dims = .ok b ∧
      cHeader b d.grid.nranks raw = .ok hdr ∧
      binding.pointers.mapM (pointerTiles d data) = .ok ptrTiles ∧
      (List.range d.grid.nranks).mapM (fun rank => do
        let locals ← d.localSizeScalars scalars rank
        binding.scalars.mapM (carriedScalar locals)) = .ok rows ∧
      cCounts b hdr raw = .ok (ptrTiles.map fun tiles => tiles.map fun t => t.cells.shape.prod) ∧
      cTiles b hdr raw (ptrTiles.map fun tiles => tiles.map fun t => t.cells.shape.prod) =
        .ok (ptrTiles.map fun tiles => tiles.map Buffer.tobytes) ∧
      cSlots b hdr raw = .ok rows ∧
      (metaNbytes b hdr < 2 ^ 31 → ScalarsExact binding rows →
        ∀ (kernel : Kernel) (times times' : ℕ → Double), ∃ rawC rawPy outC outPy,
          cDriver b d.grid.nranks kernel times raw = .ok rawC ∧
          pyDriver d.grid.nranks d.grid.dims kernel times' raw = .ok rawPy ∧
          unpackOutfile rawC = .ok outC ∧ unpackOutfile rawPy = .ok outPy ∧
          outC.outputs = outPy.outputs ∧
          (OutputsSeparated binding d data → ∃ outputs, ∀ fresh fresh',
            gatherOutputs binding d data outC.outputs fresh = .ok outputs ∧
            gatherOutputs binding d data outPy.outputs fresh' = .ok outputs)) := by
  obtain ⟨s⟩ := exists_sections h
  obtain ⟨b, hb⟩ := s.exists_genMpiDriver
  refine ⟨b, s.cHdr, s.ptrTiles, s.slots.map fun cells => zipWith slotValue cells s.codes, hb,
    s.cHeader_eq hb, mapM_eq_ok.2 s.ptrTiles_eq, ?_, s.cCounts_eq hb, s.cTiles_eq hb,
    s.cSlots_eq hb, fun hmeta hexact kernel times times' => ?_⟩
  · rw [mapM_eq_ok, forall₂_map_right_iff]
    refine (forall₂_comp s.localScalars_eq s.slots_eq).imp fun rank cells => ?_
    rintro ⟨locals, hlocals, -, hcarried⟩
    exact bind_eq_ok.2 ⟨locals, hlocals, hcarried⟩
  · obtain ⟨rawC, rawPy, outC, outPy, hC, hPy, hrawC, hrawPy, houts, htiles⟩ :=
      s.exists_outfiles hb hexact hmeta kernel times times'
    refine ⟨rawC, rawPy, outC, outPy, hC, hPy, hrawC, hrawPy, houts, fun hsep => ?_⟩
    obtain ⟨outputs, hout⟩ := exists_gatherOutputs htiles hsep
    exact ⟨outputs, fun fresh fresh' => ⟨by rw [houts]; exact hout fresh, hout fresh'⟩⟩

namespace Example

/-- Every rank stores the bits of its last scalar in every element of its last tile. -/
def storeScalar : Kernel :=
  .perRank (fun a =>
    let bits := match a.scalars.getLast? with
      | some (.float bits) => bits
      | _ => 0
    a.tiles.mapIdx fun i t =>
      if i + 1 = a.tiles.length then (List.range t.length).map fun j => (f64Cell bits).bytes.getD (j % 8) 0
      else t)
    fun a => by
      refine ext_getElem (by simp) fun i h₁ h₂ => ?_
      simp only [getElem_map, getElem_mapIdx]
      split_ifs <;> simp

def data : List (String × Buffer) := [("x", numbered .int32 [5]), ("y", numbered .float64 [5])]

def scalars : List (String × PyNum) := [("N", .int 5), ("a", .float 0x4004000000000000)]

def infile : List UInt8 :=
  (packInfile evaluator binding descriptor data scalars 3 (some "8*N")).toOption.getD []

/-- The constants of the program generated for the example. -/
def baked : Baked where
  gridDims := [2]
  elemSize := [4, 8]
  typeCode := [3, 0]
  outIndex := [1]
  scalarReads := [(.int64, true), (.float64, false)]

end Example

open Example in
theorem drivers_agree_two_ranks :
    ∃ rawC rawPy outC outPy, cDriver baked 2 storeScalar (fun _ => 0) infile = .ok rawC ∧
      pyDriver 2 [2] storeScalar (fun _ => 1) infile = .ok rawPy ∧
      unpackOutfile rawC = .ok outC ∧ unpackOutfile rawPy = .ok outPy ∧
      outC.outputs = outPy.outputs ∧ ∃ outputs, ∀ fresh fresh',
        gatherOutputs binding descriptor data outC.outputs fresh = .ok outputs ∧
        gatherOutputs binding descriptor data outPy.outputs fresh' = .ok outputs := by
  have hpack : packInfile evaluator binding descriptor data scalars (3 : ℕ) (some "8*N") =
      .ok infile := by decide +kernel
  have hsep : OutputsSeparated binding descriptor data := by
    intro a ha buf hbuf dist hdist _
    have hargs : binding.pointers.filter Arg.isOutput =
        [{ name := "y", kind := .ptr, dtype := .float64, role := some .output }] := by decide
    rw [hargs, mem_singleton] at ha
    subst ha
    cases hbuf
    cases hdist
    simp [ArrayDist.Separated]
  obtain ⟨b, hdr, ptrTiles, rows, hb, hhdr, -, -, -, -, hrows, hrun⟩ := drivers_agree hpack
  have hb' : genMpiDriver binding [2] = .ok baked := by decide
  obtain rfl : b = baked := Except.ok.inj (hb.symm.trans hb')
  have hhdr' : cHeader baked 2 infile = .ok ⟨2, 3, 1⟩ := by decide +kernel
  obtain rfl : hdr = ⟨2, 3, 1⟩ := Except.ok.inj (hhdr.symm.trans hhdr')
  have hrows' : cSlots baked ⟨2, 3, 1⟩ infile =
      .ok [[.int 3, .float 0x4004000000000000], [.int 2, .float 0x4004000000000000]] := by
    decide +kernel
  obtain rfl := Except.ok.inj (hrows.symm.trans hrows')
  obtain ⟨rawC, rawPy, outC, outPy, hC, hPy, hrawC, hrawPy, houts, hgather⟩ :=
    hrun (by decide) (by decide) storeScalar (fun _ => 0) fun _ => 1
  exact ⟨rawC, rawPy, outC, outPy, hC, hPy, hrawC, hrawPy, houts, hgather hsep⟩

/-- A scalar declared in single precision: the compiled kernel stores it rounded, the interpreted
one as its slot carries it. -/
theorem drivers_differ_single :
    (do
      let binding : Binding := ⟨[{ name := "y", kind := .ptr, dtype := .float64, role := some .output },
        { name := "a", kind := .scalar, dtype := .float32 }]⟩
      let d : Descriptor := ⟨⟨[1], by decide⟩, [], []⟩
      let data := [("y", Example.numbered .float64 [1])]
      let fresh : String → (dtype : DType) → ℕ → Cell dtype.itemsize := fun _ _ _ => .ofNat _ 0
      let raw ← (packInfile Example.evaluator binding d data [("a", .float 0x3FB999999999999A)] 1
        none).toOption
      let b ← (genMpiDriver binding [1]).toOption
      let rawC ← (cDriver b 1 Example.storeScalar (fun _ => 0) raw).toOption
      let rawPy ← (pyDriver 1 [1] Example.storeScalar (fun _ => 0) raw).toOption
      let outC ← (unpackOutfile rawC).toOption
      let outPy ← (unpackOutfile rawPy).toOption
      let globalC ← (gatherOutputs binding d data outC.outputs fresh).toOption
      let globalPy ← (gatherOutputs binding d data outPy.outputs fresh).toOption
      return (globalC, globalPy)) =
        some ([("y", ⟨.float64, flat [f64Cell 0x3FB99999A0000000]⟩)],
          [("y", ⟨.float64, flat [f64Cell 0x3FB999999999999A]⟩)]) := by
  decide +kernel

end Mpi

end HpcAgentBench
