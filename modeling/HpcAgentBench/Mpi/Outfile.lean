import HpcAgentBench.Mpi.Wire

/-!
# The MPI outfile

The outputs and timing samples a driver hands back: `packOutfile` is the Python driver's writer,
`unpackOutfile` the reader both drivers' files go through.

## Main results

* `FlatOutputs.unpackOutfile` : any file laid out as header, timings, metadata, counts and
  payload decodes to exactly the timings and the tiles it was laid out from.
* `wire_round_trip` : infiles and outfiles come back.
-/

namespace HpcAgentBench

open List

namespace Mpi

/-! ### Writing -/

/-- One gathered output: its tiles in rank order, of its element type. -/
structure Output (nranks : ℕ) where
  name : String
  dtype : DType
  tiles : List (NdArray (Cell dtype.itemsize))
  length_tiles : tiles.length = nranks
  deriving DecidableEq

/-- Metadata of one output: element size and type code. -/
def outMeta (dtype : DType) : Except PyErr (List ℤ) := do
  let code ← typeCode dtype
  return [dtype.itemsize, code]

/-- Serialise the gathered outputs and timing samples; the cast samples are 0. -/
def packOutfile (nranks : ℕ) (kRepeats : ℤ) (samples : List Double)
    (outputs : List (Output nranks)) : Except PyErr (List UInt8) := do
  if (samples.length : ℤ) ≠ kRepeats then
    throw (.valueError (s!"pack_outfile: {samples.length} samples but header says " ++
      s!"{kRepeats} repeats"))
  let header ← i64 [magicNumber, wireVersion, nranks, kRepeats, outputs.length]
  let times := joined (samples.map f64Cell)
  let casts := joined (replicate (2 * kRepeats.toNat) (f64Cell 0))
  let metas ← outputs.mapM fun o => outMeta o.dtype >>= i64
  let counts ← outputs.mapM fun o => i64 (o.tiles.map fun t => (t.shape.prod : ℤ))
  let payload := outputs.map fun o => (o.tiles.map fun t => joined t.data).flatten
  return header ++ (times ++ (casts ++ (metas.flatten ++ (counts.flatten ++ payload.flatten))))

/-! ### Reading -/

/-- A decoded output: its dtype and its per-rank flat tiles. -/
structure DecodedOutput where
  dtype : DType
  tiles : List (NdArray (Cell dtype.itemsize))
  deriving DecidableEq

/-- A decoded outfile. -/
structure OutFile where
  samples : List Double
  castIn : List Double
  castOut : List Double
  outputs : List DecodedOutput
  deriving DecidableEq

/-- A 1-d array. -/
def flat {α : Type} (data : List α) : NdArray α := ⟨[data.length], data, by simp⟩

/-- One flat tile of an output. -/
def readFlatTile (dtype : DType) (elemSize : ℕ) (counts : List ℤ) (r : ℕ) :
    Reader (NdArray (Cell dtype.itemsize)) := do
  let count ← sizeAt counts r
  let cells ← block dtype.itemsize count (count * elemSize)
  return flat cells

/-- One output's tiles, in rank order. -/
def readOutput (nranks : ℕ) (metas countTable : List ℤ) (j : ℕ) : Reader DecodedOutput := do
  let row := tableRow metas 2 j
  let elemSize ← sizeAt row 0
  let code ← item row 1
  let dtype ← orRaise (.keyError (toString code)) (codeToDtype.lookup code)
  let counts := tableRow countTable nranks j
  let tiles ← (List.range nranks).mapM (readFlatTile dtype elemSize counts)
  return ⟨dtype, tiles⟩

/-- The sections of an outfile, in order. -/
def readOutfile : Reader OutFile := do
  let header ← i64s 5
  let magic ← item header 0
  let version ← item header 1
  if magic ≠ magicNumber ∨ version ≠ wireVersion then
    throw (.valueError s!"bad MPI outfile (magic {hexText magic}, version {version})")
  let nranks ← sizeAt header 2
  let kRepeats ← sizeAt header 3
  let nOut ← sizeAt header 4
  let timings ← (·.map Cell.toF64) <$> block 8 (3 * kRepeats) (8 * 3 * kRepeats)
  let metas ← i64s (2 * nOut)
  let countTable ← i64s (nOut * nranks)
  let outputs ← (List.range nOut).mapM (readOutput nranks metas countTable)
  return {
    samples := tableRow timings kRepeats 0
    castIn := tableRow timings kRepeats 1
    castOut := tableRow timings kRepeats 2
    outputs }

/-- Decode an outfile. -/
def unpackOutfile (raw : List UInt8) : Except PyErr OutFile := (·.1) <$> readOutfile raw 0

/-! ### Reading back -/

/-- One output as it lies in a file. -/
structure FlatOutput (nranks : ℕ) where
  dtype : DType
  code : ℤ
  code_eq : typeCode dtype = .ok code
  /-- By rank, the elements of its tile. -/
  tiles : List (List (Cell dtype.itemsize))
  length_tiles : tiles.length = nranks

namespace FlatOutput

variable {nranks : ℕ} (o : FlatOutput nranks)

def metaRow : List ℤ := [(o.dtype.itemsize : ℤ), o.code]

def counts : List ℤ := o.tiles.map fun cells => (cells.length : ℤ)

def payload : List UInt8 := (o.tiles.map joined).flatten

/-- What the output decodes to. -/
def decoded : DecodedOutput := ⟨o.dtype, o.tiles.map flat⟩

theorem reads_readFlatTile (dtype : DType) {cells : List (Cell dtype.itemsize)} {counts : List ℤ}
    {r : ℕ} (h : counts[r]? = some (cells.length : ℤ)) :
    Reads (readFlatTile dtype dtype.itemsize counts r) (joined cells) (flat cells) := by
  refine Reads.bind_lift (sizeAt_of_getElem? h) ?_
  exact (Reads.block rfl rfl).bind_pure

theorem reads_readOutput {metas countTable : List ℤ} {j : ℕ}
    (hmeta : tableRow metas 2 j = o.metaRow) (hcounts : tableRow countTable nranks j = o.counts) :
    Reads (readOutput nranks metas countTable j) o.payload o.decoded := by
  unfold readOutput
  rw [hmeta, hcounts]
  refine Reads.bind_lift (sizeAt_of_getElem? (n := o.dtype.itemsize) rfl) ?_
  refine Reads.bind_lift (item_eq_ok.2 rfl) ?_
  refine Reads.bind_lift (orRaise_eq_ok.2 (lookup_codeToDtype o.code_eq)) ?_
  refine Reads.bind_pure (Reads.mapM_range (by simp [o.length_tiles]) (by simp [o.length_tiles])
    fun r h₁ h₂ => ?_)
  rw [getElem_map, getElem_map]
  have hr : r < o.tiles.length := by simpa using h₁
  refine reads_readFlatTile o.dtype ?_
  rw [counts, getElem?_map, getElem?_eq_getElem hr, Option.map_some]

end FlatOutput

section Layout

variable {nranks k : ℕ} (outs : List (FlatOutput nranks)) {samples castIn castOut : List Double}
  {raw header metas counts : List UInt8}

/-- **A file laid out as an outfile decodes to what it was laid out from.** -/
theorem unpackOutfile_layout
    (hk : samples.length = k) (hin : castIn.length = k) (hout : castOut.length = k)
    (hheader : i64 [magicNumber, wireVersion, nranks, k, outs.length] = .ok header)
    (hmetas : i64 (outs.map FlatOutput.metaRow).flatten = .ok metas)
    (hcounts : i64 (outs.map FlatOutput.counts).flatten = .ok counts)
    (hraw : raw = header ++ (joined ((samples ++ (castIn ++ castOut)).map f64Cell) ++
      (metas ++ (counts ++ (outs.map FlatOutput.payload).flatten)))) :
    unpackOutfile raw = .ok ⟨samples, castIn, castOut, outs.map FlatOutput.decoded⟩ := by
  have hmetaLen : ∀ row ∈ outs.map FlatOutput.metaRow, row.length = 2 := by
    intro row hrow
    obtain ⟨o, -, rfl⟩ := mem_map.1 hrow
    rfl
  have hcountLen : ∀ row ∈ outs.map FlatOutput.counts, row.length = nranks := by
    intro row hrow
    obtain ⟨o, -, rfl⟩ := mem_map.1 hrow
    rw [FlatOutput.counts, length_map, o.length_tiles]
  have htimes : Reads ((·.map Cell.toF64) <$> block 8 (3 * k) (8 * 3 * k))
      (joined ((samples ++ (castIn ++ castOut)).map f64Cell)) (samples ++ (castIn ++ castOut)) := by
    have hlen : ((samples ++ (castIn ++ castOut)).map f64Cell).length = 3 * k := by
      simp only [length_map, length_append]; omega
    have hsize : 8 * 3 * k = ((samples ++ (castIn ++ castOut)).map f64Cell).length * 8 := by
      rw [hlen]; omega
    have hblock := (Reads.block hlen.symm hsize).map (f := fun cells => cells.map Cell.toF64)
    simpa [Function.comp_def] using hblock
  have hrows : ∀ i (hi : i < 3), tableRow (samples ++ (castIn ++ castOut)) k i =
      [samples, castIn, castOut][i] := by
    have htable : samples ++ (castIn ++ castOut) = [samples, castIn, castOut].flatten := by simp
    rw [htable]
    exact fun i hi => tableRow_flatten (by simp [hk, hin, hout]) hi
  have hreads : Reads readOutfile raw ⟨samples, castIn, castOut, outs.map FlatOutput.decoded⟩ := by
    rw [hraw]
    unfold readOutfile
    refine (reads_i64s hheader rfl).bind ?_
    refine Reads.bind_lift (item_eq_ok.2 rfl) ?_
    refine Reads.bind_lift (item_eq_ok.2 rfl) ?_
    simp only [ne_eq, not_true_eq_false, or_self, ↓reduceIte]
    refine Reads.bind_lift (sizeAt_of_getElem? (n := nranks) rfl) ?_
    refine Reads.bind_lift (sizeAt_of_getElem? (n := k) rfl) ?_
    refine Reads.bind_lift (sizeAt_of_getElem? (n := outs.length) rfl) ?_
    refine htimes.bind ?_
    refine (reads_i64s hmetas ?_).bind ?_
    · rw [length_flatten_uniform hmetaLen, length_map]; omega
    refine (reads_i64s hcounts ?_).bind ?_
    · rw [length_flatten_uniform hcountLen, length_map]
    rw [hrows 0 (by omega), hrows 1 (by omega), hrows 2 (by omega)]
    refine Reads.bind_pure (Reads.mapM_range (by simp) (by simp) fun j h₁ h₂ => ?_)
    rw [getElem_map, getElem_map]
    have hj : j < outs.length := by simpa using h₁
    refine outs[j].reads_readOutput ?_ ?_
    · rw [tableRow_flatten hmetaLen (by simpa using hj), getElem_map]
    · rw [tableRow_flatten hcountLen (by simpa using hj), getElem_map]
  have h := hreads [] []
  rw [nil_append, append_nil] at h
  rw [unpackOutfile, map_eq_ok]
  exact ⟨_, h, rfl⟩

end Layout

/-! ### Round trips -/

namespace Output

variable {nranks : ℕ} (o : Output nranks)

/-- What an output decodes to: its tiles, flat. -/
def decoded : DecodedOutput := ⟨o.dtype, o.tiles.map fun t => flat t.data⟩

/-- An output as it lies in a file. -/
def toFlat {code : ℤ} (h : typeCode o.dtype = .ok code) : FlatOutput nranks where
  dtype := o.dtype
  code := code
  code_eq := h
  tiles := o.tiles.map NdArray.data
  length_tiles := by rw [length_map, o.length_tiles]

variable {o}

theorem toFlat_spec {code : ℤ} (h : typeCode o.dtype = .ok code) :
    (o.toFlat h).decoded = o.decoded ∧
      (o.toFlat h).counts = o.tiles.map (fun t => (t.shape.prod : ℤ)) ∧
        (o.toFlat h).payload = (o.tiles.map fun t => joined t.data).flatten := by
  refine ⟨?_, ?_, ?_⟩
  · simp [toFlat, FlatOutput.decoded, decoded, Function.comp_def]
  · simp [toFlat, FlatOutput.counts, Function.comp_def, NdArray.size_eq]
  · simp [toFlat, FlatOutput.payload, Function.comp_def]

end Output

/-- What is packed when every number fits its slot. -/
theorem exists_packOutfile {nranks : ℕ} {samples : List Double} {outputs : List (Output nranks)}
    (hheader : ∃ bytes, i64 [magicNumber, wireVersion, nranks, samples.length, outputs.length] =
      .ok bytes)
    (hmeta : ∀ o ∈ outputs, ∃ row bytes, outMeta o.dtype = .ok row ∧ i64 row = .ok bytes)
    (hcounts : ∀ o ∈ outputs, ∃ bytes, i64 (o.tiles.map fun t => (t.shape.prod : ℤ)) = .ok bytes) :
    ∃ raw, packOutfile nranks samples.length samples outputs = .ok raw := by
  obtain ⟨header, hheader⟩ := hheader
  obtain ⟨metas, hmetas⟩ : ∃ metas, outputs.mapM (fun o => outMeta o.dtype >>= i64) =
      .ok metas := by
    simp only [mapM_eq_ok]
    refine exists_forall₂ fun o ho => ?_
    obtain ⟨row, bytes, hrow, hbytes⟩ := hmeta o ho
    exact ⟨bytes, bind_eq_ok.2 ⟨row, hrow, hbytes⟩⟩
  obtain ⟨counts, hcounts⟩ : ∃ counts, outputs.mapM
      (fun o => i64 (o.tiles.map fun t => (t.shape.prod : ℤ))) = .ok counts := by
    simp only [mapM_eq_ok]
    exact exists_forall₂ hcounts
  unfold packOutfile
  rw [if_neg (fun h => h rfl)]
  exact ⟨_, bind_eq_ok.2 ⟨header, hheader, bind_eq_ok.2 ⟨metas, hmetas, bind_eq_ok.2
    ⟨counts, hcounts, rfl⟩⟩⟩⟩

/-- **An outfile gives the samples and every rank's tiles back.** -/
theorem unpackOutfile_packOutfile {nranks : ℕ} {kRepeats : ℤ} {samples : List Double}
    {outputs : List (Output nranks)} {raw : List UInt8}
    (h : packOutfile nranks kRepeats samples outputs = .ok raw) :
    unpackOutfile raw = .ok {
      samples
      castIn := replicate samples.length 0
      castOut := replicate samples.length 0
      outputs := outputs.map Output.decoded } := by
  unfold packOutfile at h
  split_ifs at h with hk
  · obtain ⟨_, hthrow, -⟩ := bind_eq_ok.1 h
    cases hthrow
  rw [not_not] at hk
  subst hk
  obtain ⟨header, hheader, h⟩ := bind_eq_ok.1 h
  obtain ⟨metas, hmetas, h⟩ := bind_eq_ok.1 h
  obtain ⟨counts, hcounts, h⟩ := bind_eq_ok.1 h
  cases h
  rw [mapM_eq_ok] at hmetas hcounts
  obtain ⟨outs, houts, hrows⟩ : ∃ outs : List (FlatOutput nranks),
      Forall₂ (fun (o : Output nranks) fo => fo.decoded = o.decoded ∧
        fo.counts = o.tiles.map (fun t => (t.shape.prod : ℤ)) ∧
          fo.payload = (o.tiles.map fun t => joined t.data).flatten) outputs outs ∧
      Forall₂ (fun fo bs => i64 fo.metaRow = .ok bs) outs metas := by
    refine exists_forall₂_mid (hmetas.imp fun o bs hbs => ?_)
    obtain ⟨row, hrow, hbs⟩ := bind_eq_ok.1 hbs
    obtain ⟨code, hcode, hrow⟩ := bind_eq_ok.1 hrow
    cases hrow
    exact ⟨o.toFlat hcode, Output.toFlat_spec hcode, hbs⟩
  have hdecoded : outputs.map Output.decoded = outs.map FlatOutput.decoded :=
    map_eq_map_of_forall₂ (houts.imp fun _ _ h => h.1.symm)
  have hcountRows : outputs.map (fun o => o.tiles.map fun t => (t.shape.prod : ℤ)) =
      outs.map FlatOutput.counts := map_eq_map_of_forall₂ (houts.imp fun _ _ h => h.2.1.symm)
  have hpayload : outputs.map (fun o => (o.tiles.map fun t => joined t.data).flatten) =
      outs.map FlatOutput.payload := map_eq_map_of_forall₂ (houts.imp fun _ _ h => h.2.2.symm)
  rw [hdecoded, hpayload]
  have hcounts' : i64 (outs.map FlatOutput.counts).flatten = .ok counts.flatten := by
    rw [← hcountRows]
    exact i64_flatten (forall₂_map_left_iff.2 hcounts)
  refine unpackOutfile_layout outs rfl (by simp) (by simp) (houts.length_eq ▸ hheader)
    (i64_flatten (forall₂_map_left_iff.2 hrows)) hcounts' ?_
  have hzeros : replicate (2 * (samples.length : ℤ).toNat) (f64Cell 0) =
      (replicate samples.length (0 : Double) ++ replicate samples.length 0).map f64Cell := by
    have htwice : 2 * (samples.length : ℤ).toNat = samples.length + samples.length := by omega
    rw [replicate_append_replicate, map_replicate, htwice]
  rw [hzeros]
  simp only [map_append, joined_append, append_assoc]

/-- **The wire format loses nothing.**  Whatever is packed into an infile decodes to the same
number of ranks and repeats, per argument to the tiles the descriptor cuts, with their shapes,
dtype and output flag, and per rank to its localised scalars, as their slots carry them, and its
workspace size; whatever is packed into an outfile decodes to its samples and tiles. -/
theorem wire_round_trip :
    (∀ (ev : Evaluator) (binding : Binding) (d : Descriptor) (data : List (String × Buffer))
        (scalars : List (String × PyNum)) (kRepeats : ℤ) (workspaceExpr : Option String)
        (raw : List UInt8),
      packInfile ev binding d data scalars kRepeats workspaceExpr = .ok raw →
        ∃ parsed, unpackInfile raw = .ok parsed ∧
          parsed.Carries ev binding d data scalars kRepeats workspaceExpr) ∧
    ∀ (nranks : ℕ) (kRepeats : ℤ) (samples : List Double) (outputs : List (Output nranks))
        (raw : List UInt8),
      packOutfile nranks kRepeats samples outputs = .ok raw →
        unpackOutfile raw = .ok {
          samples
          castIn := replicate samples.length 0
          castOut := replicate samples.length 0
          outputs := outputs.map Output.decoded } :=
  ⟨fun _ _ _ _ _ _ _ _ h => unpackInfile_packInfile h, fun _ _ _ _ _ h =>
    unpackOutfile_packOutfile h⟩

/-! ### Two ranks -/

namespace Example

def binding : Binding where
  args := [{ name := "x", kind := .ptr, dtype := .int32 },
    { name := "y", kind := .ptr, dtype := .float64, role := some .output },
    { name := "N", kind := .scalar, dtype := .int64, role := some .symbol },
    { name := "a", kind := .scalar, dtype := .float64 }]

def descriptor : Descriptor where
  grid := ⟨[2], Descriptor.two_ranks_pos⟩
  arrays := [("x", { axes := [{ gridDim := some 0 }] }), ("y", { axes := [{ gridDim := some 0 }] })]
  symbolAxes := [("N", [("x", 0), ("y", 0)])]

/-- An array of the given type and shape, its elements numbered. -/
def numbered (dtype : DType) (shape : List ℕ) : Buffer :=
  ⟨dtype, .empty shape fun i => .ofNat _ i⟩

/-- An evaluator that knows one expression, eight bytes per local element. -/
def evaluator : Evaluator where
  safeEval _ names :=
    match names.lookup "N" with
    | some (.int n) => .ok (.num (.int (8 * n)))
    | _ => .error "name"
  reprFloat _ := ""

end Example

open Example in
theorem wire_round_trip_two_ranks :
    (∃ raw parsed, packInfile evaluator binding descriptor
        [("x", numbered .int32 [5]), ("y", numbered .float64 [5])]
        [("N", .int 5), ("a", .float 0x4004000000000000)] 3 (some "8*N") = .ok raw ∧
      unpackInfile raw = .ok parsed ∧ parsed.Carries evaluator binding descriptor
        [("x", numbered .int32 [5]), ("y", numbered .float64 [5])]
        [("N", .int 5), ("a", .float 0x4004000000000000)] 3 (some "8*N")) ∧
    ∃ raw, packOutfile 2 1 [0x3FF0000000000000]
        [⟨"y", .uint8, [flat [.ofNat 1 7], flat [.ofNat 1 8, .ofNat 1 9]], rfl⟩] = .ok raw ∧
      unpackOutfile raw = .ok ⟨[0x3FF0000000000000], [0], [0],
        [⟨.uint8, [flat [.ofNat 1 7], flat [.ofNat 1 8, .ofNat 1 9]]⟩]⟩ := by
  obtain ⟨raw, h⟩ : ∃ raw, packInfile evaluator binding descriptor
      [("x", numbered .int32 [5]), ("y", numbered .float64 [5])]
      [("N", .int 5), ("a", .float 0x4004000000000000)] 3 (some "8*N") = .ok raw :=
    exists_of_isOk (by decide)
  obtain ⟨raw', h'⟩ : ∃ raw, packOutfile 2 1 [0x3FF0000000000000]
      [⟨"y", .uint8, [flat [.ofNat 1 7], flat [.ofNat 1 8, .ofNat 1 9]], rfl⟩] = .ok raw :=
    exists_of_isOk (by decide)
  obtain ⟨parsed, hp, hcarries⟩ := wire_round_trip.1 _ _ _ _ _ _ _ raw h
  exact ⟨⟨raw, parsed, h, hp, hcarries⟩, raw', h', wire_round_trip.2 _ _ _ _ raw' h'⟩

/-- A 0-d array comes back with one axis, and a double in an integer slot is cut. -/
theorem infile_zero_d_and_cut_scalar :
    (do
      let binding : Binding := ⟨[{ name := "x", kind := .ptr, dtype := .uint8 },
        { name := "a", kind := .scalar, dtype := .int64 }]⟩
      let raw ← packInfile Example.evaluator binding ⟨⟨[1], by decide⟩, [], []⟩
        [("x", Example.numbered .uint8 [])] [("a", .float 0x4004000000000000)] 1 none
      let parsed ← unpackInfile raw
      return (parsed.ptrs.map PtrPlan.shapes, parsed.scalarValues)) =
        .ok ([[[1]]], [[.int 2]]) ∧
    (NdArray.shape <$> ·) <$> Descriptor.scatter ⟨⟨[1], by decide⟩, [], []⟩ "x"
      (Example.numbered .uint8 []).cells = .ok [[]] ∧
    Descriptor.localSizeScalars ⟨⟨[1], by decide⟩, [], []⟩
      [("a", .float 0x4004000000000000)] 0 = .ok [("a", .float 0x4004000000000000)] := by
  refine ⟨?_, ?_, ?_⟩ <;> decide +kernel

end Mpi

end HpcAgentBench
