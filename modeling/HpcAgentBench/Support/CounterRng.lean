import HpcAgentBench.Lib.Python
import HpcAgentBench.Lib.Strided

/-!
# The counter-based generator

A value is a function of the seed, the stream and the flat index of its element.  `counter_rng` is
the array reference, filled in blocks; `counter_rng_numba` are loops over ranges of the elements, on
a pool of threads.  Words are `UInt64`; a float is the rational it stands for, and rounding is a
parameter that keeps what the mantissa holds.

## Main results

* `kernel_eq` : the kernels compute the reference's value of every index.
* `runs_eq` : whatever the split and the order of the threads' writes, a fill is that value at every
  position; `field_eq` says it of the reference's blocks.
* `counter_generator` : the backends agree for all arguments; the ranges are as documented exactly
  when the equal split leaves no short one.
* `words_distinct` : no two words of a seed and stream are the same.
-/

namespace HpcAgentBench

open Option

namespace CounterRng

open Strided

/-! ### The reference -/

def WORD_BITS : ℕ := 64
def MIX_SHIFT_1 : ℕ := 30
def MIX_SHIFT_2 : ℕ := 27
def MIX_SHIFT_3 : ℕ := 31
def F64_BITS : ℕ := 53
def F32_BITS : ℕ := 24
def GAMMA : ℕ := 0x9E3779B97F4A7C15
def MULTIPLIER_1 : ℕ := 0xBF58476D1CE4E5B9
def MULTIPLIER_2 : ℕ := 0x94D049BB133111EB
def NORMAL_WORDS : ℕ := 4
def PIECE_BITS : ℕ := 21
def PIECE_MASK : ℕ := 2 ^ PIECE_BITS - 1
def PIECES : ℕ := 12

/-- The reference's block of elements. -/
def BLOCK : ℕ := 2 ^ 16

/-- `value & MASK`. -/
def masked (value : ℤ) : ℕ := (value % 2 ^ WORD_BITS).toNat

/-- The finalizer of a Python integer. -/
def mix (value : ℤ) : ℕ :=
  let value := masked value
  let value := ((value ^^^ (value >>> MIX_SHIFT_1)) * MULTIPLIER_1) % 2 ^ WORD_BITS
  let value := ((value ^^^ (value >>> MIX_SHIFT_2)) * MULTIPLIER_2) % 2 ^ WORD_BITS
  value ^^^ (value >>> MIX_SHIFT_3)

/-- The key of a seed and a stream. -/
def key (seed stream : ℤ) : ℕ := mix (mix seed + (stream + 1) * GAMMA)

/-- `np.uint64` of a Python integer; an error when it does not fit. -/
def uint64 (n : ℤ) : Option UInt64 :=
  if 0 ≤ n ∧ n < 2 ^ WORD_BITS then some (UInt64.ofNat n.toNat) else none

/-- `bits` of one index. -/
def bits (index : UInt64) (seed stream : ℤ) : UInt64 :=
  let state := index
  let state := state + 1
  let state := state * UInt64.ofNat GAMMA
  let state := state + UInt64.ofNat (key seed stream)
  let state := state ^^^ (state >>> UInt64.ofNat MIX_SHIFT_1)
  let state := state * UInt64.ofNat MULTIPLIER_1
  let state := state ^^^ (state >>> UInt64.ofNat MIX_SHIFT_2)
  let state := state * UInt64.ofNat MULTIPLIER_2
  state ^^^ (state >>> UInt64.ofNat MIX_SHIFT_3)

/-- The float types of a draw. -/
inductive Dtype
  | float32
  | float64
  deriving DecidableEq, Repr

/-- The mantissa bits of a float type. -/
def Dtype.mantissa : Dtype → ℕ
  | float32 => F32_BITS
  | float64 => F64_BITS

/-- Rounding to a float type.  A number the mantissa holds is not changed. -/
structure Rounding where
  round : Dtype → ℚ → ℚ
  exact : ∀ (d : Dtype) (n e : ℕ), n < 2 ^ d.mantissa → e ≤ d.mantissa →
    round d (n / 2 ^ e) = n / 2 ^ e

variable (R : Rounding)

/-- A float64 as an element of a float type. -/
def Rounding.cast : Dtype → ℚ → ℚ
  | .float32 => R.round .float32
  | .float64 => id

/-- `uniform` of one index. -/
def uniform (dtype : Dtype) (index : UInt64) (seed stream : ℤ) : ℚ :=
  match dtype with
  | .float32 =>
    let word := bits index seed stream >>> UInt64.ofNat (WORD_BITS - F32_BITS)
    R.round .float32 (R.round .float32 word.toNat * R.round .float32 (1 / 2 ^ F32_BITS))
  | .float64 =>
    let word := bits index seed stream >>> UInt64.ofNat (WORD_BITS - F64_BITS)
    R.round .float64 (R.round .float64 word.toNat * (1 / 2 ^ F64_BITS))

/-- `total += (hashed >> piece * PIECE_BITS) & PIECE_MASK` over the pieces of a word. -/
def addPieces (hashed total : UInt64) : UInt64 :=
  (List.range (PIECES / NORMAL_WORDS)).foldl (fun total piece =>
    total + ((hashed >>> UInt64.ofNat (piece * PIECE_BITS)) &&& UInt64.ofNat PIECE_MASK)) total

/-- `normal` of one index. -/
def normal (dtype : Dtype) (index : UInt64) (seed stream : ℤ) : ℚ :=
  let base := index * UInt64.ofNat NORMAL_WORDS
  let total := (List.range NORMAL_WORDS).foldl (fun total word =>
    addPieces (bits (base + UInt64.ofNat word) seed stream) total) 0
  let centre : ℚ := PIECES * (1 - 1 / 2 ^ PIECE_BITS) / 2
  R.cast dtype (R.round .float64 (R.round .float64 (R.round .float64 total.toNat *
    (1 / 2 ^ PIECE_BITS)) - centre))

/-- A word as an int64. -/
def int64 (word : UInt64) : ℤ := word.toInt64.toInt

/-- `integers` of one index; the remainder by zero is zero. -/
def integers (bound : ℤ) (index : UInt64) (seed stream : ℤ) : Option ℤ :=
  (uint64 bound).map fun bound => int64 (bits index seed stream % bound)

/-- The draws. -/
inductive Draw
  | uniform (dtype : Dtype)
  | normal (dtype : Dtype)
  | integers (bound : ℤ)
  deriving DecidableEq, Repr

/-- The per-element definition of a draw; an int64 is the number it stands for. -/
def Draw.value (draw : Draw) (seed stream : ℤ) (index : UInt64) : Option ℚ :=
  match draw with
  | .uniform dtype => some (CounterRng.uniform R dtype index seed stream)
  | .normal dtype => some (CounterRng.normal R dtype index seed stream)
  | .integers bound => (CounterRng.integers bound index seed stream).map fun n : ℤ => (n : ℚ)

/-- `xp.arange(lo, hi, dtype=xp.uint64)`: the first two elements are converted, the others follow by
adding. -/
def arange (lo hi : ℤ) : Option (List UInt64) :=
  match (hi - lo).toNat with
  | 0 => some []
  | 1 => (uint64 lo).map fun start => [start]
  | n => (uint64 lo).bind fun start => (uint64 (lo + 1)).map fun _ =>
      (List.range n).map fun i => start + UInt64.ofNat i

/-- The writes of `out[start:stop] = draw(xp.arange(first + start, first + stop))`. -/
def assign (draw : UInt64 → Option ℚ) (first : ℤ) (r : ℕ × ℕ) : Option (List (ℕ × ℚ)) :=
  (arange (first + r.1) (first + r.2)).bind fun index =>
    (index.mapM draw).map fun values => (span r).zip values

/-- `field`: the draw written in blocks, of `BLOCK` elements on numpy and in one block elsewhere;
`fresh` is the uninitialised array. -/
def field (draw : UInt64 → Option ℚ) (isNumpy : Bool) (first : ℤ) (fresh : List ℚ) :
    Option (List ℚ) :=
  let step := if isNumpy then BLOCK else max fresh.length 1
  (spans fresh.length step).foldlM (fun out r => (assign draw first r).map (write out)) fresh

/-! ### The numba kernels -/

/-- `hashed`. -/
def hashed (index key : UInt64) : UInt64 :=
  let state := (index + 1) * UInt64.ofNat GAMMA + key
  let state := state ^^^ (state >>> UInt64.ofNat MIX_SHIFT_1)
  let state := state * UInt64.ofNat MULTIPLIER_1
  let state := state ^^^ (state >>> UInt64.ofNat MIX_SHIFT_2)
  let state := state * UInt64.ofNat MULTIPLIER_2
  state ^^^ (state >>> UInt64.ofNat MIX_SHIFT_3)

/-- What `uniform_kernel` stores for an index. -/
def uniformKernel (dtype : Dtype) (key shift : UInt64) (scale : ℚ) (index : UInt64) : ℚ :=
  R.cast dtype (R.round .float64 (R.round .float64 (hashed index key >>> shift).toNat * scale))

def SCALE_21 : ℚ := 1 / 2 ^ PIECE_BITS
def CENTRE : ℚ := PIECES * (1 - SCALE_21) / 2

/-- What `normal_kernel` stores for an index. -/
def normalKernel (dtype : Dtype) (key : UInt64) (index : UInt64) : ℚ :=
  let base := index * UInt64.ofNat NORMAL_WORDS
  let total := (List.range NORMAL_WORDS).foldl (fun total word =>
    let value := hashed (base + UInt64.ofNat word) key
    let total := total + (value &&& UInt64.ofNat PIECE_MASK)
    let total := total + ((value >>> UInt64.ofNat PIECE_BITS) &&& UInt64.ofNat PIECE_MASK)
    total + ((value >>> UInt64.ofNat (2 * PIECE_BITS)) &&& UInt64.ofNat PIECE_MASK)) 0
  R.cast dtype (R.round .float64 (R.round .float64 (R.round .float64 total.toNat * SCALE_21) -
    CENTRE))

/-- What `integers_kernel` stores for an index; a remainder by zero is an error. -/
def integersKernel (key bound : UInt64) (index : UInt64) : Option ℤ :=
  if bound = 0 then none else some (int64 (hashed index key % bound))

/-- The kernel of a draw with its arguments. -/
def Draw.kernel (draw : Draw) (seed stream : ℤ) : Option (UInt64 → Option ℚ) :=
  (uint64 (key seed stream)).bind fun key =>
    match draw with
    | .uniform dtype => (uint64 (WORD_BITS - dtype.mantissa)).map fun shift index =>
        some (uniformKernel R dtype key shift (1 / 2 ^ dtype.mantissa) index)
    | .normal dtype => some fun index => some (normalKernel R dtype key index)
    | .integers bound => (uint64 bound).map fun bound index =>
        (integersKernel key bound index).map fun n : ℤ => (n : ℚ)

/-- `for position in range(out.size): out[position] = …`, the values in order. -/
def positions (kernel : UInt64 → Option ℚ) (first : UInt64) (size : ℕ) : Option (List ℚ) :=
  (List.range size).mapM fun position => kernel (first + UInt64.ofNat position)

/-- `blocks`: the ranges of equal size, one a thread; an error when `block` is zero. -/
def blocks (count : ℕ) (block threads : ℤ) : Option (List (ℕ × ℕ)) :=
  if count = 0 then some []
  else if block = 0 then none
  else
    let units := max 1 (min (-(Int.fdiv (-count) block)) threads)
    let step := (-(Int.fdiv (-count) units)).toNat
    some (spans count step)

/-- `threads or default_threads()`. -/
def workersOf (threads : Option ℤ) (defaultThreads : ℕ) : ℤ :=
  match threads with
  | none => defaultThreads
  | some threads => if threads = 0 then defaultThreads else threads

/-- One call of the kernel: the writes to its range. -/
def call (kernel : UInt64 → Option ℚ) (first : ℤ) (r : ℕ × ℕ) : Option (List (ℕ × ℚ)) :=
  (uint64 (first + r.1)).bind fun start =>
    (positions kernel start (r.2 - r.1)).map fun values => (span r).zip values

/-- `run`, with the threads' writes in an arbitrary order; no result when a call raises. -/
def Runs (kernel : UInt64 → Option ℚ) (first block : ℤ) (workers : ℤ) (fresh out : List ℚ) : Prop :=
  ∃ ranges, blocks fresh.length block workers = some ranges ∧
    if ranges.length = 1 then
      ∃ writes, call kernel first (0, fresh.length) = some writes ∧ out = write fresh writes
    else ∃ calls, ranges.mapM (call kernel first) = some calls ∧
      ∃ order, order.Perm calls.flatten ∧ out = write fresh order

/-! ### Words -/

theorem uint64_eq_some {n : ℤ} {w : UInt64} (h : uint64 n = some w) : w = UInt64.ofInt n := by
  rw [uint64] at h
  split at h
  · rename_i hn
    cases h
    have hn : 0 ≤ n ∧ n < 2 ^ 64 := hn
    rw [UInt64.ofInt, Int.emod_eq_of_lt hn.1 hn.2]
  · cases h

theorem uint64_of_fits {n : ℤ} (h₀ : 0 ≤ n) (h : n < 2 ^ 64) :
    uint64 n = some (UInt64.ofInt n) := by
  rw [uint64, if_pos ⟨h₀, h⟩, UInt64.ofInt, Int.emod_eq_of_lt h₀ h]

theorem ofInt_add_natCast (a : ℤ) (n : ℕ) :
    UInt64.ofInt (a + n) = UInt64.ofInt a + UInt64.ofNat n := by
  rw [UInt64.ofInt_add]
  congr 1
  rw [UInt64.ofInt, ← UInt64.toNat_inj]
  simp only [UInt64.toNat_ofNat']
  omega

theorem xor_shiftRight_lt {n k : ℕ} (h : n < 2 ^ 64) : n ^^^ (n >>> k) < 2 ^ 64 :=
  Nat.xor_lt_two_pow h (lt_of_le_of_lt (Nat.shiftRight_le n k) h)

theorem mix_lt (value : ℤ) : mix value < 2 ^ 64 :=
  xor_shiftRight_lt (Nat.mod_lt _ (by decide))

theorem key_lt (seed stream : ℤ) : key seed stream < 2 ^ 64 := mix_lt _

/-- The key of a kernel is the reference's. -/
theorem uint64_key (seed stream : ℤ) :
    uint64 (key seed stream) = some (UInt64.ofNat (key seed stream)) := by
  have := key_lt seed stream
  rw [uint64, if_pos ⟨by omega, by simp only [WORD_BITS]; omega⟩, Int.toNat_natCast]

/-- The finalizer of words, as the kernels and the reference apply it. -/
def finalize (state : UInt64) : UInt64 :=
  let state := state ^^^ (state >>> UInt64.ofNat MIX_SHIFT_1)
  let state := state * UInt64.ofNat MULTIPLIER_1
  let state := state ^^^ (state >>> UInt64.ofNat MIX_SHIFT_2)
  let state := state * UInt64.ofNat MULTIPLIER_2
  state ^^^ (state >>> UInt64.ofNat MIX_SHIFT_3)

theorem hashed_eq (index : UInt64) (seed stream : ℤ) :
    hashed index (UInt64.ofNat (key seed stream)) = bits index seed stream := rfl

/-! ### The kernels -/

theorem shiftRight_lt (w : UInt64) {k : ℕ} (hk : k ≤ 64) (hk₀ : 0 < k) :
    (w >>> UInt64.ofNat (64 - k)).toNat < 2 ^ k := by
  have hw : w.toNat < 2 ^ 64 := w.toNat_lt
  rw [UInt64.toNat_shiftRight, UInt64.toNat_ofNat',
    Nat.mod_eq_of_lt (show 64 - k < 2 ^ 64 by omega),
    Nat.mod_eq_of_lt (show 64 - k < 64 by omega), Nat.shiftRight_eq_div_pow,
    Nat.div_lt_iff_lt_mul (by positivity), ← Nat.pow_add]
  rwa [show k + (64 - k) = 64 by omega]

theorem round_natCast {d : Dtype} {n : ℕ} (h : n < 2 ^ d.mantissa) : R.round d n = n := by
  simpa using R.exact d n 0 h (Nat.zero_le _)

theorem round_div {d : Dtype} {n e : ℕ} (h : n < 2 ^ d.mantissa) (he : e ≤ d.mantissa) :
    R.round d (n * (1 / 2 ^ e)) = n * (1 / 2 ^ e) := by
  rw [mul_one_div]
  exact R.exact d n e h he

/-- A word of 24 bits scaled in float64 and stored as float32, or scaled in float32. -/
theorem round_word32 {n : ℕ} (h : n < 2 ^ 24) :
    R.round .float32 (R.round .float64 (R.round .float64 n * (1 / 2 ^ 24))) =
      R.round .float32 (R.round .float32 n * R.round .float32 (1 / 2 ^ 24)) := by
  have h64 : n < 2 ^ 53 := h.trans (by decide)
  have hone : R.round .float32 (1 / 2 ^ 24) = 1 / 2 ^ 24 := by
    have hexact := R.exact .float32 1 24 (by decide) (by decide)
    rwa [Nat.cast_one] at hexact
  rw [round_natCast R (d := .float64) h64, round_natCast R (d := .float32) h, hone,
    round_div R (d := .float64) h64 (by decide)]

/-- **The uniform kernel** stores the reference's value: every conversion is exact. -/
theorem uniformKernel_eq (dtype : Dtype) (index : UInt64) (seed stream : ℤ) :
    uniformKernel R dtype (UInt64.ofNat (key seed stream))
      (UInt64.ofNat (WORD_BITS - dtype.mantissa)) (1 / 2 ^ dtype.mantissa) index =
      uniform R dtype index seed stream := by
  cases dtype with
  | float32 => exact round_word32 R (shiftRight_lt (bits index seed stream) (by decide) (by decide))
  | float64 => rfl

theorem addPieces_eq (value total : UInt64) :
    addPieces value total =
      total + (value &&& UInt64.ofNat PIECE_MASK) +
        ((value >>> UInt64.ofNat PIECE_BITS) &&& UInt64.ofNat PIECE_MASK) +
        ((value >>> UInt64.ofNat (2 * PIECE_BITS)) &&& UInt64.ofNat PIECE_MASK) := by
  have hzero : value >>> UInt64.ofNat (0 * PIECE_BITS) = value := by
    rw [Nat.zero_mul]
    exact UInt64.shiftRight_zero
  change total + ((value >>> UInt64.ofNat (0 * PIECE_BITS)) &&& UInt64.ofNat PIECE_MASK) + _ + _ = _
  rw [hzero]
  rfl

/-- **The normal kernel** stores the reference's value: the pieces are added in the same order. -/
theorem normalKernel_eq (dtype : Dtype) (index : UInt64) (seed stream : ℤ) :
    normalKernel R dtype (UInt64.ofNat (key seed stream)) index =
      normal R dtype index seed stream := by
  simp only [normalKernel, normal, addPieces_eq, hashed_eq]
  rfl

/-- **The kernels compute the reference's value of every index.** -/
theorem kernel_eq {draw : Draw} {seed stream : ℤ} {kernel : UInt64 → Option ℚ}
    (h : draw.kernel R seed stream = some kernel) {index : UInt64} {v : ℚ}
    (hv : kernel index = some v) : draw.value R seed stream index = some v := by
  rw [Draw.kernel, uint64_key, bind_some] at h
  cases draw with
  | uniform dtype =>
    dsimp only at h
    obtain ⟨shift, hshift, rfl⟩ := map_eq_some_iff.1 h
    cases hv
    have hfits : uint64 (WORD_BITS - dtype.mantissa) =
        some (UInt64.ofNat (WORD_BITS - dtype.mantissa)) := by
      cases dtype <;> rfl
    obtain rfl := some.inj (hfits.symm.trans hshift)
    rw [uniformKernel_eq, Draw.value]
  | normal dtype =>
    cases h
    cases hv
    rw [normalKernel_eq, Draw.value]
  | integers bound =>
    obtain ⟨b, hb, rfl⟩ := map_eq_some_iff.1 h
    obtain ⟨n, hn, rfl⟩ := map_eq_some_iff.1 hv
    rw [integersKernel] at hn
    split at hn
    · cases hn
    · cases hn
      rw [Draw.value, integers, hb, hashed_eq]
      rfl

/-- What a draw needs: a bound is positive and fits a word. -/
def Draw.Valid : Draw → Prop
  | .integers bound => 0 < bound ∧ bound < 2 ^ 64
  | _ => True

/-- A valid draw has a kernel, which never raises. -/
theorem exists_kernel {draw : Draw} (h : draw.Valid) (seed stream : ℤ) :
    ∃ kernel, draw.kernel R seed stream = some kernel ∧ ∀ index, ∃ v, kernel index = some v := by
  rw [Draw.kernel, uint64_key, bind_some]
  cases draw with
  | uniform dtype =>
    have hfits : uint64 (WORD_BITS - dtype.mantissa) =
        some (UInt64.ofNat (WORD_BITS - dtype.mantissa)) := by
      cases dtype <;> rfl
    dsimp only
    rw [hfits]
    exact ⟨_, rfl, fun index => ⟨_, rfl⟩⟩
  | normal dtype => exact ⟨_, rfl, fun index => ⟨_, rfl⟩⟩
  | integers bound =>
    obtain ⟨hpos, hlt⟩ := h
    dsimp only
    rw [uint64_of_fits hpos.le hlt]
    refine ⟨_, rfl, fun index => ?_⟩
    have hne : UInt64.ofInt bound ≠ 0 := by
      intro hzero
      have := congrArg UInt64.toNat hzero
      rw [UInt64.ofInt, UInt64.toNat_ofNat'] at this
      simp only [UInt64.toNat_zero] at this
      omega
    exact ⟨_, congrArg (Option.map _) (if_neg hne)⟩

/-! ### Ranges and writes -/

/-- The value of the element at a position, as a kernel or a draw computes it. -/
def valueAt (f : UInt64 → Option ℚ) (first : ℤ) (position : ℕ) : Option ℚ :=
  f (UInt64.ofInt (first + position))

/-- A range's writes are the values of its positions. -/
def Serves (f : UInt64 → Option ℚ) (first : ℤ) (g : ℕ × ℕ → Option (List (ℕ × ℚ))) : Prop :=
  ∀ r writes, g r = some writes → (∀ p ∈ span r, ∃ v, valueAt f first p = some v) ∧
    writes = (span r).map fun p => (p, (valueAt f first p).getD 0)

theorem zip_span {f : UInt64 → Option ℚ} {first : ℤ} {r : ℕ × ℕ} {values : List ℚ}
    (h : ((List.range (r.2 - r.1)).mapM fun i =>
      f (UInt64.ofInt (first + r.1) + UInt64.ofNat i)) = some values) :
    (∀ p ∈ span r, ∃ v, valueAt f first p = some v) ∧
      (span r).zip values = (span r).map fun p => (p, (valueAt f first p).getD 0) := by
  have hat : ∀ i : ℕ, f (UInt64.ofInt (first + r.1) + UInt64.ofNat i) =
      valueAt f first (r.1 + i) := by
    intro i
    rw [valueAt, Nat.cast_add, ← Int.add_assoc]
    exact congrArg f (ofInt_add_natCast _ _).symm
  simp only [hat] at h
  refine ⟨fun p hp => ?_, ?_⟩
  · obtain ⟨i, hi, rfl⟩ := List.mem_map.1 hp
    exact exists_of_mapM_some h i hi
  · rw [eq_map_of_mapM (g := fun i => (valueAt f first (r.1 + i)).getD 0) h
      (fun i _ v hv => by rw [hv]; rfl), span, List.zip_map', List.map_map]
    rfl

theorem serves_call (kernel : UInt64 → Option ℚ) (first : ℤ) :
    Serves kernel first (call kernel first) := by
  intro r writes h
  obtain ⟨start, hstart, h⟩ := bind_eq_some_iff.1 h
  obtain ⟨values, hvalues, rfl⟩ := map_eq_some_iff.1 h
  obtain rfl := uint64_eq_some hstart
  exact zip_span hvalues

/-- The elements of an `arange` are the words of its numbers. -/
theorem arange_eq {lo hi : ℤ} {index : List UInt64} (h : arange lo hi = some index) :
    index = (List.range (hi - lo).toNat).map fun i => UInt64.ofInt lo + UInt64.ofNat i := by
  rw [arange] at h
  split at h
  · rename_i hn
    cases h
    rw [hn]
    rfl
  · rename_i hn
    obtain ⟨start, hstart, rfl⟩ := map_eq_some_iff.1 h
    rw [hn, uint64_eq_some hstart]
    exact congrArg (fun w => [w]) (UInt64.add_zero _).symm
  · obtain ⟨start, hstart, h⟩ := bind_eq_some_iff.1 h
    obtain ⟨next, -, rfl⟩ := map_eq_some_iff.1 h
    rw [uint64_eq_some hstart]

theorem arange_fits {lo hi : ℤ} (h₀ : 0 ≤ lo) (h : hi ≤ 2 ^ 64) :
    ∃ index, arange lo hi = some index := by
  rw [arange]
  rcases hn : (hi - lo).toNat with _ | _ | n
  · exact ⟨_, rfl⟩
  · exact ⟨_, by rw [uint64_of_fits h₀ (by omega)]; rfl⟩
  · rw [uint64_of_fits h₀ (by omega), uint64_of_fits (by omega) (by omega)]
    exact ⟨_, rfl⟩

theorem serves_assign (draw : UInt64 → Option ℚ) (first : ℤ) :
    Serves draw first (assign draw first) := by
  intro r writes h
  obtain ⟨index, hindex, h⟩ := bind_eq_some_iff.1 h
  obtain ⟨values, hvalues, rfl⟩ := map_eq_some_iff.1 h
  rw [arange_eq hindex, List.mapM_map] at hvalues
  refine zip_span ?_
  rwa [show (first + r.2 - (first + r.1)).toNat = r.2 - r.1 by omega] at hvalues

/-- **The writes of all ranges, in any order, are the values of all positions.** -/
theorem write_serves {f : UInt64 → Option ℚ} {first : ℤ} {g : ℕ × ℕ → Option (List (ℕ × ℚ))}
    (hg : Serves f first g) {fresh : List ℚ} {ranges : List (ℕ × ℕ)}
    (hranges : ranges.flatMap span = List.range fresh.length) {calls : List (List (ℕ × ℚ))}
    (hcalls : ranges.mapM g = some calls) {order : List (ℕ × ℚ)}
    (horder : order.Perm calls.flatten) :
    (write fresh order).map some = (List.range fresh.length).map (valueAt f first) := by
  have hflatten : calls.flatten = (List.range fresh.length).map fun p =>
      (p, (valueAt f first p).getD 0) := by
    rw [eq_map_of_mapM hcalls fun r _ writes hr => (hg r writes hr).2, ← hranges, List.map_flatMap,
      List.flatMap_def]
  rw [write_eq (hflatten ▸ horder), List.map_map]
  refine List.map_congr_left fun p hp => ?_
  rw [← hranges] at hp
  obtain ⟨r, hr, hp⟩ := List.mem_flatMap.1 hp
  obtain ⟨writes, hwrites⟩ := exists_of_mapM_some hcalls r hr
  obtain ⟨v, hv⟩ := (hg r writes hwrites).1 p hp
  rw [Function.comp_apply, hv]
  rfl

/-- Blocks written one after another. -/
theorem foldlM_write {g : ℕ × ℕ → Option (List (ℕ × ℚ))} {ranges : List (ℕ × ℕ)}
    (fresh : List ℚ) :
    ranges.foldlM (fun out r => (g r).map (write out)) fresh =
      (ranges.mapM g).map fun calls => write fresh calls.flatten := by
  induction ranges generalizing fresh with
  | nil => rfl
  | cons r ranges ih =>
    rw [List.foldlM_cons, List.mapM_cons]
    cases g r with
    | none => rfl
    | some writes =>
      simp only [map_some, bind_eq_bind, bind_some, ih]
      cases ranges.mapM g with
      | none => rfl
      | some calls => exact congrArg some (List.foldl_append).symm

theorem fieldStep_pos (isNumpy : Bool) (count : ℕ) :
    0 < if isNumpy then BLOCK else max count 1 := by
  cases isNumpy with
  | true => exact (by decide : 0 < BLOCK)
  | false => exact lt_of_lt_of_le Nat.one_pos (le_max_right _ _)

/-- **The reference writes its draw at every position.** -/
theorem field_eq {draw : UInt64 → Option ℚ} {isNumpy : Bool} {first : ℤ} {fresh out : List ℚ}
    (h : field draw isNumpy first fresh = some out) :
    out.map some = (List.range fresh.length).map (valueAt draw first) := by
  rw [field, foldlM_write] at h
  obtain ⟨calls, hcalls, rfl⟩ := map_eq_some_iff.1 h
  exact write_serves (serves_assign draw first) (flatMap_spans (fieldStep_pos isNumpy _)) hcalls
    (.refl _)

/-! ### The split into ranges -/

/-- The step of `blocks`. -/
theorem blocks_eq {count : ℕ} {block threads : ℤ} {ranges : List (ℕ × ℕ)}
    (h : blocks count block threads = some ranges) :
    ∃ step, 0 < step ∧ ranges = spans count step := by
  rw [blocks] at h
  split at h
  · rename_i hcount
    cases h
    exact ⟨1, Nat.one_pos, by rw [hcount]; rfl⟩
  · split at h
    · cases h
    · rename_i hcount hblock
      cases h
      refine ⟨_, ?_, rfl⟩
      set units := max 1 (min (-(Int.fdiv (-count) block)) threads)
      have hunits : 1 ≤ units := le_max_left _ _
      have hdiv : Int.fdiv (-count) units ≤ -1 := by
        rw [Int.fdiv_eq_ediv_of_nonneg _ (by omega)]
        have := Int.ediv_neg_of_neg_of_pos (a := -count) (b := units) (by omega) (by omega)
        omega
      omega

/-- **Whatever the split and the order of the threads' writes, a fill is the kernel's value at every
position.** -/
theorem runs_eq {kernel : UInt64 → Option ℚ} {first block workers : ℤ} {fresh out : List ℚ}
    (h : Runs kernel first block workers fresh out) :
    out.map some = (List.range fresh.length).map (valueAt kernel first) := by
  obtain ⟨ranges, hranges, h⟩ := h
  obtain ⟨step, hstep, rfl⟩ := blocks_eq hranges
  split at h
  · obtain ⟨writes, hwrites, rfl⟩ := h
    have hwhole : [((0 : ℕ), fresh.length)].flatMap span = List.range fresh.length := by
      simp [span]
    have hcalls : [((0 : ℕ), fresh.length)].mapM (call kernel first) = some [writes] :=
      mapM_cons_some hwrites rfl
    exact write_serves (serves_call kernel first) hwhole hcalls (by
      rw [List.flatten_cons, List.flatten_nil, List.append_nil])
  · obtain ⟨calls, hcalls, order, horder, rfl⟩ := h
    exact write_serves (serves_call kernel first) (flatMap_spans hstep) hcalls horder

/-- The division by which `blocks` rounds up. -/
theorem neg_fdiv_neg (count : ℕ) {d : ℕ} (hd : 0 < d) :
    -(Int.fdiv (-(count : ℤ)) d) = spanCount count d := by
  rw [Int.fdiv_eq_ediv_of_nonneg _ (Int.natCast_nonneg d)]
  have hd' : (0 : ℤ) < d := by omega
  have hupper : (count : ℤ) ≤ spanCount count d * d := by
    have hlast : ¬ spanCount count d * d < count :=
      fun h => absurd ((lt_spanCount_iff hd).2 h) (lt_irrefl _)
    exact_mod_cast Nat.le_of_not_lt hlast
  have hlower : (spanCount count d - 1 : ℤ) * d < count := by
    rcases hk : spanCount count d with _ | k
    · have : (-1 : ℤ) * d < count := by omega
      simpa using this
    · have hlt : k * d < count := (lt_spanCount_iff hd).1 (by rw [hk]; exact Nat.lt_succ_self k)
      rw [Nat.cast_succ, Int.add_sub_cancel]
      exact_mod_cast hlt
  have hge : -(spanCount count d : ℤ) ≤ -count / d := by
    rw [Int.le_ediv_iff_mul_le hd', Int.neg_mul]
    omega
  have hle : -(count : ℤ) / d < -(spanCount count d : ℤ) + 1 := by
    rw [Int.ediv_lt_iff_lt_mul hd', show -(spanCount count d : ℤ) + 1 = -(spanCount count d - 1) by
      omega, Int.neg_mul]
    omega
  omega

/-- The ranges are a partition of the elements, at most one a thread, and none is shorter than a
block unless it is the only one. -/
def RangesAsStated (count : ℕ) (block threads : ℤ) : Prop :=
  ∃ ranges, blocks count block threads = some ranges ∧
    ranges.flatMap span = List.range count ∧ (ranges.length : ℤ) ≤ threads ∧
    (ranges.length = 1 ∨ ∀ r ∈ ranges, block ≤ ((r.2 - r.1 : ℕ) : ℤ))

section Split

variable {count block threads step : ℕ}

/-- What a split into equal steps needs for its last range to be long enough. -/
theorem spans_long_iff (hstep : 0 < step) (hmany : step < count) :
    (∀ r ∈ spans count step, block ≤ r.2 - r.1) ↔
      block ≤ step ∧ (count % step = 0 ∨ block ≤ count % step) := by
  have hlast : ∀ k, k * step < count → count < k * step + step →
      count % step = count - k * step := by
    intro k hlt hle
    conv_lhs => rw [show count = step * k + (count - k * step) by rw [Nat.mul_comm]; omega]
    rw [Nat.mul_add_mod, Nat.mod_eq_of_lt (by omega)]
  constructor
  · intro h
    refine ⟨?_, ?_⟩
    · have := h _ ((mem_spans_iff hstep).2 ⟨0, by omega, rfl⟩)
      dsimp only at this
      omega
    · have hlt : count % step < step := Nat.mod_lt _ hstep
      have hdiv : count / step * step + count % step = count := by
        rw [Nat.mul_comm]
        exact Nat.div_add_mod count step
      by_cases hzero : count % step = 0
      · exact .inl hzero
      · have := h _ ((mem_spans_iff hstep).2 ⟨count / step, by omega, rfl⟩)
        dsimp only at this
        omega
  · rintro ⟨hle, hrest⟩ r hr
    obtain ⟨k, hk, rfl⟩ := (mem_spans_iff hstep).1 hr
    dsimp only
    by_cases hfull : k * step + step ≤ count
    · omega
    · have := hlast k hk (by omega)
      omega

theorem spanCount_of_dvd {count block : ℕ} (hblock : 0 < block) (h : block ∣ count) :
    spanCount count block = count / block := by
  obtain ⟨k, rfl⟩ := h
  rw [Nat.mul_div_cancel_left _ hblock, spanCount, Nat.add_comm, Nat.add_mul_div_left _ _ hblock,
    Nat.div_eq_of_lt (by omega), Nat.zero_add]

theorem pred_mul_div_lt {count block : ℕ} (hblock : 0 < block) (hcount : 0 < count)
    (h : block ∣ count) : (block - 1) * (count / block) < count := by
  obtain ⟨k, rfl⟩ := h
  rw [Nat.mul_div_cancel_left _ hblock]
  have hk : 0 < k := Nat.pos_of_mul_pos_left hcount
  exact Nat.mul_lt_mul_of_pos_right (Nat.sub_lt hblock Nat.one_pos) hk

/-- **When the equal split leaves no short range.** -/
theorem split_long_iff (hcount : 0 < count) (hblock : 0 < block) (hthreads : 0 < threads)
    (hstep : step = spanCount count (min (spanCount count block) threads)) :
    (spanCount count step = 1 ∨ ∀ r ∈ spans count step, block ≤ r.2 - r.1) ↔
      count ≤ block ∨ threads = 1 ∨ (count ≤ threads * block ∧ block ∣ count) ∨
        threads * block < count ∧ (count % spanCount count threads = 0 ∨
          block ≤ count % spanCount count threads) := by
  set units := min (spanCount count block) threads with hunits
  have hpos : 0 < spanCount count block := (lt_spanCount_iff hblock).2 (by omega)
  have hunits₀ : 0 < units := by omega
  have hsteps : ∀ k, k < step ↔ k * units < count := by
    intro k
    rw [hstep]
    exact lt_spanCount_iff hunits₀
  have hstep₀ : 0 < step := (hsteps 0).2 (by omega)
  have hshort : spanCount count block ≤ threads ↔ count ≤ threads * block := by
    have hthread : threads < spanCount count block ↔ threads * block < count :=
      lt_spanCount_iff hblock
    omega
  by_cases hone : count ≤ step
  · -- A single range: one unit, since a second one would halve the step.
    have hsingle : spanCount count step = 1 := (spanCount_eq_one_iff hstep₀ hcount).2 hone
    refine iff_of_true (.inl hsingle) ?_
    have hlt : (count - 1) * units < count := (hsteps _).1 (by omega)
    by_cases hcount₁ : count ≤ block
    · exact .inl hcount₁
    · refine .inr (.inl ?_)
      have hmany : spanCount count block ≠ 1 := fun h =>
        hcount₁ ((spanCount_eq_one_iff hblock hcount).1 h)
      have hunits₁ : units < 2 := by
        by_contra h
        have := Nat.mul_le_mul_left (count - 1) (Nat.le_of_not_lt h)
        omega
      omega
  · have hmany : ¬ (spanCount count step = 1) := fun h =>
      hone ((spanCount_eq_one_iff hstep₀ hcount).1 h)
    rw [or_iff_right hmany, spans_long_iff hstep₀ (Nat.lt_of_not_le hone)]
    have hunits₁ : units ≠ 1 := by
      intro h
      have hlast := hsteps (count - 1)
      rw [h] at hlast
      omega
    have hblock' : ¬ count ≤ block := by
      intro h
      have := (spanCount_eq_one_iff hblock hcount).2 h
      omega
    have hthreads₁ : threads ≠ 1 := by omega
    by_cases hfew : count ≤ threads * block
    · -- As many units as blocks: the step is at most a block.
      have hunits' : units = spanCount count block := by rw [hunits]; omega
      have hle : step ≤ block := by
        by_contra h
        have hlt := (hsteps block).1 (Nat.lt_of_not_le h)
        rw [hunits', Nat.mul_comm] at hlt
        exact absurd ((lt_spanCount_iff hblock).2 hlt) (lt_irrefl _)
      constructor
      · rintro ⟨hge, hrest⟩
        obtain rfl : step = block := le_antisymm hle hge
        have := Nat.mod_lt count hblock
        exact .inr (.inr (.inl ⟨hfew, Nat.dvd_of_mod_eq_zero (by omega)⟩))
      · rintro (h | h | ⟨-, hdvd⟩ | h)
        · exact absurd h hblock'
        · exact absurd h hthreads₁
        · have hge : block ≤ step := by
            have := (hsteps (block - 1)).2 (by
              rw [hunits', spanCount_of_dvd hblock hdvd]
              exact pred_mul_div_lt hblock hcount hdvd)
            omega
          obtain rfl : step = block := le_antisymm hle hge
          exact ⟨le_rfl, .inl (Nat.mod_eq_zero_of_dvd hdvd)⟩
        · exact absurd h.1 (by omega)
    · -- One unit a thread: the step is longer than a block.
      have hunits' : units = threads := by rw [hunits]; omega
      have hge : block < step := (hsteps block).2 (by rw [hunits', Nat.mul_comm]; omega)
      rw [← hunits', ← hstep]
      constructor
      · exact fun h => .inr (.inr (.inr ⟨by rw [hunits']; omega, h.2⟩))
      · rintro (h | h | h | h)
        · exact absurd h hblock'
        · exact absurd h hunits₁
        · exact absurd (hunits' ▸ h.1) hfew
        · exact ⟨hge.le, h.2⟩

end Split

/-- `blocks` of a positive count and block. -/
theorem blocks_pos {count block : ℕ} {threads : ℤ} (hcount : 0 < count) (hblock : 0 < block) :
    blocks count block threads = some (spans count
      (spanCount count (max 1 (min (spanCount count block : ℤ) threads)).toNat)) := by
  rw [blocks, if_neg (by omega), if_neg (by omega)]
  dsimp only
  have hunits : max 1 (min (spanCount count block : ℤ) threads) =
      ((max 1 (min (spanCount count block : ℤ) threads)).toNat : ℤ) := by omega
  rw [neg_fdiv_neg count hblock, hunits, neg_fdiv_neg count (by omega)]
  rfl

/-- No split has more ranges than units. -/
theorem spanCount_spanCount_le {count units : ℕ} (hunits : 0 < units) :
    spanCount count (spanCount count units) ≤ units := by
  by_contra h
  by_cases hcount : 0 < count
  · have hstep : 0 < spanCount count units := (lt_spanCount_iff hunits).2 (by omega)
    have hlt := (lt_spanCount_iff hstep).1 (Nat.lt_of_not_le h)
    rw [Nat.mul_comm] at hlt
    exact absurd ((lt_spanCount_iff hunits).2 hlt) (lt_irrefl _)
  · obtain rfl : count = 0 := by omega
    have hzero : spanCount 0 units = 0 := by
      rw [spanCount, Nat.zero_add, Nat.div_eq_of_lt (by omega)]
    rw [hzero] at h
    exact h (Nat.zero_le _)

/-- The splits whose ranges are as documented: an equal split of the elements over the threads
leaves no range shorter than a block, or there is a single range. -/
def EvenSplit (count : ℕ) (block threads : ℤ) : Prop :=
  if count = 0 then 0 ≤ threads
  else block ≠ 0 ∧ 1 ≤ threads ∧ (count ≤ block ∨ block < 0 ∨ threads = 1 ∨
    (count ≤ threads * block ∧ block ∣ count) ∨
    threads * block < count ∧ (count % spanCount count threads.toNat = 0 ∨
      block ≤ (count % spanCount count threads.toNat : ℕ)))

/-- A single range. -/
theorem rangesAsStated_single {count : ℕ} {block threads : ℤ} (hcount : 0 < count)
    (h : blocks count block threads = some (spans count (spanCount count 1))) :
    RangesAsStated count block threads ↔ 1 ≤ threads := by
  have hstep : spanCount count 1 = count := Nat.div_one _
  rw [hstep] at h
  have hlength : (spans count count).length = 1 := by
    rw [length_spans, spanCount_eq_one_iff hcount hcount]
  constructor
  · rintro ⟨ranges, hranges, -, hthreads, -⟩
    obtain rfl := some.inj (h.symm.trans hranges)
    rw [hlength] at hthreads
    exact_mod_cast hthreads
  · intro hthreads
    exact ⟨_, h, flatMap_spans hcount, by rw [hlength]; exact_mod_cast hthreads, .inl hlength⟩

/-- **The ranges are as documented exactly when the equal split leaves no short one.** -/
theorem rangesAsStated_iff (count : ℕ) (block threads : ℤ) :
    RangesAsStated count block threads ↔ EvenSplit count block threads := by
  by_cases hcount : count = 0
  · rw [EvenSplit, if_pos hcount]
    have hblocks : blocks count block threads = some [] := by rw [blocks, if_pos hcount]
    constructor
    · rintro ⟨ranges, hranges, -, hthreads, -⟩
      obtain rfl := some.inj (hblocks.symm.trans hranges)
      exact hthreads
    · intro hthreads
      exact ⟨[], hblocks, by rw [hcount]; rfl, hthreads,
        .inr fun r hr => absurd hr List.not_mem_nil⟩
  rw [EvenSplit, if_neg hcount]
  have hcount : 0 < count := Nat.pos_of_ne_zero hcount
  rcases lt_trichotomy block 0 with hneg | rfl | hpos
  · -- A negative block: the number of units is the least one.
    have hdiv : 0 ≤ Int.fdiv (-(count : ℤ)) block := by
      rw [← Int.neg_fdiv_neg, neg_neg, Int.fdiv_eq_ediv_of_nonneg _ (by omega)]
      exact Int.ediv_nonneg (by omega) (by omega)
    have hblocks : blocks count block threads = some (spans count (spanCount count 1)) := by
      rw [blocks, if_neg (by omega), if_neg (by omega)]
      dsimp only
      rw [show max 1 (min (-(Int.fdiv (-(count : ℤ)) block)) threads) = ((1 : ℕ) : ℤ) by omega,
        neg_fdiv_neg count Nat.one_pos]
      rfl
    rw [rangesAsStated_single hcount hblocks]
    exact ⟨fun h => ⟨hneg.ne, h, .inr (.inl hneg)⟩, fun h => h.2.1⟩
  · refine iff_of_false ?_ fun h => h.1 rfl
    rintro ⟨ranges, hranges, -⟩
    rw [blocks, if_neg (by omega), if_pos rfl] at hranges
    cases hranges
  · obtain ⟨block, rfl⟩ := Int.eq_ofNat_of_zero_le hpos.le
    have hblock : 0 < block := by omega
    have hblocks := @blocks_pos count block threads hcount hblock
    by_cases hthreads : 1 ≤ threads
    · obtain ⟨threads, rfl⟩ := Int.eq_ofNat_of_zero_le (by omega : 0 ≤ threads)
      have hpos' : 0 < spanCount count block := (lt_spanCount_iff hblock).2 (by omega)
      set units := min (spanCount count block) threads with hunits
      have hunits₀ : 0 < units := by omega
      have hstep₀ : 0 < spanCount count units := (lt_spanCount_iff hunits₀).2 (by omega)
      rw [show (max 1 (min (spanCount count block : ℤ) threads)).toNat = units by omega] at hblocks
      have hlong := split_long_iff hcount hblock (by omega) (hunits ▸ rfl :
        spanCount count units = spanCount count (min (spanCount count block) threads))
      have hstated : RangesAsStated count block threads ↔
          (spanCount count (spanCount count units) = 1 ∨
            ∀ r ∈ spans count (spanCount count units), block ≤ r.2 - r.1) := by
        constructor
        · rintro ⟨ranges, hranges, -, -, h⟩
          obtain rfl := some.inj (hblocks.symm.trans hranges)
          rw [length_spans] at h
          exact h.imp_right fun h r hr => by exact_mod_cast h r hr
        · intro h
          refine ⟨_, hblocks, flatMap_spans hstep₀, ?_, ?_⟩
          · have := @spanCount_spanCount_le count units hunits₀
            rw [length_spans]
            omega
          · rw [length_spans]
            exact h.imp_right fun h r hr => by exact_mod_cast h r hr
      rw [hstated, hlong]
      have hne : (block : ℤ) ≠ 0 := hpos.ne'
      have hnn : ¬ (block : ℤ) < 0 := by omega
      simp only [hne, hthreads, hnn, ne_eq, not_false_eq_true, true_and, false_or,
        Int.toNat_natCast]
      norm_cast
    · have hunits : (max 1 (min (spanCount count block : ℤ) threads)).toNat = 1 := by omega
      rw [hunits] at hblocks
      rw [rangesAsStated_single hcount hblocks]
      exact iff_of_false hthreads fun h => hthreads h.2.1

/-! ### The backends -/

/-- The block of a draw's kernel: `BLOCK`, and a quarter of it for the normal draw. -/
def Draw.block : Draw → ℤ
  | .normal _ => 2 ^ 19 / 2 ^ 2
  | _ => 2 ^ 19

/-- The threaded fill of a draw. -/
def NumbaFills (draw : Draw) (seed stream first block : ℤ) (threads : Option ℤ)
    (defaultThreads : ℕ) (fresh out : List ℚ) : Prop :=
  ∃ kernel, draw.kernel R seed stream = some kernel ∧
    Runs kernel first block (workersOf threads defaultThreads) fresh out

/-- `uniform_field`, `normal_field` and `integers_field`: the kernels where there are any, else the
reference. -/
def FieldFills (accelerated isNumpy : Bool) (draw : Draw) (seed stream first : ℤ)
    (defaultThreads : ℕ) (fresh out : List ℚ) : Prop :=
  if accelerated = true then
    NumbaFills R draw seed stream first draw.block none defaultThreads fresh out
  else field (draw.value R seed stream) isNumpy first fresh = some out

/-- A fill is the draw's value at every position. -/
def Filled (draw : Draw) (seed stream first : ℤ) (fresh out : List ℚ) : Prop :=
  out.length = fresh.length ∧ ∀ p < fresh.length, ∃ v,
    draw.value R seed stream (UInt64.ofInt (first + p)) = some v ∧ out[p]? = some v

/-- The backends agree with the per-element definition: what they fill is its value everywhere, and
they fill every array whose elements' indices are words. -/
structure BackendsAgree (draw : Draw) (seed stream first : ℤ) (fresh : List ℚ) : Prop where
  numba : ∀ block threads defaultThreads out,
    NumbaFills R draw seed stream first block threads defaultThreads fresh out →
    Filled R draw seed stream first fresh out
  reference : ∀ isNumpy out, field (draw.value R seed stream) isNumpy first fresh = some out →
    Filled R draw seed stream first fresh out
  fields : ∀ accelerated isNumpy defaultThreads out,
    FieldFills R accelerated isNumpy draw seed stream first defaultThreads fresh out →
    Filled R draw seed stream first fresh out
  numba_returns : draw.Valid → 0 ≤ first → first + fresh.length ≤ 2 ^ 64 →
    ∀ block threads defaultThreads, block ≠ 0 →
      ∃ out, NumbaFills R draw seed stream first block threads defaultThreads fresh out
  reference_returns : draw.Valid → 0 ≤ first → first + fresh.length ≤ 2 ^ 64 → ∀ isNumpy,
    ∃ out, field (draw.value R seed stream) isNumpy first fresh = some out

variable {R} {draw : Draw} {seed stream first : ℤ} {fresh out : List ℚ}

theorem filled_of_map {f : UInt64 → Option ℚ}
    (h : out.map some = (List.range fresh.length).map (valueAt f first))
    (hf : ∀ index v, f index = some v → draw.value R seed stream index = some v) :
    Filled R draw seed stream first fresh out := by
  have hlength : out.length = fresh.length := by simpa using congrArg List.length h
  refine ⟨hlength, fun p hp => ?_⟩
  have hat := congrArg (·[p]?) h
  rw [← hlength] at hp
  simp only [List.getElem?_map, List.getElem?_eq_getElem hp, map_some,
    List.getElem?_range (hlength ▸ hp)] at hat
  exact ⟨out[p], hf _ _ (some.inj hat).symm, List.getElem?_eq_getElem hp⟩

theorem filled_of_numba {block : ℤ} {threads : Option ℤ} {defaultThreads : ℕ}
    (h : NumbaFills R draw seed stream first block threads defaultThreads fresh out) :
    Filled R draw seed stream first fresh out := by
  obtain ⟨kernel, hkernel, h⟩ := h
  exact filled_of_map (runs_eq h) fun _ _ hv => kernel_eq R hkernel hv

theorem filled_of_field {isNumpy : Bool}
    (h : field (draw.value R seed stream) isNumpy first fresh = some out) :
    Filled R draw seed stream first fresh out :=
  filled_of_map (field_eq h) fun _ _ hv => hv

/-- A call returns when its indices are words and the kernel does not raise. -/
theorem exists_call {kernel : UInt64 → Option ℚ} (hkernel : ∀ index, ∃ v, kernel index = some v)
    {r : ℕ × ℕ} (h₀ : 0 ≤ first) (h : first + r.1 < 2 ^ 64) :
    ∃ writes, call kernel first r = some writes := by
  obtain ⟨values, hvalues⟩ := exists_mapM_some (l := List.range (r.2 - r.1))
    fun i _ => hkernel (UInt64.ofInt (first + r.1) + UInt64.ofNat i)
  rw [call, uint64_of_fits (by omega) h, bind_some, positions, hvalues]
  exact ⟨_, rfl⟩

theorem exists_assign {f : UInt64 → Option ℚ} (hf : ∀ index, ∃ v, f index = some v)
    {r : ℕ × ℕ} (h₀ : 0 ≤ first) (h : first + r.2 ≤ 2 ^ 64) :
    ∃ writes, assign f first r = some writes := by
  obtain ⟨index, hindex⟩ := @arange_fits (first + r.1) (first + r.2) (by omega) h
  obtain ⟨values, hvalues⟩ := exists_mapM_some (l := index) fun w _ => hf w
  rw [assign, hindex, bind_some, hvalues]
  exact ⟨_, rfl⟩

theorem exists_blocks (count : ℕ) {block : ℤ} (hblock : block ≠ 0) (workers : ℤ) :
    ∃ step, 0 < step ∧ blocks count block workers = some (spans count step) := by
  have hsome : ∃ ranges, blocks count block workers = some ranges := by
    by_cases hcount : count = 0
    · exact ⟨_, by rw [blocks, if_pos hcount]⟩
    · exact ⟨_, by rw [blocks, if_neg hcount, if_neg hblock]⟩
  obtain ⟨ranges, hranges⟩ := hsome
  obtain ⟨step, hstep, rfl⟩ := blocks_eq hranges
  exact ⟨step, hstep, hranges⟩

theorem backends_agree (R : Rounding) (draw : Draw) (seed stream first : ℤ) (fresh : List ℚ) :
    BackendsAgree R draw seed stream first fresh where
  numba _ _ _ _ h := filled_of_numba h
  reference _ _ h := filled_of_field h
  fields accelerated _ _ _ h := by
    rw [FieldFills] at h
    split at h
    · exact filled_of_numba h
    · exact filled_of_field h
  numba_returns hvalid h₀ hfits block threads defaultThreads hblock := by
    obtain ⟨kernel, hkernel, htotal⟩ := exists_kernel R hvalid seed stream
    obtain ⟨step, hstep, hranges⟩ := exists_blocks fresh.length hblock
      (workersOf threads defaultThreads)
    have hcalls : ∀ r ∈ spans fresh.length step, ∃ writes, call kernel first r = some writes := by
      intro r hr
      have := le_of_mem_spans hstep hr
      exact exists_call htotal h₀ (by omega)
    obtain ⟨calls, hcalls⟩ := exists_mapM_some hcalls
    by_cases hone : (spans fresh.length step).length = 1
    · have hpos : 0 < fresh.length := by
        obtain ⟨r, hr⟩ := List.length_eq_one_iff.1 hone
        have := le_of_mem_spans hstep (hr ▸ List.mem_singleton_self r)
        omega
      obtain ⟨writes, hwrites⟩ := exists_call htotal h₀ (r := (0, fresh.length)) (by
        dsimp only
        omega)
      exact ⟨_, kernel, hkernel, _, hranges, by
        rw [if_pos hone]
        exact ⟨writes, hwrites, rfl⟩⟩
    · exact ⟨_, kernel, hkernel, _, hranges, by
        rw [if_neg hone]
        exact ⟨calls, hcalls, _, .refl _, rfl⟩⟩
  reference_returns hvalid h₀ hfits isNumpy := by
    have htotal : ∀ index, ∃ v, draw.value R seed stream index = some v := by
      intro index
      obtain ⟨kernel, hkernel, htotal⟩ := exists_kernel R hvalid seed stream
      obtain ⟨v, hv⟩ := htotal index
      exact ⟨v, kernel_eq R hkernel hv⟩
    rw [field, foldlM_write]
    have hcalls : ∀ r ∈ spans fresh.length (if isNumpy then BLOCK else max fresh.length 1),
        ∃ writes, assign (draw.value R seed stream) first r = some writes := by
      intro r hr
      have := le_of_mem_spans (fieldStep_pos isNumpy _) hr
      exact exists_assign htotal h₀ (by omega)
    obtain ⟨calls, hcalls⟩ := exists_mapM_some hcalls
    exact ⟨_, by rw [hcalls]; rfl⟩

/-- **The counter generator.**  For all arguments the backends agree with the per-element
definition; the ranges of the threads are a partition, at most one a thread and none shorter than a
block unless it is the only one, exactly when the equal split leaves no short range. -/
theorem counter_generator (R : Rounding) (draw : Draw) (seed stream first : ℤ) (fresh : List ℚ)
    (block threads : ℤ) :
    (BackendsAgree R draw seed stream first fresh ∧
        RangesAsStated fresh.length block threads) ↔
      EvenSplit fresh.length block threads :=
  (and_iff_right (backends_agree R draw seed stream first fresh)).trans
    (rangesAsStated_iff fresh.length block threads)

/-- Eleven elements in blocks of ten on two threads: six and five. -/
theorem blocks_short : blocks 11 10 2 = some [(0, 6), (6, 11)] ∧ ¬ RangesAsStated 11 10 2 := by
  have hblocks : blocks 11 10 2 = some [(0, 6), (6, 11)] := rfl
  refine ⟨hblocks, ?_⟩
  rintro ⟨ranges, hranges, -, -, h⟩
  obtain rfl := some.inj (hblocks.symm.trans hranges)
  revert h
  decide

/-! ### No word twice -/

theorem xor_shiftRight_inj {m n k : ℕ} (hk : 0 < k) (h : m ^^^ (m >>> k) = n ^^^ (n >>> k)) :
    m = n := by
  have hshift : m ^^^ n = (m ^^^ n) / 2 ^ k := by
    have hxor := congrArg (· ^^^ (n ^^^ (m >>> k))) h
    rw [← Nat.shiftRight_eq_div_pow, Nat.shiftRight_xor_distrib]
    grind
  have hzero : m ^^^ n = 0 := by
    by_contra hne
    exact (Nat.div_lt_self (Nat.pos_of_ne_zero hne) (Nat.one_lt_two_pow hk.ne')).ne' hshift
  rw [← Nat.xor_zero m, ← Nat.xor_self n, ← Nat.xor_assoc, hzero, Nat.zero_xor]

theorem mul_inj_of_inv {c d x y : UInt64} (hcd : c * d = 1) (h : x * c = y * c) : x = y := by
  rw [← UInt64.mul_one x, ← UInt64.mul_one y, ← hcd, ← UInt64.mul_assoc, h, UInt64.mul_assoc]

/-- Each step of the finalizer can be undone. -/
theorem finalize_injective : Function.Injective finalize := by
  have hxor {k : ℕ} (hk : 0 < k ∧ k < 64) {x y : UInt64}
      (h : x ^^^ (x >>> UInt64.ofNat k) = y ^^^ (y >>> UInt64.ofNat k)) : x = y := by
    have hnat := congrArg UInt64.toNat h
    simp only [UInt64.toNat_xor, UInt64.toNat_shiftRight, UInt64.toNat_ofNat',
      Nat.mod_eq_of_lt (show k < 2 ^ 64 by omega), Nat.mod_eq_of_lt hk.2] at hnat
    exact UInt64.toNat_inj.1 (xor_shiftRight_inj hk.1 hnat)
  intro x y h
  exact hxor (by decide) (mul_inj_of_inv (d := 0x96de1b173f119089) (by decide)
    (hxor (by decide) (mul_inj_of_inv (d := 0x319642b2d24d8ec3) (by decide)
      (hxor (by decide) h))))

theorem mix_eq (value : ℤ) : mix value = (finalize (UInt64.ofInt value)).toNat := by
  have hlt : (value % 2 ^ 64).toNat < 2 ^ 64 := by omega
  simp only [mix, finalize, masked, UInt64.ofInt, UInt64.toNat_xor, UInt64.toNat_shiftRight,
    UInt64.toNat_mul, UInt64.toNat_ofNat', WORD_BITS, Nat.mod_eq_of_lt hlt]
  rfl

theorem ofInt_inj {a b : ℤ} : UInt64.ofInt a = UInt64.ofInt b ↔ a ≡ b [ZMOD 2 ^ 64] := by
  rw [← UInt64.toNat_inj, UInt64.ofInt, UInt64.ofInt, UInt64.toNat_ofNat', UInt64.toNat_ofNat',
    Int.ModEq]
  omega

theorem mix_inj {a b : ℤ} : mix a = mix b ↔ a ≡ b [ZMOD 2 ^ 64] := by
  rw [mix_eq, mix_eq, UInt64.toNat_inj, finalize_injective.eq_iff, ofInt_inj]

/-- **No word twice.**  The words of one seed and stream are all different; the keys of two streams
are equal, and those of two seeds, only when they agree modulo `2 ** 64`. -/
theorem words_distinct (seed stream : ℤ) :
    Function.Injective (fun index => bits index seed stream) ∧
      (∀ stream', key seed stream = key seed stream' ↔ stream ≡ stream' [ZMOD 2 ^ 64]) ∧
        ∀ seed', key seed stream = key seed' stream ↔ seed ≡ seed' [ZMOD 2 ^ 64] := by
  have hgamma {x y : UInt64} (h : (x + 1) * UInt64.ofInt GAMMA = (y + 1) * UInt64.ofInt GAMMA) :
      x = y :=
    (UInt64.add_left_inj 1).1 (mul_inj_of_inv (d := 0xf1de83e19937733d) (by decide) h)
  refine ⟨fun i j h => hgamma ((UInt64.add_left_inj _).1 (finalize_injective h)),
    fun stream' => ?_, fun seed' => ?_⟩
  · rw [key, key, mix_inj, ← ofInt_inj, ← ofInt_inj, UInt64.ofInt_add, UInt64.ofInt_add,
      UInt64.add_right_inj, UInt64.ofInt_mul, UInt64.ofInt_mul, UInt64.ofInt_add, UInt64.ofInt_add]
    exact ⟨hgamma, fun h => by rw [h]⟩
  · have hmix (n : ℤ) : (mix n : ℤ) % 2 ^ 64 = mix n :=
      Int.emod_eq_of_lt (by omega) (by exact_mod_cast mix_lt n)
    rw [key, key, mix_inj, ← mix_inj (a := seed)]
    refine ⟨fun h => ?_, fun h => by rw [h]⟩
    have hseed := Int.ModEq.add_right_cancel' _ h
    rw [Int.ModEq, hmix, hmix] at hseed
    exact_mod_cast hseed

end CounterRng

end HpcAgentBench
