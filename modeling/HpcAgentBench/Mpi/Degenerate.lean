import HpcAgentBench.Mpi.Layout

/-!
# Axes that degenerate to blocks

`degeneratesToBlock` is a closed test on an extent, a number of parts and an axis.  It is sound,
and refuses some axes that do deal every coordinate its contiguous block: those of one round of
blocks of the ceiling width, where the extent is not a multiple of the parts.

## Main results

* `dealsBlocks_iff` : exactly which round-robin axes deal the blocks.
* `degeneratesToBlock_exact_iff` : the test is exact except on the axes of `RaggedRound`.
* `degeneratesToBlock_ragged` : two elements, three parts, round-robin.
-/

namespace HpcAgentBench

namespace Mpi

/-- The grid coordinates own, along `axis`, the contiguous blocks of a length-`n` extent. -/
def OwnsBlocks (n : ℕ) (axis : AxisDist) (grid : Grid) (g parts : ℕ) : Prop :=
  ∀ coords c, coords[g]? = some c → c < parts →
    ∃ owned, ownedIndices n axis grid coords = .ok owned ∧
      ∀ i, i ∈ owned ↔ (blockBounds n parts c).1 ≤ i ∧ i < (blockBounds n parts c).2

/-- One round of blocks of the ceiling width, of which at most the last one of the extent is short,
on an extent that is not a multiple of the parts. -/
def RaggedRound (n parts : ℕ) (axis : AxisDist) : Prop :=
  axis.scheme ≠ .block ∧ 1 < parts ∧ 1 < n ∧ n % parts ≠ 0 ∧
    effectiveBlockSize axis = n / parts + 1 ∧ (n < parts ∨ n % parts + 1 = parts)

/-- The owner of an index under blocks of width `w` dealt round-robin is the one of the
contiguous blocks. -/
def DealsBlocks (n parts w : ℕ) : Prop :=
  ∀ c < parts, ∀ i, i < n ∧ i / w % parts = c ↔
    (blockBounds n parts c).1 ≤ i ∧ i < (blockBounds n parts c).2

variable {n parts : ℕ}
variable {axis : AxisDist} {w : ℕ}

/-- Every coordinate vector with a coordinate on dimension `g` counts, so an axis owns the blocks
when its dealing does. -/
theorem ownsBlocks_iff {grid : Grid} {g : ℕ} (hg : axis.gridDim = some g)
    (hp : grid.dims[g]? = some parts) :
    OwnsBlocks n axis grid g parts ↔ ∀ c < parts, ∀ i, i ∈ dealt n parts c axis ↔
      (blockBounds n parts c).1 ≤ i ∧ i < (blockBounds n parts c).2 := by
  constructor
  · intro h c hc i
    have hcoord : (List.replicate (g + 1) c)[g]? = some c := by
      simp
    obtain ⟨owned, howned, hmem⟩ := h _ c hcoord hc
    rw [ownedIndices_split hg hp hcoord] at howned
    cases howned
    exact hmem i
  · intro h coords c hcoord hc
    exact ⟨_, ownedIndices_split hg hp hcoord n, h c hc⟩

theorem dealt_iff_dealsBlocks (hs : axis.scheme ≠ .block) :
    (∀ c < parts, ∀ i, i ∈ dealt n parts c axis ↔
      (blockBounds n parts c).1 ≤ i ∧ i < (blockBounds n parts c).2) ↔
      DealsBlocks n parts (effectiveBlockSize axis) := by
  simp only [mem_dealt_cyclic hs, DealsBlocks]

/-- The first block, of more than one, ends inside an extent of more than one element. -/
theorem blockBounds_zero_lt (hn : 1 < n) (hp : 1 < parts) : (blockBounds n parts 0).2 < n := by
  have hdiv := Nat.div_add_mod n parts
  have htwo : 2 * (n / parts) ≤ parts * (n / parts) := Nat.mul_le_mul_right _ hp
  simp only [blockBounds, Nat.zero_mul, Nat.zero_min, Nat.zero_add]
  split_ifs with hrem
  · by_cases hb : n / parts = 0 <;> omega
  · have hb : n / parts ≠ 0 := by
      intro hb
      rw [hb, Nat.mul_zero] at hdiv
      omega
    omega

/-- Round-robin blocks that are the contiguous ones are as wide as the first of these. -/
theorem DealsBlocks.width_eq {w : ℕ} (hn : 1 < n) (hp : 1 < parts) (hw : 1 ≤ w)
    (h : DealsBlocks n parts w) : w = (blockBounds n parts 0).2 := by
  have hlast := blockBounds_zero_lt hn hp
  have hfirst (i : ℕ) : (i < n ∧ i / w % parts = 0) ↔ i < (blockBounds n parts 0).2 := by
    rw [h 0 (by omega) i]
    simp [blockBounds]
  generalize (blockBounds n parts 0).2 = m at hlast hfirst
  rcases Nat.lt_trichotomy w m with hlt | heq | hgt
  · -- index `w` starts the second block of the round
    have hwm := ((hfirst w).2 hlt).2
    rw [Nat.div_self hw, Nat.mod_eq_of_lt hp] at hwm
    omega
  · exact heq
  · have hm := (hfirst m).1 ⟨hlast, by rw [Nat.div_eq_of_lt hgt, Nat.zero_mod]⟩
    omega

/-- Blocks of the floor width, on a multiple of the parts, are the contiguous ones. -/
theorem dealsBlocks_of_dvd (hn : 1 < n) (hrem : n % parts = 0) :
    DealsBlocks n parts (n / parts) := by
  have hmul : parts * (n / parts) = n := Nat.mul_div_cancel' (Nat.dvd_of_mod_eq_zero hrem)
  have hw : 0 < n / parts := Nat.pos_of_ne_zero fun hb => by rw [hb, Nat.mul_zero] at hmul; omega
  intro c hc i
  have hlo : (blockBounds n parts c).1 = c * (n / parts) := by simp [blockBounds, hrem]
  have hhi : (blockBounds n parts c).2 = (c + 1) * (n / parts) := by
    simp [blockBounds, hrem, Nat.succ_mul]
  rw [hlo, hhi]
  constructor
  · rintro ⟨hi, hc'⟩
    exact (div_mod_eq_iff hw (by omega)).1 hc'
  · rintro ⟨hl, hu⟩
    have hi : i < n := by
      calc i < (c + 1) * (n / parts) := hu
        _ ≤ parts * (n / parts) := Nat.mul_le_mul_right _ hc
        _ = n := hmul
    exact ⟨hi, (div_mod_eq_iff hw (by omega)).2 ⟨hl, hu⟩⟩

/-- So are blocks one wider, where only the last block of the extent is short. -/
theorem dealsBlocks_of_ragged (hp : 1 < parts)
    (hshort : n < parts ∨ n % parts + 1 = parts) : DealsBlocks n parts (n / parts + 1) := by
  have hdiv := Nat.div_add_mod n parts
  have hlt := Nat.mod_lt n (show parts > 0 by omega)
  have hround : n < parts * (n / parts + 1) := by
    rw [Nat.mul_add_one]
    omega
  intro c hc i
  have hcyclic (hi : i < n) : i / (n / parts + 1) % parts = c ↔
      c * (n / parts + 1) ≤ i ∧ i < (c + 1) * (n / parts + 1) :=
    div_mod_eq_iff (Nat.succ_pos (n / parts)) (by omega)
  have hprod : c * (n / parts + 1) = c * (n / parts) + c := Nat.mul_add_one _ _
  have hprod' : (c + 1) * (n / parts + 1) = c * (n / parts) + c + (n / parts + 1) := by
    rw [Nat.succ_mul, hprod]
  rw [hprod, hprod'] at hcyclic
  simp only [blockBounds]
  by_cases hfull : c < n % parts
  · -- a whole block
    rw [if_pos hfull, Nat.min_eq_left (by omega)]
    have hend : c * (n / parts) + c + (n / parts + 1) ≤ n := by
      calc c * (n / parts) + c + (n / parts + 1) = (c + 1) * (n / parts + 1) := hprod'.symm
        _ ≤ n % parts * (n / parts + 1) := Nat.mul_le_mul_right _ hfull
        _ = n % parts * (n / parts) + n % parts := Nat.mul_add_one _ _
        _ ≤ parts * (n / parts) + n % parts :=
          Nat.add_le_add_right (Nat.mul_le_mul_right _ hlt.le) _
        _ = n := hdiv
    constructor
    · rintro ⟨hi, hc'⟩
      have := (hcyclic hi).1 hc'
      omega
    · rintro ⟨hl, hu⟩
      have hi : i < n := by omega
      exact ⟨hi, (hcyclic hi).2 ⟨by omega, by omega⟩⟩
  · rw [if_neg hfull, Nat.min_eq_right (by omega)]
    rcases hshort with hsmall | hlast
    · -- more parts than elements: nothing is left
      have hb : n / parts = 0 := Nat.div_eq_of_lt hsmall
      have hm : n % parts = n := Nat.mod_eq_of_lt hsmall
      rw [hb] at hcyclic ⊢
      constructor
      · rintro ⟨hi, hc'⟩
        have := (hcyclic hi).1 hc'
        omega
      · rintro ⟨hl, hu⟩
        omega
    · -- the last coordinate, whose block the end of the extent cuts
      obtain rfl : c = n % parts := by omega
      have hend : n % parts * (n / parts) + n % parts + n / parts = n := by
        calc n % parts * (n / parts) + n % parts + n / parts
            = (n % parts + 1) * (n / parts) + n % parts := by rw [Nat.succ_mul]; omega
          _ = parts * (n / parts) + n % parts := by rw [hlast]
          _ = n := hdiv
      constructor
      · rintro ⟨hi, hc'⟩
        have := (hcyclic hi).1 hc'
        omega
      · rintro ⟨hl, hu⟩
        have hi : i < n := by omega
        exact ⟨hi, (hcyclic hi).2 ⟨by omega, by omega⟩⟩

/-- Which round-robin axes deal the contiguous blocks. -/
theorem dealsBlocks_iff (hn : 1 < n) (hp : 1 < parts) (hw : 1 ≤ w) :
    DealsBlocks n parts w ↔
      (n % parts = 0 ∧ w = n / parts) ∨
        (n % parts ≠ 0 ∧ w = n / parts + 1 ∧ (n < parts ∨ n % parts + 1 = parts)) := by
  constructor
  · intro h
    have hwidth := h.width_eq hn hp hw
    simp only [blockBounds, Nat.zero_mul, Nat.zero_min, Nat.zero_add] at hwidth
    by_cases hrem : n % parts = 0
    · exact .inl ⟨hrem, by simpa [hrem] using hwidth⟩
    obtain rfl : w = n / parts + 1 := by simpa [Nat.pos_of_ne_zero hrem] using hwidth
    refine .inr ⟨hrem, rfl, ?_⟩
    by_contra hlong
    push Not at hlong
    have hdiv := Nat.div_add_mod n parts
    have hlt := Nat.mod_lt n (show parts > 0 by omega)
    have hbase : 1 ≤ n / parts := (Nat.one_le_div_iff (by omega)).2 hlong.1
    have hnext : n % parts + 1 < parts := by omega
    -- the block after the first short one starts where the round still deals the short one
    have hprod : n % parts * (n / parts + 1) = n % parts * (n / parts) + n % parts :=
      Nat.mul_add_one _ _
    have hi : n % parts * (n / parts + 1) + n / parts < n := by
      have hle : (n % parts + 2) * (n / parts) ≤ parts * (n / parts) :=
        Nat.mul_le_mul_right _ (by omega)
      rw [Nat.add_mul] at hle
      rw [hprod]
      omega
    have hquot : (n % parts * (n / parts + 1) + n / parts) / (n / parts + 1) = n % parts := by
      rw [Nat.mul_comm, Nat.mul_add_div hw, Nat.div_eq_of_lt (by omega), Nat.add_zero]
    have howner := (h (n % parts) hlt _).1 ⟨hi, by rw [hquot, Nat.mod_mod]⟩
    simp only [blockBounds, Nat.min_self, lt_irrefl, ↓reduceIte, Nat.add_zero, hprod] at howner
    exact howner.2
  · rintro (⟨hrem, rfl⟩ | ⟨-, rfl, hshort⟩)
    · exact dealsBlocks_of_dvd hn hrem
    · exact dealsBlocks_of_ragged hp hshort

theorem degeneratesToBlock_of_ne (hs : axis.scheme ≠ .block) (hn : 1 < n) (hp : 1 < parts) :
    degeneratesToBlock n parts axis = true ↔
      n % parts = 0 ∧ effectiveBlockSize axis = n / parts := by
  rw [degeneratesToBlock, if_neg hs, if_neg (by omega), decide_eq_true_eq]

/-- **The test is exact, except on a ragged round.**  On every extent, number of parts and split
axis, `degeneratesToBlock` says whether each coordinate owns its contiguous block, if and only if
the axis is not one round of blocks of the ceiling width with a short block at its end. -/
theorem degeneratesToBlock_exact_iff (n : ℕ) {axis : AxisDist} {grid : Grid} {g parts : ℕ}
    (hg : axis.gridDim = some g) (hp : grid.dims[g]? = some parts) :
    (degeneratesToBlock n parts axis = true ↔ OwnsBlocks n axis grid g parts) ↔
      ¬ RaggedRound n parts axis := by
  rw [ownsBlocks_iff hg hp]
  have hsound (h : degeneratesToBlock n parts axis = true) :
      ∀ c < parts, ∀ i, i ∈ dealt n parts c axis ↔
        (blockBounds n parts c).1 ≤ i ∧ i < (blockBounds n parts c).2 := by
    intro c hc i
    rw [dealt_of_degeneratesToBlock h hc,
      mem_dealt_block (show (blockAxis axis).scheme = .block from rfl), blockBounds_snd]
  by_cases hs : axis.scheme = .block
  · have htrue : degeneratesToBlock n parts axis = true := by rw [degeneratesToBlock, if_pos hs]
    exact iff_of_true (iff_of_true htrue (hsound htrue)) fun h => h.1 hs
  by_cases hsmall : parts ≤ 1 ∨ n ≤ 1
  · have htrue : degeneratesToBlock n parts axis = true := by
      rw [degeneratesToBlock, if_neg hs, if_pos hsmall]
    refine iff_of_true (iff_of_true htrue (hsound htrue)) fun h => ?_
    have := h.2.1
    have := h.2.2.1
    omega
  push Not at hsmall
  rw [dealt_iff_dealsBlocks hs, degeneratesToBlock_of_ne hs hsmall.2 hsmall.1,
    dealsBlocks_iff hsmall.2 hsmall.1 (one_le_effectiveBlockSize axis)]
  constructor
  · rintro h ⟨-, -, -, hrem, hwidth, hshort⟩
    exact hrem (h.2 (.inr ⟨hrem, hwidth, hshort⟩)).1
  · intro h
    refine ⟨.inl, ?_⟩
    rintro (hdvd | ⟨hrem, hwidth, hshort⟩)
    · exact hdvd
    · exact (h ⟨hs, hsmall.1, hsmall.2, hrem, hwidth, hshort⟩).elim

/-- Single elements dealt round-robin along the first grid dimension. -/
def roundRobin : AxisDist := { gridDim := some 0, scheme := .cyclic }

theorem degeneratesToBlock_exact_even :
    degeneratesToBlock 3 3 roundRobin = true ↔
      OwnsBlocks 3 roundRobin (Grid.line 3 (by decide)) 0 3 := by
  have hdim : (Grid.line 3 (by decide)).dims[0]? = some 3 := rfl
  exact (degeneratesToBlock_exact_iff 3 rfl hdim).2 fun h => h.2.2.2.1 (by decide)

/-- Two elements dealt round-robin to three coordinates are the contiguous blocks, and the test
says they are not. -/
theorem degeneratesToBlock_ragged :
    degeneratesToBlock 2 3 roundRobin = false ∧
      OwnsBlocks 2 roundRobin (Grid.line 3 (by decide)) 0 3 ∧
      ¬ (degeneratesToBlock 2 3 roundRobin = true ↔
        OwnsBlocks 2 roundRobin (Grid.line 3 (by decide)) 0 3) := by
  have hdim : (Grid.line 3 (by decide)).dims[0]? = some 3 := rfl
  have howns : OwnsBlocks 2 roundRobin (Grid.line 3 (by decide)) 0 3 := by
    rw [ownsBlocks_iff rfl hdim, dealt_iff_dealsBlocks (by decide)]
    exact dealsBlocks_of_ragged (n := 2) (by decide) (.inl (by decide))
  have hfalse : degeneratesToBlock 2 3 roundRobin = false := by decide
  refine ⟨hfalse, howns, fun h => ?_⟩
  rw [h.2 howns] at hfalse
  cases hfalse

end Mpi

end HpcAgentBench
