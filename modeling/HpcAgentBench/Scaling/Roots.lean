import HpcAgentBench.Scaling.Sizing

/-!
# Roots and default grids

The integer root of any number, and the near-square grid of a rank count.  What the floating-point
estimate of a grid's edge gives is a parameter: a divisor is taken off the count whatever it is.

## Main results

* `factorDims_spec`: what is taken off and what is left multiply to the count.
* `root_and_grid`: the root is exact, and the grid has the count's ranks.
-/

namespace HpcAgentBench

open List Option

namespace Scaling

open Mpi

/-- `integer_kth_root`, of any two integers. -/
def integerRoot (value k : ℤ) : Option ℤ := (integerKthRoot value.toNat k.toNat).map Int.ofNat

theorem integerRoot_eq_some_iff {value k m : ℤ} (hk : 1 ≤ k) :
    integerRoot value k = some m ↔ 1 ≤ value ∧ 0 ≤ m ∧ m ^ k.toNat = value := by
  rw [integerRoot, map_eq_some_iff]
  by_cases hv : 1 ≤ value
  · simp only [integerKthRoot_eq_some_iff (show 1 ≤ value.toNat by omega)
      (show 1 ≤ k.toNat by omega)]
    constructor
    · rintro ⟨m, hm, rfl⟩
      refine ⟨hv, Int.natCast_nonneg m, ?_⟩
      rw [Int.ofNat_eq_natCast, ← Nat.cast_pow, hm, Int.toNat_of_nonneg (by omega)]
    · rintro ⟨-, hm, rfl⟩
      obtain ⟨m, rfl⟩ := Int.eq_ofNat_of_zero_le hm
      exact ⟨m, by rw [← Nat.cast_pow, Int.toNat_natCast], rfl⟩
  · rw [integerKthRoot, if_pos (.inl (by omega))]
    simp [hv]

/-! ### Grids -/

/-- The largest divisor from `c` down. -/
def divisorFrom (remaining : ℕ) : ℕ → ℕ
  | 0 => 1
  | c + 1 => if remaining % (c + 1) = 0 then c + 1 else divisorFrom remaining c

/-- The loop of `factor_grid`: the extents of the `n` dimensions left, and what remains. -/
def factorDims (root : ℕ → ℕ → Except PyErr ℤ) : ℕ → ℕ → Except PyErr (List ℕ × ℕ)
  | 0, remaining => .ok ([], remaining)
  | n + 1, remaining => do
    if remaining = 1 then return (replicate (n + 1) 1, 1)
    let edge ← root remaining (n + 1)
    let d := divisorFrom remaining (max 1 edge).toNat
    let (dims, remaining) ← factorDims root n (remaining / d)
    return (d :: dims, remaining)

/-- `factor_grid`: the last extent takes what remains. -/
def factorGrid (root : ℕ → ℕ → Except PyErr ℤ) (nranks : ℕ) (ndim : ℤ) :
    Except PyErr (List ℕ) := do
  let (dims, remaining) ← factorDims root (max 1 ndim).toNat nranks
  return dims.dropLast ++ [dims.getLastD 1 * remaining]

variable {root : ℕ → ℕ → Except PyErr ℤ} {nranks : ℕ}

theorem divisorFrom_spec (remaining c : ℕ) :
    0 < divisorFrom remaining c ∧ divisorFrom remaining c ∣ remaining := by
  induction c with
  | zero => simp [divisorFrom]
  | succ c ih =>
    rw [divisorFrom]
    split
    next h => exact ⟨Nat.succ_pos c, Nat.dvd_of_mod_eq_zero h⟩
    next => exact ih

theorem factorDims_spec {limit : ℕ}
    (hroot : ∀ remaining n, 0 < remaining → remaining < limit →
      ∃ edge, root remaining n = .ok edge) (n : ℕ) {remaining : ℕ} (hpos : 0 < remaining)
    (hlt : remaining < limit) :
    ∃ dims rest, factorDims root n remaining = .ok (dims, rest) ∧ dims.length = n ∧
      dims.prod * rest = remaining := by
  induction n generalizing remaining with
  | zero => exact ⟨[], remaining, rfl, rfl, by simp⟩
  | succ n ih =>
    rw [factorDims]
    by_cases h1 : remaining = 1
    · rw [if_pos h1]
      exact ⟨_, _, rfl, by simp, by simp [h1]⟩
    · obtain ⟨edge, hedge⟩ := hroot remaining (n + 1) hpos hlt
      obtain ⟨hd, hdvd⟩ := divisorFrom_spec remaining (max 1 edge).toNat
      obtain ⟨dims, rest, hdims, hlen, hprod⟩ := ih (Nat.div_pos (Nat.le_of_dvd hpos hdvd) hd)
        (lt_of_le_of_lt (Nat.div_le_self _ _) hlt)
      refine ⟨divisorFrom remaining (max 1 edge).toNat :: dims, rest, ?_, by simp [hlen], ?_⟩
      · simp only [if_neg h1, hedge, hdims, bind, Except.bind]
        rfl
      · rw [prod_cons, mul_assoc, hprod, Nat.mul_div_cancel' hdvd]

/-- **The root of a positive number is found exactly when it has one, and no other number has one;
a grid of positive extents multiplies to the rank count in any number of dimensions, whatever the
estimates are, as long as counts below `limit` have one.** -/
theorem root_and_grid (value k : ℤ) (hk : 1 ≤ k) (limit : ℕ)
    (hroot : ∀ remaining n, 0 < remaining → remaining < limit →
      ∃ edge, root remaining n = .ok edge) :
    (∀ m, integerRoot value k = some m ↔ 1 ≤ value ∧ 0 ≤ m ∧ m ^ k.toNat = value) ∧
      ∀ nranks ndim, 1 ≤ nranks → nranks < limit → ∃ grid : Grid,
        factorGrid root nranks ndim = .ok grid.dims ∧ grid.nranks = nranks ∧
          (grid.dims.length : ℤ) = max 1 ndim := by
  refine ⟨fun m => integerRoot_eq_some_iff hk, fun nranks ndim hpos hlt => ?_⟩
  obtain ⟨dims, rest, hdims, hlen, hprod⟩ := factorDims_spec hroot (max 1 ndim).toNat hpos hlt
  have hne : dims ≠ [] := fun h => by
    rw [h, length_nil] at hlen
    omega
  have hlast : (dims.dropLast ++ [dims.getLastD 1 * rest]).prod = nranks := by
    rw [← hprod, prod_append, prod_singleton, ← mul_assoc]
    congr 1
    rw [getLastD_eq_getLast?, List.getLast?_eq_getLast_of_ne_nil hne, getD_some,
      ← prod_singleton (x := dims.getLast hne), ← prod_append,
      dropLast_append_getLast]
  refine ⟨⟨dims.dropLast ++ [dims.getLastD 1 * rest], fun d hd => Nat.pos_of_ne_zero fun h0 => ?_⟩,
    ?_, hlast, ?_⟩
  · -- an extent 0 would make the product 0
    rw [prod_eq_zero (h0 ▸ hd)] at hlast
    omega
  · rw [factorGrid, hdims]
    rfl
  · have := length_pos_iff.2 hne
    rw [length_append, length_dropLast, length_singleton]
    omega

/-- Estimates that never fail. -/
theorem root_and_grid_twelve : ∃ grid : Grid,
    factorGrid (fun _ _ => .ok 3) 12 2 = .ok grid.dims ∧ grid.nranks = 12 :=
  let ⟨grid, hgrid, hn, _⟩ := (@root_and_grid (fun _ _ => .ok 3) 8 3 (by decide) 13
    fun _ _ _ _ => ⟨3, rfl⟩).2 12 2 (by decide) (by decide)
  ⟨grid, hgrid, hn⟩

/-- 0 is the square of 0, and its root is not given. -/
theorem integerRoot_zero : integerRoot 0 2 = none ∧ (0 : ℤ) ^ 2 = 0 := by
  decide

end Scaling

end HpcAgentBench
