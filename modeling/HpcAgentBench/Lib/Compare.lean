import HpcAgentBench.Lib.Number
import Mathlib.Data.Rat.Floor
import Mathlib.Tactic.Positivity

/-!
# Comparing numbers

Integers and doubles are compared by their exact values; an infinity is above or below every finite
number, and a NaN is neither equal to nor ordered with anything.

## Main results

* `Double.trunc_eq` : `int(x)` is the value rounded towards zero.
* `PyNum.toInt_eq_of_eq` : equal numbers have equal integer parts.
-/

namespace HpcAgentBench

open Option

namespace Double

variable (bits : Double)

/-- The magnitude of a finite double. -/
def magnitude : ℚ := bits.significand * (2 : ℚ) ^ ((max 1 bits.exponent : ℤ) - 1075)

/-- The exact value of a finite double. -/
def toRat? : Option ℚ :=
  if bits.exponent = 2047 then none
  else some (if bits.negative then -bits.magnitude else bits.magnitude)

theorem magnitude_nonneg : 0 ≤ bits.magnitude := by
  exact mul_nonneg (Nat.cast_nonneg _) (zpow_nonneg (by norm_num) _)

theorem floor_magnitude : ⌊bits.magnitude⌋ = (bits.whole.1 : ℤ) := by
  have hmax : (max 1 (bits.exponent : ℤ)) = ((max 1 bits.exponent : ℕ) : ℤ) := by simp
  unfold magnitude whole
  rw [hmax]
  generalize max 1 bits.exponent = e
  generalize bits.significand = s
  dsimp only
  split
  next hle =>
    have hexp : ((e : ℤ) - 1075) = ((e - 1075 : ℕ) : ℤ) := by omega
    rw [hexp, zpow_natCast]
    exact_mod_cast Int.floor_natCast (R := ℚ) (s * 2 ^ (e - 1075))
  next hlt =>
    have hexp : ((e : ℤ) - 1075) = -((1075 - e : ℕ) : ℤ) := by omega
    rw [hexp, zpow_neg, zpow_natCast, ← div_eq_mul_inv]
    have hfloor := Rat.floor_intCast_div_natCast (s : ℤ) (2 ^ (1075 - e))
    push_cast at hfloor ⊢
    exact hfloor

/-- `int(x)` is the value rounded towards zero. -/
theorem trunc_eq {bits : Double} {q : ℚ} (h : bits.toRat? = some q) :
    bits.trunc = .ok (if q < 0 then -⌊-q⌋ else ⌊q⌋) := by
  unfold toRat? at h
  split at h
  next => cases h
  next hfin =>
    have hm := bits.magnitude_nonneg
    rw [trunc, finite, if_neg hfin]
    cases hneg : bits.negative with
    | false =>
      simp only [hneg, Bool.false_eq_true, if_false, some.injEq] at h ⊢
      rw [← h, if_neg (not_lt.2 hm), floor_magnitude]
    | true =>
      simp only [hneg, if_true, some.injEq] at h ⊢
      rw [← h]
      by_cases hzero : bits.magnitude = 0
      · have := bits.floor_magnitude
        rw [hzero, Int.floor_zero] at this
        rw [hzero]
        simp [← this]
      · have hpos : -bits.magnitude < 0 := by
          have := lt_of_le_of_ne hm (Ne.symm hzero)
          linarith
        rw [if_pos hpos, neg_neg, floor_magnitude]

end Double

namespace PyNum

/-- The exact value of a finite number. -/
def toRat? : PyNum → Option ℚ
  | int z => some z
  | float bits => bits.toRat?

/-- Whether an infinity is negative. -/
def infinity? : PyNum → Option Bool
  | int _ => none
  | float bits =>
    if bits.exponent = 2047 ∧ bits.fraction = 0 then some bits.negative else none

/-- The order of two numbers; none with a NaN. -/
def compare? (x y : PyNum) : Option Ordering :=
  match x.toRat?, y.toRat? with
  | some a, some b => some (Ord.compare a b)
  | some _, none => y.infinity?.map fun neg => if neg then .gt else .lt
  | none, some _ => x.infinity?.map fun neg => if neg then .lt else .gt
  | none, none => do return Ord.compare (← y.infinity?) (← x.infinity?)

/-- `x == y`. -/
def eq (x y : PyNum) : Bool := x.compare? y == some .eq

theorem toInt_of_toRat {x : PyNum} {q : ℚ} (h : x.toRat? = some q) :
    x.toInt = .ok (if q < 0 then -⌊-q⌋ else ⌊q⌋) := by
  cases x with
  | int z =>
    simp only [toRat?, some.injEq] at h
    rw [toInt, ← h, ← Int.cast_neg, Int.floor_intCast, Int.floor_intCast, neg_neg, ite_self]
  | float bits => exact Double.trunc_eq h

theorem toInt_of_infinity {x : PyNum} {neg : Bool} (h : x.infinity? = some neg) :
    x.toInt = .error .overflow := by
  cases x with
  | int z => cases h
  | float bits =>
    by_cases hinf : bits.exponent = 2047 ∧ bits.fraction = 0
    · rw [toInt, Double.trunc, Double.finite, if_pos hinf.1, if_pos hinf.2]
    · rw [infinity?, if_neg hinf] at h
      cases h

/-- Equal numbers have equal integer parts. -/
theorem toInt_eq_of_eq {x y : PyNum} (h : x.eq y = true) : x.toInt = y.toInt := by
  rw [eq, beq_iff_eq, compare?] at h
  cases hx : x.toRat? with
  | some a =>
    cases hy : y.toRat? with
    | some b =>
      simp only [hx, hy, some.injEq, compare_eq_iff_eq] at h
      rw [toInt_of_toRat hx, toInt_of_toRat hy, h]
    | none =>
      simp only [hx, hy, map_eq_some_iff] at h
      obtain ⟨neg, -, h⟩ := h
      cases neg <;> cases h
  | none =>
    cases hy : y.toRat? with
    | some b =>
      simp only [hx, hy, map_eq_some_iff] at h
      obtain ⟨neg, -, h⟩ := h
      cases neg <;> cases h
    | none =>
      simp only [hx, hy] at h
      obtain ⟨negy, hnegy, h⟩ := bind_eq_some_iff.1 h
      obtain ⟨negx, hnegx, -⟩ := bind_eq_some_iff.1 h
      rw [toInt_of_infinity hnegx, toInt_of_infinity hnegy]

end PyNum

end HpcAgentBench
