import Mathlib.Data.Int.Bitwise
import Mathlib.Tactic.Linarith
import Mathlib.Tactic.Ring

/-!
# Fixed-width integers

The integers of a width, signed or not, as a range of `ℤ`, and the operations that stay inside it.
A division and a remainder round towards minus infinity; bits are those of two's complement.

## Main results

* `IntType.wrap_eq_self`, `IntType.inRange_wrap` : wrapping is the identity on the range.
* `IntType.inRange_fdiv`, `IntType.inRange_fmod`, `IntType.inRange_shiftRight`,
  `IntType.inRange_bitwise` : operations that need no wrap.
-/

namespace HpcAgentBench

/-- The integers of `bits` bits. -/
structure IntType where
  signed : Bool
  bits : ℕ
  deriving DecidableEq, Repr

namespace IntType

variable (t u : IntType) {x y : ℤ}

/-- The least value. -/
def min : ℤ := if t.signed then -2 ^ (t.bits - 1) else 0

/-- A value of the type. -/
def InRange (x : ℤ) : Prop := t.min ≤ x ∧ x < t.min + 2 ^ t.bits

instance : Decidable (t.InRange x) := inferInstanceAs (Decidable (_ ∧ _))

/-- The value of the type that is congruent modulo the width. -/
def wrap (x : ℤ) : ℤ := (x - t.min) % 2 ^ t.bits + t.min

/-- Every value of one type is one of the other. -/
def Contains : Prop := t.min ≤ u.min ∧ u.min + 2 ^ u.bits ≤ t.min + 2 ^ t.bits

instance : Decidable (t.Contains u) := inferInstanceAs (Decidable (_ ∧ _))

variable {t u}

theorem two_pow_pos (n : ℕ) : (0 : ℤ) < 2 ^ n := by positivity

theorem wrap_eq_self (h : t.InRange x) : t.wrap x = x := by
  unfold wrap
  rw [Int.emod_eq_of_lt (by linarith [h.1]) (by linarith [h.2])]
  ring

theorem inRange_wrap : t.InRange (t.wrap x) := by
  have hpos := two_pow_pos t.bits
  have hnonneg := Int.emod_nonneg (x - t.min) hpos.ne'
  have hlt := Int.emod_lt_of_pos (x - t.min) hpos
  exact ⟨by unfold wrap; linarith, by unfold wrap; linarith⟩

theorem Contains.inRange (h : t.Contains u) (hx : u.InRange x) : t.InRange x :=
  ⟨h.1.trans hx.1, hx.2.trans_le h.2⟩

/-! ### Bounds on one side -/

/-- The signed range, as an absolute bound. -/
theorem inRange_signed (hbits : 0 < t.bits) (hsigned : t.signed = true) :
    t.InRange x ↔ -2 ^ (t.bits - 1) ≤ x ∧ x < 2 ^ (t.bits - 1) := by
  have hpow : (2 : ℤ) ^ t.bits = 2 * 2 ^ (t.bits - 1) := by
    rw [← pow_succ', Nat.sub_add_cancel hbits]
  unfold InRange min
  rw [hsigned, if_pos rfl, hpow]
  constructor <;> rintro ⟨h, h'⟩ <;> exact ⟨h, by linarith⟩

theorem inRange_unsigned (hunsigned : t.signed = false) :
    t.InRange x ↔ 0 ≤ x ∧ x < 2 ^ t.bits := by
  unfold InRange min
  rw [hunsigned]
  simp

/-! ### Division -/

/-- The remainder lies between zero and the divisor. -/
theorem fdiv_spec (hzero : y ≠ 0) :
    (0 < y ∧ 0 ≤ x - y * Int.fdiv x y ∧ x - y * Int.fdiv x y < y) ∨
      (y < 0 ∧ y < x - y * Int.fdiv x y ∧ x - y * Int.fdiv x y ≤ 0) := by
  rw [← Int.fmod_def]
  rcases lt_or_gt_of_ne hzero with hy | hy
  · refine .inr ⟨hy, ?_⟩
    have hneg : 0 < -y := by omega
    have hmod : Int.fmod x y = -Int.fmod (-x) (-y) := by
      rw [Int.fmod_def, Int.fmod_def, Int.neg_fdiv_neg]
      ring
    have hnonneg := Int.fmod_nonneg_of_pos (-x) hneg
    have hlt := Int.fmod_lt_of_pos (-x) hneg
    omega
  · exact .inl ⟨hy, Int.fmod_nonneg_of_pos x hy, Int.fmod_lt_of_pos x hy⟩

/-- A quotient is no larger than the dividend; the least value divided by `-1` is the exception. -/
theorem inRange_fdiv (hbits : 0 < t.bits) (hx : t.InRange x) (hy : t.InRange y) (hzero : y ≠ 0)
    (hmin : ¬(t.signed = true ∧ x = t.min ∧ y = -1)) : t.InRange (Int.fdiv x y) := by
  cases hsigned : t.signed with
  | false =>
    rw [inRange_unsigned hsigned] at hx hy ⊢
    rw [Int.fdiv_eq_ediv_of_nonneg _ hy.1]
    exact ⟨Int.ediv_nonneg hx.1 hy.1, (Int.ediv_le_self y hx.1).trans_lt hx.2⟩
  | true =>
    have hleast : t.min = -2 ^ (t.bits - 1) := by rw [min, hsigned, if_pos rfl]
    rw [hleast] at hmin
    rw [inRange_signed hbits hsigned] at hx hy ⊢
    have hpos := two_pow_pos (t.bits - 1)
    have hspec := fdiv_spec (x := x) hzero
    generalize (2 : ℤ) ^ (t.bits - 1) = m at hx hy hmin hpos
    generalize Int.fdiv x y = q at hspec
    rcases hspec with ⟨hy, hnonneg, hlt⟩ | ⟨hy, hlt, hnonpos⟩
    · exact ⟨by nlinarith, by nlinarith⟩
    · by_cases hone : y = -1
      · subst hone
        have hne : x ≠ -m := fun h => hmin ⟨hsigned, h, rfl⟩
        exact ⟨by omega, by omega⟩
      · have hy' : y ≤ -2 := by omega
        exact ⟨by nlinarith, by nlinarith⟩

/-- A remainder is smaller than the divisor. -/
theorem inRange_fmod (hbits : 0 < t.bits) (hy : t.InRange y) (hzero : y ≠ 0) :
    t.InRange (Int.fmod x y) := by
  rw [Int.fmod_def]
  have hspec := fdiv_spec (x := x) hzero
  cases hsigned : t.signed with
  | false =>
    rw [inRange_unsigned hsigned] at hy ⊢
    rcases hspec with ⟨-, hnonneg, hlt⟩ | ⟨hneg, -, -⟩
    · exact ⟨hnonneg, hlt.trans hy.2⟩
    · exact absurd hy.1 (not_le.2 hneg)
  | true =>
    rw [inRange_signed hbits hsigned] at hy ⊢
    have hpos := two_pow_pos (t.bits - 1)
    rcases hspec with ⟨-, hnonneg, hlt⟩ | ⟨-, hlt, hnonpos⟩
    · exact ⟨by linarith, by linarith⟩
    · exact ⟨by linarith, by linarith⟩

/-! ### Bits -/

/-- A shift to the right moves towards zero, or towards `-1`. -/
theorem inRange_shiftRight (hbits : 0 < t.bits) (hx : t.InRange x) (k : ℕ) :
    t.InRange (x >>> k) := by
  rw [Int.shiftRight_eq_div_pow]
  have hk : (0 : ℤ) < ((2 ^ k : ℕ) : ℤ) := by positivity
  generalize ((2 ^ k : ℕ) : ℤ) = d at hk
  cases hsigned : t.signed with
  | false =>
    rw [inRange_unsigned hsigned] at hx ⊢
    exact ⟨Int.ediv_nonneg hx.1 hk.le, (Int.ediv_le_self d hx.1).trans_lt hx.2⟩
  | true =>
    rw [inRange_signed hbits hsigned] at hx ⊢
    have hpos := two_pow_pos (t.bits - 1)
    constructor
    · rw [Int.le_ediv_iff_mul_le hk]
      nlinarith
    · rw [Int.ediv_lt_iff_lt_mul hk]
      nlinarith

/-- The bits of a value of `n` bits and a sign. -/
theorem bits_of_inRange {n : ℕ} (hx : -2 ^ n ≤ x ∧ x < 2 ^ n) :
    ∃ m : ℕ, m < 2 ^ n ∧ (x = Int.ofNat m ∨ x = Int.negSucc m) := by
  cases x with
  | ofNat m =>
    refine ⟨m, ?_, .inl rfl⟩
    have hlt : (m : ℤ) < 2 ^ n := hx.2
    exact_mod_cast hlt
  | negSucc m =>
    refine ⟨m, ?_, .inr rfl⟩
    have hle := hx.1
    rw [Int.negSucc_eq] at hle
    have hlt : (m : ℤ) < 2 ^ n := by linarith
    exact_mod_cast hlt

theorem inRange_of_bits {n m : ℕ} (hm : m < 2 ^ n) :
    (-2 ^ n ≤ Int.ofNat m ∧ Int.ofNat m < 2 ^ n) ∧
      (-2 ^ n ≤ Int.negSucc m ∧ Int.negSucc m < 2 ^ n) := by
  have hm' : (m : ℤ) < 2 ^ n := by exact_mod_cast hm
  have hpos := two_pow_pos n
  rw [Int.negSucc_eq]
  refine ⟨⟨?_, hm'⟩, ?_, ?_⟩
  · exact (neg_nonpos.2 hpos.le).trans (Int.natCast_nonneg m)
  · linarith
  · linarith [Int.natCast_nonneg m]

theorem ldiff_lt_two_pow {m k n : ℕ} (hm : m < 2 ^ n) : Nat.ldiff m k < 2 ^ n := by
  refine Nat.lt_pow_two_of_testBit _ fun i hi => ?_
  rw [Nat.testBit_ldiff, Nat.testBit_lt_two_pow (hm.trans_le (Nat.pow_le_pow_right (by omega) hi))]
  rfl

/-- Operations bit by bit keep the sign and the width. -/
theorem bounds_bitwise {n : ℕ} (hx : -2 ^ n ≤ x ∧ x < 2 ^ n) (hy : -2 ^ n ≤ y ∧ y < 2 ^ n) :
    (-2 ^ n ≤ Int.land x y ∧ Int.land x y < 2 ^ n) ∧
      (-2 ^ n ≤ Int.lor x y ∧ Int.lor x y < 2 ^ n) ∧
      (-2 ^ n ≤ Int.xor x y ∧ Int.xor x y < 2 ^ n) := by
  obtain ⟨a, ha, hx⟩ := bits_of_inRange hx
  obtain ⟨b, hb, hy⟩ := bits_of_inRange hy
  have hand := inRange_of_bits (Nat.and_lt_two_pow a hb)
  have hor := inRange_of_bits (Nat.or_lt_two_pow ha hb)
  have hxor := inRange_of_bits (Nat.xor_lt_two_pow ha hb)
  have hab := inRange_of_bits (ldiff_lt_two_pow (k := b) ha)
  have hba := inRange_of_bits (ldiff_lt_two_pow (k := a) hb)
  rcases hx with rfl | rfl <;> rcases hy with rfl | rfl
  · exact ⟨hand.1, hor.1, hxor.1⟩
  · exact ⟨hab.1, hba.2, hxor.2⟩
  · exact ⟨hba.1, hab.2, hxor.2⟩
  · exact ⟨hor.2, hand.2, hxor.1⟩

theorem inRange_bitwise (hbits : 0 < t.bits) (hx : t.InRange x) (hy : t.InRange y) :
    t.InRange (Int.land x y) ∧ t.InRange (Int.lor x y) ∧ t.InRange (Int.xor x y) := by
  cases hsigned : t.signed with
  | false =>
    simp only [inRange_unsigned hsigned] at hx hy ⊢
    obtain ⟨a, rfl⟩ := Int.eq_ofNat_of_zero_le hx.1
    obtain ⟨b, rfl⟩ := Int.eq_ofNat_of_zero_le hy.1
    have ha : a < 2 ^ t.bits := by exact_mod_cast hx.2
    have hb : b < 2 ^ t.bits := by exact_mod_cast hy.2
    have hand : ((a &&& b : ℕ) : ℤ) < 2 ^ t.bits := by exact_mod_cast Nat.and_lt_two_pow a hb
    have hor : ((a ||| b : ℕ) : ℤ) < 2 ^ t.bits := by exact_mod_cast Nat.or_lt_two_pow ha hb
    have hxor : ((a ^^^ b : ℕ) : ℤ) < 2 ^ t.bits := by exact_mod_cast Nat.xor_lt_two_pow ha hb
    exact ⟨⟨Int.natCast_nonneg _, hand⟩, ⟨Int.natCast_nonneg _, hor⟩, Int.natCast_nonneg _, hxor⟩
  | true =>
    simp only [inRange_signed hbits hsigned] at hx hy ⊢
    exact bounds_bitwise hx hy

end IntType

end HpcAgentBench
