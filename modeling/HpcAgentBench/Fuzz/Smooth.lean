import HpcAgentBench.Fuzz.Sampling
import Mathlib.NumberTheory.SmoothNumbers

/-!
# Smooth sizes

The table of smooth numbers grows prime by prime: what it holds is closed under the primes met so
far, up to its limit.  A draw is moved to an entry of the table, found by two searches.

## Main results

* `mem_smoothNumbers`, `pairwise_smoothNumbers`: the table, whenever it starts from 1.
* `smooth_table_and_snap`: the table and the searches in it.
-/

namespace HpcAgentBench

open List

namespace Fuzz

/-- Positive, with no prime factor above `bound`. -/
def Smooth (bound n : ℤ) : Prop := n.toNat ∈ (bound + 1).toNat.smoothNumbers

variable {prime limit : ℕ} {bound n : ℤ}

theorem Smooth.pos (h : Smooth bound n) : 1 ≤ n := by
  have hn : n.toNat ≠ 0 := h.1
  omega

theorem smooth_one : Smooth bound 1 := by simp [Smooth, Nat.mem_smoothNumbers]

/-! ### The primes -/

/-- Trial division up to the square root finds the primes. -/
theorem trial_iff_prime {q : ℕ} :
    (2 ≤ q && (List.range (q.sqrt + 1)).all fun d => d < 2 || q % d ≠ 0) = true ↔ q.Prime := by
  rw [Nat.prime_def_le_sqrt, Bool.and_eq_true, decide_eq_true_iff, all_eq_true]
  refine and_congr_right fun _ => forall_congr' fun d => ?_
  rw [mem_range, Bool.or_eq_true, decide_eq_true_iff, decide_eq_true_iff, Nat.dvd_iff_mod_eq_zero]
  constructor
  · intro h h2 hs
    exact (h (by omega)).resolve_left (by omega)
  · intro h hd
    by_cases h2 : d < 2
    · exact .inl h2
    · exact .inr (h (by omega) (by omega))

/-! ### One prime -/

/-- The powers stop at the limit, or with the fuel. -/
theorem mem_powersFrom {fuel value m : ℕ} (hp : 1 ≤ prime) :
    m ∈ powersFrom prime limit fuel value ↔ m ≤ limit ∧ ∃ e < fuel, m = value * prime ^ e := by
  induction fuel generalizing value with
  | zero => simp [powersFrom]
  | succ fuel ih =>
    have hle (e : ℕ) : value ≤ value * prime ^ e := Nat.le_mul_of_pos_right _ (by positivity)
    rw [powersFrom]
    split
    next hv =>
      rw [mem_cons, ih]
      constructor
      · rintro (rfl | ⟨hm, e, he, rfl⟩)
        · exact ⟨hv, 0, by omega, by simp⟩
        · exact ⟨hm, e + 1, by omega, by rw [pow_succ']; ring⟩
      · rintro ⟨hm, e, he, rfl⟩
        cases e with
        | zero => simp
        | succ e => exact .inr ⟨hm, e, by omega, by rw [pow_succ']; ring⟩
    next hv =>
      simp only [not_mem_nil, false_iff]
      rintro ⟨hm, e, -, rfl⟩
      exact hv (le_trans (hle e) hm)

theorem nodup_powersFrom {fuel value : ℕ} (hp : 2 ≤ prime) (hv : 1 ≤ value) :
    (powersFrom prime limit fuel value).Nodup := by
  induction fuel generalizing value with
  | zero => simp [powersFrom]
  | succ fuel ih =>
    rw [powersFrom]
    split
    · refine nodup_cons.2 ⟨fun h => ?_, ih (Nat.mul_pos hv (by omega))⟩
      -- what follows is a proper multiple
      obtain ⟨-, e, -, he⟩ := (mem_powersFrom (by omega)).1 h
      have hlt : value * 1 < value * prime := Nat.mul_lt_mul_of_pos_left (by omega) hv
      have hle : value * prime ≤ value * prime * prime ^ e :=
        Nat.le_mul_of_pos_right _ (by positivity)
      omega
    · exact nodup_nil

/-- The table after the primes of `s`: each number up to the limit with no other prime, once. -/
structure Closed (limit : ℕ) (s : Finset ℕ) (found : List ℕ) : Prop where
  nodup : found.Nodup
  mem : ∀ m, m ∈ found ↔ m ≤ limit ∧ m ∈ Nat.factoredNumbers s

variable {s : Finset ℕ} {found : List ℕ}

theorem Closed.start (hl : 1 ≤ limit) : Closed limit ∅ [1] where
  nodup := nodup_singleton 1
  mem m := by
    rw [Nat.factoredNumbers_empty, mem_singleton, Set.mem_singleton_iff]
    exact ⟨fun h => ⟨by omega, h⟩, And.right⟩

/-- A limit with no number below it: one prime empties the table. -/
theorem Closed.nil (s : Finset ℕ) : Closed 0 s [] where
  nodup := nodup_nil
  mem m := by
    simp only [not_mem_nil, false_iff, not_and]
    exact fun h hm => hm.1 (by omega)

/-- The next prime multiplies what is found by all its powers, each product once. -/
theorem Closed.step (h : Closed limit s found) (hp : prime.Prime) (hs : prime ∉ s) :
    Closed limit (insert prime s) (found.flatMap (powersFrom prime limit limit)) where
  nodup := by
    have hpos {a : ℕ} (ha : a ∈ found) : 1 ≤ a := Nat.pos_of_ne_zero ((h.mem a).1 ha).2.1
    refine nodup_flatMap.2 ⟨fun a ha => nodup_powersFrom hp.two_le (hpos ha), ?_⟩
    -- a product has one factorisation into a power and a number without the prime
    refine h.nodup.pairwise_of_forall_ne fun a ha b hb hne => disjoint_left.2 fun m hma hmb => ?_
    obtain ⟨-, e, -, rfl⟩ := (mem_powersFrom hp.one_le).1 hma
    obtain ⟨-, e', -, heq⟩ := (mem_powersFrom hp.one_le).1 hmb
    have hinj : (e, (⟨a, ((h.mem a).1 ha).2⟩ : Nat.factoredNumbers s)) =
        (e', ⟨b, ((h.mem b).1 hb).2⟩) :=
      (Nat.equivProdNatFactoredNumbers hp hs).injective
        (Subtype.ext (show prime ^ e * a = prime ^ e' * b by rw [mul_comm, heq, mul_comm]))
    exact hne (congrArg (fun x => (x.2 : ℕ)) hinj)
  mem m := by
    rw [mem_flatMap]
    constructor
    · rintro ⟨a, ha, hm⟩
      obtain ⟨hle, e, -, rfl⟩ := (mem_powersFrom hp.one_le).1 hm
      rw [mul_comm] at hle ⊢
      exact ⟨hle, Nat.pow_mul_mem_factoredNumbers hp e ((h.mem a).1 ha).2⟩
    · rintro ⟨hle, hm⟩
      obtain ⟨⟨e, a, ha⟩, heq⟩ := (Nat.equivProdNatFactoredNumbers hp hs).surjective ⟨m, hm⟩
      have hma : m = a * prime ^ e := by
        exact (congrArg Subtype.val heq).symm.trans (mul_comm _ _)
      have hea : prime ^ e ≤ m := by
        rw [hma]
        exact Nat.le_mul_of_pos_left _ (Nat.pos_of_ne_zero ha.1)
      have ham : a ≤ m := by
        rw [hma]
        exact Nat.le_mul_of_pos_right _ (Nat.pow_pos hp.pos)
      have he : e < prime ^ e := Nat.lt_pow_self hp.one_lt
      exact ⟨a, (h.mem a).2 ⟨by omega, ha⟩,
        (mem_powersFrom hp.one_le).2 ⟨hle, e, by omega, hma⟩⟩

theorem Closed.foldl {primes : List ℕ} (h : Closed limit s found) (hp : ∀ p ∈ primes, p.Prime)
    (hnd : primes.Nodup) (hs : ∀ p ∈ primes, p ∉ s) :
    Closed limit (s ∪ primes.toFinset)
      (primes.foldl (fun found prime => found.flatMap (powersFrom prime limit limit)) found) := by
  induction primes generalizing s found with
  | nil => simpa using h
  | cons p primes ih =>
    obtain ⟨hp₁, hp⟩ := forall_mem_cons.1 hp
    obtain ⟨hs₁, hs⟩ := forall_mem_cons.1 hs
    obtain ⟨hnew, hnd⟩ := nodup_cons.1 hnd
    rw [toFinset_cons, Finset.union_insert, ← Finset.insert_union]
    refine ih (h.step hp₁ hs₁) hp hnd fun q hq hin => ?_
    rcases Finset.mem_insert.1 hin with rfl | hin
    · exact hnew hq
    · exact hs q hq hin

/-- The primes up to the bound. -/
def primesUpTo (bound : ℤ) : List ℕ :=
  (List.range (bound + 1).toNat).filter fun q =>
    2 ≤ q && (List.range (q.sqrt + 1)).all fun d => d < 2 || q % d ≠ 0

theorem mem_primesUpTo {q : ℕ} : q ∈ primesUpTo bound ↔ q < (bound + 1).toNat ∧ q.Prime := by
  rw [primesUpTo, mem_filter, mem_range, trial_iff_prime]

/-! ### The table -/

/-- The table is closed under every prime, unless it starts from a 1 above its limit. -/
theorem closed_smoothNumbers (h : 1 ≤ limit ∨ 2 ≤ bound) :
    Closed limit (Nat.primesBelow (bound + 1).toNat) (smoothNumbers bound limit) := by
  have hprimes : (primesUpTo bound).toFinset = Nat.primesBelow (bound + 1).toNat := by
    ext q
    rw [mem_toFinset, mem_primesUpTo, Nat.mem_primesBelow]
  have hp : ∀ p ∈ primesUpTo bound, p.Prime := fun p hp => (mem_primesUpTo.1 hp).2
  have hnd : (primesUpTo bound).Nodup := nodup_range.filter _
  have hfold : Closed limit (Nat.primesBelow (bound + 1).toNat) ((primesUpTo bound).foldl
      (fun found prime => found.flatMap (powersFrom prime limit limit)) [1]) := by
    rw [← hprimes]
    rcases Nat.eq_zero_or_pos limit with rfl | hl
    · -- 2 is a prime of the list, and the first prime empties it
      have h2 : 2 ∈ primesUpTo bound := mem_primesUpTo.2 ⟨by omega, Nat.prime_two⟩
      obtain ⟨p, primes, heq⟩ := exists_cons_of_ne_nil (ne_nil_of_mem h2)
      rw [heq] at hp hnd ⊢
      have := (Closed.nil {p}).foldl (fun q hq => hp q (.tail _ hq))
        (nodup_cons.1 hnd).2 fun q hq hin =>
          (nodup_cons.1 hnd).1 (Finset.mem_singleton.1 hin ▸ hq)
      rwa [toFinset_cons, Finset.insert_eq]
    · simpa using (Closed.start hl).foldl hp hnd (by simp)
  have hperm := perm_insertionSort (· ≤ ·) ((primesUpTo bound).foldl
    (fun found prime => found.flatMap (powersFrom prime limit limit)) [1])
  exact ⟨hperm.nodup_iff.2 hfold.nodup, fun m => hperm.mem_iff.trans (hfold.mem m)⟩

theorem mem_smoothNumbers {m : ℕ} (h : 1 ≤ limit ∨ 2 ≤ bound) :
    m ∈ smoothNumbers bound limit ↔ m ≤ limit ∧ Smooth bound m := by
  rw [(closed_smoothNumbers h).mem, Smooth, Int.toNat_natCast,
    Nat.smoothNumbers_eq_factoredNumbers_primesBelow]

theorem pairwise_smoothNumbers (h : 1 ≤ limit ∨ 2 ≤ bound) :
    (smoothNumbers bound limit).Pairwise (· < ·) := by
  have hle : (smoothNumbers bound limit).Pairwise (· ≤ ·) := pairwise_insertionSort _ _
  exact (hle.and (closed_smoothNumbers h).nodup).imp fun ⟨h, hne⟩ => lt_of_le_of_ne h hne

/-! ### The searches -/

section Search

variable {table : List ℕ} (hT : table.Pairwise (· < ·))

include hT

/-- `bisect_right` less one: the last entry up to a bound. -/
theorem last_upTo {b : ℤ} (hex : ∃ v ∈ table, (v : ℤ) ≤ b) :
    ∃ v : ℕ, table[(table.takeWhile fun (v : ℕ) => (v : ℤ) ≤ b).length - 1]? = some v ∧
      v ∈ table ∧ (v : ℤ) ≤ b ∧ ∀ w ∈ table, (w : ℤ) ≤ b → w ≤ v := by
  induction table with
  | nil => simp at hex
  | cons x table ih =>
    obtain ⟨hx, hT⟩ := pairwise_cons.1 hT
    have hxb : (x : ℤ) ≤ b := by
      obtain ⟨v, hv, hvb⟩ := hex
      rcases mem_cons.1 hv with rfl | hv
      · exact hvb
      · have := hx v hv
        omega
    rw [takeWhile_cons_of_pos (by simpa using hxb), length_cons, Nat.add_sub_cancel]
    cases table with
    | nil => exact ⟨x, rfl, .head _, hxb, by simp⟩
    | cons y table =>
      obtain ⟨hy, -⟩ := pairwise_cons.1 hT
      by_cases hyb : (y : ℤ) ≤ b
      · obtain ⟨v, hget, hv, hvb, hmax⟩ := ih hT ⟨y, .head _, hyb⟩
        rw [takeWhile_cons_of_pos (by simpa using hyb), length_cons] at hget ⊢
        refine ⟨v, hget, .tail _ hv, hvb, fun w hw hwb => ?_⟩
        rcases mem_cons.1 hw with rfl | hw
        · exact (hx v hv).le
        · exact hmax w hw hwb
      · rw [takeWhile_cons_of_neg (by simpa using hyb)]
        refine ⟨x, rfl, .head _, hxb, fun w hw hwb => ?_⟩
        -- every entry but the first is beyond the bound
        rcases mem_cons.1 hw with rfl | hw
        · exact le_rfl
        · rcases mem_cons.1 hw with rfl | hw
          · exact absurd hwb hyb
          · have := hy w hw
            omega

/-- `bisect_left`: the first entry from a bound on, if there is one. -/
theorem first_from (b : ℤ) :
    match table[(table.takeWhile fun (v : ℕ) => (v : ℤ) < b).length]? with
    | some v => v ∈ table ∧ b ≤ v ∧ ∀ w ∈ table, b ≤ (w : ℤ) → v ≤ w
    | none => ∀ w ∈ table, (w : ℤ) < b := by
  induction table with
  | nil => simp
  | cons x table ih =>
    obtain ⟨hx, hT⟩ := pairwise_cons.1 hT
    by_cases hxb : (x : ℤ) < b
    · have := ih hT
      rw [takeWhile_cons_of_pos (by simpa using hxb), length_cons,
        getElem?_cons_succ]
      split at this
      next v heq =>
        obtain ⟨hv, hbv, hmin⟩ := this
        refine ⟨.tail _ hv, hbv, fun w hw hbw => ?_⟩
        rcases mem_cons.1 hw with rfl | hw
        · omega
        · exact hmin w hw hbw
      next heq => exact forall_mem_cons.2 ⟨hxb, this⟩
    · rw [takeWhile_cons_of_neg (by simpa using hxb)]
      refine ⟨.head _, not_lt.1 hxb, fun w hw _ => ?_⟩
      rcases mem_cons.1 hw with rfl | hw
      · exact le_rfl
      · exact (hx w hw).le

end Search

/-- The entry `snap_smooth` returns: the largest smooth number up to `value`, else the smallest from
`lo` on, else the largest up to `value` or 1. -/
inductive Snapped (bound value lo hi m : ℤ) : Prop
  | below (hlo : lo ≤ m) (h : IsGreatest {n | Smooth bound n ∧ n ≤ max 1 value} m)
  | above (hnone : ∀ n, Smooth bound n → n ≤ max 1 value → n < lo) (hhi : m ≤ hi)
      (h : IsLeast {n | Smooth bound n ∧ lo ≤ n} m)
  | outside (hnone : ∀ n, Smooth bound n → n < lo ∨ hi < n)
      (h : IsGreatest {n | Smooth bound n ∧ n ≤ max 1 value} m)

theorem snapSmooth_spec {value lo hi : ℤ} (hhi : value ≤ hi) :
    ∃ m, snapSmooth value lo hi bound = .ok m ∧ Snapped bound value lo hi m := by
  have hlimit : 1 ≤ (max 1 (max hi value)).toNat ∨ 2 ≤ bound := by omega
  have hmem (m : ℕ) := mem_smoothNumbers (m := m) hlimit
  have hT := pairwise_smoothNumbers hlimit
  simp only [snapSmooth]
  generalize smoothNumbers bound (max 1 (max hi value)).toNat = table at hmem hT
  have hsmooth {n : ℤ} (hn : Smooth bound n) (hle : n ≤ max 1 (max hi value)) :
      ∃ w ∈ table, (w : ℤ) = n := by
    have := hn.pos
    refine ⟨n.toNat, (hmem _).2 ⟨by omega, ?_⟩, by omega⟩
    rwa [Int.toNat_of_nonneg (by omega)]
  obtain ⟨one, hone, hone1⟩ := hsmooth smooth_one (by omega)
  obtain ⟨below, hget, hbelow, hle, hmax⟩ :=
    last_upTo hT (b := max 1 value) ⟨one, hone, by omega⟩
  have hgreatest : IsGreatest {n | Smooth bound n ∧ n ≤ max 1 value} (below : ℤ) := by
    refine ⟨⟨((hmem _).1 hbelow).2, hle⟩, ?_⟩
    rintro n ⟨hn, hnle⟩
    obtain ⟨w, hw, rfl⟩ := hsmooth hn (by omega)
    exact_mod_cast hmax w hw hnle
  rw [hget]
  by_cases hlb : lo ≤ (below : ℤ)
  · exact ⟨below, if_pos hlb, .below hlb hgreatest⟩
  have hfirst := first_from hT lo
  have hnone : ∀ n, Smooth bound n → n ≤ max 1 value → n < lo := fun n hn hle => by
    have := hgreatest.2 ⟨hn, hle⟩
    omega
  have hout (hno : ∀ w ∈ table, (w : ℤ) < lo ∨ hi < w) (n : ℤ) (hn : Smooth bound n) :
      n < lo ∨ hi < n := by
    by_cases hnl : n ≤ max 1 (max hi value)
    · obtain ⟨w, hw, rfl⟩ := hsmooth hn hnl
      exact hno w hw
    · omega
  cases hfrom : table[(table.takeWhile fun (v : ℕ) => (v : ℤ) < lo).length]? with
  | some v =>
    rw [hfrom] at hfirst
    obtain ⟨hv, hlv, hmin⟩ := hfirst
    by_cases hvh : (v : ℤ) ≤ hi
    · refine ⟨v, (if_neg hlb).trans ?_, .above hnone hvh ⟨⟨((hmem _).1 hv).2, hlv⟩, ?_⟩⟩
      · simp only [if_pos hvh]
        rfl
      · rintro n ⟨hn, hln⟩
        by_cases hnh : n ≤ hi
        · obtain ⟨w, hw, rfl⟩ := hsmooth hn (by omega)
          exact_mod_cast hmin w hw hln
        · omega
    · refine ⟨below, (if_neg hlb).trans ?_, .outside (hout fun w hw => ?_) hgreatest⟩
      · simp only [if_neg hvh]
        rfl
      · by_cases hlw : lo ≤ (w : ℤ)
        · have := hmin w hw hlw
          omega
        · omega
  | none =>
    rw [hfrom] at hfirst
    exact ⟨below, (if_neg hlb).trans rfl, .outside (hout fun w hw => .inl (hfirst w hw)) hgreatest⟩

/-- **The table lists exactly the smooth numbers up to its limit, ascending, each once, for every
limit from 1 on and every bound from 2 on.  A draw moves to the largest smooth number up to it when
the interval holds that one, else to the smallest one of the interval; without one in the interval,
to the largest up to the draw or 1.** -/
theorem smooth_table_and_snap (bound : ℤ) :
    (∀ limit : ℤ, 1 ≤ limit ∨ 2 ≤ bound →
      (smoothNumbers bound limit.toNat).Pairwise (· < ·) ∧
        ∀ n : ℕ, n ∈ smoothNumbers bound limit.toNat ↔ (n : ℤ) ≤ limit ∧ Smooth bound n) ∧
    ∀ lo value hi : ℤ, lo ≤ value → value ≤ hi →
      ∃ m, snapSmooth value lo hi bound = .ok m ∧ Smooth bound m ∧
        ((∃ n, Smooth bound n ∧ lo ≤ n ∧ n ≤ hi) → lo ≤ m ∧ m ≤ hi ∧
          (IsGreatest {n | Smooth bound n ∧ n ≤ value} m ∨
            (∀ n, Smooth bound n → n ≤ value → n < lo) ∧
              IsLeast {n | Smooth bound n ∧ lo ≤ n} m)) ∧
        ((∀ n, Smooth bound n → n < lo ∨ hi < n) →
          IsGreatest {n | Smooth bound n ∧ n ≤ max 1 value} m) := by
  refine ⟨fun limit hl => ⟨pairwise_smoothNumbers (by omega), fun n => ?_⟩,
    fun lo value hi hlo hhi => ?_⟩
  · rw [mem_smoothNumbers (by omega)]
    refine and_congr_left fun hn => ?_
    have := hn.pos
    omega
  obtain ⟨m, hm, hsnap⟩ := @snapSmooth_spec bound value lo hi hhi
  refine ⟨m, hm, ?_⟩
  cases hsnap with
  | below hlm h =>
    have hpos := h.1.1.pos
    refine ⟨h.1.1, fun ⟨n, hn, hln, hnh⟩ => ?_, fun _ => h⟩
    have hn1 := hn.pos
    have hle := h.1.2
    refine ⟨hlm, by omega, ?_⟩
    by_cases hv : 1 ≤ value
    · rw [max_eq_right hv] at h
      exact .inl h
    · -- below 1 nothing is smooth, and 1 is the first
      refine .inr ⟨fun n hn hnv => ?_, ⟨h.1.1, hlm⟩, fun n hn => ?_⟩
      · have := hn.pos
        omega
      · have := hn.1.pos
        omega
  | above hnone hmh h =>
    refine ⟨h.1.1, fun _ => ⟨h.1.2, hmh, .inr ⟨fun n hn hnv => ?_, h⟩⟩, fun hno => ?_⟩
    · exact hnone n hn (by omega)
    · have := hno m h.1.1
      have := h.1.2
      omega
  | outside hno h =>
    refine ⟨h.1.1, fun ⟨n, hn, hln, hnh⟩ => ?_, fun _ => h⟩
    have := hno n hn
    omega

theorem smooth_table_and_snap_draw :
    ∃ m, snapSmooth 11 1 20 5 = .ok m ∧ Smooth 5 m ∧ 1 ≤ m ∧ m ≤ 20 := by
  obtain ⟨m, hm, hs, hin, -⟩ := (smooth_table_and_snap 5).2 1 11 20 (by decide) (by decide)
  have hmem := hin ⟨1, smooth_one, by decide, by decide⟩
  exact ⟨m, hm, hs, hmem.1, hmem.2.1⟩

/-- With no prime up to the bound the table is its start also past its limit, and an interval
without a smooth number is left. -/
theorem smooth_past_limit :
    (∃ n ∈ smoothNumbers 1 0, ¬ n ≤ 0) ∧ ∃ m, snapSmooth 11 11 11 1 = .ok m ∧ ¬ 11 ≤ m :=
  ⟨⟨1, by decide, by decide⟩, 1, by decide, by decide⟩

end Fuzz

end HpcAgentBench
