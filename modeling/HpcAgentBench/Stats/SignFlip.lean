import HpcAgentBench.Lib.Bisect

/-!
# The sign-flip test and its interval

`sign_flip_pvalue` compares the mean of paired differences with the means under a family of sign
vectors, and `sign_flip_interval` bisects for the shifts the test does not reject.  Every number is
an exact rational here, and the tolerance of the comparison is a parameter.

## Main results

* `Stats.signFlipPvalue_anti` : the p value never increases away from the mean.
* `Stats.not_accepts_outer` : the ends the bisection starts from are rejected.
* `Stats.signFlipInterval_inverts` : the interval inverts the test.
* `Stats.signFlip_agrees` : the reported p value and interval agree.
-/

namespace HpcAgentBench

open List

namespace Stats

/-! ### The code -/

/-- `np.mean`. -/
def mean (x : List ℚ) : ℚ := x.sum / x.length

/-- One row of `flips @ x`. -/
def dot (s x : List ℚ) : ℚ := (zipWith (· * ·) s x).sum

/-- `x - delta`. -/
def shift (x : List ℚ) (δ : ℚ) : List ℚ := x.map (· - δ)

/-- `np.mean` of a comparison: the share of the elements it holds of. -/
def share {α : Type*} (p : α → Bool) (l : List α) : ℚ := l.countP p / l.length

/-- `SIGN_FLIP_EXACT_MAX_N`. -/
def signFlipExactMaxN : ℕ := 16

/-- `sign_flips`; `drawn` are the rows `default_rng(seed)` draws. -/
def signFlips (drawn : ℕ → List (List ℚ)) (n : ℕ) : List (List ℚ) :=
  if n ≤ signFlipExactMaxN then
    (List.range (2 ^ n)).map fun i => (List.range n).map fun j => if i.testBit j then -1 else 1
  else replicate n 1 :: drawn n

/-- `sign_flip_pvalue`; `tol` is the tolerance of its comparison. -/
def signFlipPvalue (tol : ℚ) (differences : List ℚ) (flips : List (List ℚ)) : ℚ :=
  let observed := |mean differences|
  let flipped := flips.map fun s => |dot s differences| / differences.length
  share (fun f => decide (observed - tol * max observed 1 ≤ f)) flipped

/-- The test does not reject the differences shifted by `δ`. -/
def accepts (tol alpha : ℚ) (x : List ℚ) (flips : List (List ℚ)) (δ : ℚ) : Bool :=
  decide (alpha < signFlipPvalue tol (shift x δ) flips)

/-- `edge` of `sign_flip_interval`. -/
def edge (tol alpha : ℚ) (x : List ℚ) (flips : List (List ℚ)) (outer : ℚ) : ℚ :=
  (Bisect.bisect (accepts tol alpha x flips) 60 (mean x) outer).1

/-- `np.min(x) - span`, where the lower bisection starts. -/
def outerLow (least greatest : ℚ) : ℚ := least - (greatest - least)

/-- `np.max(x) + span`, where the upper bisection starts. -/
def outerHigh (least greatest : ℚ) : ℚ := greatest + (greatest - least)

/-- `sign_flip_interval`; `none` is the error of `np.min` on no differences. -/
def signFlipInterval (tol : ℚ) (x : List ℚ) (flips : List (List ℚ)) (alpha : ℚ) :
    Option (ℚ × ℚ) := do
  let least ← x.min?
  let greatest ← x.max?
  return (edge tol alpha x flips (outerLow least greatest),
    edge tol alpha x flips (outerHigh least greatest))

/-- `MIN_PAIRS_FOR_INTERVAL`. -/
def minPairsForInterval : ℕ := 6

/-- The variant of a paired test that ran. -/
inductive Method where
  | degenerate
  | underpowered
  | signFlipExact
  | signFlipSampled
  deriving DecidableEq, Repr

/-- `Result` without the registry's stamps; `none` is NaN. -/
structure Result where
  estimate : Option ℚ
  statistic : Option ℚ
  pvalue : Option ℚ
  low : Option ℚ
  high : Option ℚ
  n : ℕ
  method : Method
  deriving DecidableEq, Repr

/-- `mean_of`. -/
def meanOf (x : List ℚ) : Option ℚ := if x = [] then none else some (mean x)

/-- `floor`: the refusals of a mean-based paired test. -/
def floor (x : List ℚ) (estimate : Option ℚ) : Option Result :=
  if x.length = 0 then some ⟨none, none, none, none, none, 0, .degenerate⟩
  else if x.length < minPairsForInterval then
    some ⟨estimate, none, none, none, none, x.length, .underpowered⟩
  else if x.min? = x.max? then some ⟨estimate, none, none, none, none, x.length, .degenerate⟩
  else none

/-- `sign_flip`; `none` is the error of `np.min` on no differences. -/
def signFlip (drawn : ℕ → List (List ℚ)) (tol : ℚ) (logRatios : List ℚ) (alpha : ℚ) :
    Option Result := do
  let point := meanOf logRatios
  match floor logRatios point with
  | some refused => return refused
  | none =>
    let n := logRatios.length
    let flips := signFlips drawn n
    let (low, high) ← signFlipInterval tol logRatios flips alpha
    let method := if n ≤ signFlipExactMaxN then .signFlipExact else .signFlipSampled
    return ⟨point, point, some (signFlipPvalue tol logRatios flips), some low, some high, n, method⟩

/-! ### Families of sign vectors -/

/-- `v` is a vector of `n` signs. -/
structure IsSigns (n : ℕ) (s : List ℚ) : Prop where
  length_eq : s.length = n
  sign : ∀ v ∈ s, v = 1 ∨ v = -1

/-- A family of sign vectors on `n` pairs that has the identity. -/
structure Family (n : ℕ) (flips : List (List ℚ)) : Prop where
  signs : ∀ s ∈ flips, IsSigns n s
  identity : replicate n 1 ∈ flips

/-- The vector flips nothing, or everything. -/
def flipsAlike (n : ℕ) (s : List ℚ) : Bool :=
  s == replicate n 1 || s == replicate n (-1)

variable {drawn : ℕ → List (List ℚ)} {n : ℕ} {s : List ℚ} {δ δ' : ℚ} {α : Type*} {alpha : ℚ}
variable {y : List ℚ} {outer : ℚ}

/-- The enumerated and the drawn family are both families when every drawn row is one of signs. -/
theorem family_signFlips (hdrawn : ∀ s ∈ drawn n, IsSigns n s) : Family n (signFlips drawn n) := by
  rw [signFlips]
  split
  · refine ⟨?_, ?_⟩
    · intro s hs
      obtain ⟨i, -, rfl⟩ := mem_map.mp hs
      refine ⟨by simp, ?_⟩
      intro v hv
      obtain ⟨j, -, rfl⟩ := mem_map.mp hv
      split
      · exact .inr rfl
      · exact .inl rfl
    · refine mem_map.mpr ⟨0, by simp, ?_⟩
      simp [map_const']
  · refine ⟨?_, mem_cons_self⟩
    intro s hs
    rcases mem_cons.mp hs with rfl | hs
    · exact ⟨by simp, fun v hv => .inl (eq_of_mem_replicate hv)⟩
    · exact hdrawn s hs

/-! ### Shifted and flipped sums -/

theorem sum_shift (x : List ℚ) (δ : ℚ) : (shift x δ).sum = x.sum - x.length * δ := by
  induction x with
  | nil => simp [shift]
  | cons a x ih =>
    simp only [shift, map_cons, sum_cons, length_cons, Nat.cast_add,
      Nat.cast_one] at ih ⊢
    rw [ih]
    ring

theorem dot_shift {x : List ℚ} (h : s.length = x.length) (δ : ℚ) :
    dot s (shift x δ) = dot s x - s.sum * δ := by
  induction s generalizing x with
  | nil => simp [dot]
  | cons v s ih =>
    cases x with
    | nil => simp at h
    | cons a x =>
      have hrec := ih (x := x) (by simpa using h)
      simp only [dot, shift, map_cons, zipWith_cons_cons, sum_cons] at hrec ⊢
      rw [hrec]
      ring

theorem abs_sum_le (h : IsSigns n s) : |s.sum| ≤ n := by
  obtain ⟨rfl, hs⟩ := h
  induction s with
  | nil => simp
  | cons v s ih =>
    have hrest := ih fun w hw => hs w (mem_cons_of_mem v hw)
    have hv : |v| = 1 := by
      rcases hs v mem_cons_self with rfl | rfl <;> simp
    rw [sum_cons, length_cons, Nat.cast_add, Nat.cast_one]
    linarith [abs_add_le v s.sum]

/-- The mean of shifted differences. -/
theorem mean_shift {x : List ℚ} (hx : x ≠ []) (δ : ℚ) : mean (shift x δ) = mean x - δ := by
  have hlen : (x.length : ℚ) ≠ 0 := by simpa using hx
  have hshift : (shift x δ).length = x.length := length_map ..
  rw [mean, mean, sum_shift, hshift, sub_div, mul_div_cancel_left₀ _ hlen]

/-- A flipped mean that reaches the observed one at some shift reaches it at every shift nearer
to the mean: a step back moves the observed mean by the step, and the flipped one by at most as
much. -/
theorem reaches_of_nearer {m M σ : ℚ} (hσ : |σ| ≤ 1) (hnear : |m - δ| + |δ - δ'| = |m - δ'|)
    (h : |m - δ'| ≤ |M - σ * δ'|) :
    |m - δ| ≤ |M - σ * δ| := by
  have hmove : |M - σ * δ'| ≤ |M - σ * δ| + |δ - δ'| := by
    have hsplit : M - σ * δ' = (M - σ * δ) + σ * (δ - δ') := by ring
    have hfactor : |σ * (δ - δ')| ≤ |δ - δ'| := by
      rw [abs_mul]
      exact mul_le_of_le_one_left (abs_nonneg _) hσ
    calc |M - σ * δ'| = |(M - σ * δ) + σ * (δ - δ')| := by rw [hsplit]
      _ ≤ |M - σ * δ| + |σ * (δ - δ')| := abs_add_le _ _
      _ ≤ |M - σ * δ| + |δ - δ'| := by linarith
  linarith

/-! ### The p value -/

theorem share_mono {p q : α → Bool} {l : List α} (h : ∀ a ∈ l, p a = true → q a = true) :
    share p l ≤ share q l := by
  have hcount : l.countP p ≤ l.countP q := countP_mono_left h
  exact div_le_div_of_nonneg_right (by exact_mod_cast hcount) (by positivity)

theorem share_map {β : Type*} (p : β → Bool) (f : α → β) (l : List α) :
    share p (l.map f) = share (p ∘ f) l := by
  rw [share, share, countP_map, length_map]

/-- With no tolerance, the p value is the share of vectors whose flipped mean reaches the
observed one. -/
theorem signFlipPvalue_zero (x : List ℚ) (flips : List (List ℚ)) :
    signFlipPvalue 0 x flips =
      share (fun s => decide (|mean x| ≤ |dot s x| / x.length)) flips := by
  simp only [signFlipPvalue, zero_mul, sub_zero, share_map, Function.comp_def]

/-- The flipped mean of shifted differences. -/
theorem abs_dot_shift {x : List ℚ} (hs : IsSigns x.length s) (δ : ℚ) :
    |dot s (shift x δ)| / (shift x δ).length =
      |dot s x / x.length - s.sum / x.length * δ| := by
  have hshift : (shift x δ).length = x.length := length_map ..
  rw [hshift, dot_shift hs.length_eq, div_mul_eq_mul_div, ← sub_div, abs_div, Nat.abs_cast]

variable {x : List ℚ} {flips : List (List ℚ)}

/-- **The p value never increases as the shift moves away from the mean**, on either side. -/
theorem pvalue_le_of_nearer (hx : x ≠ []) (hsigns : ∀ s ∈ flips, IsSigns x.length s)
    (hnear : |mean x - δ| + |δ - δ'| = |mean x - δ'|) :
    signFlipPvalue 0 (shift x δ') flips ≤ signFlipPvalue 0 (shift x δ) flips := by
  rw [signFlipPvalue_zero, signFlipPvalue_zero]
  refine share_mono fun s hs => ?_
  have hlen : (0 : ℚ) < x.length := by exact_mod_cast length_pos_iff.mpr hx
  have hσ : |s.sum / x.length| ≤ 1 := by
    rw [abs_div, Nat.abs_cast, div_le_one hlen]
    exact abs_sum_le (hsigns s hs)
  rw [decide_eq_true_iff, decide_eq_true_iff, abs_dot_shift (hsigns s hs),
    abs_dot_shift (hsigns s hs), mean_shift hx, mean_shift hx]
  exact reaches_of_nearer hσ hnear

theorem signFlipPvalue_anti_above (hx : x ≠ []) (hsigns : ∀ s ∈ flips, IsSigns x.length s)
    (h : mean x ≤ δ) (h' : δ ≤ δ') :
    signFlipPvalue 0 (shift x δ') flips ≤ signFlipPvalue 0 (shift x δ) flips := by
  refine pvalue_le_of_nearer hx hsigns ?_
  rw [abs_of_nonpos (by linarith), abs_of_nonpos (by linarith), abs_of_nonpos (by linarith)]
  ring

theorem signFlipPvalue_anti_below (hx : x ≠ []) (hsigns : ∀ s ∈ flips, IsSigns x.length s)
    (h : δ ≤ mean x) (h' : δ' ≤ δ) :
    signFlipPvalue 0 (shift x δ') flips ≤ signFlipPvalue 0 (shift x δ) flips := by
  refine pvalue_le_of_nearer hx hsigns ?_
  rw [abs_of_nonneg (by linarith), abs_of_nonneg (by linarith), abs_of_nonneg (by linarith)]
  ring

/-- At the mean every vector reaches the observed mean, which is 0. -/
theorem accepts_mean (hx : x ≠ []) (hflips : flips ≠ []) (ha : alpha < 1) :
    accepts 0 alpha x flips (mean x) = true := by
  have hlen : (flips.length : ℚ) ≠ 0 := by simpa using hflips
  have hall : ∀ s ∈ flips, decide (|mean (shift x (mean x))| ≤
      |dot s (shift x (mean x))| / (shift x (mean x)).length) = true := by
    intro s _
    rw [mean_shift hx, sub_self, abs_zero, decide_eq_true_iff]
    positivity
  rw [accepts, decide_eq_true_iff, signFlipPvalue_zero, share, countP_eq_length.mpr hall,
    div_self hlen]
  exact ha

/-! ### The outer ends -/

/-- Differences of one sign have a flipped sum as large as their own only when all are flipped
alike. -/
theorem eq_replicate_of_sum_le (hs : ∀ v ∈ s, v = 1 ∨ v = -1) (hlen : s.length = y.length)
    (hpos : ∀ a ∈ y, 0 < a) :
    dot s y ≤ y.sum ∧ (y.sum ≤ dot s y → s = replicate y.length 1) := by
  induction s generalizing y with
  | nil =>
    obtain rfl : y = [] := by simpa using hlen.symm
    simp [dot]
  | cons v s ih =>
    cases y with
    | nil => simp at hlen
    | cons a y =>
      have ha := hpos a mem_cons_self
      obtain ⟨hle, heq⟩ := ih (fun w hw => hs w (mem_cons_of_mem v hw))
        (by simpa using hlen) fun b hb => hpos b (mem_cons_of_mem a hb)
      simp only [dot, zipWith_cons_cons, sum_cons, length_cons,
        replicate_succ] at hle heq ⊢
      rcases hs v mem_cons_self with rfl | rfl
      · refine ⟨by linarith, fun h => ?_⟩
        rw [heq (by linarith)]
      · exact ⟨by linarith, fun h => absurd h (by linarith)⟩

theorem dot_neg_left (s y : List ℚ) : dot (s.map (-·)) y = -dot s y := by
  induction s generalizing y with
  | nil => simp [dot]
  | cons v s ih =>
    cases y with
    | nil => simp [dot]
    | cons a y =>
      have hrec := ih y
      simp only [dot, map_cons, zipWith_cons_cons, sum_cons] at hrec ⊢
      rw [hrec]
      ring

theorem dot_neg_right (s y : List ℚ) : dot s (y.map (-·)) = -dot s y := by
  induction s generalizing y with
  | nil => simp [dot]
  | cons v s ih =>
    cases y with
    | nil => simp [dot]
    | cons a y =>
      have hrec := ih y
      simp only [dot, map_cons, zipWith_cons_cons, sum_cons] at hrec ⊢
      rw [hrec]
      ring

/-- On differences above 0 only the vectors that flip all alike reach the observed mean. -/
theorem flipsAlike_of_pos (hs : IsSigns y.length s) (hpos : ∀ a ∈ y, 0 < a)
    (h : |y.sum| ≤ |dot s y|) : flipsAlike y.length s = true := by
  have hneg : ∀ v ∈ s.map (-·), v = 1 ∨ v = -1 := by
    intro v hv
    obtain ⟨w, hw, rfl⟩ := mem_map.mp hv
    rcases hs.sign w hw with rfl | rfl
    · exact .inr rfl
    · exact .inl (neg_neg 1)
  obtain ⟨-, hid⟩ := eq_replicate_of_sum_le hs.sign hs.length_eq hpos
  obtain ⟨-, hall⟩ := eq_replicate_of_sum_le hneg (by simpa using hs.length_eq) hpos
  have hsum := h.trans' (le_abs_self _)
  simp only [flipsAlike, Bool.or_eq_true, beq_iff_eq]
  rcases le_abs.mp hsum with hle | hle
  · exact .inl (hid hle)
  · right
    have := hall (by rw [dot_neg_left]; exact hle)
    have hback : s = (s.map (-·)).map (-·) := by simp
    rw [hback, this, map_replicate]

theorem flipsAlike_of_neg (hs : IsSigns y.length s) (hneg : ∀ a ∈ y, a < 0)
    (h : |y.sum| ≤ |dot s y|) : flipsAlike y.length s = true := by
  have hlen : (y.map (-·)).length = y.length := length_map ..
  have hsum : (y.map (-·)).sum = -y.sum := (sum_neg y).symm
  rw [← hlen] at hs ⊢
  refine flipsAlike_of_pos hs ?_ ?_
  · intro a ha
    obtain ⟨b, hb, rfl⟩ := mem_map.mp ha
    exact neg_pos.mpr (hneg b hb)
  · rw [hsum, dot_neg_right, abs_neg, abs_neg]
    exact h

/-- Where the shifted differences have one sign, only the vectors that flip all alike count. -/
theorem pvalue_le_flipsAlike (hsigns : ∀ s ∈ flips, IsSigns x.length s)
    (hside : (∀ a ∈ x, δ < a) ∨ ∀ a ∈ x, a < δ) :
    signFlipPvalue 0 (shift x δ) flips ≤ share (flipsAlike x.length) flips := by
  have hshift : (shift x δ).length = x.length := length_map ..
  rw [signFlipPvalue_zero]
  refine share_mono fun s hs hreach => ?_
  rw [decide_eq_true_iff, mean, abs_div, Nat.abs_cast] at hreach
  have hsum : |(shift x δ).sum| ≤ |dot s (shift x δ)| := by
    rcases x with _ | ⟨a, x⟩
    · simp [shift]
    · have hpos : (0 : ℚ) < (shift (a :: x) δ).length := by simp [shift]; positivity
      exact (div_le_div_iff_of_pos_right hpos).mp hreach
  have hs' : IsSigns (shift x δ).length s := hshift ▸ hsigns s hs
  rw [← hshift]
  rcases hside with hpos | hneg
  · refine flipsAlike_of_pos hs' (fun b hb => ?_) hsum
    obtain ⟨a, ha, rfl⟩ := mem_map.mp hb
    exact sub_pos.mpr (hpos a ha)
  · refine flipsAlike_of_neg hs' (fun b hb => ?_) hsum
    obtain ⟨a, ha, rfl⟩ := mem_map.mp hb
    exact sub_neg.mpr (hneg a ha)

/-- A shift below or above all differences is rejected, unless flipping all alike is common. -/
theorem not_accepts_outside (hsigns : ∀ s ∈ flips, IsSigns x.length s) {alpha δ : ℚ}
    (halike : share (flipsAlike x.length) flips ≤ alpha)
    (hside : (∀ a ∈ x, δ < a) ∨ ∀ a ∈ x, a < δ) : accepts 0 alpha x flips δ = false := by
  rw [accepts, decide_eq_false_iff_not, not_lt]
  exact (pvalue_le_flipsAlike hsigns hside).trans halike

/-! ### The interval -/

/-- The shifts the test does not reject. -/
def accepted (alpha : ℚ) (x : List ℚ) (flips : List (List ℚ)) : Set ℚ :=
  {δ | accepts 0 alpha x flips δ = true}

theorem accepts_of_nearer_above (hx : x ≠ []) (hsigns : ∀ s ∈ flips, IsSigns x.length s)
    (h : mean x ≤ δ) (h' : δ ≤ δ') (hacc : accepts 0 alpha x flips δ' = true) :
    accepts 0 alpha x flips δ = true := by
  rw [accepts, decide_eq_true_iff] at hacc ⊢
  exact hacc.trans_le (signFlipPvalue_anti_above hx hsigns h h')

theorem accepts_of_nearer_below (hx : x ≠ []) (hsigns : ∀ s ∈ flips, IsSigns x.length s)
    (h : δ' ≤ δ) (h' : δ ≤ mean x) (hacc : accepts 0 alpha x flips δ' = true) :
    accepts 0 alpha x flips δ = true := by
  rw [accepts, decide_eq_true_iff] at hacc ⊢
  exact hacc.trans_le (signFlipPvalue_anti_below hx hsigns h' h)

/-- The shifts not rejected have no gap: between two of them every shift is nearer to the mean
than one of the two. -/
theorem ordConnected_accepted (hx : x ≠ []) (hsigns : ∀ s ∈ flips, IsSigns x.length s)
    (alpha : ℚ) : (accepted alpha x flips).OrdConnected := by
  refine ⟨fun a ha b hb c hc => ?_⟩
  rcases le_total c (mean x) with hle | hge
  · exact accepts_of_nearer_below hx hsigns hc.1 hle ha
  · exact accepts_of_nearer_above hx hsigns hge hc.2 hb

/-- The mean lies between the least and the greatest difference. -/
theorem mean_between (hx : x ≠ []) {least greatest : ℚ} (hleast : ∀ a ∈ x, least ≤ a)
    (hgreatest : ∀ a ∈ x, a ≤ greatest) : least ≤ mean x ∧ mean x ≤ greatest := by
  have hlen : (0 : ℚ) < x.length := by exact_mod_cast length_pos_iff.mpr hx
  have hlow := card_nsmul_le_sum x least hleast
  have hhigh := sum_le_card_nsmul x greatest hgreatest
  rw [nsmul_eq_mul] at hlow hhigh
  rw [mean, le_div_iff₀ hlen, div_le_iff₀ hlen]
  exact ⟨by linarith, by linarith⟩

/-- The last step of a bisection that starts from `outer`. -/
def lastStep (x : List ℚ) (outer : ℚ) : ℚ := |outer - mean x| / 2 ^ 60

/-- The shifts not rejected, on the real line. -/
def acceptedReal (alpha : ℚ) (x : List ℚ) (flips : List (List ℚ)) : Set ℝ :=
  {r | ∃ δ ∈ accepted alpha x flips, (δ : ℝ) = r}

theorem accepts_edge (hx : x ≠ []) (hflips : flips ≠ []) (ha : alpha < 1) (outer : ℚ) :
    edge 0 alpha x flips outer ∈ accepted alpha x flips :=
  Bisect.accept_inner (accepts_mean hx hflips ha)

/-- No accepted shift is more than the last step above the end returned for a rejected outer
end. -/
theorem le_edge_add (hx : x ≠ []) (hsigns : ∀ s ∈ flips, IsSigns x.length s) (hle : mean x ≤ outer)
    (hout : accepts 0 alpha x flips outer = false) (hδ : δ ∈ accepted alpha x flips) :
    δ ≤ edge 0 alpha x flips outer + lastStep x outer := by
  by_contra hlt
  have hrej := Bisect.reject_above (n := 60) hle hout
    (fun a b h h' hb => accepts_of_nearer_above hx hsigns h h' hb) (b := δ) (by
      rw [lastStep, abs_of_nonneg (by linarith)] at hlt
      exact (not_le.mp hlt).le)
  rw [show accepts 0 alpha x flips δ = true from hδ] at hrej
  cases hrej

theorem edge_sub_le (hx : x ≠ []) (hsigns : ∀ s ∈ flips, IsSigns x.length s) (hle : outer ≤ mean x)
    (hout : accepts 0 alpha x flips outer = false) (hδ : δ ∈ accepted alpha x flips) :
    edge 0 alpha x flips outer - lastStep x outer ≤ δ := by
  by_contra hlt
  have hrej := Bisect.reject_below (n := 60) hle hout
    (fun a b h h' hb => accepts_of_nearer_below hx hsigns h h' hb) (b := δ) (by
      rw [lastStep, abs_of_nonpos (by linarith), neg_div, sub_neg_eq_add] at hlt
      exact (not_le.mp hlt).le)
  rw [show accepts 0 alpha x flips δ = true from hδ] at hrej
  cases hrej

theorem edge_mem_acceptedReal (hx : x ≠ []) (hflips : flips ≠ []) (ha : alpha < 1) (outer : ℚ) :
    (edge 0 alpha x flips outer : ℝ) ∈ acceptedReal alpha x flips :=
  ⟨_, accepts_edge hx hflips ha outer, rfl⟩

/-- Above, the returned end is the boundary of the accepted shifts up to the last step. -/
theorem edge_high_spec (hx : x ≠ []) (hf : Family x.length flips) (ha : alpha < 1)
    (hle : mean x ≤ outer) (hout : accepts 0 alpha x flips outer = false) :
    |(edge 0 alpha x flips outer : ℝ) - sSup (acceptedReal alpha x flips)| ≤
      (lastStep x outer : ℝ) := by
  have hmem := edge_mem_acceptedReal hx (ne_nil_of_mem hf.identity) ha outer
  have hbound : ∀ δ ∈ acceptedReal alpha x flips,
      δ ≤ (edge 0 alpha x flips outer : ℝ) + (lastStep x outer : ℝ) := by
    rintro _ ⟨δ, hδ, rfl⟩
    exact_mod_cast le_edge_add hx hf.signs hle hout hδ
  have hupper := csSup_le ⟨_, hmem⟩ hbound
  have hlower := le_csSup ⟨_, hbound⟩ hmem
  rw [abs_of_nonpos (by linarith)]
  linarith

/-- Below, the returned end is the boundary of the accepted shifts up to the last step. -/
theorem edge_low_spec (hx : x ≠ []) (hf : Family x.length flips) (ha : alpha < 1)
    (hle : outer ≤ mean x) (hout : accepts 0 alpha x flips outer = false) :
    |(edge 0 alpha x flips outer : ℝ) - sInf (acceptedReal alpha x flips)| ≤
      (lastStep x outer : ℝ) := by
  have hmem := edge_mem_acceptedReal hx (ne_nil_of_mem hf.identity) ha outer
  have hbound : ∀ δ ∈ acceptedReal alpha x flips,
      (edge 0 alpha x flips outer : ℝ) - (lastStep x outer : ℝ) ≤ δ := by
    rintro _ ⟨δ, hδ, rfl⟩
    exact_mod_cast edge_sub_le hx hf.signs hle hout hδ
  have hlower := le_csInf ⟨_, hmem⟩ hbound
  have hupper := csInf_le ⟨_, hbound⟩ hmem
  rw [abs_of_nonneg (by linarith)]
  linarith

/-- Differences that are not all equal have a least one below their greatest one. -/
theorem exists_extremes (hspread : ∃ a ∈ x, ∃ b ∈ x, a ≠ b) :
    ∃ least greatest, x.min? = some least ∧ x.max? = some greatest ∧
      (∀ a ∈ x, least ≤ a) ∧ (∀ a ∈ x, a ≤ greatest) ∧ least < greatest := by
  obtain ⟨a, ha, b, hb, hne⟩ := hspread
  have hx : x ≠ [] := ne_nil_of_mem ha
  obtain ⟨least, hleast⟩ := Option.ne_none_iff_exists'.mp (mt min?_eq_none_iff.mp hx)
  obtain ⟨greatest, hgreatest⟩ := Option.ne_none_iff_exists'.mp (mt max?_eq_none_iff.mp hx)
  have hlow := (min?_eq_some_iff.mp hleast).2
  have hhigh := (max?_eq_some_iff.mp hgreatest).2
  refine ⟨least, greatest, hleast, hgreatest, hlow, hhigh, ?_⟩
  rcases lt_or_gt_of_ne hne with hlt | hlt
  · exact (hlow a ha).trans_lt (hlt.trans_le (hhigh b hb))
  · exact (hlow b hb).trans_lt (hlt.trans_le (hhigh a ha))

/-- **The sign-flip interval inverts the sign-flip test.**  The p value of the shifted differences
never increases away from their mean, so the shifts not rejected are an interval around it; and
where flipping all alike is rare enough, the bisection starts from rejected ends and returns
accepted ones, each within its last step of the boundary. -/
theorem signFlipInterval_inverts {alpha : ℚ} (hspread : ∃ a ∈ x, ∃ b ∈ x, a ≠ b)
    (hf : Family x.length flips) (ha : alpha < 1) :
    (∀ δ δ', mean x ≤ δ → δ ≤ δ' →
      signFlipPvalue 0 (shift x δ') flips ≤ signFlipPvalue 0 (shift x δ) flips) ∧
    (∀ δ δ', δ ≤ mean x → δ' ≤ δ →
      signFlipPvalue 0 (shift x δ') flips ≤ signFlipPvalue 0 (shift x δ) flips) ∧
    mean x ∈ accepted alpha x flips ∧ (accepted alpha x flips).OrdConnected ∧
    (share (flipsAlike x.length) flips ≤ alpha →
      ∃ least greatest low high,
        x.min? = some least ∧ x.max? = some greatest ∧
        signFlipInterval 0 x flips alpha = some (low, high) ∧
        outerLow least greatest ∉ accepted alpha x flips ∧
        outerHigh least greatest ∉ accepted alpha x flips ∧
        low ∈ accepted alpha x flips ∧ high ∈ accepted alpha x flips ∧
        |(low : ℝ) - sInf (acceptedReal alpha x flips)| ≤
          (lastStep x (outerLow least greatest) : ℝ) ∧
        |(high : ℝ) - sSup (acceptedReal alpha x flips)| ≤
          (lastStep x (outerHigh least greatest) : ℝ)) := by
  have hx : x ≠ [] := ne_nil_of_mem hspread.choose_spec.1
  have hflips : flips ≠ [] := ne_nil_of_mem hf.identity
  refine ⟨fun δ δ' => signFlipPvalue_anti_above hx hf.signs,
    fun δ δ' => signFlipPvalue_anti_below hx hf.signs, accepts_mean hx hflips ha,
    ordConnected_accepted hx hf.signs alpha, fun halike => ?_⟩
  obtain ⟨least, greatest, hmin, hmax, hleast, hgreatest, hlt⟩ := exists_extremes hspread
  obtain ⟨hmean, hmean'⟩ := mean_between hx hleast hgreatest
  -- one span beyond the extremes, every shifted difference has the same sign
  have hlow : accepts 0 alpha x flips (outerLow least greatest) = false := by
    refine not_accepts_outside hf.signs halike (.inl fun a ha => ?_)
    rw [outerLow]
    linarith [hleast a ha]
  have hhigh : accepts 0 alpha x flips (outerHigh least greatest) = false := by
    refine not_accepts_outside hf.signs halike (.inr fun a ha => ?_)
    rw [outerHigh]
    linarith [hgreatest a ha]
  refine ⟨least, greatest, _, _, hmin, hmax, by rw [signFlipInterval, hmin, hmax]; rfl,
    by simp [accepted, hlow], by simp [accepted, hhigh], accepts_edge hx hflips ha _,
    accepts_edge hx hflips ha _, edge_low_spec hx hf ha ?_ hlow, edge_high_spec hx hf ha ?_ hhigh⟩
  · rw [outerLow]
    linarith
  · rw [outerHigh]
    linarith

theorem signFlipInterval_inverts_pair :
    ∃ least greatest low high,
      [(0 : ℚ), 1].min? = some least ∧ [(0 : ℚ), 1].max? = some greatest ∧
      signFlipInterval 0 [0, 1] [[1, 1], [1, -1]] (1 / 2) = some (low, high) ∧
      outerLow least greatest ∉ accepted (1 / 2) [0, 1] [[1, 1], [1, -1]] ∧
      outerHigh least greatest ∉ accepted (1 / 2) [0, 1] [[1, 1], [1, -1]] ∧
      low ∈ accepted (1 / 2) [0, 1] [[1, 1], [1, -1]] ∧
      high ∈ accepted (1 / 2) [0, 1] [[1, 1], [1, -1]] ∧
      |(low : ℝ) - sInf (acceptedReal (1 / 2) [0, 1] [[1, 1], [1, -1]])| ≤
        (lastStep [0, 1] (outerLow least greatest) : ℝ) ∧
      |(high : ℝ) - sSup (acceptedReal (1 / 2) [0, 1] [[1, 1], [1, -1]])| ≤
        (lastStep [0, 1] (outerHigh least greatest) : ℝ) :=
  (@signFlipInterval_inverts [0, 1] [[1, 1], [1, -1]] (1 / 2)
    ⟨0, by simp, 1, by simp, by simp⟩
    ⟨fun s hs => by
      simp only [mem_cons, not_mem_nil, or_false] at hs
      rcases hs with rfl | rfl
      · exact ⟨rfl, by simp⟩
      · exact ⟨rfl, by simp⟩, by simp⟩
    (by norm_num)).2.2.2.2 (by decide +kernel)

/-! ### The paired test -/

/-- The enumerated family flips all alike in two vectors. -/
theorem countP_flipsAlike_le (hn : n ≤ signFlipExactMaxN) (drawn : ℕ → List (List ℚ)) :
    (signFlips drawn n).countP (flipsAlike n) ≤ 2 := by
  rw [signFlips, if_pos hn, countP_map]
  -- a row of equal signs comes from the number whose bits are all 0 or all 1
  have hbits : ∀ i ∈ List.range (2 ^ n), (flipsAlike n ∘ fun i =>
      (List.range n).map fun j => if i.testBit j then (-1 : ℚ) else 1) i = true →
      i = 0 ∨ i = 2 ^ n - 1 := by
    intro i hi hrow
    have hlt : i < 2 ^ n := mem_range.mp hi
    simp only [Function.comp_apply, flipsAlike, Bool.or_eq_true, beq_iff_eq,
      eq_replicate_iff, length_map, length_range, true_and, mem_map,
      mem_range, forall_exists_index, and_imp, forall_apply_eq_imp_iff₂] at hrow ⊢
    have hhigh : ∀ j, n ≤ j → i.testBit j = false := fun j hj =>
      Nat.testBit_lt_two_pow (hlt.trans_le (Nat.pow_le_pow_right (by omega) hj))
    refine hrow.imp (fun hone => ?_) fun hneg => ?_
    · refine Nat.eq_of_testBit_eq fun j => ?_
      by_cases hj : j < n
      · have := hone j hj
        rw [Nat.zero_testBit]
        by_contra hb
        norm_num [hb] at this
      · rw [hhigh j (by omega), Nat.zero_testBit]
    · refine Nat.eq_of_testBit_eq fun j => ?_
      rw [Nat.testBit_two_pow_sub_one]
      by_cases hj : j < n
      · have := hneg j hj
        by_contra hb
        norm_num [hj] at hb
        norm_num [hb] at this
      · rw [hhigh j (by omega), decide_eq_false hj]
  rw [countP_eq_length_filter]
  refine (subperm_of_subset (List.Nodup.filter _ nodup_range)
    (show _ ⊆ [0, 2 ^ n - 1] from ?_)).length_le
  intro i hi
  obtain ⟨hmem, hrow⟩ := mem_filter.mp hi
  simpa using hbits i hmem hrow

/-- At the default error rate, six pairs or more are enough for rejected outer ends. -/
theorem share_flipsAlike_le (hmin : minPairsForInterval ≤ n) (hn : n ≤ signFlipExactMaxN)
    (drawn : ℕ → List (List ℚ)) : share (flipsAlike n) (signFlips drawn n) ≤ 1 / 20 := by
  have hlen : (signFlips drawn n).length = 2 ^ n := by simp [signFlips, hn]
  have hcount : ((signFlips drawn n).countP (flipsAlike n) : ℚ) ≤ 2 := by
    exact_mod_cast countP_flipsAlike_le hn drawn
  have hpow : (2 : ℚ) ^ 6 ≤ 2 ^ n := pow_le_pow_right₀ (by norm_num) hmin
  rw [share, hlen, Nat.cast_pow, Nat.cast_ofNat, div_le_iff₀ (by positivity)]
  linarith

/-- A test that reports a p value has run on pairs that are not all equal. -/
theorem signFlip_ran {r : Result} {p tol : ℚ} (h : signFlip drawn tol x alpha = some r)
    (hp : r.pvalue = some p) : ∃ least greatest, x.min? = some least ∧ x.max? = some greatest ∧
      least ≠ greatest ∧ minPairsForInterval ≤ x.length ∧ r.estimate = some (mean x) ∧
        r.low = some (edge tol alpha x (signFlips drawn x.length) (outerLow least greatest)) ∧
        r.high = some (edge tol alpha x (signFlips drawn x.length) (outerHigh least greatest)) ∧
        p = signFlipPvalue tol x (signFlips drawn x.length) := by
  rw [signFlip] at h
  split at h
  · -- a refused test reports no p value
    rename_i refused hfloor
    obtain rfl : refused = r := by simpa using h
    rw [floor] at hfloor
    split_ifs at hfloor <;> (obtain rfl := Option.some.inj hfloor; simp at hp)
  · rename_i hfloor
    have hx : x ≠ [] := by
      rintro rfl
      simp [floor] at hfloor
    obtain ⟨least, hmin⟩ := Option.ne_none_iff_exists'.mp (mt min?_eq_none_iff.mp hx)
    obtain ⟨greatest, hmax⟩ := Option.ne_none_iff_exists'.mp (mt max?_eq_none_iff.mp hx)
    rw [floor] at hfloor
    split_ifs at hfloor with _ hmany hspread
    simp only [signFlipInterval, hmin, hmax, Option.bind_eq_bind, Option.bind_some,
      Option.pure_def, Option.some.injEq] at h
    subst h
    exact ⟨least, greatest, hmin, hmax, fun heq => hspread (by rw [hmin, hmax, heq]), not_lt.mp hmany,
      if_neg hx, rfl, rfl, (Option.some.inj hp).symm⟩

/-- **The reported estimate, p value and interval agree**: the estimate lies in the interval, the
test rejects when 0 lies outside, and up to the bisection's last step only then. -/
theorem signFlip_agrees {r : Result} {p : ℚ} (hdrawn : ∀ s ∈ drawn x.length, IsSigns x.length s)
    (ha : alpha < 1) (h : signFlip drawn 0 x alpha = some r) (hp : r.pvalue = some p) :
    ∃ least greatest low high, x.min? = some least ∧ x.max? = some greatest ∧
      r.estimate = some (mean x) ∧ r.low = some low ∧ r.high = some high ∧
      low ≤ mean x ∧ mean x ≤ high ∧ (low ≤ 0 ∧ 0 ≤ high → alpha < p) ∧
      (x.length ≤ signFlipExactMaxN → 1 / 20 ≤ alpha → alpha < p →
        low ≤ lastStep x (outerLow least greatest) ∧
          -lastStep x (outerHigh least greatest) ≤ high) := by
  obtain ⟨least, greatest, hmin, hmax, hne, hmany, hestimate, hlow, hhigh, rfl⟩ := signFlip_ran h hp
  have hf : Family x.length (signFlips drawn x.length) := family_signFlips hdrawn
  have hflips := ne_nil_of_mem hf.identity
  have hx : x ≠ [] := by
    rintro rfl
    cases hmin
  have hleast := (min?_eq_some_iff.mp hmin).2
  have hgreatest := (max?_eq_some_iff.mp hmax).2
  obtain ⟨hmean, hmean'⟩ := mean_between hx hleast hgreatest
  have hlt : least < greatest := lt_of_le_of_ne (hmean.trans hmean') hne
  have hle : outerLow least greatest ≤ mean x := by
    rw [outerLow]
    linarith
  have hle' : mean x ≤ outerHigh least greatest := by
    rw [outerHigh]
    linarith
  have hzero : accepts 0 alpha x (signFlips drawn x.length) 0 = true ↔
      alpha < signFlipPvalue 0 x (signFlips drawn x.length) := by
    simp [accepts, shift]
  refine ⟨least, greatest, _, _, hmin, hmax, hestimate, hlow, hhigh, ?_, Bisect.inner_le hle',
    fun ⟨h0, h0'⟩ => ?_, fun hexact halpha hacc => ?_⟩
  · have hmirror := @Bisect.inner_le ℚ _
      (fun a => accepts 0 alpha x (signFlips drawn x.length) (-a)) 60 _ _ _ _ (neg_le_neg hle)
    rw [Bisect.bisect_neg] at hmirror
    exact neg_le_neg_iff.mp hmirror
  · exact hzero.mp ((ordConnected_accepted hx hf.signs alpha).out (accepts_edge hx hflips ha _)
      (accepts_edge hx hflips ha _) ⟨h0, h0'⟩)
  · have halike := (share_flipsAlike_le hmany hexact drawn).trans halpha
    have hbelow := edge_sub_le hx hf.signs hle (not_accepts_outside hf.signs halike
      (.inl fun a ha => by rw [outerLow]; linarith [hleast a ha])) (hzero.mpr hacc)
    have habove := le_edge_add hx hf.signs hle' (not_accepts_outside hf.signs halike
      (.inr fun a ha => by rw [outerHigh]; linarith [hgreatest a ha])) (hzero.mpr hacc)
    exact ⟨by linarith, by linarith⟩

theorem signFlip_agrees_six : ∃ (r : Result) (p : ℚ),
    signFlip (fun _ => []) 0 [1, 2, 3, 4, 5, 6] (1 / 20) = some r ∧ r.pvalue = some p ∧
      ∃ low high, r.low = some low ∧ r.high = some high ∧ low ≤ 7 / 2 ∧ 7 / 2 ≤ high ∧
        (low ≤ 0 ∧ 0 ≤ high → 1 / 20 < p) := by
  have hmean : mean [1, 2, 3, 4, 5, 6] = 7 / 2 := by decide +kernel
  obtain ⟨-, -, low, high, -, -, -, hlow, hhigh, hle, hle', hzero, -⟩ :=
    @signFlip_agrees (fun _ => []) (1 / 20) [1, 2, 3, 4, 5, 6] _ _ nofun (by norm_num) rfl rfl
  exact ⟨_, _, rfl, rfl, low, high, hlow, hhigh, hmean ▸ hle, hmean ▸ hle', hzero⟩

end Stats

end HpcAgentBench
