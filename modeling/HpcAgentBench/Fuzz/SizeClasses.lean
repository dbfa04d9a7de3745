import HpcAgentBench.Fuzz.Smooth

/-!
# Sizes of a class

A size moves to the nearest member of its class in the interval.  The plain search ends at a fixed
distance, so what matters is how far the next member between a size and a given member can be.

## Main results

* `exists_near`: a member of the class within the search's distance.
* `snapToClass_nearest_iff`: when the answer is the nearest member, or rightly none.
-/

namespace HpcAgentBench

open List

namespace Fuzz

/-- Nearer to `value`, the lower one of two at the same distance. -/
def Nearer (value v w : ℤ) : Prop := |v - value| < |w - value| ∨ |v - value| = |w - value| ∧ v ≤ w

/-- The nearest member, or none where there is no member. -/
def Nearest (member : ℤ → Prop) (value : ℤ) : Option ℤ → Prop
  | none => ∀ w, ¬ member w
  | some v => member v ∧ ∀ w, member w → Nearer value v w

/-- A member of the class in the interval, smooth if asked. -/
def Member (sizeClass : SizeClass) (lo hi : ℤ) (smooth : Option ℤ) (v : ℤ) : Prop :=
  (lo ≤ v ∧ v ≤ hi ∧ inClass v sizeClass = true) ∧ ∀ bound ∈ smooth, Smooth bound v

variable {value lo hi w : ℤ} {sizeClass : SizeClass}

/-! ### The search from the value outwards -/

/-- Distance by distance, the lower candidate first: what is found is nearest, and what is not
found is no nearer than the search went. -/
theorem search_spec (p : ℤ → Bool) (value : ℤ) (n : ℕ) :
    match (List.range n).findSome? fun (step : ℕ) => [value - step, value + step].find? p with
    | none => ∀ w, p w = true → n ≤ |w - value|
    | some v => p v = true ∧ |v - value| < n ∧ ∀ w, p w = true → Nearer value v w := by
  induction n with
  | zero => exact fun w _ => abs_nonneg _
  | succ n ih =>
    rw [range_succ, findSome?_append]
    split at ih
    next heq =>
      rw [heq, Option.none_or, findSome?_singleton]
      by_cases hlow : p (value - n) = true
      · rw [find?_cons_of_pos hlow]
        refine ⟨hlow, by simp, fun w hw => ?_⟩
        have := ih w hw
        rcases abs_cases (w - value) with h | h <;> simp [Nearer] <;> omega
      · rw [find?_cons_of_neg hlow]
        by_cases hup : p (value + n) = true
        · rw [find?_cons_of_pos hup]
          refine ⟨hup, by simp, fun w hw => ?_⟩
          have hne : w ≠ value - n := fun h => hlow (h ▸ hw)
          have := ih w hw
          rcases abs_cases (w - value) with h | h <;> simp [Nearer] <;> omega
        · rw [find?_cons_of_neg hup]
          intro w hw
          have hne : w ≠ value - n := fun h => hlow (h ▸ hw)
          have hne' : w ≠ value + n := fun h => hup (h ▸ hw)
          have := ih w hw
          rcases abs_cases (w - value) with h | h <;> push_cast <;> omega
    next v heq =>
      rw [heq, Option.some_or]
      refine ⟨ih.1, ?_, ih.2.2⟩
      have := ih.2.1
      push_cast
      omega

/-- Where a member of the class is, one lies no farther than the search goes: a member repeats
every 64, and the first one above 8 is 24. -/
theorem exists_near (hlo : lo ≤ value) (hhi : value ≤ hi)
    (hw : lo ≤ w ∧ w ≤ hi ∧ inClass w sizeClass = true)
    (h : sizeClass = .nonPow2 → 24 ≤ hi → -104 ≤ value) :
    ∃ v, (lo ≤ v ∧ v ≤ hi ∧ inClass v sizeClass = true) ∧ |v - value| ≤ classSearch := by
  obtain ⟨hlow, hwhi, hclass⟩ := hw
  by_cases hle : w ≤ value
  · refine ⟨value - (value - w) % 64, ⟨by omega, by omega, ?_⟩, ?_⟩
    · cases sizeClass <;> simp only [inClass, decide_eq_true_iff] at hclass ⊢ <;> omega
    · rw [classSearch, abs_le]
      omega
  · by_cases hbig : sizeClass = .nonPow2 ∧ value ≤ 8
    · -- between the value and the member there may be only small numbers
      obtain ⟨rfl, hv⟩ := hbig
      have := h rfl
      simp only [inClass, decide_eq_true_iff] at hclass
      refine ⟨24, ⟨by omega, by omega, rfl⟩, ?_⟩
      rw [classSearch, abs_le]
      omega
    · refine ⟨value + (w - value) % 64, ⟨by omega, by omega, ?_⟩, ?_⟩
      · cases sizeClass <;> simp only [inClass, decide_eq_true_iff] at hclass ⊢ <;> grind
      · rw [classSearch, abs_le]
        omega

/-! ### The smooth members -/

theorem foldl_nearest (value : ℤ) (members : List ℤ) :
    Nearest (· ∈ members) value (members.foldl (fun best v =>
      match best with
      | none => some v
      | some b =>
        if |v - value| < |b - value| ∨ |v - value| = |b - value| ∧ v < b then some v
        else some b) none) := by
  induction members using List.reverseRecOn with
  | nil => exact fun w => not_mem_nil
  | append_singleton members v ih =>
    rw [foldl_append]
    revert ih
    generalize List.foldl _ none members = best
    intro ih
    simp only [foldl_cons, foldl_nil]
    cases best with
    | none =>
      refine ⟨by simp, fun w hw => ?_⟩
      rcases mem_append.1 hw with hw | hw
      · exact absurd hw (ih w)
      · exact .inr ⟨by rw [mem_singleton.1 hw], (mem_singleton.1 hw).ge⟩
    | some b =>
      dsimp only
      split
      all_goals
        refine ⟨by simp [ih.1], fun w hw => ?_⟩
        unfold Nearest Nearer at *
        rcases mem_append.1 hw with hw | hw
        · have := ih.2 w hw
          omega
        · cases mem_singleton.1 hw
          omega

theorem snapToClass_smooth (bound : ℤ) :
    Nearest (Member sizeClass lo hi (some bound)) value
      (snapToClass value sizeClass lo hi (some bound)) := by
  have hmem : Member sizeClass lo hi (some bound) = (· ∈
      ((smoothNumbers bound (max 1 hi).toNat).map Int.ofNat).filter fun v =>
        lo ≤ v ∧ v ≤ hi ∧ inClass v sizeClass) := by
    funext v
    rw [mem_filter, mem_map, decide_eq_true_iff, Member, and_comm, eq_iff_iff]
    refine and_congr_left fun hv => ?_
    simp only [Option.mem_some_iff, forall_eq']
    constructor
    · intro hs
      have hpos := hs.pos
      have hv' := Int.toNat_of_nonneg (by omega : 0 ≤ v)
      exact ⟨v.toNat, (mem_smoothNumbers (.inl (by omega))).2 ⟨by omega, hv'.symm ▸ hs⟩, hv'⟩
    · rintro ⟨m, hm, rfl⟩
      exact ((mem_smoothNumbers (.inl (by omega))).1 hm).2
  rw [hmem]
  exact foldl_nearest value _

/-- **The plain search misses the class only far below its first member: asked for 8 times an odd
number above 1 from below -104, with 24 in the interval.  Otherwise the answer is the nearest member
of the interval, the lower of two, and there is none only where there is no member.** -/
theorem snapToClass_nearest_iff (smooth : Option ℤ) (hlo : lo ≤ value) (hhi : value ≤ hi) :
    Nearest (Member sizeClass lo hi smooth) value (snapToClass value sizeClass lo hi smooth) ↔
      (smooth = none → sizeClass = .nonPow2 → 24 ≤ hi → -104 ≤ value) := by
  cases smooth with
  | some bound => exact ⟨fun _ h => (nomatch h), fun _ => snapToClass_smooth bound⟩
  | none =>
    have hmem (v : ℤ) : Member sizeClass lo hi none v ↔
        (decide (lo ≤ v ∧ v ≤ hi ∧ inClass v sizeClass)) = true := by
      simp [Member]
    have hspec := search_spec (fun v => decide (lo ≤ v ∧ v ≤ hi ∧ inClass v sizeClass)) value
      (classSearch + 1)
    rw [snapToClass]
    simp only [← hmem] at hspec
    split at hspec
    next heq =>
      rw [heq]
      constructor
      · -- a search that found nothing has not reached 24
        rintro hnone - rfl h24
        by_contra hv
        exact hnone 24 ((hmem 24).2 (by simp [inClass]; omega))
      · intro h w hw
        obtain ⟨v, hv, hdist⟩ := exists_near hlo hhi (by simpa [Member] using hw) (h rfl)
        have := hspec v (by simpa [Member] using hv)
        push_cast at this
        omega
    next v heq =>
      rw [heq]
      refine ⟨fun _ _ hclass h24 => ?_, fun _ => ⟨hspec.1, hspec.2.2⟩⟩
      -- what is found is a member, and near
      have hv := hspec.1.1.2.2
      have hdist := abs_lt.1 hspec.2.1
      rw [hclass, inClass, decide_eq_true_iff] at hv
      rw [classSearch] at hdist
      push_cast at hdist
      omega

theorem snapToClass_nearest_24 :
    Nearest (Member .nonPow2 (-104) 24 none) (-104) (snapToClass (-104) .nonPow2 (-104) 24 none) :=
  (snapToClass_nearest_iff none (by decide) (by decide)).2 fun _ _ _ => le_rfl

/-- Past the search's distance below 24 the only member is missed. -/
theorem snapToClass_below_search :
    snapToClass (-200) .nonPow2 (-200) 100 none = none ∧
      Member .nonPow2 (-200) 100 none 24 := by
  refine ⟨?_, by simp [Member, inClass]⟩
  rw [snapToClass, findSome?_eq_none_iff]
  intro step hstep
  rw [mem_range, classSearch] at hstep
  simp [inClass]
  omega

end Fuzz

end HpcAgentBench
