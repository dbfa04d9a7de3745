import Mathlib.Data.List.Sort

/-!
# Insertion in place and counting by halves

One step of an insertion sort opens a hole in front of the greater elements and puts the key in it
(`shifted`, `inserted`); the places below a boundary are as many as the boundary says
(`countP_below`).

## Main results

* `perm_inserted` : **an insertion permutes the elements.**
* `ascending_inserted` : **an insertion after what is not above the key keeps the order.**
-/

namespace HpcAgentBench

open List

namespace Insertion

variable {α : Type*}
variable {n p hole last a b : ℕ}

/-- The first `n` elements of a sequence. -/
def elements (g : ℕ → α) (n : ℕ) : List α := (List.range n).map g

/-- The elements from a hole up to a place moved on by one. -/
def shifted (g : ℕ → α) (hole last : ℕ) (p : ℕ) : α :=
  if hole < p ∧ p ≤ last then g (p - 1) else g p

/-- The element at a place put into a hole before it. -/
def inserted (g : ℕ → α) (hole last : ℕ) : ℕ → α :=
  Function.update (shifted g hole last) hole (g last)

/-- The first elements are in order. -/
def Ascending [LE α] (g : ℕ → α) (n : ℕ) : Prop := ∀ p q, p < q → q < n → g p ≤ g q

theorem length_elements (g : ℕ → α) (n : ℕ) : (elements g n).length = n := by
  rw [elements, length_map, length_range]

theorem getElem?_elements (g : ℕ → α) (h : p < n) : (elements g n)[p]? = some (g p) := by
  rw [elements, getElem?_map, getElem?_range h, Option.map_some]

/-! ### Moving the hole -/

theorem shifted_self (g : ℕ → α) (last : ℕ) : shifted g last last = g := by
  funext p
  rw [shifted, if_neg (by omega)]

/-- The hole moved down by one. -/
theorem update_shifted (g : ℕ → α) (h : hole + 1 ≤ last) :
    Function.update (shifted g (hole + 1) last) (hole + 1) (g hole) = shifted g hole last := by
  funext p
  by_cases hp : p = hole + 1
  · subst hp
    rw [Function.update_self, shifted, if_pos (by omega), Nat.add_sub_cancel]
  · rw [Function.update_of_ne hp, shifted, shifted]
    congr 1
    simp only [eq_iff_iff]
    omega

theorem shifted_below (g : ℕ → α) (h : p ≤ hole) : shifted g hole last p = g p :=
  if_neg (by omega)

theorem inserted_self (g : ℕ → α) (last : ℕ) : inserted g last last = g := by
  rw [inserted, shifted_self, Function.update_eq_self]

/-- A hole one further down is an exchange. -/
theorem inserted_succ (g : ℕ → α) (h : hole + 1 ≤ last) :
    inserted g hole last = inserted g (hole + 1) last ∘ Equiv.swap hole (hole + 1) := by
  funext p
  have hne : hole ≠ hole + 1 := by omega
  rw [Function.comp_apply]
  by_cases hp : p = hole
  · rw [hp, Equiv.swap_apply_left, inserted, inserted, Function.update_self, Function.update_self]
  · rw [inserted, Function.update_of_ne hp, ← update_shifted g h]
    by_cases hp' : p = hole + 1
    · rw [hp', Function.update_self, Equiv.swap_apply_right, inserted,
        Function.update_of_ne hne, shifted_below g (by omega)]
    · rw [Function.update_of_ne hp', Equiv.swap_apply_of_ne_of_ne hp hp', inserted,
        Function.update_of_ne hp']

theorem swap_lt (ha : a < n) (hb : b < n) (hp : p < n) : Equiv.swap a b p < n := by
  rw [Equiv.swap_apply_def]
  split_ifs
  · exact hb
  · exact ha
  · exact hp

theorem perm_swap (ha : a < n) (hb : b < n) (g : ℕ → α) :
    (elements (g ∘ Equiv.swap a b) n).Perm (elements g n) := by
  rw [elements, ← map_map]
  refine List.Perm.map g ((perm_ext_iff_of_nodup ?_ nodup_range).2 fun p => ?_)
  · exact nodup_range.map (Equiv.swap a b).injective
  rw [mem_map, mem_range]
  constructor
  · rintro ⟨q, hq, rfl⟩
    exact swap_lt ha hb (mem_range.1 hq)
  · intro hp
    exact ⟨_, mem_range.2 (swap_lt ha hb hp), Equiv.swap_apply_self ..⟩

/-- **An insertion permutes the elements.** -/
theorem perm_inserted (g : ℕ → α) (h : hole ≤ last) (hn : last < n) :
    (elements (inserted g hole last) n).Perm (elements g n) := by
  obtain ⟨d, rfl⟩ := Nat.exists_eq_add_of_le h
  induction d generalizing hole with
  | zero => rw [Nat.add_zero, inserted_self]
  | succ d ih =>
    have hstep : (elements (inserted g (hole + 1) (hole + 1 + d)) n).Perm (elements g n) :=
      ih (by omega) (by omega)
    rw [show hole + 1 + d = hole + (d + 1) by omega] at hstep
    rw [inserted_succ g (by omega)]
    exact (perm_swap (by omega) (by omega) _).trans hstep

/-! ### Order -/

section Order

variable [LinearOrder α] {g : ℕ → α} {hole last : ℕ}
variable {n : ℕ}

/-- **An insertion after what is not above the key keeps the order.** -/
theorem ascending_inserted (h : hole ≤ last) (hg : Ascending g last)
    (hbelow : ∀ p < hole, g p ≤ g last) (habove : ∀ p, hole ≤ p → p < last → g last ≤ g p) :
    Ascending (inserted g hole last) (last + 1) := by
  -- Where an element comes from: the key, from in front of the hole, or from one place before.
  have hsource : ∀ p ≤ last, (p = hole ∧ inserted g hole last p = g last) ∨
      (p < hole ∧ inserted g hole last p = g p) ∨
      (hole < p ∧ inserted g hole last p = g (p - 1)) := by
    intro p hp
    rcases Nat.lt_trichotomy p hole with hlt | rfl | hgt
    · exact .inr (.inl ⟨hlt, by
        rw [inserted, Function.update_of_ne hlt.ne, shifted_below g hlt.le]⟩)
    · exact .inl ⟨rfl, by rw [inserted, Function.update_self]⟩
    · exact .inr (.inr ⟨hgt, by
        rw [inserted, Function.update_of_ne hgt.ne', shifted, if_pos ⟨hgt, hp⟩]⟩)
  intro p q hpq hq
  rcases hsource p (by omega) with ⟨heq, hp⟩ | ⟨hlt, hp⟩ | ⟨hgt, hp⟩ <;>
    rcases hsource q (by omega) with ⟨heq', hq'⟩ | ⟨hlt', hq'⟩ | ⟨hgt', hq'⟩ <;> rw [hp, hq']
  · omega
  · exact habove _ (by omega) (by omega)
  · exact hbelow p hlt
  · exact hg p q hpq (by omega)
  · exact hg p (q - 1) (by omega) (by omega)
  · omega
  · omega
  · exact hg (p - 1) (q - 1) (by omega) (by omega)

theorem pairwise_elements (h : Ascending g n) :
    (elements g n).Pairwise (· ≤ ·) := by
  rw [elements, pairwise_map]
  refine pairwise_iff_getElem.2 fun p q hp hq hpq => ?_
  rw [getElem_range, getElem_range]
  exact h p q hpq (by simpa using hq)

/-- Elements in order are the sorted ones. -/
theorem elements_eq_insertionSort {l : List α} (hperm : (elements g n).Perm l) (h : Ascending g n) :
    elements g n = l.insertionSort (· ≤ ·) :=
  List.Perm.eq_of_pairwise (fun _ _ _ _ => le_antisymm) (pairwise_elements h)
    (l.pairwise_insertionSort (· ≤ ·)) (hperm.trans (l.perm_insertionSort (· ≤ ·)).symm)

end Order

/-! ### Counting up to a boundary -/

/-- The places below a boundary are the ones that are counted. -/
theorem countP_below (test : ℕ → Bool) {bound : ℕ} (h : bound ≤ n)
    (hbelow : ∀ k < bound, test k = true) (habove : ∀ k, bound ≤ k → k < n → test k = false) :
    (List.range n).countP test = bound := by
  obtain ⟨d, rfl⟩ := Nat.exists_eq_add_of_le h
  have hfront : (List.range bound).countP test = bound := by
    rw [countP_eq_length.2 fun k hk => hbelow k (mem_range.1 hk), length_range]
  have hback : ((List.range d).map (bound + ·)).countP test = 0 := by
    rw [countP_eq_zero]
    intro k hk
    obtain ⟨j, hj, rfl⟩ := mem_map.1 hk
    rw [mem_range] at hj
    rw [habove _ (by omega) (by omega)]
    decide
  rw [range_add, countP_append, hfront, hback, Nat.add_zero]

end Insertion

end HpcAgentBench
