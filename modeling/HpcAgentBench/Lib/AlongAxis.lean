import HpcAgentBench.Lib.NdArray

/-!
# Indices along an axis

An index of an array is an index of the other axes with a position along one axis put in
(`List.insertIdx`), and a scan along the axis combines the elements up to that position (`running`).

## Main results

* `forall₂_insertIdx`, `forall₂_eraseIdx` : indices in bounds, with and without the axis.
* `map_range_insertIdx` : a list made axis by axis, with one entry of its own.
-/

namespace HpcAgentBench

open List Option

variable {α β : Type*}
variable {shape idx : List ℕ} {axis k n : ℕ}

/-! ### Indices in bounds -/

theorem forall₂_insertIdx (haxis : axis < shape.length) (hk : k < shape.getD axis 0)
    (h : Forall₂ (· < ·) idx (shape.eraseIdx axis)) :
    Forall₂ (· < ·) (idx.insertIdx axis k) shape := by
  induction shape generalizing idx axis with
  | nil => cases haxis
  | cons n shape ih =>
    cases axis with
    | zero => exact .cons (by simpa using hk) (by simpa using h)
    | succ axis =>
      rw [eraseIdx_cons_succ] at h
      obtain _ | ⟨hi, hrest⟩ := h
      exact .cons hi (ih (Nat.lt_of_succ_lt_succ haxis) (by simpa using hk) hrest)

theorem forall₂_eraseIdx (axis : ℕ) (h : Forall₂ (· < ·) idx shape) :
    Forall₂ (· < ·) (idx.eraseIdx axis) (shape.eraseIdx axis) := by
  induction h generalizing axis with
  | nil => simp
  | cons hi hrest ih =>
    cases axis with
    | zero => exact hrest
    | succ axis => exact .cons hi (ih axis)

/-- Entries that are related stay so with another pair put in. -/
theorem forall₂_insert_pair {R : α → β → Prop} {as : List α} {bs : List β}
    (h : Forall₂ R as bs) (axis : ℕ) {a : α} {b : β} (hab : R a b) :
    Forall₂ R (as.insertIdx axis a) (bs.insertIdx axis b) := by
  induction h generalizing axis with
  | nil =>
    cases axis with
    | zero => exact .cons hab .nil
    | succ axis => exact .nil
  | cons hd hrest ih =>
    cases axis with
    | zero => exact .cons hab (.cons hd hrest)
    | succ axis => exact .cons hd (ih axis)

/-- An index is its part on the other axes with its position put in. -/
theorem insertIdx_eraseIdx_getD (h : axis < idx.length) :
    (idx.eraseIdx axis).insertIdx axis (idx.getD axis 0) = idx := by
  induction idx generalizing axis with
  | nil => cases h
  | cons i idx ih =>
    cases axis with
    | zero => rfl
    | succ axis =>
      have hrest := ih (Nat.lt_of_succ_lt_succ h)
      rw [getD_cons_succ, eraseIdx_cons_succ, insertIdx_succ_cons, hrest]

theorem getD_insertIdx (h : axis ≤ idx.length) :
    (idx.insertIdx axis k).getD axis 0 = k := by
  rw [getD_eq_getElem?_getD, getElem?_insertIdx_self, if_pos h]
  rfl

/-! ### Lists made axis by axis -/

/-- The axes before one, the axis itself and those after it. -/
theorem range_split (h : axis < n) :
    List.range n = List.range axis ++ axis :: List.range' (axis + 1) (n - axis - 1) := by
  obtain ⟨d, rfl⟩ := Nat.exists_eq_add_of_lt h
  have hcount : axis + d + 1 - axis - 1 = d := by omega
  rw [hcount, range_eq_range', range_eq_range', Nat.add_assoc, ← range'_append_1,
    Nat.zero_add, range'_succ]

theorem eraseIdx_middle (as bs : List α) (a : α) (h : as.length = axis) :
    (as ++ a :: bs).eraseIdx axis = as ++ bs := by
  rw [eraseIdx_append_of_length_le h.le, h, Nat.sub_self, eraseIdx_cons_zero]

theorem insertIdx_middle (as bs : List α) (a : α) (h : as.length = axis) :
    (as ++ bs).insertIdx axis a = as ++ a :: bs := by
  subst h
  induction as with
  | nil => rfl
  | cons b as ih => rw [length_cons, cons_append, insertIdx_succ_cons, ih]; rfl

theorem filter_range_ne (h : axis < n) :
    (List.range n).filter (· ≠ axis) = (List.range n).eraseIdx axis := by
  have hfront : (List.range axis).filter (· ≠ axis) = List.range axis :=
    filter_eq_self.2 fun i hi => by simpa using (mem_range.1 hi).ne
  have hback : (List.range' (axis + 1) (n - axis - 1)).filter (· ≠ axis) =
      List.range' (axis + 1) (n - axis - 1) :=
    filter_eq_self.2 fun i hi => by
      have hle := (mem_range'_1.1 hi).1
      simp only [decide_eq_true_eq]
      omega
  rw [range_split h, eraseIdx_middle _ _ _ (length_range ..), filter_append, hfront,
    filter_cons_of_neg (by simp), hback]

/-- A list made axis by axis, with one entry of its own. -/
theorem map_range_insertIdx (f : ℕ → α) (a : α) (h : axis < n) :
    (List.range n).map (fun i => if i = axis then a else f i) =
      (((List.range n).eraseIdx axis).map f).insertIdx axis a := by
  have hfront : (List.range axis).map (fun i => if i = axis then a else f i) =
      (List.range axis).map f :=
    map_congr_left fun i hi => if_neg (mem_range.1 hi).ne
  have hback : (List.range' (axis + 1) (n - axis - 1)).map (fun i => if i = axis then a else f i) =
      (List.range' (axis + 1) (n - axis - 1)).map f :=
    map_congr_left fun i hi => if_neg (by have := (mem_range'_1.1 hi).1; omega)
  rw [range_split h, eraseIdx_middle _ _ _ (length_range ..), map_append, hfront,
    map_cons, if_pos rfl, hback, map_append,
    insertIdx_middle _ _ _ (by rw [length_map, length_range])]

/-- The entries of a list by their positions. -/
theorem map_getD_range (l : List α) (a : α) : (List.range l.length).map (l.getD · a) = l := by
  refine ext_getElem? fun i => ?_
  rw [getElem?_map]
  by_cases hi : i < l.length
  · rw [getElem?_range hi, map_some, getD_eq_getElem?_getD,
      getElem?_eq_getElem hi]
    rfl
  · rw [getElem?_eq_none (by rw [length_range]; omega),
      getElem?_eq_none (by omega)]
    rfl

/-! ### Scans -/

/-- The elements up to a position combined, the first one as it is. -/
def running (op : α → α → α) (line : ℕ → α) : ℕ → α
  | 0 => line 0
  | k + 1 => op (running op line k) (line (k + 1))

end HpcAgentBench
