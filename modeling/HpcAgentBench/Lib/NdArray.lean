import Mathlib.Algebra.BigOperators.Group.List.Basic
import Mathlib.Algebra.Group.Action.Defs
import Mathlib.Tactic.Ring

/-!
# Dense row-major arrays

`NdArray α` is a dense array: its shape and its elements in row-major (C) order.  This file has
the two operations on it that read and write a *product of index lists*, one list per axis:

* `NdArray.ixGet` reads the sub-array at the product of the lists;
* `NdArray.ixSet` writes a sub-array there.

Both go through `positions`, the flat positions of the product in row-major order.  The facts
used by callers are

* `map_flatIndex_multiIndices` : the multi-indices of a shape, in order, have the flat positions
  `0, 1, …, size - 1`, so a position is inside the array iff it is the position of a
  multi-index (`mem_positions_range`);
* `NdArray.getElem?_ixSet` : writing back what was read from `a` leaves, at every position of
  the product, the element of `a`, and every other element as it was.
-/

namespace HpcAgentBench

open List

/-! ### Multi-indices -/

/-- One entry from each list, the last list running fastest. -/
def multiIndices {α : Type*} : List (List α) → List (List α)
  | [] => [[]]
  | l :: ls => l.flatMap fun i => (multiIndices ls).map (i :: ·)

/-- The row-major position of a multi-index in an array of the given shape. -/
def flatIndex : List ℕ → List ℕ → ℕ
  | _ :: ns, i :: is => i * ns.prod + flatIndex ns is
  | _, _ => 0

/-- The row-major positions of the product of the index lists. -/
def positions (shape : List ℕ) (lists : List (List ℕ)) : List ℕ :=
  (multiIndices lists).map (flatIndex shape)

/-- Every index list stays inside its axis. -/
def InBounds (lists : List (List ℕ)) (shape : List ℕ) : Prop :=
  Forall₂ (fun l n => ∀ i ∈ l, i < n) lists shape

instance (lists : List (List ℕ)) (shape : List ℕ) : Decidable (InBounds lists shape) :=
  inferInstanceAs (Decidable (Forall₂ _ _ _))

variable {α : Type*} {shape idx : List ℕ} {lists : List (List ℕ)} {p : ℕ}

theorem mem_multiIndices {ls : List (List α)} {idx : List α} :
    idx ∈ multiIndices ls ↔ Forall₂ (· ∈ ·) idx ls := by
  induction ls generalizing idx with
  | nil => simp [multiIndices]
  | cons l ls ih =>
    simp only [multiIndices, mem_flatMap, mem_map, ih, forall₂_cons_right_iff]
    constructor
    · rintro ⟨i, hi, is, his, rfl⟩; exact ⟨i, is, hi, his, rfl⟩
    · rintro ⟨i, is, hi, his, rfl⟩; exact ⟨i, hi, is, his, rfl⟩

theorem length_multiIndices (ls : List (List α)) :
    (multiIndices ls).length = (ls.map List.length).prod := by
  induction ls with
  | nil => rfl
  | cons l ls ih =>
    simp only [multiIndices, length_flatMap, length_map, ih, map_cons,
      prod_cons, map_const', sum_replicate, smul_eq_mul]

@[simp] theorem length_positions (shape : List ℕ) (lists : List (List ℕ)) :
    (positions shape lists).length = (lists.map List.length).prod := by
  rw [positions, length_map, length_multiIndices]

theorem flatIndex_lt (h : Forall₂ (· < ·) idx shape) :
    flatIndex shape idx < shape.prod := by
  induction h with
  | nil => simp [flatIndex]
  | @cons i n is ns hi _ ih =>
    simp only [flatIndex, prod_cons]
    calc i * ns.prod + flatIndex ns is < i * ns.prod + ns.prod := by omega
      _ = (i + 1) * ns.prod := by ring
      _ ≤ n * ns.prod := Nat.mul_le_mul_right _ hi

theorem flatMap_range_add (n m : ℕ) :
    ((List.range n).flatMap fun i => (List.range m).map (i * m + ·)) = List.range (n * m) := by
  induction n with
  | zero => simp
  | succ n ih =>
    rw [range_succ, flatMap_append, ih, Nat.succ_mul, range_add]
    simp

/-- The multi-indices of a shape have the positions `0, …, size - 1`, in this order. -/
theorem map_flatIndex_multiIndices (shape : List ℕ) :
    (multiIndices (shape.map List.range)).map (flatIndex shape) = List.range shape.prod := by
  induction shape with
  | nil => rfl
  | cons n ns ih =>
    rw [map_cons, multiIndices, map_flatMap, prod_cons, ← flatMap_range_add]
    congr 1
    funext i
    rw [map_map, ← ih, map_map]
    rfl

theorem mem_positions :
    p ∈ positions shape lists ↔ ∃ idx, Forall₂ (· ∈ ·) idx lists ∧ flatIndex shape idx = p := by
  simp only [positions, mem_map, mem_multiIndices]

theorem lt_of_mem_positions (h : InBounds lists shape) (hp : p ∈ positions shape lists) :
    p < shape.prod := by
  obtain ⟨idx, hidx, rfl⟩ := mem_positions.1 hp
  refine flatIndex_lt ?_
  clear hp
  induction h generalizing idx with
  | nil => cases hidx; exact .nil
  | cons hl _ ih =>
    cases hidx with
    | cons hi his => exact .cons (hl _ hi) (ih _ his)

/-- Every position of an array is the position of some multi-index of its shape. -/
theorem mem_positions_range (h : p < shape.prod) :
    ∃ idx, Forall₂ (· < ·) idx shape ∧ flatIndex shape idx = p := by
  have hp : p ∈ positions shape (shape.map List.range) := by
    rw [positions, map_flatIndex_multiIndices, mem_range]; exact h
  obtain ⟨idx, hidx, rfl⟩ := mem_positions.1 hp
  refine ⟨idx, ?_, rfl⟩
  rw [forall₂_map_right_iff] at hidx
  exact hidx.imp fun _ _ hi => mem_range.1 hi

/-- The position of an index whose first part runs through whole blocks of the rest. -/
theorem flatIndex_append {ns ms is js : List ℕ} (h : is.length = ns.length) :
    flatIndex (ns ++ ms) (is ++ js) = flatIndex ns is * ms.prod + flatIndex ms js := by
  induction ns generalizing is with
  | nil =>
    rw [length_nil, length_eq_zero_iff] at h
    subst h
    simp [flatIndex]
  | cons n ns ih =>
    cases is with
    | nil => cases h
    | cons i is =>
      have his : is.length = ns.length := Nat.succ.inj h
      simp only [cons_append, flatIndex, ih his, prod_append]
      ring

theorem flatIndex_singleton (n i : ℕ) : flatIndex [n] [i] = i := by
  simp [flatIndex]

/-- **An index is read off its position**: divided by the size of what runs faster, and modulo the
extent. -/
theorem flatIndex_decode (slow : List ℕ) {fast : List ℕ} {n : ℕ} (a : List ℕ) {b : List ℕ} {i : ℕ}
    (ha : a.length = slow.length) (hi : i < n) (hb : Forall₂ (· < ·) b fast) :
    flatIndex (slow ++ n :: fast) (a ++ i :: b) / fast.prod = flatIndex slow a * n + i ∧
      flatIndex (slow ++ n :: fast) (a ++ i :: b) / fast.prod % n = i := by
  have hlt : flatIndex fast b < fast.prod := flatIndex_lt hb
  have hdiv : flatIndex (slow ++ n :: fast) (a ++ i :: b) / fast.prod =
      flatIndex slow a * n + i := by
    have hflat : flatIndex (slow ++ n :: fast) (a ++ i :: b) =
        flatIndex fast b + (flatIndex slow a * n + i) * fast.prod := by
      rw [flatIndex_append ha, flatIndex, prod_cons]
      ring
    rw [hflat, Nat.add_mul_div_right _ _ (by omega), Nat.div_eq_of_lt hlt, Nat.zero_add]
  refine ⟨hdiv, ?_⟩
  rw [hdiv, Nat.mul_comm, Nat.mul_add_mod, Nat.mod_eq_of_lt hi]

/-- The positions of two indices differ. -/
theorem flatIndex_inj {idx' : List ℕ} (h : Forall₂ (· < ·) idx shape)
    (h' : Forall₂ (· < ·) idx' shape) (heq : flatIndex shape idx = flatIndex shape idx') :
    idx = idx' := by
  induction h generalizing idx' with
  | nil =>
    cases h'
    rfl
  | @cons i n idx shape hi hidx ih =>
    obtain _ | @⟨j, _, idx', _, hj, hidx'⟩ := h'
    have hi' := (flatIndex_decode [] [] rfl hi hidx).1
    have hj' := (flatIndex_decode [] [] rfl hj hidx').1
    rw [nil_append, nil_append] at hi' hj'
    have hij : i = j := by
      rw [heq, hj'] at hi'
      simpa [flatIndex] using hi'.symm
    subst hij
    rw [ih hidx' (by simpa [flatIndex] using heq)]

/-- The multi-index at the position of an index in bounds is that index. -/
theorem getElem?_multiIndices_range (h : Forall₂ (· < ·) idx shape) :
    (multiIndices (shape.map List.range))[flatIndex shape idx]? = some idx := by
  have hlt := flatIndex_lt h
  have hmem : ∀ m ∈ multiIndices (shape.map List.range), Forall₂ (· < ·) m shape := by
    intro m hm
    rw [mem_multiIndices, forall₂_map_right_iff] at hm
    exact hm.imp fun _ _ hi => mem_range.1 hi
  have hlength : (multiIndices (shape.map List.range)).length = shape.prod := by
    rw [length_multiIndices, map_map]
    simp [Function.comp_def]
  have hlt' : flatIndex shape idx < (multiIndices (shape.map List.range)).length := by omega
  have hm : (multiIndices (shape.map List.range))[flatIndex shape idx]? =
      some (multiIndices (shape.map List.range))[flatIndex shape idx] :=
    getElem?_eq_getElem hlt'
  rw [hm]
  have hat := congrArg (·[flatIndex shape idx]?) (map_flatIndex_multiIndices shape)
  simp only [getElem?_map, hm, Option.map_some, getElem?_range hlt] at hat
  exact congrArg some (flatIndex_inj (hmem _ (getElem_mem _)) h (Option.some.inj hat))

/-! ### Arrays -/

/-- A dense array: its shape and its elements in row-major order. -/
structure NdArray (α : Type*) where
  /-- Extents, outermost first. -/
  shape : List ℕ
  /-- Elements in row-major order. -/
  data : List α
  size_eq : data.length = shape.prod
  deriving DecidableEq, Repr

namespace NdArray

variable {α : Type*}
variable {a : NdArray α} {d : List α} {ps : List ℕ} {out : NdArray α} {lists : List (List ℕ)}
variable {t : NdArray α}

theorem ext_data {b : NdArray α} (hs : a.shape = b.shape) (hd : a.data = b.data) : a = b := by
  cases a; cases b; cases hs; cases hd; rfl

/-- A new array whose elements are those found in `fresh`. -/
def empty (shape : List ℕ) (fresh : ℕ → α) : NdArray α where
  shape := shape
  data := (List.range shape.prod).map fresh
  size_eq := by simp

/-- The elements at positions `ps`. -/
def pick (d : List α) (ps : List ℕ) : List α := ps.filterMap (d[·]?)

theorem pick_eq_some (h : ∀ p ∈ ps, p < d.length) :
    (pick d ps).map some = ps.map (d[·]?) := by
  induction ps with
  | nil => rfl
  | cons p ps ih =>
    have hlt : p < d.length := h p mem_cons_self
    have hp : d[p]? = some d[p] := getElem?_eq_getElem hlt
    rw [pick, filterMap_cons_some hp, map_cons, map_cons, hp]
    congr 1
    exact ih fun q hq => h q (mem_cons_of_mem _ hq)

theorem length_pick (h : ∀ p ∈ ps, p < d.length) :
    (pick d ps).length = ps.length := by
  simpa using congrArg List.length (pick_eq_some h)

/-- The sub-array at the product of the index lists; none when an index is outside its axis. -/
def ixGet (a : NdArray α) (lists : List (List ℕ)) : Option (NdArray α) :=
  if h : InBounds lists a.shape then
    some {
      shape := lists.map List.length
      data := pick a.data (positions a.shape lists)
      size_eq := by
        rw [length_pick, length_positions]
        intro p hp
        rw [a.size_eq]
        exact lt_of_mem_positions h hp }
  else none

/-- Write `vs` at positions `ps`, in this order. -/
def place (d : List α) (ps : List ℕ) (vs : List α) : List α :=
  (ps.zip vs).foldl (fun d pv => d.set pv.1 pv.2) d

theorem place_cons (d : List α) (p : ℕ) (ps : List ℕ) (v : α) (vs : List α) :
    place d (p :: ps) (v :: vs) = place (d.set p v) ps vs := rfl

@[simp] theorem length_place (d : List α) (ps : List ℕ) (vs : List α) :
    (place d ps vs).length = d.length := by
  induction ps generalizing d vs with
  | nil => rfl
  | cons p ps ih =>
    cases vs with
    | nil => rfl
    | cons v vs => rw [place_cons, ih, length_set]

/-- Writing back elements picked from `src` leaves the element of `src` at every position
written, also when a position is written several times. -/
theorem getElem?_place_pick {src : List α} (h : ∀ p ∈ ps, p < src.length)
    (hd : d.length = src.length) (q : ℕ) :
    (place d ps (pick src ps))[q]? = if q ∈ ps then src[q]? else d[q]? := by
  induction ps generalizing d with
  | nil => simp [place, pick]
  | cons p ps ih =>
    have hp := h p mem_cons_self
    have hsome : src[p]? = some src[p] := getElem?_eq_getElem hp
    have hps : ∀ r ∈ ps, r < src.length := fun r hr => h r (mem_cons_of_mem _ hr)
    rw [pick, filterMap_cons_some hsome, place_cons, ← pick, ih hps (by simpa using hd)]
    by_cases hq : q ∈ ps
    · simp [hq]
    · by_cases hqp : q = p
      · subst hqp
        simp [hq, hd, hp]
      · have hne : p ≠ q := fun he => hqp he.symm
        simp [hq, hqp, getElem?_set_ne hne]

/-- Write `tile` at the product of the index lists; none when an index is outside its axis or
`tile` has another shape. -/
def ixSet (out : NdArray α) (lists : List (List ℕ)) (tile : NdArray α) : Option (NdArray α) :=
  if InBounds lists out.shape ∧ tile.shape = lists.map List.length then
    some {
      shape := out.shape
      data := place out.data (positions out.shape lists) tile.data
      size_eq := by rw [length_place, out.size_eq] }
  else none

/-- What is written does not depend on what was there. -/
theorem getElem?_place_agree {vs : List α} (hv : vs.length = ps.length) {e : List α}
    (hlen : d.length = e.length) {q : ℕ} (h : q ∈ ps ∨ d[q]? = e[q]?) :
    (place d ps vs)[q]? = (place e ps vs)[q]? := by
  induction ps generalizing d e vs with
  | nil => simpa [place] using h
  | cons p ps ih =>
    cases vs with
    | nil => simp at hv
    | cons v vs =>
      rw [place_cons, place_cons]
      refine ih (by simpa using hv) (by simpa using hlen) ?_
      by_cases hq : q = p
      · subst hq; right; simp [getElem?_set, hlen]
      · rcases h with h | h
        · left; simpa [hq] using h
        · right; rw [getElem?_set_ne (Ne.symm hq), getElem?_set_ne (Ne.symm hq), h]

/-- A tile of the right shape is written at once into two arrays, which then agree wherever it
was written and wherever they agreed before. -/
theorem exists_ixSet_agree {out' tile : NdArray α} (hs : out.shape = out'.shape)
    (hin : InBounds lists out.shape) (ht : tile.shape = lists.map List.length) :
    ∃ r r', out.ixSet lists tile = some r ∧ out'.ixSet lists tile = some r' ∧
      r.shape = out.shape ∧ r'.shape = out'.shape ∧
      ∀ q : ℕ, q ∈ positions out.shape lists ∨ out.data[q]? = out'.data[q]? →
        r.data[q]? = r'.data[q]? := by
  have hin' : InBounds lists out'.shape := by rw [← hs]; exact hin
  refine ⟨⟨out.shape, place out.data (positions out.shape lists) tile.data,
      by rw [length_place, out.size_eq]⟩,
    ⟨out'.shape, place out'.data (positions out'.shape lists) tile.data,
      by rw [length_place, out'.size_eq]⟩,
    by rw [ixSet, if_pos ⟨hin, ht⟩], by rw [ixSet, if_pos ⟨hin', ht⟩], rfl, rfl, fun q hq => ?_⟩
  have hv : tile.data.length = (positions out.shape lists).length := by
    rw [tile.size_eq, ht, length_positions]
  have hlen : out.data.length = out'.data.length := by rw [out.size_eq, out'.size_eq, hs]
  simp only [← hs]
  exact getElem?_place_agree hv hlen hq

theorem shape_ixGet (h : a.ixGet lists = some t) :
    t.shape = lists.map List.length := by
  unfold ixGet at h
  split at h
  · cases h; rfl
  · cases h

theorem ixGet_isSome (h : InBounds lists a.shape) :
    ∃ t, a.ixGet lists = some t := by
  simp only [ixGet, h, ↓reduceDIte, Option.some.injEq, exists_eq']

/-- Writing a sub-array of `a` back to the same product of index lists. -/
theorem exists_ixSet_ixGet (ht : a.ixGet lists = some t) (hs : out.shape = a.shape) :
    ∃ out', out.ixSet lists t = some out' ∧ out'.shape = a.shape ∧
      ∀ p, out'.data[p]? = if p ∈ positions a.shape lists then a.data[p]? else out.data[p]? := by
  have hshape := shape_ixGet ht
  unfold ixGet at ht
  split at ht
  · rename_i hin
    cases ht
    have hin' : InBounds lists out.shape := by rw [hs]; exact hin
    refine ⟨⟨out.shape, place out.data (positions out.shape lists)
        (pick a.data (positions a.shape lists)), by rw [length_place, out.size_eq]⟩,
      by rw [ixSet, if_pos ⟨hin', hshape⟩], hs, fun p => ?_⟩
    have hlt : ∀ p ∈ positions a.shape lists, p < a.data.length := by
      intro p hp; rw [a.size_eq]; exact lt_of_mem_positions hin hp
    have hlen : out.data.length = a.data.length := by rw [out.size_eq, a.size_eq, hs]
    simp only [hs]
    exact getElem?_place_pick hlt hlen p
  · cases ht

end NdArray

end HpcAgentBench
