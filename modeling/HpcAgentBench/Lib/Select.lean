import HpcAgentBench.Lib.NdArray
import Mathlib.Data.List.GetD

/-!
# Selections of a dense array

The flat positions of a product of index lists, cut along its axes; the two operations that
select along one axis (`NdArray.indexSelect` takes the listed indices, `NdArray.narrow` a range);
and those that build an array row by row.

## Main results

* `positions_append_whole` : where the trailing axes are whole, the positions of a product come
  in runs, one for every position of the leading axes.
* `NdArray.ixGet_ixGet` : a selection of a selection is the selection at the composed lists.
* `NdArray.indexSelectFrom_zero` : selecting along one axis after the other is the selection at the
  product of the lists.
-/

namespace HpcAgentBench

open List Option

/-! ### Products of index lists -/

variable {α : Type*} {ns : List ℕ} {ls : List (List ℕ)} {idx : List ℕ} {rs : List (List ℕ)}
variable {shape : List ℕ}

theorem multiIndices_append (ls rs : List (List α)) :
    multiIndices (ls ++ rs) =
      (multiIndices ls).flatMap fun idx => (multiIndices rs).map (idx ++ ·) := by
  induction ls with
  | nil => simp [multiIndices]
  | cons l ls ih =>
    simp only [cons_append, multiIndices, ih, flatMap_assoc, map_flatMap,
      flatMap_map, List.map_map]
    rfl

theorem length_of_mem_multiIndices {ls : List (List α)} {idx : List α} (h : idx ∈ multiIndices ls) :
    idx.length = ls.length :=
  (mem_multiIndices.1 h).length_eq

/-- Whole trailing axes: one run of consecutive positions for every leading position. -/
theorem positions_append_whole (ms : List ℕ) (h : ls.length = ns.length) :
    positions (ns ++ ms) (ls ++ ms.map List.range) =
      (positions ns ls).flatMap fun p => (List.range ms.prod).map (p * ms.prod + ·) := by
  rw [positions, multiIndices_append, map_flatMap, positions, flatMap_map]
  refine flatMap_congr fun idx hidx => ?_
  have hlen : idx.length = ns.length := (length_of_mem_multiIndices hidx).trans h
  rw [← map_flatIndex_multiIndices ms, List.map_map, List.map_map]
  refine map_congr_left fun js _ => ?_
  exact flatIndex_append hlen

/-- The positions of a product are cut with its first list. -/
theorem positions_cons_append (shape : List ℕ) (l l' : List ℕ) (ls : List (List ℕ)) :
    positions shape ((l ++ l') :: ls) = positions shape (l :: ls) ++ positions shape (l' :: ls) := by
  simp only [positions, multiIndices, flatMap_append, map_append]

theorem positions_cons (n : ℕ) (ns l : List ℕ) (ls : List (List ℕ)) :
    positions (n :: ns) (l :: ls) =
      l.flatMap fun i => (positions ns ls).map (i * ns.prod + ·) := by
  simp only [positions, multiIndices, map_flatMap, List.map_map]
  rfl

theorem positions_whole (shape : List ℕ) :
    positions shape (shape.map List.range) = List.range shape.prod :=
  map_flatIndex_multiIndices shape

theorem inBounds_whole (shape : List ℕ) : InBounds (shape.map List.range) shape := by
  induction shape with
  | nil => exact .nil
  | cons n ns ih => exact .cons (fun _ hi => mem_range.1 hi) ih

theorem getElem?_flatMap_const {β : Type*} {f : α → List β} {m : ℕ} (hf : ∀ x, (f x).length = m)
    (l : List α) (i : ℕ) {j : ℕ} (hj : j < m) :
    (l.flatMap f)[i * m + j]? = l[i]?.bind fun x => (f x)[j]? := by
  induction l generalizing i with
  | nil => simp
  | cons x l ih =>
    rw [flatMap_cons]
    cases i with
    | zero => rw [getElem?_append_left (by rw [hf]; omega)]; simp
    | succ i =>
      have hle : (f x).length ≤ (i + 1) * m + j := by rw [hf, Nat.succ_mul]; omega
      have hsub : (i + 1) * m + j - (f x).length = i * m + j := by rw [hf, Nat.succ_mul]; omega
      rw [getElem?_append_right hle, hsub, ih]
      simp

/-- The entries of the lists at the given places. -/
def entries (ls : List (List ℕ)) (idx : List ℕ) : List ℕ :=
  zipWith (fun l i => l.getD i 0) ls idx

/-- The row-major place of an index in the product is its flat index. -/
theorem getElem?_multiIndices (h : Forall₂ (· < ·) idx (ls.map List.length)) :
    (multiIndices ls)[flatIndex (ls.map List.length) idx]? = some (entries ls idx) := by
  induction ls generalizing idx with
  | nil => cases h; rfl
  | cons l ls ih =>
    rw [map_cons] at h
    cases h with
    | @cons i _ is _ hi his =>
      have hlt : flatIndex (ls.map List.length) is < (ls.map List.length).prod := flatIndex_lt his
      have hlen : ∀ x : ℕ, ((multiIndices ls).map (x :: ·)).length =
          (ls.map List.length).prod := fun x => by rw [length_map, length_multiIndices]
      have hl : l[i]? = some (l.getD i 0) := by
        rw [getD_eq_getElem _ _ hi, getElem?_eq_getElem hi]
      rw [multiIndices, map_cons, flatIndex, getElem?_flatMap_const hlen _ _ hlt, hl,
        bind_some, getElem?_map, ih his]
      rfl

/-- The lists of a selection made inside a selection. -/
def composeLists (ls rs : List (List ℕ)) : List (List ℕ) :=
  zipWith (fun l r => r.map fun i => l.getD i 0) ls rs

theorem multiIndices_composeLists (h : rs.length = ls.length) :
    multiIndices (composeLists ls rs) = (multiIndices rs).map (entries ls) := by
  induction ls generalizing rs with
  | nil =>
    rw [length_nil, length_eq_zero_iff] at h
    subst h
    rfl
  | cons l ls ih =>
    cases rs with
    | nil => cases h
    | cons r rs =>
      have hrs : rs.length = ls.length := Nat.succ.inj h
      have hih := ih hrs
      simp only [composeLists] at hih
      simp only [composeLists, zipWith_cons_cons, multiIndices, hih, map_flatMap,
        flatMap_map, List.map_map]
      rfl

theorem map_length_composeLists (h : rs.length = ls.length) :
    (composeLists ls rs).map List.length = rs.map List.length := by
  induction ls generalizing rs with
  | nil =>
    rw [length_nil, length_eq_zero_iff] at h
    subst h
    rfl
  | cons l ls ih =>
    cases rs with
    | nil => cases h
    | cons r rs =>
      have hih := ih (Nat.succ.inj h)
      simp only [composeLists] at hih
      simp only [composeLists, zipWith_cons_cons, map_cons, length_map, hih]

theorem forall₂_lt_of_mem {lists : List (List ℕ)} (h : InBounds lists shape)
    (hidx : idx ∈ multiIndices lists) :
    Forall₂ (· < ·) idx shape := by
  have hmem := mem_multiIndices.1 hidx
  clear hidx
  induction h generalizing idx with
  | nil => cases hmem; exact .nil
  | cons hl _ ih =>
    cases hmem with
    | cons hi his => exact .cons (hl _ hi) (ih his)

/-- The positions of a composed selection, found through those of the outer one. -/
theorem positions_composeLists (shape : List ℕ) (h : InBounds rs (ls.map List.length)) :
    (positions shape (composeLists ls rs)).map some =
      (positions (ls.map List.length) rs).map ((positions shape ls)[·]?) := by
  have hlen : rs.length = ls.length := by simpa using h.length_eq
  simp only [positions, multiIndices_composeLists hlen, List.map_map]
  refine map_congr_left fun idx hidx => ?_
  have hlt := forall₂_lt_of_mem h hidx
  simp only [Function.comp_apply, getElem?_map, getElem?_multiIndices hlt, map_some]

theorem InBounds.composeLists (hl : InBounds ls shape) (hr : InBounds rs (ls.map List.length)) :
    InBounds (composeLists ls rs) shape := by
  induction hl generalizing rs with
  | nil => cases hr; exact .nil
  | @cons l n ls ns hln _ ih =>
    rw [map_cons] at hr
    cases hr with
    | @cons r _ rs _ hrl hrs =>
      refine .cons ?_ (ih hrs)
      intro x hx
      obtain ⟨i, hi, rfl⟩ := mem_map.1 hx
      rw [getD_eq_getElem _ _ (hrl i hi)]
      exact hln _ (getElem_mem _)

theorem InBounds.append {ls' : List (List ℕ)} {ns' : List ℕ} (h : InBounds ls ns)
    (h' : InBounds ls' ns') : InBounds (ls ++ ls') (ns ++ ns') := by
  induction h with
  | nil => exact h'
  | cons hl _ ih => exact .cons hl ih

namespace NdArray

variable {α : Type*}
variable {a : NdArray α} {lists : List (List ℕ)} {b : NdArray α} {ls rs : List (List ℕ)} {n : ℕ}
variable {done : List (List ℕ)} {rest ns : List ℕ} {out rows : NdArray α} {start stop : ℕ}

/-! ### Selections -/

theorem ixGet_eq_some {t : NdArray α} :
    a.ixGet lists = some t ↔
      InBounds lists a.shape ∧ t.shape = lists.map List.length ∧
        t.data = pick a.data (positions a.shape lists) := by
  unfold ixGet
  split_ifs with h
  · rw [some_inj]
    constructor
    · rintro rfl; exact ⟨h, rfl, rfl⟩
    · rintro ⟨-, hs, hd⟩; exact (ext_data hs hd).symm
  · simp [h]

theorem lt_length_of_mem_positions (h : InBounds lists a.shape) {p : ℕ}
    (hp : p ∈ positions a.shape lists) :
    p < a.data.length := by
  rw [a.size_eq]
  exact lt_of_mem_positions h hp

theorem getElem?_pick {d : List α} {ps : List ℕ} (h : ∀ p ∈ ps, p < d.length) (q : ℕ) :
    (pick d ps)[q]? = ps[q]?.bind (d[·]?) := by
  have hq := congrArg (·[q]?) (pick_eq_some h)
  simp only [getElem?_map] at hq
  cases hps : ps[q]? with
  | none => simpa [hps] using hq
  | some p =>
    rw [hps, map_some] at hq
    obtain ⟨v, hv, hdv⟩ := map_eq_some_iff.1 hq
    rw [hv, hdv, bind_some]

/-- A selection of a selection is the selection at the composed lists. -/
theorem ixGet_ixGet (hb : a.ixGet ls = some b) (hr : InBounds rs (ls.map List.length)) :
    b.ixGet rs = a.ixGet (composeLists ls rs) := by
  obtain ⟨hin, hs, hd⟩ := ixGet_eq_some.1 hb
  have hlen : rs.length = ls.length := by simpa using hr.length_eq
  have hcomp := hin.composeLists hr
  obtain ⟨t, ht⟩ := ixGet_isSome hcomp
  rw [ht]
  obtain ⟨-, hts, htd⟩ := ixGet_eq_some.1 ht
  rw [ixGet_eq_some]
  refine ⟨by rw [hs]; exact hr, by rw [hts, map_length_composeLists hlen], ?_⟩
  have hps : ∀ p ∈ positions a.shape ls, p < a.data.length :=
    fun p hp => lt_length_of_mem_positions hin hp
  have hqs : ∀ q ∈ positions b.shape rs, q < b.data.length :=
    fun q hq => lt_length_of_mem_positions (by rw [hs]; exact hr) hq
  have hcs : ∀ p ∈ positions a.shape (composeLists ls rs), p < a.data.length :=
    fun p hp => lt_length_of_mem_positions hcomp hp
  apply map_injective_iff.2 (some_injective α)
  calc t.data.map some
      = (positions a.shape (composeLists ls rs)).map (a.data[·]?) := by
        rw [htd, pick_eq_some hcs]
    _ = ((positions a.shape (composeLists ls rs)).map some).map (·.bind (a.data[·]?)) := by
        rw [List.map_map]; rfl
    _ = (positions b.shape rs).map (b.data[·]?) := by
        rw [positions_composeLists a.shape hr, List.map_map, hs]
        refine map_congr_left fun q _ => ?_
        rw [Function.comp_apply, hd, getElem?_pick hps]
    _ = (pick b.data (positions b.shape rs)).map some := (pick_eq_some hqs).symm

/-! ### Selecting along one axis -/

/-- One list for every axis: `ix` on `axis`, the whole axis elsewhere. -/
def axisLists (shape : List ℕ) (axis : ℕ) (ix : List ℕ) : List (List ℕ) :=
  (shape.map List.range).set axis ix

/-- The sub-array at the listed indices of one axis; none when the array has no such axis or an
index is outside it. -/
def indexSelect (a : NdArray α) (axis : ℕ) (ix : List ℕ) : Option (NdArray α) :=
  if axis < a.shape.length then a.ixGet (axisLists a.shape axis ix) else none

/-- The sub-array of `length` indices of one axis from `start` on; none when they leave it. -/
def narrow (a : NdArray α) (axis start length : ℕ) : Option (NdArray α) :=
  if start + length ≤ a.shape.getD axis 0 then a.indexSelect axis (List.range' start length)
  else none

/-- Selecting along every axis, one after the other, from axis `k` on. -/
def indexSelectFrom (a : NdArray α) (k : ℕ) : List (List ℕ) → Option (NdArray α)
  | [] => some a
  | ix :: lists => do (← a.indexSelect k ix).indexSelectFrom (k + 1) lists

theorem map_getD_range_length (l : List ℕ) : (List.range l.length).map (l.getD · 0) = l := by
  apply ext_getElem
  · simp
  · intro i h _
    rw [getElem_map, getElem_range, getD_eq_getElem]

theorem map_getD_range {l : List ℕ} (h : ∀ i ∈ l, i < n) :
    l.map ((List.range n).getD · 0) = l := by
  conv_rhs => rw [← map_id l]
  refine map_congr_left fun i hi => ?_
  rw [getD_eq_getElem _ _ (by rw [length_range]; exact h i hi), getElem_range, id]

theorem composeLists_length_range (ls : List (List ℕ)) :
    composeLists ls ((ls.map List.length).map List.range) = ls := by
  induction ls with
  | nil => rfl
  | cons l ls ih =>
    simp only [composeLists, map_cons, zipWith_cons_cons, map_getD_range_length] at ih ⊢
    rw [ih]

theorem composeLists_append {ls' rs' : List (List ℕ)} (h : ls.length = rs.length) :
    composeLists (ls ++ ls') (rs ++ rs') = composeLists ls rs ++ composeLists ls' rs' :=
  zipWith_append h

theorem composeLists_cons (l r : List ℕ) (ls rs : List (List ℕ)) :
    composeLists (l :: ls) (r :: rs) = (r.map fun i => l.getD i 0) :: composeLists ls rs := rfl

theorem map_length_range (shape : List ℕ) :
    (shape.map List.range).map List.length = shape := by
  rw [List.map_map]
  conv_rhs => rw [← map_id shape]
  exact map_congr_left fun n _ => length_range

theorem axisLists_append (ns : List ℕ) (n : ℕ) (ms ix : List ℕ) :
    axisLists (ns ++ n :: ms) ns.length ix =
      ns.map List.range ++ ix :: ms.map List.range := by
  rw [axisLists, map_append, set_append_right _ _ (by simp)]
  simp

/-- One more axis selected: the invariant of selecting along one axis after the other. -/
theorem indexSelect_step {ix : List ℕ} (hb : a.ixGet (done ++ (n :: rest).map List.range) = some b)
    (hix : ∀ i ∈ ix, i < n) :
    b.indexSelect done.length ix = a.ixGet (done ++ ix :: rest.map List.range) := by
  obtain ⟨-, hs, -⟩ := ixGet_eq_some.1 hb
  have hshape : b.shape = done.map List.length ++ n :: rest := by
    rw [hs, map_append, map_length_range]
  have hdone : done.length = (done.map List.length).length := by rw [length_map]
  have hin : InBounds ((done.map List.length).map List.range ++ ix :: rest.map List.range)
      ((done ++ (n :: rest).map List.range).map List.length) := by
    rw [← hs, hshape]
    exact (inBounds_whole _).append (.cons hix (inBounds_whole _))
  rw [indexSelect, if_pos (by rw [hshape]; simp), hshape]
  conv_lhs => rw [hdone, axisLists_append]
  rw [ixGet_ixGet hb hin, composeLists_append (by simp), composeLists_length_range, map_cons,
    composeLists_cons, map_getD_range hix]
  congr 3
  have hrest := composeLists_length_range (rest.map List.range)
  rwa [map_length_range] at hrest

/-- **Selecting along one axis after the other is the selection at the product.** -/
theorem indexSelectFrom_eq {todo : List (List ℕ)} (hshape : a.shape = ns ++ rest)
    (hdone : InBounds done ns) (htodo : InBounds todo rest)
    (hb : a.ixGet (done ++ rest.map List.range) = some b) :
    b.indexSelectFrom done.length todo = a.ixGet (done ++ todo) := by
  induction htodo generalizing b done ns with
  | nil => exact hb.symm
  | @cons ix n todo rest hix _ ih =>
    have hdone' : InBounds (done ++ [ix]) (ns ++ [n]) := hdone.append (.cons hix .nil)
    have hin : InBounds (done ++ [ix] ++ rest.map List.range) a.shape := by
      rw [hshape, append_cons ns]
      exact hdone'.append (inBounds_whole rest)
    obtain ⟨c, hc⟩ := ixGet_isSome hin
    have hlen : (done ++ [ix]).length = done.length + 1 := by simp
    rw [indexSelectFrom, indexSelect_step hb hix, append_cons, hc, bind_eq_bind,
      bind_some, ← hlen, ih (by rw [hshape, append_cons]) hdone' hc,
      ← append_cons]

theorem ixGet_whole (a : NdArray α) : a.ixGet (a.shape.map List.range) = some a := by
  rw [ixGet_eq_some]
  refine ⟨inBounds_whole _, (map_length_range _).symm, ?_⟩
  rw [positions_whole, ← a.size_eq]
  apply map_injective_iff.2 (some_injective α)
  rw [pick_eq_some fun p hp => mem_range.1 hp]
  apply ext_getElem
  · simp
  · intro i hi _
    rw [length_map] at hi
    simp [hi]

/-- Selecting along every axis of an array, from the first on. -/
theorem indexSelectFrom_zero (h : InBounds lists a.shape) :
    a.indexSelectFrom 0 lists = a.ixGet lists :=
  indexSelectFrom_eq (nil_append a.shape).symm .nil h a.ixGet_whole

/-! ### Building an array -/

/-- A one-dimensional array. -/
def vector (l : List α) : NdArray α where
  shape := [l.length]
  data := l
  size_eq := by simp

/-- `f` of every element. -/
def map {β : Type*} (f : α → β) (a : NdArray α) : NdArray β where
  shape := a.shape
  data := a.data.map f
  size_eq := by rw [length_map, a.size_eq]

/-- The broadcast sum of two arrays that share no axis: the axes of `a`, then those of `b`. -/
def outerAdd (a b : NdArray ℕ) : NdArray ℕ where
  shape := a.shape ++ b.shape
  data := a.data.flatMap fun x => b.data.map (x + ·)
  size_eq := by
    simp only [length_flatMap, length_map, map_const', sum_replicate,
      smul_eq_mul, a.size_eq, b.size_eq, prod_append]

theorem length_setRows (hs : out.shape = n :: ns)
    (h : start ≤ stop ∧ stop ≤ n ∧ rows.shape = (stop - start) :: ns) :
    (out.data.take (start * ns.prod) ++ rows.data ++ out.data.drop (stop * ns.prod)).length =
      out.shape.prod := by
  obtain ⟨h₁, h₂, h₃⟩ := h
  obtain ⟨k, rfl⟩ := Nat.exists_eq_add_of_le h₁
  obtain ⟨l, rfl⟩ := Nat.exists_eq_add_of_le h₂
  have hd : out.data.length = (start + k + l) * ns.prod := by
    rw [out.size_eq, hs, prod_cons]
  have hr : rows.data.length = k * ns.prod := by
    rw [rows.size_eq, h₃, prod_cons, Nat.add_sub_cancel_left]
  simp only [length_append, length_take, length_drop, hd, hr, hs, prod_cons,
    Nat.add_mul]
  omega

/-- `out[start:stop] = rows`; none when `rows` has another shape than what it is written over. -/
def setRows (out : NdArray α) (start stop : ℕ) (rows : NdArray α) : Option (NdArray α) :=
  match hs : out.shape with
  | [] => none
  | n :: ns =>
    if h : start ≤ stop ∧ stop ≤ n ∧ rows.shape = (stop - start) :: ns then
      some {
        shape := out.shape
        data := out.data.take (start * ns.prod) ++ rows.data ++ out.data.drop (stop * ns.prod)
        size_eq := length_setRows hs h }
    else none

theorem exists_setRows (hs : out.shape = n :: ns) (h₁ : start ≤ stop) (h₂ : stop ≤ n)
    (h₃ : rows.shape = (stop - start) :: ns) :
    ∃ out', out.setRows start stop rows = some out' ∧ out'.shape = n :: ns ∧
      out'.data = out.data.take (start * ns.prod) ++ rows.data ++ out.data.drop (stop * ns.prod) := by
  obtain ⟨shape, data, size⟩ := out
  subst hs
  simp only [setRows, h₁, h₂, h₃, and_self, ↓reduceDIte, some.injEq, exists_eq_left']

end NdArray

end HpcAgentBench
