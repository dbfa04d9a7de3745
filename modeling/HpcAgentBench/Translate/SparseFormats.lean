import Mathlib.Algebra.BigOperators.Ring.Finset

/-!
# Sparse matrices

A sparse matrix is a list of entries, and stands for the dense matrix of their sums.  For each
storage format: what its buffers hold, when they are well formed, and the entries they store.

## Main results

* `gather_row` : the sums of a scattered product are the dense product.
* `dense_transpose` : the transpose of the entries stands for the transpose.
-/

namespace HpcAgentBench

open List

namespace Translate

/-! ### Sums by key -/

section Gather

variable {α ι K : Type*} [DecidableEq ι] [AddCommMonoid K]
variable {β κ : Type*} {key : α → ι} {f : α → K} {items : List α} {i : ι}

/-- What some items add up to under a key. -/
def gather (key : α → ι) (f : α → K) (items : List α) (i : ι) : K :=
  ((items.filter fun a => key a = i).map f).sum

theorem gather_append (key : α → ι) (f : α → K) (items items' : List α) (i : ι) :
    gather key f (items ++ items') i = gather key f items i + gather key f items' i := by
  simp only [gather, filter_append, map_append, sum_append]

theorem gather_singleton (key : α → ι) (f : α → K) (a : α) (i : ι) :
    gather key f [a] i = if key a = i then f a else 0 := by
  by_cases h : key a = i <;> simp [gather, h]

/-- **One more item.** -/
theorem gather_concat (key : α → ι) (f : α → K) (items : List α) (a : α) :
    gather key f (items ++ [a]) =
      Function.update (gather key f items) (key a) (gather key f items (key a) + f a) := by
  funext i
  rw [gather_append, gather_singleton]
  by_cases h : key a = i
  · subst h
    rw [if_pos rfl, Function.update_self]
  · rw [if_neg h, add_zero, Function.update_of_ne (Ne.symm h)]

theorem gather_map (g : β → α) (key : α → ι) (f : α → K) (items : List β) :
    gather key f (items.map g) = gather (key ∘ g) (f ∘ g) items := by
  funext i
  simp only [gather, filter_map, map_map]
  rfl

theorem gather_congr [DecidableEq κ] {key' : α → κ} {f' : α → K} {i' : κ}
    (hkey : ∀ a ∈ items, key a = i ↔ key' a = i') (hf : ∀ a ∈ items, key a = i → f a = f' a) :
    gather key f items i = gather key' f' items i' := by
  have hfilter : (items.filter fun a => key a = i) = items.filter fun a => key' a = i' :=
    filter_congr fun a ha => by simp only [hkey a ha]
  rw [gather, gather, ← hfilter]
  refine congrArg List.sum (map_congr_left fun a ha => ?_)
  obtain ⟨hmem, hi⟩ := mem_filter.1 ha
  exact hf a hmem (of_decide_eq_true hi)

theorem gather_flatMap (key : α → ι) (f : α → K) (l : List β) (g : β → List α) (i : ι) :
    gather key f (l.flatMap g) i = (l.map fun b => gather key f (g b) i).sum := by
  induction l with
  | nil => rfl
  | cons b l ih => rw [flatMap_cons, gather_append, ih, map_cons, sum_cons]

theorem gather_mul_left {R : Type*} [Semiring R] (key : α → ι) (f : α → R) (c : R)
    (items : List α) (i : ι) :
    gather key (fun a => c * f a) items i = c * gather key f items i := by
  rw [gather, gather, ← sum_map_mul_left]

theorem gather_of_not_mem (f : α → K) (h : ∀ a ∈ items, key a ≠ i) : gather key f items i = 0 := by
  have hnone : items.filter (fun a => key a = i) = [] :=
    filter_eq_nil_iff.2 fun a ha => by simpa using h a ha
  rw [gather, hnone, map_nil, sum_nil]

/-- Distinct keys. -/
theorem gather_nodup {items : List ι} (hnodup : items.Nodup) (f : ι → K) (hi : i ∈ items) :
    gather id f items i = f i := by
  obtain ⟨l, l', rfl⟩ := append_of_mem hi
  obtain ⟨-, htail, hdisjoint⟩ := nodup_append'.1 hnodup
  have hl : ∀ a ∈ l, id a ≠ i := fun a ha hai => hdisjoint ha (hai ▸ mem_cons_self)
  have hl' : ∀ a ∈ l', id a ≠ i := fun a ha hai => (nodup_cons.1 htail).1 (hai ▸ ha)
  have hsplit := gather_append id f [i] l' i
  rw [singleton_append] at hsplit
  rw [gather_append, hsplit, gather_of_not_mem f hl, gather_of_not_mem f hl', gather_singleton,
    zero_add, add_zero]
  exact if_pos rfl

/-- Items that lie row by row. -/
theorem gather_rows {row : α → ℕ} {items : ℕ → List α} (hrow : ∀ i, ∀ a ∈ items i, row a = i)
    (n i : ℕ) :
    gather row f ((List.range n).flatMap items) i =
      if i < n then ((items i).map f).sum else 0 := by
  induction n with
  | zero => rfl
  | succ n ih =>
    rw [range_succ, flatMap_append, flatMap_singleton, gather_append, ih, gather]
    by_cases hi : i = n
    · subst hi
      rw [if_neg (Nat.lt_irrefl i), if_pos (Nat.lt_succ_self i), zero_add,
        filter_eq_self.2 fun a ha => decide_eq_true (hrow i a ha)]
    · have hnone := gather_of_not_mem f fun a ha => (hrow n a ha).trans_ne (Ne.symm hi)
      rw [gather] at hnone
      rw [hnone, add_zero]
      exact if_congr (by omega) rfl rfl

theorem gather_pair [DecidableEq κ] (row : α → ι) (col : α → κ) (f : α → K) (items : List α) (i : ι)
    (j : κ) :
    gather (fun a => (row a, col a)) f items (i, j) =
      gather row f (items.filter fun a => col a = j) i := by
  simp only [gather, filter_filter, Prod.mk.injEq, Bool.decide_and]

end Gather

/-! ### Entries -/

/-- A stored entry. -/
structure Entry (K : Type*) where
  row : ℕ
  col : ℕ
  val : K

namespace Entry

variable {K : Type*}

/-- The entry of the transpose. -/
def swap (e : Entry K) : Entry K := ⟨e.col, e.row, e.val⟩

end Entry

section Dense

variable {K : Type*} [Semiring K] {entries : List (Entry K)} {cols : ℕ}

/-- The dense matrix of some entries. -/
def dense (entries : List (Entry K)) (i j : ℕ) : K :=
  gather (fun e => (e.row, e.col)) Entry.val entries (i, j)

/-- The product of a matrix and a vector. -/
def mulVec (cols : ℕ) (A : ℕ → ℕ → K) (x : ℕ → K) (i : ℕ) : K :=
  ∑ j ∈ Finset.range cols, A i j * x j

theorem dense_transpose (entries : List (Entry K)) (i j : ℕ) :
    dense (entries.map Entry.swap) i j = dense entries j i := by
  rw [dense, gather_map]
  exact gather_congr (fun e _ => by simp [Entry.swap, and_comm]) fun _ _ _ => rfl

/-- **The dense product, entry by entry.** -/
theorem gather_row (hcols : ∀ e ∈ entries, e.col < cols) (x : ℕ → K) (i : ℕ) :
    gather (fun e : Entry K => e.row) (fun e => e.val * x e.col) entries i =
      mulVec cols (dense entries) x i := by
  induction entries with
  | nil => simp [gather, mulVec, dense]
  | cons e entries ih =>
    obtain ⟨he, hcols⟩ := forall_mem_cons.1 hcols
    have hdense : ∀ j, dense (e :: entries) i j = dense [e] i j + dense entries i j :=
      fun j => gather_append _ _ [e] entries (i, j)
    have hsplit := gather_append (fun e : Entry K => e.row) (fun e => e.val * x e.col) [e] entries i
    rw [singleton_append] at hsplit
    rw [hsplit, ih hcols, mulVec, mulVec]
    simp only [hdense, add_mul, Finset.sum_add_distrib]
    congr 1
    rw [gather_singleton]
    by_cases hrow : e.row = i
    · rw [if_pos hrow, Finset.sum_eq_single_of_mem e.col (Finset.mem_range.2 he)]
      · simp [dense, gather, hrow]
      · intro j _ hj
        simp [dense, gather, Ne.symm hj]
    · rw [if_neg hrow]
      exact (Finset.sum_eq_zero fun j _ => by simp [dense, gather, hrow]).symm

end Dense

/-! ### The storage formats -/

section Formats

variable {K : Type*}
variable {i : ℕ}

/-- Compressed rows, or columns: where the slots of each are, and what is in the slots. -/
structure Compressed where
  outer : ℕ
  inner : ℕ
  slots : ℕ
  indptr : ℕ → ℕ
  indices : ℕ → ℕ

namespace Compressed

structure WellFormed (s : Compressed) : Prop where
  mono : ∀ i < s.outer, s.indptr i ≤ s.indptr (i + 1)
  last : ∀ i ≤ s.outer, s.indptr i ≤ s.slots
  inner : ∀ i < s.outer, ∀ k, s.indptr i ≤ k → k < s.indptr (i + 1) → s.indices k < s.inner

variable {s : Compressed} {i k : ℕ}

theorem WellFormed.of_slots (mono : ∀ i < s.outer, s.indptr i ≤ s.indptr (i + 1))
    (last : ∀ i ≤ s.outer, s.indptr i ≤ s.slots) (inner : ∀ k < s.slots, s.indices k < s.inner) :
    s.WellFormed :=
  ⟨mono, last, fun i hi k _ hk => inner k (Nat.lt_of_lt_of_le hk (last (i + 1) hi))⟩

/-- The slots of one row. -/
def rowSlots (s : Compressed) (i : ℕ) : List ℕ :=
  List.range' (s.indptr i) (s.indptr (i + 1) - s.indptr i)

/-- The slots, each with its row. -/
def visits (s : Compressed) : List (ℕ × ℕ) :=
  (List.range s.outer).flatMap fun i => (s.rowSlots i).map fun k => (i, k)

theorem mem_rowSlots (h : s.WellFormed) (hi : i < s.outer) :
    k ∈ s.rowSlots i ↔ s.indptr i ≤ k ∧ k < s.indptr (i + 1) := by
  have := h.mono i hi
  rw [rowSlots, mem_range'_1]
  omega

theorem WellFormed.slot_lt (hs : s.WellFormed) (hi : i < s.outer) (hk : k ∈ s.rowSlots i) :
    k < s.slots :=
  Nat.lt_of_lt_of_le ((s.mem_rowSlots hs hi).1 hk).2 (hs.last _ hi)

theorem WellFormed.col_lt (hs : s.WellFormed) (hi : i < s.outer) (hk : k ∈ s.rowSlots i) :
    s.indices k < s.inner :=
  have ⟨hlo, hhi⟩ := (s.mem_rowSlots hs hi).1 hk
  hs.inner i hi k hlo hhi

end Compressed

/-- Coordinates. -/
structure Coordinates where
  rows : ℕ
  cols : ℕ
  slots : ℕ
  row : ℕ → ℕ
  col : ℕ → ℕ

structure Coordinates.WellFormed (s : Coordinates) : Prop where
  row : ∀ k < s.slots, s.row k < s.rows
  col : ∀ k < s.slots, s.col k < s.cols

/-- Diagonals, with their values by column. -/
structure Diagonals (K : Type*) where
  rows : ℕ
  cols : ℕ
  count : ℕ
  offsets : ℕ → ℤ
  data : ℕ → ℕ → K

/-- The diagonals, each with its elements inside the matrix. -/
def Diagonals.entries (s : Diagonals K) : List (Entry K) :=
  (List.range s.count).flatMap fun d => (List.range s.rows).flatMap fun (i : ℕ) =>
    if 0 ≤ i + s.offsets d ∧ i + s.offsets d < s.cols then
      [⟨i, (i + s.offsets d).toNat, s.data d (i + s.offsets d).toNat⟩]
    else []

/-- Rows padded to one width; a negative column is padding. -/
structure Padded (K : Type*) where
  rows : ℕ
  cols : ℕ
  width : ℕ
  indices : ℕ → ℕ → ℤ
  data : ℕ → ℕ → K

structure Padded.WellFormed (s : Padded K) : Prop where
  col : ∀ i < s.rows, ∀ j < s.width, s.indices i j < s.cols

def Padded.entries (s : Padded K) : List (Entry K) :=
  (List.range s.rows).flatMap fun i => (List.range s.width).flatMap fun j =>
    if 0 ≤ s.indices i j then [⟨i, (s.indices i j).toNat, s.data i j⟩] else []

/-- A permutation of the rows. -/
structure IsPerm (rows : ℕ) (perm : ℕ → ℕ) : Prop where
  lt : ∀ r < rows, perm r < rows
  inj : ∀ r < rows, ∀ r' < rows, perm r = perm r' → r = r'

/-- Every row has a place. -/
theorem IsPerm.surj {rows : ℕ} {perm : ℕ → ℕ} (h : IsPerm rows perm) (hi : i < rows) :
    ∃ r < rows, perm r = i := by
  let place (r : Fin rows) : Fin rows := ⟨perm r, h.lt r r.2⟩
  have hinj : Function.Injective place := fun r r' hrr =>
    Fin.ext (h.inj r r.2 r' r'.2 (congrArg Fin.val hrr))
  obtain ⟨r, hr⟩ := Finite.surjective_of_injective hinj ⟨i, hi⟩
  exact ⟨r, r.2, congrArg Fin.val hr⟩

/-- Jagged diagonals: rows in another order, the `d`-th slot of each in diagonal `d`. -/
structure Jagged (K : Type*) where
  rows : ℕ
  cols : ℕ
  count : ℕ
  slots : ℕ
  perm : ℕ → ℕ
  jdPtr : ℕ → ℕ
  colInd : ℕ → ℕ
  jdiag : ℕ → K

structure Jagged.WellFormed (s : Jagged K) : Prop where
  perm : IsPerm s.rows s.perm
  mono : ∀ d < s.count, s.jdPtr d ≤ s.jdPtr (d + 1)
  last : ∀ d ≤ s.count, s.jdPtr d ≤ s.slots
  /-- A diagonal has one slot for a row at most. -/
  length : ∀ d < s.count, s.jdPtr (d + 1) ≤ s.jdPtr d + s.rows
  col : ∀ d < s.count, ∀ r < s.jdPtr (d + 1) - s.jdPtr d, s.colInd (s.jdPtr d + r) < s.cols

/-- The diagonals, each with its rows in the stored order. -/
def Jagged.visits (s : Jagged K) : List (ℕ × ℕ) :=
  (List.range s.count).flatMap fun d =>
    (List.range (s.jdPtr (d + 1) - s.jdPtr d)).map fun r => (d, r)

def Jagged.entries (s : Jagged K) : List (Entry K) :=
  s.visits.map fun p => ⟨s.perm p.2, s.colInd (s.jdPtr p.1 + p.2), s.jdiag (s.jdPtr p.1 + p.2)⟩

/-- Slices of sorted rows, each stored column by column. -/
structure Sliced (K : Type*) where
  rows : ℕ
  cols : ℕ
  height : ℕ
  count : ℕ
  slots : ℕ
  slicePtr : ℕ → ℕ
  width : ℕ → ℕ
  colIdx : ℕ → ℕ
  val : ℕ → K
  rowLen : ℕ → ℕ
  perm : ℕ → ℕ

namespace Sliced

structure WellFormed (s : Sliced K) : Prop where
  perm : IsPerm s.rows s.perm
  height : 0 < s.height
  /-- The slices hold all rows. -/
  rows : s.rows ≤ s.count * s.height
  slice : ∀ n < s.count, s.slicePtr (n + 1) = s.slicePtr n + s.width n * s.height
  last : ∀ n ≤ s.count, s.slicePtr n ≤ s.slots
  /-- A row fits in its slice. -/
  rowLen : ∀ n < s.count, ∀ r < s.height, n * s.height + r < s.rows →
    s.rowLen (n * s.height + r) ≤ s.width n
  col : ∀ n < s.count, ∀ r < s.height, n * s.height + r < s.rows →
    ∀ c < s.rowLen (n * s.height + r), s.colIdx (s.slicePtr n + c * s.height + r) < s.cols

/-- The entries of the row at a place of a slice. -/
def rowEntries (s : Sliced K) (n r : ℕ) : List (Entry K) :=
  (List.range (s.rowLen (n * s.height + r))).map fun c =>
    ⟨s.perm (n * s.height + r), s.colIdx (s.slicePtr n + c * s.height + r),
      s.val (s.slicePtr n + c * s.height + r)⟩

def entries (s : Sliced K) : List (Entry K) :=
  (List.range s.count).flatMap fun n => (List.range s.height).flatMap fun r =>
    if n * s.height + r < s.rows then s.rowEntries n r else []

end Sliced

/-- The elements of a block, each with its place in it. -/
def blockCells (blockRows blockCols : ℕ) : List (ℕ × ℕ) :=
  (List.range blockRows).flatMap fun r =>
    (List.range blockCols).map fun c => (r, c)

/-- A matrix, as it is stored. -/
inductive Storage (K : Type*)
  | csr (s : Compressed) (data : ℕ → K)
  | csc (s : Compressed) (data : ℕ → K)
  | coo (s : Coordinates) (data : ℕ → K)
  | dia (s : Diagonals K)
  | bcsr (s : Compressed) (blockRows blockCols : ℕ) (data : ℕ → ℕ → ℕ → K)
  | bcoo (s : Coordinates) (blockRows blockCols : ℕ) (data : ℕ → ℕ → ℕ → K)
  | ell (s : Padded K)
  | jds (s : Jagged K)
  | sellCSigma (s : Sliced K)

namespace Storage

/-- The format's name. -/
def format : Storage K → String
  | csr .. => "csr"
  | csc .. => "csc"
  | coo .. => "coo"
  | dia .. => "dia"
  | bcsr .. => "bcsr"
  | bcoo .. => "bcoo"
  | ell .. => "ell"
  | jds .. => "jds"
  | sellCSigma .. => "sell_c_sigma"

def rows : Storage K → ℕ
  | csr s _ => s.outer
  | csc s _ => s.inner
  | coo s _ => s.rows
  | dia s => s.rows
  | bcsr s r _ _ => s.outer * r
  | bcoo s r _ _ => s.rows * r
  | ell s => s.rows
  | jds s => s.rows
  | sellCSigma s => s.rows

def cols : Storage K → ℕ
  | csr s _ => s.inner
  | csc s _ => s.outer
  | coo s _ => s.cols
  | dia s => s.cols
  | bcsr s _ c _ => s.inner * c
  | bcoo s _ c _ => s.cols * c
  | ell s => s.cols
  | jds s => s.cols
  | sellCSigma s => s.cols

/-- The buffers of a matrix, by role, with their extents. -/
def bufferShapes : Storage K → List (String × List ℕ)
  | csr s _ => [("indptr", [s.outer + 1]), ("indices", [s.slots]), ("data", [s.slots])]
  | csc s _ => [("indptr", [s.outer + 1]), ("indices", [s.slots]), ("data", [s.slots])]
  | coo s _ => [("row", [s.slots]), ("col", [s.slots]), ("data", [s.slots])]
  | dia s => [("offsets", [s.count]), ("data", [s.count, s.cols])]
  | bcsr s r c _ =>
    [("indptr", [s.outer + 1]), ("indices", [s.slots]), ("data", [s.slots, r, c])]
  | bcoo s r c _ => [("row", [s.slots]), ("col", [s.slots]), ("data", [s.slots, r, c])]
  | ell s => [("indices", [s.rows, s.width]), ("data", [s.rows, s.width])]
  | jds s =>
    [("perm", [s.rows]), ("jd_ptr", [s.count + 1]), ("col_ind", [s.slots]), ("jdiag", [s.slots])]
  | sellCSigma s => [("slice_ptr", [s.count + 1]), ("col_idx", [s.slots]), ("val", [s.slots]),
    ("row_len", [s.rows]), ("perm", [s.rows])]

/-- The invariant of the format. -/
def WellFormed : Storage K → Prop
  | csr s _ => s.WellFormed
  | csc s _ => s.WellFormed
  | coo s _ => s.WellFormed
  | dia _ => True
  | bcsr s _ _ _ => s.WellFormed
  | bcoo s _ _ _ => s.WellFormed
  | ell s => s.WellFormed
  | jds s => s.WellFormed
  | sellCSigma s => s.WellFormed

/-- The stored entries. -/
def entries : Storage K → List (Entry K)
  | csr s data => s.visits.map fun p => ⟨p.1, s.indices p.2, data p.2⟩
  | csc s data => s.visits.map fun p => ⟨s.indices p.2, p.1, data p.2⟩
  | coo s data => (List.range s.slots).map fun k => ⟨s.row k, s.col k, data k⟩
  | dia s => s.entries
  | bcsr s r c data => s.visits.flatMap fun p => (blockCells r c).map fun q =>
      ⟨p.1 * r + q.1, s.indices p.2 * c + q.2, data p.2 q.1 q.2⟩
  | bcoo s r c data => (List.range s.slots).flatMap fun k => (blockCells r c).map fun q =>
      ⟨s.row k * r + q.1, s.col k * c + q.2, data k q.1 q.2⟩
  | ell s => s.entries
  | jds s => s.entries
  | sellCSigma s => s.entries

end Storage

theorem entries_csr (s : Compressed) (data : ℕ → K) :
    (Storage.csr s data).entries = (List.range s.outer).flatMap fun i =>
      (s.rowSlots i).map fun k => ⟨i, s.indices k, data k⟩ := by
  simp only [Storage.entries, Compressed.visits, map_flatMap, map_map]
  rfl

/-- A row of a matrix of compressed rows. -/
theorem dense_csr [Semiring K] (s : Compressed) (data : ℕ → K) (hi : i < s.outer) (j : ℕ) :
    dense (Storage.csr s data).entries i j = gather s.indices data (s.rowSlots i) j := by
  rw [dense, gather_pair, entries_csr, filter_flatMap, gather_rows, if_pos hi]
  · exact congrFun (gather_map (fun k => ((⟨i, s.indices k, data k⟩ : Entry K))) Entry.col Entry.val
      (s.rowSlots i)) j
  · intro i' e he
    obtain ⟨k, -, rfl⟩ := mem_map.1 (mem_filter.1 he).1
    rfl

/-! ### The entries, in the order of a walk -/

theorem walk_csr (s : Compressed) (data : ℕ → K) :
    (Storage.csr s data).entries = (List.range s.outer).flatMap fun i =>
      (s.rowSlots i).flatMap fun k => [⟨i, s.indices k, data k⟩] := by
  simp only [entries_csr, map_eq_flatMap]

theorem walk_csc (s : Compressed) (data : ℕ → K) :
    (Storage.csc s data).entries = (List.range s.outer).flatMap fun j =>
      (s.rowSlots j).flatMap fun k => [⟨s.indices k, j, data k⟩] := by
  simp only [Storage.entries, Compressed.visits, map_eq_flatMap, flatMap_assoc,
    flatMap_singleton]

theorem walk_coo (s : Coordinates) (data : ℕ → K) :
    (Storage.coo s data).entries =
      (List.range s.slots).flatMap fun k => [⟨s.row k, s.col k, data k⟩] := by
  simp only [Storage.entries, map_eq_flatMap]

/-- The entries of a block. -/
def blockEntries (r c bi bj : ℕ) (block : ℕ → ℕ → K) : List (Entry K) :=
  (List.range r).flatMap fun a => (List.range c).flatMap fun b =>
    [⟨bi * r + a, bj * c + b, block a b⟩]

theorem map_blockCells (r c bi bj : ℕ) (block : ℕ → ℕ → K) :
    ((blockCells r c).map fun q => (⟨bi * r + q.1, bj * c + q.2, block q.1 q.2⟩ : Entry K)) =
      blockEntries r c bi bj block := by
  simp only [blockCells, blockEntries, map_eq_flatMap, flatMap_assoc,
    flatMap_singleton]

theorem walk_bcsr (s : Compressed) (r c : ℕ) (data : ℕ → ℕ → ℕ → K) :
    (Storage.bcsr s r c data).entries = (List.range s.outer).flatMap fun bi =>
      (s.rowSlots bi).flatMap fun k => blockEntries r c bi (s.indices k) (data k) := by
  simp only [Storage.entries, Compressed.visits, map_blockCells, flatMap_assoc,
    flatMap_map]

theorem walk_bcoo (s : Coordinates) (r c : ℕ) (data : ℕ → ℕ → ℕ → K) :
    (Storage.bcoo s r c data).entries =
      (List.range s.slots).flatMap fun k => blockEntries r c (s.row k) (s.col k) (data k) := by
  simp only [Storage.entries, map_blockCells]

theorem walk_jds (s : Jagged K) :
    s.entries = (List.range s.count).flatMap fun d =>
      (List.range (s.jdPtr (d + 1) - s.jdPtr d)).flatMap fun r =>
        [⟨s.perm r, s.colInd (s.jdPtr d + r), s.jdiag (s.jdPtr d + r)⟩] := by
  simp only [Jagged.entries, Jagged.visits, map_eq_flatMap, flatMap_assoc,
    flatMap_singleton]

/-- The first items of a longer loop. -/
theorem flatMap_range_guard {α : Type*} {w l : ℕ} (h : l ≤ w) (g : ℕ → α) :
    ((List.range w).flatMap fun c => if c < l then [g c] else []) = (List.range l).map g := by
  obtain ⟨m, rfl⟩ : ∃ m, w = l + m := ⟨w - l, by omega⟩
  have hin : ((List.range l).flatMap fun c => if c < l then [g c] else []) =
      (List.range l).flatMap fun c => [g c] :=
    flatMap_congr fun c hc => if_pos (mem_range.1 hc)
  have hout : ((List.range m).flatMap fun c => if l + c < l then [g (l + c)] else []) = [] :=
    flatMap_eq_nil_iff.2 fun c _ => if_neg (by omega)
  rw [range_add, flatMap_append, flatMap_map, hin, hout, append_nil,
    map_eq_flatMap]

/-- **Entries lie in the matrix.** -/
theorem Storage.entries_lt (st : Storage K) (h : st.WellFormed) {e : Entry K}
    (he : e ∈ st.entries) : e.row < st.rows ∧ e.col < st.cols := by
  have hblock : ∀ {r c bi bj rows cols : ℕ} {block : ℕ → ℕ → K}, bi < rows → bj < cols →
      e ∈ blockEntries r c bi bj block → e.row < rows * r ∧ e.col < cols * c := by
    intro r c bi bj rows cols block hbi hbj he
    obtain ⟨a, ha, he⟩ := mem_flatMap.1 he
    obtain ⟨b, hb, he⟩ := mem_flatMap.1 he
    rw [mem_range] at ha hb
    obtain rfl := mem_singleton.1 he
    have hrow : (bi + 1) * r ≤ rows * r := Nat.mul_le_mul_right r hbi
    have hcol : (bj + 1) * c ≤ cols * c := Nat.mul_le_mul_right c hbj
    rw [Nat.succ_mul] at hrow hcol
    exact ⟨by dsimp only; omega, by dsimp only; omega⟩
  cases st with
  | csr s data =>
    rw [walk_csr] at he
    obtain ⟨i, hi, he⟩ := mem_flatMap.1 he
    obtain ⟨k, hk, he⟩ := mem_flatMap.1 he
    obtain rfl := mem_singleton.1 he
    exact ⟨mem_range.1 hi, Compressed.WellFormed.col_lt h (mem_range.1 hi) hk⟩
  | csc s data =>
    rw [walk_csc] at he
    obtain ⟨j, hj, he⟩ := mem_flatMap.1 he
    obtain ⟨k, hk, he⟩ := mem_flatMap.1 he
    obtain rfl := mem_singleton.1 he
    exact ⟨Compressed.WellFormed.col_lt h (mem_range.1 hj) hk, mem_range.1 hj⟩
  | coo s data =>
    obtain ⟨k, hk, rfl⟩ := mem_map.1 he
    exact ⟨Coordinates.WellFormed.row h k (mem_range.1 hk),
      Coordinates.WellFormed.col h k (mem_range.1 hk)⟩
  | dia s =>
    obtain ⟨d, -, he⟩ := mem_flatMap.1 he
    obtain ⟨i, hi, he⟩ := mem_flatMap.1 he
    by_cases hin : 0 ≤ i + s.offsets d ∧ i + s.offsets d < s.cols
    · rw [if_pos hin] at he
      obtain rfl := mem_singleton.1 he
      refine ⟨mem_range.1 hi, ?_⟩
      change (i + s.offsets d).toNat < s.cols
      omega
    · rw [if_neg hin] at he
      exact absurd he not_mem_nil
  | bcsr s r c data =>
    rw [walk_bcsr] at he
    obtain ⟨bi, hbi, he⟩ := mem_flatMap.1 he
    obtain ⟨k, hk, he⟩ := mem_flatMap.1 he
    have hbi := mem_range.1 hbi
    exact hblock hbi (Compressed.WellFormed.col_lt h hbi hk) he
  | bcoo s r c data =>
    rw [walk_bcoo] at he
    obtain ⟨k, hk, he⟩ := mem_flatMap.1 he
    exact hblock (Coordinates.WellFormed.row h k (mem_range.1 hk))
      (Coordinates.WellFormed.col h k (mem_range.1 hk)) he
  | ell s =>
    obtain ⟨i, hi, he⟩ := mem_flatMap.1 he
    obtain ⟨j, hj, he⟩ := mem_flatMap.1 he
    by_cases hin : 0 ≤ s.indices i j
    · rw [if_pos hin] at he
      obtain rfl := mem_singleton.1 he
      refine ⟨mem_range.1 hi, ?_⟩
      have := Padded.WellFormed.col h i (mem_range.1 hi) j (mem_range.1 hj)
      change (s.indices i j).toNat < s.cols
      omega
    · rw [if_neg hin] at he
      exact absurd he not_mem_nil
  | jds s =>
    rw [Storage.entries, walk_jds] at he
    obtain ⟨d, hd, he⟩ := mem_flatMap.1 he
    obtain ⟨r, hr, he⟩ := mem_flatMap.1 he
    rw [mem_range] at hd hr
    obtain rfl := mem_singleton.1 he
    have := Jagged.WellFormed.length h d hd
    exact ⟨(Jagged.WellFormed.perm h).lt r (by omega), Jagged.WellFormed.col h d hd r hr⟩
  | sellCSigma s =>
    obtain ⟨n, hn, he⟩ := mem_flatMap.1 he
    obtain ⟨r, hr, he⟩ := mem_flatMap.1 he
    rw [mem_range] at hn hr
    by_cases hin : n * s.height + r < s.rows
    · rw [if_pos hin] at he
      obtain ⟨c, hc, rfl⟩ := mem_map.1 he
      exact ⟨(Sliced.WellFormed.perm h).lt _ hin,
        Sliced.WellFormed.col h n hn r hr hin c (mem_range.1 hc)⟩
    · rw [if_neg hin] at he
      exact absurd he not_mem_nil

end Formats

end Translate

end HpcAgentBench
