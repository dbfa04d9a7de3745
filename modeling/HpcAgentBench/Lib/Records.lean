import Mathlib

/-!
# Files of records

A file of blocks that holds records one after another, each a header block and the data blocks the
header announces.  Records are appended data first, in any order, and then header by header.

## Main results

* `members_blocks` : the records are read up to the first block that is no header.
* `torn_spec` : whatever an append was interrupted at, the file holds a prefix of its records, and
  the blocks after them are no headers.
-/

namespace HpcAgentBench

open List

namespace Records

/-- How a header is read off a block, and how many data blocks follow it.  `zero` is a block never
written. -/
structure Format (B H : Type*) where
  decode : B → Option H
  count : H → ℕ
  zero : B
  decode_zero : decode zero = none

variable {B H : Type*} {fmt : Format B H}

/-- A record: its header block and its data blocks. -/
structure Rec (fmt : Format B H) where
  head : H
  top : B
  data : List B
  decode_top : fmt.decode top = some head
  length_eq : data.length = fmt.count head

/-- The blocks of a record. -/
def Rec.blocks (r : Rec fmt) : List B := r.top :: r.data

/-- The blocks of records one after another. -/
def blocks (rs : List (Rec fmt)) : List B := rs.flatMap Rec.blocks

/-- What is read of a record. -/
def Rec.member (r : Rec fmt) : H × List B := (r.head, r.data)

/-- The records among the first blocks of a file: up to the first block that is no header or
announces more than the file holds. -/
def scan (fmt : Format B H) : ℕ → List B → List (H × List B)
  | n + 1, top :: rest =>
    match fmt.decode top with
    | none => []
    | some h =>
      if fmt.count h ≤ rest.length then
        (h, rest.take (fmt.count h)) :: scan fmt n (rest.drop (fmt.count h))
      else []
  | _, _ => []

/-- The records of a file. -/
def members (fmt : Format B H) (l : List B) : List (H × List B) := scan fmt l.length l

/-- The blocks up to the end of the last record. -/
def endOf (fmt : Format B H) (l : List B) : ℕ :=
  ((members fmt l).map fun m => 1 + fmt.count m.1).sum

/-- No block reads as a header. -/
def Bare (fmt : Format B H) (l : List B) : Prop := ∀ b ∈ l, fmt.decode b = none

/-! ### Writing -/

/-- One block written; a file that is too short is filled up with blocks never written. -/
def write (fmt : Format B H) (l : List B) (w : B × ℕ) : List B :=
  (l ++ replicate (w.2 + 1 - l.length) fmt.zero).set w.2 w.1

/-- The data blocks of records appended at block `i`, with their places. -/
def dataWrites : ℕ → List (Rec fmt) → List (B × ℕ)
  | _, [] => []
  | i, r :: rs => r.data.zipIdx (i + 1) ++ dataWrites (i + r.blocks.length) rs

/-- Their header blocks, in order. -/
def headWrites : ℕ → List (Rec fmt) → List (B × ℕ)
  | _, [] => []
  | i, r :: rs => (r.top, i) :: headWrites (i + r.blocks.length) rs

/-- The file after some data blocks `ws` of an append and the first `k` headers. -/
def torn (l : List B) (rs : List (Rec fmt)) (ws : List (B × ℕ)) (k : ℕ) : List B :=
  (ws ++ headWrites (endOf fmt l) (rs.take k)).foldl (write fmt) l

variable {l F stale : List B} {w : B × ℕ} {ws : List (B × ℕ)} {b : B} {i j k n : ℕ}
variable {r : Rec fmt} {rs new : List (Rec fmt)}

theorem blocks_cons : blocks (r :: rs) = r.blocks ++ blocks rs := rfl

theorem blocks_append : blocks (rs ++ new) = blocks rs ++ blocks new := flatMap_append

theorem scan_blocks (h : Bare fmt stale) (hn : rs.length ≤ n) :
    scan fmt n (blocks rs ++ stale) = rs.map Rec.member := by
  induction rs generalizing n with
  | nil =>
    cases n with
    | zero => rfl
    | succ n =>
      cases stale with
      | nil => rfl
      | cons b stale =>
        rw [blocks, flatMap_nil, nil_append, scan, h b mem_cons_self]
        rfl
  | cons r rs ih =>
    obtain ⟨n, rfl⟩ : ∃ m, n = m + 1 := ⟨n - 1, by simp at hn; omega⟩
    rw [blocks_cons, append_assoc, Rec.blocks, cons_append, scan, r.decode_top]
    dsimp only
    rw [if_pos (by simp [r.length_eq]), ← r.length_eq, take_left' rfl, drop_left' rfl,
      ih (by simpa using hn)]
    rfl

/-- **The records of a file**, when what follows them are no headers. -/
theorem members_blocks (h : Bare fmt stale) :
    members fmt (blocks rs ++ stale) = rs.map Rec.member := by
  have hlen : rs.length ≤ (blocks rs).length := by
    induction rs with
    | nil => exact Nat.le_refl 0
    | cons r rs ih =>
      rw [blocks_cons, length_append, Rec.blocks, length_cons, length_cons]
      omega
  exact scan_blocks h (by rw [length_append]; omega)

theorem endOf_blocks (h : Bare fmt stale) :
    endOf fmt (blocks rs ++ stale) = (blocks rs).length := by
  rw [endOf, members_blocks h, blocks, length_flatMap, map_map]
  congr 1
  refine map_congr_left fun r _ => ?_
  simp [Rec.member, Rec.blocks, r.length_eq, Nat.add_comm]

/-! ### What writes leave -/

theorem getElem?_write :
    (write fmt l w)[j]? = if j = w.2 then some w.1
      else if j < l.length then l[j]? else if j < w.2 then some fmt.zero else none := by
  rw [write, getElem?_set]
  by_cases hj : j = w.2
  · subst hj
    rw [if_pos rfl, if_pos rfl, if_pos (by simp; omega)]
  · rw [if_neg (Ne.symm hj), if_neg hj, getElem?_append]
    split
    · rfl
    · rw [getElem?_replicate]
      exact if_congr (by omega) rfl rfl

/-- A block of the file was written, was there before, or was never written. -/
theorem getElem?_writes (h : (ws.foldl (write fmt) l)[j]? = some b) :
    (b, j) ∈ ws ∨ l[j]? = some b ∨ b = fmt.zero := by
  induction ws using List.reverseRecOn with
  | nil => exact .inr (.inl h)
  | append_singleton ws w ih =>
    rw [foldl_append, foldl_cons, foldl_nil, getElem?_write] at h
    split at h
    next hj =>
      subst hj
      obtain rfl := Option.some.inj h
      exact .inl (mem_append_right ws mem_cons_self)
    · split at h
      · exact (ih h).imp_left (mem_append_left _)
      · split at h
        · exact .inr (.inr (Option.some.inj h).symm)
        · cases h

/-- Writes of one final content keep what is already final. -/
theorem getElem?_writes_of_final (hws : ∀ w ∈ ws, F[w.2]? = some w.1) (hF : F[j]? = some b)
    (h : l[j]? = some b ∨ (b, j) ∈ ws) : (ws.foldl (write fmt) l)[j]? = some b := by
  induction ws using List.reverseRecOn with
  | nil => exact h.resolve_right not_mem_nil
  | append_singleton ws w ih =>
    rw [foldl_append, foldl_cons, foldl_nil, getElem?_write]
    split
    next hj =>
      subst hj
      rw [← hws w (mem_append_right ws mem_cons_self), hF]
    next hj =>
      have hone := ih (fun w hw => hws w (mem_append_left _ hw)) (h.imp_right fun hmem =>
        (mem_append.1 hmem).resolve_right fun hw => hj (by rw [← mem_singleton.1 hw]))
      rw [if_pos (List.getElem?_eq_some_iff.1 hone).1, hone]

theorem dataWrites_append : dataWrites i (rs ++ new) =
    dataWrites i rs ++ dataWrites (i + (blocks rs).length) new := by
  induction rs generalizing i with
  | nil => rfl
  | cons r rs ih =>
    rw [cons_append, dataWrites, ih, dataWrites, append_assoc, blocks_cons, length_append,
      Nat.add_assoc]

theorem exists_of_mem_dataWrites (h : (b, j) ∈ dataWrites i rs) : ∃ r ∈ rs, b ∈ r.data := by
  induction rs generalizing i with
  | nil => cases h
  | cons r rs ih =>
    rcases mem_append.1 h with h | h
    · exact ⟨r, mem_cons_self, fst_mem_of_mem_zipIdx h⟩
    · obtain ⟨r', hr', hb⟩ := ih h
      exact ⟨r', mem_cons_of_mem r hr', hb⟩

/-- Data and headers are the blocks of the records in their places. -/
theorem writes_perm : (dataWrites i rs ++ headWrites i rs).Perm ((blocks rs).zipIdx i) := by
  induction rs generalizing i with
  | nil => exact .refl _
  | cons r rs ih =>
    rw [blocks_cons, zipIdx_append, dataWrites, headWrites, append_assoc]
    exact (perm_middle.append_left _).trans (perm_middle.trans ((ih.append_left _).cons _))

/-- **A torn append.**  A file of records followed by blocks that are no headers holds, after some
of an append's data blocks in any order and, once they are all there, some of its headers in order,
a prefix of the new records followed by blocks that are no headers. -/
theorem torn_spec (hstale : Bare fmt stale) (hnew : ∀ r ∈ new, Bare fmt r.data)
    (hws : ws ⊆ dataWrites (blocks rs).length new)
    (hall : k = 0 ∨ dataWrites (blocks rs).length new ⊆ ws) :
    ∃ stale', torn (blocks rs ++ stale) new ws k = blocks (rs ++ new.take k) ++ stale' ∧
      Bare fmt stale' := by
  rw [torn, endOf_blocks hstale, blocks_append]
  generalize hdone : ws ++ headWrites (blocks rs).length (new.take k) = done
  have hhead : ∀ w ∈ headWrites (blocks rs).length (new.take k),
      w ∈ (blocks (new.take k)).zipIdx (blocks rs).length :=
    fun w hw => writes_perm.subset (mem_append_right _ hw)
  have hfinal : ∀ w ∈ done, (blocks rs ++ blocks new)[w.2]? = some w.1 := by
    intro w hw
    have hplace : w ∈ (blocks new).zipIdx (blocks rs).length := by
      rw [← hdone] at hw
      rcases mem_append.1 hw with hw | hw
      · exact writes_perm.subset (mem_append_left _ (hws hw))
      · rw [← take_append_drop k new, blocks_append, zipIdx_append]
        exact mem_append_left _ (hhead w hw)
    obtain ⟨hle, hget⟩ := mk_mem_zipIdx_iff_le_and_getElem?_sub.1 hplace
    rw [getElem?_append_right hle, hget]
  have hprefix : ∀ (j : ℕ) (b : B), (blocks rs ++ blocks (new.take k))[j]? = some b →
      (done.foldl (write fmt) (blocks rs ++ stale))[j]? = some b := by
    intro j b hj
    have hF : (blocks rs ++ blocks new)[j]? = some b := by
      rw [← take_append_drop k new, blocks_append, ← append_assoc,
        getElem?_append_left (List.getElem?_eq_some_iff.1 hj).1, hj]
    refine getElem?_writes_of_final hfinal hF ?_
    rw [getElem?_append] at hj
    split at hj
    next hlt => exact .inl ((getElem?_append_left hlt).trans hj)
    next hge =>
      refine .inr (hdone ▸ mem_append.2 ?_)
      rcases mem_append.1 (writes_perm.symm.subset (mk_mem_zipIdx_iff_le_and_getElem?_sub.2
        ⟨Nat.not_lt.1 hge, hj⟩)) with hmem | hmem
      · rcases hall with rfl | hall
        · simp [blocks] at hj
        · rw [← take_append_drop k new, dataWrites_append] at hall
          exact .inl (hall (mem_append_left _ hmem))
      · exact .inr hmem
  -- the new records and what was there before are a prefix of the file
  have htake : (done.foldl (write fmt) (blocks rs ++ stale)).take
      (blocks rs ++ blocks (new.take k)).length = blocks rs ++ blocks (new.take k) := by
    refine ext_getElem? fun j => ?_
    rw [getElem?_take]
    split
    next hlt =>
      rw [getElem?_eq_getElem hlt]
      exact hprefix j _ (getElem?_eq_getElem hlt)
    next hge => exact (getElem?_eq_none (Nat.not_lt.1 hge)).symm
  refine ⟨_, (take_append_drop _ _).symm.trans (congrArg (· ++ _) htake), fun b hb => ?_⟩
  obtain ⟨j, hj⟩ := mem_iff_getElem?.1 hb
  rw [getElem?_drop, length_append] at hj
  rcases getElem?_writes hj with hmem | hold | rfl
  · rw [← hdone] at hmem
    rcases mem_append.1 hmem with hmem | hmem
    · obtain ⟨r, hr, hbr⟩ := exists_of_mem_dataWrites (hws hmem)
      exact hnew r hr b hbr
    · have hget := (mk_mem_zipIdx_iff_le_and_getElem?_sub.1 (hhead _ hmem)).2
      have hlt := (List.getElem?_eq_some_iff.1 hget).1
      omega
  · rw [getElem?_append_right (by omega)] at hold
    exact hstale b (mem_of_getElem? hold)
  · exact fmt.decode_zero

end Records

end HpcAgentBench
