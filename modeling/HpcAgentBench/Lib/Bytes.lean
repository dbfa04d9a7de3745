import HpcAgentBench.Lib.Python
import Mathlib.Algebra.Order.BigOperators.Group.List
import Mathlib.Tactic.Ring

/-!
# Little-endian bytes and readers

`Cell w` is the bytes of one element of width `w`.  This file has the two register classes of a
binary file (64-bit integers and the bit patterns of doubles), `frombuffer`, which reads a run of
cells at an offset, and readers: computations over a buffer and an offset that moves.

## Main results

* `Cell.toI64_of_i64Cell`, `Cell.toF64_f64Cell` : a number read back from its cell.
* `frombuffer_append` : a run of cells is read where it was written, whatever is before and after.
* `Reads` says that a reader consumes exactly given bytes, wherever they are in the buffer;
  `Reads.bind`, `Reads.mapM` and `Reads.block` compose such readers.
-/

namespace HpcAgentBench

open List

/-! ### Cells -/

/-- The bytes of one element of width `w`. -/
structure Cell (w : ℕ) where
  bytes : List UInt8
  length_eq : bytes.length = w
  deriving DecidableEq

/-- The `w` low bytes of `n`, least significant first. -/
def leBytes : ℕ → ℕ → List UInt8
  | 0, _ => []
  | w + 1, n => UInt8.ofNat n :: leBytes w (n / 256)

/-- The number little-endian bytes spell. -/
def leNat : List UInt8 → ℕ
  | [] => 0
  | b :: bs => b.toNat + 256 * leNat bs

@[simp] theorem length_leBytes (w n : ℕ) : (leBytes w n).length = w := by
  induction w generalizing n with
  | zero => rfl
  | succ w ih => rw [leBytes, length_cons, ih]

theorem leNat_leBytes (w n : ℕ) : leNat (leBytes w n) = n % 256 ^ w := by
  induction w generalizing n with
  | zero => simp [leBytes, leNat, Nat.mod_one]
  | succ w ih =>
    have hb : (UInt8.ofNat n).toNat = n % 256 := by simp
    rw [leBytes, leNat, ih, hb, Nat.pow_succ', Nat.mod_mul]

namespace Cell

variable {w : ℕ}

/-- A cell of the low bytes of `n`. -/
def ofNat (w n : ℕ) : Cell w := ⟨leBytes w n, length_leBytes w n⟩

/-- The cell read as an `int64`. -/
def toI64 (c : Cell 8) : ℤ :=
  if leNat c.bytes < 2 ^ 63 then leNat c.bytes else leNat c.bytes - 2 ^ 64

/-- The cell read as a double, by its bit pattern. -/
def toF64 (c : Cell 8) : UInt64 := UInt64.ofNat (leNat c.bytes)

end Cell

/-- `z` fits a 64-bit signed integer. -/
def FitsI64 (z : ℤ) : Prop := -2 ^ 63 ≤ z ∧ z < 2 ^ 63

instance (z : ℤ) : Decidable (FitsI64 z) := inferInstanceAs (Decidable (_ ∧ _))

/-- The cell of an `int64`. -/
def i64Cell (z : ℤ) : Except PyErr (Cell 8) :=
  if FitsI64 z then .ok (.ofNat 8 (z % 2 ^ 64).toNat) else .error .overflow

/-- The cell of a double. -/
def f64Cell (bits : UInt64) : Cell 8 := .ofNat 8 bits.toNat

theorem Cell.toI64_of_i64Cell {z : ℤ} {c : Cell 8} (h : i64Cell z = .ok c) : c.toI64 = z := by
  unfold i64Cell at h
  split_ifs at h with hz
  obtain ⟨hlo, hhi⟩ := hz
  cases h
  simp only [toI64, ofNat, leNat_leBytes]
  have hmod : (z % 2 ^ 64).toNat % 256 ^ 8 = (z % 2 ^ 64).toNat := by
    refine Nat.mod_eq_of_lt ?_
    omega
  rw [hmod]
  split_ifs <;> omega

theorem i64Cell_eq_ok {z : ℤ} {c : Cell 8} :
    i64Cell z = .ok c ↔ FitsI64 z ∧ c = .ofNat 8 (z % 2 ^ 64).toNat := by
  unfold i64Cell
  split_ifs with hz
  · simp [hz, eq_comm]
  · simp [hz]

@[simp] theorem Cell.toF64_f64Cell (bits : UInt64) : (f64Cell bits).toF64 = bits := by
  simp [toF64, f64Cell, ofNat, leNat_leBytes]

/-- The bytes of a run of cells. -/
def joined {w : ℕ} (cells : List (Cell w)) : List UInt8 := cells.flatMap (·.bytes)

section Joined

variable {w : ℕ}

@[simp] theorem joined_nil : joined ([] : List (Cell w)) = [] := rfl

@[simp] theorem joined_cons (c : Cell w) (cs : List (Cell w)) :
    joined (c :: cs) = c.bytes ++ joined cs := rfl

@[simp] theorem joined_append (cs ds : List (Cell w)) :
    joined (cs ++ ds) = joined cs ++ joined ds := flatMap_append

@[simp] theorem length_joined (cs : List (Cell w)) : (joined cs).length = cs.length * w := by
  induction cs with
  | nil => simp
  | cons c cs ih => rw [joined_cons, length_append, ih, c.length_eq, length_cons]; ring

theorem joined_flatten (css : List (List (Cell w))) :
    joined css.flatten = (css.map joined).flatten := by
  induction css with
  | nil => rfl
  | cons cs css ih => rw [flatten_cons, joined_append, ih, map_cons, flatten_cons]

/-- The first `n` cells of `bytes`. -/
def cellsOf (w : ℕ) : (n : ℕ) → (bytes : List UInt8) → n * w ≤ bytes.length → List (Cell w)
  | 0, _, _ => []
  | n + 1, bytes, h =>
    ⟨bytes.take w, by rw [Nat.succ_mul] at h; rw [length_take]; omega⟩ ::
      cellsOf w n (bytes.drop w) (by rw [Nat.succ_mul] at h; rw [length_drop]; omega)

@[simp] theorem length_cellsOf {n : ℕ} {bytes : List UInt8} (h : n * w ≤ bytes.length) :
    (cellsOf w n bytes h).length = n := by
  induction n generalizing bytes with
  | zero => rfl
  | succ n ih => rw [cellsOf, length_cons, ih]

theorem joined_cellsOf {n : ℕ} {bytes : List UInt8} (h : n * w = bytes.length) :
    joined (cellsOf w n bytes h.le) = bytes := by
  induction n generalizing bytes with
  | zero =>
    rw [Nat.zero_mul] at h
    exact (length_eq_zero_iff.1 h.symm).symm
  | succ n ih =>
    have hrest : n * w = (bytes.drop w).length := by
      rw [Nat.succ_mul] at h
      rw [length_drop]
      omega
    rw [cellsOf, joined_cons, ih hrest, take_append_drop]

theorem cellsOf_joined (cs : List (Cell w)) (post : List UInt8)
    (h : cs.length * w ≤ (joined cs ++ post).length) :
    cellsOf w cs.length (joined cs ++ post) h = cs := by
  induction cs with
  | nil => rfl
  | cons c cs ih =>
    obtain ⟨bytes, rfl⟩ := c
    simp only [length_cons, cellsOf, joined_cons, append_assoc, take_left,
      drop_left]
    rw [ih]

end Joined

/-! ### Reading at an offset -/

/-- `np.frombuffer(raw, dtype, count, offset)` for elements of `w` bytes. -/
def frombuffer (raw : List UInt8) (w count off : ℕ) : Except PyErr (List (Cell w)) :=
  if off ≤ raw.length then
    if h : count * w ≤ (raw.drop off).length then .ok (cellsOf w count (raw.drop off) h)
    else .error (.valueError "buffer is smaller than requested size")
  else .error (.valueError
    s!"offset must be non-negative and no greater than buffer length ({raw.length})")

/-- A run of cells is read where it was written. -/
theorem frombuffer_append {w off count : ℕ} (pre post : List UInt8) (cs : List (Cell w))
    (hoff : off = pre.length) (hcount : count = cs.length) :
    frombuffer (pre ++ (joined cs ++ post)) w count off = .ok cs := by
  subst hoff hcount
  have hdrop : (pre ++ (joined cs ++ post)).drop pre.length = joined cs ++ post := drop_left
  have hlen : cs.length * w ≤ (joined cs ++ post).length := by
    rw [length_append, length_joined]; omega
  have hle : pre.length ≤ (pre ++ (joined cs ++ post)).length := by
    rw [length_append]; omega
  simp only [frombuffer, hle, ↓reduceIte, hdrop, hlen, ↓reduceDIte, cellsOf_joined]

/-- One cell out of a run. -/
theorem frombuffer_getElem {w off : ℕ} (pre post : List UInt8) {cs : List (Cell w)} {i : ℕ}
    (hi : i < cs.length) (hoff : off = pre.length + i * w) :
    frombuffer (pre ++ (joined cs ++ post)) w 1 off = .ok [cs[i]] := by
  have hsplit : joined cs = joined (cs.take i) ++ (joined [cs[i]] ++ joined (cs.drop (i + 1))) := by
    rw [← joined_append, ← joined_append, singleton_append, getElem_cons_drop,
      take_append_drop]
  have hraw : pre ++ (joined cs ++ post) = (pre ++ joined (cs.take i)) ++
      (joined [cs[i]] ++ (joined (cs.drop (i + 1)) ++ post)) := by
    rw [hsplit]; simp only [append_assoc]
  rw [hraw]
  refine frombuffer_append _ _ _ ?_ rfl
  rw [length_append, length_joined, length_take_of_le (by omega), hoff]

/-- The `n` bytes at `off`; none outside the buffer. -/
def bytesAt (raw : List UInt8) (off n : ℕ) : Option (List UInt8) :=
  if off + n ≤ raw.length then some ((raw.drop off).take n) else none

theorem bytesAt_append {off n : ℕ} (pre bytes post : List UInt8) (hoff : off = pre.length)
    (hn : n = bytes.length) : bytesAt (pre ++ (bytes ++ post)) off n = some bytes := by
  subst hoff hn
  have hle : pre.length + bytes.length ≤ (pre ++ (bytes ++ post)).length := by
    simp only [length_append]; omega
  rw [bytesAt, if_pos hle, drop_left, take_left]

/-- The element of 8 bytes at `off`. -/
def cellAt (raw : List UInt8) (off : ℕ) : Option (Cell 8) :=
  (bytesAt raw off 8).bind fun bytes => if h : bytes.length = 8 then some ⟨bytes, h⟩ else none

theorem cellAt_getElem {off : ℕ} (pre post : List UInt8) {cs : List (Cell 8)} {i : ℕ}
    (hi : i < cs.length) (hoff : off = pre.length + i * 8) :
    cellAt (pre ++ (joined cs ++ post)) off = some cs[i] := by
  have hraw : pre ++ (joined cs ++ post) = (pre ++ joined (cs.take i)) ++
      (cs[i].bytes ++ (joined (cs.drop (i + 1)) ++ post)) := by
    conv_lhs => rw [← take_append_drop i cs, ← getElem_cons_drop hi]
    simp only [joined_append, joined_cons, append_assoc]
  have hlen : off = (pre ++ joined (cs.take i)).length := by
    rw [length_append, length_joined, length_take_of_le (by omega), hoff]
  rw [cellAt, hraw, bytesAt_append _ _ _ hlen cs[i].length_eq.symm, Option.bind_some,
    dif_pos cs[i].length_eq]

/-! ### Readers -/

/-- A computation over a buffer with an offset that moves. -/
abbrev Reader := ReaderT (List UInt8) (StateT ℕ (Except PyErr))

/-- Read `count` elements of `w` bytes and move on by `size` bytes. -/
def block (w count size : ℕ) : Reader (List (Cell w)) := fun raw off => do
  let cells ← frombuffer raw w count off
  return (cells, off + size)

/-- `r` consumes exactly `bytes`, wherever they stand in the buffer, and yields `a`. -/
def Reads {α : Type} (r : Reader α) (bytes : List UInt8) (a : α) : Prop :=
  ∀ pre post : List UInt8,
    r (pre ++ (bytes ++ post)) pre.length = .ok (a, pre.length + bytes.length)

namespace Reads

variable {α β : Type}

theorem pure (a : α) : Reads (Pure.pure a : Reader α) [] a := fun _ _ => rfl

theorem bind {r : Reader α} {f : α → Reader β} {bs cs : List UInt8} {a : α} {b : β}
    (hr : Reads r bs a) (hf : Reads (f a) cs b) : Reads (r >>= f) (bs ++ cs) b := by
  intro pre post
  have h₁ := hr pre (cs ++ post)
  have h₂ := hf (pre ++ bs) post
  simp only [append_assoc, length_append] at h₁ h₂ ⊢
  simp only [Bind.bind, ReaderT.bind, StateT.bind, Except.bind, h₁, h₂, Nat.add_assoc]

theorem map {r : Reader α} {f : α → β} {bs : List UInt8} {a : α} (hr : Reads r bs a) :
    Reads (f <$> r) bs (f a) := by
  intro pre post
  have h := hr pre post
  simp only [Functor.map, StateT.map, Bind.bind, Except.bind, h]
  rfl

/-- A result built from what was read. -/
theorem bind_pure {r : Reader α} {f : α → β} {bs : List UInt8} {a : α} (hr : Reads r bs a) :
    Reads (r >>= fun x => Pure.pure (f x)) bs (f a) := by
  have h := hr.bind (f := fun x => Pure.pure (f x)) (Reads.pure (f a))
  rwa [append_nil] at h

/-- A value the reader computes without touching the buffer. -/
theorem lift {x : Except PyErr α} {a : α} (h : x = .ok a) :
    Reads (monadLift x : Reader α) [] a := by
  intro pre post
  rw [h]
  rfl

theorem bind_lift {x : Except PyErr α} {f : α → Reader β} {bs : List UInt8} {a : α} {b : β}
    (h : x = .ok a) (hf : Reads (f a) bs b) : Reads ((monadLift x : Reader α) >>= f) bs b :=
  (Reads.lift h).bind hf

theorem block {w count size : ℕ} {cs : List (Cell w)} (hcount : count = cs.length)
    (hsize : size = cs.length * w) :
    Reads (HpcAgentBench.block w count size) (joined cs) cs := by
  intro pre post
  have h := frombuffer_append pre post cs rfl hcount
  simp only [HpcAgentBench.block, h, Bind.bind, Except.bind, hsize, length_joined]
  rfl

/-- A loop of readers consumes the bytes of its passes, in order. -/
theorem mapM {ι : Type} {f : ι → Reader α} {xs : List ι} {bytes : List (List UInt8)} {as : List α}
    (hlen : xs.length = bytes.length) (hlen' : xs.length = as.length)
    (h : ∀ i (h₁ : i < xs.length) (h₂ : i < bytes.length) (h₃ : i < as.length),
      Reads (f xs[i]) bytes[i] as[i]) :
    Reads (xs.mapM f) bytes.flatten as := by
  induction xs generalizing bytes as with
  | nil =>
    rw [length_nil] at hlen hlen'
    obtain rfl := length_eq_zero_iff.1 hlen.symm
    obtain rfl := length_eq_zero_iff.1 hlen'.symm
    exact Reads.pure _
  | cons x xs ih =>
    cases bytes with
    | nil => simp at hlen
    | cons b bytes =>
      cases as with
      | nil => simp at hlen'
      | cons a as =>
        have hx := h 0 (by simp) (by simp) (by simp)
        have hxs : Reads (xs.mapM f) bytes.flatten as := by
          refine ih (by simpa using hlen) (by simpa using hlen') fun i h₁ h₂ h₃ => ?_
          exact h (i + 1) (by simpa using h₁) (by simpa using h₂) (by simpa using h₃)
        rw [mapM_cons, flatten_cons]
        exact hx.bind hxs.bind_pure

/-- The same for the loop over the numbers below `n`. -/
theorem mapM_range {f : ℕ → Reader α} {n : ℕ} {bytes : List (List UInt8)} {as : List α}
    (hlen : n = bytes.length) (hlen' : n = as.length)
    (h : ∀ i (h₂ : i < bytes.length) (h₃ : i < as.length), Reads (f i) bytes[i] as[i]) :
    Reads ((List.range n).mapM f) bytes.flatten as := by
  refine Reads.mapM (by simpa using hlen) (by simpa using hlen') fun i h₁ h₂ h₃ => ?_
  rw [getElem_range]
  exact h i h₂ h₃

end Reads

end HpcAgentBench
