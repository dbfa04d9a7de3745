import HpcAgentBench.Translate.Objects

/-!
# Integers, tuples and arrays of cells

Objects to run small functions on: integers, tuples, slices, and one-dimensional arrays of integers.
An array that has a place in the heap is shared by everything that refers to it; what an expression
computes from arrays is a new array.
-/

namespace HpcAgentBench

open List Option

namespace Translate

/-- An object. -/
inductive Thing
  | none
  | int (n : ℤ)
  | unit
  | pair (head tail : Thing)
  | slice (lower upper step : Thing)
  /-- The array at a place of the heap. -/
  | arr (place : ℕ)
  /-- An array that nothing refers to yet. -/
  | fresh (items : List ℤ)
  | builtin (name : String)
  deriving DecidableEq

namespace Thing

/-- The items of an array. -/
def items (h : List (List ℤ)) : Thing → Option (List ℤ)
  | arr l => h[l]?
  | fresh xs => some xs
  | _ => Option.none

/-- An operation on integers; a comparison is zero or one. -/
def arith : Operator → ℤ → ℤ → Option ℤ
  | .add, m, n => some (m + n)
  | .sub, m, n => some (m - n)
  | .mult, m, n => some (m * n)
  | .floorDiv, m, n => if n = 0 then Option.none else some (m / n)
  | .other "==", m, n => some (if m = n then 1 else 0)
  | .other "!=", m, n => some (if m = n then 0 else 1)
  | .other "<", m, n => some (if m < n then 1 else 0)
  | .other "%", m, n => if n = 0 then Option.none else some (m % n)
  | _, _, _ => Option.none

/-- The positions a slice without a step takes. -/
def window (length : ℕ) : Thing → Option (ℕ × ℕ)
  | slice lower upper none =>
    match lower, upper with
    | none, none => some (0, length)
    | int m, none => some (m.toNat, length)
    | none, int n => some (0, min n.toNat length)
    | int m, int n => some (m.toNat, min n.toNat length)
    | _, _ => Option.none
  | _ => Option.none

/-- The parts of a tuple, or the items of an array. -/
def parts (h : List (List ℤ)) : Thing → Option (List Thing)
  | unit => some []
  | pair head tail => (tail.parts h).map (head :: ·)
  | v => (v.items h).map (·.map int)

/-- Whether an object is the other one. -/
def same : Thing → Thing → Thing
  | none, none => int 1
  | arr l, arr m => int (if l = m then 1 else 0)
  | _, _ => int 0

/-- An operation on integers or, item by item, on arrays. -/
def binary (op : Operator) (v w : Thing) (h : List (List ℤ)) : Option Thing :=
  match op, v, w with
  | .other "is", v, w => some (same v w)
  | op, int m, int n => (arith op m n).map int
  | op, v, int n => (v.items h).bind fun xs => (xs.mapM (arith op · n)).map fresh
  | op, v, w => (v.items h).bind fun xs => (w.items h).bind fun ys =>
    if xs.length = ys.length then
      ((xs.zip ys).mapM fun p => arith op p.1 p.2).map fresh
    else Option.none

/-- A call of a built-in function. -/
def call (name : String) (args : Thing) : Option Thing :=
  match name, args with
  | "slice", pair stop unit => some (slice none stop none)
  | "slice", pair start (pair stop unit) => some (slice start stop none)
  | "range", pair (int n) unit =>
    some ((List.range n.toNat).foldr (fun (k : ℕ) v => pair (int k) v) unit)
  | "int", pair (int n) unit => some (int n)
  | _, _ => Option.none

/-- A call of an object. -/
def apply (f args : Thing) : Option Thing :=
  match f with
  | builtin name => call name args
  | _ => Option.none

/-- The negative of an integer. -/
def unary (op : String) (v : Thing) : Option Thing :=
  match op, v with
  | "-", int n => some (int (-n))
  | _, _ => Option.none

/-- An item, or a slice, of a tuple or an array. -/
def get (v i : Thing) (h : List (List ℤ)) : Option Thing :=
  match v, i with
  | unit, _ => Option.none
  | pair head tail, int n => if n < 0 then Option.none else
    ((pair head tail).parts h).bind (·[n.toNat]?)
  | v, int n => if n < 0 then Option.none else (v.items h).bind fun xs => (xs[n.toNat]?).map int
  | v, s => (v.items h).bind fun xs => (window xs.length s).map fun p =>
    fresh ((xs.take p.2).drop p.1)

/-- A store to an item, or to all items, of an array. -/
def set (v i w : Thing) (h : List (List ℤ)) : Option (List (List ℤ)) :=
  match v with
  | arr l => (h[l]?).bind fun xs =>
    match i, w with
    | int n, int m =>
      if 0 ≤ n ∧ n < xs.length then some (h.set l (xs.set n.toNat m)) else Option.none
    | slice none none none, int m => some (h.set l (xs.map fun _ => m))
    | slice none none none, w => (w.items h).bind fun ys =>
      if ys.length = xs.length then some (h.set l ys) else Option.none
    | _, _ => Option.none
  | _ => Option.none

/-- `v op= w`: an array is written in place. -/
def inplace (op : Operator) (v w : Thing) (h : List (List ℤ)) :
    Option (Thing × List (List ℤ)) :=
  (binary op v w h).bind fun r =>
    match v with
    | arr _ => (set v (slice none none none) r h).map fun h => (v, h)
    | _ => some (r, h)

/-- The truth of an object. -/
def truth : Thing → Option Bool
  | none => some false
  | int n => some (n ≠ 0)
  | unit => some false
  | pair _ _ => some true
  | _ => Option.none

end Thing

open Thing in
/-- The objects of a small function. -/
def cells : Objects Thing (List (List ℤ)) where
  const
    | .int n => int n
    | _ => none
  unit := unit
  pair := pair
  slice := slice
  attr v a h := if a = "T" ∧ (v.items h).isSome then some (v, h) else Option.none
  unary op v h := (unary op v).map fun r => (r, h)
  binary op v w h := (binary op v w h).map fun r => (r, h)
  inplace := inplace
  call f args h := (apply f args).map fun r => (r, h)
  getItem v i h := (get v i h).map fun r => (r, h)
  setItem := set
  iter v h := (v.parts h).map fun vs => (vs, h)
  truth v _ := truth v

/-! ### Memory -/

namespace Thing

/-- The places of the heap an object refers to. -/
def places : Thing → List ℕ
  | pair head tail => head.places ++ tail.places
  | slice lower upper step => lower.places ++ upper.places ++ step.places
  | arr l => [l]
  | _ => []

/-- Objects that refer to no place in common. -/
def Apart (b v : Thing) : Prop := ∀ l ∈ b.places, l ∉ v.places

variable {v : Thing} {h : List (List ℤ)} {l : ℕ} {xs : List ℤ}

theorem items_set (hl : l ∉ v.places) :
    v.items (h.set l xs) = v.items h := by
  cases v with
  | arr k =>
    refine List.getElem?_set_ne ?_
    rintro rfl
    exact hl mem_cons_self
  | _ => rfl

theorem parts_set (hl : l ∉ v.places) :
    v.parts (h.set l xs) = v.parts h := by
  induction v with
  | pair head tail _ ih =>
    simp only [parts, ih fun ht => hl (mem_append_right _ ht)]
  | unit => rfl
  | _ => exact congrArg _ (items_set hl)

theorem places_parts {w : Thing} {vs : List Thing} (hv : v.parts h = some vs) (hw : w ∈ vs) :
    w.places ⊆ v.places := by
  have hitems : ∀ {v : Thing}, (v.items h).map (·.map int) = some vs → w.places = [] := by
    intro v hv
    obtain ⟨xs, -, rfl⟩ := map_eq_some_iff.1 hv
    obtain ⟨n, -, rfl⟩ := mem_map.1 hw
    rfl
  induction v generalizing vs with
  | pair head tail _ ih =>
    obtain ⟨ws, hws, rfl⟩ := map_eq_some_iff.1 hv
    rcases mem_cons.1 hw with rfl | hw
    · exact subset_append_left _ _
    · exact List.Subset.trans (ih hws hw fun hv => by
        obtain ⟨xs, -, rfl⟩ := map_eq_some_iff.1 hv
        obtain ⟨n, -, rfl⟩ := mem_map.1 hw
        rfl) (subset_append_right _ _)
  | unit =>
    obtain rfl := some.inj hv
    cases hw
  | _ => exact (hitems hv).symm ▸ nil_subset _

/-- A store changes the array at one place. -/
theorem set_eq_some {b s x : Thing} {m : List (List ℤ)} (hm : set b s x h = some m) :
    ∃ l xs, b = arr l ∧ m = h.set l xs := by
  cases b with
  | arr l =>
    obtain ⟨xs, -, hm⟩ := bind_eq_some_iff.1 hm
    split at hm
    · split at hm
      · exact ⟨l, _, rfl, (some.inj hm).symm⟩
      · cases hm
    · exact ⟨l, _, rfl, (some.inj hm).symm⟩
    · obtain ⟨ys, -, hm⟩ := bind_eq_some_iff.1 hm
      split at hm
      · exact ⟨l, _, rfl, (some.inj hm).symm⟩
      · cases hm
    · cases hm
  | _ => cases hm

end Thing

end Translate

end HpcAgentBench
