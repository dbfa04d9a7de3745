import HpcAgentBench.Lib.Python
import Mathlib.Data.List.Dedup
import Mathlib.Data.List.Sort

/-!
# Speedup denominators

The denominator of a grade is the reference, or the fastest of several, its speedup divides by.
It is configured per track, stored per grade by its spelling, and read back from the versioned
stamp a grade recorded about how its baseline was chosen.

## Main results

* `Denominator.ofStored_text` : a stored spelling reads back as the denominator it spells.
* `stamped_join` : a row that joins several stamps names each of them.
-/

namespace HpcAgentBench

open List

namespace Judge

/-! ### Joined texts -/

/-- `text.split(sep)`. -/
def splitText (sep : Char) (s : String) : List String :=
  (s.toList.splitOn sep).map String.ofList

/-- `text.partition(sep)`: what is before the first `sep`, whether there is one, what is after. -/
def partitionText (sep : Char) (s : String) : String × Bool × String :=
  let head := s.toList.takeWhile (· ≠ sep)
  match s.toList.dropWhile (· ≠ sep) with
  | [] => (s, false, "")
  | _ :: tail => (String.ofList head, true, String.ofList tail)

/-- The distinct non-empty texts, sorted and joined with `+`. -/
def joinSorted (texts : List String) : String :=
  "+".intercalate (((texts.filter (· ≠ "")).dedup).insertionSort (· ≤ ·))

/-- Whether a recorded reduction (`+`-joined when cells carry several stamps) names `stamp`. -/
def stamped (reduction : Option String) (stamp : String) : Bool :=
  (splitText '+' (strip (reduction.getD ""))).contains stamp

/-! ### Denominators -/

/-- A speedup denominator: one reference, or the fastest of several timed in the same grade. -/
inductive Denominator
  | numba | c | cAutopar
  /-- Recorded by legacy grades against a kernel-shipped reference. -/
  | vendored
  | bestOfNumbaC | bestOfNumbaCAutopar | torchAutotune
  deriving DecidableEq, Repr

namespace Denominator

/-- Every denominator, in the order they are declared. -/
def all : List Denominator :=
  [numba, c, cAutopar, vendored, bestOfNumbaC, bestOfNumbaCAutopar, torchAutotune]

/-- How a denominator is spelled. -/
def text : Denominator → String
  | numba => "numba"
  | c => "c"
  | cAutopar => "c-autopar"
  | vendored => "vendored"
  | bestOfNumbaC => "best-of(numba,c)"
  | bestOfNumbaCAutopar => "best-of(numba,c,c-autopar)"
  | torchAutotune => "torch-autotune"

/-- Each denominator's references in tie-break order. -/
def kinds : Denominator → List String
  | numba => ["numba"]
  | c => ["c"]
  | cAutopar => ["c-autopar"]
  | vendored => ["vendored"]
  | bestOfNumbaC => ["c", "numba"]
  | bestOfNumbaCAutopar => ["c-autopar", "c", "numba"]
  | torchAutotune => ["torch-autotune"]

/-- The denominator a stored value spells; none for NULL or a spelling no denominator has. -/
def ofStored (recorded : Option String) : Option Denominator :=
  let text' := strip (recorded.getD "")
  all.find? fun d => d.text == text'

/-- The stored value of a denominator: its spelling, NULL for none. -/
def stored (found : Option Denominator) : Option String := found.map text

/-- The stored torch kinds, one per device. -/
def torchKinds : List String := ["torch-autotune-cpu", "torch-autotune-gpu"]

/-- The denominator racing exactly `raced` (in any order), or none. -/
def ofKinds (raced : List String) : Option Denominator :=
  let wanted := raced.map fun kind => if torchKinds.contains kind then torchAutotune.text else kind
  all.find? fun d => d.kinds.all wanted.contains && wanted.all d.kinds.contains

/-- The denominator a grade stamped `stamp` was graded under, from the references its inputs raced
and its winner. -/
def ofGrade (stamp : Option String) (raced : List String) (winner : String) :
    Option Denominator :=
  let (policy, sep, listed) := partitionText ':' (strip (stamp.getD ""))
  if !sep || listed == "" then none
  else
    let named := (splitText '+' listed).filter (· ≠ "")
    if policy == "single-v1" then if named.length = 1 then ofKinds named else none
    else if !(["best-of-v1", "best-of-v2", "best-of-v3", "best-of-v4"].contains policy) then none
    else
      let found := ofKinds named
      if found ≠ some bestOfNumbaC || ["best-of-v1", "best-of-v4"].contains policy then found
      else
        let seen := raced.filter (· ≠ "")
        if seen.isEmpty then none
        else if ((seen.flatMap (splitText '+')).contains "c-autopar" || winner == "c-autopar") then
          none
        else found

/-- A stored spelling reads back as the denominator it spells. -/
@[simp] theorem ofStored_stored (d : Denominator) : ofStored (stored (some d)) = some d := by
  cases d <;> decide

example : ofGrade (some "best-of-v3:c+numba") ["c+numba"] "c" = some bestOfNumbaC := by
  decide

example : ofGrade (some "best-of-v3:c+numba") ["c-autopar+c"] "c" = none := by decide

end Denominator

/-! ### Joined stamps -/

/-- A text that survives being joined and stripped: not empty, no `+` and no blank in it. -/
def Plain (s : String) : Prop :=
  s ≠ "" ∧ '+' ∉ s.toList ∧ ∀ c ∈ s.toList, isSpace c = false

instance (s : String) : Decidable (Plain s) :=
  -- over the characters of `s`, not over every character
  haveI : Decidable (∀ c ∈ s.toList, isSpace c = false) := List.decidableBAll ..
  inferInstanceAs (Decidable (s ≠ "" ∧ '+' ∉ s.toList ∧ ∀ c ∈ s.toList, isSpace c = false))

/-- Nothing, or something that ends in `+`. -/
def EndsJoined (l : List Char) : Prop := l = [] ∨ ∃ p, l = p ++ ['+']

variable {a s : List Char} {stamp : String} {texts : List String}

theorem dropWhile_space_joined (ha : EndsJoined a) (hs : s ≠ [])
    (hspace : ∀ c ∈ s, isSpace c = false) (b : List Char) :
    ∃ a', EndsJoined a' ∧ (a ++ s ++ b).dropWhile isSpace = a' ++ s ++ b := by
  obtain ⟨c, s, rfl⟩ := exists_cons_of_ne_nil hs
  have hc := hspace c mem_cons_self
  rcases ha with rfl | ⟨p, rfl⟩
  · exact ⟨[], .inl rfl, by simp [hc]⟩
  · have hplus : isSpace '+' = false := by decide
    induction p with
    | nil => exact ⟨['+'], .inr ⟨[], rfl⟩, by simp [hplus]⟩
    | cons x p ih =>
      cases hx : isSpace x with
      | true =>
        obtain ⟨a', ha', h⟩ := ih
        refine ⟨a', ha', ?_⟩
        rw [← h]
        simp [hx]
      | false => exact ⟨x :: p ++ ['+'], .inr ⟨x :: p, rfl⟩, by simp [hx]⟩

/-- A stamp between two joints is one of the parts. -/
theorem mem_splitOn_joined {b : List Char} (ha : EndsJoined a) (hb : EndsJoined b.reverse)
    (hs : '+' ∉ s) : s ∈ (a ++ s ++ b).splitOn '+' := by
  have hsb : s ∈ (s ++ b).splitOn '+' := by
    rcases hb with hb | ⟨p, hb⟩
    · rw [reverse_eq_nil_iff] at hb
      rw [hb, append_nil, splitOn_eq_singleton hs]
      exact mem_singleton_self s
    · have hb : b = '+' :: p.reverse := by
        rw [← reverse_reverse b, hb, reverse_append]; rfl
      rw [hb, splitOn_append_cons_self_of_not_mem hs]
      exact mem_cons_self
  rcases ha with rfl | ⟨p, rfl⟩
  · exact hsb
  · have hassoc : p ++ ['+'] ++ s ++ b = p ++ '+' :: (s ++ b) := by simp
    rw [hassoc, splitOn_append_cons_self]
    exact mem_append_right _ hsb

/-- The joints around one part of a joined list. -/
theorem intercalate_parts {l : List (List Char)} (h : s ∈ l) :
    ∃ a b, List.intercalate ['+'] l = a ++ s ++ b ∧ EndsJoined a ∧ EndsJoined b.reverse := by
  induction l with
  | nil => cases h
  | cons x l ih =>
    rcases mem_cons.1 h with rfl | h
    · cases l with
      | nil => exact ⟨[], [], by simp [List.intercalate], .inl rfl, .inl rfl⟩
      | cons y l =>
        exact ⟨[], '+' :: List.intercalate ['+'] (y :: l), by simp [List.intercalate], .inl rfl,
          .inr ⟨_, reverse_cons⟩⟩
    · obtain ⟨a, b, hab, ha, hb⟩ := ih h
      cases l with
      | nil => cases h
      | cons y l =>
        have hjoin : List.intercalate ['+'] (x :: y :: l) =
            x ++ '+' :: List.intercalate ['+'] (y :: l) := by simp [List.intercalate]
        refine ⟨x ++ '+' :: a, b, by rw [hjoin, hab]; simp, ?_, hb⟩
        rcases ha with rfl | ⟨p, rfl⟩
        · exact .inr ⟨x, rfl⟩
        · exact .inr ⟨x ++ '+' :: p, by simp⟩

/-- A row that joins several stamps names each plain one of them. -/
theorem stamped_intercalate {l : List String} (hplain : Plain stamp) (h : stamp ∈ l) :
    stamped (some ("+".intercalate l)) stamp = true := by
  obtain ⟨hne, hplus, hspace⟩ := hplain
  have hne' : stamp.toList ≠ [] := fun h => hne (String.toList_inj.1 h)
  obtain ⟨a, b, hab, ha, hb⟩ := intercalate_parts (mem_map_of_mem (f := String.toList) h)
  obtain ⟨a', ha', hdrop⟩ := dropWhile_space_joined ha hne' hspace b
  have hrev : (a' ++ stamp.toList ++ b).reverse =
      b.reverse ++ stamp.toList.reverse ++ a'.reverse := by simp
  obtain ⟨b', hb', hdrop'⟩ := dropWhile_space_joined hb
    (by rwa [Ne, reverse_eq_nil_iff]) (fun c hc => hspace c (mem_reverse.1 hc)) a'.reverse
  have hstrip : (strip ("+".intercalate l)).toList = a' ++ stamp.toList ++ b'.reverse := by
    rw [strip, String.toList_ofList, String.toList_intercalate, show "+".toList = ['+'] from rfl,
      hab, hdrop, hrev, hdrop']
    simp
  rw [stamped, Option.getD_some, splitText, hstrip, contains_iff_mem, mem_map]
  exact ⟨_, mem_splitOn_joined ha' (by rwa [reverse_reverse]) hplus, String.ofList_toList⟩

theorem mem_sorted {s : String} :
    s ∈ ((texts.filter (· ≠ "")).dedup).insertionSort (· ≤ ·) ↔ s ∈ texts ∧ s ≠ "" := by
  rw [mem_insertionSort, mem_dedup, mem_filter, decide_eq_true_iff]

/-- A row that joins several stamps names each of them. -/
theorem stamped_join (hplain : Plain stamp) (h : stamp ∈ texts) :
    stamped (some (joinSorted texts)) stamp = true :=
  stamped_intercalate hplain (mem_sorted.2 ⟨h, hplain.1⟩)

end Judge

end HpcAgentBench
