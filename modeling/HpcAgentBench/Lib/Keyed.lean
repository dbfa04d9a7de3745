import Mathlib.Data.List.Basic
import Mathlib.Data.List.Induction

/-!
# Stores folded key by key

A store holds at most one value a key (`κ → Option σ`).  Rows are folded into it one at a time by a
rule that looks at the value stored under the row's key alone and may refuse the row; a refused row
stops the fold.  Such a fold is one fold for every key.

## Main results

* `foldRows_some`, `foldRows_none` : a fold over all rows is the folds over each key's rows.
* `foldKey_none_iff` : a key's fold is refused where some row meets what the rows before it left.
* `Rule.standing_induction` : what each row keeps holds of what all rows leave.
-/

namespace HpcAgentBench

open List Option

namespace Keyed

variable {κ ρ σ : Type*}

/-- What a rule does with a row: refuse it, or leave a value. -/
structure Rule (ρ σ : Type*) where
  /-- The value of a key first met. -/
  first : ρ → σ
  /-- Whether the row is refused. -/
  refuses : σ → ρ → Bool
  /-- What the store holds after a row that is not refused. -/
  next : σ → ρ → σ

namespace Rule

variable (rule : Rule ρ σ)

/-- The unchecked effect of a row. -/
def settle : Option σ → ρ → σ
  | none, row => rule.first row
  | some s, row => rule.next s row

/-- One row under one key. -/
def put (stored : Option σ) (row : ρ) : Option σ :=
  if stored.any (rule.refuses · row) then none else some (rule.settle stored row)

/-- The rows of one key, in order. -/
def foldKey : Option σ → List ρ → Option (Option σ)
  | stored, [] => some stored
  | stored, row :: rows => (rule.put stored row).bind fun s => foldKey (some s) rows

/-- What the rows of one key leave when none is refused. -/
def standing (stored : Option σ) (rows : List ρ) : Option σ :=
  rows.foldl (fun s row => some (rule.settle s row)) stored

@[simp] theorem standing_cons (stored : Option σ) (row : ρ) (rows : List ρ) :
    rule.standing stored (row :: rows) = rule.standing (some (rule.settle stored row)) rows := rfl

theorem standing_append (stored : Option σ) (rows more : List ρ) :
    rule.standing stored (rows ++ more) = rule.standing (rule.standing stored rows) more :=
  foldl_append ..

/-- A row is refused by what the rows before it left. -/
def Clash (stored : Option σ) (rows : List ρ) : Prop :=
  ∃ before row after, rows = before ++ row :: after ∧
    ∃ s ∈ rule.standing stored before, rule.refuses s row = true

variable {rule}

variable {stored : Option σ} {rows : List ρ}

theorem clash_cons {row : ρ} :
    rule.Clash stored (row :: rows) ↔
      (∃ s ∈ stored, rule.refuses s row = true) ∨
        rule.Clash (some (rule.settle stored row)) rows := by
  constructor
  · rintro ⟨before, r, after, h, hs⟩
    cases before with
    | nil =>
      obtain ⟨rfl, rfl⟩ := cons.inj h
      exact .inl hs
    | cons b before =>
      obtain ⟨rfl, rfl⟩ := cons.inj h
      exact .inr ⟨before, r, after, rfl, hs⟩
  · rintro (hs | ⟨before, r, after, rfl, hs⟩)
    · exact ⟨[], row, rows, rfl, hs⟩
    · exact ⟨row :: before, r, after, rfl, hs⟩

theorem not_clash_nil : ¬rule.Clash stored [] := by
  rintro ⟨before, row, after, h, -⟩
  cases before <;> cases h

variable (rule) in
/-- A key's fold leaves what its rows leave unchecked, unless one of them is refused. -/
theorem foldKey_eq (stored : Option σ) (rows : List ρ) :
    (rule.Clash stored rows ∧ rule.foldKey stored rows = none) ∨
      (¬rule.Clash stored rows ∧ rule.foldKey stored rows = some (rule.standing stored rows)) := by
  induction rows generalizing stored with
  | nil => exact .inr ⟨not_clash_nil, rfl⟩
  | cons row rows ih =>
    rw [clash_cons, foldKey, put]
    by_cases h : ∃ s ∈ stored, rule.refuses s row = true
    · rw [if_pos (by simpa [Option.any_eq_true] using h)]
      exact .inl ⟨.inl h, rfl⟩
    · rw [if_neg (by simpa [Option.any_eq_true] using h)]
      rcases ih (some (rule.settle stored row)) with ⟨hc, hf⟩ | ⟨hc, hf⟩
      · exact .inl ⟨.inr hc, hf⟩
      · exact .inr ⟨not_or.2 ⟨h, hc⟩, hf⟩

theorem foldKey_none_iff :
    rule.foldKey stored rows = none ↔ rule.Clash stored rows := by
  rcases foldKey_eq rule stored rows with ⟨hc, hf⟩ | ⟨hc, hf⟩
  · exact iff_of_true hf hc
  · exact iff_of_false (by rw [hf]; exact some_ne_none _) hc

theorem foldKey_some_iff {s : Option σ} :
    rule.foldKey stored rows = some s ↔
      ¬rule.Clash stored rows ∧ rule.standing stored rows = s := by
  rcases foldKey_eq rule stored rows with ⟨hc, hf⟩ | ⟨hc, hf⟩
  · exact iff_of_false (by rw [hf]; exact (some_ne_none s).symm) fun h => h.1 hc
  · rw [hf, some.injEq]
    exact ⟨fun h => ⟨hc, h⟩, fun h => h.2⟩

/-- The first row refused: no row before it is. -/
theorem first_clash (h : rule.Clash stored rows) :
    ∃ before row after, rows = before ++ row :: after ∧ ¬rule.Clash stored before ∧
      ∃ s ∈ rule.standing stored before, rule.refuses s row = true := by
  induction rows generalizing stored with
  | nil => exact absurd h not_clash_nil
  | cons row rows ih =>
    by_cases hrow : ∃ s ∈ stored, rule.refuses s row = true
    · exact ⟨[], row, rows, rfl, not_clash_nil, hrow⟩
    · obtain ⟨before, r, after, rfl, hnot, hs⟩ := ih ((clash_cons.1 h).resolve_left hrow)
      exact ⟨row :: before, r, after, rfl, fun hc => hnot ((clash_cons.1 hc).resolve_left hrow), hs⟩

/-- What the first row leaves and every row that is not refused keeps holds of what all rows
leave. -/
theorem standing_induction {P : ρ → Prop} {motive : List ρ → σ → Prop}
    (hfirst : ∀ row, P row → motive [row] (rule.first row))
    (hnext : ∀ before s row, (∀ r ∈ before, P r) → P row → motive before s →
      rule.refuses s row = false → motive (before ++ [row]) (rule.next s row))
    (hrows : ∀ r ∈ rows, P r) (h : ¬rule.Clash none rows) (hne : rows ≠ []) :
    ∃ s, rule.standing none rows = some s ∧ motive rows s := by
  induction rows using List.reverseRecOn with
  | nil => exact absurd rfl hne
  | append_singleton rows row ih =>
    have hclash : ¬rule.Clash none rows := by
      rintro ⟨before, r, after, rfl, hs⟩
      exact h ⟨before, r, after ++ [row], by simp, hs⟩
    have hP : ∀ r ∈ rows, P r := fun r hr => hrows r (mem_append_left _ hr)
    have hrow : P row := hrows row (mem_append_right _ (mem_singleton_self row))
    by_cases hnil : rows = []
    · subst hnil
      exact ⟨_, rfl, hfirst row hrow⟩
    · obtain ⟨s, hs, hmotive⟩ := ih hP hclash hnil
      refine ⟨rule.next s row, ?_, hnext rows s row hP hrow hmotive ?_⟩
      · rw [standing_append, hs]
        rfl
      · rw [Bool.eq_false_iff]
        exact fun href => h ⟨rows, row, [], rfl, s, hs, href⟩

end Rule

section Rows

variable [DecidableEq κ] (rule : κ → Rule ρ σ)

/-- Rows with their keys, folded into a store. -/
def foldRows : (κ → Option σ) → List (κ × ρ) → Option (κ → Option σ)
  | store, [] => some store
  | store, (k, row) :: rows =>
    ((rule k).put (store k) row).bind fun s => foldRows (Function.update store k (some s)) rows

/-- The rows of one key, in order. -/
def copies (k : κ) (rows : List (κ × ρ)) : List ρ :=
  (rows.filter (·.1 = k)).map (·.2)

@[simp] theorem copies_nil (k : κ) : copies k ([] : List (κ × ρ)) = [] := rfl

theorem copies_cons (k : κ) (p : κ × ρ) (rows : List (κ × ρ)) :
    copies k (p :: rows) = if p.1 = k then p.2 :: copies k rows else copies k rows := by
  unfold copies
  by_cases h : p.1 = k
  · rw [filter_cons_of_pos (by simpa using h), if_pos h, map_cons]
  · rw [filter_cons_of_neg (by simpa using h), if_neg h]

variable {k : κ} {rows : List (κ × ρ)} {store store' : κ → Option σ}

theorem mem_copies {row : ρ} :
    row ∈ copies k rows ↔ (k, row) ∈ rows := by
  simp only [copies, List.mem_map, mem_filter, decide_eq_true_eq]
  constructor
  · rintro ⟨⟨_, _⟩, ⟨h, rfl⟩, rfl⟩
    exact h
  · exact fun h => ⟨(k, row), ⟨h, rfl⟩, rfl⟩

theorem copies_perm {rows' : List (κ × ρ)} (h : rows.Perm rows') :
    (copies k rows).Perm (copies k rows') :=
  (h.filter _).map _

variable {rule}

/-- What a fold that is not stopped leaves under each key. -/
theorem foldRows_some (h : foldRows rule store rows = some store') (k : κ) :
    (rule k).foldKey (store k) (copies k rows) = some (store' k) := by
  induction rows generalizing store with
  | nil =>
    obtain rfl := some.inj h
    rfl
  | cons p rows ih =>
    obtain ⟨k', row⟩ := p
    obtain ⟨s, hs, h⟩ := bind_eq_some_iff.1 h
    have hk := ih h
    rw [copies_cons]
    by_cases hkk : k' = k
    · subst hkk
      rw [Function.update_self] at hk
      rw [if_pos rfl, Rule.foldKey, hs]
      exact hk
    · rw [Function.update_of_ne (Ne.symm hkk)] at hk
      rw [if_neg hkk]
      exact hk

/-- A stopped fold was stopped under some key. -/
theorem foldRows_none (h : foldRows rule store rows = none) :
    ∃ k, (rule k).foldKey (store k) (copies k rows) = none := by
  induction rows generalizing store with
  | nil => cases h
  | cons p rows ih =>
    obtain ⟨k', row⟩ := p
    cases hs : (rule k').put (store k') row with
    | none => exact ⟨k', by rw [copies_cons, if_pos rfl, Rule.foldKey, hs]; rfl⟩
    | some s =>
      rw [foldRows, hs] at h
      obtain ⟨k, hk⟩ := ih h
      refine ⟨k, ?_⟩
      rw [copies_cons]
      by_cases hkk : k' = k
      · subst hkk
        rw [Function.update_self] at hk
        rw [if_pos rfl, Rule.foldKey, hs]
        exact hk
      · rw [Function.update_of_ne (Ne.symm hkk)] at hk
        rw [if_neg hkk]
        exact hk

/-- A fold over all rows stops exactly where some key clashes, and leaves what each key's rows
leave. -/
theorem foldRows_eq_some_iff :
    foldRows rule store rows = some store' ↔
      ∀ k, ¬(rule k).Clash (store k) (copies k rows) ∧
        (rule k).standing (store k) (copies k rows) = store' k := by
  constructor
  · exact fun h k => Rule.foldKey_some_iff.1 (foldRows_some h k)
  · intro h
    cases hf : foldRows rule store rows with
    | none =>
      obtain ⟨k, hk⟩ := foldRows_none hf
      exact absurd (Rule.foldKey_none_iff.1 hk) (h k).1
    | some s =>
      refine congrArg some (funext fun k => ?_)
      rw [← (h k).2]
      exact (Rule.foldKey_some_iff.1 (foldRows_some hf k)).2.symm

theorem foldRows_append {more : List (κ × ρ)} :
    foldRows rule store (rows ++ more) =
      (foldRows rule store rows).bind fun store => foldRows rule store more := by
  induction rows generalizing store with
  | nil => rfl
  | cons p rows ih =>
    simp only [cons_append, foldRows, ih, bind_assoc]

end Rows

end Keyed

end HpcAgentBench
