import Mathlib.Data.List.Sort

/-!
# Sorting and keeping the last of each key

A stable sort followed by the removal of all but the last element of each key.  What is left of a
key is the last of its greatest elements, so the outcome does not depend on the order of the list
where the greatest element of each key is unique.

## Main results

* `mem_keepLast_sortBy` : **the element that is left of a key.**
* `lastMax_eq_some` : a strictly greatest element is it in every order.
* `lastMax_append` : a greatest element is it when it comes last.
-/

namespace HpcAgentBench

open List Option

variable {α β κ : Type*}

/-- A stable sort by `ord`. -/
def sortBy [LinearOrder β] (ord : α → β) (l : List α) : List α :=
  l.insertionSort fun a b => ord a ≤ ord b

/-- The last element of each key, in the list's order. -/
def keepLast [DecidableEq κ] (key : α → κ) : List α → List α
  | [] => []
  | a :: l => if key a ∈ l.map key then keepLast key l else a :: keepLast key l

/-- The last of the greatest elements. -/
def lastMax [LinearOrder β] (ord : α → β) : List α → Option α
  | [] => none
  | a :: l =>
    match lastMax ord l with
    | none => some a
    | some c => if ord a ≤ ord c then some c else some a

section KeepLast

variable [DecidableEq κ] {key : α → κ}
variable {l : List α}

theorem keepLast_sublist (key : α → κ) (l : List α) : (keepLast key l).Sublist l := by
  induction l with
  | nil => exact .slnil
  | cons a l ih =>
    rw [keepLast]
    split
    · exact ih.cons a
    · exact ih.cons_cons a

theorem mem_keys_keepLast {k : κ} :
    k ∈ (keepLast key l).map key ↔ k ∈ l.map key := by
  induction l with
  | nil => rfl
  | cons a l ih =>
    rw [keepLast]
    split
    · rename_i hmem
      rw [ih, map_cons, mem_cons]
      exact ⟨.inr, fun h => h.elim (fun heq => heq ▸ hmem) id⟩
    · rw [map_cons, mem_cons, ih, map_cons, mem_cons]

/-- No key is left twice. -/
theorem nodup_keepLast (l : List α) : ((keepLast key l).map key).Nodup := by
  induction l with
  | nil => exact nodup_nil
  | cons a l ih =>
    rw [keepLast]
    split
    · exact ih
    · rename_i hnew
      rw [map_cons, nodup_cons, mem_keys_keepLast]
      exact ⟨hnew, ih⟩

/-- Keys that do not come again are left where they are. -/
theorem keepLast_append {m : List α} (h : ∀ a ∈ l, key a ∉ m.map key) :
    keepLast key (l ++ m) = keepLast key l ++ keepLast key m := by
  induction l with
  | nil => rfl
  | cons a l ih =>
    have hiff : key a ∈ (l ++ m).map key ↔ key a ∈ l.map key := by
      rw [map_append, mem_append]
      exact or_iff_left (h a mem_cons_self)
    rw [cons_append, keepLast, keepLast, if_congr hiff rfl rfl,
      ih fun b hb => h b (mem_cons_of_mem a hb)]
    split <;> rfl

/-- What is left is the last element of its key. -/
theorem mem_keepLast_iff {a : α} :
    a ∈ keepLast key l ↔ (l.filter fun b => key b = key a).getLast? = some a := by
  induction l with
  | nil => simp [keepLast]
  | cons b l ih =>
    have hnone : (l.filter fun c => key c = key a).getLast? = none ↔ key a ∉ l.map key := by
      rw [getLast?_eq_none_iff, filter_eq_nil_iff]
      simp [eq_comm]
    rw [keepLast]
    by_cases hkey : key b = key a
    · rw [filter_cons_of_pos (by simpa using hkey), getLast?_cons, hkey]
      by_cases hmem : key a ∈ l.map key
      · rw [if_pos hmem, ih]
        cases hlast : (l.filter fun c => key c = key a).getLast? with
        | none => exact absurd hmem (hnone.mp hlast)
        | some c => rfl
      · rw [if_neg hmem, hnone.mpr hmem, mem_cons, ih, hnone.mpr hmem]
        simp [eq_comm]
    · rw [filter_cons_of_neg (by simpa using hkey)]
      split
      · exact ih
      · rw [mem_cons, ih]
        refine or_iff_right ?_
        rintro rfl
        exact hkey rfl

end KeepLast

section Sorted

variable [LinearOrder β] {ord : α → β}
variable {l : List α} {a c : α}

theorem mem_sortBy : a ∈ sortBy ord l ↔ a ∈ l := mem_insertionSort _

theorem sortBy_perm (ord : α → β) (l : List α) : (sortBy ord l).Perm l := perm_insertionSort _ _

theorem pairwise_sortBy (l : List α) : (sortBy ord l).Pairwise fun a b => ord a ≤ ord b := by
  have : Std.Total fun a b : α => ord a ≤ ord b := ⟨fun a b => le_total _ _⟩
  have : IsTrans α fun a b => ord a ≤ ord b := ⟨fun a b c => le_trans⟩
  exact pairwise_insertionSort _ l

/-- An insertion into a sorted list leaves the last element of a condition, or becomes it. -/
theorem getLast?_filter_orderedInsert (p : α → Bool) (a : α)
    (h : l.Pairwise fun a b => ord a ≤ ord b) :
    ((l.orderedInsert (fun a b => ord a ≤ ord b) a).filter p).getLast? =
      if p a then
        match (l.filter p).getLast? with
        | none => some a
        | some c => if ord a ≤ ord c then some c else some a
      else (l.filter p).getLast? := by
  induction l with
  | nil => cases hp : p a <;> simp [hp]
  | cons b l ih =>
    obtain ⟨hb, hl⟩ := pairwise_cons.mp h
    rw [orderedInsert_cons]
    by_cases hab : ord a ≤ ord b
    · -- everything from here on is at least `a`
      rw [if_pos hab, filter_cons]
      cases hp : p a with
      | false => rfl
      | true =>
        rw [if_pos rfl, if_pos rfl, getLast?_cons]
        cases hlast : ((b :: l).filter p).getLast? with
        | none => rfl
        | some c =>
          have hc : c ∈ b :: l := (mem_filter.mp (mem_of_getLast? hlast)).1
          have hac : ord a ≤ ord c := by
            rcases mem_cons.mp hc with rfl | hc
            · exact hab
            · exact hab.trans (hb c hc)
          dsimp only
          rw [if_pos hac]
          rfl
    · rw [if_neg hab, filter_cons, filter_cons]
      cases hp : p b with
      | false => exact ih hl
      | true =>
        rw [if_pos rfl, if_pos rfl, getLast?_cons, getLast?_cons, ih hl]
        cases hpa : p a with
        | false => rfl
        | true =>
          cases hlast : (l.filter p).getLast? with
          | none => simp [hab]
          | some c =>
            simp only [if_true, getD_some]
            split <;> rfl

/-- The last element of a condition after a stable sort. -/
theorem getLast?_filter_sortBy (p : α → Bool) (l : List α) :
    ((sortBy ord l).filter p).getLast? = lastMax ord (l.filter p) := by
  induction l with
  | nil => rfl
  | cons a l ih =>
    have hsort : sortBy ord (a :: l) =
        (sortBy ord l).orderedInsert (fun a b => ord a ≤ ord b) a := rfl
    rw [hsort, getLast?_filter_orderedInsert p a (pairwise_sortBy l), ih, filter_cons]
    cases p a <;> rfl

theorem lastMax_spec (h : lastMax ord l = some c) :
    c ∈ l ∧ ∀ b ∈ l, ord b ≤ ord c := by
  induction l generalizing c with
  | nil => cases h
  | cons a l ih =>
    rw [lastMax] at h
    cases hlast : lastMax ord l with
    | none =>
      rw [hlast] at h
      obtain rfl := some.inj h
      obtain rfl : l = [] := by
        cases l with
        | nil => rfl
        | cons b l =>
          rw [lastMax] at hlast
          split at hlast
          · cases hlast
          · split at hlast <;> cases hlast
      simp
    | some d =>
      rw [hlast] at h
      obtain ⟨hmem, hle⟩ := ih hlast
      dsimp only at h
      split at h
      · rename_i had
        obtain rfl := some.inj h
        exact ⟨mem_cons_of_mem _ hmem, by simpa using ⟨had, hle⟩⟩
      · rename_i had
        obtain rfl := some.inj h
        have hda : ord d ≤ ord a := (not_le.mp had).le
        refine ⟨mem_cons_self, ?_⟩
        intro b hb
        rcases mem_cons.mp hb with rfl | hb
        · exact le_rfl
        · exact (hle b hb).trans hda

theorem exists_lastMax (ord : α → β) (h : l ≠ []) : ∃ c, lastMax ord l = some c := by
  cases l with
  | nil => exact absurd rfl h
  | cons a l =>
    rw [lastMax]
    split
    · exact ⟨a, rfl⟩
    · split
      · exact ⟨_, rfl⟩
      · exact ⟨_, rfl⟩

/-- **A strictly greatest element is the last of the greatest in every order.** -/
theorem lastMax_eq_some (hc : c ∈ l) (hlt : ∀ b ∈ l, b ≠ c → ord b < ord c) :
    lastMax ord l = some c := by
  obtain ⟨d, hd⟩ := exists_lastMax ord (ne_nil_of_mem hc)
  obtain ⟨hmem, hle⟩ := lastMax_spec hd
  by_contra hne
  have hdc : d ≠ c := fun h => hne (h ▸ hd)
  exact absurd (hle c hc) (not_le.mpr (hlt d hmem hdc))

/-- A greatest element that comes last is the last of the greatest. -/
theorem lastMax_append {m : List α} (hm : m ≠ []) (heq : ∀ b ∈ m, b = c)
    (hle : ∀ b ∈ l, ord b ≤ ord c) : lastMax ord (l ++ m) = some c := by
  induction l with
  | nil =>
    obtain ⟨d, hd⟩ := exists_lastMax ord hm
    rw [nil_append, hd, heq d (lastMax_spec hd).1]
  | cons a l ih =>
    rw [cons_append, lastMax, ih fun b hb => hle b (mem_cons_of_mem a hb)]
    exact if_pos (hle a mem_cons_self)

/-- A choice among mapped elements is the mapped choice. -/
theorem lastMax_map {γ : Type*} (ord : γ → β) (f : α → γ) (l : List α) :
    lastMax ord (l.map f) = (lastMax (fun a => ord (f a)) l).map f := by
  induction l with
  | nil => rfl
  | cons a l ih =>
    rw [map_cons, lastMax, lastMax, ih]
    cases lastMax (fun a => ord (f a)) l with
    | none => rfl
    | some c =>
      dsimp only [map_some]
      split <;> rfl

/-- **The element left of a key**: the last of the key's greatest elements. -/
theorem mem_keepLast_sortBy [DecidableEq κ] {key : α → κ} :
    a ∈ keepLast key (sortBy ord l) ↔
      lastMax ord (l.filter fun b => key b = key a) = some a := by
  rw [mem_keepLast_iff, getLast?_filter_sortBy]

end Sorted

end HpcAgentBench
