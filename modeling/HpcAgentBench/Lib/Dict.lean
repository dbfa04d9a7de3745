import HpcAgentBench.Lib.Python
import Mathlib.Data.List.Induction
import Mathlib.Data.List.Perm.Basic
import Mathlib.Data.List.Sort

/-!
# Dictionaries

A `dict` of the source language: keys with values, each key once, in the order the keys were first
set.

## Main results

* `Dict.get?_set`, `Dict.mem_keys_set` : what setting a key does.
* `Dict.get?_update` : the items of an update come before the dictionary's own.
* `Dict.mem_items` : the items are the keys with their values.
* `Dict.get?_group`, `Dict.items_group` : grouping keeps the elements of a key in order.
* `Dict.group_perm` : grouping neither loses nor repeats an element.
* `Dict.sortedItems_perm` : sorting by key only orders.
-/

namespace HpcAgentBench

open List

universe u

/-- A dictionary: its items, with no key twice. -/
structure Dict (κ β : Type*) where
  items : List (κ × β)
  nodup : (items.map (·.1)).Nodup

namespace Dict

variable {κ β : Type*}

/-- `{}`. -/
def empty : Dict κ β := ⟨[], nodup_nil⟩

instance : Inhabited (Dict κ β) := ⟨empty⟩

/-- `list(d)`. -/
def keys (d : Dict κ β) : List κ := d.items.map (·.1)

/-- `len(d)`. -/
def size (d : Dict κ β) : ℕ := d.items.length

@[simp] theorem items_empty : (empty : Dict κ β).items = [] := rfl

@[simp] theorem keys_empty : (empty : Dict κ β).keys = [] := rfl

/-- The items that satisfy a condition. -/
def filter (p : κ × β → Bool) (d : Dict κ β) : Dict κ β :=
  ⟨d.items.filter p, d.nodup.sublist (filter_sublist.map _)⟩

@[simp] theorem items_filter (p : κ × β → Bool) (d : Dict κ β) :
    (d.filter p).items = d.items.filter p := rfl

/-- New values at the same keys. -/
def mapValues {γ : Type*} (f : κ → β → γ) (d : Dict κ β) : Dict κ γ :=
  ⟨d.items.map fun p => (p.1, f p.1 p.2), by simpa [Function.comp_def] using d.nodup⟩

section Get

variable [DecidableEq κ] {d : Dict κ β} {k k' : κ} {b : β}

/-- `d.get(key)`. -/
def get? (d : Dict κ β) (k : κ) : Option β := d.items.lookup k

/-- `d.get(key, default)`. -/
def getD (d : Dict κ β) (k : κ) (b : β) : β := (d.get? k).getD b

/-- `d[key] = value`: in place, or at the end for a new key. -/
def set (d : Dict κ β) (k : κ) (b : β) : Dict κ β where
  items :=
    if k ∈ d.keys then d.items.map fun p => if p.1 = k then (k, b) else p else d.items ++ [(k, b)]
  nodup := by
    split
    · have hkeys : (d.items.map fun p => if p.1 = k then (k, b) else p).map (·.1) = d.keys := by
        rw [map_map, keys]
        refine map_congr_left fun p _ => ?_
        dsimp only [Function.comp]
        split
        · exact (‹p.1 = k›).symm
        · rfl
      rw [hkeys]
      exact d.nodup
    · rw [map_append, nodup_append]
      refine ⟨d.nodup, by simp, fun a ha b hb hab => ?_⟩
      simp only [map_cons, map_nil, mem_singleton] at hb
      exact ‹k ∉ d.keys› (hb ▸ hab ▸ ha)

theorem mem_items : (k, b) ∈ d.items ↔ d.get? k = some b := by
  obtain ⟨items, nodup⟩ := d
  simp only [get?]
  induction items with
  | nil => simp
  | cons p items ih =>
    obtain ⟨k', b'⟩ := p
    rw [map_cons, nodup_cons] at nodup
    rw [lookup_cons, mem_cons, Prod.mk.injEq]
    by_cases hk : k = k'
    · subst hk
      have hno : (k, b) ∉ items := fun h => nodup.1 (mem_map_of_mem (f := (·.1)) h)
      simp [hno, eq_comm]
    · simp [hk, ih nodup.2, beq_eq_false_iff_ne.mpr hk]

theorem mem_keys : k ∈ d.keys ↔ (d.get? k).isSome = true := by
  rw [keys, mem_map, Option.isSome_iff_exists]
  constructor
  · rintro ⟨⟨k', b⟩, hp, rfl⟩
    exact ⟨b, mem_items.mp hp⟩
  · rintro ⟨b, hb⟩
    exact ⟨(k, b), mem_items.mpr hb, rfl⟩

theorem notMem_keys : k ∉ d.keys ↔ d.get? k = none := by
  rw [mem_keys, Option.not_isSome_iff_eq_none]

@[simp] theorem get?_empty : (empty : Dict κ β).get? k = none := rfl

theorem get?_set : (d.set k b).get? k' = if k' = k then some b else d.get? k' := by
  refine Option.ext fun b' => ?_
  rw [← mem_items]
  simp only [set]
  split
  next hk =>
    rw [mem_map]
    constructor
    · rintro ⟨⟨k₁, b₁⟩, hp, heq⟩
      split at heq
      · cases heq
        simp
      next hne =>
        cases heq
        rw [if_neg hne]
        exact mem_items.mp hp
    · intro h
      split at h
      next hkk =>
        obtain ⟨p, hp, rfl⟩ := mem_map.mp hk
        exact ⟨p, hp, by rw [if_pos rfl, hkk, Option.some.inj h]⟩
      next hne => exact ⟨(k', b'), mem_items.mpr h, if_neg hne⟩
  next hk =>
    rw [mem_append, mem_items, mem_singleton, Prod.mk.injEq]
    constructor
    · rintro (h | ⟨rfl, rfl⟩)
      · rw [if_neg, h]
        rintro rfl
        rw [notMem_keys.mp hk] at h
        cases h
      · simp
    · intro h
      split at h
      next hkk => exact .inr ⟨hkk, (Option.some.inj h).symm⟩
      next => exact .inl h

theorem mem_keys_set : k' ∈ (d.set k b).keys ↔ k' = k ∨ k' ∈ d.keys := by
  rw [mem_keys, mem_keys, get?_set]
  split <;> simp_all

theorem get?_filter {p : κ × β → Bool} :
    (d.filter p).get? k = some b ↔ d.get? k = some b ∧ p (k, b) = true := by
  rw [← mem_items, ← mem_items, items_filter, mem_filter]

theorem get?_mapValues {γ : Type*} {f : κ → β → γ} :
    (d.mapValues f).get? k = (d.get? k).map (f k) := by
  refine Option.ext fun c => ?_
  rw [← mem_items]
  simp only [mapValues, mem_map, Option.map_eq_some_iff]
  constructor
  · rintro ⟨⟨k', b'⟩, hp, heq⟩
    cases heq
    exact ⟨b', mem_items.mp hp, rfl⟩
  · rintro ⟨b', hb', rfl⟩
    exact ⟨(k, b'), mem_items.mpr hb', rfl⟩

theorem get?_foldl_set (keys : List κ) (b : β) (d : Dict κ β) (k : κ) :
    (keys.foldl (fun d key => d.set key b) d).get? k =
      if k ∈ keys then some b else d.get? k := by
  induction keys generalizing d with
  | nil => rfl
  | cons key keys ih =>
    rw [foldl_cons, ih, get?_set]
    by_cases hkey : k = key
    · simp [hkey]
    · simp [hkey]

/-- `d.update(items)`. -/
def update (d : Dict κ β) (items : List (κ × β)) : Dict κ β :=
  items.foldl (fun d p => d.set p.1 p.2) d

theorem get?_update {items : List (κ × β)} (hitems : (items.map (·.1)).Nodup) (k : κ) :
    (d.update items).get? k = (items.lookup k).or (d.get? k) := by
  induction items generalizing d with
  | nil => rfl
  | cons p items ih =>
    obtain ⟨k', b⟩ := p
    rw [map_cons, nodup_cons] at hitems
    rw [update, foldl_cons, ← update, ih hitems.2, get?_set, lookup_cons]
    by_cases hk : k = k'
    · subst hk
      have hnone : items.lookup k = none := by
        rw [lookup_eq_none_iff]
        intro p hp
        rw [bne_iff_ne]
        intro heq
        exact hitems.1 (mem_map.2 ⟨p, hp, heq.symm⟩)
      simp [hnone]
    · simp [hk, beq_eq_false_iff_ne.2 hk]

end Get

/-- A loop that sets each key to what is computed from its item. -/
theorem foldlM_set_spec {κ γ : Type u} [DecidableEq κ] {ε β : Type*}
    {f : κ × β → Except ε γ} {items : List (κ × β)} (hitems : (items.map (·.1)).Nodup)
    {out out' : Dict κ γ}
    (h : items.foldlM (fun out p => do return out.set p.1 (← f p)) out = .ok out') :
    (∀ p ∈ items, ∃ c, f p = .ok c ∧ out'.get? p.1 = some c) ∧
      ∀ k, k ∉ items.map (·.1) → out'.get? k = out.get? k := by
  induction items generalizing out with
  | nil =>
    cases h
    exact ⟨by simp, fun _ _ => rfl⟩
  | cons p items ih =>
    rw [map_cons, nodup_cons] at hitems
    rw [foldlM_cons] at h
    obtain ⟨out₁, hone, h⟩ := bind_eq_ok.1 h
    obtain ⟨c, hc, hone⟩ := bind_eq_ok.1 hone
    cases hone
    obtain ⟨hin, hout⟩ := ih hitems.2 h
    refine ⟨fun q hq => ?_, fun k hk => ?_⟩
    · rcases mem_cons.1 hq with rfl | hq
      · exact ⟨c, hc, by rw [hout _ hitems.1, get?_set, if_pos rfl]⟩
      · exact hin q hq
    · rw [map_cons, mem_cons, not_or] at hk
      rw [hout k hk.2, get?_set, if_neg hk.1]

section Group

variable {α : Type*} [DecidableEq κ] (key : α → κ) (val : α → β)

/-- `d.setdefault(key, []).append(value)`. -/
def push (d : Dict κ (List β)) (k : κ) (b : β) : Dict κ (List β) := d.set k (d.getD k [] ++ [b])

/-- The values of a list's elements under the elements' keys. -/
def group (l : List α) : Dict κ (List β) := l.foldl (fun d a => d.push (key a) (val a)) empty

theorem group_append_singleton (l : List α) (a : α) :
    group key val (l ++ [a]) = (group key val l).push (key a) (val a) := by
  rw [group, foldl_append]
  rfl

theorem get?_group (l : List α) (k : κ) :
    (group key val l).get? k =
      if ∃ a ∈ l, key a = k then some ((l.filter (key · = k)).map val) else none := by
  induction l using List.reverseRecOn with
  | nil => simp [group]
  | append_singleton l a ih =>
    rw [group_append_singleton, push, get?_set]
    by_cases hk : k = key a
    · subst hk
      have hvals : (group key val l).getD (key a) [] = (l.filter (key · = key a)).map val := by
        rw [getD, ih]
        split
        · rfl
        next h =>
          have hnil : l.filter (key · = key a) = [] :=
            filter_eq_nil_iff.2 fun x hx hxa => h ⟨x, hx, by simpa using hxa⟩
          rw [hnil]
          rfl
      rw [if_pos rfl, if_pos ⟨a, by simp, rfl⟩, hvals, filter_append, map_append]
      simp
    · rw [if_neg hk, ih, filter_append]
      simp [Ne.symm hk, or_and_right, exists_or]

theorem mem_keys_group {l : List α} {k : κ} :
    k ∈ (group key val l).keys ↔ ∃ a ∈ l, key a = k := by
  rw [mem_keys, get?_group]
  split <;> simp_all

theorem items_group (l : List α) :
    (group key val l).items =
      (group key val l).keys.map fun k => (k, (l.filter (key · = k)).map val) := by
  rw [keys, map_map]
  refine (map_id _).symm.trans (map_congr_left fun p hp => ?_)
  have hget := mem_items.1 (show (p.1, p.2) ∈ _ from hp)
  rw [get?_group] at hget
  split at hget
  · exact Prod.ext rfl (Option.some.inj hget).symm
  · cases hget

/-- Elements with one key are one group. -/
theorem items_group_const {l : List α} {k : κ} (hne : l ≠ []) (h : ∀ a ∈ l, key a = k) :
    (group key val l).items = [(k, l.map val)] := by
  have hmem : ∀ k', k' ∈ (group key val l).keys ↔ k' = k := by
    intro k'
    rw [mem_keys_group]
    constructor
    · rintro ⟨a, ha, rfl⟩
      exact h a ha
    · rintro rfl
      obtain ⟨a, ha⟩ := exists_mem_of_ne_nil l hne
      exact ⟨a, ha, h a ha⟩
  have hkeys : (group key val l).keys = [k] :=
    perm_singleton.1 ((perm_ext_iff_of_nodup (group key val l).nodup
      (nodup_singleton k)).2 fun k' => by rw [mem_singleton, ← hmem k']; rfl)
  rw [items_group, hkeys, map_singleton,
    filter_eq_self.2 fun a ha => by simp [h a ha]]

/-- The elements of distinct keys, key by key. -/
theorem perm_flatMap_filter {ks : List κ} (hks : ks.Nodup) (l : List α) :
    (ks.flatMap fun k => l.filter (key · = k)).Perm (l.filter (key · ∈ ks)) := by
  induction ks with
  | nil => simp
  | cons k ks ih =>
    obtain ⟨hk, hks⟩ := nodup_cons.1 hks
    have hsplit := filter_append_perm (key · = k) (l.filter (key · ∈ k :: ks))
    rw [filter_filter, filter_filter] at hsplit
    have hhead : l.filter (fun a => decide (key a = k) && decide (key a ∈ k :: ks)) =
        l.filter (key · = k) :=
      filter_congr fun a _ => by by_cases h : key a = k <;> simp [h]
    have htail : l.filter (fun a => !decide (key a = k) && decide (key a ∈ k :: ks)) =
        l.filter (key · ∈ ks) :=
      filter_congr fun a _ => by
        by_cases h : key a = k
        · simp [h, hk]
        · simp [h]
    rw [hhead, htail] at hsplit
    rw [flatMap_cons]
    exact ((ih hks).append_left _).trans hsplit

/-- **Grouping neither loses nor repeats an element.** -/
theorem group_perm (l : List α) :
    ((group key val l).items.flatMap (·.2)).Perm (l.map val) := by
  have hperm := (perm_flatMap_filter key (group key val l).nodup l).map val
  have hall : l.filter (fun a => decide (key a ∈ (group key val l).items.map (·.1))) = l :=
    filter_eq_self.2 fun a ha =>
      decide_eq_true ((mem_keys_group key val).2 ⟨a, ha, rfl⟩)
  rw [hall, map_flatMap] at hperm
  rw [items_group, flatMap_map]
  exact hperm

end Group

section Sorted

variable [LinearOrder κ]

/-- `sorted(d.items())`: by key. -/
def sortedItems (d : Dict κ β) : List (κ × β) := d.items.insertionSort fun p q => p.1 ≤ q.1

/-- `sorted(d)`. -/
def sortedKeys (d : Dict κ β) : List κ := d.sortedItems.map (·.1)

theorem sortedItems_perm (d : Dict κ β) : d.sortedItems.Perm d.items := perm_insertionSort ..

theorem sortedKeys_perm (d : Dict κ β) : d.sortedKeys.Perm d.keys := d.sortedItems_perm.map _

theorem sortedKeys_nodup (d : Dict κ β) : d.sortedKeys.Nodup :=
  (d.sortedKeys_perm.nodup_iff).mpr d.nodup

end Sorted

end Dict

end HpcAgentBench
