import Mathlib.Control.Monad.Basic
import Mathlib.Data.List.Forall2

/-!
# Exceptions and containers of the source language

A function of the source that can raise is modelled in `Except PyErr`; the texts of the errors
are the source's.  A `dict` with text keys is an association list in insertion order, read by
`getItem`; a sequence is read by `item`.
-/

namespace HpcAgentBench

open List Option

universe u v

/-- The exceptions the modelled functions raise. -/
inductive PyErr
  /-- `ValueError` with its text. -/
  | valueError (msg : String)
  /-- `IndexError`: an index past the end of a sequence or an axis. -/
  | indexError
  /-- `KeyError` naming the missing key. -/
  | keyError (key : String)
  /-- `OverflowError`: a number too large for the type it is converted to. -/
  | overflow
  /-- `struct.error`: a number its slot cannot hold, or a buffer too short for the slot. -/
  | structError
  /-- `RuntimeError` with its text. -/
  | runtimeError (msg : String)
  /-- `ZeroDivisionError`. -/
  | zeroDivision
  deriving DecidableEq, Repr

/-- The value of `o`, or the exception `e`. -/
def orRaise {α : Type*} (e : PyErr) : Option α → Except PyErr α
  | some a => .ok a
  | none => .error e

variable {α : Type*} {a : α} {β : Type*} {d : List (String × β)} {key : String} {b : β}

@[simp] theorem orRaise_eq_ok {e : PyErr} {o : Option α} :
    orRaise e o = .ok a ↔ o = some a := by
  cases o <;> simp [orRaise]

/-- `seq[i]`. -/
def item {α : Type*} (seq : List α) (i : ℕ) : Except PyErr α := orRaise .indexError seq[i]?

@[simp] theorem item_eq_ok {seq : List α} {i : ℕ} :
    item seq i = .ok a ↔ seq[i]? = some a := orRaise_eq_ok

/-- `d[key]`. -/
def getItem {β : Type*} (d : List (String × β)) (key : String) : Except PyErr β :=
  orRaise (.keyError key) (d.lookup key)

@[simp] theorem getItem_eq_ok :
    getItem d key = .ok b ↔ d.lookup key = some b := orRaise_eq_ok

/-- `d[key] = value`: in place, or at the end for a new key. -/
def setItem {β : Type*} (d : List (String × β)) (key : String) (value : β) : List (String × β) :=
  if (d.lookup key).isSome then d.map fun p => if p.1 = key then (key, value) else p
  else d ++ [(key, value)]

theorem setItem_of_notMem {value : β} (h : key ∉ d.map (·.1)) :
    setItem d key value = d ++ [(key, value)] := by
  have hlookup : d.lookup key = none := by
    rw [lookup_eq_none_iff]
    intro p hp
    rw [bne_iff_ne]
    rintro rfl
    exact h (mem_map_of_mem hp)
  simp [setItem, hlookup]

theorem lookup_setItem (d : List (String × β)) (key key' : String) (value : β) :
    (setItem d key value).lookup key' = if key' = key then some value else d.lookup key' := by
  -- writing in place, whether or not the key is there
  have hmap : ∀ l : List (String × β),
      (l.map fun p => if p.1 = key then (key, value) else p).lookup key' =
        if key' = key then (l.lookup key).map fun _ => value else l.lookup key' := by
    intro l
    induction l with
    | nil => simp
    | cons p l ih =>
      obtain ⟨k, b⟩ := p
      rw [map_cons, lookup_cons, lookup_cons, lookup_cons, ih]
      by_cases hk : k = key
      · subst hk
        by_cases hk' : key' = k
        · simp [hk']
        · simp [hk', beq_eq_false_iff_ne.2 hk']
      · by_cases hk' : key' = key
        · subst hk'
          simp [hk, beq_eq_false_iff_ne.2 (Ne.symm hk)]
        · simp [hk, hk']
  unfold setItem
  split
  next hsome =>
    obtain ⟨b, hb⟩ := isSome_iff_exists.1 hsome
    rw [hmap, hb]
    rfl
  next hnone =>
    rw [not_isSome_iff_eq_none] at hnone
    rw [lookup_append]
    by_cases hk : key' = key
    · subst hk
      simp [hnone]
    · simp [hk, lookup_cons, beq_eq_false_iff_ne.2 hk]

/-- The characters `str.strip()` removes. -/
def isSpace (c : Char) : Bool :=
  (0x09 ≤ c.toNat && c.toNat ≤ 0x0d) || (0x1c ≤ c.toNat && c.toNat ≤ 0x20) || c.toNat = 0x85 ||
    c.toNat = 0xa0 || c.toNat = 0x1680 || (0x2000 ≤ c.toNat && c.toNat ≤ 0x200a) ||
    c.toNat = 0x2028 || c.toNat = 0x2029 || c.toNat = 0x202f || c.toNat = 0x205f ||
    c.toNat = 0x3000

/-- `s.strip()`. -/
def strip (s : String) : String :=
  String.ofList ((s.toList.dropWhile isSpace).reverse.dropWhile isSpace).reverse

/-- The text of a list, given the texts of its elements. -/
def listText {α : Type*} (text : α → String) (l : List α) : String :=
  "[" ++ ", ".intercalate (l.map text) ++ "]"

section Option

variable {α β : Type u}
variable {f : α → Option β} {l : List α} {bs : List β} {a : α} {m : List β}

/-- A loop that collects one result per element succeeds with exactly the results of the
elements, in order. -/
theorem mapM_eq_some :
    l.mapM f = some bs ↔ Forall₂ (fun a b => f a = some b) l bs := by
  induction l generalizing bs with
  | nil =>
    simp only [mapM_nil, Option.pure_def, some.injEq, forall₂_nil_left_iff]
    exact eq_comm
  | cons a l ih =>
    simp only [mapM_cons, bind_eq_bind, bind_eq_some_iff, Option.pure_def,
      some.injEq, forall₂_cons_left_iff, ih]
    constructor
    · rintro ⟨b, hb, bs, hbs, rfl⟩
      exact ⟨b, bs, hb, hbs, rfl⟩
    · rintro ⟨b, bs, hb, hbs, rfl⟩
      exact ⟨b, hb, bs, hbs, rfl⟩

theorem mapM_cons_some {b : β} (ha : f a = some b) (hl : l.mapM f = some m) :
    (a :: l).mapM f = some (b :: m) := by
  rw [mapM_cons, ha, hl]
  rfl

theorem mapM_cons_eq_some (h : (a :: l).mapM f = some m) :
    ∃ b m', f a = some b ∧ l.mapM f = some m' ∧ m = b :: m' := by
  rw [mapM_cons] at h
  obtain ⟨b, hb, h⟩ := bind_eq_some_iff.mp h
  obtain ⟨m', hm', h⟩ := bind_eq_some_iff.mp h
  exact ⟨b, m', hb, hm', (some.inj h).symm⟩

theorem exists_mapM_some (h : ∀ a ∈ l, ∃ b, f a = some b) :
    ∃ bs, l.mapM f = some bs := by
  induction l with
  | nil => exact ⟨[], rfl⟩
  | cons a l ih =>
    obtain ⟨b, hb⟩ := h a mem_cons_self
    obtain ⟨bs, hbs⟩ := ih fun a ha => h a (mem_cons_of_mem _ ha)
    exact ⟨b :: bs, mapM_cons_some hb hbs⟩

theorem exists_of_mapM_some (h : l.mapM f = some bs) : ∀ a ∈ l, ∃ b, f a = some b := by
  induction l generalizing bs with
  | nil => exact fun a ha => absurd ha not_mem_nil
  | cons a l ih =>
    obtain ⟨b, bs', hb, hbs, rfl⟩ := mapM_cons_eq_some h
    exact forall_mem_cons.2 ⟨⟨b, hb⟩, ih hbs⟩

/-- A loop whose elements' results are those of `g` collects them. -/
theorem eq_map_of_mapM {g : α → β} (h : l.mapM f = some bs)
    (hg : ∀ a ∈ l, ∀ b, f a = some b → b = g a) : bs = l.map g := by
  induction l generalizing bs with
  | nil =>
    cases h
    rfl
  | cons a l ih =>
    obtain ⟨b, bs', hb, hbs, rfl⟩ := mapM_cons_eq_some h
    rw [map_cons, hg a mem_cons_self b hb,
      ih hbs fun a ha => hg a (mem_cons_of_mem _ ha)]

theorem mapM_append_some {l' : List α} {m' : List β} (hl : l.mapM f = some m)
    (hl' : l'.mapM f = some m') :
    (l ++ l').mapM f = some (m ++ m') := by
  rw [mapM_append, hl, hl']
  rfl

end Option

section Except

variable {ε : Type v} {α β : Type u}
variable {x : Except ε α} {f : α → Except ε β} {b : β} {l : List α}

/-- What a computation that succeeded went through. -/
theorem bind_eq_ok :
    (x >>= f) = .ok b ↔ ∃ a, x = .ok a ∧ f a = .ok b := by
  cases x with
  | error e | ok a => simp [bind, Except.bind]

theorem map_eq_ok {f : α → β} :
    (f <$> x) = .ok b ↔ ∃ a, x = .ok a ∧ f a = b := by
  cases x with
  | error e | ok a => simp [Functor.map, Except.map]

/-- A loop that collects one result per element succeeds with exactly the results of the
elements, in order. -/
theorem mapM_eq_ok {bs : List β} :
    l.mapM f = .ok bs ↔ Forall₂ (fun a b => f a = .ok b) l bs := by
  induction l generalizing bs with
  | nil =>
    simp only [mapM_nil, pure, Except.pure, Except.ok.injEq, forall₂_nil_left_iff]
    exact eq_comm
  | cons a l ih =>
    simp only [mapM_cons, bind_eq_ok, forall₂_cons_left_iff, ih, pure, Except.pure,
      Except.ok.injEq]
    constructor
    · rintro ⟨b, hb, bs', hbs, rfl⟩; exact ⟨b, bs', hb, hbs, rfl⟩
    · rintro ⟨b, bs', hb, hbs, rfl⟩; exact ⟨b, hb, bs', hbs, rfl⟩

/-- What every step of a loop keeps, the loop keeps. -/
theorem foldlM_inv {P : β → Prop} {f : β → α → Except ε β} {b' : β}
    (hstep : ∀ a ∈ l, ∀ b b', P b → f b a = .ok b' → P b') (hb : P b) (h : l.foldlM f b = .ok b') :
    P b' := by
  induction l generalizing b with
  | nil =>
    cases h
    exact hb
  | cons a l ih =>
    rw [foldlM_cons] at h
    obtain ⟨b₁, hone, h⟩ := bind_eq_ok.1 h
    exact ih (fun c hc => hstep c (mem_cons_of_mem _ hc))
      (hstep a mem_cons_self b b₁ hb hone) h

/-- The loop over the numbers below `n`. -/
theorem mapM_range_eq_ok {ε : Type v} {β : Type} {f : ℕ → Except ε β} {n : ℕ} {bs : List β}
    (hlen : n = bs.length) (h : ∀ i (hi : i < bs.length), f i = .ok bs[i]) :
    (List.range n).mapM f = .ok bs := by
  rw [mapM_eq_ok, forall₂_iff_get]
  refine ⟨by simpa using hlen, fun i h₁ h₂ => ?_⟩
  simp only [get_eq_getElem, getElem_range]
  exact h i h₂

end Except

/-- A computation that did not raise has a result. -/
theorem exists_of_isOk {ε : Type*} {x : Except ε α} (h : x.isOk = true) : ∃ a, x = .ok a := by
  cases x with
  | error e => cases h
  | ok a => exact ⟨a, rfl⟩

variable {l : List α} {m : List β} {p : α → Bool} {x : α}

theorem map_eq_map_of_forall₂ {γ : Type*} {f : α → γ} {g : β → γ}
    (h : Forall₂ (fun a b => f a = g b) l m) : l.map f = m.map g := by
  induction h with
  | nil => rfl
  | cons hab _ ih => rw [map_cons, map_cons, hab, ih]

/-- What an element of the second list is related to. -/
theorem exists_of_mem_forall₂ {R : α → β → Prop} (h : Forall₂ R l m) (hb : b ∈ m) :
    ∃ a ∈ l, R a b := by
  induction h with
  | nil => cases hb
  | cons hab _ ih =>
    rcases mem_cons.mp hb with rfl | hb
    · exact ⟨_, mem_cons_self, hab⟩
    · obtain ⟨a, ha, hR⟩ := ih hb
      exact ⟨a, mem_cons_of_mem _ ha, hR⟩

/-- Two counted elements of a list that counts one are one element. -/
theorem eq_of_countP_eq_one (h : l.countP p = 1) {y : α} (hx : x ∈ l) (hy : y ∈ l)
    (hpx : p x = true) (hpy : p y = true) : x = y := by
  rw [countP_eq_length_filter, length_eq_one_iff] at h
  obtain ⟨z, hz⟩ := h
  have hmem : ∀ w ∈ l, p w = true → w = z := fun w hw hpw =>
    mem_singleton.1 (hz ▸ mem_filter.2 ⟨hw, hpw⟩)
  rw [hmem x hx hpx, hmem y hy hpy]

theorem countP_eq_one {α : Type*} [DecidableEq α] {p : α → Bool} {l : List α} (hl : l.Nodup)
    {x : α} (hx : x ∈ l) (h : ∀ y ∈ l, p y = true ↔ y = x) : l.countP p = 1 := by
  have hcongr : l.countP p = l.count x :=
    countP_congr fun y hy => by rw [h y hy, beq_iff_eq]
  rw [hcongr, hl.count, if_pos hx]

section Mid

variable {α β γ : Type*} {R : α → β → Prop} {S : β → γ → Prop} {l : List α} {n : List γ}

theorem forall₂_comp {m : List β} (hR : Forall₂ R l m) (hS : Forall₂ S m n) :
    Forall₂ (fun a c => ∃ b, R a b ∧ S b c) l n := by
  induction hR generalizing n with
  | nil => cases hS; exact .nil
  | cons hab _ ih =>
    cases hS with
    | cons hbc hS => exact .cons ⟨_, hab, hbc⟩ (ih hS)

theorem exists_forall₂ (h : ∀ a ∈ l, ∃ b, R a b) : ∃ m, Forall₂ R l m := by
  induction l with
  | nil => exact ⟨[], .nil⟩
  | cons a l ih =>
    obtain ⟨b, hb⟩ := h a mem_cons_self
    obtain ⟨m, hm⟩ := ih fun x hx => h x (mem_cons_of_mem _ hx)
    exact ⟨b :: m, .cons hb hm⟩

/-- A list between two lists related through intermediate elements. -/
theorem exists_forall₂_mid (h : Forall₂ (fun a c => ∃ b, R a b ∧ S b c) l n) :
    ∃ m, Forall₂ R l m ∧ Forall₂ S m n := by
  induction h with
  | nil => exact ⟨[], .nil, .nil⟩
  | cons hac _ ih =>
    obtain ⟨b, hR, hS⟩ := hac
    obtain ⟨m, hm, hn⟩ := ih
    exact ⟨b :: m, .cons hR hm, .cons hS hn⟩

end Mid

end HpcAgentBench
