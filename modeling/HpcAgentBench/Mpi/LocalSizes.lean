import HpcAgentBench.Lib.Dict
import HpcAgentBench.Mpi.Layout

/-!
# Local sizes and tiles

A kernel is handed its size symbols as scalars and its arrays as tiles.  `localSizeScalars` reads
a symbol's local value off the axes it sizes, `Descriptor.localShape` gives the tile; an array of
at most one element is replicated in the second and not in the first.

## Main results

* `length_dealt_congr` : how many indices a coordinate owns depends on the block width only.
* `length_dealt_eq_iff` : when a coordinate owns a whole axis.
* `localSizeScalars_run` : which symbols are replaced, and by which count.
* `localSizeScalars_extents_iff` : the local values are the extents of the tiles if and only if
  every rank holds the whole of the small arrays.
-/

namespace HpcAgentBench

open List

namespace Mpi

/-! ### Counting owned indices -/

section Counts

variable {n parts c : ℕ}
variable {axis : AxisDist}

/-- Blocks and single elements dealt round-robin have the sizes of `blockBounds`. -/
theorem length_dealt_unit (hw : effectiveBlockSize axis = 1) (hc : c < parts) :
    (dealt n parts c axis).length = n / parts + if c < n % parts then 1 else 0 := by
  by_cases hs : axis.scheme = .block
  · exact length_dealt_block hs
  · rw [dealt, if_neg hs, hw, ← countP_eq_length_filter]
    have hcount : (List.range n).countP (fun i => i / 1 % parts == c) =
        n.count (· ≡ c [MOD parts]) := by
      rw [Nat.count]
      refine countP_congr fun i _ => ?_
      simp [Nat.ModEq, Nat.mod_eq_of_lt hc]
    rw [hcount, Nat.count_modEq_card n (by omega), Nat.mod_eq_of_lt hc]

theorem effectiveBlockSize_block (hs : axis.scheme = .block) :
    effectiveBlockSize axis = 1 := by
  rw [effectiveBlockSize, hs]

/-- How many indices a coordinate owns depends on the block width alone. -/
theorem length_dealt_congr {a a' : AxisDist} (hw : effectiveBlockSize a = effectiveBlockSize a')
    (hc : c < parts) : (dealt n parts c a).length = (dealt n parts c a').length := by
  by_cases hs : a.scheme = .block
  · have hone := effectiveBlockSize_block hs
    rw [length_dealt_unit hone hc, length_dealt_unit (hw ▸ hone) hc]
  by_cases hs' : a'.scheme = .block
  · have hone := effectiveBlockSize_block hs'
    rw [length_dealt_unit (hw.trans hone) hc, length_dealt_unit hone hc]
  · rw [dealt, dealt, if_neg hs, if_neg hs', hw]

/-- A coordinate holds the whole of an axis: it is empty, it has one part, or it fits the first
block and the coordinate is the first. -/
def WholeShare (n parts c width : ℕ) : Prop := n = 0 ∨ parts = 1 ∨ (c = 0 ∧ n ≤ width)

theorem length_dealt_eq_iff (hc : c < parts) :
    (dealt n parts c axis).length = n ↔ WholeShare n parts c (effectiveBlockSize axis) := by
  -- dealing the axis round-robin gives the same number
  let dealer : AxisDist :=
    { axis with scheme := if axis.scheme = .block then .cyclic else axis.scheme }
  have hs : dealer.scheme ≠ .block := by
    by_cases h : axis.scheme = .block <;> simp [dealer, h]
  have hw : effectiveBlockSize axis = effectiveBlockSize dealer := by
    by_cases h : axis.scheme = .block <;> simp [effectiveBlockSize, dealer, h]
  have hpos := one_le_effectiveBlockSize dealer
  rw [length_dealt_congr hw hc, hw, dealt, if_neg hs]
  have hall : ((List.range n).filter fun i => i / effectiveBlockSize dealer % parts == c).length =
      n ↔ ∀ i < n, i / effectiveBlockSize dealer % parts = c := by
    conv_lhs => rhs; rw [← length_range (n := n)]
    rw [length_filter_eq_length_iff]
    simp
  rw [hall]
  generalize effectiveBlockSize dealer = w at hpos
  constructor
  · intro h
    by_cases hn : n = 0
    · exact .inl hn
    have hzero : c = 0 := by
      have := h 0 (by omega)
      rw [Nat.zero_div, Nat.zero_mod] at this
      exact this.symm
    by_cases hwn : n ≤ w
    · exact .inr (.inr ⟨hzero, hwn⟩)
    · have hone := h w (by omega)
      rw [Nat.div_self hpos, hzero] at hone
      have : parts = 1 := Nat.dvd_one.1 (Nat.dvd_of_mod_eq_zero hone)
      exact .inr (.inl this)
  · rintro (rfl | rfl | ⟨rfl, hn⟩) i hi
    · omega
    · rw [Nat.mod_one]
      omega
    · rw [Nat.div_eq_of_lt (by omega), Nat.zero_mod]

end Counts

/-! ### The axes a symbol sizes -/

/-- What the descriptor reads of a binding: its arrays with their shape tokens, and its scalars,
each with whether its role is a size symbol. -/
structure ShapeBinding where
  pointers : List (String × Option (List String))
  scalars : List (String × Bool)
  deriving DecidableEq, Repr

/-- The size symbols. -/
def ShapeBinding.symbols (b : ShapeBinding) : List String := (b.scalars.filter (·.2)).map (·.1)

/-- `out.setdefault(tok, []).append(candidate)`. -/
def addCandidate (out : List (String × List (String × ℕ))) (tok : String)
    (candidate : String × ℕ) : List (String × List (String × ℕ)) :=
  setItem out tok ((out.lookup tok).getD [] ++ [candidate])

/-- The axes of one array, each under the symbol that sizes it. -/
def addArray (symbols : List String) (name : String)
    (out : List (String × List (String × ℕ))) (shape : List (String × ℕ)) :
    List (String × List (String × ℕ)) :=
  shape.foldl (fun out t => if t.1 ∈ symbols then addCandidate out t.1 (name, t.2) else out) out

/-- `symbol_axes_from_binding`. -/
def symbolAxesFromBinding (b : ShapeBinding) : List (String × List (String × ℕ)) :=
  b.pointers.foldl (fun out p => match p.2 with
    | none => out
    | some shape => addArray b.symbols p.1 out shape.zipIdx) []

/-- A symbol sizes an axis. -/
def ShapeBinding.Sizes (b : ShapeBinding) (sym arr : String) (axis : ℕ) : Prop :=
  sym ∈ b.symbols ∧ ∃ tokens, (arr, some tokens) ∈ b.pointers ∧ tokens[axis]? = some sym

/-- A table of candidates lists `sizes` exactly, no symbol twice and none without an axis. -/
structure Lists (out : List (String × List (String × ℕ)))
    (sizes : String → String × ℕ → Prop) : Prop where
  nodup : (out.map (·.1)).Nodup
  ne_nil : ∀ sym l, out.lookup sym = some l → l ≠ []
  mem_iff : ∀ sym c, (∃ l, out.lookup sym = some l ∧ c ∈ l) ↔ sizes sym c

theorem nodup_setItem {β : Type} {d : List (String × β)} (key : String) (value : β)
    (h : (d.map (·.1)).Nodup) : ((setItem d key value).map (·.1)).Nodup := by
  by_cases hkey : key ∈ d.map (·.1)
  · have hsome : (d.lookup key).isSome = true := by
      rw [Option.isSome_iff_ne_none, Ne, lookup_eq_none_iff]
      intro hall
      obtain ⟨p, hp, rfl⟩ := mem_map.1 hkey
      exact bne_iff_ne.1 (hall p hp) rfl
    have hkeys : (d.map fun p => if p.1 = key then (key, value) else p).map (·.1) =
        d.map (·.1) := by
      rw [map_map]
      refine map_congr_left fun p _ => ?_
      by_cases hp : p.1 = key <;> simp [hp]
    rw [setItem, if_pos hsome, hkeys]
    exact h
  · rw [setItem_of_notMem hkey, map_append, nodup_append]
    refine ⟨h, by simp, fun a ha b hb => ?_⟩
    obtain rfl : b = key := by simpa using hb
    exact fun hab => hkey (hab ▸ ha)

variable {out : List (String × List (String × ℕ))} {sizes : String → String × ℕ → Prop}

theorem Lists.addCandidate (h : Lists out sizes) (tok : String) (candidate : String × ℕ) :
    Lists (addCandidate out tok candidate)
      fun sym c => sizes sym c ∨ (sym = tok ∧ c = candidate) where
  nodup := nodup_setItem _ _ h.nodup
  ne_nil sym l hl := by
    rw [Mpi.addCandidate, lookup_setItem] at hl
    split at hl
    · cases hl
      simp
    · exact h.ne_nil sym l hl
  mem_iff sym c := by
    rw [Mpi.addCandidate, lookup_setItem, ← h.mem_iff]
    by_cases hsym : sym = tok
    · subst hsym
      cases hl : out.lookup sym <;> simp
    · simp [hsym]

theorem Lists.congr {sizes' : String → String × ℕ → Prop} (h : Lists out sizes)
    (hiff : ∀ sym c, sizes sym c ↔ sizes' sym c) : Lists out sizes' where
  nodup := h.nodup
  ne_nil := h.ne_nil
  mem_iff sym c := (h.mem_iff sym c).trans (hiff sym c)

theorem Lists.addArray {symbols : List String} {name : String} {shape : List (String × ℕ)}
    (h : Lists out sizes) :
    Lists (addArray symbols name out shape) fun sym c => sizes sym c ∨
      (sym ∈ symbols ∧ c.1 = name ∧ (sym, c.2) ∈ shape) := by
  induction shape generalizing out sizes with
  | nil => exact h.congr fun sym c => by simp
  | cons t shape ih =>
    rw [Mpi.addArray, foldl_cons]
    by_cases ht : t.1 ∈ symbols
    · rw [if_pos ht]
      refine (ih (h.addCandidate t.1 (name, t.2))).congr fun sym c => ?_
      obtain ⟨tok, k⟩ := t
      obtain ⟨arr, axis⟩ := c
      simp only [mem_cons, Prod.mk.injEq]
      constructor
      · rintro ((h | ⟨rfl, rfl, rfl⟩) | ⟨hs, hn, hm⟩)
        · exact .inl h
        · exact .inr ⟨ht, rfl, .inl ⟨rfl, rfl⟩⟩
        · exact .inr ⟨hs, hn, .inr hm⟩
      · rintro (h | ⟨hs, rfl, ⟨rfl, rfl⟩ | hm⟩)
        · exact .inl (.inl h)
        · exact .inl (.inr ⟨rfl, rfl, rfl⟩)
        · exact .inr ⟨hs, rfl, hm⟩
    · rw [if_neg ht]
      refine (ih h).congr fun sym c => ?_
      simp only [mem_cons]
      constructor
      · rintro (h | ⟨hs, hn, hm⟩)
        · exact .inl h
        · exact .inr ⟨hs, hn, .inr hm⟩
      · rintro (h | ⟨hs, hn, rfl | hm⟩)
        · exact .inl h
        · exact (ht hs).elim
        · exact .inr ⟨hs, hn, hm⟩

/-- The table a binding gives lists the axes its symbols size. -/
theorem lists_symbolAxesFromBinding (b : ShapeBinding) :
    Lists (symbolAxesFromBinding b) fun sym c => b.Sizes sym c.1 c.2 := by
  have hfold : ∀ (ps : List (String × Option (List String)))
      (out : List (String × List (String × ℕ))) (sizes : String → String × ℕ → Prop),
      Lists out sizes →
      Lists (ps.foldl (fun out p => match p.2 with
        | none => out
        | some shape => addArray b.symbols p.1 out shape.zipIdx) out)
        fun sym c => sizes sym c ∨ (sym ∈ b.symbols ∧
          ∃ tokens, (c.1, some tokens) ∈ ps ∧ tokens[c.2]? = some sym) := by
    intro ps
    induction ps with
    | nil =>
      intro out sizes h
      exact h.congr fun sym c => by simp
    | cons p ps ih =>
      intro out sizes h
      obtain ⟨name, shape⟩ := p
      rw [foldl_cons]
      cases shape with
      | none =>
        refine (ih _ _ h).congr fun sym c => ?_
        simp
      | some tokens =>
        refine (ih _ _ h.addArray).congr fun sym c => ?_
        obtain ⟨arr, axis⟩ := c
        simp only [mem_zipIdx_iff_getElem?, mem_cons, Prod.mk.injEq, Option.some.injEq]
        constructor
        · rintro ((h | ⟨hs, rfl, ht⟩) | ⟨hs, tokens', hm, ht⟩)
          · exact .inl h
          · exact .inr ⟨hs, tokens, .inl ⟨rfl, rfl⟩, ht⟩
          · exact .inr ⟨hs, tokens', .inr hm, ht⟩
        · rintro (h | ⟨hs, tokens', ⟨rfl, rfl⟩ | hm, ht⟩)
          · exact .inl (.inl h)
          · exact .inl (.inr ⟨hs, rfl, ht⟩)
          · exact .inr ⟨hs, tokens', hm, ht⟩
  have hnil : Lists [] fun _ _ => False := ⟨by simp, by simp, by simp⟩
  exact (hfold b.pointers [] _ hnil).congr fun sym c => by simp [ShapeBinding.Sizes]

/-! ### The scan of a symbol's axes -/

namespace Descriptor

variable {d : Descriptor}

/-- `local_symbols`. -/
def localSymbols (d : Descriptor) : List String :=
  (d.symbolAxes.filter fun e =>
    let split := e.2.filter fun c => (d.splitAxis c.1 c.2).isSome
    !split.isEmpty && split.length == e.2.length).map (·.1)

variable {sizes : String → String × ℕ → Prop} {sym : String} {seen : List (String × ℕ)}
variable {s s' : SymbolScan} {rank n g : ℕ} {arr : String} {axis : ℕ} {axdist : AxisDist}
variable {globals out out' : List (String × PyNum)} {entry : String × List (String × ℕ)} {v : PyNum}

theorem mem_localSymbols (h : Lists d.symbolAxes sizes) {l : List (String × ℕ)}
    (hl : d.symbolAxes.lookup sym = some l) :
    sym ∈ d.localSymbols ↔ ∀ c ∈ l, (d.splitAxis c.1 c.2).isSome = true := by
  have hentry : ∀ e ∈ d.symbolAxes, e.1 = sym → e.2 = l := by
    intro e he hsym
    have hd := (Dict.mem_items (d := ⟨d.symbolAxes, h.nodup⟩)).1 (show (e.1, e.2) ∈ _ from he)
    rw [hsym, Dict.get?, hl] at hd
    exact (Option.some.inj hd).symm
  have hmem : (sym, l) ∈ d.symbolAxes := (Dict.mem_items (d := ⟨d.symbolAxes, h.nodup⟩)).2 hl
  simp only [localSymbols, mem_map, mem_filter, Bool.and_eq_true, beq_iff_eq,
    length_filter_eq_length_iff, Bool.not_eq_true', isEmpty_eq_false_iff]
  constructor
  · rintro ⟨e, ⟨he, -, hall⟩, hsym⟩
    rw [hentry e he hsym] at hall
    exact hall
  · intro hall
    refine ⟨(sym, l), ⟨hmem, ?_, hall⟩, rfl⟩
    rw [filter_eq_self.2 hall]
    exact h.ne_nil sym l hl

theorem localSymbols_of_lookup_none (h : Lists d.symbolAxes sizes)
    (hl : d.symbolAxes.lookup sym = none) :
    sym ∉ d.localSymbols := by
  intro hmem
  obtain ⟨e, he, rfl⟩ := mem_map.1 hmem
  have hget := (Dict.mem_items (d := ⟨d.symbolAxes, h.nodup⟩)).1
    (show (e.1, e.2) ∈ _ from (mem_filter.1 he).1)
  rw [Dict.get?, hl] at hget
  cases hget

/-- A rank owns `n` indices of a split axis of the extent `value`. -/
def OwnsCount (d : Descriptor) (value : PyNum) (coords : List ℕ) (axdist : AxisDist) (n : ℕ) :
    Prop :=
  ∃ z owned, value.toInt = .ok z ∧ ownedIndices z.toNat axdist d.grid coords = .ok owned ∧
    owned.length = n

/-- What a scan knows after the axes `seen`. -/
structure Scanned (d : Descriptor) (value : PyNum) (coords : List ℕ)
    (seen : List (String × ℕ)) (s : SymbolScan) : Prop where
  replicated : s.sizesReplicatedAxis = false ↔ ∀ c ∈ seen, (d.splitAxis c.1 c.2).isSome = true
  scheme : ∀ c ∈ seen, ∀ g axdist, d.splitAxis c.1 c.2 = some (g, axdist) →
    (g, effectiveBlockSize axdist) ∈ s.schemes
  unsplit : s.localVal = none → ∀ c ∈ seen, d.splitAxis c.1 c.2 = none
  counted : ∀ n, s.localVal = some n → ∃ c ∈ seen, ∃ g axdist,
    d.splitAxis c.1 c.2 = some (g, axdist) ∧ d.OwnsCount value coords axdist n

variable {value : PyNum} {coords : List ℕ}

theorem Scanned.step {c : String × ℕ} (h : Scanned d value coords seen s)
    (hs : d.scanAxis value coords s c = .ok s') :
    Scanned d value coords (seen ++ [c]) s' := by
  have hall {p : String × ℕ → Prop} : (∀ x ∈ seen ++ [c], p x) ↔ (∀ x ∈ seen, p x) ∧ p c := by
    simp [or_imp, forall_and]
  unfold scanAxis at hs
  cases hc : d.splitAxis c.1 c.2 with
  | none =>
    rw [hc] at hs
    cases hs
    have hsome : (d.splitAxis c.1 c.2).isSome = false := by rw [hc]; rfl
    refine ⟨⟨fun h => (nomatch h), fun h => ?_⟩, ?_, fun hn => hall.2 ⟨h.unsplit hn, hc⟩,
      fun n hn => ?_⟩
    · have := h c (by simp)
      rw [hsome] at this
      cases this
    · refine hall.2 ⟨h.scheme, fun g axdist hg => ?_⟩
      rw [hc] at hg
      cases hg
    · obtain ⟨x, hx, hrest⟩ := h.counted n hn
      exact ⟨x, mem_append_left _ hx, hrest⟩
  | some p =>
    obtain ⟨g, axdist⟩ := p
    rw [hc] at hs
    have hscheme : ∀ x ∈ seen ++ [c], ∀ g' axdist', d.splitAxis x.1 x.2 = some (g', axdist') →
        (g', effectiveBlockSize axdist') ∈ s.schemes.insert (g, effectiveBlockSize axdist) := by
      refine hall.2 ⟨fun x hx g' a' hg => ?_, fun g' a' hg => ?_⟩
      · exact mem_insert_of_mem (h.scheme x hx g' a' hg)
      · rw [hc] at hg
        cases hg
        exact mem_insert_self
    have hrep : s.sizesReplicatedAxis = false ↔
        ∀ x ∈ seen ++ [c], (d.splitAxis x.1 x.2).isSome = true := by
      rw [h.replicated, hall]
      simp [hc]
    cases hv : s.localVal with
    | some n =>
      simp only [hv] at hs
      cases hs
      refine ⟨hrep, hscheme, fun hn => (nomatch hn), fun m hm => ?_⟩
      · obtain ⟨x, hx, hrest⟩ := h.counted m (hv.trans hm)
        exact ⟨x, mem_append_left _ hx, hrest⟩
    | none =>
      simp only [hv] at hs
      obtain ⟨z, hz, hs⟩ := bind_eq_ok.1 hs
      obtain ⟨owned, howned, hs⟩ := bind_eq_ok.1 hs
      cases hs
      refine ⟨hrep, hscheme, fun hn => (nomatch hn), fun m hm => ?_⟩
      · cases hm
        exact ⟨c, by simp, g, axdist, hc, z, owned, hz, howned, rfl⟩

theorem scanned_of_foldlM {cands : List (String × ℕ)} (h : Scanned d value coords seen s)
    (hs : cands.foldlM (d.scanAxis value coords) s = .ok s') :
    Scanned d value coords (seen ++ cands) s' := by
  induction cands generalizing seen s with
  | nil =>
    cases hs
    rwa [append_nil]
  | cons c cands ih =>
    rw [foldlM_cons] at hs
    obtain ⟨s₁, hs₁, hs⟩ := bind_eq_ok.1 hs
    have := ih (h.step hs₁) hs
    rwa [append_assoc] at this

theorem scanned_nil : Scanned d value coords [] {} :=
  ⟨by simp, by simp, by simp, by simp⟩

/-- Axes split the same way have one count. -/
theorem OwnsCount.congr {a a' : AxisDist} (h : d.OwnsCount value (d.grid.coordsOf rank) a n)
    (hg : a.gridDim = some g) (hg' : a'.gridDim = some g)
    (hw : effectiveBlockSize a = effectiveBlockSize a') :
    d.OwnsCount value (d.grid.coordsOf rank) a' n := by
  obtain ⟨z, owned, hz, howned, hn⟩ := h
  simp only [ownedIndices, hg, bind_eq_ok, item_eq_ok, pure, Except.pure,
    Except.ok.injEq] at howned
  obtain ⟨parts, hp, c, hc, rfl⟩ := howned
  have hlt : c < parts := by
    obtain ⟨hc', rfl⟩ := List.getElem?_eq_some_iff.1 hc
    obtain ⟨hp', rfl⟩ := List.getElem?_eq_some_iff.1 hp
    exact (d.grid.coords_lt rank).get hc' hp'
  refine ⟨z, _, hz, ownedIndices_split hg' hp hc _, ?_⟩
  rw [← hn]
  exact (length_dealt_congr hw hlt).symm

theorem gridDim_of_splitAxis (h : d.splitAxis arr axis = some (g, axdist)) :
    axdist.gridDim = some g ∧ ∃ ad, d.arrays.lookup arr = some ad ∧ ad.replicated = false ∧
      ad.axes[axis]? = some axdist := by
  unfold splitAxis at h
  obtain ⟨ad, had, h⟩ := Option.bind_eq_some_iff.1 h
  cases hrep : ad.replicated with
  | true => simp [hrep] at h
  | false =>
    simp only [hrep, Bool.false_eq_true, if_false] at h
    obtain ⟨axdist', hax, h⟩ := Option.bind_eq_some_iff.1 h
    obtain ⟨g', hg', h⟩ := Option.bind_eq_some_iff.1 h
    cases h
    exact ⟨hg', ad, had, hrep, hax⟩

/-- One symbol: kept, or replaced by the count of each of its axes. -/
theorem localizeSymbol_cases
    (h : d.localizeSymbol globals (d.grid.coordsOf rank) out entry = .ok out') (hne : entry.2 ≠ [])
    (hv : globals.lookup entry.1 = some v) :
    (¬ (∀ c ∈ entry.2, (d.splitAxis c.1 c.2).isSome = true) ∧ out' = out) ∨
      (∀ c ∈ entry.2, (d.splitAxis c.1 c.2).isSome = true) ∧
        ∃ n : ℕ, out' = setItem out entry.1 (.int n) ∧
          ∀ c ∈ entry.2, ∀ g axdist, d.splitAxis c.1 c.2 = some (g, axdist) →
            d.OwnsCount v (d.grid.coordsOf rank) axdist n := by
  simp only [localizeSymbol, hv] at h
  obtain ⟨scan, hscan, h⟩ := bind_eq_ok.1 h
  have hs := scanned_of_foldlM scanned_nil hscan
  rw [nil_append] at hs
  by_cases hlen : 1 < scan.schemes.length
  · simp [hlen, throw, throwThe, MonadExceptOf.throw, bind, Except.bind] at h
  simp only [hlen, if_false] at h
  cases hrep : scan.sizesReplicatedAxis with
  | true =>
    left
    refine ⟨fun hall => ?_, ?_⟩
    · rw [hs.replicated.2 hall] at hrep
      cases hrep
    · cases hv' : scan.localVal <;> simp only [hrep, hv'] at h <;> cases h <;> rfl
  | false =>
    right
    have hall := hs.replicated.1 hrep
    refine ⟨hall, ?_⟩
    cases hv' : scan.localVal with
    | none =>
      obtain ⟨c, hc⟩ := exists_mem_of_ne_nil _ hne
      have := hall c hc
      rw [hs.unsplit hv' c hc] at this
      cases this
    | some n =>
      simp only [hrep, hv'] at h
      cases h
      refine ⟨n, rfl, fun c hc g axdist hg => ?_⟩
      obtain ⟨c₀, hc₀, g₀, a₀, hg₀, hcount⟩ := hs.counted n hv'
      -- at most one scheme was seen, so the two axes are split the same way
      have hmem := hs.scheme c hc g axdist hg
      have hmem₀ := hs.scheme c₀ hc₀ g₀ a₀ hg₀
      have hsame : (g₀, effectiveBlockSize a₀) = (g, effectiveBlockSize axdist) := by
        match hsch : scan.schemes, hmem, hmem₀ with
        | [x], hmem, hmem₀ =>
          rw [mem_singleton] at hmem hmem₀
          rw [hmem, hmem₀]
        | x :: y :: l, _, _ =>
          rw [hsch] at hlen
          simp at hlen
      obtain ⟨rfl, hw⟩ := Prod.mk.injEq .. ▸ hsame
      exact hcount.congr (gridDim_of_splitAxis hg₀).1 (gridDim_of_splitAxis hg).1 hw

/-- The value a rank receives for a size symbol of the global value `v` that sizes the axes `l`. -/
def ValueOf (d : Descriptor) (v : PyNum) (rank : ℕ) (l : List (String × ℕ)) (x : Option PyNum) :
    Prop :=
  (¬ (∀ c ∈ l, (d.splitAxis c.1 c.2).isSome = true) ∧ x = some v) ∨
    (∀ c ∈ l, (d.splitAxis c.1 c.2).isSome = true) ∧ ∃ n : ℕ, x = some (.int n) ∧
      ∀ c ∈ l, ∀ g axdist, d.splitAxis c.1 c.2 = some (g, axdist) →
        d.OwnsCount v (d.grid.coordsOf rank) axdist n

theorem localizeSymbol_other {coords : List ℕ}
    (h : d.localizeSymbol globals coords out entry = .ok out')
    (hne : sym ≠ entry.1 ∨ globals.lookup entry.1 = none) : out'.lookup sym = out.lookup sym := by
  unfold localizeSymbol at h
  cases hv : globals.lookup entry.1 with
  | none =>
    rw [hv] at h
    cases h
    rfl
  | some v =>
    simp only [hv] at h
    obtain ⟨scan, -, h⟩ := bind_eq_ok.1 h
    by_cases hlen : 1 < scan.schemes.length
    · simp [hlen, throw, throwThe, MonadExceptOf.throw, bind, Except.bind] at h
    simp only [hlen, if_false] at h
    have hsym : sym ≠ entry.1 := by
      rcases hne with hne | hne
      · exact hne
      · rw [hv] at hne
        cases hne
    cases hrep : scan.sizesReplicatedAxis <;> cases hval : scan.localVal <;>
      simp only [hrep, hval] at h <;> cases h
    · rfl
    · rw [lookup_setItem, if_neg hsym]
    · rfl
    · rfl

/-- The loop over the symbols: each one once, the others untouched. -/
theorem localize_run {entries : List (String × List (String × ℕ))}
    (hnodup : (entries.map (·.1)).Nodup) (hne : ∀ e ∈ entries, e.2 ≠ [])
    (hout : ∀ e ∈ entries, out.lookup e.1 = globals.lookup e.1)
    (h : entries.foldlM (d.localizeSymbol globals (d.grid.coordsOf rank)) out = .ok out') :
    (∀ sym, sym ∉ entries.map (·.1) → out'.lookup sym = out.lookup sym) ∧
      ∀ e ∈ entries, (globals.lookup e.1 = none → out'.lookup e.1 = none) ∧
        ∀ v, globals.lookup e.1 = some v → d.ValueOf v rank e.2 (out'.lookup e.1) := by
  induction entries generalizing out with
  | nil =>
    cases h
    exact ⟨fun _ _ => rfl, by simp⟩
  | cons entry entries ih =>
    rw [foldlM_cons] at h
    obtain ⟨mid, hmid, h⟩ := bind_eq_ok.1 h
    rw [map_cons, nodup_cons] at hnodup
    have hmid_out : ∀ e ∈ entries, mid.lookup e.1 = globals.lookup e.1 := by
      intro e he
      have hdiff : e.1 ≠ entry.1 := fun heq => hnodup.1 (heq ▸ mem_map_of_mem he)
      rw [localizeSymbol_other hmid (.inl hdiff)]
      exact hout e (mem_cons_of_mem _ he)
    obtain ⟨hother, hvalues⟩ := ih hnodup.2 (fun e he => hne e (mem_cons_of_mem _ he))
      hmid_out h
    refine ⟨fun sym hsym => ?_, fun e he => ?_⟩
    · rw [map_cons, mem_cons, not_or] at hsym
      rw [hother sym hsym.2, localizeSymbol_other hmid (.inl hsym.1)]
    · rcases mem_cons.1 he with rfl | he
      · rw [hother e.1 hnodup.1]
        have hin := hout e mem_cons_self
        refine ⟨fun hv => ?_, fun v hv => ?_⟩
        · rw [localizeSymbol_other hmid (.inr hv), hin, hv]
        · rcases localizeSymbol_cases hmid (hne e mem_cons_self) hv with
            ⟨hnot, rfl⟩ | ⟨hall, n, rfl, hcount⟩
          · exact .inl ⟨hnot, hin.trans hv⟩
          · exact .inr ⟨hall, n, by rw [lookup_setItem, if_pos rfl], hcount⟩
      · exact hvalues e he

/-- **Which symbols are replaced.**  A rank receives the global value of every scalar but the local
symbols, and for each of those a number of indices it owns on every axis the symbol sizes. -/
theorem localSizeScalars_run (hl : Lists d.symbolAxes sizes)
    (h : d.localSizeScalars globals rank = .ok out) (sym : String) :
    (sym ∉ d.localSymbols ∨ globals.lookup sym = none → out.lookup sym = globals.lookup sym) ∧
      ∀ v, sym ∈ d.localSymbols → globals.lookup sym = some v →
        ∃ n : ℕ, out.lookup sym = some (.int n) ∧
          ∀ c, sizes sym c → ∃ g axdist, d.splitAxis c.1 c.2 = some (g, axdist) ∧
            d.OwnsCount v (d.grid.coordsOf rank) axdist n := by
  have hitems {sym : String} {l : List (String × ℕ)} :
      (sym, l) ∈ d.symbolAxes ↔ d.symbolAxes.lookup sym = some l :=
    Dict.mem_items (d := ⟨d.symbolAxes, hl.nodup⟩)
  obtain ⟨hother, hvalues⟩ := localize_run hl.nodup
    (fun e he => hl.ne_nil e.1 e.2 (hitems.1 he)) (fun _ _ => rfl) h
  cases hsym : d.symbolAxes.lookup sym with
  | none =>
    have hnot := localSymbols_of_lookup_none hl hsym
    have hkey : sym ∉ d.symbolAxes.map (·.1) := by
      intro hmem
      obtain ⟨e, he, rfl⟩ := mem_map.1 hmem
      rw [hitems.1 (show (e.1, e.2) ∈ _ from he)] at hsym
      cases hsym
    exact ⟨fun _ => hother sym hkey, fun v hmem => (hnot hmem).elim⟩
  | some l =>
    obtain ⟨hnone, hsome⟩ := hvalues (sym, l) (hitems.2 hsym)
    have hlocal := mem_localSymbols hl hsym
    refine ⟨fun hor => ?_, fun v hmem hv => ?_⟩
    · cases hv : globals.lookup sym with
      | none => exact hnone hv
      | some v =>
        have hnot : sym ∉ d.localSymbols := by
          rcases hor with hor | hor
          · exact hor
          · rw [hv] at hor
            cases hor
        rcases hsome v hv with ⟨-, hx⟩ | ⟨hall, -⟩
        · exact hx
        · exact (hnot (hlocal.2 hall)).elim
    · rcases hsome v hv with ⟨hnot, -⟩ | ⟨hall, n, hx, hcount⟩
      · exact (hnot (hlocal.1 hmem)).elim
      · refine ⟨n, hx, fun c hc => ?_⟩
        obtain ⟨l', hl', hc⟩ := (hl.mem_iff sym c).2 hc
        rw [hsym] at hl'
        cases hl'
        obtain ⟨p, hp⟩ := Option.isSome_iff_exists.1 (hall c hc)
        exact ⟨p.1, p.2, hp, hcount c hc p.1 p.2 hp⟩

/-! ### Local values and tiles -/

/-- The global shapes agree with the scalars. -/
def SizedBy (b : ShapeBinding) (globals : List (String × PyNum)) (shapes : String → List ℕ) :
    Prop :=
  ∀ sym arr axis, b.Sizes sym arr axis → ∀ v, globals.lookup sym = some v →
    ∃ n : ℕ, (shapes arr)[axis]? = some n ∧ v.toInt = .ok n

/-- The scalars a rank receives: the local symbols, and no others, are replaced, each by the extent
its axes have in the rank's tiles. -/
def LocalExtents (d : Descriptor) (b : ShapeBinding) (globals : List (String × PyNum))
    (shapes : String → List ℕ) (rank : ℕ) (out : List (String × PyNum)) : Prop :=
  (∀ sym, sym ∉ d.localSymbols ∨ globals.lookup sym = none →
    out.lookup sym = globals.lookup sym) ∧
  ∀ sym v, sym ∈ d.localSymbols → globals.lookup sym = some v →
    ∃ n : ℕ, out.lookup sym = some (.int n) ∧
      ∀ arr axis, b.Sizes sym arr axis → ∀ tile, d.localShape arr (shapes arr) rank = .ok tile →
        tile[axis]? = some n

/-- A rank's coordinate owns the whole of each axis, sized by a local symbol, of an array of at
most one element. -/
def SmallArraysWhole (d : Descriptor) (b : ShapeBinding) (globals : List (String × PyNum))
    (shapes : String → List ℕ) (rank : ℕ) : Prop :=
  ∀ sym v, sym ∈ d.localSymbols → globals.lookup sym = some v →
    ∀ arr axis, b.Sizes sym arr axis → (shapes arr).prod ≤ 1 →
      ∀ n g axdist parts c, (shapes arr)[axis]? = some n →
        d.splitAxis arr axis = some (g, axdist) → d.grid.dims[g]? = some parts →
        (d.grid.coordsOf rank)[g]? = some c → WholeShare n parts c (effectiveBlockSize axdist)

/-- The extent of a split axis of a tile of more than one element. -/
theorem localShape_split {arr : String} {shape tile : List ℕ} {rank axis n g : ℕ}
    {axdist : AxisDist} (hbig : 1 < shape.prod) (hn : shape[axis]? = some n)
    (hsplit : d.splitAxis arr axis = some (g, axdist))
    (h : d.localShape arr shape rank = .ok tile) :
    ∃ owned, ownedIndices n axdist d.grid (d.grid.coordsOf rank) = .ok owned ∧
      tile[axis]? = some owned.length := by
  obtain ⟨-, ad, had, hrep, hax⟩ := gridDim_of_splitAxis hsplit
  obtain ⟨dist, hdist, htile⟩ := bind_eq_ok.1 h
  rw [distFor, if_neg (by omega), getItem_eq_ok, had] at hdist
  cases hdist
  rw [Mpi.localShape, if_neg (by simp [hrep])] at htile
  obtain ⟨lists, hlists, htile⟩ := bind_eq_ok.1 htile
  cases htile
  obtain ⟨-, hall⟩ := axisIndexLists_eq_ok.1 hlists
  have hzip : (shape.zip ad.axes)[axis]? = some (n, axdist) := by
    rw [getElem?_zip_eq_some]
    exact ⟨hn, hax⟩
  obtain ⟨hi, hget⟩ := List.getElem?_eq_some_iff.1 hzip
  have hi' : axis < lists.length := hall.length_eq ▸ hi
  have howned := hall.get hi hi'
  simp only [get_eq_getElem, hget] at howned
  exact ⟨lists[axis], howned, by rw [getElem?_map, getElem?_eq_getElem hi']; rfl⟩

/-- What a count of owned indices is. -/
theorem OwnsCount.length_dealt {m : ℕ} (h : d.OwnsCount v (d.grid.coordsOf rank) axdist n)
    (hm : v.toInt = .ok m) (hg : axdist.gridDim = some g) :
    ∃ parts c, d.grid.dims[g]? = some parts ∧
      (d.grid.coordsOf rank)[g]? = some c ∧ c < parts ∧ (dealt m parts c axdist).length = n := by
  obtain ⟨z, owned, hz, howned, hn⟩ := h
  rw [hm] at hz
  cases hz
  simp only [ownedIndices, hg, bind_eq_ok, item_eq_ok, pure, Except.pure,
    Except.ok.injEq] at howned
  obtain ⟨parts, hp, c, hc, rfl⟩ := howned
  refine ⟨parts, c, hp, hc, ?_, hn⟩
  obtain ⟨hc', rfl⟩ := List.getElem?_eq_some_iff.1 hc
  obtain ⟨hp', rfl⟩ := List.getElem?_eq_some_iff.1 hp
  exact (d.grid.coords_lt rank).get hc' hp'

/-- **Local values are tile extents, except on small arrays.**  For every descriptor whose size
symbols come from its binding, and every rank: the scalars `localSizeScalars` returns replace
exactly the local symbols, each by the extent of all the axes it sizes in the rank's tiles, if and
only if the rank owns the whole of those axes in the arrays of at most one element, which are
replicated where the tiles are cut. -/
theorem localSizeScalars_extents_iff {b : ShapeBinding}
    (hd : d.symbolAxes = symbolAxesFromBinding b) {globals : List (String × PyNum)}
    {shapes : String → List ℕ} (hshapes : SizedBy b globals shapes) {rank : ℕ}
    {out : List (String × PyNum)} (h : d.localSizeScalars globals rank = .ok out) :
    d.LocalExtents b globals shapes rank out ↔ d.SmallArraysWhole b globals shapes rank := by
  have hl : Lists d.symbolAxes fun sym c => b.Sizes sym c.1 c.2 :=
    hd ▸ lists_symbolAxesFromBinding b
  have hrun := localSizeScalars_run hl h
  constructor
  · rintro ⟨-, hext⟩ sym v hmem hv arr axis hsizes hsmall n g axdist parts c hn hsplit hparts hc
    obtain ⟨k, hk, htiles⟩ := hext sym v hmem hv
    obtain ⟨k', hk', hcount⟩ := (hrun sym).2 v hmem hv
    rw [hk] at hk'
    obtain rfl : k = k' := by simpa using hk'
    obtain ⟨g', axdist', hsplit', hcount⟩ := hcount (arr, axis) hsizes
    rw [hsplit] at hsplit'
    cases hsplit'
    obtain ⟨m, hm, hint⟩ := hshapes sym arr axis hsizes v hv
    rw [hn] at hm
    cases hm
    obtain ⟨parts', c', hparts', hc', hlt, hlen⟩ :=
      hcount.length_dealt hint (gridDim_of_splitAxis hsplit).1
    rw [hparts] at hparts'
    rw [hc] at hc'
    cases hparts'
    cases hc'
    -- the array is replicated: its tile is the whole of it
    have htile : d.localShape arr (shapes arr) rank = .ok (shapes arr) := by
      simp [localShape, distFor, hsmall, Mpi.localShape, bind, Except.bind]
    have hnk := htiles arr axis hsizes _ htile
    rw [hn] at hnk
    cases hnk
    exact (length_dealt_eq_iff hlt).1 hlen
  · intro hwhole
    refine ⟨fun sym => (hrun sym).1, fun sym v hmem hv => ?_⟩
    obtain ⟨k, hk, hcounts⟩ := (hrun sym).2 v hmem hv
    refine ⟨k, hk, fun arr axis hsizes tile htile => ?_⟩
    obtain ⟨g, axdist, hsplit, hcount⟩ := hcounts (arr, axis) hsizes
    obtain ⟨n, hn, hint⟩ := hshapes sym arr axis hsizes v hv
    obtain ⟨parts, c, hparts, hc, hlt, hlen⟩ :=
      hcount.length_dealt hint (gridDim_of_splitAxis hsplit).1
    by_cases hsmall : (shapes arr).prod ≤ 1
    · have hfull := hwhole sym v hmem hv arr axis hsizes hsmall n g axdist parts c hn hsplit
        hparts hc
      rw [(length_dealt_eq_iff hlt).2 hfull] at hlen
      simp only [localShape, distFor, hsmall, if_true, Mpi.localShape, bind, Except.bind,
        Except.ok.injEq] at htile
      rw [← htile, hn, hlen]
    · obtain ⟨owned, howned, htile⟩ := localShape_split (by omega) hn hsplit htile
      rw [ownedIndices_split (gridDim_of_splitAxis hsplit).1 hparts hc] at howned
      cases howned
      rw [htile, hlen]

/-! ### One element over two ranks -/

/-- One array of the length `N`. -/
def lineBinding : ShapeBinding := ⟨[("y", some ["N"])], [("N", true)]⟩

/-- Its blocks over two ranks. -/
def lineDescriptor : Descriptor where
  grid := Grid.line 2 (by decide)
  arrays := [("y", splitAlong 1 0 (Mpi.splitAxis .block 1))]
  symbolAxes := symbolAxesFromBinding lineBinding

theorem sizedBy_line (n : ℕ) : SizedBy lineBinding [("N", .int n)] fun _ => [n] := by
  rintro sym arr axis ⟨hsym, tokens, hmem, htok⟩ v hv
  simp only [lineBinding, mem_singleton, Prod.mk.injEq, Option.some.injEq] at hmem
  obtain ⟨rfl, rfl⟩ := hmem
  obtain ⟨hlt, rfl⟩ := List.getElem?_eq_some_iff.1 htok
  obtain rfl : axis = 0 := by simpa using hlt
  obtain rfl : PyNum.int n = v := by simpa using hv
  exact ⟨n, rfl, rfl⟩

theorem localSizeScalars_extents_line :
    lineDescriptor.LocalExtents lineBinding [("N", .int 5)] (fun _ => [5]) 1
      [("N", .int 2)] := by
  refine (localSizeScalars_extents_iff (d := lineDescriptor) rfl (sizedBy_line 5)
    (show lineDescriptor.localSizeScalars [("N", .int 5)] 1 = .ok [("N", .int 2)] by
      decide)).2 ?_
  intro sym v _ _ arr axis _ hsmall
  simp at hsmall

/-- One element over two ranks: the second rank is told it has none, and its tile is the whole
array. -/
theorem localSizeScalars_single_element :
    fromPlan id ⟨Grid.line 2 (by decide), [("y", splitAlong 1 0 (Mpi.splitAxis .block 1))]⟩
        [("y", some 1)] ["N"] 2 (symbolAxesFromBinding lineBinding) = .ok lineDescriptor ∧
      lineDescriptor.localSizeScalars [("N", .int 1)] 1 = .ok [("N", .int 0)] ∧
      lineDescriptor.localShape "y" [1] 1 = .ok [1] ∧
      ¬ lineDescriptor.LocalExtents lineBinding [("N", .int 1)] (fun _ => [1]) 1
        [("N", .int 0)] := by
  refine ⟨by decide, by decide, by decide, fun h => ?_⟩
  obtain ⟨n, hn, htiles⟩ := h.2 "N" (.int 1) (by decide) rfl
  have hsizes : lineBinding.Sizes "N" "y" 0 := ⟨by decide, ["N"], by decide, rfl⟩
  have htile := htiles "y" 0 hsizes [1] (by decide)
  cases htile
  revert hn
  decide

end Descriptor

end Mpi

end HpcAgentBench
