import HpcAgentBench.Lib.NdArray
import HpcAgentBench.Translate.Simulation
import Mathlib.Data.List.Nodup

/-!
# Loop nests

A nest of loops `for i in range(n)` runs its body at every index of a box, the last running
fastest (`box`).  What the body adds to at each index holds of the whole box in the end
(`nest_sound`).
-/

namespace HpcAgentBench

open List Option

namespace Translate

/-- The indices of a shape, the last running fastest. -/
def box (shape : List ℕ) : List (List ℕ) := multiIndices (shape.map List.range)

/-- Loops around a body, the outermost first: each a variable and its bound. -/
def wrapForLoops (loops : List (String × Expr)) (body : Block) : Block :=
  loops.foldr (fun p out => .forRange p.1 (.pair p.2 .unit) out .done) body

theorem box_cons (n : ℕ) (shape : List ℕ) :
    box (n :: shape) = (List.range n).flatMap fun i => (box shape).map (i :: ·) := rfl

variable {shape ix : List ℕ} {iters : List String}

theorem mem_box : ix ∈ box shape ↔ Forall₂ (· < ·) ix shape := by
  rw [box, mem_multiIndices, forall₂_map_right_iff]
  simp only [mem_range]

theorem length_of_mem_box (h : ix ∈ box shape) : ix.length = shape.length :=
  (mem_box.1 h).length_eq

theorem nodup_box (shape : List ℕ) : (box shape).Nodup := by
  induction shape with
  | nil => exact nodup_singleton []
  | cons n shape ih =>
    rw [box_cons, nodup_flatMap]
    refine ⟨fun i _ => ih.map fun a b h => (cons.inj h).2, ?_⟩
    refine nodup_range.imp fun {i j} hij => disjoint_left.2 ?_
    intro ix hi hj
    obtain ⟨a, -, rfl⟩ := mem_map.1 hi
    obtain ⟨b, -, hb⟩ := mem_map.1 hj
    exact hij (cons.inj hb).1.symm

theorem notMem_of_box {done later : List (List ℕ)} (h : box shape = done ++ ix :: later) :
    ix ∉ done := by
  have hnodup := nodup_box shape
  rw [h, nodup_append] at hnodup
  exact fun hmem => hnodup.2.2 ix hmem ix mem_cons_self rfl

theorem rangeList_zero (n : ℕ) : rangeList 0 n 1 = (List.range n).map (fun k : ℕ => (k : ℤ)) := by
  simp [rangeList]

theorem exists_token {tokens : List String} {bound : String → Expr} {dim : String → ℕ}
    {q : (String × Expr) × ℕ} (h : q ∈ (iters.zip (tokens.map bound)).zip (tokens.map dim)) :
    ∃ tok ∈ tokens, q.1.2 = bound tok ∧ q.2 = dim tok := by
  induction tokens generalizing iters with
  | nil => simp at h
  | cons tok tokens ih =>
    obtain _ | ⟨x, iters⟩ := iters
    · simp at h
    rcases mem_cons.1 h with rfl | h
    · exact ⟨tok, mem_cons_self, rfl, rfl⟩
    · obtain ⟨t, ht, hq⟩ := ih h
      exact ⟨t, mem_cons_of_mem _ ht, hq⟩

theorem exists_loop {bounds : List Expr} (hlength : iters.length = bounds.length) {q : String × ℕ}
    (h : q ∈ iters.zip ix) :
    ∃ bound, ((q.1, bound), q.2) ∈ (iters.zip bounds).zip ix := by
  induction iters generalizing bounds ix with
  | nil => simp at h
  | cons x iters ih =>
    obtain _ | ⟨b, bounds⟩ := bounds
    · cases hlength
    obtain _ | ⟨i, ix⟩ := ix
    · simp at h
    rcases mem_cons.1 h with rfl | h
    · exact ⟨b, mem_cons_self⟩
    · obtain ⟨bound, hbound⟩ := ih (Nat.succ.inj hlength) h
      exact ⟨bound, mem_cons_of_mem _ hbound⟩

theorem toString_injective {i j : ℕ} (h : toString i = toString j) : i = j := by
  have hdigits : Nat.toDigits 10 i = Nat.toDigits 10 j := by
    rw [Nat.toString_eq_ofList_toDigits, Nat.toString_eq_ofList_toDigits] at h
    exact String.ofList_injective h
  rw [← Nat.ofDigitChars_ten_toDigits (n := i), hdigits, Nat.ofDigitChars_ten_toDigits]

theorem digits_of_toString {k : ℕ} : ∀ c ∈ (toString k).toList, c.isDigit = true := by
  intro c hc
  rw [Nat.toString_eq_ofList_toDigits, String.toList_ofList] at hc
  exact Nat.isDigit_of_mem_toDigits (by decide) (by decide) hc

/-- A numbered name is no name with the same front and another letter than a digit after it. -/
theorem numbered_ne (front tail : String) (c : Char) (k : ℕ) (hmem : c ∈ tail.toList)
    (hc : c.isDigit = false) : front ++ toString k ≠ front ++ tail := by
  intro h
  have htail := (String.append_right_inj _).1 h
  rw [digits_of_toString c (htail ▸ hmem)] at hc
  cases hc

variable {V : Type} {I : Interp V}
variable {σ : State V}

theorem rangeValues_single {b : Expr} {v : V} {n : ℕ} (hv : value I σ b = some v)
    (hn : I.int v = some (n : ℤ)) :
    rangeValues I σ (.pair b .unit) = some ((List.range n).map fun k : ℕ => (k : ℤ)) := by
  rw [rangeValues, tuple_pair, hv, bind_some, tuple_unit, map_some, bind_some,
    mapM_cons, hn]
  exact congrArg some (rangeList_zero n)

/-- A `for` that never breaks, one iteration after another. -/
theorem forSteps_total {f : ℤ → State V → Option (State V × Flow)} {vals : List ℕ}
    {Q : List ℕ → State V → Prop}
    (hstep : ∀ (done : List ℕ) (i : ℕ) (later : List ℕ) (σ : State V), vals = done ++ i :: later →
      Q done σ → ∃ σ', f i σ = some (σ', .next) ∧ Q (done ++ [i]) σ') (hQ : Q [] σ) :
    ∃ σ', forSteps f (vals.map fun k : ℕ => (k : ℤ)) σ = some σ' ∧ Q vals σ' := by
  suffices h : ∀ (later done : List ℕ) (σ : State V), vals = done ++ later → Q done σ →
      ∃ σ', forSteps f (later.map fun k : ℕ => (k : ℤ)) σ = some σ' ∧ Q vals σ' from
    h vals [] σ rfl hQ
  intro later
  induction later with
  | nil =>
    intro done σ hvals hQ
    exact ⟨σ, rfl, by rwa [hvals, append_nil]⟩
  | cons i later ih =>
    intro done σ hvals hQ
    obtain ⟨υ, hυ, hQυ⟩ := hstep done i later σ hvals hQ
    obtain ⟨σ', hσ', hend⟩ := ih (done ++ [i]) υ (by rw [hvals, append_assoc]; rfl) hQυ
    exact ⟨σ', by rw [map_cons, forSteps, hυ, bind_some, hσ'], hend⟩

/-- **A loop nest visits its box**: what holds of the indices visited, step after step of the body,
holds of the whole box in the end. -/
theorem nest_sound (shape : List ℕ) (loops : List (String × Expr)) (fuel : ℕ) {body : Block}
    {P : List (List ℕ) → State V → Prop} (hlength : loops.length = shape.length)
    (hnodup : (loops.map Prod.fst).Nodup)
    (hset : ∀ done σ, P done σ → ∀ x ∈ loops.map Prod.fst, ∀ v,
      σ.arrays x = none ∧ P done (σ.setScalar x v))
    (hbound : ∀ done σ, P done σ → ∀ q ∈ loops.zip shape,
      rangeValues I σ (.pair q.1.2 .unit) = some ((List.range q.2).map fun k : ℕ => (k : ℤ)))
    (hbody : ∀ (done : List (List ℕ)) (ix : List ℕ) (later : List (List ℕ)) (σ : State V),
      box shape = done ++ ix :: later → P done σ →
      (∀ q ∈ loops.zip ix, σ.scalars q.1.1 = some (I.ofInt (q.2 : ℕ))) →
      ∃ σ', exec I fuel body σ = some (σ', .next) ∧ P (done ++ [ix]) σ' ∧
      ∀ x ∈ loops.map Prod.fst, σ'.scalars x = σ.scalars x) (hσ : P [] σ) :
    ∃ σ', exec I fuel (wrapForLoops loops body) σ = some (σ', .next) ∧ P (box shape) σ' := by
  induction loops generalizing shape P σ with
  | nil =>
    obtain rfl := length_eq_zero_iff.1 hlength.symm
    obtain ⟨σ', hσ', hend, -⟩ := hbody [] [] [] σ rfl hσ (by simp)
    exact ⟨σ', hσ', hend⟩
  | cons loop loops ih =>
    obtain ⟨x, bound⟩ := loop
    obtain _ | ⟨n, shape⟩ := shape
    · cases hlength
    rw [map_cons, nodup_cons] at hnodup
    have hrange := hbound [] σ hσ ((x, bound), n) mem_cons_self
    -- The outer loop: after its values `done`, the rows of `done` are visited.
    let rows (done : List ℕ) : List (List ℕ) := done.flatMap fun i => (box shape).map (i :: ·)
    have hstep : ∀ (done : List ℕ) (i : ℕ) (later : List ℕ) (σ : State V),
        List.range n = done ++ i :: later → P (rows done) σ →
        ∃ σ', (σ.set x (I.ofInt i)).bind (exec I fuel (wrapForLoops loops body)) =
          some (σ', .next) ∧ P (rows (done ++ [i])) σ' := by
      intro done i later σ hdone hP
      obtain ⟨harray, hPset⟩ := hset _ σ hP x mem_cons_self (I.ofInt i)
      have hbox : box (n :: shape) = rows done ++ (box shape).map (i :: ·) ++ rows later := by
        simp only [rows, box_cons, hdone, flatMap_append, flatMap_cons, append_assoc]
      obtain ⟨σ', hσ', hend, -⟩ := ih shape
        (P := fun inner σ => P (rows done ++ inner.map (i :: ·)) σ ∧
          σ.scalars x = some (I.ofInt i))
        (Nat.succ.inj hlength) hnodup.2
        (fun inner σ hPσ y hy v => by
          have hyx : x ≠ y := fun h => hnodup.1 (h ▸ hy)
          obtain ⟨hnone, hkeep⟩ := hset _ σ hPσ.1 y (mem_cons_of_mem _ hy) v
          exact ⟨hnone, hkeep, by rw [State.setScalar_of_ne hyx, hPσ.2]⟩)
        (fun inner σ hPσ q hq => hbound _ σ hPσ.1 q (mem_cons_of_mem _ hq))
        (fun inner ix rest σ hinner hPσ hix => by
          obtain ⟨σ', hσ', hP', hkeep⟩ := hbody (rows done ++ inner.map (i :: ·)) (i :: ix)
            (rest.map (i :: ·) ++ rows later) σ
            (by rw [hbox, hinner]; simp) hPσ.1
            (fun q hq => by
              rcases mem_cons.1 hq with rfl | hq
              · exact hPσ.2
              · exact hix q hq)
          refine ⟨σ', hσ', ⟨?_, ?_⟩, fun y hy => hkeep y (mem_cons_of_mem _ hy)⟩
          · rw [map_append, ← append_assoc]
            exact hP'
          · rw [hkeep x mem_cons_self, hPσ.2])
        (σ := σ.setScalar x (I.ofInt i))
        ⟨by rw [map_nil, append_nil]; exact hPset, State.setScalar_self⟩
      refine ⟨σ', ?_, ?_⟩
      · rw [State.set, harray]
        exact hσ'
      · simp only [rows, flatMap_append, flatMap_cons, flatMap_nil, append_nil]
        exact hend
    obtain ⟨σ', hσ', hend⟩ := forSteps_total
      (f := fun v σ => (σ.set x (I.ofInt v)).bind (exec I fuel (wrapForLoops loops body)))
      (Q := fun done => P (rows done)) hstep hσ
    refine ⟨σ', ?_, hend⟩
    change exec I fuel (.forRange x (.pair bound .unit) (wrapForLoops loops body) .done) σ = _
    rw [exec, hrange, bind_some, hσ', bind_some, exec]

end Translate

end HpcAgentBench
