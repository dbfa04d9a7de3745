import Mathlib.Data.List.Chain
import Mathlib.Data.List.Flatten

/-!
# Texts cut into pieces

A text is cut into maximal runs of characters of one kind, and single characters.  Pieces that do
not merge with their neighbours are the pieces of their text.

## Main results

* `flatten_pieces` : the pieces make up the text.
* `pieces_flatten` : pieces that stay apart are those of their text.
-/

namespace HpcAgentBench

open List Option

namespace Pieces

variable {α κ : Type*}

/-- A cut: the kind of a character, and the kind whose characters stand alone. -/
structure Cut (α κ : Type*) where
  kindOf : α → κ
  alone : κ

variable (cut : Cut α κ)

section

variable [DecidableEq κ]

/-- The pieces with one more character in front. -/
def attach (c : α) : List (List α) → List (List α)
  | [] => [[c]]
  | p :: ps =>
    if p.head?.map cut.kindOf = some (cut.kindOf c) ∧ cut.kindOf c ≠ cut.alone then (c :: p) :: ps
    else [c] :: p :: ps

def pieces : List α → List (List α)
  | [] => []
  | c :: cs => attach cut c (pieces cs)

end

/-- A piece has characters of one kind, and no two that stand alone. -/
def Proper (p : List α) : Prop :=
  ∃ c cs, p = c :: cs ∧ (∀ d ∈ cs, cut.kindOf d = cut.kindOf c) ∧
    (cut.kindOf c = cut.alone → cs = [])

/-- Neighbours that do not merge. -/
def Apart (p q : List α) : Prop :=
  ∀ c ∈ p.getLast?, ∀ d ∈ q.head?, cut.kindOf c = cut.kindOf d → cut.kindOf c = cut.alone

/-- Proper pieces, apart from each other. -/
def Separate (ps : List (List α)) : Prop := (∀ p ∈ ps, Proper cut p) ∧ ps.IsChain (Apart cut)

variable {cut}

theorem Proper.single (c : α) : Proper cut [c] := ⟨c, [], rfl, nofun, fun _ => rfl⟩

variable {p : List α} {ps : List (List α)}

theorem Proper.ne_nil (h : Proper cut p) : p ≠ [] := by
  obtain ⟨c, cs, rfl, -⟩ := h
  exact cons_ne_nil c cs

/-- All characters of a piece have the kind of its first. -/
theorem Proper.kind_eq (h : Proper cut p) {c d : α} (hc : c ∈ p) (hd : d ∈ p) :
    cut.kindOf c = cut.kindOf d := by
  obtain ⟨a, as, rfl, hkind, -⟩ := h
  have hall : ∀ e ∈ a :: as, cut.kindOf e = cut.kindOf a := by
    intro e he
    rcases mem_cons.1 he with rfl | he
    · rfl
    · exact hkind e he
  rw [hall c hc, hall d hd]

variable [DecidableEq κ]

theorem flatten_attach (c : α) (ps : List (List α)) :
    (attach cut c ps).flatten = c :: ps.flatten := by
  cases ps with
  | nil => rfl
  | cons p ps =>
    rw [attach]
    split <;> rfl

/-- **The pieces make up the text.** -/
theorem flatten_pieces (text : List α) : (pieces cut text).flatten = text := by
  induction text with
  | nil => rfl
  | cons c cs ih => rw [pieces, flatten_attach, ih]

theorem separate_attach (c : α) (h : Separate cut ps) :
    Separate cut (attach cut c ps) := by
  obtain ⟨hproper, hchain⟩ := h
  cases ps with
  | nil => exact ⟨by simpa [attach] using Proper.single c, by simp [attach]⟩
  | cons p ps =>
    obtain ⟨hp, hps⟩ := forall_mem_cons.1 hproper
    have hfull := hp
    obtain ⟨d, ds, rfl, hkind, halone⟩ := hp
    rw [attach]
    split
    · next hmerge =>
      obtain ⟨hsame, hmany⟩ := hmerge
      have hdc : cut.kindOf d = cut.kindOf c := some.inj hsame
      refine ⟨forall_mem_cons.2 ⟨⟨c, d :: ds, rfl, ?_, fun h => absurd h hmany⟩, hps⟩, ?_⟩
      · intro e he
        rcases mem_cons.1 he with rfl | he
        · exact hdc
        · rw [hkind e he, hdc]
      · cases ps with
        | nil => exact isChain_singleton _
        | cons q ps =>
          rw [isChain_cons_cons] at hchain ⊢
          refine ⟨fun a ha b hb hab => hchain.1 a ?_ b hb hab, hchain.2⟩
          rwa [getLast?_cons_cons] at ha
    · next hnot =>
      refine ⟨forall_mem_cons.2 ⟨Proper.single c, hproper⟩, ?_⟩
      rw [isChain_cons_cons]
      refine ⟨?_, hchain⟩
      rintro a ha b hb hab
      obtain rfl : c = a := by simpa using ha
      obtain rfl : d = b := by simpa using hb
      by_contra hne
      exact hnot ⟨congrArg some hab.symm, hne⟩

theorem separate_pieces (text : List α) : Separate cut (pieces cut text) := by
  induction text with
  | nil => exact ⟨nofun, isChain_nil⟩
  | cons c cs ih => exact separate_attach c ih

/-- A piece in front of pieces it does not merge with. -/
theorem pieces_append (hp : Proper cut p) {text : List α}
    (hapart : ∀ c ∈ p.getLast?, ∀ d ∈ text.head?, cut.kindOf c = cut.kindOf d →
      cut.kindOf c = cut.alone) :
    pieces cut (p ++ text) = p :: pieces cut text := by
  obtain ⟨c, cs, rfl, hkind, halone⟩ := hp
  induction cs generalizing c with
  | nil =>
    have hhead : ∀ ps : List (List α), (∀ q ∈ ps, Proper cut q) →
        (∀ d ∈ ps.flatten.head?, cut.kindOf c = cut.kindOf d → cut.kindOf c = cut.alone) →
          attach cut c ps = [c] :: ps := by
      intro ps hproper hfirst
      cases ps with
      | nil => rfl
      | cons q ps =>
        obtain ⟨d, ds, rfl, -⟩ := hproper q mem_cons_self
        refine if_neg fun hmerge => hmerge.2 (hfirst d rfl (some.inj hmerge.1).symm)
    refine hhead _ (separate_pieces text).1 fun d hd => hapart c rfl d ?_
    rwa [flatten_pieces] at hd
  | cons d ds ih =>
    have hcd : cut.kindOf d = cut.kindOf c := hkind d mem_cons_self
    have hmany : cut.kindOf c ≠ cut.alone := fun h => cons_ne_nil d ds (halone h)
    have hlast : ∀ c ∈ (d :: ds).getLast?, ∀ e ∈ text.head?, cut.kindOf c = cut.kindOf e →
        cut.kindOf c = cut.alone := fun e he => hapart e (by rwa [getLast?_cons_cons])
    have hrest := ih d hlast (fun e he => (hkind e (mem_cons_of_mem _ he)).trans hcd.symm)
      fun h => absurd (hcd.symm.trans h) hmany
    rw [cons_append, pieces, hrest, attach, if_pos]
    exact ⟨congrArg some hcd, hmany⟩

/-- **Pieces that stay apart are those of their text.** -/
theorem pieces_flatten (h : Separate cut ps) :
    pieces cut ps.flatten = ps := by
  induction ps with
  | nil => rfl
  | cons p ps ih =>
    obtain ⟨hproper, hchain⟩ := h
    obtain ⟨hp, hps⟩ := forall_mem_cons.1 hproper
    have hrest : Separate cut ps := ⟨hps, hchain.of_cons⟩
    rw [flatten_cons, pieces_append hp, ih hrest]
    intro c hc d hd
    cases ps with
    | nil => cases hd
    | cons q ps =>
      refine (isChain_cons_cons.1 hchain).1 c hc d ?_
      rw [flatten_cons] at hd
      rwa [head?_append_of_ne_nil _ (hps q mem_cons_self).ne_nil] at hd

omit [DecidableEq κ] in
/-- Pieces replaced by pieces that start and end with their kind, or alone. -/
theorem separate_flatMap (h : Separate cut ps) {f : List α → List (List α)}
    (hf : ∀ p ∈ ps, Separate cut (f p) ∧ f p ≠ [])
    (hends : ∀ p ∈ ps, ∀ q ∈ (f p).getLast?, ∀ c ∈ q.getLast?,
      cut.kindOf c = cut.alone ∨ ∃ d ∈ p, cut.kindOf c = cut.kindOf d)
    (hstarts : ∀ p ∈ ps, ∀ q ∈ (f p).head?, ∀ c ∈ q.head?,
      cut.kindOf c = cut.alone ∨ ∃ d ∈ p, cut.kindOf c = cut.kindOf d) :
    Separate cut (ps.flatMap f) := by
  obtain ⟨hproper, hchain⟩ := h
  constructor
  · intro q hq
    obtain ⟨p, hp, hq⟩ := mem_flatMap.1 hq
    exact (hf p hp).1.1 q hq
  · rw [flatMap_def, isChain_flatten]
    · constructor
      · intro l hl
        obtain ⟨p, hp, rfl⟩ := mem_map.1 hl
        exact (hf p hp).1.2
      · rw [isChain_map]
        refine List.IsChain.imp_of_mem_imp ?_ hchain
        intro p p' hp hp' hapart q hq q' hq' c hc d hd hcd
        by_contra hne
        obtain ⟨e, he, hce⟩ := (hends p hp q hq c hc).resolve_left hne
        obtain ⟨e', he', hde⟩ := (hstarts p' hp' q' hq' d hd).resolve_left
          fun h => hne (hcd.trans h)
        -- The old neighbours had those kinds too.
        obtain ⟨l, hl⟩ := ne_none_iff_exists'.1
          (fun h => (hproper p hp).ne_nil (getLast?_eq_none_iff.1 h))
        obtain ⟨f, hf⟩ := ne_none_iff_exists'.1
          (fun h => (hproper p' hp').ne_nil (head?_eq_none_iff.1 h))
        have hlast := (hproper p hp).kind_eq (mem_of_getLast? hl) he
        have hfirst := (hproper p' hp').kind_eq (mem_of_head? hf) he'
        refine hne ?_
        have := hapart l hl f hf (by rw [hlast, hfirst, ← hce, ← hde, hcd])
        rw [hce, ← hlast, this]
    · intro hmem
      obtain ⟨p, hp, hnil⟩ := mem_map.1 hmem
      exact (hf p hp).2 hnil

end Pieces

end HpcAgentBench
