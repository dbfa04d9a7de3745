import Mathlib
import HpcAgentBench.Translate.DimText

/-!
# Aliases and definitions of dimensions

`expand_definitions` replaces the identifiers of a text by their definitions, as far as no chain
repeats a name; `substitute_dim_aliases` alternates it with reads of extents from the shape table.
A dictionary is an association list, and the regular expressions work on the pieces of a text.

## Main results

* `exists_expanded` : the expansion ends, on every map.
* `expand_reads` : an expanded text is an expression of the same value.
* `resolve_reads` : resolved reads of extents leave an expression of the same value.
* `names_expanded` : with an acyclic map no defined name is left.
* `alias_expansion` : all of it, and that a name defined as `shape` is the one exception.
-/

namespace HpcAgentBench

open List Option

namespace DimAlias

open ArithText hiding eval
open Pieces DimText

/-- `defs: Mapping[str, str]`. -/
abbrev Defs := List (List Char × List Char)

/-- `shape_table: dict[str, tuple[str, ...]]`. -/
abbrev Table := List (List Char × List (List Char))

/-! ### The functions -/

/-- A text in parentheses. -/
def inParens (text : List Char) : List Char := '(' :: (text ++ [')'])

/-- The identifier that `IDENT_RE` matches in a piece: a word from its first character that is no
digit. -/
def identOf (p : List Char) : List Char :=
  if IsWordPiece p then p.dropWhile Char.isDigit else []

/-- What `IDENT_RE` leaves in front of the identifier of a piece. -/
def beforeIdent (p : List Char) : List Char := p.take (p.length - (identOf p).length)

/-- The definition that replaces the identifier of a piece, unless the chain has it already. -/
def definitionOf (defs : Defs) (active : List (List Char)) (p : List Char) : Option (List Char) :=
  if identOf p = [] ∨ identOf p ∈ active then none else defs.lookup (identOf p)

/-- `repl` on a piece: the definition of its identifier in parentheses, expanded by `recur`. -/
def replPiece (defs : Defs) (recur : List (List Char) → List Char → Option (List Char))
    (active : List (List Char)) (p : List Char) : Option (List Char) :=
  match definitionOf defs active p with
  | none => some p
  | some definition =>
    (recur (active ++ [identOf p]) definition).map fun text => beforeIdent p ++ inParens text

/-- `expand_definitions`, with a bound on the depth of the recursion; `none` when it is met. -/
def expandDefinitions (defs : Defs) : ℕ → List (List Char) → List Char → Option (List Char)
  | 0, _, _ => none
  | depth + 1, active, text =>
    ((piecesOf text).mapM (replPiece defs (expandDefinitions defs depth) active)).map List.flatten

def DIM_EXPAND_ROUNDS : ℕ := 8

/-- `repl` of a shape read: the extent in parentheses, or the read as it stands. -/
def replRead (table : Table) (w d : List Char) : List (List Char) :=
  match (table.lookup w).bind fun shape => shape[Nat.ofDigitChars 10 d 0]? with
  | some extent => ['('] :: (piecesOf extent ++ [[')']])
  | none => w :: shapeTail d

/-- `SHAPE_READ_RE.sub(repl, text)`, on the pieces. -/
def resolvePieces (table : Table) : List (List Char) → List (List Char)
  | [] => []
  | w :: dot :: s :: lbrack :: d :: rbrack :: rest =>
    if IsWordPiece w ∧ dot = ['.'] ∧ s = shapeWord ∧ lbrack = ['['] ∧
        (d ≠ [] ∧ d.all Char.isDigit = true) ∧ rbrack = [']'] then
      replRead table w d ++ resolvePieces table rest
    else w :: resolvePieces table (dot :: s :: lbrack :: d :: rbrack :: rest)
  | p :: ps => p :: resolvePieces table ps

def resolveShapeReads (table : Table) (text : List Char) : List Char :=
  (resolvePieces table (piecesOf text)).flatten

/-- The loop of `substitute_dim_aliases`, some rounds of it. -/
def rounds (expand : List Char → Option (List Char)) (table : Table) :
    ℕ → List Char → Option (List Char)
  | 0, text => some text
  | n + 1, text =>
    (expand text).bind fun grown =>
      if table = [] then some grown
      else
        let resolved := resolveShapeReads table grown
        if resolved = grown then some grown else rounds expand table n resolved

/-- `substitute_dim_aliases`, with a bound on the depth of the expansions. -/
def substituteDimAliases (aliases : Defs) (table : Table) (depth : ℕ) (token : List Char) :
    Option (List Char) :=
  rounds (expandDefinitions aliases depth []) table DIM_EXPAND_ROUNDS token

/-! ### The expansion ends -/

/-- The defined names that are not on the chain. -/
def unused (defs : Defs) (active : List (List Char)) : List (List Char) :=
  (defs.map Prod.fst).filter fun name => name ∉ active

variable {name definition p : List Char} {depth : ℕ} {text out w d : List Char} {c : Char}
variable {t : List Char} {ps : List (List Char)} {e : Expr} {after : List (List Char)}
variable {level : Level} {qs : List (List Char)} {x : List Char}

theorem mem_names_of_lookup {defs : Defs} (h : defs.lookup name = some definition) :
    name ∈ defs.map Prod.fst := by
  obtain ⟨l, l', rfl, -⟩ := lookup_eq_some_iff.1 h
  simp

theorem unused_length_lt {defs : Defs} {active : List (List Char)}
    (hdefined : defs.lookup name = some definition) (hname : name ∉ active) :
    (unused defs (active ++ [name])).length < (unused defs active).length := by
  have hfilter : unused defs (active ++ [name]) =
      (unused defs active).filter fun other => other ≠ name := by
    rw [unused, unused, List.filter_filter]
    refine filter_congr fun other _ => ?_
    rw [← Bool.decide_and]
    refine decide_eq_decide.2 ?_
    rw [mem_append, mem_singleton, not_or, and_comm]
  rw [hfilter, length_filter_lt_length_iff_exists]
  refine ⟨name, mem_filter.2 ⟨mem_names_of_lookup hdefined, decide_eq_true hname⟩, ?_⟩
  simp

theorem definitionOf_eq_some {defs : Defs} {active : List (List Char)} :
    definitionOf defs active p = some definition ↔
      identOf p ≠ [] ∧ identOf p ∉ active ∧ defs.lookup (identOf p) = some definition := by
  rw [definitionOf]
  split
  · next h =>
    simp only [reduceCtorEq, false_iff, not_and]
    tauto
  · next h =>
    rw [not_or] at h
    simp [h]

/-- **The expansion ends**, on every map: its depth is at most the number of the names. -/
theorem exists_expanded (defs : Defs) : ∀ (depth : ℕ) (active : List (List Char))
    (text : List Char), (unused defs active).length < depth →
      ∃ out, expandDefinitions defs depth active text = some out := by
  intro depth
  induction depth with
  | zero => exact fun _ _ h => absurd h (Nat.not_lt_zero _)
  | succ depth ih =>
    intro active text hdepth
    have hpieces : ∀ p ∈ piecesOf text,
        ∃ t, replPiece defs (expandDefinitions defs depth) active p = some t := by
      intro p _
      rw [replPiece]
      split
      · exact ⟨p, rfl⟩
      · next definition hdefinition =>
        obtain ⟨-, hname, hdefined⟩ := definitionOf_eq_some.1 hdefinition
        have := unused_length_lt hdefined hname
        obtain ⟨t, ht⟩ := ih (active ++ [identOf p]) definition (by omega)
        exact ⟨_, by rw [ht, map_some]⟩
    obtain ⟨ts, hts⟩ := exists_mapM_some hpieces
    exact ⟨ts.flatten, by rw [expandDefinitions, hts, map_some]⟩

/-- More depth changes nothing. -/
theorem expandDefinitions_mono {defs : Defs} : ∀ {depth : ℕ} {active : List (List Char)}
    {text out : List Char}, expandDefinitions defs depth active text = some out →
      expandDefinitions defs (depth + 1) active text = some out := by
  intro depth
  induction depth with
  | zero => exact fun h => nomatch h
  | succ depth ih =>
    intro active text out h
    rw [expandDefinitions, map_eq_some_iff] at h ⊢
    obtain ⟨ts, hts, rfl⟩ := h
    refine ⟨ts, ?_, rfl⟩
    rw [mapM_eq_some] at hts ⊢
    refine hts.imp fun p t hp => ?_
    rw [replPiece] at hp ⊢
    split at hp
    · exact hp
    · next definition hsome =>
      obtain ⟨t', ht', rfl⟩ := map_eq_some_iff.1 hp
      exact map_eq_some_iff.2 ⟨t', ih ht', rfl⟩

theorem expandDefinitions_le {defs : Defs} {depth' : ℕ} {active : List (List Char)}
    (h : expandDefinitions defs depth active text = some out) (hle : depth ≤ depth') :
    expandDefinitions defs depth' active text = some out := by
  induction hle with
  | refl => exact h
  | step _ ih => exact expandDefinitions_mono ih

/-! ### The pieces of an expanded text -/

theorem identOf_name (hw : isName w = true) : identOf w = w := by
  rw [identOf, if_pos (isWordPiece_name hw)]
  have hvalid := hw
  rw [isName, Bool.and_eq_true, Bool.and_eq_true] at hvalid
  obtain ⟨c, cs, rfl⟩ := exists_cons_of_ne_nil (⟨w, hw⟩ : Ident).ne_nil
  have hdigit : c.isDigit = false := by simpa using hvalid.1.2
  rw [dropWhile_cons_of_neg (by rw [hdigit]; exact Bool.false_ne_true)]

theorem identOf_number (hd : isNumber d = true) : identOf d = [] := by
  rw [identOf]
  split
  · exact dropWhile_eq_nil_iff.2 (isDigit_of_isNumber hd)
  · rfl

theorem identOf_other (hp : ¬IsWordPiece p) : identOf p = [] := if_neg hp

theorem beforeIdent_name (hw : isName w = true) : beforeIdent w = [] := by
  rw [beforeIdent, identOf_name hw, Nat.sub_self, take_zero]

/-- What stands in front of an identifier are digits of the piece. -/
theorem mem_beforeIdent (hc : c ∈ beforeIdent p) : c ∈ p :=
  mem_of_mem_take hc

variable {defs : Defs} {recur : List (List Char) → List Char → Option (List Char)}
  {active : List (List Char)}

/-- The pieces a piece is replaced by. -/
def chunk (defs : Defs) (recur : List (List Char) → List Char → Option (List Char))
    (active : List (List Char)) (p : List Char) : List (List Char) :=
  match replPiece defs recur active p with
  | some t => if definitionOf defs active p = none then [p] else piecesOf t
  | none => [p]

theorem chunk_kept (h : definitionOf defs active p = none) :
    chunk defs recur active p = [p] := by
  rw [chunk, replPiece, h]
  rfl

theorem chunk_replaced (h : definitionOf defs active p = some definition)
    (ht : recur (active ++ [identOf p]) definition = some t) :
    chunk defs recur active p = piecesOf (beforeIdent p ++ inParens t) := by
  rw [chunk, replPiece, h]
  simp only [ht, map_some]
  rfl

/-- A piece of other characters stands alone. -/
theorem separate_alone (hp : p = [c]) (hc : kindOf c = .other) (h : Separate cut ps) :
    Separate cut (p :: ps) := by
  subst hp
  refine ⟨forall_mem_cons.2 ⟨.single c, h.1⟩, ?_⟩
  cases ps with
  | nil => exact isChain_singleton _
  | cons q ps =>
    refine isChain_cons_cons.2 ⟨fun a ha _ _ _ => ?_, h.2⟩
    obtain rfl : c = a := by simpa using ha
    exact hc

theorem separate_concat (h : Separate cut ps) (hc : kindOf c = .other) :
    Separate cut (ps ++ [[c]]) := by
  constructor
  · intro p hp
    rcases mem_append.1 hp with hp | hp
    · exact h.1 p hp
    · rw [mem_singleton.1 hp]
      exact .single c
  · refine isChain_append.2 ⟨h.2, isChain_singleton _, ?_⟩
    intro p _ q hq a _ d hd hkind
    obtain rfl : [c] = q := by simpa using hq
    obtain rfl : c = d := by simpa using hd
    exact hkind.trans hc

theorem piecesOf_inParens (text : List Char) :
    piecesOf (inParens text) = ['('] :: (piecesOf text ++ [[')']]) := by
  have hseparate : Separate cut (['('] :: (piecesOf text ++ [[')']])) :=
    separate_alone rfl rfl (separate_concat (separate_pieces text) rfl)
  have htext : (['('] :: (piecesOf text ++ [[')']])).flatten = inParens text := by
    rw [flatten_cons, flatten_append, piecesOf, flatten_pieces]
    rfl
  rw [← htext]
  exact pieces_flatten hseparate

/-- The characters of a word are of words. -/
theorem kind_word (hp : Proper cut p) (hword : IsWordPiece p) :
    ∀ c ∈ p, kindOf c = .word := by
  intro c hc
  obtain ⟨d, hd, hdword⟩ := hword
  have hkind : kindOf c = kindOf d := hp.kind_eq hc (mem_of_head? hd)
  rw [hkind, kindOf, if_pos hdword]

theorem isWordPiece_of_identOf (h : identOf p ≠ []) : IsWordPiece p := by
  by_contra hnot
  exact h (identOf_other hnot)

/-- The pieces of a replaced piece. -/
theorem piecesOf_replaced (hp : Proper cut p) (hident : identOf p ≠ []) (t : List Char) :
    piecesOf (beforeIdent p ++ inParens t) =
      (if beforeIdent p = [] then [] else [beforeIdent p]) ++
        ['('] :: (piecesOf t ++ [[')']]) := by
  rw [← piecesOf_inParens]
  split
  · next hnil => rw [hnil]; rfl
  · next hne =>
    have hword := kind_word hp (isWordPiece_of_identOf hident)
    obtain ⟨c, cs, hcs⟩ := exists_cons_of_ne_nil hne
    have hkind : ∀ d ∈ beforeIdent p, kindOf d = .word := fun d hd => hword d (mem_beforeIdent hd)
    rw [hcs] at hkind ⊢
    have hc := hkind c mem_cons_self
    refine pieces_append ⟨c, cs, rfl, fun d hd => ?_, fun h => ?_⟩ fun d hd e he hde => ?_
    · exact (hkind d (mem_cons_of_mem _ hd)).trans hc.symm
    · exact absurd (hc.symm.trans h) (by decide)
    · obtain rfl : '(' = e := by simpa [inParens] using he
      exact hde

/-- A chunk begins and ends with characters of its piece, or alone. -/
theorem chunk_separate (hp : Proper cut p)
    (hsome : ∀ definition, definitionOf defs active p = some definition →
      ∃ t, recur (active ++ [identOf p]) definition = some t) :
    (∃ t, replPiece defs recur active p = some t ∧
      (chunk defs recur active p).flatten = t) ∧
    (Separate cut (chunk defs recur active p) ∧ chunk defs recur active p ≠ []) ∧
    (∀ q ∈ (chunk defs recur active p).getLast?, ∀ c ∈ q.getLast?,
      kindOf c = .other ∨ ∃ d ∈ p, kindOf c = kindOf d) ∧
    ∀ q ∈ (chunk defs recur active p).head?, ∀ c ∈ q.head?,
      kindOf c = .other ∨ ∃ d ∈ p, kindOf c = kindOf d := by
  cases hdefinition : definitionOf defs active p with
  | none =>
    have hrepl : replPiece defs recur active p = some p := by rw [replPiece, hdefinition]
    rw [chunk_kept hdefinition]
    refine ⟨⟨p, hrepl, flatten_singleton⟩, ⟨⟨by simpa using hp, isChain_singleton _⟩,
      cons_ne_nil _ _⟩, fun q hq c hc => ?_, fun q hq c hc => ?_⟩
    · obtain rfl : p = q := by simpa using hq
      exact .inr ⟨c, mem_of_getLast? hc, rfl⟩
    · obtain rfl : p = q := by simpa using hq
      exact .inr ⟨c, mem_of_head? hc, rfl⟩
  | some definition =>
    obtain ⟨t, ht⟩ := hsome definition hdefinition
    obtain ⟨hident, -, -⟩ := definitionOf_eq_some.1 hdefinition
    have hrepl : replPiece defs recur active p = some (beforeIdent p ++ inParens t) := by
      rw [replPiece, hdefinition]
      simp only [ht, map_some]
    have hpieces := piecesOf_replaced hp hident t
    rw [chunk_replaced hdefinition ht]
    refine ⟨⟨_, hrepl, flatten_pieces _⟩, ⟨separate_pieces _, ?_⟩, fun q hq c hc => ?_,
      fun q hq c hc => ?_⟩
    · rw [hpieces]
      split <;> simp
    · -- The last piece is the closing parenthesis.
      rw [hpieces] at hq
      have hlast : ((if beforeIdent p = [] then [] else [beforeIdent p]) ++
          ['('] :: (piecesOf t ++ [[')']])).getLast? = some [')'] := by
        rw [← cons_append, ← append_assoc, getLast?_append]
        rfl
      rw [hlast] at hq
      obtain rfl : [')'] = q := some.inj hq
      obtain rfl : ')' = c := some.inj hc
      exact .inl rfl
    · rw [hpieces] at hq
      split at hq
      · obtain rfl : ['('] = q := some.inj hq
        obtain rfl : '(' = c := some.inj hc
        exact .inl rfl
      · obtain rfl : beforeIdent p = q := some.inj hq
        exact .inr ⟨c, mem_beforeIdent (mem_of_head? hc), rfl⟩

/-- **The pieces of an expanded text are the chunks of the pieces.** -/
theorem piecesOf_expanded (h : expandDefinitions defs (depth + 1) active text = some out) :
    piecesOf out = (piecesOf text).flatMap (chunk defs (expandDefinitions defs depth) active) ∧
      ∀ p ∈ piecesOf text, ∀ definition, definitionOf defs active p = some definition →
        ∃ t, expandDefinitions defs depth (active ++ [identOf p]) definition = some t := by
  rw [expandDefinitions, map_eq_some_iff] at h
  obtain ⟨ts, hts, rfl⟩ := h
  rw [mapM_eq_some] at hts
  have hsome : ∀ p ∈ piecesOf text, ∀ definition, definitionOf defs active p = some definition →
      ∃ t, expandDefinitions defs depth (active ++ [identOf p]) definition = some t := by
    intro p hp definition hdefinition
    obtain ⟨t, -, ht⟩ := exists_of_mem_forall₂ hts.flip hp
    rw [replPiece, hdefinition] at ht
    obtain ⟨t', ht', -⟩ := map_eq_some_iff.1 ht
    exact ⟨t', ht'⟩
  refine ⟨?_, hsome⟩
  have hseparate : Separate cut (piecesOf text) := separate_pieces text
  have hchunk := fun p hp => chunk_separate (hseparate.1 p hp) (hsome p hp)
  have htext : ((piecesOf text).flatMap
      (chunk defs (expandDefinitions defs depth) active)).flatten = ts.flatten := by
    have hmap : (piecesOf text).map
        (fun p => (chunk defs (expandDefinitions defs depth) active p).flatten) = ts.map id := by
      refine map_eq_map_of_forall₂ (forall₂_iff_zip.2 ⟨hts.length_eq, fun {p t} hpt => ?_⟩)
      obtain ⟨t', ht', hflat⟩ := (hchunk p (of_mem_zip hpt).1).1
      have ht := forall₂_zip hts hpt
      rw [ht] at ht'
      rw [hflat, ← some.inj ht']
      rfl
    rw [List.map_id] at hmap
    rw [← hmap, flatMap_def, flatten_flatten, List.map_map]
    rfl
  rw [← htext]
  exact pieces_flatten (separate_flatMap hseparate (fun p hp => (hchunk p hp).2.1)
    (fun p hp => (hchunk p hp).2.2.1) fun p hp => (hchunk p hp).2.2.2)

/-! ### Expanded texts keep their value -/

/-- The names have the values of their definitions. -/
def Defines (defs : Defs) (env : Env) : Prop :=
  ∀ name definition, defs.lookup name = some definition →
    ∀ e, Denotes definition e → eval env e = env name

/-- Every definition is an expression. -/
def AllRead (defs : Defs) : Prop :=
  ∀ name definition, defs.lookup name = some definition → ∃ e, Denotes definition e

theorem definitionOf_none (h : identOf p = []) :
    definitionOf defs active p = none := if_pos (.inl h)

theorem lastCloses_inParens (t : List Char) : LastCloses (piecesOf (inParens t)) := by
  rw [piecesOf_inParens, ← cons_append]
  exact ⟨_, _, rfl, by decide⟩

theorem reads_inParens (h : Denotes t e) :
    Derives .primary (piecesOf (inParens t)) e := by
  rw [piecesOf_inParens]
  exact .parens h

/-- Names replaced by expanded definitions keep their value. -/
theorem chunk_replaces (hshape : defs.lookup shapeWord = none) (hdefs : AllRead defs)
    (hrecur : ∀ active text out e, recur active text = some out → Denotes text e →
      ∃ e', Denotes out e' ∧ Same (Defines defs) e e') :
    Replaces (Defines defs) (chunk defs recur active) where
  other p hp := chunk_kept (definitionOf_none (identOf_other hp))
  shape := by
    refine chunk_kept (eq_none_iff_forall_ne_some.2 fun d hd => ?_)
    obtain ⟨-, -, hlookup⟩ := definitionOf_eq_some.1 hd
    rw [identOf_name (by decide), hshape] at hlookup
    cases hlookup
  number d hd := chunk_kept (definitionOf_none (identOf_number hd))
  name w hw := by
    cases hdefinition : definitionOf defs active w with
    | none => exact .inl (chunk_kept hdefinition)
    | some definition =>
      obtain ⟨-, -, hlookup⟩ := definitionOf_eq_some.1 hdefinition
      rw [identOf_name hw] at hlookup
      cases ht : recur (active ++ [identOf w]) definition with
      | none =>
        refine .inl ?_
        rw [chunk, replPiece, hdefinition]
        simp only [ht, map_none]
      | some t =>
        obtain ⟨e, he⟩ := hdefs w definition hlookup
        obtain ⟨e', he', hsame⟩ := hrecur _ _ _ _ ht he
        rw [chunk_replaced hdefinition ht, beforeIdent_name hw, nil_append]
        refine .inr ⟨lastCloses_inParens t, e', reads_inParens he', fun env henv => ?_⟩
        rw [hsame env henv, henv w definition hlookup e he]
        rfl

/-- **An expanded text is an expression of the same value.** -/
theorem expand_reads (hshape : defs.lookup shapeWord = none) (hdefs : AllRead defs) :
    ∀ (depth : ℕ) (active : List (List Char)) (text out : List Char) (e : Expr),
      expandDefinitions defs depth active text = some out → Denotes text e →
        ∃ e', Denotes out e' ∧ Same (Defines defs) e e' := by
  intro depth
  induction depth with
  | zero => exact fun _ _ _ _ h => nomatch h
  | succ depth ih =>
    intro active text out e h he
    have hflat := Derives.flatMap (@chunk_replaces defs _ active hshape hdefs ih) he
    rwa [← (piecesOf_expanded h).1] at hflat

/-! ### Names that are left -/

/-- The identifiers of a text. -/
def namesOf (text : List Char) : List (List Char) :=
  ((piecesOf text).map identOf).filter fun w => w ≠ []

/-- The definition of a name mentions another. -/
def Uses (defs : Defs) (a b : List Char) : Prop :=
  ∃ definition, defs.lookup a = some definition ∧ b ∈ namesOf definition

/-- No name is defined through itself. -/
def Acyclic (defs : Defs) : Prop := ∀ a, ¬Relation.TransGen (Uses defs) a a

theorem mem_namesOf :
    w ∈ namesOf text ↔ w ≠ [] ∧ ∃ p ∈ piecesOf text, identOf p = w := by
  rw [namesOf, mem_filter, List.mem_map, decide_eq_true_eq, and_comm]

theorem identOf_beforeIdent (p : List Char) : identOf (beforeIdent p) = [] := by
  rw [identOf]
  split
  · next hword =>
    rw [dropWhile_eq_nil_iff, beforeIdent, identOf]
    intro c hc
    split at hc
    · -- What is in front of the first character that is no digit.
      have hsplit : p.take (p.length - (p.dropWhile Char.isDigit).length) =
          p.takeWhile Char.isDigit := by
        have hlength : p.length =
            (p.takeWhile Char.isDigit).length + (p.dropWhile Char.isDigit).length := by
          rw [← length_append, takeWhile_append_dropWhile]
        rw [hlength, Nat.add_sub_cancel]
        exact (prefix_iff_eq_take.1 <| takeWhile_prefix _).symm
      rw [hsplit] at hc
      exact mem_takeWhile_imp hc
    · next hnot =>
      rw [beforeIdent, identOf_other hnot] at hword
      exact absurd (by simpa using hword) hnot
  · rfl

/-- **With an acyclic map no defined name is left.** -/
theorem names_expanded (hacyclic : Acyclic defs) :
    ∀ (depth : ℕ) (active : List (List Char)) (text out : List Char),
      (∀ a ∈ active, ∀ b ∈ namesOf text, Relation.TransGen (Uses defs) a b) →
        expandDefinitions defs depth active text = some out →
          ∀ w ∈ namesOf out, defs.lookup w = none := by
  intro depth
  induction depth with
  | zero => exact fun _ _ _ _ h => nomatch h
  | succ depth ih =>
    intro active text out hactive h w hw
    obtain ⟨hpieces, hsome⟩ := piecesOf_expanded h
    obtain ⟨hne, q, hq, rfl⟩ := mem_namesOf.1 hw
    rw [hpieces] at hq
    obtain ⟨p, hp, hq⟩ := mem_flatMap.1 hq
    cases hdefinition : definitionOf defs active p with
    | none =>
      rw [chunk_kept hdefinition, mem_singleton] at hq
      subst hq
      -- A name on the chain would be defined through itself.
      have hname : identOf q ∉ active := fun hmem =>
        hacyclic _ (hactive _ hmem _ (mem_namesOf.2 ⟨hne, q, hp, rfl⟩))
      rwa [definitionOf, if_neg (not_or.2 ⟨hne, hname⟩)] at hdefinition
    | some definition =>
      obtain ⟨t, ht⟩ := hsome p hp definition hdefinition
      obtain ⟨hident, -, hlookup⟩ := definitionOf_eq_some.1 hdefinition
      have hchain : ∀ a ∈ active ++ [identOf p], ∀ b ∈ namesOf definition,
          Relation.TransGen (Uses defs) a b := by
        intro a ha b hb
        have huse : Uses defs (identOf p) b := ⟨definition, hlookup, hb⟩
        rcases mem_append.1 ha with ha | ha
        · exact (hactive a ha _ (mem_namesOf.2 ⟨hident, p, hp, rfl⟩)).tail huse
        · rw [mem_singleton.1 ha]
          exact .single huse
      refine ih _ _ _ hchain ht _ (mem_namesOf.2 ⟨hne, q, ?_, rfl⟩)
      rw [chunk_replaced hdefinition ht,
        piecesOf_replaced ((separate_pieces text).1 p hp) hident] at hq
      have hbefore : q ∉ if beforeIdent p = [] then [] else [beforeIdent p] := by
        intro hmem
        split at hmem
        · cases hmem
        · rw [mem_singleton.1 hmem, identOf_beforeIdent] at hne
          exact hne rfl
      have hopen : q ≠ ['('] := fun heq => hne (by rw [heq]; rfl)
      have hclose : q ≠ [')'] := fun heq => hne (by rw [heq]; rfl)
      simpa [hbefore, hopen, hclose] using hq

/-! ### Resolved reads -/

variable {table : Table}

/-- A digit sequence, as the index of a read. -/
def IsDigits (d : List Char) : Prop := d ≠ [] ∧ d.all Char.isDigit = true

/-- The regular expression matches here. -/
def Matches (p : List Char) (ps : List (List Char)) : Prop :=
  IsWordPiece p ∧ ∃ d rest, IsDigits d ∧ ps = shapeTail d ++ rest

theorem resolve_read (hw : IsWordPiece w) (hd : IsDigits d) (rest : List (List Char)) :
    resolvePieces table (w :: (shapeTail d ++ rest)) =
      replRead table w d ++ resolvePieces table rest :=
  if_pos ⟨hw, rfl, rfl, rfl, hd, rfl⟩

theorem resolve_skip (h : ¬Matches p ps) :
    resolvePieces table (p :: ps) = p :: resolvePieces table ps := by
  rcases ps with _ | ⟨a, _ | ⟨b, _ | ⟨c, _ | ⟨d, _ | ⟨f, rest⟩⟩⟩⟩⟩
  iterate 5 rfl
  refine if_neg ?_
  rintro ⟨hw, rfl, rfl, rfl, hd, rfl⟩
  exact h ⟨hw, d, rest, hd, rfl⟩

theorem isWordPiece_digits (hd : IsDigits d) : IsWordPiece d := by
  obtain ⟨c, cs, rfl⟩ := exists_cons_of_ne_nil hd.1
  exact isWordPiece_cons.2 (isWord_of_isDigit (List.all_eq_true.1 hd.2 c mem_cons_self))

/-- A piece that closes is, of a match, only the last one. -/
theorem closes_of_tail {before : List (List Char)} (hd : IsDigits d) (hp : Closes p)
    (heq : shapeTail d = before ++ p :: after) :
    p = [']'] ∧ after = [] ∧ before = [['.'], shapeWord, ['['], d] := by
  rcases before with _ | ⟨a, _ | ⟨b, _ | ⟨c, _ | ⟨f, before⟩⟩⟩⟩
  · exact absurd (cons.inj heq).1.symm hp.2.1
  · obtain ⟨-, h⟩ := cons.inj heq
    exact absurd ((cons.inj h).1 ▸ isWordPiece_shape) hp.1
  · obtain ⟨-, h⟩ := cons.inj heq
    obtain ⟨-, h⟩ := cons.inj h
    exact absurd (cons.inj h).1.symm hp.2.2
  · obtain ⟨-, h⟩ := cons.inj heq
    obtain ⟨-, h⟩ := cons.inj h
    obtain ⟨-, h⟩ := cons.inj h
    exact absurd ((cons.inj h).1 ▸ isWordPiece_digits hd) hp.1
  · obtain ⟨ha, h⟩ := cons.inj heq
    obtain ⟨hb, h⟩ := cons.inj h
    obtain ⟨hc, h⟩ := cons.inj h
    obtain ⟨hf, h⟩ := cons.inj h
    cases before with
    | nil =>
      obtain ⟨hp, hafter⟩ := cons.inj h
      rw [← ha, ← hb, ← hc, ← hf]
      exact ⟨hp.symm, hafter.symm, rfl⟩
    | cons g before =>
      have := congrArg List.length (cons.inj h).2
      simp at this

/-- **A piece that closes cuts the text in two for the regular expression.** -/
theorem resolve_closes (hp : Closes p) (before after : List (List Char)) :
    resolvePieces table (before ++ p :: after) =
      resolvePieces table (before ++ [p]) ++ resolvePieces table after := by
  induction hn : before.length using Nat.strong_induction_on generalizing before with
  | _ n ih =>
    cases before with
    | nil =>
      have hnot : ∀ ps, ¬Matches p ps := fun ps h => hp.1 h.1
      rw [nil_append, nil_append, resolve_skip (hnot _), resolve_skip (hnot _)]
      rfl
    | cons a before =>
      by_cases hmatch : Matches a (before ++ p :: after)
      · obtain ⟨ha, d, rest, hd, heq⟩ := hmatch
        rcases append_eq_append_iff.1 heq with ⟨more, hmore, hrest⟩ | ⟨more, hmore, hrest⟩
        · -- The match reaches the piece: it is the closing bracket.
          cases more with
          | nil =>
            rw [append_nil] at hmore
            rw [nil_append] at hrest
            have hskip : ∀ ps, resolvePieces table (p :: ps) = p :: resolvePieces table ps :=
              fun ps => resolve_skip fun h => hp.1 h.1
            rw [cons_append, cons_append, ← hmore, resolve_read ha hd,
              resolve_read ha hd, hskip, hskip, append_assoc]
            rfl
          | cons q more =>
            obtain ⟨rfl, hafter⟩ := cons.inj hrest
            obtain ⟨hq, hmore', hbefore⟩ := closes_of_tail hd hp hmore
            subst hq hmore' hbefore
            change after = rest at hafter
            subst hafter
            have hread : resolvePieces table ([a, ['.'], shapeWord, ['['], d] ++ [[']']]) =
                replRead table a d := (resolve_read ha hd []).trans (append_nil _)
            rw [hread]
            exact resolve_read ha hd after
        · rw [hmore, cons_append, cons_append, append_assoc, append_assoc,
            resolve_read ha hd, resolve_read ha hd, append_assoc]
          refine congrArg (replRead table a d ++ ·) (ih more.length ?_ more rfl)
          rw [← hn, hmore, length_cons, length_append]
          omega
      · have hmatch' : ¬Matches a (before ++ [p]) := by
          rintro ⟨ha, d, rest, hd, heq⟩
          refine hmatch ⟨ha, d, rest ++ after, hd, ?_⟩
          rw [← append_assoc, ← heq, append_assoc]
          rfl
        rw [cons_append, cons_append, resolve_skip hmatch, resolve_skip hmatch',
          ih before.length (by rw [← hn]; exact Nat.lt_succ_self _) before rfl]
        rfl

/-- Pieces without a closing bracket are left alone, and so is what stands before them. -/
theorem resolve_open (before : List (List Char)) (hopen : [']'] ∉ after) :
    resolvePieces table (before ++ after) = resolvePieces table before ++ after := by
  have hclose : ∀ d, [']'] ∈ shapeTail d := fun d => by simp [shapeTail]
  induction hn : before.length using Nat.strong_induction_on generalizing before with
  | _ n ih =>
    cases before with
    | nil =>
      clear ih hn
      rw [nil_append]
      change resolvePieces table after = after
      induction after with
      | nil => rfl
      | cons p after ih =>
        rw [resolve_skip, ih fun h => hopen (mem_cons_of_mem _ h)]
        rintro ⟨-, d, rest, -, rfl⟩
        exact hopen (mem_cons_of_mem _ (mem_append_left _ (hclose d)))
    | cons a before =>
      by_cases hmatch : Matches a (before ++ after)
      · obtain ⟨ha, d, rest, hd, heq⟩ := hmatch
        obtain ⟨more, hmore, hrest⟩ : ∃ more, before = shapeTail d ++ more ∧
            rest = more ++ after := by
          rcases append_eq_append_iff.1 heq with ⟨more, hmore, hrest⟩ | ⟨more, hmore, hrest⟩
          · obtain rfl : more = [] := by
              rcases eq_nil_or_concat more with hnil | ⟨init, q, hconcat⟩
              · exact hnil
              · -- The bracket would be the last piece of the rest.
                rw [concat_eq_append] at hconcat
                have hlast : (shapeTail d).getLast? = some q := by
                  rw [hmore, hconcat, ← append_assoc, getLast?_concat]
                obtain rfl : [']'] = q := some.inj hlast
                exact absurd (by rw [hrest, hconcat]; simp) hopen
            exact ⟨[], by rw [append_nil, hmore, append_nil], hrest.symm⟩
          · exact ⟨more, hmore, hrest⟩
        rw [cons_append, hmore, append_assoc, resolve_read ha hd, resolve_read ha hd,
          append_assoc]
        refine congrArg (replRead table a d ++ ·) (ih more.length ?_ more rfl)
        rw [← hn, hmore, length_cons, length_append]
        omega
      · have hmatch' : ¬Matches a before := by
          rintro ⟨ha, d, rest, hd, rfl⟩
          exact hmatch ⟨ha, d, rest ++ after, hd, append_assoc _ _ _⟩
        rw [cons_append, resolve_skip hmatch, resolve_skip hmatch',
          ih before.length (by rw [← hn]; exact Nat.lt_succ_self _) before rfl]
        rfl

/-- An operator or a blank stays between what stands on its sides. -/
theorem resolve_between (hp : Closes p) (hne : p ≠ [']']) (before after : List (List Char)) :
    resolvePieces table (before ++ p :: after) =
      resolvePieces table before ++ p :: resolvePieces table after := by
  rw [resolve_closes hp, resolve_open before (by simpa using Ne.symm hne), append_assoc]
  rfl

theorem lastCloses_read (w d : List Char) : LastCloses (replRead table w d) := by
  rw [replRead]
  split
  · exact ⟨_, _, (cons_append ..).symm, by decide⟩
  · exact ⟨[w, ['.'], shapeWord, ['['], d], [']'], rfl, by decide⟩

/-- What closed before closes after. -/
theorem resolve_lastCloses (hp : Closes p) (before : List (List Char)) :
    LastCloses (resolvePieces table (before ++ [p])) := by
  induction hn : before.length using Nat.strong_induction_on generalizing before with
  | _ n ih =>
    cases before with
    | nil => exact ⟨[], p, resolve_skip fun h => hp.1 h.1, hp⟩
    | cons a before =>
      have hfront : ∀ ps rest : List (List Char), LastCloses rest → LastCloses (ps ++ rest) := by
        rintro ps rest ⟨qs, q, rfl, hq⟩
        exact ⟨ps ++ qs, q, (append_assoc _ _ _).symm, hq⟩
      by_cases hmatch : Matches a (before ++ [p])
      · obtain ⟨ha, d, rest, hd, heq⟩ := hmatch
        rw [cons_append, heq, resolve_read ha hd]
        rcases eq_nil_or_concat rest with rfl | ⟨init, q, hconcat⟩
        · rw [resolvePieces, append_nil]
          exact lastCloses_read a d
        · rw [concat_eq_append] at hconcat
          rw [hconcat, ← append_assoc] at heq
          obtain ⟨hbefore, hq⟩ := append_inj' heq rfl
          obtain rfl : p = q := (cons.inj hq).1
          rw [hconcat]
          refine hfront _ _ (ih init.length ?_ init rfl)
          rw [← hn, hbefore, length_cons, length_append]
          omega
      · rw [cons_append, resolve_skip hmatch]
        exact hfront [a] _ (ih before.length (by rw [← hn]; exact Nat.lt_succ_self _) before rfl)

/-- The arrays have the extents of the table. -/
def Holds (table : Table) (env : Env) : Prop :=
  ∀ w extents, table.lookup w = some extents → ∃ shape, env w = some (.array shape) ∧
    ∀ (i : ℕ) (t : List Char), extents[i]? = some t → ∀ e, Denotes t e →
      (shape[i]?).map Value.int = eval env e

/-- Every extent of the table is an expression. -/
def TableReads (table : Table) : Prop :=
  ∀ w extents, table.lookup w = some extents → ∀ t ∈ extents, ∃ e, Denotes t e

theorem isDigits_of_isNumber (hd : isNumber d = true) (hne : d ≠ []) :
    IsDigits d := ⟨hne, List.all_eq_true.2 (isDigit_of_isNumber hd)⟩

/-- A resolved read is an expression of the extent. -/
theorem replRead_derives (htable : TableReads table) (hw : isName w = true) (hd : isNumber d = true)
    (hne : d ≠ []) :
    ∃ e, Derives .primary (replRead table w d) e ∧
      Same (Holds table) (.shape (.name w) false (Nat.ofDigitChars 10 d 0)) e := by
  cases hextent : (table.lookup w).bind fun shape => shape[Nat.ofDigitChars 10 d 0]? with
  | none =>
    rw [replRead, hextent]
    exact ⟨_, .read hw hd hne, fun _ _ => rfl⟩
  | some t =>
    obtain ⟨extents, hlookup, hat⟩ := bind_eq_some_iff.1 hextent
    obtain ⟨e, he⟩ := htable w extents hlookup t (mem_of_getElem? hat)
    rw [replRead, hextent]
    refine ⟨e, .parens he, fun env henv => ?_⟩
    obtain ⟨shape, hshape, hvalues⟩ := henv w extents hlookup
    have hread : eval env (.shape (.name w) false (Nat.ofDigitChars 10 d 0)) =
        ((env w).bind (Value.extent false (Nat.ofDigitChars 10 d 0))).map .int := rfl
    rw [← hvalues _ t hat e he, hread, hshape, bind_some]
    rfl

/-- **Resolved reads of extents leave an expression of the same value.** -/
theorem Derives.resolve (htable : TableReads table) (h : Derives level ps e) :
    ∃ e', Derives level (resolvePieces table ps) e' ∧ Same (Holds table) e e' := by
  have hsign : ∀ negative : Bool, Closes [if negative then '-' else '+'] ∧
      [if negative then '-' else '+'] ≠ [']'] := by decide
  have hfront : ∀ {p : List Char}, ¬IsWordPiece p → ∀ qs : List (List Char),
      resolvePieces table (p :: qs) = p :: resolvePieces table qs := fun hp _ =>
    resolve_skip fun h => hp h.1
  have hopen : Closes ['('] ∧ ['('] ≠ [']'] := by decide
  have hcloses : Closes [')'] ∧ [')'] ≠ [']'] := by decide
  have hone : ∀ p : List Char, resolvePieces table [p] = [p] := fun _ => rfl
  induction h with
  | const hw hne => exact ⟨_, .const hw hne, fun _ _ => rfl⟩
  | name hw => exact ⟨_, .name hw, fun _ _ => rfl⟩
  | @parens ps e _ ih =>
    obtain ⟨e', he', hsame⟩ := ih
    rw [hfront hopen.1.1, resolve_between hcloses.1 hcloses.2]
    exact ⟨e', .parens he', hsame⟩
  | @read w d hw hd hne =>
    have hread : resolvePieces table (w :: shapeTail d) = replRead table w d :=
      (resolve_read (isWordPiece_name hw) (isDigits_of_isNumber hd hne) []).trans
        (append_nil _)
    rw [hread]
    exact replRead_derives htable hw hd hne
  | @shape ps e p d _ hp hd hne ih =>
    obtain ⟨e', he', hsame⟩ := ih
    have htail : resolvePieces table (shapeTail d) = shapeTail d := rfl
    rw [append_assoc, singleton_append, resolve_closes hp, htail]
    have hlast : LastCloses (resolvePieces table (ps ++ [p])) := resolve_lastCloses hp ps
    obtain ⟨qs, q, hqs, hq⟩ := hlast
    rw [hqs] at he' ⊢
    exact ⟨_, .shape he' hq hd hne, hsame.shape⟩
  | @shapeBack ps e d _ hd hne ih =>
    obtain ⟨e', he', hsame⟩ := ih
    have hminus : Closes ['-'] ∧ ['-'] ≠ [']'] := by decide
    have hsplit : ps ++ shapeTailBack d =
        (ps ++ [['.'], shapeWord, ['[']]) ++ ['-'] :: [d, [']']] := by
      rw [append_assoc]
      rfl
    have htail : resolvePieces table [d, [']']] = [d, [']']] := rfl
    rw [hsplit, resolve_between hminus.1 hminus.2, resolve_open ps (by decide), htail,
      append_assoc]
    exact ⟨_, .shapeBack he' hd hne, hsame.shape⟩
  | call _ _ ihf ihargs =>
    obtain ⟨f', hf', hsame⟩ := ihf
    obtain ⟨args', hargs', hsame'⟩ := ihargs
    rw [resolve_between hopen.1 hopen.2, resolve_between hcloses.1 hcloses.2]
    exact ⟨_, .call hf' hargs', hsame.call hsame'⟩
  | powerOf _ ih => exact ih.imp fun e' h => ⟨.powerOf h.1, h.2⟩
  | pow _ _ ihl ihr =>
    obtain ⟨l', hl', hsame⟩ := ihl
    obtain ⟨r', hr', hsame'⟩ := ihr
    rw [resolve_between (closes_piece .pow).1 (closes_piece .pow).2]
    exact ⟨_, .pow hl' hr', hsame.binOp hsame'⟩
  | factorOf _ ih => exact ih.imp fun e' h => ⟨.factorOf h.1, h.2⟩
  | sign negative _ ih =>
    obtain ⟨e', he', hsame⟩ := ih
    rw [hfront (hsign negative).1.1]
    exact ⟨_, .sign negative he', hsame.unary⟩
  | termOf _ ih => exact ih.imp fun e' h => ⟨.termOf h.1, h.2⟩
  | @term _ _ _ _ op _ _ hop ihl ihr =>
    obtain ⟨l', hl', hsame⟩ := ihl
    obtain ⟨r', hr', hsame'⟩ := ihr
    rw [resolve_between (closes_piece op).1 (closes_piece op).2]
    exact ⟨_, .term hl' hr' hop, hsame.binOp hsame'⟩
  | sumOf _ ih => exact ih.imp fun e' h => ⟨.sumOf h.1, h.2⟩
  | @sum _ _ _ _ op _ _ hop ihl ihr =>
    obtain ⟨l', hl', hsame⟩ := ihl
    obtain ⟨r', hr', hsame'⟩ := ihr
    rw [resolve_between (closes_piece op).1 (closes_piece op).2]
    exact ⟨_, .sum hl' hr' hop, hsame.binOp hsame'⟩
  | argumentsOf _ ih => exact ih.imp fun e' h => ⟨.argumentsOf h.1, h.2⟩
  | comma _ _ ihl ihr =>
    obtain ⟨l', hl', hsame⟩ := ihl
    obtain ⟨r', hr', hsame'⟩ := ihr
    rw [resolve_between (by decide) (by decide)]
    exact ⟨_, .comma hl' hr', hsame.comma hsame'⟩
  | blankBefore hp _ ih =>
    obtain ⟨e', he', hsame⟩ := ih
    rw [hfront hp.closes.1.1]
    exact ⟨e', .blankBefore hp he', hsame⟩
  | blankAfter hp _ ih =>
    obtain ⟨e', he', hsame⟩ := ih
    rw [resolve_between hp.closes.1 hp.closes.2]
    exact ⟨e', .blankAfter hp he', hsame⟩

theorem separate_append (hps : Separate cut ps) (hlast : ps.getLast? = some [c])
    (hc : kindOf c = .other) (hqs : Separate cut qs) :
    Separate cut (ps ++ qs) := by
  refine ⟨fun p hp => (mem_append.1 hp).elim (hps.1 p) (hqs.1 p), ?_⟩
  refine isChain_append.2 ⟨hps.2, hqs.2, fun p hp q _ a ha _ _ _ => ?_⟩
  obtain rfl : [c] = p := some.inj (hlast.symm.trans hp)
  obtain rfl : c = a := some.inj ha
  exact hc

/-- The resolved pieces stay apart; the first one is an old one or a parenthesis. -/
theorem separate_resolve (h : Separate cut ps) :
    Separate cut (resolvePieces table ps) ∧
      ∀ q ∈ (resolvePieces table ps).head?, q = ['('] ∨ q ∈ ps.head? := by
  induction hn : ps.length using Nat.strong_induction_on generalizing ps with
  | _ n ih =>
    cases ps with
    | nil => exact ⟨h, fun q hq => .inr hq⟩
    | cons p ps =>
      by_cases hmatch : Matches p ps
      · obtain ⟨hp, d, rest, hd, rfl⟩ := hmatch
        have hrest : Separate cut rest :=
          ⟨fun q hq => h.1 q (mem_cons_of_mem _ (mem_append_right _ hq)),
            (isChain_append.1 h.2.of_cons).2.1⟩
        have hlt : rest.length < n := by
          rw [← hn, length_cons, length_append]
          omega
        have hnext := (ih rest.length hlt hrest rfl).1
        rw [resolve_read hp hd, replRead]
        split
        · refine ⟨separate_append (c := ')') (separate_alone rfl rfl
            (separate_concat (separate_pieces _) rfl)) ?_ rfl hnext, fun q hq => ?_⟩
          · rw [← cons_append, getLast?_concat]
          · exact .inl (some.inj hq).symm
        · have hchain : ((p :: shapeTail d) ++ rest).IsChain (Apart cut) := h.2
          have hkept : Separate cut (p :: shapeTail d) :=
            ⟨fun q hq => h.1 q (by
              rcases mem_cons.1 hq with rfl | hq
              · exact mem_cons_self
              · exact mem_cons_of_mem _ (mem_append_left _ hq)),
            (isChain_append.1 hchain).1⟩
          refine ⟨separate_append (c := ']') hkept rfl rfl hnext, fun q hq => .inr hq⟩
      · have hps : Separate cut ps :=
          ⟨fun q hq => h.1 q (mem_cons_of_mem _ hq), h.2.of_cons⟩
        obtain ⟨hnext, hhead⟩ := ih ps.length (by rw [← hn]; exact Nat.lt_succ_self _) hps rfl
        rw [resolve_skip hmatch]
        refine ⟨⟨forall_mem_cons.2 ⟨h.1 p mem_cons_self, hnext.1⟩, ?_⟩,
          fun q hq => .inr hq⟩
        refine isChain_cons.2 ⟨fun q hq => ?_, hnext.2⟩
        rcases hhead q hq with rfl | hq
        · intro a _ b hb hab
          obtain rfl : '(' = b := some.inj hb
          exact hab
        · exact (isChain_cons.1 h.2).1 q hq

/-- **A text with its reads resolved is an expression of the same value.** -/
theorem resolve_reads (htable : TableReads table) (h : Denotes text e) :
    ∃ e', Denotes (resolveShapeReads table text) e' ∧ Same (Holds table) e e' := by
  have hpieces : piecesOf (resolveShapeReads table text) = resolvePieces table (piecesOf text) :=
    pieces_flatten (separate_resolve (separate_pieces text)).1
  have hresolved := Derives.resolve htable h
  rwa [← hpieces] at hresolved

/-! ### The rounds -/

/-- The result is an expression with the value of `e` in the environments at hand. -/
def Keeps (S : Env → Prop) (result : Option (List Char)) (e : Expr) : Prop :=
  ∃ out e', result = some out ∧ Denotes out e' ∧ Same S e e'

theorem rounds_keeps {S : Env → Prop} {expand : List Char → Option (List Char)}
    (hexpand : ∀ text e, Denotes text e → Keeps S (expand text) e) (htable : TableReads table)
    (hS : ∀ env, S env → Holds table env) (n : ℕ) (h : Denotes text e) :
    Keeps S (rounds expand table n text) e := by
  induction n generalizing text e with
  | zero => exact ⟨text, e, rfl, h, fun _ _ => rfl⟩
  | succ n ih =>
    obtain ⟨grown, e', hgrown, hreads, hsame⟩ := hexpand text e h
    rw [rounds, hgrown, bind_some]
    by_cases hempty : table = []
    · rw [if_pos hempty]
      exact ⟨grown, e', rfl, hreads, hsame⟩
    rw [if_neg hempty]
    dsimp only
    split
    · exact ⟨grown, e', rfl, hreads, hsame⟩
    · obtain ⟨e₂, hreads₂, hsame₂⟩ := resolve_reads htable hreads
      obtain ⟨out, e₃, hout, hreads₃, hsame₃⟩ := ih hreads₂
      refine ⟨out, e₃, hout, hreads₃, fun env henv => ?_⟩
      rw [hsame₃ env henv, hsame₂ env (hS env henv), hsame env henv]

theorem exists_rounds {expand : List Char → Option (List Char)}
    (hexpand : ∀ text, ∃ out, expand text = some out) (n : ℕ) (text : List Char) :
    ∃ out, rounds expand table n text = some out := by
  induction n generalizing text with
  | zero => exact ⟨text, rfl⟩
  | succ n ih =>
    obtain ⟨grown, hgrown⟩ := hexpand text
    rw [rounds, hgrown, bind_some]
    by_cases hempty : table = []
    · exact ⟨grown, if_pos hempty⟩
    rw [if_neg hempty]
    dsimp only
    split
    · exact ⟨grown, rfl⟩
    · exact ih _

/-- Enough depth for every text. -/
theorem exists_expandDefinitions (defs : Defs) (text : List Char) :
    ∃ out, ∀ depth, defs.length < depth → expandDefinitions defs depth [] text = some out := by
  have hunused : (unused defs []).length < defs.length + 1 := by
    refine Nat.lt_succ_of_le ((length_filter_le _ _).trans ?_)
    rw [length_map]
  obtain ⟨out, hout⟩ := exists_expanded defs (defs.length + 1) [] text hunused
  exact ⟨out, fun depth hdepth => expandDefinitions_le hout hdepth⟩

theorem exists_substituted (defs : Defs) (table : Table) (token : List Char) :
    ∃ out, ∀ depth, defs.length < depth →
      substituteDimAliases defs table depth token = some out := by
  have hexpand : ∀ depth, defs.length < depth →
      expandDefinitions defs depth [] = expandDefinitions defs (defs.length + 1) [] := by
    intro depth hdepth
    funext text
    obtain ⟨out, hout⟩ := exists_expandDefinitions defs text
    rw [hout depth hdepth, hout _ (Nat.lt_succ_self _)]
  obtain ⟨out, hout⟩ := @exists_rounds table _ (fun text =>
    (exists_expandDefinitions defs text).imp fun out hout =>
      hout (defs.length + 1) (Nat.lt_succ_self _)) DIM_EXPAND_ROUNDS token
  refine ⟨out, fun depth hdepth => ?_⟩
  rw [substituteDimAliases, hexpand depth hdepth]
  exact hout

/-! ### A name defined as `shape` -/

/-- Every dot is followed by `shape`. -/
def DotShape (ps : List (List Char)) : Prop :=
  ps.IsChain (fun p q => p = ['.'] → q = shapeWord) ∧ ps.getLast? ≠ some ['.']

theorem DotShape.append (hps : DotShape ps) (hqs : DotShape qs) :
    DotShape (ps ++ qs) := by
  refine ⟨isChain_append.2 ⟨hps.1, hqs.1, fun p hp q _ hdot => ?_⟩, ?_⟩
  · exact absurd (hdot ▸ hp) hps.2
  · rw [getLast?_append]
    cases hlast : qs.getLast? with
    | none => exact hps.2
    | some q =>
      rw [some_or, ← hlast]
      exact hqs.2

theorem DotShape.single (hp : p ≠ ['.']) : DotShape [p] :=
  ⟨isChain_singleton _, fun h => hp (some.inj h)⟩

theorem DotShape.cons (hp : p ≠ ['.']) (hps : DotShape ps) :
    DotShape (p :: ps) := (DotShape.single hp).append hps

theorem not_dot_of_word (hp : IsWordPiece p) : p ≠ ['.'] := by
  rintro rfl
  exact absurd hp (by decide)

theorem dotShape_tail (hd : IsWordPiece d) : DotShape (shapeTail d) := by
  have hrest : DotShape ([['['], d, [']']]) :=
    .cons (by decide) (.cons (not_dot_of_word hd) (.single (by decide)))
  refine ⟨?_, hrest.2⟩
  rw [shapeTail, isChain_cons_cons, isChain_cons_cons]
  exact ⟨fun _ => rfl, fun h => absurd h (by decide), hrest.1⟩

theorem dotShape_tailBack (hd : IsWordPiece d) : DotShape (shapeTailBack d) := by
  have hrest : DotShape ([['['], ['-'], d, [']']]) :=
    .cons (by decide) (.cons (by decide) (.cons (not_dot_of_word hd) (.single (by decide))))
  refine ⟨?_, hrest.2⟩
  rw [shapeTailBack, isChain_cons_cons, isChain_cons_cons]
  exact ⟨fun _ => rfl, fun h => absurd h (by decide), hrest.1⟩

/-- **In an expression every dot is followed by `shape`.** -/
theorem Derives.dotShape (h : Derives level ps e) : DotShape ps := by
  have hsign : ∀ negative : Bool, [if negative then '-' else '+'] ≠ ['.'] := by decide
  have hop : ∀ op, Op.piece op ≠ ['.'] := fun op => (closes_piece op).1.2.1
  induction h with
  | const hw hne => exact .single (not_dot_of_word (isWordPiece_number hw hne))
  | name hw => exact .single (not_dot_of_word (isWordPiece_name hw))
  | parens _ ih => exact .cons (by decide) (ih.append (.single (by decide)))
  | read hw hd hne =>
    exact .cons (not_dot_of_word (isWordPiece_name hw)) (dotShape_tail (isWordPiece_number hd hne))
  | shape _ _ hd hne ih => exact ih.append (dotShape_tail (isWordPiece_number hd hne))
  | shapeBack _ hd hne ih => exact ih.append (dotShape_tailBack (isWordPiece_number hd hne))
  | call _ _ ihf ihargs =>
    exact ihf.append (.cons (by decide) (ihargs.append (.single (by decide))))
  | powerOf _ ih => exact ih
  | pow _ _ ihl ihr => exact ihl.append (.cons (hop .pow) ihr)
  | factorOf _ ih => exact ih
  | sign negative _ ih => exact .cons (hsign negative) ih
  | termOf _ ih => exact ih
  | @term _ _ _ _ op _ _ _ ihl ihr => exact ihl.append (.cons (hop op) ihr)
  | sumOf _ ih => exact ih
  | @sum _ _ _ _ op _ _ _ ihl ihr => exact ihl.append (.cons (hop op) ihr)
  | argumentsOf _ ih => exact ih
  | comma _ _ ihl ihr => exact ihl.append (.cons (by decide) ihr)
  | blankBefore hp _ ih => exact .cons hp.closes.1.2.1 ih
  | blankAfter hp _ ih => exact ih.append (.single hp.closes.1.2.1)

/-- A name that is not defined. -/
theorem exists_fresh (defs : Defs) :
    ∃ x, isName x = true ∧ Proper cut x ∧ defs.lookup x = none := by
  have hbound : ∀ w ∈ defs.map Prod.fst, w.length ≤ ((defs.map Prod.fst).map List.length).sum :=
    fun w hw => single_le_sum (fun _ _ => Nat.zero_le _) _ (mem_map_of_mem hw)
  refine ⟨replicate (((defs.map Prod.fst).map List.length).sum + 1) 'x', ?_, ?_, ?_⟩
  · have hkeyword : ∀ k ∈ keywords, k.toList.head? ≠ some 'x' := by decide
    have hword : ∀ c ∈ replicate (((defs.map Prod.fst).map List.length).sum + 1) 'x',
        isWord c = true := fun c hc => by rw [eq_of_mem_replicate hc]; decide
    rw [isName, Bool.and_eq_true, Bool.and_eq_true, List.all_eq_true]
    refine ⟨⟨hword, by rw [replicate_succ]; rfl⟩, ?_⟩
    rw [Bool.not_eq_true', Bool.eq_false_iff]
    intro hmem
    refine hkeyword _ (contains_iff_mem.1 hmem) ?_
    rw [String.toList_ofList, replicate_succ]
    rfl
  · rw [replicate_succ]
    refine ⟨'x', _, rfl, fun d hd => by rw [eq_of_mem_replicate hd], fun h => ?_⟩
    exact absurd h (by decide)
  · refine eq_none_iff_forall_ne_some.2 fun d hd => ?_
    have hlength := hbound _ (mem_names_of_lookup hd)
    rw [length_replicate] at hlength
    omega

/-- A read of an extent of a name, as a text. -/
def readText (x : List Char) : List Char := x ++ ['.'] ++ shapeWord ++ ['[', '0', ']']

theorem piecesOf_readText (hname : isName x = true) (hproper : Proper cut x) :
    piecesOf (readText x) = x :: shapeTail ['0'] := by
  have htail : pieces cut ('.' :: (shapeWord ++ ['[', '0', ']'])) = shapeTail ['0'] := by decide
  have hsplit : readText x = x ++ '.' :: (shapeWord ++ ['[', '0', ']']) := by
    rw [readText, append_assoc, append_assoc]
    rfl
  rw [piecesOf, hsplit, pieces_append hproper, htail]
  intro c hc d hd hcd
  obtain rfl : '.' = d := some.inj hd
  have hword := kind_word hproper (isWordPiece_name hname) c (mem_of_getLast? hc)
  exact absurd (hword.symm.trans hcd) (by decide)

theorem reads_readText (hname : isName x = true) (hproper : Proper cut x) :
    Denotes (readText x) (.shape (.name x) false 0) := by
  have hread : Derives .primary (x :: shapeTail ['0']) (.shape (.name x) false 0) :=
    .read hname (by decide) (by decide)
  rw [Denotes, piecesOf_readText hname hproper]
  exact .sumOf (.termOf (.factorOf (.powerOf hread)))

/-- **With `shape` defined, a read of an extent is expanded to no expression.** -/
theorem shape_broken {defs : Defs} (hshape : defs.lookup shapeWord = some definition)
    (hname : isName x = true) (hproper : Proper cut x) (hx : defs.lookup x = none)
    (hout : expandDefinitions defs depth [] (readText x) = some out) (e : Expr) :
    ¬Denotes out e := by
  intro hreads
  cases depth with
  | zero => cases hout
  | succ depth =>
    obtain ⟨hpieces, hsome⟩ := piecesOf_expanded hout
    rw [piecesOf_readText hname hproper] at hpieces hsome
    have hkept : definitionOf defs [] x = none := by
      rw [definitionOf, identOf_name hname, hx]
      exact ite_self _
    have hdot : definitionOf defs [] ['.'] = none := definitionOf_none (identOf_other (by decide))
    have hdefinition : definitionOf defs [] shapeWord = some definition := by
      have hident : identOf shapeWord = shapeWord := identOf_name (by decide)
      rw [definitionOf, hident, if_neg (by simp [shapeWord]), hshape]
    obtain ⟨t, ht⟩ := hsome shapeWord (by simp [shapeTail]) definition hdefinition
    have hdotShape := Derives.dotShape hreads
    rw [hpieces, flatMap_cons, shapeTail, flatMap_cons, flatMap_cons,
      chunk_kept hkept, chunk_kept hdot, chunk_replaced hdefinition ht,
      beforeIdent_name (by decide), nil_append, piecesOf_inParens] at hdotShape
    have hnext := (isChain_cons_cons.1 (isChain_cons_cons.1 hdotShape.1).2).1 rfl
    exact absurd hnext (by decide)

/-! ### The functions, on every map -/

/-- **Both functions end on every map; with an acyclic one no defined name is left; and what they
return is an expression of the value of the text, for every text, exactly when no name is defined as
`shape`.** -/
theorem alias_expansion {defs : Defs} {table : Table} (hdefs : AllRead defs)
    (htable : TableReads table) :
    (∀ text, ∃ out, ∀ depth, defs.length < depth →
      expandDefinitions defs depth [] text = some out) ∧
    (∀ token, ∃ out, ∀ depth, defs.length < depth →
      substituteDimAliases defs table depth token = some out) ∧
    (Acyclic defs → ∀ depth text out, expandDefinitions defs depth [] text = some out →
      ∀ w ∈ namesOf out, defs.lookup w = none) ∧
    ((∀ text e, Denotes text e → ∀ depth, defs.length < depth →
      Keeps (Defines defs) (expandDefinitions defs depth [] text) e ∧
        Keeps (fun env => Defines defs env ∧ Holds table env)
          (substituteDimAliases defs table depth text) e) ↔
      defs.lookup shapeWord = none) := by
  refine ⟨exists_expandDefinitions defs, exists_substituted defs table,
    fun hacyclic depth text out => names_expanded hacyclic depth [] text out nofun, ?_, ?_⟩
  · intro h
    refine eq_none_iff_forall_ne_some.2 fun definition hshape => ?_
    obtain ⟨x, hname, hproper, hx⟩ := exists_fresh defs
    obtain ⟨out, e, hout, hreads, -⟩ :=
      (h _ _ (reads_readText hname hproper) _ (Nat.lt_succ_self _)).1
    exact shape_broken hshape hname hproper hx hout e hreads
  · intro hshape text e he depth hdepth
    have hexpand : ∀ text e, Denotes text e →
        Keeps (Defines defs) (expandDefinitions defs depth [] text) e := by
      intro text e he
      obtain ⟨out, hout⟩ := exists_expandDefinitions defs text
      obtain ⟨e', he', hsame⟩ :=
        expand_reads hshape hdefs depth [] text out e (hout depth hdepth) he
      exact ⟨out, e', hout depth hdepth, he', hsame⟩
    refine ⟨hexpand text e he, rounds_keeps (fun text e he => ?_) htable (fun _ h => h.2) _ he⟩
    obtain ⟨out, e', hout, he', hsame⟩ := hexpand text e he
    exact ⟨out, e', hout, he', fun env henv => hsame env henv.1⟩

/-! ### A short map -/

/-- Names and extents of one letter. -/
theorem reads_letter (w : List Char) (hname : isName w = true) (hpieces : piecesOf w = [w]) :
    Denotes w (.name w) := by
  rw [Denotes, hpieces]
  exact .sumOf (.termOf (.factorOf (.powerOf (.name hname))))

theorem allRead_single (he : Denotes definition e) :
    AllRead [(name, definition)] := by
  intro other text h
  rw [lookup_cons] at h
  split at h
  · rw [← some.inj h]
    exact ⟨e, he⟩
  · cases h

theorem tableReads_single {extent : List Char} (he : Denotes extent e) :
    TableReads [(name, [extent])] := by
  intro w extents h t ht
  rw [lookup_cons] at h
  split at h
  · rw [← some.inj h, mem_singleton] at ht
    rw [ht]
    exact ⟨e, he⟩
  · cases h

/-- `{"c": "N"}` with `x` of extents `("M",)`. -/
theorem short_map :
    Keeps (fun env => Defines [(['c'], ['N'])] env ∧ Holds [(['x'], [['M']])] env)
      (substituteDimAliases [(['c'], ['N'])] [(['x'], [['M']])] 2 (readText ['x']))
      (.shape (.name ['x']) false 0) := by
  have hdefs : AllRead [(['c'], ['N'])] := allRead_single (reads_letter _ (by decide) (by decide))
  have htable : TableReads [(['x'], [['M']])] :=
    tableReads_single (reads_letter _ (by decide) (by decide))
  exact ((alias_expansion hdefs htable).2.2.2.2 (by decide) _ _
    (reads_readText (by decide) (.single 'x')) 2 (by decide)).2

/-- **A kernel that calls a dimension `shape`: `x.shape[0]` becomes `x.(N)[0]`.** -/
theorem shape_defined :
    AllRead [(shapeWord, ['N'])] ∧ TableReads [(['x'], [['M']])] ∧
      Denotes (readText ['x']) (.shape (.name ['x']) false 0) ∧
      substituteDimAliases [(shapeWord, ['N'])] [(['x'], [['M']])] 2 (readText ['x']) =
        some ['x', '.', '(', 'N', ')', '[', '0', ']'] ∧
      ∀ e, ¬Denotes ['x', '.', '(', 'N', ')', '[', '0', ']'] e := by
  have hout : expandDefinitions [(shapeWord, ['N'])] 2 [] (readText ['x']) =
      some ['x', '.', '(', 'N', ')', '[', '0', ']'] := by decide
  exact ⟨allRead_single (reads_letter _ (by decide) (by decide)),
    tableReads_single (reads_letter _ (by decide) (by decide)),
    reads_readText (by decide) (.single 'x'), by decide,
    fun e hreads => shape_broken rfl (by decide) (.single 'x') (by decide) hout e hreads⟩

end DimAlias

end HpcAgentBench
