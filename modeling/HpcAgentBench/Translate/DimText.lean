import HpcAgentBench.Lib.Pieces
import HpcAgentBench.Translate.ShapeArith

/-!
# Texts of dimensions

A dimension's text is an integer expression that may read extents (`x.shape[0]`) and call
functions (`max(k, 2)`).  A text is cut into words, runs of `*` and `/` and single characters, and
the grammar is over these pieces, with blanks between them.

## Main results

* `Derives.flatMap` : pieces replaced by pieces of the same meaning leave an expression of the same
  meaning.
-/

namespace HpcAgentBench

open List

namespace DimText

open ArithText Pieces

/-! ### Pieces -/

/-- The kinds of characters: those of words, those of operators of two, and the others. -/
inductive Kind
  | word
  | star
  | slash
  | other
  deriving DecidableEq

def kindOf (c : Char) : Kind :=
  if isWord c then .word else if c = '*' then .star else if c = '/' then .slash else .other

def cut : Cut Char Kind := ⟨kindOf, .other⟩

/-- The pieces of a text. -/
def piecesOf (text : List Char) : List (List Char) := pieces cut text

/-- The piece is a word. -/
def IsWordPiece (p : List Char) : Prop := ∃ c ∈ p.head?, isWord c = true

instance (p : List Char) : Decidable (IsWordPiece p) :=
  decidable_of_iff (p.head?.any isWord = true) (Option.any_eq_true _ _)

/-- A blank. -/
def IsBlank (p : List Char) : Prop := p = [' '] ∨ p = ['\t']

/-- `shape`. -/
def shapeWord : List Char := ['s', 'h', 'a', 'p', 'e']

/-- `.shape[d]`. -/
def shapeTail (d : List Char) : List (List Char) := [['.'], shapeWord, ['['], d, [']']]

/-- `.shape[-d]`. -/
def shapeTailBack (d : List Char) : List (List Char) := [['.'], shapeWord, ['['], ['-'], d, [']']]

/-! ### Expressions -/

/-- An expression over names, with extents read and functions called. -/
inductive Expr
  | const (value : ℕ)
  | name (w : List Char)
  | unary (negative : Bool) (operand : Expr)
  | binOp (op : Op) (left right : Expr)
  /-- An extent, counted from the end when `back`. -/
  | shape (value : Expr) (back : Bool) (i : ℕ)
  | call (function arguments : Expr)
  | comma (left right : Expr)

/-- What an expression stands for. -/
inductive Value
  | int (n : ℤ)
  | array (shape : List ℤ)
  | function (f : List ℤ → Option ℤ)
  | tuple (vs : List ℤ)

/-- The names' values. -/
abbrev Env := List Char → Option Value

def Value.toInt : Value → Option ℤ
  | .int n => some n
  | _ => none

/-- The arguments a value stands for. -/
def Value.arguments : Value → Option (List ℤ)
  | .int n => some [n]
  | .tuple vs => some vs
  | _ => none

/-- An extent of an array. -/
def Value.extent (back : Bool) (i : ℕ) : Value → Option ℤ
  | .array shape =>
    if back ∧ 0 < i then (if i ≤ shape.length then shape[shape.length - i]? else none)
    else shape[i]?
  | _ => none

def Value.apply : Value → List ℤ → Option ℤ
  | .function f, vs => f vs
  | _, _ => none

/-- The value of an expression. -/
def eval (env : Env) : Expr → Option Value
  | .const n => some (.int n)
  | .name w => env w
  | .unary negative e => ((eval env e).bind Value.toInt).map fun n => .int (signed negative n)
  | .binOp op l r => ((eval env l).bind Value.toInt).bind fun a =>
      ((eval env r).bind Value.toInt).bind fun b => (op.apply a b).map .int
  | .shape e back i => ((eval env e).bind (Value.extent back i)).map .int
  | .call f args => (eval env f).bind fun f =>
      ((eval env args).bind Value.arguments).bind fun vs => (f.apply vs).map .int
  | .comma l r => ((eval env l).bind Value.arguments).bind fun vs =>
      ((eval env r).bind Value.toInt).map fun n => .tuple (vs ++ [n])

/-! ### The grammar -/

inductive Level
  | primary
  | power
  | factor
  | term
  | sum
  | arguments
  deriving DecidableEq

/-- The piece of an operator. -/
def Op.piece : Op → List Char
  | .add => ['+']
  | .sub => ['-']
  | .mult => ['*']
  | .floorDiv => ['/', '/']
  | .mod => ['%']
  | .pow => ['*', '*']

/-- The last piece closes what stands before it: no word, and no dot or bracket that a read of an
extent goes on from. -/
def Closes (p : List Char) : Prop := ¬IsWordPiece p ∧ p ≠ ['.'] ∧ p ≠ ['[']

instance (p : List Char) : Decidable (Closes p) := inferInstanceAs (Decidable (_ ∧ _))

/-- The rules of Python's grammar, with blanks around every part. -/
inductive Derives : Level → List (List Char) → Expr → Prop
  | const {w} (hw : isNumber w = true) (hne : w ≠ []) :
      Derives .primary [w] (.const (Nat.ofDigitChars 10 w 0))
  | name {w} (hw : isName w = true) : Derives .primary [w] (.name w)
  | parens {ps e} (h : Derives .sum ps e) : Derives .primary (['('] :: (ps ++ [[')']])) e
  /-- An extent of a name. -/
  | read {w d} (hw : isName w = true) (hd : isNumber d = true) (hne : d ≠ []) :
      Derives .primary (w :: shapeTail d) (.shape (.name w) false (Nat.ofDigitChars 10 d 0))
  | shape {ps e p d} (h : Derives .primary (ps ++ [p]) e) (hp : Closes p) (hd : isNumber d = true)
      (hne : d ≠ []) :
      Derives .primary (ps ++ [p] ++ shapeTail d) (.shape e false (Nat.ofDigitChars 10 d 0))
  | shapeBack {ps e d} (h : Derives .primary ps e) (hd : isNumber d = true) (hne : d ≠ []) :
      Derives .primary (ps ++ shapeTailBack d) (.shape e true (Nat.ofDigitChars 10 d 0))
  | call {ps qs f args} (hf : Derives .primary ps f) (hargs : Derives .arguments qs args) :
      Derives .primary (ps ++ ['('] :: (qs ++ [[')']])) (.call f args)
  | powerOf {ps e} (h : Derives .primary ps e) : Derives .power ps e
  | pow {ps qs l r} (hl : Derives .primary ps l) (hr : Derives .factor qs r) :
      Derives .power (ps ++ Op.piece .pow :: qs) (.binOp .pow l r)
  | factorOf {ps e} (h : Derives .power ps e) : Derives .factor ps e
  | sign {ps e} (negative : Bool) (h : Derives .factor ps e) :
      Derives .factor ([if negative then '-' else '+'] :: ps) (.unary negative e)
  | termOf {ps e} (h : Derives .factor ps e) : Derives .term ps e
  | term {ps qs l r op} (hl : Derives .term ps l) (hr : Derives .factor qs r)
      (hop : op = .mult ∨ op = .floorDiv ∨ op = .mod) :
      Derives .term (ps ++ Op.piece op :: qs) (.binOp op l r)
  | sumOf {ps e} (h : Derives .term ps e) : Derives .sum ps e
  | sum {ps qs l r op} (hl : Derives .sum ps l) (hr : Derives .term qs r)
      (hop : op = .add ∨ op = .sub) : Derives .sum (ps ++ Op.piece op :: qs) (.binOp op l r)
  | argumentsOf {ps e} (h : Derives .sum ps e) : Derives .arguments ps e
  | comma {ps qs l r} (hl : Derives .arguments ps l) (hr : Derives .sum qs r) :
      Derives .arguments (ps ++ [','] :: qs) (.comma l r)
  | blankBefore {level ps e p} (hp : IsBlank p) (h : Derives level ps e) :
      Derives level (p :: ps) e
  | blankAfter {level ps e p} (hp : IsBlank p) (h : Derives level ps e) :
      Derives level (ps ++ [p]) e

/-- The text is an expression. -/
def Denotes (text : List Char) (e : Expr) : Prop := Derives .sum (piecesOf text) e

/-! ### Words -/

theorem isWordPiece_cons {c : Char} {cs : List Char} :
    IsWordPiece (c :: cs) ↔ isWord c = true := by
  simp [IsWordPiece]

theorem isWordPiece_shape : IsWordPiece shapeWord := by decide

theorem isWordPiece_name {w : List Char} (hw : isName w = true) : IsWordPiece w := by
  have hident := (⟨w, hw⟩ : Ident).ne_nil
  obtain ⟨c, cs, rfl⟩ := exists_cons_of_ne_nil hident
  exact isWordPiece_cons.2 ((⟨c :: cs, hw⟩ : Ident).isWord_of_mem mem_cons_self)

variable {d : List Char}

theorem isDigit_of_isNumber (hd : isNumber d = true) :
    ∀ c ∈ d, c.isDigit = true := by
  rw [isNumber, Bool.and_eq_true] at hd
  exact all_eq_true.1 hd.1

theorem isWordPiece_number (hd : isNumber d = true) (hne : d ≠ []) :
    IsWordPiece d := by
  obtain ⟨c, cs, rfl⟩ := exists_cons_of_ne_nil hne
  exact isWordPiece_cons.2 (isWord_of_isDigit (isDigit_of_isNumber hd c mem_cons_self))

theorem IsBlank.closes {p : List Char} (hp : IsBlank p) : Closes p ∧ p ≠ [']'] := by
  rcases hp with rfl | rfl <;> decide

theorem closes_piece (op : Op) : Closes (Op.piece op) ∧ Op.piece op ≠ [']'] := by
  cases op <;> decide

/-! ### Pieces replaced one by one -/

/-- The last piece closes. -/
def LastCloses (ps : List (List Char)) : Prop := ∃ qs q, ps = qs ++ [q] ∧ Closes q

section Replaced

variable {S : Env → Prop} {g : List Char → List (List Char)}
variable {d : List Char} {l l' r r' e e' : Expr}

/-- The expressions have one value in the environments at hand. -/
def Same (S : Env → Prop) (e e' : Expr) : Prop := ∀ env, S env → eval env e' = eval env e

/-- Words replaced by expressions of their meaning, everything else kept. -/
structure Replaces (S : Env → Prop) (g : List Char → List (List Char)) : Prop where
  other : ∀ p, ¬IsWordPiece p → g p = [p]
  shape : g shapeWord = [shapeWord]
  number : ∀ d, isNumber d = true → g d = [d]
  name : ∀ w, isName w = true → g w = [w] ∨
    LastCloses (g w) ∧ ∃ e, Derives .primary (g w) e ∧ Same S (.name w) e

theorem Replaces.closes (hg : Replaces S g) {p : List Char} (hp : Closes p) : g p = [p] :=
  hg.other p hp.1

theorem Replaces.shapeTail (hg : Replaces S g) (hd : isNumber d = true) :
    (shapeTail d).flatMap g = shapeTail d := by
  simp only [DimText.shapeTail, flatMap_cons, flatMap_nil, hg.shape, hg.number d hd,
    hg.other ['.'] (by decide), hg.other ['['] (by decide), hg.other [']'] (by decide)]
  rfl

theorem Replaces.shapeTailBack (hg : Replaces S g) (hd : isNumber d = true) :
    (shapeTailBack d).flatMap g = shapeTailBack d := by
  simp only [DimText.shapeTailBack, flatMap_cons, flatMap_nil, hg.shape, hg.number d hd,
    hg.other ['.'] (by decide), hg.other ['['] (by decide), hg.other [']'] (by decide),
    hg.other ['-'] (by decide)]
  rfl

theorem Same.binOp {op : Op} (hl : Same S l l') (hr : Same S r r') :
    Same S (.binOp op l r) (.binOp op l' r') := fun env henv =>
  congrArg₂ (fun a b : Option Value => (a.bind Value.toInt).bind fun m =>
    (b.bind Value.toInt).bind fun n => (op.apply m n).map Value.int) (hl env henv) (hr env henv)

theorem Same.unary {negative : Bool} (h : Same S e e') :
    Same S (.unary negative e) (.unary negative e') := fun env henv =>
  congrArg (fun a : Option Value => (a.bind Value.toInt).map fun n => Value.int (signed negative n))
    (h env henv)

theorem Same.shape {back : Bool} {i : ℕ} (h : Same S e e') :
    Same S (.shape e back i) (.shape e' back i) := fun env henv =>
  congrArg (fun a : Option Value => (a.bind (Value.extent back i)).map Value.int) (h env henv)

theorem Same.call {f f' args args' : Expr} (hf : Same S f f') (hargs : Same S args args') :
    Same S (.call f args) (.call f' args') := fun env henv =>
  congrArg₂ (fun a b : Option Value => a.bind fun f => (b.bind Value.arguments).bind fun vs =>
    (f.apply vs).map Value.int) (hf env henv) (hargs env henv)

theorem Same.comma (hl : Same S l l') (hr : Same S r r') :
    Same S (.comma l r) (.comma l' r') := fun env henv =>
  congrArg₂ (fun a b : Option Value => (a.bind Value.arguments).bind fun vs =>
    (b.bind Value.toInt).map fun n => Value.tuple (vs ++ [n])) (hl env henv) (hr env henv)

/-- **Words replaced by expressions of their meaning leave an expression of the same meaning.** -/
theorem Derives.flatMap (hg : Replaces S g) {level : Level} {ps : List (List Char)}
    (h : Derives level ps e) : ∃ e', Derives level (ps.flatMap g) e' ∧ Same S e e' := by
  have hsign : ∀ negative : Bool, Closes [if negative then '-' else '+'] := by decide
  induction h with
  | const hw hne => exact ⟨_, by simpa [hg.number _ hw] using .const hw hne, fun _ _ => rfl⟩
  | @name w hw =>
    rcases hg.name w hw with hsame | ⟨-, e, he, hsame⟩
    · exact ⟨_, by simpa [hsame] using .name hw, fun _ _ => rfl⟩
    · exact ⟨e, by simpa using he, hsame⟩
  | parens _ ih =>
    obtain ⟨e', he', hsame⟩ := ih
    refine ⟨e', ?_, hsame⟩
    rw [flatMap_cons, flatMap_append, flatMap_singleton,
      hg.other ['('] (by decide), hg.other [')'] (by decide)]
    exact .parens he'
  | @read w d hw hd hne =>
    rw [flatMap_cons, hg.shapeTail hd]
    rcases hg.name w hw with hkept | ⟨⟨qs, q, hqs, hq⟩, e, he, hsame⟩
    · rw [hkept]
      exact ⟨_, .read hw hd hne, fun _ _ => rfl⟩
    · rw [hqs] at he ⊢
      exact ⟨_, .shape he hq hd hne, hsame.shape⟩
  | shape _ hp hd hne ih =>
    obtain ⟨e', he', hsame⟩ := ih
    rw [flatMap_append, flatMap_singleton, hg.closes hp] at he'
    rw [flatMap_append, flatMap_append, flatMap_singleton, hg.closes hp,
      hg.shapeTail hd]
    exact ⟨_, .shape he' hp hd hne, hsame.shape⟩
  | shapeBack _ hd hne ih =>
    obtain ⟨e', he', hsame⟩ := ih
    rw [flatMap_append, hg.shapeTailBack hd]
    exact ⟨_, .shapeBack he' hd hne, hsame.shape⟩
  | call _ _ ihf ihargs =>
    obtain ⟨f', hf', hsame⟩ := ihf
    obtain ⟨args', hargs', hsame'⟩ := ihargs
    rw [flatMap_append, flatMap_cons, flatMap_append, flatMap_singleton,
      hg.other ['('] (by decide), hg.other [')'] (by decide)]
    exact ⟨_, .call hf' hargs', hsame.call hsame'⟩
  | powerOf _ ih => exact ih.imp fun e' h => ⟨.powerOf h.1, h.2⟩
  | pow _ _ ihl ihr =>
    obtain ⟨l', hl', hsame⟩ := ihl
    obtain ⟨r', hr', hsame'⟩ := ihr
    rw [flatMap_append, flatMap_cons, hg.closes (closes_piece .pow).1]
    exact ⟨_, .pow hl' hr', hsame.binOp hsame'⟩
  | factorOf _ ih => exact ih.imp fun e' h => ⟨.factorOf h.1, h.2⟩
  | sign negative _ ih =>
    obtain ⟨e', he', hsame⟩ := ih
    rw [flatMap_cons, hg.closes (hsign negative)]
    exact ⟨_, .sign negative he', hsame.unary⟩
  | termOf _ ih => exact ih.imp fun e' h => ⟨.termOf h.1, h.2⟩
  | @term _ _ _ _ op _ _ hop ihl ihr =>
    obtain ⟨l', hl', hsame⟩ := ihl
    obtain ⟨r', hr', hsame'⟩ := ihr
    rw [flatMap_append, flatMap_cons, hg.closes (closes_piece op).1]
    exact ⟨_, .term hl' hr' hop, hsame.binOp hsame'⟩
  | sumOf _ ih => exact ih.imp fun e' h => ⟨.sumOf h.1, h.2⟩
  | @sum _ _ _ _ op _ _ hop ihl ihr =>
    obtain ⟨l', hl', hsame⟩ := ihl
    obtain ⟨r', hr', hsame'⟩ := ihr
    rw [flatMap_append, flatMap_cons, hg.closes (closes_piece op).1]
    exact ⟨_, .sum hl' hr' hop, hsame.binOp hsame'⟩
  | argumentsOf _ ih => exact ih.imp fun e' h => ⟨.argumentsOf h.1, h.2⟩
  | comma _ _ ihl ihr =>
    obtain ⟨l', hl', hsame⟩ := ihl
    obtain ⟨r', hr', hsame'⟩ := ihr
    rw [flatMap_append, flatMap_cons, hg.other [','] (by decide)]
    exact ⟨_, .comma hl' hr', hsame.comma hsame'⟩
  | blankBefore hp _ ih =>
    obtain ⟨e', he', hsame⟩ := ih
    rw [flatMap_cons, hg.closes hp.closes.1]
    exact ⟨e', .blankBefore hp he', hsame⟩
  | blankAfter hp _ ih =>
    obtain ⟨e', he', hsame⟩ := ih
    rw [flatMap_append, flatMap_singleton, hg.closes hp.closes.1]
    exact ⟨e', .blankAfter hp he', hsame⟩

end Replaced

end DimText

end HpcAgentBench
