import HpcAgentBench.Lib.Json

/-!
# Texts of integer expressions

Python's text of an integer expression over names, decimal literals, `+`, `-`, `*`, `//`, `%`, `**`
and signs: the tokens, the grammar of `ast.parse` and the text that `ast.unparse` writes.

## Main results

* `lex_unparse` : the text of an expression has the expected tokens.
* `parse_unparse` : the text is read back as the expression with its negative literals as signed
  ones (`reread`), except that a negative literal as the base of a power is read as the negated
  power.
-/

namespace HpcAgentBench

open List Option

namespace ArithText

/-! ### Words and tokens -/

/-- Letters, digits and the underscore. -/
def isWord (c : Char) : Bool := c.isAlphanum || c == '_'

/-- Python's keywords. -/
def keywords : List String :=
  ["False", "None", "True", "and", "as", "assert", "async", "await", "break", "class", "continue",
    "def", "del", "elif", "else", "except", "finally", "for", "from", "global", "if", "import",
    "in", "is", "lambda", "nonlocal", "not", "or", "pass", "raise", "return", "try", "while",
    "with", "yield"]

/-- A name: a word that does not start with a digit and is no keyword. -/
def isName (w : List Char) : Bool :=
  w.all isWord && (w.head?.any fun c => !c.isDigit) && !keywords.contains (String.ofList w)

/-- A name. -/
structure Ident where
  chars : List Char
  valid : isName chars = true
  deriving DecidableEq

inductive Token
  | num (n : ℕ)
  | name (id : Ident)
  | plus
  | minus
  | star
  | floorDiv
  | percent
  | starStar
  | lpar
  | rpar
  deriving DecidableEq

/-- A decimal literal has no leading zeros, unless it is zero. -/
def isNumber (w : List Char) : Bool :=
  w.all Char.isDigit && (w.head? != some '0' || w.all (· == '0'))

/-- The token of a word. -/
def word (w : List Char) : Option Token :=
  if isNumber w = true then some (.num (Nat.ofDigitChars 10 w 0))
  else if h : isName w = true then some (.name ⟨w, h⟩)
  else none

/-- What is read but not yet a token: a word, or the first character of an operator of two. -/
inductive Pending
  | word (w : List Char)
  | star
  | slash

/-- The tokens of a word that has ended. -/
def flush (w : List Char) : Option (List Token) :=
  if w = [] then some [] else (word w).map fun t => [t]

/-- A character at the start of a token. -/
def start (c : Char) : Option (List Token × Pending) :=
  if isWord c = true then some ([], .word [c])
  else match c with
    | ' ' => some ([], .word [])
    | '\t' => some ([], .word [])
    | '+' => some ([.plus], .word [])
    | '-' => some ([.minus], .word [])
    | '*' => some ([], .star)
    | '/' => some ([], .slash)
    | '%' => some ([.percent], .word [])
    | '(' => some ([.lpar], .word [])
    | ')' => some ([.rpar], .word [])
    | _ => none

/-- The tokens that a character completes. -/
def step (pending : Pending) (c : Char) : Option (List Token × Pending) :=
  match pending with
  | .word w =>
    if isWord c = true then some ([], .word (w ++ [c]))
    else (flush w).bind fun ts => (start c).map fun r => (ts ++ r.1, r.2)
  | .star =>
    if c = '*' then some ([.starStar], .word [])
    else (start c).map fun r => (.star :: r.1, r.2)
  | .slash => if c = '/' then some ([.floorDiv], .word []) else none

/-- The tokens at the end of the text. -/
def close : Pending → Option (List Token)
  | .word w => flush w
  | .star => some [.star]
  | .slash => none

def lexGo : Pending → List Char → Option (List Token)
  | pending, [] => close pending
  | pending, c :: cs => (step pending c).bind fun r => (lexGo r.2 cs).map (r.1 ++ ·)

/-- The tokens of a text; an indented one is an error. -/
def lex (text : List Char) : Option (List Token) :=
  if text.head? = some ' ' ∨ text.head? = some '\t' then none else lexGo (.word []) text

/-! ### Expressions and their grammar -/

inductive Op
  | add
  | sub
  | mult
  | floorDiv
  | mod
  | pow
  deriving DecidableEq, Repr

/-- `ast.Constant`, `ast.Name`, `ast.UnaryOp` of a sign, `ast.BinOp`. -/
inductive Arith
  | const (value : ℤ)
  | name (id : Ident)
  | unary (negative : Bool) (operand : Arith)
  | binOp (op : Op) (left right : Arith)
  deriving DecidableEq

open Arith

/-- The rules of the grammar; a tail holds what is left of its operators. -/
inductive Rule
  | sum
  | sumTail (left : Arith)
  | term
  | termTail (left : Arith)
  | factor
  | power
  | atom

/-- The expression a rule reads, and the tokens after it.
`sum: sum ('+' | '-') term | term`, `term: term ('*' | '//' | '%') factor | factor`,
`factor: ('+' | '-') factor | power`, `power: atom '**' factor | atom`. -/
def parseRule : ℕ → Rule → List Token → Option (Arith × List Token)
  | 0, _, _ => none
  | n + 1, .sum, ts => (parseRule n .term ts).bind fun r => parseRule n (.sumTail r.1) r.2
  | n + 1, .sumTail l, .plus :: ts =>
    (parseRule n .term ts).bind fun r => parseRule n (.sumTail (binOp .add l r.1)) r.2
  | n + 1, .sumTail l, .minus :: ts =>
    (parseRule n .term ts).bind fun r => parseRule n (.sumTail (binOp .sub l r.1)) r.2
  | _ + 1, .sumTail l, ts => some (l, ts)
  | n + 1, .term, ts => (parseRule n .factor ts).bind fun r => parseRule n (.termTail r.1) r.2
  | n + 1, .termTail l, .star :: ts =>
    (parseRule n .factor ts).bind fun r => parseRule n (.termTail (binOp .mult l r.1)) r.2
  | n + 1, .termTail l, .floorDiv :: ts =>
    (parseRule n .factor ts).bind fun r => parseRule n (.termTail (binOp .floorDiv l r.1)) r.2
  | n + 1, .termTail l, .percent :: ts =>
    (parseRule n .factor ts).bind fun r => parseRule n (.termTail (binOp .mod l r.1)) r.2
  | _ + 1, .termTail l, ts => some (l, ts)
  | n + 1, .factor, .plus :: ts => (parseRule n .factor ts).map fun r => (unary false r.1, r.2)
  | n + 1, .factor, .minus :: ts => (parseRule n .factor ts).map fun r => (unary true r.1, r.2)
  | n + 1, .factor, ts => parseRule n .power ts
  | n + 1, .power, ts => (parseRule n .atom ts).bind fun r =>
    match r.2 with
    | .starStar :: ts => (parseRule n .factor ts).map fun q => (binOp .pow r.1 q.1, q.2)
    | ts => some (r.1, ts)
  | _ + 1, .atom, .num k :: ts => some (const k, ts)
  | _ + 1, .atom, .name id :: ts => some (.name id, ts)
  | n + 1, .atom, .lpar :: ts => (parseRule n .sum ts).bind fun r =>
    match r.2 with
    | .rpar :: ts => some (r.1, ts)
    | _ => none
  | _ + 1, .atom, _ => none

/-- The expression of a list of tokens; the bound on the calls is never met (`parse_unparse`). -/
def parseTokens (ts : List Token) : Option Arith :=
  (parseRule (8 * ts.length + 8) .sum ts).bind fun r => if r.2 = [] then some r.1 else none

/-- `ast.parse(text, mode="eval")`. -/
def parse (text : List Char) : Option Arith := (lex text).bind parseTokens

/-! ### `ast.unparse` -/

/-- The precedence levels of `ast.unparse`, from that of sums: `ARITH`, `TERM`, `FACTOR`, `POWER`,
`AWAIT`. -/
def Op.prec : Op → ℕ
  | add | sub => 0
  | mult | floorDiv | mod => 1
  | pow => 3

/-- The level of the left operand, one up for the power, which associates to the right. -/
def Op.leftPrec : Op → ℕ
  | pow => 4
  | op => op.prec

def Op.rightPrec : Op → ℕ
  | pow => 3
  | op => op.prec + 1

def Op.symbol : Op → List Char
  | add => ['+']
  | sub => ['-']
  | mult => ['*']
  | floorDiv => ['/', '/']
  | mod => ['%']
  | pow => ['*', '*']

/-- Parentheses where the context binds more tightly. -/
def parens (needed : Bool) (text : List Char) : List Char :=
  if needed = true then '(' :: (text ++ [')']) else text

/-- The text of a node in a context of a precedence. -/
def unparseAt : ℕ → Arith → List Char
  | _, const n => if n < 0 then '-' :: Nat.toDigits 10 n.natAbs else Nat.toDigits 10 n.natAbs
  | _, .name id => id.chars
  | p, unary negative e => parens (2 < p) ((if negative then '-' else '+') :: unparseAt 2 e)
  | p, binOp op l r => parens (op.prec < p)
      (unparseAt op.leftPrec l ++ ' ' :: (op.symbol ++ ' ' :: unparseAt op.rightPrec r))

/-- `ast.unparse`. -/
def unparse (e : Arith) : List Char := unparseAt 0 e

/-! ### The tokens of a text -/

def Op.token : Op → Token
  | add => .plus
  | sub => .minus
  | mult => .star
  | floorDiv => .floorDiv
  | mod => .percent
  | pow => .starStar

def parenTokens (needed : Bool) (ts : List Token) : List Token :=
  if needed = true then .lpar :: (ts ++ [.rpar]) else ts

/-- The tokens of the text of a node. -/
def tokensAt : ℕ → Arith → List Token
  | _, const n => if n < 0 then [.minus, .num n.natAbs] else [.num n.natAbs]
  | _, .name id => [.name id]
  | p, unary negative e =>
    parenTokens (2 < p) ((if negative then .minus else .plus) :: tokensAt 2 e)
  | p, binOp op l r =>
    parenTokens (op.prec < p) (tokensAt op.leftPrec l ++ op.token :: tokensAt op.rightPrec r)

/-- A text that does not go on with a word. -/
def Ends (rest : List Char) : Prop := ∀ c ∈ rest.head?, isWord c = false

theorem lexGo_cons (pending : Pending) (c : Char) (cs : List Char) :
    lexGo pending (c :: cs) = (step pending c).bind fun r => (lexGo r.2 cs).map (r.1 ++ ·) := rfl

variable {w rest : List Char} {c : Char} {text : List Char} {ts : List Token} {l : Arith} {k : ℕ}
variable {e : Arith} {op : Op} {r : Arith}

theorem lexGo_append {u : List Char} (h : ∀ c ∈ u, isWord c = true) :
    lexGo (.word w) (u ++ rest) = lexGo (.word (w ++ u)) rest := by
  induction u generalizing w with
  | nil => rw [nil_append, append_nil]
  | cons c u ih =>
    have hstep : step (.word w) c = some ([], .word (w ++ [c])) := if_pos (h c mem_cons_self)
    rw [cons_append, lexGo_cons, hstep, bind_some,
      ih fun d hd => h d (mem_cons_of_mem _ hd), append_assoc]
    exact map_id'

theorem lexGo_word {t : Token} (hne : w ≠ []) (h : ∀ c ∈ w, isWord c = true) (ht : word w = some t)
    (hrest : Ends rest) :
    lexGo (.word []) (w ++ rest) = (lexGo (.word []) rest).map (t :: ·) := by
  have hflush : flush w = some [t] := (if_neg hne).trans (congrArg (Option.map _) ht)
  rw [lexGo_append h, nil_append]
  cases rest with
  | nil => exact hflush
  | cons c rest =>
    have hc : isWord c = false := hrest c rfl
    have hstep : ∀ u ts, flush u = some ts →
        step (.word u) c = (start c).map fun r => (ts ++ r.1, r.2) := by
      intro u ts hu
      change (if isWord c = true then _ else (flush u).bind _) = _
      rw [if_neg (by rw [hc]; exact Bool.false_ne_true), hu, bind_some]
    rw [lexGo_cons, lexGo_cons, hstep w [t] hflush, hstep [] [] rfl]
    cases start c with
    | none => rfl
    | some r =>
      simp only [map_some, bind_some, Option.map_map]
      rfl

theorem isWord_of_isDigit (h : c.isDigit = true) : isWord c = true := by
  rw [isWord, Char.isAlphanum, h, Bool.or_true, Bool.true_or]

/-- The digits of a number are its token. -/
theorem word_toDigits (n : ℕ) : word (Nat.toDigits 10 n) = some (.num n) := by
  have hnumber : isNumber (Nat.toDigits 10 n) = true := by
    have hdigits : (Nat.toDigits 10 n).all Char.isDigit = true :=
      all_eq_true.2 fun c hc => Json.isDigit_of_mem_toDigits hc
    change (_ && _) = true
    rw [hdigits, Bool.true_and]
    by_cases hn : 0 < n
    · rw [bne_iff_ne.2 (Json.head_toDigits hn), Bool.true_or]
    · obtain rfl : n = 0 := by omega
      rfl
  refine (if_pos hnumber).trans ?_
  rw [Nat.ofDigitChars_toDigits (by decide) (by decide)]

theorem lexGo_digits (n : ℕ) (hrest : Ends rest) :
    lexGo (.word []) (Nat.toDigits 10 n ++ rest) = (lexGo (.word []) rest).map (.num n :: ·) :=
  lexGo_word Nat.toDigits_ne_nil (fun _ hc => isWord_of_isDigit (Json.isDigit_of_mem_toDigits hc))
    (word_toDigits n) hrest

theorem Ident.ne_nil (id : Ident) : id.chars ≠ [] := by
  intro h
  have hvalid := id.valid
  rw [isName, h] at hvalid
  simp at hvalid

theorem Ident.isWord_of_mem {id : Ident} (h : c ∈ id.chars) : isWord c = true := by
  have hvalid := id.valid
  rw [isName, Bool.and_eq_true, Bool.and_eq_true] at hvalid
  exact all_eq_true.1 hvalid.1.1 c h

theorem word_ident (id : Ident) : word id.chars = some (.name id) := by
  have hnumber : ¬ isNumber id.chars = true := by
    intro h
    have hvalid := id.valid
    rw [isName, Bool.and_eq_true, Bool.and_eq_true] at hvalid
    rw [isNumber, Bool.and_eq_true] at h
    cases hchars : id.chars with
    | nil => exact id.ne_nil hchars
    | cons c cs =>
      rw [hchars] at hvalid h
      have hdigit := all_eq_true.1 h.1 c mem_cons_self
      simp [hdigit] at hvalid
  rw [word, if_neg hnumber, dif_pos id.valid]

theorem lexGo_symbol (op : Op) (rest : List Char) :
    lexGo (.word []) (' ' :: (op.symbol ++ ' ' :: rest)) =
      (lexGo (.word []) rest).map (op.token :: ·) := by
  -- One map for each character that is read.
  have hthree : ∀ (x : Option (List Token)) (t : Token),
      ((x.map ([] ++ ·)).map ([t] ++ ·)).map ([] ++ ·) = x.map (t :: ·) := by
    intro x t
    cases x <;> rfl
  cases op with
  | add => exact hthree _ .plus
  | sub => exact hthree _ .minus
  | mod => exact hthree _ .percent
  | mult =>
    change (((lexGo (.word []) rest).map ([.star] ++ ·)).map ([] ++ ·)).map ([] ++ ·) = _
    cases lexGo (.word []) rest <;> rfl
  | floorDiv => exact map_id'.trans (hthree _ .floorDiv)
  | pow => exact map_id'.trans (hthree _ .starStar)

theorem lexGo_parens {needed : Bool} (h : ∀ rest, Ends rest →
      lexGo (.word []) (text ++ rest) = (lexGo (.word []) rest).map (ts ++ ·)) (hrest : Ends rest) :
    lexGo (.word []) (parens needed text ++ rest) =
      (lexGo (.word []) rest).map (parenTokens needed ts ++ ·) := by
  cases needed with
  | false => exact h rest hrest
  | true =>
    have hclose : lexGo (.word []) (')' :: rest) = (lexGo (.word []) rest).map (.rpar :: ·) := rfl
    have hopen : lexGo (.word []) (parens true text ++ rest) =
        (lexGo (.word []) (text ++ ')' :: rest)).map (.lpar :: ·) := by
      change lexGo (.word []) ('(' :: ((text ++ [')']) ++ rest)) = _
      rw [append_assoc]
      rfl
    have hends : Ends (')' :: rest) := by
      rintro c ⟨⟩
      rfl
    rw [hopen, h _ hends, hclose, Option.map_map, Option.map_map]
    cases lexGo (.word []) rest with
    | none => rfl
    | some ts' =>
      simp [parenTokens]

/-- **The text of a node is its tokens**, whatever follows. -/
theorem lexGo_unparseAt (e : Arith) : ∀ (p : ℕ) (rest : List Char), Ends rest →
    lexGo (.word []) (unparseAt p e ++ rest) = (lexGo (.word []) rest).map (tokensAt p e ++ ·) := by
  induction e with
  | const n =>
    intro p rest hrest
    by_cases hn : n < 0
    · rw [show unparseAt p (const n) = '-' :: Nat.toDigits 10 n.natAbs from if_pos hn,
        show tokensAt p (const n) = [.minus, .num n.natAbs] from if_pos hn]
      change (lexGo (.word []) (Nat.toDigits 10 n.natAbs ++ rest)).map (.minus :: ·) = _
      rw [lexGo_digits _ hrest, Option.map_map]
      rfl
    · rw [show unparseAt p (const n) = Nat.toDigits 10 n.natAbs from if_neg hn,
        show tokensAt p (const n) = [.num n.natAbs] from if_neg hn]
      exact lexGo_digits _ hrest
  | name id =>
    intro p rest hrest
    exact lexGo_word id.ne_nil (fun c hc => id.isWord_of_mem hc) (word_ident id) hrest
  | unary negative e ih =>
    intro p rest hrest
    refine lexGo_parens (fun rest hrest => ?_) hrest
    cases negative with
    | false =>
      change (lexGo (.word []) (unparseAt 2 e ++ rest)).map (.plus :: ·) = _
      rw [ih 2 rest hrest, Option.map_map]
      rfl
    | true =>
      change (lexGo (.word []) (unparseAt 2 e ++ rest)).map (.minus :: ·) = _
      rw [ih 2 rest hrest, Option.map_map]
      rfl
  | binOp op l r ihl ihr =>
    intro p rest hrest
    refine lexGo_parens (fun rest hrest => ?_) hrest
    rw [append_assoc, ihl _ _ (by rintro c ⟨⟩; rfl), cons_append, append_assoc,
      cons_append, lexGo_symbol, ihr _ _ hrest, Option.map_map, Option.map_map]
    cases lexGo (.word []) rest with
    | none => rfl
    | some ts => simp

/-- A text that starts with a character other than a blank. -/
def Unindented (text : List Char) : Prop := ∃ c cs, text = c :: cs ∧ c ≠ ' ' ∧ c ≠ '\t'

theorem unindented_word (hne : w ≠ []) (h : ∀ c ∈ w, isWord c = true) :
    Unindented w := by
  cases w with
  | nil => exact absurd rfl hne
  | cons c w =>
    have hc := h c mem_cons_self
    refine ⟨c, w, rfl, ?_, ?_⟩ <;> (rintro rfl; exact absurd hc (by decide))

theorem unindented_parens (needed : Bool) (h : Unindented text) :
    Unindented (parens needed text) := by
  cases needed with
  | false => exact h
  | true => exact ⟨'(', _, rfl, by decide, by decide⟩

theorem unindented_unparseAt (e : Arith) : ∀ p, Unindented (unparseAt p e) := by
  induction e with
  | const n =>
    intro p
    by_cases hn : n < 0
    · exact ⟨'-', _, if_pos hn, by decide, by decide⟩
    · rw [show unparseAt p (const n) = Nat.toDigits 10 n.natAbs from if_neg hn]
      exact unindented_word Nat.toDigits_ne_nil
        fun _ hc => isWord_of_isDigit (Json.isDigit_of_mem_toDigits hc)
  | name id => exact fun p => unindented_word id.ne_nil fun c hc => id.isWord_of_mem hc
  | unary negative e ih =>
    intro p
    refine unindented_parens _ ?_
    cases negative with
    | false => exact ⟨'+', _, rfl, by decide, by decide⟩
    | true => exact ⟨'-', _, rfl, by decide, by decide⟩
  | binOp op l r ihl ihr =>
    intro p
    obtain ⟨c, cs, hcs, hc⟩ := ihl op.leftPrec
    exact unindented_parens _ ⟨c, cs ++ _, by rw [hcs]; rfl, hc⟩

/-- The text of an expression has the expected tokens. -/
theorem lex_unparse (e : Arith) : lex (unparse e) = some (tokensAt 0 e) := by
  obtain ⟨c, cs, hcs, hspace, htab⟩ := unindented_unparseAt e 0
  have hnot : ¬ ((unparse e).head? = some ' ' ∨ (unparse e).head? = some '\t') := by
    rw [unparse, hcs, head?_cons, some_inj, some_inj]
    exact fun h => h.elim hspace htab
  have htokens := lexGo_unparseAt e 0 [] (fun c hc => by cases hc)
  rw [append_nil] at htokens
  rw [lex, if_neg hnot, unparse, htokens]
  exact congrArg some (append_nil _)

/-! ### The grammar read along a text -/

/-- A rule reads `e` and leaves `rest`, with every bound from `k` on. -/
def Reads (rule : Rule) (ts : List Token) (e : Arith) (rest : List Token) (k : ℕ) : Prop :=
  ∀ m, k ≤ m → parseRule m rule ts = some (e, rest)

/-- No operator of a precedence from `p` on follows. -/
def Stops (p : ℕ) (rest : List Token) : Prop :=
  ∀ op : Op, p ≤ op.prec → rest.head? ≠ some op.token

section Rules

variable {ts ts' rest : List Token} {e l r : Arith} {k k' : ℕ}
variable {rule : Rule} {op : Op}

theorem Stops.mono {p q : ℕ} (h : Stops p rest) (hpq : p ≤ q) : Stops q rest :=
  fun op hop => h op (hpq.trans hop)

/-- A rule with a bound of one more. -/
theorem Reads.succ (h : ∀ m, k ≤ m → parseRule (m + 1) rule ts = some (e, rest)) :
    Reads rule ts e rest (k + 1) := by
  intro m hm
  obtain ⟨m, rfl⟩ : ∃ m', m = m' + 1 := ⟨m - 1, by omega⟩
  exact h m (by omega)

theorem Reads.mono (h : Reads rule ts e rest k) (hk : k ≤ k') :
    Reads rule ts e rest k' :=
  fun m hm => h m (hk.trans hm)

theorem reads_num (n : ℕ) (rest : List Token) : Reads .atom (.num n :: rest) (const n) rest 1 :=
  .succ fun _ _ => rfl

theorem reads_name (id : Ident) (rest : List Token) :
    Reads .atom (.name id :: rest) (.name id) rest 1 :=
  .succ fun _ _ => rfl

theorem reads_parens (h : Reads .sum ts e (.rpar :: rest) k) :
    Reads .atom (.lpar :: ts) e rest (k + 1) := by
  refine .succ fun m hm => ?_
  change (parseRule m .sum ts).bind _ = _
  rw [h m hm]
  rfl

theorem reads_power (h : Reads .atom ts e rest k) (hrest : Stops 3 rest) :
    Reads .power ts e rest (k + 1) := by
  refine .succ fun m hm => ?_
  change (parseRule m .atom ts).bind _ = _
  rw [h m hm, bind_some]
  split
  · rename_i htail
    dsimp only at htail
    exact absurd (congrArg List.head? htail) (hrest .pow le_rfl)
  · rfl

theorem reads_pow (hl : Reads .atom ts l (.starStar :: ts') k)
    (hr : Reads .factor ts' r rest k') :
    Reads .power ts (binOp .pow l r) rest (max k k' + 1) := by
  refine .succ fun m hm => ?_
  change (parseRule m .atom ts).bind _ = _
  rw [hl m (by omega), bind_some]
  change (parseRule m .factor ts').map _ = _
  rw [hr m (by omega)]
  rfl

theorem reads_sign (negative : Bool) (h : Reads .factor ts e rest k) :
    Reads .factor ((if negative then .minus else .plus) :: ts) (unary negative e) rest (k + 1) := by
  refine .succ fun m hm => ?_
  cases negative with
  | false | true =>
    change (parseRule m .factor ts).map _ = _
    rw [h m hm]
    rfl

/-- No atom starts with a sign. -/
theorem Reads.not_sign (h : Reads .atom ts e rest k) :
    ts.head? ≠ some .plus ∧ ts.head? ≠ some .minus := by
  have hread := h (k + 1) (Nat.le_succ k)
  rcases ts with _ | ⟨t, ts⟩
  · cases hread
  · constructor <;>
    · rintro ⟨⟩
      cases hread

theorem reads_factor (h : Reads .power ts e rest k)
    (hsign : ts.head? ≠ some .plus ∧ ts.head? ≠ some .minus) :
    Reads .factor ts e rest (k + 1) := by
  refine .succ fun m hm => ?_
  rcases ts with _ | ⟨t, ts⟩
  · exact h m hm
  · cases t with
    | plus => exact absurd rfl hsign.1
    | minus => exact absurd rfl hsign.2
    | _ => exact h m hm

theorem reads_term (hl : Reads .factor ts l ts' k) (h : Reads (.termTail l) ts' e rest k') :
    Reads .term ts e rest (max k k' + 1) := by
  refine .succ fun m hm => ?_
  change (parseRule m .factor ts).bind _ = _
  rw [hl m (by omega), bind_some, h m (by omega)]

theorem reads_termTail (hop : op.prec = 1) (hr : Reads .factor ts r ts' k)
    (h : Reads (.termTail (binOp op l r)) ts' e rest k') :
    Reads (.termTail l) (op.token :: ts) e rest (max k k' + 1) := by
  refine .succ fun m hm => ?_
  cases op with
  | mult | floorDiv | mod =>
    change (parseRule m .factor ts).bind _ = _
    rw [hr m (by omega), bind_some, h m (by omega)]
  | add | sub | pow => cases hop

theorem reads_termTail_end (hrest : Stops 1 rest) : Reads (.termTail l) rest l rest 1 := by
  refine .succ fun m _ => ?_
  rcases rest with _ | ⟨t, rest⟩
  · rfl
  · cases t with
    | star => exact absurd rfl (hrest .mult le_rfl)
    | floorDiv => exact absurd rfl (hrest .floorDiv le_rfl)
    | percent => exact absurd rfl (hrest .mod le_rfl)
    | _ => rfl

theorem reads_sum (hl : Reads .term ts l ts' k) (h : Reads (.sumTail l) ts' e rest k') :
    Reads .sum ts e rest (max k k' + 1) := by
  refine .succ fun m hm => ?_
  change (parseRule m .term ts).bind _ = _
  rw [hl m (by omega), bind_some, h m (by omega)]

theorem reads_sumTail (hop : op.prec = 0) (hr : Reads .term ts r ts' k)
    (h : Reads (.sumTail (binOp op l r)) ts' e rest k') :
    Reads (.sumTail l) (op.token :: ts) e rest (max k k' + 1) := by
  refine .succ fun m hm => ?_
  cases op with
  | add | sub =>
    change (parseRule m .term ts).bind _ = _
    rw [hr m (by omega), bind_some, h m (by omega)]
  | mult | floorDiv | mod | pow => cases hop

theorem reads_sumTail_end (hrest : Stops 0 rest) : Reads (.sumTail l) rest l rest 1 := by
  refine .succ fun m _ => ?_
  rcases rest with _ | ⟨t, rest⟩
  · rfl
  · cases t with
    | plus => exact absurd rfl (hrest .add le_rfl)
    | minus => exact absurd rfl (hrest .sub le_rfl)
    | _ => rfl

end Rules

/-! ### What a text is read as -/

/-- A negative literal. -/
def negLiteral : Arith → Option ℕ
  | const n => if n < 0 then some n.natAbs else none
  | _ => none

/-- A power with a negative literal as its base is read as the negated power. -/
def rereadBinOp (op : Op) (l l' r' : Arith) : Arith :=
  match op with
  | .pow => match negLiteral l with
    | some k => unary true (binOp .pow (const k) r')
    | none => binOp .pow l' r'
  | op => binOp op l' r'

theorem rereadBinOp_pow_of_none (l' r' : Arith) (h : negLiteral l = none) :
    rereadBinOp .pow l l' r' = binOp .pow l' r' := by
  change (match negLiteral l with
    | some k => unary true (binOp .pow (const k) r')
    | none => binOp .pow l' r') = _
  rw [h]

theorem rereadBinOp_pow_of_some (l' r' : Arith) (h : negLiteral l = some k) :
    rereadBinOp .pow l l' r' = unary true (binOp .pow (const k) r') := by
  change (match negLiteral l with
    | some k => unary true (binOp .pow (const k) r')
    | none => binOp .pow l' r') = _
  rw [h]

/-- A negative literal and its absolute value. -/
theorem negLiteral_eq_some (h : negLiteral e = some k) :
    e = const (-k) ∧ 0 < k := by
  cases e with
  | const n =>
    by_cases hn : n < 0
    · obtain rfl : n.natAbs = k := Option.some.inj ((if_pos hn).symm.trans h)
      exact ⟨congrArg const (by omega), by omega⟩
    · exact nomatch (if_neg hn).symm.trans h
  | _ => cases h

/-- The expression that the text of an expression is read as: a negative literal is a signed one,
and binds less tightly than a power. -/
def reread : Arith → Arith
  | const n => if n < 0 then unary true (const n.natAbs) else const n
  | .name id => .name id
  | unary negative e => unary negative (reread e)
  | binOp op l r => rereadBinOp op l (reread l) (reread r)

/-- The tokens `ts` are read as `e` where a factor, a term or a sum stands, whatever may follow. -/
def ReadsFactor (ts : List Token) (e : Arith) : Prop :=
  ∀ rest, Stops 3 rest → Reads .factor (ts ++ rest) e rest (8 * ts.length + 2)

def ReadsTerm (ts : List Token) (e : Arith) : Prop :=
  ∀ rest e' rest' k, Stops 3 rest → Reads (.termTail e) rest e' rest' k →
    Reads .term (ts ++ rest) e' rest' (8 * ts.length + 3 + k)

def ReadsSum (ts : List Token) (e : Arith) : Prop :=
  ∀ rest e' rest' k, Stops 1 rest → Reads (.sumTail e) rest e' rest' k →
    Reads .sum (ts ++ rest) e' rest' (8 * ts.length + 5 + k)

section Lift

variable {ts : List Token} {e : Arith}

theorem ReadsFactor.of_atom (h : ∀ rest, Reads .atom (ts ++ rest) e rest (8 * ts.length)) :
    ReadsFactor ts e := fun rest hrest =>
  reads_factor (reads_power (h rest) hrest) (h rest).not_sign

theorem ReadsFactor.term (h : ReadsFactor ts e) : ReadsTerm ts e := fun rest _ _ _ hrest htail =>
  (reads_term (h rest hrest) htail).mono (by omega)

theorem ReadsTerm.sum (h : ReadsTerm ts e) : ReadsSum ts e := fun rest _ _ _ hrest htail =>
  (reads_sum (h rest e rest 1 (hrest.mono (by decide)) (reads_termTail_end hrest)) htail).mono
    (by omega)

/-- A parenthesised sum is an atom. -/
theorem ReadsSum.parens (h : ReadsSum ts e) (rest : List Token) :
    Reads .atom (parenTokens true ts ++ rest) e rest (8 * (parenTokens true ts).length) := by
  have hstop : ∀ p, Stops p (.rpar :: rest) := fun _ op _ => by
    cases op <;> exact fun h => by cases h
  have hsum := h (.rpar :: rest) e (.rpar :: rest) 1 (hstop 1) (reads_sumTail_end (hstop 0))
  have htokens : parenTokens true ts ++ rest = .lpar :: (ts ++ .rpar :: rest) := by
    change .lpar :: ((ts ++ [.rpar]) ++ rest) = _
    rw [append_assoc]
    rfl
  have hlength : (parenTokens true ts).length = ts.length + 2 := by
    change ((.lpar : Token) :: (ts ++ [.rpar])).length = _
    rw [length_cons, length_append]
    rfl
  rw [htokens, hlength]
  exact (reads_parens hsum).mono (by omega)

end Lift

/-- What is read of the tokens of a node in a context of each precedence. -/
structure Readable (e : Arith) : Prop where
  atom : negLiteral e = none → ∀ rest,
    Reads .atom (tokensAt 4 e ++ rest) (reread e) rest (8 * (tokensAt 4 e).length)
  factor : ∀ p, 2 ≤ p → ReadsFactor (tokensAt p e) (reread e)
  term : ∀ p, 1 ≤ p → ReadsTerm (tokensAt p e) (reread e)
  sum : ∀ p, ReadsSum (tokensAt p e) (reread e)

/-- A node with the same tokens in every context, which are an atom. -/
theorem Readable.of_atom (hts : ∀ p, tokensAt p e = ts)
    (h : ∀ rest, Reads .atom (ts ++ rest) (reread e) rest (8 * ts.length)) : Readable e where
  atom _ := by rwa [hts]
  factor p _ := by rw [hts]; exact .of_atom h
  term p _ := by rw [hts]; exact (ReadsFactor.of_atom h).term
  sum p := by rw [hts]; exact (ReadsFactor.of_atom h).term.sum

/-- A node of precedence `q` that is parenthesised where the context binds more tightly. -/
theorem Readable.of_body {q : ℕ} (hq : q < 4) (hts : ∀ p, tokensAt p e = parenTokens (q < p) ts)
    (hsum : ReadsSum ts (reread e)) (hterm : 1 ≤ q → ReadsTerm ts (reread e))
    (hfactor : 2 ≤ q → ReadsFactor ts (reread e)) :
    Readable e := by
  have hparens : ∀ p, q < p → tokensAt p e = parenTokens true ts := by
    intro p hp
    rw [hts, decide_eq_true hp]
  have hbare : ∀ p, ¬ q < p → tokensAt p e = ts := by
    intro p hp
    rw [hts, decide_eq_false hp]
    rfl
  refine ⟨fun _ => ?_, fun p hp => ?_, fun p hp => ?_, fun p => ?_⟩
  · rw [hparens 4 hq]
    exact hsum.parens
  · by_cases hqp : q < p
    · rw [hparens p hqp]
      exact .of_atom hsum.parens
    · rw [hbare p hqp]
      exact hfactor (by omega)
  · by_cases hqp : q < p
    · rw [hparens p hqp]
      exact (ReadsFactor.of_atom hsum.parens).term
    · rw [hbare p hqp]
      exact hterm (by omega)
  · by_cases hqp : q < p
    · rw [hparens p hqp]
      exact (ReadsFactor.of_atom hsum.parens).term.sum
    · rw [hbare p hqp]
      exact hsum

theorem stops_token {p : ℕ} (h : op.prec < p) (ts : List Token) :
    Stops p (op.token :: ts) := by
  intro op' hop' heq
  have : op' = op := by
    cases op <;> cases op' <;> first | rfl | cases heq
  subst this
  omega

theorem readsFactor_minus (negative : Bool) (h : ReadsFactor ts e) :
    ReadsFactor ((if negative then .minus else .plus) :: ts) (unary negative e) := fun rest hrest =>
  (reads_sign negative (h rest hrest)).mono (by rw [length_cons]; omega)

theorem readable_const (n : ℤ) : Readable (const n) := by
  by_cases hn : n < 0
  · have hts : ∀ p, tokensAt p (const n) = [.minus, .num n.natAbs] := fun p => if_pos hn
    have hread : reread (const n) = unary true (const n.natAbs) := if_pos hn
    have hfactor : ReadsFactor [.minus, .num n.natAbs] (reread (const n)) := by
      rw [hread]
      exact readsFactor_minus true
        (.of_atom fun rest => (reads_num n.natAbs rest).mono (Nat.le_add_left 1 7))
    refine ⟨fun h => ?_, fun p _ => ?_, fun p _ => ?_, fun p => ?_⟩
    · exact nomatch (if_pos hn).symm.trans h
    · rw [hts]; exact hfactor
    · rw [hts]; exact hfactor.term
    · rw [hts]; exact hfactor.term.sum
  · have hread : reread (const n) = const n.natAbs := by
      rw [Int.natAbs_of_nonneg (by omega)]
      exact if_neg hn
    refine .of_atom (fun p => if_neg hn) fun rest => ?_
    rw [hread]
    exact (reads_num n.natAbs rest).mono (Nat.le_add_left 1 7)

theorem readable_unary {negative : Bool} (h : Readable e) :
    Readable (unary negative e) := by
  have hfactor := readsFactor_minus negative (h.factor 2 le_rfl)
  exact .of_body (q := 2) (by decide) (fun p => rfl) hfactor.term.sum (fun _ => hfactor.term)
    fun _ => hfactor

/-- A power is a factor. -/
theorem readsFactor_pow (hl : Readable l) (hr : Readable r) :
    ReadsFactor (tokensAt 4 l ++ .starStar :: tokensAt 3 r) (reread (binOp .pow l r)) := by
  intro rest hrest
  have hright := hr.factor 3 (by decide) rest hrest
  rw [append_assoc, cons_append]
  cases hneg : negLiteral l with
  | none =>
    have hread : reread (binOp .pow l r) = binOp .pow (reread l) (reread r) :=
      rereadBinOp_pow_of_none _ _ hneg
    have hleft := hl.atom hneg (.starStar :: (tokensAt 3 r ++ rest))
    rw [hread]
    refine (reads_factor (reads_pow hleft hright) hleft.not_sign).mono ?_
    rw [length_append, length_cons]
    omega
  | some k =>
    -- The sign is read first, and the power after it.
    have hread : reread (binOp .pow l r) = unary true (binOp .pow (const k) (reread r)) :=
      rereadBinOp_pow_of_some _ _ hneg
    have hts : tokensAt 4 l = [.minus, .num k] := by
      obtain ⟨rfl, hpos⟩ := negLiteral_eq_some hneg
      exact (if_pos (by omega)).trans (by rw [Int.natAbs_neg, Int.natAbs_natCast])
    rw [hread, hts]
    refine (reads_sign true (reads_factor (reads_pow (reads_num k _) hright)
      ⟨by rintro ⟨⟩, by rintro ⟨⟩⟩)).mono ?_
    rw [length_append, length_cons]
    simp only [length_cons, length_nil]
    omega

/-- A product is a term. -/
theorem readsTerm_binOp (hop : op.prec = 1) (hl : Readable l) (hr : Readable r) :
    ReadsTerm (tokensAt op.leftPrec l ++ op.token :: tokensAt op.rightPrec r)
      (reread (binOp op l r)) := by
  have hread : reread (binOp op l r) = binOp op (reread l) (reread r) := by
    cases op <;> first | rfl | cases hop
  have hleft : op.leftPrec = 1 := by cases op <;> first | rfl | cases hop
  have hright : op.rightPrec = 2 := by cases op <;> first | rfl | cases hop
  intro rest e' rest' k hrest htail
  rw [hread] at htail
  rw [hleft, hright, append_assoc, cons_append]
  have htail' := reads_termTail hop (hr.factor 2 le_rfl rest hrest) htail
  refine (hl.term 1 le_rfl _ _ _ _ (stops_token (by omega) _) htail').mono ?_
  rw [length_append, length_cons]
  omega

/-- A sum. -/
theorem readsSum_binOp (hop : op.prec = 0) (hl : Readable l) (hr : Readable r) :
    ReadsSum (tokensAt op.leftPrec l ++ op.token :: tokensAt op.rightPrec r)
      (reread (binOp op l r)) := by
  have hread : reread (binOp op l r) = binOp op (reread l) (reread r) := by
    cases op <;> first | rfl | cases hop
  have hleft : op.leftPrec = 0 := by cases op <;> first | rfl | cases hop
  have hright : op.rightPrec = 1 := by cases op <;> first | rfl | cases hop
  intro rest e' rest' k hrest htail
  rw [hread] at htail
  rw [hleft, hright, append_assoc, cons_append]
  have hterm := hr.term 1 le_rfl rest _ _ _ (hrest.mono (by decide)) (reads_termTail_end hrest)
  refine (hl.sum 0 _ _ _ _ (stops_token (by omega) _) (reads_sumTail hop hterm htail)).mono ?_
  rw [length_append, length_cons]
  omega

theorem readable_binOp (hl : Readable l) (hr : Readable r) :
    Readable (binOp op l r) := by
  have hprec : op.prec = 0 ∨ op.prec = 1 ∨ op = .pow := by
    cases op <;> simp [Op.prec]
  rcases hprec with hop | hop | rfl
  · exact .of_body (q := op.prec) (by omega) (fun p => rfl) (readsSum_binOp hop hl hr)
      (fun h => by omega) fun h => by omega
  · have hterm := readsTerm_binOp hop hl hr
    exact .of_body (q := op.prec) (by omega) (fun p => rfl) hterm.sum (fun _ => hterm)
      fun h => by omega
  · have hfactor := readsFactor_pow hl hr
    exact .of_body (q := 3) (by decide) (fun p => rfl) hfactor.term.sum (fun _ => hfactor.term)
      fun _ => hfactor

theorem readable (e : Arith) : Readable e := by
  induction e with
  | const n => exact readable_const n
  | name id =>
    exact .of_atom (fun p => rfl) fun rest => (reads_name id rest).mono (Nat.le_add_left 1 7)
  | unary negative e ih => exact readable_unary ih
  | binOp op l r ihl ihr => exact readable_binOp ihl ihr

/-- **The text of an expression is read back**, up to its negative literals. -/
theorem parse_unparse (e : Arith) : parse (unparse e) = some (reread e) := by
  have hend : ∀ p, Stops p [] := by rintro p op - ⟨⟩
  have hsum := (readable e).sum 0 [] _ _ 1 (hend 1) (reads_sumTail_end (hend 0))
  rw [append_nil] at hsum
  change (lex (unparse e)).bind parseTokens = _
  rw [lex_unparse, bind_some]
  change (parseRule (8 * (tokensAt 0 e).length + 8) .sum (tokensAt 0 e)).bind _ = _
  rw [hsum _ (by omega), bind_some]
  exact if_pos rfl

end ArithText

end HpcAgentBench
