import HpcAgentBench.Lib.Python
import Mathlib.Data.List.GetD
import Mathlib.Data.List.Infix
import Mathlib.Tactic.IntervalCases

/-!
# JSON texts

The texts `json.dumps` writes with `ensure_ascii`, for strings, integers and objects of these, and
`json.loads`, which reads any JSON text.  A text is a list of characters.

## Main results

* `scanString_dumpsStr`, `scanValue_dumps` : a dumped string or integer is read back, whatever
  follows it.
* `loads_dumpsObj` : a dumped object is read back.
* `loads_of_prefix` : no proper prefix of a dumped object is a JSON text.
* `dumpsObj_printable` : a dumped object has printable ASCII characters only.
-/

namespace HpcAgentBench

open List Option

namespace Json

/-- A JSON value as `json.loads` returns it. -/
inductive Value
  | null
  | bool (b : Bool)
  | int (i : ℤ)
  /-- A number with a fraction or an exponent, or one of the three named numbers, by its text. -/
  | float (text : List Char)
  | str (s : String)
  | arr (items : List Value)
  /-- A `dict`, in insertion order. -/
  | obj (members : List (String × Value))
  deriving Repr

/-! ### Dumping -/

def hexDigit (n : ℕ) : Char := "0123456789abcdef".toList.getD n '0'

/-- `'{0:04x}'`. -/
def hex4 (n : ℕ) : List Char :=
  [hexDigit (n / 4096 % 16), hexDigit (n / 256 % 16), hexDigit (n / 16 % 16), hexDigit (n % 16)]

/-- The code units of a character: itself, or its surrogate pair. -/
def units (c : Char) : List ℕ :=
  if c.toNat < 0x10000 then [c.toNat]
  else [0xd800 + (c.toNat - 0x10000) / 1024, 0xdc00 + (c.toNat - 0x10000) % 1024]

/-- A character that stands for itself in a dumped string. -/
def plain (c : Char) : Bool := 0x20 ≤ c.toNat && c.toNat ≤ 0x7e && c ≠ '"' && c ≠ '\\'

/-- `ESCAPE_DCT`: the characters with an escape of their own. -/
def shortEscapes : List (Char × Char) :=
  [('\\', '\\'), ('"', '"'), ('\x08', 'b'), ('\x0c', 'f'), ('\n', 'n'), ('\r', 'r'), ('\t', 't')]

def encodeChar (c : Char) : List Char :=
  if plain c then [c]
  else match shortEscapes.lookup c with
    | some e => ['\\', e]
    | none => (units c).flatMap fun u => '\\' :: 'u' :: hex4 u

/-- The characters of a dumped string after its opening quote. -/
def dumpsTail (s : String) : List Char := s.toList.flatMap encodeChar ++ ['"']

/-- `json.dumps` of a `str`. -/
def dumpsStr (s : String) : List Char := '"' :: dumpsTail s

/-- `json.dumps` of an `int`. -/
def dumpsInt (i : ℤ) : List Char :=
  if i < 0 then '-' :: Nat.toDigits 10 i.natAbs else Nat.toDigits 10 i.natAbs

/-- The values the dumped objects here have. -/
inductive Scalar
  | int (i : ℤ)
  | str (s : String)
  deriving DecidableEq, Repr

def Scalar.toValue : Scalar → Value
  | .int i => .int i
  | .str s => .str s

def Scalar.dumps : Scalar → List Char
  | .int i => dumpsInt i
  | .str s => dumpsStr s

/-- The members of a dumped object from after the first key's quote to the closing brace. -/
def dumpsMembers : String × Scalar → List (String × Scalar) → List Char
  | (key, v), [] => dumpsTail key ++ ':' :: ' ' :: (v.dumps ++ ['\x7d'])
  | (key, v), next :: rest =>
    dumpsTail key ++ ':' :: ' ' :: (v.dumps ++ ',' :: ' ' :: '"' :: dumpsMembers next rest)

/-- `json.dumps` of a `dict` with at least one item. -/
def dumpsObj (first : String × Scalar) (rest : List (String × Scalar)) : List Char :=
  '\x7b' :: '"' :: dumpsMembers first rest

/-! ### Loading -/

def isWhitespace (c : Char) : Bool := c = ' ' || c = '\t' || c = '\n' || c = '\r'

def skipWhitespace (s : List Char) : List Char := s.dropWhile isWhitespace

def hexVal (c : Char) : Option ℕ :=
  let n := c.toNat
  if 0x30 ≤ n ∧ n ≤ 0x39 then some (n - 0x30)
  else if 0x61 ≤ n ∧ n ≤ 0x66 then some (n - 0x61 + 10)
  else if 0x41 ≤ n ∧ n ≤ 0x46 then some (n - 0x41 + 10)
  else none

/-- `_decode_uXXXX`. -/
def decodeHex4 (a b c d : Char) : Option ℕ := do
  let a ← hexVal a
  let b ← hexVal b
  let c ← hexVal c
  let d ← hexVal d
  some (a * 4096 + b * 256 + c * 16 + d)

/-- `BACKSLASH`. -/
def backslash (c : Char) : Option Char :=
  if c = '/' then some '/' else (shortEscapes.find? (·.2 = c)).map (·.1)

/-- `scanstring` after the opening quote: the code units up to the closing quote, and what
follows it. -/
def scanUnits : List Char → Option (List ℕ × List Char)
  | [] => none
  | '"' :: s => some ([], s)
  | '\\' :: 'u' :: a :: b :: c :: d :: s => do
    let u ← decodeHex4 a b c d
    let (us, r) ← scanUnits s
    some (u :: us, r)
  | '\\' :: e :: s => do
    let c ← backslash e
    let (us, r) ← scanUnits s
    some (c.toNat :: us, r)
  | c :: s =>
    -- a raw control character is refused
    if c = '\\' ∨ c.toNat < 0x20 then none
    else do
      let (us, r) ← scanUnits s
      some (c.toNat :: us, r)

/-- The characters of code units; a surrogate without its partner is refused. -/
def joinUnits : List ℕ → Option (List Char)
  | [] => some []
  | u :: us =>
    if 0xd800 ≤ u ∧ u < 0xdc00 then
      match us with
      | lo :: us =>
        if 0xdc00 ≤ lo ∧ lo < 0xe000 then
          (joinUnits us).map (Char.ofNat (0x10000 + (u - 0xd800) * 1024 + (lo - 0xdc00)) :: ·)
        else none
      | [] => none
    else if 0xdc00 ≤ u ∧ u < 0xe000 then none
    else (joinUnits us).map (Char.ofNat u :: ·)

def scanString (s : List Char) : Option (String × List Char) := do
  let (us, r) ← scanUnits s
  let cs ← joinUnits us
  some (String.ofList cs, r)

/-- The fraction of a number, if one follows. -/
def scanFraction (s : List Char) : List Char × List Char :=
  match s with
  | '.' :: t =>
    match t.span Char.isDigit with
    | ([], _) => ([], s)
    | (ds, r) => ('.' :: ds, r)
  | _ => ([], s)

def scanExponentSign : List Char → List Char × List Char
  | '+' :: t => (['+'], t)
  | '-' :: t => (['-'], t)
  | t => ([], t)

/-- The exponent of a number, if one follows. -/
def scanExponent (s : List Char) : List Char × List Char :=
  match s with
  | e :: t =>
    if e = 'e' ∨ e = 'E' then
      match (scanExponentSign t).2.span Char.isDigit with
      | ([], _) => ([], s)
      | (ds, r) => (e :: (scanExponentSign t).1 ++ ds, r)
    else ([], s)
  | [] => ([], s)

/-- The sign of a number, if it has one. -/
def scanSign : List Char → List Char × List Char
  | '-' :: t => (['-'], t)
  | t => ([], t)

/-- The digits before a number's fraction; a leading zero is a number of its own. -/
def scanDigits : List Char → List Char × List Char
  | '0' :: r => (['0'], r)
  | t => t.span Char.isDigit

/-- The integer of a sign and its digits. -/
def signed (sign ds : List Char) : ℤ :=
  if sign = [] then Nat.ofDigitChars 10 ds 0 else -Nat.ofDigitChars 10 ds 0

/-- `NUMBER_RE`. -/
def scanNumber (s : List Char) : Option (Value × List Char) :=
  let (sign, t) := scanSign s
  let (ds, r) := scanDigits t
  let (fraction, r) := scanFraction r
  let (exponent, r) := scanExponent r
  if ds = [] then none
  else if fraction = [] ∧ exponent = [] then some (.int (signed sign ds), r)
  else some (.float (sign ++ ds ++ fraction ++ exponent), r)

/-- A word at the start of a text, and what follows it. -/
def scanWord (word : String) (v : Value) (s : List Char) : Option (Value × List Char) :=
  (s.dropPrefix? word.toList).map fun r => (v, r)

/-- The values that are neither strings nor containers. -/
def scanScalar (s : List Char) : Option (Value × List Char) :=
  scanWord "null" .null s <|> scanWord "true" (.bool true) s <|>
    scanWord "false" (.bool false) s <|> scanNumber s <|>
    scanWord "NaN" (.float "NaN".toList) s <|> scanWord "Infinity" (.float "Infinity".toList) s <|>
    scanWord "-Infinity" (.float "-Infinity".toList) s

/-- A `dict` of the members read, in order: a repeated key keeps its place and takes the last
value. -/
def toDict (members : List (String × Value)) : List (String × Value) :=
  members.foldl (fun d m => setItem d m.1 m.2) []

mutual

/-- `scan_once`: one value at the start of a text, and what follows it.  Every call consumes a
character, so a fuel above the length of the text does not run out. -/
def scanValue : ℕ → List Char → Option (Value × List Char)
  | 0, _ => none
  | _ + 1, '"' :: s => (scanString s).map fun (t, r) => (.str t, r)
  | n + 1, '\x7b' :: s =>
    match skipWhitespace s with
    | '\x7d' :: r => some (.obj [], r)
    | '"' :: s => (scanMembers n s).map fun (members, r) => (.obj (toDict members), r)
    | _ => none
  | n + 1, '[' :: s =>
    match skipWhitespace s with
    | ']' :: r => some (.arr [], r)
    | s => (scanItems n s).map fun (items, r) => (.arr items, r)
  | _ + 1, s => scanScalar s

/-- `JSONObject` from after a key's opening quote. -/
def scanMembers : ℕ → List Char → Option (List (String × Value) × List Char)
  | 0, _ => none
  | n + 1, s => do
    let (key, s) ← scanString s
    match skipWhitespace s with
    | ':' :: s =>
      let (v, s) ← scanValue n (skipWhitespace s)
      match skipWhitespace s with
      | '\x7d' :: r => some ([(key, v)], r)
      | ',' :: s =>
        match skipWhitespace s with
        | '"' :: s => do
          let (members, r) ← scanMembers n s
          some ((key, v) :: members, r)
        | _ => none
      | _ => none
    | _ => none

/-- `JSONArray` from its next item. -/
def scanItems : ℕ → List Char → Option (List Value × List Char)
  | 0, _ => none
  | n + 1, s => do
    let (v, s) ← scanValue n s
    match skipWhitespace s with
    | ']' :: r => some ([v], r)
    | ',' :: s => do
      let (items, r) ← scanItems n (skipWhitespace s)
      some (v :: items, r)
    | _ => none

end

/-- `json.loads`, or `none` where it raises. -/
def loads (s : List Char) : Option Value := do
  let (v, r) ← scanValue (s.length + 1) (skipWhitespace s)
  if skipWhitespace r = [] then some v else none

/-! ### Characters -/

@[simp] theorem hexVal_hexDigit {n : ℕ} (h : n < 16) : hexVal (hexDigit n) = some n := by
  revert n
  decide

theorem decodeHex4_hex4 {n : ℕ} (h : n < 65536) :
    decodeHex4 (hexDigit (n / 4096 % 16)) (hexDigit (n / 256 % 16)) (hexDigit (n / 16 % 16))
      (hexDigit (n % 16)) = some n := by
  have hlt (m : ℕ) : m % 16 < 16 := Nat.mod_lt _ (by decide)
  simp only [decodeHex4, hexVal_hexDigit (hlt _), Option.bind_eq_bind, Option.bind_some,
    Option.some.injEq]
  omega

theorem units_lt {c : Char} {u : ℕ} (h : u ∈ units c) : u < 65536 := by
  have hc : c.toNat < 0x110000 := by
    rcases c.valid with hv | ⟨-, hv⟩
    · exact lt_trans hv (by decide)
    · exact hv
  unfold units at h
  split at h
  · simp only [List.mem_singleton] at h
    omega
  · simp only [List.mem_cons, List.not_mem_nil, or_false] at h
    omega

theorem scanUnits_unit {u : ℕ} (h : u < 65536) (s : List Char) :
    scanUnits ('\\' :: 'u' :: (hex4 u ++ s)) = (scanUnits s).map fun p => (u :: p.1, p.2) := by
  simp only [hex4, List.cons_append, List.nil_append, scanUnits, decodeHex4_hex4 h]
  cases scanUnits s <;> rfl

theorem scanUnits_flatMap {us : List ℕ} (h : ∀ u ∈ us, u < 65536) (s : List Char) :
    scanUnits ((us.flatMap fun u => '\\' :: 'u' :: hex4 u) ++ s) =
      (scanUnits s).map fun p => (us ++ p.1, p.2) := by
  induction us with
  | nil => cases hs : scanUnits s <;> simp [hs]
  | cons u us ih =>
    have hrest := ih fun v hv => h v (List.mem_cons_of_mem _ hv)
    simp only [List.flatMap_cons, List.cons_append, List.append_assoc]
    rw [scanUnits_unit (h u List.mem_cons_self), hrest]
    cases scanUnits s <;> rfl

theorem scanUnits_plain {c : Char} (h : plain c = true) (s : List Char) :
    scanUnits (c :: s) = (scanUnits s).map fun p => (c.toNat :: p.1, p.2) := by
  simp only [plain, Bool.and_eq_true, decide_eq_true_eq, ne_eq] at h
  obtain ⟨⟨⟨hlow, -⟩, hquote⟩, hback⟩ := h
  have hraw : ¬ (c = '\\' ∨ c.toNat < 0x20) := by
    rintro (hc | hc)
    · exact hback hc
    · omega
  rw [scanUnits.eq_def]
  split
  · next heq => cases heq
  · next heq => exact absurd (List.cons.inj heq).1 hquote
  · next heq => exact absurd (List.cons.inj heq).1 hback
  · next heq => exact absurd (List.cons.inj heq).1 hback
  · next heq =>
    obtain ⟨rfl, rfl⟩ := List.cons.inj heq
    rw [if_neg hraw]
    cases scanUnits s <;> rfl

theorem scanUnits_short {c e : Char} (he : e ≠ 'u') (hc : backslash e = some c)
    (hunits : units c = [c.toNat]) (s : List Char) :
    scanUnits (['\\', e] ++ s) = (scanUnits s).map fun p => (units c ++ p.1, p.2) := by
  rw [List.cons_append, scanUnits.eq_def]
  split
  · next heq => cases heq
  · next heq => cases heq
  · next heq =>
    simp only [List.cons_append, List.cons.injEq] at heq
    exact absurd heq.2.1 he
  · next heq =>
    simp only [List.cons_append, List.nil_append, List.cons.injEq, true_and] at heq
    obtain ⟨rfl, rfl⟩ := heq
    rw [hc, hunits]
    cases scanUnits s <;> rfl
  · next hno heq =>
    simp only [List.cons_append, List.nil_append, List.cons.injEq] at heq
    exact (hno e s heq.1.symm heq.2.symm).elim

/-- The escapes of `json.dumps` are read back. -/
theorem scanUnits_encodeChar (c : Char) (s : List Char) :
    scanUnits (encodeChar c ++ s) = (scanUnits s).map fun p => (units c ++ p.1, p.2) := by
  unfold encodeChar
  split
  · next hplain =>
    have hunits : units c = [c.toNat] := by
      have : c.toNat ≤ 0x7e := by
        simp only [plain, Bool.and_eq_true, decide_eq_true_eq] at hplain
        exact hplain.1.1.2
      simp [units, show c.toNat < 0x10000 by omega]
    rw [hunits]
    exact scanUnits_plain hplain s
  · split
    · next e he =>
      obtain ⟨l₁, l₂, hl, -⟩ := List.lookup_eq_some_iff.mp he
      have hmem : (c, e) ∈ shortEscapes := by simp [hl]
      simp only [shortEscapes, List.mem_cons, Prod.mk.injEq, List.not_mem_nil, or_false] at hmem
      -- each short escape on its own
      rcases hmem with ⟨rfl, rfl⟩ | ⟨rfl, rfl⟩ | ⟨rfl, rfl⟩ | ⟨rfl, rfl⟩ | ⟨rfl, rfl⟩ | ⟨rfl, rfl⟩ |
        ⟨rfl, rfl⟩ <;> exact scanUnits_short (by decide) (by decide) (by decide) s
    · exact scanUnits_flatMap (fun u hu => units_lt hu) s

theorem joinUnits_units (c : Char) (us : List ℕ) :
    joinUnits (units c ++ us) = (joinUnits us).map (c :: ·) := by
  have hvalid : c.toNat < 0xd800 ∨ 0xdfff < c.toNat ∧ c.toNat < 0x110000 := c.valid
  unfold units
  split
  · have h₁ : ¬ (0xd800 ≤ c.toNat ∧ c.toNat < 0xdc00) := by omega
    have h₂ : ¬ (0xdc00 ≤ c.toNat ∧ c.toNat < 0xe000) := by omega
    rw [List.cons_append, List.nil_append, joinUnits.eq_def]
    simp [h₁, h₂]
  · have hback : 0x10000 + (c.toNat - 0x10000) / 1024 * 1024 + (c.toNat - 0x10000) % 1024 =
        c.toNat := by omega
    have h₁ : (c.toNat - 0x10000) / 1024 < 0x400 := by omega
    have h₂ : (c.toNat - 0x10000) % 1024 < 0x400 := by omega
    rw [List.cons_append, joinUnits.eq_def]
    simp only [List.cons_append, List.nil_append]
    rw [if_pos (by omega), if_pos (by omega)]
    simp [hback]

theorem scanUnits_dumpsTail (cs : List Char) (r : List Char) :
    scanUnits (cs.flatMap encodeChar ++ '"' :: r) = some (cs.flatMap units, r) := by
  induction cs with
  | nil => rfl
  | cons c cs ih =>
    rw [flatMap_cons, append_assoc, scanUnits_encodeChar, ih]
    rfl

theorem joinUnits_flatMap (cs : List Char) : joinUnits (cs.flatMap units) = some cs := by
  induction cs with
  | nil => rfl
  | cons c cs ih => rw [flatMap_cons, joinUnits_units, ih, map_some]

/-- A dumped string is read back, whatever follows it. -/
theorem scanString_dumpsTail (s : String) (r : List Char) :
    scanString (dumpsTail s ++ r) = some (s, r) := by
  simp [scanString, dumpsTail, scanUnits_dumpsTail, joinUnits_flatMap]

/-! ### Numbers -/

/-- What may follow a dumped integer for it to end there. -/
def EndsNumber (r : List Char) : Prop :=
  ∀ c ∈ r.head?, c.isDigit = false ∧ c ≠ '.' ∧ c ≠ 'e' ∧ c ≠ 'E'

theorem scanWord_of_head {word : String} {v : Value} {w c : Char} {s : List Char}
    (hw : word.toList.head? = some w) (hc : c ≠ w) : scanWord word v (c :: s) = none := by
  unfold scanWord
  cases hl : word.toList with
  | nil => simp [hl] at hw
  | cons w' ws =>
    obtain rfl : w' = w := by simpa [hl] using hw
    simp [List.dropPrefix?, hc]

/-- A text that starts with a digit or a sign is scanned as a number first. -/
theorem scanScalar_number {c : Char} {s : List Char} (hc : c.isDigit = true ∨ c = '-') :
    scanScalar (c :: s) = (scanNumber (c :: s) <|>
      scanWord "-Infinity" (.float "-Infinity".toList) (c :: s)) := by
  have hne : c ≠ 'n' ∧ c ≠ 't' ∧ c ≠ 'f' ∧ c ≠ 'N' ∧ c ≠ 'I' := by
    refine ⟨?_, ?_, ?_, ?_, ?_⟩ <;> (rintro rfl; revert hc; decide)
  unfold scanScalar
  rw [scanWord_of_head (w := 'n') (by decide) hne.1, scanWord_of_head (w := 't') (by decide) hne.2.1,
    scanWord_of_head (w := 'f') (by decide) hne.2.2.1,
    scanWord_of_head (w := 'N') (by decide) hne.2.2.2.1,
    scanWord_of_head (w := 'I') (by decide) hne.2.2.2.2]
  cases scanNumber (c :: s) <;> rfl

theorem span_digits {ds r : List Char} (hds : ∀ c ∈ ds, c.isDigit = true)
    (hr : ∀ c ∈ r.head?, c.isDigit = false) : (ds ++ r).span Char.isDigit = (ds, r) := by
  rw [span_eq_takeWhile_dropWhile, takeWhile_append_of_pos hds,
    dropWhile_append_of_pos hds]
  cases r with
  | nil => simp
  | cons c r => simp [hr c rfl]

theorem isDigit_of_mem_toDigits {n : ℕ} {c : Char} (h : c ∈ Nat.toDigits 10 n) :
    c.isDigit = true := Nat.isDigit_of_mem_toDigits (by decide) (by decide) h

/-- A positive number is written without a leading zero. -/
theorem head_toDigits {n : ℕ} (h : 0 < n) : (Nat.toDigits 10 n).head? ≠ some '0' := by
  induction n using Nat.strongRecOn with
  | ind n ih =>
    by_cases hn : n < 10
    · rw [Nat.toDigits_of_lt_base hn]
      clear ih
      interval_cases n <;> decide
    · rw [Nat.toDigits_of_base_le (by decide) (by omega)]
      have hrec := ih (n / 10) (by omega) (by omega)
      cases hd : Nat.toDigits 10 (n / 10) with
      | nil => exact absurd hd Nat.toDigits_ne_nil
      | cons d ds => simpa [hd] using hrec

theorem scanDigits_toDigits (n : ℕ) {r : List Char} (hr : EndsNumber r) :
    scanDigits (Nat.toDigits 10 n ++ r) = (Nat.toDigits 10 n, r) := by
  have hspan : (Nat.toDigits 10 n ++ r).span Char.isDigit = (Nat.toDigits 10 n, r) :=
    span_digits (fun c hc => isDigit_of_mem_toDigits hc) fun c hc => (hr c hc).1
  rcases Nat.eq_zero_or_pos n with rfl | hpos
  · rfl
  · have hhead := head_toDigits hpos
    unfold scanDigits
    split
    · next s heq =>
      cases hd : Nat.toDigits 10 n with
      | nil => exact absurd hd Nat.toDigits_ne_nil
      | cons d ds => simp_all
    · exact hspan

theorem scanSign_toDigits (n : ℕ) (r : List Char) :
    scanSign (Nat.toDigits 10 n ++ r) = ([], Nat.toDigits 10 n ++ r) := by
  cases hd : Nat.toDigits 10 n with
  | nil => exact absurd hd Nat.toDigits_ne_nil
  | cons d ds =>
    have hdigit : d.isDigit = true := isDigit_of_mem_toDigits (n := n) (by simp [hd])
    unfold scanSign
    split
    · next heq =>
      obtain ⟨rfl, -⟩ := List.cons.inj heq
      cases hdigit
    · rfl

theorem scanFraction_of_ends {r : List Char} (hr : EndsNumber r) : scanFraction r = ([], r) := by
  unfold scanFraction
  split
  · exact absurd rfl (hr '.' rfl).2.1
  · rfl

theorem scanExponent_of_ends {r : List Char} (hr : EndsNumber r) : scanExponent r = ([], r) := by
  unfold scanExponent
  split
  · next e t =>
    rw [if_neg (not_or.mpr (hr e rfl).2.2)]
  · rfl

theorem scanNumber_dumpsInt (i : ℤ) {r : List Char} (hr : EndsNumber r) :
    scanNumber (dumpsInt i ++ r) = some (.int i, r) := by
  by_cases hneg : i < 0
  · have habs : -|i| = i := by rw [abs_of_neg hneg, neg_neg]
    simp [dumpsInt, hneg, scanNumber, scanSign, scanDigits_toDigits _ hr, scanFraction_of_ends hr,
      scanExponent_of_ends hr, signed, habs]
  · have habs : |i| = i := abs_of_nonneg (not_lt.mp hneg)
    simp [dumpsInt, hneg, scanNumber, scanSign_toDigits, scanDigits_toDigits _ hr,
      scanFraction_of_ends hr, scanExponent_of_ends hr, signed, habs]

theorem dumpsInt_head (i : ℤ) : ∃ c s, dumpsInt i = c :: s ∧ (c.isDigit = true ∨ c = '-') := by
  unfold dumpsInt
  split
  · exact ⟨'-', _, rfl, .inr rfl⟩
  · cases hd : Nat.toDigits 10 i.natAbs with
    | nil => exact absurd hd Nat.toDigits_ne_nil
    | cons d ds => exact ⟨d, ds, rfl, .inl (isDigit_of_mem_toDigits (n := i.natAbs) (by simp [hd]))⟩

/-- Where a container does not start. -/
theorem scanValue_number (n : ℕ) {c : Char} {s : List Char} (hc : c.isDigit = true ∨ c = '-') :
    scanValue (n + 1) (c :: s) = (scanNumber (c :: s) <|>
      scanWord "-Infinity" (.float "-Infinity".toList) (c :: s)) := by
  rw [← scanScalar_number hc]
  have hne : c ≠ '"' ∧ c ≠ '\x7b' ∧ c ≠ '[' := by
    refine ⟨?_, ?_, ?_⟩ <;> (rintro rfl; revert hc; decide)
  unfold scanValue
  split <;> simp_all

/-! ### Dumped objects -/

/-- A dumped string or integer is read back, whatever ends it. -/
theorem scanValue_dumps (v : Scalar) (n : ℕ) {r : List Char} (hr : EndsNumber r) :
    scanValue (n + 1) (v.dumps ++ r) = some (v.toValue, r) := by
  cases v with
  | str s =>
    simp only [Scalar.dumps, dumpsStr, List.cons_append, scanValue, scanString_dumpsTail]
    rfl
  | int i =>
    obtain ⟨c, s, hcs, hc⟩ := dumpsInt_head i
    have hnum := scanNumber_dumpsInt i hr
    simp only [Scalar.dumps, hcs, List.cons_append] at hnum ⊢
    rw [scanValue_number n hc, hnum]
    rfl

/-- A dumped string or integer starts with no white space. -/
theorem skipWhitespace_dumps (v : Scalar) (r : List Char) :
    skipWhitespace (v.dumps ++ r) = v.dumps ++ r := by
  cases v with
  | str s => rfl
  | int i =>
    obtain ⟨c, s, hcs, hc⟩ := dumpsInt_head i
    have hws : isWhitespace c = false := by
      rcases hc with hc | rfl
      · by_contra h
        simp only [isWhitespace, Bool.not_eq_false, Bool.or_eq_true, decide_eq_true_eq] at h
        rcases h with ((rfl | rfl) | rfl) | rfl <;> cases hc
      · rfl
    simp [Scalar.dumps, hcs, skipWhitespace, hws]

/-- One member is read, whatever the rest of the object. -/
theorem scanMembers_member {n : ℕ} {s s₁ s₂ : List Char} {key : String} {v : Value}
    (hkey : scanString s = some (key, ':' :: s₁))
    (hv : scanValue n (skipWhitespace s₁) = some (v, s₂)) :
    scanMembers (n + 1) s =
      match skipWhitespace s₂ with
      | '\x7d' :: r => some ([(key, v)], r)
      | ',' :: s =>
        match skipWhitespace s with
        | '"' :: s => (scanMembers n s).map fun p => ((key, v) :: p.1, p.2)
        | _ => none
      | _ => none := by
  have hcolon : skipWhitespace (':' :: s₁) = ':' :: s₁ := rfl
  rw [scanMembers, hkey]
  simp only [bind_eq_bind, bind_some, hcolon, hv]
  split
  · rfl
  · split
    · cases scanMembers n _ <;> rfl
    · rfl
  · rfl

theorem skipWhitespace_blank_dumps (v : Scalar) (r : List Char) :
    skipWhitespace (' ' :: (v.dumps ++ r)) = v.dumps ++ r :=
  skipWhitespace_dumps v r

/-- A dumped member is read, and what follows it decides. -/
theorem scanMembers_dumps_member (m : String × Scalar) (n : ℕ) {q : List Char}
    (hq : EndsNumber q) :
    scanMembers (n + 2) (dumpsTail m.1 ++ ':' :: ' ' :: (m.2.dumps ++ q)) =
      match skipWhitespace q with
      | '\x7d' :: r => some ([(m.1, m.2.toValue)], r)
      | ',' :: s =>
        match skipWhitespace s with
        | '"' :: s => (scanMembers (n + 1) s).map fun p => ((m.1, m.2.toValue) :: p.1, p.2)
        | _ => none
      | _ => none := by
  have hv := scanValue_dumps m.2 n hq
  rw [← skipWhitespace_blank_dumps] at hv
  exact scanMembers_member (scanString_dumpsTail _ _) hv

theorem scanMembers_dumps (m : String × Scalar) (ms : List (String × Scalar)) {n : ℕ}
    (hn : ms.length + 2 ≤ n) (r : List Char) :
    scanMembers n (dumpsMembers m ms ++ r) =
      some ((m :: ms).map fun m => (m.1, m.2.toValue), r) := by
  induction ms generalizing m n with
  | nil =>
    obtain ⟨n, rfl⟩ : ∃ n', n = n' + 2 := ⟨n - 2, by simp at hn; omega⟩
    have hends : EndsNumber ('\x7d' :: r) := by rintro c ⟨⟩; decide
    simp only [dumpsMembers, List.append_assoc, List.cons_append, List.nil_append]
    rw [scanMembers_dumps_member m n hends]
    rfl
  | cons next rest ih =>
    obtain ⟨n, rfl⟩ : ∃ n', n = n' + 2 := ⟨n - 2, by simp at hn; omega⟩
    have hends : EndsNumber (',' :: ' ' :: '"' :: (dumpsMembers next rest ++ r)) := by
      rintro c ⟨⟩; decide
    have hrest := ih next (n := n + 1) (by simp at hn; omega)
    simp only [dumpsMembers, append_assoc, cons_append]
    rw [scanMembers_dumps_member m n hends]
    show (scanMembers (n + 1) (dumpsMembers next rest ++ r)).map _ = _
    rw [hrest]
    rfl

/-! ### Cut texts -/

/-- `p` is a proper prefix of `l`. -/
def Cut {α : Type*} (p l : List α) : Prop := ∃ t, t ≠ [] ∧ p ++ t = l

theorem not_cut_nil {α : Type*} {p : List α} : ¬ Cut p [] := by
  rintro ⟨t, ht, h⟩
  exact ht (append_eq_nil_iff.mp h).2

/-- A cut text ends inside its first part or inside the rest. -/
theorem Cut.of_append {α : Type*} {p a b : List α} (h : Cut p (a ++ b)) :
    Cut p a ∨ ∃ q, p = a ++ q ∧ Cut q b := by
  obtain ⟨t, ht, h⟩ := h
  rcases append_eq_append_iff.mp h with ⟨a', ha, hb⟩ | ⟨q, hp, hb⟩
  · by_cases hnil : a' = []
    · subst hnil
      exact .inr ⟨[], by simpa using ha.symm, t, ht, by simpa using hb⟩
    · exact .inl ⟨a', hnil, ha.symm⟩
  · exact .inr ⟨q, hp, t, ht, hb.symm⟩

theorem Cut.of_cons {α : Type*} {p b : List α} {a : α} (h : Cut p (a :: b)) :
    p = [] ∨ ∃ q, p = a :: q ∧ Cut q b := by
  rcases Cut.of_append (a := [a]) h with ⟨t, ht, hp⟩ | hrest
  · cases p with
    | nil => exact .inl rfl
    | cons c p =>
      obtain ⟨-, hnil⟩ := List.cons.inj hp
      exact absurd (append_eq_nil_iff.mp hnil).2 ht
  · exact .inr hrest

theorem scanUnits_cut_unit {p : List Char} {u : ℕ} (h : Cut p ('\\' :: 'u' :: hex4 u)) :
    scanUnits p = none := by
  unfold hex4 at h
  rcases h.of_cons with rfl | ⟨p₁, rfl, h₁⟩
  · rfl
  rcases h₁.of_cons with rfl | ⟨p₂, rfl, h₂⟩
  · rfl
  -- an escape with fewer than four digits
  rcases h₂.of_cons with rfl | ⟨p₃, rfl, h₃⟩
  · rfl
  rcases h₃.of_cons with rfl | ⟨p₄, rfl, h₄⟩
  · rfl
  rcases h₄.of_cons with rfl | ⟨p₅, rfl, h₅⟩
  · rfl
  rcases h₅.of_cons with rfl | ⟨p₆, rfl, h₆⟩
  · rfl
  · exact absurd h₆ not_cut_nil

theorem scanUnits_cut_flatMap {us : List ℕ} (hus : ∀ u ∈ us, u < 65536) {p : List Char}
    (h : Cut p (us.flatMap fun u => '\\' :: 'u' :: hex4 u)) : scanUnits p = none := by
  induction us generalizing p with
  | nil => exact absurd h not_cut_nil
  | cons u us ih =>
    rw [flatMap_cons] at h
    rcases h.of_append with hfirst | ⟨q, rfl, hrest⟩
    · exact scanUnits_cut_unit hfirst
    · rw [cons_append, cons_append, scanUnits_unit (hus u mem_cons_self),
        ih (fun v hv => hus v (mem_cons_of_mem _ hv)) hrest]
      rfl

theorem scanUnits_cut_encodeChar {c : Char} {p : List Char} (h : Cut p (encodeChar c)) :
    scanUnits p = none := by
  unfold encodeChar at h
  split at h
  · rcases h.of_cons with rfl | ⟨p₁, rfl, h₁⟩
    · rfl
    · exact absurd h₁ not_cut_nil
  · split at h
    · rcases h.of_cons with rfl | ⟨p₁, rfl, h₁⟩
      · rfl
      rcases h₁.of_cons with rfl | ⟨p₂, rfl, h₂⟩
      · rfl
      · exact absurd h₂ not_cut_nil
    · exact scanUnits_cut_flatMap (fun u hu => units_lt hu) h

theorem scanUnits_cut {cs p : List Char} (h : Cut p (cs.flatMap encodeChar ++ ['"'])) :
    scanUnits p = none := by
  induction cs generalizing p with
  | nil =>
    rcases h.of_cons with rfl | ⟨p₁, rfl, h₁⟩
    · rfl
    · exact absurd h₁ not_cut_nil
  | cons c cs ih =>
    rw [List.flatMap_cons, List.append_assoc] at h
    rcases h.of_append with hfirst | ⟨q, rfl, hrest⟩
    · exact scanUnits_cut_encodeChar hfirst
    · rw [scanUnits_encodeChar, ih hrest]
      rfl

/-- A dumped string cut before its closing quote is not a string. -/
theorem scanString_cut {s : String} {p : List Char} (h : Cut p (dumpsTail s)) :
    scanString p = none := by
  simp [scanString, scanUnits_cut h]

theorem span_snd_subset {s ds r : List Char} (h : s.span Char.isDigit = (ds, r)) : r ⊆ s := by
  rw [List.span_eq_takeWhile_dropWhile] at h
  cases h
  exact (List.dropWhile_sublist _).subset

theorem scanSign_subset (s : List Char) : (scanSign s).2 ⊆ s := by
  unfold scanSign
  split
  · exact List.subset_cons_self _ _
  · exact List.Subset.refl _

theorem scanDigits_subset (s : List Char) : (scanDigits s).2 ⊆ s := by
  unfold scanDigits
  split
  · exact List.subset_cons_self _ _
  · exact span_snd_subset rfl

theorem scanFraction_subset (s : List Char) : (scanFraction s).2 ⊆ s := by
  unfold scanFraction
  split
  · next t =>
    split
    · exact List.Subset.refl _
    · next heq => exact List.Subset.trans (span_snd_subset heq) (List.subset_cons_self _ _)
  · exact List.Subset.refl _

theorem scanExponent_subset (s : List Char) : (scanExponent s).2 ⊆ s := by
  have hsign (t : List Char) : (scanExponentSign t).2 ⊆ t := by
    unfold scanExponentSign
    split
    · exact List.subset_cons_self _ _
    · exact List.subset_cons_self _ _
    · exact List.Subset.refl _
  unfold scanExponent
  split
  · next t =>
    split
    · split
      · exact List.Subset.refl _
      · next heq =>
        exact List.Subset.trans (span_snd_subset heq)
          (List.Subset.trans (hsign t) (List.subset_cons_self _ _))
    · exact List.Subset.refl _
  · exact List.Subset.refl _

/-- The rest after a number is made of characters of the text. -/
theorem scanNumber_subset {s r : List Char} {v : Value} (h : scanNumber s = some (v, r)) :
    r ⊆ s := by
  have hr : r = (scanExponent (scanFraction (scanDigits (scanSign s).2).2).2).2 := by
    unfold scanNumber at h
    simp only at h
    split at h
    · cases h
    · split at h <;> cases h <;> rfl
  subst hr
  exact List.Subset.trans (scanExponent_subset _) (List.Subset.trans (scanFraction_subset _)
    (List.Subset.trans (scanDigits_subset _) (scanSign_subset _)))

/-- What is left after the value at the start of a text of digits and signs. -/
theorem scanValue_digits {n : ℕ} {p r : List Char} {v : Value}
    (hp : ∀ c ∈ p, c.isDigit = true ∨ c = '-') (h : scanValue n p = some (v, r)) :
    ∀ c ∈ r, c.isDigit = true ∨ c = '-' := by
  cases n with
  | zero => simp [scanValue] at h
  | succ n =>
    cases p with
    | nil => cases h
    | cons c s =>
      rw [scanValue_number n (hp c List.mem_cons_self)] at h
      intro c' hc'
      refine hp c' ?_
      cases hnum : scanNumber (c :: s) with
      | some found =>
        obtain ⟨v', r'⟩ := found
        rw [hnum] at h
        cases h
        exact scanNumber_subset hnum hc'
      | none =>
        simp only [hnum, scanWord] at h
        obtain ⟨r', hr', heq⟩ := Option.map_eq_some_iff.mp h
        obtain ⟨w, hw, -⟩ := List.dropPrefix?_eq_some_iff.mp hr'
        cases heq
        rw [hw]
        exact List.mem_append_right _ hc'

theorem skipWhitespace_digits {r : List Char} (hr : ∀ c ∈ r, c.isDigit = true ∨ c = '-') :
    skipWhitespace r = r ∧ r.head? ≠ some '\x7d' ∧ r.head? ≠ some ',' := by
  cases r with
  | nil => exact ⟨rfl, by simp, by simp⟩
  | cons c r =>
    have hc := hr c List.mem_cons_self
    have hne : isWhitespace c = false ∧ c ≠ '\x7d' ∧ c ≠ ',' := by
      refine ⟨?_, ?_, ?_⟩
      · by_contra h
        simp only [isWhitespace, Bool.not_eq_false, Bool.or_eq_true, decide_eq_true_eq] at h
        rcases h with ((rfl | rfl) | rfl) | rfl <;> revert hc <;> decide
      · rintro rfl
        revert hc
        decide
      · rintro rfl
        revert hc
        decide
    exact ⟨by simp [skipWhitespace, hne.1], by simpa using hne.2.1, by simpa using hne.2.2⟩

theorem isDigit_of_mem_dumpsInt {i : ℤ} {c : Char} (h : c ∈ dumpsInt i) :
    c.isDigit = true ∨ c = '-' := by
  unfold dumpsInt at h
  split at h
  · rcases List.mem_cons.mp h with rfl | hmem
    · exact .inr rfl
    · exact .inl (isDigit_of_mem_toDigits hmem)
  · exact .inl (isDigit_of_mem_toDigits h)

theorem Cut.subset {α : Type*} {p l : List α} (h : Cut p l) : p ⊆ l := by
  obtain ⟨t, -, rfl⟩ := h
  exact List.subset_append_left p t

/-- The members are not read when the text ends after a key. -/
theorem scanMembers_of_value_none {n : ℕ} {s s₁ : List Char} {key : String}
    (hkey : scanString s = some (key, ':' :: s₁)) (hv : scanValue n (skipWhitespace s₁) = none) :
    scanMembers (n + 1) s = none := by
  have hcolon : skipWhitespace (':' :: s₁) = ':' :: s₁ := rfl
  rw [scanMembers, hkey]
  simp only [Option.bind_eq_bind, Option.bind_some, hcolon, hv]
  rfl

/-- A cut value is not followed by a comma or a brace. -/
theorem scanMembers_cut_value {n : ℕ} {v : Scalar} {key : String} {p q : List Char}
    (h : Cut q v.dumps) (hp : scanString p = some (key, ':' :: ' ' :: q)) :
    scanMembers (n + 1) p = none := by
  cases v with
  | str s =>
    refine scanMembers_of_value_none hp ?_
    rcases h.of_cons with rfl | ⟨q', rfl, h'⟩
    · cases n <;> rfl
    · cases n with
      | zero => rfl
      | succ n =>
        show (scanString q').map _ = none
        rw [scanString_cut h']
        rfl
  | int i =>
    have hq : ∀ c ∈ q, c.isDigit = true ∨ c = '-' := fun c hc =>
      isDigit_of_mem_dumpsInt (h.subset hc)
    have hskip : skipWhitespace (' ' :: q) = q := (skipWhitespace_digits hq).1
    cases hv : scanValue n (skipWhitespace (' ' :: q)) with
    | none => exact scanMembers_of_value_none hp hv
    | some found =>
      obtain ⟨w, r⟩ := found
      -- digits of the integer may stand for a value, but nothing ends the member
      obtain ⟨hr, hbrace, hcomma⟩ := skipWhitespace_digits (scanValue_digits hq (hskip ▸ hv))
      rw [scanMembers_member hp hv, hr]
      split
      · exact absurd rfl hbrace
      · exact absurd rfl hcomma
      · rfl

/-- A cut member is not read; one that is whole is cut in what follows it. -/
theorem scanMembers_cut_member (m : String × Scalar) (n : ℕ) {p tail : List Char}
    (h : Cut p (dumpsTail m.1 ++ ':' :: ' ' :: (m.2.dumps ++ tail))) :
    scanMembers (n + 1) p = none ∨
      ∃ q, p = dumpsTail m.1 ++ ':' :: ' ' :: (m.2.dumps ++ q) ∧ Cut q tail := by
  rcases h.of_append with hkey | ⟨p₁, rfl, h₁⟩
  · left
    rw [scanMembers, scanString_cut hkey]
    rfl
  have hkey := scanString_dumpsTail m.1 p₁
  rcases h₁.of_cons with rfl | ⟨p₂, rfl, h₂⟩
  · left
    rw [scanMembers, hkey]
    rfl
  rcases h₂.of_cons with rfl | ⟨p₃, rfl, h₃⟩
  · left
    exact scanMembers_of_value_none hkey (by cases n <;> rfl)
  rcases h₃.of_append with hv | ⟨q, rfl, hq⟩
  · exact .inl (scanMembers_cut_value hv hkey)
  · exact .inr ⟨q, rfl, hq⟩

/-- No proper prefix of the members is read. -/
theorem scanMembers_cut (m : String × Scalar) (ms : List (String × Scalar)) {n : ℕ}
    {p : List Char} (h : Cut p (dumpsMembers m ms)) : scanMembers n p = none := by
  have hends (c : Char) (q : List Char) (hc : EndsNumber [c]) : EndsNumber (c :: q) := hc
  have hnil : EndsNumber [] := by rintro c ⟨⟩
  induction ms generalizing m n p with
  | nil =>
    cases n with
    | zero => rfl
    | succ n =>
      rcases scanMembers_cut_member m n h with hnone | ⟨q, rfl, hq⟩
      · exact hnone
      · obtain rfl : q = [] := by
          rcases hq.of_cons with rfl | ⟨q', rfl, hq'⟩
          · rfl
          · exact absurd hq' not_cut_nil
        cases n with
        | zero => exact scanMembers_of_value_none (scanString_dumpsTail _ _) rfl
        | succ n => rw [scanMembers_dumps_member m n hnil]; rfl
  | cons next rest ih =>
    cases n with
    | zero => rfl
    | succ n =>
      rcases scanMembers_cut_member m n h with hnone | ⟨q, rfl, hq⟩
      · exact hnone
      cases n with
      | zero => exact scanMembers_of_value_none (scanString_dumpsTail _ _) rfl
      | succ n =>
        rcases hq.of_cons with rfl | ⟨q₁, rfl, h₁⟩
        · rw [scanMembers_dumps_member m n hnil]
          rfl
        rw [scanMembers_dumps_member m n (hends ',' q₁ (by rintro c ⟨⟩; decide))]
        rcases h₁.of_cons with rfl | ⟨q₂, rfl, h₂⟩
        · rfl
        rcases h₂.of_cons with rfl | ⟨q₃, rfl, h₃⟩
        · rfl
        -- the next member's key is open: the rest is cut
        show (scanMembers (n + 1) q₃).map _ = none
        rw [ih next h₃]
        rfl

/-- No proper prefix of a dumped object is a JSON text. -/
theorem loads_of_prefix (m : String × Scalar) (ms : List (String × Scalar)) {p : List Char}
    (h : Cut p (dumpsObj m ms)) : loads p = none := by
  have hvalue : ∀ n, scanValue (n + 1) (skipWhitespace p) = none := by
    intro n
    rcases h.of_cons with rfl | ⟨p₁, rfl, h₁⟩
    · rfl
    rcases h₁.of_cons with rfl | ⟨p₂, rfl, h₂⟩
    · rfl
    show (scanMembers n p₂).map _ = none
    rw [scanMembers_cut m ms h₂]
    rfl
  rw [loads, hvalue]
  rfl

theorem length_dumpsMembers (m : String × Scalar) (ms : List (String × Scalar)) :
    ms.length + 2 ≤ (dumpsMembers m ms).length := by
  induction ms generalizing m with
  | nil =>
    simp only [dumpsMembers, List.length_append, List.length_cons, List.length_nil]
    omega
  | cons next rest ih =>
    have hrest := ih next
    simp only [dumpsMembers, List.length_append, List.length_cons]
    omega

/-- The members of distinct keys make a `dict` as they are. -/
theorem toDict_of_nodup {members : List (String × Value)} (h : (members.map (·.1)).Nodup) :
    toDict members = members := by
  suffices hacc : ∀ d : List (String × Value), ((d ++ members).map (·.1)).Nodup →
      members.foldl (fun d m => setItem d m.1 m.2) d = d ++ members from hacc [] h
  clear h
  intro d h
  induction members generalizing d with
  | nil => simp
  | cons m rest ih =>
    have hnew : m.1 ∉ d.map (·.1) := by
      intro hmem
      rw [List.map_append, List.nodup_append] at h
      exact h.2.2 _ hmem m.1 (by simp) rfl
    rw [List.foldl_cons, setItem_of_notMem hnew, ih _ (by simpa using h)]
    simp

/-- A dumped object is read back. -/
theorem loads_dumpsObj (m : String × Scalar) (ms : List (String × Scalar))
    (h : ((m :: ms).map (·.1)).Nodup) :
    loads (dumpsObj m ms) = some (.obj ((m :: ms).map fun m => (m.1, m.2.toValue))) := by
  have hlen := length_dumpsMembers m ms
  have hmembers := scanMembers_dumps m ms (n := (dumpsObj m ms).length)
    (by simp [dumpsObj]; omega) []
  rw [List.append_nil] at hmembers
  have hvalue : scanValue ((dumpsObj m ms).length + 1) (dumpsObj m ms) =
      some (.obj ((m :: ms).map fun m => (m.1, m.2.toValue)), []) := by
    show (scanMembers (dumpsObj m ms).length (dumpsMembers m ms)).map _ = _
    rw [hmembers]
    show some (Value.obj (toDict _), ([] : List Char)) = _
    rw [toDict_of_nodup (by simpa [Function.comp_def] using h)]
  show (scanValue _ (dumpsObj m ms) >>= _) = _
  rw [hvalue]
  rfl

/-! ### ASCII -/

/-- A printable ASCII character. -/
def Printable (c : Char) : Prop := 0x20 ≤ c.toNat ∧ c.toNat ≤ 0x7e

instance (c : Char) : Decidable (Printable c) := inferInstanceAs (Decidable (_ ∧ _))

theorem hexDigit_printable (n : ℕ) : Printable (hexDigit n) := by
  by_cases h : n < 16
  · revert n
    decide
  · have hlen : "0123456789abcdef".toList.length ≤ n := by
      show 16 ≤ n
      omega
    rw [hexDigit, getD_eq_default _ _ hlen]
    decide

theorem encodeChar_printable {c d : Char} (h : d ∈ encodeChar c) : Printable d := by
  unfold encodeChar at h
  split at h
  · next hplain =>
    obtain rfl := mem_singleton.mp h
    simp only [plain, Bool.and_eq_true, decide_eq_true_eq] at hplain
    exact hplain.1.1
  · split at h
    · next e he =>
      have hshort : ∀ p ∈ shortEscapes, Printable p.2 := by decide
      rcases mem_pair.mp h with rfl | rfl
      · decide
      · obtain ⟨l₁, l₂, heq, -⟩ := lookup_eq_some_iff.mp he
        exact hshort (c, _) (heq ▸ mem_append_right l₁ mem_cons_self)
    · obtain ⟨u, -, hd⟩ := mem_flatMap.mp h
      simp only [hex4, mem_cons, not_mem_nil, or_false] at hd
      rcases hd with rfl | rfl | rfl | rfl | rfl | rfl
      · decide
      · decide
      all_goals exact hexDigit_printable _

theorem dumpsTail_printable {s : String} {d : Char} (h : d ∈ dumpsTail s) : Printable d := by
  rcases mem_append.mp h with h | h
  · obtain ⟨c, -, hd⟩ := mem_flatMap.mp h
    exact encodeChar_printable hd
  · obtain rfl := mem_singleton.mp h
    decide

theorem scalar_dumps_printable {v : Scalar} {d : Char} (h : d ∈ v.dumps) : Printable d := by
  cases v with
  | str s =>
    rcases mem_cons.mp h with rfl | h
    · decide
    · exact dumpsTail_printable h
  | int i =>
    rcases isDigit_of_mem_dumpsInt h with hdigit | rfl
    · simp only [Char.isDigit, Bool.and_eq_true, decide_eq_true_eq, ge_iff_le,
        UInt32.le_iff_toNat_le] at hdigit
      exact ⟨le_trans (by decide) hdigit.1, le_trans hdigit.2 (by decide)⟩
    · decide

theorem dumpsMembers_printable {m : String × Scalar} {ms : List (String × Scalar)} {d : Char}
    (h : d ∈ dumpsMembers m ms) : Printable d := by
  induction ms generalizing m with
  | nil =>
    simp only [dumpsMembers, mem_append, mem_cons, not_mem_nil, or_false] at h
    rcases h with h | rfl | rfl | h | rfl
    · exact dumpsTail_printable h
    · decide
    · decide
    · exact scalar_dumps_printable h
    · decide
  | cons next rest ih =>
    simp only [dumpsMembers, mem_append, mem_cons] at h
    rcases h with h | rfl | rfl | h | rfl | rfl | rfl | h
    · exact dumpsTail_printable h
    · decide
    · decide
    · exact scalar_dumps_printable h
    · decide
    · decide
    · decide
    · exact ih h

/-- A dumped object has printable ASCII characters only. -/
theorem dumpsObj_printable {m : String × Scalar} {ms : List (String × Scalar)} {d : Char}
    (h : d ∈ dumpsObj m ms) : Printable d := by
  rcases mem_cons.mp h with rfl | h
  · decide
  rcases mem_cons.mp h with rfl | h
  · decide
  · exact dumpsMembers_printable h

end Json

end HpcAgentBench
