import HpcAgentBench.Lib.Python
import Mathlib.Data.List.Infix

/-!
# Text files of lines

`str.splitlines` and the loop over the lines of a file that leaves the blank ones out.  The text of
a file is a list of characters.  (A file opened in text mode gives `'\n'` for `'\r\n'` and `'\r'`,
which splits the same lines.)

## Main results

* `splitlines_newline` : a line and its newline are split off, whatever follows.
* `lines_append`, `lines_torn` : what is added to a file of whole lines, or after the newline that
  ends a torn last line, adds its own lines and changes none.
-/

namespace HpcAgentBench

open List

namespace Lines

/-- The characters `str.splitlines` splits at. -/
def isLineBreak (c : Char) : Bool :=
  (0x0a ≤ c.toNat && c.toNat ≤ 0x0d) || (0x1c ≤ c.toNat && c.toNat ≤ 0x1e) || c.toNat = 0x85 ||
    c.toNat = 0x2028 || c.toNat = 0x2029

/-- `c` before the first of the lines. -/
def consFirst (c : Char) : List (List Char) → List (List Char)
  | [] => [[c]]
  | l :: ls => (c :: l) :: ls

/-- `str.splitlines`. -/
def splitlines : List Char → List (List Char)
  | [] => []
  | '\r' :: '\n' :: s => [] :: splitlines s
  | c :: s => if isLineBreak c then [] :: splitlines s else consFirst c (splitlines s)

/-- The lines that are not blank: `if not line.strip(): continue`. -/
def lines (text : List Char) : List (List Char) :=
  (splitlines text).filter fun line => !line.all isSpace

/-- A file whose last line has no newline. -/
def Torn (text : List Char) : Prop := ∃ c, text.getLast? = some c ∧ c ≠ '\n'

instance (text : List Char) : Decidable (Torn text) :=
  match h : text.getLast? with
  | none => isFalse (by rintro ⟨c, hc, -⟩; simp [h] at hc)
  | some c =>
    if hc : c = '\n' then isFalse (by rintro ⟨d, hd, hne⟩; simp_all)
    else isTrue ⟨c, h, hc⟩

/-! ### Splitting -/

@[simp] theorem splitlines_nil : splitlines [] = [] := rfl

variable {c : Char} {s l text : List Char}

theorem splitlines_cons (hc : isLineBreak c = false) (s : List Char) :
    splitlines (c :: s) = consFirst c (splitlines s) := by
  rw [splitlines, if_neg (by simp [hc])]
  rintro t rfl rfl
  cases hc

@[simp] theorem splitlines_cons_newline (s : List Char) :
    splitlines ('\n' :: s) = [] :: splitlines s := by
  rw [splitlines, if_pos (by decide)]
  rintro t h
  cases h

theorem consFirst_append {ls : List (List Char)} (h : ls ≠ []) (ms : List (List Char)) :
    consFirst c ls ++ ms = consFirst c (ls ++ ms) := by
  cases ls with
  | nil => exact absurd rfl h
  | cons l ls => rfl

theorem splitlines_ne_nil (h : s ≠ []) : splitlines s ≠ [] := by
  fun_cases splitlines s with
  | case1 => exact absurd rfl h
  | case2 s => simp
  | case3 c s hcr hbreak => simp
  | case4 c s hcr hbreak =>
    cases splitlines s <;> simp [consFirst]

/-- What follows a newline is split on its own. -/
theorem splitlines_append_newline (s t : List Char) :
    splitlines (s ++ '\n' :: t) = splitlines (s ++ ['\n']) ++ splitlines t := by
  fun_induction splitlines s with
  | case1 => simp
  | case2 s ih =>
    show [] :: splitlines (s ++ '\n' :: t) = [] :: splitlines (s ++ ['\n']) ++ splitlines t
    rw [ih, cons_append]
  | case3 c s hcr hbreak ih =>
    by_cases hr : c = '\r' ∧ s = []
    · -- the newline belongs to the carriage return before it
      obtain ⟨rfl, rfl⟩ := hr
      rfl
    · have hsplit (u : List Char) : splitlines (c :: (s ++ '\n' :: u)) =
          [] :: splitlines (s ++ '\n' :: u) := by
        rw [splitlines, if_pos hbreak]
        intro v hv hs
        cases s with
        | nil => exact hr ⟨hv, rfl⟩
        | cons d s => exact hcr s hv (by simp_all)
      rw [cons_append, hsplit t, ih, cons_append, hsplit []]
      rfl
  | case4 c s hcr hbreak ih =>
    have hc : isLineBreak c = false := by simpa using hbreak
    rw [cons_append, splitlines_cons hc, ih, cons_append, splitlines_cons hc,
      consFirst_append (splitlines_ne_nil (by simp))]

/-- A line without a break in it. -/
theorem splitlines_line (hl : ∀ c ∈ l, isLineBreak c = false) (hne : l ≠ []) :
    splitlines l = [l] := by
  induction l with
  | nil => exact absurd rfl hne
  | cons c l ih =>
    rw [splitlines_cons (hl c mem_cons_self)]
    cases l with
    | nil => rfl
    | cons d l =>
      rw [ih (fun e he => hl e (mem_cons_of_mem _ he)) (by simp)]
      rfl

/-- A line and its newline are split off, whatever follows. -/
theorem splitlines_newline (hl : ∀ c ∈ l, isLineBreak c = false) (s : List Char) :
    splitlines (l ++ '\n' :: s) = l :: splitlines s := by
  induction l with
  | nil => simp
  | cons c l ih =>
    rw [cons_append, splitlines_cons (hl c mem_cons_self),
      ih fun d hd => hl d (mem_cons_of_mem _ hd)]
    rfl

/-- A text whose last character breaks no line keeps its lines when it is ended. -/
theorem splitlines_end (hlast : s.getLast? = some c) (hc : isLineBreak c = false) :
    splitlines (s ++ ['\n']) = splitlines s := by
  fun_induction splitlines s with
  | case1 => cases hlast
  | case2 s ih =>
    show [] :: splitlines (s ++ ['\n']) = _
    cases s with
    | nil => cases hlast; cases hc
    | cons d s => rw [ih (by simpa using hlast)]
  | case3 d s hcr hbreak ih =>
    cases s with
    | nil =>
      obtain rfl : d = c := by simpa using hlast
      simp [hc] at hbreak
    | cons e s =>
      have hcr' : ∀ u, d = '\r' → (e :: s) ++ ['\n'] = '\n' :: u → False := by
        intro u hd hu
        obtain ⟨rfl, -⟩ := List.cons.inj hu
        exact hcr s hd rfl
      rw [cons_append, splitlines, if_pos hbreak, ih (by simpa using hlast)]
      exact hcr'
  | case4 d s hcr hbreak ih =>
    have hd : isLineBreak d = false := by simpa using hbreak
    rw [cons_append, splitlines_cons hd]
    cases s with
    | nil => rfl
    | cons e s => rw [ih (by simpa using hlast)]

/-! ### Lines of a file -/

@[simp] theorem lines_nil : lines [] = [] := rfl

/-- What is added after the newline that ends a torn last line. -/
theorem lines_torn (hlast : text.getLast? = some c) (hc : isLineBreak c = false) (s : List Char) :
    lines (text ++ '\n' :: s) = lines text ++ lines s := by
  rw [lines, splitlines_append_newline, splitlines_end hlast hc, filter_append]
  rfl

/-- What is added to a file of whole lines. -/
theorem lines_append (h : ¬ Torn text) (s : List Char) :
    lines (text ++ s) = lines text ++ lines s := by
  rcases eq_nil_or_concat text with rfl | ⟨text, c, rfl⟩
  · simp
  · obtain rfl : c = '\n' := by
      by_contra hc
      exact h ⟨c, by simp, hc⟩
    rw [lines, concat_eq_append, append_assoc, singleton_append,
      splitlines_append_newline, filter_append]
    rfl

/-- One line without a break in it, with or without its newline. -/
theorem lines_line (hl : ∀ c ∈ l, isLineBreak c = false) (hne : l.all isSpace = false) :
    lines l = [l] ∧ lines (l ++ ['\n']) = [l] := by
  have hnil : l ≠ [] := by
    rintro rfl
    cases hne
  have hnewline := splitlines_newline hl []
  rw [splitlines_nil] at hnewline
  constructor
  · simp [lines, splitlines_line hl hnil, hne]
  · simp [lines, hnewline, hne]

end Lines

end HpcAgentBench
