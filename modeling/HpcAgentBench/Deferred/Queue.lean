import HpcAgentBench.Judge.Router
import HpcAgentBench.Lib.Json
import HpcAgentBench.Lib.Lines
import Mathlib.Data.List.Sort

/-!
# The queue of deferred submits

A judge rank appends each deferred `/submit` to its queue file as one JSON line (`append`), and
answers it as spent; `read` gives the entries of the file, and `pending` those the `.done` file does
not list.  The file is its text, or `none` before the first append made it; appends run one at a
time, under the queue's lock, and each ends in one of the ways of `Ending`: an `OSError` or the
death of the process may leave any prefix of its bytes in the file.

## Main results

* `parse_dumps`, `parse_cut` : an entry's line is read back, and no cut line is read.
* `read_append` : an append adds its entry to what is read exactly if its whole JSON text reached
  the file, and changes nothing else.
* `queue_atomic` : the queue holds exactly the entries whose append returned, in order, exactly if
  no append that failed left its whole JSON text in the file.
-/

namespace HpcAgentBench

open List

namespace Deferred

open Json Lines Judge

/-- One queued `/submit`: its time, the router's setup header, the id its answer named, the raw body
and the agent folder frozen for it (`""` = none). -/
structure DeferredSubmit where
  tsMs : ℤ
  setup : String
  requestId : String
  body : String
  folder : String
  deriving DecidableEq, Repr

namespace DeferredSubmit

/-- The first item of `asdict`, its keys sorted. -/
def first (entry : DeferredSubmit) : String × Scalar := ("body", .str entry.body)

/-- The other items of `asdict`, their keys sorted. -/
def rest (entry : DeferredSubmit) : List (String × Scalar) :=
  [("folder", .str entry.folder), ("request_id", .str entry.requestId),
    ("setup", .str entry.setup), ("ts_ms", .int entry.tsMs)]

/-- `json.dumps(asdict(entry), sort_keys=True)`. -/
def dumps (entry : DeferredSubmit) : List Char := dumpsObj entry.first entry.rest

/-- The line of an entry. -/
def line (entry : DeferredSubmit) : List Char := entry.dumps ++ ['\n']

def fields : List String := ["ts_ms", "setup", "request_id", "body", "folder"]

def strField (members : List (String × Value)) (key : String) : Option String :=
  match members.lookup key with
  | some (.str s) => some s
  | _ => none

def intField (members : List (String × Value)) (key : String) : Option ℤ :=
  match members.lookup key with
  | some (.int i) => some i
  | _ => none

/-- `DeferredSubmit(**members)`, or `none` where the call raises `TypeError`.  It is `none` as well
for a value of another type than its field has, which the call takes and no append writes. -/
def ofMembers (members : List (String × Value)) : Option DeferredSubmit :=
  if members.all fun m => m.1 ∈ fields then do
    let tsMs ← intField members "ts_ms"
    let setup ← strField members "setup"
    let requestId ← strField members "request_id"
    let body ← strField members "body"
    let folder ← if (members.lookup "folder").isNone then some "" else strField members "folder"
    some { tsMs, setup, requestId, body, folder }
  else none

/-- `DeferredSubmit(**json.loads(line))`, or `none` where it raises. -/
def parse (line : List Char) : Option DeferredSubmit :=
  match loads line with
  | some (.obj members) => ofMembers members
  | _ => none

end DeferredSubmit

/-! ### The files -/

/-- How an append ends. -/
inductive Ending
  | returned
  /-- An `OSError`, before the file was opened or with so many of the bytes in it. -/
  | raised (exc : String) (written : Option ℕ)
  /-- The process died, before it opened the file or with so many of the bytes in it. -/
  | died (written : Option ℕ)
  deriving DecidableEq, Repr

namespace Ending

/-- How many of `total` bytes reached the file, once it was opened. -/
def written (total : ℕ) : Ending → Option ℕ
  | returned => some total
  | raised _ n | died n => n

end Ending

/-- One `append`: its entry and how it ends. -/
structure Attempt where
  entry : DeferredSubmit
  ending : Ending
  deriving DecidableEq, Repr

/-- The bytes `append` writes: a torn last line is ended first. -/
def data (queue : Option (List Char)) (entry : DeferredSubmit) : List Char :=
  (if Torn (queue.getD []) then ['\n'] else []) ++ entry.line

/-- `append`: what it leaves of the file. -/
def append (queue : Option (List Char)) (a : Attempt) : Option (List Char) :=
  match a.ending.written (data queue a.entry).length with
  | none => queue
  | some n => some (queue.getD [] ++ (data queue a.entry).take n)

/-- `read`, of a file that exists. -/
def read (text : List Char) : List DeferredSubmit := (lines text).filterMap DeferredSubmit.parse

/-- `done_ids`. -/
def doneIds (done : Option (List Char)) : List String :=
  (lines (done.getD [])).map fun line => strip (String.ofList line)

/-- `pending`. -/
def pending (text : List Char) (done : Option (List Char)) : List DeferredSubmit :=
  ((read text).filter fun entry => entry.requestId ∉ doneIds done).insertionSort
    fun a b => a.tsMs ≤ b.tsMs

/-- `queue_fault`: the judge fault of a /submit that could not be queued. -/
def queueFault (exc : String) : ℕ × JudgeError :=
  (internalServerError, {
    error := "could not queue the /submit: " ++ exc
    cause := some judgeFaultCause
    ok := none })

/-- `defer_submit` from `append` on: the answer, unless the process died. -/
def deferAnswer (a : Attempt) : Option (Except (ℕ × JudgeError) SubmitVerdict) :=
  match a.ending with
  | .returned => some (.ok {
      correct := .deferred, requestId := a.entry.requestId, buildLog := none, judgeFault := none })
  | .raised exc _ => some (.error (queueFault exc))
  | .died _ => none

/-- The file after the appends, made by the first that opens it. -/
def queueAfter (attempts : List Attempt) : Option (List Char) := attempts.foldl append none

/-- The entries whose append returned, in order. -/
def returned (attempts : List Attempt) : List DeferredSubmit :=
  (attempts.filter fun a => a.ending = .returned).map (·.entry)

/-! ### Lines of entries -/

theorem parse_dumps (entry : DeferredSubmit) : DeferredSubmit.parse entry.dumps = some entry := by
  have hkeys : ((entry.first :: entry.rest).map (·.1)).Nodup := by
    show ["body", "folder", "request_id", "setup", "ts_ms"].Nodup
    decide
  rw [DeferredSubmit.parse, DeferredSubmit.dumps, loads_dumpsObj _ _ hkeys]
  rfl

variable {entry : DeferredSubmit} {queue : Option (List Char)} {a : Attempt} {text : List Char}

/-- A line cut inside its JSON text is not read. -/
theorem parse_cut {p : List Char} (h : Cut p entry.dumps) :
    DeferredSubmit.parse p = none := by
  rw [DeferredSubmit.parse, loads_of_prefix _ _ h]

theorem printable_not_break {c : Char} (h : Printable c) : isLineBreak c = false := by
  obtain ⟨hlow, hhigh⟩ := h
  simp only [isLineBreak, Bool.or_eq_false_iff, Bool.and_eq_false_iff, decide_eq_false_iff_not]
  omega

theorem dumps_no_break : ∀ c ∈ entry.dumps, isLineBreak c = false :=
  fun _ hc => printable_not_break (dumpsObj_printable hc)

theorem length_dumps (entry : DeferredSubmit) : 2 ≤ entry.dumps.length := by
  simp [DeferredSubmit.dumps, dumpsObj]

/-- What is read of the first bytes of an entry's line. -/
theorem read_take_line (entry : DeferredSubmit) (n : ℕ) :
    read (entry.line.take n) = if entry.line.length ≤ n + 1 then [entry] else [] := by
  have hblank : entry.dumps.all isSpace = false := rfl
  obtain ⟨hopen, hended⟩ := lines_line dumps_no_break hblank
  have hlen : entry.line.length = entry.dumps.length + 1 := by simp [DeferredSubmit.line]
  split
  · next hn =>
    have htake : entry.line.take n = entry.dumps ∨ entry.line.take n = entry.line := by
      rcases Nat.lt_or_ge n entry.line.length with hlt | hge
      · left
        obtain rfl : n = entry.dumps.length := by omega
        simp [DeferredSubmit.line]
      · exact .inr (take_of_length_le hge)
    rcases htake with htake | htake <;> rw [htake]
    · rw [read, hopen]
      simp [parse_dumps]
    · rw [read, DeferredSubmit.line, hended]
      simp [parse_dumps]
  · next hn =>
    have hcut : Cut (entry.line.take n) entry.dumps := by
      refine ⟨entry.dumps.drop n, ?_, ?_⟩
      · rw [ne_eq, drop_eq_nil_iff]
        omega
      · rw [DeferredSubmit.line, take_append_of_le_length (by omega), take_append_drop]
    have hbreak : ∀ c ∈ entry.line.take n, isLineBreak c = false := fun c hc =>
      dumps_no_break c (hcut.subset hc)
    -- a cut line is blank, or one line that is not JSON
    cases hspace : (entry.line.take n).all isSpace with
    | false => rw [read, (lines_line hbreak hspace).1]; simp [parse_cut hcut]
    | true =>
      have hnil : entry.line.take n = [] := by
        cases n with
        | zero => rfl
        | succ n => cases hspace
      rw [hnil]
      rfl

/-! ### One append -/

/-- The characters of a queue. -/
def Plain (text : List Char) : Prop := ∀ c ∈ text, c = '\n' ∨ Printable c

theorem line_plain (entry : DeferredSubmit) : Plain entry.line := by
  intro c hc
  rcases mem_append.mp hc with hc | hc
  · exact .inr (dumpsObj_printable hc)
  · exact .inl (mem_singleton.mp hc)

theorem data_plain (queue : Option (List Char)) (entry : DeferredSubmit) :
    Plain (data queue entry) := by
  intro c hc
  rcases mem_append.mp hc with hc | hc
  · split at hc
    · exact .inl (mem_singleton.mp hc)
    · cases hc
  · exact line_plain entry c hc

theorem append_plain (h : Plain (queue.getD [])) :
    Plain ((append queue a).getD []) := by
  unfold append
  split
  · exact h
  · intro c hc
    rcases mem_append.mp hc with hc | hc
    · exact h c hc
    · exact data_plain queue a.entry c (mem_of_mem_take hc)

theorem read_append_of_not_torn (h : ¬ Torn text) (s : List Char) :
    read (text ++ s) = read text ++ read s := by
  rw [read, lines_append h, filterMap_append]
  rfl

theorem read_torn (hplain : Plain text) (h : Torn text) (s : List Char) :
    read (text ++ '\n' :: s) = read text ++ read s := by
  obtain ⟨c, hlast, hc⟩ := h
  have hprintable := (hplain c (mem_of_getLast? hlast)).resolve_left hc
  rw [read, lines_torn hlast (printable_not_break hprintable), filterMap_append]
  rfl

/-- What the first `n` bytes of an append add to what is read. -/
theorem read_append_take (queue : Option (List Char)) (entry : DeferredSubmit) (n : ℕ)
    (h : Plain (queue.getD [])) :
    read (queue.getD [] ++ (data queue entry).take n) =
      read (queue.getD []) ++ if (data queue entry).length ≤ n + 1 then [entry] else [] := by
  by_cases ht : Torn (queue.getD [])
  · have hdata : data queue entry = '\n' :: entry.line := by
      simp [data, ht]
    rw [hdata]
    cases n with
    | zero =>
      have hlen := length_dumps entry
      simp only [take_zero, append_nil, length_cons]
      rw [if_neg (by simp only [DeferredSubmit.line, length_append]; omega), append_nil]
    | succ n =>
      rw [take_succ_cons, read_torn h ht, read_take_line]
      simp
  · have hdata : data queue entry = entry.line := by
      simp [data, ht]
    rw [hdata, read_append_of_not_torn ht, read_take_line]

/-- The whole JSON text of an append is in the file. -/
def lands (queue : Option (List Char)) (a : Attempt) : Bool :=
  (a.ending.written (data queue a.entry).length).any fun n =>
    (data queue a.entry).length ≤ n + 1

theorem lands_of_returned (h : a.ending = .returned) : lands queue a = true := by
  simp [lands, h, Ending.written]

/-- **An append adds its entry to what is read exactly if its whole JSON text reached the file.** -/
theorem read_append (a : Attempt) (h : Plain (queue.getD [])) :
    read ((append queue a).getD []) =
      read (queue.getD []) ++ if lands queue a then [a.entry] else [] := by
  unfold append lands
  cases a.ending.written (data queue a.entry).length with
  | none => simp
  | some n => simpa using read_append_take queue a.entry n h

/-! ### Runs of appends -/

/-- A failed append that left its whole JSON text in the file, all but perhaps the newline. -/
def leftWhole (queue : Option (List Char)) (a : Attempt) : Bool :=
  a.ending ≠ .returned && lands queue a

/-- No append that fails leaves its whole JSON text in the file. -/
def Clean : Option (List Char) → List Attempt → Prop
  | _, [] => True
  | queue, a :: rest => leftWhole queue a = false ∧ Clean (append queue a) rest

/-- The entries whose JSON text is in the file. -/
def landed : Option (List Char) → List Attempt → List DeferredSubmit
  | _, [] => []
  | queue, a :: rest => (if lands queue a then [a.entry] else []) ++ landed (append queue a) rest

theorem read_foldl (attempts : List Attempt) (queue : Option (List Char))
    (h : Plain (queue.getD [])) :
    read ((attempts.foldl append queue).getD []) =
      read (queue.getD []) ++ landed queue attempts := by
  induction attempts generalizing queue with
  | nil => simp [landed]
  | cons a rest ih =>
    rw [foldl_cons, ih _ (append_plain h), read_append a h, append_assoc]
    rfl

theorem returned_cons (a : Attempt) (rest : List Attempt) :
    returned (a :: rest) =
      (if a.ending = .returned then [a.entry] else []) ++ returned rest := by
  by_cases h : a.ending = .returned <;> simp [returned, h]

theorem length_returned_le (attempts : List Attempt) (queue : Option (List Char)) :
    (returned attempts).length ≤ (landed queue attempts).length := by
  induction attempts generalizing queue with
  | nil => simp [returned]
  | cons a rest ih =>
    have hrest := ih (append queue a)
    rw [returned_cons, landed, length_append, length_append]
    by_cases h : a.ending = .returned
    · rw [if_pos h, if_pos (lands_of_returned h)]
      omega
    · rw [if_neg h, length_nil]
      omega

/-- What is in the file are the entries whose append returned, exactly if no other append left its
JSON text. -/
theorem landed_eq_returned (attempts : List Attempt) (queue : Option (List Char)) :
    landed queue attempts = returned attempts ↔ Clean queue attempts := by
  induction attempts generalizing queue with
  | nil => simp [landed, returned, Clean]
  | cons a rest ih =>
    rw [landed, returned_cons, Clean, ← ih]
    by_cases h : a.ending = .returned
    · simp [h, lands_of_returned h, leftWhole]
    · by_cases hland : lands queue a = true
      · -- an entry too many
        have hlen := length_returned_le rest (append queue a)
        have hne : a.entry :: landed (append queue a) rest ≠ returned rest := by
          intro heq
          have hcount := congrArg List.length heq
          rw [length_cons] at hcount
          omega
        simpa [h, hland, leftWhole] using hne
      · simp [h, hland, leftWhole]

/-- Every entry in the file is one that was appended. -/
theorem landed_sublist (attempts : List Attempt) (queue : Option (List Char)) :
    (landed queue attempts).Sublist (attempts.map (·.entry)) := by
  induction attempts generalizing queue with
  | nil => exact .slnil
  | cons a rest ih =>
    rw [landed, map_cons]
    split
    · exact (ih _).cons_cons a.entry
    · exact (ih _).cons a.entry

theorem read_queueAfter (attempts : List Attempt) :
    read ((queueAfter attempts).getD []) = landed none attempts :=
  read_foldl attempts none (by rintro c ⟨⟩)

theorem mem_pending {done : Option (List Char)} :
    entry ∈ pending text done ↔ entry ∈ read text ∧ entry.requestId ∉ doneIds done := by
  simp [pending, mem_insertionSort]

/-- The queue fault reaches the router as a judge's own failure: the reserved key is free again. -/
theorem queueFault_unspent {Caller Setup Content : Type*} (env : Env Caller Setup Content)
    {exc : String} {content : Content} (h : env.judgeError content = some (queueFault exc).2)
    (spent : Finset Key) (key : Key) :
    (env.settle spent (some key) (.response (queueFault exc).1 content)).1 = spent.erase key := by
  have hfailed : env.judgeFailed internalServerError content = true := by
    simp [Env.judgeFailed, h, queueFault]
  simp only [Env.settle, Env.forward, queueFault, hfailed, Bool.or_true, if_true]
  rw [if_pos (by decide)]
  rfl

/-- **The queue holds exactly the entries whose append returned, in order, exactly if no append
that failed left its whole JSON text in the file.**  An append that raised is answered by a fault
after which the router takes the submission for unspent. -/
theorem queue_atomic {Caller Setup Content : Type*} (env : Env Caller Setup Content)
    (attempts : List Attempt) {text : List Char} (h : queueAfter attempts = some text) :
    (∀ a ∈ attempts, ∀ fault content spent key, deferAnswer a = some (.error fault) →
      env.judgeError content = some fault.2 →
      a.ending ≠ .returned ∧
        (env.settle spent (some key) (.response fault.1 content)).1 = spent.erase key) ∧
    ((read text = returned attempts ∧
        ∀ done, ∀ entry ∈ pending text done, entry ∈ returned attempts) ↔
      Clean none attempts) := by
  have hread : read text = landed none attempts := by
    have hrun := read_queueAfter attempts
    rwa [h] at hrun
  constructor
  · rintro ⟨entry, ending⟩ - fault content spent key hanswer hcontent
    cases ending with
    | returned => cases hanswer
    | died n => cases hanswer
    | raised exc n =>
      obtain rfl : queueFault exc = fault := by
        simpa [deferAnswer] using hanswer
      exact ⟨by simp, queueFault_unspent env hcontent spent key⟩
  · rw [hread, landed_eq_returned]
    constructor
    · exact fun hall => hall.1
    · intro hclean
      refine ⟨hclean, fun done entry hpending => ?_⟩
      rw [← (landed_eq_returned attempts none).mpr hclean, ← hread]
      exact (mem_pending.mp hpending).1

/-! ### Failed appends -/

/-- A queued `/submit` of an episode without a folder. -/
def submitAt (tsMs : ℤ) (requestId : String) : DeferredSubmit where
  tsMs := tsMs
  setup := ""
  requestId := requestId
  body := "[]"
  folder := ""

/-- A router in front of a judge whose answers are its faults. -/
def faultEnv : Env Unit Unit JudgeError where
  callerSetup := fun _ => .ok ()
  contractValue := fun _ _ => ""
  submitGrading := .deferred
  repr := fun s => "'" ++ s ++ "'"
  upstreamUrl := "http://127.0.0.1:8801"
  judgeError := some
  submitAnswer := fun _ => none

/-- The disk is full after 20 bytes of the first entry; the second is appended whole. -/
def tornThenWhole : List Attempt :=
  [⟨submitAt 1700000000000 "a0", .raised "[Errno 28] No space left on device" (some 20)⟩,
    ⟨submitAt 1700000000500 "b1", .returned⟩]

theorem queue_atomic_torn : ∃ text, queueAfter tornThenWhole = some text ∧
    read text = [submitAt 1700000000500 "b1"] ∧
    (faultEnv.settle {("llr.n0.p0.w0", "vadv")} (some ("llr.n0.p0.w0", "vadv"))
      (.response 500 (queueFault "[Errno 28] No space left on device").2)).1 = ∅ := by
  obtain ⟨hfault, hread⟩ := queue_atomic faultEnv tornThenWhole rfl
  have hclean : Clean none tornThenWhole := ⟨by decide, by decide, trivial⟩
  have hfree := (hfault _ mem_cons_self (queueFault "[Errno 28] No space left on device") _
    {("llr.n0.p0.w0", "vadv")} ("llr.n0.p0.w0", "vadv") rfl rfl).2
  exact ⟨_, rfl, (hread.mpr hclean).1, hfree.trans rfl⟩

/-- **An entry whose append raised is read.**  The error is that of the `fsync`: the line is in the
file, and what was answered is that nothing was queued. -/
theorem raised_entry_read :
    let a : Attempt := ⟨submitAt 1700000000000 "a0", .raised "[Errno 5] Input/output error"
      (some (submitAt 1700000000000 "a0").line.length)⟩
    (queueAfter [a]).map read = some [a.entry] ∧ returned [a] = [] ∧
      deferAnswer a = some (.error (queueFault "[Errno 5] Input/output error")) := by
  intro a
  have hread := read_append a (fun c hc => absurd hc not_mem_nil : Plain (none.getD []))
  have hlands : lands none a = true := by decide
  rw [hlands] at hread
  exact ⟨congrArg some hread, rfl, rfl⟩

end Deferred

end HpcAgentBench
