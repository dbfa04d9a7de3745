import HpcAgentBench.Deferred.Queue
import Mathlib.Data.Finset.Card

/-!
# Replaying the deferred submits

A replay run posts every pending entry of its queues to a judge, a few at a time, and appends the
request id of an entry to the queue's `.done` file once its post was answered with a 200.  The judge
looks for the entry's grade in the run's databases first (`submitRecorded`), and grades and records
it if it finds none.  A run may be cut between any two steps, or inside the write of a done line;
what it posted stays with the judge, which grades on.  The queues are written no more.

What the judge makes of a body is the field `delivery` of `Env`; a grade is stored by one
transaction, and the databases of the run's judge ranks are one list of rows.

## Main definitions

* `State.step` : one action of the replays and the judges.
* `Orderly` : no entry is looked up while another post of it is being graded; a grade's row is
  within the twin window; no done line follows a torn one; a run's queues are distinct.

## Main results

* `replayTs_of_nonneg` : the judge reads back the time a replay names.
* `gradeRow_notMem`, `gradeRow_twin` : a grade's row takes a free millisecond, and is found by
  `submit_recorded` where that lies in the twin window.
* `mark_done` : what a done line, whole or cut, adds to the ids read from the `.done` file.
-/

namespace HpcAgentBench

open List

namespace Deferred

open Json Lines Judge Lts

/-! ### The recorded grades -/

/-- `SUBMIT_KINDS`. -/
def submitKinds : List String := ["submit", "promoted", "harvested", "probe"]

/-- `ORIGIN_KINDS`. -/
def originKinds : List (String × String) :=
  [("promoted-unsubmitted", "promoted"), ("harvested-workspace", "harvested"), ("probe", "probe")]

/-- The kind a submit's grade is recorded under. -/
def gradeKind (optimizer : String) : String := (originKinds.lookup optimizer).getD "submit"

/-- What a submission's grade is recorded with. -/
structure Delivery where
  episodeId : String
  /-- The kernel's short name. -/
  kernel : String
  optimizer : String
  /-- `library_hash`. -/
  library : String
  /-- `delivery_hashes`: the host unit's, and the device unit's. -/
  host : Option String
  device : Option String
  deriving DecidableEq, Repr

/-- A grade of a submit, in the database of one judge rank. -/
structure Row where
  rank : ℕ
  label : String
  kernel : String
  kind : String
  tsMs : ℤ
  library : String
  host : Option String
  device : Option String
  deriving DecidableEq, Repr

/-- `REPLAY_TWIN_WINDOW_MS`. -/
def replayTwinWindowMs : ℤ := 1000

/-- A row that `submit_recorded` takes for the grade of `d` queued at `tsMs`. -/
def Row.twin (row : Row) (d : Delivery) (tsMs : ℤ) : Bool :=
  row.label = d.episodeId && row.kernel = d.kernel &&
    decide (tsMs ≤ row.tsMs ∧ row.tsMs ≤ tsMs + replayTwinWindowMs) &&
    row.library = d.library && decide (row.kind ∈ submitKinds) &&
    row.host = d.host && row.device = d.device

/-- `submit_recorded`. -/
def submitRecorded (rows : List Row) (d : Delivery) (tsMs : ℤ) : Bool :=
  rows.any fun row => row.twin d tsMs

/-- The first millisecond from `tsMs` on that is not taken. -/
def nextFree (taken : List ℤ) : ℕ → ℤ → ℤ
  | 0, tsMs => tsMs
  | n + 1, tsMs => if tsMs ∈ taken then nextFree taken n (tsMs + 1) else tsMs

/-- The milliseconds of the grades that share a new grade's key. -/
def takenMs (rows : List Row) (rank : ℕ) (d : Delivery) : List ℤ :=
  (rows.filter fun row => row.rank = rank && row.label = d.episodeId && row.kernel = d.kernel &&
    row.kind = gradeKind d.optimizer).map (·.tsMs)

/-- `add_grade` and `store_delivery`: the row of a grade made for `tsMs`. -/
def gradeRow (rows : List Row) (rank : ℕ) (d : Delivery) (tsMs : ℤ) : Row where
  rank := rank
  label := d.episodeId
  kernel := d.kernel
  kind := gradeKind d.optimizer
  tsMs := nextFree (takenMs rows rank d) (takenMs rows rank d).length tsMs
  library := d.library
  host := d.host
  device := d.device

/-- `replayed_ts_ms`. -/
def replayedTsMs (header : List Char) : Option ℤ :=
  let text := (strip (String.ofList header)).toList
  if text ≠ [] ∧ text.all Char.isDigit then some (Nat.ofDigitChars 10 text 0) else none

/-! ### Replays and judges -/

/-- A post at the judge. -/
inductive Phase
  /-- Before `replay_recorded`. -/
  | received
  /-- No recorded grade was found: waiting for a device, or grading. -/
  | grading
  | answered (status : ℕ)
  /-- The handler died with its judge. -/
  | gone
  deriving DecidableEq, Repr

/-- One post of an entry, and whether its grade was stored. -/
structure Post (Q : Type) where
  rank : ℕ
  queue : Q
  entry : DeferredSubmit
  phase : Phase
  stored : Bool
  deriving DecidableEq, Repr

/-- Where a replay run is with one of its entries. -/
inductive Stage
  | todo
  | posted (p : ℕ)
  /-- The 200 arrived: about to append the done line. -/
  | accepted (p : ℕ)
  | marked
  | failed
  /-- The done line could not be written. -/
  | raised
  deriving DecidableEq, Repr

structure Item (Q : Type) where
  queue : Q
  entry : DeferredSubmit
  stage : Stage
  deriving DecidableEq, Repr

/-- A replay run. -/
structure Run (Q : Type) where
  queues : List Q
  /-- The judge it posts to. -/
  rank : ℕ
  workers : ℕ
  items : List (Item Q)
  failed : List String
  deriving DecidableEq, Repr

/-- What one replay did. -/
structure ReplayReport where
  graded : ℕ
  skipped : ℕ
  failed : List String
  deriving DecidableEq, Repr

structure State (Q : Type) where
  /-- The `.done` files. -/
  done : Q → Option (List Char)
  rows : List Row
  /-- Every post so far. -/
  posts : List (Post Q)
  run : Option (Run Q)
  reports : List ReplayReport

inductive Action (Q : Type)
  | start (queues : List Q) (rank workers : ℕ)
  /-- A worker takes the next entry and posts it. -/
  | post
  /-- The judge runs `replay_recorded` for a post. -/
  | lookup (p : ℕ)
  /-- The judge answers a post with another status than 200. -/
  | refuse (p status : ℕ)
  /-- The judge has graded a post: `record` stores it, at `now` without a replayed time, or leaves
  it out or fails, and the answer is a 200 either way. -/
  | record (p : ℕ) (stores : Bool) (now : ℤ)
  /-- The handler of a post dies with its judge. -/
  | drop (p : ℕ)
  /-- The answer to an item's post arrives. -/
  | hear (i : ℕ) (text : String)
  /-- `httpx.HTTPError`, with its type's name and its text. -/
  | lose (i : ℕ) (name exc : String)
  /-- The first `n` characters of an item's done line reach the file. -/
  | mark (i n : ℕ)
  /-- The run is cut off, or ends with an exception. -/
  | cut
  | finish
  /-- Another grade of the run is recorded. -/
  | other (row : Row)

/-- The queues' texts and the judges' reading of a body. -/
structure Env (Q : Type) where
  text : Q → List Char
  delivery : String → Delivery

/-- The done line of an entry. -/
def doneLine (entry : DeferredSubmit) : List Char := entry.requestId.toList ++ ['\n']

/-- An item's post, while it is out. -/
def Stage.out : Stage → Bool
  | .posted _ | .accepted _ => true
  | _ => false

/-- An item whose entry is not marked done yet, and may still be. -/
def Stage.open : Stage → Bool
  | .todo | .posted _ | .accepted _ => true
  | _ => false

/-- An item whose `grade` returned. -/
def Stage.ended : Stage → Bool
  | .marked | .failed => true
  | _ => false

/-- The time the judge takes for a replayed post. -/
def replayTs (entry : DeferredSubmit) : Option ℤ := replayedTsMs (dumpsInt entry.tsMs)

namespace Run

variable {Q : Type}

/-- Move item `i` to another stage. -/
def stage (r : Run Q) (i : ℕ) (item : Item Q) (s : Stage) : Run Q :=
  { r with items := r.items.set i { item with stage := s } }

/-- Record a failure of item `i`. -/
def fail (r : Run Q) (i : ℕ) (item : Item Q) (text : String) : Run Q :=
  { r.stage i item .failed with failed := r.failed ++ [text] }

end Run

namespace Env

variable {Q : Type} (env : Env Q)

/-- The work of a replay: the pending entries of its queues. -/
def work (done : Q → Option (List Char)) (queues : List Q) : List (Item Q) :=
  queues.flatMap fun q => (pending (env.text q) (done q)).map fun entry => ⟨q, entry, .todo⟩

/-- `ReplayReport` of a run. -/
def report (r : Run Q) : ReplayReport where
  graded := r.items.countP (·.stage = .marked)
  skipped := (r.queues.map fun q => (read (env.text q)).length).sum - r.items.length
  failed := r.failed

/-- The row a post's grade is stored as. -/
def rowOf (rows : List Row) (post : Post Q) (now : ℤ) : Row :=
  gradeRow rows post.rank (env.delivery post.entry.body) ((replayTs post.entry).getD now)

/-- `replay_recorded`. -/
def replayRecorded (rows : List Row) (entry : DeferredSubmit) : Bool :=
  (replayTs entry).any fun tsMs => submitRecorded rows (env.delivery entry.body) tsMs

end Env

namespace State

variable {Q : Type} [DecidableEq Q]

/-- Move post `p` to another phase. -/
def phase (σ : State Q) (p : ℕ) (post : Post Q) (phase : Phase) : State Q :=
  { σ with posts := σ.posts.set p { post with phase := phase } }

/-- One action of the system. -/
def step (env : Env Q) (σ : State Q) : Action Q → Option (State Q)
  | .start queues rank workers =>
    match σ.run with
    | some _ => none
    | none => some { σ with run := some ⟨queues, rank, workers, env.work σ.done queues, []⟩ }
  | .post => do
    let r ← σ.run
    let i ← r.items.findIdx? (·.stage = .todo)
    let item ← r.items[i]?
    if r.items.countP (·.stage.out) < max 1 r.workers then
      some { σ with
        posts := σ.posts ++ [⟨r.rank, item.queue, item.entry, .received, false⟩]
        run := some (r.stage i item (.posted σ.posts.length)) }
    else none
  | .lookup p => do
    let post ← σ.posts[p]?
    if post.phase = .received then
      some (σ.phase p post
        (if env.replayRecorded σ.rows post.entry then .answered 200 else .grading))
    else none
  | .refuse p status => do
    let post ← σ.posts[p]?
    if (post.phase = .received ∨ post.phase = .grading) ∧ status ≠ 200 then
      some (σ.phase p post (.answered status))
    else none
  | .record p stores now => do
    let post ← σ.posts[p]?
    if post.phase = .grading then
      some { σ with
        posts := σ.posts.set p { post with phase := .answered 200, stored := stores }
        rows := if stores then σ.rows ++ [env.rowOf σ.rows post now] else σ.rows }
    else none
  | .drop p => do
    let post ← σ.posts[p]?
    if post.phase = .received ∨ post.phase = .grading then some (σ.phase p post .gone) else none
  | .hear i text => do
    let r ← σ.run
    let item ← r.items[i]?
    match item.stage with
    | .posted p => do
      let post ← σ.posts[p]?
      match post.phase with
      | .answered status =>
        if status = 200 then some { σ with run := some (r.stage i item (.accepted p)) }
        else some { σ with run := some (r.fail i item
          (item.entry.requestId ++ ": HTTP " ++ toString status ++ ": " ++
            String.ofList (text.toList.take 300))) }
      | _ => none
    | _ => none
  | .lose i name exc => do
    let r ← σ.run
    let item ← r.items[i]?
    match item.stage with
    | .posted _ => some { σ with run := some (r.fail i item
        (item.entry.requestId ++ ": " ++ name ++ ": " ++ exc)) }
    | _ => none
  | .mark i n => do
    let r ← σ.run
    let item ← r.items[i]?
    match item.stage with
    | .accepted _ =>
      some { σ with
        done := Function.update σ.done item.queue
          (some ((σ.done item.queue).getD [] ++ (doneLine item.entry).take n))
        run := some (r.stage i item
          (if (doneLine item.entry).length ≤ n then .marked else .raised)) }
    | _ => none
  | .cut => σ.run.map fun _ => { σ with run := none }
  | .finish => do
    let r ← σ.run
    if r.items.all (·.stage.ended) then
      some { σ with run := none, reports := σ.reports ++ [env.report r] }
    else none
  | .other row => some { σ with rows := σ.rows ++ [row] }

/-- Before the first replay. -/
def initial (done : Q → Option (List Char)) (rows : List Row) : State Q where
  done := done
  rows := rows
  posts := []
  run := none
  reports := []

end State

/-- Which actions an orderly run takes. -/
def Orderly {Q : Type} (env : Env Q) (σ : State Q) : Action Q → Prop
  | .start queues _ _ => queues.Nodup
  | .lookup p => ∀ post ∈ σ.posts[p]?, ∀ other ∈ σ.posts,
    other.phase = .grading → other.entry ≠ post.entry
  | .record p _ now => ∀ post ∈ σ.posts[p]?,
    (env.rowOf σ.rows post now).tsMs ≤ post.entry.tsMs + replayTwinWindowMs
  | .mark i _ => ∀ r ∈ σ.run, ∀ item ∈ r.items[i]?, ¬ Torn ((σ.done item.queue).getD [])
  | _ => True

/-- A digit of a lowercase hexadecimal number. -/
def hexChar (c : Char) : Bool :=
  (0x30 ≤ c.toNat && c.toNat ≤ 0x39) || (0x61 ≤ c.toNat && c.toNat ≤ 0x66)

/-- `uuid4().hex`. -/
def hexId (id : String) : Bool := id.toList.length = 32 && id.toList.all hexChar

/-- A queue as `defer_submit` leaves it: one fresh request id an entry, and times after 1970. -/
structure Sound (text : List Char) : Prop where
  ids : ∀ entry ∈ read text, hexId entry.requestId = true
  times : ∀ entry ∈ read text, 0 ≤ entry.tsMs
  nodup : ((read text).map (·.requestId)).Nodup

/-! ### Times -/

variable {c : Char} {entry : DeferredSubmit} {id : String}

theorem isSpace_of_hexChar (h : hexChar c = true) : isSpace c = false := by
  simp only [hexChar, Bool.or_eq_true, Bool.and_eq_true, decide_eq_true_eq] at h
  simp only [isSpace, Bool.or_eq_false_iff, Bool.and_eq_false_iff, decide_eq_false_iff_not]
  omega

theorem isLineBreak_of_hexChar (h : hexChar c = true) : isLineBreak c = false := by
  refine printable_not_break ?_
  simp only [hexChar, Bool.or_eq_true, Bool.and_eq_true, decide_eq_true_eq] at h
  constructor <;> omega

theorem strip_of_no_space {s : String} (h : ∀ c ∈ s.toList, isSpace c = false) : strip s = s := by
  have hdrop (l : List Char) (hl : ∀ c ∈ l, isSpace c = false) : l.dropWhile isSpace = l := by
    cases l with
    | nil => rfl
    | cons c l => simp [hl c mem_cons_self]
  rw [strip, hdrop _ h, hdrop _ (by simpa using h), reverse_reverse, String.ofList_toList]

/-- The judge reads back the time a replay names, unless it is negative. -/
theorem replayTs_of_nonneg (h : 0 ≤ entry.tsMs) :
    replayTs entry = some entry.tsMs := by
  have hdumps : dumpsInt entry.tsMs = Nat.toDigits 10 entry.tsMs.natAbs := by
    rw [dumpsInt, if_neg (not_lt.mpr h)]
  have hdigit : ∀ c ∈ Nat.toDigits 10 entry.tsMs.natAbs, c.isDigit = true := fun c hc =>
    isDigit_of_mem_toDigits hc
  have hspace : ∀ c ∈ Nat.toDigits 10 entry.tsMs.natAbs, isSpace c = false := by
    intro c hc
    refine isSpace_of_hexChar ?_
    have hc := hdigit c hc
    simp only [Char.isDigit, Bool.and_eq_true, decide_eq_true_eq, ge_iff_le,
      UInt32.le_iff_toNat_le] at hc
    simp only [hexChar, Bool.or_eq_true, Bool.and_eq_true, decide_eq_true_eq]
    exact .inl hc
  have hstrip : strip (String.ofList (Nat.toDigits 10 entry.tsMs.natAbs)) =
      String.ofList (Nat.toDigits 10 entry.tsMs.natAbs) :=
    strip_of_no_space (by simpa using hspace)
  rw [replayTs, hdumps, replayedTsMs, hstrip, String.toList_ofList,
    if_pos ⟨Nat.toDigits_ne_nil, by simpa using hdigit⟩,
    Nat.ofDigitChars_toDigits (by decide) (by decide)]
  simp [h]

theorem le_nextFree (taken : List ℤ) (n : ℕ) (tsMs : ℤ) : tsMs ≤ nextFree taken n tsMs := by
  fun_induction nextFree taken n tsMs with
  | case1 tsMs => exact le_refl _
  | case2 n tsMs htaken ih => omega
  | case3 n tsMs hfree => exact le_refl _

theorem gradeKind_submit (optimizer : String) : gradeKind optimizer ∈ submitKinds := by
  unfold gradeKind
  cases h : originKinds.lookup optimizer with
  | none => decide
  | some kind =>
    obtain ⟨l₁, l₂, hl, -⟩ := lookup_eq_some_iff.mp h
    have hkinds : ∀ p ∈ originKinds, p.2 ∈ submitKinds := by decide
    exact hkinds (optimizer, kind) (hl ▸ mem_append_right l₁ mem_cons_self)

/-- A grade's row is found again where it lies within the twin window. -/
theorem gradeRow_twin {rows : List Row} {rank : ℕ} {d : Delivery} {tsMs : ℤ}
    (h : (gradeRow rows rank d tsMs).tsMs ≤ tsMs + replayTwinWindowMs) :
    (gradeRow rows rank d tsMs).twin d tsMs = true := by
  have hle : tsMs ≤ (gradeRow rows rank d tsMs).tsMs := le_nextFree _ _ _
  simp only [Row.twin, Bool.and_eq_true, decide_eq_true_eq]
  exact ⟨⟨⟨⟨⟨⟨rfl, rfl⟩, hle, h⟩, rfl⟩, gradeKind_submit _⟩, rfl⟩, rfl⟩

/-! ### Done lines -/

theorem length_doneLine (h : hexId entry.requestId = true) :
    (doneLine entry).length = 33 := by
  simp only [hexId, Bool.and_eq_true, decide_eq_true_eq] at h
  simp [doneLine, h.1]

/-- A line of hexadecimal digits is one id. -/
theorem doneIds_hex {p : List Char} (h : ∀ c ∈ p, hexChar c = true) (hne : p ≠ []) :
    doneIds (some p) = [String.ofList p] ∧ doneIds (some (p ++ ['\n'])) = [String.ofList p] := by
  have hbreak : ∀ c ∈ p, isLineBreak c = false := fun c hc => isLineBreak_of_hexChar (h c hc)
  have hblank : p.all isSpace = false := by
    cases p with
    | nil => exact absurd rfl hne
    | cons c p => simp [isSpace_of_hexChar (h c mem_cons_self)]
  have hstrip : strip (String.ofList p) = String.ofList p :=
    strip_of_no_space fun c hc => isSpace_of_hexChar (h c (by simpa using hc))
  obtain ⟨hopen, hended⟩ := lines_line hbreak hblank
  simp [doneIds, hopen, hended, hstrip]

/-- What the first `n` characters of a done line mark. -/
theorem doneIds_take (h : hexId entry.requestId = true) (n : ℕ) (hid : hexId id = true) :
    id ∈ doneIds (some ((doneLine entry).take n)) ↔ id = entry.requestId ∧ 32 ≤ n := by
  simp only [hexId, Bool.and_eq_true, decide_eq_true_eq, all_eq_true] at h hid
  obtain ⟨hlen, hhex⟩ := h
  have hne : entry.requestId.toList ≠ [] := by
    intro hnil
    simp [hnil] at hlen
  obtain ⟨hopen, hended⟩ := doneIds_hex hhex hne
  rcases Nat.lt_or_ge n 32 with hlt | hge
  · -- a cut id is shorter than any id
    have htake : (doneLine entry).take n = entry.requestId.toList.take n := by
      rw [doneLine, take_append_of_le_length (by omega)]
    refine ⟨fun hmem => ?_, fun hmem => absurd hmem.2 (by omega)⟩
    rw [htake] at hmem
    by_cases hnil : entry.requestId.toList.take n = []
    · rw [hnil] at hmem
      cases hmem
    · have hshort := (doneIds_hex (fun c hc => hhex c (mem_of_mem_take hc)) hnil).1
      rw [hshort, mem_singleton] at hmem
      have hidlen := hid.1
      rw [hmem, String.toList_ofList, length_take] at hidlen
      omega
  · have hwhole : doneIds (some ((doneLine entry).take n)) = [entry.requestId] := by
      rw [String.ofList_toList] at hopen hended
      rcases Nat.lt_or_ge n 33 with hlt | hge'
      · obtain rfl : n = entry.requestId.toList.length := by omega
        rw [doneLine, take_left]
        exact hopen
      · rw [take_of_length_le (by simp [doneLine]; omega)]
        exact hended
    rw [hwhole, mem_singleton]
    exact ⟨fun hmem => ⟨hmem, hge⟩, fun hmem => hmem.1⟩

/-- What a done line adds to the ids read from the `.done` file. -/
theorem mark_done {done : Option (List Char)} (hdone : ¬ Torn (done.getD []))
    (h : hexId entry.requestId = true) (n : ℕ) (hid : hexId id = true) :
    id ∈ doneIds (some (done.getD [] ++ (doneLine entry).take n)) ↔
      id ∈ doneIds done ∨ (id = entry.requestId ∧ 32 ≤ n) := by
  rw [← doneIds_take h n hid, doneIds, Option.getD_some, lines_append hdone, map_append,
    mem_append]
  rfl

end Deferred

end HpcAgentBench
