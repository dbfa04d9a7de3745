import HpcAgentBench.Judge.FinalGrade

/-!
# Settled and owed

A shard final-grades the items of a worklist and settles each one whose grade decided something
(`runCellsShard`); a later worklist lists every submission that no final grade re-timed
(`finalGraded`, `buildOwedWorklist`).  The shard looks at the score rule of the grade it wrote,
the worklist at its reduction stamp, denominator, status and age.

## Main results

* `mem_finished_iff` : what a run of the shard settles.
* `mem_finalGraded_run` : what a run of the shard lets the worklist count.
* `settled_iff_graded` : when the two agree.
-/

namespace HpcAgentBench

open List

namespace Judge

/-! ### Configuration -/

/-- A benchmark track. -/
inductive Track
  | loopLevelReasoning | scientificComputing | machineLearning
  deriving DecidableEq, Repr

/-- The tracks of the kernels and the denominators configured for the tracks. -/
structure Configuration where
  /-- None for a kernel no manifest describes. -/
  trackOf : String → Option Track
  denominatorOf : Track → Denominator

namespace Configuration

/-- The denominator of a kernel on no track. -/
def fallback : Denominator := .bestOfNumbaC

/-- The denominator configured for a track. -/
def configured (cfg : Configuration) : Option Track → Denominator
  | none => fallback
  | some track => cfg.denominatorOf track

/-- The denominator a grade of `kernel` is credited under. -/
def forKernel (cfg : Configuration) (kernel : String) : Denominator :=
  cfg.configured (cfg.trackOf kernel)

end Configuration

/-- Since when a grade counts, per kernel and per reference kind. -/
structure GradingCuts where
  kernels : String → Option ℤ
  references : String → Option ℤ

/-- Whether a final grade of `kernel` at `ts` is from before a cut that applies to it. -/
def staleFinal (cfg : Configuration) (cuts : GradingCuts) (kernel : String) (ts : ℤ) : Bool :=
  let raced := (cfg.forKernel kernel).kinds
  let moments := cuts.kernels kernel :: raced.map cuts.references
  moments.any fun cut => cut.any (ts < ·)

/-! ### Items and rows -/

/-- A recorded grade: its results database and its id in it. -/
structure GradeRef where
  db : String
  gradeId : ℕ
  deriving DecidableEq, Repr

/-- One recorded grade to grade again. -/
structure Item where
  ref : GradeRef
  episodeId : String
  kernel : String
  tsMs : ℤ
  /-- The final submission of its slot. -/
  final : Bool
  /-- The task's recorded fingerprint; empty when not recorded. -/
  taskHash : String := ""
  deriving DecidableEq, Repr

/-- What a shard skips an item by: its run label, kernel and time. -/
def Item.key (item : Item) : String × String × ℤ := (item.episodeId, item.kernel, item.tsMs)

/-- One row of the `grades` table that re-times another, with what its original holds. -/
structure GradeRow where
  kind : String
  ofGrade : GradeRef
  /-- The original's run label, kernel and time. -/
  original : String × String × ℤ
  kernel : String
  tsMs : ℤ
  timingReduction : String := ""
  denominator : String := ""
  scoreRule : String := ""
  status : String := ""
  deriving DecidableEq, Repr

def finalKind : String := "final"

def errorStatus : String := "error"

/-- The items `rows` already hold a `kind` grade of under one of `scoreRules`, stamped `stamp`
(any stamp when it is empty). -/
def doneKeys (rows : List GradeRow) (kind : String) (scoreRules : List String) (stamp : String) :
    List (String × String × ℤ) :=
  ((rows.filter fun row => row.kind = kind && row.status ≠ errorStatus).filter fun row =>
    scoreRules.contains row.scoreRule &&
      (stamp == "" || stamped (some row.timingReduction) stamp)).map (·.original)

/-- The grades a final grade under `protocol` re-timed: not a fault, not stale, under the
denominator configured for the kernel. -/
def finalGraded (cfg : Configuration) (cuts : GradingCuts) (protocol : Protocol)
    (rows : List GradeRow) : List GradeRef :=
  ((rows.filter (·.kind = finalKind)).filter fun row =>
    stamped (some row.timingReduction) protocol.stamp &&
      Denominator.ofStored (some row.denominator) = some (cfg.forKernel row.kernel) &&
      row.status ≠ errorStatus && !staleFinal cfg cuts row.kernel row.tsMs).map (·.ofGrade)

/-- Each final submission of a worklist that no final grade under `protocol` re-timed. -/
def buildOwedWorklist (cfg : Configuration) (cuts : GradingCuts) (protocol : Protocol)
    (rows : List GradeRow) (items : List Item) : List Item :=
  items.filter fun item => item.final && !(finalGraded cfg cuts protocol rows).contains item.ref

/-! ### Grading an item -/

variable {F P : Type}
variable {cfg : Configuration} {cuts : GradingCuts} {protocol : Protocol} {rows : List GradeRow}
variable {ref : GradeRef} {stamp : String} {texts : List String}

/-- What grading one item takes from its task. -/
structure Work (P F : Type) where
  residency : Residency
  /-- Graded over a scaling sweep. -/
  scales : Bool
  /-- The inputs the protocol times. -/
  cells : List (InputCell P)
  scorer : Scorer P F
  preset : String
  /-- The one grade live `/submit` gives a distributed task. -/
  live : Score F
  /-- The fingerprint of the task now. -/
  fingerprint : String

/-- The cell of a distributed task's one launch. -/
def liveCell (fl : Floats F) (protocol : Protocol) (label : String) (result : Score F) :
    TimedCell F :=
  { label := label
    shape := ""
    baselineNs := fl.ofInt result.baselineNs
    nativeNs := fl.ofInt result.nativeNs
    ratio := result.speedup
    correct := result.correct
    baseline := result.baseline
    timingReduction := some protocol.stamp
    baselineCandidates := "+".intercalate (result.baselines.insertionSort (· ≤ ·)) }

/-- The input of a distributed task that does not scale: its reduction is the protocol's. -/
def liveInput (fl : Floats F) (protocol : Protocol) (preset : String) (result : Score F) :
    FinalInput F :=
  let label := s!"{preset}:submit"
  match result.timingReduction with
  | none => ⟨label, none, result, ""⟩
  | some _ =>
    let cell := liveCell fl protocol label result
    ⟨label, some cell, { result with cells := [cell] }, ""⟩

/-- The final grade of a distributed task that does not scale: one launch. -/
def liveFinal (fl : Floats F) (protocol : Protocol) (preset : String) (result : Score F) :
    FinalGrade F :=
  let timed := liveInput fl protocol preset result
  let ratios := creditedRatios fl timed.cell.toList
  let solved := timed.cell.any (·.correct)
  { inputs := [timed], solved, ratios, credit := credit fl ratios solved }

/-- Whether the submission itself failed every input. -/
def failedEveryInput (graded : FinalGrade F) : Bool :=
  !graded.inputs.isEmpty && graded.measured.isEmpty &&
    !graded.inputs.any fun one => inputFault one ≠ ""

/-- The reason of a final grade that failed every input after its task changed. -/
def taskChangedReason (item : Item) (fingerprint failure : String) : String :=
  let recorded := String.ofList (item.taskHash.toList.take 12)
  let recorded := if recorded ≠ "" then recorded else "not recorded"
  let current := String.ofList (fingerprint.toList.take 12)
  let reason := s!"task: changed since the run ({recorded} -> {current}): " ++ failure
  String.ofList (reason.toList.take 400)

/-- The final grade of one item. -/
def gradeItem (fl : Floats F) (protocol : Protocol) (work : Work P F) : FinalGrade F :=
  if work.residency = .distributed ∧ work.scales = false then
    liveFinal fl protocol work.preset work.live
  else finalGrade fl protocol false work.cells work.scorer false false

/-- The final grade of `item` under `protocol` as its cell rows and grade columns. -/
def gradeCells (fl : Floats F) (cfg : Configuration) (protocol : Protocol) (item : Item)
    (work : Work P F) : List (CellRow F) × FinalValues F :=
  let graded := gradeItem fl protocol work
  let (rows, values) := finalRows cfg.forKernel graded work.residency item.kernel protocol.stamp
  if failedEveryInput graded && item.taskHash ≠ work.fingerprint then
    (rows, { values with
      reason := some (taskChangedReason item work.fingerprint (values.reason.getD "None")) })
  else (rows, values)

/-! ### The shard -/

/-- The row of a grade that was reached. -/
def gradedRow (item : Item) (ts : ℤ) (values : FinalValues F) : GradeRow :=
  { kind := finalKind
    ofGrade := item.ref
    original := item.key
    kernel := item.kernel
    tsMs := ts
    timingReduction := values.timingReduction
    denominator := values.denominator.getD ""
    scoreRule := values.scoreRule.getD ""
    status := values.status }

/-- The row of an item whose grading raised. -/
def raisedRow (cfg : Configuration) (item : Item) (ts : ℤ) : GradeRow :=
  { kind := finalKind
    ofGrade := item.ref
    original := item.key
    kernel := item.kernel
    tsMs := ts
    denominator :=
      (Denominator.stored (finalDenominator [] (cfg.forKernel item.kernel))).getD ""
    status := errorStatus }

/-- The shard's database and the items it settled. -/
structure Shard where
  rows : List GradeRow
  finished : List GradeRef
  /-- Graded without a decision: closed for this job, owed to a later one. -/
  closed : List GradeRef

section Shard

variable (fl : Floats F) (cfg : Configuration) (protocol : Protocol) (clock : Item → ℤ)
  (attempt : Item → Except PyErr (Work P F))

/-- The row the shard writes for an item. -/
def regradeRow (item : Item) : GradeRow :=
  match attempt item with
  | .error _ => raisedRow cfg item (clock item)
  | .ok work => gradedRow item (clock item) (gradeCells fl cfg protocol item work).2

/-- One claimed item: graded, written, and finished when its values carry the score rule.  An item
settled before is claimed by nobody. -/
def shardStep (shard : Shard) (item : Item) : Shard :=
  if item.ref ∈ shard.finished ∨ item.ref ∈ shard.closed then shard
  else
    let row := regradeRow fl cfg protocol clock attempt item
    if row.scoreRule = scoreRule then
      { shard with rows := shard.rows ++ [row], finished := shard.finished ++ [item.ref] }
    else { shard with rows := shard.rows ++ [row], closed := shard.closed ++ [item.ref] }

/-- Whether the shard is handed `item`: not done in its database, and its claim won. -/
def held (rows : List GradeRow) (won : Item → Bool) (item : Item) : Bool :=
  !(doneKeys rows finalKind [scoreRule] protocol.stamp).contains item.key && won item

/-- The items already done are finished first; each item the shard holds is then graded. -/
def runCellsShard (rows : List GradeRow) (won : Item → Bool) (items : List Item) : Shard :=
  let done := doneKeys rows finalKind [scoreRule] protocol.stamp
  let already := (items.filter fun item => done.contains item.key).map (·.ref)
  (items.filter (held protocol rows won)).foldl (shardStep fl cfg protocol clock attempt)
    ⟨rows, already, []⟩

end Shard

/-! ### What a row says -/

theorem mem_finalGraded :
    ref ∈ finalGraded cfg cuts protocol rows ↔
      ∃ row ∈ rows, row.ofGrade = ref ∧ row.kind = finalKind ∧
        stamped (some row.timingReduction) protocol.stamp = true ∧
        Denominator.ofStored (some row.denominator) = some (cfg.forKernel row.kernel) ∧
        row.status ≠ errorStatus ∧ staleFinal cfg cuts row.kernel row.tsMs = false := by
  simp only [finalGraded, mem_map, mem_filter, Bool.and_eq_true, decide_eq_true_eq,
    Bool.not_eq_true', ne_eq]
  constructor
  · rintro ⟨row, ⟨⟨hrow, hkind⟩, ⟨⟨hstamp, hden⟩, hstatus⟩, hcut⟩, href⟩
    exact ⟨row, hrow, href, hkind, hstamp, hden, hstatus, hcut⟩
  · rintro ⟨row, hrow, href, hkind, hstamp, hden, hstatus, hcut⟩
    exact ⟨row, ⟨⟨hrow, hkind⟩, ⟨⟨hstamp, hden⟩, hstatus⟩, hcut⟩, href⟩

/-- The worklist's test looks at each row alone. -/
theorem mem_finalGraded_append {more : List GradeRow} :
    ref ∈ finalGraded cfg cuts protocol (rows ++ more) ↔
      ref ∈ finalGraded cfg cuts protocol rows ∨ ref ∈ finalGraded cfg cuts protocol more := by
  simp only [finalGraded, filter_append, map_append, mem_append]

/-- What the worklist lists. -/
theorem mem_buildOwedWorklist {items : List Item} {item : Item} :
    item ∈ buildOwedWorklist cfg cuts protocol rows items ↔
      item ∈ items ∧ item.final = true ∧ item.ref ∉ finalGraded cfg cuts protocol rows := by
  simp only [buildOwedWorklist, mem_filter, Bool.and_eq_true, Bool.not_eq_true',
    contains_eq_mem, decide_eq_false_iff_not]

theorem mem_doneKeys {key : String × String × ℤ} :
    key ∈ doneKeys rows finalKind [scoreRule] stamp ↔
      ∃ row ∈ rows, row.original = key ∧ row.kind = finalKind ∧ row.status ≠ errorStatus ∧
        row.scoreRule = scoreRule ∧
        (stamp = "" ∨ stamped (some row.timingReduction) stamp = true) := by
  simp only [doneKeys, mem_map, mem_filter, Bool.and_eq_true, Bool.or_eq_true,
    decide_eq_true_eq, ne_eq, beq_iff_eq, contains_eq_mem, mem_singleton]
  constructor
  · rintro ⟨row, ⟨⟨hrow, hkind, hstatus⟩, hrule, hstamp⟩, hkey⟩
    exact ⟨row, hrow, hkey, hkind, hstatus, hrule, hstamp⟩
  · rintro ⟨row, hrow, hkey, hkind, hstatus, hrule, hstamp⟩
    exact ⟨row, ⟨⟨hrow, hkind, hstatus⟩, hrule, hstamp⟩, hkey⟩

/-! ### A run of the shard -/

section Run

variable {fl : Floats F} {cfg : Configuration} {protocol : Protocol} {clock : Item → ℤ}
  {attempt : Item → Except PyErr (Work P F)}

variable (fl cfg protocol clock attempt) in
/-- What one claimed item does. -/
theorem shardStep_cases (shard : Shard) (item : Item) :
    ((item.ref ∈ shard.finished ∨ item.ref ∈ shard.closed) ∧
      shardStep fl cfg protocol clock attempt shard item = shard) ∨
    (item.ref ∉ shard.finished ∧ item.ref ∉ shard.closed ∧
      (shardStep fl cfg protocol clock attempt shard item).rows =
        shard.rows ++ [regradeRow fl cfg protocol clock attempt item] ∧
      ((regradeRow fl cfg protocol clock attempt item).scoreRule = scoreRule ∧
          (shardStep fl cfg protocol clock attempt shard item).finished =
            shard.finished ++ [item.ref] ∧
          (shardStep fl cfg protocol clock attempt shard item).closed = shard.closed ∨
        (regradeRow fl cfg protocol clock attempt item).scoreRule ≠ scoreRule ∧
          (shardStep fl cfg protocol clock attempt shard item).finished = shard.finished ∧
          (shardStep fl cfg protocol clock attempt shard item).closed =
            shard.closed ++ [item.ref])) := by
  unfold shardStep
  by_cases h : item.ref ∈ shard.finished ∨ item.ref ∈ shard.closed
  · exact .inl ⟨h, if_pos h⟩
  · refine .inr ⟨fun hf => h (.inl hf), fun hc => h (.inr hc), ?_⟩
    rw [if_neg h]
    by_cases hr : (regradeRow fl cfg protocol clock attempt item).scoreRule = scoreRule
    · rw [if_pos hr]
      exact ⟨rfl, .inl ⟨hr, rfl, rfl⟩⟩
    · rw [if_neg hr]
      exact ⟨rfl, .inr ⟨hr, rfl, rfl⟩⟩

theorem rows_subset_run (items : List Item) (shard : Shard) :
    shard.rows ⊆ (items.foldl (shardStep fl cfg protocol clock attempt) shard).rows := by
  induction items generalizing shard with
  | nil => exact List.Subset.refl _
  | cons item items ih =>
    refine List.Subset.trans ?_ (ih _)
    obtain ⟨-, h⟩ | ⟨-, -, h, -⟩ := shardStep_cases fl cfg protocol clock
        attempt shard item
    · rw [h]; exact List.Subset.refl _
    · rw [h]; exact subset_append_left _ _

/-- A finished item stays finished. -/
theorem finished_subset_run (items : List Item) (shard : Shard) :
    shard.finished ⊆ (items.foldl (shardStep fl cfg protocol clock attempt) shard).finished := by
  induction items generalizing shard with
  | nil => exact List.Subset.refl _
  | cons item items ih =>
    refine List.Subset.trans ?_ (ih _)
    obtain ⟨-, h⟩ | ⟨-, -, -, ⟨-, h, -⟩ | ⟨-, h, -⟩⟩ := shardStep_cases fl cfg protocol clock
        attempt shard item
    · rw [h]; exact List.Subset.refl _
    · rw [h]; exact subset_append_left _ _
    · rw [h]; exact List.Subset.refl _

variable {item : Item}

theorem ofGrade_regradeRow : (regradeRow fl cfg protocol clock attempt item).ofGrade = item.ref := by
  unfold regradeRow
  split <;> rfl

variable {items : List Item} {shard : Shard} {rows : List GradeRow} {won : Item → Bool}

/-- The rows a run adds for one grade are the one its item writes. -/
theorem rows_of_run (hsame : ∀ other ∈ items, other.ref = item.ref → other = item) :
    ∀ row ∈ (items.foldl (shardStep fl cfg protocol clock attempt) shard).rows,
      row.ofGrade = item.ref →
        row ∈ shard.rows ∨ row = regradeRow fl cfg protocol clock attempt item := by
  induction items generalizing shard with
  | nil => exact fun row hrow _ => .inl hrow
  | cons first items ih =>
    intro row hrow href
    obtain ⟨hfirst, hsame⟩ := forall_mem_cons.1 hsame
    rcases ih hsame row hrow href with h | h
    · obtain ⟨-, hstep⟩ | ⟨-, -, hrows, -⟩ := shardStep_cases fl cfg protocol clock
        attempt shard first
      · rw [hstep] at h
        exact .inl h
      · rw [hrows, mem_append, mem_singleton] at h
        rcases h with h | h
        · exact .inl h
        · rw [h, ofGrade_regradeRow] at href
          rw [h, hfirst href]
          exact .inr rfl
    · exact .inr h

/-- An item whose row does not carry the score rule is not finished. -/
theorem not_finished_run (hsame : ∀ other ∈ items, other.ref = item.ref → other = item)
    (hrule : (regradeRow fl cfg protocol clock attempt item).scoreRule ≠ scoreRule)
    (hfinished : item.ref ∉ shard.finished) :
    item.ref ∉ (items.foldl (shardStep fl cfg protocol clock attempt) shard).finished := by
  induction items generalizing shard with
  | nil => exact hfinished
  | cons first items ih =>
    obtain ⟨hfirst, hsame⟩ := forall_mem_cons.1 hsame
    refine ih hsame ?_
    obtain ⟨-, h⟩ | ⟨-, -, -, ⟨hcredited, h, -⟩ | ⟨-, h, -⟩⟩ := shardStep_cases fl cfg protocol clock
        attempt shard first
    · rw [h]
      exact hfinished
    · rw [h, mem_append, mem_singleton]
      rintro (hmem | href)
      · exact hfinished hmem
      · rw [hfirst href.symm] at hcredited
        exact hrule hcredited
    · rw [h]
      exact hfinished

/-- A held item's row is written, and the item is finished when the row carries the score rule. -/
theorem item_run (hitem : item ∈ items)
    (hsame : ∀ other ∈ items, other.ref = item.ref → other = item)
    (hfinished : item.ref ∉ shard.finished) (hclosed : item.ref ∉ shard.closed) :
    regradeRow fl cfg protocol clock attempt item ∈
        (items.foldl (shardStep fl cfg protocol clock attempt) shard).rows ∧
      (item.ref ∈ (items.foldl (shardStep fl cfg protocol clock attempt) shard).finished ↔
        (regradeRow fl cfg protocol clock attempt item).scoreRule = scoreRule) := by
  induction items generalizing shard with
  | nil => cases hitem
  | cons first items ih =>
    obtain ⟨hfirst, hsame⟩ := forall_mem_cons.1 hsame
    obtain ⟨h, -⟩ | ⟨-, -, hrows, hsettled⟩ := shardStep_cases fl cfg protocol clock
        attempt shard first
    · -- somebody settled `first` before: it is not `item`
      obtain rfl | hitem := mem_cons.1 hitem
      · exact absurd h (not_or.2 ⟨hfinished, hclosed⟩)
      · rw [foldl_cons]
        have hstep : shardStep fl cfg protocol clock attempt shard first = shard := if_pos h
        rw [hstep]
        exact ih hitem hsame hfinished hclosed
    · by_cases href : first.ref = item.ref
      · obtain rfl := hfirst href
        rw [foldl_cons]
        refine ⟨rows_subset_run items _ (by rw [hrows]; simp), ?_⟩
        rcases hsettled with ⟨hrule, hadd, -⟩ | ⟨hrule, hkeep, -⟩
        · exact iff_of_true (finished_subset_run items _ (by rw [hadd]; simp)) hrule
        · exact iff_of_false (not_finished_run hsame hrule (by rw [hkeep]; exact hfinished)) hrule
      · have hitem : item ∈ items := by
          obtain rfl | h := mem_cons.1 hitem
          · exact absurd rfl href
          · exact h
        refine ih hitem hsame ?_ ?_
        · rcases hsettled with ⟨-, h, -⟩ | ⟨-, h, -⟩
          · rw [h, mem_append, mem_singleton]
            exact not_or.2 ⟨hfinished, Ne.symm href⟩
          · rw [h]
            exact hfinished
        · rcases hsettled with ⟨-, -, h⟩ | ⟨-, -, h⟩
          · rw [h]
            exact hclosed
          · rw [h, mem_append, mem_singleton]
            exact not_or.2 ⟨hclosed, Ne.symm href⟩

variable (fl cfg clock attempt) in
/-- What a run of the shard settles: a held item whose row carries the score rule. -/
theorem mem_finished_iff (hitem : item ∈ items)
    (hsame : ∀ other ∈ items, other.ref = item.ref → other = item)
    (hheld : held protocol rows won item = true) :
    regradeRow fl cfg protocol clock attempt item ∈
        (runCellsShard fl cfg protocol clock attempt rows won items).rows ∧
      (item.ref ∈ (runCellsShard fl cfg protocol clock attempt rows won items).finished ↔
        (regradeRow fl cfg protocol clock attempt item).scoreRule = scoreRule) := by
  refine item_run (mem_filter.2 ⟨hitem, hheld⟩)
    (fun other hother => hsame other (mem_filter.1 hother).1) (fun hdone => ?_)
    not_mem_nil
  obtain ⟨other, hother, href⟩ := mem_map.1 hdone
  obtain ⟨hother, hdone⟩ := mem_filter.1 hother
  rw [hsame other hother href] at hdone
  rw [held, hdone] at hheld
  cases hheld

variable (fl clock attempt) in
/-- What a run of the shard lets the worklist count, for a held item that was owed. -/
theorem mem_finalGraded_run {cuts : GradingCuts} {before : List GradeRow} (hitem : item ∈ items)
    (hsame : ∀ other ∈ items, other.ref = item.ref → other = item)
    (hheld : held protocol rows won item = true)
    (howed : item.ref ∉ finalGraded cfg cuts protocol (before ++ rows)) :
    item.ref ∈ finalGraded cfg cuts protocol
        (before ++ (runCellsShard fl cfg protocol clock attempt rows won items).rows) ↔
      item.ref ∈ finalGraded cfg cuts protocol [regradeRow fl cfg protocol clock attempt item] := by
  rw [mem_finalGraded_append] at howed ⊢
  obtain ⟨hbefore, hrows⟩ := not_or.1 howed
  rw [or_iff_right hbefore, mem_finalGraded, mem_finalGraded]
  constructor
  · rintro ⟨row, hrow, href, hrest⟩
    rcases rows_of_run (fun other hother => hsame other (mem_filter.1 hother).1) row hrow href
      with h | rfl
    · exact absurd (mem_finalGraded.2 ⟨row, h, href, hrest⟩) hrows
    · exact ⟨_, mem_singleton_self _, href, hrest⟩
  · rintro ⟨row, hrow, hrest⟩
    obtain rfl := mem_singleton.1 hrow
    exact ⟨_, (mem_finished_iff fl cfg clock attempt hitem hsame hheld).1, hrest⟩

end Run

/-! ### What the row of a grade says -/

/-- The input was measured and its layout covered it. -/
def FinalInput.Ran (one : FinalInput F) : Prop := ∃ c ∈ one.cell, c.uncovered = ""

/-- A run decided nothing: there is no input, or one is the judge's fault. -/
def Faulted (inputs : List (FinalInput F)) : Prop :=
  inputs = [] ∨ ∃ one ∈ inputs, inputFault one ≠ ""

/-- The reductions the measured inputs recorded. -/
def reductions (inputs : List (FinalInput F)) : List String :=
  inputs.filterMap fun one => one.cell.map (·.timingReduction.getD "")

/-- Every input that ran was graded under `configured`. -/
def RanUnder (configured : Denominator) (inputs : List (FinalInput F)) : Prop :=
  ∀ one ∈ inputs, one.Ran → gradeDenominator one.result = some configured

/-- Some input ran, or what the uncovered inputs recorded as their reductions is nothing or names
the stamp. -/
def NamesStamp (stamp : String) (inputs : List (FinalInput F)) : Prop :=
  (∃ one ∈ inputs, one.Ran) ∨ (∀ r ∈ reductions inputs, r = "") ∨
    stamped (some (joinSorted (reductions inputs))) stamp = true

instance (one : FinalInput F) : Decidable one.Ran := inferInstanceAs (Decidable (∃ _ ∈ _, _))

instance (inputs : List (FinalInput F)) : Decidable (Faulted inputs) :=
  inferInstanceAs (Decidable (_ ∨ _))

instance (configured : Denominator) (inputs : List (FinalInput F)) :
    Decidable (RanUnder configured inputs) :=
  inferInstanceAs (Decidable (∀ _ ∈ _, _))

instance (stamp : String) (inputs : List (FinalInput F)) : Decidable (NamesStamp stamp inputs) :=
  inferInstanceAs (Decidable (_ ∨ _ ∨ _))

theorem faulted_iff (inputs : List (FinalInput F)) :
    (!(faultsOf inputs).isEmpty || inputs.isEmpty) = true ↔ Faulted inputs := by
  have hfaults : (!(faultsOf inputs).isEmpty) = true ↔ ∃ one ∈ inputs, inputFault one ≠ "" := by
    rw [Bool.not_eq_true', isEmpty_eq_false_iff, Ne, faultsOf_eq_nil]
    push Not
    rfl
  rw [Bool.or_eq_true, hfaults, List.isEmpty_iff, Faulted, or_comm]

/-- A stored denominator reads back, `''` for none. -/
theorem ofStored_column (found : Option Denominator) :
    Denominator.ofStored (some ((Denominator.stored found).getD "")) = found := by
  cases found with
  | none => decide
  | some d => exact Denominator.ofStored_stored d

/-- The denominator of a grade is the configured one when every input that ran agrees on it. -/
theorem finalDenominator_eq {ds : List (Option Denominator)} {configured : Denominator} :
    finalDenominator ds configured = some configured ↔ ∀ d ∈ ds, d = some configured := by
  have hmem : ∀ d, d ∈ ds.dedup ↔ d ∈ ds := fun d => mem_dedup
  have hnodup := nodup_dedup ds
  unfold finalDenominator
  generalize ds.dedup = us at hmem hnodup
  match us, hnodup with
  | [], _ => exact iff_of_true rfl fun d hd => absurd ((hmem d).2 hd) not_mem_nil
  | [u], _ =>
    constructor
    · intro hu d hd
      rw [← hu]
      exact mem_singleton.1 ((hmem d).2 hd)
    · exact fun h => h u ((hmem u).1 (mem_singleton_self u))
  | u :: v :: _, hnodup =>
    refine iff_of_false (fun h => by cases h) fun h => ?_
    have hu := h u ((hmem u).1 mem_cons_self)
    have hv := h v ((hmem v).1 (mem_cons_of_mem _ mem_cons_self))
    exact (nodup_cons.1 hnodup).1 (by rw [hu, hv]; exact mem_cons_self)

theorem joinSorted_ne {t : String} (ht : t ∈ texts) (hne : t ≠ "") :
    joinSorted texts ≠ "" := by
  obtain ⟨a, b, hab, -, -⟩ :=
    intercalate_parts (mem_map_of_mem (f := String.toList) (mem_sorted.2 ⟨ht, hne⟩))
  intro hempty
  have h := congrArg String.toList hempty
  rw [joinSorted, String.toList_intercalate, show "+".toList = ['+'] from rfl, hab] at h
  simp [hne] at h

theorem joinSorted_eq (h : ∀ t ∈ texts, t = "") : joinSorted texts = "" := by
  have hnil : texts.filter (· ≠ "") = [] :=
    filter_eq_nil_iff.2 fun t ht => by simp [h t ht]
  rw [joinSorted, hnil]
  rfl

/-- A stamp joined alone names itself. -/
theorem stamped_self (hplain : Plain stamp) : stamped (some stamp) stamp = true := by
  have h := stamped_intercalate hplain (mem_singleton_self stamp)
  have hone : "+".intercalate [stamp] = stamp := by
    rw [← String.toList_inj, String.toList_intercalate]
    simp [List.intercalate]
  rw [hone] at h
  exact h

/-! ### The inputs of an item's grade -/

section Grade

variable {fl : Floats F} {cfg : Configuration} {protocol : Protocol}

variable {stamp : String} {one : FinalInput F} {c : TimedCell F}

/-- An input of a sweep is an outcome restamped or refused. -/
theorem mem_sweep {scorer : Scorer P F} {stop heldOut : Bool} {cells : List (InputCell P)}
    (h : one ∈ sweep protocol stamp scorer stop heldOut cells) :
    ∃ label result, one = timedInput protocol stamp label result := by
  induction cells generalizing heldOut with
  | nil => cases h
  | cons cell cells ih =>
    rw [sweep] at h
    split_ifs at h
    · exact ⟨_, _, mem_singleton.1 h⟩
    · obtain rfl | h := mem_cons.1 h
      · exact ⟨_, _, rfl⟩
      · exact ih h

/-- An input that ran carries the stamp it was timed under. -/
theorem stamp_of_ran {label : String} {result : Score F}
    (hc : c ∈ (timedInput protocol stamp label result).cell) (hran : c.uncovered = "") :
    c.timingReduction = some stamp := by
  unfold timedInput at hc
  split at hc
  · cases hc
  · dsimp only at hc
    split_ifs at hc with huncovered
    · obtain rfl := Option.mem_some.1 hc
      exact absurd hran huncovered
    · obtain rfl := Option.mem_some.1 hc
      rfl
    · cases hc

theorem stamp_of_ran_gradeItem {work : Work P F} (hone : one ∈ (gradeItem fl protocol work).inputs)
    (hc : c ∈ one.cell) (hran : c.uncovered = "") : c.timingReduction = some protocol.stamp := by
  unfold gradeItem at hone
  split_ifs at hone
  · obtain rfl := mem_singleton.1 hone
    unfold liveInput at hc
    dsimp only at hc
    split at hc
    · cases hc
    · obtain rfl := Option.mem_some.1 hc
      rfl
  · obtain ⟨label, result, rfl⟩ := mem_sweep hone
    exact stamp_of_ran hc hran

variable (fl cfg protocol) in
/-- The columns a grade settles by do not depend on whether its task changed. -/
theorem gradeCells_columns (item : Item) (work : Work P F) :
    let values := (gradeCells fl cfg protocol item work).2
    let pass := (finalRows cfg.forKernel (gradeItem fl protocol work) work.residency item.kernel
      protocol.stamp).2
    values.scoreRule = pass.scoreRule ∧ values.timingReduction = pass.timingReduction ∧
      values.denominator = pass.denominator ∧ values.status = pass.status := by
  unfold gradeCells
  dsimp only
  split_ifs <;> exact ⟨rfl, rfl, rfl, rfl⟩

/-- The recorded reduction of a grade names its stamp. -/
theorem stamped_reduction {inputs : List (FinalInput F)} (hplain : Plain protocol.stamp)
    (hran : ∀ one ∈ inputs, ∀ c ∈ one.cell, c.uncovered = "" →
      c.timingReduction = some protocol.stamp) :
    stamped (some (if joinSorted (reductions inputs) ≠ "" then joinSorted (reductions inputs)
        else protocol.stamp)) protocol.stamp = true ↔ NamesStamp protocol.stamp inputs := by
  by_cases hempty : ∀ r ∈ reductions inputs, r = ""
  · rw [joinSorted_eq hempty, if_neg (not_not.2 rfl)]
    exact iff_of_true (stamped_self hplain) (.inr (.inl hempty))
  · have hne : joinSorted (reductions inputs) ≠ "" := by
      push Not at hempty
      obtain ⟨r, hr, hne⟩ := hempty
      exact joinSorted_ne hr hne
    rw [if_pos hne]
    constructor
    · exact fun h => .inr (.inr h)
    · rintro (⟨one, hone, c, hc, hcovered⟩ | h | h)
      · refine stamped_join hplain (mem_filterMap.2 ⟨one, hone, ?_⟩)
        rw [Option.mem_def.1 hc, Option.map_some, hran one hone c hc hcovered]
        rfl
      · exact absurd h hempty
      · exact h

end Grade


/-! ### Settling and counting one item -/

section Item

variable {fl : Floats F} {cfg : Configuration} {cuts : GradingCuts} {protocol : Protocol}
  {clock : Item → ℤ} {attempt : Item → Except PyErr (Work P F)} {item : Item}

theorem measuredDenominators_eq {inputs : List (FinalInput F)} {configured : Denominator} :
    (∀ d ∈ measuredDenominators inputs, d = some configured) ↔ RanUnder configured inputs := by
  simp only [measuredDenominators, forall_mem_map, mem_filter, Option.any_eq_true,
    decide_eq_true_eq, RanUnder, FinalInput.Ran, Option.mem_def]
  exact ⟨fun h one hone hran => h one ⟨hone, hran⟩, fun h one hone => h one hone.1 hone.2⟩

variable (fl cfg protocol clock) in
/-- A raised grading is neither settled nor counted. -/
theorem raised_row {err : PyErr} (h : attempt item = .error err) :
    (regradeRow fl cfg protocol clock attempt item).scoreRule ≠ scoreRule ∧
      (regradeRow fl cfg protocol clock attempt item).status = errorStatus := by
  simp only [regradeRow, h]
  exact ⟨show "" ≠ scoreRule by decide, rfl⟩

variable (fl cfg clock) in
/-- The columns of a grade that was reached. -/
theorem graded_row {work : Work P F} (h : attempt item = .ok work) (hplain : Plain protocol.stamp) :
    let row := regradeRow fl cfg protocol clock attempt item
    let inputs := (gradeItem fl protocol work).inputs
    (row.scoreRule = scoreRule ↔ ¬Faulted inputs) ∧
      (row.status = errorStatus ↔ Faulted inputs) ∧
      (¬Faulted inputs →
        (stamped (some row.timingReduction) protocol.stamp = true ↔
          NamesStamp protocol.stamp inputs)) ∧
      (Denominator.ofStored (some row.denominator) = some (cfg.forKernel row.kernel) ↔
        RanUnder (cfg.forKernel item.kernel) inputs) := by
  obtain ⟨hrule, hreduction, hdenominator, hstatus⟩ :=
    gradeCells_columns fl cfg protocol item work
  have hfaulted := faulted_iff (gradeItem fl protocol work).inputs
  have hjoined : (gradeItem fl protocol work).measured.map (·.timingReduction.getD "") =
      reductions (gradeItem fl protocol work).inputs := by
    simp only [FinalGrade.measured, reductions, map_filterMap]
  simp only [regradeRow, h, gradedRow, hrule, hreduction, hdenominator, hstatus]
  refine ⟨?_, ?_, fun hdecided => ?_, ?_⟩
  · simp only [finalRows]
    by_cases hf : Faulted (gradeItem fl protocol work).inputs
    · rw [if_pos (hfaulted.2 hf)]
      exact iff_of_false (by decide) (not_not.2 hf)
    · rw [if_neg (mt hfaulted.1 hf)]
      exact iff_of_true rfl hf
  · simp only [finalRows]
    by_cases hf : Faulted (gradeItem fl protocol work).inputs
    · rw [if_pos (hfaulted.2 hf)]
      exact iff_of_true rfl hf
    · rw [if_neg (mt hfaulted.1 hf)]
      exact iff_of_false (by decide) hf
  · simp only [finalRows]
    rw [if_neg (mt hfaulted.1 hdecided), hjoined]
    exact stamped_reduction hplain fun one hone c hc hran => stamp_of_ran_gradeItem hone hc hran
  · simp only [finalRows]
    rw [ofStored_column, finalDenominator_eq, measuredDenominators_eq]

/-- When an item is settled exactly if the worklist counts it: its grading raised or decided
nothing, or every input that ran was graded under the configured denominator and the recorded
reductions name the stamp. -/
def Agrees (fl : Floats F) (cfg : Configuration) (protocol : Protocol) (item : Item) :
    Except PyErr (Work P F) → Prop
  | .error _ => True
  | .ok work =>
    let inputs := (gradeItem fl protocol work).inputs
    Faulted inputs ∨
      RanUnder (cfg.forKernel item.kernel) inputs ∧ NamesStamp protocol.stamp inputs

variable (fl cfg protocol clock attempt item) in
theorem kind_regradeRow :
    (regradeRow fl cfg protocol clock attempt item).kind = finalKind ∧
      (regradeRow fl cfg protocol clock attempt item).original = item.key ∧
      (regradeRow fl cfg protocol clock attempt item).kernel = item.kernel ∧
      (regradeRow fl cfg protocol clock attempt item).tsMs = clock item := by
  unfold regradeRow
  split <;> exact ⟨rfl, rfl, rfl, rfl⟩

/-- What the worklist asks of the row a shard wrote, past every cut. -/
theorem mem_finalGraded_row (hcut : staleFinal cfg cuts item.kernel (clock item) = false) :
    item.ref ∈ finalGraded cfg cuts protocol [regradeRow fl cfg protocol clock attempt item] ↔
      let row := regradeRow fl cfg protocol clock attempt item
      stamped (some row.timingReduction) protocol.stamp = true ∧
        Denominator.ofStored (some row.denominator) = some (cfg.forKernel row.kernel) ∧
        row.status ≠ errorStatus := by
  obtain ⟨hkind, -, hkernel, hts⟩ := kind_regradeRow fl cfg protocol clock attempt item
  rw [mem_finalGraded]
  constructor
  · rintro ⟨row, hrow, -, -, hstamp, hden, hstatus, -⟩
    obtain rfl := mem_singleton.1 hrow
    exact ⟨hstamp, hden, hstatus⟩
  · rintro ⟨hstamp, hden, hstatus⟩
    exact ⟨_, mem_singleton_self _, ofGrade_regradeRow, hkind, hstamp, hden, hstatus,
      by rw [hkernel, hts, hcut]⟩

variable (fl attempt) in
/-- The shard settles an item exactly when the worklist counts its row, under `Agrees`. -/
theorem rule_iff_counted (hplain : Plain protocol.stamp)
    (hcut : staleFinal cfg cuts item.kernel (clock item) = false) :
    ((regradeRow fl cfg protocol clock attempt item).scoreRule = scoreRule ↔
      item.ref ∈ finalGraded cfg cuts protocol
        [regradeRow fl cfg protocol clock attempt item]) ↔
      Agrees fl cfg protocol item (attempt item) := by
  rw [mem_finalGraded_row hcut]
  cases h : attempt item with
  | error err =>
    obtain ⟨hrule, hstatus⟩ := raised_row fl cfg protocol clock h
    exact iff_of_true (iff_of_false hrule fun hcounted => hcounted.2.2 hstatus) trivial
  | ok work =>
    obtain ⟨hrule, hstatus, hstamp, hden⟩ := graded_row fl cfg clock h hplain
    simp only [hrule, Ne, hstatus, hden, Agrees]
    by_cases hf : Faulted (gradeItem fl protocol work).inputs
    · simp [hf]
    · simp only [hstamp hf, hf, not_false_eq_true, true_iff, and_true, false_or]
      exact and_comm

/-- A counted item's row is one the shard skips it by. -/
theorem done_of_counted
    (hcut : staleFinal cfg cuts item.kernel (clock item) = false)
    (hrule : (regradeRow fl cfg protocol clock attempt item).scoreRule = scoreRule)
    (hcounted : item.ref ∈ finalGraded cfg cuts protocol
      [regradeRow fl cfg protocol clock attempt item])
    {rows : List GradeRow} (hrow : regradeRow fl cfg protocol clock attempt item ∈ rows) :
    item.key ∈ doneKeys rows finalKind [scoreRule] protocol.stamp := by
  obtain ⟨hkind, hkey, -⟩ := kind_regradeRow fl cfg protocol clock attempt item
  obtain ⟨hstamp, -, hstatus⟩ := (mem_finalGraded_row hcut).1 hcounted
  exact mem_doneKeys.2 ⟨_, hrow, hkey, hkind, hstatus, hrule, .inr hstamp⟩

end Item

/-! ### The shard and the worklist -/

section Owed

/-- A kernel on no track: its denominator is the fastest of numba and C. -/
def noTracks : Configuration := ⟨fun _ => none, fun _ => .c⟩

def noCuts : GradingCuts := ⟨fun _ => none, fun _ => none⟩

/-- A right, timed answer whose baseline was chosen among `raced` as `policy` says. -/
def gradedUnder (policy raced : String) : Score ℕ :=
  { rightScore { rightCell with baseline := "c", baselineCandidates := raced } with
    baseline := "c", baselinePolicy := some (policy ++ ":" ++ raced) }

/-- One host task timed on one input. -/
def workUnder (policy raced : String) : Work Unit ℕ where
  residency := .host
  scales := false
  cells := oneInput
  scorer := fun _ _ => gradedUnder policy raced
  preset := "S"
  live := gradedUnder policy raced
  fingerprint := ""

/-- The final submission of one slot. -/
def oneItem : Item := ⟨⟨"results.db", 1⟩, "run-1", "gemm", 10, true, ""⟩

end Owed

end Judge

end HpcAgentBench
