import HpcAgentBench.Judge.Denominator
import HpcAgentBench.Lib.SortLast
import HpcAgentBench.Results.Relaunch

/-!
# The run of a slot

A slot of a (setup, kernel) may have been run several times.  `latest_episodes` keeps the run with
the newest valid answer, `designed_runs` the run started last among those with any answer, and the
second says of each slot whether it is solved, unsolved or owed.

## Main results

* `mem_latestEpisodes` : the rows `latest_episodes` keeps, by the rows as a set.
* `mem_designedRuns` : the rows `designed_runs` gives.
* `oneRun_iff` : **exactly when the two choose one run and neither looks at the order of rows.**
-/

namespace HpcAgentBench

open List

namespace Stats

namespace Population

open Judge (Denominator)
open Studies (RowKind)

/-! ### Extracted rows -/

/-- One run: an episode on a kernel, with its setup; a blank job is none. -/
structure RunKey where
  setup : String
  runRoot : String
  job : Option ℤ
  episodeId : String
  kernel : String
  deriving DecidableEq, Repr

/-- `EPISODE_KEY`. -/
structure EpisodeKey where
  runRoot : String
  job : Option ℤ
  episodeId : String
  kernel : String
  deriving DecidableEq, Repr

def RunKey.episode (k : RunKey) : EpisodeKey := ⟨k.runRoot, k.job, k.episodeId, k.kernel⟩

/-- A (setup, kernel, slot). -/
structure SlotKey where
  setup : String
  kernel : String
  slot : ℤ
  deriving DecidableEq, Repr

/-- An extracted row; a blank text is a missing cell. -/
structure Row where
  run : RunKey
  slot : ℤ
  rowKind : Option RowKind
  tsMs : Option ℚ
  attemptIndex : Option ℚ
  speedup : Option ℚ
  /-- The judge's implausibility flag as `is_reportable` reads it. -/
  suspect : Bool
  timingReduction : String
  denominator : String
  gradeFinalStatus : String
  reason : String
  deriving DecidableEq, Repr

def Row.slotKey (r : Row) : SlotKey := ⟨r.run.setup, r.run.kernel, r.slot⟩

/-- An episode has one setup and one slot. -/
def Coherent (rows : List Row) : Prop :=
  ∀ r ∈ rows, ∀ r' ∈ rows, r.run.runRoot = r'.run.runRoot → r.run.job = r'.run.job →
    r.run.episodeId = r'.run.episodeId → r.run.setup = r'.run.setup ∧ r.slot = r'.slot

/-- Extracted rows: their setup and slot are their episode's. -/
structure Frame where
  rows : List Row
  coherent : Coherent rows

/-- What the configuration and the reader of a frame fix. -/
structure Config where
  /-- `FINAL_GRADE_REDUCTION`. -/
  finalGradeReduction : String
  /-- `denominator.for_kernel`. -/
  forKernel : String → Denominator
  /-- A job cell as text. -/
  jobText : Option ℤ → String
  jobText_injective : Function.Injective jobText

/-- A sort key with missing values first. -/
def naFirst {α : Type*} (o : Option α) : WithBot α := o

/-- A sort key with missing values last. -/
def naLast {α : Type*} (o : Option α) : WithTop α := o

section Code

variable (cfg : Config)

/-! ### `latest_episodes` -/

/-- `credited` of a row. -/
def credited (r : Row) : Bool :=
  strip r.timingReduction == cfg.finalGradeReduction &&
    Denominator.ofStored (some r.denominator) == some (cfg.forKernel r.run.kernel)

/-- `valid_submission_rows` of a row. -/
def validSubmission (r : Row) : Bool :=
  (r.rowKind == some .submission && credited cfg r && r.gradeFinalStatus != "error") ||
    ((r.rowKind == some .submission || r.rowKind == some .attempt) &&
      r.gradeFinalStatus == "unsolved")

/-- The keys of `latest_episodes`: a run in a slot. -/
structure SlotRun where
  run : RunKey
  slot : ℤ
  deriving DecidableEq, Repr

def SlotRun.slotKey (k : SlotRun) : SlotKey := ⟨k.run.setup, k.run.kernel, k.slot⟩

def Row.slotRun (r : Row) : SlotRun := ⟨r.run, r.slot⟩

/-- `start`: the earliest timestamp of a run. -/
def startOf (rows : List Row) (k : SlotRun) : Option ℚ :=
  ((rows.filter (·.slotRun = k)).filterMap (·.tsMs)).min?

/-- `answer_ts`: the latest timestamp of a valid answer of a run. -/
def answerTs (rows : List Row) (k : SlotRun) : Option ℚ :=
  ((rows.filter fun r => r.slotRun = k ∧ validSubmission cfg r = true).filterMap (·.tsMs)).max?

/-- The order of `latest_episodes`, missing values first. -/
abbrev LatestOrder : Type := Bool ×ₗ WithBot ℚ ×ₗ WithBot ℚ ×ₗ String ×ₗ String ×ₗ String

def latestOrder (rows : List Row) (k : SlotRun) : LatestOrder :=
  toLex ((answerTs cfg rows k).isSome, toLex (naFirst (answerTs cfg rows k),
    toLex (naFirst (startOf rows k),
      toLex (cfg.jobText k.run.job, toLex (k.run.runRoot, k.run.episodeId)))))

/-- The run chosen for each slot. -/
def latest (rows : List Row) : List SlotRun :=
  keepLast SlotRun.slotKey (sortBy (latestOrder cfg rows) (rows.map Row.slotRun).eraseDups)

/-- `latest_episodes`; the groups are taken in the order of their first rows, which its order
without ties does not show. -/
def latestEpisodes (f : Frame) : List Row :=
  f.rows.filter fun r => r.slotRun ∈ latest cfg f.rows

/-! ### `designed_runs` -/

/-- What one designed run delivered. -/
inductive RunState
  | solved
  | unsolved
  | owed
  deriving DecidableEq, Repr

/-- `PSEUDO_SETUPS`. -/
def pseudoSetups : List String := ["", "adhoc"]

/-- `NOT_DELIVERED`. -/
def notDelivered : ℚ := 1

/-- A row of a real setup and a named kernel. -/
def isReal (r : Row) : Bool := strip r.run.setup ∉ pseudoSetups && r.run.kernel != ""

/-- A row that can be its episode's answer. -/
def isCandidate (r : Row) : Bool :=
  (r.rowKind == some .submission && r.speedup.any (0 < ·)) ||
    (r.rowKind == some .attempt && r.gradeFinalStatus == "unsolved")

/-- `SUBMISSION_ORDER`, missing values last. -/
def submissionOrder (r : Row) : WithTop ℚ ×ₗ WithTop ℚ := toLex (naLast r.tsMs, naLast r.attemptIndex)

/-- `last_per_episode` by `SUBMISSION_ORDER`. -/
def lastPerEpisode (rows : List Row) : List Row :=
  keepLast (fun r : Row => r.run.episode) (sortBy submissionOrder rows)

/-- `run_states` of one answer. -/
def runState (r : Row) : RunState :=
  if r.rowKind = some .attempt ∨ r.gradeFinalStatus = "unsolved" then .unsolved
  else if credited cfg r then if r.suspect then .unsolved else .solved
  else .owed

/-- A run's state with its value. -/
structure Outcome where
  state : RunState
  speedup : Option ℚ
  deriving DecidableEq, Repr

/-- The outcome of an answer. -/
def outcome (r : Row) : Outcome :=
  ⟨runState cfg r,
    match runState cfg r with
    | .solved => r.speedup
    | .unsolved => some notDelivered
    | .owed => none⟩

/-- `HARNESS_FAULT_REASON`. -/
def harnessFaultReason : String := "score_error"

/-- `RERUN_PREFIXES`. -/
def rerunPrefixes : List String := ["infra: ", "budget: ", "task: "]

/-- `refused_attempts` of a row. -/
def isRefused (r : Row) : Bool :=
  r.rowKind == some .attempt && r.reason != harnessFaultReason &&
    !rerunPrefixes.any (·.isPrefixOf r.reason)

/-- A run as `designed_runs` collects it: no outcome where it has no answer. -/
structure Run where
  key : SlotRun
  outcome : Option Outcome
  start : Option ℚ
  deriving DecidableEq, Repr

/-- The outcome `graded` merges to a run: its last answer's, or that of a refused attempt. -/
def outcomeOf (rows : List Row) (k : RunKey) : Option Outcome :=
  match (lastPerEpisode (rows.filter isCandidate)).find? (·.run = k) with
  | some answer => some (outcome cfg answer)
  | none =>
    if (rows.filter isRefused).any (·.run = k) then some ⟨.unsolved, some notDelivered⟩ else none

/-- The start `starts` merges to a run; grouping drops a run without a job. -/
def runStart (rows : List Row) (k : RunKey) : Option ℚ :=
  if k.job = none then none
  else ((rows.filter (·.run = k)).filterMap (·.tsMs)).min?

/-- `episodes`: the runs, each in the slot of its first row. -/
def episodes (rows : List Row) : List SlotRun :=
  (keepLast SlotRun.run (rows.map Row.slotRun).reverse).reverse

/-- `runs` before they are ordered. -/
def runs (rows : List Row) : List Run :=
  (episodes rows).map fun k => ⟨k, outcomeOf cfg rows k.run, runStart rows k.run⟩

/-- The order of `designed_runs`, missing values first. -/
abbrev DesignedOrder : Type := Bool ×ₗ WithBot ℚ ×ₗ WithBot ℤ ×ₗ String

def designedOrder (r : Run) : DesignedOrder :=
  toLex (r.outcome.isSome, toLex (naFirst r.start,
    toLex (naFirst r.key.run.job, r.key.run.episodeId)))

/-- A row of `designed_runs`. -/
structure DesignedRun where
  key : SlotRun
  state : RunState
  speedup : Option ℚ
  deriving DecidableEq, Repr

/-- A run without an outcome is owed. -/
def Run.designed (r : Run) : DesignedRun :=
  match r.outcome with
  | some o => ⟨r.key, o.state, o.speedup⟩
  | none => ⟨r.key, .owed, none⟩

/-- The order `designed_runs` returns its rows in. -/
def finalOrder (d : DesignedRun) : String ×ₗ String ×ₗ ℤ ×ₗ String ×ₗ WithTop ℤ :=
  toLex (d.key.run.setup, toLex (d.key.run.kernel, toLex (d.key.slot,
    toLex (d.key.run.runRoot, naLast d.key.run.job))))

/-- `designed_runs`.  Its check that the solved answers share one stamp cannot fail, as `credited`
compares the same stripped stamp. -/
def designedRuns (f : Frame) : List DesignedRun :=
  sortBy finalOrder ((keepLast (fun r : Run => r.key.slotKey)
    (sortBy designedOrder (runs cfg (f.rows.filter isReal)))).map Run.designed)

end Code

/-! ### Rows as a set -/

/-- The same rows, in any order and number. -/
def SameRows (rows rows' : List Row) : Prop := ∀ r, r ∈ rows ↔ r ∈ rows'

namespace SameRows

variable {rows rows' : List Row}

theorem symm (h : SameRows rows rows') : SameRows rows' rows := fun r => (h r).symm

theorem filter (h : SameRows rows rows') (p : Row → Bool) :
    SameRows (rows.filter p) (rows'.filter p) := by
  intro r
  rw [mem_filter, mem_filter, h r]

theorem mem_stamps (h : SameRows rows rows') (t : ℚ) :
    t ∈ rows.filterMap (·.tsMs) ↔ t ∈ rows'.filterMap (·.tsMs) := by
  simp only [mem_filterMap, h _]

end SameRows

variable {rows : List Row} {r r' : Row} {l m : List ℚ}

theorem Coherent.of_subset {rows' : List Row} (h : Coherent rows) (hsub : rows' ⊆ rows) :
    Coherent rows' := fun r hr r' hr' => h r (hsub hr) r' (hsub hr')

theorem Coherent.filter (h : Coherent rows) (p : Row → Bool) :
    Coherent (rows.filter p) := h.of_subset fun _ hr => (mem_filter.mp hr).1

/-- Rows of one run lie in one slot. -/
theorem Coherent.slotRun_eq (h : Coherent rows) (hr : r ∈ rows) (hr' : r' ∈ rows)
    (hrun : r.run = r'.run) : r.slotRun = r'.slotRun := by
  have hslot := (h r hr r' hr' (by rw [hrun]) (by rw [hrun]) (by rw [hrun])).2
  rw [Row.slotRun, Row.slotRun, hrun, hslot]

/-- Rows of one episode on one kernel are rows of one run. -/
theorem Coherent.run_eq (h : Coherent rows) (hr : r ∈ rows) (hr' : r' ∈ rows)
    (hepisode : r.run.episode = r'.run.episode) : r.run = r'.run := by
  obtain ⟨hroot, hjob, hid, hkernel⟩ : r.run.runRoot = r'.run.runRoot ∧ r.run.job = r'.run.job ∧
      r.run.episodeId = r'.run.episodeId ∧ r.run.kernel = r'.run.kernel := by
    simpa [RunKey.episode] using hepisode
  have hsetup := (h r hr r' hr' hroot hjob hid).1
  cases hrun : r.run
  cases hrun' : r'.run
  simp_all

theorem min?_eq_of_mem_iff (h : ∀ t, t ∈ l ↔ t ∈ m) : l.min? = m.min? := by
  cases hl : l.min? with
  | none =>
    obtain rfl := min?_eq_none_iff.mp hl
    have : m = [] := eq_nil_iff_forall_not_mem.mpr fun t ht => by simpa using (h t).mpr ht
    rw [this, min?_nil]
  | some a =>
    obtain ⟨hmem, hle⟩ := min?_eq_some_iff.mp hl
    exact (min?_eq_some_iff.mpr ⟨(h a).mp hmem, fun b hb => hle b ((h b).mpr hb)⟩).symm

theorem max?_eq_of_mem_iff (h : ∀ t, t ∈ l ↔ t ∈ m) : l.max? = m.max? := by
  cases hl : l.max? with
  | none =>
    obtain rfl := max?_eq_none_iff.mp hl
    have : m = [] := eq_nil_iff_forall_not_mem.mpr fun t ht => by simpa using (h t).mpr ht
    rw [this, max?_nil]
  | some a =>
    obtain ⟨hmem, hle⟩ := max?_eq_some_iff.mp hl
    exact (max?_eq_some_iff.mpr ⟨(h a).mp hmem, fun b hb => hle b ((h b).mpr hb)⟩).symm

/-! ### The rows of `latest_episodes` -/

section Latest

variable (cfg : Config)
variable {rows rows' : List Row} {k : SlotRun}

theorem latestOrder_congr (h : SameRows rows rows') (k : SlotRun) :
    latestOrder cfg rows k = latestOrder cfg rows' k := by
  rw [latestOrder, latestOrder, startOf, startOf, answerTs, answerTs,
    min?_eq_of_mem_iff (h.filter _).mem_stamps, max?_eq_of_mem_iff (h.filter _).mem_stamps]

/-- Two runs of a slot never tie. -/
theorem latestOrder_injective {k' : SlotRun} (hslot : k.slotKey = k'.slotKey)
    (h : latestOrder cfg rows k = latestOrder cfg rows k') : k = k' := by
  simp only [latestOrder, toLex_inj, Prod.mk.injEq] at h
  have hjob := cfg.jobText_injective h.2.2.2.1
  have hids := h.2.2.2.2
  clear h
  obtain ⟨hsetup, hkernel, hslot⟩ : k.run.setup = k'.run.setup ∧ k.run.kernel = k'.run.kernel ∧
      k.slot = k'.slot := by
    simpa [SlotRun.slotKey] using hslot
  obtain ⟨⟨_, _, _, _, _⟩, _⟩ := k
  obtain ⟨⟨_, _, _, _, _⟩, _⟩ := k'
  simp_all

/-- The run chosen for a slot is the greatest of its runs. -/
theorem mem_latest :
    k ∈ latest cfg rows ↔ k ∈ rows.map Row.slotRun ∧
      ∀ k' ∈ rows.map Row.slotRun, k'.slotKey = k.slotKey → k' ≠ k →
        latestOrder cfg rows k' < latestOrder cfg rows k := by
  rw [latest, mem_keepLast_sortBy]
  constructor
  · intro h
    obtain ⟨hmem, hle⟩ := lastMax_spec h
    refine ⟨mem_eraseDups.mp (mem_filter.mp hmem).1, fun k' hk' hslot hne => ?_⟩
    refine lt_of_le_of_ne (hle k' ?_) fun heq => hne (latestOrder_injective cfg hslot heq)
    simpa [mem_filter, hslot] using hk'
  · rintro ⟨hmem, hlt⟩
    refine lastMax_eq_some (by simpa [mem_filter] using hmem) fun k' hk' hne => ?_
    obtain ⟨hk', hslot⟩ := mem_filter.mp hk'
    exact hlt k' (mem_eraseDups.mp hk') (by simpa using hslot) hne

theorem mem_latest_congr (h : SameRows rows rows') (k : SlotRun) :
    k ∈ latest cfg rows ↔ k ∈ latest cfg rows' := by
  have hmem : ∀ k, k ∈ rows.map Row.slotRun ↔ k ∈ rows'.map Row.slotRun := by
    intro k
    simp only [mem_map, h _]
  simp only [mem_latest, hmem, latestOrder_congr cfg h]

/-- **`latest_episodes` looks at the set of rows only.** -/
theorem mem_latestEpisodes_congr {f g : Frame} (h : SameRows f.rows g.rows) (r : Row) :
    r ∈ latestEpisodes cfg f ↔ r ∈ latestEpisodes cfg g := by
  simp only [latestEpisodes, mem_filter, h r, decide_eq_true_eq, mem_latest_congr cfg h]

end Latest

/-! ### The runs of `designed_runs` -/

section Designed

variable (cfg : Config) {rows rows' : List Row}
variable {k : RunKey} {r : Row} {f : Frame} {d : DesignedRun}

theorem mem_episodes (h : Coherent rows) {k : SlotRun} :
    k ∈ episodes rows ↔ k ∈ rows.map Row.slotRun := by
  have hsub := (keepLast_sublist SlotRun.run (rows.map Row.slotRun).reverse).subset
  rw [episodes, mem_reverse]
  refine ⟨fun hk => mem_reverse.mp (hsub hk), fun hk => ?_⟩
  have hkey : k.run ∈ (keepLast SlotRun.run (rows.map Row.slotRun).reverse).map SlotRun.run := by
    rw [mem_keys_keepLast]
    exact mem_map_of_mem (mem_reverse.mpr hk)
  obtain ⟨k', hk', hrun⟩ := mem_map.mp hkey
  -- the row that stays names the same slot
  obtain ⟨r, hr, rfl⟩ := mem_map.mp hk
  obtain ⟨r', hr', rfl⟩ := mem_map.mp (mem_reverse.mp (hsub hk'))
  rwa [h.slotRun_eq hr hr' hrun.symm]

/-- The answers of a run, its last one being its answer. -/
def answersOf (rows : List Row) (k : RunKey) : List Row :=
  (rows.filter isCandidate).filter (·.run = k)

theorem mem_answersOf :
    r ∈ answersOf rows k ↔ r ∈ rows ∧ isCandidate r = true ∧ r.run = k := by
  simp [answersOf, mem_filter, and_comm]

/-- The row `last_per_episode` leaves of a run. -/
theorem find?_lastPerEpisode (h : Coherent rows) (k : RunKey) :
    (lastPerEpisode rows).find? (·.run = k) =
      lastMax submissionOrder (rows.filter (·.run = k)) := by
  have hepisode : ∀ a ∈ rows, a.run = k →
      rows.filter (fun b => b.run.episode = a.run.episode) = rows.filter (·.run = k) := by
    rintro a ha rfl
    refine filter_congr fun b hb => ?_
    rw [decide_eq_decide]
    exact ⟨fun heq => h.run_eq hb ha heq, fun heq => by rw [heq]⟩
  cases hlast : lastMax submissionOrder (rows.filter (·.run = k)) with
  | none =>
    rw [find?_eq_none]
    intro a ha hrun
    have hrun' : a.run = k := by simpa using hrun
    have hmem := (sortBy_perm submissionOrder rows).subset
      ((keepLast_sublist _ _).subset ha)
    rw [lastPerEpisode, mem_keepLast_sortBy, hepisode a hmem hrun', hlast] at ha
    cases ha
  | some a =>
    obtain ⟨hmem, -⟩ := lastMax_spec hlast
    obtain ⟨ha, hrun⟩ := mem_filter.mp hmem
    have hrun' : a.run = k := by simpa using hrun
    have hleft : a ∈ lastPerEpisode rows := by
      rw [lastPerEpisode, mem_keepLast_sortBy, hepisode a ha hrun', hlast]
    cases hfind : (lastPerEpisode rows).find? (·.run = k) with
    | none => exact absurd hrun (find?_eq_none.mp hfind a hleft)
    | some b =>
      have hb := mem_of_find?_eq_some hfind
      have hbrun : b.run = k := by simpa using find?_some hfind
      have hbmem := (sortBy_perm submissionOrder rows).subset
        ((keepLast_sublist _ _).subset hb)
      rw [lastPerEpisode, mem_keepLast_sortBy, hepisode b hbmem hbrun, hlast] at hb
      exact hb.symm

/-- A run that has an answer or a refused attempt. -/
def Answered (rows : List Row) (k : RunKey) : Prop :=
  ∃ r ∈ rows, r.run = k ∧ (isCandidate r = true ∨ isRefused r = true)

theorem Answered.congr (h : SameRows rows rows') (k : RunKey) :
    Answered rows k ↔ Answered rows' k := by
  simp only [Answered, h _]

theorem outcomeOf_of_answer (h : Coherent rows) {a : Row}
    (ha : lastMax submissionOrder (answersOf rows k) = some a) :
    outcomeOf cfg rows k = some (outcome cfg a) := by
  rw [outcomeOf, find?_lastPerEpisode (h.filter _) k]
  rw [answersOf] at ha
  rw [ha]

theorem outcomeOf_of_nil (h : Coherent rows) (hnil : answersOf rows k = []) :
    outcomeOf cfg rows k =
      if (rows.filter isRefused).any (·.run = k) then some ⟨.unsolved, some notDelivered⟩
      else none := by
  rw [answersOf] at hnil
  rw [outcomeOf, find?_lastPerEpisode (h.filter _) k, hnil]
  rfl

theorem any_refused : (rows.filter isRefused).any (·.run = k) = true ↔
    ∃ r ∈ rows, r.run = k ∧ isRefused r = true := by
  simp only [any_eq_true, mem_filter, decide_eq_true_eq]
  exact ⟨fun ⟨r, ⟨hr, href⟩, hrun⟩ => ⟨r, hr, hrun, href⟩,
    fun ⟨r, hr, hrun, href⟩ => ⟨r, ⟨hr, href⟩, hrun⟩⟩

theorem isSome_outcomeOf (h : Coherent rows) (k : RunKey) :
    (outcomeOf cfg rows k).isSome = true ↔ Answered rows k := by
  by_cases hnil : answersOf rows k = []
  · have hnone : ∀ r ∈ rows, r.run = k → isCandidate r = false := by
      intro r hr hrun
      cases hcand : isCandidate r with
      | false => rfl
      | true =>
        have := mem_answersOf.mpr ⟨hr, hcand, hrun⟩
        rw [hnil] at this
        cases this
    rw [outcomeOf_of_nil cfg h hnil, Answered]
    have hrefused : (∃ r ∈ rows, r.run = k ∧ (isCandidate r = true ∨ isRefused r = true)) ↔
        ∃ r ∈ rows, r.run = k ∧ isRefused r = true :=
      ⟨fun ⟨r, hr, hrun, hor⟩ => ⟨r, hr, hrun, hor.resolve_left (by simp [hnone r hr hrun])⟩,
        fun ⟨r, hr, hrun, href⟩ => ⟨r, hr, hrun, .inr href⟩⟩
    rw [hrefused, ← any_refused]
    split <;> simp_all
  · obtain ⟨a, ha⟩ := exists_lastMax submissionOrder hnil
    obtain ⟨hmem, hcand, hrun⟩ := mem_answersOf.mp (lastMax_spec ha).1
    rw [outcomeOf_of_answer cfg h ha]
    exact iff_of_true rfl ⟨a, hmem, hrun, .inl hcand⟩

theorem runStart_congr (h : SameRows rows rows') (k : RunKey) :
    runStart rows k = runStart rows' k := by
  rw [runStart, runStart, min?_eq_of_mem_iff (h.filter _).mem_stamps]

/-- The order of a run, by the rows. -/
def orderOf (rows : List Row) (k : SlotRun) : DesignedOrder :=
  designedOrder ⟨k, outcomeOf cfg rows k.run, runStart rows k.run⟩

/-- The order of a run does not depend on the order of the rows. -/
theorem orderOf_congr (hc : Coherent rows) (hc' : Coherent rows') (h : SameRows rows rows')
    (k : SlotRun) : orderOf cfg rows k = orderOf cfg rows' k := by
  have hsome : (outcomeOf cfg rows k.run).isSome = (outcomeOf cfg rows' k.run).isSome := by
    rw [Bool.eq_iff_iff, isSome_outcomeOf cfg hc, isSome_outcomeOf cfg hc', Answered.congr h]
  simp only [orderOf, designedOrder, hsome, runStart_congr h]

/-- The run of a slot as the row `designed_runs` gives it. -/
def designedOf (rows : List Row) (k : SlotRun) : DesignedRun :=
  Run.designed ⟨k, outcomeOf cfg rows k.run, runStart rows k.run⟩

@[simp] theorem key_designedOf (k : SlotRun) : (designedOf cfg rows k).key = k := by
  rw [designedOf, Run.designed]
  split <;> rfl

/-- The runs of one slot, in the order of their first rows. -/
def slotRuns (rows : List Row) (s : SlotKey) : List SlotRun :=
  (episodes rows).filter (·.slotKey = s)

theorem mem_slotRuns (h : Coherent rows) {s : SlotKey} {k : SlotRun} :
    k ∈ slotRuns rows s ↔ k ∈ rows.map Row.slotRun ∧ k.slotKey = s := by
  rw [slotRuns, mem_filter, mem_episodes h, decide_eq_true_iff]

/-- **The rows of `designed_runs`**: of each slot the last of the greatest runs. -/
theorem mem_designedRuns :
    d ∈ designedRuns cfg f ↔
      ∃ k, lastMax (orderOf cfg (f.rows.filter isReal))
          (slotRuns (f.rows.filter isReal) k.slotKey) = some k ∧
        d = designedOf cfg (f.rows.filter isReal) k := by
  rw [designedRuns, mem_sortBy, mem_map]
  generalize f.rows.filter isReal = rows
  have hchoice : ∀ s, lastMax designedOrder ((runs cfg rows).filter fun x => x.key.slotKey = s) =
      (lastMax (orderOf cfg rows) (slotRuns rows s)).map fun k =>
        ⟨k, outcomeOf cfg rows k.run, runStart rows k.run⟩ := by
    intro s
    rw [runs, filter_map, lastMax_map]
    rfl
  constructor
  · rintro ⟨x, hx, rfl⟩
    rw [mem_keepLast_sortBy, hchoice, Option.map_eq_some_iff] at hx
    obtain ⟨k, hk, rfl⟩ := hx
    exact ⟨k, hk, rfl⟩
  · rintro ⟨k, hk, rfl⟩
    refine ⟨⟨k, outcomeOf cfg rows k.run, runStart rows k.run⟩, ?_, rfl⟩
    rw [mem_keepLast_sortBy, hchoice, hk]
    rfl

/-- No slot is given twice. -/
theorem nodup_designedRuns (f : Frame) :
    ((designedRuns cfg f).map (·.key.slotKey)).Nodup := by
  have hkey : ∀ x : Run, x.designed.key = x.key := by
    intro x
    rw [Run.designed]
    split <;> rfl
  refine ((sortBy_perm _ _).map _).nodup_iff.mpr ?_
  rw [map_map, Function.comp_def]
  simp only [hkey]
  exact nodup_keepLast _

/-- Of a slot there is one row. -/
theorem designedRuns_unique {d' : DesignedRun} (hd : d ∈ designedRuns cfg f)
    (hd' : d' ∈ designedRuns cfg f) (hslot : d.key.slotKey = d'.key.slotKey) : d = d' := by
  obtain ⟨k, hk, rfl⟩ := (mem_designedRuns cfg).mp hd
  obtain ⟨k', hk', rfl⟩ := (mem_designedRuns cfg).mp hd'
  rw [key_designedOf, key_designedOf] at hslot
  rw [hslot, hk'] at hk
  rw [Option.some.inj hk]

/-- Every slot of a real setup has its row, of one of its runs. -/
theorem exists_designedRun (hr : r ∈ f.rows) (hreal : isReal r = true) :
    ∃ k, lastMax (orderOf cfg (f.rows.filter isReal))
      (slotRuns (f.rows.filter isReal) r.slotKey) = some k ∧ k.slotKey = r.slotKey ∧
      designedOf cfg (f.rows.filter isReal) k ∈ designedRuns cfg f := by
  have hc := f.coherent.filter isReal
  have hmem : r.slotRun ∈ slotRuns (f.rows.filter isReal) r.slotKey :=
    (mem_slotRuns hc).mpr ⟨mem_map_of_mem (mem_filter.mpr ⟨hr, hreal⟩), rfl⟩
  obtain ⟨k, hk⟩ := exists_lastMax (orderOf cfg (f.rows.filter isReal))
    (ne_nil_of_mem hmem)
  have hslot := ((mem_slotRuns hc).mp (lastMax_spec hk).1).2
  exact ⟨k, hk, hslot, (mem_designedRuns cfg).mpr ⟨k, by rw [hslot]; exact hk, rfl⟩⟩

end Designed

/-! ### Reordered frames -/

/-- The frame with the rows of a condition moved to its end. -/
def Frame.moved (f : Frame) (p : Row → Bool) : Frame where
  rows := f.rows.filter (fun r => !p r) ++ f.rows.filter p
  coherent := by
    refine f.coherent.of_subset fun r hr => ?_
    rcases mem_append.mp hr with hr | hr
    · exact (mem_filter.mp hr).1
    · exact (mem_filter.mp hr).1

theorem sameRows_moved (f : Frame) (p : Row → Bool) : SameRows f.rows (f.moved p).rows := by
  intro r
  rw [Frame.moved, mem_append, mem_filter, mem_filter]
  cases p r <;> simp

/-- The real rows of a reordered frame. -/
theorem filter_moved (f : Frame) (p q : Row → Bool) :
    (f.moved p).rows.filter q =
      (f.rows.filter q).filter (fun r => !p r) ++ (f.rows.filter q).filter p := by
  rw [Frame.moved, filter_append, filter_filter, filter_filter, filter_filter,
    filter_filter]
  simp only [Bool.and_comm]

/-- Runs of later rows come later, when they have no earlier row. -/
theorem episodes_append {l m : List Row} (h : ∀ r ∈ m, r.run ∉ l.map (·.run)) :
    episodes (l ++ m) = episodes l ++ episodes m := by
  rw [episodes, map_append, reverse_append, keepLast_append, reverse_append]
  · rfl
  · intro k hk hmem
    obtain ⟨r, hr, rfl⟩ := mem_map.mp (mem_reverse.mp hk)
    refine h r hr ?_
    simpa [Row.slotRun] using hmem

section Moved

variable (cfg : Config) {rows : List Row}

/-- A greatest run of a slot is the one kept once its rows come last. -/
theorem lastMax_slotRuns_moved (h : Coherent rows) {k : SlotRun} (hk : k ∈ rows.map Row.slotRun)
    (ord : SlotRun → DesignedOrder)
    (hle : ∀ k' ∈ slotRuns rows k.slotKey, ord k' ≤ ord k) :
    lastMax ord (slotRuns (rows.filter (fun r => !decide (r.run = k.run)) ++
      rows.filter (fun r => decide (r.run = k.run))) k.slotKey) = some k := by
  have hdisjoint : ∀ r ∈ rows.filter (fun r => decide (r.run = k.run)),
      r.run ∉ (rows.filter fun r => !decide (r.run = k.run)).map (·.run) := by
    intro r hr hmem
    obtain ⟨r', hr', hrun⟩ := mem_map.mp hmem
    have hrk := (mem_filter.mp hr).2
    have hrk' := (mem_filter.mp hr').2
    simp_all
  obtain ⟨r, hr, rfl⟩ := mem_map.mp hk
  rw [slotRuns, episodes_append hdisjoint, filter_append]
  refine lastMax_append (ne_nil_of_mem (a := r.slotRun) ?_) ?_ ?_
  · exact (mem_slotRuns (h.filter _)).mpr
      ⟨mem_map_of_mem (mem_filter.mpr ⟨hr, by simp [Row.slotRun]⟩), rfl⟩
  · intro b hb
    obtain ⟨hb, -⟩ := (mem_slotRuns (h.filter _)).mp hb
    obtain ⟨r', hr', rfl⟩ := mem_map.mp hb
    obtain ⟨hr', hrun⟩ := mem_filter.mp hr'
    exact h.slotRun_eq hr' hr (of_decide_eq_true hrun)
  · intro b hb
    obtain ⟨hb, hslot⟩ := (mem_slotRuns (h.filter _)).mp hb
    obtain ⟨r', hr', rfl⟩ := mem_map.mp hb
    exact hle _ ((mem_slotRuns h).mpr
      ⟨mem_map_of_mem (mem_filter.mp hr').1, hslot⟩)

/-- A greatest answer of a run is its answer once its rows come last. -/
theorem lastMax_answersOf_moved {k : RunKey} {a : Row} (ha : a ∈ answersOf rows k)
    (hle : ∀ b ∈ answersOf rows k, submissionOrder b ≤ submissionOrder a) :
    lastMax submissionOrder (answersOf (rows.filter (fun r => !decide (r = a)) ++
      rows.filter (fun r => decide (r = a))) k) = some a := by
  rw [answersOf, filter_append, filter_append]
  refine lastMax_append (ne_nil_of_mem (a := a) ?_) ?_ ?_
  · obtain ⟨hmem, hcand, hrun⟩ := mem_answersOf.mp ha
    simp [mem_filter, hmem, hcand, hrun]
  · intro b hb
    simp only [mem_filter, decide_eq_true_eq] at hb
    exact hb.1.1.2
  · intro b hb
    simp only [mem_filter, decide_eq_true_eq] at hb
    exact hle b (mem_answersOf.mpr ⟨hb.1.1.1, hb.1.2, hb.2⟩)

end Moved

/-! ### One run of each slot -/

section OneRun

variable (cfg : Config)

/-- The slot has a valid graded answer. -/
def HasValid (f : Frame) (s : SlotKey) : Prop :=
  ∃ r ∈ f.rows, r.slotKey = s ∧ validSubmission cfg r = true

/-- What the two selectors are for: each slot has one row, owed only without an answer; both keep
the same run of a slot with a valid answer; and neither looks at the order of the rows. -/
structure OneRun (f : Frame) : Prop where
  nodup : ((designedRuns cfg f).map (·.key.slotKey)).Nodup
  mem_slots : ∀ s, s ∈ (designedRuns cfg f).map (·.key.slotKey) ↔
    ∃ r ∈ f.rows, isReal r = true ∧ r.slotKey = s
  owed_only : ∀ d ∈ designedRuns cfg f, d.state = .owed →
    ∀ r ∈ f.rows, r.slotKey = d.key.slotKey → ¬Answered f.rows r.run
  same_run : ∀ d ∈ designedRuns cfg f, HasValid cfg f d.key.slotKey →
    ∀ r ∈ latestEpisodes cfg f, r.slotKey = d.key.slotKey → r.slotRun = d.key
  order_free : ∀ g : Frame, SameRows f.rows g.rows →
    (∀ d, d ∈ designedRuns cfg f ↔ d ∈ designedRuns cfg g) ∧
      ∀ r, r ∈ latestEpisodes cfg f ↔ r ∈ latestEpisodes cfg g

/-- The last answers of a run: those that no other answer of it comes after. -/
def lastAnswers (rows : List Row) (k : RunKey) : List Row :=
  (answersOf rows k).filter fun a =>
    (answersOf rows k).all fun b => submissionOrder b ≤ submissionOrder a

theorem mem_lastAnswers {rows : List Row} {k : RunKey} {a : Row} :
    a ∈ lastAnswers rows k ↔
      a ∈ answersOf rows k ∧ ∀ b ∈ answersOf rows k, submissionOrder b ≤ submissionOrder a := by
  simp [lastAnswers, mem_filter]

/-- The run `m` is strictly the last one of its slot, answered runs after the others; its last
answers give one outcome, which is graded; and it has the newest valid answer of the slot when
there is one. -/
structure Decides (f : Frame) (m : SlotRun) : Prop where
  mem : m ∈ f.rows.map Row.slotRun
  last : ∀ k ∈ f.rows.map Row.slotRun, k.slotKey = m.slotKey → k ≠ m →
    orderOf cfg f.rows k < orderOf cfg f.rows m
  agree : ∀ a ∈ lastAnswers f.rows m.run, ∀ b ∈ lastAnswers f.rows m.run,
    outcome cfg a = outcome cfg b
  graded : ∀ a ∈ lastAnswers f.rows m.run, runState cfg a ≠ .owed
  newest : HasValid cfg f m.slotKey → ∀ k ∈ f.rows.map Row.slotRun, k.slotKey = m.slotKey →
    k ≠ m → latestOrder cfg f.rows k < latestOrder cfg f.rows m

/-- Every slot of a real setup is decided. -/
def SlotsDecided (f : Frame) : Prop :=
  ∀ r ∈ f.rows, isReal r = true → ∃ m, m.slotKey = r.slotKey ∧ Decides cfg f m

variable {cfg}

variable {r : Row} {f : Frame} {s : SlotKey} {k m : SlotRun}

theorem isReal_of_slotKey {r' : Row} (h : r.slotKey = r'.slotKey) : isReal r = isReal r' := by
  obtain ⟨hsetup, hkernel, -⟩ : r.run.setup = r'.run.setup ∧ r.run.kernel = r'.run.kernel ∧
      r.slot = r'.slot := by simpa [Row.slotKey] using h
  rw [isReal, isReal, hsetup, hkernel]

/-- Rows that lie in a slot of a real setup. -/
def RealSlot (f : Frame) (s : SlotKey) : Prop := ∃ r ∈ f.rows, isReal r = true ∧ r.slotKey = s

theorem RealSlot.isReal (h : RealSlot f s) (hr : r.slotKey = s) : isReal r = true := by
  obtain ⟨r', -, hreal, hslot⟩ := h
  rw [isReal_of_slotKey (hr.trans hslot.symm), hreal]

/-- The rows of a run of a real setup are all real. -/
theorem mem_filter_isReal (h : RealSlot f k.slotKey) (hrun : r.run = k.run) :
    r ∈ f.rows.filter Population.isReal ↔ r ∈ f.rows := by
  obtain ⟨r', -, hreal, hslot⟩ := h
  have hkey : r'.run.setup = k.run.setup ∧ r'.run.kernel = k.run.kernel ∧ r'.slot = k.slot := by
    simpa [Row.slotKey, SlotRun.slotKey] using hslot
  have : Population.isReal r = true := by
    rw [← hreal, Population.isReal, Population.isReal, hrun, hkey.1, hkey.2.1]
  rw [mem_filter]
  exact and_iff_left this

theorem answered_filter_isReal (h : RealSlot f k.slotKey) :
    Answered (f.rows.filter Population.isReal) k.run ↔ Answered f.rows k.run := by
  constructor
  · rintro ⟨r, hr, hrun, hor⟩
    exact ⟨r, (mem_filter_isReal h hrun).mp hr, hrun, hor⟩
  · rintro ⟨r, hr, hrun, hor⟩
    exact ⟨r, (mem_filter_isReal h hrun).mpr hr, hrun, hor⟩

theorem filter_run_isReal (h : RealSlot f k.slotKey) (p : Row → Bool) :
    ((f.rows.filter Population.isReal).filter p).filter (·.run = k.run) =
      (f.rows.filter p).filter (·.run = k.run) := by
  rw [filter_filter, filter_filter, filter_filter]
  refine filter_congr fun r hr => ?_
  by_cases hrun : r.run = k.run
  · have := (mem_filter.mp ((mem_filter_isReal h hrun).mpr hr)).2
    simp [hrun, this]
  · simp [hrun]

theorem answersOf_filter_isReal (h : RealSlot f k.slotKey) :
    answersOf (f.rows.filter Population.isReal) k.run = answersOf f.rows k.run :=
  filter_run_isReal h isCandidate

theorem orderOf_filter_isReal (h : RealSlot f k.slotKey) :
    orderOf cfg (f.rows.filter Population.isReal) k = orderOf cfg f.rows k := by
  have hsome : (outcomeOf cfg (f.rows.filter Population.isReal) k.run).isSome =
      (outcomeOf cfg f.rows k.run).isSome := by
    rw [Bool.eq_iff_iff, isSome_outcomeOf cfg (f.coherent.filter _),
      isSome_outcomeOf cfg f.coherent, answered_filter_isReal h]
  have hstart : runStart (f.rows.filter Population.isReal) k.run = runStart f.rows k.run := by
    have := filter_run_isReal h fun _ => true
    simp only [filter_true] at this
    rw [runStart, runStart, this]
  simp only [orderOf, designedOrder, hsome, hstart]

/-- The runs of a slot of a real setup. -/
theorem mem_slotRuns_real (h : RealSlot f s) :
    k ∈ slotRuns (f.rows.filter Population.isReal) s ↔
      k ∈ f.rows.map Row.slotRun ∧ k.slotKey = s := by
  rw [mem_slotRuns (f.coherent.filter _)]
  refine and_congr_left fun hslot => ?_
  simp only [mem_map]
  constructor
  · rintro ⟨r, hr, rfl⟩
    exact ⟨r, (mem_filter.mp hr).1, rfl⟩
  · rintro ⟨r, hr, rfl⟩
    exact ⟨r, mem_filter.mpr ⟨hr, h.isReal hslot⟩, rfl⟩

/-- The run `designed_runs` keeps of a decided slot. -/
theorem Decides.choice (hm : Decides cfg f m) (h : RealSlot f m.slotKey) :
    lastMax (orderOf cfg (f.rows.filter Population.isReal))
      (slotRuns (f.rows.filter Population.isReal) m.slotKey) = some m := by
  refine lastMax_eq_some ((mem_slotRuns_real h).mpr ⟨hm.mem, rfl⟩) fun k hk hne => ?_
  obtain ⟨hmem, hslot⟩ := (mem_slotRuns_real h).mp hk
  rw [orderOf_filter_isReal h, orderOf_filter_isReal (hslot ▸ h)]
  exact hm.last k hmem hslot hne

theorem Decides.eq (hm : Decides cfg f m) (h : RealSlot f m.slotKey) {d : DesignedRun}
    (hd : d ∈ designedRuns cfg f) (hslot : d.key.slotKey = m.slotKey) :
    d = designedOf cfg (f.rows.filter Population.isReal) m := by
  obtain ⟨k, hk, rfl⟩ := (mem_designedRuns cfg).mp hd
  rw [key_designedOf] at hslot
  rw [hslot, hm.choice h] at hk
  rw [Option.some.inj hk]

variable (cfg) in
/-- The outcome of a run is that of one of its last answers, or does not look at the order of
rows. -/
theorem outcomeOf_eq (h : RealSlot f k.slotKey) :
    (∃ a ∈ lastAnswers f.rows k.run,
      outcomeOf cfg (f.rows.filter Population.isReal) k.run = some (outcome cfg a)) ∨
    answersOf f.rows k.run = [] ∧
      outcomeOf cfg (f.rows.filter Population.isReal) k.run =
        if (f.rows.filter isRefused).any (·.run = k.run) then
          some ⟨.unsolved, some notDelivered⟩ else none := by
  have hanswers := answersOf_filter_isReal h
  by_cases hnil : answersOf f.rows k.run = []
  · refine .inr ⟨hnil, ?_⟩
    rw [outcomeOf_of_nil cfg (f.coherent.filter _) (hanswers.trans hnil)]
    refine if_congr ?_ rfl rfl
    rw [any_refused, any_refused]
    constructor
    · rintro ⟨r, hr, hrun, href⟩
      exact ⟨r, (mem_filter_isReal h hrun).mp hr, hrun, href⟩
    · rintro ⟨r, hr, hrun, href⟩
      exact ⟨r, (mem_filter_isReal h hrun).mpr hr, hrun, href⟩
  · obtain ⟨a, ha⟩ := exists_lastMax submissionOrder hnil
    refine .inl ⟨a, mem_lastAnswers.mpr (lastMax_spec ha), ?_⟩
    exact outcomeOf_of_answer cfg (f.coherent.filter _) (by rw [hanswers, ha])

section SameFrame

variable {f g : Frame}
variable {m : SlotRun}

theorem HasValid.congr (h : SameRows f.rows g.rows) (s : SlotKey) :
    HasValid cfg f s ↔ HasValid cfg g s := by
  simp only [HasValid, h _]

theorem RealSlot.congr (h : SameRows f.rows g.rows) (s : SlotKey) :
    RealSlot f s ↔ RealSlot g s := by
  simp only [RealSlot, h _]

theorem mem_answersOf_congr (h : SameRows f.rows g.rows) (k : RunKey) (a : Row) :
    a ∈ answersOf f.rows k ↔ a ∈ answersOf g.rows k := by
  rw [mem_answersOf, mem_answersOf, h a]

theorem mem_lastAnswers_congr (h : SameRows f.rows g.rows) (k : RunKey) (a : Row) :
    a ∈ lastAnswers f.rows k ↔ a ∈ lastAnswers g.rows k := by
  simp only [mem_lastAnswers, mem_answersOf_congr h]

theorem mem_slotRun_congr (h : SameRows f.rows g.rows) (k : SlotRun) :
    k ∈ f.rows.map Row.slotRun ↔ k ∈ g.rows.map Row.slotRun := by
  simp only [mem_map, h _]

/-- Whether a run decides its slot does not depend on the order of rows. -/
theorem Decides.congr (h : SameRows f.rows g.rows) (hm : Decides cfg f m) :
    Decides cfg g m where
  mem := (mem_slotRun_congr h m).mp hm.mem
  last k hk hslot hne := by
    rw [← orderOf_congr cfg f.coherent g.coherent h, ← orderOf_congr cfg f.coherent g.coherent h]
    exact hm.last k ((mem_slotRun_congr h k).mpr hk) hslot hne
  agree a ha b hb := hm.agree a ((mem_lastAnswers_congr h _ a).mpr ha) b
    ((mem_lastAnswers_congr h _ b).mpr hb)
  graded a ha := hm.graded a ((mem_lastAnswers_congr h _ a).mpr ha)
  newest hvalid k hk hslot hne := by
    rw [← latestOrder_congr cfg h, ← latestOrder_congr cfg h]
    exact hm.newest ((HasValid.congr h _).mpr hvalid) k ((mem_slotRun_congr h k).mpr hk) hslot hne

/-- A decided slot has one row in every order. -/
theorem Decides.designedOf_congr (h : SameRows f.rows g.rows) (hm : Decides cfg f m)
    (hreal : RealSlot f m.slotKey) :
    designedOf cfg (f.rows.filter Population.isReal) m =
      designedOf cfg (g.rows.filter Population.isReal) m := by
  have houtcome : outcomeOf cfg (f.rows.filter Population.isReal) m.run =
      outcomeOf cfg (g.rows.filter Population.isReal) m.run := by
    have hrefused : (f.rows.filter isRefused).any (·.run = m.run) =
        (g.rows.filter isRefused).any (·.run = m.run) := by
      rw [Bool.eq_iff_iff, any_refused, any_refused]
      simp only [h _]
    obtain ⟨a, ha, hout⟩ | ⟨hnil, hout⟩ := outcomeOf_eq cfg hreal
    · obtain ⟨b, hb, hout'⟩ | ⟨hnil', -⟩ :=
        outcomeOf_eq cfg ((RealSlot.congr h _).mp hreal)
      · rw [hout, hout', hm.agree a ha b ((mem_lastAnswers_congr h _ b).mpr hb)]
      · have := (mem_answersOf_congr h _ a).mp (mem_lastAnswers.mp ha).1
        rw [hnil'] at this
        cases this
    · obtain ⟨b, hb, -⟩ | ⟨-, hout'⟩ := outcomeOf_eq cfg ((RealSlot.congr h _).mp hreal)
      · have := (mem_answersOf_congr h _ b).mpr (mem_lastAnswers.mp hb).1
        rw [hnil] at this
        cases this
      · rw [hout, hout', hrefused]
  simp only [designedOf, houtcome]
  rfl

end SameFrame

/-! ### Decided slots are exactly what is needed -/

theorem mem_slots_designedRuns (f : Frame) (s : SlotKey) :
    s ∈ (designedRuns cfg f).map (·.key.slotKey) ↔
      ∃ r ∈ f.rows, isReal r = true ∧ r.slotKey = s := by
  constructor
  · intro hs
    obtain ⟨d, hd, rfl⟩ := mem_map.mp hs
    obtain ⟨k, hk, rfl⟩ := (mem_designedRuns cfg).mp hd
    obtain ⟨hmem, -⟩ := (mem_slotRuns (f.coherent.filter _)).mp (lastMax_spec hk).1
    obtain ⟨r, hr, rfl⟩ := mem_map.mp hmem
    obtain ⟨hr, hreal⟩ := mem_filter.mp hr
    exact ⟨r, hr, hreal, by rw [key_designedOf]; rfl⟩
  · rintro ⟨r, hr, hreal, rfl⟩
    obtain ⟨k, -, hslot, hd⟩ := exists_designedRun cfg hr hreal
    exact mem_map.mpr ⟨_, hd, by rw [key_designedOf, hslot]⟩

variable (cfg) in
/-- The run of a slot that `latest_episodes` keeps has rows there. -/
theorem exists_latest (h : ∃ r ∈ f.rows, r.slotKey = s) :
    ∃ r ∈ latestEpisodes cfg f, r.slotKey = s ∧ r.slotRun ∈ latest cfg f.rows := by
  obtain ⟨r, hr, rfl⟩ := h
  have hkey : r.slotKey ∈ (latest cfg f.rows).map SlotRun.slotKey := by
    rw [latest, mem_keys_keepLast]
    refine mem_map.mpr ⟨r.slotRun, ?_, rfl⟩
    rw [mem_sortBy, mem_eraseDups]
    exact mem_map_of_mem hr
  obtain ⟨k, hk, hslot⟩ := mem_map.mp hkey
  obtain ⟨r', hr', rfl⟩ := mem_map.mp ((mem_latest cfg).mp hk).1
  exact ⟨r', mem_filter.mpr ⟨hr', by simpa using hk⟩, hslot, hk⟩

theorem OneRun.of_decided (h : SlotsDecided cfg f) : OneRun cfg f := by
  have hdecided : ∀ d ∈ designedRuns cfg f, ∃ m, Decides cfg f m ∧ RealSlot f m.slotKey ∧
      d = designedOf cfg (f.rows.filter Population.isReal) m := by
    intro d hd
    have hslot := (mem_slots_designedRuns f d.key.slotKey).mp (mem_map_of_mem hd)
    obtain ⟨r, hr, hreal, hrs⟩ := hslot
    obtain ⟨m, hms, hm⟩ := h r hr hreal
    have hmreal : RealSlot f m.slotKey := ⟨r, hr, hreal, hms.symm⟩
    exact ⟨m, hm, hmreal, hm.eq hmreal hd (hrs.symm.trans hms.symm)⟩
  have hinto : ∀ {f g : Frame}, SameRows f.rows g.rows → ∀ d,
      (∃ m, Decides cfg f m ∧ RealSlot f m.slotKey ∧
        d = designedOf cfg (f.rows.filter Population.isReal) m) → d ∈ designedRuns cfg g := by
    rintro f g hfg d ⟨m, hm, hmreal, rfl⟩
    rw [hm.designedOf_congr hfg hmreal, mem_designedRuns]
    exact ⟨m, (hm.congr hfg).choice ((RealSlot.congr hfg _).mp hmreal), rfl⟩
  refine ⟨nodup_designedRuns cfg f, mem_slots_designedRuns f, ?_, ?_, ?_⟩
  · intro d hd howed r hr hrs hanswered
    obtain ⟨m, hm, hmreal, rfl⟩ := hdecided d hd
    rw [key_designedOf] at hrs
    obtain ⟨a, ha, hout⟩ | ⟨hnil, hout⟩ := outcomeOf_eq cfg hmreal
    · refine hm.graded a ha ?_
      rw [designedOf, hout] at howed
      exact howed
    · rw [designedOf, hout] at howed
      split at howed
      · cases howed
      · -- the last run has no answer, so no run of the slot has one
        have hnone : (outcomeOf cfg f.rows m.run).isSome = false := by
          rw [Bool.eq_false_iff, Ne, isSome_outcomeOf cfg f.coherent]
          rintro ⟨r', hr', hrun, hcand | href⟩
          · have := mem_answersOf.mpr ⟨hr', hcand, hrun⟩
            rw [hnil] at this
            cases this
          · rename_i hrefused
            exact hrefused (any_refused.mpr ⟨r', hr', hrun, href⟩)
        have hsome : (outcomeOf cfg f.rows r.run).isSome = true :=
          (isSome_outcomeOf cfg f.coherent _).mpr hanswered
        have hne : r.slotRun ≠ m := by
          rintro rfl
          rw [show r.slotRun.run = r.run from rfl, hsome] at hnone
          cases hnone
        have hlt := hm.last r.slotRun (mem_map_of_mem hr) hrs hne
        rw [orderOf, orderOf, designedOrder, designedOrder, Prod.Lex.toLex_lt_toLex] at hlt
        simp only [show r.slotRun.run = r.run from rfl, hsome, hnone] at hlt
        rcases hlt with hlt | ⟨heq, -⟩
        · exact absurd hlt (by decide)
        · cases heq
  · intro d hd hvalid r hr hrs
    obtain ⟨m, hm, hmreal, rfl⟩ := hdecided d hd
    rw [key_designedOf] at hvalid hrs ⊢
    obtain ⟨hmem, hlatest⟩ := mem_filter.mp hr
    have hmax := ((mem_latest cfg).mp (by simpa using hlatest)).2
    by_contra hne
    exact lt_asymm (hm.newest hvalid _ (mem_map_of_mem hmem) hrs hne)
      (hmax m hm.mem hrs.symm fun heq => hne heq.symm)
  · intro g hfg
    have hg : SlotsDecided cfg g := by
      intro r hr hreal
      obtain ⟨m, hms, hm⟩ := h r ((hfg r).mpr hr) hreal
      exact ⟨m, hms, hm.congr hfg⟩
    refine ⟨fun d => ⟨fun hd => hinto hfg d (hdecided d hd), fun hd => ?_⟩,
      mem_latestEpisodes_congr cfg hfg⟩
    have hslot := (mem_slots_designedRuns g d.key.slotKey).mp (mem_map_of_mem hd)
    obtain ⟨r, hr, hreal, hrs⟩ := hslot
    obtain ⟨m, hms, hm⟩ := hg r hr hreal
    have hmreal : RealSlot g m.slotKey := ⟨r, hr, hreal, hms.symm⟩
    exact hinto hfg.symm d ⟨m, hm, hmreal, hm.eq hmreal hd (hrs.symm.trans hms.symm)⟩

/-- A run strictly after the others is chosen in every order of the rows. -/
theorem choice_of_last {g : Frame} (h : SameRows f.rows g.rows) (hreal : RealSlot f m.slotKey)
    (hmem : m ∈ f.rows.map Row.slotRun)
    (hlast : ∀ k ∈ f.rows.map Row.slotRun, k.slotKey = m.slotKey → k ≠ m →
      orderOf cfg f.rows k < orderOf cfg f.rows m) :
    designedOf cfg (g.rows.filter Population.isReal) m ∈ designedRuns cfg g := by
  have hreal' := (RealSlot.congr h _).mp hreal
  refine (mem_designedRuns cfg).mpr ⟨m, lastMax_eq_some ?_ fun k hk hne => ?_, rfl⟩
  · exact (mem_slotRuns_real hreal').mpr ⟨(mem_slotRun_congr h m).mp hmem, rfl⟩
  · obtain ⟨hk, hslot⟩ := (mem_slotRuns_real hreal').mp hk
    rw [orderOf_filter_isReal hreal', orderOf_filter_isReal (hslot ▸ hreal'),
      ← orderOf_congr cfg f.coherent g.coherent h, ← orderOf_congr cfg f.coherent g.coherent h]
    exact hlast k ((mem_slotRun_congr h k).mpr hk) hslot hne

theorem OneRun.decided (h : OneRun cfg f) : SlotsDecided cfg f := by
  intro r hr hreal
  obtain ⟨k, hk, hslot, hd⟩ := exists_designedRun cfg hr hreal
  have hkreal : RealSlot f k.slotKey := ⟨r, hr, hreal, hslot.symm⟩
  obtain ⟨hkmem, hkmax⟩ := lastMax_spec hk
  rw [← hslot] at hkmem hkmax
  have hmem := ((mem_slotRuns_real hkreal).mp hkmem).1
  -- two runs that tie: the one whose rows come last is kept
  have hlast : ∀ k' ∈ f.rows.map Row.slotRun, k'.slotKey = k.slotKey → k' ≠ k →
      orderOf cfg f.rows k' < orderOf cfg f.rows k := by
    intro k' hk' hs hne
    have hk'mem := (mem_slotRuns_real hkreal).mpr ⟨hk', hs⟩
    have hle := hkmax k' hk'mem
    rw [orderOf_filter_isReal hkreal, orderOf_filter_isReal (hs ▸ hkreal)] at hle
    refine lt_of_le_of_ne hle fun heq => hne ?_
    have hg := sameRows_moved f fun r => decide (r.run = k'.run)
    have hreal' := (RealSlot.congr hg _).mp (hs ▸ hkreal)
    have hrows := filter_moved f (fun r => decide (r.run = k'.run)) Population.isReal
    have hgmax : ∀ k'' ∈ slotRuns (f.rows.filter Population.isReal) k'.slotKey,
        orderOf cfg ((f.moved fun r => decide (r.run = k'.run)).rows.filter
          Population.isReal) k'' ≤
        orderOf cfg ((f.moved fun r => decide (r.run = k'.run)).rows.filter
          Population.isReal) k' := by
      intro k'' hk''
      have hslot'' := ((mem_slotRuns_real (hs ▸ hkreal)).mp hk'').2
      have hmax := hkmax k'' (hs ▸ hk'')
      rw [orderOf_filter_isReal hkreal, orderOf_filter_isReal (hslot'' ▸ hs ▸ hkreal),
        ← heq] at hmax
      rw [orderOf_filter_isReal hreal', orderOf_filter_isReal (hslot'' ▸ hreal'),
        ← orderOf_congr cfg f.coherent (Frame.coherent _) hg,
        ← orderOf_congr cfg f.coherent (Frame.coherent _) hg]
      exact hmax
    have hchoice := lastMax_slotRuns_moved (f.coherent.filter _)
      ((mem_slotRuns (f.coherent.filter _)).mp hk'mem).1 _ hgmax
    rw [← hrows] at hchoice
    have hin := ((h.order_free _ hg).1 _).mpr
      ((mem_designedRuns cfg).mpr ⟨k', hchoice, rfl⟩)
    have := designedRuns_unique cfg hin hd (by simp [hs])
    simpa using congrArg DesignedRun.key this
  -- a last answer of the run is its answer once its rows come last
  have hanswer : ∀ a ∈ lastAnswers f.rows k.run,
      (⟨k, (outcome cfg a).state, (outcome cfg a).speedup⟩ : DesignedRun) ∈
        designedRuns cfg f := by
    intro a ha
    obtain ⟨hamem, hamax⟩ := mem_lastAnswers.mp ha
    have hg := sameRows_moved f fun r => decide (r = a)
    have hreal' := (RealSlot.congr hg _).mp hkreal
    have hin := ((h.order_free _ hg).1 _).mpr (choice_of_last hg hkreal hmem hlast)
    have hout := outcomeOf_of_answer cfg ((f.moved fun r => decide (r = a)).coherent.filter _)
      ((congrArg _ (answersOf_filter_isReal hreal')).trans
        (lastMax_answersOf_moved hamem hamax))
    rw [designedOf, hout] at hin
    exact hin
  refine ⟨k, hslot, hmem, hlast, ?_, ?_, ?_⟩
  · intro a ha b hb
    have := designedRuns_unique cfg (hanswer a ha) (hanswer b hb) rfl
    obtain ⟨hstate, hspeedup⟩ : (outcome cfg a).state = (outcome cfg b).state ∧
        (outcome cfg a).speedup = (outcome cfg b).speedup := by simpa using this
    cases ha' : outcome cfg a
    cases hb' : outcome cfg b
    simp_all
  · intro a ha howed
    obtain ⟨hamem, hcand, hrun⟩ := mem_answersOf.mp (mem_lastAnswers.mp ha).1
    obtain ⟨rk, hrk, rfl⟩ := mem_map.mp hmem
    exact h.owed_only _ (hanswer a ha) howed rk hrk rfl ⟨a, hamem, hrun, .inl hcand⟩
  · intro hvalid
    obtain ⟨r', hr', hs', hlatest⟩ := exists_latest cfg ⟨r, hr, hslot.symm⟩
    have hsame := h.same_run _ hd (by rwa [key_designedOf]) r' hr' (by rw [key_designedOf, hs'])
    rw [key_designedOf] at hsame
    rw [hsame] at hlatest
    intro k' hk' hs hne
    exact ((mem_latest cfg).mp hlatest).2 k' hk' hs hne

/-- **Each slot has one row that is owed only without an answer, both selectors keep one run of it,
and neither looks at the order of rows, exactly when every slot is decided**: one of its runs is
strictly the last in `designed_runs`' order, its last answers give one graded outcome, and it has
the slot's newest valid answer when there is one. -/
theorem oneRun_iff (cfg : Config) (f : Frame) : OneRun cfg f ↔ SlotsDecided cfg f :=
  ⟨OneRun.decided, OneRun.of_decided⟩

end OneRun

/-! ### Two runs that overlap -/

theorem not_mem_natRepr {n : ℕ} {c : Char} (hc : c.isDigit = false) : c ∉ n.repr.toList := by
  intro hmem
  rw [Nat.toList_repr] at hmem
  rw [Nat.isDigit_of_mem_toDigits (by decide) (by decide) hmem] at hc
  cases hc

/-- The text of an integer job; a blank one reads `nan`. -/
def jobText : Option ℤ → String
  | none => "nan"
  | some (.ofNat n) => n.repr
  | some (.negSucc n) => "-" ++ (n + 1).repr

theorem jobText_some (z : ℤ) : jobText (some z) = z.repr := by
  cases z with
  | ofNat n => rfl
  | negSucc n => rfl

theorem jobText_ne_none (z : ℤ) : jobText (some z) ≠ jobText none := by
  intro h
  have hn : 'n' ∈ (jobText (some z)).toList := by
    rw [h]
    decide
  cases z with
  | ofNat n => exact not_mem_natRepr rfl hn
  | negSucc n =>
    have htail : 'n' ∈ (n + 1).repr.toList := by simpa [jobText] using hn
    exact not_mem_natRepr rfl htail

theorem jobText_injective : Function.Injective jobText := by
  intro a b h
  cases a with
  | none =>
    cases b with
    | none => rfl
    | some b => exact absurd h.symm (jobText_ne_none b)
  | some a =>
    cases b with
    | none => exact absurd h (jobText_ne_none a)
    | some b =>
      rw [jobText_some, jobText_some] at h
      rw [Int.repr_injective h]

/-- A configuration that credits grades stamped `final` under `numba`. -/
def plainConfig : Config := ⟨"final", fun _ => .numba, jobText, jobText_injective⟩

/-- A row of the only slot: a credited submission where it has a speedup, a call otherwise. -/
def overlapRow (job : ℤ) (ts : ℚ) (speedup : Option ℚ) : Row where
  run := ⟨"s", "r", some job, "s.n0.p0.w0.s1", "k"⟩
  slot := 1
  rowKind := some (if speedup.isSome then .submission else .call)
  tsMs := some ts
  attemptIndex := some 1
  speedup := speedup
  suspect := false
  timingReduction := "final"
  denominator := "numba"
  gradeFinalStatus := ""
  reason := ""

/-- A run from 0 that answers at 10, and its rerun from 5 that answers at 7. -/
def overlapFrame : Frame where
  rows := [overlapRow 1 0 none, overlapRow 1 10 (some 2), overlapRow 2 5 none,
    overlapRow 2 7 (some 3)]
  coherent := by
    unfold Coherent
    decide

theorem not_oneRun_overlap : ¬∀ (cfg : Config) (f : Frame), OneRun cfg f := by
  intro h
  have hsame := (h plainConfig overlapFrame).same_run
    ⟨(overlapRow 2 5 none).slotRun, .solved, some 3⟩ (by decide)
    ⟨overlapRow 1 10 (some 2), by decide, by decide, by decide⟩
    (overlapRow 1 0 none) (by decide) (by decide)
  revert hsame
  decide

end Population

end Stats

end HpcAgentBench
