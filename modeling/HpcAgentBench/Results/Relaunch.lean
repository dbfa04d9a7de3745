import Mathlib

/-!
# Relaunched tasks

An observations frame holds the judge rows of every task.  Where a task was relaunched, the start
of its final attempt splits its timestamped judge rows into two groups, and
`drop_pre_relaunch_rows` reduces the task to the better one.

## Main results

* `dropPreRelaunchRows_idem` : a second reduction removes nothing.
* `dropMask_eq` : the mask the loop over the tasks leaves.
* `reduced_iff` : **exactly when one attempt group stays and nothing of the other.**
-/

namespace HpcAgentBench

open List

namespace Studies

/-! ### Frames -/

/-- What an observation row is. -/
inductive RowKind where
  | call
  | submission
  | attempt
  | episode
  | scaling
  deriving DecidableEq, Repr

/-- The columns the rule reads. -/
inductive Column where
  | runRoot
  | job
  | episodeId
  | rowKind
  | tsMs
  | speedup
  | timingSuspect
  | episodeFinalAttemptStartMs
  deriving DecidableEq, Repr

/-- A row with its index label; `none` is a missing cell, or for a number one that is none. -/
structure Row (K : Type*) where
  label : ℕ
  runRoot : Option String
  job : Option String
  episodeId : Option String
  rowKind : Option RowKind
  tsMs : Option K
  speedup : Option K
  timingSuspect : Option K
  episodeFinalAttemptStartMs : Option K
  deriving DecidableEq, Repr

/-- A frame: its columns and its rows, no index label twice. -/
structure Frame (K : Type*) where
  columns : List Column
  rows : List (Row K)
  labels_nodup : (rows.map (·.label)).Nodup

variable {K : Type*}

namespace Frame

/-- `frame.loc[mask]`. -/
def loc (f : Frame K) (mask : Row K → Bool) : Frame K where
  columns := f.columns
  rows := f.rows.filter mask
  labels_nodup := f.labels_nodup.sublist (filter_sublist.map _)

@[simp] theorem columns_loc (f : Frame K) (mask : Row K → Bool) :
    (f.loc mask).columns = f.columns := rfl

@[simp] theorem rows_loc (f : Frame K) (mask : Row K → Bool) :
    (f.loc mask).rows = f.rows.filter mask := rfl

variable {f : Frame K}

theorem ext {g : Frame K} (hcolumns : f.columns = g.columns) (hrows : f.rows = g.rows) :
    f = g := by
  obtain ⟨_, _, _⟩ := f
  obtain ⟨_, _, _⟩ := g
  subst hcolumns hrows
  rfl

/-- A mask that holds of every row keeps the frame. -/
theorem loc_eq_self {mask : Row K → Bool} (h : ∀ r ∈ f.rows, mask r = true) :
    f.loc mask = f :=
  ext rfl (filter_eq_self.mpr h)

end Frame

/-! ### The code -/

/-- `JOB_EPISODE_KEY`. -/
def jobEpisodeKey : List Column := [.runRoot, .job, .episodeId]

/-- `GRADED_RECORDS`. -/
def gradedRecords : List RowKind := [.submission, .attempt]

/-- One label of `episode_labels`. -/
def episodeLabel (r : Row K) : String :=
  "\x1f".intercalate [r.runRoot.getD "", r.job.getD "", r.episodeId.getD ""]

/-- `episode_rows`. -/
def episodeRows (f : Frame K) (column : Column) : Option (List (Row K)) :=
  if f.rows = [] ∨ .rowKind ∉ f.columns ∨ column ∉ f.columns then none
  else if ¬ jobEpisodeKey ⊆ f.columns then none
  else
    let tasks := f.rows.filter (·.rowKind = some .episode)
    if tasks = [] then none else some tasks

variable [LinearOrder K] [Zero K]
variable {tasks : List (Row K)} {r : Row K} {f : Frame K}

/-- `suspect` of `group_answer`. -/
def suspect (columns : List Column) (r : Row K) : K :=
  if .timingSuspect ∈ columns then r.timingSuspect.getD 0 else 0

/-- The mask of `answers` in `group_answer`: a positive speedup that is not flagged. -/
def believable (columns : List Column) (r : Row K) : Bool :=
  r.rowKind = some .submission ∧ 0 < r.speedup.getD 0 ∧ suspect columns r = 0

/-- `group_answer`, over rows with a timestamp. -/
def groupAnswer (columns : List Column) (rows : List (Row K)) : K :=
  if rows = [] ∨ .speedup ∉ columns then 0
  else
    match (rows.filter (believable columns)).argmax fun r => (r.tsMs : WithBot K) with
    | none => 0
    | some last => last.speedup.getD 0

/-- `cut` at one label: the latest start of the final attempt in the task's rows. -/
def cut (tasks : List (Row K)) (task : String) : Option K :=
  ((tasks.filter (episodeLabel · = task)).map (·.episodeFinalAttemptStartMs.getD 0)).max?

/-- `early`: a timestamped judge row of a relaunched task from before its final attempt. -/
def early (tasks : List (Row K)) (r : Row K) : Bool :=
  match cut tasks (episodeLabel r), r.tsMs with
  | some owner, some stamp => r.rowKind ≠ some .episode ∧ 0 < owner ∧ stamp < owner
  | _, _ => false

/-- `late`: a timestamped judge row of a relaunched task from its final attempt. -/
def late (tasks : List (Row K)) (r : Row K) : Bool :=
  match cut tasks (episodeLabel r), r.tsMs with
  | some owner, some stamp => r.rowKind ≠ some .episode ∧ 0 < owner ∧ owner ≤ stamp
  | _, _ => false

/-- The row is one of `GRADED_RECORDS`. -/
def graded (r : Row K) : Bool := r.rowKind.any (· ∈ gradedRecords)

/-- The answer of the task's rows in one of the two groups. -/
def answerOf (f : Frame K) (group : Row K → Bool) (task : String) : K :=
  groupAnswer f.columns (f.rows.filter fun r => group r && decide (episodeLabel r = task))

/-- The task's earlier attempt answers strictly better. -/
def earlierWins (f : Frame K) (tasks : List (Row K)) (task : String) : Prop :=
  answerOf f (late tasks) task < answerOf f (early tasks) task

instance (f : Frame K) (tasks : List (Row K)) (task : String) :
    Decidable (earlierWins f tasks task) :=
  inferInstanceAs (Decidable (_ < _))

/-- One round of the loop over the tasks that have early rows. -/
def dropTask (f : Frame K) (tasks : List (Row K)) (drop : Row K → Bool) (task : String) :
    Row K → Bool :=
  if earlierWins f tasks task then
    fun r => if episodeLabel r = task then late tasks r && graded r else drop r
  else drop

/-- The mask `drop` after the loop. -/
def dropMask (f : Frame K) (tasks : List (Row K)) : Row K → Bool :=
  (((f.rows.filter (early tasks)).map episodeLabel).eraseDups).foldl (dropTask f tasks)
    (early tasks)

/-- `drop_pre_relaunch_rows`. -/
def dropPreRelaunchRows (f : Frame K) : Frame K :=
  match episodeRows f .episodeFinalAttemptStartMs with
  | none => f
  | some tasks =>
    if .tsMs ∉ f.columns then f else f.loc fun r => !dropMask f tasks r

/-! ### Group answers -/

theorem groupAnswer_nil (columns : List Column) : groupAnswer columns ([] : List (Row K)) = 0 := by
  simp [groupAnswer]

theorem groupAnswer_nonneg (columns : List Column) (rows : List (Row K)) :
    0 ≤ groupAnswer columns rows := by
  rw [groupAnswer]
  split
  · exact le_rfl
  · split
    · exact le_rfl
    · rename_i last hlast
      have hbelievable := (mem_filter.mp (argmax_mem hlast)).2
      rw [believable, decide_eq_true_iff] at hbelievable
      exact hbelievable.2.1.le

/-- Rows without a submission answer nothing. -/
theorem groupAnswer_eq_zero {columns : List Column} {rows : List (Row K)}
    (h : ∀ r ∈ rows, r.rowKind ≠ some .submission) : groupAnswer columns rows = 0 := by
  have hnone : rows.filter (believable columns) = [] := by
    rw [filter_eq_nil_iff]
    intro r hr
    simp [believable, h r hr]
  rw [groupAnswer, hnone]
  split <;> rfl

/-! ### The mask -/

theorem early_eq_true (h : early tasks r = true) :
    r.rowKind ≠ some .episode ∧ late tasks r = false := by
  unfold early at h
  unfold late
  split at h
  · rename_i owner stamp howner hstamp
    simp only [ne_eq, decide_not, decide_eq_true_eq, Bool.decide_and, Bool.and_eq_true,
      Bool.not_eq_true', decide_eq_false_iff_not] at h
    exact ⟨h.1, by simp [not_le.mpr h.2.2]⟩
  · cases h

theorem late_eq_true (h : late tasks r = true) :
    r.rowKind ≠ some .episode ∧ early tasks r = false := by
  refine ⟨?_, ?_⟩
  · unfold late at h
    split at h
    · simp only [ne_eq, decide_not, Bool.decide_and, Bool.and_eq_true, Bool.not_eq_true',
        decide_eq_false_iff_not] at h
      exact h.1
    · cases h
  · cases hearly : early tasks r with
    | false => rfl
    | true => rw [(early_eq_true hearly).2] at h; cases h

/-- An earlier attempt that wins has rows. -/
theorem exists_early {task : String} (h : earlierWins f tasks task) :
    ∃ r ∈ f.rows, early tasks r = true ∧ episodeLabel r = task := by
  by_contra hnone
  push Not at hnone
  have hempty : f.rows.filter (fun r => early tasks r && decide (episodeLabel r = task)) = [] := by
    rw [filter_eq_nil_iff]
    intro r hr hgroup
    rw [Bool.and_eq_true, decide_eq_true_iff] at hgroup
    exact hnone r hr hgroup.1 hgroup.2
  rw [earlierWins, answerOf, answerOf, hempty, groupAnswer_nil] at h
  exact absurd h (not_lt.mpr (groupAnswer_nonneg _ _))

/-- Rounds of the loop rewrite the mask of the tasks they see, and of no other. -/
theorem foldl_dropTask (f : Frame K) (tasks : List (Row K)) (seen : List String)
    (drop : Row K → Bool) (r : Row K) :
    seen.foldl (dropTask f tasks) drop r =
      if episodeLabel r ∈ seen ∧ earlierWins f tasks (episodeLabel r) then late tasks r && graded r
      else drop r := by
  induction seen generalizing drop with
  | nil => simp
  | cons task seen ih =>
    rw [foldl_cons, ih, dropTask]
    by_cases hseen : episodeLabel r ∈ seen ∧ earlierWins f tasks (episodeLabel r)
    · rw [if_pos hseen, if_pos ⟨mem_cons_of_mem _ hseen.1, hseen.2⟩]
    · rw [if_neg hseen]
      by_cases htask : episodeLabel r = task
      · subst htask
        by_cases hwins : earlierWins f tasks (episodeLabel r)
        · rw [if_pos hwins, if_pos rfl, if_pos ⟨mem_cons_self, hwins⟩]
        · rw [if_neg hwins, if_neg fun h => hwins h.2]
      · have hnew : ¬(episodeLabel r ∈ task :: seen ∧ earlierWins f tasks (episodeLabel r)) :=
          fun h => hseen ⟨(mem_cons.mp h.1).resolve_left htask, h.2⟩
        rw [if_neg hnew]
        split
        · exact if_neg htask
        · rfl

/-- **The mask the loop leaves**: the graded rows of the final attempt where the earlier one wins,
and the earlier rows elsewhere. -/
theorem dropMask_eq (tasks : List (Row K)) (r : Row K) :
    dropMask f tasks r =
      if earlierWins f tasks (episodeLabel r) then late tasks r && graded r else early tasks r := by
  rw [dropMask, foldl_dropTask]
  by_cases hwins : earlierWins f tasks (episodeLabel r)
  · obtain ⟨e, he, hearly, hlabel⟩ := exists_early hwins
    have hseen : episodeLabel r ∈ ((f.rows.filter (early tasks)).map episodeLabel).eraseDups := by
      rw [mem_eraseDups, ← hlabel]
      exact mem_map_of_mem (mem_filter.mpr ⟨he, hearly⟩)
    rw [if_pos ⟨hseen, hwins⟩, if_pos hwins]
  · rw [if_neg fun h => hwins h.2, if_neg hwins]

/-- Task rows are never dropped. -/
theorem dropMask_episode (h : r.rowKind = some .episode) : dropMask f tasks r = false := by
  have hearly : early tasks r = false := by
    cases hr : early tasks r with
    | false => rfl
    | true => exact absurd h (early_eq_true hr).1
  have hlate : late tasks r = false := by
    cases hr : late tasks r with
    | false => rfl
    | true => exact absurd h (late_eq_true hr).1
  rw [dropMask_eq, hearly, hlate]
  simp

/-! ### What a reduction is for -/

/-- The task rows the rule reads, when the frame carries it. -/
def ruleRows (f : Frame K) : Option (List (Row K)) :=
  if .tsMs ∈ f.columns then episodeRows f .episodeFinalAttemptStartMs else none

/-- The two attempt groups of a relaunched task. -/
inductive Group where
  | earlier
  | final
  deriving DecidableEq, Repr

/-- The attempt group of a row; `none` of every row that is no timestamped judge row of a
relaunched task. -/
def group (f : Frame K) (r : Row K) : Option Group :=
  match ruleRows f with
  | none => none
  | some tasks =>
    if early tasks r then some .earlier else if late tasks r then some .final else none

/-- The group that stands: the earlier one only if its answer is strictly better. -/
def winner (f : Frame K) (task : String) : Group :=
  match ruleRows f with
  | none => .final
  | some tasks => if earlierWins f tasks task then .earlier else .final

/-- `g` is `f` with each relaunched task reduced to the group that stands, and reducing `g` again
removes nothing. -/
structure Reduced (f g : Frame K) : Prop where
  columns_eq : g.columns = f.columns
  in_order : g.rows.Sublist f.rows
  mem_iff : ∀ r ∈ f.rows, r ∈ g.rows ↔ ∀ a, group f r = some a → a = winner f (episodeLabel r)
  stable : dropPreRelaunchRows g = g

theorem dropPreRelaunchRows_of_none (h : ruleRows f = none) :
    dropPreRelaunchRows f = f := by
  rw [dropPreRelaunchRows]
  split
  · rfl
  · rename_i tasks htasks
    rw [ruleRows, htasks] at h
    split_ifs at h with hts
    rw [if_pos hts]

theorem dropPreRelaunchRows_of_some (h : ruleRows f = some tasks) :
    dropPreRelaunchRows f = f.loc fun r => !dropMask f tasks r := by
  rw [ruleRows] at h
  split_ifs at h with hts
  rw [dropPreRelaunchRows, h]
  exact if_neg (not_not.mpr hts)

omit [LinearOrder K] [Zero K] in
/-- A mask that keeps the task rows keeps the rule's task rows. -/
theorem ruleRows_loc {mask : Row K → Bool} (h : ruleRows f = some tasks)
    (hmask : ∀ r ∈ f.rows, r.rowKind = some .episode → mask r = true) :
    ruleRows (f.loc mask) = some tasks := by
  have hkept : (f.rows.filter mask).filter (·.rowKind = some .episode) =
      f.rows.filter (·.rowKind = some .episode) := by
    rw [filter_filter]
    refine filter_congr fun r hr => ?_
    by_cases hepisode : r.rowKind = some .episode
    · simp [hepisode, hmask r hr hepisode]
    · simp [hepisode]
  rw [ruleRows, episodeRows] at h ⊢
  split_ifs at h with hts hcolumns hkey
  dsimp only at h
  split_ifs at h with hempty
  obtain rfl := Option.some.inj h
  have hrows : f.rows.filter mask ≠ [] := by
    intro hnil
    rw [hnil] at hkept
    exact hempty hkept.symm
  push Not at hcolumns
  have hcolumns' : ¬((f.loc mask).rows = [] ∨ .rowKind ∉ (f.loc mask).columns ∨
      .episodeFinalAttemptStartMs ∉ (f.loc mask).columns) := by
    simpa [hrows] using hcolumns.2
  rw [if_pos (by simpa using hts), if_neg hcolumns', if_neg (by simpa using hkey)]
  dsimp only [Frame.rows_loc]
  rw [hkept, if_neg hempty]

section Kept

variable {f : Frame K} {tasks : List (Row K)}
variable {task : String}

/-- The earlier group of a winner is left as it was. -/
theorem answerOf_early_kept (hwins : earlierWins f tasks task) :
    answerOf (f.loc fun r => !dropMask f tasks r) (early tasks) task =
      answerOf f (early tasks) task := by
  rw [answerOf, answerOf, Frame.rows_loc, filter_filter]
  congr 1
  refine filter_congr fun r _ => ?_
  cases hgroup : early tasks r && decide (episodeLabel r = task) with
  | false => simp
  | true =>
    rw [Bool.and_eq_true, decide_eq_true_iff] at hgroup
    rw [dropMask_eq, hgroup.2, if_pos hwins, (early_eq_true hgroup.1).2]
    simp

/-- The final group of a task whose earlier attempt won has no submission left. -/
theorem answerOf_late_kept (hwins : earlierWins f tasks task) :
    answerOf (f.loc fun r => !dropMask f tasks r) (late tasks) task = 0 := by
  rw [answerOf]
  refine groupAnswer_eq_zero fun r hr hsubmission => ?_
  obtain ⟨hkept, hgroup⟩ := mem_filter.mp hr
  rw [Bool.and_eq_true, decide_eq_true_iff] at hgroup
  have hmask := (mem_filter.mp hkept).2
  rw [dropMask_eq, hgroup.2, if_pos hwins, hgroup.1] at hmask
  simp [graded, gradedRecords, hsubmission] at hmask

/-- The earlier group of a task whose final attempt won is gone. -/
theorem answerOf_early_dropped (hwins : ¬earlierWins f tasks task) :
    answerOf (f.loc fun r => !dropMask f tasks r) (early tasks) task = 0 := by
  have hempty : (f.loc fun r => !dropMask f tasks r).rows.filter
      (fun r => early tasks r && decide (episodeLabel r = task)) = [] := by
    rw [filter_eq_nil_iff]
    intro r hr hgroup
    rw [Bool.and_eq_true, decide_eq_true_iff] at hgroup
    have hmask := (mem_filter.mp hr).2
    rw [dropMask_eq, hgroup.2, if_neg hwins, hgroup.1] at hmask
    cases hmask
  rw [answerOf, hempty, groupAnswer_nil]

/-- The same group wins in the reduced frame. -/
theorem earlierWins_kept (task : String) :
    earlierWins (f.loc fun r => !dropMask f tasks r) tasks task ↔ earlierWins f tasks task := by
  by_cases hwins : earlierWins f tasks task
  · refine iff_of_true ?_ hwins
    rw [earlierWins, answerOf_early_kept hwins, answerOf_late_kept hwins]
    exact (groupAnswer_nonneg _ _).trans_lt hwins
  · refine iff_of_false (fun h => ?_) hwins
    rw [earlierWins, answerOf_early_dropped hwins] at h
    exact absurd h (not_lt.mpr (groupAnswer_nonneg _ _))

end Kept

/-- **A second reduction removes nothing.** -/
theorem dropPreRelaunchRows_idem (f : Frame K) :
    dropPreRelaunchRows (dropPreRelaunchRows f) = dropPreRelaunchRows f := by
  cases htasks : ruleRows f with
  | none => rw [dropPreRelaunchRows_of_none htasks, dropPreRelaunchRows_of_none htasks]
  | some tasks =>
    have htasks' : ruleRows (f.loc fun r => !dropMask f tasks r) = some tasks :=
      ruleRows_loc htasks fun r _ hepisode => by rw [dropMask_episode hepisode]; rfl
    rw [dropPreRelaunchRows_of_some htasks, dropPreRelaunchRows_of_some htasks']
    refine Frame.loc_eq_self fun r hr => ?_
    -- the mask of the second pass is that of the first, and the row has passed it
    have hmask := (mem_filter.mp hr).2
    rw [dropMask_eq] at hmask
    rw [dropMask_eq, if_congr (earlierWins_kept (episodeLabel r)) rfl rfl]
    exact hmask

/-! ### When one group stays and nothing of the other -/

/-- Every row of a final attempt that loses is a graded record. -/
def LosersGraded (f : Frame K) : Prop :=
  ∀ r ∈ f.rows, group f r = some .final → winner f (episodeLabel r) = .earlier → graded r = true

/-- **One attempt group of every relaunched task stays and nothing of the other, exactly when
every row of a final attempt that loses is a submission or a rejected attempt.**  A call of such an
attempt is kept beside the rows of the attempt that won. -/
theorem reduced_iff (f : Frame K) : Reduced f (dropPreRelaunchRows f) ↔ LosersGraded f := by
  cases htasks : ruleRows f with
  | none =>
    have hgroup : ∀ r, group f r = none := fun r => by rw [group, htasks]
    rw [dropPreRelaunchRows_of_none htasks]
    refine iff_of_true ⟨rfl, List.Sublist.refl _, ?_, dropPreRelaunchRows_of_none htasks⟩ ?_
    · intro r hr
      simp [hr, hgroup r]
    · intro r _ hfinal
      rw [hgroup r] at hfinal
      cases hfinal
  | some tasks =>
    have hgroup : ∀ r, group f r =
        if early tasks r then some .earlier else if late tasks r then some .final else none :=
      fun r => by rw [group, htasks]
    have hwinner : ∀ task, winner f task = if earlierWins f tasks task then .earlier else .final :=
      fun task => by rw [winner, htasks]
    have hmem : ∀ r ∈ f.rows, r ∈ (dropPreRelaunchRows f).rows ↔ dropMask f tasks r = false := by
      intro r hr
      rw [dropPreRelaunchRows_of_some htasks, Frame.rows_loc, mem_filter, Bool.not_eq_true']
      exact and_iff_right hr
    constructor
    · intro hreduced r hr hfinal hearlier
      have hlost : r ∉ (dropPreRelaunchRows f).rows := by
        rw [hreduced.mem_iff r hr]
        intro hall
        have := hall _ hfinal
        rw [hearlier] at this
        cases this
      rw [hmem r hr, Bool.not_eq_false, dropMask_eq] at hlost
      rw [hwinner] at hearlier
      split_ifs at hearlier with hwins
      rw [if_pos hwins, Bool.and_eq_true] at hlost
      exact hlost.2
    · intro hgraded
      refine ⟨?_, ?_, fun r hr => ?_, dropPreRelaunchRows_idem f⟩
      · rw [dropPreRelaunchRows_of_some htasks, Frame.columns_loc]
      · rw [dropPreRelaunchRows_of_some htasks, Frame.rows_loc]
        exact filter_sublist
      · have hloser := hgraded r hr
        rw [hgroup, hwinner] at hloser
        rw [hmem r hr, hgroup, hwinner, dropMask_eq]
        cases hearly : early tasks r with
        | true =>
          by_cases hwins : earlierWins f tasks (episodeLabel r)
          · simp [hwins, (early_eq_true hearly).2]
          · simp [hwins]
        | false =>
          cases hlate : late tasks r with
          | true =>
            by_cases hwins : earlierWins f tasks (episodeLabel r)
            · have := hloser (by simp [hearly, hlate]) (if_pos hwins)
              simp [hwins, this]
            · simp [hwins]
          | false => simp

/-- A task relaunched at 1000: an answer of 8 at 700, and a call of the final attempt at 1200. -/
def relaunchedFrame : Frame ℤ where
  columns := [.runRoot, .job, .episodeId, .rowKind, .tsMs, .speedup, .timingSuspect,
    .episodeFinalAttemptStartMs]
  rows := [
    ⟨0, some "r", some "636537", some "w38", some .episode, some 100, none, some 0, some 1000⟩,
    ⟨1, some "r", some "636537", some "w38", some .submission, some 700, some 8, some 0, none⟩,
    ⟨2, some "r", some "636537", some "w38", some .call, some 1200, none, none, none⟩]
  labels_nodup := by decide

theorem not_reduced_call :
    ¬∀ (K : Type) [LinearOrder K] [Zero K] (f : Frame K), Reduced f (dropPreRelaunchRows f) := by
  intro h
  have hcall := (h ℤ relaunchedFrame).mem_iff
    ⟨2, some "r", some "636537", some "w38", some .call, some 1200, none, none, none⟩ (by decide)
  revert hcall
  decide

end Studies

end HpcAgentBench
