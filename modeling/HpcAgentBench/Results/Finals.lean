import Mathlib
import HpcAgentBench.Lib.Dict
import HpcAgentBench.Results.Store

/-!
# Collapsing the final rows of a submission

`collapse_finals` rewrites the `final` rows of each submission into one row per stamp, or one in
all under `REPLACE`.  The winner of a group (stamped before unstamped, then newest) gives its values
and its child rows to the row of the group's smallest id, the one stored first.

## Main results

* `finalRowGroups_perm` : **the groups partition the rows.**
* `Collapsed` : what the collapse of one group leaves, proved in `collapseGroup_spec`.
-/

namespace HpcAgentBench

open List

namespace Results

/-! ### Statements on a database -/

namespace Main

variable (main : Main)

/-- One table rewritten. -/
def onTable (table : Table) (f : List (ℤ × Row ℤ ℤ) → List (ℤ × Row ℤ ℤ)) : Main :=
  ⟨Function.update main.rows table (f (main.rows table))⟩

theorem rows_onTable (table other : Table) (f : List (ℤ × Row ℤ ℤ) → List (ℤ × Row ℤ ℤ)) :
    (main.onTable table f).rows other =
      if other = table then f (main.rows table) else main.rows other := by
  exact Function.update_apply ..

/-- A row of one of these grades. -/
def childOf (ids : List ℤ) (p : ℤ × Row ℤ ℤ) : Bool := p.2.grade.any (· ∈ ids)

/-- `DELETE FROM table WHERE grade_id IN ids`. -/
def deleteChildren (table : Table) (ids : List ℤ) : Main :=
  main.onTable table fun rows => rows.filter fun p => !childOf ids p

/-- `INSERT INTO table SELECT target, … WHERE grade_id = source`. -/
def copyChildren (table : Table) (source target : ℤ) : Main :=
  (((main.rows table).filter fun p => p.2.grade = some source).map fun p =>
    { p.2 with grade := some target }).foldl (fun main row => main.insert table row) main

variable {main}
variable {f : Main → Table → Main} {ts : List Table} {table : Table}

theorem childOf_iff {ids : List ℤ} {p : ℤ × Row ℤ ℤ} :
    childOf ids p = true ↔ ∃ id ∈ ids, p.2.grade = some id := by
  simp [childOf, Option.any_eq_true, and_comm]

theorem rows_deleteChildren (main : Main) (table other : Table) (ids : List ℤ) :
    (main.deleteChildren table ids).rows other =
      if other = table then (main.rows other).filter fun p => !childOf ids p
      else main.rows other := by
  rw [deleteChildren, rows_onTable]
  split
  next h => rw [h]
  next => rfl

theorem rows_inserts (main : Main) (table other : Table) (l : List (Row ℤ ℤ)) :
    ∃ fresh, fresh.map (·.2) = l ∧
      (l.foldl (fun main row => main.insert table row) main).rows other =
        if other = table then main.rows other ++ fresh else main.rows other := by
  induction l generalizing main with
  | nil => exact ⟨[], rfl, by simp⟩
  | cons row l ih =>
    obtain ⟨fresh, hfresh, hrows⟩ := ih (main.insert table row)
    refine ⟨(main.nextId table, row) :: fresh, by rw [map_cons, hfresh], ?_⟩
    have hinsert : (main.insert table row).rows other =
        if other = table then main.rows table ++ [(main.nextId table, row)]
        else main.rows other := Function.update_apply ..
    rw [foldl_cons, hrows, hinsert]
    split
    next h => rw [h, append_assoc, singleton_append]
    next => rfl

/-- Copied children: new rows with the children's values. -/
theorem rows_copyChildren (main : Main) (table other : Table) (source target : ℤ) :
    ∃ fresh, fresh.map (·.2) = ((main.rows table).filter fun p => p.2.grade = some source).map
        (fun p => { p.2 with grade := some target }) ∧
      (main.copyChildren table source target).rows other =
        if other = table then main.rows other ++ fresh else main.rows other :=
  rows_inserts ..

/-- A pass over tables leaves the others alone. -/
theorem rows_foldl_of_notMem (hf : ∀ m t t', t' ≠ t → (f m t).rows t' = m.rows t') (h : table ∉ ts)
    (main : Main) : (ts.foldl f main).rows table = main.rows table := by
  induction ts generalizing main with
  | nil => rfl
  | cons t ts ih =>
    rw [foldl_cons, ih (fun hmem => h (mem_cons_of_mem _ hmem)),
      hf main t table fun heq => h (heq ▸ mem_cons_self)]

/-- A pass over tables rewrites each as the pass found it. -/
theorem rows_foldl_of_mem (hf : ∀ m t t', t' ≠ t → (f m t).rows t' = m.rows t') (hts : ts.Nodup)
    (h : table ∈ ts) (main : Main) :
    ∃ m : Main, m.rows table = main.rows table ∧
      (ts.foldl f main).rows table = (f m table).rows table := by
  induction ts generalizing main with
  | nil => cases h
  | cons t ts ih =>
    obtain ⟨ht, hts⟩ := nodup_cons.1 hts
    rcases mem_cons.1 h with rfl | h
    · exact ⟨main, rfl, rows_foldl_of_notMem hf ht _⟩
    · obtain ⟨m, hm, hrows⟩ := ih hts h (f main t)
      exact ⟨m, hm.trans (hf _ _ _ fun heq => ht (heq ▸ h)), hrows⟩

end Main

namespace Finals

/-- Why a collapse stops. -/
inductive Err
  /-- `IndexError`: no final row to rank. -/
  | index
  /-- `sqlite3.IntegrityError`: a row still names the deleted grade. -/
  | foreignKey (id : ℤ)
  /-- `TypeError`: the winning row is gone. -/
  | noRow
  deriving DecidableEq, Repr

/-- The tables keyed by a grade, children first. -/
def gradeChildren : List Table :=
  [.disqualifications, .scalingPoints, .scalingGrades, .gradeCells, .gradeRequests, .gradeSources]

/-- What a regrade under another protocol does to a submission's final grade. -/
inductive ProtocolChange
  /-- Keep the old row and write a new one. -/
  | newRow
  /-- Delete the old row: the regrade rewrites it. -/
  | replace
  deriving DecidableEq, Repr

/-- One `final` row of a submission. -/
structure FinalRow where
  id : ℤ
  stamp : String
  ts : ℤ
  deriving DecidableEq, Repr

/-! ### The groups of one submission -/

/-- Stamped before unstamped, then newest, then the larger id. -/
def FinalRow.rank (row : FinalRow) : Bool ×ₗ ℤ ×ₗ ℤ :=
  toLex (row.stamp ≠ "", toLex (row.ts, row.id))

/-- The rows, the best ranked first. -/
def rankedRows (rows : List FinalRow) : List FinalRow :=
  rows.insertionSort fun a b => b.rank ≤ a.rank

/-- The groups that each collapse to one row, each in rank order. -/
def finalRowGroups (rows : List FinalRow) (onChange : ProtocolChange) :
    Except Err (List (List ℤ)) :=
  match onChange, rankedRows rows with
  | .replace, ranked => .ok [ranked.map (·.id)]
  | .newRow, [] => .error .index
  | .newRow, head :: ranked =>
    if head.stamp = "" then .ok [(head :: ranked).map (·.id)]
    else
      .ok ((Dict.group (fun row => if row.stamp = "" then head.stamp else row.stamp) (·.id)
        (head :: ranked)).items.map (·.2))

/-! ### Collapsing one group -/

/-- Every child row of one grade moved to another, which holds none: copied parents first, then
deleted children first. -/
def moveGradeChildren (main : Main) (source target : ℤ) : Main :=
  gradeChildren.foldl (fun main table => main.deleteChildren table [source])
    (gradeChildren.reverse.foldl (fun main table => main.copyChildren table source target) main)

/-- `DELETE FROM grades WHERE id = ?`, refused while another row names the grade; its requests go
with it. -/
def deleteGrade (main : Main) (id : ℤ) : Except Err Main :=
  let main := (main.onTable .grades fun rows => rows.filter (·.1 ≠ id)).deleteChildren
    .gradeRequests [id]
  if ((main.rows .grades).any fun p => p.2.ofGrade = some id) ||
      gradeChildren.any fun table => (main.rows table).any fun p => p.2.grade = some id then
    .error (.foreignKey id)
  else .ok main

/-- The smallest id of a group. -/
def keepOf (winner : ℤ) (rest : List ℤ) : ℤ := rest.foldl min winner

/-- One group: the winner's values and children under the group's smallest id. -/
def collapseGroup (st : Main × ℕ) : List ℤ → Except Err (Main × ℕ)
  | [] | [_] => .ok st
  | winner :: second :: rest =>
    let ranked := winner :: second :: rest
    let keep := keepOf winner (second :: rest)
    let stale := ranked.filter (· ≠ winner)
    let doomed := ranked.filter (· ≠ keep)
    let main := gradeChildren.foldl (fun main table => main.deleteChildren table stale) st.1
    let values := (main.rows .grades).lookup winner
    let moved := if winner = keep then main else moveGradeChildren main winner keep
    doomed.foldlM deleteGrade moved >>= fun main =>
      if winner = keep then .ok (main, st.2 + doomed.length)
      else match values with
        | none => .error .noRow
        | some row => .ok (main.replace .grades keep row, st.2 + doomed.length)

/-! ### The whole database -/

/-- The `final` rows not marked apart, each with the submission it re-timed. -/
def finals (main : Main) (apart : List String) : List (ℤ × FinalRow) :=
  (main.rows .grades).filterMap fun p => p.2.ofGrade.bind fun submission =>
    if p.2.cols "kind" = .text "final" ∧ (p.2.cols "timing_reduction").toText ∉ apart then
      some (submission, ⟨p.1, (p.2.cols "timing_reduction").toText, (p.2.cols "ts_ms").toInt⟩)
    else none

/-- The final rows of each submission. -/
def bySubmission (main : Main) (apart : List String) : Dict ℤ (List FinalRow) :=
  Dict.group (·.1) (·.2) (finals main apart)

/-- Each submission's final rows rewritten into one row per protocol; the rows removed. -/
def collapseFinals (main : Main) (apart : List String) (onChange : ProtocolChange) :
    Except Err (Main × ℕ) :=
  ((bySubmission main apart).items.map (·.2)).foldlM (fun st rows =>
    finalRowGroups rows onChange >>= fun groups => groups.foldlM collapseGroup st) (main, 0)

/-! ### The groups partition the rows -/

section Groups

variable {rows : List FinalRow} {onChange : ProtocolChange}
variable {row : FinalRow}

/-- The stamp an unstamped row joins: the newest, if a row is stamped at all. -/
def newestStamp (rows : List FinalRow) : String :=
  ((rankedRows rows).head?.map (·.stamp)).getD ""

/-- What a row collapses under: everything under `REPLACE`, else its stamp. -/
def classOf (onChange : ProtocolChange) (rows : List FinalRow) (row : FinalRow) : String :=
  match onChange with
  | .replace => ""
  | .newRow => if row.stamp = "" then newestStamp rows else row.stamp

theorem rankedRows_perm (rows : List FinalRow) : (rankedRows rows).Perm rows :=
  perm_insertionSort ..

theorem rankedRows_ne_nil (h : rows ≠ []) : rankedRows rows ≠ [] := fun hnil =>
  h (hnil ▸ rankedRows_perm rows).nil_eq.symm

theorem pairwise_rankedRows (rows : List FinalRow) :
    (rankedRows rows).Pairwise fun a b => b.rank ≤ a.rank :=
  @pairwise_insertionSort _ _ _ ⟨fun a b => le_total b.rank a.rank⟩
    ⟨fun _ _ _ h₁ h₂ => h₂.trans h₁⟩ rows

theorem rank_le_head {head : FinalRow} {rest : List FinalRow} (h : rankedRows rows = head :: rest)
    (hrow : row ∈ rows) :
    row.rank ≤ head.rank := by
  have hp := pairwise_rankedRows rows
  rw [h, pairwise_cons] at hp
  have hmem : row ∈ head :: rest := h ▸ (rankedRows_perm rows).mem_iff.2 hrow
  rcases mem_cons.1 hmem with rfl | hmem
  · exact le_rfl
  · exact hp.1 row hmem

theorem stamp_eq_of_rank_le {a b : FinalRow} (h : a.rank ≤ b.rank) (hb : b.stamp = "") :
    a.stamp = "" := by
  rw [FinalRow.rank, FinalRow.rank, Prod.Lex.toLex_le_toLex] at h
  by_contra ha
  simp only [ne_eq, ha, hb, not_false_eq_true, not_true_eq_false, decide_true, decide_false] at h
  rcases h with h | ⟨h, -⟩
  · exact absurd h (by decide)
  · cases h

/-- **The newest stamp** is that of the newest stamped row. -/
theorem newestStamp_spec (h : newestStamp rows ≠ "") :
    ∃ row ∈ rows, row.stamp = newestStamp rows ∧
      ∀ other ∈ rows, other.stamp ≠ "" → toLex (other.ts, other.id) ≤ toLex (row.ts, row.id) := by
  unfold newestStamp at h ⊢
  cases hr : rankedRows rows with
  | nil => simp [hr] at h
  | cons head rest =>
    rw [hr] at h
    have hhead : head ∈ rows := (rankedRows_perm rows).mem_iff.1 (hr ▸ mem_cons_self)
    refine ⟨head, hhead, rfl, fun other hother hstamp => ?_⟩
    have hle := rank_le_head hr hother
    have hs : head.stamp ≠ "" := h
    rw [FinalRow.rank, FinalRow.rank, Prod.Lex.toLex_le_toLex] at hle
    simpa [hstamp, hs] using hle

/-- No row is stamped where there is no newest stamp. -/
theorem stamp_eq_of_newestStamp (h : newestStamp rows = "") (hrow : row ∈ rows) :
    row.stamp = "" := by
  unfold newestStamp at h
  cases hr : rankedRows rows with
  | nil =>
    have hmem := (rankedRows_perm rows).mem_iff.2 hrow
    rw [hr] at hmem
    cases hmem
  | cons head rest =>
    rw [hr] at h
    exact stamp_eq_of_rank_le (rank_le_head hr hrow) h

/-- The groups are the ranked rows grouped by class. -/
theorem finalRowGroups_eq (h : rows ≠ []) :
    finalRowGroups rows onChange = .ok ((Dict.group (classOf onChange rows) (·.id)
      (rankedRows rows)).items.map (·.2)) := by
  have hne := rankedRows_ne_nil h
  unfold finalRowGroups
  cases onChange with
  | replace =>
    have hconst : ∀ row ∈ rankedRows rows, classOf .replace rows row = "" := fun _ _ => rfl
    rw [Dict.items_group_const _ _ hne hconst]
    rfl
  | newRow =>
    cases hr : rankedRows rows with
    | nil => exact absurd hr hne
    | cons head rest =>
      have hnew : newestStamp rows = head.stamp := by rw [newestStamp, hr]; rfl
      have hclass : classOf .newRow rows = fun row : FinalRow =>
          if row.stamp = "" then head.stamp else row.stamp := by
        funext row
        rw [classOf, hnew]
      dsimp only
      split
      next hs =>
        have hconst : ∀ row ∈ head :: rest, classOf .newRow rows row = "" := by
          intro row hrow
          rw [hclass]
          dsimp only
          rw [stamp_eq_of_newestStamp (hnew.trans hs)
            ((rankedRows_perm rows).mem_iff.1 (hr ▸ hrow)), if_pos rfl, hs]
        rw [Dict.items_group_const _ _ (cons_ne_nil _ _) hconst]
        rfl
      next => rw [hclass]

/-- The groups partition the rows: no group is empty, and together they hold each row once. -/
theorem finalRowGroups_perm (h : rows ≠ []) :
    ∃ groups, finalRowGroups rows onChange = .ok groups ∧ (∀ group ∈ groups, group ≠ []) ∧
      groups.flatten.Perm (rows.map (·.id)) := by
  refine ⟨_, finalRowGroups_eq h, fun group hgroup => ?_, ?_⟩
  · obtain ⟨p, hp, rfl⟩ := mem_map.1 hgroup
    rw [Dict.items_group] at hp
    obtain ⟨k, hk, rfl⟩ := mem_map.1 hp
    obtain ⟨row, hrow, rfl⟩ := (Dict.mem_keys_group _ _).1 hk
    simp only [ne_eq, map_eq_nil_iff, filter_eq_nil_iff, not_forall]
    exact ⟨row, hrow, by simp⟩
  · rw [← flatMap_def]
    exact (Dict.group_perm _ _ _).trans ((rankedRows_perm rows).map _)

end Groups

/-! ### One group -/

section OneGroup

variable {main out : Main} {ids : List ℤ} {table : Table}
variable {id : ℤ} {doomed : List ℤ} {β : Type*} {l : List (ℤ × β)} {k : ℤ} {group : List ℤ}
variable {winner keep : ℤ} {st : Main × ℕ} {second : ℤ} {rest : List ℤ}

theorem nodup_gradeChildren : gradeChildren.Nodup := by decide

theorem grades_notMem : Table.grades ∉ gradeChildren := by decide

/-- What deleting a group's stale children leaves. -/
theorem rows_deleteStale (main : Main) (ids : List ℤ) (table : Table) :
    (gradeChildren.foldl (fun main table => main.deleteChildren table ids) main).rows table =
      if table ∈ gradeChildren then (main.rows table).filter fun p => !Main.childOf ids p
      else main.rows table := by
  have hother : ∀ (m : Main) (t t' : Table), t' ≠ t →
      (m.deleteChildren t ids).rows t' = m.rows t' := fun m t t' h => by
    rw [Main.rows_deleteChildren, if_neg h]
  split
  next h =>
    obtain ⟨m, hm, hrows⟩ := Main.rows_foldl_of_mem hother nodup_gradeChildren h main
    rw [hrows, Main.rows_deleteChildren, if_pos rfl, hm]
  next h => exact Main.rows_foldl_of_notMem hother h main

/-- What moving a grade's children leaves: the other grades' children, and the moved ones. -/
theorem rows_moveGradeChildren (main : Main) (source target : ℤ) (hne : source ≠ target)
    (table : Table) :
    ∃ fresh, fresh.map (·.2) = ((main.rows table).filter fun p => p.2.grade = some source).map
        (fun p => { p.2 with grade := some target }) ∧
      (moveGradeChildren main source target).rows table =
        if table ∈ gradeChildren then
          ((main.rows table).filter fun p => !Main.childOf [source] p) ++ fresh
        else main.rows table := by
  have hother : ∀ (m : Main) (t t' : Table), t' ≠ t →
      (m.copyChildren t source target).rows t' = m.rows t' := fun m t t' h => by
    obtain ⟨_, _, hrows⟩ := Main.rows_copyChildren m t t' source target
    rw [hrows, if_neg h]
  rw [moveGradeChildren, rows_deleteStale]
  by_cases h : table ∈ gradeChildren
  · obtain ⟨m, hm, hrows⟩ := Main.rows_foldl_of_mem hother (nodup_reverse.2
      nodup_gradeChildren) (mem_reverse.2 h) main
    obtain ⟨fresh, hfresh, hcopy⟩ := Main.rows_copyChildren m table table source target
    rw [hm] at hfresh
    refine ⟨fresh, hfresh, ?_⟩
    -- no moved row is the source's
    have hself : (fresh.filter fun p => !Main.childOf [source] p) = fresh := by
      refine filter_eq_self.2 fun p hp => ?_
      have hp' : p.2 ∈ fresh.map (·.2) := mem_map_of_mem hp
      rw [hfresh] at hp'
      obtain ⟨q, -, hq⟩ := mem_map.1 hp'
      have hgrade : p.2.grade = some target := by rw [← hq]
      simp [Main.childOf, hgrade, Ne.symm hne]
    rw [if_pos h, if_pos h, hrows, hcopy, if_pos rfl, hm, filter_append, hself]
  · obtain ⟨fresh, hfresh, -⟩ := Main.rows_copyChildren main table table source target
    refine ⟨fresh, hfresh, ?_⟩
    rw [if_neg h, if_neg h]
    exact Main.rows_foldl_of_notMem hother (by rwa [mem_reverse]) main

/-- A grade deleted: its row and its requests. -/
theorem deleteGrade_ok (h : deleteGrade main id = .ok out) (table : Table) :
    out.rows table =
      if table = .grades then (main.rows .grades).filter (·.1 ≠ id)
      else if table = .gradeRequests then (main.rows table).filter fun p => !Main.childOf [id] p
      else main.rows table := by
  unfold deleteGrade at h
  dsimp only at h
  split at h
  · cases h
  cases h
  rw [Main.rows_deleteChildren, Main.rows_onTable]
  by_cases hg : table = .grades
  · subst hg
    simp
  · simp [hg]

theorem deleteGrades_ok (h : doomed.foldlM deleteGrade main = .ok out) (table : Table) :
    out.rows table =
      if table = .grades then (main.rows .grades).filter (·.1 ∉ doomed)
      else if table = .gradeRequests then (main.rows table).filter fun p => !Main.childOf doomed p
      else main.rows table := by
  induction doomed generalizing main with
  | nil =>
    cases h
    have hchild : ∀ p, Main.childOf [] p = false := fun p => by simp [Main.childOf]
    split
    next heq => simp [heq]
    next => simp [hchild]
  | cons id doomed ih =>
    rw [foldlM_cons] at h
    obtain ⟨m, hm, h⟩ := bind_eq_ok.1 h
    rw [ih h, deleteGrade_ok hm, deleteGrade_ok hm, if_pos rfl]
    by_cases hg : table = .grades
    · rw [if_pos hg, if_pos hg, filter_filter]
      exact filter_congr fun p _ => by simp only [mem_cons, not_or, ne_eq]; grind
    rw [if_neg hg, if_neg hg, if_neg hg]
    by_cases hr : table = .gradeRequests
    · rw [if_pos hr, if_pos hr, if_pos hr, filter_filter]
      refine filter_congr fun p _ => ?_
      cases hp : p.2.grade <;> simp only [Main.childOf, hp, Option.any_none, Option.any_some,
        mem_cons, not_mem_nil] <;> grind
    · rw [if_neg hr, if_neg hr, if_neg hr]

theorem keepOf_mem (winner : ℤ) (rest : List ℤ) : keepOf winner rest ∈ winner :: rest := by
  induction rest generalizing winner with
  | nil => exact mem_singleton_self _
  | cons id rest ih =>
    rcases mem_cons.1 (ih (min winner id)) with h | h
    · rcases min_choice winner id with hmin | hmin
      · exact mem_cons.2 (.inl (h.trans hmin))
      · exact mem_cons_of_mem _ (mem_cons.2 (.inl (h.trans hmin)))
    · exact mem_cons_of_mem _ (mem_cons_of_mem _ h)

theorem keepOf_le (winner : ℤ) (rest : List ℤ) : ∀ id ∈ winner :: rest, keepOf winner rest ≤ id := by
  induction rest generalizing winner with
  | nil => exact fun id hid => (mem_singleton.1 hid).ge
  | cons next rest ih =>
    have hmin := ih (min winner next) _ mem_cons_self
    intro id hid
    rcases mem_cons.1 hid with rfl | hid
    · exact hmin.trans (min_le_left _ _)
    rcases mem_cons.1 hid with rfl | hid
    · exact hmin.trans (min_le_right _ _)
    · exact ih _ id (mem_cons_of_mem _ hid)

/-- What collapsing one group leaves. -/
structure Collapsed (main out : Main) (group : List ℤ) (winner keep : ℤ) : Prop where
  /-- Of the group's rows only the kept one stays. -/
  ids : (out.rows .grades).map (·.1) =
    ((main.rows .grades).map (·.1)).filter fun id => id ∉ group ∨ id = keep
  /-- It holds the winner's values. -/
  values : (out.rows .grades).lookup keep = (main.rows .grades).lookup winner
  /-- The other grades are unchanged. -/
  grades : (out.rows .grades).filter (·.1 ∉ group) = (main.rows .grades).filter (·.1 ∉ group)
  /-- It holds the winner's children. -/
  children : ∀ table ∈ gradeChildren,
    ((out.rows table).filter fun p => p.2.grade = some keep).map (·.2.cols) =
      ((main.rows table).filter fun p => p.2.grade = some winner).map (·.2.cols)
  /-- The group's other rows have none left. -/
  gone : ∀ table ∈ gradeChildren, ∀ p ∈ out.rows table, Main.childOf group p = true →
    p.2.grade = some keep
  /-- The children of the other grades are unchanged. -/
  others : ∀ table ∈ gradeChildren, ((out.rows table).filter fun p => !Main.childOf group p) =
    (main.rows table).filter fun p => !Main.childOf group p
  /-- The other tables are unchanged. -/
  tables : ∀ table, table ≠ .grades → table ∉ gradeChildren → out.rows table = main.rows table

theorem lookup_filter (l : List (ℤ × β)) (P : ℤ → Bool) (k : ℤ) :
    (l.filter fun p => P p.1).lookup k = if P k = true then l.lookup k else none := by
  induction l with
  | nil => simp
  | cons p l ih =>
    obtain ⟨k', b⟩ := p
    rw [lookup_cons]
    by_cases hk : k = k'
    · subst hk
      cases hP : P k <;> simp [hP, ih]
    · rw [beq_eq_false_iff_ne.2 hk, ← ih]
      cases hP : P k' <;> simp [hP, lookup_cons, beq_eq_false_iff_ne.2 hk]

/-- A row outside the ids two tables may differ in is one row in both. -/
theorem lookup_eq_of_filter_eq {l' : List (ℤ × β)} {ids : List ℤ}
    (h : l.filter (·.1 ∉ ids) = l'.filter (·.1 ∉ ids)) (hk : k ∉ ids) :
    l.lookup k = l'.lookup k := by
  have hlookup := congrArg (List.lookup k) h
  rwa [lookup_filter _ (fun id => decide (id ∉ ids)), lookup_filter _ (fun id => decide (id ∉ ids)),
    if_pos (decide_eq_true hk), if_pos (decide_eq_true hk)] at hlookup

theorem lookup_replace {b : β} (h : k ∈ l.map (·.1)) :
    (l.map fun p => if p.1 = k then (k, b) else p).lookup k = some b := by
  induction l with
  | nil => cases h
  | cons p l ih =>
    rw [map_cons, lookup_cons]
    by_cases hk : p.1 = k
    · simp [hk]
    · rw [if_neg hk, beq_eq_false_iff_ne.2 (Ne.symm hk)]
      exact ih ((mem_cons.1 h).resolve_left (Ne.symm hk))

/-- The child rows of a group whose winner stays in place. -/
theorem children_inPlace (rows : List (ℤ × Row ℤ ℤ)) (group : List ℤ) (winner : ℤ) :
    let out := rows.filter fun p => !Main.childOf (group.filter (· ≠ winner)) p
    (out.filter fun p => p.2.grade = some winner) =
        rows.filter (fun p => p.2.grade = some winner) ∧
      (∀ p ∈ out, Main.childOf group p = true → p.2.grade = some winner) ∧
      (out.filter fun p => !Main.childOf group p) = rows.filter fun p => !Main.childOf group p := by
  refine ⟨?_, fun p hp hg => ?_, ?_⟩
  · rw [filter_filter]
    refine filter_congr fun p _ => ?_
    by_cases h : p.2.grade = some winner <;> simp [Main.childOf, h]
  · obtain ⟨id, hid, hgrade⟩ := Main.childOf_iff.1 hg
    have hnot := (mem_filter.1 hp).2
    simp only [Main.childOf, hgrade, Option.any_some, mem_filter, hid, true_and,
      decide_eq_true_eq, Bool.not_eq_true', decide_eq_false_iff_not, not_not] at hnot
    rw [hgrade, hnot]
  · rw [filter_filter]
    refine filter_congr fun p _ => ?_
    cases hp : p.2.grade with
    | none => simp [Main.childOf, hp]
    | some id => by_cases h : id ∈ group <;> simp [Main.childOf, hp, h]

/-- The child rows of a group whose winner's rows are moved. -/
theorem children_moved {rows fresh : List (ℤ × Row ℤ ℤ)} (hkeep : keep ∈ group)
    (hwinner : winner ∈ group) (hfresh : fresh.map (·.2) = ((rows.filter fun p =>
      !Main.childOf (group.filter (· ≠ winner)) p).filter fun p => p.2.grade = some winner).map
      (fun p => { p.2 with grade := some keep })) :
    let out := ((rows.filter fun p => !Main.childOf (group.filter (· ≠ winner)) p).filter fun p =>
      !Main.childOf [winner] p) ++ fresh
    (out.filter fun p => p.2.grade = some keep).map (·.2.cols) =
        (rows.filter fun p => p.2.grade = some winner).map (·.2.cols) ∧
      (∀ p ∈ out, Main.childOf group p = true → p.2.grade = some keep) ∧
      (out.filter fun p => !Main.childOf group p) = rows.filter fun p => !Main.childOf group p := by
  have hgrade : ∀ p ∈ fresh, p.2.grade = some keep := by
    intro p hp
    have hp' : p.2 ∈ fresh.map (·.2) := mem_map_of_mem hp
    rw [hfresh] at hp'
    obtain ⟨q, -, hq⟩ := mem_map.1 hp'
    rw [← hq]
  -- what stays is of no grade of the group
  have hstay : (rows.filter fun p => !Main.childOf (group.filter (· ≠ winner)) p).filter (fun p =>
      !Main.childOf [winner] p) = rows.filter fun p => !Main.childOf group p := by
    rw [filter_filter]
    refine filter_congr fun p _ => ?_
    cases hp : p.2.grade with
    | none => simp [Main.childOf, hp]
    | some id =>
      by_cases h : id = winner
      · simp [Main.childOf, hp, h, hwinner]
      · simp [Main.childOf, hp, h]
  have hnone : ∀ p ∈ rows.filter (fun p => !Main.childOf group p), Main.childOf group p = false :=
    fun p hp => by simpa using (mem_filter.1 hp).2
  refine ⟨?_, fun p hp hg => ?_, ?_⟩
  · have hold : (rows.filter fun p => !Main.childOf group p).filter
        (fun p => p.2.grade = some keep) = [] := by
      refine filter_eq_nil_iff.2 fun p hp hk => ?_
      have := hnone p hp
      simp [Main.childOf, of_decide_eq_true hk, hkeep] at this
    have hnew : fresh.filter (fun p => p.2.grade = some keep) = fresh :=
      filter_eq_self.2 fun p hp => by simp [hgrade p hp]
    have hcols : fresh.map (·.2.cols) = (fresh.map (·.2)).map (·.cols) := by
      rw [map_map]
      rfl
    rw [hstay, filter_append, hold, hnew, nil_append, hcols, hfresh, map_map,
      (children_inPlace rows group winner).1]
    rfl
  · rw [hstay] at hp
    rcases mem_append.1 hp with hp | hp
    · rw [hnone p hp] at hg
      cases hg
    · exact hgrade p hp
  · have hnew : fresh.filter (fun p => !Main.childOf group p) = [] :=
      filter_eq_nil_iff.2 fun p hp => by simp [Main.childOf, hgrade p hp, hkeep]
    rw [hstay, filter_append, hnew, append_nil]
    exact filter_eq_self.2 fun p hp => by simp [hnone p hp]

/-- The group's children settled: the stale rows' are deleted, the winner's moved. -/
def settled (main : Main) (group : List ℤ) (winner keep : ℤ) : Main :=
  let main := gradeChildren.foldl
    (fun main table => main.deleteChildren table (group.filter (· ≠ winner))) main
  if winner = keep then main else moveGradeChildren main winner keep

theorem settled_other (h : table ∉ gradeChildren) :
    (settled main group winner keep).rows table = main.rows table := by
  rw [settled]
  split
  next => rw [rows_deleteStale, if_neg h]
  next hne =>
    obtain ⟨_, -, hrows⟩ := rows_moveGradeChildren (gradeChildren.foldl (fun main table =>
      main.deleteChildren table (group.filter (· ≠ winner))) main) winner keep hne table
    rw [hrows, if_neg h, rows_deleteStale, if_neg h]

theorem settled_children (hwinner : winner ∈ group) (hkeep : keep ∈ group)
    (h : table ∈ gradeChildren) :
    (((settled main group winner keep).rows table).filter fun p => p.2.grade = some keep).map
        (·.2.cols) =
          ((main.rows table).filter fun p => p.2.grade = some winner).map (·.2.cols) ∧
      (∀ p ∈ (settled main group winner keep).rows table, Main.childOf group p = true →
        p.2.grade = some keep) ∧
      (((settled main group winner keep).rows table).filter fun p => !Main.childOf group p) =
        (main.rows table).filter fun p => !Main.childOf group p := by
  rw [settled]
  split
  next heq =>
    subst heq
    rw [rows_deleteStale, if_pos h]
    obtain ⟨hc, hgone, hothers⟩ := children_inPlace (main.rows table) group winner
    exact ⟨congrArg _ hc, hgone, hothers⟩
  next hne =>
    obtain ⟨fresh, hfresh, hrows⟩ := rows_moveGradeChildren (gradeChildren.foldl
      (fun main table => main.deleteChildren table (group.filter (· ≠ winner))) main) winner keep
      hne table
    rw [if_pos h] at hrows
    rw [hrows]
    rw [rows_deleteStale, if_pos h] at hfresh ⊢
    exact children_moved hkeep hwinner hfresh

theorem collapseGroup_eq (main : Main) (n : ℕ) (winner second : ℤ) (rest : List ℤ) :
    collapseGroup (main, n) (winner :: second :: rest) =
      let group := winner :: second :: rest
      let keep := keepOf winner (second :: rest)
      let doomed := group.filter (· ≠ keep)
      doomed.foldlM deleteGrade (settled main group winner keep) >>= fun m =>
        if winner = keep then .ok (m, n + doomed.length)
        else match (main.rows .grades).lookup winner with
          | none => .error .noRow
          | some row => .ok (m.replace .grades keep row, n + doomed.length) := by
  have hgrades := rows_deleteStale main ((winner :: second :: rest).filter (· ≠ winner)) .grades
  rw [if_neg grades_notMem] at hgrades
  rw [← hgrades]
  rfl

/-- What a group's deletions leave of its settled database. -/
theorem collapsed_of_deleted (hwinner : winner ∈ group) (hkeep : keep ∈ group)
    (hkept : (out.rows .grades).lookup keep = (main.rows .grades).lookup winner)
    (hids : (out.rows .grades).map (·.1) =
      ((main.rows .grades).filter (·.1 ∉ group.filter (· ≠ keep))).map (·.1))
    (hothers : (out.rows .grades).filter (·.1 ∉ group) = (main.rows .grades).filter (·.1 ∉ group))
    (hrows : ∀ table, table ≠ .grades → out.rows table =
      if table = .gradeRequests then ((settled main group winner keep).rows table).filter fun p =>
      !Main.childOf (group.filter (· ≠ keep)) p else (settled main group winner keep).rows table) :
    Collapsed main out group winner keep := by
  have hsame : ∀ table ∈ gradeChildren,
      out.rows table = (settled main group winner keep).rows table := by
    intro table htable
    rw [hrows table (fun h => grades_notMem (h ▸ htable))]
    split
    · -- no request of a doomed grade is left to delete
      refine filter_eq_self.2 fun p hp => ?_
      rw [Bool.not_eq_true', ← Bool.not_eq_true, Main.childOf_iff]
      rintro ⟨id, hid, hgrade⟩
      obtain ⟨hid, hne⟩ := mem_filter.1 hid
      have hk := (settled_children hwinner hkeep htable).2.1 p hp
        (Main.childOf_iff.2 ⟨id, hid, hgrade⟩)
      rw [hgrade, Option.some.injEq] at hk
      exact of_decide_eq_true hne hk
    · rfl
  refine ⟨?_, hkept, hothers, fun table h => ?_, fun table h => ?_, fun table h => ?_,
    fun table h h' => ?_⟩
  · rw [hids, filter_map]
    congr 1
    refine filter_congr fun p _ => ?_
    by_cases h : p.1 = keep <;> simp [h]
  · rw [hsame table h]
    exact (settled_children hwinner hkeep h).1
  · rw [hsame table h]
    exact (settled_children hwinner hkeep h).2.1
  · rw [hsame table h]
    exact (settled_children hwinner hkeep h).2.2
  · rw [hrows table h, settled_other h', if_neg]
    rintro rfl
    exact h' (by decide)

/-- Replacing a row keeps the ids. -/
theorem map_fst_replace (l : List (ℤ × β)) (k : ℤ) (b : β) :
    (l.map fun p => if p.1 = k then (k, b) else p).map (·.1) = l.map (·.1) := by
  rw [map_map]
  refine map_congr_left fun p _ => ?_
  dsimp only [Function.comp]
  split
  next heq => exact heq.symm
  next => rfl

/-- Replacing a row leaves the rows of other ids alone. -/
theorem filter_replace (l : List (ℤ × β)) (b : β) {ids : List ℤ} (h : k ∈ ids) :
    (l.map fun p => if p.1 = k then (k, b) else p).filter (·.1 ∉ ids) =
      l.filter (·.1 ∉ ids) := by
  induction l with
  | nil => rfl
  | cons p l ih =>
    rw [map_cons, filter_cons, filter_cons, ih]
    by_cases hp : p.1 = k
    · simp [hp, h]
    · simp [hp]

/-- **One group collapses** into its smallest id with the winner's values and children. -/
theorem collapseGroup_ok {st' : Main × ℕ}
    (hmem : keepOf winner (second :: rest) ∈ (st.1.rows .grades).map (·.1))
    (h : collapseGroup st (winner :: second :: rest) = .ok st') :
    Collapsed st.1 st'.1 (winner :: second :: rest) winner (keepOf winner (second :: rest)) := by
  obtain ⟨main, n⟩ := st
  have hkeep := keepOf_mem winner (second :: rest)
  rw [collapseGroup_eq] at h
  dsimp only at h hmem ⊢
  generalize keepOf winner (second :: rest) = keep at *
  generalize hg : winner :: second :: rest = group at *
  have hwinner : winner ∈ group := hg ▸ mem_cons_self
  obtain ⟨m, hdelete, h⟩ := bind_eq_ok.1 h
  have hdeleted := deleteGrades_ok hdelete
  have hgrades := hdeleted .grades
  rw [if_pos rfl, settled_other grades_notMem] at hgrades
  have hfilter : (m.rows .grades).filter (·.1 ∉ group) =
      (main.rows .grades).filter (·.1 ∉ group) := by
    rw [hgrades, filter_filter]
    refine filter_congr fun p _ => ?_
    by_cases hp : p.1 ∈ group <;> simp [hp]
  by_cases hwk : winner = keep
  · subst hwk
    rw [if_pos rfl] at h
    cases h
    refine collapsed_of_deleted hwinner hkeep ?_ (congrArg _ hgrades) hfilter fun table h => ?_
    · rw [hgrades]
      refine (lookup_filter (main.rows .grades)
        (fun id => id ∉ group.filter (· ≠ winner)) winner).trans ?_
      rw [if_pos (by simp)]
    · rw [hdeleted, if_neg h]
  · rw [if_neg hwk] at h
    cases hrow : (main.rows .grades).lookup winner with
    | none =>
      rw [hrow] at h
      cases h
    | some row =>
      rw [hrow] at h
      cases h
      have hreplace : ∀ table, (m.replace .grades keep row).rows table =
          if table = .grades then (m.rows .grades).map fun p =>
            if p.1 = keep then (keep, row) else p
          else m.rows table := fun table => Function.update_apply ..
      refine collapsed_of_deleted hwinner hkeep ?_ ?_ ?_ fun table h => ?_
      · rw [hreplace, if_pos rfl, lookup_replace, hrow]
        obtain ⟨p, hp, hpk⟩ := mem_map.1 hmem
        rw [hgrades]
        exact mem_map.2 ⟨p, mem_filter.2 ⟨hp, by simp [hpk]⟩, hpk⟩
      · rw [hreplace, if_pos rfl, map_fst_replace, hgrades]
      · rw [hreplace, if_pos rfl, filter_replace _ row hkeep, hfilter]
      · rw [hreplace, if_neg h, hdeleted, if_neg h]

/-- A grade no other row names is deleted. -/
theorem deleteGrade_success (hgrades : ∀ p ∈ main.rows .grades, p.2.ofGrade ≠ some id)
    (hchildren : ∀ table ∈ gradeChildren, ∀ p ∈ main.rows table, p.2.grade ≠ some id) :
    ∃ out, deleteGrade main id = .ok out := by
  have hsub : ∀ table, ∀ p ∈ ((main.onTable .grades fun rows =>
      rows.filter (·.1 ≠ id)).deleteChildren .gradeRequests [id]).rows table,
      p ∈ main.rows table := by
    intro table p hp
    rw [Main.rows_deleteChildren, Main.rows_onTable] at hp
    split_ifs at hp with h₁ h₂ h₂
    · subst h₂
      cases h₁
    · exact (mem_filter.1 hp).1
    · subst h₂
      exact (mem_filter.1 hp).1
    · exact hp
  refine ⟨_, if_neg ?_⟩
  simp only [Bool.or_eq_true, any_eq_true, decide_eq_true_eq, not_or, not_exists, not_and]
  exact ⟨fun p hp => hgrades p (hsub _ p hp),
    fun table htable p hp => hchildren table htable p (hsub table p hp)⟩

theorem deleteGrades_success {doomed : List ℤ}
    (hgrades : ∀ id ∈ doomed, ∀ p ∈ main.rows .grades, p.2.ofGrade ≠ some id)
    (hchildren : ∀ id ∈ doomed, ∀ table ∈ gradeChildren, ∀ p ∈ main.rows table,
      p.2.grade ≠ some id) :
    ∃ out, doomed.foldlM deleteGrade main = .ok out := by
  induction doomed generalizing main with
  | nil => exact ⟨main, rfl⟩
  | cons id doomed ih =>
    obtain ⟨m, hm⟩ := deleteGrade_success (hgrades id mem_cons_self)
      (hchildren id mem_cons_self)
    have hsub : ∀ table, ∀ p ∈ m.rows table, p ∈ main.rows table := by
      intro table p hp
      rw [deleteGrade_ok hm] at hp
      split_ifs at hp with h₁ h₂
      · exact h₁ ▸ (mem_filter.1 hp).1
      · exact (mem_filter.1 hp).1
      · exact hp
    obtain ⟨out, hout⟩ := ih
      (fun id' hid' p hp => hgrades id' (mem_cons_of_mem _ hid') p (hsub _ p hp))
      (fun id' hid' table htable p hp =>
        hchildren id' (mem_cons_of_mem _ hid') table htable p (hsub table p hp))
    exact ⟨out, by rw [foldlM_cons, hm]; exact hout⟩

/-- A group no grade re-times collapses. -/
theorem collapseGroup_success (hmem : winner ∈ (st.1.rows .grades).map (·.1))
    (hgrades : ∀ id ∈ winner :: second :: rest, ∀ p ∈ st.1.rows .grades, p.2.ofGrade ≠ some id) :
    ∃ st', collapseGroup st (winner :: second :: rest) = .ok st' := by
  obtain ⟨main, n⟩ := st
  have hkeep := keepOf_mem winner (second :: rest)
  rw [collapseGroup_eq]
  dsimp only at hmem hgrades ⊢
  generalize keepOf winner (second :: rest) = keep at *
  generalize hg : winner :: second :: rest = group at *
  have hwinner : winner ∈ group := hg ▸ mem_cons_self
  obtain ⟨m, hdelete⟩ : ∃ m, (group.filter (· ≠ keep)).foldlM deleteGrade
      (settled main group winner keep) = .ok m := by
    refine deleteGrades_success (fun id hid p hp => ?_) fun id hid table htable p hp hgrade => ?_
    · rw [settled_other grades_notMem] at hp
      exact hgrades id (mem_filter.1 hid).1 p hp
    · obtain ⟨hid, hne⟩ := mem_filter.1 hid
      have hk := (settled_children hwinner hkeep htable).2.1 p hp
        (Main.childOf_iff.2 ⟨id, hid, hgrade⟩)
      rw [hgrade, Option.some.injEq] at hk
      exact of_decide_eq_true hne hk
  rw [hdelete]
  by_cases hwk : winner = keep
  · exact ⟨_, if_pos hwk⟩
  · obtain ⟨row, hrow⟩ : ∃ row, (main.rows .grades).lookup winner = some row := by
      rw [← Option.ne_none_iff_exists', ne_eq, lookup_eq_none_iff]
      obtain ⟨p, hp, rfl⟩ := mem_map.1 hmem
      exact fun hnone => by simpa using hnone p hp
    refine ⟨(m.replace .grades keep row, n + (group.filter (· ≠ keep)).length), (if_neg hwk).trans ?_⟩
    rw [hrow]

end OneGroup

end Finals

end Results

end HpcAgentBench
