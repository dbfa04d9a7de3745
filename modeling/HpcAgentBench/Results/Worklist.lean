import Mathlib
import HpcAgentBench.Lib.Dict
import HpcAgentBench.Results.Store

/-!
# The worklist of submissions to grade again

`build_worklist` reads the credited and the stale submissions of every results database, unites
them by grade id, and makes an item of each that can be graded again.  An item is marked final when
its time is the newest of its (setup, kernel, slot); the newest time is taken over every row with a
stored source or library, adhoc rows included, which are dropped afterwards.

## Main results

* `mem_items` : the items are the gradable rows of the databases, each with its mark.
* `isFinal_iff` : which rows carry the mark.
* `worklist_final_iff` : **exactly when every submission is listed once and every slot has one
  final item.**
-/

namespace HpcAgentBench

open List

namespace Results

namespace Worklist

/-! ### The two queries -/

/-- A row of the submission queries. -/
structure Submitted where
  gradeId : ℤ
  episodeId : String
  job : ℤ
  setup : String
  slot : ℤ
  kernel : String
  tsMs : ℤ
  sourceMode : String
  speedup : Option ℚ
  timingReduction : String
  workspaceBytes : String
  requests : String
  requestedBuild : String
  taskHash : String
  agentRoot : String
  agentLibs : String
  promoted : Bool
  library : String
  libraryHash : String
  language : String
  hash : Option String
  study : String
  deriving DecidableEq

def submitKinds : List String := ["submit", "promoted", "harvested", "probe"]

def promotionKind : String := "regrade"

def adhocEpisodeId : String := "adhoc"

/-- `reason` prefixes of a grade owed a rerun. -/
def rerunPrefixes : List String := ["infra: ", "budget: ", "task: "]

/-- `text LIKE 'prefix%'`, which ignores the case of ASCII letters. -/
def likePrefix (text start : String) : Bool :=
  (start.toList.map Char.toLower).isPrefixOf (text.toList.map Char.toLower)

/-- A grade an operator voided for a rerun. -/
def voided (g : Row ℤ ℤ) : Bool := rerunPrefixes.any (likePrefix (g.cols "reason").toText)

def disqualified (main : Main) (id : ℤ) : Bool :=
  (main.rows .disqualifications).any fun d => d.2.grade = some id

/-- The promotions of a grade: its credited regrades without a scaling sweep. -/
def promotions (main : Main) (id : ℤ) : List (ℤ × Row ℤ ℤ) :=
  (main.rows .grades).filter fun p =>
    p.2.ofGrade = some id ∧ p.2.cols "kind" = .text promotionKind ∧
      0 < (p.2.cols "credited_speedup").toReal ∧
      ((main.rows .scalingGrades).any fun s => s.2.grade = some p.1) = false

/-- A grade joined with its episode, its setup and its host source: the columns of an uncredited
submission. -/
def joined (main : Main) (g : ℤ × Row ℤ ℤ) : Option Submitted :=
  (g.2.episode.bind fun e => (main.rows .episodes).lookup e).bind fun r =>
    ((main.rows .setups).find? fun a => a.2.cols "setup" = r.cols "setup").map fun a =>
      let source := ((main.rows .gradeSources).find? fun s =>
        s.2.grade = some g.1 ∧ s.2.cols "part" = .text "host").map (·.2)
      { gradeId := g.1
        episodeId := (r.cols "label").toText
        job := (r.cols "job").toInt
        setup := (r.cols "setup").toText
        slot := (r.cols "slot").toInt
        kernel := (g.2.cols "kernel").toText
        tsMs := (g.2.cols "ts_ms").toInt
        sourceMode := (g.2.cols "source_mode").toText
        speedup := some (g.2.cols "credited_speedup").toReal
        timingReduction := (g.2.cols "timing_reduction").toText
        workspaceBytes := (g.2.cols "workspace_bytes").toText
        requests := (g.2.cols "requests").toText
        requestedBuild := (g.2.cols "requested_build").toText
        taskHash := (g.2.cols "task_hash").toText
        agentRoot := (g.2.cols "agent_root").toText
        agentLibs := (g.2.cols "agent_libs").toText
        promoted := false
        library := (g.2.cols "library").toText
        libraryHash := (g.2.cols "library_hash").toText
        language := ((source.getD a.2).cols "language").toText
        hash := source.map fun s => (s.cols "hash").toText
        study := (a.2.cols "study").toText }

/-- What `build_worklist` reads. -/
structure Inputs where
  /-- The results database at a path. -/
  read : String → Main
  /-- The moment a kernel's grading last changed. -/
  cuts : String → Option ℤ
  /-- A setup's grading environment, or why it is missing. -/
  setupEnv : String → Except String (List (String × String))
  /-- Which promotion of a grade SQLite keeps when it groups the join by grade. -/
  kept : List (ℤ × Row ℤ ℤ) → Option (ℤ × Row ℤ ℤ)

variable (inp : Inputs)

/-- The order of `CREDITED_SUBMISSIONS`. -/
def creditedKey (r : Submitted) : ℤ ×ₗ String ×ₗ String ×ₗ ℤ :=
  toLex (r.job, toLex (r.episodeId, toLex (r.kernel, r.tsMs)))

/-- Every correct submission: a correct, ungated submit grade, or a credited promotion. -/
def creditedRows (db : String) : List Submitted :=
  let main := inp.read db
  ((main.rows .grades).filterMap fun g =>
    let promotions := promotions main g.1
    if disqualified main g.1 = false ∧ voided g.2 = false ∧
        ((g.2.cols "kind").toText ∈ submitKinds ∧ g.2.cols "correct" = .int 1 ∧
          g.2.cols "reason" = .text "" ∨ promotions ≠ []) then
      (joined main g).map fun row =>
        { row with
          speedup :=
            if (g.2.cols "credited_speedup").toReal ≠ 0 then row.speedup
            else (inp.kept promotions).map fun p => (p.2.cols "credited_speedup").toReal
          timingReduction :=
            ((inp.kept promotions).map fun p => (p.2.cols "timing_reduction").toText).getD
              row.timingReduction
          promoted := promotions ≠ [] }
    else none).insertionSort fun a b => creditedKey a ≤ creditedKey b

/-- The submissions whose verdict came from a grading since fixed. -/
def staleRows (db : String) : List Submitted :=
  let main := inp.read db
  ((main.rows .grades).filterMap fun g =>
    if disqualified main g.1 = false ∧ voided g.2 = false ∧
        (g.2.cols "kind").toText ∈ submitKinds ∧ (g.2.cols "credited_speedup").toReal ≤ 0 then
      (joined main g).filter fun row =>
        (row.hash.isSome ∨ row.library ≠ "") ∧ ∃ cut ∈ inp.cuts row.kernel, row.tsMs < cut
    else none)

/-! ### The worklist -/

/-- One recorded grade to grade again. -/
structure Item where
  db : String
  row : Submitted
  final : Bool
  env : List (String × String)
  deriving DecidableEq

/-- A line of the second list. -/
inductive Problem
  /-- A grade no experiment episode sent. -/
  | adhoc (db : String) (row : Submitted)
  /-- A grade whose source was not kept. -/
  | noSource (db : String) (row : Submitted)
  /-- A setup whose environment cannot be rebuilt. -/
  | noEnv (missing : String)
  deriving DecidableEq

/-- The submission a line is about. -/
def Problem.submission? : Problem → Option (String × ℤ)
  | adhoc db row | noSource db row => some (db, row.gradeId)
  | noEnv _ => none

namespace Submitted

variable (row : Submitted)

/-- `row["hash"] or row["library"]`. -/
def sourced : Bool := row.hash.getD "" ≠ "" || row.library ≠ ""

/-- What a row is newest of. -/
def key : String × String × ℤ := (row.setup, row.kernel, row.slot)

/-- The order a database's rows are visited in. -/
def order : String ×ₗ String ×ₗ ℤ ×ₗ ℤ :=
  toLex (row.setup, toLex (row.kernel, toLex (row.slot, row.tsMs)))

end Submitted

/-- A grade both credited and stale is one submission. -/
def unique (db : String) : Dict ℤ Submitted :=
  (creditedRows inp db ++ staleRows inp db).foldl (fun d r => d.set r.gradeId r) .empty

/-- A database's submissions, in the order they are visited. -/
def rows (db : String) : List Submitted :=
  ((unique inp db).items.map (·.2)).insertionSort fun a b => a.order ≤ b.order

/-- The newest time of each key, over the rows with a stored source or library. -/
def last (rows : List Submitted) : String × String × ℤ → Option ℤ :=
  rows.foldl (fun last r =>
    if r.sourced then
      Function.update last r.key (some (max ((last r.key).getD 0) r.tsMs))
    else last) fun _ => none

/-- What `build_worklist` has so far. -/
structure State where
  items : List Item := []
  problems : List Problem := []
  /-- The environments already looked for. -/
  envs : List (String × Option (List (String × String))) := []

/-- A setup's grading keys, looked for once. -/
def setupEnvOrProblem (setup : String) (st : State) :
    Option (List (String × String)) × State :=
  match st.envs.lookup setup with
  | some env => (env, st)
  | none =>
    match inp.setupEnv setup with
    | .ok env => (some env, { st with envs := st.envs ++ [(setup, some env)] })
    | .error missing =>
      (none, { st with envs := st.envs ++ [(setup, none)]
                       problems := st.problems ++ [.noEnv missing] })

/-- One row of a database. -/
def visit (db : String) (last : String × String × ℤ → Option ℤ) (st : State) (row : Submitted) :
    State :=
  if row.episodeId = adhocEpisodeId then
    { st with problems := st.problems ++ [.adhoc db row] }
  else if row.sourced = false then
    { st with problems := st.problems ++ [.noSource db row] }
  else
    match setupEnvOrProblem inp row.setup st with
    | (none, st) => st
    | (some env, st) =>
      { st with items := st.items ++ [⟨db, row, last row.key = some row.tsMs, env⟩] }

/-- One database. -/
def visitDb (st : State) (db : String) : State :=
  (rows inp db).foldl (visit inp db (last (rows inp db))) st

/-- The order of the items: each slot's final submission first. -/
def Item.order (item : Item) : Bool ×ₗ String ×ₗ String ×ₗ String ×ₗ ℤ :=
  toLex (!item.final, toLex (item.row.kernel, toLex (item.db,
    toLex (item.row.episodeId, item.row.tsMs))))

/-- Every correct or stale submission to grade again, and one line per submission that cannot
be. -/
def buildWorklist (dbs : List String) : List Item × List Problem :=
  let st := dbs.foldl (visitDb inp) {}
  (st.items.insertionSort fun a b => a.order ≤ b.order, st.problems)

/-! ### A database's submissions -/

section Rows

variable {inp} {db : String}

/-- One row per grade. -/
theorem unique_key {d : Dict ℤ Submitted} (l : List Submitted)
    (h : ∀ p ∈ d.items, p.1 = p.2.gradeId) :
    ∀ p ∈ (l.foldl (fun d r => d.set r.gradeId r) d).items, p.1 = p.2.gradeId := by
  induction l generalizing d with
  | nil => exact h
  | cons r l ih =>
    refine ih fun p hp => ?_
    rw [← Prod.mk.eta (p := p), Dict.mem_items, Dict.get?_set] at hp
    split at hp
    next hid => rw [hid, ← Option.some.inj hp]
    next => exact h p (Dict.mem_items.2 hp)

variable (inp db) in
theorem rows_perm : (rows inp db).Perm ((unique inp db).items.map (·.2)) :=
  perm_insertionSort ..

variable (inp db) in
/-- A grade both credited and stale is one row. -/
theorem nodup_gradeId : ((rows inp db).map (·.gradeId)).Nodup := by
  rw [((rows_perm inp db).map _).nodup_iff, map_map]
  have hkey : ∀ p ∈ (unique inp db).items, p.1 = p.2.gradeId :=
    unique_key _ fun p hp => by cases hp
  have hmap : (unique inp db).items.map ((·.gradeId) ∘ (·.2)) = (unique inp db).items.map (·.1) :=
    map_congr_left fun p hp => (hkey p hp).symm
  rw [hmap]
  exact (unique inp db).nodup

variable (inp db) in
theorem nodup_rows : (rows inp db).Nodup := (nodup_gradeId inp db).of_map

end Rows

/-! ### The newest time of a key -/

section Last

variable {l : List Submitted}

/-- The newest time of a key: no row with a source is newer, and it is zero or such a row's. -/
theorem last_spec (l : List Submitted) (key : String × String × ℤ) :
    match last l key with
    | none => ∀ r ∈ l, r.sourced = true → r.key ≠ key
    | some newest => 0 ≤ newest ∧
        (newest = 0 ∨ ∃ r ∈ l, r.sourced = true ∧ r.key = key ∧ r.tsMs = newest) ∧
        ∀ r ∈ l, r.sourced = true → r.key = key → r.tsMs ≤ newest := by
  induction l using List.reverseRecOn with
  | nil => simp [last]
  | append_singleton l r ih =>
    have hlast : last (l ++ [r]) key =
        if r.sourced = true ∧ r.key = key then some (max ((last l key).getD 0) r.tsMs)
        else last l key := by
      rw [last, foldl_append, foldl_cons, foldl_nil, ← last]
      by_cases hs : r.sourced = true
      · by_cases hk : r.key = key
        · subst hk
          simp [hs]
        · simp [hs, hk, Function.update_of_ne (Ne.symm hk)]
      · simp [hs]
    rw [hlast]
    split_ifs with h
    · obtain ⟨hs, hk⟩ := h
      cases hl : last l key with
      | none =>
        rw [hl] at ih
        refine ⟨le_max_left _ _, ?_, fun q hq hqs hqk => ?_⟩
        · rcases max_choice (0 : ℤ) r.tsMs with h0 | h0
          · exact .inl h0
          · exact .inr ⟨r, by simp, hs, hk, h0.symm⟩
        · rcases mem_append.1 hq with hq | hq
          · exact absurd hqk (ih q hq hqs)
          · rw [mem_singleton.1 hq]
            exact le_max_right _ _
      | some newest =>
        rw [hl] at ih
        obtain ⟨h0, hof, hle⟩ := ih
        refine ⟨h0.trans (le_max_left _ _), ?_, fun q hq hqs hqk => ?_⟩
        · rcases max_choice newest r.tsMs with hmax | hmax
          · rw [Option.getD_some, hmax]
            exact hof.imp id fun ⟨q, hq, hrest⟩ => ⟨q, mem_append_left _ hq, hrest⟩
          · exact .inr ⟨r, by simp, hs, hk, hmax.symm⟩
        · rcases mem_append.1 hq with hq | hq
          · exact (hle q hq hqs hqk).trans (le_max_left _ _)
          · rw [mem_singleton.1 hq]
            exact le_max_right _ _
    · have hr : ∀ q ∈ l ++ [r], q.sourced = true → q.key = key → q ∈ l := by
        intro q hq hqs hqk
        rcases mem_append.1 hq with hq | hq
        · exact hq
        · rw [mem_singleton] at hq
          exact absurd ⟨hq ▸ hqs, hq ▸ hqk⟩ h
      cases hl : last l key with
      | none =>
        rw [hl] at ih
        exact fun q hq hqs hqk => ih q (hr q hq hqs hqk) hqs hqk
      | some newest =>
        rw [hl] at ih
        obtain ⟨h0, hof, hle⟩ := ih
        exact ⟨h0, hof.imp id fun ⟨q, hq, hrest⟩ => ⟨q, mem_append_left _ hq, hrest⟩,
          fun q hq hqs hqk => hle q (hr q hq hqs hqk) hqs hqk⟩

/-- Which rows carry the mark: no row with a source of their key is newer. -/
theorem isFinal_iff {row : Submitted} (hrow : row ∈ l) (hs : row.sourced = true) :
    last l row.key = some row.tsMs ↔
      0 ≤ row.tsMs ∧
        ∀ r ∈ l, r.sourced = true → r.key = row.key → r.tsMs ≤ row.tsMs := by
  have h := last_spec l row.key
  cases hl : last l row.key with
  | none =>
    rw [hl] at h
    exact absurd rfl (h row hrow hs)
  | some newest =>
    rw [hl] at h
    obtain ⟨h0, hof, hle⟩ := h
    rw [Option.some.injEq]
    constructor
    · rintro rfl
      exact ⟨h0, hle⟩
    · rintro ⟨hts, hnewest⟩
      refine le_antisymm ?_ (hle row hrow hs rfl)
      rcases hof with rfl | ⟨r, hr, hrs, hrk, rfl⟩
      · exact hts
      · exact hnewest r hr hrs hrk

end Last

/-! ### The loop over the databases -/

section Loop

variable {inp} {db : String} {row : Submitted}

/-- A row that becomes an item. -/
def gradable (inp : Inputs) (row : Submitted) : Bool :=
  row.episodeId ≠ adhocEpisodeId && row.sourced && (inp.setupEnv row.setup).isOk

/-- The item of a row. -/
def itemAt (inp : Inputs) (db : String) (row : Submitted) : Option Item :=
  if row.episodeId ≠ adhocEpisodeId ∧ row.sourced = true then
    (inp.setupEnv row.setup).toOption.map fun env =>
      ⟨db, row, last (rows inp db) row.key = some row.tsMs, env⟩
  else none

/-- The submission a row's problem line is about. -/
def problemAt (db : String) (row : Submitted) : Option (String × ℤ) :=
  if row.episodeId = adhocEpisodeId ∨ row.sourced = false then some (db, row.gradeId) else none

/-- Every environment looked for is remembered as it was found. -/
def Remembered (inp : Inputs) (st : State) : Prop :=
  ∀ setup env, st.envs.lookup setup = some env → env = (inp.setupEnv setup).toOption

theorem remembered_start (inp : Inputs) : Remembered inp {} := fun _ _ h => by cases h

variable {st : State}

theorem setupEnvOrProblem_spec (hst : Remembered inp st) (setup : String) :
    (setupEnvOrProblem inp setup st).1 = (inp.setupEnv setup).toOption ∧
      Remembered inp (setupEnvOrProblem inp setup st).2 ∧
      (setupEnvOrProblem inp setup st).2.items = st.items ∧
      (setupEnvOrProblem inp setup st).2.problems.filterMap Problem.submission? =
        st.problems.filterMap Problem.submission? := by
  unfold setupEnvOrProblem
  cases hl : st.envs.lookup setup with
  | some env => exact ⟨hst setup env hl, hst, rfl, rfl⟩
  | none =>
    -- the memo grows by the setup's own answer
    have hgrow : ∀ s env, (st.envs ++ [(setup, (inp.setupEnv setup).toOption)]).lookup s =
        some env → env = (inp.setupEnv s).toOption := by
      intro s env h
      rw [lookup_append] at h
      cases hs : st.envs.lookup s with
      | some env' =>
        rw [hs, Option.some_or, Option.some.injEq] at h
        exact h ▸ hst s env' hs
      | none =>
        rw [hs, Option.none_or, lookup_cons] at h
        by_cases hk : s = setup
        · subst hk
          simpa [eq_comm] using h
        · rw [beq_eq_false_iff_ne.2 hk] at h
          cases h
    cases he : inp.setupEnv setup with
    | ok env =>
      rw [he] at hgrow
      exact ⟨rfl, hgrow, rfl, rfl⟩
    | error missing =>
      rw [he] at hgrow
      exact ⟨rfl, hgrow, rfl, by simp [Problem.submission?]⟩

/-- One row adds its item, or its problem line. -/
theorem visit_spec (db : String) (hst : Remembered inp st) (row : Submitted) :
    let st' := visit inp db (last (rows inp db)) st row
    Remembered inp st' ∧ st'.items = st.items ++ (itemAt inp db row).toList ∧
      st'.problems.filterMap Problem.submission? =
        st.problems.filterMap Problem.submission? ++ (problemAt db row).toList := by
  by_cases hadhoc : row.episodeId = adhocEpisodeId
  · simp [visit, itemAt, problemAt, hadhoc, Problem.submission?]
    exact hst
  by_cases hs : row.sourced = false
  · simp [visit, itemAt, problemAt, hadhoc, hs, Problem.submission?]
    exact hst
  rw [Bool.not_eq_false] at hs
  obtain ⟨henv, hrem, hitems, hprob⟩ := setupEnvOrProblem_spec hst row.setup
  have hp : problemAt db row = none := if_neg (by simp [hadhoc, hs])
  have hi : itemAt inp db row = (inp.setupEnv row.setup).toOption.map fun env =>
      ⟨db, row, last (rows inp db) row.key = some row.tsMs, env⟩ := if_pos ⟨hadhoc, hs⟩
  rw [hp, hi, ← henv]
  simp only [visit, hadhoc, hs, if_false, Bool.true_eq_false]
  cases hres : setupEnvOrProblem inp row.setup st with
  | mk env st' =>
    rw [hres] at hrem hitems hprob
    cases env with
    | none | some env => exact ⟨hrem, by simpa using hitems, by simpa using hprob⟩

/-- What the rows of one database add. -/
theorem visitRows_spec (db : String) (hst : Remembered inp st) (l : List Submitted) :
    let st' := l.foldl (visit inp db (last (rows inp db))) st
    Remembered inp st' ∧ st'.items = st.items ++ l.filterMap (itemAt inp db) ∧
      st'.problems.filterMap Problem.submission? =
        st.problems.filterMap Problem.submission? ++ l.filterMap (problemAt db) := by
  induction l generalizing st with
  | nil => exact ⟨hst, by simp, by simp⟩
  | cons row l ih =>
    obtain ⟨hrem, hitems, hprob⟩ := visit_spec db hst row
    obtain ⟨hrem', hitems', hprob'⟩ := ih hrem
    refine ⟨hrem', ?_, ?_⟩
    · rw [foldl_cons, hitems', hitems, append_assoc]
      cases hrow : itemAt inp db row <;> simp [hrow]
    · rw [foldl_cons, hprob', hprob, append_assoc]
      cases hrow : problemAt db row <;> simp [hrow]

/-- What all databases add. -/
theorem visitDbs_spec (hst : Remembered inp st) (dbs : List String) :
    let st' := dbs.foldl (visitDb inp) st
    Remembered inp st' ∧
      st'.items = st.items ++ dbs.flatMap (fun db => (rows inp db).filterMap (itemAt inp db)) ∧
      st'.problems.filterMap Problem.submission? =
        st.problems.filterMap Problem.submission? ++
          dbs.flatMap fun db => (rows inp db).filterMap (problemAt db) := by
  induction dbs generalizing st with
  | nil => exact ⟨hst, by simp, by simp⟩
  | cons db dbs ih =>
    obtain ⟨hrem, hitems, hprob⟩ := visitRows_spec db hst (rows inp db)
    obtain ⟨hrem', hitems', hprob'⟩ := ih hrem
    refine ⟨hrem', ?_, ?_⟩
    · refine hitems'.trans ?_
      rw [hitems, append_assoc, flatMap_cons]
    · refine hprob'.trans ?_
      rw [hprob, append_assoc, flatMap_cons]

variable (inp) in
theorem items_perm (dbs : List String) :
    (buildWorklist inp dbs).1.Perm
      (dbs.flatMap fun db => (rows inp db).filterMap (itemAt inp db)) := by
  have h := visitDbs_spec (remembered_start inp) dbs
  rw [buildWorklist]
  refine (perm_insertionSort _ _).trans ?_
  rw [h.2.1]
  exact .refl _

variable (inp) in
theorem problems_eq (dbs : List String) :
    (buildWorklist inp dbs).2.filterMap Problem.submission? =
      dbs.flatMap fun db => (rows inp db).filterMap (problemAt db) :=
  (visitDbs_spec (remembered_start inp) dbs).2.2

end Loop

/-! ### Counting the list -/

section Count

variable {inp} {db : String}
variable {α : Type*} {row : Submitted}

theorem countP_flatMap_of_ne {β : Type*} [DecidableEq α] {p : β → Bool} {f : α → List β} {a : α}
    (h : ∀ x, x ≠ a → (f x).countP p = 0) (l : List α) :
    (l.flatMap f).countP p = l.count a * (f a).countP p := by
  induction l with
  | nil => simp
  | cons x l ih =>
    rw [flatMap_cons, countP_append, ih]
    by_cases hx : x = a
    · subst hx
      rw [count_cons_self, Nat.succ_mul, Nat.add_comm]
    · rw [h x hx, count_cons_of_ne hx, Nat.zero_add]

theorem countP_add_of_disjoint {α : Type*} {p q : α → Bool} {l : List α}
    (h : ∀ x ∈ l, p x = true → q x = false) :
    l.countP p + l.countP q = l.countP fun x => p x || q x := by
  induction l with
  | nil => rfl
  | cons x l ih =>
    have ih := ih fun y hy => h y (mem_cons_of_mem _ hy)
    have hx := h x mem_cons_self
    simp only [countP_cons]
    cases hp : p x <;> cases hq : q x <;> simp_all <;> omega

/-- Whether a row's item is marked final. -/
def isFinal (inp : Inputs) (db : String) (row : Submitted) : Bool :=
  last (rows inp db) row.key = some row.tsMs

/-- A row the output names: an item or a problem line of its own. -/
def mentioned (inp : Inputs) (row : Submitted) : Bool :=
  row.episodeId = adhocEpisodeId || row.sourced = false || (inp.setupEnv row.setup).isOk

theorem mentioned_of_gradable (h : gradable inp row = true) :
    mentioned inp row = true := by
  simp only [gradable, Bool.and_eq_true] at h
  simp [mentioned, h.2]

theorem itemAt_eq (inp : Inputs) (db : String) (row : Submitted) :
    (itemAt inp db row).map (fun i => (i.db, i.row, i.final)) =
      if gradable inp row then some (db, row, isFinal inp db row) else none := by
  unfold itemAt gradable isFinal
  cases inp.setupEnv row.setup with
  | ok env => by_cases h : row.episodeId ≠ adhocEpisodeId ∧ row.sourced = true <;> simp_all
      [Except.toOption, Except.isOk, Except.toBool]
  | error e => by_cases h : row.episodeId ≠ adhocEpisodeId ∧ row.sourced = true <;> simp_all
      [Except.toOption, Except.isOk, Except.toBool]

/-- **The items are the gradable rows of the databases, each with its mark.** -/
theorem mem_items {dbs : List String} {final : Bool} :
    (∃ item ∈ (buildWorklist inp dbs).1, item.db = db ∧ item.row = row ∧ item.final = final) ↔
      db ∈ dbs ∧ row ∈ rows inp db ∧ gradable inp row = true ∧ isFinal inp db row = final := by
  constructor
  · rintro ⟨item, hitem, rfl, rfl, rfl⟩
    rw [(items_perm inp dbs).mem_iff, mem_flatMap] at hitem
    obtain ⟨d, hd, hitem⟩ := hitem
    obtain ⟨r, hr, hi⟩ := mem_filterMap.1 hitem
    have h := itemAt_eq inp d r
    rw [hi] at h
    split_ifs at h with hg
    · simp only [Option.map_some, Option.some.injEq, Prod.mk.injEq] at h
      obtain ⟨rfl, rfl, hf⟩ := h
      exact ⟨hd, hr, hg, hf.symm⟩
    · cases h
  · rintro ⟨hd, hr, hg, rfl⟩
    have h := itemAt_eq inp db row
    rw [if_pos hg, Option.map_eq_some_iff] at h
    obtain ⟨item, hi, h⟩ := h
    simp only [Prod.mk.injEq] at h
    refine ⟨item, ?_, h⟩
    rw [(items_perm inp dbs).mem_iff, mem_flatMap]
    exact ⟨db, hd, mem_filterMap.2 ⟨row, hr, hi⟩⟩

/-- The items of one database with a property are its rows with it, once per listing. -/
theorem countP_items (dbs : List String) (db : String) (p : Submitted → Bool → Bool) :
    ((buildWorklist inp dbs).1.countP fun i => i.db = db && p i.row i.final) =
      dbs.count db *
        (rows inp db).countP fun row => gradable inp row && p row (isFinal inp db row) := by
  have hat : ∀ d row, ((itemAt inp d row).map fun i => decide (i.db = db) && p i.row i.final).getD
      false = (decide (d = db) && (gradable inp row && p row (isFinal inp d row))) := by
    intro d row
    have h := congrArg (Option.map fun t : String × Submitted × Bool =>
      decide (t.1 = db) && p t.2.1 t.2.2) (itemAt_eq inp d row)
    rw [Option.map_map] at h
    rw [show (fun i : Item => decide (i.db = db) && p i.row i.final) =
      (fun t : String × Submitted × Bool => decide (t.1 = db) && p t.2.1 t.2.2) ∘
        (fun i : Item => (i.db, i.row, i.final)) from rfl, h]
    cases gradable inp row <;> simp
  rw [(items_perm inp dbs).countP_eq, countP_flatMap_of_ne (a := db)]
  · rw [countP_filterMap]
    simp only [hat, decide_true, Bool.true_and]
  · intro d hd
    rw [countP_filterMap]
    simp [hat, hd]

/-- How often a submission is listed: as an item and as a problem line. -/
def listed (out : List Item × List Problem) (db : String) (id : ℤ) : ℕ :=
  (out.1.countP fun item => item.db = db && item.row.gradeId = id) +
    out.2.countP fun problem => problem.submission? = some (db, id)

theorem listed_eq (dbs : List String) (db : String) (id : ℤ) :
    listed (buildWorklist inp dbs) db id =
      dbs.count db * (rows inp db).countP fun row => mentioned inp row && row.gradeId = id := by
  -- the problem lines about the submission
  have hproblems : ((buildWorklist inp dbs).2.countP fun problem =>
      problem.submission? = some (db, id)) = dbs.count db * (rows inp db).countP fun row =>
        (row.episodeId = adhocEpisodeId || row.sourced = false) && row.gradeId = id := by
    have hcount : ∀ l : List Problem,
        (l.countP fun problem => problem.submission? = some (db, id)) =
          (l.filterMap Problem.submission?).countP fun q => q = (db, id) := by
      intro l
      rw [countP_filterMap]
      refine countP_congr fun problem _ => ?_
      cases problem.submission? <;> simp
    have hat : ∀ d row, ((problemAt d row).map fun q => decide (q = (db, id))).getD false =
        (decide (d = db) && ((row.episodeId = adhocEpisodeId || row.sourced = false) &&
          row.gradeId = id)) := by
      intro d row
      unfold problemAt
      by_cases h : row.episodeId = adhocEpisodeId <;> cases hs : row.sourced <;> simp [h]
    rw [hcount, problems_eq, countP_flatMap_of_ne (a := db)]
    · rw [countP_filterMap]
      simp only [hat, decide_true, Bool.true_and]
    · intro d hd
      rw [countP_filterMap]
      simp [hat, hd]
  rw [listed, hproblems, countP_items dbs db fun row _ => row.gradeId = id, ← Nat.mul_add,
    countP_add_of_disjoint]
  · congr 1
    refine countP_congr fun row _ => ?_
    unfold mentioned gradable
    by_cases h1 : row.episodeId = adhocEpisodeId <;> cases row.sourced <;> simp_all
  · intro row _ h
    unfold gradable at h
    by_cases h1 : row.episodeId = adhocEpisodeId <;> cases hs : row.sourced <;> simp_all

/-- No more than one row of a database is a grade's. -/
theorem countP_gradeId_le (db : String) (id : ℤ) (p : Submitted → Bool) :
    ((rows inp db).countP fun row => p row && row.gradeId = id) ≤ 1 := by
  have h := (nodup_iff_count_le_one.1 (nodup_gradeId inp db)) id
  rw [List.count, countP_map] at h
  refine le_trans (countP_mono_left fun row _ hrow => ?_) h
  simp only [Bool.and_eq_true, decide_eq_true_eq] at hrow
  simp [hrow.2]

end Count

/-! ### Finality -/

section Finality

variable {inp} {db : String} {key : String × String × ℤ}

/-- One item of a slot is marked final, and no item of the slot is newer. -/
def OneFinal (items : List Item) (db : String) (key : String × String × ℤ) : Prop :=
  (items.countP fun i => i.db = db && (i.row.key = key && i.final)) = 1 ∧
    ∀ i ∈ items, ∀ j ∈ items, i.db = db → j.db = db → i.row.key = key → j.row.key = key →
      i.final = true → j.row.tsMs ≤ i.row.tsMs

/-- Every submission is listed at most once, and every slot with an item has one final item, its
newest. -/
def Finality (out : List Item × List Problem) : Prop :=
  (∀ db id, listed out db id ≤ 1) ∧
    ∀ db key, (∃ item ∈ out.1, item.db = db ∧ item.row.key = key) → OneFinal out.1 db key

/-- A gradable row of a slot is newer than every other row of it with a source; an adhoc row may be
as new. -/
def NewestGradable (inp : Inputs) (db : String) (key : String × String × ℤ) : Prop :=
  ∃ row ∈ rows inp db, row.key = key ∧ gradable inp row = true ∧ 0 ≤ row.tsMs ∧
    ∀ other ∈ rows inp db, other.key = key → other.sourced = true → other ≠ row →
      other.tsMs < row.tsMs ∨ other.episodeId = adhocEpisodeId ∧ other.tsMs = row.tsMs

variable {row : Submitted}

theorem sourced_of_gradable (h : gradable inp row = true) :
    row.sourced = true := by
  simp only [gradable, Bool.and_eq_true] at h
  exact h.1.2

theorem gradable_of_key {other : Submitted} (h : gradable inp row = true)
    (hkey : other.key = row.key) (hs : other.sourced = true)
    (hadhoc : other.episodeId ≠ adhocEpisodeId) : gradable inp other = true := by
  have hsetup : other.setup = row.setup := congrArg (·.1) hkey
  simp only [gradable, Bool.and_eq_true, decide_eq_true_eq] at h ⊢
  exact ⟨⟨hadhoc, hs⟩, hsetup ▸ h.2⟩

theorem isFinal_iff_newest (hrow : row ∈ rows inp db) (hs : row.sourced = true) :
    isFinal inp db row = true ↔ 0 ≤ row.tsMs ∧
      ∀ r ∈ rows inp db, r.sourced = true → r.key = row.key → r.tsMs ≤ row.tsMs := by
  rw [isFinal, decide_eq_true_eq, isFinal_iff hrow hs]

/-- One row of a slot is gradable and final exactly when it has a newest gradable row. -/
theorem countP_final_iff :
    ((rows inp db).countP fun row =>
      gradable inp row && (row.key = key && isFinal inp db row)) = 1 ↔
      NewestGradable inp db key := by
  constructor
  · intro h
    obtain ⟨row, hrow, hp⟩ := countP_pos_iff.1 (by omega : 0 < (rows inp db).countP fun row =>
      gradable inp row && (row.key = key && isFinal inp db row))
    have hp' := hp
    simp only [Bool.and_eq_true, decide_eq_true_eq] at hp'
    obtain ⟨hg, rfl, hf⟩ := hp'
    obtain ⟨h0, hle⟩ := (isFinal_iff_newest hrow (sourced_of_gradable hg)).1 hf
    refine ⟨row, hrow, rfl, hg, h0, fun other hother hkey hs hne => ?_⟩
    rcases (hle other hother hs hkey).lt_or_eq with hlt | heq
    · exact .inl hlt
    by_cases hadhoc : other.episodeId = adhocEpisodeId
    · exact .inr ⟨hadhoc, heq⟩
    -- as new as the final row, the other row is final as well
    have hg' : gradable inp other = true := gradable_of_key hg hkey hs hadhoc
    have hf' : isFinal inp db other = true :=
      (isFinal_iff_newest hother hs).2 ⟨heq ▸ h0, fun r hr hrs hrk =>
        (hle r hr hrs (hrk.trans hkey)).trans heq.ge⟩
    exact absurd (eq_of_countP_eq_one h hother hrow (by simp [hg', hkey, hf']) hp) hne
  · rintro ⟨row, hrow, rfl, hg, h0, hnewest⟩
    have hle : ∀ r ∈ rows inp db, r.sourced = true → r.key = row.key → r.tsMs ≤ row.tsMs := by
      intro r hr hrs hrk
      by_cases hr' : r = row
      · rw [hr']
      · rcases hnewest r hr hrk hrs hr' with hlt | ⟨-, heq⟩
        · exact hlt.le
        · exact heq.le
    refine countP_eq_one (nodup_rows inp db) hrow fun other hother => ?_
    simp only [Bool.and_eq_true, decide_eq_true_eq]
    constructor
    · rintro ⟨hg', hkey, hf'⟩
      by_contra hne
      have hs' := sourced_of_gradable hg'
      have hts := ((isFinal_iff_newest hother hs').1 hf').2 row hrow (sourced_of_gradable hg)
        hkey.symm
      rcases hnewest other hother hkey hs' hne with hlt | ⟨hadhoc, -⟩
      · omega
      · simp [gradable, hadhoc] at hg'
    · rintro rfl
      exact ⟨hg, rfl, (isFinal_iff_newest hrow (sourced_of_gradable hg)).2 ⟨h0, hle⟩⟩

/-- No item of a slot is newer than one marked final. -/
theorem newest_of_final {dbs : List String} {i j : Item} (hi : i ∈ (buildWorklist inp dbs).1)
    (hj : j ∈ (buildWorklist inp dbs).1) (hdb : j.db = i.db) (hkey : j.row.key = i.row.key)
    (hf : i.final = true) : j.row.tsMs ≤ i.row.tsMs := by
  obtain ⟨-, hri, hgi, hfi⟩ := mem_items.1 ⟨i, hi, rfl, rfl, rfl⟩
  obtain ⟨-, hrj, hgj, -⟩ := mem_items.1 ⟨j, hj, rfl, rfl, rfl⟩
  rw [hf] at hfi
  exact ((isFinal_iff_newest hri (sourced_of_gradable hgi)).1 hfi).2 j.row (hdb ▸ hrj)
    (sourced_of_gradable hgj) hkey

variable (inp) in
/-- **Every submission is listed at most once and every slot with an item has one final item, its
newest, exactly when** no database with a submission to list is given twice, and in every slot with
a gradable row one gradable row is newer than every other row with a source. -/
theorem worklist_final_iff (dbs : List String) :
    Finality (buildWorklist inp dbs) ↔
      (∀ db, 2 ≤ dbs.count db → ∀ row ∈ rows inp db, mentioned inp row = false) ∧
        ∀ db ∈ dbs, ∀ row ∈ rows inp db, gradable inp row = true →
          NewestGradable inp db row.key := by
  constructor
  · rintro ⟨honce, hfinal⟩
    have hsingle : ∀ db, 2 ≤ dbs.count db → ∀ row ∈ rows inp db, mentioned inp row = false := by
      intro db hdb row hrow
      by_contra hm
      have hle := honce db row.gradeId
      have hpos : 0 < (rows inp db).countP fun r => mentioned inp r && r.gradeId = row.gradeId :=
        countP_pos_iff.2 ⟨row, hrow, by simp [Bool.not_eq_false _ ▸ hm]⟩
      rw [listed_eq] at hle
      have := Nat.mul_le_mul hdb hpos
      omega
    refine ⟨hsingle, fun db hdb row hrow hg => ?_⟩
    obtain ⟨item, hitem, rfl, rfl, -⟩ := mem_items.2 ⟨hdb, hrow, hg, rfl⟩
    have hone := (hfinal item.db item.row.key ⟨item, hitem, rfl, rfl⟩).1
    rw [countP_items dbs item.db fun r final => r.key = item.row.key && final] at hone
    exact countP_final_iff.1 (Nat.eq_one_of_mul_eq_one_left hone)
  · rintro ⟨hsingle, hnewest⟩
    refine ⟨fun db id => ?_, fun db key => ?_⟩
    · rw [listed_eq]
      by_cases hdb : 2 ≤ dbs.count db
      · have hzero : ((rows inp db).countP fun row => mentioned inp row && row.gradeId = id) = 0 :=
          countP_eq_zero.2 fun row hrow => by simp [hsingle db hdb row hrow]
        rw [hzero, Nat.mul_zero]
        exact Nat.zero_le 1
      · calc dbs.count db * _ ≤ 1 * 1 :=
              Nat.mul_le_mul (by omega) (countP_gradeId_le db id (mentioned inp))
          _ = 1 := rfl
    · rintro ⟨item, hitem, rfl, rfl⟩
      obtain ⟨hdb, hrow, hg, -⟩ := mem_items.1 ⟨item, hitem, rfl, rfl, rfl⟩
      have hcount : dbs.count item.db = 1 := by
        have hpos := count_pos_iff.2 hdb
        by_contra hne
        have hm := hsingle item.db (by omega) item.row hrow
        rw [mentioned_of_gradable hg] at hm
        cases hm
      refine ⟨?_, fun i hi j hj hidb hjdb hik hjk hf =>
        newest_of_final hi hj (hjdb.trans hidb.symm) (hjk.trans hik.symm) hf⟩
      rw [countP_items dbs item.db fun r final => r.key = item.row.key && final, hcount,
        Nat.one_mul]
      exact countP_final_iff.2 (hnewest item.db hdb item.row hrow hg)

/-! ### An adhoc grade newer than the agent's -/

/-- A row of a table with some columns given. -/
def rowOf (table : Table) (given : List (String × Value)) : Row ℤ ℤ :=
  { cols := fun name => (given.lookup name).getD (table.default name) }

/-- A credited submission of an episode. -/
def submitAt (episode ts : ℤ) : Row ℤ ℤ :=
  { rowOf .grades [("kernel", .text "gemm"), ("ts_ms", .int ts), ("kind", .text "submit"),
      ("correct", .int 1), ("credited_speedup", .real 2)] with episode := some episode }

/-- A grade's host source. -/
def hostSource (grade : ℤ) : Row ℤ ℤ :=
  { rowOf .gradeSources [("part", .text "host"), ("language", .text "c"),
      ("hash", .text "e3b0c442")] with grade := some grade }

/-- A setup's episode and an adhoc one the judge filed under the same setup, which graded the
kernel later. -/
def adhocMain : Main where
  rows
    | .setups => [(1, rowOf .setups [("setup", .text "llr40"), ("language", .text "c")])]
    | .episodes =>
      [(1, rowOf .episodes [("setup", .text "llr40"), ("label", .text "llr40.n0.p0.w0")]),
       (2, rowOf .episodes [("setup", .text "llr40"), ("label", .text "adhoc")])]
    | .grades => [(1, submitAt 1 10), (2, submitAt 2 20)]
    | .gradeSources => [(1, hostSource 1), (2, hostSource 2)]
    | _ => []

def adhocInputs : Inputs where
  read _ := adhocMain
  cuts _ := none
  setupEnv _ := .ok []
  kept := List.head?

/-- The adhoc grade is dropped, but no item of the slot is final. -/
theorem adhoc_leaves_none_final : ¬Finality (buildWorklist adhocInputs ["judge.db"]) := by
  rintro ⟨-, hfinal⟩
  have hitem : ∃ item ∈ (buildWorklist adhocInputs ["judge.db"]).1,
      item.db = "judge.db" ∧ item.row.key = ("llr40", "gemm", 1) := by decide
  have hnone : ((buildWorklist adhocInputs ["judge.db"]).1.countP fun i =>
      i.db = "judge.db" && (i.row.key = ("llr40", "gemm", 1) && i.final)) = 0 := by decide
  have hone := (hfinal _ _ hitem).1
  rw [hnone] at hone
  cases hone

end Finality

end Worklist

end Results

end HpcAgentBench
