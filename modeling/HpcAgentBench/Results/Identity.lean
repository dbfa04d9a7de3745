import HpcAgentBench.Lib.Keyed
import HpcAgentBench.Results.Store
import Mathlib.Data.List.Nodup

/-!
# Rows without ids

An episode is identified by its job and label, a grade by its episode, kernel, time, kind and the
grade it re-timed.  With these in place of the surrogate ids the merge of several files is a fold
of rows by natural key (`Keyed.foldRows`): the ids of the merged database are one naming of it.

## Main results

* `mergeRow_identified` : one row of a file is one step of the fold.
* `merge_identified` : merging files is folding their rows.
-/

namespace HpcAgentBench

open List

namespace Results

/-! ### Identities -/

/-- An episode's job and label. -/
abbrev EpisodeKey := Value × Value

/-- What tells a grade of an episode apart. -/
structure Level where
  episode : Option EpisodeKey
  kernel : Value
  ts : Value
  kind : Value
  deriving DecidableEq

/-- A grade: itself, then the grade it re-timed, and so on. -/
abbrev GradeKey := List Level

/-- A row without ids. -/
abbrev Known := Row EpisodeKey GradeKey

/-- A table and a natural key. -/
abbrev Key := Table × (Option EpisodeKey × Option GradeKey × Option GradeKey × List Value)

instance : DecidableEq Key := instDecidableEqProd

/-- The episode a row of `episodes` is. -/
def episodeKey (row : Known) : EpisodeKey := (row.cols "job", row.cols "label")

/-- The grade a row of `grades` is. -/
def gradeKey (row : Known) : GradeKey :=
  ⟨row.episode, row.cols "kernel", row.cols "ts_ms", row.cols "kind"⟩ :: row.ofGrade.getD []

/-- What ids stand for. -/
structure Names where
  episodes : ℤ → Option EpisodeKey := fun _ => none
  grades : ℤ → Option GradeKey := fun _ => none

namespace Names

/-- One id more. -/
def note (names : Names) (table : Table) (id : ℤ) (row : Known) : Names :=
  match table with
  | .episodes =>
    { names with episodes := Function.update names.episodes id (some (episodeKey row)) }
  | .grades => { names with grades := Function.update names.grades id (some (gradeKey row)) }
  | _ => names

end Names

/-- A row with what its references stand for. -/
def Row.identify (table : Table) (names : Names) (row : Row ℤ ℤ) : Option Known :=
  row.rename table names.episodes names.grades

/-- What the store does with a copy of a row (a row of a file of some version). -/
def rule (table : Table) : Keyed.Rule (ℕ × Known) Known where
  first copy := inserted table copy.1 copy.2
  refuses stored copy :=
    conflicts table copy.1 stored copy.2 ≠ [] &&
      (!table.newestWins || (copy.2.time = stored.time && !table.tieKeepsStored))
  next stored copy :=
    if conflicts table copy.1 stored copy.2 = [] then
      if table = .episodes then filled table copy.1 stored copy.2 else stored
    else if stored.time < copy.2.time then updated table copy.1 stored copy.2
    else stored

/-- A key's rule is its table's. -/
def ruleOf (key : Key) : Keyed.Rule (ℕ × Known) Known := rule key.1

/-- The key of a row of a table. -/
def Row.key (table : Table) (row : Known) : Key := (table, row.keyOf table)

/-- The rows of a table of a file without their ids, and the names the file's ids then have. -/
def identifyRows (table : Table) (version : ℕ) :
    Names → List (ℤ × Row ℤ ℤ) → Option (Names × List (Key × ℕ × Known))
  | names, [] => some (names, [])
  | names, p :: rows =>
    (p.2.identify table names).bind fun row =>
      (identifyRows table version (names.note table p.1 row) rows).map fun rest =>
        (rest.1, (row.key table, version, row) :: rest.2)

/-- The rows of several tables of a file. -/
def identifyTables (file : File) : Names → List Table → Option (Names × List (Key × ℕ × Known))
  | names, [] => some (names, [])
  | names, table :: tables =>
    if table ∈ file.tables then
      (identifyRows table file.version names (sourceRows file table)).bind fun head =>
        (identifyTables file head.1 tables).map fun rest => (rest.1, head.2 ++ rest.2)
    else if table.lazy then identifyTables file names tables
    else none

/-- The rows of a file; none for a file that is refused whatever the store holds. -/
def identifyFile (file : File) : Option (List (Key × ℕ × Known)) :=
  if 13 ≤ file.version ∧ file.version ≤ 20 then
    match identifyTables file {} Table.all with
    | none => none
    | some (_, rows) => if file.foreign ≠ [] then none else some rows
  else if file.version ≠ 0 ∨ file.tables ≠ [] ∨ file.foreign ≠ [] then none
  else some []

/-! ### Renaming -/

section Rename

variable {E G E' G' E'' G'' : Type} {table : Table}

/-- A row with references in its table's id columns alone. -/
def Row.Fits (table : Table) (row : Row E G) : Prop :=
  match table.references with
  | .none => row.episode = none ∧ row.ofGrade = none ∧ row.grade = none
  | .episode => row.episode.isSome = true ∧ row.grade = none
  | .grade => row.episode = none ∧ row.ofGrade = none ∧ row.grade.isSome = true

/-- Two maps in a row that agree with one: both fail, or both succeed. -/
theorem map_cases {a : Option E'} {b : Option E''} {g : E' → Option E''}
    (h : a.map g = b.map some) :
    (a = none ∧ b = none) ∨ ∃ e k, a = some e ∧ b = some k ∧ g e = some k := by
  cases a with
  | none => exact .inl ⟨rfl, by simpa using h.symm⟩
  | some e =>
    obtain ⟨k, hb, hk⟩ := Option.map_eq_some_iff.1 h.symm
    exact .inr ⟨e, k, rfl, hb, hk.symm⟩

variable (table) in
/-- Renaming twice is renaming once. -/
theorem rename_rename {fe : E → Option E'} {fg : G → Option G'} {ge : E' → Option E''}
    {gg : G' → Option G''} {he : E → Option E''} {hg : G → Option G''}
    (hepisodes : ∀ e, (fe e).map ge = (he e).map some)
    (hgrades : ∀ g, (fg g).map gg = (hg g).map some) (row : Row E G) :
    (row.rename table fe fg).map (Row.rename table ge gg) =
      (row.rename table he hg).map some := by
  unfold Row.rename
  cases table.references with
  | none => rfl
  | episode =>
    cases row.episode with
    | none => rfl
    | some e =>
      dsimp only [Option.bind_some]
      rcases map_cases (hepisodes e) with ⟨h, h'⟩ | ⟨e', k, h, h', hk⟩
      · rw [h, h']; rfl
      · rw [h, h']
        cases row.ofGrade with
        | none => simp [hk]
        | some g =>
          dsimp only [Option.bind_some]
          rcases map_cases (hgrades g) with ⟨h, h'⟩ | ⟨g', l, h, h', hl⟩
          · rw [h, h']; rfl
          · rw [h, h']; simp [hk, hl]
  | grade =>
    cases row.grade with
    | none => rfl
    | some g =>
      dsimp only [Option.bind_some]
      rcases map_cases (hgrades g) with ⟨h, h'⟩ | ⟨g', l, h, h', hl⟩
      · rw [h, h']; rfl
      · rw [h, h']; simp [hl]

/-- What a renamed row holds. -/
theorem rename_cases {fe : E → Option E'} {fg : G → Option G'} {row : Row E G} {r : Row E' G'}
    (h : row.rename table fe fg = some r) :
    (table.references = .none ∧ r = { cols := row.cols }) ∨
    (table.references = .episode ∧ ∃ e k, row.episode = some e ∧ fe e = some k ∧
      ((row.ofGrade = none ∧ r = { episode := some k, cols := row.cols }) ∨
        ∃ g l, row.ofGrade = some g ∧ fg g = some l ∧
          r = { episode := some k, ofGrade := some l, cols := row.cols })) ∨
    (table.references = .grade ∧ ∃ g l, row.grade = some g ∧ fg g = some l ∧
      r = { grade := some l, cols := row.cols }) := by
  unfold Row.rename at h
  cases href : table.references with
  | none =>
    rw [href] at h
    exact .inl ⟨rfl, (Option.some.inj h).symm⟩
  | episode =>
    rw [href] at h
    obtain ⟨k, hk, h⟩ := Option.bind_eq_some_iff.1 h
    obtain ⟨e, he, hk⟩ := Option.bind_eq_some_iff.1 hk
    refine .inr (.inl ⟨rfl, e, k, he, hk, ?_⟩)
    cases hof : row.ofGrade with
    | none =>
      rw [hof] at h
      exact .inl ⟨rfl, (Option.some.inj h).symm⟩
    | some g =>
      rw [hof] at h
      obtain ⟨l, hl, h⟩ := Option.map_eq_some_iff.1 h
      exact .inr ⟨g, l, rfl, hl, h.symm⟩
  | grade =>
    rw [href] at h
    obtain ⟨l, hl, h⟩ := Option.map_eq_some_iff.1 h
    obtain ⟨g, hg, hl⟩ := Option.bind_eq_some_iff.1 hl
    exact .inr (.inr ⟨rfl, g, l, hg, hl, h.symm⟩)

theorem cols_rename {fe : E → Option E'} {fg : G → Option G'} {row : Row E G} {r : Row E' G'}
    (h : row.rename table fe fg = some r) : r.cols = row.cols := by
  obtain ⟨-, rfl⟩ | ⟨-, _, _, -, -, ⟨-, rfl⟩ | ⟨_, _, -, -, rfl⟩⟩ | ⟨-, _, _, -, -, rfl⟩ :=
    rename_cases h <;> rfl

theorem fits_rename {fe : E → Option E'} {fg : G → Option G'} {row : Row E G} {r : Row E' G'}
    (h : row.rename table fe fg = some r) : r.Fits table := by
  unfold Row.Fits
  obtain ⟨href, rfl⟩ | ⟨href, _, _, -, -, ⟨-, rfl⟩ | ⟨_, _, -, -, rfl⟩⟩ | ⟨href, _, _, -, -, rfl⟩ :=
    rename_cases h <;> rw [href] <;> simp

/-- Other columns, the same references. -/
theorem rename_cols {fe : E → Option E'} {fg : G → Option G'} (row : Row E G)
    (cols : String → Value) :
    ({ row with cols := cols } : Row E G).rename table fe fg =
      (row.rename table fe fg).map fun r => { r with cols := cols } := by
  unfold Row.rename
  cases table.references with
  | none => rfl
  | episode =>
    dsimp only
    cases row.episode.bind fe with
    | none => rfl
    | some k =>
      cases row.ofGrade with
      | none => rfl
      | some g =>
        dsimp only [Option.bind_some]
        cases fg g <;> rfl
  | grade =>
    dsimp only
    cases row.grade.bind fg <;> rfl

/-- Rows with the same key keep the same key under an injective renaming, and only those. -/
theorem keyOf_rename {fe : E → Option E'} {fg : G → Option G'}
    (hepisodes : ∀ a b k, fe a = some k → fe b = some k → a = b)
    (hgrades : ∀ a b k, fg a = some k → fg b = some k → a = b)
    {row row' : Row E G} {r r' : Row E' G'} (hfits : row.Fits table) (hfits' : row'.Fits table)
    (h : row.rename table fe fg = some r) (h' : row'.rename table fe fg = some r') :
    row.keyOf table = row'.keyOf table ↔ r.keyOf table = r'.keyOf table := by
  unfold Row.Fits at hfits hfits'
  rcases rename_cases h with
    ⟨href, rfl⟩ | ⟨href, e, k, he, hk, hof⟩ | ⟨href, g, l, hg, hl, rfl⟩
  · rw [href] at hfits hfits'
    rcases rename_cases h' with ⟨-, rfl⟩ | ⟨href', -⟩ | ⟨href', -⟩
    · obtain ⟨h1, h2, h3⟩ := hfits
      obtain ⟨h1', h2', h3'⟩ := hfits'
      simp only [Row.keyOf, h1, h2, h3, h1', h2', h3', Prod.mk.injEq, true_and]
    · rw [href] at href'; cases href'
    · rw [href] at href'; cases href'
  · rw [href] at hfits hfits'
    rcases rename_cases h' with ⟨href', -⟩ | ⟨-, e', k', he', hk', hof'⟩ | ⟨href', -⟩
    · rw [href] at href'; cases href'
    · have hee : (e = e') ↔ (k = k') :=
        ⟨fun h => by rw [h, hk'] at hk; exact (Option.some.inj hk).symm,
          fun h => hepisodes e e' k hk (by rw [h]; exact hk')⟩
      rcases hof with ⟨hnone, rfl⟩ | ⟨g, l, hg, hl, rfl⟩ <;>
        rcases hof' with ⟨hnone', rfl⟩ | ⟨g', l', hg', hl', rfl⟩
      · simp only [Row.keyOf, he, he', hnone, hnone', hfits.2, hfits'.2, Prod.mk.injEq,
          Option.some.injEq, hee]
      · simp [Row.keyOf, hnone, hg']
      · simp [Row.keyOf, hnone', hg]
      · have hgg : (g = g') ↔ (l = l') :=
          ⟨fun h => by rw [h, hl'] at hl; exact (Option.some.inj hl).symm,
            fun h => hgrades g g' l hl (by rw [h]; exact hl')⟩
        simp only [Row.keyOf, he, he', hg, hg', hfits.2, hfits'.2, Prod.mk.injEq,
          Option.some.injEq, hee, hgg]
    · rw [href] at href'; cases href'
  · rw [href] at hfits hfits'
    rcases rename_cases h' with ⟨href', -⟩ | ⟨href', -⟩ | ⟨-, g', l', hg', hl', rfl⟩
    · rw [href] at href'; cases href'
    · rw [href] at href'; cases href'
    · have hgg : (g = g') ↔ (l = l') :=
        ⟨fun h => by rw [h, hl'] at hl; exact (Option.some.inj hl).symm,
          fun h => hgrades g g' l hl (by rw [h]; exact hl')⟩
      simp only [Row.keyOf, hg, hg', hfits.1, hfits.2.1, hfits'.1, hfits'.2.1, Prod.mk.injEq,
        Option.some.injEq, hgg]

/-- An injective renaming forgets nothing. -/
theorem rename_inj {fe : E → Option E'} {fg : G → Option G'}
    (hepisodes : ∀ a b k, fe a = some k → fe b = some k → a = b)
    (hgrades : ∀ a b k, fg a = some k → fg b = some k → a = b)
    {row row' : Row E G} {r : Row E' G'} (hfits : row.Fits table) (hfits' : row'.Fits table)
    (h : row.rename table fe fg = some r) (h' : row'.rename table fe fg = some r) : row = row' := by
  have hkey := (keyOf_rename hepisodes hgrades hfits hfits' h h').2 rfl
  have hcols := (cols_rename h).symm.trans (cols_rename h')
  simp only [Row.keyOf, Prod.mk.injEq] at hkey
  obtain ⟨h1, h2, h3, -⟩ := hkey
  cases row
  cases row'
  simp_all

end Rename

/-! ### Keys -/

section Keys

variable {E G : Type} {table : Table} {version : ℕ}

/-- Every version of a table has its key columns. -/
theorem key_subset (hversion : 13 ≤ version) : ∀ name ∈ table.key, name ∈ table.columnsAt version := by
  have h : ∀ name ∈ table.key, name ∈ table.columns.map (·.1) ∧ table.addedIn name = 13 := by
    cases table <;> decide
  intro name hname
  obtain ⟨hmem, hadded⟩ := h name hname
  refine mem_filter.2 ⟨hmem, ?_⟩
  rw [hadded]
  exact decide_eq_true hversion

theorem keyOf_inserted (hversion : 13 ≤ version) {row : Row E G} (hlegal : row.Legal table version) :
    (inserted table version row).keyOf table = row.keyOf table := by
  have hcols : table.key.map (inserted table version row).cols = table.key.map row.cols := by
    refine map_congr_left fun name hname => ?_
    have hmem := key_subset hversion name hname
    dsimp only [inserted]
    split_ifs with h
    · rfl
    · have hnull : row.cols name = .null := by_contra fun hne => h ⟨hmem, hne⟩
      rw [hlegal name hmem hnull, hnull]
  simp only [Row.keyOf, hcols]
  rfl

theorem keyOf_filled (stored row : Row E G) :
    (filled table version stored row).keyOf table = stored.keyOf table := by
  have hcols : table.key.map (filled table version stored row).cols = table.key.map stored.cols :=
    map_congr_left fun name hname => if_neg fun h => h.2.2.1 hname
  simp only [Row.keyOf, hcols]
  rfl

theorem keyOf_updated (stored row : Row E G) (h : row.keyOf table = stored.keyOf table) :
    (updated table version stored row).keyOf table = stored.keyOf table := by
  simp only [Row.keyOf, Prod.mk.injEq] at h
  obtain ⟨h1, h2, h3, hcols⟩ := h
  have hcols' : table.key.map (updated table version stored row).cols = table.key.map stored.cols := by
    refine map_congr_left fun name hname => ?_
    dsimp only [updated]
    split_ifs with hmem
    · exact map_inj_left.1 hcols name hname
    · rfl
  simp only [Row.keyOf, hcols', Prod.mk.injEq, and_true]
  exact ⟨h1, h2, h3⟩

/-- Rows of `episodes` with one key are one episode. -/
theorem episodeKey_eq {row row' : Known} (hfits : row.Fits .episodes) (hfits' : row'.Fits .episodes) :
    episodeKey row = episodeKey row' ↔ row.keyOf .episodes = row'.keyOf .episodes := by
  obtain ⟨h1, h2, h3⟩ := hfits
  obtain ⟨h1', h2', h3'⟩ := hfits'
  simp [Row.keyOf, episodeKey, h1, h2, h3, h1', h2', h3', Table.key]

/-- Rows of `grades` with one key are one grade. -/
theorem gradeKey_eq {row row' : Known} (hfits : row.Fits .grades) (hfits' : row'.Fits .grades)
    (hof : row.ofGrade ≠ some []) (hof' : row'.ofGrade ≠ some []) :
    gradeKey row = gradeKey row' ↔ row.keyOf .grades = row'.keyOf .grades := by
  obtain ⟨-, h3⟩ := hfits
  obtain ⟨-, h3'⟩ := hfits'
  have hofs : row.ofGrade.getD [] = row'.ofGrade.getD [] ↔ row.ofGrade = row'.ofGrade := by
    cases h : row.ofGrade with
    | none =>
      cases h' : row'.ofGrade with
      | none => simp
      | some l =>
        rw [h'] at hof'
        exact iff_of_false (fun he : [] = l => hof' (congrArg some he.symm)) (by simp)
    | some l =>
      cases h' : row'.ofGrade with
      | none =>
        rw [h] at hof
        exact iff_of_false (fun he => hof (congrArg some he)) (by simp)
      | some l' => simp
  simp only [gradeKey, Row.keyOf, h3, h3', Table.key, List.cons.injEq, Level.mk.injEq, hofs,
    Prod.mk.injEq, map_cons, map_nil, and_true, true_and]
  tauto

end Keys

/-! ### The merged database without its ids -/

/-- `names` says what the ids of `main` stand for, and `store` holds its rows without them. -/
structure Identified (main : Main) (names : Names) (store : Key → Option Known) : Prop where
  fits : ∀ table, ∀ p ∈ main.rows table, p.2.Fits table
  sound : ∀ table, ∀ p ∈ main.rows table, ∃ row : Known, p.2.identify table names = some row ∧
    store (row.key table) = some row ∧
    (table = .episodes → names.episodes p.1 = some (episodeKey row)) ∧
    (table = .grades → names.grades p.1 = some (gradeKey row))
  complete : ∀ key row, store key = some row → key = row.key key.1 ∧
    ∃ p ∈ main.rows key.1, p.2.identify key.1 names = some row
  ids : ∀ table, ((main.rows table).map (·.1)).Nodup
  keys : ∀ table, ∀ p ∈ main.rows table, ∀ q ∈ main.rows table,
    p.2.keyOf table = q.2.keyOf table → p = q
  episodes : ∀ i k, names.episodes i = some k → ∃ p ∈ main.rows .episodes, p.1 = i
  grades : ∀ i k, names.grades i = some k → ∃ p ∈ main.rows .grades, p.1 = i

/-- A database without rows holds none. -/
theorem identified_empty : Identified Main.empty {} (fun _ => none) where
  fits := fun _ _ h => absurd h not_mem_nil
  sound := fun _ _ h => absurd h not_mem_nil
  complete := fun _ _ h => by cases h
  ids := fun _ => nodup_nil
  keys := fun _ _ h => absurd h not_mem_nil
  episodes := fun _ _ h => by cases h
  grades := fun _ _ h => by cases h

namespace Identified

variable {main : Main} {names : Names} {store : Key → Option Known} {table : Table}

/-- An id's row. -/
theorem eq_of_id (h : Identified main names store) {p q : ℤ × Row ℤ ℤ}
    (hp : p ∈ main.rows table) (hq : q ∈ main.rows table) (hpq : p.1 = q.1) : p = q :=
  inj_on_of_nodup_map (h.ids table) hp hq hpq

/-- A named grade is at least itself. -/
theorem grade_ne_nil (h : Identified main names store) {i : ℤ} {k : GradeKey}
    (hi : names.grades i = some k) : k ≠ [] := by
  obtain ⟨p, hp, rfl⟩ := h.grades i k hi
  obtain ⟨row, -, -, -, hgrade⟩ := h.sound .grades p hp
  rw [hi] at hgrade
  rw [Option.some.inj (hgrade rfl)]
  exact cons_ne_nil _ _

theorem ofGrade_ne (h : Identified main names store) {row : Row ℤ ℤ} {r : Known}
    (hr : row.identify table names = some r) : r.ofGrade ≠ some [] := by
  obtain ⟨-, rfl⟩ | ⟨-, _, _, -, -, ⟨-, rfl⟩ | ⟨g, l, -, hl, rfl⟩⟩ | ⟨-, _, _, -, -, rfl⟩ :=
    rename_cases hr
  · simp
  · simp
  · exact fun hnil => h.grade_ne_nil hl (Option.some.inj hnil)
  · simp

/-- Two ids of one episode are one id. -/
theorem episodes_inj (h : Identified main names store) (i j : ℤ) (k : EpisodeKey)
    (hi : names.episodes i = some k) (hj : names.episodes j = some k) : i = j := by
  obtain ⟨p, hp, rfl⟩ := h.episodes i k hi
  obtain ⟨q, hq, rfl⟩ := h.episodes j k hj
  obtain ⟨r, hr, hstore, hepisode, -⟩ := h.sound .episodes p hp
  obtain ⟨r', hr', hstore', hepisode', -⟩ := h.sound .episodes q hq
  rw [hi] at hepisode
  rw [hj] at hepisode'
  have hkey : r.keyOf .episodes = r'.keyOf .episodes :=
    (episodeKey_eq (fits_rename hr) (fits_rename hr')).1
      ((Option.some.inj (hepisode rfl)).symm.trans (Option.some.inj (hepisode' rfl)))
  have hrr : r = r' := by
    rw [Row.key, hkey] at hstore
    exact Option.some.inj (hstore.symm.trans hstore')
  -- the ids of `episodes` rows stand for nothing else: the rows have one key, so they are one
  have hcols : p.2.keyOf .episodes = q.2.keyOf .episodes := by
    obtain ⟨h1, h2, h3⟩ := h.fits .episodes p hp
    obtain ⟨h1', h2', h3'⟩ := h.fits .episodes q hq
    simp only [Row.keyOf, h1, h2, h3, h1', h2', h3', Prod.mk.injEq, true_and]
    rw [← cols_rename hr, ← cols_rename hr', hrr]
  exact congrArg Prod.fst (h.keys .episodes p hp q hq hcols)

/-- Two ids of one grade are one id. -/
theorem grades_inj (h : Identified main names store) (i j : ℤ) (k : GradeKey)
    (hi : names.grades i = some k) (hj : names.grades j = some k) : i = j := by
  -- by induction on the grade: what two ids re-timed is one id before they are
  induction k generalizing i j with
  | nil => exact absurd rfl (h.grade_ne_nil hi)
  | cons level k ih =>
    obtain ⟨p, hp, rfl⟩ := h.grades i _ hi
    obtain ⟨q, hq, rfl⟩ := h.grades j _ hj
    obtain ⟨r, hr, -, -, hgrade⟩ := h.sound .grades p hp
    obtain ⟨r', hr', -, -, hgrade'⟩ := h.sound .grades q hq
    rw [hi] at hgrade
    rw [hj] at hgrade'
    have hk := Option.some.inj (hgrade rfl)
    have hk' := Option.some.inj (hgrade' rfl)
    have hkey : r.keyOf .grades = r'.keyOf .grades :=
      (gradeKey_eq (fits_rename hr) (fits_rename hr') (h.ofGrade_ne hr) (h.ofGrade_ne hr')).1
        (hk.symm.trans hk')
    have hfits := h.fits .grades p hp
    have hfits' := h.fits .grades q hq
    obtain ⟨href, -⟩ | ⟨-, e, ek, he, hek, hof⟩ | ⟨href, -⟩ := rename_cases hr
    · cases href
    obtain ⟨href, -⟩ | ⟨-, e', ek', he', hek', hof'⟩ | ⟨href, -⟩ := rename_cases hr'
    · cases href
    · have hrow : p.2.keyOf .grades = q.2.keyOf .grades := by
        rcases hof with ⟨hnone, rfl⟩ | ⟨g, l, hg, hl, rfl⟩ <;>
          rcases hof' with ⟨hnone', rfl⟩ | ⟨g', l', hg', hl', rfl⟩ <;>
          simp only [Row.keyOf, Prod.mk.injEq, Option.some.injEq, reduceCtorEq, false_and,
            and_false] at hkey
        · obtain ⟨rfl, -, -, hcols⟩ := hkey
          simp only [Row.keyOf, he, he', hnone, hnone', hfits.2, hfits'.2, hcols,
            h.episodes_inj e e' ek hek hek']
        · obtain ⟨rfl, rfl, -, hcols⟩ := hkey
          have hlk : l = k := (List.cons.inj hk).2.symm
          simp only [Row.keyOf, he, he', hg, hg', hfits.2, hfits'.2, hcols,
            h.episodes_inj e e' ek hek hek', ih g g' (by rw [hl, hlk]) (by rw [hl', hlk])]
      exact congrArg Prod.fst (h.keys .grades p hp q hq hrow)
    · cases href
    · cases href

/-- The row holding a natural key is the one the store holds under it. -/
theorem stored_cases (h : Identified main names store) {row : Row ℤ ℤ} {r : Known}
    (hfits : row.Fits table) (hr : row.identify table names = some r) :
    (main.stored table row = none ∧ store (r.key table) = none) ∨
      ∃ p s, main.stored table row = some p ∧ p ∈ main.rows table ∧
        p.2.keyOf table = row.keyOf table ∧ p.2.identify table names = some s ∧
        s.keyOf table = r.keyOf table ∧ store (r.key table) = some s := by
  cases hstored : main.stored table row with
  | none =>
    refine .inl ⟨rfl, ?_⟩
    cases hstore : store (r.key table) with
    | none => rfl
    | some s =>
      obtain ⟨hkey, p, hp, hs⟩ := h.complete _ _ hstore
      have hne := find?_eq_none.1 hstored p hp
      rw [decide_eq_true_eq] at hne
      exact absurd ((keyOf_rename h.episodes_inj h.grades_inj (h.fits table p hp) hfits hs hr).2
        (Prod.ext_iff.1 hkey).2.symm) hne
  | some p =>
    have hp := mem_of_find?_eq_some hstored
    have hkey : p.2.keyOf table = row.keyOf table := by
      simpa using find?_some hstored
    obtain ⟨s, hs, hstore, -⟩ := h.sound table p hp
    have hkeys := (keyOf_rename h.episodes_inj h.grades_inj (h.fits table p hp) hfits hs hr).1 hkey
    refine .inr ⟨p, s, rfl, hp, hkey, hs, hkeys, ?_⟩
    rw [← hstore, Row.key, Row.key, hkeys]

theorem lt_nextId {p : ℤ × Row ℤ ℤ} (hp : p ∈ main.rows table) : p.1 < main.nextId table := by
  have h : ∀ l : List ℤ, ∀ i ∈ l, i ≤ l.foldr max 0 := by
    intro l
    induction l with
    | nil => exact fun _ h => absurd h not_mem_nil
    | cons x l ih =>
      intro i hi
      rcases mem_cons.1 hi with rfl | hi
      · exact le_max_left _ _
      · exact le_trans (ih i hi) (le_max_right _ _)
  exact Int.lt_add_one_iff.2 (h _ _ (mem_map_of_mem hp))

end Identified

/-- Ids that stand for something stand for it under more names. -/
def Names.Extends (names names' : Names) : Prop :=
  (∀ i k, names.episodes i = some k → names'.episodes i = some k) ∧
    ∀ i k, names.grades i = some k → names'.grades i = some k

namespace Names

variable {names names' : Names} {table : Table}

theorem extends_refl : names.Extends names := ⟨fun _ _ h => h, fun _ _ h => h⟩

theorem Extends.trans {names'' : Names} (h : names.Extends names') (h' : names'.Extends names'') :
    names.Extends names'' :=
  ⟨fun i k hi => h'.1 i k (h.1 i k hi), fun i k hi => h'.2 i k (h.2 i k hi)⟩

theorem Extends.identify (h : names.Extends names') {row : Row ℤ ℤ} {r : Known}
    (hr : row.identify table names = some r) : row.identify table names' = some r := by
  unfold Row.identify Row.rename
  obtain ⟨href, rfl⟩ | ⟨href, e, k, he, hk, ⟨hof, rfl⟩ | ⟨g, l, hof, hl, rfl⟩⟩ |
    ⟨href, g, l, hg, hl, rfl⟩ := rename_cases hr
  · simp only [href]
  · simp only [href, he, hof, Option.bind_some, h.1 e k hk]
  · simp only [href, he, hof, Option.bind_some, h.1 e k hk, h.2 g l hl, Option.map_some]
  · simp only [href, hg, Option.bind_some, h.2 g l hl, Option.map_some]

/-- A new id changes nothing else. -/
theorem extends_note {id : ℤ} {row : Known}
    (hepisodes : table = .episodes → names.episodes id = none)
    (hgrades : table = .grades → names.grades id = none) :
    names.Extends (names.note table id row) := by
  unfold note
  split
  · refine ⟨fun i k hi => ?_, fun i k hi => hi⟩
    rw [← hi]
    refine Function.update_of_ne (fun hii => ?_) _ _
    rw [hii, hepisodes rfl] at hi
    cases hi
  · refine ⟨fun i k hi => hi, fun i k hi => ?_⟩
    rw [← hi]
    refine Function.update_of_ne (fun hii => ?_) _ _
    rw [hii, hgrades rfl] at hi
    cases hi
  · exact extends_refl

end Names

section Write

variable {names : Names} {table : Table} {version : ℕ} {row stored : Row ℤ ℤ} {r s : Known}

variable (version) in
theorem identify_inserted (hr : row.identify table names = some r) :
    (inserted table version row).identify table names = some (inserted table version r) := by
  have hcols : (inserted table version row).cols = (inserted table version r).cols := by
    simp only [inserted, cols_rename hr]
  rw [Row.identify, inserted, rename_cols, ← Row.identify, hr]
  exact congrArg some (by simp only [inserted, cols_rename hr])

variable (version) in
theorem identify_filled (hs : stored.identify table names = some s)
    (hr : row.identify table names = some r) :
    (filled table version stored row).identify table names =
      some (filled table version s r) := by
  rw [Row.identify, filled, rename_cols, ← Row.identify, hs]
  exact congrArg some (by simp only [filled, cols_rename hr, cols_rename hs])

variable (version) in
theorem identify_updated (hs : stored.identify table names = some s)
    (hr : row.identify table names = some r) :
    (updated table version stored row).identify table names =
      some (updated table version s r) := by
  rw [Row.identify, updated, rename_cols, ← Row.identify, hr]
  exact congrArg some (by simp only [updated, cols_rename hr, cols_rename hs])

variable (version) in
theorem conflicts_identify (hs : stored.identify table names = some s)
    (hr : row.identify table names = some r) :
    conflicts table version stored row = conflicts table version s r := by
  simp only [conflicts, cols_rename hr, cols_rename hs]

theorem time_identify (hr : row.identify table names = some r) : r.time = row.time := by
  simp only [Row.time, cols_rename hr]

end Write

namespace Identified

variable {main : Main} {names : Names} {store : Key → Option Known} {table : Table} {version : ℕ}

theorem mem_insert {t : Table} {row : Row ℤ ℤ} {p : ℤ × Row ℤ ℤ} :
    p ∈ (main.insert table row).rows t ↔
      p ∈ main.rows t ∨ t = table ∧ p = (main.nextId table, row) := by
  by_cases ht : t = table
  · subst ht
    simp [Main.insert]
  · simp [Main.insert, ht]

/-- A new row is a new name. -/
theorem insert (h : Identified main names store) (hversion : 13 ≤ version) {row : Row ℤ ℤ}
    {r : Known} (hfits : row.Fits table) (hr : row.identify table names = some r)
    (hlegal : row.Legal table version) (hnone : store (r.key table) = none) :
    Identified (main.insert table (inserted table version row))
        (names.note table (main.nextId table) r)
        (Function.update store (r.key table) (some (inserted table version r))) ∧
      names.Extends (names.note table (main.nextId table) r) := by
  have hlegal' : r.Legal table version := by
    unfold Row.Legal
    rw [cols_rename hr]
    exact hlegal
  have hkey := keyOf_inserted hversion hlegal'
  have hkey' : (inserted table version r).key table = r.key table := Prod.ext rfl hkey
  have hof := h.ofGrade_ne hr
  have hof' : (inserted table version r).ofGrade ≠ some [] := hof
  have hext : names.Extends (names.note table (main.nextId table) r) := by
    refine Names.extends_note (fun ht => ?_) fun ht => ?_
    · subst ht
      cases hi : names.episodes (main.nextId .episodes) with
      | none => rfl
      | some k =>
        obtain ⟨p, hp, hid⟩ := h.episodes _ _ hi
        exact absurd hid (lt_nextId hp).ne
    · subst ht
      cases hi : names.grades (main.nextId .grades) with
      | none => rfl
      | some k =>
        obtain ⟨p, hp, hid⟩ := h.grades _ _ hi
        exact absurd hid (lt_nextId hp).ne
  have hnew := hext.identify (identify_inserted version hr)
  refine ⟨⟨?_, ?_, ?_, ?_, ?_, ?_, ?_⟩, hext⟩
  · intro t p hp
    rcases mem_insert.1 hp with hp | ⟨rfl, rfl⟩
    · exact h.fits t p hp
    · exact hfits
  · intro t p hp
    rcases mem_insert.1 hp with hp | ⟨rfl, rfl⟩
    · obtain ⟨s, hs, hstore, hepisode, hgrade⟩ := h.sound t p hp
      refine ⟨s, hext.identify hs, ?_, fun ht => hext.1 _ _ (hepisode ht),
        fun ht => hext.2 _ _ (hgrade ht)⟩
      rw [Function.update_of_ne, hstore]
      intro he
      rw [he, hnone] at hstore
      cases hstore
    · refine ⟨_, hnew, ?_, ?_, ?_⟩
      · rw [hkey', Function.update_self]
      · rintro rfl
        rw [(episodeKey_eq (fits_rename hnew) (fits_rename hr)).2 hkey]
        exact Function.update_self ..
      · rintro rfl
        rw [(gradeKey_eq (fits_rename hnew) (fits_rename hr) hof' hof).2 hkey]
        exact Function.update_self ..
  · intro key s hs
    by_cases hkk : key = r.key table
    · subst hkk
      rw [Function.update_self] at hs
      obtain rfl := Option.some.inj hs
      exact ⟨hkey'.symm, _, mem_insert.2 (.inr ⟨rfl, rfl⟩), hnew⟩
    · rw [Function.update_of_ne hkk] at hs
      obtain ⟨he, p, hp, hps⟩ := h.complete key s hs
      exact ⟨he, p, mem_insert.2 (.inl hp), hext.identify hps⟩
  · intro t
    by_cases ht : t = table
    · subst ht
      simp only [Main.insert, Function.update_self, map_append, map_cons, map_nil]
      refine nodup_append.2 ⟨h.ids t, nodup_singleton _, ?_⟩
      rintro a ha b hb rfl
      obtain ⟨p, hp, rfl⟩ := mem_map.1 ha
      exact (lt_nextId hp).ne (mem_singleton.1 hb)
    · simp only [Main.insert, Function.update_of_ne ht]
      exact h.ids t
  · -- the new row's key is nobody's
    have hfresh : ∀ p ∈ main.rows table, p.2.keyOf table ≠
        (inserted table version row).keyOf table := by
      intro p hp he
      rw [keyOf_inserted hversion hlegal] at he
      rcases h.stored_cases hfits hr with ⟨hnot, -⟩ | ⟨_, s, -, -, -, -, -, hsome⟩
      · exact find?_eq_none.1 hnot p hp (decide_eq_true he)
      · rw [hnone] at hsome; cases hsome
    intro t p hp q hq hpq
    rcases mem_insert.1 hp with hp' | ⟨ht, rfl⟩ <;> rcases mem_insert.1 hq with hq' | ⟨ht', rfl⟩
    · exact h.keys t p hp' q hq' hpq
    · rw [ht'] at hp' hpq
      exact absurd hpq (hfresh p hp')
    · rw [ht] at hq' hpq
      exact absurd hpq.symm (hfresh q hq')
    · rfl
  · intro i k hi
    unfold Names.note at hi
    split at hi
    · dsimp only at hi
      by_cases hid : i = main.nextId .episodes
      · exact ⟨_, mem_insert.2 (.inr ⟨rfl, rfl⟩), hid.symm⟩
      · rw [Function.update_of_ne hid] at hi
        obtain ⟨p, hp, hpi⟩ := h.episodes i k hi
        exact ⟨p, mem_insert.2 (.inl hp), hpi⟩
    · obtain ⟨p, hp, hpi⟩ := h.episodes i k hi
      exact ⟨p, mem_insert.2 (.inl hp), hpi⟩
    · obtain ⟨p, hp, hpi⟩ := h.episodes i k hi
      exact ⟨p, mem_insert.2 (.inl hp), hpi⟩
  · intro i k hi
    unfold Names.note at hi
    split at hi
    · obtain ⟨p, hp, hpi⟩ := h.grades i k hi
      exact ⟨p, mem_insert.2 (.inl hp), hpi⟩
    · dsimp only at hi
      by_cases hid : i = main.nextId .grades
      · exact ⟨_, mem_insert.2 (.inr ⟨rfl, rfl⟩), hid.symm⟩
      · rw [Function.update_of_ne hid] at hi
        obtain ⟨p, hp, hpi⟩ := h.grades i k hi
        exact ⟨p, mem_insert.2 (.inl hp), hpi⟩
    · obtain ⟨p, hp, hpi⟩ := h.grades i k hi
      exact ⟨p, mem_insert.2 (.inl hp), hpi⟩

theorem mem_replace {t : Table} {id : ℤ} {row : Row ℤ ℤ} {p : ℤ × Row ℤ ℤ} :
    p ∈ (main.replace table id row).rows t ↔
      (p ∈ main.rows t ∧ (t = table → p.1 ≠ id)) ∨
        (t = table ∧ p = (id, row) ∧ ∃ q ∈ main.rows table, q.1 = id) := by
  by_cases ht : t = table
  · subst ht
    simp only [Main.replace, Function.update_self, mem_map, true_and, forall_const]
    constructor
    · rintro ⟨q, hq, rfl⟩
      split_ifs with hid
      · exact .inr ⟨rfl, q, hq, hid⟩
      · exact .inl ⟨hq, hid⟩
    · rintro (⟨hp, hid⟩ | ⟨rfl, q, hq, hid⟩)
      · exact ⟨p, hp, if_neg hid⟩
      · exact ⟨q, hq, if_pos hid⟩
  · simp [Main.replace, ht]

/-- A row rewritten under its key is the same name. -/
theorem replace (h : Identified main names store) {p : ℤ × Row ℤ ℤ} (hp : p ∈ main.rows table)
    {row : Row ℤ ℤ} {s r : Known} (hs : p.2.identify table names = some s)
    (hr : row.identify table names = some r) (hfits : row.Fits table)
    (hkey : row.keyOf table = p.2.keyOf table) (hkey' : r.keyOf table = s.keyOf table) :
    Identified (main.replace table p.1 row) names
      (Function.update store (s.key table) (some r)) := by
  have hkeys : r.key table = s.key table := Prod.ext rfl hkey'
  obtain ⟨s', hs', hstore, hepisode, hgrade⟩ := h.sound table p hp
  obtain rfl : s = s' := Option.some.inj (hs.symm.trans hs')
  refine ⟨?_, ?_, ?_, ?_, ?_, ?_, ?_⟩
  · intro t q hq
    rcases mem_replace.1 hq with ⟨hq, -⟩ | ⟨rfl, rfl, -⟩
    · exact h.fits t q hq
    · exact hfits
  · intro t q hq
    rcases mem_replace.1 hq with ⟨hold, hid⟩ | ⟨rfl, rfl, -⟩
    · obtain ⟨u, hu, hustore, huepisode, hugrade⟩ := h.sound t q hold
      refine ⟨u, hu, ?_, huepisode, hugrade⟩
      rw [Function.update_of_ne, hustore]
      intro he
      obtain ⟨rfl, hek⟩ := Prod.ext_iff.1 he
      have hqp := h.keys _ q hold p hp
        ((keyOf_rename h.episodes_inj h.grades_inj (h.fits _ q hold) (h.fits _ p hp) hu hs).2 hek)
      exact hid rfl (congrArg Prod.fst hqp)
    · refine ⟨r, hr, by rw [hkeys, Function.update_self], ?_, ?_⟩
      · rintro rfl
        rw [(episodeKey_eq (fits_rename hr) (fits_rename hs)).2 hkey']
        exact hepisode rfl
      · rintro rfl
        rw [(gradeKey_eq (fits_rename hr) (fits_rename hs) (h.ofGrade_ne hr)
          (h.ofGrade_ne hs)).2 hkey']
        exact hgrade rfl
  · intro key u hu
    by_cases hkk : key = s.key table
    · subst hkk
      rw [Function.update_self] at hu
      obtain rfl := Option.some.inj hu
      exact ⟨hkeys.symm, _, mem_replace.2 (.inr ⟨rfl, rfl, p, hp, rfl⟩), hr⟩
    · rw [Function.update_of_ne hkk] at hu
      obtain ⟨he, q, hq, hqu⟩ := h.complete key u hu
      refine ⟨he, q, mem_replace.2 (.inl ⟨hq, fun ht hid => hkk ?_⟩), hqu⟩
      subst ht
      obtain rfl := h.eq_of_id hq hp hid
      obtain rfl := Option.some.inj (hqu.symm.trans hs)
      exact he
  · intro t
    by_cases ht : t = table
    · subst ht
      have hids : ((main.replace t p.1 row).rows t).map (·.1) = (main.rows t).map (·.1) := by
        simp only [Main.replace, Function.update_self, map_map]
        refine map_congr_left fun q _ => ?_
        dsimp only [Function.comp]
        split_ifs with hid
        · exact hid.symm
        · rfl
      rw [hids]
      exact h.ids t
    · simp only [Main.replace, Function.update_of_ne ht]
      exact h.ids t
  · intro t q hq q' hq' hqq
    rcases mem_replace.1 hq with ⟨hold, hid⟩ | ⟨ht, rfl, -⟩ <;>
      rcases mem_replace.1 hq' with ⟨hold', hid'⟩ | ⟨ht', rfl, -⟩
    · exact h.keys t q hold q' hold' hqq
    · subst ht'
      rw [hkey] at hqq
      exact absurd (congrArg Prod.fst (h.keys _ q hold p hp hqq)) (hid rfl)
    · subst ht
      rw [hkey] at hqq
      exact absurd (congrArg Prod.fst (h.keys _ q' hold' p hp hqq.symm)) (hid' rfl)
    · rfl
  · intro i k hi
    obtain ⟨q, hq, hqi⟩ := h.episodes i k hi
    by_cases hid : Table.episodes = table ∧ q.1 = p.1
    · exact ⟨_, mem_replace.2 (.inr ⟨hid.1, rfl, p, hp, rfl⟩), hid.2.symm.trans hqi⟩
    · exact ⟨q, mem_replace.2 (.inl ⟨hq, fun ht hqp => hid ⟨ht, hqp⟩⟩), hqi⟩
  · intro i k hi
    obtain ⟨q, hq, hqi⟩ := h.grades i k hi
    by_cases hid : Table.grades = table ∧ q.1 = p.1
    · exact ⟨_, mem_replace.2 (.inr ⟨hid.1, rfl, p, hp, rfl⟩), hid.2.symm.trans hqi⟩
    · exact ⟨q, mem_replace.2 (.inl ⟨hq, fun ht hqp => hid ⟨ht, hqp⟩⟩), hqi⟩

end Identified

/-! ### One row -/

/-- The ids of a file stand for what their copies stand for. -/
def Tracks (ids : IdMap) (names source : Names) : Prop :=
  (∀ i, (ids.episodes i).map names.episodes = (source.episodes i).map some) ∧
    ∀ i, (ids.grades i).map names.grades = (source.grades i).map some

namespace Tracks

variable {ids : IdMap} {names names' source : Names} {table : Table}

theorem mono (h : Tracks ids names source) (hext : names.Extends names') :
    Tracks ids names' source := by
  refine ⟨fun i => ?_, fun i => ?_⟩
  · rcases map_cases (h.1 i) with ⟨hi, hs⟩ | ⟨j, k, hi, hs, hk⟩
    · rw [hi, hs]; rfl
    · rw [hi, hs, Option.map_some, hext.1 j k hk]; rfl
  · rcases map_cases (h.2 i) with ⟨hi, hs⟩ | ⟨j, k, hi, hs, hk⟩
    · rw [hi, hs]; rfl
    · rw [hi, hs, Option.map_some, hext.2 j k hk]; rfl

/-- A copied row's id stands for what its copy's id stands for. -/
theorem note (h : Tracks ids names source) {old new : ℤ} {row : Known}
    (hepisodes : table = .episodes → names.episodes new = some (episodeKey row))
    (hgrades : table = .grades → names.grades new = some (gradeKey row)) :
    Tracks (ids.note table old new) names (source.note table old row) := by
  unfold IdMap.note Names.note
  cases table with
  | episodes =>
    refine ⟨fun i => ?_, h.2⟩
    by_cases hi : i = old
    · subst hi
      simp [hepisodes rfl]
    · simpa [hi] using h.1 i
  | grades =>
    refine ⟨h.1, fun i => ?_⟩
    by_cases hi : i = old
    · subst hi
      simp [hgrades rfl]
    · simpa [hi] using h.2 i
  | _ => exact h

/-- A row of a file, with its references remapped and without its ids. -/
theorem identify (h : Tracks ids names source) (table : Table) (row : Row ℤ ℤ) :
    (row.rename table ids.episodes ids.grades = none ∧ row.identify table source = none) ∨
      ∃ row' r, row.rename table ids.episodes ids.grades = some row' ∧
        row.identify table source = some r ∧ row'.identify table names = some r :=
  map_cases (rename_rename table h.1 h.2 row)

end Tracks

/-- A table of measurements names no ids. -/
theorem note_of_newest (ids : IdMap) (source : Names) {table : Table} (row : Known) (i j : ℤ)
    (h : table.newestWins = true) :
    ids.note table i j = ids ∧ source.note table i row = source := by
  cases table <;> first | exact ⟨rfl, rfl⟩ | cases h

/-- **One row of a file is one step of the fold**, whatever ids the database gave. -/
theorem mergeRow_identified {st : Step} {names source : Names} {store : Key → Option Known}
    {table : Table} {version : ℕ} {p : ℤ × Row ℤ ℤ} (h : Identified st.main names store)
    (ht : Tracks st.ids names source) (hversion : 13 ≤ version) (hlegal : p.2.Legal table version) :
    match p.2.identify table source with
    | none => ∃ e, mergeRow table version st p = .error e
    | some r =>
      match (rule table).put (store (r.key table)) (version, r) with
      | none => ∃ e, mergeRow table version st p = .error e
      | some s => ∃ st' names', mergeRow table version st p = .ok st' ∧
          Identified st'.main names' (Function.update store (r.key table) (some s)) ∧
          Tracks st'.ids names' (source.note table p.1 r) ∧ names.Extends names' := by
  rcases ht.identify table p.2 with ⟨hnone, hsource⟩ | ⟨row, r, hrow, hsource, hr⟩
  · rw [hsource]
    exact ⟨_, by rw [mergeRow, hnone]⟩
  · rw [hsource]
    have hfits := fits_rename hrow
    have hlegal' : row.Legal table version := by
      unfold Row.Legal
      rw [cols_rename hrow]
      exact hlegal
    rcases h.stored_cases hfits hr with
      ⟨hstored, hstore⟩ | ⟨q, s, hstored, hq, hkey, hs, hkey', hstore⟩
    · obtain ⟨hinsert, hext⟩ := h.insert hversion hfits hr hlegal' hstore
      dsimp only [Keyed.Rule.put]
      rw [hstore]
      refine ⟨_, _, by rw [mergeRow, hrow]; dsimp only; rw [hstored], hinsert,
        (ht.mono hext).note (fun hte => ?_) fun htg => ?_, hext⟩
      · subst hte
        exact Function.update_self ..
      · subst htg
        exact Function.update_self ..
    · have hconflicts := conflicts_identify version hs hr
      have htimes : s.time = q.2.time := time_identify hs
      have htimer : r.time = row.time := time_identify hr
      have hkeys : s.key table = r.key table := Prod.ext rfl hkey'
      have hself : Function.update store (r.key table) (some s) = store := by
        rw [← hstore, Function.update_eq_self]
      obtain ⟨s', hs', -, hepisode, hgrade⟩ := h.sound table q hq
      obtain rfl : s = s' := Option.some.inj (hs.symm.trans hs')
      dsimp only [Keyed.Rule.put, rule]
      rw [hstore]
      have hmerge : mergeRow table version st p =
          let differ := conflicts table version q.2 row
          if differ ≠ [] then
            if table.newestWins ∧ row.time = q.2.time ∧ table.tieKeepsStored then .ok st
            else if table.newestWins = false ∨ row.time = q.2.time then
              .error (.conflict table (table.key.map row.cols) differ)
            else
              .ok { st with
                main := if q.2.time < row.time then
                    st.main.replace table q.1 (updated table version q.2 row) else st.main
                copied := st.count table }
          else
            .ok { main := if table = .episodes then
                    st.main.replace table q.1 (filled table version q.2 row) else st.main
                  ids := st.ids.note table p.1 q.1
                  copied := st.count table } := by
        rw [mergeRow, hrow]
        dsimp only
        rw [hstored]
      rw [hmerge, hconflicts, ← htimes, ← htimer]
      by_cases hagree : conflicts table version s r = []
      · have hnote : Tracks (st.ids.note table p.1 q.1) names (source.note table p.1 r) := by
          refine ht.note (fun hte => ?_) fun htg => ?_
          · subst hte
            rw [hepisode rfl, (episodeKey_eq (fits_rename hs) (fits_rename hr)).2 hkey']
          · subst htg
            rw [hgrade rfl, (gradeKey_eq (fits_rename hs) (fits_rename hr) (h.ofGrade_ne hs)
              (h.ofGrade_ne hr)).2 hkey']
        simp only [hagree, ne_eq, not_true_eq_false, decide_false, Bool.false_and, Option.any_some,
          Bool.false_eq_true, ↓reduceIte, Keyed.Rule.settle]
        by_cases hte : table = .episodes
        · simp only [if_pos hte]
          refine ⟨_, names, rfl, ?_, hnote, Names.extends_refl⟩
          have hreplace := h.replace hq hs (identify_filled version hs hr)
            (h.fits table q hq) (keyOf_filled q.2 row) (keyOf_filled s r)
          rwa [hkeys] at hreplace
        · simp only [if_neg hte, hself]
          exact ⟨_, names, rfl, h, hnote, Names.extends_refl⟩
      · simp only [hagree, ne_eq, not_false_eq_true, decide_true, Bool.true_and, Option.any_some,
          ↓reduceIte, Keyed.Rule.settle]
        cases hnewest : table.newestWins with
        | false => simp
        | true =>
          obtain ⟨hids, hsource'⟩ := note_of_newest st.ids source r p.1 q.1 hnewest
          rw [hsource']
          by_cases htime : r.time = s.time
          · cases htie : table.tieKeepsStored with
            | true =>
              simp only [htime, Bool.not_true, Bool.or_false, Bool.and_false, decide_true,
                Bool.false_eq_true, ↓reduceIte, lt_irrefl, hself, and_self]
              exact ⟨st, names, rfl, h, ht, Names.extends_refl⟩
            | false => simp [htime]
          · simp only [htime, Bool.not_true, Bool.false_or, decide_false, Bool.false_and,
              Bool.false_eq_true, ↓reduceIte, false_and, and_false, or_self, Bool.true_eq_false]
            by_cases hlt : s.time < r.time
            · simp only [hlt, ↓reduceIte]
              refine ⟨_, names, rfl, ?_, ht, Names.extends_refl⟩
              have hreplace := h.replace hq hs (identify_updated version hs hr) hfits
                (keyOf_updated q.2 row hkey.symm) (keyOf_updated s r hkey'.symm)
              rwa [hkeys] at hreplace
            · simp only [hlt, ↓reduceIte, hself]
              exact ⟨_, names, rfl, h, ht, Names.extends_refl⟩

/-! ### Files -/

/-- A step of the merge against a step of the fold: both stop, or the database holds the store. -/
def Outcome (names : Names) (result : Except MergeError Step) :
    Option (Names × (Key → Option Known)) → Prop
  | none => ∃ e, result = .error e
  | some (source, store) => ∃ st names', result = .ok st ∧ Identified st.main names' store ∧
      Tracks st.ids names' source ∧ names.Extends names'

theorem Outcome.bind {names : Names} {result : Except MergeError Step}
    {target : Option (Names × (Key → Option Known))} {f : Step → Except MergeError Step}
    {g : Names × (Key → Option Known) → Option (Names × (Key → Option Known))}
    (h : Outcome names result target)
    (hnext : ∀ st names' source store, Identified st.main names' store →
      Tracks st.ids names' source → names.Extends names' →
      Outcome names' (f st) (g (source, store))) :
    Outcome names (result >>= f) (target.bind g) := by
  cases target with
  | none =>
    obtain ⟨e, rfl⟩ := h
    exact ⟨e, rfl⟩
  | some pair =>
    obtain ⟨source, store⟩ := pair
    obtain ⟨st, names', rfl, hst, ht, hext⟩ := h
    have hstep := hnext st names' source store hst ht hext
    change Outcome names (f st) (g (source, store))
    cases hg : g (source, store) with
    | none => rwa [hg] at hstep
    | some pair' =>
      rw [hg] at hstep
      obtain ⟨st', names'', hf, hst', ht', hext'⟩ := hstep
      exact ⟨st', names'', hf, hst', ht', hext.trans hext'⟩

section Files

variable {st : Step} {names source : Names} {store : Key → Option Known} {table : Table}
  {version : ℕ}

/-- The rows of a table, identified and then folded. -/
def foldTable (table : Table) (version : ℕ) (rows : List (ℤ × Row ℤ ℤ))
    (pair : Names × (Key → Option Known)) : Option (Names × (Key → Option Known)) :=
  (identifyRows table version pair.1 rows).bind fun found =>
    (Keyed.foldRows ruleOf pair.2 found.2).map fun store => (found.1, store)

theorem foldTable_cons (p : ℤ × Row ℤ ℤ) (rows : List (ℤ × Row ℤ ℤ))
    (pair : Names × (Key → Option Known)) :
    foldTable table version (p :: rows) pair =
      ((p.2.identify table pair.1).bind fun r =>
        ((rule table).put (pair.2 (r.key table)) (version, r)).map fun s =>
          (pair.1.note table p.1 r, Function.update pair.2 (r.key table) (some s))).bind
        (foldTable table version rows) := by
  unfold foldTable
  rw [identifyRows]
  cases p.2.identify table pair.1 with
  | none => rfl
  | some r =>
    dsimp only [Option.bind_some]
    cases hput : (rule table).put (pair.2 (r.key table)) (version, r) with
    | none =>
      cases identifyRows table version (pair.1.note table p.1 r) rows with
      | none => rfl
      | some found =>
        have hput' : (ruleOf (r.key table)).put (pair.2 (r.key table)) (version, r) = none := hput
        simp [Keyed.foldRows, hput']
    | some s =>
      have hput' : (ruleOf (r.key table)).put (pair.2 (r.key table)) (version, r) = some s := hput
      cases hrest : identifyRows table version (pair.1.note table p.1 r) rows with
      | none => simp [hrest]
      | some found => simp [Keyed.foldRows, hput', hrest]

/-- The rows of a table of a file. -/
theorem mergeTable_identified (hversion : 13 ≤ version) {rows : List (ℤ × Row ℤ ℤ)}
    (hlegal : ∀ p ∈ rows, p.2.Legal table version) (h : Identified st.main names store)
    (ht : Tracks st.ids names source) :
    Outcome names (rows.foldlM (mergeRow table version) st)
      (foldTable table version rows (source, store)) := by
  induction rows generalizing st names source store with
  | nil => exact ⟨st, names, rfl, h, ht, Names.extends_refl⟩
  | cons p rows ih =>
    obtain ⟨hp, hrows⟩ := forall_mem_cons.1 hlegal
    rw [foldlM_cons, foldTable_cons]
    refine Outcome.bind ?_ fun st' names' source' store' h' ht' _ => ih hrows h' ht'
    have hstep := mergeRow_identified h ht hversion hp
    dsimp only
    cases hr : p.2.identify table source with
    | none => rwa [hr] at hstep
    | some r =>
      rw [hr] at hstep
      dsimp only [Option.bind_some] at hstep ⊢
      cases hput : (rule table).put (store (r.key table)) (version, r) with
      | none => rwa [hput] at hstep
      | some s => rwa [hput] at hstep

theorem mem_sourceRows {file : File} {p : ℤ × Row ℤ ℤ} :
    p ∈ sourceRows file table ↔ p ∈ file.rows table := by
  unfold sourceRows
  split_ifs
  · rw [mem_append, mem_filter, mem_filter]
    cases p.2.ofGrade <;> simp
  · rfl

/-- The tables of a file, identified and then folded. -/
def foldTables (file : File) (tables : List Table) (pair : Names × (Key → Option Known)) :
    Option (Names × (Key → Option Known)) :=
  (identifyTables file pair.1 tables).bind fun found =>
    (Keyed.foldRows ruleOf pair.2 found.2).map fun store => (found.1, store)

theorem foldTables_cons (file : File) (tables : List Table)
    (pair : Names × (Key → Option Known)) :
    foldTables file (table :: tables) pair =
      (if table ∈ file.tables then
        foldTable table file.version (sourceRows file table) pair
      else if table.lazy then some pair else none).bind (foldTables file tables) := by
  unfold foldTables foldTable
  rw [identifyTables]
  split_ifs
  · cases identifyRows table file.version pair.1 (sourceRows file table) with
    | none => rfl
    | some found =>
      dsimp only [Option.bind_some]
      cases hfold : Keyed.foldRows ruleOf pair.2 found.2 with
      | none =>
        cases identifyTables file found.1 tables with
        | none => rfl
        | some rest => simp [Keyed.foldRows_append, hfold]
      | some store' =>
        cases hrest : identifyTables file found.1 tables with
        | none => simp [hrest]
        | some rest => simp [Keyed.foldRows_append, hfold, hrest]
  · rfl
  · rfl

variable (st source) in
theorem mergeTables_identified {file : File} (hversion : 13 ≤ file.version) (tables : List Table)
    (h : Identified st.main names store) (ht : Tracks st.ids names source) :
    Outcome names (tables.foldlM (mergeRows file) st) (foldTables file tables (source, store)) := by
  induction tables generalizing st names source store with
  | nil => exact ⟨st, names, rfl, h, ht, Names.extends_refl⟩
  | cons table tables ih =>
    rw [foldlM_cons, foldTables_cons]
    refine Outcome.bind ?_ fun st' names' source' store' h' ht' _ => ih _ _ h' ht'
    unfold mergeRows
    split_ifs
    · exact mergeTable_identified hversion
        (fun p hp => file.legal table p (mem_sourceRows.1 hp)) h ht
    · exact ⟨st, names, rfl, h, ht, Names.extends_refl⟩
    · exact ⟨_, rfl⟩

end Files

/-! ### Merging files -/

/-- A file's rows folded into a store; none when the file is refused or a row is. -/
def foldFile (store : Key → Option Known) (file : File) : Option (Key → Option Known) :=
  (identifyFile file).bind (Keyed.foldRows ruleOf store)

/-- The files whose rows are copied. -/
def File.Current (file : File) : Prop := 13 ≤ file.version ∧ file.version ≤ 20

instance (file : File) : Decidable file.Current := inferInstanceAs (Decidable (_ ∧ _))

/-- The ids of a current file stand for what their copies stand for. -/
def FileTracked (names : Names) (file : File) : Prop :=
  file.Current → ∀ found, identifyTables file {} Table.all = some found →
    ∃ ids, Tracks ids names found.1

theorem mergeOne_identified {main : Main} {names : Names} {store : Key → Option Known}
    (h : Identified main names store) (copied : Table → ℕ) (file : File) :
    (foldFile store file = none ∧ ∃ e, mergeOne main copied file = .error e) ∨
      ∃ store' main' copied' names', foldFile store file = some store' ∧
        mergeOne main copied file = .ok (main', copied') ∧ Identified main' names' store' ∧
        names.Extends names' ∧ FileTracked names' file := by
  unfold foldFile identifyFile mergeOne
  by_cases hversion : 13 ≤ file.version ∧ file.version ≤ 20
  · rw [if_pos hversion, if_pos hversion]
    have hstep := mergeTables_identified ⟨main, {}, copied⟩ {} hversion.1 Table.all h
      ⟨fun _ => rfl, fun _ => rfl⟩
    unfold foldTables at hstep
    cases hfound : identifyTables file {} Table.all with
    | none =>
      rw [hfound] at hstep
      obtain ⟨e, he⟩ := hstep
      exact .inl ⟨rfl, e, by rw [he]⟩
    | some found =>
      rw [hfound] at hstep
      dsimp only [Option.bind_some] at hstep ⊢
      cases hfold : Keyed.foldRows ruleOf store found.2 with
      | none =>
        rw [hfold] at hstep
        obtain ⟨e, he⟩ := hstep
        refine .inl ⟨?_, e, by rw [he]⟩
        split_ifs
        · rfl
        · exact hfold
      | some store' =>
        rw [hfold] at hstep
        obtain ⟨st', names', hst', hidentified, ht, hext⟩ := hstep
        rw [hst']
        split_ifs with hforeign
        · exact .inl ⟨rfl, _, rfl⟩
        · refine .inr ⟨store', st'.main, st'.copied, names', hfold, rfl, hidentified,
            hext, fun _ found' hfound' => ?_⟩
          obtain rfl := Option.some.inj (hfound.symm.trans hfound')
          exact ⟨_, ht⟩
  · rw [if_neg hversion, if_neg hversion]
    split_ifs with hother
    · exact .inl ⟨rfl, _, rfl⟩
    · exact .inr ⟨store, main, copied, names, rfl, rfl, h, Names.extends_refl,
        fun hcurrent => absurd hcurrent hversion⟩

/-- **Merging files is folding their rows by natural key.** -/
theorem merge_identified {main : Main} {names : Names} {store : Key → Option Known}
    (h : Identified main names store) (files : List File) :
    (files.foldlM foldFile store = none ∧ ∃ e, merge main files = .error e) ∨
      ∃ store' main' copied' names', files.foldlM foldFile store = some store' ∧
        merge main files = .ok (main', copied') ∧ Identified main' names' store' ∧
        names.Extends names' ∧ ∀ file ∈ files, FileTracked names' file := by
  unfold merge
  generalize (fun _ => 0 : Table → ℕ) = copied
  induction files generalizing main names store copied with
  | nil =>
    exact .inr ⟨store, main, copied, names, rfl, rfl, h, Names.extends_refl,
      fun _ hfile => absurd hfile not_mem_nil⟩
  | cons file files ih =>
    rw [foldlM_cons, foldlM_cons]
    rcases mergeOne_identified h copied file with
      ⟨hfold, e, he⟩ | ⟨store', main', copied', names', hfold, hmerge, h', hext, htracked⟩
    · exact .inl ⟨by rw [hfold]; rfl, e, by rw [he]; rfl⟩
    · rw [hfold, hmerge]
      rcases ih h' copied' with
        ⟨hfold', e, he⟩ | ⟨store'', main'', copied'', names'', hfold', hmerge', h'', hext', htracked'⟩
      · exact .inl ⟨hfold', e, he⟩
      · refine .inr ⟨store'', main'', copied'', names'', hfold', hmerge', h'', hext.trans hext', ?_⟩
        intro file' hfile'
        rcases mem_cons.1 hfile' with rfl | hfile'
        · intro hcurrent found hfound
          obtain ⟨ids, hids⟩ := htracked hcurrent found hfound
          exact ⟨ids, hids.mono hext'⟩
        · exact htracked' file' hfile'

end Results

end HpcAgentBench
