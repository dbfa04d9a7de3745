import Mathlib.Algebra.Order.Ring.Rat
import Mathlib.Data.List.Basic

/-!
# The results store

The results database: its tables with their columns and natural keys, and the merge of several
files into one (`merge`).  Rows are matched by natural key, the surrogate ids of a file are
remapped, and two copies of one row agree, fill each other's defaults, or let the newer one win.

The id columns `episode_id`, `of_grade_id` and `grade_id` are fields of a row, the other columns a
function of the column name; what identifies an episode or a grade is a parameter, so that a row
of a file and a row without ids are rows alike.
-/

namespace HpcAgentBench

namespace Results

/-- One column's value. -/
inductive Value
  | null | int (n : ℤ) | real (x : ℚ) | text (s : String)
  deriving DecidableEq

namespace Value

/-- The number of an `INTEGER` column. -/
def toInt : Value → ℤ
  | int n => n
  | _ => 0

/-- The text of a `TEXT` column. -/
def toText : Value → String
  | text s => s
  | _ => ""

/-- The number of a `REAL` column. -/
def toReal : Value → ℚ
  | real x => x
  | int n => n
  | _ => 0

end Value

/-! ### Tables -/

/-- The tables. -/
inductive Table
  | setups | episodes | sources | grades | gradeSources | gradeCells | gradeRequests
  | scalingGrades | scalingPoints | disqualifications | referenceScalingPoints | canon
  | baselineTimings
  deriving DecidableEq, Repr

/-- How the rows of a table name other rows. -/
inductive References
  | none
  /-- An episode, and the grade re-timed. -/
  | episode
  /-- A grade. -/
  | grade
  deriving DecidableEq, Repr

namespace Table

/-- The tables, parents before children: the order a merge copies them in. -/
def all : List Table :=
  [setups, episodes, sources, grades, gradeSources, gradeCells, gradeRequests, scalingGrades,
   scalingPoints, disqualifications, referenceScalingPoints, canon, baselineTimings]

def references : Table → References
  | grades => .episode
  | gradeSources | gradeCells | gradeRequests | scalingGrades | scalingPoints
  | disqualifications => .grade
  | _ => .none

/-- The columns with their defaults (`null` when none), the id columns left out. -/
def columns : Table → List (String × Value)
  | .setups =>
    [("setup", .null), ("study", .text ""), ("model", .text ""), ("language", .null),
     ("device", .null), ("packet", .text ""), ("harness", .null), ("temperature", .real 1),
     ("tag_version", .text ""), ("plugins", .null)]
  | .episodes =>
    [("setup", .null), ("job", .int 0), ("label", .null), ("slot", .int 1), ("kernel", .text ""),
     ("result", .text ""), ("returncode", .null), ("relaunches", .int 0),
     ("final_attempt_start_ms", .int 0), ("turns", .int 0), ("wall_ms", .int 0),
     ("api_ms", .int 0), ("fresh_input_tokens", .int 0), ("cached_input_tokens", .int 0),
     ("output_tokens", .int 0), ("thinking_tokens", .int 0), ("billed_tokens", .int 0),
     ("effective_tokens", .int 0), ("crashed_billed_tokens", .int 0),
     ("crashed_effective_tokens", .int 0)]
  | .sources =>
    [("hash", .null), ("text", .null)]
  | .grades =>
    [("kernel", .null), ("ts_ms", .null), ("kind", .null), ("call_index", .int 0),
     ("tokens_so_far", .int 0), ("preset", .null), ("datatype", .null), ("source_mode", .null),
     ("baseline", .text ""), ("grading_protocol", .text ""), ("timing_reduction", .text ""),
     ("baseline_policy", .text ""), ("denominator", .text ""), ("score_rule", .text ""),
     ("requested_build", .text ""), ("requests", .text ""), ("build_commands", .text ""),
     ("build_ok", .null), ("correct", .null), ("status", .text ""), ("reason", .text ""),
     ("speedup", .real 0), ("credited_speedup", .real 0), ("suspect", .null),
     ("device_runtime", .text ""), ("baseline_ns", .real 0), ("native_ns", .real 0),
     ("timing_residual_ns", .null), ("timing_host_ns", .null), ("timing_event_ns", .null),
     ("device_index", .null), ("detail", .text ""), ("workspace_bytes", .text ""),
     ("layout", .text ""), ("convert_in_ns", .int 0), ("convert_out_ns", .int 0),
     ("size_scale", .real 0), ("scale_axes", .text ""), ("node", .text ""), ("cpu", .text ""),
     ("commit_sha", .text ""), ("task_hash", .null), ("library_hash", .text ""),
     ("agent_root", .text ""), ("agent_libs", .text ""), ("phase", .text ""),
     ("library", .text "")]
  | .gradeSources =>
    [("part", .null), ("language", .null), ("hash", .null)]
  | .gradeCells =>
    [("cell", .null), ("label", .text ""), ("shape", .text ""), ("timed", .int 0),
     ("correct", .null), ("suspect", .null), ("significant", .null), ("p_value", .null),
     ("baseline", .text ""), ("baseline_candidates", .text ""), ("race_leader", .text ""),
     ("race_leader_source", .text ""), ("race_cuts", .text ""), ("baseline_ns", .real 0),
     ("native_ns", .real 0), ("ratio", .real 0), ("residency", .text ""), ("timer", .text ""),
     ("copies_excluded", .int 0), ("residual_ns", .null), ("host_event_delta_ns", .null),
     ("device_index", .null), ("status", .text ""), ("reason", .text "")]
  | .gradeRequests =>
    [("position", .null), ("kind", .null), ("array", .text ""), ("value", .text ""),
     ("params", .text "")]
  | .scalingGrades =>
    [("mode", .null), ("input", .text ""), ("status", .null), ("single_rank_ns", .int 0),
     ("disclosure", .text ""), ("notes", .text "")]
  | .scalingPoints =>
    [("mode", .null), ("input", .text ""), ("ranks", .null), ("nodes", .int 0),
     ("ranked_ns", .int 0), ("work_ratio", .null), ("efficiency", .real 0), ("note", .text "")]
  | .disqualifications =>
    [("reason", .null), ("ts_ms", .null)]
  | .referenceScalingPoints =>
    [("source", .null), ("kernel", .null), ("mode", .null), ("ranks", .null), ("repeat", .int 0),
     ("params", .text ""), ("arch", .text ""), ("image", .text ""), ("compile_mode", .text ""),
     ("nodes", .int 0), ("ranked_ns", .null), ("samples", .text ""), ("work_ratio", .null),
     ("note", .text ""), ("job", .null), ("node", .text ""), ("commit_sha", .text ""),
     ("ts_ms", .null)]
  | .canon =>
    [("run", .null), ("column", .null), ("kernel", .null), ("preset", .null), ("datatype", .null),
     ("median_ms", .null), ("validated", .null), ("build", .text ""), ("impl", .text ""),
     ("status", .null), ("failure", .text ""), ("error", .text ""), ("node", .text ""),
     ("cpu", .text ""), ("gpu", .text ""), ("execution", .text "native"), ("ts_ms", .int 0),
     ("transform_time", .null), ("codegen_time", .null), ("compile_time", .null)]
  | .baselineTimings =>
    [("kernel", .null), ("preset", .null), ("datatype", .null), ("shape", .null), ("draw", .null),
     ("validity", .null), ("node", .null), ("image", .null), ("kinds", .null),
     ("compiler", .text ""), ("threads", .null), ("repeat", .null), ("warmup", .null),
     ("best", .null), ("samples", .null), ("leader", .text ""), ("leader_source", .text ""),
     ("winner", .text ""), ("ts_ms", .null)]

/-- The version that added a column; 13 for one that was always there. -/
def addedIn : Table → String → ℕ
  | canon, "transform_time" | canon, "codegen_time" | canon, "compile_time" => 14
  | setups, "plugins" => 15
  | grades, "library_hash" => 16
  | grades, "agent_root" => 17
  | grades, "agent_libs" => 18
  | grades, "phase" => 19
  | grades, "library" => 20
  | _, _ => 13

/-- The columns a file of a version has. -/
def columnsAt (table : Table) (version : ℕ) : List String :=
  (table.columns.map (·.1)).filter fun name => table.addedIn name ≤ version

/-- A column's default. -/
def default (table : Table) (name : String) : Value := (table.columns.lookup name).getD .null

/-- The natural-key columns, the id columns left out. -/
def key : Table → List String
  | setups => ["setup"]
  | episodes => ["job", "label"]
  | sources => ["hash"]
  | grades => ["kernel", "ts_ms", "kind"]
  | gradeSources => ["part"]
  | gradeCells => ["cell"]
  | gradeRequests => ["position"]
  | scalingGrades => ["mode", "input"]
  | scalingPoints => ["mode", "input", "ranks"]
  | disqualifications => []
  | referenceScalingPoints => ["source", "kernel", "mode", "ranks", "repeat", "ts_ms"]
  | canon => ["run", "column", "kernel", "preset", "datatype"]
  | baselineTimings =>
    ["kernel", "preset", "datatype", "shape", "draw", "validity", "node", "image", "kinds",
     "compiler", "threads", "repeat", "warmup"]

/-- Tables where a later copy of a row wins by its `ts_ms`. -/
def newestWins : Table → Bool
  | canon | baselineTimings => true
  | _ => false

/-- Tables whose two copies measured in the same millisecond keep the stored one. -/
def tieKeepsStored : Table → Bool
  | baselineTimings => true
  | _ => false

/-- Tables created on demand: a file without one holds no rows of it. -/
def lazy : Table → Bool
  | baselineTimings => true
  | _ => false

end Table

/-! ### Rows -/

/-- A row, with what its id columns name: its episode, the grade it re-timed, its grade. -/
structure Row (E G : Type) where
  episode : Option E := none
  ofGrade : Option G := none
  grade : Option G := none
  cols : String → Value

variable {E G E' G' : Type}

namespace Row

/-- When a row was measured. -/
def time (row : Row E G) : ℤ := (row.cols "ts_ms").toInt

/-- A row with its references renamed; none when one of them names nothing. -/
def rename (table : Table) (episodes : E → Option E') (grades : G → Option G')
    (row : Row E G) : Option (Row E' G') :=
  match table.references with
  | .none => some { cols := row.cols }
  | .episode =>
    row.episode.bind episodes |>.bind fun episode =>
      match row.ofGrade with
      | none => some { episode := some episode, cols := row.cols }
      | some ofGrade => (grades ofGrade).map fun g =>
        { episode := some episode, ofGrade := some g, cols := row.cols }
  | .grade =>
    row.grade.bind grades |>.map fun g => { grade := some g, cols := row.cols }

/-- What identifies a row in its table. -/
def keyOf (table : Table) (row : Row E G) : Option E × Option G × Option G × List Value :=
  (row.episode, row.ofGrade, row.grade, table.key.map row.cols)

end Row

/-- The columns where a row of a file of `version` disagrees with the stored one; a default episode
column on either side is no conflict. -/
def conflicts (table : Table) (version : ℕ) (stored row : Row E G) : List String :=
  (table.columnsAt version).filter fun name =>
    row.cols name ≠ stored.cols name &&
      !(table = .episodes &&
        (row.cols name = table.default name || stored.cols name = table.default name))

/-- A row as it is inserted: a column the file lacks, or a NULL, takes the column's default. -/
def inserted (table : Table) (version : ℕ) (row : Row E G) : Row E G :=
  { row with cols := fun name =>
      if name ∈ table.columnsAt version ∧ row.cols name ≠ .null then row.cols name
      else table.default name }

/-- The stored row whose columns still at their default take the row's; its key stays. -/
def filled (table : Table) (version : ℕ) (stored row : Row E G) : Row E G :=
  { stored with cols := fun name =>
      if name ∈ table.columnsAt version ∧ row.cols name ≠ .null ∧ name ∉ table.key ∧
          stored.cols name = table.default name then row.cols name
      else stored.cols name }

/-- The stored row with every column the row has replaced. -/
def updated (table : Table) (version : ℕ) (stored row : Row E G) : Row E G :=
  { row with cols := fun name =>
      if name ∈ table.columnsAt version then row.cols name else stored.cols name }

/-! ### Merging -/

/-- Why a merge stops. -/
inductive MergeError
  /-- Two copies of one row differ in these columns. -/
  | conflict (table : Table) (key : List Value) (differ : List String)
  /-- A row names an episode or a grade the file did not hold before it. -/
  | missingId (table : Table)
  /-- A file of another schema, or with a table outside it. -/
  | schemaVersion
  /-- A file of this schema without one of its tables. -/
  | noTable (table : Table)
  deriving DecidableEq

/-- A row a table of a file of `version` can hold: NULL only where the column has no default. -/
def Row.Legal (table : Table) (version : ℕ) (row : Row E G) : Prop :=
  ∀ name ∈ table.columnsAt version, row.cols name = .null → table.default name = .null

instance (table : Table) (version : ℕ) (row : Row E G) : Decidable (row.Legal table version) :=
  inferInstanceAs (Decidable (∀ _ ∈ _, _))

/-- A results file: its version, its tables and their rows with their ids, in the order of the
ids. -/
structure File where
  version : ℕ
  tables : List Table
  /-- Tables outside the schema. -/
  foreign : List String := []
  rows : Table → List (ℤ × Row ℤ ℤ)
  nodup : ∀ table, ((rows table).map (·.1)).Nodup
  legal : ∀ table, ∀ p ∈ rows table, p.2.Legal table version

/-- The merged database. -/
structure Main where
  rows : Table → List (ℤ × Row ℤ ℤ)

/-- A database without rows. -/
def Main.empty : Main := ⟨fun _ => []⟩

/-- Source id to destination id of the rows one merge step has copied. -/
structure IdMap where
  episodes : ℤ → Option ℤ := fun _ => none
  grades : ℤ → Option ℤ := fun _ => none

/-- The state of one merge step. -/
structure Step where
  main : Main
  ids : IdMap
  /-- Rows copied per table. -/
  copied : Table → ℕ

namespace Main

variable (main : Main)

/-- The row holding a natural key, with its id. -/
def stored (table : Table) (row : Row ℤ ℤ) : Option (ℤ × Row ℤ ℤ) :=
  (main.rows table).find? fun p => p.2.keyOf table = row.keyOf table

/-- The next free id of a table. -/
def nextId (table : Table) : ℤ := ((main.rows table).map (·.1)).foldr max 0 + 1

/-- A new row at the end. -/
def insert (table : Table) (row : Row ℤ ℤ) : Main :=
  ⟨Function.update main.rows table (main.rows table ++ [(main.nextId table, row)])⟩

/-- The row of one id replaced. -/
def replace (table : Table) (id : ℤ) (row : Row ℤ ℤ) : Main :=
  ⟨Function.update main.rows table
    ((main.rows table).map fun p => if p.1 = id then (id, row) else p)⟩

end Main

/-- Where a copied row of a file went. -/
def IdMap.note (ids : IdMap) (table : Table) (old new : ℤ) : IdMap :=
  match table with
  | .episodes => { ids with episodes := Function.update ids.episodes old (some new) }
  | .grades => { ids with grades := Function.update ids.grades old (some new) }
  | _ => ids

def Step.count (st : Step) (table : Table) : Table → ℕ :=
  Function.update st.copied table (st.copied table + 1)

/-- One row of an attached file copied by natural key. -/
def mergeRow (table : Table) (version : ℕ) (st : Step) (p : ℤ × Row ℤ ℤ) :
    Except MergeError Step :=
  match p.2.rename table st.ids.episodes st.ids.grades with
  | none => .error (.missingId table)
  | some row =>
    match st.main.stored table row with
    | none =>
      .ok { main := st.main.insert table (inserted table version row)
            ids := st.ids.note table p.1 (st.main.nextId table)
            copied := st.count table }
    | some (id, stored) =>
      let differ := conflicts table version stored row
      if differ ≠ [] then
        if table.newestWins ∧ row.time = stored.time ∧ table.tieKeepsStored then .ok st
        else if table.newestWins = false ∨ row.time = stored.time then
          .error (.conflict table (table.key.map row.cols) differ)
        else
          .ok { st with
            main := if stored.time < row.time then
                st.main.replace table id (updated table version stored row) else st.main
            copied := st.count table }
      else
        .ok { main := if table = .episodes then
                st.main.replace table id (filled table version stored row) else st.main
              ids := st.ids.note table p.1 id
              copied := st.count table }

/-- The rows of a file's table in the order they are read: the re-timed grades last. -/
def sourceRows (file : File) (table : Table) : List (ℤ × Row ℤ ℤ) :=
  if table = .grades then
    (file.rows table).filter (·.2.ofGrade.isNone) ++ (file.rows table).filter (·.2.ofGrade.isSome)
  else file.rows table

/-- One table of a file. -/
def mergeRows (file : File) (st : Step) (table : Table) : Except MergeError Step :=
  if table ∈ file.tables then (sourceRows file table).foldlM (mergeRow table file.version) st
  else if table.lazy then .ok st
  else .error (.noTable table)

/-- One file folded into the open destination. -/
def mergeOne (main : Main) (copied : Table → ℕ) (file : File) :
    Except MergeError (Main × (Table → ℕ)) :=
  if 13 ≤ file.version ∧ file.version ≤ 20 then
    match Table.all.foldlM (mergeRows file) ⟨main, {}, copied⟩ with
    | .error e => .error e
    | .ok st => if file.foreign ≠ [] then .error .schemaVersion else .ok (st.main, st.copied)
  else if file.version ≠ 0 ∨ file.tables ≠ [] ∨ file.foreign ≠ [] then .error .schemaVersion
  else .ok (main, copied)

/-- Every file folded into a destination by natural key; the rows copied per table. -/
def merge (main : Main) (files : List File) : Except MergeError (Main × (Table → ℕ)) :=
  files.foldlM (fun st file => mergeOne st.1 st.2 file) (main, fun _ => 0)

end Results

end HpcAgentBench
