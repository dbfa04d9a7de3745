import HpcAgentBench.Scaling.Curve
import HpcAgentBench.Lib.Number

/-!
# One launch over many problems

`ml_launch` starts one launch over every problem its tiles admit.  A launch that fails before any
verdict is started again for each problem alone, so that the hole lands on the problem that caused
it.  What a launch does is a field of `Launcher`, and may depend on every launch started before.

## Main results

* `mlLaunch_spec` : **`ml_launch` never raises, and returns one outcome for each problem, in order:
  the problem's own refusal, or its outcome of what was started.**
* `Launched.batched` : what a call starts: nothing, its batch, or its batch and then each problem
  alone.
-/

namespace HpcAgentBench

open List

namespace Scaling

/-- `float("inf")`. -/
def infinity : Double := 0x7FF0000000000000

/-- `MlLaunch`, with what only the grade reads. -/
structure FullLaunch extends MlLaunch where
  maxErr : Double
  timedOut : Bool
  /-- The ranks ran the submission: `ok` is a verdict. -/
  graded : Bool
  /-- The judge's infrastructure failed the launch. -/
  infra : Bool

/-- The folded verdicts and the samples of one problem. -/
structure ShardedGrade where
  ok : Bool
  maxErr : Double
  detail : String
  samplesNs : List ℤ

/-- What a launch raises, with its text. -/
inductive LaunchFault
  /-- `LaunchTimeout`. -/
  | timeout (text : String)
  /-- `SubmissionCrash`. -/
  | crash (text : String)
  /-- `LaunchInfraFault`. -/
  | infra (text : String)
  /-- Another `RuntimeError`, or a `ValueError`. -/
  | other (text : String)
  deriving DecidableEq, Repr

namespace LaunchFault

def text : LaunchFault → String
  | timeout text | crash text | infra text | other text => text

/-- The fault is an answer about the submission, or ends the grade. -/
def isVerdict : LaunchFault → Bool
  | timeout _ | crash _ => true
  | infra _ | other _ => false

end LaunchFault

variable {Params : Type}

/-- A launch that was started, with what it raised. -/
structure Started (Params : Type) where
  ranks : ℕ
  draws : List Params
  repeats : ℕ
  fault : Option LaunchFault

/-- Everything `ml_launch` asks of its surroundings. -/
structure Launcher (Params : Type) where
  /-- The text of a descriptor that was refused at this rank count. -/
  descriptor : ℕ → Option String
  /-- `realized_tiles_refusal`, or the text of its `ValueError`. -/
  tiles : ℕ → Params → Except String (Option String)
  /-- `launch_nodes`. -/
  nodes : ℕ → Option ℕ
  /-- `run_built_sharded`, after the launches started before: one grade for each problem. -/
  run : List (Started Params) → ℕ → (draws : List Params) → ℕ →
    Except LaunchFault {grades : List ShardedGrade // grades.length = draws.length}

/-- The launch of a problem that was refused. -/
def refusedLaunch (text : String) : FullLaunch where
  ok := false
  detail := text
  samples := []
  nodes := none
  maxErr := infinity
  timedOut := false
  graded := false
  infra := false

/-- The launch of a fault. -/
def failedLaunch (nodes : Option ℕ) (fault : LaunchFault) : FullLaunch where
  ok := false
  detail := "mpi run failed (" ++ fault.text ++ ")"
  samples := []
  nodes := nodes
  maxErr := infinity
  timedOut := match fault with
    | .timeout _ => true
    | _ => false
  graded := match fault with
    | .crash _ => true
    | _ => false
  infra := match fault with
    | .infra _ => true
    | _ => false

/-- The launch of a graded problem. -/
def gradedLaunch (nodes : Option ℕ) (one : ShardedGrade) : FullLaunch where
  ok := one.ok
  detail := one.detail
  samples := one.samplesNs
  nodes := nodes
  maxErr := one.maxErr
  timedOut := false
  graded := true
  infra := false

/-- The outcomes in the order of the problems: a refusal, or the next of what ran. -/
def fillOutcomes : List (Option String) → List FullLaunch → Except PyErr (List FullLaunch)
  | [], _ => .ok []
  | some text :: refusals, ran => do return refusedLaunch text :: (← fillOutcomes refusals ran)
  | none :: _, [] => .error (.runtimeError "StopIteration")
  | none :: refusals, one :: ran => do return one :: (← fillOutcomes refusals ran)

/-- Each problem alone, by `one`; the launches it started come after those before. -/
def relaunch (one : List (Started Params) → Params →
    Except PyErr (List FullLaunch × List (Started Params))) :
    List (Started Params) → List Params → Except PyErr (List FullLaunch × List (Started Params))
  | _, [] => .ok ([], [])
  | before, d :: draws => do
    let (outs, started) ← one before d
    let out ← item outs 0
    let (rest, more) ← relaunch one (before ++ started) draws
    return (out :: rest, started ++ more)

section Launch

variable (launcher : Launcher Params) (ranks repeats : ℕ)

/-- The refusal of a problem's tiles. -/
def tilesRefusal (params : Params) : Option String :=
  match launcher.tiles ranks params with
  | .ok refusal => refusal
  | .error text => some ("invalid MPI layout or sizing: " ++ text)

/-- `refusals`. -/
def tilesRefusals (draws : List Params) : List (Option String) :=
  draws.map (tilesRefusal launcher ranks)

/-- `runnable`: the problems without a refusal. -/
def admitted (draws : List Params) : List Params :=
  draws.filter fun d => (tilesRefusal launcher ranks d).isNone

/-- `ml_launch`: one outcome for each problem, and the launches it started. -/
def mlLaunch (before : List (Started Params)) (draws : List Params) :
    Except PyErr (List FullLaunch × List (Started Params)) :=
  match launcher.descriptor ranks with
  | some text => .ok (draws.map fun _ => refusedLaunch text, [])
  | none =>
    let refusals := tilesRefusals launcher ranks draws
    let runnable := admitted launcher ranks draws
    let nodes := launcher.nodes ranks
    if runnable.isEmpty then do return (← fillOutcomes refusals [], [])
    else
      match launcher.run before ranks runnable repeats with
      | .ok grades => do
        return (← fillOutcomes refusals (grades.1.map (gradedLaunch nodes)),
          [⟨ranks, runnable, repeats, none⟩])
      | .error fault =>
        let batch : Started Params := ⟨ranks, runnable, repeats, some fault⟩
        -- which problem failed is unknown, so each is launched again alone
        if _h : fault.isVerdict = false ∧ 1 < runnable.length then do
          let (alone, started) ← relaunch (fun before d => mlLaunch before [d]) (before ++ [batch])
            runnable
          return (← fillOutcomes refusals alone, batch :: started)
        else do
          return (← fillOutcomes refusals (runnable.map fun _ => failedLaunch nodes fault), [batch])
termination_by draws.length
decreasing_by
  exact Nat.lt_of_lt_of_le _h.2 (length_filter_le _ _)

/-- Why a problem is not launched: the descriptor's refusal, or its tiles'. -/
def refusal (params : Params) : Option String :=
  match launcher.descriptor ranks with
  | some text => some text
  | none => tilesRefusal launcher ranks params

end Launch

/-! ### The outcomes of a call -/

/-- One outcome for each problem, in order: its refusal, or the next of what ran. -/
structure Answers (why : Params → Option String) (draws : List Params) (outs ran : List FullLaunch) :
    Prop where
  length : outs.length = draws.length
  refused : ∀ x ∈ draws.zip outs, ∀ text, why x.1 = some text → x.2 = refusedLaunch text
  own : (draws.zip outs).filter (fun x => (why x.1).isNone) =
    (draws.filter fun d => (why d).isNone).zip ran

theorem fillOutcomes_answers {why : Params → Option String} {draws : List Params}
    {ran : List FullLaunch} (hran : ran.length = (draws.filter fun d => (why d).isNone).length) :
    ∃ outs, fillOutcomes (draws.map why) ran = .ok outs ∧ Answers why draws outs ran := by
  induction draws generalizing ran with
  | nil => exact ⟨[], rfl, rfl, by simp, by simp⟩
  | cons d draws ih =>
    cases hd : why d with
    | some text =>
      rw [filter_cons_of_neg (by simp [hd])] at hran
      obtain ⟨outs, hfill, hans⟩ := ih hran
      refine ⟨refusedLaunch text :: outs, ?_, by simp [hans.length], ?_, ?_⟩
      · rw [map_cons, hd, fillOutcomes, hfill]
        rfl
      · rw [zip_cons_cons, forall_mem_cons]
        refine ⟨fun text' htext => ?_, hans.refused⟩
        cases hd.symm.trans htext
        rfl
      · rw [zip_cons_cons, filter_cons_of_neg (by simp [hd]),
          filter_cons_of_neg (by simp [hd]), hans.own]
    | none =>
      rw [filter_cons_of_pos (by simp [hd])] at hran
      cases ran with
      | nil => simp at hran
      | cons one ran =>
        obtain ⟨outs, hfill, hans⟩ := ih (by simpa using hran)
        refine ⟨one :: outs, ?_, by simp [hans.length], ?_, ?_⟩
        · rw [map_cons, hd, fillOutcomes, hfill]
          rfl
        · rw [zip_cons_cons, forall_mem_cons]
          refine ⟨fun text htext => ?_, hans.refused⟩
          cases hd.symm.trans htext
        · rw [zip_cons_cons, filter_cons_of_pos (by simp [hd]),
            filter_cons_of_pos (by simp [hd]), hans.own, zip_cons_cons]

section Ran

variable (launcher : Launcher Params) (ranks repeats : ℕ)

/-- What each problem alone came to, one `ml_launch` after the other. -/
inductive Relaunched : List (Started Params) → List Params → List FullLaunch →
    List (Started Params) → Prop
  | nil {before} : Relaunched before [] [] []
  | cons {before d draws out outs one more}
      (hone : mlLaunch launcher ranks repeats before [d] = .ok ([out], one))
      (hrest : Relaunched (before ++ one) draws outs more) :
      Relaunched before (d :: draws) (out :: outs) (one ++ more)

/-- What the problems without a refusal came to, and the launches started for them. -/
inductive Ran (before : List (Started Params)) (runnable : List Params) :
    List FullLaunch → List (Started Params) → Prop
  | none (hnone : runnable = []) : Ran before runnable [] []
  | graded {grades} (hne : runnable ≠ [])
      (hrun : launcher.run before ranks runnable repeats = .ok grades) :
      Ran before runnable (grades.1.map (gradedLaunch (launcher.nodes ranks)))
        [⟨ranks, runnable, repeats, Option.none⟩]
  | failed {fault} (hne : runnable ≠ [])
      (hrun : launcher.run before ranks runnable repeats = .error fault)
      (hfault : fault.isVerdict = true ∨ runnable.length = 1) :
      Ran before runnable (runnable.map fun _ => failedLaunch (launcher.nodes ranks) fault)
        [⟨ranks, runnable, repeats, some fault⟩]
  | alone {fault outs started}
      (hrun : launcher.run before ranks runnable repeats = .error fault)
      (hfault : fault.isVerdict = false) (hmany : 1 < runnable.length)
      (halone : Relaunched launcher ranks repeats
        (before ++ [⟨ranks, runnable, repeats, some fault⟩]) runnable outs started) :
      Ran before runnable outs (⟨ranks, runnable, repeats, some fault⟩ :: started)

end Ran

section Spec

variable {launcher : Launcher Params} {ranks repeats : ℕ}

variable {before started : List (Started Params)} {draws : List Params} {outs : List FullLaunch}

theorem Relaunched.length (h : Relaunched launcher ranks repeats before draws outs started) :
    outs.length = draws.length := by
  induction h with
  | nil => rfl
  | cons hone hrest ih => rw [length_cons, length_cons, ih]

theorem Ran.length {runnable : List Params} {ran : List FullLaunch}
    (h : Ran launcher ranks repeats before runnable ran started) :
    ran.length = runnable.length := by
  cases h with
  | none hnone => rw [hnone]; rfl
  | graded hne hrun =>
    rename_i grades
    rw [length_map]
    exact grades.2
  | failed hne hrun hfault => rw [length_map]
  | alone hrun hfault hmany halone => exact halone.length

/-- What a call of `ml_launch` returns and starts. -/
def Launched (launcher : Launcher Params) (ranks repeats : ℕ) (before : List (Started Params))
    (draws : List Params) (outs : List FullLaunch) (started : List (Started Params)) : Prop :=
  ∃ ran, Answers (refusal launcher ranks) draws outs ran ∧
    Ran launcher ranks repeats before
      (draws.filter fun d => (refusal launcher ranks d).isNone) ran started

/-- A call is answered once each of its problems is, alone. -/
theorem mlLaunch_of_relaunch
    (hrelaunch : 1 < (admitted launcher ranks draws).length → ∀ before, ∃ outs started,
      relaunch (fun before d => mlLaunch launcher ranks repeats before [d]) before
      (admitted launcher ranks draws) = .ok (outs, started) ∧
      Relaunched launcher ranks repeats before (admitted launcher ranks draws) outs started) :
    ∃ outs started, mlLaunch launcher ranks repeats before draws = .ok (outs, started) ∧
      Launched launcher ranks repeats before draws outs started := by
  rw [mlLaunch]
  cases hdesc : launcher.descriptor ranks with
  | some text =>
    have hwhy : refusal launcher ranks = fun _ => some text := by
      funext d
      simp [refusal, hdesc]
    refine ⟨_, _, rfl, [], ⟨by simp, fun x hx text' htext => ?_, by simp [hwhy]⟩, ?_⟩
    · rw [hwhy] at htext
      cases htext
      obtain ⟨d, -, hd⟩ := mem_map.1 (of_mem_zip hx).2
      exact hd.symm
    · rw [hwhy]
      exact .none (by simp)
  | none =>
    have hwhy : refusal launcher ranks = tilesRefusal launcher ranks := by
      funext d
      simp [refusal, hdesc]
    -- what ran is filled in once it has the problems' number
    have hfill : ∀ ran started, Ran launcher ranks repeats before
        (draws.filter fun d => (refusal launcher ranks d).isNone) ran started →
        ∃ outs, fillOutcomes (tilesRefusals launcher ranks draws) ran = .ok outs ∧
          Launched launcher ranks repeats before draws outs started := by
      intro ran started hran
      obtain ⟨outs, hfill, hans⟩ := fillOutcomes_answers hran.length
      rw [hwhy] at hfill
      exact ⟨outs, hfill, ran, hans, hran⟩
    have hadmitted : (draws.filter fun d => (refusal launcher ranks d).isNone) =
        admitted launcher ranks draws := by
      rw [hwhy]
      rfl
    rw [hadmitted] at hfill
    dsimp only
    split
    next hempty =>
      obtain ⟨outs, hfill, hlaunched⟩ := hfill [] [] (.none (List.isEmpty_iff.1 hempty))
      exact ⟨outs, [], by rw [hfill]; rfl, hlaunched⟩
    next hne =>
      rw [List.isEmpty_iff] at hne
      cases hrun : launcher.run before ranks (admitted launcher ranks draws) repeats with
      | ok grades =>
        obtain ⟨outs, hfill, hlaunched⟩ := hfill _ _ (.graded hne hrun)
        exact ⟨outs, _, by dsimp only; rw [hfill]; rfl, hlaunched⟩
      | error fault =>
        dsimp only
        split
        next hmany =>
          obtain ⟨alone, started, hone, hre⟩ := hrelaunch hmany.2
            (before ++ [⟨ranks, admitted launcher ranks draws, repeats, some fault⟩])
          obtain ⟨outs, hfill, hlaunched⟩ := hfill _ _ (.alone hrun hmany.1 hmany.2 hre)
          exact ⟨outs, _, by rw [hone]; dsimp only [bind, Except.bind]; rw [hfill]; rfl, hlaunched⟩
        next hfew =>
          have hfault : fault.isVerdict = true ∨ (admitted launcher ranks draws).length = 1 := by
            have hpos := length_pos_of_ne_nil hne
            cases hverdict : fault.isVerdict with
            | true => exact .inl rfl
            | false =>
              refine .inr (by_contra fun h1 => hfew ⟨hverdict, by omega⟩)
          obtain ⟨outs, hfill, hlaunched⟩ := hfill _ _ (.failed hne hrun hfault)
          exact ⟨outs, _, by rw [hfill]; rfl, hlaunched⟩

variable (launcher ranks repeats) in
/-- A problem alone is not launched again. -/
theorem mlLaunch_single (before : List (Started Params)) (d : Params) :
    ∃ outs started, mlLaunch launcher ranks repeats before [d] = .ok (outs, started) ∧
      Launched launcher ranks repeats before [d] outs started := by
  refine mlLaunch_of_relaunch fun hmany => ?_
  have hle : (admitted launcher ranks [d]).length ≤ [d].length := length_filter_le _ _
  rw [length_singleton] at hle
  omega

theorem relaunch_spec (before : List (Started Params)) (draws : List Params) :
    ∃ outs started,
      relaunch (fun before d => mlLaunch launcher ranks repeats before [d]) before draws =
        .ok (outs, started) ∧
      Relaunched launcher ranks repeats before draws outs started := by
  induction draws generalizing before with
  | nil => exact ⟨[], [], rfl, .nil⟩
  | cons d draws ih =>
    obtain ⟨outs, one, hone, ran, hans, -⟩ :=
      mlLaunch_single launcher ranks repeats before d
    obtain ⟨out, rfl⟩ := length_eq_one_iff.1 hans.length
    obtain ⟨rest, more, hrest, hre⟩ := ih (before ++ one)
    refine ⟨out :: rest, one ++ more, ?_, .cons hone hre⟩
    rw [relaunch, hone]
    dsimp only [bind, Except.bind]
    rw [hrest]
    rfl

variable (launcher ranks repeats) in
/-- **`ml_launch` never raises, and returns one outcome for each problem, in order: the problem's
own refusal, or its outcome of what was started.** -/
theorem mlLaunch_spec (before : List (Started Params)) (draws : List Params) :
    ∃ outs started, mlLaunch launcher ranks repeats before draws = .ok (outs, started) ∧
      Launched launcher ranks repeats before draws outs started :=
  mlLaunch_of_relaunch fun _ before => relaunch_spec before _

/-- The problems of a launch, with its rank count and repeats. -/
def Started.plan (started : Started Params) : ℕ × List Params × ℕ :=
  (started.ranks, started.draws, started.repeats)

theorem Relaunched.plans (h : Relaunched launcher ranks repeats before draws outs started)
    (hdraws : ∀ d ∈ draws, refusal launcher ranks d = none) :
    started.map Started.plan = draws.map fun d => (ranks, [d], repeats) := by
  induction h with
  | nil => rfl
  | @cons before d draws out outs one more hone hrest ih =>
    rw [forall_mem_cons] at hdraws
    obtain ⟨outs', one', hspec, ran, -, hran⟩ := mlLaunch_spec launcher ranks repeats before [d]
    rw [hone] at hspec
    cases hspec
    rw [filter_cons_of_pos (by simp [hdraws.1]), filter_nil] at hran
    rw [map_append, map_cons, ih hdraws.2]
    cases hran with
    | none hnone => cases hnone
    | graded hne hrun => rfl
    | failed hne hrun hfault => rfl
    | alone hrun hfault hmany halone =>
      rw [length_singleton] at hmany
      omega

/-- Nothing was started, or one batch, or a batch that failed before any verdict and then each of
its problems alone. -/
def Batched (ranks repeats : ℕ) (runnable : List Params) (started : List (Started Params)) : Prop :=
  started = [] ∨ (∃ fault, started = [⟨ranks, runnable, repeats, fault⟩]) ∨
    ∃ fault singles, fault.isVerdict = false ∧ 1 < runnable.length ∧
      started = ⟨ranks, runnable, repeats, some fault⟩ :: singles ∧
      singles.map Started.plan = runnable.map fun d => (ranks, [d], repeats)

theorem Launched.batched (h : Launched launcher ranks repeats before draws outs started) :
    Batched ranks repeats (draws.filter fun d => (refusal launcher ranks d).isNone) started := by
  obtain ⟨ran, -, hran⟩ := h
  cases hran with
  | none hnone => exact .inl rfl
  | graded hne hrun | failed hne hrun hfault => exact .inr (.inl ⟨_, rfl⟩)
  | alone hrun hfault hmany halone =>
    refine .inr (.inr ⟨_, _, hfault, hmany, rfl, halone.plans fun d hd => ?_⟩)
    exact Option.isNone_iff_eq_none.1 (mem_filter.1 hd).2

end Spec

end Scaling

end HpcAgentBench
