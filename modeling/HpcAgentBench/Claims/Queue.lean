import HpcAgentBench.Lib.Lts
import Mathlib.Data.List.Basic
import Mathlib.Order.Lattice

/-!
# The run-wide claim queue

Every shard of every job that grades one worklist takes items through marker files in one run
directory: `<job>/<key>.<n>` is the job's `n`-th claim on an item, `<key>.done` an item whose grade
is written, `<job>/<key>.closed` an item the job gave up on.  `ClaimQueue.take` and the settling of
a held item are modelled file-system call by file-system call: a shard is at some `Phase` between
two calls, and one action is one call of one shard, the death of a shard, or a claim going stale.

A listing of the other jobs' claims reads the run directory once, then each claim file at a moment
of its own (`Op.see`), and then its age at another (`Op.test`), in any order.

## Main definitions

* `State.step` : one action of the system.
* `Fresh` : a claim goes stale only when its shard is dead.
* `State.Holds` : a shard holds an item, that is, `take` returned the claim to it.

## Main results

* `step_cases` : everything a step can do.
* `Owned`, `owned` : a claim file exists exactly while its shard is in a phase that owns it.
* `Stale`, `earlier_stale` : a shard on its `n`-th attempt left only stale claims behind.
-/

namespace HpcAgentBench

namespace Claims

open Lts

/-- `MAX_CLAIMS`: claims one job makes on one item. -/
def maxClaims : ℕ := 3

/-- A claim file: the shard that created it, and whether it went untouched for `STALE_S`. -/
structure Claim (Shard : Type*) where
  owner : Shard
  stale : Bool
  deriving DecidableEq, Repr

/-- Where a shard is between two file-system calls. -/
inductive Phase (Job Key : Type*)
  /-- Its `ClaimQueue` is not built. -/
  | new
  /-- Outside `take`, holding nothing. -/
  | idle
  /-- In `live_elsewhere`: the files still to look for, the files found and still to be tested for
  staleness, and the jobs of the live ones.  `own` is its claim when this is the second listing. -/
  | listing (key : Key) (own : Option ℕ) (todo seen : List (Job × ℕ)) (rivals : List Job)
  /-- About to create its job's `n`-th claim file. -/
  | attempt (key : Key) (n : ℕ)
  /-- The `n`-th claim file exists: about to test it for staleness. -/
  | taken (key : Key) (n : ℕ)
  /-- Every claim of the job is stale: about to create the closing marker. -/
  | closing (key : Key)
  /-- Created its claim: about to read the run directory a second time. -/
  | created (key : Key) (n : ℕ)
  /-- About to test `done`. -/
  | checkDone (key : Key) (n : ℕ) (rivals : List Job)
  /-- About to test `closed`. -/
  | checkClosed (key : Key) (n : ℕ) (rivals : List Job)
  /-- About to unlink its own claim and return nothing. -/
  | withdraw (key : Key) (n : ℕ)
  /-- `take` returned the claim: the caller grades the item. -/
  | held (key : Key) (n : ℕ)
  /-- The claim was gone when it was to be renamed: about to create the `done` marker. -/
  | marking (key : Key)
  /-- The item was not finished and is closed for the job: about to unlink the claim. -/
  | release (key : Key) (n : ℕ)
  deriving DecidableEq, Repr

/-- The calls a shard makes. -/
inductive Op (Job Key : Type*)
  /-- The next call of the code where nothing is left to choose. -/
  | next
  /-- `take(key)` is called; its first call reads the run directory. -/
  | take (key : Key)
  /-- `finish(key)` without a claim: the item is already in this shard's database. -/
  | record (key : Key)
  /-- The listing looks for one claim file. -/
  | see (file : Job × ℕ)
  /-- The listing tests one file it found for staleness. -/
  | test (file : Job × ℕ)
  /-- The holder wrote the grade: `finish(key, claim)`. -/
  | finish
  /-- The holder did not finish the item. -/
  | giveUp

/-- The actions of the system. -/
inductive Action (Job Shard Key : Type*)
  | act (s : Shard) (op : Op Job Key)
  /-- The shard dies, whatever it is doing. -/
  | die (s : Shard)
  /-- A claim file went untouched for `STALE_S`. -/
  | expire (j : Job) (key : Key) (n : ℕ)

/-- The run directory, the shards, and the claims `take` returned so far. -/
structure State (Job Shard Key : Type*) where
  /-- The jobs whose directory exists. -/
  dirs : List Job
  /-- `<key>.done` exists. -/
  done : Key → Bool
  /-- `<job>/<key>.closed` exists. -/
  closed : Job → Key → Bool
  /-- `<job>/<key>.<n>`. -/
  claims : Job → Key → ℕ → Option (Claim Shard)
  alive : Shard → Bool
  phase : Shard → Phase Job Key
  /-- Every claim `take` returned: to whom, on which item, which attempt. -/
  won : List (Shard × Key × ℕ)

/-- The claim file a shard in this phase has created and not yet removed. -/
def Phase.own {Job Key : Type*} : Phase Job Key → Option (Key × ℕ)
  | .listing k own _ _ _ => own.map fun n => (k, n)
  | .created k n | .checkDone k n _ | .checkClosed k n _ | .withdraw k n | .held k n
  | .release k n => some (k, n)
  | _ => none

namespace State

variable {Job Shard Key : Type*} [LinearOrder Job] [DecidableEq Shard] [DecidableEq Key]

/-- `s` goes on to phase `p`. -/
@[simps] def setPhase (σ : State Job Shard Key) (s : Shard) (p : Phase Job Key) : State Job Shard Key :=
  { σ with phase := fun t => if t = s then p else σ.phase t }

/-- The file `<j>/<key>.<n>` becomes `c`. -/
@[simps] def setClaim (σ : State Job Shard Key) (j : Job) (key : Key) (n : ℕ) (c : Option (Claim Shard)) :
    State Job Shard Key :=
  { σ with claims := fun j' k' n' => if j' = j ∧ k' = key ∧ n' = n then c else σ.claims j' k' n' }

/-- `create_exclusive` of `<key>.done`: it exists afterwards either way. -/
@[simps] def setDone (σ : State Job Shard Key) (key : Key) : State Job Shard Key :=
  { σ with done := fun k => if k = key then true else σ.done k }

/-- `create_exclusive` of `<j>/<key>.closed`. -/
@[simps] def setClosed (σ : State Job Shard Key) (j : Job) (key : Key) : State Job Shard Key :=
  { σ with closed := fun j' k => if j' = j ∧ k = key then true else σ.closed j' k }

@[simps] def kill (σ : State Job Shard Key) (s : Shard) : State Job Shard Key :=
  { σ with alive := fun t => if t = s then false else σ.alive t }

/-- `take` returns the claim to `s`. -/
@[simps] def win (σ : State Job Shard Key) (s : Shard) (key : Key) (n : ℕ) : State Job Shard Key :=
  { σ.setPhase s (.held key n) with won := (s, key, n) :: σ.won }

/-- `settled(key)` for a shard of job `j`. -/
def settled (σ : State Job Shard Key) (j : Job) (key : Key) : Bool := σ.done key || σ.closed j key

/-- `stale(path)`: a vanished claim is not stale. -/
def stale (σ : State Job Shard Key) (j : Job) (key : Key) (n : ℕ) : Bool :=
  (σ.claims j key n).any Claim.stale

/-- The claim files of the other jobs whose directory exists now. -/
def others (σ : State Job Shard Key) (j : Job) : List (Job × ℕ) :=
  (σ.dirs.filter (· ≠ j)).flatMap fun j' => (List.range maxClaims).map fun n => (j', n)

variable (jobOf : Shard → Job)

/-- One call of shard `s`, which is in phase `p`. -/
def call (σ : State Job Shard Key) (s : Shard) (p : Phase Job Key) (op : Op Job Key) :
    Option (State Job Shard Key) :=
  match p, op with
  | .new, .next =>
    some ({ σ with dirs := if jobOf s ∈ σ.dirs then σ.dirs else jobOf s :: σ.dirs }.setPhase s .idle)
  | .idle, .record key => some (σ.setDone key)
  | .idle, .take key => some (σ.setPhase s (.listing key none (σ.others (jobOf s)) [] []))
  | .listing key own todo seen rivals, .see file =>
    if file ∈ todo then
      let seen := if (σ.claims file.1 key file.2).isSome then file :: seen else seen
      some (σ.setPhase s (.listing key own (todo.erase file) seen rivals))
    else none
  | .listing key own todo seen rivals, .test file =>
    if file ∈ seen then
      let rivals := if σ.stale file.1 key file.2 then rivals else file.1 :: rivals
      some (σ.setPhase s (.listing key own todo (seen.erase file) rivals))
    else none
  | .listing key none [] [] rivals, .next =>
    some (σ.setPhase s (if rivals = [] then .attempt key 0 else .idle))
  | .listing key (some n) [] [] rivals, .next => some (σ.setPhase s (.checkDone key n rivals))
  | .attempt key n, .next =>
    if (σ.claims (jobOf s) key n).isSome then some (σ.setPhase s (.taken key n))
    else some ((σ.setClaim (jobOf s) key n (some ⟨s, false⟩)).setPhase s (.created key n))
  | .taken key n, .next =>
    if σ.stale (jobOf s) key n then
      some (σ.setPhase s (if n + 1 < maxClaims then .attempt key (n + 1) else .closing key))
    else some (σ.setPhase s .idle)
  | .closing key, .next => some ((σ.setClosed (jobOf s) key).setPhase s .idle)
  | .created key n, .next =>
    some (σ.setPhase s (.listing key (some n) (σ.others (jobOf s)) [] []))
  | .checkDone key n rivals, .next =>
    some (σ.setPhase s (if σ.done key then .withdraw key n else .checkClosed key n rivals))
  | .checkClosed key n rivals, .next =>
    if σ.closed (jobOf s) key ∨ ∃ rival ∈ rivals, rival < jobOf s then
      some (σ.setPhase s (.withdraw key n))
    else some (σ.win s key n)
  -- an `unlink` of a file that is not there raises, and the exception ends the shard
  | .withdraw key n, .next | .release key n, .next =>
    if (σ.claims (jobOf s) key n).isSome then
      some ((σ.setClaim (jobOf s) key n none).setPhase s .idle)
    else some (σ.kill s)
  | .held key n, .finish =>
    if (σ.claims (jobOf s) key n).isSome then
      some (((σ.setClaim (jobOf s) key n none).setDone key).setPhase s .idle)
    else some (σ.setPhase s (.marking key))
  | .marking key, .next => some ((σ.setDone key).setPhase s .idle)
  | .held key n, .giveUp => some ((σ.setClosed (jobOf s) key).setPhase s (.release key n))
  | _, _ => none

/-- One action.  A dead shard makes no call. -/
def step (σ : State Job Shard Key) : Action Job Shard Key → Option (State Job Shard Key)
  | .act s op => if σ.alive s then σ.call jobOf s (σ.phase s) op else none
  | .die s => some (σ.kill s)
  | .expire j key n =>
    (σ.claims j key n).map fun c => σ.setClaim j key n (some { c with stale := true })

end State

/-- A run directory with the markers `done₀` of earlier runs and no claims; every shard is alive
and about to build its queue. -/
def init (Job Shard : Type*) {Key : Type*} (done₀ : Key → Bool) : State Job Shard Key where
  dirs := []
  done := done₀
  closed := fun _ _ => false
  claims := fun _ _ _ => none
  alive := fun _ => true
  phase := fun _ => .new
  won := []

/-! ### What a step can do -/

namespace State

variable {Job Shard Key : Type*} [LinearOrder Job] [DecidableEq Shard] [DecidableEq Key]
variable {jobOf : Shard → Job}

/-- The calls that leave the run directory as it is: shard `s` goes from one phase to another. -/
inductive Move (jobOf : Shard → Job) (σ : State Job Shard Key) (s : Shard) :
    Phase Job Key → Phase Job Key → Prop
  | take {k} : Move jobOf σ s .idle (.listing k none (σ.others (jobOf s)) [] [])
  | see {k own todo seen rivals file} (h : file ∈ todo) :
      Move jobOf σ s (.listing k own todo seen rivals)
        (.listing k own (todo.erase file)
          (if (σ.claims file.1 k file.2).isSome then file :: seen else seen) rivals)
  | test {k own todo seen rivals file} (h : file ∈ seen) :
      Move jobOf σ s (.listing k own todo seen rivals)
        (.listing k own todo (seen.erase file)
          (if σ.stale file.1 k file.2 then rivals else file.1 :: rivals))
  | none {k} : Move jobOf σ s (.listing k none [] [] []) (.attempt k 0)
  | some {k rivals} : Move jobOf σ s (.listing k none [] [] rivals) .idle
  | relisted {k n rivals} :
      Move jobOf σ s (.listing k (some n) [] [] rivals) (.checkDone k n rivals)
  | exists {k n} : Move jobOf σ s (.attempt k n) (.taken k n)
  | again {k n} (hs : σ.stale (jobOf s) k n = true) (hn : n + 1 < maxClaims) :
      Move jobOf σ s (.taken k n) (.attempt k (n + 1))
  | last {k n} (hs : σ.stale (jobOf s) k n = true) (hn : maxClaims ≤ n + 1) :
      Move jobOf σ s (.taken k n) (.closing k)
  | fresh {k n} : Move jobOf σ s (.taken k n) .idle
  | relist {k n} :
      Move jobOf σ s (.created k n) (.listing k (some n) (σ.others (jobOf s)) [] [])
  | ungraded {k n rivals} (hd : σ.done k = false) :
      Move jobOf σ s (.checkDone k n rivals) (.checkClosed k n rivals)
  | graded {k n rivals} : Move jobOf σ s (.checkDone k n rivals) (.withdraw k n)
  | backOff {k n rivals} : Move jobOf σ s (.checkClosed k n rivals) (.withdraw k n)

/-- What an action does: a `Move` of a live shard, or one of the changes to the directory. -/
inductive Effect (jobOf : Shard → Job) (σ : State Job Shard Key) :
    Action Job Shard Key → State Job Shard Key → Prop
  | move {s op p} (ha : σ.alive s = true) (hm : Move jobOf σ s (σ.phase s) p) :
      Effect jobOf σ (.act s op) (σ.setPhase s p)
  | mkdir {s op dirs} (ha : σ.alive s = true) (hp : σ.phase s = .new) (hs : jobOf s ∈ dirs)
      (hd : σ.dirs ⊆ dirs) : Effect jobOf σ (.act s op) ({ σ with dirs := dirs }.setPhase s .idle)
  | record {s k} (ha : σ.alive s = true) (hp : σ.phase s = .idle) :
      Effect jobOf σ (.act s (.record k)) (σ.setDone k)
  | create {s k n} (ha : σ.alive s = true) (hp : σ.phase s = .attempt k n)
      (hc : σ.claims (jobOf s) k n = none) :
      Effect jobOf σ (.act s .next)
        ((σ.setClaim (jobOf s) k n (some ⟨s, false⟩)).setPhase s (.created k n))
  | close {s k} (ha : σ.alive s = true) (hp : σ.phase s = .closing k) :
      Effect jobOf σ (.act s .next) ((σ.setClosed (jobOf s) k).setPhase s .idle)
  | win {s k n rivals} (ha : σ.alive s = true) (hp : σ.phase s = .checkClosed k n rivals)
      (hc : σ.closed (jobOf s) k = false) (hr : ∀ rival ∈ rivals, ¬ rival < jobOf s) :
      Effect jobOf σ (.act s .next) (σ.win s k n)
  | unlink {s k n} (ha : σ.alive s = true)
      (hp : σ.phase s = .withdraw k n ∨ σ.phase s = .release k n) :
      Effect jobOf σ (.act s .next) ((σ.setClaim (jobOf s) k n none).setPhase s .idle)
  | rename {s k n} (ha : σ.alive s = true) (hp : σ.phase s = .held k n) :
      Effect jobOf σ (.act s .finish)
        (((σ.setClaim (jobOf s) k n none).setDone k).setPhase s .idle)
  | gone {s k n} (ha : σ.alive s = true) (hp : σ.phase s = .held k n)
      (hc : σ.claims (jobOf s) k n = none) :
      Effect jobOf σ (.act s .finish) (σ.setPhase s (.marking k))
  | mark {s k} (ha : σ.alive s = true) (hp : σ.phase s = .marking k) :
      Effect jobOf σ (.act s .next) ((σ.setDone k).setPhase s .idle)
  | giveUp {s k n} (ha : σ.alive s = true) (hp : σ.phase s = .held k n) :
      Effect jobOf σ (.act s .giveUp) ((σ.setClosed (jobOf s) k).setPhase s (.release k n))
  | die {a s} : Effect jobOf σ a (σ.kill s)
  | expire {j k n c} (hc : σ.claims j k n = some c) :
      Effect jobOf σ (.expire j k n) (σ.setClaim j k n (some { c with stale := true }))

/-- Everything a step can do. -/
theorem step_cases {σ σ' : State Job Shard Key} {a : Action Job Shard Key}
    (h : σ.step jobOf a = some σ') : Effect jobOf σ a σ' := by
  cases a with
  | die s =>
    cases h
    exact .die
  | expire j k n =>
    obtain ⟨c, hc, rfl⟩ := Option.map_eq_some_iff.mp h
    exact .expire hc
  | act s op =>
    simp only [step] at h
    split at h
    case isFalse => cases h
    case isTrue ha =>
      generalize hp : σ.phase s = p at h
      have hmove {p' : Phase Job Key} (hm : Move jobOf σ s p p') :
          Effect jobOf σ (.act s op) (σ.setPhase s p') := .move ha (hp ▸ hm)
      unfold call at h
      split at h
      · cases h
        refine .mkdir ha hp ?_ ?_ <;> split <;> simp_all
      · cases h
        exact .record ha hp
      · cases h
        exact hmove .take
      · split at h
        · cases h
          exact hmove (.see ‹_›)
        · cases h
      · split at h
        · cases h
          exact hmove (.test ‹_›)
        · cases h
      · cases h
        split
        · subst_vars
          exact hmove .none
        · exact hmove .some
      · cases h
        exact hmove .relisted
      · split at h <;> cases h
        · exact hmove .exists
        · next hn => exact .create ha hp (Option.not_isSome_iff_eq_none.mp hn)
      · split at h <;> cases h
        · split
          · exact hmove (.again ‹_› ‹_›)
          · exact hmove (.last ‹_› (by omega))
        · exact hmove .fresh
      · cases h
        exact .close ha hp
      · cases h
        exact hmove .relist
      · cases h
        split
        · exact hmove .graded
        · next hn => exact hmove (.ungraded (Bool.eq_false_iff.mpr hn))
      · split at h <;> cases h
        · exact hmove .backOff
        · next hn =>
          rw [not_or] at hn
          exact .win ha hp (by simpa using hn.1) fun rival hr hlt => hn.2 ⟨rival, hr, hlt⟩
      · split at h <;> cases h
        · exact .unlink ha (.inl hp)
        · exact .die
      · split at h <;> cases h
        · exact .unlink ha (.inr hp)
        · exact .die
      · split at h <;> cases h
        · exact .rename ha hp
        · next hn => exact .gone ha hp (Option.not_isSome_iff_eq_none.mp hn)
      · cases h
        exact .mark ha hp
      · cases h
        exact .giveUp ha hp
      · cases h

end State

/-! ### Files and their owners -/

variable {Job Shard Key : Type*} [LinearOrder Job] [DecidableEq Shard] [DecidableEq Key]
variable {jobOf : Shard → Job} {σ σ' : State Job Shard Key} {a : Action Job Shard Key}
variable {s : Shard} {p : Phase Job Key} {k : Key} {n : ℕ}

set_option linter.unusedSectionVars false

open State

/-- A claim goes stale only when its shard is dead. -/
def Fresh (σ : State Job Shard Key) : Action Job Shard Key → Prop
  | .expire j k n => ∀ c ∈ σ.claims j k n, σ.alive c.owner = false
  | _ => True

instance : ∀ a, Decidable (Fresh σ a)
  | .expire j k n => inferInstanceAs (Decidable (∀ c ∈ σ.claims j k n, σ.alive c.owner = false))
  | .act .. | .die _ => .isTrue trivial

/-- The claim file a shard created and works under, or tries to create: its item and number. -/
def Phase.tried : Phase Job Key → Option (Key × ℕ)
  | .attempt k n | .taken k n => some (k, n)
  | p => p.own

/-- A claim file exists exactly while the shard that created it is in a phase that owns it. -/
structure Owned (jobOf : Shard → Job) (σ : State Job Shard Key) : Prop where
  file : ∀ {s k n}, (σ.phase s).own = some (k, n) → ∃ b, σ.claims (jobOf s) k n = some ⟨s, b⟩
  owner : ∀ {j k n c}, σ.claims j k n = some c →
    jobOf c.owner = j ∧ (σ.phase c.owner).own = some (k, n)

theorem State.Move.own_eq {p' : Phase Job Key} (h : Move jobOf σ s p p') :
    p'.own = p.own := by
  cases h <;> rfl

theorem own_setPhase (hp : p.own = (σ.phase s).own) (t : Shard) :
    ((σ.setPhase s p).phase t).own = (σ.phase t).own := by
  by_cases ht : t = s
  · simp [ht, hp]
  · simp [ht]

theorem own_unlink (hp : σ.phase s = .withdraw k n ∨ σ.phase s = .release k n) :
    (σ.phase s).own = some (k, n) := by
  rcases hp with hp | hp <;> rw [hp] <;> rfl

namespace Owned

/-- Whatever leaves the claim files and their owners as they are. -/
theorem congr (h : Owned jobOf σ) (hc : σ'.claims = σ.claims)
    (hp : ∀ t, (σ'.phase t).own = (σ.phase t).own) : Owned jobOf σ' where
  file := fun ht => hc ▸ h.file (hp _ ▸ ht)
  owner := fun hf => by
    rw [hp]
    exact h.owner (hc ▸ hf)

variable {s : Shard} {k : Key} {n : ℕ}

theorem create (h : Owned jobOf σ) (hs : (σ.phase s).own = none)
    (hc : σ.claims (jobOf s) k n = none) :
    Owned jobOf ((σ.setClaim (jobOf s) k n (some ⟨s, false⟩)).setPhase s (.created k n)) where
  file := by
    intro t k' n' ht
    by_cases hts : t = s
    · subst hts
      simp only [setPhase_phase, if_true, Phase.own, Option.some.injEq, Prod.mk.injEq] at ht
      exact ⟨false, by simp [ht]⟩
    · simp only [setPhase_phase, hts, if_false, setClaim_phase] at ht
      obtain ⟨b, hb⟩ := h.file ht
      refine ⟨b, ?_⟩
      simp only [setPhase_claims, setClaim_claims]
      split
      · simp_all
      · exact hb
  owner := by
    intro j k' n' c hf
    simp only [setPhase_claims, setClaim_claims] at hf
    split at hf
    · cases hf
      simp_all [Phase.own]
    · obtain ⟨hj, ho⟩ := h.owner hf
      refine ⟨hj, ?_⟩
      have hne : c.owner ≠ s := by
        intro he
        simp [he, hs] at ho
      simpa [hne] using ho

theorem remove (h : Owned jobOf σ) (hs : (σ.phase s).own = some (k, n)) :
    Owned jobOf ((σ.setClaim (jobOf s) k n none).setPhase s .idle) where
  file := by
    intro t k' n' ht
    by_cases hts : t = s
    · simp [hts, Phase.own] at ht
    · simp only [setPhase_phase, hts, if_false, setClaim_phase] at ht
      obtain ⟨b, hb⟩ := h.file ht
      obtain ⟨b', hb'⟩ := h.file hs
      refine ⟨b, ?_⟩
      simp only [setPhase_claims, setClaim_claims]
      split
      · next he =>
        obtain ⟨hj, rfl, rfl⟩ := he
        simp_all
      · exact hb
  owner := by
    intro j k' n' c hf
    simp only [setPhase_claims, setClaim_claims] at hf
    split at hf
    · cases hf
    · next hne =>
      obtain ⟨rfl, ho⟩ := h.owner hf
      have hcs : c.owner ≠ s := by
        intro he
        simp_all
      exact ⟨rfl, by simpa [hcs] using ho⟩

theorem expire {j : Job} {c : Claim Shard} (h : Owned jobOf σ) (hc : σ.claims j k n = some c) :
    Owned jobOf (σ.setClaim j k n (some { c with stale := true })) where
  file := by
    intro t k' n' ht
    obtain ⟨b, hb⟩ := h.file ht
    simp only [setClaim_claims]
    split
    · simp_all
    · exact ⟨b, hb⟩
  owner := by
    intro j' k' n' c' hf
    simp only [setClaim_claims] at hf
    split at hf
    · next he =>
      cases hf
      obtain ⟨rfl, rfl, rfl⟩ := he
      exact ⟨(h.owner hc).1, (h.owner hc).2⟩
    · exact h.owner hf

theorem effect (h : Owned jobOf σ) (he : Effect jobOf σ a σ') : Owned jobOf σ' := by
  cases he with
  | move _ hm => exact h.congr rfl (own_setPhase hm.own_eq)
  | mkdir _ hp => exact h.congr rfl (own_setPhase (σ := { σ with dirs := _ }) (by simp [hp, Phase.own]))
  | record => exact h.congr rfl fun _ => rfl
  | create _ hp hc => exact h.create (by simp [hp, Phase.own]) hc
  | close _ hp => exact h.congr rfl (own_setPhase (σ := σ.setClosed _ _) (by simp [hp, Phase.own]))
  | win _ hp => exact h.congr rfl (own_setPhase (by simp [hp, Phase.own]))
  | unlink _ hp => exact h.remove (own_unlink hp)
  | rename _ hp => exact (h.remove (by simp [hp, Phase.own])).congr rfl fun _ => rfl
  | gone _ hp hc =>
    obtain ⟨b, hb⟩ := h.file (by rw [hp]; rfl)
    simp [hc] at hb
  | mark _ hp => exact h.congr rfl (own_setPhase (σ := σ.setDone _) (by simp [hp, Phase.own]))
  | giveUp _ hp => exact h.congr rfl (own_setPhase (σ := σ.setClosed _ _) (by simp [hp, Phase.own]))
  | die => exact h.congr rfl fun _ => rfl
  | expire hc => exact h.expire hc

end Owned

/-! ### Attempts -/

/-- The facts about claim files every reachable state satisfies. -/
structure Inv (jobOf : Shard → Job) (σ : State Job Shard Key) : Prop extends Owned jobOf σ where
  /-- A claim that went stale is a dead shard's. -/
  dead : ∀ {j k n c}, σ.claims j k n = some c → c.stale = true → σ.alive c.owner = false
  /-- A shard that built its queue made its job's directory. -/
  dirs : ∀ {s}, σ.phase s ≠ .new → jobOf s ∈ σ.dirs
  /-- Each attempt is one of `MAX_CLAIMS`, and every claim of an earlier attempt is stale. -/
  earlier : ∀ {s k n}, (σ.phase s).tried = some (k, n) →
    n < maxClaims ∧ ∀ m < n, σ.stale (jobOf s) k m = true

theorem tried_of_own (h : p.own = some (k, n)) :
    p.tried = some (k, n) := by
  cases p <;> first | exact h | cases h

/-- An attempt is the one of before, the first, or the next after a stale claim. -/
theorem tried_effect (he : Effect jobOf σ a σ') {t : Shard} (h : (σ'.phase t).tried = some (k, n)) :
    (σ.phase t).tried = some (k, n) ∨ n = 0 ∨
      ∃ m, n = m + 1 ∧ n < maxClaims ∧ (σ.phase t).tried = some (k, m) ∧
        σ.stale (jobOf t) k m = true := by
  have hkeep {s : Shard} {p : Phase Job Key}
      (hp : t = s → p.tried = some (k, n) → (σ.phase t).tried = some (k, n))
      (h' : (if t = s then p else σ.phase t).tried = some (k, n)) :
      (σ.phase t).tried = some (k, n) := by
    split at h'
    · exact hp ‹_› h'
    · exact h'
  cases he with
  | @move s op p _ hm =>
    by_cases hts : t = s
    · subst hts
      simp only [setPhase_phase, if_true] at h
      generalize σ.phase t = q at hm ⊢
      cases hm with
      | none =>
        cases h
        exact .inr (.inl rfl)
      | again hs hn =>
        cases h
        exact .inr (.inr ⟨_, rfl, hn, rfl, hs⟩)
      | _ => first | exact .inl h | cases h
    · exact .inl (by simpa [hts] using h)
  | mkdir _ hp => exact .inl (hkeep (by simp [Phase.tried, Phase.own]) h)
  | record => exact .inl h
  | create _ hp => exact .inl (hkeep (by rintro rfl; simp [hp, Phase.tried, Phase.own]) h)
  | close _ hp => exact .inl (hkeep (by simp [Phase.tried, Phase.own]) h)
  | win _ hp => exact .inl (hkeep (by rintro rfl; simp [hp, Phase.tried, Phase.own]) h)
  | unlink | rename | gone | mark => exact .inl (hkeep (by simp [Phase.tried, Phase.own]) h)
  | giveUp _ hp => exact .inl (hkeep (by rintro rfl; simp [hp, Phase.tried, Phase.own]) h)
  | die => exact .inl h
  | expire => exact .inl h

namespace Inv

theorem init (done₀ : Key → Bool) : Inv jobOf (init Job Shard done₀) where
  file := by simp [Claims.init, Phase.own]
  owner := by simp [Claims.init]
  dead := by simp [Claims.init]
  dirs := by simp [Claims.init]
  earlier := by simp [Claims.init, Phase.tried, Phase.own]

variable {s : Shard} {k : Key} {n : ℕ} {j : Job}

/-- A live shard's own claim is not stale. -/
theorem file_live (h : Inv jobOf σ) (ha : σ.alive s = true) (hs : (σ.phase s).own = some (k, n)) :
    σ.claims (jobOf s) k n = some ⟨s, false⟩ := by
  obtain ⟨b, hb⟩ := h.file hs
  cases b with
  | false => exact hb
  | true =>
    have := h.dead hb rfl
    simp_all

/-- A stale claim stays: its dead shard does not remove it and no other shard replaces it. -/
theorem stale_effect (h : Inv jobOf σ) (he : Effect jobOf σ a σ') (hs : σ.stale j k n = true) :
    σ'.stale j k n = true := by
  have hremove {s : Shard} {k' : Key} {n' : ℕ} (ha : σ.alive s = true)
      (ho : (σ.phase s).own = some (k', n')) : ¬ (j = jobOf s ∧ k = k' ∧ n = n') := by
    rintro ⟨rfl, rfl, rfl⟩
    simp [State.stale, h.file_live ha ho] at hs
  cases he with
  | create _ _ hc =>
    simp only [State.stale, setPhase_claims, setClaim_claims]
    split
    · simp_all [State.stale]
    · exact hs
  | unlink ha hp =>
    have := hremove ha (own_unlink hp)
    simpa [State.stale, this] using hs
  | rename ha hp =>
    have := hremove ha (by rw [hp]; rfl)
    simpa [State.stale, this] using hs
  | expire hc =>
    simp only [State.stale, setClaim_claims]
    split
    · rfl
    · exact hs
  | _ => exact hs

/-- Nobody comes back to life. -/
theorem alive_effect (he : Effect jobOf σ a σ') (hs : σ.alive s = false) :
    σ'.alive s = false := by
  cases he with
  | die => simp [hs]
  | _ => exact hs

theorem dead_effect (h : Inv jobOf σ) (hf : Fresh σ a) (he : Effect jobOf σ a σ') {c : Claim Shard}
    (hc : σ'.claims j k n = some c) (hs : c.stale = true) :
    σ'.alive c.owner = false := by
  refine alive_effect he ?_
  cases he with
  | create =>
    simp only [setPhase_claims, setClaim_claims] at hc
    split at hc
    · cases hc
      cases hs
    · exact h.dead hc hs
  | unlink | rename =>
    simp only [setPhase_claims, setDone_claims, setClaim_claims] at hc
    split at hc
    · cases hc
    · exact h.dead hc hs
  | expire hc' =>
    simp only [setClaim_claims] at hc
    split at hc
    · cases hc
      have hd := hf _ hc'
      exact hd
    · exact h.dead hc hs
  | _ => exact h.dead hc hs

theorem dirs_effect (h : Inv jobOf σ) (he : Effect jobOf σ a σ') {t : Shard}
    (ht : σ'.phase t ≠ .new) : jobOf t ∈ σ'.dirs := by
  have hkeep {s : Shard} {p : Phase Job Key} (hp : σ.phase s ≠ .new)
      (h' : (if t = s then p else σ.phase t) ≠ .new) : jobOf t ∈ σ.dirs := by
    by_cases hts : t = s
    · exact h.dirs (hts ▸ hp)
    · exact h.dirs (by simpa [hts] using h')
  cases he with
  | move _ hm =>
    refine hkeep ?_ ht
    intro hn
    rw [hn] at hm
    cases hm
  | @mkdir s _ _ _ _ hs hd =>
    by_cases hts : t = s
    · exact hts ▸ hs
    · exact hd (h.dirs (by simpa [hts] using ht))
  | unlink _ hp => exact hkeep (by rcases hp with hp | hp <;> simp [hp]) ht
  | record | die | expire => exact h.dirs ht
  | create _ hp | close _ hp | win _ hp | rename _ hp | gone _ hp | mark _ hp | giveUp _ hp =>
    exact hkeep (by simp [hp]) ht

theorem effect (h : Inv jobOf σ) (hf : Fresh σ a) (he : Effect jobOf σ a σ') : Inv jobOf σ' where
  toOwned := h.toOwned.effect he
  dead := h.dead_effect hf he
  dirs := h.dirs_effect he
  earlier := by
    intro t k n ht
    rcases tried_effect he ht with hold | rfl | ⟨m, rfl, hn, hm, hstale⟩
    · obtain ⟨hn, hprev⟩ := h.earlier hold
      exact ⟨hn, fun m hm => h.stale_effect he (hprev m hm)⟩
    · exact ⟨by decide, by omega⟩
    · refine ⟨hn, fun i hi => h.stale_effect he ?_⟩
      rcases Nat.lt_succ_iff_lt_or_eq.mp hi with hlt | rfl
      · exact (h.earlier hm).2 i hlt
      · exact hstale

/-- **The claim files of every reachable state.** -/
theorem of_reach {done₀ : Key → Bool} (h : Reach (State.step jobOf) Fresh (Claims.init Job Shard done₀) σ) :
    Inv jobOf σ :=
  h.invariant (init done₀) fun _ _ _ hi hf hs => hi.effect hf (step_cases hs)

end Inv

end Claims

end HpcAgentBench
