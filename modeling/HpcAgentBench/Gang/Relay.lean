import HpcAgentBench.Lib.Lts
import Mathlib.Data.List.Sort

/-!
# Gang launches and the host-side relay

A judge starts the ranks of one launch through a relay on the batch host: `mpi_gang.main` takes the
gang's lock, `relay_call` hands the request over as `<id>.req` and waits for `<id>.rc`, and the
relay's passes (`gang_relay.step`) claim requests, start their steps, reap or kill them and write
the answers.  A launch and the relay each move one file operation at a time; the clock, the steps'
own ends, signals to a launch and failing file operations are the environment's actions.

Times are in milliseconds.

## Main definitions

* `State.step` : one action of the launches, the relay or the environment.
* `State.Pending` : the request of a launch is still to be claimed, being started, or its step runs.
-/

namespace HpcAgentBench

namespace Gang

open Lts

/-- `HEARTBEAT_S` of both sides. -/
def heartbeat : ℕ := 300000
/-- `STALL_S` of both sides. -/
def stall : ℕ := 10000
/-- `RC_WAIT_SLACK_S`. -/
def rcWaitSlack : ℕ := 120000
/-- `RELAY_FAULT_EXIT`. -/
def relayFaultExit : ℤ := 75

/-- Why a launch raises `RelayFault` without an answer. -/
inductive Fault
  /-- The relay's heartbeat is stale or missing. -/
  | notRunning
  /-- The relay did not finish the launch within its timeout and slack. -/
  | unfinished
  deriving DecidableEq, Repr

/-- Where a launch is in `main` and `relay_call`. -/
inductive Launch
  /-- Not started, or waiting for the gang's lock. -/
  | new
  /-- Holds the lock. -/
  | locked
  /-- Touched its heartbeat and wrote the request aside. -/
  | staged
  /-- Handed the request over: about to look for the answer. -/
  | waiting (since last deadline : ℕ)
  /-- Found no answer: about to look at the relay's heartbeat and the deadline. -/
  | watching (since last deadline : ℕ)
  /-- Raised `RelayFault` without an answer. -/
  | gaveUp (fault : Fault)
  /-- Found the answer: about to read it and remove the files. -/
  | collecting
  /-- About to return. -/
  | leaving (status : ℤ)
  | exited
  deriving DecidableEq, Repr

namespace Launch

/-- The launch holds its gang's lock. -/
def locks : Launch → Bool
  | new | exited => false
  | _ => true

/-- The launch has not handed its request over. -/
def unsent : Launch → Bool
  | new | locked | staged => true
  | _ => false

/-- The launch gave up without an answer. -/
def isGaveUp : Launch → Bool
  | gaveUp _ => true
  | _ => false

/-- The launch handed its request over and has seen no answer. -/
def handed : Launch → Bool
  | waiting .. | watching .. | gaveUp _ => true
  | _ => false

end Launch

/-- The files of one request; a file without content of interest by its modification time. -/
structure Files where
  req : Option ℕ
  run : Option ℕ
  alive : Option ℕ
  rc : Option ℤ
  cancel : Bool
  stale : Bool
  deriving DecidableEq, Repr

def Files.none : Files := ⟨.none, .none, .none, .none, false, false⟩

/-- The step of a request, as the relay's client process and the ranks it started. -/
inductive Step
  | unstarted
  | running
  /-- The client ended with `rc`; `ranks` says whether ranks it started outlive it. -/
  | ended (rc : ℤ) (ranks : Bool)
  deriving DecidableEq, Repr

/-- Ranks of the step are running. -/
def Step.active : Step → Bool
  | .unstarted => false
  | .running => true
  | .ended _ ranks => ranks

/-- `Popen.poll()` of a started step. -/
def Step.poll : Step → Option ℤ
  | .ended rc _ => some rc
  | _ => none

/-- Where the relay is in a pass. -/
inductive Relay (L : Type*)
  /-- Between passes. -/
  | idle
  /-- About to list the directory. -/
  | scanning
  /-- Going through the names it listed. -/
  | listing (todo : List L)
  /-- Claimed a request: about to start its step. -/
  | starting (l : L) (todo : List L)
  /-- The step could not start: about to answer 127. -/
  | refusing (l : L) (todo : List L)
  /-- Published its heartbeat at `now`, going through the running steps. -/
  | reaping (now : ℕ) (todo : List L)
  /-- In `kill`. -/
  | killing (l : L) (now : ℕ) (todo : List L)
  /-- About to write the answer of an ended step. -/
  | finishing (l : L) (rc : ℤ) (now : ℕ) (todo : List L)
  deriving DecidableEq, Repr

namespace Relay

variable {L : Type*}

/-- The request the relay claimed and is about to start. -/
def starting? : Relay L → Option L
  | starting l _ => some l
  | _ => none

/-- The request the relay claimed and has not started. -/
def claimed? : Relay L → Option L
  | starting l _ | refusing l _ => some l
  | _ => none

/-- The steps the relay still has to look at in this pass. -/
def steps : Relay L → List L
  | reaping _ todo => todo
  | killing l _ todo | finishing l _ _ todo => l :: todo
  | _ => []

/-- The request whose answer the relay is about to write. -/
def finishing? : Relay L → Option L
  | finishing l .. => some l
  | _ => none

end Relay

/-- What comes of `subprocess.Popen`. -/
inductive Started
  /-- The step runs and is in the running table. -/
  | tracked
  /-- The step runs, but closing its output files fails and the pass is lost. -/
  | untracked
  /-- `OSError` or a malformed request. -/
  | refused
  deriving DecidableEq, Repr

inductive Action (L : Type*)
  /-- The next file operation of a launch. -/
  | launch (l : L)
  /-- `SIGTERM` to a launch, which `mpi_call` sends at its timeout. -/
  | term (l : L)
  /-- `SIGKILL` to a launch. -/
  | kill (l : L)
  /-- The next file operation of the relay. -/
  | relay
  | start (outcome : Started)
  /-- `claim` finds the request taken, or its rename fails. -/
  | skip
  /-- The relay's `kill` returns; `ranks` says whether the ranks outlive the client. -/
  | killed (rc : ℤ) (ranks : Bool)
  /-- A file operation of the relay raises `OSError`, and the pass is lost. -/
  | abort
  /-- A step ends by itself. -/
  | exit (l : L) (rc : ℤ)
  /-- Time passes. -/
  | wait (d : ℕ)

/-- The launches `L` of gangs `G`, the request directory, the relay and the clock. -/
structure State (G L : Type*) where
  now : ℕ
  /-- The holder of a gang's lock file. -/
  lock : G → Option L
  launch : L → Launch
  files : L → Files
  /-- The requests handed over so far, whose names a listing may show. -/
  known : List L
  relay : Relay L
  /-- The relay's table of running steps, in the order they were started. -/
  running : List L
  step : L → Step
  /-- `relay.alive`. -/
  relayAlive : Option ℕ
  watchingSince : ℕ
  /-- The end of the relay's last pass. -/
  last : ℕ

/-- From when a watcher counts the other side's silence: a gap of `STALL_S` between two of its own
rounds means it was stalled itself. -/
def resumed (now last since : ℕ) : ℕ := if stall < now - last then now else since

/-- `relay_is_stale`. -/
def relayIsStale (relayAlive : Option ℕ) (now since : ℕ) : Bool :=
  heartbeat < now - max (relayAlive.getD since) since

/-- `stale`: the launch behind a running step stopped touching its heartbeat. -/
def stale (f : Files) (now watchingSince : ℕ) : Bool :=
  match f.alive, f.run with
  | some beat, _ | none, some beat => heartbeat < now - max beat watchingSince
  | none, none => true

/-- `finish`: the exit status as the answer shows it. -/
def exitStatus (rc : ℤ) : ℤ := if rc < 0 then 128 - rc else rc

namespace State

variable {G L : Type*} [DecidableEq G] [LinearOrder L]

@[simps] def setLaunch (σ : State G L) (l : L) (p : Launch) : State G L :=
  { σ with launch := fun l' => if l' = l then p else σ.launch l' }

@[simps] def setFiles (σ : State G L) (l : L) (f : Files) : State G L :=
  { σ with files := fun l' => if l' = l then f else σ.files l' }

@[simps] def setStep (σ : State G L) (l : L) (s : Step) : State G L :=
  { σ with step := fun l' => if l' = l then s else σ.step l' }

@[simps] def setLock (σ : State G L) (g : G) (holder : Option L) : State G L :=
  { σ with lock := fun g' => if g' = g then holder else σ.lock g' }

@[simps] def setRelay (σ : State G L) (r : Relay L) : State G L := { σ with relay := r }

/-- The end of a pass. -/
@[simps] def endPass (σ : State G L) : State G L := { σ with relay := .idle, last := σ.now }

/-- The requests a listing of the directory shows now, in name order. -/
def listed (σ : State G L) : List L :=
  (σ.known.filter fun l => (σ.files l).req.isSome).insertionSort (· ≤ ·)

variable (gangOf : L → G) (timeout : L → ℕ) (placed : L → Bool)

/-- The process of launch `l` ends, and its lock with it. -/
def leave (σ : State G L) (l : L) : State G L :=
  let σ := σ.setLaunch l .exited
  if σ.lock (gangOf l) = some l then σ.setLock (gangOf l) none else σ

/-- The next operation of launch `l`.  `placed` says whether `srun_argv` accepts the launch, and
`timeout` is its `launch_timeout`. -/
def launchStep (σ : State G L) (l : L) : Option (State G L) :=
  match σ.launch l with
  | .new =>
    match σ.lock (gangOf l) with
    | none => some ((σ.setLock (gangOf l) (some l)).setLaunch l .locked)
    | some _ => none
  | .locked =>
    -- `srun_argv` raises before anything is written
    if placed l then
      some ((σ.setFiles l { σ.files l with alive := some σ.now }).setLaunch l .staged)
    else some (σ.leave gangOf l)
  | .staged =>
    let σ := { σ with known := l :: σ.known }.setFiles l { σ.files l with req := some σ.now }
    some (σ.setLaunch l (.waiting σ.now σ.now (σ.now + timeout l + rcWaitSlack)))
  | .waiting since last deadline =>
    some (σ.setLaunch l
      (if (σ.files l).rc.isSome then .collecting else .watching since last deadline))
  | .watching since last deadline =>
    let since := resumed σ.now last since
    if relayIsStale σ.relayAlive σ.now since then some (σ.setLaunch l (.gaveUp .notRunning))
    else if deadline < σ.now then some (σ.setLaunch l (.gaveUp .unfinished))
    else
      some ((σ.setFiles l { σ.files l with alive := some σ.now }).setLaunch l
        (.waiting since σ.now deadline))
  | .gaveUp _ => some (σ.leave gangOf l)
  | .collecting =>
    let rc := (σ.files l).rc.getD 1
    -- the answer of a step the relay cancelled is a relay fault too
    let status := if (σ.files l).stale then relayFaultExit else rc
    some ((σ.setFiles l { Files.none with req := (σ.files l).req }).setLaunch l (.leaving status))
  | .leaving _ => some (σ.leave gangOf l)
  | .exited => none

/-- The next operation of the relay, where nothing is left to choose. -/
def relayStep (σ : State G L) : Option (State G L) :=
  match σ.relay with
  | .idle =>
    let watchingSince := resumed σ.now σ.last σ.watchingSince
    some ({ σ with watchingSince }.setRelay .scanning)
  | .scanning => some (σ.setRelay (.listing σ.listed))
  | .listing [] =>
    some ({ σ with relayAlive := some σ.now }.setRelay (.reaping σ.now σ.running))
  | .listing (l :: todo) =>
    match (σ.files l).req with
    | none => some (σ.setRelay (.listing todo))
    | some mtime =>
      some ((σ.setFiles l { σ.files l with req := none, run := some mtime }).setRelay
        (.starting l todo))
  | .starting _ _ => none
  | .refusing l todo =>
    some ((σ.setFiles l { σ.files l with rc := some 127 }).setRelay (.listing todo))
  | .reaping _ [] => some σ.endPass
  | .reaping now (l :: todo) =>
    match (σ.step l).poll with
    | some rc => some (σ.setRelay (.finishing l rc now todo))
    | none =>
      if (σ.files l).cancel then some (σ.setRelay (.killing l now todo))
      else if Gang.stale (σ.files l) now σ.watchingSince then
        some ((σ.setFiles l { σ.files l with stale := true }).setRelay (.killing l now todo))
      else some (σ.setRelay (.reaping now todo))
  | .killing .. => none
  | .finishing l rc now todo =>
    some ({ σ with running := σ.running.erase l }.setFiles l
      { σ.files l with rc := some (exitStatus rc) } |>.setRelay (.reaping now todo))

/-- One action. -/
def next (σ : State G L) : Action L → Option (State G L)
  | .launch l => σ.launchStep gangOf timeout placed l
  | .term l =>
    match σ.launch l with
    -- the handler is installed once the lock is held
    | .new => some (σ.setLaunch l .exited)
    | .exited => none
    | _ => some (σ.setFiles l { σ.files l with cancel := true })
  | .kill l => some (σ.leave gangOf l)
  | .relay => σ.relayStep
  | .start outcome =>
    match σ.relay with
    | .starting l todo =>
      match outcome with
      | .tracked =>
        some ({ σ with running := σ.running ++ [l] }.setStep l .running |>.setRelay (.listing todo))
      | .untracked => some (σ.setStep l .running).endPass
      | .refused => some (σ.setRelay (.refusing l todo))
    | _ => none
  | .skip =>
    match σ.relay with
    | .listing (_ :: todo) => some (σ.setRelay (.listing todo))
    | _ => none
  | .killed rc ranks =>
    match σ.relay with
    | .killing l now todo =>
      match σ.step l with
      | .ended rc' _ => some (σ.setRelay (.finishing l rc' now todo))
      | _ => some ((σ.setStep l (.ended rc ranks)).setRelay (.finishing l rc now todo))
    | _ => none
  | .abort =>
    match σ.relay with
    | .idle | .killing .. => none
    | _ => some σ.endPass
  | .exit l rc =>
    match σ.step l with
    | .running => some (σ.setStep l (.ended rc false))
    | _ => none
  | .wait d => some { σ with now := σ.now + d }

/-- The request of `l` is still to be claimed, its step is being started, or it is running. -/
def Pending (σ : State G L) (l : L) : Prop :=
  (σ.files l).req.isSome = true ∨ σ.relay.starting? = some l ∨ (σ.step l).active = true

instance (σ : State G L) (l : L) : Decidable (σ.Pending l) :=
  inferInstanceAs (Decidable ((σ.files l).req.isSome = true ∨ σ.relay.starting? = some l ∨
    (σ.step l).active = true))

end State

/-- No launch has begun and the relay is between two passes. -/
def start (G L : Type*) : State G L where
  now := 0
  lock := fun _ => none
  launch := fun _ => .new
  files := fun _ => .none
  known := []
  relay := .idle
  running := []
  step := fun _ => .unstarted
  relayAlive := none
  watchingSince := 0
  last := 0

end Gang

end HpcAgentBench
