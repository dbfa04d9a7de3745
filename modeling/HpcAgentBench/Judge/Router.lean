import HpcAgentBench.Lib.Lts
import HpcAgentBench.Lib.Python
import Mathlib.Data.Finset.Basic

/-!
# The judge router's terminal grade

`POST /submit` of the router (`terminal_grade`).  Under single submission the router reserves the
`(episode_id, kernel)` key of a request before it forwards the request to the judge, and discards
the key again when the answer says that nothing was graded.  The handler runs on one event loop
and waits at one point only, for the judge's answer: what comes before (`receive`) and after
(`settle`) are single steps, and any number of requests wait at a time.

What the router reads from its environment (tokens, setup contracts, configuration) and how an
answer's bytes are validated are the fields of `Env`.

## Main results

* `settle_spent` : an answer keeps the key exactly if the reply it makes spends the submission.
* `Reserved`, `reserved` : a key is spent exactly while one request for it waits, or once one was
  answered by a reply that spends.
* `single_submission` : at most one verdict a key, and a key nothing was graded for is free again.
-/

namespace HpcAgentBench

open Option

namespace Judge

open Lts

/-- `kernel_stem`: the last `/` segment of a kernel key. -/
def kernelStem (key : String) : String :=
  String.ofList (key.toList.reverse.takeWhile (· ≠ '/')).reverse

/-- A setup's submission mode. -/
inductive SubmissionMode
  | multi | single | blind
  deriving DecidableEq, Repr

namespace SubmissionMode

def text : SubmissionMode → String
  | multi => "multi" | single => "single" | blind => "blind"

/-- `single_submission`: the first graded `/submit` ends the episode. -/
def singleSubmission (mode : SubmissionMode) : Bool := mode ≠ multi

/-- `SubmissionMode.parse`. -/
def parse? (name : String) : Option SubmissionMode := [multi, single, blind].find? (·.text = name)

end SubmissionMode

/-- `service.submit_grading`. -/
inductive SubmitGrading
  | inline | deferred
  deriving DecidableEq, Repr

namespace SubmitGrading

def text : SubmitGrading → String
  | inline => "inline" | deferred => "deferred"

/-- `SubmitGrading.parse`. -/
def parse? (name : String) : Option SubmitGrading := [inline, deferred].find? (·.text = name)

end SubmitGrading

/-- A judge's verdict as an agent reads it. -/
inductive Correct
  | yes | no | deferred
  deriving DecidableEq, Repr

/-- `Correct.of`. -/
def Correct.of (correct : Bool) : Correct := if correct then yes else no

/-- `SubmitVerdict`: what `/submit` tells the agent. -/
structure SubmitVerdict where
  correct : Correct
  requestId : String
  buildLog : Option String
  judgeFault : Option Bool
  deriving DecidableEq, Repr

/-- The fields of a whole grade that its verdict is made of. -/
structure GradeAnswer where
  correct : Bool
  buildOk : Bool
  detail : String
  harnessFault : Bool
  requestId : String
  deriving DecidableEq, Repr

/-- `SUBMIT_ANSWER`: a `/submit` answer is the verdict or the whole grade. -/
inductive SubmitAnswer
  | verdict (v : SubmitVerdict)
  | grade (g : GradeAnswer)
  deriving DecidableEq, Repr

/-- `submit_verdict`. -/
def submitVerdict (result : GradeAnswer) : SubmitVerdict where
  correct := Correct.of result.correct
  requestId := result.requestId
  buildLog := if result.buildOk then none else some result.detail
  judgeFault := if result.harnessFault then some true else none

/-- `verdict_of`. -/
def verdictOf : SubmitAnswer → SubmitVerdict
  | .verdict v => v
  | .grade g => submitVerdict g

/-- `JudgeError`: why a request was refused or failed. -/
structure JudgeError where
  error : String
  cause : Option String
  ok : Option Bool
  deriving DecidableEq, Repr

/-! ### Status codes and causes -/

def badRequest : ℕ := 400
def conflict : ℕ := 409
def internalServerError : ℕ := 500
def badGateway : ℕ := 502
/-- `SUBMISSION_SPENT`: a second terminal grade under single submission. -/
def submissionSpentStatus : ℕ := conflict
/-- `JUDGE_UNREACHABLE`. -/
def judgeUnreachable : ℕ := 503
/-- `JUDGE_UNREACHABLE_CAUSE`. -/
def judgeUnreachableCause : String := "judge_unreachable"
/-- `EPISODE_ID_MISSING`. -/
def episodeIdMissing : ℕ := badRequest
/-- `JUDGE_FAULT_CAUSE`. -/
def judgeFaultCause : String := "judge_fault"
/-- `SPENT_AT_JUDGE`. -/
def spentAtJudge : String := "single_submission_spent"

/-- `(episode_id, kernel)`. -/
abbrev Key : Type := String × String

/-- The two fields of a JSON object body the router reads, each as `str(value or "")`. -/
structure Body where
  episodeId : String
  kernel : String
  deriving DecidableEq, Repr

/-- A request: its body, when that is a JSON object, and everything else about it. -/
structure Request (Caller : Type*) where
  body : Option Body
  caller : Caller

/-- What the upstream judge makes of a forwarded request. -/
inductive Upstream (Content : Type*)
  | response (status : ℕ) (content : Content)
  /-- `httpx.ConnectError`, `httpx.ConnectTimeout`: never reached. -/
  | unreachable (exc : String)
  /-- Any other `httpx.HTTPError`, with its type's name. -/
  | httpError (name exc : String)
  /-- Any other exception. -/
  | raised

/-- The detail of an `HTTPException`: a text, with a cause where the router names one. -/
structure Detail where
  cause : Option String
  error : String
  deriving DecidableEq, Repr

/-- What the router answers. -/
inductive Reply (Content : Type*)
  | json (status : ℕ) (error : JudgeError)
  /-- An `HTTPException` with its detail. -/
  | http (status : ℕ) (detail : Detail)
  | relay (status : ℕ) (content : Content)
  | verdict (v : SubmitVerdict)
  /-- Any other exception: the framework's 500. -/
  | crashed

/-- What the router reads outside a request, and the answer models it validates with. -/
structure Env (Caller Setup Content : Type*) where
  /-- `caller_setup`: the request's setup, or the refusal of a caller that proves none. -/
  callerSetup : Request Caller → Except (ℕ × Detail) Setup
  /-- `contract_value`. -/
  contractValue : Setup → String → String
  /-- `config.current().service.submit_grading`. -/
  submitGrading : SubmitGrading
  /-- `repr` of a `str`. -/
  repr : String → String
  upstreamUrl : String
  /-- `JudgeError.model_validate_json`. -/
  judgeError : Content → Option JudgeError
  /-- `SUBMIT_ANSWER.validate_json`. -/
  submitAnswer : Content → Option SubmitAnswer

namespace Env

variable {Caller Setup Content : Type*} (env : Env Caller Setup Content)

/-- `caller_mode`; the exception is `SystemExit`. -/
def callerMode (setup : Setup) : Option SubmissionMode :=
  let name := strip (env.contractValue setup "AGENT_SUBMISSION_MODE")
  SubmissionMode.parse? (if name = "" then SubmissionMode.multi.text else name)

/-- `submission_key`, or `none` where it raises. -/
def submissionKey (setup : Setup) (body : Option Body) : Option (Option Key) :=
  (env.callerMode setup).map fun mode =>
    if mode.singleSubmission then
      body.map fun parsed => (strip parsed.episodeId, kernelStem (strip parsed.kernel))
    else none

/-- `deferred` of a request with a key, or `none` where it raises. -/
def deferred (setup : Setup) : Option Bool :=
  let named := env.contractValue setup "HPCAGENT_BENCH_SERVICE_SUBMIT_GRADING"
  (if named = "" then some env.submitGrading else SubmitGrading.parse? named).map
    (· = SubmitGrading.deferred)

/-- `submission_spent`. -/
def submissionSpent (key : Key) : JudgeError where
  error := "single-submission mode: " ++ env.repr key.2 ++ " was already submitted for this run " ++
    "and its grade is final. Nothing was graded or recorded; this episode is over."
  cause := some spentAtJudge
  ok := some false

end Env

/-- `episode_id_refusal`. -/
def episodeIdRefusal (body : Option Body) : Option JudgeError :=
  match body with
  | none => none
  | some parsed =>
    if strip parsed.episodeId = "" then
      some {
        error := "no episode_id in the body: add \"episode_id\": \"$HPCAGENT_BENCH_EPISODE_ID\" " ++
          "(and \"optimizer\": \"$HPCAGENT_BENCH_OPTIMIZER\"), then send it again. Nothing was " ++
          "graded or recorded, and this refusal does not use up your submission."
        cause := some "episode_id_missing"
        ok := some false }
    else none

/-- `graded_nothing`: an upstream status that means no grade exists. -/
def gradedNothing (status : ℕ) : Bool :=
  (badRequest ≤ status && status < internalServerError) || status = judgeUnreachable

/-- `SPENT_SUBMISSIONS.discard(key)`, where the request has a key. -/
def discard (key : Option Key) (spent : Finset Key) : Finset Key :=
  match key with
  | none => spent
  | some key => spent.erase key

/-- Where a request is. -/
inductive Phase (Content : Type*)
  | new
  /-- Forwarded, with the key it reserved and whether it is queued for the post-run grade. -/
  | waiting (key : Option Key) (defer : Bool)
  | answered (reply : Reply Content)

namespace Env

variable {Caller Setup Content : Type*} (env : Env Caller Setup Content)

/-- `judge_failed`: a 500 naming the judge's own failure. -/
def judgeFailed (status : ℕ) (content : Content) : Bool :=
  status = internalServerError &&
    (env.judgeError content).any fun e => e.cause = some judgeFaultCause

/-- `forward`: the upstream response, or the `HTTPException` it raises. -/
def forward : Upstream Content → Except (Reply Content) (ℕ × Content)
  | .response status content => .ok (status, content)
  | .unreachable exc => .error (.http judgeUnreachable {
      cause := some judgeUnreachableCause
      error := "judge upstream " ++ env.upstreamUrl ++ "/submit was never reached (" ++ exc ++
        "). Nothing was graded or recorded, and this does not use up your submission: send it " ++
        "again." })
  | .httpError name exc => .error (.http badGateway {
      cause := none
      error := "judge upstream " ++ env.upstreamUrl ++ "/submit failed: " ++ name ++ ": " ++ exc })
  | .raised => .error .crashed

/-- `terminal_grade` up to the judge's answer: what becomes of the spent keys and the request. -/
def receive (spent : Finset Key) (request : Request Caller) : Finset Key × Phase Content :=
  match episodeIdRefusal request.body with
  | some refused => (spent, .answered (.json episodeIdMissing refused))
  | none =>
    match env.callerSetup request with
    | .error (status, detail) => (spent, .answered (.http status detail))
    | .ok setup =>
      match env.submissionKey setup request.body with
      | none => (spent, .answered .crashed)
      | some none => (spent, .waiting none false)
      | some (some key) =>
        if key ∈ spent then
          (spent, .answered (.json submissionSpentStatus (env.submissionSpent key)))
        else
          match env.deferred setup with
          -- the key is reserved before the setup's grading mode is read
          | none => (insert key spent, .answered .crashed)
          | some defer => (insert key spent, .waiting (some key) defer)

/-- `terminal_grade` from the judge's answer on. -/
def settle (spent : Finset Key) (key : Option Key) (upstream : Upstream Content) :
    Finset Key × Reply Content :=
  match env.forward upstream with
  | .error (.http status detail) =>
    (if gradedNothing status then discard key spent else spent, .http status detail)
  | .error reply => (spent, reply)
  | .ok (status, content) =>
    let spent :=
      if gradedNothing status || env.judgeFailed status content then discard key spent else spent
    if status ≠ 200 then (spent, .relay status content)
    else
      match env.submitAnswer content with
      | none => (spent, .crashed)
      | some graded =>
        let verdict := verdictOf graded
        (if verdict.judgeFault = some true then discard key spent else spent, .verdict verdict)

/-- The key a request spends when it is forwarded. -/
def keyOf (request : Request Caller) : Option Key :=
  match env.callerSetup request with
  | .error _ => none
  | .ok setup => (env.submissionKey setup request.body).join

/-- An upstream answer after which nothing is graded: a refusal, an unreachable judge, or the
judge's own fault. -/
def nothingGraded : Upstream Content → Bool
  | .unreachable _ => true
  | .response status content =>
    gradedNothing status || env.judgeFailed status content ||
      (status = 200 && (env.submitAnswer content).any fun a => (verdictOf a).judgeFault = some true)
  | .httpError .. | .raised => false

end Env

variable {Caller Setup Content : Type*} (env : Env Caller Setup Content)

/-- A reply after which the submission counts as spent. -/
def Reply.spends : Reply Content → Bool
  | .json .. => false
  | .http status _ => !gradedNothing status
  | .relay status content => !(gradedNothing status || env.judgeFailed status content)
  | .verdict v => v.judgeFault ≠ some true
  | .crashed => true

/-- A request that keeps its key: it waits, or its reply spends the submission. -/
def Phase.holds : Phase Content → Bool
  | .new => false
  | .waiting .. => true
  | .answered reply => reply.spends env

/-! ### One request -/

variable {env}

variable (env) in
/-- What comes before the judge's answer: the request is answered without spending anything, it is
forwarded without a key, or it reserves its key, which was free. -/
theorem receive_cases (spent : Finset Key) (request : Request Caller) :
    ((env.receive spent request).1 = spent ∧ ∃ reply,
      (env.receive spent request).2 = .answered reply ∧
        (env.keyOf request = none ∨ reply.spends env = false)) ∨
    (env.receive spent request = (spent, .waiting none false) ∧ env.keyOf request = none) ∨
    ∃ key ∉ spent, env.keyOf request = some key ∧
      (env.receive spent request).1 = insert key spent ∧
      ((env.receive spent request).2 = .answered .crashed ∨
        ∃ defer, (env.receive spent request).2 = .waiting (some key) defer) := by
  unfold Env.receive Env.keyOf
  cases episodeIdRefusal request.body with
  | some refused => exact .inl ⟨rfl, .json episodeIdMissing refused, rfl, .inr rfl⟩
  | none =>
    cases env.callerSetup request with
    | error refusal => exact .inl ⟨rfl, .http refusal.1 refusal.2, rfl, .inl rfl⟩
    | ok setup =>
      dsimp only
      generalize env.submissionKey setup request.body = named
      cases named with
      | none => exact .inl ⟨rfl, .crashed, rfl, .inl rfl⟩
      | some key =>
        cases key with
        | none => exact .inr (.inl ⟨rfl, rfl⟩)
        | some key =>
          by_cases hkey : key ∈ spent
          · refine .inl ⟨by simp [hkey], .json submissionSpentStatus (env.submissionSpent key), ?_⟩
            exact ⟨by simp [hkey], .inr rfl⟩
          · refine .inr (.inr ⟨key, hkey, rfl, ?_⟩)
            simp only [hkey, if_false]
            generalize env.deferred setup = grading
            cases grading with
            | none => exact ⟨rfl, .inl rfl⟩
            | some defer => exact ⟨rfl, .inr ⟨defer, rfl⟩⟩

/-- **The answer decides the key once**: it is kept if the reply spends the submission and
discarded otherwise. -/
theorem settle_spent (spent : Finset Key) (key : Option Key) (upstream : Upstream Content) :
    (env.settle spent key upstream).1 =
      if (env.settle spent key upstream).2.spends env then spent else discard key spent := by
  unfold Env.settle
  cases upstream with
  | raised => rfl
  | unreachable exc => rfl
  | httpError name exc => rfl
  | response status content =>
    simp only [Env.forward]
    by_cases hstatus : status = 200
    · subst hstatus
      have hn : (gradedNothing 200 || env.judgeFailed 200 content) = false := by
        simp [gradedNothing, Env.judgeFailed, badRequest, internalServerError, judgeUnreachable]
      simp only [hn]
      cases env.submitAnswer content with
      | none => rfl
      | some graded =>
        by_cases hfault : (verdictOf graded).judgeFault = some true
        · simp [hfault, Reply.spends]
        · simp [hfault, Reply.spends]
    · simp only [ne_eq, hstatus, not_false_eq_true, if_true, Reply.spends]
      cases gradedNothing status || env.judgeFailed status content <;> rfl

/-- A reply to an answer that graded nothing spends nothing. -/
theorem settle_of_nothingGraded {upstream : Upstream Content}
    (h : env.nothingGraded upstream = true) (spent : Finset Key) (key : Option Key) :
    (env.settle spent key upstream).2.spends env = false := by
  unfold Env.settle
  cases upstream with
  | raised => cases h
  | httpError => cases h
  | unreachable exc => rfl
  | response status content =>
    simp only [Env.forward]
    by_cases hstatus : status = 200
    · simp only [Env.nothingGraded, hstatus, gradedNothing, Env.judgeFailed, badRequest,
        internalServerError, judgeUnreachable] at h ⊢
      cases hs : env.submitAnswer content with
      | none => simp [hs] at h
      | some graded => simpa [hs, Reply.spends] using h
    · have hn : (gradedNothing status || env.judgeFailed status content) = true := by
        simpa [hstatus, Env.nothingGraded] using h
      simp [hstatus, Reply.spends, hn]

/-! ### Requests together -/

/-- The spent keys and where each request is. -/
structure State (R Content : Type*) where
  /-- `SPENT_SUBMISSIONS`. -/
  spent : Finset Key
  phase : R → Phase Content

/-- A request arrives, or the judge's answer to a waiting one does. -/
inductive Action (R Content : Type*)
  | receive (r : R)
  | answer (r : R) (upstream : Upstream Content)

def start (R Content : Type*) : State R Content := ⟨∅, fun _ => .new⟩

variable {R : Type*} [DecidableEq R] (env) (requests : R → Request Caller)

/-- One uninterrupted piece of a handler. -/
def State.step (σ : State R Content) : Action R Content → Option (State R Content)
  | .receive r => match σ.phase r with
    | .new =>
      let (spent, phase) := env.receive σ.spent (requests r)
      some ⟨spent, Function.update σ.phase r phase⟩
    | _ => none
  | .answer r upstream => match σ.phase r with
    | .waiting key _ =>
      let (spent, reply) := env.settle σ.spent key upstream
      some ⟨spent, Function.update σ.phase r (.answered reply)⟩
    | _ => none

/-- A key is spent exactly while one request holds it. -/
structure Reserved (σ : State R Content) : Prop where
  own : ∀ {r key defer}, σ.phase r = .waiting key defer → env.keyOf (requests r) = key
  spent : ∀ k, k ∈ σ.spent ↔ ∃ r, env.keyOf (requests r) = some k ∧ (σ.phase r).holds env = true
  unique : ∀ {k r r'}, env.keyOf (requests r) = some k → env.keyOf (requests r') = some k →
    (σ.phase r).holds env = true → (σ.phase r').holds env = true → r = r'

variable {env} {requests} {σ σ' : State R Content}

namespace Reserved

omit [DecidableEq R] in
theorem start : Reserved env requests (start R Content) where
  own := by simp [Judge.start]
  spent := by simp [Judge.start, Phase.holds]
  unique := by simp [Judge.start, Phase.holds]

variable {r : R} {p : Phase Content} {k : Key}

/-- A request that goes on without changing what it holds. -/
theorem skip (h : Reserved env requests σ)
    (hown : ∀ key defer, p = .waiting key defer → env.keyOf (requests r) = key)
    (hsame : env.keyOf (requests r) = none ∨ p.holds env = (σ.phase r).holds env) :
    Reserved env requests ⟨σ.spent, Function.update σ.phase r p⟩ := by
  have hholds {k : Key} {q : R} (hq : env.keyOf (requests q) = some k) :
      (Function.update σ.phase r p q).holds env = (σ.phase q).holds env := by
    by_cases hqr : q = r
    · subst hqr
      rcases hsame with hnone | hsame
      · simp [hnone] at hq
      · simpa using hsame
    · simp [hqr]
  refine ⟨?_, ?_, ?_⟩
  · intro q key defer hq
    by_cases hqr : q = r
    · subst hqr
      exact hown key defer (by simpa using hq)
    · exact h.own (by simpa [hqr] using hq)
  · intro k
    rw [h.spent k]
    exact exists_congr fun q => and_congr_right fun hq => by rw [hholds hq]
  · intro k q q' hq hq' hh hh'
    exact h.unique hq hq' (hholds hq ▸ hh) (hholds hq' ▸ hh')

/-- A request that reserves a free key. -/
theorem reserve (h : Reserved env requests σ) (hkey : env.keyOf (requests r) = some k)
    (hfree : k ∉ σ.spent) (hp : p.holds env = true)
    (hown : ∀ key defer, p = .waiting key defer → key = some k) :
    Reserved env requests ⟨insert k σ.spent, Function.update σ.phase r p⟩ := by
  -- nobody held the key before
  have hnone {q : R} (hq : env.keyOf (requests q) = some k) : (σ.phase q).holds env = false := by
    by_contra hh
    exact hfree ((h.spent k).mpr ⟨q, hq, by simpa using hh⟩)
  refine ⟨?_, ?_, ?_⟩
  · intro q key defer hq
    by_cases hqr : q = r
    · subst hqr
      rw [hkey, hown key defer (by simpa using hq)]
    · exact h.own (by simpa [hqr] using hq)
  · intro k'
    rw [Finset.mem_insert]
    constructor
    · rintro (rfl | hk')
      · exact ⟨r, hkey, by simpa using hp⟩
      · obtain ⟨q, hq, hh⟩ := (h.spent k').mp hk'
        by_cases hqr : q = r
        · exact ⟨r, hqr ▸ hq, by simpa using hp⟩
        · exact ⟨q, hq, by simpa [hqr] using hh⟩
    · rintro ⟨q, hq, hh⟩
      by_cases hqr : q = r
      · subst hqr
        exact .inl (by simpa [hkey] using hq.symm)
      · exact .inr ((h.spent k').mpr ⟨q, hq, by simpa [hqr] using hh⟩)
  · intro k' q q' hq hq' hh hh'
    by_cases hqr : q = r <;> by_cases hqr' : q' = r
    · rw [hqr, hqr']
    · subst hqr
      obtain rfl : k = k' := by simpa [hkey] using hq
      simp [hqr', hnone hq'] at hh'
    · subst hqr'
      obtain rfl : k = k' := by simpa [hkey] using hq'
      simp [hqr, hnone hq] at hh
    · exact h.unique hq hq' (by simpa [hqr] using hh) (by simpa [hqr'] using hh')

/-- A waiting request that gives its key back. -/
theorem release (h : Reserved env requests σ) {reply : Reply Content}
    (hkey : env.keyOf (requests r) = some k) (hr : (σ.phase r).holds env = true)
    (hreply : reply.spends env = false) :
    Reserved env requests ⟨σ.spent.erase k, Function.update σ.phase r (.answered reply)⟩ := by
  -- only `r` held the key
  have honly {q : R} (hqr : q ≠ r) (hq : env.keyOf (requests q) = some k) :
      (σ.phase q).holds env = false := by
    by_contra hh
    exact hqr (h.unique hq hkey (by simpa using hh) hr)
  refine ⟨?_, ?_, ?_⟩
  · intro q key defer hq
    by_cases hqr : q = r
    · simp [hqr] at hq
    · exact h.own (by simpa [hqr] using hq)
  · intro k'
    rw [Finset.mem_erase, h.spent k']
    constructor
    · rintro ⟨hne, q, hq, hh⟩
      have hqr : q ≠ r := by
        rintro rfl
        exact hne (by simpa [hkey] using hq.symm)
      exact ⟨q, hq, by simpa [hqr] using hh⟩
    · rintro ⟨q, hq, hh⟩
      by_cases hqr : q = r
      · simp [hqr, Phase.holds, hreply] at hh
      · refine ⟨?_, q, hq, by simpa [hqr] using hh⟩
        rintro rfl
        simp [hqr, honly hqr hq] at hh
  · intro k' q q' hq hq' hh hh'
    by_cases hqr : q = r <;> by_cases hqr' : q' = r
    · rw [hqr, hqr']
    · simp [hqr, Phase.holds, hreply] at hh
    · simp [hqr', Phase.holds, hreply] at hh'
    · exact h.unique hq hq' (by simpa [hqr] using hh) (by simpa [hqr'] using hh')

theorem step {a : Action R Content} (h : Reserved env requests σ)
    (hs : σ.step env requests a = some σ') : Reserved env requests σ' := by
  cases a with
  | receive r =>
    simp only [State.step] at hs
    split at hs
    case h_2 => cases hs
    case h_1 hnew =>
      have hr : (σ.phase r).holds env = false := by rw [hnew]; rfl
      obtain rfl := some.inj hs
      rcases receive_cases env σ.spent (requests r) with
        ⟨hsp, reply, hp, hkeep⟩ | ⟨heq, hkey⟩ | ⟨k, hfree, hkey, hsp, hp⟩
      · rw [hsp, hp]
        refine h.skip (by simp) ?_
        rcases hkeep with hnone | hreply
        · exact .inl hnone
        · exact .inr (by rw [hr]; exact hreply)
      · rw [heq]
        exact h.skip (by rintro key defer ⟨⟩; exact hkey) (.inl hkey)
      · rw [hsp]
        rcases hp with hp | ⟨defer, hp⟩
        · exact h.reserve hkey hfree (by rw [hp]; rfl) (by simp [hp])
        · exact h.reserve hkey hfree (by rw [hp]; rfl) (by simp +contextual [hp, eq_comm])
  | answer r upstream =>
    simp only [State.step] at hs
    split at hs
    case h_2 => cases hs
    case h_1 key defer hwait =>
      have hr : (σ.phase r).holds env = true := by rw [hwait]; rfl
      have hkey := h.own hwait
      obtain rfl := some.inj hs
      rw [settle_spent]
      by_cases hreply : (env.settle σ.spent key upstream).2.spends env = true
      · simp only [hreply, if_true]
        exact h.skip (by simp) (.inr (by rw [hr]; exact hreply))
      · simp only [hreply]
        cases key with
        | none => exact h.skip (by simp) (.inl hkey)
        | some k => exact h.release hkey hr (by simpa using hreply)

theorem of_reach (h : Reach (State.step env requests) always (Judge.start R Content) σ) :
    Reserved env requests σ :=
  h.invariant start fun _ _ _ hr _ hs => hr.step hs

end Reserved

/-- **Single submission.**  For any requests, answers and interleaving: at most one verdict other
than a judge fault is ever answered for a key; a key is spent only while a request for it waits or
after one was answered with a reply that spends; an answer that graded nothing frees its key; and
a request for a free key, naming its episode and served under a known grading mode, is forwarded
with the key reserved. -/
theorem single_submission (h : Reach (State.step env requests) always (start R Content) σ) :
    (∀ k r r' v v', env.keyOf (requests r) = some k → env.keyOf (requests r') = some k →
      σ.phase r = .answered (.verdict v) → σ.phase r' = .answered (.verdict v') →
      v.judgeFault ≠ some true → v'.judgeFault ≠ some true → r = r') ∧
    (∀ k, k ∈ σ.spent ↔ ∃ r, env.keyOf (requests r) = some k ∧
      ((∃ key defer, σ.phase r = .waiting key defer) ∨
        ∃ reply, σ.phase r = .answered reply ∧ reply.spends env = true)) ∧
    (∀ k r defer upstream σ', σ.phase r = .waiting (some k) defer →
      env.nothingGraded upstream = true →
      σ.step env requests (.answer r upstream) = some σ' → k ∉ σ'.spent) ∧
    (∀ k r setup, k ∉ σ.spent → σ.phase r = .new → episodeIdRefusal (requests r).body = none →
      env.callerSetup (requests r) = .ok setup → env.keyOf (requests r) = some k →
      (env.deferred setup).isSome → ∃ σ' defer,
        σ.step env requests (.receive r) = some σ' ∧ σ'.phase r = .waiting (some k) defer) := by
  have hr := Reserved.of_reach h
  refine ⟨?_, ?_, ?_, ?_⟩
  · intro k r r' v v' hk hk' hp hp' hv hv'
    refine hr.unique hk hk' ?_ ?_
    · simpa [hp, Phase.holds, Reply.spends] using hv
    · simpa [hp', Phase.holds, Reply.spends] using hv'
  · intro k
    rw [hr.spent k]
    refine exists_congr fun r => and_congr_right fun _ => ?_
    cases hp : σ.phase r <;> simp [Phase.holds]
  · intro k r defer upstream σ' hp hu hs
    simp only [State.step, hp] at hs
    obtain rfl := some.inj hs
    simp [settle_spent, settle_of_nothingGraded hu, discard]
  · intro k r setup hfree hp hid hsetup hkey hgrading
    obtain ⟨defer, hdefer⟩ := isSome_iff_exists.mp hgrading
    have hnamed : env.submissionKey setup (requests r).body = some (some k) := by
      simpa [Env.keyOf, hsetup, join_eq_some_iff] using hkey
    refine ⟨_, defer, by simp only [State.step, hp]; rfl, ?_⟩
    simp [Env.receive, hid, hsetup, hnamed, hfree, hdefer]

/-! ### A retried submission -/

/-- A judge whose callers all run under the single-submission contract. -/
def singleEnv : Env Unit Unit SubmitAnswer where
  callerSetup := fun _ => .ok ()
  contractValue := fun _ name => if name = "AGENT_SUBMISSION_MODE" then "single" else ""
  submitGrading := .inline
  repr := fun s => "'" ++ s ++ "'"
  upstreamUrl := "http://127.0.0.1:8801"
  judgeError := fun _ => none
  submitAnswer := some

/-- The first request does not reach the judge; the second is graded. -/
def retried : List (Action Bool SubmitAnswer) :=
  [.receive false, .answer false (.unreachable "refused"), .receive true,
    .answer true (.response 200 (.verdict ⟨.yes, "7", none, none⟩))]

/-- Both requests name one episode and, by its stem, one kernel. -/
def twoRequests (second : Bool) : Request Unit :=
  ⟨some ⟨"llr.n0.p0.w0", if second then "loops/vadv" else "vadv"⟩, ()⟩

theorem single_submission_retried : ∃ σ : State Bool SubmitAnswer,
    Reach (State.step singleEnv twoRequests) always (start Bool SubmitAnswer) σ ∧
      ("llr.n0.p0.w0", "vadv") ∈ σ.spent ∧ ∃ r,
        singleEnv.keyOf (twoRequests r) = some ("llr.n0.p0.w0", "vadv") ∧
          ((∃ key defer, σ.phase r = .waiting key defer) ∨
            ∃ reply, σ.phase r = .answered reply ∧ reply.spends singleEnv = true) := by
  obtain ⟨σ, hreach, hσ⟩ := Reach.exists_of_runIf
    (P := fun σ : State Bool SubmitAnswer => decide (("llr.n0.p0.w0", "vadv") ∈ σ.spent))
    (show (runIf (State.step singleEnv twoRequests) always (start Bool SubmitAnswer)
      retried).any _ = true by decide)
  have hspent := of_decide_eq_true hσ
  exact ⟨σ, hreach, hspent, ((single_submission hreach).2.1 _).mp hspent⟩

end Judge

end HpcAgentBench
