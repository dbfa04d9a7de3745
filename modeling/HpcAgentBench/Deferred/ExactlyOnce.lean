import HpcAgentBench.Deferred.Replay

/-!
# Replays record every grade once

Which runs of replays and judges record an entry's grade at most once and mark an entry done only
after its answer: the orderly ones.  The steps are first sorted by what they do to the judges' side
(`Judged`) and to the replay's side (`Replayed`), and each invariant is kept by each sort of step.

## Main results

* `Recorded`, `recorded` : one post of an entry at most is being graded or has its grade stored, and
  a stored grade is found by every later look-up of its entry.
* `Tracked`, `tracked` : where the entries of a replay run are.
* `replay_exactly_once` : in every orderly run an entry's grade is stored at most once, an entry is
  marked done only after a 200 and is not posted again, and a run without failures leaves nothing
  pending.
* `recorded_twice` : a run cut while the judge grades lets the next run record the grade again.
-/

set_option linter.unusedSectionVars false

namespace HpcAgentBench

open List Option

namespace Deferred

open Lines Lts

variable {Q : Type} [DecidableEq Q] {env : Env Q} {σ σ' : State Q} {a : Action Q}
variable {i j : ℕ} {post post' : Post Q} {posts : List (Post Q)} {rows : List Row} {p : ℕ}
variable {text : List Char} {entry : DeferredSubmit} {r : Run Q} {item : Item Q} {s : Stage}
variable {queues : List Q} {n : ℕ} {done₀ : Q → Option (List Char)} {rows₀ : List Row}

/-! ### What a step does -/

/-- A post that is being graded, or whose grade is stored. -/
def Post.held (post : Post Q) : Bool := post.phase = .grading || post.stored

/-- A post's next phase: its entry stays, and no answer is taken back. -/
structure Post.Moves (post post' : Post Q) : Prop where
  queue : post'.queue = post.queue
  entry : post'.entry = post.entry
  unanswered : ∀ status, post.phase ≠ .answered status

/-- What an action does to the posts and to the recorded grades. -/
inductive Judged (env : Env Q) (σ : State Q) : Action Q → List (Post Q) → List Row → Prop
  | same (a : Action Q) : Judged env σ a σ.posts σ.rows
  | posted (r : Run Q) (i : ℕ) (item : Item Q) (hr : σ.run = some r)
      (hitem : r.items[i]? = some item) :
      Judged env σ .post (σ.posts ++ [⟨r.rank, item.queue, item.entry, .received, false⟩]) σ.rows
  /-- No recorded grade was found. -/
  | missed (p : ℕ) (post post' : Post Q) (hp : σ.posts[p]? = some post) (hmoves : post.Moves post')
      (hmiss : env.replayRecorded σ.rows post.entry = false) (hstored : post'.stored = post.stored) :
      Judged env σ (.lookup p) (σ.posts.set p post') σ.rows
  /-- Answered or dropped, without a grade of its own. -/
  | closed (a : Action Q) (p : ℕ) (post post' : Post Q) (hp : σ.posts[p]? = some post)
      (hmoves : post.Moves post') (hphase : post'.phase ≠ .grading)
      (hstored : post'.stored = true → post.stored = true) :
      Judged env σ a (σ.posts.set p post') σ.rows
  | stored (p : ℕ) (now : ℤ) (post post' : Post Q) (hp : σ.posts[p]? = some post)
      (hmoves : post.Moves post') (hphase : post.phase = .grading) :
      Judged env σ (.record p true now) (σ.posts.set p post')
        (σ.rows ++ [env.rowOf σ.rows post now])
  | other (row : Row) : Judged env σ (.other row) σ.posts (σ.rows ++ [row])

theorem step_post (h : σ.step env .post = some σ') : ∃ r i item, σ.run = some r ∧
    r.items[i]? = some item ∧ item.stage = .todo ∧
    σ' = { σ with
      posts := σ.posts ++ [⟨r.rank, item.queue, item.entry, .received, false⟩]
      run := some (r.stage i item (.posted σ.posts.length)) } := by
  simp only [State.step, bind_eq_bind, bind_eq_some_iff] at h
  obtain ⟨r, hr, i, hi, item, hitem, h⟩ := h
  split at h
  · have htodo : item.stage = .todo := by
      obtain ⟨hlt, htodo, -⟩ := findIdx?_eq_some_iff_getElem.mp hi
      rw [getElem?_eq_getElem hlt] at hitem
      cases hitem
      simpa using htodo
    exact ⟨r, i, item, hr, hitem, htodo, (some.inj h).symm⟩
  · cases h

theorem step_judged (h : σ.step env a = some σ') : Judged env σ a σ'.posts σ'.rows := by
  cases a
  case post =>
    obtain ⟨r, i, item, hr, hitem, -, rfl⟩ := step_post h
    exact .posted r i item hr hitem
  all_goals
    simp only [State.step, bind_eq_bind, bind_eq_some_iff, map_eq_some_iff] at h
  case start queues rank workers =>
    split at h
    · cases h
    · cases h
      exact .same _
  case lookup p =>
    obtain ⟨post, hp, h⟩ := h
    split at h
    · next hphase =>
      cases h
      have hmoves (phase : Phase) : post.Moves { post with phase := phase } :=
        ⟨rfl, rfl, by simp [hphase]⟩
      by_cases hrec : env.replayRecorded σ.rows post.entry = true
      · refine .closed _ p post _ hp (hmoves _) ?_ id
        simp [hrec]
      · exact .missed p post _ hp (hmoves _) (by simpa using hrec) rfl
    · cases h
  case refuse p status =>
    obtain ⟨post, hp, h⟩ := h
    split at h
    · next hphase =>
      cases h
      refine .closed _ p post _ hp ⟨rfl, rfl, ?_⟩ (by simp) id
      rcases hphase.1 with hphase | hphase <;> simp [hphase]
    · cases h
  case record p stores now =>
    obtain ⟨post, hp, h⟩ := h
    split at h
    · next hphase =>
      cases h
      cases stores with
      | true => exact .stored p now post _ hp ⟨rfl, rfl, by simp [hphase]⟩ hphase
      | false => exact .closed _ p post _ hp ⟨rfl, rfl, by simp [hphase]⟩ (by simp) (by simp)
    · cases h
  case drop p =>
    obtain ⟨post, hp, h⟩ := h
    split at h
    · next hphase =>
      cases h
      refine .closed _ p post _ hp ⟨rfl, rfl, ?_⟩ (by simp) id
      rcases hphase with hphase | hphase <;> simp [hphase]
    · cases h
  case hear i text =>
    obtain ⟨r, hr, item, hitem, h⟩ := h
    split at h
    · obtain ⟨post, hp, h⟩ := bind_eq_some_iff.mp h
      split at h
      · split at h <;> cases h <;> exact .same _
      · cases h
    · cases h
  case lose i name exc | mark i n =>
    obtain ⟨r, hr, item, hitem, h⟩ := h
    split at h
    · cases h
      exact .same _
    · cases h
  case cut =>
    obtain ⟨r, hr, rfl⟩ := h
    exact .same _
  case finish =>
    obtain ⟨r, hr, h⟩ := h
    split at h
    · cases h
      exact .same _
    · cases h
  case other row =>
    cases h
    exact .other row

/-- What an action does to the `.done` files and to the replay run. -/
inductive Replayed (env : Env Q) (σ σ' : State Q) : Action Q → Prop
  | same (a : Action Q) (hdone : σ'.done = σ.done) (hrun : σ'.run = σ.run) : Replayed env σ σ' a
  | started (queues : List Q) (rank workers : ℕ) (hdone : σ'.done = σ.done)
      (hrun : σ'.run = some ⟨queues, rank, workers, env.work σ.done queues, []⟩) :
      Replayed env σ σ' (.start queues rank workers)
  | posted (r : Run Q) (i : ℕ) (item : Item Q) (hr : σ.run = some r)
      (hitem : r.items[i]? = some item) (htodo : item.stage = .todo)
      (hposts : σ'.posts = σ.posts ++ [⟨r.rank, item.queue, item.entry, .received, false⟩])
      (hdone : σ'.done = σ.done)
      (hrun : σ'.run = some (r.stage i item (.posted σ.posts.length))) : Replayed env σ σ' .post
  /-- A 200. -/
  | heard (text : String) (r : Run Q) (i p : ℕ) (item : Item Q) (post : Post Q)
      (hr : σ.run = some r) (hitem : r.items[i]? = some item) (hstage : item.stage = .posted p)
      (hp : σ.posts[p]? = some post) (hanswer : post.phase = .answered 200)
      (hdone : σ'.done = σ.done) (hrun : σ'.run = some (r.stage i item (.accepted p))) :
      Replayed env σ σ' (.hear i text)
  | failed (a : Action Q) (r : Run Q) (i p : ℕ) (item : Item Q) (text : String)
      (hr : σ.run = some r) (hitem : r.items[i]? = some item) (hstage : item.stage = .posted p)
      (hdone : σ'.done = σ.done) (hrun : σ'.run = some (r.fail i item text)) : Replayed env σ σ' a
  | marked (i n p : ℕ) (r : Run Q) (item : Item Q) (hr : σ.run = some r)
      (hitem : r.items[i]? = some item) (hstage : item.stage = .accepted p)
      (hposts : σ'.posts = σ.posts)
      (hdone : σ'.done = Function.update σ.done item.queue
        (some ((σ.done item.queue).getD [] ++ (doneLine item.entry).take n)))
      (hrun : σ'.run = some (r.stage i item
        (if (doneLine item.entry).length ≤ n then .marked else .raised))) :
      Replayed env σ σ' (.mark i n)
  | ended (a : Action Q) (hdone : σ'.done = σ.done) (hrun : σ'.run = none) : Replayed env σ σ' a

theorem step_replayed (h : σ.step env a = some σ') : Replayed env σ σ' a := by
  cases a
  case post =>
    obtain ⟨r, i, item, hr, hitem, htodo, rfl⟩ := step_post h
    exact .posted r i item hr hitem htodo rfl rfl rfl
  all_goals
    simp only [State.step, bind_eq_bind, bind_eq_some_iff, map_eq_some_iff] at h
  case start queues rank workers =>
    split at h
    · cases h
    · cases h
      exact .started queues rank workers rfl rfl
  case lookup p | refuse p status | record p stores now | drop p =>
    obtain ⟨post, hp, h⟩ := h
    split at h <;> cases h
    exact .same _ rfl rfl
  case hear i text =>
    obtain ⟨r, hr, item, hitem, h⟩ := h
    split at h
    · next p hstage =>
      obtain ⟨post, hp, h⟩ := bind_eq_some_iff.mp h
      split at h
      · next status hanswer =>
        split at h
        · next h200 =>
          cases h
          exact .heard text r i p item post hr hitem hstage hp (h200 ▸ hanswer) rfl rfl
        · cases h
          exact .failed _ r i p item _ hr hitem hstage rfl rfl
      · cases h
    · cases h
  case lose i name exc =>
    obtain ⟨r, hr, item, hitem, h⟩ := h
    split at h
    · next p hstage =>
      cases h
      exact .failed _ r i p item _ hr hitem hstage rfl rfl
    · cases h
  case mark i n =>
    obtain ⟨r, hr, item, hitem, h⟩ := h
    split at h
    · next p hstage =>
      cases h
      exact .marked i n p r item hr hitem hstage rfl rfl rfl
    · cases h
  case cut =>
    obtain ⟨r, hr, rfl⟩ := h
    exact .ended _ rfl rfl
  case finish =>
    obtain ⟨r, hr, h⟩ := h
    split at h <;> cases h
    exact .ended _ rfl rfl
  case other row =>
    cases h
    exact .same _ rfl rfl

/-! ### Posts stay -/

theorem getElem?_set_eq_some {α : Type} {l : List α} {x b : α} (h : (l.set i x)[j]? = some b) :
    (j = i ∧ b = x) ∨ (j ≠ i ∧ l[j]? = some b) := by
  rw [getElem?_set] at h
  split at h
  · next hij =>
    split at h
    · exact .inl ⟨hij.symm, (some.inj h).symm⟩
    · cases h
  · next hij => exact .inr ⟨fun hji => hij hji.symm, h⟩

/-- A post that was made stays, with its entry and its answer. -/
structure Post.Kept (post post' : Post Q) : Prop where
  queue : post'.queue = post.queue
  entry : post'.entry = post.entry
  answered : ∀ status, post.phase = .answered status → post'.phase = .answered status

theorem Post.Kept.refl (post : Post Q) : post.Kept post := ⟨rfl, rfl, fun _ h => h⟩

theorem Post.Moves.kept (h : post.Moves post') : post.Kept post' :=
  ⟨h.queue, h.entry, fun status hstatus => absurd hstatus (h.unanswered status)⟩

theorem Judged.kept (h : Judged env σ a posts rows) (hp : σ.posts[p]? = some post) :
    ∃ post', posts[p]? = some post' ∧ post.Kept post' := by
  have hset (p₀ : ℕ) (post₀ post₁ : Post Q) (hp₀ : σ.posts[p₀]? = some post₀)
      (hmoves : post₀.Moves post₁) :
      ∃ post', (σ.posts.set p₀ post₁)[p]? = some post' ∧ post.Kept post' := by
    obtain ⟨hlt, -⟩ := List.getElem?_eq_some_iff.mp hp
    by_cases heq : p = p₀
    · subst heq
      obtain rfl := some.inj (hp.symm.trans hp₀)
      exact ⟨post₁, by simp [hlt], hmoves.kept⟩
    · exact ⟨post, by rw [getElem?_set_ne (Ne.symm heq), hp], .refl post⟩
  cases h with
  | same => exact ⟨post, hp, .refl post⟩
  | posted r i item hr hitem =>
    exact ⟨post, getElem?_append_left (List.getElem?_eq_some_iff.mp hp).1 ▸ hp, .refl post⟩
  | missed p₀ post₀ post₁ hp₀ hmoves => exact hset p₀ post₀ post₁ hp₀ hmoves
  | closed _ p₀ post₀ post₁ hp₀ hmoves => exact hset p₀ post₀ post₁ hp₀ hmoves
  | stored p₀ now post₀ post₁ hp₀ hmoves => exact hset p₀ post₀ post₁ hp₀ hmoves
  | other row => exact ⟨post, hp, .refl post⟩

/-- Every post was there before, or is a new one for an item of the run. -/
theorem Judged.origin (h : Judged env σ a posts rows) (hp : posts[p]? = some post') :
    (∃ post, σ.posts[p]? = some post ∧ post.Kept post') ∨
      ∃ (r : Run Q) (i : ℕ) (item : Item Q), σ.run = some r ∧ r.items[i]? = some item ∧
        post'.queue = item.queue ∧ post'.entry = item.entry := by
  have hset (p₀ : ℕ) (post₀ post₁ : Post Q) (hp₀ : σ.posts[p₀]? = some post₀)
      (hmoves : post₀.Moves post₁) (hp : (σ.posts.set p₀ post₁)[p]? = some post') :
      ∃ post, σ.posts[p]? = some post ∧ post.Kept post' := by
    rcases getElem?_set_eq_some hp with ⟨rfl, rfl⟩ | ⟨-, hold⟩
    · exact ⟨post₀, hp₀, hmoves.kept⟩
    · exact ⟨post', hold, .refl post'⟩
  cases h with
  | same => exact .inl ⟨post', hp, .refl post'⟩
  | posted r i item hr hitem =>
    rcases Nat.lt_or_ge p σ.posts.length with hlt | hge
    · exact .inl ⟨post', by rwa [getElem?_append_left hlt] at hp, .refl post'⟩
    · rw [getElem?_append_right hge, getElem?_singleton] at hp
      split at hp
      · cases hp
        exact .inr ⟨r, i, item, hr, hitem, rfl, rfl⟩
      · cases hp
  | missed p₀ post₀ post₁ hp₀ hmoves => exact .inl (hset p₀ post₀ post₁ hp₀ hmoves hp)
  | closed _ p₀ post₀ post₁ hp₀ hmoves => exact .inl (hset p₀ post₀ post₁ hp₀ hmoves hp)
  | stored p₀ now post₀ post₁ hp₀ hmoves => exact .inl (hset p₀ post₀ post₁ hp₀ hmoves hp)
  | other row => exact .inl ⟨post', hp, .refl post'⟩

/-! ### Sound queues -/

/-- Two entries of a queue with one request id are one entry. -/
theorem Sound.entry_eq (h : Sound text) {entry' : DeferredSubmit} (hentry : entry ∈ read text)
    (hentry' : entry' ∈ read text) (hid : entry.requestId = entry'.requestId) : entry = entry' :=
  inj_on_of_nodup_map h.nodup hentry hentry' hid

/-- The queue that appends leave, whichever of them failed. -/
theorem Sound.of_appends {attempts : List Attempt}
    (hids : ∀ a ∈ attempts, hexId a.entry.requestId = true)
    (htimes : ∀ a ∈ attempts, 0 ≤ a.entry.tsMs)
    (hnodup : (attempts.map (·.entry.requestId)).Nodup) :
    Sound ((queueAfter attempts).getD []) := by
  have hsub := landed_sublist attempts none
  have horigin {entry : DeferredSubmit} (h : entry ∈ read ((queueAfter attempts).getD [])) :
      ∃ a ∈ attempts, a.entry = entry := by
    rw [read_queueAfter] at h
    exact mem_map.mp (hsub.subset h)
  refine ⟨fun entry h => ?_, fun entry h => ?_, ?_⟩
  · obtain ⟨a, ha, rfl⟩ := horigin h
    exact hids a ha
  · obtain ⟨a, ha, rfl⟩ := horigin h
    exact htimes a ha
  · rw [read_queueAfter]
    have hmap := hsub.map (·.requestId)
    rw [List.map_map] at hmap
    exact hnodup.sublist hmap

/-! ### Where the entries of a run are -/

/-- Where the entries of a replay run are: an entry is in the done file, or is an item of the run;
an item that is not through is not in the done file, and its post is for it. -/
structure OnRun (env : Env Q) (σ : State Q) (r : Run Q) : Prop where
  source : ∀ (i : ℕ) (item : Item Q), r.items[i]? = some item → item.entry ∈ read (env.text item.queue)
  distinct : ∀ (i j : ℕ) (item item' : Item Q), r.items[i]? = some item → r.items[j]? = some item' →
    item.queue = item'.queue → item.entry.requestId = item'.entry.requestId → i = j
  owner : ∀ (i : ℕ) (item : Item Q) (p : ℕ), r.items[i]? = some item →
    item.stage = .posted p ∨ item.stage = .accepted p → ∃ post : Post Q,
      σ.posts[p]? = some post ∧ post.queue = item.queue ∧ post.entry = item.entry ∧
      (item.stage = .accepted p → post.phase = .answered 200)
  unmarked : ∀ (i : ℕ) (item : Item Q), r.items[i]? = some item → item.stage.open = true →
    item.entry.requestId ∉ doneIds (σ.done item.queue)
  marked : ∀ (i : ℕ) (item : Item Q), r.items[i]? = some item → item.stage = .marked →
    item.entry.requestId ∈ doneIds (σ.done item.queue)
  covered : ∀ q ∈ r.queues, ∀ entry ∈ read (env.text q),
    entry.requestId ∈ doneIds (σ.done q) ∨
      ∃ (i : ℕ) (item : Item Q), r.items[i]? = some item ∧ item.queue = q ∧ item.entry = entry
  failed : ∀ (i : ℕ) (item : Item Q), r.items[i]? = some item → item.stage = .failed → r.failed ≠ []

/-- What another party does leaves a run where it is. -/
theorem OnRun.frame (h : OnRun env σ r) (hdone : σ'.done = σ.done)
    (hkept : ∀ (p : ℕ) (post : Post Q), σ.posts[p]? = some post →
      ∃ post', σ'.posts[p]? = some post' ∧ post.Kept post') : OnRun env σ' r where
  source := h.source
  distinct := h.distinct
  owner := by
    intro i item p hitem hstage
    obtain ⟨post, hp, hqueue, hentry, hanswer⟩ := h.owner i item p hitem hstage
    obtain ⟨post', hp', hk⟩ := hkept p post hp
    exact ⟨post', hp', hk.queue.trans hqueue, hk.entry.trans hentry, fun hacc =>
      hk.answered _ (hanswer hacc)⟩
  unmarked := by rw [hdone]; exact h.unmarked
  marked := by rw [hdone]; exact h.marked
  covered := by rw [hdone]; exact h.covered
  failed := h.failed

theorem Run.stage_getElem? {b : Item Q} (hitem : r.items[i]? = some item)
    (hb : r.items[j]? = some b) :
    ∃ b', (r.stage i item s).items[j]? = some b' ∧ b'.queue = b.queue ∧ b'.entry = b.entry := by
  by_cases hj : j = i
  · subst hj
    obtain rfl := some.inj (hb.symm.trans hitem)
    obtain ⟨hlt, -⟩ := List.getElem?_eq_some_iff.mp hb
    exact ⟨{ b with stage := s }, by simp [Run.stage, hlt], rfl, rfl⟩
  · exact ⟨b, by simpa [Run.stage, getElem?_set_ne (Ne.symm hj)] using hb, rfl, rfl⟩

/-- The items of a run keep their queues and entries. -/
theorem OnRun.distinct_stage (h : OnRun env σ r) (hitem : r.items[i]? = some item) (s : Stage)
    (j k : ℕ) (b c : Item Q) (hb : (r.stage i item s).items[j]? = some b)
    (hc : (r.stage i item s).items[k]? = some c) (hqueue : b.queue = c.queue)
    (hid : b.entry.requestId = c.entry.requestId) : j = k := by
  rcases getElem?_set_eq_some hb with ⟨rfl, rfl⟩ | ⟨hj, hb'⟩ <;>
    rcases getElem?_set_eq_some hc with ⟨rfl, rfl⟩ | ⟨hk, hc'⟩
  · rfl
  · exact h.distinct _ _ item c hitem hc' hqueue hid
  · exact h.distinct _ _ b item hb' hitem hqueue hid
  · exact h.distinct _ _ b c hb' hc' hqueue hid

/-- An item that is not through moves to another stage. -/
theorem OnRun.stage (h : OnRun env σ r) (hitem : r.items[i]? = some item)
    (hopen : item.stage.open = true) {failed : List String} (hs : s ≠ .marked)
    (hfail : s = .failed → failed ≠ []) (hfailed : r.failed ≠ [] → failed ≠ [])
    (howner : ∀ p, s = .posted p ∨ s = .accepted p →
      ∃ post, σ.posts[p]? = some post ∧ post.queue = item.queue ∧ post.entry = item.entry ∧
      (s = .accepted p → post.phase = .answered 200)) :
    OnRun env σ { r.stage i item s with failed := failed } where
  source := by
    intro j b hb
    rcases getElem?_set_eq_some hb with ⟨-, rfl⟩ | ⟨-, hold⟩
    · exact h.source i item hitem
    · exact h.source j b hold
  distinct := h.distinct_stage hitem s
  owner := by
    intro j b p hb hstage
    rcases getElem?_set_eq_some hb with ⟨-, rfl⟩ | ⟨-, hold⟩
    · exact howner p hstage
    · exact h.owner j b p hold hstage
  unmarked := by
    intro j b hb hstage
    rcases getElem?_set_eq_some hb with ⟨-, rfl⟩ | ⟨-, hold⟩
    · exact h.unmarked i item hitem hopen
    · exact h.unmarked j b hold hstage
  marked := by
    intro j b hb hstage
    rcases getElem?_set_eq_some hb with ⟨-, rfl⟩ | ⟨-, hold⟩
    · exact absurd hstage hs
    · exact h.marked j b hold hstage
  covered := by
    intro q hq entry hentry
    rcases h.covered q hq entry hentry with hdone | ⟨j, b, hb, hqueue, hentry'⟩
    · exact .inl hdone
    · obtain ⟨b', hb', hq', he'⟩ := Run.stage_getElem? (s := s) hitem hb
      exact .inr ⟨j, b', hb', hq'.trans hqueue, he'.trans hentry'⟩
  failed := by
    intro j b hb hstage
    rcases getElem?_set_eq_some hb with ⟨-, rfl⟩ | ⟨-, hold⟩
    · exact hfail hstage
    · exact hfailed (h.failed j b hold hstage)

/-- The items of a new run. -/
theorem mem_work {done : Q → Option (List Char)} (h : item ∈ env.work done queues) :
    item.queue ∈ queues ∧ item.entry ∈ read (env.text item.queue) ∧
      item.entry.requestId ∉ doneIds (done item.queue) ∧ item.stage = .todo := by
  obtain ⟨q, hq, hitem⟩ := mem_flatMap.mp h
  obtain ⟨entry, hentry, rfl⟩ := mem_map.mp hitem
  obtain ⟨hread, hid⟩ := mem_pending.mp hentry
  exact ⟨hq, hread, hid, rfl⟩

theorem pending_nodup (h : Sound text) (done : Option (List Char)) :
    ((pending text done).map (·.requestId)).Nodup := by
  refine ((perm_insertionSort _ _).map _).nodup_iff.mpr ?_
  exact h.nodup.sublist (filter_sublist.map _)

theorem work_nodup (done : Q → Option (List Char)) (hq : queues.Nodup)
    (hsound : ∀ q, Sound (env.text q)) :
    ((env.work done queues).map fun item => (item.queue, item.entry.requestId)).Nodup := by
  rw [Env.work, map_flatMap, nodup_flatMap]
  simp only [List.map_map]
  constructor
  · intro q hmem
    have hids := (pending_nodup (hsound q) (done q)).map
      (f := fun id => (q, id)) fun a b hab => (Prod.mk.inj hab).2
    rw [List.map_map] at hids
    exact hids
  · refine hq.imp ?_
    intro q q' hne x hx hx'
    obtain ⟨entry, -, rfl⟩ := mem_map.mp hx
    obtain ⟨entry', -, heq⟩ := mem_map.mp hx'
    exact hne (Prod.mk.inj heq).1.symm

/-- A new run. -/
theorem OnRun.started (rank workers : ℕ) (hq : queues.Nodup) (hsound : ∀ q, Sound (env.text q)) :
    OnRun env σ ⟨queues, rank, workers, env.work σ.done queues, []⟩ where
  source := by
    intro i item hitem
    exact (mem_work (mem_of_getElem? hitem)).2.1
  distinct := by
    intro i j item item' hitem hitem' hqueue hid
    have hnodup := work_nodup σ.done hq hsound
    obtain ⟨hi, -⟩ := List.getElem?_eq_some_iff.mp hitem
    have hi' : i < ((env.work σ.done queues).map fun item =>
        (item.queue, item.entry.requestId)).length := by simpa using hi
    refine (getElem?_inj hi' hnodup).mp ?_
    rw [getElem?_map, getElem?_map, hitem, hitem', map_some, map_some,
      hqueue, hid]
  owner := by
    intro i item p hitem hstage
    have htodo := (mem_work (mem_of_getElem? hitem)).2.2.2
    rcases hstage with hstage | hstage <;> simp [htodo] at hstage
  unmarked := by
    intro i item hitem hopen
    exact (mem_work (mem_of_getElem? hitem)).2.2.1
  marked := by
    intro i item hitem hstage
    have htodo := (mem_work (mem_of_getElem? hitem)).2.2.2
    simp [htodo] at hstage
  covered := by
    intro q hmem entry hentry
    by_cases hid : entry.requestId ∈ doneIds (σ.done q)
    · exact .inl hid
    · right
      have hwork : (⟨q, entry, .todo⟩ : Item Q) ∈ env.work σ.done queues :=
        mem_flatMap.mpr ⟨q, hmem, mem_map_of_mem (mem_pending.mpr ⟨hentry, hid⟩)⟩
      obtain ⟨i, hi⟩ := mem_iff_getElem?.mp hwork
      exact ⟨i, _, hi, rfl, rfl⟩
  failed := by
    intro i item hitem hstage
    have htodo := (mem_work (mem_of_getElem? hitem)).2.2.2
    simp [htodo] at hstage

/-- What a write to a done file changes for the entries of the queues. -/
theorem mem_doneIds_mark (hsound : ∀ q, Sound (env.text q))
    (hitem : item.entry ∈ read (env.text item.queue)) (htorn : ¬ Torn ((σ.done item.queue).getD []))
    (hdone : σ'.done = Function.update σ.done item.queue
      (some ((σ.done item.queue).getD [] ++ (doneLine item.entry).take n))) {q : Q}
    (hentry : entry ∈ read (env.text q)) :
    entry.requestId ∈ doneIds (σ'.done q) ↔ entry.requestId ∈ doneIds (σ.done q) ∨
      (q = item.queue ∧ entry.requestId = item.entry.requestId ∧ 32 ≤ n) := by
  rw [hdone]
  by_cases hq : q = item.queue
  · subst hq
    rw [Function.update_self, mark_done htorn ((hsound _).ids _ hitem) n
      ((hsound _).ids _ hentry)]
    simp
  · rw [Function.update_of_ne hq]
    simp [hq]

/-- An item's done line is written. -/
theorem OnRun.write (h : OnRun env σ r) (hitem : r.items[i]? = some item)
    (hsound : ∀ q, Sound (env.text q)) (htorn : ¬ Torn ((σ.done item.queue).getD []))
    (hposts : σ'.posts = σ.posts) (hdone : σ'.done = Function.update σ.done item.queue
      (some ((σ.done item.queue).getD [] ++ (doneLine item.entry).take n))) :
    OnRun env σ' (r.stage i item
      (if (doneLine item.entry).length ≤ n then .marked else .raised)) := by
  have hmem {q : Q} {entry : DeferredSubmit} (hentry : entry ∈ read (env.text q)) :=
    mem_doneIds_mark hsound (h.source i item hitem) htorn hdone hentry
  have hlen := length_doneLine ((hsound _).ids _ (h.source i item hitem))
  have hthrough : (if (doneLine item.entry).length ≤ n then Stage.marked else .raised) = .marked ∨
      (if (doneLine item.entry).length ≤ n then Stage.marked else .raised) = .raised := by
    split <;> simp
  constructor
  case source =>
    intro j b hb
    rcases getElem?_set_eq_some hb with ⟨-, rfl⟩ | ⟨-, hold⟩
    · exact h.source i item hitem
    · exact h.source j b hold
  case distinct => exact h.distinct_stage hitem _
  case owner =>
    intro j b p hb hstage
    rcases getElem?_set_eq_some hb with ⟨-, rfl⟩ | ⟨-, hold⟩
    · rcases hthrough with hs | hs <;> simp [hs] at hstage
    · rw [hposts]
      exact h.owner j b p hold hstage
  case unmarked =>
    intro j b hb hopen
    rcases getElem?_set_eq_some hb with ⟨-, rfl⟩ | ⟨hj, hold⟩
    · rcases hthrough with hs | hs <;> simp [hs, Stage.open] at hopen
    · rw [hmem (h.source j b hold)]
      rintro (hin | ⟨hq, hid, -⟩)
      · exact h.unmarked j b hold hopen hin
      · exact hj (h.distinct j i b item hold hitem hq hid)
  case marked =>
    intro j b hb hstage
    rcases getElem?_set_eq_some hb with ⟨-, rfl⟩ | ⟨-, hold⟩
    · refine (hmem (h.source i item hitem)).mpr (.inr ⟨rfl, rfl, ?_⟩)
      by_contra hn
      simp [show ¬ (doneLine item.entry).length ≤ n by omega] at hstage
    · exact (hmem (h.source j b hold)).mpr (.inl (h.marked j b hold hstage))
  case covered =>
    intro q hq entry hentry
    rcases h.covered q hq entry hentry with hin | ⟨j, b, hb, hqueue, hentry'⟩
    · exact .inl ((hmem hentry).mpr (.inl hin))
    · obtain ⟨b', hb', hq', he'⟩ := Run.stage_getElem? hitem hb
      exact .inr ⟨j, b', hb', hq'.trans hqueue, he'.trans hentry'⟩
  case failed =>
    intro j b hb hstage
    rcases getElem?_set_eq_some hb with ⟨-, rfl⟩ | ⟨-, hold⟩
    · rcases hthrough with hs | hs <;> simp [hs] at hstage
    · exact h.failed j b hold hstage

/-- Where the entries of the queues are: every post is of a queued entry, and an entry that was
marked done since the start was answered with a 200. -/
structure Tracked (env : Env Q) (done₀ : Q → Option (List Char)) (σ : State Q) : Prop where
  source : ∀ post ∈ σ.posts, post.entry ∈ read (env.text post.queue)
  run : ∀ r, σ.run = some r → OnRun env σ r
  answered : ∀ q, ∀ entry ∈ read (env.text q), entry.requestId ∈ doneIds (σ.done q) →
    entry.requestId ∈ doneIds (done₀ q) ∨
      ∃ post ∈ σ.posts, post.queue = q ∧ post.entry = entry ∧ post.phase = .answered 200

theorem tracked_run (hsound : ∀ q, Sound (env.text q)) (h : Tracked env done₀ σ)
    (hok : Orderly env σ a) (hs : σ.step env a = some σ') {r' : Run Q} (hr' : σ'.run = some r') :
    OnRun env σ' r' := by
  have hkept (p : ℕ) (post : Post Q) (hp : σ.posts[p]? = some post) :=
    (step_judged hs).kept hp
  cases step_replayed hs with
  | same a hdone hrun => exact (h.run r' (hrun ▸ hr')).frame hdone hkept
  | started queues rank workers hdone hrun =>
    obtain rfl := some.inj (hrun.symm.trans hr')
    rw [← hdone]
    exact .started rank workers hok hsound
  | posted r i item hr hitem htodo hposts hdone hrun =>
    obtain rfl := some.inj (hrun.symm.trans hr')
    refine ((h.run r hr).frame hdone hkept).stage hitem (by simp [htodo, Stage.open]) (by simp)
      (by simp) id ?_
    rintro p (hp | hp)
    · cases hp
      exact ⟨_, by rw [hposts, getElem?_concat_length], rfl, rfl, by simp⟩
    · cases hp
  | heard text r i p item post hr hitem hstage hp hanswer hdone hrun =>
    obtain rfl := some.inj (hrun.symm.trans hr')
    obtain ⟨post', hp', hk⟩ := hkept p post hp
    obtain ⟨post₀, hp₀, hqueue, hentry, -⟩ := (h.run r hr).owner i item p hitem (.inl hstage)
    obtain rfl := some.inj (hp₀.symm.trans hp)
    refine ((h.run r hr).frame hdone hkept).stage hitem (by simp [hstage, Stage.open]) (by simp)
      (by simp) id ?_
    rintro p' (hs' | hs') <;> cases hs'
    exact ⟨post', hp', hk.queue.trans hqueue, hk.entry.trans hentry, fun _ =>
      hk.answered _ hanswer⟩
  | failed a r i p item text hr hitem hstage hdone hrun =>
    obtain rfl := some.inj (hrun.symm.trans hr')
    refine ((h.run r hr).frame hdone hkept).stage hitem (by simp [hstage, Stage.open]) (by simp)
      (by simp) (by simp) ?_
    rintro p' (hs' | hs') <;> cases hs'
  | marked i n p r item hr hitem hstage hposts hdone hrun =>
    obtain rfl := some.inj (hrun.symm.trans hr')
    exact (h.run r hr).write hitem hsound (hok r hr item hitem) hposts hdone
  | ended a hdone hrun => cases hrun.symm.trans hr'

theorem tracked_step (hsound : ∀ q, Sound (env.text q)) (h : Tracked env done₀ σ)
    (hok : Orderly env σ a) (hs : σ.step env a = some σ') :
    Tracked env done₀ σ' := by
  have hkept (p : ℕ) (post : Post Q) (hp : σ.posts[p]? = some post) :=
    (step_judged hs).kept hp
  refine ⟨fun post' hpost' => ?_, fun r' => tracked_run hsound h hok hs, ?_⟩
  · obtain ⟨p, hp⟩ := mem_iff_getElem?.mp hpost'
    rcases (step_judged hs).origin hp with ⟨post, hold, hk⟩ | ⟨r, i, item, hr, hitem, hq, he⟩
    · rw [hk.queue, hk.entry]
      exact h.source post (mem_of_getElem? hold)
    · rw [hq, he]
      exact (h.run r hr).source i item hitem
  · intro q entry hentry hid
    have hold (hin : entry.requestId ∈ doneIds (σ.done q)) :
        entry.requestId ∈ doneIds (done₀ q) ∨
          ∃ post ∈ σ'.posts, post.queue = q ∧ post.entry = entry ∧ post.phase = .answered 200 := by
      rcases h.answered q entry hentry hin with h₀ | ⟨post, hpost, hqueue, hentry', hanswer⟩
      · exact .inl h₀
      · obtain ⟨p, hp⟩ := mem_iff_getElem?.mp hpost
        obtain ⟨post', hp', hk⟩ := hkept p post hp
        exact .inr ⟨post', mem_of_getElem? hp', hk.queue.trans hqueue,
          hk.entry.trans hentry', hk.answered _ hanswer⟩
    cases step_replayed hs with
    | same a hdone hrun | started queues rank workers hdone hrun => exact hold (hdone ▸ hid)
    | posted r i item hr hitem htodo hposts hdone hrun => exact hold (hdone ▸ hid)
    | heard text r i p item post hr hitem hstage hp hanswer hdone hrun => exact hold (hdone ▸ hid)
    | failed a r i p item text hr hitem hstage hdone hrun => exact hold (hdone ▸ hid)
    | ended a hdone hrun => exact hold (hdone ▸ hid)
    | marked i n p r item hr hitem hstage hposts hdone hrun =>
      have hitem' := (h.run r hr).source i item hitem
      rcases (mem_doneIds_mark hsound hitem' (hok r hr item hitem) hdone hentry).mp hid with
        hin | ⟨rfl, hids, -⟩
      · exact hold hin
      · -- the item's own done line, after its 200
        obtain rfl := (hsound _).entry_eq hentry hitem' hids
        obtain ⟨post, hp, hqueue, hentry', hanswer⟩ :=
          (h.run r hr).owner i item p hitem (.inr hstage)
        exact .inr ⟨post, hposts ▸ mem_of_getElem? hp, hqueue, hentry', hanswer hstage⟩

theorem tracked (hsound : ∀ q, Sound (env.text q))
    (h : Reach (State.step env) (Orderly env) (State.initial done₀ rows₀) σ) :
    Tracked env done₀ σ := by
  refine h.invariant ⟨?_, ?_, ?_⟩ fun s a s' hs hok hstep => tracked_step hsound hs hok hstep
  · intro post hpost
    cases hpost
  · intro r hr
    cases hr
  · exact fun q entry _ hid => .inl hid

/-! ### Recorded grades -/

/-- One post of an entry at most is being graded or has its grade stored, and a stored grade is
found by every later look-up of its entry. -/
structure Recorded (env : Env Q) (posts : List (Post Q)) (rows : List Row) : Prop where
  found : ∀ post ∈ posts, post.stored = true → env.replayRecorded rows post.entry = true
  alone : ∀ (p p' : ℕ) (post post' : Post Q), posts[p]? = some post →
    posts[p']? = some post' → post.entry = post'.entry → post.held = true → post'.held = true →
    p = p'

theorem replayRecorded_append (row : Row) (h : env.replayRecorded rows entry = true) :
    env.replayRecorded (rows ++ [row]) entry = true := by
  unfold Env.replayRecorded at h ⊢
  cases hts : replayTs entry with
  | none => simp [hts] at h
  | some tsMs =>
    simp only [hts, any_some, submitRecorded, any_append, Bool.or_eq_true] at h ⊢
    exact .inl h

/-- A grade stored within the twin window is found. -/
theorem replayRecorded_rowOf {now : ℤ} (htime : 0 ≤ post.entry.tsMs)
    (hwindow : (env.rowOf rows post now).tsMs ≤ post.entry.tsMs + replayTwinWindowMs) :
    env.replayRecorded (rows ++ [env.rowOf rows post now]) post.entry = true := by
  have hts := replayTs_of_nonneg htime
  simp only [Env.rowOf, hts, getD_some] at hwindow ⊢
  simp only [Env.replayRecorded, hts, any_some, submitRecorded, any_append,
    any_cons, any_nil, Bool.or_false, Bool.or_eq_true]
  exact .inr (gradeRow_twin hwindow)

theorem Post.held_of_stored (h : post.stored = true) : post.held = true := by
  simp [Post.held, h]

section Step

variable {posts : List (Post Q)} {rows : List Row}

theorem Recorded.found_step (h : Recorded env σ.posts σ.rows)
    (htimes : ∀ post ∈ σ.posts, 0 ≤ post.entry.tsMs) (hok : Orderly env σ a)
    (hj : Judged env σ a posts rows) {post' : Post Q} (hpost : post' ∈ posts)
    (hstored : post'.stored = true) : env.replayRecorded rows post'.entry = true := by
  cases hj with
  | same a => exact h.found post' hpost hstored
  | posted r i item hr hitem =>
    rcases mem_append.mp hpost with hpost | hpost
    · exact h.found post' hpost hstored
    · cases mem_singleton.mp hpost
      cases hstored
  | missed p post post₁ hp hmoves hmiss hst =>
    rcases mem_or_eq_of_mem_set hpost with hpost | rfl
    · exact h.found post' hpost hstored
    · rw [hmoves.entry]
      exact h.found post (mem_of_getElem? hp) (hst ▸ hstored)
  | closed a p post post₁ hp hmoves hphase hst =>
    rcases mem_or_eq_of_mem_set hpost with hpost | rfl
    · exact h.found post' hpost hstored
    · rw [hmoves.entry]
      exact h.found post (mem_of_getElem? hp) (hst hstored)
  | stored p now post post₁ hp hmoves hphase =>
    rcases mem_or_eq_of_mem_set hpost with hpost | rfl
    · exact replayRecorded_append _ (h.found post' hpost hstored)
    · rw [hmoves.entry]
      exact replayRecorded_rowOf (htimes post (mem_of_getElem? hp)) (hok post hp)
  | other row => exact replayRecorded_append _ (h.found post' hpost hstored)

/-- A post that a look-up lets through to be graded is the only one of its entry. -/
theorem Recorded.alone_missed (h : Recorded env σ.posts σ.rows) {p : ℕ} {post : Post Q}
    (hok : Orderly env σ (.lookup p)) (hp : σ.posts[p]? = some post)
    (hmiss : env.replayRecorded σ.rows post.entry = false) {other : Post Q}
    (hother : other ∈ σ.posts) (hentry : other.entry = post.entry) : other.held = false := by
  rw [Post.held, Bool.or_eq_false_iff]
  constructor
  · simpa using fun hgrading => hok post hp other hother hgrading hentry
  · by_contra hstored
    have hfound := h.found other hother (by simpa using hstored)
    rw [hentry, hmiss] at hfound
    cases hfound

theorem Recorded.alone_step (h : Recorded env σ.posts σ.rows) (hok : Orderly env σ a)
    (hj : Judged env σ a posts rows) (p p' : ℕ) (post post' : Post Q)
    (hp : posts[p]? = some post) (hp' : posts[p']? = some post') (hentry : post.entry = post'.entry)
    (hheld : post.held = true) (hheld' : post'.held = true) : p = p' := by
  -- but for a look-up that finds nothing, whoever is held was held before
  have hbefore (horigin : ∀ (q : ℕ) (x : Post Q), posts[q]? = some x → x.held = true →
      ∃ y, σ.posts[q]? = some y ∧ y.entry = x.entry ∧ y.held = true) : p = p' := by
    obtain ⟨old, hold, he, hh⟩ := horigin p post hp hheld
    obtain ⟨old', hold', he', hh'⟩ := horigin p' post' hp' hheld'
    exact h.alone p p' old old' hold hold' (he.trans (hentry.trans he'.symm)) hh hh'
  have hset (q₀ : ℕ) (x₀ x₁ : Post Q) (hx₀ : σ.posts[q₀]? = some x₀) (hmoves : x₀.Moves x₁)
      (hposts : posts = σ.posts.set q₀ x₁) (himp : x₁.held = true → x₀.held = true) : p = p' := by
    refine hbefore fun q x hx hxheld => ?_
    rw [hposts] at hx
    rcases getElem?_set_eq_some hx with ⟨rfl, rfl⟩ | ⟨-, hold⟩
    · exact ⟨x₀, hx₀, hmoves.entry.symm, himp hxheld⟩
    · exact ⟨x, hold, rfl, hxheld⟩
  cases hj with
  | same a | other row => exact h.alone p p' post post' hp hp' hentry hheld hheld'
  | posted r i item hr hitem =>
    refine hbefore fun q x hx hxheld => ?_
    rcases Nat.lt_or_ge q σ.posts.length with hlt | hge
    · exact ⟨x, by rwa [getElem?_append_left hlt] at hx, rfl, hxheld⟩
    · -- the new post waits for its look-up
      rw [getElem?_append_right hge, getElem?_singleton] at hx
      split at hx <;> cases hx
      cases hxheld
  | closed a q₀ x₀ x₁ hx₀ hmoves hphase hst =>
    refine hset q₀ x₀ x₁ hx₀ hmoves rfl fun hh => ?_
    simp only [Post.held, Bool.or_eq_true, decide_eq_true_eq, hphase, false_or] at hh ⊢
    exact .inr (hst hh)
  | stored q₀ now x₀ x₁ hx₀ hmoves hphase =>
    exact hset q₀ x₀ x₁ hx₀ hmoves rfl fun _ => by simp [Post.held, hphase]
  | missed q₀ x₀ x₁ hx₀ hmoves hmiss hst =>
    have hnot {other : Post Q} (hother : other ∈ σ.posts) (he : other.entry = x₀.entry) :=
      h.alone_missed hok hx₀ hmiss hother he
    rcases getElem?_set_eq_some hp with ⟨rfl, rfl⟩ | ⟨-, hold⟩ <;>
      rcases getElem?_set_eq_some hp' with ⟨rfl, rfl⟩ | ⟨-, hold'⟩
    · rfl
    · have hfree := hnot (mem_of_getElem? hold') (hentry.symm.trans hmoves.entry)
      simp [hfree] at hheld'
    · have hfree := hnot (mem_of_getElem? hold) (hentry.trans hmoves.entry)
      simp [hfree] at hheld
    · exact h.alone p p' post post' hold hold' hentry hheld hheld'

end Step

theorem recorded (hsound : ∀ q, Sound (env.text q))
    (h : Reach (State.step env) (Orderly env) (State.initial done₀ rows₀) σ) :
    Recorded env σ.posts σ.rows := by
  refine h.invariant_of (I := fun s => Recorded env s.posts s.rows) (J := Tracked env done₀)
    (fun s hs => tracked hsound hs) ⟨?_, ?_⟩ ?_
  · intro post hpost
    cases hpost
  · intro p p' post post' hp
    simp [State.initial] at hp
  · intro s a s' htracked hs hok hstep
    have htimes (post : Post Q) (hpost : post ∈ s.posts) : 0 ≤ post.entry.tsMs :=
      (hsound _).times _ (htracked.source post hpost)
    exact ⟨fun post' => hs.found_step htimes hok (step_judged hstep),
      hs.alone_step hok (step_judged hstep)⟩

/-- **In every orderly run an entry's grade is stored at most once, an entry is marked done only
after a 200 and is not posted again, and a run without failures leaves nothing pending.** -/
theorem replay_exactly_once (hsound : ∀ q, Sound (env.text q)) {done₀ : Q → Option (List Char)}
    {rows₀ : List Row} (h : Reach (State.step env) (Orderly env) (State.initial done₀ rows₀) σ) :
    (∀ (p p' : ℕ) (post post' : Post Q), σ.posts[p]? = some post → σ.posts[p']? = some post' →
      post.entry = post'.entry → post.stored = true → post'.stored = true → p = p') ∧
    (∀ q, ∀ entry ∈ read (env.text q), entry.requestId ∈ doneIds (σ.done q) →
      entry.requestId ∈ doneIds (done₀ q) ∨
        ∃ post ∈ σ.posts, post.queue = q ∧ post.entry = entry ∧ post.phase = .answered 200) ∧
    (∀ σ', σ.step env .post = some σ' → ∃ post, σ'.posts = σ.posts ++ [post] ∧
      post.entry.requestId ∉ doneIds (σ.done post.queue)) ∧
    (∀ σ', σ.step env .finish = some σ' → ∃ r report, σ.run = some r ∧
      σ'.reports = σ.reports ++ [report] ∧
        (report.failed = [] → ∀ q ∈ r.queues, pending (env.text q) (σ'.done q) = [])) := by
  have htracked := tracked hsound h
  have hrecorded := recorded hsound h
  refine ⟨?_, htracked.answered, ?_, ?_⟩
  · intro p p' post post' hp hp' hentry hstored hstored'
    exact hrecorded.alone p p' post post' hp hp' hentry (Post.held_of_stored hstored)
      (Post.held_of_stored hstored')
  · intro σ' hs
    obtain ⟨r, i, item, hr, hitem, htodo, rfl⟩ := step_post hs
    exact ⟨_, rfl, (htracked.run r hr).unmarked i item hitem (by simp [htodo, Stage.open])⟩
  · intro σ' hs
    simp only [State.step, bind_eq_bind, bind_eq_some_iff] at hs
    obtain ⟨r, hr, hs⟩ := hs
    split at hs
    · next hall =>
      cases hs
      refine ⟨r, env.report r, hr, rfl, fun hfailed q hq => ?_⟩
      refine eq_nil_iff_forall_not_mem.mpr fun entry hentry => ?_
      obtain ⟨hread, hid⟩ := mem_pending.mp hentry
      rcases (htracked.run r hr).covered q hq entry hread with hin | ⟨i, item, hitem, rfl, rfl⟩
      · exact hid hin
      · -- an item of a finished run is marked or failed
        have hended := all_eq_true.mp hall item (mem_of_getElem? hitem)
        cases hstage : item.stage with
        | marked => exact hid ((htracked.run r hr).marked i item hitem hstage)
        | failed => exact (htracked.run r hr).failed i item hitem hstage hfailed
        | todo | posted p | accepted p | raised => simp [hstage, Stage.ended] at hended
    · cases hs

/-! ### A replay of one entry -/

/-- The one entry of a queue. -/
def queued : DeferredSubmit := submitAt 1700000000000 "0123456789abcdef0123456789abcdef"

/-- One queue with one entry, a source delivery for one kernel. -/
def oneQueue : Env Unit where
  text := fun _ => (queueAfter [⟨queued, .returned⟩]).getD []
  delivery := fun _ => {
    episodeId := "llr.n0.p0.w0", kernel := "gemm", optimizer := "", library := "",
    host := some "6b86b273", device := none }

theorem oneQueue_sound (q : Unit) : Sound (oneQueue.text q) := by
  show Sound ((queueAfter [⟨queued, .returned⟩]).getD [])
  exact .of_appends (by decide) (by decide) (by decide)

/-- A run over the queue has the entry to do. -/
theorem oneQueue_work : oneQueue.work (fun _ => none) [()] = [⟨(), queued, .todo⟩] := by
  have hread : read (oneQueue.text ()) = [queued] := by
    have hlands : lands none ⟨queued, .returned⟩ = true := lands_of_returned rfl
    have hrun := read_queueAfter [⟨queued, .returned⟩]
    rw [landed, hlands] at hrun
    exact hrun
  have hids : doneIds none = [] := rfl
  simp [Env.work, pending, hread, hids]

/-- A post of the entry. -/
def postIn (phase : Phase) (stored : Bool) : Post Unit := ⟨0, (), queued, phase, stored⟩

/-- A run over the queue, its one item in a stage. -/
def runIn (stage : Stage) : Option (Run Unit) :=
  some ⟨[()], 0, 1, [⟨(), queued, stage⟩], []⟩

/-- A state before anything is marked done. -/
def unmarked (posts : List (Post Unit)) (rows : List Row) (run : Option (Run Unit)) : State Unit :=
  ⟨fun _ => none, rows, posts, run, []⟩

/-- The row of the entry's grade. -/
def queuedRow (rows : List Row) : Row := oneQueue.rowOf rows (postIn .grading false) 0

theorem start_oneQueue (posts : List (Post Unit)) (rows : List Row) :
    (unmarked posts rows none).step oneQueue (.start [()] 0 1) =
      some (unmarked posts rows (runIn .todo)) := by
  show some { unmarked posts rows none with
    run := some ⟨[()], 0, 1, oneQueue.work (fun _ => none) [()], []⟩ } = _
  rw [oneQueue_work]
  rfl

/-- Before any grade is recorded, a look-up finds none. -/
theorem lookup_oneQueue {posts : List (Post Unit)} (run : Option (Run Unit))
    (hp : posts[p]? = some (postIn .received false)) :
    (unmarked posts [] run).step oneQueue (.lookup p) =
      some (unmarked (posts.set p (postIn .grading false)) [] run) := by
  have hmiss : oneQueue.replayRecorded [] queued = false := by
    unfold Env.replayRecorded
    cases replayTs queued <;> rfl
  simp [State.step, unmarked, hp, postIn, hmiss, State.phase]

theorem replay_exactly_once_one : ∃ σ σ', Reach (State.step oneQueue) (Orderly oneQueue)
    (State.initial (fun _ => none) []) σ ∧ σ.step oneQueue .finish = some σ' ∧
      pending (oneQueue.text ()) (σ'.done ()) = [] := by
  have hwindow : (queuedRow []).tsMs ≤ queued.tsMs + replayTwinWindowMs := by
    have hts : replayTs queued = some queued.tsMs := replayTs_of_nonneg (by decide)
    show (replayTs queued).getD 0 ≤ _
    rw [hts]
    decide
  have hrun : Reach (State.step oneQueue) (Orderly oneQueue) (State.initial (fun _ => none) [])
      { unmarked [postIn (.answered 200) true] [queuedRow []] (runIn .marked) with
        done := Function.update (fun _ => none) () (some ((doneLine queued).take 33)) } := by
    refine .head (a := .start [()] 0 1) (nodup_singleton ()) (start_oneQueue [] []) ?_
    refine .head (a := .post) trivial
      (show _ = some (unmarked [postIn .received false] [] (runIn (.posted 0))) from rfl) ?_
    refine .head ?_ (lookup_oneQueue (p := 0) (runIn (.posted 0)) rfl) ?_
    · rintro post ⟨⟩ other hother hgrading
      cases mem_singleton.mp hother
      cases hgrading
    refine .head (a := .record 0 true 0) ?_
      (show _ = some (unmarked [postIn (.answered 200) true] [queuedRow []] (runIn (.posted 0))) from rfl) ?_
    · rintro post ⟨⟩
      exact hwindow
    refine .head (a := .hear 0 "") trivial
      (show _ = some (unmarked [postIn (.answered 200) true] [queuedRow []] (runIn (.accepted 0))) from rfl) ?_
    refine .single (a := .mark 0 33) ?_ rfl
    rintro r ⟨⟩ item ⟨⟩
    decide
  refine ⟨_, _, hrun, rfl, ?_⟩
  obtain ⟨r, report, hr, hreports, hdone⟩ :=
    (replay_exactly_once oneQueue_sound hrun).2.2.2 _ rfl
  cases hr
  cases hreports
  exact hdone rfl () mem_cons_self

/-! ### A cut replay -/

/-- The first run is cut while the judge grades; the second posts the entry again, and both grades
are stored. -/
theorem recorded_twice : (∀ q, Sound (oneQueue.text q)) ∧ ∃ (σ : State Unit) (p p' : ℕ)
    (post post' : Post Unit),
    Reach (State.step oneQueue) always (State.initial (fun _ => none) []) σ ∧ p ≠ p' ∧
      σ.posts[p]? = some post ∧ σ.posts[p']? = some post' ∧ post.entry = post'.entry ∧
      post.stored = true ∧ post'.stored = true := by
  have hrun : Reach (State.step oneQueue) always (State.initial (fun _ => none) [])
      (unmarked
      [postIn (.answered 200) true, postIn (.answered 200) true]
      [queuedRow [], queuedRow [queuedRow []]] (runIn (.posted 1))) := by
    refine .head trivial (start_oneQueue [] []) ?_
    refine .head (a := .post) trivial
      (show _ = some (unmarked [postIn .received false] [] (runIn (.posted 0))) from rfl) ?_
    refine .head trivial (lookup_oneQueue (p := 0) (runIn (.posted 0)) rfl) ?_
    -- the judge grades on, and the next run finds nothing recorded
    refine .head (a := .cut) trivial
      (show _ = some (unmarked [postIn .grading false] [] none) from rfl) ?_
    refine .head trivial (start_oneQueue [postIn .grading false] []) ?_
    refine .head (a := .post) trivial
      (show _ = some (unmarked [postIn .grading false, postIn .received false] [] (runIn (.posted 1))) from rfl) ?_
    refine .head trivial (lookup_oneQueue (p := 1) (runIn (.posted 1)) rfl) ?_
    refine .head (a := .record 0 true 0) trivial
      (show _ = some (unmarked [postIn (.answered 200) true, postIn .grading false] [queuedRow []] (runIn (.posted 1))) from rfl) ?_
    exact .single (a := .record 1 true 0) trivial rfl
  exact ⟨oneQueue_sound, _, 0, 1, _, _, hrun, by decide, rfl, rfl, rfl, rfl, rfl⟩

end Deferred

end HpcAgentBench
