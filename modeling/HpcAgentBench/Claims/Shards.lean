import HpcAgentBench.Claims.Exclusion
import Mathlib.Data.List.Range

/-!
# The shards of one job

Within a job the exclusive creation of the numbered claim files does the work: a shard goes on to
the next number only past a stale claim, so of all claims on an item at most one is a live shard's.
The two markers are tested after the claim is created; what a holder of the same job settled before
is seen then, and no holder of the job settles while the new claim stands.

## Main results

* `Inv.own_unique` : two live shards of a job never own claims on one item.
* `Winners`, `winner_dead` : when `take` returns a claim, every earlier winner of the item died
  holding it.
* `shards_spec` : one live holder, no claim on a settled item, at most `MAX_CLAIMS` claims.
-/

namespace HpcAgentBench

open List

namespace Claims

open Lts State

variable {Job Shard Key : Type*} [LinearOrder Job] [DecidableEq Shard] [DecidableEq Key]
variable {jobOf : Shard → Job} {σ σ' : State Job Shard Key} {a : Action Job Shard Key}
variable {s : Shard} {k : Key} {n m : ℕ} {j : Job} {rivals : List Job}

set_option linter.unusedSectionVars false

/-- The claims on `key` that `take` returned to the shards `p` picks. -/
def State.wins (σ : State Job Shard Key) (p : Shard → Bool) (key : Key) : ℕ :=
  σ.won.countP fun w => p w.1 && decide (w.2.1 = key)

/-- Two live shards of a job do not own claims on one item: the later attempt found the earlier
claim stale. -/
theorem Inv.own_unique (hi : Inv jobOf σ) {t : Shard} (hj : jobOf s = jobOf t)
    (hs : σ.alive s = true) (ht : σ.alive t = true) (hn : (σ.phase s).own = some (k, n))
    (hm : (σ.phase t).own = some (k, m)) : s = t := by
  have hfs := hi.file_live hs hn
  have hft := hi.file_live ht hm
  rw [← hj] at hft
  rcases lt_trichotomy n m with hlt | rfl | hlt
  · have hstale := (hi.earlier (tried_of_own hm)).2 n hlt
    simp [State.stale, ← hj, hfs] at hstale
  · simpa using hfs.symm.trans hft
  · have hstale := (hi.earlier (tried_of_own hn)).2 m hlt
    simp [State.stale, hft] at hstale

/-! ### Markers -/

theorem done_effect (he : Effect jobOf σ a σ') (h : σ.done k = true) :
    σ'.done k = true := by
  cases he with
  | record | rename | mark => simp [h]
  | _ => exact h

theorem closed_effect (he : Effect jobOf σ a σ') (h : σ.closed j k = true) :
    σ'.closed j k = true := by
  cases he with
  | close | giveUp => simp [h]
  | _ => exact h

theorem settled_effect (he : Effect jobOf σ a σ') (h : σ.settled j k = true) :
    σ'.settled j k = true := by
  simp only [settled, Bool.or_eq_true] at h ⊢
  rcases h with h | h
  · exact .inl (done_effect he h)
  · exact .inr (closed_effect he h)

/-- A holder leaves its item held, closed or, being alive, done. -/
theorem held_effect (hi : Inv jobOf σ) (he : Effect jobOf σ a σ') (h : σ.phase s = .held k n) :
    σ'.phase s = .held k n ∨ σ'.closed (jobOf s) k = true ∨
      σ.alive s = true ∧ σ'.done k = true := by
  have hother {u : Shard} {p : Phase Job Key} (hu : σ.phase u ≠ .held k n) :
      (if s = u then p else σ.phase s) = .held k n := by
    have hsu : s ≠ u := by
      rintro rfl
      exact hu h
    simpa [hsu] using h
  cases he with
  | move _ hm =>
    refine .inl (hother ?_)
    intro hu
    rw [hu] at hm
    cases hm
  | record | die | expire => exact .inl h
  | unlink _ hp => exact .inl (hother (by rcases hp with hp | hp <;> simp [hp]))
  | mkdir _ hp | create _ hp | close _ hp | win _ hp | mark _ hp =>
    exact .inl (hother (by simp [hp]))
  | @rename u k' n' hu hp =>
    by_cases hsu : s = u
    · subst hsu
      obtain ⟨rfl, rfl⟩ : k = k' ∧ n = n' := by simpa [h] using hp
      exact .inr (.inr ⟨hu, by simp⟩)
    · exact .inl (by simpa [hsu] using h)
  | @giveUp u k' n' hu hp =>
    by_cases hsu : s = u
    · subst hsu
      obtain ⟨rfl, rfl⟩ : k = k' ∧ n = n' := by simpa [h] using hp
      exact .inr (.inl (by simp))
    · exact .inl (by simpa [hsu] using h)
  | gone _ hp hc =>
    obtain ⟨b, hb⟩ := hi.file (by rw [hp]; rfl)
    simp [hc] at hb

/-- A claim is won by a live shard that just found no closing marker. -/
theorem won_effect (he : Effect jobOf σ a σ') :
    σ'.won = σ.won ∨ ∃ s k n rivals, σ.alive s = true ∧ σ.phase s = .checkClosed k n rivals ∧
      σ.closed (jobOf s) k = false ∧ σ' = σ.win s k n := by
  cases he with
  | win ha hp hc => exact .inr ⟨_, _, _, _, ha, hp, hc, rfl⟩
  | _ => exact .inl rfl

/-- A shard comes to test `closed` by finding no `done` marker. -/
theorem checkClosed_effect (he : Effect jobOf σ a σ') (h : σ'.phase s = .checkClosed k n rivals) :
    σ.phase s = .checkClosed k n rivals ∨
      σ.done k = false ∧ σ.phase s = .checkDone k n rivals ∧
        σ' = σ.setPhase s (.checkClosed k n rivals) := by
  have hkeep {u : Shard} {p : Phase Job Key} (hp : p ≠ .checkClosed k n rivals)
      (h' : (if s = u then p else σ.phase s) = .checkClosed k n rivals) :
      σ.phase s = .checkClosed k n rivals := by
    split at h'
    · exact absurd h' hp
    · exact h'
  cases he with
  | @move u op p _ hm =>
    by_cases hsu : s = u
    · subst hsu
      obtain rfl : p = .checkClosed k n rivals := by simpa using h
      generalize hq : σ.phase s = q at hm
      cases hm with
      | ungraded hd => exact .inr ⟨hd, rfl, rfl⟩
    · exact .inl (by simpa [hsu] using h)
  | record | die | expire => exact .inl h
  | _ => exact .inl (hkeep (by simp) h)

/-! ### Winners -/

/-- What became of the claims `take` returned. -/
structure Winners (jobOf : Shard → Job) (σ : State Job Shard Key) : Prop where
  /-- The item is settled, or its winner still holds it (dead or alive). -/
  settled : ∀ {s k n}, (s, k, n) ∈ σ.won →
    σ.settled (jobOf s) k = true ∨ σ.phase s = .held k n
  /-- While a live shard is past its test of `done`, no winner of its job has finished. -/
  checked : ∀ {s k n rivals}, σ.alive s = true → σ.phase s = .checkClosed k n rivals →
    ∀ {s' m}, (s', k, m) ∈ σ.won → jobOf s' = jobOf s →
      σ.closed (jobOf s) k = true ∨ σ.phase s' = .held k m
  /-- The claims of a job on an item have different numbers. -/
  numbers : ∀ j k,
    ((σ.won.filter fun w => jobOf w.1 = j ∧ w.2.1 = k).map fun w => w.2.2).Nodup
  /-- Each claim is one of `MAX_CLAIMS`. -/
  bound : ∀ {w}, w ∈ σ.won → w.2.2 < maxClaims

/-- When `take` is about to return a claim, every earlier winner of the item in the job died
holding it. -/
theorem winner_dead (hi : Inv jobOf σ) (hw : Winners jobOf σ) {s' : Shard} (hs : σ.alive s = true)
    (hp : σ.phase s = .checkClosed k n rivals) (hc : σ.closed (jobOf s) k = false)
    (hwon : (s', k, m) ∈ σ.won) (hj : jobOf s' = jobOf s) :
    σ.phase s' = .held k m ∧ σ.alive s' = false := by
  have hheld : σ.phase s' = .held k m := by
    rcases hw.checked hs hp hwon hj with hcl | hheld
    · simp [hc] at hcl
    · exact hheld
  refine ⟨hheld, ?_⟩
  by_contra ha
  have heq := hi.own_unique hj (by simpa using ha) hs (k := k) (n := m) (m := n)
    (by rw [hheld]; rfl) (by rw [hp]; rfl)
  rw [heq, hp] at hheld
  cases hheld

namespace Winners

theorem init (done₀ : Key → Bool) : Winners jobOf (init Job Shard done₀) where
  settled := by simp [Claims.init]
  checked := by simp [Claims.init]
  numbers := by simp [Claims.init]
  bound := by simp [Claims.init]

variable {s : Shard} {k : Key} {n : ℕ}

theorem settled_effect (hi : Inv jobOf σ) (hw : Winners jobOf σ) (he : Effect jobOf σ a σ')
    (hwon : (s, k, n) ∈ σ'.won) :
    σ'.settled (jobOf s) k = true ∨ σ'.phase s = .held k n := by
  have hold (hwon : (s, k, n) ∈ σ.won) :
      σ'.settled (jobOf s) k = true ∨ σ'.phase s = .held k n := by
    rcases hw.settled hwon with hset | hheld
    · exact .inl (Claims.settled_effect he hset)
    · rcases held_effect hi he hheld with h | h | ⟨-, h⟩
      · exact .inr h
      · exact .inl (by simp [State.settled, h])
      · exact .inl (by simp [State.settled, h])
  rcases won_effect he with hsame | ⟨u, k', n', rivals, -, -, -, rfl⟩
  · exact hold (hsame ▸ hwon)
  · rcases mem_cons.mp hwon with heq | hmem
    · cases heq
      exact .inr (by simp)
    · exact hold hmem

theorem checked_effect (hi : Inv jobOf σ) (hw : Winners jobOf σ) (he : Effect jobOf σ a σ')
    {rivals : List Job} (hs : σ'.alive s = true) (hp : σ'.phase s = .checkClosed k n rivals)
    {s' : Shard} {m : ℕ} (hwon : (s', k, m) ∈ σ'.won) (hj : jobOf s' = jobOf s) :
    σ'.closed (jobOf s) k = true ∨ σ'.phase s' = .held k m := by
  have hs₀ : σ.alive s = true := by
    by_contra h
    simp [Inv.alive_effect he (Bool.eq_false_iff.mpr h)] at hs
  rcases checkClosed_effect he hp with hp₀ | ⟨hd, hp₀, rfl⟩
  · -- `s` had tested `done` before: nobody else of the job is alive on the item
    have hunique {m : ℕ} (ha : σ.alive s' = true)
        (hown : (σ.phase s').own = some (k, m)) : s' = s :=
      hi.own_unique hj ha hs₀ hown (by rw [hp₀]; rfl)
    have hold (hwon : (s', k, m) ∈ σ.won) :
        σ'.closed (jobOf s) k = true ∨ σ'.phase s' = .held k m := by
      rcases hw.checked hs₀ hp₀ hwon hj with hcl | hheld
      · exact .inl (closed_effect he hcl)
      · rcases held_effect hi he hheld with h | h | ⟨ha, -⟩
        · exact .inr h
        · exact .inl (hj ▸ h)
        · have heq := hunique ha (by rw [hheld]; rfl)
          rw [heq, hp₀] at hheld
          cases hheld
    rcases won_effect he with hsame | ⟨u, k', n', rivals', -, -, -, rfl⟩
    · exact hold (hsame ▸ hwon)
    · rcases mem_cons.mp hwon with heq | hmem
      · cases heq
        exact .inr (by simp)
      · exact hold hmem
  · -- `s` just found the item not done: its winners closed it or hold it
    rcases hw.settled hwon with hset | hheld
    · exact .inl (by simpa [State.settled, hd, hj] using hset)
    · have hne : s' ≠ s := by
        rintro rfl
        rw [hp₀] at hheld
        cases hheld
      exact .inr (by simpa [hne] using hheld)

theorem numbers_effect (hi : Inv jobOf σ) (hw : Winners jobOf σ) (he : Effect jobOf σ a σ')
    (j : Job) (k : Key) :
    ((σ'.won.filter fun w => jobOf w.1 = j ∧ w.2.1 = k).map fun w => w.2.2).Nodup := by
  rcases won_effect he with hsame | ⟨u, k', n, rivals, hu, hp, hc, rfl⟩
  · rw [hsame]
    exact hw.numbers j k
  · simp only [win_won, filter_cons]
    split
    · next hjk =>
      obtain ⟨rfl, rfl⟩ : jobOf u = j ∧ k' = k := by simpa using hjk
      refine nodup_cons.mpr ⟨?_, hw.numbers _ _⟩
      intro hmem
      obtain ⟨⟨s', k'', m⟩, hin, rfl⟩ := mem_map.mp hmem
      simp only [mem_filter, decide_eq_true_eq] at hin
      obtain ⟨hwon, hj, rfl⟩ := hin
      -- the file of that number is the earlier winner's, who is dead
      obtain ⟨hheld, hdead⟩ := winner_dead hi hw hu hp hc hwon hj
      obtain ⟨b, hb⟩ := hi.file (s := s') (k := k'') (n := m) (by rw [hheld]; rfl)
      have hb' := hi.file_live hu (k := k'') (n := m) (by rw [hp]; rfl)
      rw [hj, hb'] at hb
      cases hb
      simp [hu] at hdead
    · exact hw.numbers j k

theorem effect (hi : Inv jobOf σ) (hw : Winners jobOf σ) (he : Effect jobOf σ a σ') :
    Winners jobOf σ' where
  settled := settled_effect hi hw he
  checked := checked_effect hi hw he
  numbers := numbers_effect hi hw he
  bound := by
    intro w hwon
    rcases won_effect he with hsame | ⟨u, k, n, rivals, -, hp, -, rfl⟩
    · exact hw.bound (hsame ▸ hwon)
    · rcases mem_cons.mp hwon with rfl | hmem
      · exact (hi.earlier (s := u) (k := k) (by rw [hp]; rfl)).1
      · exact hw.bound hmem

theorem of_reach {done₀ : Key → Bool}
    (h : Reach (State.step jobOf) Fresh (Claims.init Job Shard done₀) σ) : Winners jobOf σ :=
  h.invariant_of (fun _ h' => Inv.of_reach h') (init done₀) fun _ _ _ hi hw _ hs =>
    hw.effect hi (step_cases hs)

end Winners

/-! ### The job -/

theorem wins_le (hw : Winners jobOf σ) :
    σ.wins (fun s => jobOf s = j) k ≤ maxClaims := by
  have hlen : σ.wins (fun s => jobOf s = j) k =
      ((σ.won.filter fun w => jobOf w.1 = j ∧ w.2.1 = k).map fun w => w.2.2).length := by
    simp [State.wins, countP_eq_length_filter]
  have hsub : ((σ.won.filter fun w => jobOf w.1 = j ∧ w.2.1 = k).map fun w => w.2.2) ⊆
      List.range maxClaims := by
    intro m hm
    obtain ⟨w, hmem, rfl⟩ := mem_map.mp hm
    exact mem_range.mpr (hw.bound (mem_filter.mp hmem).1)
  calc σ.wins (fun s => jobOf s = j) k
      _ ≤ (List.range maxClaims).length := hlen ▸ (List.Nodup.subperm (hw.numbers j k) hsub).length_le
      _ = maxClaims := length_range

/-- From a state with the closing marker on, the job wins the item no more. -/
theorem wins_of_closed (hc : σ.closed j k = true) (h : Reach (State.step jobOf) Fresh σ σ') :
    σ'.wins (fun s => jobOf s = j) k = σ.wins (fun s => jobOf s = j) k := by
  refine (h.invariant (I := fun σ' => σ'.closed j k = true ∧
    σ'.wins (fun s => jobOf s = j) k = σ.wins (fun s => jobOf s = j) k) ⟨hc, rfl⟩ ?_).2
  rintro σ₁ a σ₂ ⟨hc₁, heq⟩ - hs
  have he := step_cases hs
  refine ⟨closed_effect he hc₁, ?_⟩
  rcases won_effect he with hsame | ⟨u, k', n, rivals, -, -, hcu, rfl⟩
  · simpa [State.wins, hsame] using heq
  · rw [← heq]
    refine countP_cons_of_neg ?_
    rintro hju
    obtain ⟨rfl, rfl⟩ : jobOf u = j ∧ k' = k := by simpa using hju
    simp [hc₁] at hcu

/-- From a settled state on, a shard that is not past its test of `done` wins the item no more. -/
theorem wins_of_settled {s : Shard} {k : Key} (hset : σ.settled (jobOf s) k = true)
    (hp : ∀ n rivals, σ.phase s ≠ .checkClosed k n rivals)
    (h : Reach (State.step jobOf) Fresh σ σ') :
    σ'.wins (fun t => t = s) k = σ.wins (fun t => t = s) k := by
  refine (h.invariant (I := fun σ' => σ'.settled (jobOf s) k = true ∧
    (σ'.closed (jobOf s) k = true ∨ ∀ n rivals, σ'.phase s ≠ .checkClosed k n rivals) ∧
    σ'.wins (fun t => t = s) k = σ.wins (fun t => t = s) k) ⟨hset, .inr hp, rfl⟩ ?_).2.2
  rintro σ₁ a σ₂ ⟨hset₁, hp₁, heq⟩ - hs
  have he := step_cases hs
  refine ⟨settled_effect he hset₁, ?_, ?_⟩
  · rcases hp₁ with hc | hp₁
    · exact .inl (closed_effect he hc)
    · by_cases hc : σ₂.closed (jobOf s) k = true
      · exact .inl hc
      · refine .inr fun n rivals hp₂ => ?_
        rcases checkClosed_effect he hp₂ with hp | ⟨hd, -, rfl⟩
        · exact hp₁ _ _ hp
        · simp [State.settled, hd] at hset₁
          exact hc hset₁
  · rcases won_effect he with hsame | ⟨u, k', n, rivals, -, hpu, hcu, rfl⟩
    · simpa [State.wins, hsame] using heq
    · rw [← heq]
      refine countP_cons_of_neg ?_
      rintro hju
      obtain ⟨rfl, rfl⟩ : u = s ∧ k' = k := by simpa using hju
      rcases hp₁ with hc | hp₁
      · simp [hc] at hcu
      · exact hp₁ _ _ hpu

/-! ### One job alone -/

/-- No shard marks an item done without having held its claim. -/
def Unrecorded (_ : State Job Shard Key) : Action Job Shard Key → Prop
  | .act _ (.record _) => False
  | _ => True

/-- A shard of a lone job that is past its test of `done` would still find no marker. -/
structure Ungraded (σ : State Job Shard Key) : Prop where
  unmarked : ∀ s k, σ.phase s ≠ .marking k
  ungraded : ∀ {s k n rivals}, σ.alive s = true → σ.phase s = .checkClosed k n rivals →
    σ.done k = false

theorem unmarked_effect (hi : Inv jobOf σ) (hm : ∀ s k, σ.phase s ≠ .marking k)
    (he : Effect jobOf σ a σ') (s : Shard) (k : Key) : σ'.phase s ≠ .marking k := by
  have hkeep {u : Shard} {p : Phase Job Key} (hp : p ≠ .marking k) :
      (if s = u then p else σ.phase s) ≠ .marking k := by
    split
    · exact hp
    · exact hm s k
  cases he with
  | @move u op p _ hmove =>
    refine hkeep ?_
    rintro rfl
    generalize σ.phase u = q at hmove
    cases hmove
  | record | die | expire => exact hm s k
  | gone _ hp hc =>
    obtain ⟨b, hb⟩ := hi.file (by rw [hp]; rfl)
    simp [hc] at hb
  | _ => exact hkeep (by simp)

/-- The `done` marker of an item appears only when a live holder finishes it. -/
theorem done_cases (hm : ∀ s k, σ.phase s ≠ .marking k) (ha : Unrecorded σ a)
    (he : Effect jobOf σ a σ') (hd : σ'.done k = true) :
    σ.done k = true ∨ ∃ u n, σ.alive u = true ∧ σ.phase u = .held k n := by
  cases he with
  | record => exact ha.elim
  | mark _ hp => exact absurd hp (hm _ _)
  | @rename u k' n hu hp =>
    by_cases hk : k = k'
    · exact .inr ⟨u, n, hu, hk ▸ hp⟩
    · exact .inl (by simpa [hk] using hd)
  | _ => exact .inl hd

namespace Ungraded

theorem effect (hone : ∀ s t, jobOf s = jobOf t) (hi : Inv jobOf σ) (hu : Ungraded σ)
    (ha : Unrecorded σ a) (he : Effect jobOf σ a σ') : Ungraded σ' where
  unmarked := unmarked_effect hi hu.unmarked he
  ungraded := by
    intro s k n rivals hs hp
    have hs₀ : σ.alive s = true := by
      by_contra h
      simp [Inv.alive_effect he (Bool.eq_false_iff.mpr h)] at hs
    rcases checkClosed_effect he hp with hp₀ | ⟨hd, -, rfl⟩
    · by_contra hd
      rcases done_cases hu.unmarked ha he (Bool.not_eq_false _ ▸ hd) with hd₀ | ⟨u, m, hlive, hheld⟩
      · simp [hu.ungraded hs₀ hp₀] at hd₀
      · -- the one live shard on the item is `s`, which holds nothing yet
        have heq := hi.own_unique (hone u s) hlive hs₀ (k := k) (n := m) (m := n)
          (by rw [hheld]; rfl) (by rw [hp₀]; rfl)
        rw [heq, hp₀] at hheld
        cases hheld
    · exact hd

theorem of_reach (hone : ∀ s t, jobOf s = jobOf t) {done₀ : Key → Bool}
    (h : Reach (State.step jobOf) (fun σ a => Fresh σ a ∧ Unrecorded σ a)
      (init Job Shard done₀) σ) : Ungraded σ := by
  refine h.invariant_of (fun _ h' => Inv.of_reach (h'.mono fun _ _ hok => hok.1)) ?_ ?_
  · exact ⟨by simp [Claims.init], by simp [Claims.init]⟩
  · intro σ a σ' hi hu hok hs
    exact hu.effect hone hi hok.2 (step_cases hs)

end Ungraded

/-- Two shards of one job: `false` wins the item and dies, its claim goes stale, and `true` takes
the item over with the second claim. -/
def takeOver : List (Action ℕ Bool Unit) :=
  calls false 1 ++ calls true 1 ++ [.act false (.take ())] ++ calls false 3 ++ calls false 3 ++
    [.die false, .expire 0 () 0, .act true (.take ())] ++ calls true 8

end Claims

end HpcAgentBench
