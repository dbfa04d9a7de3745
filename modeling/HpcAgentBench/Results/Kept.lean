import HpcAgentBench.Results.Identity

/-!
# The copies of one row

What the copies of one row leave in the store.  A row of `episodes` fills the other copies'
defaults, the newest row of `canon` and `baseline_timings` wins, and every other row must agree with
the copy met first.

## Main results

* `kept_standing` : every copy that is merged is found again, or a newer one is.
* `standing_perm`, `standing_perm_newest` : when the order of the copies does not matter.
-/

namespace HpcAgentBench

open List

namespace Results

open Keyed

/-! ### What the store's rule keeps -/

section Kept

variable {table : Table} {version : ℕ} {s r : Known} {c x : ℕ × Known}

/-- What the store still says of a copy: its values where it is no default of an episode, all of
its values, or a newer measurement. -/
def Kept {E G : Type} (table : Table) (version : ℕ) (s r : Row E G) : Prop :=
  if table = .episodes then
    ∀ name ∈ table.columnsAt version,
      r.cols name = table.default name ∨ r.cols name = s.cols name
  else
    (∀ name ∈ table.columnsAt version, r.cols name = s.cols name) ∨
      table.newestWins = true ∧
        (r.time < s.time ∨ r.time = s.time ∧ table.tieKeepsStored = true)

theorem conflicts_eq_nil {E G : Type} {s r : Row E G} :
    conflicts table version s r = [] ↔ ∀ name ∈ table.columnsAt version,
      r.cols name = s.cols name ∨
        table = .episodes ∧
          (r.cols name = table.default name ∨ s.cols name = table.default name) := by
  simp only [conflicts, filter_eq_nil_iff, Bool.and_eq_true, decide_eq_true_eq,
    Bool.not_eq_true', Bool.and_eq_false_iff, Bool.or_eq_false_iff, decide_eq_false_iff_not, ne_eq]
  refine forall₂_congr fun name _ => ?_
  tauto

theorem conflicts_eq_nil_of_ne {E G : Type} {s r : Row E G} (h : table ≠ .episodes) :
    conflicts table version s r = [] ↔
      ∀ name ∈ table.columnsAt version, r.cols name = s.cols name := by
  simp only [conflicts_eq_nil, h, false_and, or_false]

/-- A copy a file can hold, under its key. -/
structure Good (key : Key) (c : ℕ × Known) : Prop where
  version : 13 ≤ c.1
  legal : c.2.Legal key.1 c.1
  key : c.2.key key.1 = key

/-- Measurements carry their time. -/
theorem ts_mem (hnewest : table.newestWins = true) (hversion : 13 ≤ version) :
    "ts_ms" ∈ table.columnsAt version := by
  have h : "ts_ms" ∈ table.columns.map (·.1) ∧ table.addedIn "ts_ms" = 13 := by
    cases table <;> first | cases hnewest; done | decide
  refine mem_filter.2 ⟨h.1, ?_⟩
  rw [h.2]
  exact decide_eq_true hversion

theorem time_of_agree (hnewest : table.newestWins = true) (hversion : 13 ≤ version)
    (h : ∀ name ∈ table.columnsAt version, r.cols name = s.cols name) : r.time = s.time := by
  rw [Row.time, Row.time, h _ (ts_mem hnewest hversion)]

theorem inserted_agrees (hlegal : r.Legal table version) :
    ∀ name ∈ table.columnsAt version, r.cols name = (inserted table version r).cols name := by
  intro name hname
  dsimp only [inserted]
  split_ifs with h
  · rfl
  · have hnull : r.cols name = .null := by_contra fun hne => h ⟨hname, hne⟩
    rw [hlegal name hname hnull, hnull]

theorem updated_agrees :
    ∀ name ∈ table.columnsAt version, r.cols name = (updated table version s r).cols name :=
  fun _ hname => (if_pos hname).symm

/-- A refused copy: one that differs and is not measured at another time. -/
theorem refuses_eq_false :
    (rule table).refuses s c = false ↔
      conflicts table c.1 s c.2 = [] ∨ table.newestWins = true ∧
        (c.2.time ≠ s.time ∨ table.tieKeepsStored = true) := by
  simp only [rule, Bool.and_eq_false_iff, Bool.or_eq_false_iff, decide_eq_false_iff_not, ne_eq,
    not_not, Bool.not_eq_false']

theorem ne_episodes_of_newest (h : table.newestWins = true) : table ≠ .episodes := by
  rintro rfl
  cases h

/-- The first copy is kept. -/
theorem kept_first (hlegal : r.Legal table version) :
    Kept table version (inserted table version r) r := by
  unfold Kept
  split_ifs
  · exact fun name hname => .inr (inserted_agrees hlegal name hname)
  · exact .inl (inserted_agrees hlegal)

/-- A copy that is not refused is kept. -/
theorem kept_self (hlegal : c.2.Legal table c.1)
    (hkey : c.2.keyOf table = s.keyOf table) (href : (rule table).refuses s c = false) :
    Kept table c.1 ((rule table).next s c) c.2 := by
  unfold Kept
  by_cases hte : table = .episodes
  · rw [if_pos hte]
    have hagree := (refuses_eq_false.1 href).resolve_right fun h =>
      ne_episodes_of_newest h.1 hte
    have hcols : ∀ name ∈ table.key, c.2.cols name = s.cols name := by
      simp only [Row.keyOf, Prod.mk.injEq] at hkey
      exact map_inj_left.1 hkey.2.2.2
    intro name hname
    simp only [rule, if_pos hagree, if_pos hte, filled]
    rcases conflicts_eq_nil.1 hagree name hname with h | ⟨-, h | h⟩
    · split_ifs
      · exact .inr rfl
      · exact .inr h
    · exact .inl h
    · split_ifs with hfill
      · exact .inr rfl
      · by_cases hnull : c.2.cols name = .null
        · exact .inl (hnull.trans (hlegal name hname hnull).symm)
        · have hmem : name ∈ table.key := by_contra fun hnot => hfill ⟨hname, hnull, hnot, h⟩
          exact .inr (hcols name hmem)
  · rw [if_neg hte]
    by_cases hagree : conflicts table c.1 s c.2 = []
    · simp only [rule, if_pos hagree, if_neg hte]
      exact .inl ((conflicts_eq_nil_of_ne hte).1 hagree)
    · obtain ⟨hnewest, htime⟩ := (refuses_eq_false.1 href).resolve_left hagree
      simp only [rule, if_neg hagree]
      split_ifs with hlt
      · exact .inl updated_agrees
      · refine .inr ⟨hnewest, ?_⟩
        rcases lt_or_eq_of_le (not_lt.1 hlt) with h | h
        · exact .inl h
        · exact .inr ⟨h, htime.resolve_left fun hne => hne h⟩

/-- A kept copy stays kept. -/
theorem kept_next (hversion : 13 ≤ c.1) (hversion' : 13 ≤ x.1)
    (hkept : Kept table x.1 s x.2) (href : (rule table).refuses s c = false) :
    Kept table x.1 ((rule table).next s c) x.2 := by
  unfold Kept at hkept ⊢
  by_cases hte : table = .episodes
  · rw [if_pos hte] at hkept ⊢
    have hagree := (refuses_eq_false.1 href).resolve_right fun h =>
      ne_episodes_of_newest h.1 hte
    intro name hname
    simp only [rule, if_pos hagree, if_pos hte, filled]
    rcases hkept name hname with h | h
    · exact .inl h
    · split_ifs with hfill
      · exact .inl (h.trans hfill.2.2.2)
      · exact .inr h
  · rw [if_neg hte] at hkept ⊢
    by_cases hagree : conflicts table c.1 s c.2 = []
    · simpa only [rule, if_pos hagree, if_neg hte] using hkept
    · obtain ⟨hnewest, -⟩ := (refuses_eq_false.1 href).resolve_left hagree
      simp only [rule, if_neg hagree]
      split_ifs with hlt
      · have htime : (updated table c.1 s c.2).time = c.2.time :=
          (time_of_agree hnewest hversion updated_agrees).symm
        refine .inr ⟨hnewest, .inl ?_⟩
        rw [htime]
        rcases hkept with h | ⟨-, h | ⟨h, -⟩⟩
        · exact (time_of_agree hnewest hversion' h).trans_lt hlt
        · exact h.trans hlt
        · exact h.trans_lt hlt
      · exact hkept

/-- A copy that is kept changes nothing when it comes again. -/
theorem again_of_kept (hkept : Kept table c.1 s c.2) :
    (rule table).refuses s c = false ∧ (rule table).next s c = s := by
  unfold Kept at hkept
  by_cases hte : table = .episodes
  · rw [if_pos hte] at hkept
    have hagree : conflicts table c.1 s c.2 = [] := by
      refine conflicts_eq_nil.2 fun name hname => ?_
      rcases hkept name hname with h | h
      · exact .inr ⟨hte, .inl h⟩
      · exact .inl h
    refine ⟨refuses_eq_false.2 (.inl hagree), ?_⟩
    simp only [rule, if_pos hagree, if_pos hte]
    have hcols : (filled table c.1 s c.2).cols = s.cols := by
      funext name
      dsimp only [filled]
      split_ifs with hfill
      · rcases hkept name hfill.1 with h | h
        · rw [h, hfill.2.2.2]
        · exact h
      · rfl
    rw [show filled table c.1 s c.2 = { s with cols := (filled table c.1 s c.2).cols } from rfl,
      hcols]
  · rw [if_neg hte] at hkept
    by_cases hagree : conflicts table c.1 s c.2 = []
    · refine ⟨refuses_eq_false.2 (.inl hagree), ?_⟩
      simp only [rule, if_pos hagree, if_neg hte]
    · rcases hkept with h | ⟨hnewest, h⟩
      · exact absurd ((conflicts_eq_nil_of_ne hte).2 h) hagree
      · refine ⟨refuses_eq_false.2 (.inr ⟨hnewest, ?_⟩), ?_⟩
        · rcases h with h | ⟨-, h⟩
          · exact .inl h.ne
          · exact .inr h
        · simp only [rule, if_neg hagree]
          refine if_neg (not_lt.2 ?_)
          rcases h with h | ⟨h, -⟩
          · exact h.le
          · exact h.le

end Kept

/-! ### What the copies of one row leave -/

section Standing

variable {key : Key} {copies copies' : List (ℕ × Known)} {s s' : Known}

theorem key_next {c : ℕ × Known} (hs : s.key key.1 = key) (hc : Good key c) :
    ((rule key.1).next s c).key key.1 = key := by
  have hkeys : c.2.keyOf key.1 = s.keyOf key.1 :=
    (Prod.ext_iff.1 hc.key).2.trans (Prod.ext_iff.1 hs).2.symm
  rw [← hs]
  refine Prod.ext rfl ?_
  simp only [rule]
  split_ifs
  · exact keyOf_filled s c.2
  · rfl
  · exact keyOf_updated s c.2 hkeys
  · rfl

/-- **Every copy that is merged is kept**: its values are found again, or a newer measurement
is. -/
theorem kept_standing (hgood : ∀ c ∈ copies, Good key c) (hclash : ¬(ruleOf key).Clash none copies)
    (hne : copies ≠ []) :
    ∃ s, (ruleOf key).standing none copies = some s ∧ s.key key.1 = key ∧
      ∀ c ∈ copies, Kept key.1 c.1 s c.2 := by
  refine Rule.standing_induction (P := Good key)
    (motive := fun before s => s.key key.1 = key ∧ ∀ c ∈ before, Kept key.1 c.1 s c.2)
    (fun c hc => ?_) (fun before s c hbefore hc hmotive href => ?_) hgood hclash hne
  · refine ⟨?_, fun x hx => ?_⟩
    · exact (Prod.ext rfl (keyOf_inserted hc.version hc.legal) :
        (inserted key.1 c.1 c.2).key key.1 = c.2.key key.1).trans hc.key
    · obtain rfl := mem_singleton.1 hx
      exact kept_first hc.legal
  · obtain ⟨hs, hkept⟩ := hmotive
    refine ⟨key_next hs hc, fun x hx => ?_⟩
    rcases mem_append.1 hx with hx | hx
    · exact kept_next hc.version (hbefore x hx).version (hkept x hx) href
    · obtain rfl := mem_singleton.1 hx
      exact kept_self hc.legal
        ((Prod.ext_iff.1 hc.key).2.trans (Prod.ext_iff.1 hs).2.symm) href

/-- Copies that are kept change nothing when they all come again. -/
theorem foldKey_again (hkept : ∀ c ∈ copies, Kept key.1 c.1 s c.2) :
    (ruleOf key).foldKey (some s) copies = some (some s) := by
  induction copies with
  | nil => rfl
  | cons c copies ih =>
    obtain ⟨hc, hkept⟩ := forall_mem_cons.1 hkept
    obtain ⟨href, hnext⟩ := again_of_kept hc
    have hput : (ruleOf key).put (some s) c = some s := by
      rw [Rule.put, if_neg (by simpa [ruleOf] using href)]
      exact congrArg some hnext
    rw [Rule.foldKey, hput]
    exact ih hkept

/-- Two copies of one episode that say different things. -/
def EpisodesDiffer (copies : List (ℕ × Known)) : Prop :=
  ∃ x ∈ copies, ∃ y ∈ copies, ∃ name ∈ Table.episodes.columnsAt x.1,
    name ∈ Table.episodes.columnsAt y.1 ∧
      x.2.cols name ≠ Table.episodes.default name ∧
      y.2.cols name ≠ Table.episodes.default name ∧ x.2.cols name ≠ y.2.cols name

/-- A copy that differs from the one met first, with the columns its file lacks at their
defaults. -/
def FirstDiffers (table : Table) : List (ℕ × Known) → Prop
  | [] => False
  | c :: copies => ∃ x ∈ copies, ∃ name ∈ table.columnsAt x.1,
      x.2.cols name ≠ (inserted table c.1 c.2).cols name

/-- What the copies leave is a default or comes from one of them. -/
def Origin (table : Table) (copies : List (ℕ × Known)) (s : Known) : Prop :=
  ∀ name, s.cols name ≠ table.default name →
    ∃ x ∈ copies, name ∈ table.columnsAt x.1 ∧ x.2.cols name = s.cols name

theorem origin_standing (hnewest : key.1.newestWins = false) (hgood : ∀ c ∈ copies, Good key c)
    (hclash : ¬(ruleOf key).Clash none copies) (hne : copies ≠ []) :
    ∃ s, (ruleOf key).standing none copies = some s ∧ Origin key.1 copies s := by
  refine Rule.standing_induction (P := Good key)
    (motive := fun before s => Origin key.1 before s)
    (fun c _ name hname => ?_) (fun before s c _ _ hmotive href name hname => ?_) hgood hclash hne
  · refine ⟨c, mem_singleton_self c, ?_⟩
    dsimp only [ruleOf, rule, inserted] at hname ⊢
    split_ifs at hname ⊢ with h
    · exact ⟨h.1, rfl⟩
    · exact absurd rfl hname
  · have hagree := (refuses_eq_false.1 href).resolve_right fun h => by rw [hnewest] at h; cases h.1
    have hold : s.cols name ≠ key.1.default name →
        ∃ x ∈ before ++ [c], name ∈ key.1.columnsAt x.1 ∧ x.2.cols name = s.cols name := by
      intro hs
      obtain ⟨x, hx, hmem, hval⟩ := hmotive name hs
      exact ⟨x, mem_append_left _ hx, hmem, hval⟩
    simp only [ruleOf, rule, if_pos hagree] at hname ⊢
    split_ifs at hname ⊢ with hepisodes
    · dsimp only [filled] at hname ⊢
      split_ifs at hname ⊢ with hfill
      · exact ⟨c, mem_append_right _ (mem_singleton_self c), hfill.1, rfl⟩
      · exact hold hname
    · exact hold hname

/-- The copies of an episode clash when two of them differ, in whatever order. -/
theorem clash_episodes (hepisodes : key.1 = .episodes) (hgood : ∀ c ∈ copies, Good key c) :
    (ruleOf key).Clash none copies ↔ EpisodesDiffer copies := by
  constructor
  · intro hclash
    obtain ⟨before, c, after, rfl, hnot, s, hs, href⟩ := Rule.first_clash hclash
    have hbefore : ∀ x ∈ before, Good key x := fun x hx => hgood x (mem_append_left _ hx)
    have hne : before ≠ [] := by
      rintro rfl
      cases hs
    obtain ⟨s', hs', horigin⟩ := origin_standing (by rw [hepisodes]; rfl) hbefore hnot hne
    obtain rfl : s = s' := Option.some.inj (hs.symm.trans hs')
    have hdiffer : conflicts key.1 c.1 s c.2 ≠ [] := fun h => by
      rw [ruleOf, (refuses_eq_false.2 (.inl h) : (rule key.1).refuses s c = false)] at href
      cases href
    rw [Ne, conflicts_eq_nil] at hdiffer
    push Not at hdiffer
    obtain ⟨name, hname, hval, hdefault⟩ := hdiffer
    obtain ⟨hc, hsd⟩ := hdefault hepisodes
    obtain ⟨x, hx, hmem, hxs⟩ := horigin name hsd
    rw [hepisodes] at hname hmem hc hsd
    exact ⟨c, mem_append_right _ mem_cons_self, x, mem_append_left _ hx, name, hname,
      hmem, hc, by rw [hxs]; exact hsd, by rw [hxs]; exact hval⟩
  · rintro ⟨x, hx, y, hy, name, hname, hname', hxd, hyd, hxy⟩
    by_contra hclash
    obtain ⟨s, -, -, hkept⟩ := kept_standing hgood hclash (ne_nil_of_mem hx)
    have hkx := hkept x hx
    have hky := hkept y hy
    rw [Kept, if_pos hepisodes, hepisodes] at hkx hky
    exact hxy (((hkx name hname).resolve_left hxd).trans ((hky name hname').resolve_left hyd).symm)

/-- The copies of a row of a plain table clash when one differs from the first. -/
theorem clash_plain (hepisodes : key.1 ≠ .episodes) (hnewest : key.1.newestWins = false) :
    (ruleOf key).Clash none copies ↔ FirstDiffers key.1 copies := by
  have hsettled : ∀ (s : Known) (copies : List (ℕ × Known)),
      (ruleOf key).Clash (some s) copies ↔
        ∃ x ∈ copies, ∃ name ∈ key.1.columnsAt x.1, x.2.cols name ≠ s.cols name := by
    intro s copies
    induction copies with
    | nil =>
      refine iff_of_false Rule.not_clash_nil ?_
      rintro ⟨x, hx, -⟩
      cases hx
    | cons c copies ih =>
      have href : (ruleOf key).refuses s c = true ↔
          ∃ name ∈ key.1.columnsAt c.1, c.2.cols name ≠ s.cols name := by
        rw [← Bool.not_eq_false, ruleOf, refuses_eq_false, conflicts_eq_nil_of_ne hepisodes, hnewest]
        simp
      rw [Rule.clash_cons]
      by_cases hagree : conflicts key.1 c.1 s c.2 = []
      · have hnext : (ruleOf key).settle (some s) c = s := by
          simp only [Rule.settle, ruleOf, rule, if_pos hagree, if_neg hepisodes]
        rw [hnext, ih]
        simp [href]
      · have hdiffer : ∃ name ∈ key.1.columnsAt c.1, c.2.cols name ≠ s.cols name := by
          rw [conflicts_eq_nil_of_ne hepisodes] at hagree
          push Not at hagree
          exact hagree
        exact iff_of_true (.inl ⟨s, rfl, href.2 hdiffer⟩) ⟨c, mem_cons_self, hdiffer⟩
  cases copies with
  | nil => exact iff_of_false Rule.not_clash_nil id
  | cons c copies =>
    rw [Rule.clash_cons, or_iff_right (by rintro ⟨_, h, _⟩; cases h)]
    exact hsettled _ copies

/-- Copies of a table whose ties keep the stored row never clash. -/
theorem not_clash_ties (hnewest : key.1.newestWins = true) (hties : key.1.tieKeepsStored = true) :
    ¬(ruleOf key).Clash none copies := by
  rintro ⟨before, c, after, -, s, -, href⟩
  rw [ruleOf, (refuses_eq_false.2 (.inr ⟨hnewest, .inr hties⟩) : (rule key.1).refuses s c = false)]
    at href
  cases href

/-! ### Two orders of the copies -/

variable (key) in
/-- A row is its key's references and its columns. -/
theorem row_eq (hkey : s.key key.1 = s'.key key.1) (hcols : s.cols = s'.cols) : s = s' := by
  simp only [Row.key, Row.keyOf, Prod.mk.injEq, true_and] at hkey
  obtain ⟨h1, h2, h3, -⟩ := hkey
  cases s
  cases s'
  simp_all

/-- Where no measurement wins, what the copies leave does not depend on their order. -/
theorem standing_perm (hperm : copies.Perm copies') (hnewest : key.1.newestWins = false)
    (hgood : ∀ c ∈ copies, Good key c) (hclash : ¬(ruleOf key).Clash none copies)
    (hclash' : ¬(ruleOf key).Clash none copies') :
    (ruleOf key).standing none copies = (ruleOf key).standing none copies' := by
  by_cases hne : copies = []
  · subst hne
    rw [hperm.nil_eq]
  have hne' : copies' ≠ [] := fun h => hne (by rw [h] at hperm; exact hperm.eq_nil)
  have hgood' : ∀ c ∈ copies', Good key c := fun c hc => hgood c (hperm.mem_iff.2 hc)
  obtain ⟨s, hs, hkey, hkept⟩ := kept_standing hgood hclash hne
  obtain ⟨s', hs', hkey', hkept'⟩ := kept_standing hgood' hclash' hne'
  obtain ⟨t, ht, horigin⟩ := origin_standing hnewest hgood hclash hne
  obtain ⟨t', ht', horigin'⟩ := origin_standing hnewest hgood' hclash' hne'
  obtain rfl : s = t := Option.some.inj (hs.symm.trans ht)
  obtain rfl : s' = t' := Option.some.inj (hs'.symm.trans ht')
  have hvalue : ∀ {copies : List (ℕ × Known)} {s : Known}, (∀ c ∈ copies, Kept key.1 c.1 s c.2) →
      ∀ x ∈ copies, ∀ name ∈ key.1.columnsAt x.1, x.2.cols name ≠ key.1.default name →
        x.2.cols name = s.cols name := by
    intro copies s hkept x hx name hname hval
    have h := hkept x hx
    unfold Kept at h
    split_ifs at h
    · exact (h name hname).resolve_left hval
    · rcases h with h | h
      · exact h name hname
      · rw [hnewest] at h; cases h.1
  rw [hs, hs']
  refine congrArg some (row_eq key (hkey.trans hkey'.symm) (funext fun name => ?_))
  by_cases hdefault : s.cols name = key.1.default name
  · by_contra hdiffer
    obtain ⟨x, hx, hmem, hval⟩ := horigin' name fun h => hdiffer (hdefault.trans h.symm)
    exact hdiffer ((hvalue hkept x (hperm.mem_iff.2 hx) name hmem fun h =>
      hdiffer (hdefault.trans (h.symm.trans hval))).symm.trans hval)
  · obtain ⟨x, hx, hmem, hval⟩ := horigin name hdefault
    rw [← hval]
    exact hvalue hkept' x (hperm.mem_iff.1 hx) name hmem (by rw [hval]; exact hdefault)

/-- Two copies of one measurement, of one time, that differ. -/
def TiesDiffer (columns : List String) (copies : List (ℕ × Known)) : Prop :=
  ∃ x ∈ copies, ∃ y ∈ copies, x.2.time = y.2.time ∧ ∃ name ∈ columns, x.2.cols name ≠ y.2.cols name

theorem columnsAt_baselineTimings {version : ℕ} (hversion : 13 ≤ version) :
    Table.baselineTimings.columnsAt version = Table.baselineTimings.columnsAt 20 :=
  filter_congr fun name _ => by
    have hadded : Table.baselineTimings.addedIn name = 13 := rfl
    rw [hadded, decide_eq_true hversion]
    rfl

section Newest

variable {columns : List String}

theorem time_inserted (hnewest : key.1.newestWins = true) {c : ℕ × Known} (hc : Good key c) :
    (inserted key.1 c.1 c.2).time = c.2.time :=
  (time_of_agree hnewest hc.version (inserted_agrees hc.legal)).symm

/-- The copies of a measurement with the same columns leave one of the newest. -/
theorem newest_standing (hnewest : key.1.newestWins = true) (hgood : ∀ c ∈ copies, Good key c)
    (hcolumns : ∀ c ∈ copies, key.1.columnsAt c.1 = columns)
    (hclash : ¬(ruleOf key).Clash none copies) (hne : copies ≠ []) :
    ∃ s, (ruleOf key).standing none copies = some s ∧
      ∃ x ∈ copies, (∀ y ∈ copies, y.2.time ≤ x.2.time) ∧ s = inserted key.1 x.1 x.2 := by
  refine Rule.standing_induction (P := fun c => Good key c ∧ key.1.columnsAt c.1 = columns)
    (motive := fun before s => ∃ x ∈ before, (∀ y ∈ before, y.2.time ≤ x.2.time) ∧
      s = inserted key.1 x.1 x.2)
    (fun c _ => ⟨c, mem_singleton_self c, fun y hy => ?_, rfl⟩)
    (fun before s c hbefore hc hmotive href => ?_) (fun c hc => ⟨hgood c hc, hcolumns c hc⟩)
    hclash hne
  · rw [mem_singleton.1 hy]
  · obtain ⟨hc, hcols⟩ := hc
    obtain ⟨x, hx, hmax, rfl⟩ := hmotive
    have htime := time_inserted hnewest (hbefore x hx).1
    have hkeep : c.2.time ≤ x.2.time → ∃ z ∈ before ++ [c],
        (∀ y ∈ before ++ [c], y.2.time ≤ z.2.time) ∧
          inserted key.1 x.1 x.2 = inserted key.1 z.1 z.2 := by
      refine fun hle => ⟨x, mem_append_left _ hx, fun y hy => ?_, rfl⟩
      rcases mem_append.1 hy with hy | hy
      · exact hmax y hy
      · rw [mem_singleton.1 hy]
        exact hle
    simp only [ruleOf, rule, if_neg (ne_episodes_of_newest hnewest)]
    split_ifs with hagree hlt
    · refine hkeep (le_of_eq ?_)
      rw [← htime]
      exact time_of_agree hnewest hc.version
        ((conflicts_eq_nil_of_ne (ne_episodes_of_newest hnewest)).1 hagree)
    · rw [htime] at hlt
      refine ⟨c, mem_append_right _ (mem_singleton_self c), fun y hy => ?_, ?_⟩
      · rcases mem_append.1 hy with hy | hy
        · exact (hmax y hy).trans hlt.le
        · rw [mem_singleton.1 hy]
      · -- the newer copy has every column of the stored one
        have hupdated : (updated key.1 c.1 (inserted key.1 x.1 x.2) c.2).cols =
            (inserted key.1 c.1 c.2).cols := by
          funext name
          have hlegal := hc.legal name
          dsimp only [updated, inserted]
          rw [hcols] at hlegal ⊢
          rw [(hbefore x hx).2]
          by_cases hname : name ∈ columns
          · simp only [hname, if_true, true_and]
            split_ifs with hnull
            · rfl
            · rw [not_not] at hnull
              rw [hlegal hname hnull, hnull]
          · simp [hname]
        exact congrArg (fun cols => ({ c.2 with cols := cols } : Known)) hupdated
    · rw [htime] at hlt
      exact hkeep (not_lt.1 hlt)

/-- Without differing ties, what the copies of a measurement leave does not depend on their
order. -/
theorem standing_perm_newest (hperm : copies.Perm copies') (hnewest : key.1.newestWins = true)
    (hgood : ∀ c ∈ copies, Good key c) (hcolumns : ∀ c ∈ copies, key.1.columnsAt c.1 = columns)
    (hclash : ¬(ruleOf key).Clash none copies) (hclash' : ¬(ruleOf key).Clash none copies')
    (hties : ¬TiesDiffer columns copies) :
    (ruleOf key).standing none copies = (ruleOf key).standing none copies' := by
  by_cases hne : copies = []
  · subst hne
    rw [hperm.nil_eq]
  have hne' : copies' ≠ [] := fun h => hne (by rw [h] at hperm; exact hperm.eq_nil)
  have hgood' : ∀ c ∈ copies', Good key c := fun c hc => hgood c (hperm.mem_iff.2 hc)
  have hcolumns' : ∀ c ∈ copies', key.1.columnsAt c.1 = columns :=
    fun c hc => hcolumns c (hperm.mem_iff.2 hc)
  obtain ⟨s, hs, x, hx, hmax, rfl⟩ := newest_standing hnewest hgood hcolumns hclash hne
  obtain ⟨s', hs', x', hx', hmax', rfl⟩ := newest_standing hnewest hgood' hcolumns' hclash' hne'
  have htime : x.2.time = x'.2.time :=
    le_antisymm (hmax' x (hperm.mem_iff.1 hx)) (hmax x' (hperm.mem_iff.2 hx'))
  rw [hs, hs']
  refine congrArg some (row_eq key ?_ (funext fun name => ?_))
  · have hk := (hgood x hx).key.trans (hgood' x' hx').key.symm
    have h1 := keyOf_inserted (hgood x hx).version (hgood x hx).legal
    have h2 := keyOf_inserted (hgood' x' hx').version (hgood' x' hx').legal
    exact Prod.ext rfl (h1.trans ((Prod.ext_iff.1 hk).2.trans h2.symm))
  · dsimp only [inserted]
    rw [hcolumns x hx, hcolumns' x' hx']
    by_cases hname : name ∈ columns
    · have heq : x.2.cols name = x'.2.cols name := by_contra fun hdiffer =>
        hties ⟨x, hx, x', hperm.mem_iff.2 hx', htime, name, hname, hdiffer⟩
      rw [heq]
    · simp [hname]

end Newest

end Standing

end Results

end HpcAgentBench
