import HpcAgentBench.Results.Finals

/-!
# What a collapse leaves

The groups of all submissions hold each final row that is not apart once, so collapsing them one
after the other collapses each as it was found.

## Main results

* `collapseGroups_ok` : what collapsing disjoint groups leaves.
* `mem_finalsOf_out` : the final rows left, one per class of rows.
* `collapseFinals_spec` : **one final row per stamp with the winner's values and children, nothing
  else changed, and a second collapse changes nothing.**
-/

namespace HpcAgentBench

open List

namespace Results

namespace Finals

/-! ### Collapsing disjoint groups -/

/-- The row of a group whose values are kept. -/
def winnerOf (group : List ℤ) : ℤ := group.headD 0

/-- The id under which a group's row is kept. -/
def keepIn : List ℤ → ℤ
  | [] => 0
  | winner :: rest => keepOf winner rest

variable {group : List ℤ}

theorem winnerOf_mem (h : group ≠ []) : winnerOf group ∈ group := by
  cases group with
  | nil => exact absurd rfl h
  | cons id rest => exact mem_cons_self

theorem keepIn_mem (h : group ≠ []) : keepIn group ∈ group := by
  cases group with
  | nil => exact absurd rfl h
  | cons id rest => exact keepOf_mem id rest

/-- What collapsing several groups leaves. -/
structure CollapsedAll (main out : Main) (groups : List (List ℤ)) : Prop where
  ids : (out.rows .grades).map (·.1) =
    ((main.rows .grades).map (·.1)).filter fun id => ∀ group ∈ groups, id ∈ group → id = keepIn group
  values : ∀ group ∈ groups,
    (out.rows .grades).lookup (keepIn group) = (main.rows .grades).lookup (winnerOf group)
  grades : (out.rows .grades).filter (·.1 ∉ groups.flatten) =
    (main.rows .grades).filter (·.1 ∉ groups.flatten)
  children : ∀ group ∈ groups, ∀ table ∈ gradeChildren,
    ((out.rows table).filter fun p => p.2.grade = some (keepIn group)).map (·.2.cols) =
      ((main.rows table).filter fun p => p.2.grade = some (winnerOf group)).map (·.2.cols)
  gone : ∀ group ∈ groups, ∀ table ∈ gradeChildren, ∀ p ∈ out.rows table,
    Main.childOf group p = true → p.2.grade = some (keepIn group)
  others : ∀ table ∈ gradeChildren, ((out.rows table).filter fun p =>
    !Main.childOf groups.flatten p) = (main.rows table).filter fun p =>
      !Main.childOf groups.flatten p
  tables : ∀ table, table ≠ .grades → table ∉ gradeChildren → out.rows table = main.rows table

section Groups

variable {main m out : Main} {group : List ℤ} {groups : List (List ℤ)}

theorem collapsedAll_nil : CollapsedAll main main [] where
  ids := (filter_eq_self.2 fun _ _ => by simp).symm
  values := by simp
  grades := rfl
  children := by simp
  gone := by simp
  others _ _ := rfl
  tables _ _ _ := rfl

/-- Rows outside a larger set are unchanged where rows outside a smaller one are. -/
theorem filter_eq_of_filter_eq {α : Type*} {p q : α → Bool} {l l' : List α}
    (h : l.filter p = l'.filter p) (hpq : ∀ a, q a = true → p a = true) :
    l.filter q = l'.filter q := by
  have hfilter : ∀ k : List α, k.filter q = (k.filter p).filter q := fun k => by
    rw [filter_filter]
    refine filter_congr fun a _ => ?_
    cases hq : q a
    · simp
    · simp [hpq a hq]
  rw [hfilter l, hfilter l', h]

/-- Groups collapsed one after the other. -/
theorem collapsedAll_cons (hne : ∀ g ∈ group :: groups, g ≠ [])
    (hdisjoint : ∀ id ∈ group, id ∉ groups.flatten)
    (h : Collapsed main m group (winnerOf group) (keepIn group))
    (hs : CollapsedAll m out groups) : CollapsedAll main out (group :: groups) := by
  have hkeep := keepIn_mem (hne group mem_cons_self)
  have hkeep' := hdisjoint _ hkeep
  have hflat : (group :: groups).flatten = group ++ groups.flatten := flatten_cons
  have hmem : ∀ g ∈ groups, ∀ id ∈ g, id ∈ groups.flatten ∧ id ∉ group := fun g hg id hid =>
    ⟨mem_flatten.2 ⟨g, hg, hid⟩, fun hid' =>
      hdisjoint id hid' (mem_flatten.2 ⟨g, hg, hid⟩)⟩
  have hchild : ∀ (g : List ℤ) (p : ℤ × Row ℤ ℤ), Main.childOf (group ++ groups.flatten) p = false →
      Main.childOf group p = false ∧ Main.childOf groups.flatten p = false := by
    intro g p hp
    cases hgrade : p.2.grade with
    | none => simp [Main.childOf, hgrade]
    | some id => simpa [Main.childOf, hgrade, not_or] using hp
  refine ⟨?_, ?_, ?_, ?_, ?_, ?_, fun table h₁ h₂ => (hs.tables table h₁ h₂).trans
    (h.tables table h₁ h₂)⟩
  · rw [hs.ids, h.ids, filter_filter]
    refine filter_congr fun id _ => ?_
    rw [Bool.eq_iff_iff]
    simp only [Bool.and_eq_true, decide_eq_true_eq, forall_mem_cons]
    constructor
    · rintro ⟨hall, hor⟩
      exact ⟨fun hid => hor.resolve_left (not_not_intro hid), hall⟩
    · rintro ⟨hid, hall⟩
      exact ⟨hall, or_iff_not_imp_left.2 fun hnot => hid (not_not.1 hnot)⟩
  · intro g hg
    rcases mem_cons.1 hg with rfl | hg'
    · rw [lookup_eq_of_filter_eq hs.grades hkeep', h.values]
    · rw [hs.values g hg',
        lookup_eq_of_filter_eq h.grades (hmem g hg' _ (winnerOf_mem (hne g hg))).2]
  · rw [hflat]
    refine (filter_eq_of_filter_eq hs.grades fun p hp => ?_).trans
      (filter_eq_of_filter_eq h.grades fun p hp => ?_)
    · simp only [mem_append, not_or, decide_eq_true_eq] at hp ⊢
      exact hp.2
    · simp only [mem_append, not_or, decide_eq_true_eq] at hp ⊢
      exact hp.1
  · intro g hg table htable
    rcases mem_cons.1 hg with rfl | hg'
    · rw [← h.children table htable]
      refine congrArg _ (filter_eq_of_filter_eq (hs.others table htable) fun p hp => ?_)
      simpa [Main.childOf, of_decide_eq_true hp] using hkeep'
    · rw [hs.children g hg' table htable]
      refine congrArg _ (filter_eq_of_filter_eq (h.others table htable) fun p hp => ?_)
      simpa [Main.childOf, of_decide_eq_true hp] using
        (hmem g hg' _ (winnerOf_mem (hne g hg))).2
  · intro g hg table htable p hp hchildOf
    rcases mem_cons.1 hg with rfl | hg'
    · obtain ⟨id, hid, hgrade⟩ := Main.childOf_iff.1 hchildOf
      -- the later groups leave the group's children alone
      have hp' : p ∈ (out.rows table).filter fun p => !Main.childOf groups.flatten p :=
        mem_filter.2 ⟨hp, by simpa [Main.childOf, hgrade] using hdisjoint id hid⟩
      rw [hs.others table htable] at hp'
      exact h.gone table htable p (mem_filter.1 hp').1 hchildOf
    · exact hs.gone g hg' table htable p hp hchildOf
  · intro table htable
    rw [hflat]
    refine (filter_eq_of_filter_eq (hs.others table htable) fun p hp => ?_).trans
      (filter_eq_of_filter_eq (h.others table htable) fun p hp => ?_)
    · simpa using (hchild group p (by simpa using hp)).2
    · simpa using (hchild group p (by simpa using hp)).1

/-- **Disjoint groups collapse each as it was found**; a group of one row is left alone. -/
theorem collapseGroups_ok {st st' : Main × ℕ} (hne : ∀ g ∈ groups, g ≠ [])
    (hdisjoint : groups.flatten.Nodup)
    (hmem : ∀ id ∈ groups.flatten, id ∈ (st.1.rows .grades).map (·.1))
    (h : groups.foldlM collapseGroup st = .ok st') :
    CollapsedAll st.1 st'.1 (groups.filter fun g => 2 ≤ g.length) := by
  induction groups generalizing st with
  | nil =>
    cases h
    exact collapsedAll_nil
  | cons g groups ih =>
    rw [flatten_cons, nodup_append] at hdisjoint
    obtain ⟨-, hdisjoint, hcross⟩ := hdisjoint
    rw [foldlM_cons] at h
    obtain ⟨st₁, h₁, hrun⟩ := bind_eq_ok.1 h
    clear h
    have hne' : ∀ g' ∈ groups, g' ≠ [] := fun g' hg' => hne g' (mem_cons_of_mem _ hg')
    match g, hne g mem_cons_self with
    | [id], _ =>
      cases h₁
      exact ih hne' hdisjoint (fun id' hid' => hmem id' (by simp [hid'])) hrun
    | winner :: second :: rest, _ =>
      have hone := collapseGroup_ok (hmem _ (by
        rw [flatten_cons]
        exact mem_append_left _ (keepOf_mem winner (second :: rest)))) h₁
      have hmem' : ∀ id ∈ groups.flatten, id ∈ (st₁.1.rows .grades).map (·.1) := fun id' hid' => by
        rw [hone.ids, mem_filter]
        refine ⟨hmem id' (by simp [hid']), ?_⟩
        exact decide_eq_true (.inl fun hg => hcross id' hg id' hid' rfl)
      have hrest := ih hne' hdisjoint hmem' hrun
      rw [filter_cons_of_pos (by simp)]
      refine collapsedAll_cons (fun g' hg' => ?_) (fun id hid hflat => ?_) hone hrest
      · rcases mem_cons.1 hg' with rfl | hg'
        · exact cons_ne_nil _ _
        · exact hne' g' (mem_filter.1 hg').1
      · obtain ⟨g', hg', hid'⟩ := mem_flatten.1 hflat
        exact hcross id hid id (mem_flatten.2 ⟨g', (mem_filter.1 hg').1, hid'⟩) rfl

end Groups

/-! ### The groups of a database -/

/-- The final rows of one submission that are not apart. -/
def finalsOf (main : Main) (apart : List String) (submission : ℤ) : List FinalRow :=
  ((finals main apart).filter (·.1 = submission)).map (·.2)

/-- The rows of a submission that collapse together, the winner first. -/
def membersOf (main : Main) (apart : List String) (onChange : ProtocolChange) (submission : ℤ)
    (c : String) : List FinalRow :=
  (rankedRows (finalsOf main apart submission)).filter
    (classOf onChange (finalsOf main apart submission) · = c)

/-- The groups of one submission's rows. -/
def groupsOf (onChange : ProtocolChange) (rows : List FinalRow) : List (List ℤ) :=
  (Dict.group (classOf onChange rows) (·.id) (rankedRows rows)).items.map (·.2)

/-- The groups of all submissions. -/
def allGroups (main : Main) (apart : List String) (onChange : ProtocolChange) : List (List ℤ) :=
  ((bySubmission main apart).items.map (·.2)).flatMap (groupsOf onChange)

section Database

variable {main : Main} {apart : List String} {onChange : ProtocolChange} {s : ℤ} {c : String}

variable {f : FinalRow}

theorem mem_finals :
    (s, f) ∈ finals main apart ↔ ∃ row, (f.id, row) ∈ main.rows .grades ∧ row.ofGrade = some s ∧
      row.cols "kind" = .text "final" ∧ f.stamp ∉ apart ∧
      f.stamp = (row.cols "timing_reduction").toText ∧ f.ts = (row.cols "ts_ms").toInt := by
  rw [finals, mem_filterMap]
  constructor
  · rintro ⟨⟨id, row⟩, hp, h⟩
    obtain ⟨s', hs, h⟩ := Option.bind_eq_some_iff.1 h
    split at h
    next hcond =>
      cases h
      exact ⟨row, hp, hs, hcond.1, hcond.2, rfl, rfl⟩
    next => cases h
  · rintro ⟨row, hp, hs, hkind, hapart, hstamp, hts⟩
    refine ⟨(f.id, row), hp, ?_⟩
    rw [hs, Option.bind_some, if_pos ⟨hkind, hstamp ▸ hapart⟩, ← hstamp, ← hts]

theorem mem_finalsOf : f ∈ finalsOf main apart s ↔ (s, f) ∈ finals main apart := by
  rw [finalsOf, mem_map]
  constructor
  · rintro ⟨⟨s', f'⟩, hmem, rfl⟩
    obtain ⟨hmem, hs⟩ := mem_filter.1 hmem
    rw [decide_eq_true_eq] at hs
    exact hs ▸ hmem
  · exact fun hmem => ⟨(s, f), mem_filter.2 ⟨hmem, by simp⟩, rfl⟩

theorem sublist_filterMap {α β γ : Type*} {f : α → Option β} {g : α → γ} {h : β → γ}
    (hf : ∀ a b, f a = some b → h b = g a) (l : List α) :
    ((l.filterMap f).map h).Sublist (l.map g) := by
  induction l with
  | nil => exact .slnil
  | cons a l ih =>
    rw [map_cons]
    cases ha : f a with
    | none =>
      rw [filterMap_cons_none ha]
      exact ih.cons _
    | some b =>
      rw [filterMap_cons_some ha, map_cons, hf a b ha]
      exact ih.cons_cons _

variable (main apart) in
theorem finals_sublist :
    ((finals main apart).map (·.2.id)).Sublist ((main.rows .grades).map (·.1)) := by
  refine sublist_filterMap (fun p q h => ?_) _
  obtain ⟨s, -, hq⟩ := Option.bind_eq_some_iff.1 h
  split at hq
  next => rw [← Option.some.inj hq]
  next => exact absurd hq.symm (Option.some_ne_none _)

/-- An id is a final row of one submission. -/
theorem eq_of_id_eq (hkey : ((main.rows .grades).map (·.1)).Nodup) {s' : ℤ} {f' : FinalRow}
    (hf : f ∈ finalsOf main apart s) (hf' : f' ∈ finalsOf main apart s') (hid : f.id = f'.id) :
    s = s' ∧ f = f' := by
  have h := inj_on_of_nodup_map ((finals_sublist main apart).nodup hkey) (mem_finalsOf.1 hf)
    (mem_finalsOf.1 hf') hid
  exact ⟨congrArg (·.1) h, congrArg (·.2) h⟩

theorem nodup_finalsOf (hkey : ((main.rows .grades).map (·.1)).Nodup) :
    (finalsOf main apart s).Nodup := by
  have h := ((finals_sublist main apart).nodup hkey).of_map
  exact (h.filter _).map_on fun p hp q hq heq => by
    have hs := of_decide_eq_true (mem_filter.1 hp).2
    have hs' := of_decide_eq_true (mem_filter.1 hq).2
    exact Prod.ext (hs.trans hs'.symm) heq

theorem mem_membersOf :
    f ∈ membersOf main apart onChange s c ↔
      f ∈ finalsOf main apart s ∧ classOf onChange (finalsOf main apart s) f = c := by
  rw [membersOf, mem_filter, (rankedRows_perm _).mem_iff, decide_eq_true_eq]

theorem nodup_membersOf (hkey : ((main.rows .grades).map (·.1)).Nodup) :
    (membersOf main apart onChange s c).Nodup :=
  ((rankedRows_perm _).nodup_iff.2 (nodup_finalsOf hkey)).filter _

/-- The first of a group's rows is its winner. -/
theorem rank_le_winner {w f : FinalRow} {rest : List FinalRow}
    (h : membersOf main apart onChange s c = w :: rest)
    (hf : f ∈ membersOf main apart onChange s c) : f.rank ≤ w.rank := by
  have hp := (pairwise_rankedRows (finalsOf main apart s)).filter
    (classOf onChange (finalsOf main apart s) · = c)
  rw [← membersOf, h, pairwise_cons] at hp
  rw [h] at hf
  rcases mem_cons.1 hf with rfl | hf
  · exact le_rfl
  · exact hp.1 f hf

theorem bySubmission_items :
    (bySubmission main apart).items =
      (bySubmission main apart).keys.map fun s => (s, finalsOf main apart s) :=
  Dict.items_group _ _ _

theorem mem_allGroups {group : List ℤ} :
    group ∈ allGroups main apart onChange ↔
      ∃ s c, membersOf main apart onChange s c ≠ [] ∧
        group = (membersOf main apart onChange s c).map (·.id) := by
  simp only [allGroups, bySubmission_items, map_map, flatMap_map, mem_flatMap,
    Function.comp_apply, groupsOf, Dict.items_group, mem_map]
  constructor
  · rintro ⟨s, -, c, hc, rfl⟩
    obtain ⟨row, hrow, rfl⟩ := (Dict.mem_keys_group _ _).1 hc
    exact ⟨s, _, ne_nil_of_mem (mem_membersOf.2 ⟨(rankedRows_perm _).mem_iff.1 hrow, rfl⟩),
      rfl⟩
  · rintro ⟨s, c, hne, rfl⟩
    obtain ⟨row, hrow⟩ := exists_mem_of_ne_nil _ hne
    obtain ⟨hfinal, rfl⟩ := mem_membersOf.1 hrow
    exact ⟨s, (Dict.mem_keys_group _ _).2 ⟨(s, row), mem_finalsOf.1 hfinal, rfl⟩, _,
      (Dict.mem_keys_group _ _).2 ⟨row, (rankedRows_perm _).mem_iff.2 hfinal, rfl⟩, rfl⟩

/-- The groups hold each final row that is not apart once. -/
theorem allGroups_perm :
    (allGroups main apart onChange).flatten.Perm ((finals main apart).map (·.2.id)) := by
  have hgroups : ∀ rows, (groupsOf onChange rows).flatten.Perm (rows.map (·.id)) := fun rows => by
    rw [groupsOf, ← flatMap_def]
    exact (Dict.group_perm _ _ _).trans ((rankedRows_perm rows).map _)
  have hall : ∀ l : List (List FinalRow),
      (l.flatMap (groupsOf onChange)).flatten.Perm (l.flatten.map (·.id)) := by
    intro l
    induction l with
    | nil => exact .refl _
    | cons rows l ih =>
      rw [flatMap_cons, flatten_append, flatten_cons, map_append]
      exact (hgroups rows).append ih
  refine (hall _).trans ?_
  have hperm := Dict.group_perm (·.1) (·.2) (finals main apart)
  rw [flatMap_def] at hperm
  have hids := hperm.map (·.id)
  rwa [map_map] at hids

/-- A collapse is the collapse of every group. -/
theorem collapseFinals_eq :
    collapseFinals main apart onChange =
      (allGroups main apart onChange).foldlM collapseGroup (main, 0) := by
  have hflat : ∀ (l : List (List FinalRow)) (st : Main × ℕ), (∀ rows ∈ l, rows ≠ []) →
      l.foldlM (fun st rows =>
        finalRowGroups rows onChange >>= fun groups => groups.foldlM collapseGroup st) st =
      (l.flatMap (groupsOf onChange)).foldlM collapseGroup st := by
    intro l
    induction l with
    | nil => exact fun _ _ => rfl
    | cons rows l ih =>
      intro st hne
      rw [foldlM_cons, flatMap_cons, foldlM_append,
        finalRowGroups_eq (hne rows mem_cons_self)]
      refine bind_congr fun st' => ih st' fun rows' h => hne rows' (mem_cons_of_mem _ h)
  refine hflat _ _ fun rows hrows => ?_
  -- a submission is listed only with a row of its own
  rw [bySubmission_items, map_map] at hrows
  obtain ⟨s, hs, rfl⟩ := mem_map.1 hrows
  obtain ⟨p, hp, rfl⟩ := (Dict.mem_keys_group _ _).1 hs
  exact ne_nil_of_mem (mem_finalsOf.2 hp)

end Database

/-! ### The final rows left -/

/-- The rows of a group of two or more. -/
def touched (main : Main) (apart : List String) (onChange : ProtocolChange) : List ℤ :=
  ((allGroups main apart onChange).filter fun g => 2 ≤ g.length).flatten

section Out

variable {main out : Main} {apart : List String} {onChange : ProtocolChange} {s : ℤ} {c : String}

variable {id : ℤ} {w : FinalRow} {rest : List FinalRow}

theorem mem_touched :
    id ∈ touched main apart onChange ↔ ∃ s c,
      2 ≤ (membersOf main apart onChange s c).length ∧
        id ∈ (membersOf main apart onChange s c).map (·.id) := by
  simp only [touched, mem_flatten, mem_filter, mem_allGroups, decide_eq_true_eq]
  constructor
  · rintro ⟨_, ⟨⟨s, c, -, rfl⟩, hlen⟩, hid⟩
    exact ⟨s, c, by simpa using hlen, hid⟩
  · rintro ⟨s, c, hlen, hid⟩
    refine ⟨_, ⟨⟨s, c, fun hnil => ?_, rfl⟩, by simpa using hlen⟩, hid⟩
    rw [hnil] at hlen
    exact absurd hlen (by decide)

theorem mem_iff_lookup {β : Type*} {l : List (ℤ × β)} (h : (l.map (·.1)).Nodup) {k : ℤ} {b : β} :
    (k, b) ∈ l ↔ l.lookup k = some b :=
  Dict.mem_items (d := ⟨l, h⟩)

/-- A row left: untouched, or a group's winner under the kept id. -/
theorem mem_out (hkey : ((main.rows .grades).map (·.1)).Nodup)
    (h : CollapsedAll main out ((allGroups main apart onChange).filter fun g => 2 ≤ g.length))
    {row : Row ℤ ℤ} :
    (id, row) ∈ out.rows .grades ↔
      id ∉ touched main apart onChange ∧ (id, row) ∈ main.rows .grades ∨
        ∃ g ∈ (allGroups main apart onChange).filter fun g => 2 ≤ g.length,
          id = keepIn g ∧ (winnerOf g, row) ∈ main.rows .grades := by
  have hkey' : ((out.rows .grades).map (·.1)).Nodup := by
    rw [h.ids]
    exact hkey.filter _
  constructor
  · intro hmem
    by_cases htouched : id ∈ touched main apart onChange
    · obtain ⟨g, hg, hid⟩ := mem_flatten.1 htouched
      have hids : id ∈ (out.rows .grades).map (·.1) := mem_map_of_mem (f := (·.1)) hmem
      rw [h.ids, mem_filter, decide_eq_true_eq] at hids
      obtain rfl := hids.2 g hg hid
      refine .inr ⟨g, hg, rfl, ?_⟩
      rw [mem_iff_lookup hkey, ← h.values g hg]
      exact (mem_iff_lookup hkey').1 hmem
    · have hfilter : (id, row) ∈ (out.rows .grades).filter
          (·.1 ∉ ((allGroups main apart onChange).filter fun g => 2 ≤ g.length).flatten) :=
        mem_filter.2 ⟨hmem, decide_eq_true htouched⟩
      rw [h.grades] at hfilter
      exact .inl ⟨htouched, (mem_filter.1 hfilter).1⟩
  · rintro (⟨htouched, hmem⟩ | ⟨g, hg, rfl, hmem⟩)
    · have hfilter : (id, row) ∈ (main.rows .grades).filter
          (·.1 ∉ ((allGroups main apart onChange).filter fun g => 2 ≤ g.length).flatten) :=
        mem_filter.2 ⟨hmem, decide_eq_true htouched⟩
      rw [← h.grades] at hfilter
      exact (mem_filter.1 hfilter).1
    · rw [mem_iff_lookup hkey', h.values g hg]
      exact (mem_iff_lookup hkey).1 hmem

/-- **The final rows left**: each group's winner under the group's smallest id. -/
theorem mem_finalsOf_out (hkey : ((main.rows .grades).map (·.1)).Nodup)
    (h : CollapsedAll main out ((allGroups main apart onChange).filter fun g => 2 ≤ g.length))
    {f : FinalRow} :
    f ∈ finalsOf out apart s ↔ ∃ c w rest, membersOf main apart onChange s c = w :: rest ∧
      f = ⟨keepOf w.id (rest.map (·.id)), w.stamp, w.ts⟩ := by
  rw [mem_finalsOf, mem_finals]
  constructor
  · rintro ⟨row, hrow, hs, hkind, hapart, hstamp, hts⟩
    rcases (mem_out hkey h).1 hrow with ⟨htouched, hmem⟩ | ⟨g, hg, hid, hmem⟩
    · have hf : f ∈ finalsOf main apart s :=
        mem_finalsOf.2 (mem_finals.2 ⟨row, hmem, hs, hkind, hapart, hstamp, hts⟩)
      have hmember : f ∈ membersOf main apart onChange s
          (classOf onChange (finalsOf main apart s) f) := mem_membersOf.2 ⟨hf, rfl⟩
      -- an untouched row is alone in its group
      have hlen : ¬2 ≤ (membersOf main apart onChange s
          (classOf onChange (finalsOf main apart s) f)).length := fun hlen =>
        htouched (mem_touched.2 ⟨s, _, hlen, mem_map_of_mem hmember⟩)
      have hone := length_pos_of_mem hmember
      obtain ⟨w, hw⟩ := length_eq_one_iff.1 (by omega :
        (membersOf main apart onChange s (classOf onChange (finalsOf main apart s) f)).length = 1)
      rw [hw, mem_singleton] at hmember
      exact ⟨_, w, [], hw, hmember ▸ rfl⟩
    · obtain ⟨⟨s', c, hne, rfl⟩, -⟩ :=
        (mem_filter.1 hg).imp_left (mem_allGroups.1 ·)
      obtain ⟨w, rest, hw⟩ := exists_cons_of_ne_nil hne
      rw [hw] at hid hmem
      have hwinner : w ∈ finalsOf main apart s' :=
        (mem_membersOf.1 (hw ▸ mem_cons_self : w ∈ membersOf main apart onChange s' c)).1
      obtain ⟨row', hrow', hs', -, -, hstamp', hts'⟩ := mem_finals.1 (mem_finalsOf.1 hwinner)
      have hsame : row = row' := Option.some.inj
        (((mem_iff_lookup hkey).1 hmem).symm.trans ((mem_iff_lookup hkey).1 hrow'))
      subst hsame
      obtain rfl : s = s' := Option.some.inj (hs.symm.trans hs')
      refine ⟨c, w, rest, hw, ?_⟩
      obtain ⟨id, stamp, ts⟩ := f
      simp only at hid hstamp hts
      rw [hstamp', hts', ← hstamp, ← hts, hid]
      rfl
  · rintro ⟨c, w, rest, hw, rfl⟩
    have hwm : w ∈ membersOf main apart onChange s c := hw ▸ mem_cons_self
    obtain ⟨hwf, hwc⟩ := mem_membersOf.1 hwm
    obtain ⟨row, hrow, hs, hkind, hapart, hstamp, hts⟩ := mem_finals.1 (mem_finalsOf.1 hwf)
    refine ⟨row, (mem_out hkey h).2 ?_, hs, hkind, hapart, hstamp, hts⟩
    cases rest with
    | nil =>
      refine .inl ⟨fun htouched => ?_, hrow⟩
      obtain ⟨s', c', hlen, hid⟩ := mem_touched.1 htouched
      obtain ⟨w', hw', hid⟩ := mem_map.1 hid
      obtain ⟨hwf', hwc'⟩ := mem_membersOf.1 hw'
      obtain ⟨rfl, rfl⟩ := eq_of_id_eq hkey hwf' hwf hid
      rw [← hwc', hwc, hw] at hlen
      simp at hlen
    | cons next rest =>
      refine .inr ⟨(w :: next :: rest).map FinalRow.id, mem_filter.2 ⟨?_, by simp⟩, rfl, hrow⟩
      exact mem_allGroups.2 ⟨s, c, hw ▸ cons_ne_nil _ _, by rw [hw]⟩

/-- Two rows left of one class are one row. -/
theorem eq_of_class_eq {w' : FinalRow} {rest' : List FinalRow} {c' : String}
    (hw : membersOf main apart onChange s c = w :: rest)
    (hw' : membersOf main apart onChange s c' = w' :: rest')
    (hclass : classOf onChange (finalsOf main apart s) w =
      classOf onChange (finalsOf main apart s) w') :
    w = w' ∧ rest = rest' := by
  have hc := (mem_membersOf.1 (hw ▸ mem_cons_self : w ∈ membersOf main apart onChange s c)).2
  have hc' := (mem_membersOf.1
    (hw' ▸ mem_cons_self : w' ∈ membersOf main apart onChange s c')).2
  rw [← hc, hclass, hc', hw'] at hw
  exact ⟨(List.cons.inj hw).1.symm, (List.cons.inj hw).2.symm⟩

/-- A winner is unstamped only where no row is stamped. -/
theorem newestStamp_of_winner (hw : membersOf main apart .newRow s c = w :: rest)
    (hstamp : w.stamp = "") :
    newestStamp (finalsOf main apart s) = "" := by
  by_contra hne
  obtain ⟨row, hrow, hrs, -⟩ := newestStamp_spec hne
  have hwc := (mem_membersOf.1 (hw ▸ mem_cons_self : w ∈ membersOf main apart .newRow s c)).2
  rw [classOf, if_pos hstamp] at hwc
  have hmem : row ∈ membersOf main apart .newRow s c :=
    mem_membersOf.2 ⟨hrow, by rw [classOf, if_neg (hrs ▸ hne), hrs, hwc]⟩
  exact hne (hrs.symm.trans (stamp_eq_of_rank_le (rank_le_winner hw hmem) hstamp))

/-- A winner has the stamp of its class. -/
theorem stamp_winner (hw : membersOf main apart .newRow s c = w :: rest) : w.stamp = c := by
  have hwc := (mem_membersOf.1 (hw ▸ mem_cons_self : w ∈ membersOf main apart .newRow s c)).2
  by_cases hstamp : w.stamp = ""
  · rw [classOf, if_pos hstamp, newestStamp_of_winner hw hstamp] at hwc
    rw [hstamp, hwc]
  · rwa [classOf, if_neg hstamp] at hwc

/-- Under a stamp one final row is left, if there was one; under no stamp, if no row was
stamped. -/
theorem countP_stamp (hkey : ((main.rows .grades).map (·.1)).Nodup)
    (h : CollapsedAll main out ((allGroups main apart .newRow).filter fun g => 2 ≤ g.length))
    (s : ℤ) (stamp : String) :
    ((finalsOf out apart s).countP fun f => f.stamp = stamp) =
      if (∃ f ∈ finalsOf main apart s, f.stamp = stamp) ∧
        (stamp = "" → newestStamp (finalsOf main apart s) = "") then 1 else 0 := by
  have hkey' : ((out.rows .grades).map (·.1)).Nodup := by
    rw [h.ids]
    exact hkey.filter _
  split
  next hex =>
    obtain ⟨⟨f, hf, hstamp⟩, hnew⟩ := hex
    have hclass : classOf .newRow (finalsOf main apart s) f = stamp := by
      rw [classOf]
      split
      next hempty => rw [hnew (hstamp ▸ hempty), ← hstamp, hempty]
      next => exact hstamp
    obtain ⟨w, rest, hw⟩ := exists_cons_of_ne_nil
      (ne_nil_of_mem (mem_membersOf.2 ⟨hf, hclass⟩))
    refine countP_eq_one (nodup_finalsOf hkey')
      ((mem_finalsOf_out hkey h).2 ⟨stamp, w, rest, hw, rfl⟩) fun f' hf' => ?_
    rw [decide_eq_true_eq]
    constructor
    · intro hstamp'
      obtain ⟨c', w', rest', hw', rfl⟩ := (mem_finalsOf_out hkey h).1 hf'
      obtain rfl : c' = stamp := (stamp_winner hw').symm.trans hstamp'
      rw [hw] at hw'
      cases hw'
      rfl
    · rintro rfl
      exact (stamp_winner hw :)
  next hnone =>
    refine countP_eq_zero.2 fun f hf hstamp => hnone ?_
    obtain ⟨c, w, rest, hw, rfl⟩ := (mem_finalsOf_out hkey h).1 hf
    have hw' := (mem_membersOf.1
      (hw ▸ mem_cons_self : w ∈ membersOf main apart .newRow s c)).1
    have hstamp' : w.stamp = stamp := of_decide_eq_true hstamp
    exact ⟨⟨w, hw', hstamp'⟩, fun hempty => newestStamp_of_winner hw (hstamp'.trans hempty)⟩

/-- Under `REPLACE` one final row of a submission is left. -/
theorem length_finalsOf (hkey : ((main.rows .grades).map (·.1)).Nodup)
    (h : CollapsedAll main out ((allGroups main apart .replace).filter fun g => 2 ≤ g.length))
    (s : ℤ) :
    (finalsOf out apart s).length = if finalsOf main apart s = [] then 0 else 1 := by
  have hkey' : ((out.rows .grades).map (·.1)).Nodup := by
    rw [h.ids]
    exact hkey.filter _
  split
  next hnil =>
    rw [length_eq_zero_iff, eq_nil_iff_forall_not_mem]
    intro f hf
    obtain ⟨c, w, rest, hw, -⟩ := (mem_finalsOf_out hkey h).1 hf
    have hw' := (mem_membersOf.1
      (hw ▸ mem_cons_self : w ∈ membersOf main apart .replace s c)).1
    rw [hnil] at hw'
    cases hw'
  next hne =>
    obtain ⟨f, hf⟩ := exists_mem_of_ne_nil _ hne
    obtain ⟨w, rest, hw⟩ := exists_cons_of_ne_nil
      (ne_nil_of_mem (mem_membersOf.2 ⟨hf, rfl⟩ :
        f ∈ membersOf main apart .replace s ""))
    rw [← countP_true]
    refine countP_eq_one (nodup_finalsOf hkey')
      ((mem_finalsOf_out hkey h).2 ⟨"", w, rest, hw, rfl⟩) fun f' hf' => ?_
    refine ⟨fun _ => ?_, fun _ => rfl⟩
    obtain ⟨c', w', rest', hw', rfl⟩ := (mem_finalsOf_out hkey h).1 hf'
    obtain ⟨rfl, rfl⟩ := eq_of_class_eq hw hw' rfl
    rfl

/-- What a collapse leaves has no two rows of one class. -/
theorem members_out_length (hkey : ((main.rows .grades).map (·.1)).Nodup)
    (h : CollapsedAll main out ((allGroups main apart onChange).filter fun g => 2 ≤ g.length)) :
    (membersOf out apart onChange s c).length ≤ 1 := by
  have hkey' : ((out.rows .grades).map (·.1)).Nodup := by
    rw [h.ids]
    exact hkey.filter _
  -- two rows of one class have one stamp, so they are one row
  have hsub : ∀ f ∈ membersOf out apart onChange s c, ∀ f' ∈ membersOf out apart onChange s c,
      f = f' := by
    intro f hf f' hf'
    obtain ⟨hfo, hfc⟩ := mem_membersOf.1 hf
    obtain ⟨hfo', hfc'⟩ := mem_membersOf.1 hf'
    cases onChange with
    | replace =>
      have hlen := length_finalsOf hkey h s
      have hle : (finalsOf out apart s).length ≤ 1 := by
        rw [hlen]
        split <;> omega
      rcases hfs : finalsOf out apart s with _ | ⟨g, _ | ⟨g', rest⟩⟩
      · rw [hfs] at hfo
        cases hfo
      · rw [hfs, mem_singleton] at hfo hfo'
        rw [hfo, hfo']
      · rw [hfs] at hle
        simp at hle
    | newRow =>
      have hempty : ∀ g ∈ finalsOf out apart s, g.stamp = "" →
          ∀ g' ∈ finalsOf out apart s, g'.stamp = "" := by
        intro g hg hgs g' hg'
        obtain ⟨c₁, w, rest, hw, rfl⟩ := (mem_finalsOf_out hkey h).1 hg
        obtain ⟨c₂, w', rest', hw', rfl⟩ := (mem_finalsOf_out hkey h).1 hg'
        have hmem := (mem_membersOf.1
          (hw' ▸ mem_cons_self : w' ∈ membersOf main apart .newRow s c₂)).1
        exact (stamp_eq_of_newestStamp (newestStamp_of_winner hw hgs) hmem :)
      have hstamp : f.stamp = f'.stamp := by
        by_cases hfs : f.stamp = ""
        · rw [hfs, hempty f hfo hfs f' hfo']
        · have hfs' : f'.stamp ≠ "" := fun h' => hfs (hempty f' hfo' h' f hfo)
          rw [classOf, if_neg hfs] at hfc
          rw [classOf, if_neg hfs'] at hfc'
          rw [hfc, hfc']
      have hcount := countP_stamp hkey h s f.stamp
      have hpos : 0 < (finalsOf out apart s).countP fun g => g.stamp = f.stamp :=
        countP_pos_iff.2 ⟨f, hfo, by simp⟩
      split at hcount
      · exact eq_of_countP_eq_one hcount hfo hfo' (by simp) (by simp [hstamp])
      · omega
  rcases hms : membersOf out apart onChange s c with _ | ⟨f, _ | ⟨f', rest⟩⟩
  · simp
  · simp
  · have hne : (membersOf out apart onChange s c).Nodup := nodup_membersOf hkey'
    rw [hms, nodup_cons] at hne
    rw [hms] at hsub
    refine absurd ?_ hne.1
    rw [hsub f (by simp) f' (by simp)]
    exact mem_cons_self

/-- **A second collapse changes nothing.** -/
theorem collapse_again (hkey : ((main.rows .grades).map (·.1)).Nodup)
    (h : CollapsedAll main out ((allGroups main apart onChange).filter fun g => 2 ≤ g.length)) :
    collapseFinals out apart onChange = .ok (out, 0) := by
  rw [collapseFinals_eq]
  have hsingle : ∀ g ∈ allGroups out apart onChange, g.length ≤ 1 := by
    intro g hg
    obtain ⟨s, c, -, rfl⟩ := mem_allGroups.1 hg
    rw [length_map]
    exact members_out_length hkey h
  generalize allGroups out apart onChange = groups at hsingle
  induction groups with
  | nil => rfl
  | cons g groups ih =>
    rw [foldlM_cons]
    have hg : collapseGroup (out, 0) g = .ok (out, 0) := by
      match g, hsingle g mem_cons_self with
      | [], _ => rfl
      | [_], _ => rfl
    rw [hg]
    exact ih fun g' hg' => hsingle g' (mem_cons_of_mem _ hg')

/-- Groups no grade re-times collapse. -/
theorem collapseGroups_success {groups : List (List ℤ)} {st : Main × ℕ}
    (hne : ∀ g ∈ groups, g ≠ []) (hdisjoint : groups.flatten.Nodup)
    (hkey : ((st.1.rows .grades).map (·.1)).Nodup)
    (hmem : ∀ id ∈ groups.flatten, id ∈ (st.1.rows .grades).map (·.1))
    (hgrades : ∀ id ∈ groups.flatten, ∀ p ∈ st.1.rows .grades, p.2.ofGrade ≠ some id) :
    ∃ st', groups.foldlM collapseGroup st = .ok st' := by
  induction groups generalizing st with
  | nil => exact ⟨st, rfl⟩
  | cons g groups ih =>
    rw [flatten_cons, nodup_append] at hdisjoint
    obtain ⟨-, hdisjoint, hcross⟩ := hdisjoint
    have hne' : ∀ g' ∈ groups, g' ≠ [] := fun g' hg' => hne g' (mem_cons_of_mem _ hg')
    rw [foldlM_cons]
    match g, hne g mem_cons_self with
    | [id], _ =>
      exact ih hne' hdisjoint hkey (fun id' hid' => hmem id' (by simp [hid']))
        fun id' hid' => hgrades id' (by simp [hid'])
    | winner :: second :: rest, _ =>
      have hgroup : ∀ id ∈ winner :: second :: rest,
          id ∈ ((winner :: second :: rest) :: groups).flatten := fun id hid => by
        rw [flatten_cons]
        exact mem_append_left _ hid
      obtain ⟨st₁, h₁⟩ := collapseGroup_success (hmem _ (hgroup _ mem_cons_self))
        fun id hid => hgrades id (hgroup id hid)
      have hone := collapseGroup_ok (hmem _ (hgroup _ (keepOf_mem winner (second :: rest)))) h₁
      have hkey₁ : ((st₁.1.rows .grades).map (·.1)).Nodup := by
        rw [hone.ids]
        exact hkey.filter _
      -- every row left has the values of a row that was there
      have hrows : ∀ p ∈ st₁.1.rows .grades, ∃ q ∈ st.1.rows .grades, q.2 = p.2 := by
        intro p hp
        by_cases hid : p.1 ∈ winner :: second :: rest
        · have hids : p.1 ∈ (st₁.1.rows .grades).map (·.1) := mem_map_of_mem hp
          rw [hone.ids, mem_filter, decide_eq_true_eq] at hids
          have hvalues := hone.values
          rw [← hids.2.resolve_left (not_not_intro hid), (mem_iff_lookup hkey₁).1 hp] at hvalues
          exact ⟨(winner, p.2), (mem_iff_lookup hkey).2 hvalues.symm, rfl⟩
        · have hfilter : p ∈ (st₁.1.rows .grades).filter (·.1 ∉ winner :: second :: rest) :=
            mem_filter.2 ⟨hp, decide_eq_true hid⟩
          rw [hone.grades] at hfilter
          exact ⟨p, (mem_filter.1 hfilter).1, rfl⟩
      obtain ⟨st', hst'⟩ := ih hne' hdisjoint hkey₁
        (fun id' hid' => by
          rw [hone.ids, mem_filter]
          exact ⟨hmem id' (by simp [hid']),
            decide_eq_true (.inl fun hg => hcross id' hg id' hid' rfl)⟩)
        fun id' hid' p hp => by
          obtain ⟨q, hq, hqp⟩ := hrows p hp
          exact hqp ▸ hgrades id' (by simp [hid']) q hq
      exact ⟨st', by rw [h₁]; exact hst'⟩

/-- What a collapse does to a database. -/
structure Rewritten (main out : Main) (apart : List String) (onChange : ProtocolChange) :
    Prop where
  /-- Of rows that collapse together, the one of the smallest id stays, with the values and the
  children of the best ranked. -/
  kept : ∀ s c winner rest, membersOf main apart onChange s c = winner :: rest →
    let keep := keepOf winner.id (rest.map (·.id))
    (∀ f ∈ winner :: rest, f.rank ≤ winner.rank ∧ keep ≤ f.id) ∧
      (out.rows .grades).lookup keep = (main.rows .grades).lookup winner.id ∧
      (∀ table ∈ gradeChildren,
        ((out.rows table).filter fun p => p.2.grade = some keep).map (·.2.cols) =
          ((main.rows table).filter fun p => p.2.grade = some winner.id).map (·.2.cols)) ∧
      ∀ f ∈ winner :: rest, f.id ≠ keep → f.id ∉ (out.rows .grades).map (·.1) ∧
        ∀ table ∈ gradeChildren, ∀ p ∈ out.rows table, p.2.grade ≠ some f.id
  /-- One row is left per stamp, an unstamped one only where none was stamped. -/
  perStamp : onChange = .newRow → ∀ s stamp,
    ((finalsOf out apart s).countP fun f => f.stamp = stamp) =
      if (∃ f ∈ finalsOf main apart s, f.stamp = stamp) ∧
        (stamp = "" → newestStamp (finalsOf main apart s) = "") then 1 else 0
  /-- Under `REPLACE` one row is left in all. -/
  inAll : onChange = .replace → ∀ s,
    (finalsOf out apart s).length = if finalsOf main apart s = [] then 0 else 1
  /-- No grade is new. -/
  ids : ((out.rows .grades).map (·.1)).Sublist ((main.rows .grades).map (·.1))
  /-- Every other grade is unchanged, a row marked apart or alone among them. -/
  grades : ∀ touched : List ℤ,
    (∀ id, id ∈ touched ↔ ∃ s c, 2 ≤ (membersOf main apart onChange s c).length ∧
      id ∈ (membersOf main apart onChange s c).map (·.id)) →
    (out.rows .grades).filter (·.1 ∉ touched) = (main.rows .grades).filter (·.1 ∉ touched) ∧
      ∀ table ∈ gradeChildren, ((out.rows table).filter fun p => !Main.childOf touched p) =
        (main.rows table).filter fun p => !Main.childOf touched p
  /-- Every other table is unchanged. -/
  tables : ∀ table, table ≠ .grades → table ∉ gradeChildren → out.rows table = main.rows table

/-- What is kept of rows that collapse together. -/
theorem kept_of_collapsed (hkey : ((main.rows .grades).map (·.1)).Nodup)
    (h : CollapsedAll main out ((allGroups main apart onChange).filter fun g => 2 ≤ g.length))
    {winner : FinalRow} (hw : membersOf main apart onChange s c = winner :: rest) :
    (out.rows .grades).lookup (keepOf winner.id (rest.map (·.id))) =
        (main.rows .grades).lookup winner.id ∧
      (∀ table ∈ gradeChildren,
        ((out.rows table).filter fun p =>
          p.2.grade = some (keepOf winner.id (rest.map (·.id)))).map (·.2.cols) =
          ((main.rows table).filter fun p => p.2.grade = some winner.id).map (·.2.cols)) ∧
      ∀ f ∈ winner :: rest, f.id ≠ keepOf winner.id (rest.map (·.id)) →
        f.id ∉ (out.rows .grades).map (·.1) ∧
          ∀ table ∈ gradeChildren, ∀ p ∈ out.rows table, p.2.grade ≠ some f.id := by
  cases rest with
  | nil =>
    -- a row alone is untouched
    have hmember : winner ∈ membersOf main apart onChange s c := hw ▸ mem_cons_self
    have hnot : winner.id ∉ touched main apart onChange := by
      intro htouched
      obtain ⟨s', c', hlen, hid⟩ := mem_touched.1 htouched
      obtain ⟨w', hw', hid⟩ := mem_map.1 hid
      obtain ⟨hwf', hwc'⟩ := mem_membersOf.1 hw'
      obtain ⟨hwf, hwc⟩ := mem_membersOf.1 hmember
      obtain ⟨rfl, rfl⟩ := eq_of_id_eq hkey hwf' hwf hid
      rw [← hwc', hwc, hw] at hlen
      simp at hlen
    refine ⟨?_, fun table htable => ?_, fun f hf hne => ?_⟩
    · exact lookup_eq_of_filter_eq h.grades hnot
    · refine congrArg _ (filter_eq_of_filter_eq (h.others table htable) fun p hp => ?_)
      have hp' : p.2.grade = some winner.id := of_decide_eq_true hp
      rw [Bool.not_eq_true', ← Bool.not_eq_true, Main.childOf_iff]
      rintro ⟨id, hid, hgrade⟩
      obtain rfl := Option.some.inj (hp'.symm.trans hgrade)
      exact hnot hid
    · rw [mem_singleton.1 hf] at hne
      exact absurd rfl hne
  | cons next rest =>
    have hg : (winner :: next :: rest).map FinalRow.id ∈
        (allGroups main apart onChange).filter fun g => 2 ≤ g.length :=
      mem_filter.2 ⟨mem_allGroups.2 ⟨s, c, hw ▸ cons_ne_nil _ _, by rw [hw]⟩, by simp⟩
    refine ⟨h.values _ hg, h.children _ hg, fun f hf hne => ⟨fun hid => ?_, ?_⟩⟩
    · rw [h.ids, mem_filter, decide_eq_true_eq] at hid
      exact hne (hid.2 _ hg (mem_map_of_mem hf))
    · intro table htable p hp hgrade
      have hkeep := h.gone _ hg table htable p hp
        (Main.childOf_iff.2 ⟨f.id, mem_map_of_mem hf, hgrade⟩)
      exact hne (Option.some.inj (hgrade.symm.trans hkeep))

variable (main apart onChange) in
/-- **A collapse leaves each submission one final row per stamp**, or one in all under `REPLACE`,
with the winner's values and children under the smallest id, changes nothing else, and changes
nothing when it is run again; it runs where no grade re-times a final row, and the groups of a
submission partition its rows. -/
theorem collapseFinals_spec (hkey : ((main.rows .grades).map (·.1)).Nodup) :
    (∀ out n, collapseFinals main apart onChange = .ok (out, n) →
      Rewritten main out apart onChange ∧ collapseFinals out apart onChange = .ok (out, 0)) ∧
    ((∀ s, ∀ f ∈ finalsOf main apart s, ∀ p ∈ main.rows .grades, p.2.ofGrade ≠ some f.id) →
      ∃ out n, collapseFinals main apart onChange = .ok (out, n)) ∧
    ∀ rows, rows ≠ [] → ∃ groups, finalRowGroups rows onChange = .ok groups ∧
      (∀ group ∈ groups, group ≠ []) ∧ groups.flatten.Perm (rows.map (·.id)) := by
  have hne : ∀ g ∈ allGroups main apart onChange, g ≠ [] := by
    intro g hg
    obtain ⟨s, c, hmem, rfl⟩ := mem_allGroups.1 hg
    simpa using hmem
  have hdisjoint : (allGroups main apart onChange).flatten.Nodup :=
    allGroups_perm.nodup_iff.2 ((finals_sublist main apart).nodup hkey)
  have hmem : ∀ id ∈ (allGroups main apart onChange).flatten,
      id ∈ (main.rows .grades).map (·.1) := fun id hid =>
    (finals_sublist main apart).subset (allGroups_perm.mem_iff.1 hid)
  refine ⟨fun out n hrun => ?_, fun hgrades => ?_, fun rows => finalRowGroups_perm⟩
  · rw [collapseFinals_eq] at hrun
    have h := collapseGroups_ok hne hdisjoint hmem hrun
    refine ⟨⟨fun s c winner rest hw => ⟨fun f hf => ⟨?_, ?_⟩, kept_of_collapsed hkey h hw⟩, ?_, ?_,
      ?_, ?_, h.tables⟩, collapse_again hkey h⟩
    · exact rank_le_winner hw (hw ▸ hf)
    · exact keepOf_le winner.id (rest.map (·.id)) f.id
        (map_cons (f := FinalRow.id) ▸ mem_map_of_mem hf)
    · rintro rfl
      exact countP_stamp hkey h
    · rintro rfl
      exact length_finalsOf hkey h
    · have hids := h.ids
      dsimp only at hids
      rw [hids]
      exact filter_sublist
    · intro ids hids
      have hsame : ∀ id, id ∈ ids ↔ id ∈ touched main apart onChange := fun id =>
        (hids id).trans mem_touched.symm
      refine ⟨filter_eq_of_filter_eq h.grades fun p hp => ?_, fun table htable =>
        filter_eq_of_filter_eq (h.others table htable) fun p hp => ?_⟩
      · rw [decide_eq_true_eq] at hp ⊢
        exact fun hid => hp ((hsame _).2 hid)
      · rw [Bool.not_eq_true', ← Bool.not_eq_true, Main.childOf_iff] at hp ⊢
        rintro ⟨id, hid, hgrade⟩
        exact hp ⟨id, (hsame id).2 hid, hgrade⟩
  · rw [collapseFinals_eq]
    have hnone : ∀ id ∈ (allGroups main apart onChange).flatten, ∀ p ∈ main.rows .grades,
        p.2.ofGrade ≠ some id := fun id hid p hp => by
      obtain ⟨⟨s, f⟩, hf, rfl⟩ := mem_map.1 (allGroups_perm.mem_iff.1 hid)
      exact hgrades s f (mem_finalsOf.2 hf) p hp
    obtain ⟨⟨out, n⟩, hrun⟩ : ∃ st, (allGroups main apart onChange).foldlM collapseGroup
        (main, 0) = .ok st := collapseGroups_success hne hdisjoint hkey hmem hnone
    exact ⟨out, n, hrun⟩

/-! ### A submission with two final rows -/

/-- A final row of the first grade. -/
def finalAt (stamp : String) (ts : ℤ) : Row ℤ ℤ :=
  { episode := some 1, ofGrade := some 1
    cols := fun name => ([("kind", .text "final"), ("timing_reduction", .text stamp),
      ("ts_ms", .int ts)].lookup name).getD (Table.grades.default name) }

/-- A submission with an unstamped final row, a stamped older one and one marked apart. -/
def twoFinals : Main where
  rows
    | .grades =>
      [(1, { episode := some 1, cols := fun name => if name = "kind" then .text "submit" else .null }),
       (2, finalAt "" 20), (3, finalAt "mw4x5" 10), (4, finalAt "calibration" 5)]
    | .gradeCells =>
      [(1, { grade := some 2, cols := fun _ => .text "t20" }),
       (2, { grade := some 3, cols := fun _ => .text "t10" })]
    | _ => []

theorem twoFinals_collapse :
    ∃ out n, collapseFinals twoFinals ["calibration"] .newRow = .ok (out, n) ∧
      Rewritten twoFinals out ["calibration"] .newRow ∧
      collapseFinals out ["calibration"] .newRow = .ok (out, 0) := by
  have hspec := collapseFinals_spec twoFinals ["calibration"] .newRow (by decide)
  have hfinals : ∀ q ∈ finals twoFinals ["calibration"], ∀ p ∈ twoFinals.rows .grades,
      p.2.ofGrade ≠ some q.2.id := by decide
  obtain ⟨out, n, hrun⟩ := hspec.2.1 fun s f hf => hfinals (s, f) (mem_finalsOf.1 hf)
  exact ⟨out, n, hrun, hspec.1 out n hrun⟩

end Out

end Finals

end Results

end HpcAgentBench
