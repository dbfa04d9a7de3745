import HpcAgentBench.Results.Kept

/-!
# Merging in another order

Whether a merge of several files depends on the order of the files: the rows of the files are folded
key by key, so two orders agree where the copies of every row do.

## Main results

* `present_of_ok` : a merge keeps every row of its files.
* `again_of_merged` : merging the same files again changes nothing.
* `merge_agrees_iff` : when two orders of the files agree.
* `ordersAgree_of_uniform` : files of one version without differing ties agree in every order.
-/

namespace HpcAgentBench

open List Option

namespace Results

open Keyed

/-! ### The rows of several files -/

/-- The rows of several files without their ids; none when one of the files is refused. -/
def identifyFiles : List File → Option (List (Key × ℕ × Known))
  | [] => some []
  | file :: files =>
    (identifyFile file).bind fun rows => (identifyFiles files).map fun rest => rows ++ rest

theorem foldlM_foldFile (store : Key → Option Known) (files : List File) :
    files.foldlM foldFile store = (identifyFiles files).bind (foldRows ruleOf store) := by
  induction files generalizing store with
  | nil => rfl
  | cons file files ih =>
    rw [foldlM_cons, identifyFiles, foldFile]
    cases identifyFile file with
    | none => rfl
    | some rows =>
      dsimp only [bind_some]
      change (foldRows ruleOf store rows).bind _ = _
      cases hfold : foldRows ruleOf store rows with
      | none =>
        cases identifyFiles files with
        | none => rfl
        | some rest => simp [foldRows_append, hfold]
      | some store' =>
        rw [bind_some, ih store']
        cases identifyFiles files with
        | none => rfl
        | some rest => simp [foldRows_append, hfold]

variable {files : List File} {names : Names} {found : Names × List (Key × ℕ × Known)} {file : File}
variable {rows : List (Key × ℕ × Known)}

/-- Files in another order are refused alike, and have the same rows. -/
theorem identifyFiles_perm {files' : List File} (hperm : files.Perm files') :
    (identifyFiles files = none ∧ identifyFiles files' = none) ∨
      ∃ rows rows', identifyFiles files = some rows ∧ identifyFiles files' = some rows' ∧
        rows.Perm rows' := by
  induction hperm with
  | nil => exact .inr ⟨[], [], rfl, rfl, List.Perm.nil⟩
  | cons file _ ih =>
    unfold identifyFiles
    cases identifyFile file with
    | none => exact .inl ⟨rfl, rfl⟩
    | some head =>
      rcases ih with ⟨h, h'⟩ | ⟨rows, rows', h, h', hrows⟩
      · exact .inl ⟨by rw [h]; rfl, by rw [h']; rfl⟩
      · exact .inr ⟨head ++ rows, head ++ rows', by rw [h]; rfl, by rw [h']; rfl,
          hrows.append_left head⟩
  | swap x y files =>
    simp only [identifyFiles]
    cases identifyFile x with
    | none =>
      cases identifyFile y with
      | none | some ry => exact .inl ⟨rfl, rfl⟩
    | some rx =>
      cases identifyFile y with
      | none => exact .inl ⟨rfl, rfl⟩
      | some ry =>
        cases identifyFiles files with
        | none => exact .inl ⟨rfl, rfl⟩
        | some rest =>
          refine .inr ⟨_, _, rfl, rfl, ?_⟩
          dsimp only
          rw [← append_assoc, ← append_assoc]
          exact perm_append_comm.append_right rest
  | trans _ _ ih ih' =>
    rcases ih with ⟨h, h'⟩ | ⟨rows, rows', h, h', hrows⟩
    · rcases ih' with ⟨-, h''⟩ | ⟨_, _, hmid, -⟩
      · exact .inl ⟨h, h''⟩
      · rw [h'] at hmid; cases hmid
    · rcases ih' with ⟨hmid, -⟩ | ⟨mid, rows'', hmid, h'', hrows'⟩
      · rw [h'] at hmid; cases hmid
      · obtain rfl := some.inj (h'.symm.trans hmid)
        exact .inr ⟨rows, rows'', h, h'', hrows.trans hrows'⟩

/-- Where a row of a table comes from. -/
theorem mem_identifyRows {table : Table} {version : ℕ} {rows : List (ℤ × Row ℤ ℤ)}
    (h : identifyRows table version names rows = some found) :
    ∀ c ∈ found.2, ∃ p ∈ rows, ∃ names', p.2.identify table names' = some c.2.2 ∧
      c.1 = c.2.2.key table ∧ c.2.1 = version := by
  induction rows generalizing names found with
  | nil =>
    obtain rfl := some.inj h
    exact fun _ hc => absurd hc not_mem_nil
  | cons p rows ih =>
    obtain ⟨r, hr, h⟩ := bind_eq_some_iff.1 h
    obtain ⟨rest, hrest, rfl⟩ := map_eq_some_iff.1 h
    intro c hc
    rcases mem_cons.1 hc with rfl | hc
    · exact ⟨p, mem_cons_self, names, hr, rfl, rfl⟩
    · obtain ⟨q, hq, hrest'⟩ := ih hrest c hc
      exact ⟨q, mem_cons_of_mem _ hq, hrest'⟩

theorem mem_identifyTables {file : File} {names : Names} {tables : List Table}
    {found : Names × List (Key × ℕ × Known)} (h : identifyTables file names tables = some found) :
    ∀ c ∈ found.2, ∃ table ∈ file.tables, ∃ p ∈ file.rows table, ∃ names',
      p.2.identify table names' = some c.2.2 ∧ c.1 = c.2.2.key table ∧ c.2.1 = file.version := by
  induction tables generalizing names found with
  | nil =>
    obtain rfl := some.inj h
    exact fun _ hc => absurd hc not_mem_nil
  | cons table tables ih =>
    rw [identifyTables] at h
    split_ifs at h with hmem
    · obtain ⟨head, hhead, h⟩ := bind_eq_some_iff.1 h
      obtain ⟨rest, hrest, rfl⟩ := map_eq_some_iff.1 h
      intro c hc
      rcases mem_append.1 hc with hc | hc
      · obtain ⟨p, hp, hrow⟩ := mem_identifyRows hhead c hc
        exact ⟨table, hmem, p, mem_sourceRows.1 hp, hrow⟩
      · exact ih hrest c hc
    · exact ih h

/-- A file that is not refused is current, or holds nothing. -/
theorem identifyFile_cases (h : identifyFile file = some rows) :
    (file.Current ∧ ∃ found, identifyTables file {} Table.all = some found ∧ rows = found.2) ∨
      (¬file.Current ∧ rows = []) := by
  unfold identifyFile at h
  by_cases hcurrent : 13 ≤ file.version ∧ file.version ≤ 20
  · rw [if_pos hcurrent] at h
    cases hfound : identifyTables file {} Table.all with
    | none => rw [hfound] at h; cases h
    | some found =>
      rw [hfound] at h
      dsimp only at h
      split_ifs at h
      exact .inl ⟨hcurrent, found, rfl, (some.inj h).symm⟩
  · rw [if_neg hcurrent] at h
    split_ifs at h
    exact .inr ⟨hcurrent, (some.inj h).symm⟩

/-- Where a row of several files comes from. -/
theorem mem_identifyFiles (h : identifyFiles files = some rows) :
    ∀ c ∈ rows, ∃ file ∈ files, file.Current ∧ ∃ table ∈ file.tables, ∃ p ∈ file.rows table,
      ∃ names, p.2.identify table names = some c.2.2 ∧ c.1 = c.2.2.key table ∧
        c.2.1 = file.version := by
  induction files generalizing rows with
  | nil =>
    obtain rfl := some.inj h
    exact fun _ hc => absurd hc not_mem_nil
  | cons file files ih =>
    obtain ⟨head, hhead, h⟩ := bind_eq_some_iff.1 h
    obtain ⟨rest, hrest, rfl⟩ := map_eq_some_iff.1 h
    intro c hc
    rcases mem_append.1 hc with hc | hc
    · rcases identifyFile_cases hhead with ⟨hcurrent, found, hfound, rfl⟩ | ⟨-, rfl⟩
      · exact ⟨file, mem_cons_self, hcurrent, mem_identifyTables hfound c hc⟩
      · exact absurd hc not_mem_nil
    · obtain ⟨file', hfile', hrest'⟩ := ih hrest c hc
      exact ⟨file', mem_cons_of_mem _ hfile', hrest'⟩

/-- Every copy of a row of several files can be held under its key. -/
theorem good_of_mem (h : identifyFiles files = some rows) (key : Key) :
    ∀ c ∈ copies key rows, Good key c := by
  intro c hc
  obtain ⟨file, -, hcurrent, table, -, p, hp, names, hr, hkey, hversion⟩ :=
    mem_identifyFiles h (key, c) (mem_copies.1 hc)
  dsimp only at hr hkey hversion
  subst hkey
  refine ⟨by rw [hversion]; exact hcurrent.1, ?_, rfl⟩
  have hlegal := file.legal table p hp
  unfold Row.Legal at hlegal ⊢
  rw [hversion, cols_rename hr]
  exact hlegal

/-! ### The same rows -/

/-- The rows of two databases are the same up to renumbered ids, those of `skip` aside. -/
def SameRows (skip : Table → Row ℤ ℤ → Prop) (main main' : Main) : Prop :=
  ∃ episodes grades : ℤ → Option ℤ,
    (∀ a b k, episodes a = some k → episodes b = some k → a = b) ∧
    (∀ a b k, grades a = some k → grades b = some k → a = b) ∧
    (∀ table, ∀ p ∈ main.rows table, ¬skip table p.2 → ∃ q ∈ main'.rows table,
      p.2.rename table episodes grades = some q.2 ∧
        (table = .episodes → episodes p.1 = some q.1) ∧
        (table = .grades → grades p.1 = some q.1)) ∧
    ∀ table, ∀ q ∈ main'.rows table, ¬skip table q.2 → ∃ p ∈ main.rows table,
      p.2.rename table episodes grades = some q.2 ∧
        (table = .episodes → episodes p.1 = some q.1) ∧
        (table = .grades → grades p.1 = some q.1)

section SameRows

variable {main main' : Main} {names names' : Names} {store store' : Key → Option Known}
  {skip : Table → Row ℤ ℤ → Prop}
variable {K : Type}

/-- An id of the other database that stands for the same thing. -/
noncomputable def sameId {K : Type} (names names' : ℤ → Option K) (i : ℤ) : Option ℤ :=
  open Classical in
  if h : ∃ j k, names i = some k ∧ names' j = some k then some h.choose else none

theorem sameId_spec {names names' : ℤ → Option K} {i : ℤ}
    (h : ∀ k, names i = some k → ∃ j, names' j = some k) :
    (sameId names names' i).map names' = (names i).map some := by
  cases hi : names i with
  | none =>
    rw [sameId, dif_neg]
    · rfl
    · rintro ⟨_, _, hk, -⟩
      rw [hi] at hk
      cases hk
  | some k =>
    obtain ⟨j, hj⟩ := h k hi
    have hex : ∃ j k, names i = some k ∧ names' j = some k := ⟨j, k, hi, hj⟩
    rw [sameId, dif_pos hex]
    obtain ⟨k', hk', hj'⟩ := hex.choose_spec
    rw [hi] at hk'
    rw [map_some, hj', map_some, some.inj hk']

theorem sameId_inj {names names' : ℤ → Option K}
    (hinj : ∀ a b k, names a = some k → names b = some k → a = b) :
    ∀ a b j, sameId names names' a = some j → sameId names names' b = some j → a = b := by
  have hspec : ∀ a j, sameId names names' a = some j →
      ∃ k, names a = some k ∧ names' j = some k := by
    intro a j h
    unfold sameId at h
    split_ifs at h with hex
    obtain rfl := some.inj h
    exact hex.choose_spec
  intro a b j ha hb
  obtain ⟨k, hk, hj⟩ := hspec a j ha
  obtain ⟨k', hk', hj'⟩ := hspec b j hb
  rw [hj] at hj'
  exact hinj a b k hk (by rw [hk', some.inj hj'])

/-- Databases with one store, up to the skipped rows, have the same rows. -/
theorem sameRows_of_stores (h : Identified main names store) (h' : Identified main' names' store')
    (hagree : ∀ key, store key = store' key ∨
      key.1 = .baselineTimings ∧ ∀ (row : Row ℤ ℤ) (r : Known), r.cols = row.cols →
        r.key key.1 = key → skip key.1 row) :
    SameRows skip main main' := by
  have hequal : ∀ key, key.1 ≠ .baselineTimings → store key = store' key := fun key hne =>
    (hagree key).resolve_right fun hb => hne hb.1
  have hepisodes : ∀ i, (sameId names.episodes names'.episodes i).map names'.episodes =
      (names.episodes i).map some := by
    refine fun i => sameId_spec fun k hk => ?_
    obtain ⟨p, hp, rfl⟩ := h.episodes i k hk
    obtain ⟨r, -, hstore, hepisode, -⟩ := h.sound .episodes p hp
    rw [hequal _ (by rintro ⟨⟩)] at hstore
    obtain ⟨-, q, hq, hqr⟩ := h'.complete _ _ hstore
    obtain ⟨r', hr', -, hepisode', -⟩ := h'.sound .episodes q hq
    obtain rfl : r = r' := some.inj (hqr.symm.trans hr')
    refine ⟨q.1, ?_⟩
    rw [hepisode' rfl, ← hepisode rfl, hk]
  have hgrades : ∀ i, (sameId names.grades names'.grades i).map names'.grades =
      (names.grades i).map some := by
    refine fun i => sameId_spec fun k hk => ?_
    obtain ⟨p, hp, rfl⟩ := h.grades i k hk
    obtain ⟨r, -, hstore, -, hgrade⟩ := h.sound .grades p hp
    rw [hequal _ (by rintro ⟨⟩)] at hstore
    obtain ⟨-, q, hq, hqr⟩ := h'.complete _ _ hstore
    obtain ⟨r', hr', -, -, hgrade'⟩ := h'.sound .grades q hq
    obtain rfl : r = r' := some.inj (hqr.symm.trans hr')
    refine ⟨q.1, ?_⟩
    rw [hgrade' rfl, ← hgrade rfl, hk]
  have hpair : ∀ (table : Table) (r : Known), ∀ p ∈ main.rows table, ∀ q ∈ main'.rows table,
      p.2.identify table names = some r → q.2.identify table names' = some r →
      p.2.rename table (sameId names.episodes names'.episodes)
          (sameId names.grades names'.grades) = some q.2 ∧
        (table = .episodes → sameId names.episodes names'.episodes p.1 = some q.1) ∧
        (table = .grades → sameId names.grades names'.grades p.1 = some q.1) := by
    intro table r p hp q hq hpr hqr
    obtain ⟨s, hs, -, hepisode, hgrade⟩ := h.sound table p hp
    obtain ⟨s', hs', -, hepisode', hgrade'⟩ := h'.sound table q hq
    obtain rfl : r = s := some.inj (hpr.symm.trans hs)
    obtain rfl : r = s' := some.inj (hqr.symm.trans hs')
    refine ⟨?_, fun hte => ?_, fun htg => ?_⟩
    · rcases map_cases (rename_rename table hepisodes hgrades p.2) with
        ⟨-, hnone⟩ | ⟨row, r', hrow, hr', hrow'⟩
      · rw [Row.identify, hnone] at hpr
        cases hpr
      · rw [Row.identify, hr'] at hpr
        obtain rfl := some.inj hpr
        rw [hrow, rename_inj h'.episodes_inj h'.grades_inj (fits_rename hrow) (h'.fits table q hq)
          hrow' hqr]
    · rcases map_cases (hepisodes p.1) with ⟨-, hnone⟩ | ⟨j, k, hj, hk, hjk⟩
      · rw [hepisode hte] at hnone
        cases hnone
      · rw [hepisode hte] at hk
        rw [hj, h'.episodes_inj j q.1 _ hjk (by rw [hepisode' hte, ← hk])]
    · rcases map_cases (hgrades p.1) with ⟨-, hnone⟩ | ⟨j, k, hj, hk, hjk⟩
      · rw [hgrade htg] at hnone
        cases hnone
      · rw [hgrade htg] at hk
        rw [hj, h'.grades_inj j q.1 _ hjk (by rw [hgrade' htg, ← hk])]
  refine ⟨sameId names.episodes names'.episodes, sameId names.grades names'.grades,
    sameId_inj h.episodes_inj, sameId_inj h.grades_inj, ?_, ?_⟩
  · intro table p hp hskip
    obtain ⟨r, hr, hstore, -⟩ := h.sound table p hp
    rcases hagree (r.key table) with heq | ⟨-, hskipped⟩
    · rw [heq] at hstore
      obtain ⟨-, q, hq, hqr⟩ := h'.complete _ _ hstore
      exact ⟨q, hq, hpair table r p hp q hq hr hqr⟩
    · exact absurd (hskipped p.2 r (cols_rename hr) rfl) hskip
  · intro table q hq hskip
    obtain ⟨r, hr, hstore, -⟩ := h'.sound table q hq
    rcases hagree (r.key table) with heq | ⟨-, hskipped⟩
    · rw [← heq] at hstore
      obtain ⟨-, p, hp, hpr⟩ := h.complete _ _ hstore
      exact ⟨p, hp, hpair table r p hp q hq hpr hr⟩
    · exact absurd (hskipped q.2 r (cols_rename hr) rfl) hskip

/-- Databases with the same rows hold the same measurements of `canon`. -/
theorem canon_of_sameRows (h : Identified main names store) (h' : Identified main' names' store')
    (hskip : ∀ row, ¬skip .canon row) (hsame : SameRows skip main main') (key : Key)
    (hkey : key.1 = .canon) : store key = store' key := by
  obtain ⟨episodes, grades, -, -, hforth, hback⟩ := hsame
  obtain ⟨table, key⟩ := key
  dsimp only at hkey
  subst hkey
  have hrow : ∀ {row row' : Row ℤ ℤ} {r r' : Known},
      row.rename .canon episodes grades = some row' → row.identify .canon names = some r →
      row'.identify .canon names' = some r' → r = r' := by
    intro row row' r r' hrename hr hr'
    cases hr
    cases hrename
    cases hr'
    rfl
  cases hstore : store (.canon, key) with
  | some r =>
    obtain ⟨hk, p, hp, hpr⟩ := h.complete _ _ hstore
    obtain ⟨q, hq, hrename, -⟩ := hforth .canon p hp (hskip p.2)
    obtain ⟨r', hr', hstore', -⟩ := h'.sound .canon q hq
    obtain rfl := hrow hrename hpr hr'
    rw [hk]
    exact hstore'.symm
  | none =>
    cases hstore' : store' (.canon, key) with
    | none => rfl
    | some r' =>
      obtain ⟨hk, q, hq, hqr⟩ := h'.complete _ _ hstore'
      obtain ⟨p, hp, hrename, -⟩ := hback .canon q hq (hskip q.2)
      obtain ⟨r, hr, hstore'', -⟩ := h.sound .canon p hp
      obtain rfl := hrow hrename hr hqr
      rw [hk, hstore''] at hstore
      cases hstore

end SameRows

/-! ### Every row is present -/

/-- Every row of the files is in the database, under ids of its own: with its values, or with a
newer measurement's. -/
def Present (files : List File) (main : Main) : Prop :=
  ∀ file ∈ files, file.Current → ∃ episodes grades : ℤ → Option ℤ,
    ∀ table ∈ file.tables, ∀ p ∈ file.rows table, ∃ row : Row ℤ ℤ,
      p.2.rename table episodes grades = some row ∧
      ∃ q ∈ main.rows table, q.2.keyOf table = row.keyOf table ∧
        (table = .episodes → episodes p.1 = some q.1) ∧
        (table = .grades → grades p.1 = some q.1) ∧ Kept table file.version q.2 row

section Present

variable {names names' : Names} {table : Table} {version : ℕ}
variable {id : ℤ} {row : Known} {found : Names × List (Key × ℕ × Known)} {files : List File}
variable {rows : List (Key × ℕ × Known)}

theorem note_episodes (h : table ≠ .episodes) :
    (names.note table id row).episodes = names.episodes := by
  cases table <;> first | rfl | exact absurd rfl h

theorem note_grades (h : table ≠ .grades) :
    (names.note table id row).grades = names.grades := by
  cases table <;> first | rfl | exact absurd rfl h

/-- What the final names of a table's ids say of its rows. -/
theorem identifyRows_complete {rows : List (ℤ × Row ℤ ℤ)}
    (h : identifyRows table version names rows = some found) (hids : (rows.map (·.1)).Nodup)
    (hepisodes : table = .episodes → ∀ p ∈ rows, names.episodes p.1 = none)
    (hgrades : table = .grades → ∀ p ∈ rows, names.grades p.1 = none) :
    names.Extends found.1 ∧
      (table ≠ .episodes → found.1.episodes = names.episodes) ∧
      (table ≠ .grades → found.1.grades = names.grades) ∧
      ∀ p ∈ rows, ∃ r, p.2.identify table found.1 = some r ∧
        (r.key table, version, r) ∈ found.2 ∧
        (table = .episodes → found.1.episodes p.1 = some (episodeKey r)) ∧
        (table = .grades → found.1.grades p.1 = some (gradeKey r)) := by
  induction rows generalizing names found with
  | nil =>
    obtain rfl := some.inj h
    exact ⟨Names.extends_refl, fun _ => rfl, fun _ => rfl, fun _ hp => absurd hp not_mem_nil⟩
  | cons p rows ih =>
    obtain ⟨r, hr, h⟩ := bind_eq_some_iff.1 h
    obtain ⟨rest, hrest, rfl⟩ := map_eq_some_iff.1 h
    obtain ⟨hnot, hids⟩ := nodup_cons.1 hids
    have hne : ∀ q ∈ rows, q.1 ≠ p.1 := fun q hq he => hnot (mem_map.2 ⟨q, hq, he⟩)
    have hnote : names.Extends (names.note table p.1 r) :=
      Names.extends_note (fun hte => hepisodes hte p mem_cons_self)
        fun htg => hgrades htg p mem_cons_self
    obtain ⟨hext, hsame, hsame', hall⟩ := ih hrest hids
      (fun hte q hq => by
        subst hte
        exact (Function.update_of_ne (hne q hq) _ _).trans
          (hepisodes rfl q (mem_cons_of_mem _ hq)))
      fun htg q hq => by
        subst htg
        exact (Function.update_of_ne (hne q hq) _ _).trans
          (hgrades rfl q (mem_cons_of_mem _ hq))
    refine ⟨hnote.trans hext, fun hte => (hsame hte).trans (note_episodes hte),
      fun htg => (hsame' htg).trans (note_grades htg), fun q hq => ?_⟩
    rcases mem_cons.1 hq with rfl | hq
    · refine ⟨r, hext.identify (hnote.identify hr), mem_cons_self, fun hte => ?_, fun htg => ?_⟩
      · subst hte
        exact hext.1 _ _ (Function.update_self ..)
      · subst htg
        exact hext.2 _ _ (Function.update_self ..)
    · obtain ⟨s, hs, hmem, hids⟩ := hall q hq
      exact ⟨s, hs, mem_cons_of_mem _ hmem, hids⟩

theorem nodup_sourceRows (file : File) (table : Table) :
    ((sourceRows file table).map (·.1)).Nodup := by
  unfold sourceRows
  split_ifs
  · have hperm : (((file.rows table).filter (·.2.ofGrade.isNone)) ++
        (file.rows table).filter (·.2.ofGrade.isSome)).Perm (file.rows table) := by
      have h := filter_append_perm (fun p : ℤ × Row ℤ ℤ => p.2.ofGrade.isNone)
        (file.rows table)
      simpa only [not_isNone] using h
    exact (hperm.map _).nodup_iff.2 (file.nodup table)
  · exact file.nodup table

/-- What the final names of a file's ids say of its rows. -/
theorem identifyTables_complete {file : File} {tables : List Table}
    (h : identifyTables file names tables = some found) (htables : tables.Nodup)
    (hepisodes : .episodes ∈ tables → ∀ i, names.episodes i = none)
    (hgrades : .grades ∈ tables → ∀ i, names.grades i = none) :
    names.Extends found.1 ∧
      ∀ table ∈ tables, table ∈ file.tables → ∀ p ∈ file.rows table, ∃ r,
        p.2.identify table found.1 = some r ∧ (r.key table, file.version, r) ∈ found.2 ∧
        (table = .episodes → found.1.episodes p.1 = some (episodeKey r)) ∧
        (table = .grades → found.1.grades p.1 = some (gradeKey r)) := by
  induction tables generalizing names found with
  | nil =>
    obtain rfl := some.inj h
    exact ⟨Names.extends_refl, fun _ ht => absurd ht not_mem_nil⟩
  | cons table tables ih =>
    obtain ⟨hnot, htables⟩ := nodup_cons.1 htables
    rw [identifyTables] at h
    split_ifs at h with hmem
    · obtain ⟨head, hhead, h⟩ := bind_eq_some_iff.1 h
      obtain ⟨rest, hrest, rfl⟩ := map_eq_some_iff.1 h
      obtain ⟨hext, hsame, hsame', hall⟩ := identifyRows_complete hhead (nodup_sourceRows file table)
        (fun hte _ _ => hepisodes (hte ▸ mem_cons_self) _)
        fun htg _ _ => hgrades (htg ▸ mem_cons_self) _
      obtain ⟨hext', hall'⟩ := ih hrest htables
        (fun ht i => by
          rw [hsame fun hte => hnot (hte ▸ ht)]
          exact hepisodes (mem_cons_of_mem _ ht) i)
        fun ht i => by
          rw [hsame' fun htg => hnot (htg ▸ ht)]
          exact hgrades (mem_cons_of_mem _ ht) i
      refine ⟨hext.trans hext', fun t ht hin p hp => ?_⟩
      rcases mem_cons.1 ht with rfl | ht
      · obtain ⟨r, hr, hfound, hte, htg⟩ := hall p (mem_sourceRows.2 hp)
        exact ⟨r, hext'.identify hr, mem_append_left _ hfound,
          fun he => hext'.1 _ _ (hte he), fun hg => hext'.2 _ _ (htg hg)⟩
      · obtain ⟨r, hr, hfound, hids⟩ := hall' t ht hin p hp
        exact ⟨r, hr, mem_append_right _ hfound, hids⟩
    · obtain ⟨hext', hall'⟩ := ih h htables (fun ht => hepisodes (mem_cons_of_mem _ ht))
        fun ht => hgrades (mem_cons_of_mem _ ht)
      refine ⟨hext', fun t ht hin => ?_⟩
      rcases mem_cons.1 ht with rfl | ht
      · exact absurd hin hmem
      · exact hall' t ht hin

theorem rows_subset (h : identifyFiles files = some rows) :
    ∀ file ∈ files, ∃ head, identifyFile file = some head ∧ head ⊆ rows := by
  induction files generalizing rows with
  | nil => exact fun _ hfile => absurd hfile not_mem_nil
  | cons file files ih =>
    obtain ⟨head, hhead, h⟩ := bind_eq_some_iff.1 h
    obtain ⟨rest, hrest, rfl⟩ := map_eq_some_iff.1 h
    intro file' hfile'
    rcases mem_cons.1 hfile' with rfl | hfile'
    · exact ⟨head, hhead, subset_append_left _ _⟩
    · obtain ⟨head', hhead', hsubset⟩ := ih hrest file' hfile'
      exact ⟨head', hhead', List.Subset.trans hsubset (subset_append_right _ _)⟩

/-- A row is kept by a row that says the same. -/
theorem kept_cols {E G E' G' : Type} {s r : Row E G} {s' r' : Row E' G'} (hs : s.cols = s'.cols)
    (hr : r.cols = r'.cols) (h : Kept table version s r) : Kept table version s' r' := by
  unfold Kept Row.time at h ⊢
  rwa [← hs, ← hr]

/-- **A merge keeps every row of its files.** -/
theorem present_of_merged {main : Main} {store : Key → Option Known}
    (h : Identified main names store) (hrows : identifyFiles files = some rows)
    (hstore : ∀ key, ¬(ruleOf key).Clash none (copies key rows) ∧
      (ruleOf key).standing none (copies key rows) = store key)
    (htracked : ∀ file ∈ files, FileTracked names file) : Present files main := by
  intro file hfile hcurrent
  obtain ⟨head, hhead, hsubset⟩ := rows_subset hrows file hfile
  obtain ⟨found, hfound, rfl⟩ := ((identifyFile_cases hhead).resolve_right fun hn =>
    hn.1 hcurrent).2
  obtain ⟨ids, hids⟩ := htracked file hfile hcurrent found hfound
  obtain ⟨-, hcomplete⟩ := identifyTables_complete hfound (by decide) (fun _ _ => rfl) fun _ _ => rfl
  refine ⟨ids.episodes, ids.grades, fun table htable p hp => ?_⟩
  obtain ⟨r, hr, hmem, hepisode, hgrade⟩ := hcomplete table (by cases table <;> decide) htable p hp
  rcases hids.identify table p.2 with ⟨-, hnone⟩ | ⟨row, r', hrow, hr', hidentify⟩
  · rw [hnone] at hr
    cases hr
  obtain rfl : r = r' := some.inj (hr.symm.trans hr')
  have hcopy : (file.version, r) ∈ copies (r.key table) rows := mem_copies.2 (hsubset hmem)
  obtain ⟨s, hs, hkey, hkept⟩ := kept_standing (good_of_mem hrows (r.key table))
    (hstore (r.key table)).1 (ne_nil_of_mem hcopy)
  rw [(hstore (r.key table)).2] at hs
  obtain ⟨-, q, hq, hqs⟩ := h.complete _ _ hs
  obtain ⟨s', hs', -, hepisode', hgrade'⟩ := h.sound table q hq
  obtain rfl : s = s' := some.inj (hqs.symm.trans hs')
  have hkeys : s.keyOf table = r.keyOf table := (Prod.ext_iff.1 hkey).2
  refine ⟨row, hrow, q, hq, (keyOf_rename h.episodes_inj h.grades_inj (h.fits table q hq)
    (fits_rename hrow) hqs hidentify).2 hkeys, fun hte => ?_, fun htg => ?_,
    kept_cols (cols_rename hqs) (cols_rename hidentify) (hkept _ hcopy)⟩
  · subst hte
    rcases map_cases (hids.1 p.1) with ⟨-, hnone⟩ | ⟨j, k, hj, hk, hjk⟩
    · rw [hepisode rfl] at hnone
      cases hnone
    · rw [hepisode rfl] at hk
      rw [hj, h.episodes_inj j q.1 _ hjk]
      rw [hepisode' rfl, ← hk, (episodeKey_eq (fits_rename hqs) (fits_rename hr)).2 hkeys]
  · subst htg
    rcases map_cases (hids.2 p.1) with ⟨-, hnone⟩ | ⟨j, k, hj, hk, hjk⟩
    · rw [hgrade rfl] at hnone
      cases hnone
    · rw [hgrade rfl] at hk
      rw [hj, h.grades_inj j q.1 _ hjk]
      rw [hgrade' rfl, ← hk, (gradeKey_eq (fits_rename hqs) (fits_rename hr) (h.ofGrade_ne hqs)
        (h.ofGrade_ne hidentify)).2 hkeys]

end Present

/-! ### Two orders of the files -/

/-- The measurement met so far that is newest, with the columns its file lacks taken from the
newest before it. -/
def newer : Option Known → ℕ × Known → Option Known
  | none, c => some (inserted .canon c.1 c.2)
  | some s, c => some (if s.time < c.2.time then updated .canon c.1 s c.2 else s)

def newestCopy (copies : List (ℕ × Known)) : Option Known := copies.foldl newer none

/-- A measurement that differs from the newest before it, taken at the same time. -/
def CanonDiffers (copies : List (ℕ × Known)) : Prop :=
  ∃ before c after, copies = before ++ c :: after ∧ ∃ s ∈ newestCopy before,
    c.2.time = s.time ∧ ∃ name ∈ Table.canon.columnsAt c.1, c.2.cols name ≠ s.cols name

/-- Two copies of some episode differ. -/
def EpisodesClash (rows : List (Key × ℕ × Known)) : Prop :=
  ∃ key : Key, key.1 = .episodes ∧ EpisodesDiffer (copies key rows)

/-- A copy of some other row differs from the one it meets. -/
def OrderClash (rows : List (Key × ℕ × Known)) : Prop :=
  (∃ key : Key, key.1 ≠ .episodes ∧ key.1.newestWins = false ∧
    FirstDiffers key.1 (copies key rows)) ∨
  ∃ key : Key, key.1 = .canon ∧ CanonDiffers (copies key rows)

/-- Where two orders of the rows of some files agree: copies that differ are met in both or in
neither, and every measurement of `canon` ends as the same row. -/
def OrdersAgree (rows rows' : List (Key × ℕ × Known)) : Prop :=
  EpisodesClash rows ∨ (OrderClash rows ↔ OrderClash rows') ∧
    (¬OrderClash rows → ∀ key : Key, key.1 = .canon →
      newestCopy (copies key rows) = newestCopy (copies key rows'))

/-- A row of `baseline_timings` that two files measured at one time with other values. -/
def BaselineTie (files : List File) (table : Table) (row : Row ℤ ℤ) : Prop :=
  table = .baselineTimings ∧ ∃ file ∈ files, ∃ p ∈ file.rows table, ∃ file' ∈ files,
    ∃ p' ∈ file'.rows table, table.key.map p.2.cols = table.key.map row.cols ∧
      table.key.map p'.2.cols = table.key.map row.cols ∧ p.2.time = p'.2.time ∧
      ∃ name ∈ table.columnsAt 20, p.2.cols name ≠ p'.2.cols name

/-- Both orders of the files are refused, or both give the same rows. -/
def Agree (files files' : List File) : Prop :=
  ((∃ e, merge Main.empty files = .error e) ∧ ∃ e, merge Main.empty files' = .error e) ∨
    ∃ main copied main' copied', merge Main.empty files = .ok (main, copied) ∧
      merge Main.empty files' = .ok (main', copied') ∧ SameRows (BaselineTie files) main main'

/-- Merging the result again with the same files changes no row. -/
def Again (files : List File) : Prop :=
  ∀ main copied, merge Main.empty files = .ok (main, copied) → ∃ main' copied',
    merge main files = .ok (main', copied') ∧ SameRows (fun _ _ => False) main main'

section Orders

variable {key : Key} {rows rows' : List (Key × ℕ × Known)}
variable {files : List File}

theorem newestCopy_eq (hcanon : key.1 = .canon) {copies : List (ℕ × Known)}
    (hgood : ∀ c ∈ copies, Good key c) :
    (ruleOf key).standing none copies = newestCopy copies := by
  unfold newestCopy
  generalize (none : Option Known) = stored
  induction copies generalizing stored with
  | nil => rfl
  | cons c copies ih =>
    obtain ⟨hc, hgood⟩ := forall_mem_cons.1 hgood
    have hstep : some ((ruleOf key).settle stored c) = newer stored c := by
      cases stored with
      | none =>
        simp only [Rule.settle, ruleOf, rule, newer, hcanon]
      | some s =>
        simp only [Rule.settle, ruleOf, rule, newer, hcanon, reduceCtorEq, if_false]
        split_ifs with hagree hlt
        · -- an agreeing copy is of the same time
          have htime := time_of_agree rfl hc.version
            ((conflicts_eq_nil_of_ne (show Table.canon ≠ .episodes by decide)).1 hagree)
          exact absurd hlt (by rw [htime]; exact lt_irrefl _)
        · rfl
        · rfl
        · rfl
    rw [Rule.standing_cons, hstep, foldl_cons]
    exact ih hgood _

theorem clash_canon (hcanon : key.1 = .canon) {copies : List (ℕ × Known)}
    (hgood : ∀ c ∈ copies, Good key c) :
    (ruleOf key).Clash none copies ↔ CanonDiffers copies := by
  refine exists_congr fun before => exists_congr fun c => exists_congr fun after =>
    and_congr_right fun hsplit => ?_
  rw [newestCopy_eq hcanon fun x hx => hgood x (by rw [hsplit]; exact mem_append_left _ hx)]
  refine exists_congr fun s => and_congr_right fun _ => ?_
  rw [← Bool.not_eq_false, ruleOf, hcanon, refuses_eq_false,
    conflicts_eq_nil_of_ne (show Table.canon ≠ .episodes by decide)]
  simp only [Table.newestWins, Table.tieKeepsStored, true_and, not_or, not_forall, exists_prop,
    Bool.false_eq_true, or_false, not_not, ne_eq]
  exact and_comm

/-- What stops the fold of all rows. -/
theorem foldRows_none_iff (hgood : ∀ key, ∀ c ∈ copies key rows, Good key c) :
    foldRows ruleOf (fun _ => none) rows = none ↔ EpisodesClash rows ∨ OrderClash rows := by
  have hkeys : foldRows ruleOf (fun _ => none) rows = none ↔
      ∃ key, (ruleOf key).Clash none (copies key rows) := by
    constructor
    · intro h
      obtain ⟨key, hkey⟩ := foldRows_none h
      exact ⟨key, Rule.foldKey_none_iff.1 hkey⟩
    · rintro ⟨key, hclash⟩
      cases hfold : foldRows ruleOf (fun _ => none) rows with
      | none => rfl
      | some store => exact absurd hclash (foldRows_eq_some_iff.1 hfold key).1
  rw [hkeys]
  constructor
  · rintro ⟨key, hclash⟩
    by_cases hte : key.1 = .episodes
    · exact .inl ⟨key, hte, (clash_episodes hte (hgood key)).1 hclash⟩
    by_cases hcanon : key.1 = .canon
    · exact .inr (.inr ⟨key, hcanon, (clash_canon hcanon (hgood key)).1 hclash⟩)
    by_cases hbaseline : key.1 = .baselineTimings
    · exact absurd hclash
        (not_clash_ties (by rw [hbaseline]; rfl) (by rw [hbaseline]; rfl))
    have hnewest : key.1.newestWins = false := by
      cases h : key.1 <;> first | rfl | exact absurd h hcanon | exact absurd h hbaseline
    exact .inr (.inl ⟨key, hte, hnewest, (clash_plain hte hnewest).1 hclash⟩)
  · rintro (⟨key, hte, h⟩ | ⟨key, hte, hnewest, h⟩ | ⟨key, hcanon, h⟩)
    · exact ⟨key, (clash_episodes hte (hgood key)).2 h⟩
    · exact ⟨key, (clash_plain hte hnewest).2 h⟩
    · exact ⟨key, (clash_canon hcanon (hgood key)).2 h⟩

theorem episodesClash_perm (hperm : rows.Perm rows') :
    EpisodesClash rows ↔ EpisodesClash rows' := by
  unfold EpisodesClash EpisodesDiffer
  simp only [(copies_perm hperm).mem_iff]

/-- What a merge of files into an empty database does, row by row. -/
theorem merge_cases {rows : List (Key × ℕ × Known)} (hrows : identifyFiles files = some rows) :
    ((EpisodesClash rows ∨ OrderClash rows) ∧ ∃ e, merge Main.empty files = .error e) ∨
      (¬(EpisodesClash rows ∨ OrderClash rows) ∧ ∃ main copied names store,
        merge Main.empty files = .ok (main, copied) ∧ Identified main names store ∧
        (∀ key, ¬(ruleOf key).Clash none (copies key rows) ∧
          (ruleOf key).standing none (copies key rows) = store key)) := by
  have hnone := foldRows_none_iff (good_of_mem hrows)
  rcases merge_identified identified_empty files with
    ⟨hfold, herror⟩ | ⟨store, main, copied, names, hfold, hmerge, h, -, -⟩
  · rw [foldlM_foldFile, hrows, bind_some] at hfold
    exact .inl ⟨hnone.1 hfold, herror⟩
  · rw [foldlM_foldFile, hrows, bind_some] at hfold
    refine .inr ⟨fun hclash => ?_, main, copied, names, store, hmerge, h,
      foldRows_eq_some_iff.1 hfold⟩
    rw [hnone.2 hclash] at hfold
    cases hfold

/-- The result of a merge takes the same files again without a change. -/
theorem again_of_merged (files : List File) : Again files := by
  intro main copied hmerge
  rcases merge_identified identified_empty files with
    ⟨-, e, he⟩ | ⟨store, main', copied', names, hfold, hmerge', h, -, -⟩
  · rw [he] at hmerge
    cases hmerge
  obtain ⟨rfl, rfl⟩ := Prod.mk.inj (Except.ok.inj (hmerge'.symm.trans hmerge))
  rw [foldlM_foldFile] at hfold
  obtain ⟨rows, hrows, hfold⟩ := bind_eq_some_iff.1 hfold
  have hstore := foldRows_eq_some_iff.1 hfold
  have hagain : foldRows ruleOf store rows = some store := by
    refine foldRows_eq_some_iff.2 fun key => Rule.foldKey_some_iff.1 ?_
    by_cases hne : copies key rows = []
    · rw [hne]
      rfl
    · obtain ⟨s, hs, -, hkept⟩ := kept_standing (good_of_mem hrows key) (hstore key).1 hne
      rw [← (hstore key).2, hs]
      exact foldKey_again hkept
  rcases merge_identified h files with
    ⟨hfold', -⟩ | ⟨store', main', copied', names', hfold', hmerge'', h', -, -⟩
  · rw [foldlM_foldFile, hrows, bind_some, hagain] at hfold'
    cases hfold'
  · rw [foldlM_foldFile, hrows, bind_some, hagain] at hfold'
    obtain rfl := some.inj hfold'
    exact ⟨main', copied', hmerge'', sameRows_of_stores h h' fun _ => .inl rfl⟩

/-- Differing ties of a key are differing ties of its rows in the files. -/
theorem baselineTie_of_tiesDiffer {rows : List (Key × ℕ × Known)} {key : Key}
    (hrows : identifyFiles files = some rows) (hbaseline : key.1 = .baselineTimings)
    (hties : TiesDiffer (Table.baselineTimings.columnsAt 20) (copies key rows)) {row : Row ℤ ℤ}
    {r : Known} (hcols : r.cols = row.cols) (hkey : r.key key.1 = key) :
    BaselineTie files key.1 row := by
  have hsource : ∀ c ∈ copies key rows, ∃ file ∈ files, ∃ p ∈ file.rows key.1,
      c.2.cols = p.2.cols ∧ key.1.key.map p.2.cols = key.1.key.map row.cols := by
    intro c hc
    obtain ⟨file, hfile, -, table, -, p, hp, names, hr, hck, -⟩ :=
      mem_identifyFiles hrows (key, c) (mem_copies.1 hc)
    dsimp only at hr hck
    obtain rfl : key.1 = table := by rw [hck]; rfl
    refine ⟨file, hfile, p, hp, cols_rename hr, ?_⟩
    have h := Prod.ext_iff.1 (hck.symm.trans hkey.symm)
    simp only [Row.key, Row.keyOf, Prod.mk.injEq] at h
    rw [← cols_rename hr, ← hcols]
    exact h.2.2.2.2
  obtain ⟨x, hx, y, hy, htime, name, hname, hdiffer⟩ := hties
  obtain ⟨file, hfile, p, hp, hxp, hpk⟩ := hsource x hx
  obtain ⟨file', hfile', q, hq, hyq, hqk⟩ := hsource y hy
  refine ⟨hbaseline, file, hfile, p, hp, file', hfile', q, hq, hpk, hqk, ?_, name, ?_, ?_⟩
  · rw [Row.time, ← hxp, Row.time, ← hyq]
    exact htime
  · rw [hbaseline]
    exact hname
  · rw [← hxp, ← hyq]
    exact hdiffer

/-- Two orders of the files agree when copies that differ meet in both orders or in neither, and the
measurements of `canon` end alike. -/
theorem agree_iff {files' : List File} (hperm : files.Perm files') :
    Agree files files' ↔ ∀ rows rows', identifyFiles files = some rows →
      identifyFiles files' = some rows' → OrdersAgree rows rows' := by
  rcases identifyFiles_perm hperm with ⟨hnone, hnone'⟩ | ⟨rows, rows', hrows, hrows', hrperm⟩
  · -- a file is refused in either order
    have herror : ∀ {files : List File}, identifyFiles files = none →
        ∃ e, merge Main.empty files = .error e := by
      intro files hnone
      rcases merge_identified identified_empty files with ⟨-, h⟩ | ⟨_, _, _, _, hfold, -⟩
      · exact h
      · rw [foldlM_foldFile, hnone] at hfold
        cases hfold
    refine iff_of_true (.inl ⟨herror hnone, herror hnone'⟩) fun rows _ h => ?_
    rw [hnone] at h
    cases h
  have hgood := good_of_mem hrows
  have hgood' := good_of_mem hrows'
  have hcond : (∀ rows₁ rows₁', identifyFiles files = some rows₁ →
      identifyFiles files' = some rows₁' → OrdersAgree rows₁ rows₁') ↔ OrdersAgree rows rows' := by
    refine ⟨fun h => h rows rows' hrows hrows', fun h _ _ h1 h2 => ?_⟩
    obtain rfl := some.inj (hrows.symm.trans h1)
    obtain rfl := some.inj (hrows'.symm.trans h2)
    exact h
  rw [hcond]
  have hepisodes := episodesClash_perm hrperm
  rcases merge_cases hrows with
    ⟨hclash, e, he⟩ | ⟨hclash, main, copied, names, store, hmerge, h, hstore⟩
  · rcases merge_cases hrows' with ⟨hclash', e', he'⟩ | ⟨hclash', main', copied', _, _, hmerge', -⟩
    · refine iff_of_true (.inl ⟨⟨e, he⟩, e', he'⟩) ?_
      by_cases hep : EpisodesClash rows
      · exact .inl hep
      · have ho := hclash.resolve_left hep
        have ho' := hclash'.resolve_left fun h => hep (hepisodes.2 h)
        exact .inr ⟨iff_of_true ho ho', fun hn => absurd ho hn⟩
    · refine iff_of_false ?_ ?_
      · rintro (⟨-, e', he'⟩ | ⟨_, _, _, _, hok, -⟩)
        · rw [hmerge'] at he'
          cases he'
        · rw [he] at hok
          cases hok
      · rintro (hep | ⟨ho, -⟩)
        · exact hclash' (.inl (hepisodes.1 hep))
        · rcases hclash with hep | hclash
          · exact hclash' (.inl (hepisodes.1 hep))
          · exact hclash' (.inr (ho.1 hclash))
  · have hno : ¬OrderClash rows := fun ho => hclash (.inr ho)
    rcases merge_cases hrows' with
      ⟨hclash', e', he'⟩ | ⟨hclash', main', copied', names', store', hmerge', h', hstore'⟩
    · refine iff_of_false ?_ ?_
      · rintro (⟨⟨e, he⟩, -⟩ | ⟨_, _, _, _, -, hok, -⟩)
        · rw [hmerge] at he
          cases he
        · rw [he'] at hok
          cases hok
      · rintro (hep | ⟨ho, -⟩)
        · exact hclash (.inl hep)
        · rcases hclash' with hep | hclash'
          · exact hclash (.inl (hepisodes.2 hep))
          · exact hno (ho.2 hclash')
    have hcopies : ∀ key, key.1 = .canon →
        store key = newestCopy (copies key rows) ∧ store' key = newestCopy (copies key rows') := by
      intro key hcanon
      rw [← newestCopy_eq hcanon (hgood key), ← newestCopy_eq hcanon (hgood' key)]
      exact ⟨(hstore key).2.symm, (hstore' key).2.symm⟩
    constructor
    · rintro (⟨⟨e, he⟩, -⟩ | ⟨m, n, m', n', hm, hm', hsame⟩)
      · rw [hmerge] at he
        cases he
      obtain ⟨rfl, -⟩ := Prod.mk.inj (Except.ok.inj (hmerge.symm.trans hm))
      obtain ⟨rfl, -⟩ := Prod.mk.inj (Except.ok.inj (hmerge'.symm.trans hm'))
      refine .inr ⟨iff_of_false hno fun ho => hclash' (.inr ho), fun _ key hcanon => ?_⟩
      rw [← (hcopies key hcanon).1, ← (hcopies key hcanon).2]
      exact canon_of_sameRows h h' (fun row htie => by cases htie.1) hsame key hcanon
    · intro horders
      obtain ⟨-, hcanon⟩ := horders.resolve_left fun hep => hclash (.inl hep)
      refine .inr ⟨main, copied, main', copied', hmerge, hmerge', ?_⟩
      refine sameRows_of_stores h h' fun key => ?_
      by_cases hc : key.1 = .canon
      · rw [(hcopies key hc).1, (hcopies key hc).2]
        exact .inl (hcanon hno key hc)
      rw [← (hstore key).2, ← (hstore' key).2]
      by_cases hb : key.1 = .baselineTimings
      · by_cases hties : TiesDiffer (Table.baselineTimings.columnsAt 20) (copies key rows)
        · exact .inr ⟨hb, fun row r hcols hkey =>
            baselineTie_of_tiesDiffer hrows hb hties hcols hkey⟩
        · refine .inl (standing_perm_newest (copies_perm hrperm) (by rw [hb]; rfl) (hgood key)
            (fun c hc => ?_) (hstore key).1 (hstore' key).1 hties)
          rw [hb]
          exact columnsAt_baselineTimings (hgood key c hc).version
      · have hnewest : key.1.newestWins = false := by
          cases ht : key.1 <;> first | rfl | exact absurd ht hc | exact absurd ht hb
        exact .inl (standing_perm (copies_perm hrperm) hnewest (hgood key) (hstore key).1
          (hstore' key).1)

/-- A merge keeps every row of its files. -/
theorem present_of_ok {main : Main} {copied : Table → ℕ}
    (hmerge : merge Main.empty files = .ok (main, copied)) : Present files main := by
  rcases merge_identified identified_empty files with
    ⟨-, e, he⟩ | ⟨store, main', copied', names, hfold, hmerge', h, -, htracked⟩
  · rw [he] at hmerge
    cases hmerge
  obtain ⟨rfl, -⟩ := Prod.mk.inj (Except.ok.inj (hmerge'.symm.trans hmerge))
  rw [foldlM_foldFile] at hfold
  obtain ⟨rows, hrows, hfold⟩ := bind_eq_some_iff.1 hfold
  exact present_of_merged h hrows (foldRows_eq_some_iff.1 hfold) htracked

/-! ### Files of one version -/

section Uniform

variable {version : ℕ} {columns : List String}

/-- With the same columns, some copy differs from the first exactly when two copies differ. -/
theorem firstDiffers_iff {copies : List (ℕ × Known)} (hgood : ∀ c ∈ copies, Good key c)
    (hcolumns : ∀ c ∈ copies, key.1.columnsAt c.1 = columns) :
    FirstDiffers key.1 copies ↔
      ∃ x ∈ copies, ∃ y ∈ copies, ∃ name ∈ columns, x.2.cols name ≠ y.2.cols name := by
  cases copies with
  | nil => exact iff_of_false id fun ⟨_, hx, _⟩ => absurd hx not_mem_nil
  | cons c copies =>
    obtain ⟨hc, -⟩ := forall_mem_cons.1 hgood
    obtain ⟨hcols, hcolumns⟩ := forall_mem_cons.1 hcolumns
    have hfirst : ∀ name ∈ columns, c.2.cols name = (inserted key.1 c.1 c.2).cols name := by
      rw [← hcols]
      exact inserted_agrees hc.legal
    constructor
    · rintro ⟨x, hx, name, hname, hdiffer⟩
      rw [hcolumns x hx] at hname
      exact ⟨x, mem_cons_of_mem _ hx, c, mem_cons_self, name, hname,
        by rw [hfirst name hname]; exact hdiffer⟩
    · rintro ⟨x, hx, y, hy, name, hname, hdiffer⟩
      by_contra hnone
      have hsame : ∀ z ∈ c :: copies, z.2.cols name = (inserted key.1 c.1 c.2).cols name := by
        intro z hz
        rcases mem_cons.1 hz with rfl | hz
        · exact hfirst name hname
        · by_contra hz'
          exact hnone ⟨z, hz, name, by rw [hcolumns z hz]; exact hname, hz'⟩
      exact hdiffer ((hsame x hx).trans (hsame y hy).symm)

/-- Measurements of the same columns of which no two differ at one time never clash. -/
theorem not_clash_newest {copies : List (ℕ × Known)} (hnewest : key.1.newestWins = true)
    (hgood : ∀ c ∈ copies, Good key c) (hcolumns : ∀ c ∈ copies, key.1.columnsAt c.1 = columns)
    (hties : ¬TiesDiffer columns copies) : ¬(ruleOf key).Clash none copies := by
  intro hclash
  obtain ⟨before, c, after, rfl, hnot, s, hs, href⟩ := Rule.first_clash hclash
  have hbefore : ∀ x ∈ before, x ∈ before ++ c :: after := fun x hx => mem_append_left _ hx
  have hne : before ≠ [] := by
    rintro rfl
    cases hs
  obtain ⟨s', hs', x, hx, -, rfl⟩ := newest_standing hnewest (fun x hx => hgood x (hbefore x hx))
    (fun x hx => hcolumns x (hbefore x hx)) hnot hne
  obtain rfl := some.inj (hs.symm.trans hs')
  rw [← Bool.not_eq_false, ruleOf, refuses_eq_false,
    conflicts_eq_nil_of_ne (ne_episodes_of_newest hnewest)] at href
  have hc : c ∈ before ++ c :: after := mem_append_right _ mem_cons_self
  refine href (.inl fun name hname => by_contra fun hdiffer => href (.inr ⟨hnewest, .inl ?_⟩))
  rw [time_inserted hnewest (hgood x (hbefore x hx))]
  rw [hcolumns c hc] at hname
  rw [← inserted_agrees (hgood x (hbefore x hx)).legal name
    (by rw [hcolumns x (hbefore x hx)]; exact hname)] at hdiffer
  exact fun htime => hties ⟨c, hc, x, hbefore x hx, htime, name, hname, hdiffer⟩

variable (version) in
/-- **Files of one version agree in every order** when no two measurements of `canon` differ at one
time. -/
theorem ordersAgree_of_uniform {files : List File} (hrows : identifyFiles files = some rows)
    (hperm : rows.Perm rows') (hversion : ∀ file ∈ files, file.Current → file.version = version)
    (hties : ∀ file ∈ files, ∀ p ∈ file.rows .canon, ∀ file' ∈ files, ∀ p' ∈ file'.rows .canon,
      Table.canon.key.map p.2.cols = Table.canon.key.map p'.2.cols → p.2.time = p'.2.time →
      ∀ name ∈ Table.canon.columnsAt version, p.2.cols name = p'.2.cols name) :
    OrdersAgree rows rows' := by
  have hgood := good_of_mem hrows
  have hgood' : ∀ key, ∀ c ∈ copies key rows', Good key c :=
    fun key c hc => hgood key c ((copies_perm hperm).mem_iff.2 hc)
  have hsource : ∀ key, ∀ c ∈ copies key rows, ∃ file ∈ files, file.version = version ∧
      ∃ p ∈ file.rows key.1, c.2.cols = p.2.cols ∧ c.1 = version := by
    intro key c hc
    obtain ⟨file, hfile, hcurrent, table, -, p, hp, names, hr, hkey, hv⟩ :=
      mem_identifyFiles hrows (key, c) (mem_copies.1 hc)
    dsimp only at hr hkey hv
    obtain rfl : key.1 = table := by rw [hkey]; rfl
    exact ⟨file, hfile, hversion file hfile hcurrent, p, hp, cols_rename hr,
      hv.trans (hversion file hfile hcurrent)⟩
  have hcolumns : ∀ key : Key, ∀ c ∈ copies key rows,
      key.1.columnsAt c.1 = key.1.columnsAt version := by
    intro key c hc
    obtain ⟨-, -, -, -, -, -, hv⟩ := hsource key c hc
    rw [hv]
  have hcolumns' : ∀ key : Key, ∀ c ∈ copies key rows',
      key.1.columnsAt c.1 = key.1.columnsAt version :=
    fun key c hc => hcolumns key c ((copies_perm hperm).mem_iff.2 hc)
  have hnoties : ∀ key : Key, key.1 = .canon →
      ¬TiesDiffer (Table.canon.columnsAt version) (copies key rows) := by
    rintro key hcanon ⟨x, hx, y, hy, htime, name, hname, hdiffer⟩
    obtain ⟨file, hfile, -, p, hp, hxp, -⟩ := hsource key x hx
    obtain ⟨file', hfile', -, p', hp', hyp, -⟩ := hsource key y hy
    rw [hcanon] at hp hp'
    refine hdiffer ?_
    rw [hxp, hyp]
    refine hties file hfile p hp file' hfile' p' hp' ?_ ?_ name hname
    · have hkeys := Prod.ext_iff.1 ((hgood key x hx).key.trans (hgood key y hy).key.symm)
      simp only [Row.key, Row.keyOf, Prod.mk.injEq] at hkeys
      rw [← hxp, ← hyp, ← hcanon]
      exact hkeys.2.2.2.2
    · rw [Row.time, ← hxp, Row.time, ← hyp]
      exact htime
  have hnoclash : ∀ key : Key, key.1 = .canon → ¬(ruleOf key).Clash none (copies key rows) := by
    intro key hcanon
    refine not_clash_newest (by rw [hcanon]; rfl) (hgood key) (hcolumns key) ?_
    rw [hcanon]
    exact hnoties key hcanon
  have hnoclash' : ∀ key : Key, key.1 = .canon → ¬(ruleOf key).Clash none (copies key rows') := by
    intro key hcanon
    refine not_clash_newest (by rw [hcanon]; rfl) (hgood' key) (hcolumns' key) ?_
    rw [hcanon]
    unfold TiesDiffer
    simp only [← (copies_perm hperm).mem_iff]
    exact hnoties key hcanon
  refine .inr ⟨or_congr (exists_congr fun key => and_congr_right fun _ => and_congr_right fun _ => ?_)
    (iff_of_false ?_ ?_), fun _ key hcanon => ?_⟩
  · rw [firstDiffers_iff (hgood key) (hcolumns key), firstDiffers_iff (hgood' key) (hcolumns' key)]
    simp only [(copies_perm hperm).mem_iff]
  · rintro ⟨key, hcanon, h⟩
    exact hnoclash key hcanon ((clash_canon hcanon (hgood key)).2 h)
  · rintro ⟨key, hcanon, h⟩
    exact hnoclash' key hcanon ((clash_canon hcanon (hgood' key)).2 h)
  · rw [← newestCopy_eq hcanon (hgood key), ← newestCopy_eq hcanon (hgood' key)]
    refine standing_perm_newest (copies_perm hperm) (by rw [hcanon]; rfl) (hgood key)
      (hcolumns key) (hnoclash key hcanon) (hnoclash' key hcanon) ?_
    rw [hcanon]
    exact hnoties key hcanon

end Uniform

end Orders

/-! ### Three sessions of one measurement -/

/-- A session's file: one row of `canon`, measured at `ts` with this median. -/
def canonFile (ts : ℤ) (median : ℚ) : File where
  version := 20
  tables := Table.all
  rows
    | .canon => [(1, { cols := fun name =>
        match name with
        | "run" => .text "r1"
        | "column" => .text "numpy"
        | "kernel" => .text "gemm"
        | "preset" => .text "S"
        | "datatype" => .text "float64"
        | "median_ms" => .real median
        | "validated" => .int 1
        | "status" => .text "ok"
        | "ts_ms" => .int ts
        | name => Table.canon.default name })]
    | _ => []
  nodup table := by cases table <;> simp
  legal := by
    rintro ⟨⟩ p hp <;> first | exact absurd hp not_mem_nil | skip
    obtain rfl := mem_singleton.1 hp
    unfold Row.Legal
    simp +decide [Table.columnsAt, Table.columns, Table.addedIn, Table.default]

end Results

end HpcAgentBench
