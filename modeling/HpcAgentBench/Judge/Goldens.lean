import HpcAgentBench.Lib.Lts
import HpcAgentBench.Lib.Records

/-!
# Golden files

The expected outputs of an input pair, in one file: records of named arrays after the record of the
pair's validity key.  An entry's arrays are added under a lock, its marker last.  An append that
raises is cut back, and a killed writer leaves what it has written.

## Main results

* `read_whole` : what a reader finds is whole arrays of entries of its own validity key, and under
  a marker everything an entry stores before it.
* `added_kept` : an entry once added is found whole until the file is replaced.
-/

namespace HpcAgentBench

open List Option

namespace Judge.Goldens

open Lts Records

/-- `Member` without its place: an array's name, dtype, shape and byte count. -/
structure Header where
  name : String
  dtype : String
  shape : List ℕ
  nbytes : ℕ
  deriving DecidableEq

variable {B : Type} {fmt : Format B Header}

/-- `VALIDITY`. -/
def validityName : String := "meta/validity"

/-- `Pair`: the record of its validity key. -/
structure Pair (fmt : Format B Header) where
  validity : Rec fmt
  name_eq : validity.head.name = validityName

/-- What one call of `write` stores. -/
structure Entry (fmt : Format B Header) where
  pair : Pair fmt
  arrays : List (Rec fmt)

variable {pair p : Pair fmt} {rs more first : List (Rec fmt)} {r : Rec fmt}

variable [DecidableEq B]

def names (found : List (Header × List B)) : List String := found.map (·.1.name)

/-- The members of a file that is valid for the pair; none when it is stale or unreadable. -/
def held (pair : Pair fmt) (l : List B) : Option (List (Header × List B)) :=
  let found := members fmt l
  if (found.find? (·.1.name = validityName)).map (·.2) = some pair.validity.data then some found
  else none

/-- `new_file`. -/
def newFile (e : Entry fmt) : List B := blocks (e.pair.validity :: e.arrays)

/-- The arrays of an entry a file lacks. -/
def missing (e : Entry fmt) (found : List (Header × List B)) : List (Rec fmt) :=
  e.arrays.filter fun r => r.head.name ∉ names found

/-- `append`, when it completes: the file ends behind the last header. -/
def append (l : List B) (rs : List (Rec fmt)) : List B :=
  (torn l rs (dataWrites (endOf fmt l) rs) rs.length).take (endOf fmt l + (blocks rs).length)

/-- `read`: the members whose names are chosen, if the file is valid and has the marker. -/
def read (pair : Pair fmt) (marker : String) (chosen : String → Bool) (file : Option (List B)) :
    Option (List (Header × List B)) := do
  let found ← held pair (← file)
  if marker ∈ names found then some (found.filter fun m => chosen m.1.name) else none

/-- A pair's file and the entries stored so far. -/
structure State (fmt : Format B Header) where
  file : Option (List B)
  entries : List (Entry fmt)

inductive Action (fmt : Format B Header)
  /-- `add_to` completes. -/
  | add (e : Entry fmt)
  /-- The append of an entry ends after the data blocks `ws` and `k` headers: it raises and the
  file is cut back, or the writer is killed. -/
  | stop (e : Entry fmt) (ws : List (B × ℕ)) (k : ℕ) (cut : Bool)

def Action.entry : Action fmt → Entry fmt
  | .add e | .stop e _ _ _ => e

/-- One writer holds the lock.  A new file is linked, or replaces a stale one, when it is whole. -/
def step (σ : State fmt) : Action fmt → Option (State fmt)
  | .add e =>
    let file := match σ.file with
      | none => newFile e
      | some l => match held e.pair l with
        | none => newFile e
        | some found => if (missing e found).isEmpty then l else append l (missing e found)
    some ⟨some file, e :: σ.entries⟩
  | .stop e ws k cut => do
    let l ← σ.file
    let rs := missing e (← held e.pair l)
    let data := dataWrites (endOf fmt l) rs
    if ws ⊆ data ∧ (k = 0 ∨ data ⊆ ws) then
      let l' := torn l rs ws k
      some ⟨some (if cut then l'.take (endOf fmt l) else l'), e :: σ.entries⟩
    else none

/-- No block of an array to be stored reads as a header. -/
def Opaque (_ : State fmt) (a : Action fmt) : Prop := ∀ r ∈ a.entry.arrays, Bare fmt r.data

/-! ### What a file holds -/

variable {σ σ' τ : State fmt} {a : Action fmt} {e : Entry fmt}
variable {l : List B} {k : ℕ} {marker : String}
variable {chosen : String → Bool} {found got : List (Header × List B)}

/-- Entries of one validity key. -/
abbrev SameKey (p q : Pair fmt) : Prop := p.validity.data = q.validity.data

/-- A record is among the first arrays of an entry of the pair's key, and a file with `rs` has all
of these by name. -/
def Stored (entries : List (Entry fmt)) (p : Pair fmt) (rs : List (Rec fmt)) (r : Rec fmt) : Prop :=
  ∃ e ∈ entries, SameKey e.pair p ∧ ∃ first, first <+: e.arrays ∧ r ∈ first ∧
    ∀ r' ∈ first, ∃ r'' ∈ p.validity :: rs, r''.head.name = r'.head.name

/-- The file is a pair's validity key and records stored under its key, followed by no headers. -/
structure Holds (entries : List (Entry fmt)) (l : List B) (p : Pair fmt) (rs : List (Rec fmt)) :
    Prop where
  file_eq : ∃ stale, l = blocks (p.validity :: rs) ++ stale ∧ Bare fmt stale
  stored : ∀ r ∈ rs, Stored entries p rs r

def Inv (σ : State fmt) : Prop := ∀ l, σ.file = some l → ∃ p rs, Holds σ.entries l p rs

theorem Stored.mono {entries : List (Entry fmt)} (h : Stored entries p rs r) :
    Stored (e :: entries) p (rs ++ more) r := by
  obtain ⟨e', he', hkey, first, hfirst, hr, hall⟩ := h
  refine ⟨e', mem_cons_of_mem e he', hkey, first, hfirst, hr, fun r' hr' => ?_⟩
  obtain ⟨r'', hr'', heq⟩ := hall r' hr'
  exact ⟨r'', mem_append_left _ hr'', heq⟩

/-- The arrays a file has, and those of the missing that are added. -/
theorem exists_of_missing (hr : r ∈ first)
    (hfound : found = (p.validity :: rs).map Rec.member)
    (hmore : more = first.filter fun r => r.head.name ∉ names found) :
    ∃ r' ∈ p.validity :: (rs ++ more), r'.head.name = r.head.name := by
  by_cases hmem : r.head.name ∈ names found
  · rw [hfound, names, List.map_map] at hmem
    obtain ⟨r', hr', heq⟩ := List.mem_map.1 hmem
    exact ⟨r', mem_append_left _ hr', heq⟩
  · refine ⟨r, mem_cons_of_mem _ (mem_append_right _ ?_), rfl⟩
    rw [hmore]
    exact mem_filter.2 ⟨hr, decide_eq_true hmem⟩

section Holds

variable {entries : List (Entry fmt)} (h : Holds entries l p rs)
include h

theorem Holds.held_eq_if :
    held pair l = if SameKey p pair then some ((p.validity :: rs).map Rec.member) else none := by
  obtain ⟨stale, rfl, hstale⟩ := h.file_eq
  rw [held, members_blocks hstale, map_cons,
    find?_cons_of_pos (by simp [Rec.member, p.name_eq])]
  exact if_congr some_inj rfl rfl

theorem Holds.held_eq (hheld : held pair l = some found) :
    SameKey p pair ∧ found = (p.validity :: rs).map Rec.member := by
  rw [h.held_eq_if] at hheld
  split at hheld
  · exact ⟨‹_›, (some.inj hheld).symm⟩
  · cases hheld

/-- What is left of an append of the missing arrays. -/
theorem Holds.torn {ws : List (B × ℕ)} (hplain : ∀ r ∈ e.arrays, Bare fmt r.data)
    (hheld : held e.pair l = some found)
    (hws : ws ⊆ dataWrites (endOf fmt l) (missing e found))
    (hall : k = 0 ∨ dataWrites (endOf fmt l) (missing e found) ⊆ ws) :
    Holds (e :: entries) (Records.torn l (missing e found) ws k) p
      (rs ++ (missing e found).take k) := by
  obtain ⟨hkey, hfound⟩ := h.held_eq hheld
  obtain ⟨stale, rfl, hstale⟩ := h.file_eq
  rw [endOf_blocks hstale] at hws hall
  obtain ⟨stale', heq, hstale'⟩ :=
    torn_spec hstale (fun r hr => hplain r (mem_of_mem_filter hr)) hws hall
  refine ⟨⟨stale', heq, hstale'⟩, fun r hr => ?_⟩
  rcases mem_append.1 hr with hr | hr
  · exact (h.stored r hr).mono
  · -- the first of the missing arrays are the missing ones of the first arrays
    obtain ⟨first, hfirst, htake⟩ := prefix_filter_iff.1 <| take_prefix k (missing e found)
    exact ⟨e, mem_cons_self, hkey.symm, first, hfirst, mem_of_mem_filter (htake ▸ hr),
      fun r' hr' => exists_of_missing hr' hfound htake⟩

/-- A file cut behind some of its records holds these. -/
theorem Holds.take (hrs : rs = first ++ more) (hstored : ∀ r ∈ first, Stored entries p first r) :
    Holds entries (l.take (blocks (p.validity :: first)).length) p first := by
  obtain ⟨stale, rfl, -⟩ := h.file_eq
  refine ⟨⟨[], ?_, nofun⟩, hstored⟩
  rw [hrs, ← cons_append, blocks_append, append_assoc, take_left' rfl, append_nil]

/-- **One step on a valid file** only adds records; a completed one adds all that are missing. -/
theorem Holds.step (hfile : σ = ⟨some l, entries⟩) (hok : Opaque σ a) (hs : step σ a = some σ')
    (hheld : held a.entry.pair l = some found) : ∃ l' more,
      σ' = ⟨some l', a.entry :: entries⟩ ∧ Holds (a.entry :: entries) l' p (rs ++ more) ∧
        ∀ e, a = .add e → more = missing e found := by
  subst hfile
  have hend : endOf fmt l = (blocks (p.validity :: rs)).length := by
    obtain ⟨stale, rfl, hstale⟩ := h.file_eq
    exact endOf_blocks hstale
  have hkept : ∀ e, ∀ r ∈ rs, Stored (e :: entries) p rs r :=
    fun e r hr => append_nil rs ▸ (h.stored r hr).mono
  cases a with
  | add e =>
    change held e.pair l = some found at hheld
    simp only [Goldens.step, hheld, Option.some.injEq] at hs
    subst hs
    split
    next hnil =>
      refine ⟨l, [], rfl, by rw [append_nil]; exact ⟨h.file_eq, hkept e⟩, ?_⟩
      rintro _ ⟨⟩
      exact (List.isEmpty_iff.1 hnil).symm
    · have hh := h.torn (e := e) (k := (missing e found).length) hok hheld (List.Subset.refl _)
        (.inr (List.Subset.refl _))
      rw [List.take_length] at hh
      have htake := hh.take (append_nil _).symm hh.stored
      rw [← cons_append, blocks_append, length_append, ← hend] at htake
      exact ⟨_, missing e found, rfl, htake, fun _ heq => by cases heq; rfl⟩
  | stop e ws k cut =>
    change held e.pair l = some found at hheld
    simp only [Goldens.step, Option.bind_eq_bind, Option.bind_some, hheld] at hs
    split at hs
    next hcond =>
      cases hs
      have hh := h.torn (e := e) hok hheld hcond.1 hcond.2
      cases cut with
      | false => exact ⟨_, _, rfl, hh, nofun⟩
      | true =>
        refine ⟨_, [], rfl, ?_, nofun⟩
        rw [append_nil, if_pos rfl, hend]
        exact hh.take rfl (hkept e)
    · cases hs

end Holds

/-- A step leaves a file that holds whole records, with all of an entry that was added. -/
theorem Inv.next (hi : Inv σ) (hok : Opaque σ a) (hs : step σ a = some σ') :
    ∃ l p rs, σ'.file = some l ∧ Holds σ'.entries l p rs ∧ ∀ e, a = .add e →
      SameKey p e.pair ∧ ∀ r ∈ e.arrays, ∃ r' ∈ p.validity :: rs, r'.head.name = r.head.name := by
  obtain ⟨file, entries⟩ := σ
  -- there is no file, or one the entry's key does not fit
  have hholds (e : Entry fmt) : Holds (e :: entries) (newFile e) e.pair e.arrays :=
    ⟨⟨[], (append_nil _).symm, nofun⟩, fun r hr =>
      ⟨e, mem_cons_self, rfl, _, prefix_rfl, hr, fun r' hr' => ⟨r', mem_cons_of_mem _ hr', rfl⟩⟩⟩
  cases file with
  | none =>
    cases a with
    | add e =>
      cases hs
      refine ⟨_, _, _, rfl, hholds e, ?_⟩
      rintro _ ⟨⟩
      exact ⟨rfl, fun r hr => ⟨r, mem_cons_of_mem _ hr, rfl⟩⟩
    | stop => cases hs
  | some l =>
    obtain ⟨p, rs, h⟩ := hi l rfl
    cases hheld : held a.entry.pair l with
    | some found =>
      obtain ⟨l', more, rfl, h', hadd⟩ := h.step rfl hok hs hheld
      refine ⟨l', p, _, rfl, h', ?_⟩
      rintro e rfl
      obtain ⟨hkey, hfound⟩ := h.held_eq hheld
      exact ⟨hkey, fun r hr => exists_of_missing hr hfound (hadd e rfl)⟩
    | none =>
      cases a with
      | add e =>
        change held e.pair l = none at hheld
        simp only [step, hheld, Option.some.injEq] at hs
        subst hs
        refine ⟨_, _, _, rfl, hholds e, ?_⟩
        rintro _ ⟨⟩
        exact ⟨rfl, fun r hr => ⟨r, mem_cons_of_mem _ hr, rfl⟩⟩
      | stop e ws k cut =>
        change held e.pair l = none at hheld
        simp [step, hheld] at hs

theorem Inv.of_reach (h : Reach step Opaque ⟨none, []⟩ σ) : Inv σ := by
  refine h.invariant nofun fun σ a σ' hi hok hs l hl => ?_
  obtain ⟨l', p, rs, hl', hh, -⟩ := hi.next hok hs
  cases hl'.symm.trans hl
  exact ⟨p, rs, hh⟩

/-- **What a reader finds is whole.**  Whatever entries were added, and wherever appends were cut
back or writers were killed: every array read is an array of an entry of the reader's validity key,
and of some entry that has the marker everything it stores before the marker is there. -/
theorem read_whole (h : Reach step Opaque ⟨none, []⟩ σ)
    (hread : read pair marker chosen σ.file = some got) (hmarker : marker ≠ validityName)
    (hchosen : chosen validityName = false) :
    (∀ m ∈ got, ∃ e ∈ σ.entries, SameKey e.pair pair ∧ ∃ r ∈ e.arrays, m = r.member) ∧
      ∃ e ∈ σ.entries, SameKey e.pair pair ∧ ∃ before r after, e.arrays = before ++ r :: after ∧
        r.head.name = marker ∧
          ∀ r' ∈ before, chosen r'.head.name = true → r'.head.name ∈ names got := by
  obtain ⟨l, hl, hread⟩ := bind_eq_some_iff.1 hread
  obtain ⟨found, hheld, hread⟩ := bind_eq_some_iff.1 hread
  obtain ⟨p, rs, hh⟩ := Inv.of_reach h l hl
  obtain ⟨hkey, rfl⟩ := hh.held_eq hheld
  split at hread
  next hmem =>
    cases hread
    constructor
    · intro m hm
      obtain ⟨hm, hname⟩ := mem_filter.1 hm
      obtain ⟨r, hr, rfl⟩ := List.mem_map.1 hm
      have hr : r ∈ rs := by
        rcases mem_cons.1 hr with rfl | hr
        · rw [Rec.member, p.name_eq, hchosen] at hname
          cases hname
        · exact hr
      obtain ⟨e, he, hp, first, hfirst, hrf, -⟩ := hh.stored r hr
      exact ⟨e, he, hp.trans hkey, r, hfirst.subset hrf, rfl⟩
    · rw [names, List.map_map] at hmem
      obtain ⟨r, hr, rfl⟩ := List.mem_map.1 hmem
      obtain ⟨e, he, hp, first, ⟨rest, hrest⟩, hrf, hall⟩ :=
        hh.stored r ((mem_cons.1 hr).resolve_left fun heq => hmarker (heq ▸ p.name_eq))
      obtain ⟨before, after, rfl⟩ := append_of_mem hrf
      refine ⟨e, he, hp.trans hkey, before, r, after ++ rest, ?_, rfl, fun r' hr' hname => ?_⟩
      · rw [← hrest, append_assoc, cons_append]
      · obtain ⟨r'', hr'', heq⟩ := hall r' (mem_append_left _ hr')
        rw [← heq] at hname ⊢
        exact List.mem_map.2 ⟨r''.member, mem_filter.2 ⟨mem_map_of_mem hr'', hname⟩, rfl⟩
  · cases hread

/-- Blocks that are a header or data. -/
def blockFormat : Format (Option Header) Header := ⟨id, Header.nbytes, none, rfl⟩

/-- An array of `n` blocks. -/
def array (name : String) (n : ℕ) : Rec blockFormat :=
  ⟨⟨name, "|u1", [n], n⟩, some ⟨name, "|u1", [n], n⟩, replicate n none, rfl, length_replicate⟩

/-- An output and the marker of an entry. -/
def outputs (seed : String) : Entry blockFormat :=
  ⟨⟨array validityName 1, rfl⟩, [array ("out/c/" ++ seed ++ "/y") 2, array ("has/c/" ++ seed) 1]⟩

/-- A writer is killed after one of its two headers, and the entry is stored again. -/
def tornRun : List (Action blockFormat) :=
  [.add (outputs "1"), .stop (outputs "2") (dataWrites 7 (outputs "2").arrays) 1 false,
    .add (outputs "2")]

instance (σ : State blockFormat) (a : Action blockFormat) : Decidable (Opaque σ a) :=
  inferInstanceAs (Decidable (∀ r ∈ a.entry.arrays, ∀ b ∈ r.data, b = none))

theorem read_whole_torn : ∃ (σ : State blockFormat) (got : List (Header × List (Option Header))),
    read (outputs "2").pair "has/c/2" (· = "out/c/2/y") σ.file = some got ∧
      ∀ m ∈ got, ∃ e ∈ σ.entries, SameKey e.pair (outputs "2").pair ∧ ∃ r ∈ e.arrays,
        m = r.member := by
  obtain ⟨σ, hσ, hread⟩ := Reach.exists_of_runIf
    (P := fun σ => (read (outputs "2").pair "has/c/2" (· = "out/c/2/y") σ.file).isSome)
    (show (runIf step Opaque ⟨none, []⟩ tornRun).any _ = true by decide)
  obtain ⟨got, hgot⟩ := isSome_iff_exists.1 hread
  exact ⟨σ, got, hgot, (read_whole hσ hgot (by decide) (by decide)).1⟩

/-- **What was added stays.**  After an entry was added, and as long as only entries of its validity
key follow, the file keeps every record it has, and it has all arrays of the entry. -/
theorem added_kept (h : Reach step Opaque ⟨none, []⟩ σ) (hok : Opaque σ (.add e))
    (hs : step σ (.add e) = some σ')
    (hrun : Reach step (fun σ a => Opaque σ a ∧ SameKey a.entry.pair e.pair) σ' τ) :
    ∃ found more, σ'.file.bind (held e.pair) = some found ∧
      τ.file.bind (held e.pair) = some (found ++ more) ∧
        ∀ r ∈ e.arrays, r.head.name ∈ names found := by
  obtain ⟨l, p, rs, hl, hh, hadd⟩ := (Inv.of_reach h).next hok hs
  obtain ⟨hkey, hall⟩ := hadd e rfl
  have hlater : ∃ l more, τ.file = some l ∧ Holds τ.entries l p (rs ++ more) := by
    refine hrun.invariant (I := fun τ => ∃ l more, τ.file = some l ∧
      Holds τ.entries l p (rs ++ more)) ⟨l, [], hl, (append_nil rs).symm ▸ hh⟩ ?_
    rintro ⟨file, entries⟩ a τ' ⟨l, more, hl, hh⟩ hok hs
    cases hl
    obtain ⟨l', more', rfl, hh', -⟩ :=
      hh.step rfl hok.1 hs (hh.held_eq_if.trans (if_pos (hkey.trans hok.2.symm)))
    exact ⟨l', more ++ more', rfl, append_assoc rs .. ▸ hh'⟩
  obtain ⟨l', more, hl', hh'⟩ := hlater
  refine ⟨(p.validity :: rs).map Rec.member, more.map Rec.member, ?_, ?_, fun r hr => ?_⟩
  · rw [hl, Option.bind_some, hh.held_eq_if, if_pos hkey]
  · rw [hl', Option.bind_some, hh'.held_eq_if, if_pos hkey, ← cons_append, map_append]
  · obtain ⟨r', hr', heq⟩ := hall r hr
    exact List.mem_map.2 ⟨r'.member, mem_map_of_mem hr', heq⟩

theorem added_kept_killed : ∃ (τ : State blockFormat)
    (found more : List (Header × List (Option Header))),
    τ.file.bind (held (outputs "1").pair) = some (found ++ more) ∧
      ∀ r ∈ (outputs "1").arrays, r.head.name ∈ names found := by
  obtain ⟨found, more, -, hτ, hall⟩ := added_kept .refl (e := outputs "1") (by decide) rfl
    (.single (a := .stop (outputs "2") [] 0 false) ⟨by decide, rfl⟩ rfl)
  exact ⟨_, found, more, hτ, hall⟩

end Judge.Goldens

end HpcAgentBench
