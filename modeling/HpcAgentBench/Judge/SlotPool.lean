import Mathlib
import HpcAgentBench.Lib.Lts

/-!
# The device slots of the judge

Request threads take a device slot from `SlotPool.acquire` and give it back with `release`.  A
thread that has to wait is woken, now and then or by a change, to look whether a slot is free and
its ticket, of priority and arrival, the least; an event tells it that its client left.

Each critical section is one step: a thread arrives and looks, looks again, or releases; the
client of a request may leave at any time.

## Main results

* `Inv.look`, `reach_inv` : what every interleaving keeps.
* `fair_iff` : a step hands a slot to the least waiter whose client is still there, exactly if no
  thread looks on its turn after its client left.
* `slotPool_runs` : slots are conserved over every run, no thread outside keeps a ticket, and which
  runs hand every slot to the right waiter.
* `slotPool_gone_takes` : a thread whose client left takes the slot another one waits for.
-/

namespace HpcAgentBench

open List

namespace Judge

/-- A place in the queue: a priority, least first, then an arrival number. -/
abbrev Ticket := ℤ ×ₗ ℕ

/-- `SlotPool`; the heap of waiters is kept in order, its least ticket first. -/
structure SlotPool (Slot : Type) where
  free : List Slot
  waiters : List Ticket
  /-- The next arrival number. -/
  arrivals : ℕ

namespace SlotPool

variable {Slot : Type}

/-- `SlotPool(slots)`. -/
def new (slots : List Slot) : SlotPool Slot := ⟨slots, [], 0⟩

/-- `heappush(waiters, (priority, next(arrivals)))`. -/
def push (pool : SlotPool Slot) (priority : ℤ) : SlotPool Slot :=
  { pool with
    waiters := pool.waiters.orderedInsert (· ≤ ·) (toLex (priority, pool.arrivals))
    arrivals := pool.arrivals + 1 }

/-- `waiters.remove(ticket)` and `heapify(waiters)`. -/
def remove (pool : SlotPool Slot) (ticket : Ticket) : SlotPool Slot :=
  { pool with waiters := pool.waiters.erase ticket }

/-- What a look of `acquire` ends in. -/
inductive Outcome (Slot : Type)
  | takes (slot : Slot)
  | leaves
  | waits

/-- One look of `acquire`: the slot when one is free and the ticket is the least, nothing when the
client is gone, and another wait otherwise. -/
def look (pool : SlotPool Slot) (ticket : Ticket) (gone : Bool) :
    SlotPool Slot × Outcome Slot :=
  match pool.free with
  | slot :: rest =>
    if pool.waiters.head? = some ticket then ({ pool with free := rest }.remove ticket, .takes slot)
    else if gone then (pool.remove ticket, .leaves) else (pool, .waits)
  | [] => if gone then (pool.remove ticket, .leaves) else (pool, .waits)

/-- `release`. -/
def release (pool : SlotPool Slot) (slot : Slot) : SlotPool Slot :=
  { pool with free := pool.free ++ [slot] }

end SlotPool

/-! ### Request threads -/

namespace Slots

variable {ι Slot : Type}

/-- Where a request thread is. -/
inductive Phase (Slot : Type)
  | outside
  /-- Inside `acquire`. -/
  | waiting (ticket : Ticket)
  /-- `acquire` returned the slot. -/
  | holding (slot : Slot)
  /-- `acquire` returned nothing. -/
  | left
  /-- The slot was released. -/
  | finished

/-- The pool and its threads. -/
structure State (ι Slot : Type) where
  pool : SlotPool Slot
  phase : ι → Phase Slot
  /-- The client left. -/
  gone : ι → Bool

/-- What can happen. -/
inductive Event (ι : Type)
  /-- A thread enters `acquire` and looks. -/
  | arrive (i : ι) (priority : ℤ)
  /-- A waiting thread looks again. -/
  | look (i : ι)
  /-- `gone.set()`. -/
  | clientLeaves (i : ι)
  /-- A holder releases its slot. -/
  | release (i : ι)

variable [DecidableEq ι]

namespace State

/-- All slots free, nobody waiting. -/
def init (slots : List Slot) : State ι Slot :=
  ⟨.new slots, fun _ => .outside, fun _ => false⟩

/-- The thread has its ticket. -/
def enter (σ : State ι Slot) (i : ι) (priority : ℤ) : State ι Slot where
  pool := σ.pool.push priority
  phase := Function.update σ.phase i (.waiting (toLex (priority, σ.pool.arrivals)))
  gone := σ.gone

/-- A look of a waiting thread. -/
def look (σ : State ι Slot) (i : ι) : Option (State ι Slot) :=
  match σ.phase i with
  | .waiting ticket =>
    match σ.pool.look ticket (σ.gone i) with
    | (pool, .takes slot) =>
      some { σ with pool := pool, phase := Function.update σ.phase i (.holding slot) }
    | (pool, .leaves) => some { σ with pool := pool, phase := Function.update σ.phase i .left }
    | (pool, .waits) => some { σ with pool := pool }
  | _ => none

def release (σ : State ι Slot) (i : ι) : Option (State ι Slot) :=
  match σ.phase i with
  | .holding slot =>
    some { σ with pool := σ.pool.release slot, phase := Function.update σ.phase i .finished }
  | _ => none

end State

/-- The state in which the thread of an event looks: with its ticket. -/
def before (σ : State ι Slot) : Event ι → State ι Slot
  | .arrive i priority => σ.enter i priority
  | _ => σ

/-- One step; a thread enters `acquire` once. -/
def step (σ : State ι Slot) (e : Event ι) : Option (State ι Slot) :=
  match e with
  | .arrive i _ =>
    match σ.phase i with
    | .outside => (before σ e).look i
    | _ => none
  | .look i => σ.look i
  | .clientLeaves i => some { σ with gone := Function.update σ.gone i true }
  | .release i => σ.release i

/-! ### What every interleaving keeps -/

/-- Every slot of the pool is free, or held by one thread. -/
structure Conserved (slots free : List Slot) (phase : ι → Phase Slot) : Prop where
  nodup : free.Nodup
  mem : ∀ s ∈ free, s ∈ slots
  held : ∀ i s, phase i = .holding s → s ∈ slots ∧ s ∉ free
  unique : ∀ i j s, phase i = .holding s → phase j = .holding s → i = j
  accounted : ∀ s ∈ slots, s ∈ free ∨ ∃ i, phase i = .holding s

/-- The heap holds the tickets of the threads inside `acquire`, in order. -/
structure Ticketed (pool : SlotPool Slot) (phase : ι → Phase Slot) : Prop where
  sorted : pool.waiters.Pairwise (· < ·)
  mem_iff : ∀ t, t ∈ pool.waiters ↔ ∃ i, phase i = .waiting t
  unique : ∀ i j t, phase i = .waiting t → phase j = .waiting t → i = j
  arrived : ∀ t ∈ pool.waiters, (ofLex t).2 < pool.arrivals

/-- What every state of a run is. -/
structure Inv (slots : List Slot) (σ : State ι Slot) : Prop where
  conserved : Conserved slots σ.pool.free σ.phase
  ticketed : Ticketed σ.pool σ.phase

variable {slots free rest : List Slot} {phase : ι → Phase Slot} {pool : SlotPool Slot} {i : ι}
  {slot : Slot} {ticket : Ticket} {x : Phase Slot}

/-- A thread that holds nothing before and after. -/
theorem Conserved.update (h : Conserved slots free phase) (hi : ∀ s, phase i ≠ .holding s)
    (hx : ∀ s, x ≠ .holding s) : Conserved slots free (Function.update phase i x) := by
  have hiff (j : ι) (s : Slot) :
      Function.update phase i x j = .holding s ↔ phase j = .holding s := by
    rw [Function.update_apply]
    split
    next hj =>
      subst hj
      exact iff_of_false (hx s) (hi s)
    next => rfl
  refine ⟨h.nodup, h.mem, fun j s => ?_, fun j k s => ?_, fun s hs => ?_⟩
  · rw [hiff]
    exact h.held j s
  · rw [hiff, hiff]
    exact h.unique j k s
  · simp only [hiff]
    exact h.accounted s hs

/-- A thread takes the first free slot. -/
theorem Conserved.take (h : Conserved slots (slot :: rest) phase)
    (hi : ∀ s, phase i ≠ .holding s) :
    Conserved slots rest (Function.update phase i (.holding slot)) := by
  have hnodup := nodup_cons.1 h.nodup
  have hiff (j : ι) (s : Slot) : Function.update phase i (.holding slot) j = .holding s ↔
      (j = i ∧ s = slot) ∨ phase j = .holding s := by
    rw [Function.update_apply]
    split
    next hj =>
      subst hj
      simp [hi s, eq_comm]
    next hj => simp [hj]
  refine ⟨hnodup.2, fun s hs => h.mem s (mem_cons_of_mem _ hs), fun j s hj => ?_,
    fun j k s hj hk => ?_, fun s hs => ?_⟩
  · rcases (hiff j s).1 hj with ⟨-, rfl⟩ | hj
    · exact ⟨h.mem s mem_cons_self, hnodup.1⟩
    · exact ⟨(h.held j s hj).1, fun hs => (h.held j s hj).2 (mem_cons_of_mem _ hs)⟩
  · rcases (hiff j s).1 hj with ⟨rfl, rfl⟩ | hj'
    · rcases (hiff k s).1 hk with ⟨rfl, -⟩ | hk'
      · rfl
      · exact ((h.held k s hk').2 mem_cons_self).elim
    · rcases (hiff k s).1 hk with ⟨rfl, rfl⟩ | hk'
      · exact ((h.held j s hj').2 mem_cons_self).elim
      · exact h.unique j k s hj' hk'
  · simp only [hiff]
    rcases h.accounted s hs with hfree | ⟨j, hj⟩
    · rcases mem_cons.1 hfree with rfl | hfree
      · exact .inr ⟨i, .inl ⟨rfl, rfl⟩⟩
      · exact .inl hfree
    · exact .inr ⟨j, .inr hj⟩

/-- A thread gives its slot back. -/
theorem Conserved.release (h : Conserved slots free phase) (hi : phase i = .holding slot)
    (hx : ∀ s, x ≠ .holding s) :
    Conserved slots (free ++ [slot]) (Function.update phase i x) := by
  have hiff (j : ι) (s : Slot) :
      Function.update phase i x j = .holding s ↔ j ≠ i ∧ phase j = .holding s := by
    rw [Function.update_apply]
    split
    next hj =>
      subst hj
      simp [hx s]
    next hj => simp [hj]
  have hmem (s : Slot) : s ∈ free ++ [slot] ↔ s ∈ free ∨ s = slot := by simp
  refine ⟨?_, fun s hs => ?_, fun j s hj => ?_, fun j k s hj hk => ?_, fun s hs => ?_⟩
  · rw [nodup_append]
    refine ⟨h.nodup, by simp, fun a ha b hb => ?_⟩
    obtain rfl : b = slot := by simpa using hb
    exact fun hab => (h.held i b hi).2 (hab ▸ ha)
  · rcases (hmem s).1 hs with hs | rfl
    · exact h.mem s hs
    · exact (h.held i s hi).1
  · obtain ⟨hji, hj⟩ := (hiff j s).1 hj
    refine ⟨(h.held j s hj).1, fun hs => ?_⟩
    rcases (hmem s).1 hs with hs | rfl
    · exact (h.held j s hj).2 hs
    · exact hji (h.unique j i s hj hi)
  · exact h.unique j k s ((hiff j s).1 hj).2 ((hiff k s).1 hk).2
  · simp only [hiff, hmem]
    rcases h.accounted s hs with hfree | ⟨j, hj⟩
    · exact .inl (.inl hfree)
    · by_cases hji : j = i
      · subst hji
        rw [hi, Phase.holding.injEq] at hj
        exact .inl (.inr hj.symm)
      · exact .inr ⟨j, hji, hj⟩

/-- A thread that has no ticket before and after. -/
theorem Ticketed.update (h : Ticketed pool phase) (hi : ∀ t, phase i ≠ .waiting t)
    (hx : ∀ t, x ≠ .waiting t) : Ticketed pool (Function.update phase i x) := by
  have hiff (j : ι) (t : Ticket) :
      Function.update phase i x j = .waiting t ↔ phase j = .waiting t := by
    rw [Function.update_apply]
    split
    next hj =>
      subst hj
      exact iff_of_false (hx t) (hi t)
    next => rfl
  refine ⟨h.sorted, fun t => ?_, fun j k t => ?_, h.arrived⟩
  · simp only [hiff]
    exact h.mem_iff t
  · rw [hiff, hiff]
    exact h.unique j k t

/-- A thread arrives. -/
theorem Ticketed.push (h : Ticketed pool phase) (hi : ∀ t, phase i ≠ .waiting t) (priority : ℤ) :
    Ticketed (pool.push priority)
      (Function.update phase i (.waiting (toLex (priority, pool.arrivals)))) := by
  set new : Ticket := toLex (priority, pool.arrivals) with hnew
  have hfresh : new ∉ pool.waiters := fun hmem => Nat.lt_irrefl _ (h.arrived _ hmem)
  have hmem {t : Ticket} : t ∈ (pool.push priority).waiters ↔ t = new ∨ t ∈ pool.waiters :=
    mem_orderedInsert _
  have hiff (j : ι) (t : Ticket) : Function.update phase i (.waiting new) j = .waiting t ↔
      (j = i ∧ t = new) ∨ phase j = .waiting t := by
    rw [Function.update_apply]
    split
    next hj =>
      subst hj
      simp [hi t, eq_comm]
    next hj => simp [hj]
  refine ⟨?_, fun t => ?_, fun j k t hj hk => ?_, fun t ht => ?_⟩
  · have hle : (pool.push priority).waiters.Pairwise (· ≤ ·) :=
      (h.sorted.imp le_of_lt).orderedInsert _ _
    have hnodup : (pool.push priority).waiters.Nodup := by
      refine ((perm_orderedInsert (· ≤ ·) new pool.waiters).nodup_iff).2 ?_
      exact nodup_cons.2 ⟨hfresh, h.sorted.imp ne_of_lt⟩
    exact hle.imp₂ (fun _ _ hle hne => lt_of_le_of_ne hle hne) hnodup
  · rw [hmem]
    simp only [hiff]
    constructor
    · rintro (rfl | ht)
      · exact ⟨i, .inl ⟨rfl, rfl⟩⟩
      · obtain ⟨j, hj⟩ := (h.mem_iff t).1 ht
        exact ⟨j, .inr hj⟩
    · rintro ⟨j, ⟨-, rfl⟩ | hj⟩
      · exact .inl rfl
      · exact .inr ((h.mem_iff t).2 ⟨j, hj⟩)
  · rcases (hiff j t).1 hj with ⟨rfl, rfl⟩ | hj'
    · rcases (hiff k new).1 hk with ⟨rfl, -⟩ | hk'
      · rfl
      · exact (hfresh ((h.mem_iff _).2 ⟨k, hk'⟩)).elim
    · rcases (hiff k t).1 hk with ⟨rfl, rfl⟩ | hk'
      · exact (hfresh ((h.mem_iff _).2 ⟨j, hj'⟩)).elim
      · exact h.unique j k t hj' hk'
  · rcases hmem.1 ht with rfl | ht
    · exact Nat.lt_succ_self _
    · exact Nat.lt_succ_of_lt (h.arrived t ht)

/-- A thread leaves `acquire`. -/
theorem Ticketed.remove (h : Ticketed pool phase) (hi : phase i = .waiting ticket)
    (hx : ∀ t, x ≠ .waiting t) :
    Ticketed (pool.remove ticket) (Function.update phase i x) := by
  have hnodup : pool.waiters.Nodup := h.sorted.imp ne_of_lt
  have hmem {t : Ticket} : t ∈ (pool.remove ticket).waiters ↔ t ≠ ticket ∧ t ∈ pool.waiters :=
    hnodup.mem_erase_iff
  have hiff (j : ι) (t : Ticket) :
      Function.update phase i x j = .waiting t ↔ j ≠ i ∧ phase j = .waiting t := by
    rw [Function.update_apply]
    split
    next hj =>
      subst hj
      simp [hx t]
    next hj => simp [hj]
  refine ⟨h.sorted.sublist erase_sublist, fun t => ?_, fun j k t hj hk => ?_,
    fun t ht => h.arrived t (hmem.1 ht).2⟩
  · rw [hmem, h.mem_iff]
    simp only [hiff]
    constructor
    · rintro ⟨hne, j, hj⟩
      refine ⟨j, ?_, hj⟩
      rintro rfl
      rw [hi, Phase.waiting.injEq] at hj
      exact hne hj.symm
    · rintro ⟨j, hji, hj⟩
      refine ⟨?_, j, hj⟩
      rintro rfl
      exact hji (h.unique j i _ hj hi)
  · exact h.unique j k t ((hiff j t).1 hj).2 ((hiff k t).1 hk).2

variable {σ σ' : State ι Slot}
variable {e : Event ι}

omit [DecidableEq ι] in
theorem inv_init (h : slots.Nodup) : Inv slots (.init slots : State ι Slot) where
  conserved := {
    nodup := h
    mem := fun _ hs => hs
    held := fun _ _ h => nomatch h
    unique := fun _ _ _ h => nomatch h
    accounted := fun _ hs => .inl hs }
  ticketed := {
    sorted := .nil
    mem_iff := fun _ => ⟨fun h => (nomatch h), fun ⟨_, h⟩ => (nomatch h)⟩
    unique := fun _ _ _ h => nomatch h
    arrived := fun _ h => nomatch h }

theorem Inv.enter (h : Inv slots σ) (hi : σ.phase i = .outside) (priority : ℤ) :
    Inv slots (σ.enter i priority) where
  conserved := h.conserved.update (by simp [hi]) (by simp)
  ticketed := h.ticketed.push (by simp [hi]) priority

/-- The three ends of a look. -/
theorem look_cases (h : σ.look i = some σ') : ∃ ticket, σ.phase i = .waiting ticket ∧
    ((∃ slot rest, σ.pool.free = slot :: rest ∧ σ.pool.waiters.head? = some ticket ∧
        σ' = { σ with
          pool := { σ.pool with free := rest }.remove ticket
          phase := Function.update σ.phase i (.holding slot) }) ∨
      ((σ.pool.free = [] ∨ σ.pool.waiters.head? ≠ some ticket) ∧ σ.gone i = true ∧
        σ' = { σ with
          pool := σ.pool.remove ticket
          phase := Function.update σ.phase i .left }) ∨
      ((σ.pool.free = [] ∨ σ.pool.waiters.head? ≠ some ticket) ∧ σ.gone i = false ∧ σ' = σ)) := by
  unfold State.look at h
  cases hphase : σ.phase i with
  | waiting ticket =>
    refine ⟨ticket, rfl, ?_⟩
    simp only [hphase, SlotPool.look] at h
    cases hfree : σ.pool.free with
    | nil =>
      cases hgone : σ.gone i <;> simp only [hfree, hgone] at h <;> cases h
      · exact .inr (.inr ⟨.inl rfl, rfl, rfl⟩)
      · exact .inr (.inl ⟨.inl rfl, rfl, rfl⟩)
    | cons slot rest =>
      by_cases hhead : σ.pool.waiters.head? = some ticket
      · simp only [hfree, hhead, if_true] at h
        cases h
        exact .inl ⟨slot, rest, rfl, hhead, rfl⟩
      · cases hgone : σ.gone i <;> simp only [hfree, hhead, hgone] at h <;> cases h
        · exact .inr (.inr ⟨.inr hhead, rfl, rfl⟩)
        · exact .inr (.inl ⟨.inr hhead, rfl, rfl⟩)
  | _ => simp [hphase] at h

theorem Inv.look (h : Inv slots σ) (hs : σ.look i = some σ') : Inv slots σ' := by
  obtain ⟨ticket, hi, ⟨slot, rest, hfree, -, rfl⟩ | ⟨-, -, rfl⟩ | ⟨-, -, rfl⟩⟩ := look_cases hs
  · refine ⟨Conserved.take (hfree ▸ h.conserved) (by simp [hi]), ?_⟩
    have hticketed : Ticketed { σ.pool with free := rest } σ.phase :=
      ⟨h.ticketed.sorted, h.ticketed.mem_iff, h.ticketed.unique, h.ticketed.arrived⟩
    exact hticketed.remove hi (by simp)
  · exact ⟨h.conserved.update (by simp [hi]) (by simp), h.ticketed.remove hi (by simp)⟩
  · exact h

theorem Inv.release (h : Inv slots σ) (hs : σ.release i = some σ') : Inv slots σ' := by
  unfold State.release at hs
  cases hi : σ.phase i with
  | holding slot =>
    simp only [hi] at hs
    cases hs
    have hticketed : Ticketed (σ.pool.release slot) σ.phase :=
      ⟨h.ticketed.sorted, h.ticketed.mem_iff, h.ticketed.unique, h.ticketed.arrived⟩
    exact ⟨h.conserved.release hi (by simp), hticketed.update (by simp [hi]) (by simp)⟩
  | _ => simp [hi] at hs

/-- A thread looks with its ticket; the other events hand out nothing. -/
theorem step_cases (h : step σ e = some σ') :
    (∃ i, (before σ e).look i = some σ' ∧ (∀ slots, Inv slots σ → Inv slots (before σ e)) ∧
      ((∃ p, e = .arrive i p ∧ σ.phase i = .outside) ∨ e = .look i)) ∨
    (∃ i, e = .clientLeaves i ∧ σ' = { σ with gone := Function.update σ.gone i true }) ∨
    ∃ i, e = .release i ∧ σ.release i = some σ' := by
  cases e with
  | arrive i priority =>
    unfold step at h
    cases hi : σ.phase i with
    | outside =>
      simp only [hi] at h
      exact .inl ⟨i, h, fun slots hinv => hinv.enter hi priority, .inl ⟨priority, rfl, hi⟩⟩
    | _ => simp [hi] at h
  | look i => exact .inl ⟨i, h, fun _ hinv => hinv, .inr rfl⟩
  | clientLeaves i =>
    cases h
    exact .inr (.inl ⟨i, rfl, rfl⟩)
  | release i => exact .inr (.inr ⟨i, rfl, h⟩)

theorem Inv.step (h : Inv slots σ) (hs : step σ e = some σ') : Inv slots σ' := by
  rcases step_cases hs with ⟨i, hlook, hbefore, -⟩ | ⟨i, -, rfl⟩ | ⟨i, -, hrelease⟩
  · exact (hbefore slots h).look hlook
  · exact ⟨h.conserved, h.ticketed⟩
  · exact h.release hrelease

/-! ### To whom a slot goes -/

/-- A step hands each slot it hands out to a thread whose client is there, with the least ticket
of the waiting threads whose client is there. -/
def Fair (σ : State ι Slot) (e : Event ι) (σ' : State ι Slot) : Prop :=
  ∀ i slot, (∀ s, σ.phase i ≠ .holding s) → σ'.phase i = .holding slot →
    σ.gone i = false ∧ ∃ t, (before σ e).phase i = .waiting t ∧
      ∀ j t', (before σ e).phase j = .waiting t' → σ.gone j = false → t ≤ t'

/-- A thread whose client left looks on its turn: a slot is free, and its ticket the least. -/
def StaleTurn (σ : State ι Slot) (e : Event ι) : Prop :=
  ∃ i t, ((∃ p, e = .arrive i p) ∨ e = .look i) ∧ σ.gone i = true ∧
    (before σ e).phase i = .waiting t ∧ (before σ e).pool.waiters.head? = some t ∧
    σ.pool.free ≠ []

theorem gone_before (σ : State ι Slot) (e : Event ι) : (before σ e).gone = σ.gone := by
  cases e <;> rfl

theorem free_before (σ : State ι Slot) (e : Event ι) :
    (before σ e).pool.free = σ.pool.free := by
  cases e <;> rfl

omit [DecidableEq ι] in
/-- The first ticket is the least. -/
theorem Ticketed.head_le (h : Ticketed pool phase) (hhead : pool.waiters.head? = some ticket)
    {j : ι} {t : Ticket} (hj : phase j = .waiting t) : ticket ≤ t := by
  have hmem := (h.mem_iff t).2 ⟨j, hj⟩
  have hsorted := h.sorted
  cases hw : pool.waiters with
  | nil =>
    rw [hw] at hhead
    cases hhead
  | cons w ws =>
    rw [hw] at hhead hmem hsorted
    cases hhead
    rcases mem_cons.1 hmem with rfl | hmem
    · exact le_refl _
    · exact le_of_lt ((pairwise_cons.1 hsorted).1 t hmem)

theorem holding_before {s : Slot} (h : (before σ e).phase i = .holding s) :
    σ.phase i = .holding s := by
  cases e with
  | arrive j p =>
    simp only [before, State.enter, Function.update_apply] at h
    split at h
    next => cases h
    next => exact h
  | _ => exact h

theorem fair_iff (h : Inv slots σ) (hs : step σ e = some σ') :
    Fair σ e σ' ↔ ¬ StaleTurn σ e := by
  rcases step_cases hs with ⟨i, hlook, hbefore, he⟩ | ⟨i, rfl, rfl⟩ | ⟨i, rfl, hrelease⟩
  · have hinv := hbefore slots h
    have hevent {j : ι} (hj : (∃ p, e = .arrive j p) ∨ e = .look j) : j = i := by
      rcases he with ⟨p, rfl, -⟩ | rfl <;> rcases hj with ⟨q, heq⟩ | heq <;> cases heq <;> rfl
    obtain ⟨ticket, hi, hcases⟩ := look_cases hlook
    rw [free_before, gone_before] at hcases
    have hold : ∀ s, σ.phase i ≠ .holding s := by
      intro s hhold
      rcases he with ⟨p, -, hout⟩ | rfl
      · rw [hout] at hhold
        cases hhold
      · rw [show σ.phase i = .waiting ticket from hi] at hhold
        cases hhold
    constructor
    · rintro hfair ⟨j, t, hj, hgone, hphase, hhead, hfree⟩
      obtain rfl := hevent hj
      rw [hi, Phase.waiting.injEq] at hphase
      subst hphase
      rcases hcases with ⟨slot, rest, -, -, rfl⟩ | ⟨hno, -, -⟩ | ⟨hno, -, -⟩
      · have := (hfair j slot hold (Function.update_self ..)).1
        rw [hgone] at this
        cases this
      · exact hno.elim hfree fun hne => hne hhead
      · exact hno.elim hfree fun hne => hne hhead
    · intro hstale j slot hj hhold
      have hsame : j = i := by
        by_contra hne
        have hb : (before σ e).phase j = .holding slot := by
          rcases hcases with ⟨_, _, -, -, rfl⟩ | ⟨-, -, rfl⟩ | ⟨-, -, rfl⟩
          · simpa only [Function.update_of_ne hne] using hhold
          · simpa only [Function.update_of_ne hne] using hhold
          · exact hhold
        exact hj slot (holding_before hb)
      subst hsame
      rcases hcases with ⟨s, rest, hfree, hhead, rfl⟩ | ⟨-, -, rfl⟩ | ⟨-, -, rfl⟩
      · refine ⟨?_, ticket, hi, fun k t' hk _ => hinv.ticketed.head_le hhead hk⟩
        by_contra hgone
        refine hstale ⟨j, ticket, he.imp (fun ⟨p, hp, _⟩ => ⟨p, hp⟩) id, by simpa using hgone, hi,
          hhead, by simp [hfree]⟩
      · simp at hhold
      · rw [hi] at hhold
        cases hhold
  · refine iff_of_true (fun j slot hj hhold => (hj slot hhold).elim) ?_
    rintro ⟨j, t, ⟨p, he⟩ | he, -⟩ <;> cases he
  · refine iff_of_true (fun j slot hj hhold => ?_) ?_
    · unfold State.release at hrelease
      cases hi : σ.phase i with
      | holding s =>
        simp only [hi] at hrelease
        cases hrelease
        simp only [Function.update_apply] at hhold
        split at hhold
        next => cases hhold
        next => exact (hj slot hhold).elim
      | _ => simp [hi] at hrelease
    · rintro ⟨j, t, ⟨p, he⟩ | he, -⟩ <;> cases he

theorem reach_inv (hnodup : slots.Nodup) {ok : State ι Slot → Event ι → Prop}
    (h : Lts.Reach step ok (.init slots) σ) : Inv slots σ :=
  h.invariant (inv_init hnodup) fun _ _ _ hinv _ hs => hinv.step hs

/-- Each slot of the pool is free, or held by exactly one thread, and no other slot is around. -/
def FreeOrHeld (slots : List Slot) (σ : State ι Slot) : Prop :=
  (∀ s ∈ slots, (s ∈ σ.pool.free ∧ ∀ i, σ.phase i ≠ .holding s) ∨
    (s ∉ σ.pool.free ∧ ∃! i, σ.phase i = .holding s)) ∧
  σ.pool.free.Nodup ∧ (∀ s ∈ σ.pool.free, s ∈ slots) ∧ ∀ i s, σ.phase i = .holding s → s ∈ slots

omit [DecidableEq ι] in
theorem Conserved.freeOrHeld (h : Conserved slots σ.pool.free σ.phase) : FreeOrHeld slots σ := by
  refine ⟨fun s hs => ?_, h.nodup, h.mem, fun i s hi => (h.held i s hi).1⟩
  rcases h.accounted s hs with hfree | ⟨i, hi⟩
  · exact .inl ⟨hfree, fun i hi => (h.held i s hi).2 hfree⟩
  · exact .inr ⟨(h.held i s hi).2, i, hi, fun j hj => h.unique j i s hj hi⟩

/-- A free slot goes to the next look of the thread with the least ticket. -/
theorem Ticketed.look_takes (h : Ticketed σ.pool σ.phase) (hi : σ.phase i = .waiting ticket)
    (hleast : ∀ j t, σ.phase j = .waiting t → ticket ≤ t) (hfree : σ.pool.free = slot :: rest) :
    ∃ σ', step σ (.look i) = some σ' ∧ σ'.phase i = .holding slot := by
  have hmem := (h.mem_iff ticket).2 ⟨i, hi⟩
  have hhead : σ.pool.waiters.head? = some ticket := by
    cases hw : σ.pool.waiters with
    | nil =>
      rw [hw] at hmem
      cases hmem
    | cons w ws =>
      have hsorted := h.sorted
      rw [hw] at hmem hsorted
      obtain ⟨j, hj⟩ := (h.mem_iff w).1 (hw ▸ mem_cons_self)
      rcases mem_cons.1 hmem with rfl | hmem
      · rfl
      · exact absurd (hleast j w hj) (not_le.2 ((pairwise_cons.1 hsorted).1 ticket hmem))
  refine ⟨{ σ with
    pool := { σ.pool with free := rest }.remove ticket
    phase := Function.update σ.phase i (.holding slot) }, ?_, Function.update_self ..⟩
  simp only [step, State.look, hi, SlotPool.look, hfree, hhead, if_true]

/-- **The slots of a run.**  For every interleaving, over any number of threads: in every state
each slot is free or held by exactly one thread, the queue holds the tickets of the threads inside
`acquire` and no others, and a free slot goes to the next look of the least of them.  A run hands
every slot it hands out to the least waiting thread whose client is there, if and only if no
thread looks on its turn after its client left. -/
theorem slotPool_runs (hnodup : slots.Nodup) (es : List (Event ι)) :
    (∀ σ : State ι Slot, Lts.Reach step Lts.always (.init slots) σ → FreeOrHeld slots σ ∧
      (∀ t, t ∈ σ.pool.waiters ↔ ∃ i, σ.phase i = .waiting t) ∧
      ∀ i t, σ.phase i = .waiting t → (∀ j t', σ.phase j = .waiting t' → t ≤ t') →
        ∀ slot rest, σ.pool.free = slot :: rest →
          ∃ σ', step σ (.look i) = some σ' ∧ σ'.phase i = .holding slot) ∧
    (Lts.AllSteps step Fair (.init slots : State ι Slot) es ↔
      Lts.AllSteps step (fun σ e _ => ¬ StaleTurn σ e) (.init slots : State ι Slot) es) := by
  refine ⟨fun σ h => ?_, Lts.AllSteps.iff fun σ e σ' h hs => ?_⟩
  · have hinv := reach_inv hnodup h
    exact ⟨hinv.conserved.freeOrHeld, hinv.ticketed.mem_iff,
      fun i t hi hleast slot rest hfree => hinv.ticketed.look_takes hi hleast hfree⟩
  · exact fair_iff (reach_inv hnodup h) hs

/-- Two threads, of which the second waits for the first. -/
def handOver : List (Event ℕ) := [.arrive 0 1, .arrive 1 1, .release 0, .look 1]

theorem slotPool_runs_handOver :
    Lts.AllSteps step Fair (.init [0] : State ℕ ℕ) handOver := by
  refine (slotPool_runs (by decide) handOver).2.2 ?_
  -- no client leaves in this run
  have hnone {σ : State ℕ ℕ} (h : σ.gone = fun _ => false) (e : Event ℕ) : ¬ StaleTurn σ e := by
    rintro ⟨i, t, -, hgone, -⟩
    rw [h] at hgone
    cases hgone
  intro σ₁ h₁
  cases h₁
  refine ⟨hnone rfl _, fun σ₂ h₂ => ?_⟩
  cases h₂
  refine ⟨hnone rfl _, fun σ₃ h₃ => ?_⟩
  cases h₃
  refine ⟨hnone rfl _, fun σ₄ h₄ => ?_⟩
  cases h₄
  exact ⟨hnone rfl _, trivial⟩

/-- The slot is held, two threads wait for it, and the client of the first of them leaves. -/
def clientLeft : List (Event ℕ) :=
  [.arrive 0 1, .arrive 1 1, .arrive 2 1, .clientLeaves 1, .release 0]

/-- The thread whose client left takes the slot the other one waits for. -/
theorem slotPool_gone_takes : ∃ σ σ' : State ℕ ℕ,
    Lts.Reach step Lts.always (.init [0]) σ ∧ step σ (.look 1) = some σ' ∧ σ.gone 1 = true ∧
      σ'.phase 1 = .holding 0 ∧ (∃ t, σ'.phase 2 = .waiting t) ∧ σ'.gone 2 = false ∧
      ¬ Fair σ (.look 1) σ' := by
  refine ⟨_, _, .of_runIf (show Lts.runIf step Lts.always (.init [0]) clientLeft = some _ from rfl),
    rfl, rfl, rfl, ⟨_, rfl⟩, rfl, fun h => ?_⟩
  have hgone := (h 1 0 (fun s hs => nomatch hs) rfl).1
  cases hgone

end Slots

end Judge

end HpcAgentBench
