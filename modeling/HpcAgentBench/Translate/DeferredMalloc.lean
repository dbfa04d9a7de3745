import Mathlib
import HpcAgentBench.Lib.Lts

/-!
# Deferred allocation

A local whose size depends on a scalar of the body is allocated at its markers.  The emitter keeps
the size text each such local was last allocated with, joined over branches and loops, and a marker
with the text in the table uses the buffer again.

The texts are not the sizes: the scalars of a text may have changed since, and a loop body is
entered again with the buffers its own end left, not with those of the table it was emitted under.

## Main results

* `emit_agrees` : what the emitter's table says of the code it emits.
* `Inv.next` : the table holds of the buffers wherever the code stands.
* `deferred_allocation` : when every buffer is as large as the extent of its last marker.
-/

namespace HpcAgentBench

open List Option

namespace Translate

namespace DeferredMalloc

open Function (update)

/-! ### The emitter -/

/-- A marker of a local: `np.zeros` and its like, or a reassignment, which may read the local's own
old values. -/
inductive Marker
  | reset
  | reassign (selfRef : Bool)
  deriving DecidableEq

namespace Marker

def isReassign : Marker → Bool
  | reset => false
  | reassign _ => true

def selfRef : Marker → Bool
  | reset => false
  | reassign selfRef => selfRef

end Marker

/-- The statements of a body, over the stores `S` of its scalars. -/
inductive Body (S : Type)
  | done
  | assign (f : S → S) (rest : Body S)
  | zeros (t : String) (marker : Marker) (rest : Body S)
  | ifElse (test : S → Bool) (body orelse rest : Body S)
  | forRange (start : S → S) (test : S → Bool) (next : S → S) (body rest : Body S)
  | whileDo (test : S → Bool) (body rest : Body S)

/-- The size text each deferred local was last allocated with. -/
abbrev Sizes := String → Option String

/-- What is done to the buffer of a local. -/
inductive Act
  | free
  | malloc (size : String)
  | fill (kind size : String)

/-- Emitted C.  A marker is kept with its size text and the entry of the table it was emitted under,
a loop with the table it was emitted under and with whether it has been around. -/
inductive Code (S : Type)
  | done
  | assign (f : S → S) (rest : Code S)
  | zeros (t : String) (marker : Marker) (size : String) (prev : Option String) (acts : List Act)
      (rest : Code S)
  | ifElse (test : S → Bool) (body orelse rest : Code S)
  | loop (again : Bool) (entry : Sizes) (start : S → S) (test : S → Bool) (next : S → S)
      (body rest : Code S)

/-- The emitter's tables. -/
structure Emitter where
  deferredAllocSize : Sizes
  arrayShapes : String → List String
  /-- The shapes of the reassignments to come, in source order. -/
  reassignShapes : String → List (List String)

/-- A deferred local's declaration. -/
structure Spec where
  size : String
  fill : Option String

/-- The C element count of a local. -/
def flatSize (token : String → String) (shape : List String) : String :=
  if shape.isEmpty then "1"
  else String.intercalate " * " (shape.map fun s => "(" ++ token s ++ ")")

/-- The buffers allocated, at the same size, on both of two control-flow paths. -/
def sharedAllocations (left right : Sizes) : Sizes := fun t =>
  if right t = left t then left t else none

/-- The next shape of a reassigned local. -/
def Emitter.popShape (E : Emitter) (t : String) : Emitter :=
  match E.reassignShapes t with
  | [] => E
  | shape :: shapes =>
    { E with
      arrayShapes := update E.arrayShapes t shape
      reassignShapes := update E.reassignShapes t shapes }

/-- The size text of a marker. -/
def markerSize (token : String → String) (spec : Spec) (E : Emitter) (t : String)
    (marker : Marker) : String :=
  if marker.isReassign && !(E.arrayShapes t).isEmpty then flatSize token (E.arrayShapes t)
  else spec.size

/-- Whether a marker uses the buffer at hand. -/
def reuses (marker : Marker) (size : String) (prev : Option String) : Bool :=
  prev == some size &&
    !(marker.isReassign && size.toList.any Char.isAlpha && !marker.selfRef)

def emitDeferredMalloc (fill : Option String) (marker : Marker) (size : String)
    (prev : Option String) : List Act :=
  let fills := (fill.map fun kind => Act.fill kind size).toList
  if reuses marker size prev then if marker.isReassign then [] else fills
  else .free :: .malloc size :: fills

variable {S : Type}

/-- The C of a body, and the tables after it. -/
def emit (token : String → String) (decls : String → Spec) :
    Body S → Emitter → Code S × Emitter
  | .done, E => (.done, E)
  | .assign f rest, E =>
    let r := emit token decls rest E
    (.assign f r.1, r.2)
  | .zeros t marker rest, E₀ =>
    let E := E₀.popShape t
    let size := markerSize token (decls t) E t marker
    let prev := E.deferredAllocSize t
    let sizes :=
      if reuses marker size prev then E.deferredAllocSize
      else update E.deferredAllocSize t (some size)
    let r := emit token decls rest { E with deferredAllocSize := sizes }
    (.zeros t marker size prev (emitDeferredMalloc (decls t).fill marker size prev) r.1, r.2)
  | .ifElse test body orelse rest, E =>
    let b := emit token decls body E
    -- Each branch starts from the allocations made before the `if`.
    let o := emit token decls orelse { b.2 with deferredAllocSize := E.deferredAllocSize }
    let r := emit token decls rest
      { o.2 with
        deferredAllocSize := sharedAllocations b.2.deferredAllocSize o.2.deferredAllocSize }
    (.ifElse test b.1 o.1 r.1, r.2)
  | .forRange start test next body rest, E =>
    let b := emit token decls body E
    -- A loop body may run zero times.
    let r := emit token decls rest
      { b.2 with deferredAllocSize := sharedAllocations E.deferredAllocSize b.2.deferredAllocSize }
    (.loop false E.deferredAllocSize start test next b.1 r.1, r.2)
  | .whileDo test body rest, E =>
    let b := emit token decls body E
    let r := emit token decls rest
      { b.2 with deferredAllocSize := sharedAllocations E.deferredAllocSize b.2.deferredAllocSize }
    (.loop false E.deferredAllocSize id test id b.1 r.1, r.2)

/-! ### Running the C -/

inductive Buffer
  | null
  /-- A buffer of `size` elements, with the contents it was given at time `stamp`. -/
  | live (size stamp : ℕ)
  deriving DecidableEq

/-- A local: its buffer, and of its history the text and the store of its last allocation and the
value its extent had at its last marker. -/
structure Local (S : Type) where
  buffer : Buffer
  allocated : Option (String × S)
  extent : Option ℕ

structure State (S : Type) where
  store : S
  locals : String → Local S
  clock : ℕ

/-- Nothing is allocated. -/
def State.start (store : S) : State S := ⟨store, fun _ => ⟨.null, none, none⟩, 0⟩

section Run

variable (value : String → S → ℕ)

def perform (s : S) (l : Local S × ℕ) : Act → Local S × ℕ
  | .free => ({ l.1 with buffer := .null }, l.2)
  | .malloc size =>
    ({ l.1 with buffer := .live (value size s) l.2, allocated := some (size, s) }, l.2 + 1)
  | .fill _ _ =>
    match l.1.buffer with
    | .null => l
    | .live n _ => ({ l.1 with buffer := .live n l.2 }, l.2 + 1)

/-- A marker's actions, and its extent. -/
def mark (t size : String) (acts : List Act) (σ : State S) : State S :=
  let r := acts.foldl (perform value σ.store) (σ.locals t, σ.clock)
  { σ with
    locals := update σ.locals t { r.1 with extent := some (value size σ.store) }
    clock := r.2 }

/-- One step of the C, the code at hand on top of what follows it. -/
def next : List (Code S) × State S → Option (List (Code S) × State S)
  | ([], _) => none
  | (.done :: k, σ) => some (k, σ)
  | (.assign f rest :: k, σ) => some (rest :: k, { σ with store := f σ.store })
  | (.zeros t _ size _ acts rest :: k, σ) => some (rest :: k, mark value t size acts σ)
  | (.ifElse test body orelse rest :: k, σ) =>
    some ((if test σ.store then body else orelse) :: rest :: k, σ)
  | (.loop again entry start test nxt body rest :: k, σ) =>
    let s := if again then nxt σ.store else start σ.store
    some (if test s then body :: .loop true entry start test nxt body rest :: k else rest :: k,
      { σ with store := s })

/-- What a step rests on.  Where a marker uses a buffer again, its text has not grown since the
buffer was allocated; a reassignment that reads old values has its own text in the table; and where
a loop goes around, the buffers are those of the table it was emitted under. -/
def Met : List (Code S) × State S → Prop
  | (.zeros t marker size prev _ _ :: _, σ) =>
    (reuses marker size prev = true → ∀ s, (σ.locals t).allocated = some (size, s) →
      value size σ.store ≤ value size s) ∧
    (marker.selfRef = true → (σ.locals t).allocated ≠ none → prev = some size)
  | (.loop true entry _ _ _ _ _ :: _, σ) =>
    ∀ t size, entry t = some size → ∃ s, (σ.locals t).allocated = some (size, s)
  | _ => True

/-- The runs whose steps all meet the condition. -/
abbrev Runs : List (Code S) × State S → List (Code S) × State S → Prop :=
  Lts.Reach (fun c (_ : Unit) => next value c) fun c _ => Met value c

end Run

/-! ### The table and the code -/

/-- The table at the end of the code. -/
def exit : Sizes → Code S → Sizes
  | T, .done => T
  | T, .assign _ rest => exit T rest
  | T, .zeros t _ size _ _ rest => exit (update T t (some size)) rest
  | T, .ifElse _ body orelse rest => exit (sharedAllocations (exit T body) (exit T orelse)) rest
  | _, .loop _ entry _ _ _ body rest => exit (sharedAllocations entry (exit entry body)) rest

/-- The code was emitted under the table. -/
def Agrees : Sizes → Code S → Prop
  | _, .done => True
  | T, .assign _ rest => Agrees T rest
  | T, .zeros t marker size prev acts rest =>
    prev = T t ∧ (∃ fill, acts = emitDeferredMalloc fill marker size prev) ∧
      Agrees (update T t (some size)) rest
  | T, .ifElse _ body orelse rest =>
    Agrees T body ∧ Agrees T orelse ∧
      Agrees (sharedAllocations (exit T body) (exit T orelse)) rest
  | T, .loop again entry _ _ _ body rest =>
    (again = false → entry = T) ∧ Agrees entry body ∧
      Agrees (sharedAllocations entry (exit entry body)) rest

/-- Every entry of the one is one of the other. -/
def Below (T T' : Sizes) : Prop := ∀ t size, T t = some size → T' t = some size

theorem shared_below_left (T T' : Sizes) : Below (sharedAllocations T T') T := by
  intro t size h
  unfold sharedAllocations at h
  split at h
  · exact h
  · cases h

theorem shared_below_right (T T' : Sizes) : Below (sharedAllocations T T') T' := by
  intro t size h
  unfold sharedAllocations at h
  split at h
  · next heq => exact heq.trans h
  · cases h

theorem reuses_prev {marker : Marker} {size : String} {prev : Option String}
    (h : reuses marker size prev = true) : prev = some size := by
  simp only [reuses, Bool.and_eq_true, beq_iff_eq] at h
  exact h.1

theorem popShape_sizes (E : Emitter) (t : String) :
    (E.popShape t).deferredAllocSize = E.deferredAllocSize := by
  unfold Emitter.popShape
  split <;> rfl

/-- **The emitter's table** is the one its code was emitted under. -/
theorem emit_agrees (token : String → String) (decls : String → Spec) (b : Body S) (E : Emitter) :
    Agrees E.deferredAllocSize (emit token decls b E).1 ∧
      exit E.deferredAllocSize (emit token decls b E).1 =
        (emit token decls b E).2.deferredAllocSize := by
  induction b generalizing E with
  | done => exact ⟨trivial, rfl⟩
  | assign f rest ih => exact ih E
  | zeros t marker rest ih =>
    have hsizes (size : String) : (if reuses marker size (E.deferredAllocSize t) then
        E.deferredAllocSize else update E.deferredAllocSize t (some size)) =
          update E.deferredAllocSize t (some size) := by
      split
      · next h => rw [← reuses_prev h, Function.update_eq_self]
      · rfl
    simp only [emit, popShape_sizes, hsizes]
    obtain ⟨hrest, hexit⟩ := ih
      { E.popShape t with
        deferredAllocSize := update E.deferredAllocSize t
          (some (markerSize token (decls t) (E.popShape t) t marker)) }
    exact ⟨⟨rfl, ⟨_, rfl⟩, hrest⟩, hexit⟩
  | ifElse test body orelse rest ihb iho ihr =>
    obtain ⟨hb, hexitb⟩ := ihb E
    obtain ⟨ho, hexito⟩ := iho
      { (emit token decls body E).2 with deferredAllocSize := E.deferredAllocSize }
    simp only [emit, Agrees, exit, hexitb, hexito]
    generalize hE : Emitter.mk (sharedAllocations _ _) _ _ = E'
    obtain ⟨hr, hexit⟩ := ihr E'
    subst hE
    exact ⟨⟨hb, ho, hr⟩, hexit⟩
  | forRange start test next body rest ihb ihr
  | whileDo test body rest ihb ihr =>
    obtain ⟨hb, hexit⟩ := ihb E
    simp only [emit, Agrees, exit, hexit]
    generalize hE : Emitter.mk (sharedAllocations _ _) _ _ = E'
    obtain ⟨hr, hexit⟩ := ihr E'
    subst hE
    exact ⟨⟨fun _ => trivial, hb, hr⟩, hexit⟩

/-! ### The run -/

section Sound

variable {value : String → S → ℕ} {σ : State S} {T T' : Sizes} {t size : String}

/-- The table holds of the allocations of the run. -/
def Holds (T : Sizes) (σ : State S) : Prop :=
  ∀ t size, T t = some size → ∃ s, (σ.locals t).allocated = some (size, s)

/-- A buffer is what its last allocation made it. -/
def Sized (value : String → S → ℕ) (l : Local S) : Prop :=
  match l.allocated with
  | none => l.buffer = .null
  | some (size, s) => ∃ stamp, l.buffer = .live (value size s) stamp

/-- A buffer is as large as the extent of the local's last marker. -/
def Fits (l : Local S) : Prop := ∀ n ∈ l.extent, ∃ m stamp, l.buffer = .live m stamp ∧ n ≤ m

/-- What follows was emitted under tables that hold where it is reached. -/
def Stack : Sizes → List (Code S) → Prop
  | _, [] => True
  | T, c :: k => Agrees T c ∧ ∃ T', Below T' (exit T c) ∧ Stack T' k

/-- **The invariant** of a run. -/
structure Inv (value : String → S → ℕ) (c : List (Code S) × State S) : Prop where
  table : ∃ T, Stack T c.1 ∧ Holds T c.2
  sized : ∀ t, Sized value (c.2.locals t)
  fits : ∀ t, Fits (c.2.locals t)

theorem Holds.below (h : Holds T' σ) (hT : Below T T') : Holds T σ := fun t size ht =>
  h t size (hT t size ht)

/-- Fills change no size. -/
theorem fill_allocated (s : S) (clock : ℕ) (fill : Option String) {l : Local S} {s₀ : S} {stamp : ℕ}
    (hbuffer : l.buffer = .live (value size s₀) stamp) (halloc : l.allocated = some (size, s₀)) :
    let r := (fill.map fun kind => Act.fill kind size).toList.foldl (perform value s) (l, clock)
    r.1.allocated = some (size, s₀) ∧ ∃ stamp', r.1.buffer = .live (value size s₀) stamp' := by
  cases fill with
  | none => exact ⟨halloc, stamp, hbuffer⟩
  | some kind =>
    simp only [map_some, toList_some, foldl_cons, foldl_nil, perform,
      hbuffer]
    exact ⟨halloc, _, rfl⟩

/-- After a marker's actions, the buffer is one allocated under its text, with room for its
extent. -/
theorem marked {l : Local S} {s : S} (clock : ℕ) (fill : Option String) {marker : Marker}
    {prev : Option String} (hl : Sized value l)
    (hprev : prev = some size → ∃ s₀, l.allocated = some (size, s₀))
    (hmet : reuses marker size prev = true → ∀ s₀, l.allocated = some (size, s₀) →
      value size s ≤ value size s₀) :
    let r := (emitDeferredMalloc fill marker size prev).foldl (perform value s) (l, clock)
    ∃ s₀ stamp, r.1.allocated = some (size, s₀) ∧ r.1.buffer = .live (value size s₀) stamp ∧
      value size s ≤ value size s₀ := by
  unfold emitDeferredMalloc
  split
  · next hreuse =>
    obtain ⟨s₀, halloc⟩ := hprev (reuses_prev hreuse)
    have hle := hmet hreuse s₀ halloc
    rw [Sized, halloc] at hl
    obtain ⟨stamp, hbuffer⟩ := hl
    split
    · exact ⟨s₀, stamp, halloc, hbuffer, hle⟩
    · obtain ⟨halloc', stamp', hbuffer'⟩ := fill_allocated s clock fill hbuffer halloc
      exact ⟨s₀, stamp', halloc', hbuffer', hle⟩
  · obtain ⟨halloc', stamp', hbuffer'⟩ := fill_allocated s (clock + 1) fill
      (l := ⟨.live (value size s) clock, some (size, s), l.extent⟩) rfl rfl
    exact ⟨s, stamp', halloc', hbuffer', Nat.le_refl _⟩

/-- **A step that meets the condition** keeps the invariant. -/
theorem Inv.next {c c' : List (Code S) × State S} (h : Inv value c) (hmet : Met value c)
    (hstep : DeferredMalloc.next value c = some c') : Inv value c' := by
  obtain ⟨k, σ⟩ := c
  obtain ⟨⟨T, hstack, hholds⟩, hsized, hfits⟩ := h
  match k with
  | [] => cases hstep
  | .done :: k =>
    obtain rfl := some.inj hstep
    obtain ⟨-, T', hbelow, hk⟩ := hstack
    exact ⟨⟨T', hk, hholds.below hbelow⟩, hsized, hfits⟩
  | .assign f rest :: k =>
    obtain rfl := some.inj hstep
    exact ⟨⟨T, hstack, hholds⟩, hsized, hfits⟩
  | .zeros t marker size prev acts rest :: k =>
    obtain rfl := some.inj hstep
    obtain ⟨⟨rfl, ⟨fill, rfl⟩, hrest⟩, hk⟩ := hstack
    obtain ⟨s₀, stamp, halloc, hbuffer, hle⟩ := marked σ.clock fill (hsized t)
      (hholds t size) hmet.1
    refine ⟨⟨update T t (some size), ⟨hrest, hk⟩, fun u e hu => ?_⟩, fun u => ?_, fun u => ?_⟩ <;>
      simp only [mark] <;> by_cases hut : u = t
    · subst hut
      rw [Function.update_self] at hu ⊢
      obtain rfl := some.inj hu
      exact ⟨s₀, halloc⟩
    · rw [Function.update_of_ne hut] at hu ⊢
      exact hholds u e hu
    · subst hut
      rw [Function.update_self, Sized, halloc]
      exact ⟨stamp, hbuffer⟩
    · rw [Function.update_of_ne hut]
      exact hsized u
    · subst hut
      rw [Function.update_self]
      rintro n ⟨⟩
      exact ⟨_, stamp, hbuffer, hle⟩
    · rw [Function.update_of_ne hut]
      exact hfits u
  | .ifElse test body orelse rest :: k =>
    obtain rfl := some.inj hstep
    obtain ⟨⟨hb, ho, hrest⟩, hk⟩ := hstack
    refine ⟨⟨T, ?_, hholds⟩, hsized, hfits⟩
    split
    · exact ⟨hb, _, shared_below_left _ _, hrest, hk⟩
    · exact ⟨ho, _, shared_below_right _ _, hrest, hk⟩
  | .loop again entry start test nxt body rest :: k =>
    obtain rfl := some.inj hstep
    obtain ⟨⟨hentry, hb, hrest⟩, hk⟩ := hstack
    -- The first time around the table holds, and later on by the condition.
    have hhead : Holds entry σ := by
      cases again with
      | false => exact hentry rfl ▸ hholds
      | true => exact hmet
    refine ⟨?_, hsized, hfits⟩
    by_cases htest : test (if again then nxt σ.store else start σ.store)
    · rw [if_pos htest]
      exact ⟨entry, ⟨hb, _, fun _ _ h => h, ⟨nofun, hb, hrest⟩, hk⟩, hhead⟩
    · rw [if_neg htest]
      exact ⟨_, ⟨hrest, hk⟩, hhead.below (shared_below_left _ _)⟩

end Sound

/-- **Deferred allocation is sound** along every run whose steps meet the condition: after each
marker the buffer has room for the extent, and a reassignment that reads old values finds them. -/
theorem deferred_allocation (value : String → S → ℕ) (token : String → String)
    (decls : String → Spec) (arrayShapes : String → List String)
    (reassignShapes : String → List (List String)) (b : Body S) (s : S)
    (c : List (Code S) × State S)
    (hrun : Runs value
      ([(emit token decls b ⟨fun _ => none, arrayShapes, reassignShapes⟩).1], State.start s) c) :
    (∀ t, ∀ n ∈ (c.2.locals t).extent, ∃ m stamp,
      (c.2.locals t).buffer = .live m stamp ∧ n ≤ m) ∧
    ∀ t size prev acts rest k c', c.1 = .zeros t (.reassign true) size prev acts rest :: k →
      (c.2.locals t).buffer ≠ .null → Met value c → next value c = some c' →
      (c'.2.locals t).buffer = (c.2.locals t).buffer := by
  have hinv : Inv value c := hrun.invariant
    ⟨⟨_, ⟨(emit_agrees token decls b _).1, fun _ => none, nofun, trivial⟩, nofun⟩, fun _ => rfl,
      nofun⟩ fun _ _ _ h hok hs => h.next hok hs
  refine ⟨hinv.fits, ?_⟩
  obtain ⟨code, σ⟩ := c
  rintro t size prev acts rest k c' rfl hlive hmet hstep
  obtain rfl := some.inj hstep
  obtain ⟨⟨T, ⟨⟨-, ⟨fill, rfl⟩, -⟩, -⟩, -⟩, hsized, -⟩ := hinv
  have hsome : (σ.locals t).allocated ≠ none := fun h => hlive (by
    have := hsized t
    rwa [Sized, h] at this)
  obtain rfl := hmet.2 rfl hsome
  simp [mark, emitDeferredMalloc, reuses, Marker.isReassign, Marker.selfRef]

/-- `n = 1; U = np.empty(n); n = 5; U = np.empty(n)`, the store being `n`. -/
def grown : Body ℕ :=
  .assign (fun _ => 1) (.zeros "U" .reset (.assign (fun _ => 5) (.zeros "U" .reset .done)))

/-- The emitted C of a body whose deferred locals have `n` elements. -/
def sized (b : Body ℕ) : Code ℕ :=
  (emit id (fun _ => ⟨"n", none⟩) b ⟨fun _ => none, fun _ => [], fun _ => []⟩).1

/-- `U = np.empty(n); U = np.empty(n)`. -/
def twice : Body ℕ := .zeros "U" .reset (.zeros "U" .reset .done)

theorem deferred_allocation_twice :
    ∃ σ, Runs (fun _ n => n) ([sized twice], State.start 4) ([.done], σ) ∧
      ∃ m stamp, (σ.locals "U").buffer = .live m stamp ∧ 4 ≤ m := by
  have hsame : ∀ s : ℕ, some ("n", 4) = some ("n", s) → 4 ≤ s := fun s hs =>
    (Prod.mk.inj (some.inj hs)).2 ▸ Nat.le_refl _
  obtain ⟨σ, hrun, hextent⟩ : ∃ σ, Runs (fun _ n => n) ([sized twice], State.start 4)
      ([.done], σ) ∧ (σ.locals "U").extent = some 4 :=
    ⟨_, .head (a := ()) ⟨nofun, nofun⟩ rfl (.single (a := ()) ⟨fun _ => hsame, nofun⟩ rfl), rfl⟩
  exact ⟨σ, hrun, (deferred_allocation (fun _ n => n) id (fun _ => ⟨"n", none⟩) (fun _ => [])
    (fun _ => []) twice 4 _ hrun).1 "U" 4 hextent⟩

/-- The text has not changed, and the buffer is used again. -/
theorem deferred_allocation_grown :
    ∃ c, Lts.Reach (fun c (_ : Unit) => next (fun _ n => n) c) Lts.always
        ([sized grown], State.start 0) c ∧
      (c.2.locals "U").extent = some 5 ∧ (c.2.locals "U").buffer = .live 1 0 :=
  ⟨_, .head (a := ()) trivial rfl (.head (a := ()) trivial rfl (.head (a := ()) trivial rfl
    (.single (a := ()) trivial rfl))), rfl, rfl⟩

end DeferredMalloc

end Translate

end HpcAgentBench
