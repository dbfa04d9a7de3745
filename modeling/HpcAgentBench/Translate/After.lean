import HpcAgentBench.Translate.Parallelism

/-!
# Reads after a loop

Which scalars something after a loop can read before it binds them again (`readAfter`): along the
rest of every list around the loop, the next iterations of the loops around it, and what comes after
those.  The analysis of the source (`scalarsLiveAfter`) misses some of these reads (`Reach`).

## Main results

* `mem_scalarsLiveAfter` : the reads the analysis finds.
-/

namespace HpcAgentBench

namespace Translate

/-- Which reads after a loop are counted. -/
structure Reach where
  /-- By an augmented assignment of the name itself. -/
  aug : Bool
  /-- On a path through the `break` of a loop around. -/
  brk : Bool
  /-- On a path out of a loop around whose body binds the name. -/
  leave : Bool

/-- Every read. -/
def Reach.all : Reach := ⟨true, true, true⟩

/-- The reads the analysis finds. -/
def Reach.found : Reach := ⟨false, false, false⟩

/-! ### Paths through a list of statements -/

namespace Block

/-- Whether a list can run to its end without binding a name. -/
def mayPass (x : String) : Block → Bool
  | .done => true
  | .assign targets _ rest => x ∉ targets.filterMap Target.id? && mayPass x rest
  | .augAssign target _ _ rest => target.id? ≠ some x && mayPass x rest
  | .expr _ rest => mayPass x rest
  | .ifElse _ body orelse rest => (mayPass x body || mayPass x orelse) && mayPass x rest
  | .forRange _ _ _ rest => mayPass x rest
  | .whileDo _ _ rest => mayPass x rest
  | .brk _ => false

/-- Whether a list can run to a `break` of the loop around it without binding a name. -/
def mayBreak (x : String) : Block → Bool
  | .done => false
  | .assign targets _ rest => x ∉ targets.filterMap Target.id? && mayBreak x rest
  | .augAssign target _ _ rest => target.id? ≠ some x && mayBreak x rest
  | .expr _ rest => mayBreak x rest
  | .ifElse _ body orelse rest =>
    mayBreak x body || mayBreak x orelse || ((mayPass x body || mayPass x orelse) && mayBreak x rest)
  | .forRange _ _ _ rest => mayBreak x rest
  | .whileDo _ _ rest => mayBreak x rest
  | .brk _ => true

/-- Whether a list can read a name before it binds it. -/
def mayRead (r : Reach) (x : String) : Block → Bool
  | .done => false
  | .assign targets value rest =>
    x ∈ (targets.flatMap Target.reads ++ [value]).flatMap Translate.loadNames ||
      (x ∉ targets.filterMap Target.id? && mayRead r x rest)
  | .augAssign target _ value rest =>
    x ∈ (target.reads ++ [value]).flatMap Translate.loadNames ||
      (if target.id? = some x then r.aug else mayRead r x rest)
  | .expr value rest => x ∈ Translate.loadNames value || mayRead r x rest
  | .ifElse test body orelse rest =>
    x ∈ Translate.loadNames test || mayRead r x body || mayRead r x orelse ||
      ((mayPass x body || mayPass x orelse) && mayRead r x rest)
  | .forRange target args body rest =>
    x ∈ Translate.loadNames args || (target ≠ x && mayRead r x body) || mayRead r x rest
  | .whileDo test body rest =>
    x ∈ Translate.loadNames test || mayRead r x body || mayRead r x rest
  | .brk _ => false

end Block

/-- Whether something after a statement can read a name before it binds it; `broken` where the
statement ends at a `break`. -/
def readAfter (r : Reach) (x : String) (top : Block) : List Frame → Stmt → Bool → Bool
  | [], _, broken => !broken && top.mayRead r x
  | frame :: frames, child, broken =>
    let block := frame.block child
    let outer := readAfter r x top frames (frame.owner.stmt block)
    let behind := match frame.owner with
      | .branch .. => outer true
      | .forRange .. => outer false
      | .whileDo .. => outer false
    let finish := match frame.owner with
      | .branch .. => outer false
      | .forRange target _ =>
        (target ≠ x && block.mayRead r x) ||
          ((r.leave || (target ≠ x && block.mayPass x)) && outer false)
      | .whileDo test =>
        x ∈ loadNames test || block.mayRead r x || ((r.leave || block.mayPass x) && outer false)
    if broken then behind
    else frame.rest.mayRead r x || (frame.rest.mayPass x && finish) ||
      (r.brk && frame.rest.mayBreak x && behind)

/-- Whether something after a loop can read a name before it binds it. -/
def Site.mayRead (site : Site) (loop : Loop) (r : Reach) (x : String) : Bool :=
  readAfter r x site.rest site.frames loop.stmt false

/-! ### The reads the analysis finds -/

section Found

variable {x : String}
variable {names bound : List String} {a : Block}

theorem Block.append_done (b : Block) : b.append .done = b := by
  induction b <;> simp_all [Block.append]

/-- A list where the analysis finds a read of a name, whatever else is bound. -/
def Finds (x : String) (b : Block) : Prop := ∀ bound, x ∉ bound → readsBeforeWrite [x] b bound = true

theorem any_of_mem (hx : x ∈ names) (hbound : x ∉ bound) :
    (names.any fun name => name ∈ [x] && name ∉ bound) = true :=
  List.any_eq_true.2 ⟨x, hx, by simp [hbound]⟩

theorem not_mem_bound (hbound : x ∉ bound) (hnames : x ∉ names) :
    x ∉ bound ++ names := fun h => (List.mem_append.1 h).elim hbound hnames

theorem not_mem_id {t : Target} (ht : t.id? ≠ some x) : x ∉ t.id?.toList := by
  simpa using ht

/-- A list that passes a name leads the analysis to what follows. -/
theorem finds_of_mayPass {b : Block} (ha : a.mayPass x = true) (hb : Finds x b) :
    Finds x (a.append b) := by
  induction a with
  | done => exact hb
  | assign targets value rest ih =>
    simp only [Block.mayPass, Bool.and_eq_true, decide_eq_true_eq] at ha
    intro bound hbound
    simp only [Block.append, readsBeforeWrite, ih ha.2 _ (not_mem_bound hbound ha.1), Bool.or_true]
  | augAssign target op value rest ih =>
    simp only [Block.mayPass, Bool.and_eq_true, decide_eq_true_eq] at ha
    intro bound hbound
    simp only [Block.append, readsBeforeWrite,
      ih ha.2 _ (not_mem_bound hbound (not_mem_id ha.1)), Bool.or_true]
  | expr value rest ih =>
    intro bound hbound
    simp only [Block.append, readsBeforeWrite, ih ha bound hbound, Bool.or_true]
  | ifElse test body orelse rest _ _ ih =>
    simp only [Block.mayPass, Bool.and_eq_true] at ha
    intro bound hbound
    simp only [Block.append, readsBeforeWrite, ih ha.2 bound hbound, Bool.or_true]
  | forRange target args body rest _ ih | whileDo test body rest _ ih =>
    intro bound hbound
    simp only [Block.append, readsBeforeWrite, ih ha bound hbound, Bool.or_true]
  | brk rest _ => cases ha

/-- A read in a list is found. -/
theorem finds_of_mayRead (ha : a.mayRead .found x = true) (b : Block) :
    Finds x (a.append b) := by
  induction a generalizing b with
  | done => cases ha
  | assign targets value rest ih =>
    simp only [Block.mayRead, Bool.or_eq_true, Bool.and_eq_true, decide_eq_true_eq] at ha
    intro bound hbound
    rcases ha with ha | ⟨hx, ha⟩
    · simp only [Block.append, readsBeforeWrite, any_of_mem ha hbound, Bool.true_or]
    · simp only [Block.append, readsBeforeWrite, ih ha b _ (not_mem_bound hbound hx), Bool.or_true]
  | augAssign target op value rest ih =>
    simp only [Block.mayRead, Bool.or_eq_true, decide_eq_true_eq] at ha
    intro bound hbound
    rcases ha with ha | ha
    · simp only [Block.append, readsBeforeWrite, any_of_mem ha hbound, Bool.true_or]
    · split at ha
      · cases ha
      · next hx =>
        simp only [Block.append, readsBeforeWrite,
          ih ha b _ (not_mem_bound hbound (not_mem_id hx)), Bool.or_true]
  | expr value rest ih =>
    simp only [Block.mayRead, Bool.or_eq_true, decide_eq_true_eq] at ha
    intro bound hbound
    rcases ha with ha | ha
    · simp only [Block.append, readsBeforeWrite, any_of_mem ha hbound, Bool.true_or]
    · simp only [Block.append, readsBeforeWrite, ih ha b bound hbound, Bool.or_true]
  | ifElse test body orelse rest ihb iho ihr =>
    simp only [Block.mayRead, Bool.or_eq_true, Bool.and_eq_true, decide_eq_true_eq] at ha
    intro bound hbound
    rcases ha with ((ha | ha) | ha) | ⟨-, ha⟩
    · simp only [Block.append, readsBeforeWrite, any_of_mem ha hbound, Bool.true_or]
    · have hbody := ihb ha .done bound hbound
      rw [Block.append_done] at hbody
      simp only [Block.append, readsBeforeWrite, hbody, Bool.true_or, Bool.or_true]
    · have horelse := iho ha .done bound hbound
      rw [Block.append_done] at horelse
      simp only [Block.append, readsBeforeWrite, horelse, Bool.true_or, Bool.or_true]
    · simp only [Block.append, readsBeforeWrite, ihr ha b bound hbound, Bool.or_true]
  | forRange target args body rest ihb ihr =>
    simp only [Block.mayRead, Bool.or_eq_true, Bool.and_eq_true, decide_eq_true_eq] at ha
    intro bound hbound
    rcases ha with (ha | ⟨hx, ha⟩) | ha
    · have hload : x ∈ loadNames (.call (.name "range") args) :=
        loadNames_call _ args ▸ List.mem_append_right _ ha
      simp only [Block.append, readsBeforeWrite, any_of_mem hload hbound, Bool.true_or]
    · have hbody := ihb ha .done (bound ++ [target])
        (not_mem_bound hbound fun h => hx (List.mem_singleton.1 h).symm)
      rw [Block.append_done] at hbody
      simp only [Block.append, readsBeforeWrite, hbody, Bool.true_or, Bool.or_true]
    · simp only [Block.append, readsBeforeWrite, ihr ha b bound hbound, Bool.or_true]
  | whileDo test body rest ihb ihr =>
    simp only [Block.mayRead, Bool.or_eq_true, decide_eq_true_eq] at ha
    intro bound hbound
    rcases ha with (ha | ha) | ha
    · simp only [Block.append, readsBeforeWrite, any_of_mem ha hbound, Bool.true_or]
    · have hbody := ihb ha .done bound hbound
      rw [Block.append_done] at hbody
      simp only [Block.append, readsBeforeWrite, hbody, Bool.true_or, Bool.or_true]
    · simp only [Block.append, readsBeforeWrite, ihr ha b bound hbound, Bool.or_true]
  | brk rest _ => cases ha

theorem finds_of_readAfter {top : Block} {frames : List Frame} {child : Stmt}
    (h : readAfter .found x top frames child false = true) :
    Finds x (stmtsAfter top frames child) := by
  induction frames generalizing child with
  | nil =>
    have htop := finds_of_mayRead (a := top) (by simpa [readAfter] using h) .done
    rwa [Block.append_done] at htop
  | cons frame frames ih =>
    simp only [readAfter, Bool.false_eq_true, if_false, Reach.found, Bool.false_and, Bool.or_false,
      Bool.false_or, Bool.or_eq_true, Bool.and_eq_true] at h
    rcases h with h | ⟨hpass, h⟩
    · exact finds_of_mayRead h _
    -- What follows the list: the statement's owner again, then what comes after the owner.
    refine finds_of_mayPass hpass ?_
    cases howner : frame.owner with
    | branch test first other =>
      simp only [howner] at h
      exact ih h
    | forRange target args =>
      simp only [howner, Bool.or_eq_true, Bool.and_eq_true] at h
      rcases h with ⟨-, h⟩ | ⟨⟨-, hpass⟩, h⟩
      · exact finds_of_mayRead h _
      · exact finds_of_mayPass hpass (ih h)
    | whileDo test =>
      simp only [howner, Bool.or_eq_true, Bool.and_eq_true, decide_eq_true_eq] at h
      intro bound hbound
      rcases h with (h | h) | ⟨hpass, h⟩
      · simp only [readsBeforeWrite, any_of_mem h hbound, Bool.true_or]
      · simp only [readsBeforeWrite, finds_of_mayRead h _ bound hbound, Bool.or_true]
      · simp only [readsBeforeWrite, finds_of_mayPass hpass (ih h) bound hbound, Bool.or_true]

/-- **The reads the analysis finds**: those that are no augmented assignment of the name, no way
through a `break`, and no way out of a loop around whose body binds the name. -/
theorem mem_scalarsLiveAfter {site : Site} {loop : Loop} (hx : x ∈ bodyScalars loop)
    (hread : site.mayRead loop .found x = true) : x ∈ scalarsLiveAfter site loop :=
  List.mem_filter.2 ⟨hx, finds_of_readAfter hread [] List.not_mem_nil⟩

end Found

end Translate

end HpcAgentBench
