import HpcAgentBench.Translate.Nest
import HpcAgentBench.Translate.Objects

/-!
# Versions of names that are bound to several shapes

A name that is bound to arrays of two shapes is two buffers to an emitter.  The pass keeps, for each
name, the shapes it was bound to and the version that holds each (`SsaRenamer`), and walks the
statements in order with a map from names to their current versions (`walk`): a plain binding to a
new shape takes a new name, and the reads that follow are renamed.

The maps of a branch are dropped where it ends, and only plain bindings update a map.  `Keeps` says
of a body that no read sees the difference, and can be decided.
-/

namespace HpcAgentBench

namespace Translate

/-! ### Reads of a name -/

/-- Whether a name is read in one of some lists of statements. -/
def readIn (name : String) (blocks : List Code) : Bool := blocks.any fun b => name ∈ b.loads

/-- Whether a name is read by the statements of a list up to the first that binds it anew. -/
def liveOnLoopReentry (name : String) : Code → Bool
  | .done => false
  | .assign targets value rest =>
    if name ∈ targets.flatMap Pattern.binds then name ∈ loadNames value
    else name ∈ targets.flatMap Pattern.loads ++ loadNames value || liveOnLoopReentry name rest
  | .augAssign target op value rest =>
    readIn name [.augAssign target op value .done] || liveOnLoopReentry name rest
  | .expr value rest => readIn name [.expr value .done] || liveOnLoopReentry name rest
  | .ifElse test body orelse rest =>
    readIn name [.ifElse test body orelse .done] || liveOnLoopReentry name rest
  | .forIn target iter body orelse rest =>
    readIn name [.forIn target iter body orelse .done] || liveOnLoopReentry name rest
  | .whileDo test body orelse rest =>
    readIn name [.whileDo test body orelse .done] || liveOnLoopReentry name rest
  | .ret value rest => readIn name [.ret value .done] || liveOnLoopReentry name rest
  | .brk rest => liveOnLoopReentry name rest
  | .cont rest => liveOnLoopReentry name rest

/-! ### The pass -/

/-- The shape each name has, where it has one. -/
abbrev Shapes := String → Option (List String)

/-- Scalars that are zero on one side of a branch. -/
abbrev Pin := List (String × ℤ)

/-- What the pass asks of the rest of the lowering. -/
structure Extents where
  /-- The extent of what an expression makes, one expression for each axis. -/
  iterExtentOf : Expr → Shapes → Option (List Expr)
  unparse : Expr → String
  shapeExprsEqual : String → String → Bool
  shapesAgreeUnder : List String → List String → Pin → Shapes → Bool

/-- The zero-pin an `if` puts on one of its two sides, and whether that side is the taken one. -/
def branchPin : Expr → Pin × Bool
  | .name id => ([(id, 0)], false)
  | .binOp (.other symbol) (.name id) right =>
    if right = .const (.int 0) ∨ right = .const (.float 0) then
      if symbol = "!=" ∨ symbol = ">" then ([(id, 0)], false)
      else if symbol = "==" then ([(id, 0)], true)
      else ([], false)
    else ([], false)
  | _ => ([], false)

/-- Where a statement list sits. -/
structure SsaScope where
  /-- Inside the body of a branch or a loop. -/
  nested : Bool
  /-- The code that runs after it. -/
  liveAfter : List Code
  /-- A loop body, whose earlier statements run again after each one. -/
  loopBody : Bool
  /-- The statements before this one in the bodies of the loops around. -/
  reentry : List Code
  /-- The scalars an enclosing branch fixes. -/
  pin : Pin
  /-- Whether this is the side with the general spelling of an extent. -/
  generalSide : Bool

/-- The state of a walk. -/
structure SsaRenamer where
  shapes : Shapes
  /-- The versions of each name: the shape each holds, and what it is called. -/
  version : String → List (List String × String)
  /-- The shape each buffer is declared with. -/
  shapeToksOf : String → Option (List String)
  /-- How general each recorded shape of a name is. -/
  shapeRank : String → List String → Option ℕ

section Pass

variable (P : Extents)

/-- The shape of `np.zeros((...))` and the like recorded for the name it is bound to. -/
def registerAlloc (shapes : Shapes) (target : String) (rhs : Expr) : Shapes :=
  match rhs with
  | .call func args =>
    match callLeaf func, args.elts with
    | some f, sh :: _ =>
      if f ∉ ["zeros", "empty", "ones", "ndarray", "zeros_like", "empty_like", "ones_like"] then
        shapes
      else
        let allocated : Option (List String) :=
          if sh.isTuple then some (sh.elts.map P.unparse)
          else
            match sh with
            | .const (.int n) => some [toString n]
            | .name id => some [id]
            | _ => none
        let like : Option (Option (List String)) :=
          match sh with
          | .name id =>
            if f ∈ ["zeros_like", "empty_like", "ones_like"] then
              some ((shapes id).filter (· ≠ []))
            else none
          | _ => none
        match like.getD allocated with
        | some toks => Function.update shapes target (some toks)
        | none => shapes
    | _, _ => shapes
  | _ => shapes

/-- The version already bound to an equal extent under another spelling, and whether it is only
equal under the pin. -/
def equalExtentVersion (versions : List (List String × String)) (shapeToks : List String)
    (pin : Pin) (shapes : Shapes) : Option (String × Bool) :=
  versions.findSome? fun (knownToks, knownName) =>
    if knownToks.length ≠ shapeToks.length then none
    else if (knownToks.zip shapeToks).all fun (a, b) => a = b || P.shapeExprsEqual a b then
      some (knownName, false)
    else if pin ≠ [] && P.shapesAgreeUnder knownToks shapeToks pin shapes then
      some (knownName, true)
    else none

/-- The name for a new shape: the name itself at first, then `<orig>__v<n>`; refused where it is
read after the branch or the loop that binds it. -/
def mint (before : Code) (orig : String) (versions : List (List String × String))
    (scope : SsaScope) : Option String :=
  if versions = [] then some orig
  else
    let live := readIn orig scope.liveAfter || scope.reentry.any (liveOnLoopReentry orig) ||
      (scope.loopBody && liveOnLoopReentry orig before)
    if scope.nested && live then none
    else some (orig ++ "__v" ++ toString versions.length)

/-- The name a plain `orig = value` binds, and the map and the state after it. -/
def rebind (orig : String) (value : Expr) (before : Code) (ρ : String → String) (scope : SsaScope)
    (st : SsaRenamer) : Option (String × (String → String) × SsaRenamer) :=
  let st := { st with shapes := registerAlloc P st.shapes orig value }
  match P.iterExtentOf value st.shapes with
  | none => some (orig, ρ, st)
  | some ext =>
    let shapeToks := ext.map P.unparse
    let versions := st.version orig
    let rank := if scope.pin ≠ [] ∧ scope.generalSide then 1 else 0
    let known := ((versions.lookup shapeToks).map (·, false)).orElse fun _ =>
      equalExtentVersion P versions shapeToks scope.pin st.shapes
    (known.orElse fun _ => (mint before orig versions scope).map (·, false)).map
      fun (nameForShape, mergedUnderPin) =>
        let st := { st with
          version := Function.update st.version orig
            (if (versions.lookup shapeToks).isSome then versions
              else versions ++ [(shapeToks, nameForShape)]) }
        let declared := ((st.shapeToksOf nameForShape).bind (st.shapeRank orig)).getD 0
        let st :=
          if mergedUnderPin && rank ≤ declared then st
          else { st with
            shapes := Function.update st.shapes nameForShape (some shapeToks)
            shapeToksOf := Function.update st.shapeToksOf nameForShape (some shapeToks)
            shapeRank := Function.update st.shapeRank orig
              (Function.update (st.shapeRank orig) shapeToks (some rank)) }
        (nameForShape, Function.update ρ orig nameForShape, st)

/-- The body of a branch or of a loop. -/
def innerScope (scope : SsaScope) (before : Code) (after : List Code) (inLoop : Bool)
    (pin : Pin × Bool) (taken : Bool) : SsaScope where
  nested := true
  liveAfter := after ++ scope.liveAfter
  loopBody := inLoop
  reentry := if scope.loopBody then scope.reentry ++ [before] else scope.reentry
  pin := scope.pin ++ pin.1
  generalSide := pin.1 ≠ [] ∧ taken ≠ pin.2

/-- The code after the body of a loop: its `else` if it has one, and the rest. -/
def loopAfter (orelse rest : Code) : List Code :=
  if orelse = .done then [rest] else [orelse, rest]

/-- The name of an assignment to one name. -/
def plainTarget : List Pattern → Option String
  | [.name orig] => some orig
  | _ => none

/-- The statements of a list, renamed; the map and the state after them.  `before` are the
statements of the list that were walked. -/
def walk : Code → (String → String) → SsaScope → Code → SsaRenamer →
    Option (Code × (String → String) × SsaRenamer)
  | .done, ρ, _, _, st => some (.done, ρ, st)
  | .assign targets value rest, ρ, scope, before, st =>
    match plainTarget targets with
    | some orig =>
      (rebind P orig (value.rename ρ) before ρ scope st).bind fun b =>
        (walk rest b.2.1 scope
          (before.append (.assign [.name b.1] (value.rename ρ) .done)) b.2.2).map fun r =>
            (.assign [.name b.1] (value.rename ρ) r.1, r.2)
    | none =>
      let targets := targets.map (Pattern.renameLoads ρ)
      (walk rest ρ scope (before.append (.assign targets (value.rename ρ) .done)) st).map
        fun r => (.assign targets (value.rename ρ) r.1, r.2)
  | .augAssign target op value rest, ρ, scope, before, st =>
    -- The name of the target is stored to, so it is none of the names that are read.
    let target := target.renameLoads ρ
    (walk rest ρ scope (before.append (.augAssign target op (value.rename ρ) .done)) st).map
      fun r => (.augAssign target op (value.rename ρ) r.1, r.2)
  | .expr value rest, ρ, scope, before, st =>
    (walk rest ρ scope (before.append (.expr (value.rename ρ) .done)) st).map fun r =>
      (.expr (value.rename ρ) r.1, r.2)
  | .ifElse test body orelse rest, ρ, scope, before, st =>
    let pin := branchPin (test.rename ρ)
    (walk body ρ (innerScope scope before [rest] false pin true) .done st).bind fun b =>
      (walk orelse ρ (innerScope scope before [rest] false pin false) .done b.2.2).bind fun o =>
        (walk rest ρ scope (before.append (.ifElse (test.rename ρ) b.1 o.1 .done)) o.2.2).map
          fun r => (.ifElse (test.rename ρ) b.1 o.1 r.1, r.2)
  | .forIn target iter body orelse rest, ρ, scope, before, st =>
    let after := loopAfter orelse rest
    (walk body ρ (innerScope scope before after true ([], false) true) .done st).bind fun b =>
      (walk orelse ρ (innerScope scope before after false ([], false) false) .done b.2.2).bind
        fun o =>
          (walk rest ρ scope (before.append (.forIn target (iter.rename ρ) b.1 o.1 .done))
            o.2.2).map fun r => (.forIn target (iter.rename ρ) b.1 o.1 r.1, r.2)
  | .whileDo test body orelse rest, ρ, scope, before, st =>
    -- The test is read again after the body.
    let after :=
      if orelse = .done then [.expr (test.rename ρ) .done, rest]
      else [orelse, .expr (test.rename ρ) .done, rest]
    (walk body ρ (innerScope scope before after true ([], false) true) .done st).bind fun b =>
      (walk orelse ρ (innerScope scope before after false ([], false) false) .done b.2.2).bind
        fun o =>
          (walk rest ρ scope (before.append (.whileDo (test.rename ρ) b.1 o.1 .done)) o.2.2).map
            fun r => (.whileDo (test.rename ρ) b.1 o.1 r.1, r.2)
  | .ret value rest, ρ, scope, before, st =>
    (walk rest ρ scope (before.append (.ret (value.rename ρ) .done)) st).map fun r =>
      (.ret (value.rename ρ) r.1, r.2)
  | .brk rest, ρ, scope, before, st =>
    (walk rest ρ scope (before.append (.brk .done)) st).map fun r => (.brk r.1, r.2)
  | .cont rest, ρ, scope, before, st =>
    (walk rest ρ scope (before.append (.cont .done)) st).map fun r => (.cont r.1, r.2)

/-- The scope of a function's body. -/
def functionScope : SsaScope where
  nested := false
  liveAfter := []
  loopBody := false
  reentry := []
  pin := []
  generalSide := true

/-- The state at the start of a function. -/
def startRenamer (shapes : Shapes) : SsaRenamer where
  shapes := shapes
  version _ := []
  shapeToksOf _ := none
  shapeRank _ _ := none

/-- A function's body with its rebound names renamed, unless it is refused. -/
def ssaRenameReassigned (shapes : Shapes) (body : Code) : Option Code :=
  (walk P body id functionScope .done (startRenamer shapes)).map Prod.fst

end Pass

/-! ### Where the versions are kept -/

/-- The names that may be read where a list of statements ends. -/
structure LiveOut where
  next : List String
  brk : List String
  cont : List String

/-- The names a target may read, or leave to be read. -/
def Pattern.liveIn (p : Pattern) (out : List String) : List String :=
  p.loads ++ out.filter (· ∉ p.binds)

/-- The names that may be read before they are bound, from the start of a list of statements. -/
def Code.liveIn : Code → LiveOut → List String
  | .done, out => out.next
  | .assign targets value rest, out =>
    loadNames value ++ targets.foldr Pattern.liveIn (rest.liveIn out)
  | .augAssign target _ value rest, out =>
    target.binds ++ target.loads ++ loadNames value ++ rest.liveIn out
  | .expr value rest, out => loadNames value ++ rest.liveIn out
  | .ifElse test body orelse rest, out =>
    let after := { out with next := rest.liveIn out }
    loadNames test ++ body.liveIn after ++ orelse.liveIn after
  | .forIn target iter body orelse rest, out =>
    loadNames iter ++ target.liveIn (body.liveIn ⟨[], [], []⟩) ++
      orelse.liveIn { out with next := rest.liveIn out } ++ rest.liveIn out
  | .whileDo test body orelse rest, out =>
    loadNames test ++ body.liveIn ⟨[], [], []⟩ ++
      orelse.liveIn { out with next := rest.liveIn out } ++ rest.liveIn out
  | .ret value _, _ => loadNames value
  | .brk _, out => out.brk
  | .cont _, out => out.cont

/-- Whether the end of a list of statements can be reached. -/
def Code.falls : Code → Bool
  | .done => true
  | .assign _ _ rest => rest.falls
  | .augAssign _ _ _ rest => rest.falls
  | .expr _ rest => rest.falls
  | .ifElse _ body orelse rest => (body.falls || orelse.falls) && rest.falls
  | .forIn _ _ _ _ rest => rest.falls
  | .whileDo _ _ _ rest => rest.falls
  | .ret _ _ => false
  | .brk _ => false
  | .cont _ => false

/-- A store that no version is made for: a name that is read later must be its own version. -/
def Pattern.Kept (ρ : String → String) : Pattern → List String → Prop
  | .name id, live => id ∈ live → ρ id = id
  | .item _ _, _ => True
  | .unit, _ => True
  | .pair head tail, live => head.Kept ρ (tail.liveIn live) ∧ tail.Kept ρ live

/-- The stores of an assignment, from left to right. -/
def TargetsKept (ρ : String → String) : List Pattern → List String → Prop
  | [], _ => True
  | t :: ts, live => t.Kept ρ (ts.foldr Pattern.liveIn live) ∧ TargetsKept ρ ts live

/-- Two maps that agree on the names that are read. -/
def SameVersions (ρ ρ' : String → String) (live : List String) : Prop := ∀ x ∈ live, ρ x = ρ' x

section Keeps

variable (P : Extents)

/-- **The versions are kept**: wherever the pass drops a map, or a statement stores to a name behind
its back, the names that may be read after it have the version the map has.  `loop` is the map
of the loop around, which is the one after a `break` or a `continue`. -/
def Keeps : Code → (String → String) → (String → String) → SsaScope → Code → SsaRenamer →
    LiveOut → Prop
  | .done, _, _, _, _, _, _ => True
  | .assign targets value rest, ρ, loop, scope, before, st, out =>
    match plainTarget targets with
    | some orig =>
      ∀ b ∈ rebind P orig (value.rename ρ) before ρ scope st,
        (orig ∈ rest.liveIn out → b.2.1 orig = b.1) ∧
        Keeps rest b.2.1 loop scope (before.append (.assign [.name b.1] (value.rename ρ) .done))
          b.2.2 out
    | none =>
      TargetsKept ρ targets (rest.liveIn out) ∧
        Keeps rest ρ loop scope (before.append (.assign (targets.map (Pattern.renameLoads ρ))
          (value.rename ρ) .done)) st out
  | .augAssign target op value rest, ρ, loop, scope, before, st, out =>
    (∀ x ∈ target.binds, ρ x = x) ∧
      Keeps rest ρ loop scope
        (before.append (.augAssign (target.renameLoads ρ) op (value.rename ρ) .done)) st out
  | .expr value rest, ρ, loop, scope, before, st, out =>
    Keeps rest ρ loop scope (before.append (.expr (value.rename ρ) .done)) st out
  | .ifElse test body orelse rest, ρ, loop, scope, before, st, out =>
    let pin := branchPin (test.rename ρ)
    let live := rest.liveIn out
    let after := { out with next := live }
    let taken := innerScope scope before [rest] false pin true
    let other := innerScope scope before [rest] false pin false
    Keeps body ρ loop taken .done st after ∧
      ∀ b ∈ walk P body ρ taken .done st, (body.falls → SameVersions b.2.1 ρ live) ∧
        Keeps orelse ρ loop other .done b.2.2 after ∧
        ∀ o ∈ walk P orelse ρ other .done b.2.2,
          (orelse.falls → SameVersions o.2.1 ρ live) ∧
          Keeps rest ρ loop scope (before.append (.ifElse (test.rename ρ) b.1 o.1 .done)) o.2.2 out
  | .forIn target iter body orelse rest, ρ, loop, scope, before, st, out =>
    let live := rest.liveIn out
    let head := (Code.forIn target (.const .none) body orelse rest).liveIn out
    let inner := innerScope scope before (loopAfter orelse rest) true ([], false) true
    let other := innerScope scope before (loopAfter orelse rest) false ([], false) false
    (∀ x ∈ target.loads, ρ x = x) ∧ target.Kept ρ (body.liveIn ⟨head, live, head⟩) ∧
      Keeps body ρ ρ inner .done st ⟨head, live, head⟩ ∧
      ∀ b ∈ walk P body ρ inner .done st, (body.falls → SameVersions b.2.1 ρ head) ∧
        Keeps orelse ρ loop other .done b.2.2 { out with next := live } ∧
        ∀ o ∈ walk P orelse ρ other .done b.2.2,
          (orelse.falls → SameVersions o.2.1 ρ live) ∧
          Keeps rest ρ loop scope (before.append (.forIn target (iter.rename ρ) b.1 o.1 .done))
            o.2.2 out
  | .whileDo test body orelse rest, ρ, loop, scope, before, st, out =>
    let live := rest.liveIn out
    let head := (Code.whileDo test body orelse rest).liveIn out
    let after :=
      if orelse = .done then [.expr (test.rename ρ) .done, rest]
      else [orelse, .expr (test.rename ρ) .done, rest]
    let inner := innerScope scope before after true ([], false) true
    let other := innerScope scope before after false ([], false) false
    Keeps body ρ ρ inner .done st ⟨head, live, head⟩ ∧
      ∀ b ∈ walk P body ρ inner .done st, (body.falls → SameVersions b.2.1 ρ head) ∧
        Keeps orelse ρ loop other .done b.2.2 { out with next := live } ∧
        ∀ o ∈ walk P orelse ρ other .done b.2.2,
          (orelse.falls → SameVersions o.2.1 ρ live) ∧
          Keeps rest ρ loop scope (before.append (.whileDo (test.rename ρ) b.1 o.1 .done)) o.2.2 out
  | .ret _ _, _, _, _, _, _, _ => True
  | .brk _, ρ, loop, _, _, _, out => SameVersions ρ loop out.brk
  | .cont _, ρ, loop, _, _, _, out => SameVersions ρ loop out.cont

instance (ρ ρ' : String → String) (live : List String) : Decidable (SameVersions ρ ρ' live) :=
  inferInstanceAs (Decidable (∀ x ∈ live, ρ x = ρ' x))

instance decidableKept (ρ : String → String) :
    (p : Pattern) → (live : List String) → Decidable (p.Kept ρ live)
  | .name id, live => inferInstanceAs (Decidable (id ∈ live → ρ id = id))
  | .item _ _, _ => instDecidableTrue
  | .unit, _ => instDecidableTrue
  | .pair head tail, live =>
    have := decidableKept ρ head (tail.liveIn live)
    have := decidableKept ρ tail live
    inferInstanceAs (Decidable (_ ∧ _))

instance decidableTargetsKept (ρ : String → String) :
    (targets : List Pattern) → (live : List String) → Decidable (TargetsKept ρ targets live)
  | [], _ => instDecidableTrue
  | _ :: ts, live =>
    have := decidableTargetsKept ρ ts live
    inferInstanceAs (Decidable (_ ∧ _))

instance decidableKeeps : (c : Code) → (ρ loop : String → String) → (scope : SsaScope) →
    (before : Code) → (st : SsaRenamer) → (out : LiveOut) →
    Decidable (Keeps P c ρ loop scope before st out)
  | .done, _, _, _, _, _, _ => instDecidableTrue
  | .assign targets value rest, ρ, loop, scope, before, st, out => by
    have := fun ρ before st => decidableKeeps rest ρ loop scope before st out
    rw [Keeps]
    cases plainTarget targets <;> infer_instance
  | .augAssign target op value rest, ρ, loop, scope, before, st, out =>
    have := fun before => decidableKeeps rest ρ loop scope before st out
    inferInstanceAs (Decidable (_ ∧ _))
  | .expr value rest, ρ, loop, scope, before, st, out => decidableKeeps rest ρ loop scope _ st out
  | .ifElse test body orelse rest, ρ, loop, scope, before, st, out =>
    have := decidableKeeps body ρ loop
    have := decidableKeeps orelse ρ loop
    have := decidableKeeps rest ρ loop
    inferInstanceAs (Decidable (_ ∧ ∀ _ ∈ _, _ ∧ _ ∧ ∀ _ ∈ _, _ ∧ _))
  | .forIn target iter body orelse rest, ρ, loop, scope, before, st, out =>
    have := decidableKeeps body ρ ρ
    have := decidableKeeps orelse ρ loop
    have := decidableKeeps rest ρ loop
    inferInstanceAs (Decidable (_ ∧ _ ∧ _ ∧ ∀ _ ∈ _, _ ∧ _ ∧ ∀ _ ∈ _, _ ∧ _))
  | .whileDo test body orelse rest, ρ, loop, scope, before, st, out =>
    have := decidableKeeps body ρ ρ
    have := decidableKeeps orelse ρ loop
    have := decidableKeeps rest ρ loop
    inferInstanceAs (Decidable (_ ∧ ∀ _ ∈ _, _ ∧ _ ∧ ∀ _ ∈ _, _ ∧ _))
  | .ret _ _, _, _, _, _, _, _ => instDecidableTrue
  | .brk _, ρ, loop, _, _, _, out => inferInstanceAs (Decidable (SameVersions ρ loop out.brk))
  | .cont _, ρ, loop, _, _, _, out => inferInstanceAs (Decidable (SameVersions ρ loop out.cont))

/-- No name is called like a version of another one. -/
def OwnNames (names : List String) : Prop :=
  ∀ x ∈ names, ∀ y ∈ names, ∀ k : ℕ, y ≠ x ++ "__v" ++ toString k

/-- When the pass preserves a body. -/
structure KeepsVersions (shapes : Shapes) (body : Code) : Prop where
  names : OwnNames (body.loads ++ body.binds)
  keeps : Keeps P body id id functionScope .done (startRenamer shapes) ⟨[], [], []⟩

end Keeps

end Translate

end HpcAgentBench
