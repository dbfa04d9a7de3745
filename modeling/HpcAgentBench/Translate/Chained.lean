import HpcAgentBench.Translate.Objects

/-!
# Chained assignments

`a = b = v` as one binding for each target.  A scalar goes through a temporary.  Anything else may
be an array, which has one name in an emitter: the first target takes it, and the later uses of the
other names are renamed to the first, up to a statement that binds one of them anew
(`renameAliases`); a name that is still read past that point is bound there.

The pass splits one chained assignment after another, the outer lists of statements first
(`splitAll`).
-/

namespace HpcAgentBench

namespace Translate

/-! ### Statements of a list -/

namespace Code

/-- The statements of a list, each as a list of its own. -/
def stmts : Code → List Code
  | done => []
  | assign targets value rest => assign targets value done :: rest.stmts
  | augAssign target op value rest => augAssign target op value done :: rest.stmts
  | expr value rest => expr value done :: rest.stmts
  | ifElse test body orelse rest => ifElse test body orelse done :: rest.stmts
  | forIn target iter body orelse rest => forIn target iter body orelse done :: rest.stmts
  | whileDo test body orelse rest => whileDo test body orelse done :: rest.stmts
  | ret value rest => ret value done :: rest.stmts
  | brk rest => brk done :: rest.stmts
  | cont rest => cont done :: rest.stmts

/-- A list of statements. -/
def ofStmts (ss : List Code) : Code := ss.foldr append done

/-- The names a list of statements binds anew; `x += v` on an array writes in place, so it binds
nothing. -/
def rebinds (inPlace : Bool) : Code → List String
  | done => []
  | assign targets _ rest => targets.flatMap Pattern.binds ++ rest.rebinds inPlace
  | augAssign target _ _ rest => (if inPlace then [] else target.binds) ++ rest.rebinds inPlace
  | expr _ rest => rest.rebinds inPlace
  | ifElse _ body orelse rest =>
    body.rebinds inPlace ++ orelse.rebinds inPlace ++ rest.rebinds inPlace
  | forIn target _ body orelse rest =>
    target.binds ++ body.rebinds inPlace ++ orelse.rebinds inPlace ++ rest.rebinds inPlace
  | whileDo _ body orelse rest =>
    body.rebinds inPlace ++ orelse.rebinds inPlace ++ rest.rebinds inPlace
  | ret _ rest => rest.rebinds inPlace
  | brk rest => rest.rebinds inPlace
  | cont rest => rest.rebinds inPlace

/-- Whether a `break` or a `continue` exits the list it is in. -/
def leavesBlock : Code → Bool
  | done => false
  | assign _ _ rest => rest.leavesBlock
  | augAssign _ _ _ rest => rest.leavesBlock
  | expr _ rest => rest.leavesBlock
  | ifElse _ body orelse rest => body.leavesBlock || orelse.leavesBlock || rest.leavesBlock
  | forIn _ _ _ orelse rest => orelse.leavesBlock || rest.leavesBlock
  | whileDo _ _ orelse rest => orelse.leavesBlock || rest.leavesBlock
  | ret _ rest => rest.leavesBlock
  | brk _ => true
  | cont _ => true

end Code

/-- A target with every name replaced. -/
def Pattern.rename (ρ : String → String) : Pattern → Pattern
  | .name id => .name (ρ id)
  | .item value slice => .item (value.rename ρ) (slice.rename ρ)
  | .unit => .unit
  | .pair head tail => .pair (head.rename ρ) (tail.rename ρ)

/-- A list of statements with every name replaced. -/
def Code.rename (ρ : String → String) : Code → Code
  | .done => .done
  | .assign targets value rest =>
    .assign (targets.map (Pattern.rename ρ)) (value.rename ρ) (rest.rename ρ)
  | .augAssign target op value rest =>
    .augAssign (target.rename ρ) op (value.rename ρ) (rest.rename ρ)
  | .expr value rest => .expr (value.rename ρ) (rest.rename ρ)
  | .ifElse test body orelse rest =>
    .ifElse (test.rename ρ) (body.rename ρ) (orelse.rename ρ) (rest.rename ρ)
  | .forIn target iter body orelse rest =>
    .forIn (target.rename ρ) (iter.rename ρ) (body.rename ρ) (orelse.rename ρ) (rest.rename ρ)
  | .whileDo test body orelse rest =>
    .whileDo (test.rename ρ) (body.rename ρ) (orelse.rename ρ) (rest.rename ρ)
  | .ret value rest => .ret (value.rename ρ) (rest.rename ρ)
  | .brk rest => .brk (rest.rename ρ)
  | .cont rest => .cont (rest.rename ρ)

/-! ### Names of one value -/

/-- `name = holder`. -/
def bindTo (holder name : String) : Code := .assign [.name name] (.name holder) .done

/-- Some names spelled as one other. -/
def aliasMap (holder : String) (names : List String) : String → String :=
  fun x => if x ∈ names then holder else x

/-- `name = holder` for every alias that is still read. -/
def stitches (holder : String) (live reads : List String) : List Code :=
  (live.filter (· ∈ reads)).map (bindTo holder)

/-- The targets and the value of a plain assignment. -/
def plainRebinding : Code → Option (List Pattern × Expr)
  | .assign targets value .done => some (targets, value)
  | _ => none

/-- An assignment with the names it reads replaced. -/
def renameReads (ρ : String → String) (targets : List Pattern) (value : Expr) : Code :=
  .assign (targets.map (Pattern.renameLoads ρ)) (value.rename ρ) .done

section Rename

variable (inPlace scopeBody : Bool) (outer : List String)

/-- The names in `live` spelled as `holder` in the statements of a list, while they all still name
one value.  `outer` are the names read in the rest of the function, and `seen` those read in the
statements of the list that were renamed. -/
def renameAliases : List String → String → List String → List Code → List Code
  | seen, holder, live, [] => if scopeBody then [] else stitches holder live (outer ++ seen)
  | seen, holder, live, stmt :: rest =>
    if live = [] then stmt :: rest
    else
      let rebound := (holder :: live).filter (· ∈ stmt.rebinds inPlace)
      let after := rest.flatMap Code.loads
      if rebound = [] ∧ (scopeBody = true ∨ stmt.leavesBlock = false) then
        let stmt := stmt.rename (aliasMap holder live)
        stmt :: renameAliases (seen ++ stmt.loads) holder live rest
      else
        match (plainRebinding stmt).filter fun _ => rebound ≠ [] with
        | none => stitches holder live (outer ++ seen ++ stmt.loads ++ after) ++ stmt :: rest
        | some (targets, value) =>
          let stmt := renameReads (aliasMap holder live) targets value
          let left := live.filter (· ∉ rebound)
          if holder ∈ rebound then
            -- The holder is bound anew: the first alias that is still read takes its place.
            match left.filter (· ∈ outer ++ seen ++ stmt.loads ++ after) with
            | [] => stmt :: rest
            | next :: others =>
              bindTo holder next :: stmt ::
                renameAliases (seen ++ holder :: stmt.loads) next others rest
          else stmt :: renameAliases (seen ++ stmt.loads) holder left rest

end Rename

/-! ### One chained assignment -/

/-- A numeric literal, or an arithmetic of some. -/
def isScalarLiteral : Expr → Bool
  | .const .none => false
  | .const _ => true
  | .unaryOp _ operand => isScalarLiteral operand
  | .binOp _ left right => isScalarLiteral left && isScalarLiteral right
  | _ => false

/-- What the pass is given. -/
structure ChainConfig where
  tempName : ℕ → String
  repeatLiterals : Bool
  /-- The rank of a value, where it is known. -/
  exprRank : Expr → Option ℕ

/-- The rank of a value; a constant has none. -/
def ChainConfig.rankOf (cfg : ChainConfig) : Expr → Option ℕ
  | .const _ => some 0
  | e => cfg.exprRank e

/-- The name that takes the value, and the targets that follow. -/
def holderOf (cfg : ChainConfig) (temps : ℕ) (targets : List Pattern) (value : Expr) :
    String × List Pattern :=
  match targets with
  | .name a :: others =>
    if cfg.rankOf value = some 0 then (cfg.tempName temps, targets) else (a, others)
  | _ => (cfg.tempName temps, targets)

/-- The name that becomes an alias of the holder; `shared` says that the value is no scalar, which
would be copied. -/
def aliasOf (shared : Bool) : Pattern → Option String
  | .name x => if shared then some x else none
  | _ => none

/-- The statements that store the holder in the other targets, and the aliases. -/
def splitTargets (shared : Bool) (holder : String) : List String → List Pattern →
    List Code × List String
  | aliases, [] => ([], aliases)
  | aliases, target :: rest =>
    match aliasOf shared target with
    | some x =>
      splitTargets shared holder
        (if x ≠ holder ∧ x ∉ aliases then aliases ++ [x] else aliases) rest
    | none =>
      let split := splitTargets shared holder aliases rest
      (.assign [target.rename (aliasMap holder aliases)] (.name holder) .done :: split.1, split.2)

/-- A chained assignment and the statements after it, split. -/
def splitChain (cfg : ChainConfig) (temps : ℕ) (scopeBody : Bool) (outer : List String)
    (targets : List Pattern) (value : Expr) (rest : List Code) : List Code :=
  if cfg.repeatLiterals && isScalarLiteral value then
    targets.map (fun t => .assign [t] value .done) ++ rest
  else
    let rank := cfg.rankOf value
    let (holder, others) := holderOf cfg temps targets value
    let (heads, aliases) := splitTargets (rank ≠ some 0) holder [] others
    .assign [.name holder] value .done :: (heads ++
      if aliases = [] then rest
      else renameAliases rank.isSome scopeBody outer [] holder aliases rest)

/-! ### The pass -/

/-- A way from a list of statements to another inside it: past its first statement, or into the
body or the `else` of that. -/
inductive Move
  | next
  | body
  | orelse
  deriving DecidableEq

namespace Code

/-- The list of statements one way further. -/
def child : Move → Code → Option Code
  | .next, assign _ _ rest => some rest
  | .next, augAssign _ _ _ rest => some rest
  | .next, expr _ rest => some rest
  | .next, ifElse _ _ _ rest => some rest
  | .next, forIn _ _ _ _ rest => some rest
  | .next, whileDo _ _ _ rest => some rest
  | .next, ret _ rest => some rest
  | .next, brk rest => some rest
  | .next, cont rest => some rest
  | .body, ifElse _ body _ _ => some body
  | .body, forIn _ _ body _ _ => some body
  | .body, whileDo _ body _ _ => some body
  | .orelse, ifElse _ _ orelse _ => some orelse
  | .orelse, forIn _ _ _ orelse _ => some orelse
  | .orelse, whileDo _ _ orelse _ => some orelse
  | _, _ => none

/-- The list of statements one way further, replaced. -/
def setChild : Move → Code → Code → Code
  | .next, assign t e _, c => assign t e c
  | .next, augAssign t op e _, c => augAssign t op e c
  | .next, expr e _, c => expr e c
  | .next, ifElse t b o _, c => ifElse t b o c
  | .next, forIn t e b o _, c => forIn t e b o c
  | .next, whileDo t b o _, c => whileDo t b o c
  | .next, ret e _, c => ret e c
  | .next, brk _, c => brk c
  | .next, cont _, c => cont c
  | .body, ifElse t _ o rest, c => ifElse t c o rest
  | .body, forIn t e _ o rest, c => forIn t e c o rest
  | .body, whileDo t _ o rest, c => whileDo t c o rest
  | .orelse, ifElse t b _ rest, c => ifElse t b c rest
  | .orelse, forIn t e b _ rest, c => forIn t e b c rest
  | .orelse, whileDo t b _ rest, c => whileDo t b c rest
  | _, d, _ => d

/-- The list of statements at the end of a path. -/
def at_ : List Move → Code → Option Code
  | [], c => some c
  | m :: path, c => (c.child m).bind (at_ path)

/-- The list of statements at the end of a path, replaced. -/
def replace (new : Code) : List Move → Code → Code
  | [], _ => new
  | m :: path, c =>
    match c.child m with
    | some d => c.setChild m (replace new path d)
    | none => c

/-- The first chained assignment of a list. -/
def chainHere : Code → Option (List Move)
  | done => none
  | assign targets _ rest =>
    if 1 < targets.length then some [] else rest.chainHere.map (.next :: ·)
  | augAssign _ _ _ rest => rest.chainHere.map (.next :: ·)
  | expr _ rest => rest.chainHere.map (.next :: ·)
  | ifElse _ _ _ rest => rest.chainHere.map (.next :: ·)
  | forIn _ _ _ _ rest => rest.chainHere.map (.next :: ·)
  | whileDo _ _ _ rest => rest.chainHere.map (.next :: ·)
  | ret _ rest => rest.chainHere.map (.next :: ·)
  | brk rest => rest.chainHere.map (.next :: ·)
  | cont rest => rest.chainHere.map (.next :: ·)

/-- The first chained assignment inside the statements of a list: in the body and the `else` of
one before it is in the lists inside these. -/
def chainInside : Code → Option (List Move)
  | ifElse _ body orelse rest =>
    ((((body.chainHere.map (.body :: ·)).or (orelse.chainHere.map (.orelse :: ·))).or
      (body.chainInside.map (.body :: ·))).or (orelse.chainInside.map (.orelse :: ·))).or
      (rest.chainInside.map (.next :: ·))
  | forIn _ _ body orelse rest =>
    ((((body.chainHere.map (.body :: ·)).or (orelse.chainHere.map (.orelse :: ·))).or
      (body.chainInside.map (.body :: ·))).or (orelse.chainInside.map (.orelse :: ·))).or
      (rest.chainInside.map (.next :: ·))
  | whileDo _ body orelse rest =>
    ((((body.chainHere.map (.body :: ·)).or (orelse.chainHere.map (.orelse :: ·))).or
      (body.chainInside.map (.body :: ·))).or (orelse.chainInside.map (.orelse :: ·))).or
      (rest.chainInside.map (.next :: ·))
  | assign _ _ rest => rest.chainInside.map (.next :: ·)
  | augAssign _ _ _ rest => rest.chainInside.map (.next :: ·)
  | expr _ rest => rest.chainInside.map (.next :: ·)
  | ret _ rest => rest.chainInside.map (.next :: ·)
  | brk rest => rest.chainInside.map (.next :: ·)
  | cont rest => rest.chainInside.map (.next :: ·)
  | done => none

/-- The chained assignment that is split next. -/
def nextChain (body : Code) : Option (List Move) := body.chainHere.or body.chainInside

end Code

/-- Whether a path stays in the body of the function. -/
def inScopeBody (path : List Move) : Bool := path.all (· = .next)

/-- The statements of a list that starts with a chained assignment, split. -/
def splitList (cfg : ChainConfig) (temps : ℕ) (scopeBody : Bool) (outer : List String) :
    Code → Code
  | .assign targets value rest =>
    Code.ofStmts (splitChain cfg temps scopeBody outer targets value rest.stmts)
  | c => c

/-- A function's body with the chained assignment at the end of a path split. -/
def splitAt (cfg : ChainConfig) (temps : ℕ) (path : List Move) (body : Code) : Code :=
  match body.at_ path with
  | some list =>
    let outer := (Code.replace .done path body).loads
    Code.replace (splitList cfg temps (inScopeBody path) outer list) path body
  | none => body

/-- The temporaries a split takes. -/
def tempsOf (cfg : ChainConfig) (temps : ℕ) : Option Code → ℕ
  | some (.assign targets value _) =>
    if cfg.repeatLiterals && isScalarLiteral value then temps
    else if (holderOf cfg temps targets value).2 = targets then temps + 1 else temps
  | _ => temps

/-- A function's body with its chained assignments split, at most so many of them. -/
def splitAll (cfg : ChainConfig) : ℕ → ℕ → Code → Code
  | 0, _, body => body
  | count + 1, temps, body =>
    match body.nextChain with
    | none => body
    | some path =>
      splitAll cfg count (tempsOf cfg temps (body.at_ path)) (splitAt cfg temps path body)

/-! ### Where a split is right -/

/-- The names a target reads still have the chain's value when they are read: none of `live` is read
after it, or the holder, is bound. -/
def Pattern.ReadsFirst (holder : String) (live : List String) : List String → Pattern → Prop
  | bound, .item value slice =>
    ∀ x ∈ loadNames value ++ loadNames slice, x ∈ live → x ∉ bound ∧ holder ∉ bound
  | bound, .pair head tail =>
    head.ReadsFirst holder live bound ∧ tail.ReadsFirst holder live (bound ++ head.binds)
  | _, _ => True

/-- The same for the targets of an assignment. -/
def TargetsReadFirst (holder : String) (live : List String) : List String → List Pattern → Prop
  | _, [] => True
  | bound, t :: ts =>
    t.ReadsFirst holder live bound ∧ TargetsReadFirst holder live (bound ++ t.binds) ts

/-- The statements that bind an alias anew read the aliases before. -/
def RebindingsReadFirst (inPlace scopeBody : Bool) (outer : List String) :
    List String → String → List String → List Code → Prop
  | _, _, _, [] => True
  | seen, holder, live, stmt :: rest =>
    let rebound := (holder :: live).filter (· ∈ stmt.rebinds inPlace)
    if live = [] then True
    else if rebound = [] ∧ (scopeBody = true ∨ stmt.leavesBlock = false) then
      RebindingsReadFirst inPlace scopeBody outer
        (seen ++ (stmt.rename (aliasMap holder live)).loads) holder live rest
    else
      match (plainRebinding stmt).filter fun _ => rebound ≠ [] with
      | none => True
      | some (targets, value) =>
        let stmt := renameReads (aliasMap holder live) targets value
        let left := live.filter (· ∉ rebound)
        TargetsReadFirst holder live [] targets ∧
          if holder ∈ rebound then
            match left.filter (· ∈ outer ++ seen ++ stmt.loads ++ rest.flatMap Code.loads) with
            | [] => True
            | next :: others =>
              RebindingsReadFirst inPlace scopeBody outer (seen ++ holder :: stmt.loads) next
                others rest
          else RebindingsReadFirst inPlace scopeBody outer (seen ++ stmt.loads) holder left rest

/-- A target of the chain that is no alias binds neither the holder nor an alias before it, or it is
the last one and nothing is renamed. -/
def TargetsApart (shared : Bool) (holder : String) : List String → List Pattern → Prop
  | _, [] => True
  | aliases, target :: rest =>
    match aliasOf shared target with
    | some x =>
      TargetsApart shared holder
        (if x ≠ holder ∧ x ∉ aliases then aliases ++ [x] else aliases) rest
    | none =>
      ((∀ x ∈ target.binds, x ≠ holder ∧ x ∉ aliases) ∨ aliases = [] ∧ rest = []) ∧
        TargetsApart shared holder aliases rest

/-- Whether a path enters the body of a loop. -/
def Code.inLoop : List Move → Code → Bool
  | [], _ => false
  | m :: path, c =>
    (match m, c with
      | .body, .forIn _ _ _ _ _ => true
      | .body, .whileDo _ _ _ _ => true
      | _, _ => false) ||
    match c.child m with
    | some d => d.inLoop path
    | none => false

/-- A chained assignment whose split is right: its temporary is new; its targets and the statements
that bind an alias anew keep the names apart; and in a loop, where the chain is run again, an alias
that the chain itself reads is also read outside it, so that it is bound there. -/
structure ChainKept (shared inPlace scopeBody looped temp : Bool) (names outer : List String)
    (holder : String) (others : List Pattern) (value : Expr) (rest : List Code) : Prop where
  fresh : temp = true → holder ∉ names
  apart : TargetsApart shared holder [] others
  rebindings : RebindingsReadFirst inPlace scopeBody outer [] holder
    (splitTargets shared holder [] others).2 rest
  again : looped = true → ∀ x ∈ (splitTargets shared holder [] others).2,
    x ∈ loadNames value ++ (splitTargets shared holder [] others).1.flatMap Code.loads →
    x ∈ outer ++ (renameAliases inPlace scopeBody outer [] holder
      (splitTargets shared holder [] others).2 rest).flatMap Code.loads

/-- A split of a chained assignment that is right; a literal may be repeated. -/
def SplitKept (cfg : ChainConfig) (temps : ℕ) (path : List Move) (body : Code) : Prop :=
  match body.at_ path with
  | some (.assign targets value rest) =>
    (cfg.repeatLiterals && isScalarLiteral value) = true ∨
      let (holder, others) := holderOf cfg temps targets value
      ChainKept (cfg.rankOf value ≠ some 0) (cfg.rankOf value).isSome (inScopeBody path)
        (body.inLoop path) (others = targets) body.loads (Code.replace .done path body).loads
        holder others value rest.stmts
  | _ => True

/-- Every split of the pass is right. -/
def SplitsKept (cfg : ChainConfig) : ℕ → ℕ → Code → Prop
  | 0, _, _ => True
  | count + 1, temps, body =>
    match body.nextChain with
    | none => True
    | some path =>
      SplitKept cfg temps path body ∧
        SplitsKept cfg count (tempsOf cfg temps (body.at_ path)) (splitAt cfg temps path body)

end Translate

end HpcAgentBench
