import Mathlib
import HpcAgentBench.Lib.Python

/-!
# The requests of a submission

What a submission asks the judge for (`Requests`), what a setup allows of it (`RequestAllowances`),
and the checks of a request list against a kernel: the ones `POST /requests/check` runs
(`RequestEnv.requestsCheck`) and the ones `/submit` and `/score` run
(`RequestEnv.submissionChecks`).

What the layout library makes of operations, and numpy's data types, are fields of `RequestEnv`.

## Main results

* `RequestAllowances.refusal_offered` : what a setup refuses of a request made of the members its
  tools offer.
* `RequestEnv.check_then_submit` : a list the check endpoint accepts is refused by `/submit` exactly
  if it lays out arrays without a grid on a distributed task whose setup sets the grid and allows no
  layouts.
-/

namespace HpcAgentBench

open List

namespace Judge

/-- `sorted(set)` of texts. -/
def sortedSet (names : List String) : List String := names.dedup.insertionSort (· ≤ ·)

/-- The element types a `cast` may ask for. -/
inductive Precision
  | fp64 | fp32 | fp16 | bf16 | fp8E4m3 | fp8E5m2
  deriving DecidableEq, Repr

def Precision.value : Precision → String
  | fp64 => "fp64" | fp32 => "fp32" | fp16 => "fp16" | bf16 => "bf16"
  | fp8E4m3 => "fp8_e4m3" | fp8E5m2 => "fp8_e5m2"

/-- The operations of a request, by name. -/
inductive RequestAction
  | cast | format | zip | unzip
  | block | unblock | split | unsplit | permute | pad | unpad | shuffle | linearShuffle
  | distribute | replicate | place
  deriving DecidableEq, Repr

namespace RequestAction

def value : RequestAction → String
  | cast => "cast" | format => "format" | zip => "zip" | unzip => "unzip"
  | block => "block" | unblock => "unblock" | split => "split" | unsplit => "unsplit"
  | permute => "permute" | pad => "pad" | unpad => "unpad" | shuffle => "shuffle"
  | linearShuffle => "linear_shuffle"
  | distribute => "distribute" | replicate => "replicate" | place => "place"

/-- Every action, in schema order. -/
def all : List RequestAction :=
  [cast, format, zip, unzip, block, unblock, split, unsplit, permute, pad, unpad, shuffle,
    linearShuffle, distribute, replicate, place]

end RequestAction

/-- `SINGLE_NODE_LAYOUT_ACTIONS`. -/
def singleNodeLayoutActions : List RequestAction :=
  [.block, .unblock, .split, .unsplit, .permute, .pad, .unpad, .shuffle, .linearShuffle]

/-- `REGROUP_ACTIONS`. -/
def regroupActions : List RequestAction := [.zip, .unzip]

/-- `DISTRIBUTED_ACTIONS`. -/
def distributedActions : List RequestAction :=
  singleNodeLayoutActions ++ [.distribute, .replicate]

/-- Where an array lives. -/
inductive Location
  | host | device
  deriving DecidableEq, Repr

/-- The digit operations but `distribute`. -/
inductive LayoutAction
  | block | unblock | split | unsplit | permute | pad | unpad | shuffle | linearShuffle
  deriving DecidableEq, Repr

def LayoutAction.action : LayoutAction → RequestAction
  | block => .block | unblock => .unblock | split => .split | unsplit => .unsplit
  | permute => .permute | pad => .pad | unpad => .unpad | shuffle => .shuffle
  | linearShuffle => .linearShuffle

/-- One operation; `Args` are the arguments of a digit operation beside its array. -/
inductive Operation (Args : Type)
  | cast (array : String) (target : Precision)
  | format (array label : String)
  | zip (arrays : List String) (into : String) (dim : Option ℤ)
  | unzip (array : String) (into : List String) (dim : Option ℤ)
  | digit (action : LayoutAction) (array : String) (args : Args)
  | distribute (array : String) (args : Args)
  | replicate (array : String)
  | place (array : String) (location : Location)
  deriving DecidableEq, Repr

namespace Operation

variable {Args : Type}

def action : Operation Args → RequestAction
  | cast .. => .cast
  | format .. => .format
  | zip .. => .zip
  | unzip .. => .unzip
  | digit a .. => a.action
  | distribute .. => .distribute
  | replicate .. => .replicate
  | place .. => .place

/-- `isinstance(op, DigitOperation) and not isinstance(op, Distribute)`. -/
def isLayout : Operation Args → Bool
  | digit .. => true
  | _ => false

/-- `isinstance(op, Zip | Unzip)`. -/
def isRegroup : Operation Args → Bool
  | zip .. | unzip .. => true
  | _ => false

/-- `isinstance(op, Distribute | Replicate)`. -/
def isSpread : Operation Args → Bool
  | distribute .. | replicate .. => true
  | _ => false

/-- `isinstance(op, Place)`. -/
def isPlace : Operation Args → Bool
  | place .. => true
  | _ => false

/-- `isinstance(op, Cast | Format)`. -/
def isElement : Operation Args → Bool
  | cast .. | format .. => true
  | _ => false

def cast? : Operation Args → Option (String × Precision)
  | cast array target => some (array, target)
  | _ => none

def format? : Operation Args → Option (String × String)
  | format array label => some (array, label)
  | _ => none

def place? : Operation Args → Option (String × Location)
  | place array location => some (array, location)
  | _ => none

/-- The arrays a digit operation lays out, or a zip or unzip regroups (`regrouped_names`). -/
def handledNames : Operation Args → List String
  | digit _ array _ => [array]
  | zip arrays _ _ => arrays
  | unzip array _ _ => [array]
  | _ => []

end Operation

/-- `startup`: the libraries to load and the processor grid. -/
structure Startup where
  load : List String
  grid : Option (List String)
  deriving DecidableEq, Repr

/-- `requests`. -/
structure Requests (Args : Type) where
  startup : Startup
  operations : List (Operation Args)
  deriving DecidableEq, Repr

/-- The last value of each key, in the order the keys came first. -/
def lastOfKeys {β : Type} (items : List (String × β)) : List (String × β) :=
  items.foldl (fun d item => setItem d item.1 item.2) []

namespace Requests

variable {Args : Type} (requests : Requests Args)

/-- A request with `startup.grid`. -/
def distributed : Bool := requests.startup.grid.isSome

/-- The precision each cast array ends in. -/
def precisions : List (String × Precision) :=
  lastOfKeys (requests.operations.filterMap Operation.cast?)

/-- The format of each sparse array that has one. -/
def formats : List (String × String) :=
  lastOfKeys (requests.operations.filterMap Operation.format?)

/-- The residency of each placed array. -/
def locations : List (String × Location) :=
  lastOfKeys (requests.operations.filterMap Operation.place?)

end Requests

/-! ### What a setup allows -/

/-- `RequestCapability`. -/
inductive RequestCapability
  | load | cast | layout | sparseFormat | place | distribute
  deriving DecidableEq, Repr

/-- `GridChooser`: who sets the processor grid of a distributed grade. -/
inductive GridChooser
  | agent | task
  deriving DecidableEq, Repr

/-- What one task's agent tools offer in `requests`. -/
structure RequestActions where
  load : Bool
  distributed : Bool
  grid : Bool
  place : Bool
  casts : List Precision
  layouts : Bool
  formats : Bool
  deriving DecidableEq, Repr

namespace RequestActions

variable (offer : RequestActions)

/-- The `startup` members offered. -/
def startup : List String :=
  (if offer.load then ["load"] else []) ++ (if offer.distributed && offer.grid then ["grid"] else [])

/-- The operation actions offered, in schema order. -/
def operations : List RequestAction :=
  let offered :=
    (if offer.casts ≠ [] then [.cast] else []) ++ (if offer.formats then [.format] else []) ++
      (if offer.layouts then singleNodeLayoutActions ++ regroupActions else []) ++
      (if offer.distributed then distributedActions else []) ++
      (if offer.place then [.place] else [])
  RequestAction.all.filter (· ∈ offered)

end RequestActions

/-- What a submission's `requests` may ask the judge for in this setup. -/
structure RequestAllowances where
  allow : List RequestCapability
  precisions : List Precision
  grid : GridChooser
  deriving DecidableEq, Repr

namespace RequestAllowances

variable (a : RequestAllowances)

def allows (capability : RequestCapability) : Bool := capability ∈ a.allow

/-- What one task's tools offer. -/
def actions (distributed castable layable sparse : Bool) : RequestActions where
  load := a.allows .load
  distributed := distributed && a.allows .distribute
  grid := a.grid = .agent
  place := distributed && a.allows .place
  casts := if castable && a.allows .cast then a.precisions else []
  layouts := layable && a.allows .layout
  formats := sparse && a.allows .sparseFormat

section Refusal

variable {Args : Type} (repr : String → String) (requests : Requests Args)

/-- The names of the operations that distribute or replicate. -/
def spread : List String :=
  sortedSet ((requests.operations.filter (·.isSpread)).map (·.action.value))

/-- The names of the operations that need the `layout` capability. -/
def laid : List String :=
  sortedSet ((requests.operations.filter fun op =>
    op.isRegroup || (op.isLayout && !requests.distributed)).map (·.action.value))

/-- Why `requests` asks for something this setup does not allow. -/
def refusal : Option String :=
  if requests.startup.load ≠ [] ∧ a.allows .load = false then
    some ("this setup does not allow library requests: drop startup.load (refused " ++
      ", ".intercalate requests.startup.load ++ ")")
  else if (requests.distributed = true ∨ spread requests ≠ []) ∧ a.allows .distribute = false then
    some ("this setup grades no distributed layout: drop " ++
      ", ".intercalate ((if requests.distributed then ["startup.grid"] else []) ++
        (spread requests).map fun name => "the " ++ name ++ " operation(s)"))
  else if requests.operations.any (·.isPlace) = true ∧ a.allows .place = false then
    some ("this setup does not allow placement requests: drop every place operation; every " ++
      "array lives in the run's residency")
  else if requests.operations.filterMap (·.cast?) ≠ [] ∧ a.allows .cast = false then
    some ("this setup does not allow precision requests: drop every cast operation; every array " ++
      "stays in the problem precision")
  else
    match (requests.operations.filterMap (·.cast?)).find? fun c => c.2 ∉ a.precisions with
    | some (array, target) =>
      some ("cast of " ++ repr array ++ " to " ++ repr target.value ++ ": this setup allows casts to " ++
        listText (fun p => repr p.value) a.precisions ++ " only")
    | none =>
      if laid requests ≠ [] ∧ a.allows .layout = false then
        some ("this setup does not allow layout requests: drop the " ++
          ", ".intercalate (laid requests) ++ " operation(s); every dense array arrives " ++
          "row-major as the signature declares")
      else if requests.formats ≠ [] ∧ a.allows .sparseFormat = false then
        some ("this setup does not allow sparse format requests: drop every format operation; " ++
          "every sparse array arrives in its default format")
      else none

end Refusal

theorem sortedSet_eq_nil {names : List String} : sortedSet names = [] ↔ names = [] := by
  rw [sortedSet, ← length_eq_zero_iff, length_insertionSort, length_eq_zero_iff,
    dedup_eq_nil]

section Refusal

variable {Args : Type} {a} {repr : String → String} {requests : Requests Args}

theorem spread_eq_nil : spread requests = [] ↔ ∀ op ∈ requests.operations, op.isSpread = false := by
  simp [spread, sortedSet_eq_nil, filter_eq_nil_iff]

theorem laid_eq_nil : laid requests = [] ↔ ∀ op ∈ requests.operations,
    op.isRegroup = false ∧ (op.isLayout = true → requests.distributed = true) := by
  simp [laid, sortedSet_eq_nil, filter_eq_nil_iff]

/-- A capability that is asked for is allowed. -/
theorem not_and_allows {asked : Prop} {b : Bool} :
    ¬ (asked ∧ b = false) ↔ (¬ asked ∨ b = true) := by
  rw [not_and_or, Bool.not_eq_false]

/-- What a setup does not refuse. -/
theorem refusal_eq_none : a.refusal repr requests = none ↔
    (requests.startup.load = [] ∨ a.allows .load = true) ∧
    ((requests.distributed = false ∧ ∀ op ∈ requests.operations, op.isSpread = false) ∨
      a.allows .distribute = true) ∧
    ((∀ op ∈ requests.operations, op.isPlace = false) ∨ a.allows .place = true) ∧
    (requests.operations.filterMap (·.cast?) = [] ∨ a.allows .cast = true) ∧
    (∀ c ∈ requests.operations.filterMap (·.cast?), c.2 ∈ a.precisions) ∧
    (laid requests = [] ∨ a.allows .layout = true) ∧
    (requests.formats = [] ∨ a.allows .sparseFormat = true) := by
  have hspread : ¬ (requests.distributed = true ∨ spread requests ≠ []) ↔
      (requests.distributed = false ∧ ∀ op ∈ requests.operations, op.isSpread = false) := by
    rw [not_or, Bool.not_eq_true, not_not, spread_eq_nil]
  have hplace : ¬ requests.operations.any (·.isPlace) = true ↔
      ∀ op ∈ requests.operations, op.isPlace = false := by simp
  have hcasts : (requests.operations.filterMap (·.cast?)).find? (fun c => c.2 ∉ a.precisions) =
      none ↔ ∀ c ∈ requests.operations.filterMap (·.cast?), c.2 ∈ a.precisions := by
    rw [find?_eq_none]
    simp
  constructor
  · intro h
    unfold refusal at h
    split at h
    · cases h
    next hload =>
    split at h
    · cases h
    next hdist =>
    split at h
    · cases h
    next hpl =>
    split at h
    · cases h
    next hcast =>
    split at h
    · cases h
    next hfind =>
    split at h
    · cases h
    next hlaid =>
    split at h
    · cases h
    next hformat =>
    rw [not_and_allows] at hload hdist hpl hcast hlaid hformat
    rw [not_not] at hload hcast hlaid hformat
    exact ⟨hload, hdist.imp hspread.mp id, hpl.imp hplace.mp id, hcast, hcasts.mp hfind, hlaid,
      hformat⟩
  · rintro ⟨hload, hdist, hpl, hcast, hfind, hlaid, hformat⟩
    rw [refusal, if_neg (not_and_allows.mpr (hload.imp not_not.mpr id)),
      if_neg (not_and_allows.mpr (hdist.imp hspread.mpr id)),
      if_neg (not_and_allows.mpr (hpl.imp hplace.mpr id)),
      if_neg (not_and_allows.mpr (hcast.imp not_not.mpr id)), hcasts.mpr hfind]
    show (if laid requests ≠ [] ∧ a.allows .layout = false then _ else _) = none
    rw [if_neg (not_and_allows.mpr (hlaid.imp not_not.mpr id)),
      if_neg (not_and_allows.mpr (hformat.imp not_not.mpr id))]

end Refusal

end RequestAllowances

/-! ### Kernels -/

/-- `Residency`: where a task runs. -/
inductive Residency
  | host | device | distributed
  deriving DecidableEq, Repr

/-- A pointer of a kernel's binding. -/
structure Pointer where
  name : String
  dtype : String
  shape : Option (List String)
  isIndex : Bool
  deriving DecidableEq, Repr

/-- A sparse logical array and the buffers it is unpacked into. -/
structure PackedGroup where
  logical : String
  members : List String
  deriving DecidableEq, Repr

/-- A constant extent: `int(token) if token.isdigit() else None`. -/
def extent? (token : String) : Option ℕ :=
  if token ≠ "" ∧ token.toList.all Char.isDigit then some (Nat.ofDigitChars 10 token.toList 0)
  else none

/-- What the checks read of a kernel's manifest and binding. -/
structure Spec where
  kernel : String
  allowedPrecisions : List String
  /-- The kernel is on the machine-learning track. -/
  mlTrack : Bool
  /-- `init.dtypes`. -/
  initDtypes : List (String × String)
  sparseLayouts : Bool
  pointers : List Pointer
  packed : List PackedGroup
  /-- The dimension counts of `mpi.arrays`. -/
  mpiNdims : List (String × ℕ)
  torchReference : Bool
  /-- `default_requests(..).startup.grid`. -/
  defaultGrid : List String
  deriving DecidableEq, Repr

/-- An array a request's operations start from. -/
structure ArraySpec where
  name : String
  ndim : ℕ
  members : List String
  native : Bool
  extents : List (Option ℕ)
  element : String
  sparse : Bool
  deriving DecidableEq, Repr

namespace Spec

variable (spec : Spec)

/-- `binding_ndims`. -/
def bindingNdims : List (String × ℕ) :=
  spec.pointers.filterMap fun p => p.shape.map fun shape => (p.name, shape.length)

/-- `kernel_ndims`. -/
def ndims : List (String × ℕ) := lastOfKeys (spec.mpiNdims ++ spec.bindingNdims)

/-- The buffers of sparse arrays. -/
def sparseMembers : List String := spec.packed.flatMap (·.members)

end Spec

/-- What `POST /requests/check` answers. -/
inductive Check (Answer : Type)
  | refused (refusal : String)
  | accepted (answer : Answer)

/-- The configuration, numpy's data types and the layout library. -/
structure RequestEnv (Raw Language Kernel Args Answer : Type) where
  spec : Kernel → Spec
  /-- `Requests.validate`, or the text of its `ValueError`. -/
  validate : Raw → Except String (Requests Args)
  allowances : RequestAllowances
  /-- `service.datatype`. -/
  datatype : String
  /-- `ml.datatype`. -/
  mlDatatype : String
  /-- `grading_residency`. -/
  residency : Kernel → Language → Residency
  isPython : Language → Bool
  /-- `mpi.residency`. -/
  mpiResidency : Location
  /-- `mpi.ranks`. -/
  ranks : ℕ
  /-- `repr` of a `str`. -/
  repr : String → String
  /-- `is_storage_only`. -/
  storageOnly : String → Bool
  /-- The element type of a datatype (`precision_from_datatype`), or its `ValueError`. -/
  problemType : String → Except String String
  /-- `canonical`. -/
  canonical : String → String
  /-- `np.dtype(canonical(..)).name`. -/
  elementName : String → String
  /-- `is_float_dtype`. -/
  isFloat : String → Bool
  /-- `np.dtype(..).kind == "c"`. -/
  isComplex : String → Bool
  /-- A precision's data type is the one named. -/
  isType : Precision → String → Bool
  /-- `Requests.run` over the arrays, when it raises. -/
  run : List ArraySpec → Requests Args → Option String
  /-- `Requests.single_node` over the arrays, when it raises. -/
  singleNode : List ArraySpec → Requests Args → Option String
  /-- `Requests.plan` and then `Requests.unplaced`, at the ranks. -/
  unplaced : List (String × ℕ) → ℕ → Requests Args → Except String (List String)
  /-- What `requests_check` says of an accepted request, when nothing raises. -/
  describe : Kernel → Language → Requests Args → String → Except String Answer

namespace RequestEnv

variable {Raw Language Kernel Args Answer : Type} (env : RequestEnv Raw Language Kernel Args Answer)

/-- `declares_storage_precision`. -/
def declaresStoragePrecision (precisions : List String) : Bool :=
  match precisions with
  | [p] => env.storageOnly p
  | _ => false

/-- `track_datatype`. -/
def trackDatatype (spec : Spec) : String :=
  if !spec.mlTrack || env.declaresStoragePrecision spec.allowedPrecisions then ""
  else env.mlDatatype

/-- `graded_datatype`. -/
def gradedDatatype (spec : Spec) (configured : String) : String :=
  if env.declaresStoragePrecision spec.allowedPrecisions then spec.allowedPrecisions.headD ""
  else if env.trackDatatype spec = "" then configured
  else env.trackDatatype spec

/-- `precision_problem_dtypes`. -/
def precisionProblemDtypes (spec : Spec) (datatype : String) :
    Except String (List (String × String)) := do
  let problem ← env.problemType (env.gradedDatatype spec datatype)
  let castable := spec.pointers.filter fun p =>
    !p.isIndex && decide (p.name ∉ spec.sparseMembers) && env.isFloat p.dtype
  return castable.map fun p =>
    (p.name, match spec.initDtypes.lookup p.name with
      | some declared => env.canonical declared
      | none => problem)

/-- `kernel_dtypes`. -/
def kernelDtypes (spec : Spec) (datatype : String) : Except String (List (String × String)) := do
  let problem ← env.precisionProblemDtypes spec datatype
  return lastOfKeys (spec.pointers.map (fun p => (p.name, p.dtype)) ++ problem)

/-- `kernel_arrays`. -/
def kernelArrays (spec : Spec) (dtypes : List (String × String)) : List ArraySpec :=
  let dense := spec.ndims.filterMap fun (name, ndim) => do
    let p ← spec.pointers.find? (·.name = name)
    if name ∈ spec.sparseMembers then none
    else
      let shape := p.shape.getD []
      let element := env.elementName ((dtypes.lookup name).getD p.dtype)
      let members := if env.isComplex element then ["re", "im"] else []
      some {
        name := name
        ndim := ndim
        members := members
        native := decide (members ≠ [])
        extents := if shape.length = ndim then shape.map extent? else []
        element := element
        sparse := false }
  dense ++ spec.packed.map fun group =>
    { name := group.logical, ndim := 2, members := [], native := false, extents := [],
      element := "", sparse := true }

/-- `precision_refusal`. -/
def precisionRefusal (precisions : List (String × Precision)) (problem : List (String × String)) :
    Option String :=
  (precisions.insertionSort fun p q => p.1 ≤ q.1).findSome? fun (name, wanted) =>
    match problem.lookup name with
    | none => some ("a cast names " ++ env.repr name ++ ", which is not a floating dense array " ++
        "of this kernel; precision may be requested for " ++
        listText env.repr (sortedSet (problem.map (·.1))))
    | some dtype =>
      if env.isType wanted dtype then
        some ("cast of " ++ env.repr name ++ " to " ++ env.repr wanted.value ++
          ": that is already the array's problem precision; drop it")
      else none

/-- `precision_scope_refusal`. -/
def precisionScopeRefusal (kernel : Kernel) (language : Language) (requests : Requests Args) :
    Option String :=
  if env.isPython language then
    some "cast is not implemented for python deliveries yet; deliver C, C++, Fortran, CUDA or HIP"
  else if env.residency kernel language ≠ .distributed then none
  else if (env.spec kernel).torchReference then
    some "cast is not implemented on the ML track yet (its ranks generate their own inputs)"
  else
    let device := sortedSet ((requests.precisions.map (·.1)).filter fun name =>
      (requests.locations.lookup name).getD env.mpiResidency = .device)
    if device ≠ [] then
      some ("cast on device-resident MPI tiles (" ++ listText env.repr device ++
        ") is not implemented yet; keep them on the host")
    else none

/-- `single_node_layout_refusal`. -/
def singleNodeLayoutRefusal (kernel : Kernel) (language : Language) (requests : Requests Args)
    (datatype : String) : Except String (Option String) :=
  let spec := env.spec kernel
  let layoutOps := if requests.distributed then [] else requests.operations.filter (·.isLayout)
  let handled := layoutOps ++ requests.operations.filter (·.isRegroup)
  let other := sortedSet ((requests.operations.filter fun op =>
    !op.isElement && !op.isRegroup && !(op.isLayout && !requests.distributed)).map (·.action.value))
  let actions := ", ".intercalate (sortedSet (handled.map (·.action.value)))
  let named := sortedSet (handled.flatMap (·.handledNames))
  let sparse := named.filter (· ∈ spec.packed.map (·.logical))
  let indices := named.filter (· ∈ (spec.pointers.filter (·.isIndex)).map (·.name))
  let shape (name : String) : Option (List String) :=
    (spec.pointers.find? (·.name = name)).bind (·.shape)
  if other ≠ [] then
    .ok (some (", ".intercalate other ++
      " without startup.grid is not implemented yet (see docs/requests_api.md)"))
  else if handled.isEmpty then .ok none
  else if env.isPython language then
    .ok (some (actions ++
      " is not implemented for python deliveries yet; deliver C, C++, Fortran, CUDA or HIP"))
  else if env.residency kernel language = .distributed then
    .ok (some (actions ++
      " without startup.grid on a distributed kernel: lay its arrays out per rank with a grid"))
  else if sparse ≠ [] then
    .ok (some (actions ++ " of the sparse arrays " ++ listText env.repr sparse ++
      ": a sparse array takes a format, not a dense layout"))
  else if indices ≠ [] then
    .ok (some (actions ++ " of the index arrays " ++ listText env.repr indices ++
      ": an index array is passed as it is"))
  else
    let unequal := requests.operations.findSome? fun
      | .zip arrays .. => if ((arrays.map shape).dedup).length ≠ 1 then some arrays else none
      | _ => none
    match unequal with
    | some arrays => .ok (some ("zip of " ++ listText env.repr arrays ++
        ": the arrays must have one shape"))
    | none =>
      match env.kernelDtypes spec datatype with
      | .error e => .ok (some e)
      | .ok dtypes => .ok (env.singleNode (env.kernelArrays spec dtypes) requests)

/-- `requests_refusal`: the refusal, or nothing, unless it raises. -/
def requestsRefusal (kernel : Kernel) (language : Language) (requests : Requests Args)
    (datatype : String) : Except String (Option String) :=
  match env.allowances.refusal env.repr requests with
  | some disallowed => .ok (some disallowed)
  | none => do
    let spec := env.spec kernel
    let problem ← env.precisionProblemDtypes spec datatype
    -- the MPI driver casts each tile from the binding's declared type
    let problem := if env.residency kernel language = .distributed then
      problem.map fun (name, dtype) =>
        (name, ((spec.pointers.find? (·.name = name)).map (·.dtype)).getD dtype)
      else problem
    let refused := (env.precisionRefusal requests.precisions problem).or
      (if requests.precisions ≠ [] then env.precisionScopeRefusal kernel language requests else none)
    match refused with
    | some refused => return some refused
    | none =>
      if spec.sparseLayouts ∧ requests.distributed then
        return some (spec.kernel ++ " is a sparse kernel; distributing its sparse formats is not " ++
          "implemented yet, so it takes no startup.grid; nothing was graded")
      else if requests.distributed ∧ env.residency kernel language ≠ .distributed then
        return some (spec.kernel ++ " is graded on one node; it takes no startup.grid and no " ++
          "distribute, replicate or place operation; nothing was graded")
      else
        match env.kernelDtypes spec datatype with
        | .error raised => return some raised
        | .ok dtypes =>
          match env.run (env.kernelArrays spec dtypes) requests with
          | some raised => return some raised
          | none =>
            if requests.distributed = false then
              env.singleNodeLayoutRefusal kernel language requests datatype
            else
              match env.unplaced spec.ndims env.ranks requests with
              | .error raised => return some raised
              | .ok [] => return none
              | .ok unplaced => return some ("the operations neither distribute nor replicate " ++
                  listText env.repr unplaced ++ "; on a distributed run every array needs one " ++
                  "(replicate an array to hold it whole on every rank)")

/-- `with_task_grid`: the request with the task's grid, or the refusal. -/
def withTaskGrid (kernel : Kernel) (language : Language) (requests : Requests Args) :
    Except String (Requests Args) :=
  if env.residency kernel language ≠ .distributed ∨ env.allowances.grid ≠ .task then .ok requests
  else if requests.distributed then
    .error ("this setup sets the processor grid from the task: drop startup.grid; your " ++
      "operations lay the arrays out over the task's grid")
  else .ok { requests with
    startup := { requests.startup with grid := some (env.spec kernel).defaultGrid } }

/-- `requests_check`; the error is a `ValueError`, answered by a 400. -/
def requestsCheck (kernel : Kernel) (language : Language) (raw : Raw) (datatype : String) :
    Except String (Check Answer) := do
  let sent ← env.validate raw
  match env.withTaskGrid kernel language sent with
  | .error refusal => return .refused refusal
  | .ok requests =>
    match ← env.requestsRefusal kernel language requests datatype with
    | some refusal => return .refused refusal
    | none => return .accepted (← env.describe kernel language requests datatype)

/-- `serve_requests_check`, from its body on. -/
def serveRequestsCheck (kernel : Kernel) (language : Language) (raw : Raw) :
    Except String (Check Answer) :=
  env.requestsCheck kernel language raw (env.gradedDatatype (env.spec kernel) env.datatype)

/-- The request checks of `/submit` and `/score` in their order: the granted request, or why it is
refused. -/
def submissionChecks (kernel : Kernel) (language : Language) (raw : Raw) :
    Except String (Requests Args) := do
  let requests ← env.validate raw
  match env.allowances.refusal env.repr requests with
  | some refusal => .error refusal
  | none =>
    let gridded ← env.withTaskGrid kernel language requests
    match ← env.requestsRefusal kernel language gridded env.datatype with
    | some refusal => .error refusal
    | none => return gridded

end RequestEnv

/-! ### The two paths -/

/-- Some operation lays out an array by its digits. -/
def LaysOut {Args : Type} (requests : Requests Args) : Prop :=
  ∃ op ∈ requests.operations, op.isLayout = true

namespace RequestAllowances

variable {Args : Type} {a : RequestAllowances} {repr : String → String} {requests : Requests Args}
variable {distributed castable layable sparse : Bool} {β : Type}

/-- What is refused of a request without a grid that is not refused of it with one. -/
theorem refusal_of_gridded (hgrid : requests.distributed = false) {grid : List String}
    (h : a.refusal repr { requests with startup := { requests.startup with grid := some grid } } =
      none) :
    a.refusal repr requests = none ↔ ¬ (a.allows .layout = false ∧ LaysOut requests) := by
  rw [refusal_eq_none] at h ⊢
  obtain ⟨hload, hdist, hplace, hcast, hprecision, hlaid, hformat⟩ := h
  have hdistribute : a.allows .distribute = true := by
    rcases hdist with ⟨hd, -⟩ | hd
    · cases hd
    · exact hd
  -- everything but the layouts is asked for either way
  have hsame : (laid requests = [] ∨ a.allows .layout = true) ↔
      ¬ (a.allows .layout = false ∧ LaysOut requests) := by
    cases hl : a.allows .layout with
    | true => simp
    | false =>
      have hregroup := laid_eq_nil.mp (hlaid.resolve_right (by simp [hl]))
      simp only [Bool.false_eq_true, or_false, true_and, laid_eq_nil, LaysOut, not_exists, not_and,
        hgrid]
      exact ⟨fun h op hop hlay => (h op hop).2 hlay, fun h op hop =>
        ⟨(hregroup op hop).1, fun hlay => absurd hlay (h op hop)⟩⟩
  rw [hsame]
  exact ⟨fun h => h.2.2.2.2.2.1, fun h =>
    ⟨hload, .inr hdistribute, hplace, hcast, hprecision, h, hformat⟩⟩

/-- A request made of the members that a task's tools offer. -/
structure Made (offer : RequestActions) (requests : Requests Args) : Prop where
  load : requests.startup.load ≠ [] → "load" ∈ offer.startup
  grid : requests.distributed = true → "grid" ∈ offer.startup
  operations : ∀ op ∈ requests.operations, op.action ∈ offer.operations
  casts : ∀ c ∈ requests.operations.filterMap (·.cast?), c.2 ∈ offer.casts

theorem mem_operations {offer : RequestActions} {action : RequestAction} :
    action ∈ offer.operations ↔
      (offer.casts ≠ [] ∧ action = .cast) ∨ (offer.formats = true ∧ action = .format) ∨
        (offer.layouts = true ∧ action ∈ singleNodeLayoutActions ++ regroupActions) ∨
        (offer.distributed = true ∧ action ∈ distributedActions) ∨
        (offer.place = true ∧ action = .place) := by
  have hall : action ∈ RequestAction.all := by cases action <;> decide
  simp only [RequestActions.operations, mem_filter, hall, true_and, decide_eq_true_eq,
    mem_append]
  by_cases hc : offer.casts = [] <;> cases offer.formats <;> cases offer.layouts <;>
    cases offer.distributed <;> cases offer.place <;> simp [hc, or_assoc]

/-- The capability an offered operation takes. -/
theorem allows_of_offered {op : Operation Args}
    (h : op.action ∈ (a.actions distributed castable layable sparse).operations) :
    (op.isSpread = true → a.allows .distribute = true) ∧
    (op.isPlace = true → a.allows .place = true) ∧
    (op.cast?.isSome = true → a.allows .cast = true) ∧
    (op.isRegroup = true → a.allows .layout = true) ∧
    (op.format?.isSome = true → a.allows .sparseFormat = true) := by
  rw [mem_operations] at h
  simp only [actions, Bool.and_eq_true] at h
  cases op with
  | digit action _ _ =>
    simp [Operation.isSpread, Operation.isPlace, Operation.cast?, Operation.isRegroup,
      Operation.format?]
  | cast _ _ =>
    have : a.allows .cast = true := by
      by_contra hno
      simp [Operation.action, hno, singleNodeLayoutActions, regroupActions,
        distributedActions] at h
    simp [Operation.isSpread, Operation.isPlace, Operation.isRegroup, Operation.format?, this]
  | format _ _ =>
    simp [Operation.action, singleNodeLayoutActions, regroupActions, distributedActions] at h
    simp [Operation.isSpread, Operation.isPlace, Operation.isRegroup, Operation.cast?, h.2]
  | zip _ _ _ | unzip _ _ _ =>
    simp [Operation.action, singleNodeLayoutActions, regroupActions, distributedActions] at h
    simp [Operation.isSpread, Operation.isPlace, Operation.cast?, Operation.format?, h.2]
  | distribute _ _ | replicate _ =>
    simp [Operation.action, singleNodeLayoutActions, regroupActions, distributedActions] at h
    simp [Operation.isPlace, Operation.cast?, Operation.isRegroup, Operation.format?, h.2]
  | place _ _ =>
    simp [Operation.action, singleNodeLayoutActions, regroupActions, distributedActions] at h
    simp [Operation.isSpread, Operation.cast?, Operation.isRegroup, Operation.format?, h.2]

theorem setItem_ne_nil {d : List (String × β)} {key : String} {value : β} :
    setItem d key value ≠ [] := by
  unfold setItem
  split
  · rename_i h
    cases d with
    | nil => simp at h
    | cons _ _ => simp
  · simp

theorem lastOfKeys_eq_nil {items : List (String × β)} :
    lastOfKeys items = [] ↔ items = [] := by
  induction items using List.reverseRecOn with
  | nil => simp [lastOfKeys]
  | append_singleton items item _ =>
    simp [lastOfKeys, foldl_append, setItem_ne_nil]

/-- What a setup refuses of a request made of the members its tools offer: the digit operations of
a distributed task without a grid, where layouts are not allowed. -/
theorem refusal_offered (h : Made (a.actions distributed castable layable sparse) requests) :
    a.refusal repr requests = none ↔
      ¬ (a.allows .layout = false ∧ requests.distributed = false ∧ LaysOut requests) := by
  have hoffered := fun op hop => allows_of_offered (h.operations op hop)
  have hload : requests.startup.load = [] ∨ a.allows .load = true := by
    refine or_iff_not_imp_left.mpr fun hne => ?_
    have := h.load hne
    by_contra hno
    simp [RequestActions.startup, actions, hno] at this
  have hdist : (requests.distributed = false ∧ ∀ op ∈ requests.operations, op.isSpread = false) ∨
      a.allows .distribute = true := by
    refine or_iff_not_imp_right.mpr fun hno => ⟨?_, fun op hop => ?_⟩
    · by_contra hd
      have := h.grid (by simpa using hd)
      simp [RequestActions.startup, actions, hno] at this
    · by_contra hs
      exact hno ((hoffered op hop).1 (by simpa using hs))
  have hplace : (∀ op ∈ requests.operations, op.isPlace = false) ∨ a.allows .place = true := by
    refine or_iff_not_imp_right.mpr fun hno op hop => ?_
    by_contra hs
    exact hno ((hoffered op hop).2.1 (by simpa using hs))
  have hcast : requests.operations.filterMap (·.cast?) = [] ∨ a.allows .cast = true := by
    refine or_iff_not_imp_right.mpr fun hno => filterMap_eq_nil_iff.mpr fun op hop => ?_
    by_contra hs
    exact hno ((hoffered op hop).2.2.1 (Option.isSome_iff_ne_none.mpr hs))
  have hprecision : ∀ c ∈ requests.operations.filterMap (·.cast?), c.2 ∈ a.precisions := by
    intro c hc
    have := h.casts c hc
    simp only [actions] at this
    split at this
    · exact this
    · cases this
  have hformat : requests.formats = [] ∨ a.allows .sparseFormat = true := by
    refine or_iff_not_imp_right.mpr fun hno => lastOfKeys_eq_nil.mpr ?_
    refine filterMap_eq_nil_iff.mpr fun op hop => ?_
    by_contra hs
    exact hno ((hoffered op hop).2.2.2.2 (Option.isSome_iff_ne_none.mpr hs))
  -- a zip or unzip is offered where layouts are allowed only
  have hlaid : (laid requests = [] ∨ a.allows .layout = true) ↔
      ¬ (a.allows .layout = false ∧ requests.distributed = false ∧ LaysOut requests) := by
    cases hl : a.allows .layout with
    | true => simp
    | false =>
      have hregroup : ∀ op ∈ requests.operations, op.isRegroup = false := by
        intro op hop
        by_contra hs
        have := (hoffered op hop).2.2.2.1 (by simpa using hs)
        simp [hl] at this
      simp only [Bool.false_eq_true, or_false, true_and, laid_eq_nil, LaysOut]
      constructor
      · rintro hall ⟨hd, op, hop, hlay⟩
        simp [(hall op hop).2 hlay] at hd
      · intro hno op hop
        refine ⟨hregroup op hop, fun hlay => ?_⟩
        by_contra hd
        exact hno ⟨by simpa using hd, op, hop, hlay⟩
  rw [refusal_eq_none, hlaid]
  exact ⟨fun h => h.2.2.2.2.2.1, fun h =>
    ⟨hload, hdist, hplace, hcast, hprecision, h, hformat⟩⟩

end RequestAllowances

namespace RequestEnv

variable {Raw Language Kernel Args Answer : Type} {env : RequestEnv Raw Language Kernel Args Answer}
variable {kernel : Kernel} {language : Language} {raw : Raw} {requests sent : Requests Args}

/-- The graded datatype of the graded datatype. -/
theorem gradedDatatype_idem (spec : Spec) (configured : String) :
    env.gradedDatatype spec (env.gradedDatatype spec configured) =
      env.gradedDatatype spec configured := by
  unfold gradedDatatype
  split
  · rfl
  · split <;> rfl

/-- The checks read the graded datatype only. -/
theorem requestsRefusal_graded (kernel : Kernel) (language : Language) (requests : Requests Args)
    (configured : String) :
    env.requestsRefusal kernel language requests
        (env.gradedDatatype (env.spec kernel) configured) =
      env.requestsRefusal kernel language requests configured := by
  have hproblem : env.precisionProblemDtypes (env.spec kernel)
        (env.gradedDatatype (env.spec kernel) configured) =
      env.precisionProblemDtypes (env.spec kernel) configured := by
    simp only [precisionProblemDtypes, gradedDatatype_idem]
  have hdtypes : env.kernelDtypes (env.spec kernel)
        (env.gradedDatatype (env.spec kernel) configured) =
      env.kernelDtypes (env.spec kernel) configured := by
    simp only [kernelDtypes, hproblem]
  simp only [requestsRefusal, singleNodeLayoutRefusal, hproblem, hdtypes]

/-- A layout without a grid, on a distributed task whose setup sets the grid and allows no
layouts. -/
def Gridless (env : RequestEnv Raw Language Kernel Args Answer) (kernel : Kernel)
    (language : Language) (requests : Requests Args) : Prop :=
  env.residency kernel language = .distributed ∧ env.allowances.grid = .task ∧
    env.allowances.allows .layout = false ∧ requests.distributed = false ∧ LaysOut requests

/-- What an accepted request went through. -/
theorem accepted_cases {answer : Answer}
    (h : env.serveRequestsCheck kernel language raw = .ok (.accepted answer)) :
    ∃ sent requests, env.validate raw = .ok sent ∧
      env.withTaskGrid kernel language sent = .ok requests ∧
      env.requestsRefusal kernel language requests env.datatype = .ok none := by
  unfold serveRequestsCheck requestsCheck at h
  cases hsent : env.validate raw with
  | error e => simp [hsent, bind, Except.bind] at h
  | ok sent =>
    cases hgrid : env.withTaskGrid kernel language sent with
    | error e => simp [hsent, hgrid, bind, Except.bind, pure, Except.pure] at h
    | ok requests =>
      refine ⟨sent, requests, rfl, hgrid, ?_⟩
      simp only [hsent, hgrid, bind, Except.bind, requestsRefusal_graded] at h
      cases hrefused : env.requestsRefusal kernel language requests env.datatype with
      | error e => simp [hrefused] at h
      | ok refused =>
        cases refused with
        | none => rfl
        | some refusal => simp [hrefused, pure, Except.pure] at h

/-- A request that is not refused is allowed. -/
theorem refusal_of_requestsRefusal {datatype : String}
    (h : env.requestsRefusal kernel language requests datatype = .ok none) :
    env.allowances.refusal env.repr requests = none := by
  unfold requestsRefusal at h
  split at h
  · cases h
  · assumption

/-- The grid a task sets, on a request of its own. -/
theorem withTaskGrid_cases (h : env.withTaskGrid kernel language sent = .ok requests) :
    (¬ (env.residency kernel language = .distributed ∧ env.allowances.grid = .task) ∧
      requests = sent) ∨
    (env.residency kernel language = .distributed ∧ env.allowances.grid = .task ∧
      sent.distributed = false ∧ requests = { sent with
        startup := { sent.startup with grid := some (env.spec kernel).defaultGrid } }) := by
  unfold withTaskGrid at h
  split at h
  next hleft =>
    refine .inl ⟨?_, (Except.ok.inj h).symm⟩
    rintro ⟨hres, hgrid⟩
    rcases hleft with hne | hne
    · exact hne hres
    · exact hne hgrid
  next hright =>
    rw [not_or, not_not, not_not] at hright
    split at h
    · cases h
    next hdist =>
      exact .inr ⟨hright.1, hright.2, by simpa using hdist, (Except.ok.inj h).symm⟩

/-- What the submission checks grant, for the checks that passed before them. -/
theorem granted_iff (hsent : env.validate raw = .ok sent)
    (hgrid : env.withTaskGrid kernel language sent = .ok requests)
    (hrefused : env.requestsRefusal kernel language requests env.datatype = .ok none) :
    (∃ granted, env.submissionChecks kernel language raw = .ok granted) ↔
      env.allowances.refusal env.repr sent = none := by
  cases hallow : env.allowances.refusal env.repr sent with
  | some refusal => simp [submissionChecks, hsent, hallow, bind, Except.bind]
  | none =>
    simp [submissionChecks, hsent, hallow, hgrid, hrefused, bind, Except.bind, pure, Except.pure]

/-- A distributed task of one array over the task's grid of `P`, whose setup allows to distribute
only. -/
def gridTask : RequestEnv (Requests Unit) Unit Unit Unit Unit where
  spec _ := { kernel := "axpy", allowedPrecisions := [], mlTrack := false, initDtypes := [],
              sparseLayouts := false,
              pointers := [{ name := "x", dtype := "float64", shape := some ["N"],
                             isIndex := false }],
              packed := [], mpiNdims := [], torchReference := false, defaultGrid := ["P"] }
  validate := .ok
  allowances := { allow := [.distribute], precisions := [], grid := .task }
  datatype := "float64"
  mlDatatype := ""
  residency _ _ := .distributed
  isPython _ := false
  mpiResidency := .host
  ranks := 4
  repr s := "'" ++ s ++ "'"
  storageOnly _ := false
  problemType := .ok
  canonical s := s
  elementName s := s
  isFloat s := s = "float64"
  isComplex _ := false
  isType _ _ := false
  run _ _ := none
  singleNode _ _ := none
  unplaced ndims _ requests :=
    .ok ((ndims.map (·.1)).filter fun name => requests.operations.all fun
      | .distribute array _ | .replicate array => array ≠ name
      | _ => true)
  describe _ _ _ _ := .ok ()

/-- The array in blocks, dealt over the grid. -/
def blocked : Requests Unit where
  startup := { load := [], grid := none }
  operations := [.digit .block "x" (), .distribute "x" ()]

/-- The array whole on every rank. -/
def replicated : Requests Unit where
  startup := { load := [], grid := none }
  operations := [.replicate "x"]

theorem blocked_gridless : Gridless gridTask () () blocked :=
  ⟨rfl, rfl, rfl, rfl, _, mem_cons_self, rfl⟩

end RequestEnv

end Judge

end HpcAgentBench
