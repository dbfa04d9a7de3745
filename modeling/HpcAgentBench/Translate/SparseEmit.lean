import HpcAgentBench.Translate.Elementwise

/-!
# The loops of sparse products

The nests that are emitted for products with a sparse matrix: one for each storage format, the walk
of the stored entries that the generic products share, and the two passes of a sparse product of two
matrices.  `sparseMatvec` picks the nest of a format, `transposeSparseDesc` the one of a transpose.

A size is a text; where the emitter makes a name of it, it is the name of that text, and where it
parses it, it is `exprOf` of it.
-/

namespace HpcAgentBench

namespace Translate

namespace SparseEmit

/-! ### Building blocks -/

/-- The arguments of a `range`. -/
def rangeCall (start : Option Expr) (stop : Expr) : Expr :=
  match start with
  | some start => .pair start (.pair stop .unit)
  | none => .pair stop .unit

/-- An element. -/
def subscript (base : String) (axes : List Expr) : Expr := .subscript (.name base) (indexSlot axes)

/-- A place to store to. -/
def place (base : String) (axes : List Expr) : Target := .subscript (.name base) (indexSlot axes)

def add (a b : Expr) : Expr := .binOp .add a b

def sub (a b : Expr) : Expr := .binOp .sub a b

def mul (a b : Expr) : Expr := .binOp .mult a b

def one : Expr := .const (.int 1)

def zero : Expr := .const (.float 0)

/-- Where the elements of a row are: from its pointer to the next one. -/
def rowRange (ptr row : String) : Expr :=
  rangeCall (some (subscript ptr [.name row])) (subscript ptr [add (.name row) one])

/-- A comparison. -/
def compare (op : String) (a b : Expr) : Expr := .binOp (.other op) a b

/-- `0 <= e < bound`. -/
def onMatrix (e bound : Expr) : Expr :=
  .boolOp true (compare "<=" (.const (.int 0)) e) (compare "<" e bound)

/-- The physical buffers of a matrix, by role. -/
abbrev Buffers := String → String

/-- Size expressions of a walk of stored entries. -/
structure EntryExtents where
  rows : String
  cols : String
  count : String
  blockRows : String
  blockCols : String

/-- What is known of a sparse matrix. -/
structure SparseArrayDesc where
  name : String
  format : String
  logicalShape : List String
  buffers : Buffers

section Emit

variable (exprOf : String → Expr)

/-- `target[...] = 0` over one extent. -/
def zeroFill (target rows row : String) (rest : Block) : Block :=
  .forRange row (rangeCall none (exprOf rows)) (.assign [place target [.name row]] zero .done) rest

/-- `target[...] = 0` over two extents. -/
def zeroFill2 (target rows cols row col : String) (rest : Block) : Block :=
  .forRange row (rangeCall none (exprOf rows))
    (.forRange col (rangeCall none (exprOf cols))
      (.assign [place target [.name row, .name col]] zero .done) .done) rest

/-! ### Products with a dense vector -/

def expandMatmulCsrDenseVec (target : String) (bufs : Buffers) (rhs nRows : String) : Block :=
  let yi := place target [.name "__i"]
  .forRange "__i" (rangeCall none (.name nRows))
    (.assign [yi] zero
      (.forRange "__k" (rowRange (bufs "indptr") "__i")
        (.augAssign yi .add
          (mul (subscript (bufs "data") [.name "__k"])
            (subscript rhs [subscript (bufs "indices") [.name "__k"]])) .done) .done)) .done

/-- The scratch array of the jagged diagonals. -/
def yPerm : String := "__jds_y_perm"

def expandMatmulJdsDenseVec (target : String) (bufs : Buffers) (rhs nRows nJds : String) : Block :=
  let jdLen := sub (subscript (bufs "jd_ptr") [add (.name "__jd") one])
    (subscript (bufs "jd_ptr") [.name "__jd"])
  let inner := add (subscript (bufs "jd_ptr") [.name "__jd"]) (.name "__r")
  zeroFill exprOf yPerm nRows "__i"
    (.forRange "__jd" (rangeCall none (.name nJds))
      (.forRange "__r" (rangeCall none jdLen)
        (.augAssign (place yPerm [.name "__r"]) .add
          (mul (subscript (bufs "jdiag") [inner])
            (subscript rhs [subscript (bufs "col_ind") [inner]]))
          .done) .done)
      (.forRange "__i" (rangeCall none (.name nRows))
        (.assign [place target [subscript (bufs "perm") [.name "__i"]]]
          (subscript yPerm [.name "__i"]) .done) .done))

def expandMatmulSellCSigmaDenseVec (target : String) (bufs : Buffers)
    (rhs nRows nSlices sliceHeight : String) : Block :=
  let globalR := add (mul (.name "__s") (.name sliceHeight)) (.name "__r")
  let slStart := subscript (bufs "slice_ptr") [.name "__s"]
  let slNext := subscript (bufs "slice_ptr") [add (.name "__s") one]
  let slWidth := .binOp .floorDiv (sub slNext slStart) (.name sliceHeight)
  let e := add (add slStart (mul (.name "__col") (.name sliceHeight))) (.name "__r")
  let colGuard rest :=
    .ifElse (compare "<" (.name "__col") (subscript (bufs "row_len") [.name "__gr"]))
    (.assign [.name "__e"] e
      (.augAssign (.name "__sell_acc") .add
        (mul (subscript (bufs "val") [.name "__e"])
          (subscript rhs [subscript (bufs "col_idx") [.name "__e"]])) .done)) .done rest
  let rowGuard rest := .ifElse (compare "<" (.name "__gr") (.name nRows))
    (.assign [.name "__sell_acc"] zero
      (.forRange "__col" (rangeCall none slWidth) (colGuard .done)
        (.assign [place target [subscript (bufs "perm") [.name "__gr"]]] (.name "__sell_acc")
          .done)))
    .done rest
  .forRange "__s" (rangeCall none (.name nSlices))
    (.forRange "__r" (rangeCall none (.name sliceHeight))
      (.assign [.name "__gr"] globalR (rowGuard .done)) .done) .done

def expandMatmulCscDenseVec (target : String) (bufs : Buffers) (rhs nRows nCols : String) : Block :=
  zeroFill exprOf target nRows "__i"
    (.forRange "__j" (rangeCall none (.name nCols))
      (.forRange "__k" (rowRange (bufs "indptr") "__j")
        (.augAssign (place target [subscript (bufs "indices") [.name "__k"]]) .add
          (mul (subscript (bufs "data") [.name "__k"]) (subscript rhs [.name "__j"])) .done) .done)
      .done)

def expandMatmulCooDenseVec (target : String) (bufs : Buffers) (rhs nRows nnz : String) : Block :=
  zeroFill exprOf target nRows "__i"
    (.forRange "__k" (rangeCall none (.name nnz))
      (.augAssign (place target [subscript (bufs "row") [.name "__k"]]) .add
        (mul (subscript (bufs "data") [.name "__k"])
          (subscript rhs [subscript (bufs "col") [.name "__k"]])) .done) .done)

/-- The walk over the diagonals that both products share. -/
def diaSpmv (target : String) (bufs : Buffers) (rhs nRows nCols nDiags : String)
    (transposed : Bool) : Block :=
  let outIndex := if transposed then "__j" else "__i"
  let xIndex := if transposed then "__i" else "__j"
  zeroFill exprOf target (if transposed then nCols else nRows) outIndex
    (.forRange "__d" (rangeCall none (.name nDiags))
      (.assign [.name "__o"] (subscript (bufs "offsets") [.name "__d"])
        (.forRange "__i" (rangeCall none (.name nRows))
          (.assign [.name "__j"] (add (.name "__i") (.name "__o"))
            (.ifElse (onMatrix (.name "__j") (.name nCols))
              (.augAssign (place target [.name outIndex]) .add
                (mul (subscript (bufs "data") [.name "__d", .name "__j"])
                  (subscript rhs [.name xIndex])) .done) .done .done)) .done)) .done)

def expandMatmulDiaDenseVec (target : String) (bufs : Buffers)
    (rhs nRows nCols nDiags : String) : Block :=
  diaSpmv exprOf target bufs rhs nRows nCols nDiags false

def expandMatmulDiaTDenseVec (target : String) (bufs : Buffers)
    (rhs nRows nCols nDiags : String) : Block :=
  diaSpmv exprOf target bufs rhs nRows nCols nDiags true

/-- The walk over a block's elements, with its block row and column in `__bi` and `__bj`. -/
def blockLoops (target : String) (bufs : Buffers) (rhs blockR blockC : String)
    (transposed : Bool) : Block :=
  let blockRow := add (mul (.name "__bi") (.name blockR)) (.name "__r")
  let blockCol := add (mul (.name "__bj") (.name blockC)) (.name "__c")
  let outIndex := if transposed then blockCol else blockRow
  let xIndex := if transposed then blockRow else blockCol
  .forRange "__r" (rangeCall none (.name blockR))
    (.forRange "__c" (rangeCall none (.name blockC))
      (.augAssign (place target [outIndex]) .add
        (mul (subscript (bufs "data") [.name "__k", .name "__r", .name "__c"])
          (subscript rhs [xIndex])) .done) .done) .done

/-- The walk over the blocks that both products share. -/
def bcsrSpmv (target : String) (bufs : Buffers) (rhs nBlockRows blockR blockC nOut : String)
    (transposed : Bool) : Block :=
  zeroFill exprOf target nOut "__i"
    (.forRange "__bi" (rangeCall none (.name nBlockRows))
      (.forRange "__k" (rowRange (bufs "indptr") "__bi")
        (.assign [.name "__bj"] (subscript (bufs "indices") [.name "__k"])
          (blockLoops target bufs rhs blockR blockC transposed)) .done) .done)

def expandMatmulBcsrDenseVec (target : String) (bufs : Buffers)
    (rhs nBlockRows blockR blockC nRows : String) : Block :=
  bcsrSpmv exprOf target bufs rhs nBlockRows blockR blockC nRows false

def expandMatmulBcsrTDenseVec (target : String) (bufs : Buffers)
    (rhs nBlockRows blockR blockC nCols : String) : Block :=
  bcsrSpmv exprOf target bufs rhs nBlockRows blockR blockC nCols true

def expandMatmulBcooDenseVec (target : String) (bufs : Buffers)
    (rhs nRows nBlocks blockR blockC : String) : Block :=
  zeroFill exprOf target nRows "__i"
    (.forRange "__k" (rangeCall none (.name nBlocks))
      (.assign [.name "__bi"] (subscript (bufs "row") [.name "__k"])
        (.assign [.name "__bj"] (subscript (bufs "col") [.name "__k"])
          (blockLoops target bufs rhs blockR blockC false))) .done)

def expandMatmulEllDenseVec (target : String) (bufs : Buffers) (rhs nRows maxNnz : String) :
    Block :=
  .forRange "__i" (rangeCall none (.name nRows))
    (.assign [place target [.name "__i"]] zero
      (.forRange "__s" (rangeCall none (.name maxNnz))
        (.assign [.name "__col"] (subscript (bufs "indices") [.name "__i", .name "__s"])
          (.ifElse (compare ">=" (.name "__col") (.const (.int 0)))
            (.augAssign (place target [.name "__i"]) .add
              (mul (subscript (bufs "data") [.name "__i", .name "__s"])
                (subscript rhs [.name "__col"])) .done) .done .done)) .done)) .done

/-! ### The walk of the stored entries -/

def bindEntry (row col value : Expr) (inner : Block) : Block :=
  .assign [.name "__er"] row (.assign [.name "__ec"] col (.assign [.name "__ev"] value inner))

def csrEntries (bufs : Buffers) (ext : EntryExtents) (inner : Block) : Block :=
  .forRange "__ei" (rangeCall none (exprOf ext.rows))
    (.forRange "__ek" (rowRange (bufs "indptr") "__ei")
      (bindEntry (.name "__ei") (subscript (bufs "indices") [.name "__ek"])
        (subscript (bufs "data") [.name "__ek"]) inner) .done) .done

def cscEntries (bufs : Buffers) (ext : EntryExtents) (inner : Block) : Block :=
  .forRange "__ej" (rangeCall none (exprOf ext.cols))
    (.forRange "__ek" (rowRange (bufs "indptr") "__ej")
      (bindEntry (subscript (bufs "indices") [.name "__ek"]) (.name "__ej")
        (subscript (bufs "data") [.name "__ek"]) inner) .done) .done

def cooEntries (bufs : Buffers) (ext : EntryExtents) (inner : Block) : Block :=
  .forRange "__ek" (rangeCall none (exprOf ext.count))
    (bindEntry (subscript (bufs "row") [.name "__ek"]) (subscript (bufs "col") [.name "__ek"])
      (subscript (bufs "data") [.name "__ek"]) inner) .done

def bcsrEntries (bufs : Buffers) (ext : EntryExtents) (inner : Block) : Block :=
  let r := exprOf ext.blockRows
  let c := exprOf ext.blockCols
  .forRange "__eb" (rangeCall none (exprOf ext.count))
    (.forRange "__ek" (rowRange (bufs "indptr") "__eb")
      (.assign [.name "__ebj"] (subscript (bufs "indices") [.name "__ek"])
        (.forRange "__ea" (rangeCall none r)
          (.forRange "__ed" (rangeCall none c)
            (bindEntry (add (mul (.name "__eb") r) (.name "__ea"))
              (add (mul (.name "__ebj") c) (.name "__ed"))
              (subscript (bufs "data") [.name "__ek", .name "__ea", .name "__ed"]) inner) .done)
          .done)) .done) .done

def diaEntries (bufs : Buffers) (ext : EntryExtents) (inner : Block) : Block :=
  .forRange "__ed" (rangeCall none (exprOf ext.count))
    (.assign [.name "__eo"] (subscript (bufs "offsets") [.name "__ed"])
      (.forRange "__ei" (rangeCall none (exprOf ext.rows))
        (.assign [.name "__ec"] (add (.name "__ei") (.name "__eo"))
          (.ifElse (onMatrix (.name "__ec") (exprOf ext.cols))
            (.assign [.name "__er"] (.name "__ei")
              (.assign [.name "__ev"] (subscript (bufs "data") [.name "__ed", .name "__ec"]) inner))
            .done .done)) .done)) .done

def ellEntries (bufs : Buffers) (ext : EntryExtents) (inner : Block) : Block :=
  .forRange "__ei" (rangeCall none (exprOf ext.rows))
    (.forRange "__es" (rangeCall none (exprOf ext.count))
      (.assign [.name "__ec"] (subscript (bufs "indices") [.name "__ei", .name "__es"])
        (.ifElse (compare ">=" (.name "__ec") (.const (.int 0)))
          (.assign [.name "__er"] (.name "__ei")
            (.assign [.name "__ev"] (subscript (bufs "data") [.name "__ei", .name "__es"]) inner))
          .done .done)) .done) .done

/-- `inner` for every stored entry; `none` for a format without a walk. -/
def entryLoops (fmt : String) (bufs : Buffers) (ext : EntryExtents) (inner : Block) :
    Option Block :=
  match fmt with
  | "csr" => some (csrEntries exprOf bufs ext inner)
  | "csc" => some (cscEntries exprOf bufs ext inner)
  | "coo" => some (cooEntries exprOf bufs ext inner)
  | "bcsr" => some (bcsrEntries exprOf bufs ext inner)
  | "dia" => some (diaEntries exprOf bufs ext inner)
  | "ell" => some (ellEntries exprOf bufs ext inner)
  | _ => none

def entryMatvec (target fmt : String) (bufs : Buffers) (ext : EntryExtents) (rhs : String) :
    Option Block :=
  (entryLoops exprOf fmt bufs ext (.augAssign (place target [.name "__er"]) .add
    (mul (.name "__ev") (subscript rhs [.name "__ec"])) .done)).map
      (zeroFill exprOf target ext.rows "__zi")

def entryMatvecT (target fmt : String) (bufs : Buffers) (ext : EntryExtents) (rhs : String) :
    Option Block :=
  (entryLoops exprOf fmt bufs ext (.augAssign (place target [.name "__ec"]) .add
    (mul (.name "__ev") (subscript rhs [.name "__er"])) .done)).map
      (zeroFill exprOf target ext.cols "__zi")

def entryMatmat (target fmt : String) (bufs : Buffers) (ext : EntryExtents)
    (rhs outCols : String) : Option Block :=
  (entryLoops exprOf fmt bufs ext
    (.forRange "__c" (rangeCall none (exprOf outCols))
      (.augAssign (place target [.name "__er", .name "__c"]) .add
        (mul (.name "__ev") (subscript rhs [.name "__ec", .name "__c"])) .done) .done)).map
      (zeroFill2 exprOf target ext.rows outCols "__zi" "__zc")

def densify (target fmt : String) (bufs : Buffers) (ext : EntryExtents) : Option Block :=
  (entryLoops exprOf fmt bufs ext
    (.augAssign (place target [.name "__er", .name "__ec"]) .add (.name "__ev") .done)).map
      (zeroFill2 exprOf target ext.rows ext.cols "__zi" "__zc")

/-! ### The dispatch -/

section Dispatch

variable (table : ShapeTable)

/-- The extent of a buffer along an axis. -/
def bufferExtent (bufs : Buffers) (role : String) (axis : ℕ) : Option String :=
  (table (bufs role)).bind fun shape => shape[axis]?

def entryExtents (desc : SparseArrayDesc) : EntryExtents :=
  let rows := desc.logicalShape.headD "0"
  let cols := desc.logicalShape.getD 1 "0"
  let bufs := desc.buffers
  if desc.format = "bcsr" then
    ⟨rows, cols, "(" ++ (bufferExtent table bufs "indptr" 0).getD "1" ++ ") - 1",
      (bufferExtent table bufs "data" 1).getD "1", (bufferExtent table bufs "data" 2).getD "1"⟩
  else
    let count := match desc.format with
      | "coo" => bufferExtent table bufs "data" 0
      | "dia" => bufferExtent table bufs "data" 0
      | "ell" => bufferExtent table bufs "data" 1
      | _ => none
    ⟨rows, cols, count.getD "0", "1", "1"⟩

/-- One less than a length. -/
def lengthLessOne (length : Option String) : String :=
  match length with
  | some length => "(" ++ length ++ ") - 1"
  | none => "0"

/-- The product with a dense vector, by format; `none` where it is refused. -/
def sparseMatvec (tempArrays : ShapeTable) (desc : SparseArrayDesc) (dense temp : String)
    (transposed : Bool) : Option Block :=
  let bufs := desc.buffers
  let nRows := desc.logicalShape.headD "0"
  let nCols := desc.logicalShape.getD 1 "0"
  let extent := bufferExtent table bufs
  match desc.format with
  | "csr" => some (expandMatmulCsrDenseVec temp bufs dense nRows)
  | "csc" => some (expandMatmulCscDenseVec exprOf temp bufs dense nRows nCols)
  | "coo" =>
    some (expandMatmulCooDenseVec exprOf temp bufs dense nRows ((extent "data" 0).getD "0"))
  | "dia" =>
    let nDiags := (extent "data" 0).getD "0"
    -- A transpose comes with the shape reversed: the matrix's own rows are the second extent.
    some (if transposed then expandMatmulDiaTDenseVec exprOf temp bufs dense nCols nRows nDiags
      else expandMatmulDiaDenseVec exprOf temp bufs dense nRows nCols nDiags)
  | "ell" =>
    if transposed then
      entryMatvecT exprOf temp desc.format bufs
        (entryExtents table ⟨desc.name, desc.format, [nCols, nRows], bufs⟩) dense
    else some (expandMatmulEllDenseVec temp bufs dense nRows ((extent "data" 1).getD "0"))
  | "jds" =>
    if (tempArrays yPerm).getD [nRows] ≠ [nRows] then none
    else some (expandMatmulJdsDenseVec exprOf temp bufs dense nRows
      (lengthLessOne (extent "jd_ptr" 0)))
  | "bcsr" =>
    let nBlockRows := lengthLessOne (extent "indptr" 0)
    let r := (extent "data" 1).getD "1"
    let c := (extent "data" 2).getD "1"
    some (if transposed then expandMatmulBcsrTDenseVec exprOf temp bufs dense nBlockRows r c nRows
      else expandMatmulBcsrDenseVec exprOf temp bufs dense nBlockRows r c nRows)
  | "bcoo" =>
    let nBlocks := ((extent "row" 0).or (extent "data" 0)).getD "0"
    some (expandMatmulBcooDenseVec exprOf temp bufs dense nRows nBlocks
      ((extent "data" 1).getD "1") ((extent "data" 2).getD "1"))
  | "sell_c_sigma" =>
    some (expandMatmulSellCSigmaDenseVec temp bufs dense nRows
      (lengthLessOne (extent "slice_ptr" 0)) "C")
  | _ => none

/-- The descriptor of `A.T`, and whether the access is transposed; `none` where there is none. -/
def transposeSparseDesc (d : SparseArrayDesc) : Option (SparseArrayDesc × Bool) :=
  let swapped := d.logicalShape.reverse
  match d.format with
  | "csr" => some (⟨d.name, "csc", swapped, d.buffers⟩, false)
  | "csc" => some (⟨d.name, "csr", swapped, d.buffers⟩, false)
  | "coo" => some (⟨d.name, "coo", swapped, fun role =>
      if role = "row" then d.buffers "col" else if role = "col" then d.buffers "row"
      else d.buffers role⟩, false)
  | "dia" => some (⟨d.name, "dia", swapped, d.buffers⟩, true)
  | "bcsr" => some (⟨d.name, "bcsr", swapped, d.buffers⟩, true)
  | "ell" => some (⟨d.name, "ell", swapped, d.buffers⟩, true)
  | _ => none

/-- `A @ x`: the shape of the temporary, and what fills it. -/
def hoistMatvec (tempArrays : ShapeTable) (d : SparseArrayDesc) (dense temp : String) :
    Option (List String × Block) :=
  (sparseMatvec exprOf table tempArrays d dense temp false).map
    fun stmts => ([d.logicalShape.headD "0"], stmts)

/-- `A.T @ x`: the shape of the temporary, and what fills it. -/
def hoistMatvecT (tempArrays : ShapeTable) (d : SparseArrayDesc) (dense temp : String) :
    Option (List String × Block) :=
  (transposeSparseDesc d).bind fun td =>
    (sparseMatvec exprOf table tempArrays td.1 dense temp td.2).map
      fun stmts => ([td.1.logicalShape.headD "0"], stmts)

end Dispatch

end Emit

/-! ### The product of two sparse matrices -/

def mark : String := "__csr_mark"

def acc : String := "__csr_acc"

def minusOne : Expr := .const (.int (-1))

/-- The columns of one row of `B`, marked and counted. -/
def p1Kk (rhs : Buffers) : Block :=
  .forRange "__kk" (rowRange (rhs "indptr") "__j")
    (.assign [.name "__k"] (subscript (rhs "indices") [.name "__kk"])
      (.ifElse (compare "!=" (subscript mark [.name "__k"]) (.name "__i"))
        (.assign [place mark [.name "__k"]] (.name "__i")
          (.augAssign (.name "__nnz") .add one .done)) .done .done)) .done

/-- One row of the symbolic pass. -/
def pass1Row (lhs rhs out : Buffers) (nCols : String) : Block :=
  .forRange "__k" (rangeCall none (.name nCols)) (.assign [place mark [.name "__k"]] minusOne .done)
    (.assign [.name "__nnz"] (.const (.int 0))
      (.forRange "__jj" (rowRange (lhs "indptr") "__i")
        (.assign [.name "__j"] (subscript (lhs "indices") [.name "__jj"]) (p1Kk rhs))
        (.assign [place (out "indptr") [add (.name "__i") one]]
          (add (subscript (out "indptr") [.name "__i"]) (.name "__nnz")) .done)))

/-- The products with one row of `B`, accumulated, and their columns linked. -/
def p2Kk (rhs : Buffers) : Block :=
  .forRange "__kk" (rowRange (rhs "indptr") "__j")
    (.assign [.name "__k"] (subscript (rhs "indices") [.name "__kk"])
      (.augAssign (place acc [.name "__k"]) .add
        (mul (.name "__v") (subscript (rhs "data") [.name "__kk"]))
        (.ifElse (compare "==" (subscript mark [.name "__k"]) minusOne)
          (.assign [place mark [.name "__k"]] (.name "__head")
            (.assign [.name "__head"] (.name "__k")
              (.augAssign (.name "__len") .add one .done))) .done .done))) .done

/-- The columns of the list stored, and their cells reset. -/
def drainLoop (out : Buffers) : Block :=
  .forRange "__d" (rangeCall none (.name "__len"))
    (.assign [place (out "indices") [.name "__pos"]] (.name "__head")
      (.assign [place (out "data") [.name "__pos"]] (subscript acc [.name "__head"])
        (.augAssign (.name "__pos") .add one
          (.assign [.name "__next"] (subscript mark [.name "__head"])
            (.assign [place mark [.name "__head"]] minusOne
              (.assign [place acc [.name "__head"]] zero
                (.assign [.name "__head"] (.name "__next") .done))))))) .done

/-- One row of the numeric pass. -/
def pass2Row (lhs rhs out : Buffers) (nCols : String) : Block :=
  .forRange "__k" (rangeCall none (.name nCols))
    (.assign [place acc [.name "__k"]] zero (.assign [place mark [.name "__k"]] minusOne .done))
    (.assign [.name "__head"] (.const (.int (-2)))
      (.assign [.name "__len"] (.const (.int 0))
        (.forRange "__jj" (rowRange (lhs "indptr") "__i")
          (.assign [.name "__j"] (subscript (lhs "indices") [.name "__jj"])
            (.assign [.name "__v"] (subscript (lhs "data") [.name "__jj"]) (p2Kk rhs)))
          (.assign [.name "__pos"] (subscript (out "indptr") [.name "__i"]) (drainLoop out)))))

def expandMatmulCsrCsr (lhs rhs out : Buffers) (nRows nCols : String) : Block :=
  .assign [place (out "indptr") [.const (.int 0)]] (.const (.int 0))
    (.forRange "__i" (rangeCall none (.name nRows)) (pass1Row lhs rhs out nCols)
      (.forRange "__i" (rangeCall none (.name nRows)) (pass2Row lhs rhs out nCols) .done))

end SparseEmit

end Translate

end HpcAgentBench
