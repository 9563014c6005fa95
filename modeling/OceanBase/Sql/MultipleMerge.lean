import OceanBase.Common.RowFuse
import OceanBase.Lib.Iterate

/-!
# Merging the rows of several children (`ob_multiple_scan_merge.cpp`, `ob_multiple_get_merge.cpp`)

Both operators assemble the row of each key from the rows that their children, oldest first, have
for it. The scan merge takes the rows off a heap of children, ordered by row key and child number;
a child whose row belongs to the next key is parked until the next call. The get merge takes one
row of each child at a time.

What a scan merge still has to process is a sorted list of rows (`ScanMerge.Pending`); the groups of
equal keys are what its calls fuse, one or more a call.

The order of the heap's array is not modelled: `pop_heap` takes the least context.
-/

namespace OceanBase.Sql

open Common Lib

/-- A row (`ObRow`) with its row key. -/
structure KeyRow (K : Type) (n : Nat) where
  rowkey : K
  row : Row n

/-- The row an operator assembles (`cur_row_`); the cells of its key may not be set yet. -/
structure CurRow (K : Type) (n : Nat) where
  rowkey : Option K
  row : Row n

variable {K : Type} {n : Nat}

/-- What is seen of an assembled row: its key and its cells. -/
def CurRow.view (row : CurRow K n) : Option K × (Fin n → RowObj) := (row.rowkey, row.row.cells)

/-- The default with which the operators reset the assembled row. -/
def defaultObj (isUpsRow : Bool) : RowObj := if isUpsRow then .nop else .value .null

/-! ### The scan merge -/

/-- `ChildContext`: a child with its current row and what it still delivers. -/
structure ChildContext (K : Type) (n : Nat) where
  seq : Nat
  row : KeyRow K n
  rest : List (KeyRow K n)

/-- `CmpFunc`: the first context comes after the second one. -/
def cmpFunc [LinearOrder K] (a b : ChildContext K n) : Bool :=
  b.row.rowkey < a.row.rowkey || (a.row.rowkey = b.row.rowkey && b.seq < a.seq)

/-- `std::pop_heap` with `CmpFunc`. -/
def popHeap [LinearOrder K] :
    List (ChildContext K n) → Option (ChildContext K n × List (ChildContext K n))
  | [] => none
  | c :: cs =>
    match popHeap cs with
    | none => some (c, [])
    | some (least, rest) =>
      if cmpFunc c least then some (least, c :: rest) else some (c, least :: rest)

/-- `ObMultipleScanMerge`. -/
structure ScanMerge (K : Type) (n : Nat) where
  contexts : List (ChildContext K n)
  lastChildContext : Option (ChildContext K n)
  curRow : CurRow K n
  isCurRowValid : Bool

namespace ScanMerge

/-- The contexts of the children that deliver a row. -/
def openContexts (children : List (List (KeyRow K n))) : List (ChildContext K n) :=
  children.zipIdx.filterMap fun
    | ([], _) => none
    | (row :: rest, seq) => some ⟨seq, row, rest⟩

/-- `open`; the assembled row gets the row description of the first child. -/
def «open» (children : List (List (KeyRow K n))) (hasFlag : Bool) : Except Ret (ScanMerge K n) :=
  if children.isEmpty then .error .notInit
  else
    .ok {
      contexts := openContexts children
      lastChildContext := none
      curRow := ⟨none, ⟨if hasFlag then some (.ext .rowDoesNotExist) else none,
        fun _ => .value .null⟩⟩
      isCurRowValid := false }

/-- The child to go on with: the parked one, or the top of the heap. -/
def nextChild [LinearOrder K] (s : ScanMerge K n) : Option (ChildContext K n × ScanMerge K n) :=
  match s.lastChildContext with
  | some child => some (child, { s with lastChildContext := none })
  | none => (popHeap s.contexts).map fun (child, rest) => (child, { s with contexts := rest })

variable (s : ScanMerge K n)

/-- Fetch the child's next row and put the child back into the heap. -/
def pushChild (child : ChildContext K n) : ScanMerge K n :=
  match child.rest with
  | [] => s
  | row :: rest => { s with contexts := ⟨child.seq, row, rest⟩ :: s.contexts }

/-- Take over the outcome of fusing a row of the key; an emptied row is no row. -/
def setCurRow (isUpsRow : Bool) (rowkey : K) (fused : Fused n) :
    ScanMerge K n :=
  if !isUpsRow && fused.isRowEmpty then
    { s with curRow := ⟨some rowkey, fused.result.reset (defaultObj isUpsRow)⟩
             isCurRowValid := false }
  else { s with curRow := ⟨some rowkey, fused.result⟩, isCurRowValid := true }

/-- The loop of `get_next_row`. Each round uses up a row, which bounds the rounds. -/
def fuseLoop [LinearOrder K] (arith : Arith) (isUpsRow : Bool) :
    Nat → ScanMerge K n → Except Ret (ScanMerge K n)
  | 0, _ => .error .errUnexpected
  | fuel + 1, s =>
    match s.nextChild with
    | none => .ok s
    | some (child, s) =>
      if !s.isCurRowValid || s.curRow.rowkey = some child.row.rowkey then
        match fuseRow arith child.row.row ⟨s.curRow.row, !s.isCurRowValid⟩ isUpsRow with
        | .error ret => .error ret
        | .ok fused =>
          fuseLoop arith isUpsRow fuel
            ((s.setCurRow isUpsRow child.row.rowkey fused).pushChild child)
      else .ok { s with lastChildContext := some child }

/-- The rows that the children have not handed to the assembled row, with their child's number. -/
def rows : List (Nat × KeyRow K n) :=
  (s.lastChildContext.toList ++ s.contexts).flatMap fun c =>
    (c.row :: c.rest).map fun row => (c.seq, row)

def getNextRow [LinearOrder K] (arith : Arith) (isUpsRow : Bool) (s : ScanMerge K n) :
    Except Ret (CurRow K n × ScanMerge K n) :=
  let start := { s with
    isCurRowValid := false
    curRow := ⟨s.curRow.rowkey, s.curRow.row.reset (defaultObj isUpsRow)⟩ }
  match fuseLoop arith isUpsRow (s.rows.length + 1) start with
  | .error ret => .error ret
  | .ok s => if s.isCurRowValid then .ok (s.curRow, s) else .error .iterEnd

end ScanMerge

/-! ### The get merge -/

/-- The row key's cells after fusing a row: set from every row whose cells are copied or
applied. -/
def fuseRowkey (row : KeyRow K n) (rowkey : Option K) : Option K :=
  match row.row.flag with
  | none | some (.ext .newAdd) | some (.ext .valid) => some row.rowkey
  | _ => rowkey

/-- `ObMultipleGetMerge`: what the children still deliver, and the assembled row. -/
structure GetMerge (K : Type) (n : Nat) where
  children : List (List (KeyRow K n))
  curRow : CurRow K n

namespace GetMerge

/-- Fuse the next row of each child but the first; they have to have one. -/
def fuseChildren (arith : Arith) (isUpsRow : Bool) :
    List (List (KeyRow K n)) → Option K × Fused n →
      Except Ret ((Option K × Fused n) × List (List (KeyRow K n)))
  | [], cur => .ok (cur, [])
  | [] :: _, _ => .error .error
  | (row :: rest) :: children, (rowkey, s) =>
    match fuseRow arith row.row s isUpsRow with
    | .error ret => .error ret
    | .ok s =>
      match fuseChildren arith isUpsRow children (fuseRowkey row rowkey, s) with
      | .error ret => .error ret
      | .ok (cur, children) => .ok (cur, rest :: children)

/-- One round of `get_next_row` over all children. At the end of the first child the loop that
looks for rows of the others stops after the second one. -/
def fuseRound (arith : Arith) (isUpsRow : Bool) (s : GetMerge K n) :
    Except Ret ((Option K × Fused n) × List (List (KeyRow K n))) :=
  match s.children with
  | [] => .error .notInit
  | [] :: (_ :: _) :: _ => .error .errUnexpected
  | [] :: _ => .error .iterEnd
  | (row :: rest) :: children =>
    match fuseRow arith row.row ⟨s.curRow.row.reset (defaultObj isUpsRow), true⟩ isUpsRow with
    | .error ret => .error ret
    | .ok fused =>
      match fuseChildren arith isUpsRow children (some row.rowkey, fused) with
      | .error ret => .error ret
      | .ok (cur, children) => .ok (cur, rest :: children)

/-- The loop of `get_next_row`. Each round uses up a row of the first child. -/
def fuseLoop (arith : Arith) (isUpsRow : Bool) :
    Nat → GetMerge K n → Except Ret (CurRow K n × GetMerge K n)
  | 0, _ => .error .errUnexpected
  | fuel + 1, s =>
    match fuseRound arith isUpsRow s with
    | .error ret => .error ret
    | .ok ((rowkey, fused), children) =>
      let s := ⟨children, ⟨rowkey, fused.result⟩⟩
      if isUpsRow || !fused.isRowEmpty then .ok (s.curRow, s)
      else fuseLoop arith isUpsRow fuel s

def getNextRow (arith : Arith) (isUpsRow : Bool) (s : GetMerge K n) :
    Except Ret (CurRow K n × GetMerge K n) :=
  fuseLoop arith isUpsRow ((s.children.headD []).length + 1) s

end GetMerge

end OceanBase.Sql
