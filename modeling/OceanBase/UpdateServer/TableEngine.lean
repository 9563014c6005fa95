import OceanBase.Common.Object

/-!
# Rows of the memtable (`ob_table_engine.cpp`, `ob_sessionctx_factory.h`)

A row of the memtable (`TEValue`) is a linked list of nodes, one for each committed mutation of
the row, from `list_head` to `list_tail`. The nodes of the session that writes the row hang on the
row's uncommitted info (`TEValueUCInfo`) until the session ends. Compactions leave the lists they
replace on the undo list.

The memory of a row is modelled by a heap of its own: pointers to nodes are indices into it. A
node's buffer is modelled by the cells that can be read from it.
-/

namespace OceanBase.UpdateServer

open Common

/-- `INT64_MAX`, the modify time of a node that is not committed. -/
def int64Max : Int := 2 ^ 63 - 1

/-- `ObCellInfoNode`. -/
structure CellInfoNode where
  modifyTime : Int
  next : Option Nat
  buf : List Cell
  deriving DecidableEq, Repr

/-- `TEValueUCInfo`: the uncommitted nodes of a row. `INVALID_CELL_INFO_NODE`, which says that the
statement has not marked the list yet, is the outer `none` of `ucListTailBeforeStmt`. -/
structure TEValueUCInfo where
  sessionDescriptor : Nat
  ucCellInfoCnt : BitVec 16
  ucCellInfoSize : BitVec 16
  ucListHead : Option Nat
  ucListTail : Option Nat
  ucListTailBeforeStmt : Option (Option Nat)
  deriving DecidableEq, Repr

/-- `TEValueUCInfo::reset`, for the session that allocates it. -/
def TEValueUCInfo.init (sessionDescriptor : Nat) : TEValueUCInfo where
  sessionDescriptor := sessionDescriptor
  ucCellInfoCnt := 0
  ucCellInfoSize := 0
  ucListHead := none
  ucListTail := none
  ucListTailBeforeStmt := none

/-- `TEValue`, with the nodes it owns. `undoList` holds the heads of the undo nodes, and `rowLock`
the session that has the row's exclusive lock. -/
structure TEValue where
  heap : List CellInfoNode
  undoList : List (Option Nat)
  cellInfoCnt : BitVec 16
  cellInfoSize : BitVec 16
  listHead : Option Nat
  listTail : Option Nat
  curUcInfo : Option TEValueUCInfo
  rowLock : Option Nat
  deriving DecidableEq, Repr

namespace TEValue

/-- `reset`. -/
def empty : TEValue := ⟨[], [], 0, 0, none, none, none, none⟩

def setNext (heap : List CellInfoNode) (p : Option Nat) (next : Option Nat) :
    List CellInfoNode :=
  match p with
  | none => heap
  | some a => heap.modify a fun n => { n with next := next }

end TEValue

/-! ### Reading a node -/

/-- What a reader asks for: all columns or some of them, and the columns of the row key or
not. -/
structure ReadParam where
  columnFilter : Option (Column → Bool)
  rowKey : List Obj
  isKey : ∀ o ∈ rowKey, o.isKey = true

namespace ReadParam

def all : ReadParam := ⟨none, [], by simp⟩

/-- The columns of the row key, from the `i`-th on. -/
def keysFrom (i : Nat) : List Obj → List (Column × Obj)
  | [] => []
  | o :: os => (.key i, o) :: keysFrom (i + 1) os

variable (p : ReadParam)

def rowKeyCells : List Cell :=
  (keysFrom 0 p.rowKey).map fun v => Cell.value v.1 v.2

/-- `ext_list_` of `ObCellInfoNodeIterableWithCTime`, behind a modify time. -/
def extList (modifyTime : Int) : List Cell :=
  .value .createTime (.createTime modifyTime) ::
    (p.rowKeyCells ++ if p.columnFilter.isSome then [.nop] else [])

/-- A cell of a node, with the list that follows a modify time. -/
def expand (c : Cell) : List Cell :=
  c :: match c.modifyTime? with
    | some t => p.extList t
    | none => []

/-- `column_exist`: row marks pass every filter. -/
def columnExist : Cell → Bool
  | .value column _ =>
    match p.columnFilter with
    | some exist => exist column
    | none => true
  | _ => true

end ReadParam

/-- The cells that `ObCellInfoNodeIterableWithCTime` yields for a node: its modify time first. -/
def CellInfoNode.cells (p : ReadParam) (n : CellInfoNode) : List Cell :=
  (.value .modifyTime (.modifyTime n.modifyTime) :: n.buf).flatMap p.expand

def cellInfoSizeUnit : Nat := 1024

/-- `get_varchar_length_kb_`. -/
def varcharLengthKb : Obj → BitVec 16
  | .varchar s => BitVec.ofNat 16 ((s.length + cellInfoSizeUnit - 1) / cellInfoSizeUnit)
  | _ => 0

/-- `get_varchar_length_kb_` of a cell's value. -/
def cellLengthKb : Cell → BitVec 16
  | .value _ o => varcharLengthKb o
  | _ => 0

/-- `get_size_and_cnt`: the number of cells, and the size of their values. -/
def CellInfoNode.getSizeAndCnt (n : CellInfoNode) : BitVec 16 × BitVec 16 :=
  (BitVec.ofNat 16 n.buf.length, (n.buf.map cellLengthKb).sum)

namespace TEValue

/-! ### The end of a statement and of a session -/

/-- `TEValueStmtCallback::cb_func` on the row's uncommitted info. -/
def stmtCallback (rollback : Bool) (v : TEValue) : TEValue :=
  match v.curUcInfo with
  | none => v
  | some uci =>
    if rollback then
      match uci.ucListTailBeforeStmt with
      | none => v
      | some before =>
        { v with
            heap := setNext v.heap before none
            curUcInfo := some { uci with
              ucListHead := if before = none then none else uci.ucListHead
              ucListTail := before
              ucListTailBeforeStmt := none } }
    else { v with curUcInfo := some { uci with ucListTailBeforeStmt := none } }

/-- A node with its commit time, unless the writer has supplied one. -/
def retime (transId : Int) (n : CellInfoNode) : CellInfoNode :=
  if n.modifyTime = int64Max then { n with modifyTime := transId } else n

/-- The loop of the session callback that gives the nodes from `p` to `tail` their commit
time. -/
def stamp (transId : Int) (tail : Option Nat) :
    Nat → Option Nat → List CellInfoNode → List CellInfoNode
  | 0, _, heap => heap
  | _ + 1, none, heap => heap
  | fuel + 1, some a, heap =>
    let heap' := heap.modify a (retime transId)
    if tail = some a then heap'
    else stamp transId tail fuel (heap[a]?.bind CellInfoNode.next) heap'

/-- `TEValueSessionCallback::cb_func` on the row's uncommitted info, for a session that holds the
row's lock: link its nodes behind `list_tail`, or cut them off. -/
def sessionCallback (rollback : Bool) (transId : Int) (v : TEValue) : TEValue :=
  match v.curUcInfo with
  | none => v
  | some uci =>
    if rollback then
      { v with
          heap := setNext v.heap v.listTail none
          curUcInfo := none }
    else
      let heap := stamp transId uci.ucListTail v.heap.length uci.ucListHead v.heap
      { v with
          heap := setNext heap v.listTail uci.ucListHead
          listHead := if v.listTail = none then uci.ucListHead else v.listHead
          listTail := if uci.ucListTail = none then v.listTail else uci.ucListTail
          cellInfoCnt := v.cellInfoCnt + uci.ucCellInfoCnt
          cellInfoSize := v.cellInfoSize + uci.ucCellInfoSize
          curUcInfo := none }

/-- `IRowUnlocker::cb_func`: the row's exclusive lock is released. -/
def unlock (v : TEValue) : TEValue := { v with curUcInfo := none, rowLock := none }

end TEValue

end OceanBase.UpdateServer
