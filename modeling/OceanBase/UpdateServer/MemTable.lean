import OceanBase.Common.RowCompaction
import OceanBase.UpdateServer.TableEngine

/-!
# Reading, writing and compacting a row (`ob_memtable.cpp`)

A reader starts at the row's list head, or, when the list starts behind its snapshot, at the head
of an undo node, and goes along the links until it meets a modify time above its snapshot. The
session that holds the row's lock links its own nodes behind the list's tail, where other readers
meet them too.

`merge_` reads the row with the writer's snapshot, and puts one node in the place of the nodes it
has read. A loop along the links that does not come to an end has no result.
-/

namespace OceanBase.UpdateServer

open Common

/-! ### Reading -/

/-- `SessionType`. -/
inductive SessionType where
  | readOnly
  | readWrite
  deriving DecidableEq, Repr

/-- What a read takes from its session: the session that `merge_` reads with has no valid
descriptor. -/
structure ReadSession where
  type : SessionType
  transId : Int
  descriptor : Option Nat
  deriving DecidableEq, Repr

namespace TEValue

variable (v : TEValue)

/-- The node a pointer leads to. -/
def node? (p : Option Nat) : Option CellInfoNode := p.bind fun a => v.heap[a]?

variable (s : ReadSession)

/-- `read_uncommited_data_`: the session holds the row's lock. -/
def readUncommitted : Bool :=
  s.descriptor.isSome && decide (v.rowLock = s.descriptor)

/-- The search of `get_list_head_` through the undo list: the first head that the session may
see. -/
def findUndo (v : TEValue) (transId : Int) : List (Option Nat) → Option Nat
  | [] => none
  | head :: undoList =>
    match v.node? head with
    | some n => if transId ≥ n.modifyTime then head else findUndo v transId undoList
    | none => findUndo v transId undoList

/-- The part of `get_list_head_` that looks the undo list up: for a read-only session whose snapshot
is behind the list head. -/
def undoHead : Option Nat :=
  match s.type, v.node? v.listHead with
  | .readOnly, some n =>
    if s.transId < n.modifyTime then v.findUndo s.transId v.undoList else none
  | _, _ => none

/-- `get_list_head_`: where the session starts to read. The session that holds the lock links its
uncommitted nodes on the way. -/
def getListHead : TEValue × Option Nat :=
  match v.undoHead s with
  | some a => (v, some a)
  | none =>
    match v.curUcInfo with
    | none => (v, v.listHead)
    | some uci =>
      if v.readUncommitted s then
        match v.listHead with
        | none => (v, uci.ucListHead)
        | some a => ({ v with heap := setNext v.heap v.listTail uci.ucListHead }, some a)
      else (v, v.listHead)

/-- `trans_end_`: the cell is a modify time above the snapshot. -/
def transEnd (transId : Int) (uncommitted : Bool) (c : Cell) : Bool :=
  match c.modifyTime? with
  | some t => !uncommitted && decide (t > transId)
  | none => false

/-- The cells that `MemTableGetIter` reads from the node at a pointer on, and the node it is at
when it stops. -/
def scan (p : ReadParam) (isEnd : Cell → Bool) (heap : List CellInfoNode) :
    Nat → Option Nat → Option (List Cell × Option Nat)
  | _, none => some ([], none)
  | 0, some _ => none
  | fuel + 1, some a =>
    match heap[a]? with
    | none => none
    | some n =>
      let cells := n.cells p
      if cells.any isEnd then some (cells.takeWhile fun c => !isEnd c, some a)
      else (scan p isEnd heap fuel n.next).map fun r => (cells ++ r.1, r.2)

/-- The time `INT64_MAX` of an own node is shown as the session's trans id. -/
def ownTime (transId : Int) : Cell → Cell
  | .value column (.modifyTime t) =>
    .value column (.modifyTime (if t = int64Max then transId else t))
  | .value column (.createTime t) =>
    .value column (.createTime (if t = int64Max then transId else t))
  | c => c

/-- `MemTableGetIter`: `set_` and then `next_cell` to the end. The result is the row, in which
uncommitted nodes may be linked now, the cells and the node the iterator is at. -/
def read (p : ReadParam) :
    Option (TEValue × List Cell × Option Nat) :=
  let uncommitted := v.readUncommitted s
  match v.getListHead s with
  | (v, head) =>
    match v.node? head with
    | none => some (v, [.rowDoesNotExist], none)
    | some n =>
      if !uncommitted && decide (n.modifyTime > s.transId) then
        some (v, [.rowDoesNotExist], none)
      else
        (scan p (transEnd s.transId uncommitted) v.heap (v.heap.length + 1) head).map fun r =>
          let cells := r.1.filter p.columnExist
          (v, if uncommitted then cells.map (ownTime s.transId) else cells, r.2)

/-- A read through `ObRowCompaction`. -/
def readCompact (arith : Arith) (v : TEValue) (s : ReadSession) (p : ReadParam) :
    Option (TEValue × Except Ret (List Cell)) :=
  (v.read s p).map fun r => (r.1, CompactRow.compact arith r.2.1)

/-! ### Compaction -/

/-- The largest modify time among the cells, or 0. -/
def maxModifyTime (cells : List Cell) : Int :=
  cells.foldl (fun mtime c => max mtime (c.modifyTime?.getD 0)) 0

/-- The loop of `merge_` that looks for the node in front of `stop`. -/
def timeBefore (heap : List CellInfoNode) (stop : Option Nat) :
    Nat → Option Nat → Option Int
  | _, none => some 0
  | 0, some _ => none
  | fuel + 1, some a =>
    match heap[a]? with
    | none => none
    | some n => if n.next = stop then some n.modifyTime else timeBefore heap stop fuel n.next

/-- The modify time of the compacted node: the largest that is left among its cells, or that of the
last node it replaces when no time is left. -/
def mergedTime (cells : List Cell) (rest : Option Nat) : Option Int :=
  let mtime := maxModifyTime cells
  if mtime = 0 then timeBefore v.heap rest (v.heap.length + 1) v.listHead else some mtime

/-- The loop of `merge_` that counts the cells of the nodes that are left. -/
def countNodes (heap : List CellInfoNode) (stop : Option Nat) :
    Nat → Option Nat → BitVec 16 × BitVec 16 → Option (BitVec 16 × BitVec 16)
  | _, none, acc => some acc
  | 0, some _, _ => none
  | fuel + 1, some a, acc =>
    if stop = some a then some acc
    else
      match heap[a]? with
      | none => none
      | some n =>
        countNodes heap stop fuel n.next
          (acc.1 + n.getSizeAndCnt.1, acc.2 + n.getSizeAndCnt.2)

/-- The tail of the list behind `merge_`: the new node at `head`, unless committed nodes are left
behind it. -/
def mergedTail (head : Nat) (rest : Option Nat) : Option Nat :=
  match rest with
  | none => some head
  | some _ =>
    match v.curUcInfo with
    | none => v.listTail
    | some uci => if rest = uci.ucListHead then some head else v.listTail

/-- The row that `merge_` puts in place: a new node with `cells` in front of the node at `rest`. -/
def replaceHead (mtime : Int) (cells : List Cell) (rest : Option Nat) :
    Option TEValue :=
  let head := v.heap.length
  let heap := v.heap ++ [⟨mtime, rest, cells⟩]
  let tail := v.mergedTail head rest
  let counts := (BitVec.ofNat 16 cells.length, (cells.map cellLengthKb).sum)
  (countNodes heap tail (heap.length + 1) rest counts).map fun counts =>
    { v with
        heap := heap
        undoList := v.listHead :: v.undoList
        cellInfoCnt := counts.1
        cellInfoSize := counts.2
        listHead := some head
        listTail := tail }

/-- `merge_`, for a session with snapshot `transId`. -/
def merge (arith : Arith) (transId : Int) (v : TEValue) : Option (TEValue × Ret) := do
  let (_, cells, rest) ← v.read ⟨.readWrite, transId, none⟩ ReadParam.all
  match CompactRow.compact arith cells with
  | .error err => return (v, err)
  | .ok cells =>
    if cells.any (fun c => decide (c = .rowDoesNotExist)) then return (v, .eAgain)
    else if cells = [] then return (v, .success)
    else
      let mtime ← v.mergedTime cells rest
      let v ← v.replaceHead mtime cells rest
      return (v, .success)

end TEValue

/-! ### Writing -/

/-- A cell of a mutation, by what `update_value_` does with it. -/
inductive WriteCell where
  | nop
  | delRow
  | value (column : Column) (obj : Obj)
  deriving DecidableEq, Repr

/-- `ObUpsCompactCellWriter` with its `ObCTimeRecorder`: the cells of the node to be written. -/
structure CompactCellWriter where
  cells : List Cell
  isRowDeleted : Bool
  ctime : Int
  deriving DecidableEq, Repr

namespace CompactCellWriter

/-- `reset`. -/
def init : CompactCellWriter := ⟨[], false, int64Max⟩

/-- `ObCTimeRecorder::add`. -/
def addCTime (w : CompactCellWriter) (c : WriteCell) : Int :=
  let ctime := if w.isRowDeleted then int64Max else w.ctime
  let curTime :=
    match c with
    | .value _ (.createTime t) => t
    | .value _ (.modifyTime t) => t
    | _ => int64Max
  if curTime < ctime then curTime else ctime

/-- The cell of `build_mtime_cell_`, where `update_value_` writes it: a row that the mutation has
deleted and goes on writing gets the session's trans id as a modify time. -/
def mtimeCell (transId : Int) (w : CompactCellWriter) : List Cell :=
  if w.isRowDeleted ∧ transId ≠ 0 then [.value .modifyTime (.modifyTime transId)] else []

/-- What `update_value_` does to the writer. -/
def add (transId : Int) (w : CompactCellWriter) : WriteCell → CompactCellWriter
  | .nop => w
  | .delRow => ⟨w.cells ++ w.mtimeCell transId ++ [.delRow], true, w.addCTime .delRow⟩
  | .value column obj =>
    ⟨w.cells ++ w.mtimeCell transId ++ [.value column obj], false,
      w.addCTime (.value column obj)⟩

end CompactCellWriter

/-- What `update_value_` does to the counters of the uncommitted info. -/
def TEValueUCInfo.count (transId : Int) (w : CompactCellWriter) (uci : TEValueUCInfo) :
    WriteCell → TEValueUCInfo
  | .nop => uci
  | .delRow =>
    { uci with
        ucCellInfoCnt := uci.ucCellInfoCnt + BitVec.ofNat 16 (w.mtimeCell transId).length + 1 }
  | .value _ obj =>
    { uci with
        ucCellInfoCnt := uci.ucCellInfoCnt + BitVec.ofNat 16 (w.mtimeCell transId).length + 1
        ucCellInfoSize := uci.ucCellInfoSize + varcharLengthKb obj }

def updateValue (transId : Int) (c : WriteCell) (uci : TEValueUCInfo) (w : CompactCellWriter) :
    TEValueUCInfo × CompactCellWriter :=
  (uci.count transId w c, w.add transId c)

namespace TEValue

/-- `copy_cells_`: append a node to the uncommitted list. -/
def copyCells (v : TEValue) (uci : TEValueUCInfo) (w : CompactCellWriter) : TEValue :=
  let heap := v.heap ++ [⟨w.ctime, none, w.cells⟩]
  let node := some v.heap.length
  { v with
      heap := setNext heap uci.ucListTail node
      curUcInfo := some { uci with
        ucListHead := if uci.ucListTail = none then node else uci.ucListHead
        ucListTail := node } }

/-- `RCLockInfo::on_write_begin`: take the row's lock unless the session has it. -/
def onWriteBegin (sd : Nat) (v : TEValue) : Except Ret TEValue :=
  match v.rowLock with
  | none => .ok { v with rowLock := some sd }
  | some owner => if owner = sd then .ok v else .error .errExclusiveLockConflict

/-- The part of `get_cur_value_` on the row's uncommitted info: allocate it if there is none, and
mark its tail when the statement comes to the row. -/
def getUcInfo (sd : Nat) (isRowChanged : Bool) (v : TEValue) : TEValueUCInfo :=
  let uci := v.curUcInfo.getD (.init sd)
  if isRowChanged ∧ uci.ucListTailBeforeStmt = none then
    { uci with ucListTailBeforeStmt := some uci.ucListTail }
  else uci

/-- `get_cur_value_` for a row that is in the table. -/
def getCurValue (sd : Nat) (isRowChanged : Bool) (v : TEValue) : Except Ret TEValue :=
  (if isRowChanged then v.onWriteBegin sd else .ok v).map fun v =>
    { v with curUcInfo := some (v.getUcInfo sd isRowChanged) }

def maxRowSize : Int := (2 ^ 21 - 512 * 1024) / cellInfoSizeUnit

section Session

variable (arith : Arith) (maxRowCellNum : Int) (sd : Nat) (transId : Int) (p : ReadParam)

/-- `is_row_too_long_`: when the counters say that the row may be too long, it is read to see
whether its compacted form is. -/
def isRowTooLong (v : TEValue) : Option (TEValue × Bool) :=
  let ucSize := (v.curUcInfo.map TEValueUCInfo.ucCellInfoSize).getD 0
  if maxRowSize > v.cellInfoSize.toInt + ucSize.toInt then some (v, false)
  else
    (v.readCompact arith ⟨.readWrite, transId, some sd⟩ p).map fun
      | (v, .error _) => (v, true)
      | (v, .ok cells) =>
        (v, decide ¬ (maxRowSize > (cells.map fun c => (cellLengthKb c).toInt).sum))

/-- The condition under which `ob_sem_handler_` compacts the row. -/
def needsMerge (v : TEValue) : Bool :=
  decide (maxRowCellNum < v.cellInfoCnt.toInt) || decide (maxRowSize < v.cellInfoSize.toInt)

/-- The part of `ob_sem_handler_` that compacts the row. -/
def mergeIfNeeded (v : TEValue) : Option TEValue :=
  if v.needsMerge maxRowCellNum then (v.merge arith transId).map Prod.fst else some v

/-- The part of `ob_sem_handler_` behind the last cell of a row: the cells become a node. -/
def finishRow (isRowFinished : Bool) (v : TEValue) (w : CompactCellWriter) :
    TEValue × CompactCellWriter :=
  if isRowFinished then (v.copyCells (v.getUcInfo sd false) w, .init) else (v, w)

/-- `ob_sem_handler_` for one cell of a row. -/
def obSemHandler (c : WriteCell) (isRowChanged isRowFinished : Bool)
    (v : TEValue) (w : CompactCellWriter) : Option ((TEValue × CompactCellWriter) × Ret) :=
  match v.getCurValue sd isRowChanged with
  | .error err => some ((v, w), err)
  | .ok v =>
    let u := updateValue transId c (v.getUcInfo sd false) w
    let v := { v with curUcInfo := some u.1 }
    (if isRowChanged ∨ isRowFinished then v.mergeIfNeeded arith maxRowCellNum transId
      else some v).bind fun v =>
        let r := v.finishRow sd isRowFinished u.2
        (r.1.isRowTooLong arith sd transId p).map fun t =>
          ((t.1, r.2), if t.2 then .sizeOverflow else .success)

/-- The loop of `set` over the cells of one row. -/
def setCells (isRowChanged : Bool) : List WriteCell → TEValue → CompactCellWriter →
    Option (TEValue × Ret)
  | [], v, _ => some (v, .success)
  | [c], v, w =>
    (v.obSemHandler arith maxRowCellNum sd transId p c isRowChanged true w).map fun r =>
      (r.1.1, r.2)
  | c :: cells, v, w => do
    let ((v, w), ret) ← v.obSemHandler arith maxRowCellNum sd transId p c isRowChanged false w
    if ret = .success then setCells false cells v w else return (v, ret)

/-- `set` for the mutation of one row. -/
def set (cells : List WriteCell) (v : TEValue) : Option (TEValue × Ret) :=
  setCells arith maxRowCellNum sd transId p true cells v .init

end Session

end TEValue

end OceanBase.UpdateServer
