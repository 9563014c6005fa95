import OceanBase.Lib.Run
import OceanBase.UpdateServer.Mutation

/-!
# A row over time

Sessions write a row, read it, end their statements and commit or roll back, each while it holds
the row's exclusive lock. A `RowState` is a row between such calls, together with what they amount
to: the committed mutations in commit order, and the mutations of the session that holds the
lock, by statement.
-/

namespace OceanBase.UpdateServer

open Common Lib

/-- `rollback_stmt` on a row: when the statement has allocated the row's uncommitted info, the
session callback drops it. -/
def TEValue.rollbackStmt (prepared : Bool) (v : TEValue) : TEValue :=
  let v := v.stmtCallback true
  if prepared then v.sessionCallback true 0 else v

/-- A row, and what was written to it. -/
structure RowState where
  /-- the row -/
  value : TEValue
  /-- the row's uncommitted info is on the prepare list of its session -/
  prepared : Bool
  /-- the trans id of the session that holds the lock, until it commits -/
  snapshot : Int
  /-- the committed mutations -/
  history : List Committed
  /-- the mutations of the committed statements of the session that holds the lock -/
  statements : List (List WriteCell)
  /-- the mutations of its current statement -/
  current : List (List WriteCell)

/-- What a session can do to a row. -/
inductive RowAction where
  | write (sd : Nat) (snapshot : Int) (cells : List WriteCell)
  | ownRead (sd : Nat) (p : ReadParam)
  | merge (sd : Nat)
  | commitStmt (sd : Nat)
  | rollbackStmt (sd : Nat)
  | commit (sd : Nat) (transId : Int)
  | rollback (sd : Nat)

namespace RowState

def init : RowState := ⟨.empty, false, 0, [], [], []⟩

variable (s : RowState)

/-- A trans id that a session can commit under: positive, above those committed before it and
above the session's own snapshot, which was published before it. -/
def NextTransId (transId : Int) : Prop :=
  0 < transId ∧ s.snapshot < transId ∧ ∀ c ∈ s.history, c.transId < transId

instance (transId : Int) : Decidable (s.NextTransId transId) :=
  inferInstanceAs (Decidable (_ ∧ _ ∧ _))

/-- All calls but the first write of a session need the row's lock. -/
def Enabled : RowAction → Prop
  | .write sd snapshot cells =>
    cells ≠ [] ∧ (s.value.rowLock = none ∨ s.value.rowLock = some sd ∧ snapshot = s.snapshot)
  | .ownRead sd _ | .merge sd | .commitStmt sd | .rollbackStmt sd | .rollback sd =>
    s.value.rowLock = some sd
  | .commit sd transId => s.value.rowLock = some sd ∧ s.NextTransId transId

instance : (a : RowAction) → Decidable (s.Enabled a)
  | .write .. | .commit .. => inferInstanceAs (Decidable (_ ∧ _))
  | .ownRead .. | .merge .. | .commitStmt .. | .rollbackStmt .. | .rollback .. =>
    inferInstanceAs (Decidable (_ = _))

section Step

variable (arith : Arith) (maxRowCellNum : Int) (rowKey : ReadParam)

/-- A write by a session that has the lock or can have it; a write that fails takes its statement
back. -/
def write (s : RowState) (sd : Nat) (snapshot : Int) (cells : List WriteCell) :
    Option RowState :=
  (s.value.set arith maxRowCellNum sd snapshot rowKey cells).map fun r =>
    let prepared := s.prepared || s.value.curUcInfo.isNone
    if r.2 = .success then
      { s with
          value := r.1
          prepared := prepared
          snapshot := snapshot
          current := s.current ++ [cells] }
    else
      { s with
          value := r.1.rollbackStmt prepared
          prepared := false
          snapshot := snapshot
          current := [] }

def exec (s : RowState) : RowAction → Option RowState
  | .write sd snapshot cells => s.write arith maxRowCellNum rowKey sd snapshot cells
  | .ownRead sd p =>
    (s.value.read ⟨.readWrite, s.snapshot, some sd⟩ p).map fun r => { s with value := r.1 }
  | .merge _ => (s.value.merge arith s.snapshot).map fun r => { s with value := r.1 }
  | .commitStmt _ =>
    some { s with
      value := s.value.stmtCallback false
      prepared := false
      statements := s.statements ++ s.current
      current := [] }
  | .rollbackStmt _ =>
    some { s with
      value := s.value.rollbackStmt s.prepared
      prepared := false
      current := [] }
  | .commit _ transId =>
    some { s with
      value := (s.value.sessionCallback false transId).unlock
      prepared := false
      history := s.history ++ (s.statements ++ s.current).map (Committed.mk transId)
      statements := []
      current := [] }
  | .rollback _ =>
    some { s with
      value := (s.value.sessionCallback true 0).unlock
      prepared := false
      statements := []
      current := [] }

def step (s : RowState) (a : RowAction) : Option RowState :=
  if s.Enabled a then s.exec arith maxRowCellNum rowKey a else none

end Step

end RowState

/-- What a reader with snapshot `transId` should see of a row: the fold of the mutations committed
up to its snapshot. -/
def specRead (arith : Arith) (p : ReadParam) (transId : Int) (history : List Committed) :
    Except Ret (List Cell) :=
  if history.filter (fun c => decide (c.transId ≤ transId)) = [] then .ok [.rowDoesNotExist]
  else
    CompactRow.compact arith
      (((rawHistory (history.filter fun c => decide (c.transId ≤ transId))).flatMap p.expand).filter
        p.columnExist)

end OceanBase.UpdateServer
