import OceanBase.Common.Define
import OceanBase.Lib.Run

/-!
# The callbacks of a read-write session (`ob_sessionctx_factory.cpp`, `ob_session_mgr.cpp`,
`ob_session_mgr.h`, `ob_lock_mgr.cpp`, `ob_memtable.cpp`, `ob_table_engine.cpp`)

A session keeps a callback for the uncommitted info of each row it writes. While the statement is
running it is in the prepare list; a statement that commits moves it to the callback list, a
statement that is rolled back invokes it. The end of the session invokes the callback list from its
front to its back. The first callback ever added, that of the lock info, releases the locks of all
rows, so it comes last.

A row is what the callbacks look at: its lock and its current uncommitted info. Whether an
allocation succeeds is up to the call. A state records what happened in `log`.
-/

namespace OceanBase.UpdateServer

open Lib

/-- `CallbackMgr`: callbacks and prepared callbacks, the latest first. -/
structure CallbackMgr (ε : Type) where
  callbackList : List ε
  prepareList : List ε

namespace CallbackMgr

variable {ε : Type}

variable (m : CallbackMgr ε)

def addCallbackInfo (alloc : Bool) (cbi : ε) : Except Ret (CallbackMgr ε) :=
  if alloc then .ok { m with callbackList := cbi :: m.callbackList } else .error .memOverflow

def prepareCallbackInfo (alloc : Bool) (cbi : ε) :
    Except Ret (CallbackMgr ε) :=
  if alloc then .ok { m with prepareList := cbi :: m.prepareList } else .error .memOverflow

/-- The loop of `commit_prepare_list`. -/
def spliced : List ε → List ε → List ε
  | [], callbackList => callbackList
  | cbi :: prepareList, callbackList => spliced prepareList (cbi :: callbackList)

def commitPrepareList : CallbackMgr ε :=
  ⟨spliced m.prepareList m.callbackList, []⟩

theorem spliced_eq (prepareList callbackList : List ε) :
    spliced prepareList callbackList = prepareList.reverse ++ callbackList := by
  induction prepareList generalizing callbackList with
  | nil => rfl
  | cons cbi prepareList ih => simp [spliced, ih]

end CallbackMgr

/-- What a session does that others can see. Uncommitted infos and statements are numbered; an
`attach` is the uncommitted info of a row coming into being, with the statement it belongs to. -/
inductive SessionEvent (κ : Type) where
  | lock (row : κ)
  | unlock (row : κ)
  | attach (uci : Nat) (row : κ) (stmt : Nat)
  | sessionCallback (uci : Nat) (row : κ) (rollback : Bool)
  | commitStmt (stmt : Nat)
  | rollbackStmt (stmt : Nat)
  | ended (rollback : Bool)
  deriving DecidableEq

/-- The callbacks in the lists of a session: `RCLockInfo`, and `TEValueSessionCallback` for an
uncommitted info. -/
inductive SessionCallback where
  | lockInfo
  | teValue (uci : Nat)
  deriving DecidableEq

/-- What the callbacks look at in a `TEValue`. An uncommitted info is known by its session and its
number there. -/
structure LockedRow where
  rowLock : Option Nat
  curUcInfo : Option (Nat × Nat)

/-- `RWSessionCtx` with the rows it works on. `lockInfo` is the `callback_mgr_` of the lock info and
`ucInfos` has the row of each uncommitted info the session allocated. -/
structure SessionCtx (κ : Type) where
  callbackMgr : CallbackMgr SessionCallback
  lockInfo : CallbackMgr κ
  ucInfos : List κ
  rows : κ → LockedRow
  commitDone : Bool
  stmt : Nat
  log : List (SessionEvent κ)

namespace SessionCtx

/-- A session after `init_lock_info`. -/
def start {κ : Type} (rows : κ → LockedRow) : SessionCtx κ :=
  ⟨⟨[.lockInfo], []⟩, ⟨[], []⟩, [], rows, false, 0, []⟩

variable {κ : Type} [DecidableEq κ] (sd : Nat) (s : SessionCtx κ)

variable (row : κ)

def setLock (owner : Option Nat) : SessionCtx κ :=
  { s with rows := Function.update s.rows row { s.rows row with rowLock := owner } }

def setUcInfo (uci : Option (Nat × Nat)) : SessionCtx κ :=
  { s with rows := Function.update s.rows row { s.rows row with curUcInfo := uci } }

def emit (events : List (SessionEvent κ)) : SessionCtx κ :=
  { s with log := s.log ++ events }

/-- `is_exclusive_locked_by`. -/
def isLockedBy : Prop := (s.rows row).rowLock = some sd

instance : Decidable (s.isLockedBy sd row) :=
  inferInstanceAs (Decidable (_ = _))

/-- `RowExclusiveUnlocker::unlock`. -/
def unlock (row : κ) : SessionCtx κ :=
  if s.isLockedBy sd row then (s.setLock row none).emit [.unlock row] else s

/-- `RCLockInfo::on_write_begin`. -/
def onWriteBegin (alloc : Bool) : SessionCtx κ × Ret :=
  if s.isLockedBy sd row then (s, .success)
  else if (s.rows row).rowLock = none then
    let s := (s.setLock row (some sd)).emit [.lock row]
    match s.lockInfo.addCallbackInfo alloc row with
    | .ok lockInfo => ({ s with lockInfo := lockInfo }, .success)
    | .error err => (s.unlock sd row, err)
  else (s, .errExclusiveLockConflict)

/-- The part of `get_cur_value_` on the row's uncommitted info. -/
def getUcInfo (alloc prepare : Bool) : SessionCtx κ × Ret :=
  match (s.rows row).curUcInfo with
  | some _ => (s, .success)
  | none =>
    if alloc then
      match s.callbackMgr.prepareCallbackInfo prepare (.teValue s.ucInfos.length) with
      | .ok callbackMgr =>
        (({ s with callbackMgr := callbackMgr, ucInfos := s.ucInfos ++ [row] } :
          SessionCtx κ).setUcInfo row (some (sd, s.ucInfos.length)) |>.emit
            [.attach s.ucInfos.length row s.stmt], .success)
      | .error err => (s, err)
    else (s, .memOverflow)

/-- Which allocations of a write succeed: those for the lock callback, the uncommitted info and its
callback. -/
structure Allocs where
  lock : Bool
  ucInfo : Bool
  prepare : Bool

/-- `get_cur_value_` for a row that is in the table. -/
def getCurValue (isRowChanged : Bool) (allocs : Allocs) :
    SessionCtx κ × Ret :=
  match if isRowChanged then s.onWriteBegin sd row allocs.lock else (s, .success) with
  | (s, .success) => s.getUcInfo sd row allocs.ucInfo allocs.prepare
  | (s, err) => (s, err)

variable (rollback : Bool)

/-- `TEValueSessionCallback::cb_func` under the row's lock. -/
def linkRow (s : SessionCtx κ) (row : κ) (uci : Nat) : SessionCtx κ :=
  (if (s.rows row).curUcInfo = some (sd, uci) then s.setUcInfo row none else s).emit
    [.sessionCallback uci row rollback]

/-- `TEValueSessionCallback::cb_func`: takes the row's lock for the time if the session does not
have it. -/
def sessionCallback (s : SessionCtx κ) (uci : Nat) : SessionCtx κ :=
  match s.ucInfos[uci]? with
  | none => s
  | some row =>
    if s.isLockedBy sd row then s.linkRow sd rollback row uci
    else (((s.setLock row (some sd)).emit [.lock row]).linkRow sd rollback row uci).unlock sd row

/-- `IRowUnlocker::cb_func`. -/
def rowUnlocker : SessionCtx κ := (s.setUcInfo row none).unlock sd row

/-- `RCLockInfo::cb_func`: the `callback` of its own callbacks. -/
def lockInfoCallback : SessionCtx κ :=
  let s := s.lockInfo.callbackList.foldl (rowUnlocker sd) s
  { s with lockInfo := { s.lockInfo with callbackList := [] } }

/-- `cb_func` of a callback of the session. -/
def cbFunc (s : SessionCtx κ) : SessionCallback → SessionCtx κ
  | .lockInfo => s.lockInfoCallback sd
  | .teValue uci => s.sessionCallback sd rollback uci

/-- `CallbackMgr::callback` of the session. -/
def callback (s : SessionCtx κ) : SessionCtx κ :=
  let s := s.callbackMgr.callbackList.foldl (cbFunc sd rollback) s
  { s with callbackMgr := { s.callbackMgr with callbackList := [] } }

/-- `rollback_prepare_list` of the session. -/
def rollbackPrepareList : SessionCtx κ :=
  let s := s.callbackMgr.prepareList.foldl (cbFunc sd true) s
  { s with callbackMgr := { s.callbackMgr with prepareList := [] } }

/-- `commit_prepare_list` of the session. -/
def commitPrepareList : SessionCtx κ :=
  { s with callbackMgr := s.callbackMgr.commitPrepareList }

def commitStmt : SessionCtx κ :=
  { s.commitPrepareList.emit [.commitStmt s.stmt] with stmt := s.stmt + 1 }

def rollbackStmt : SessionCtx κ :=
  { (s.rollbackPrepareList sd).emit [.rollbackStmt s.stmt] with stmt := s.stmt + 1 }

/-- `RWSessionCtx::end`. -/
def endSession (needRollback : Bool) (s : SessionCtx κ) : SessionCtx κ :=
  if s.commitDone then s
  else { ((s.emit [.ended needRollback]).commitPrepareList.callback sd needRollback) with
    commitDone := true }

/-- What happens until the session ends. `lockRow` is a row that is locked and not written, `other`
a step of the other sessions. -/
inductive Action (κ : Type) where
  | lockRow (row : κ) (alloc : Bool)
  | write (row : κ) (isRowChanged : Bool) (allocs : Allocs)
  | commitStmt
  | rollbackStmt
  | other (row : κ) (value : LockedRow)

/-- A cell that does not begin a row is written to the row of the cell before. Another session does
not touch the rows the session has locked. -/
def step : Action κ → Option (SessionCtx κ)
  | .lockRow row alloc => some (s.onWriteBegin sd row alloc).1
  | .write row isRowChanged allocs =>
    if isRowChanged ∨ s.isLockedBy sd row then
      some (s.getCurValue sd row isRowChanged allocs).1
    else none
  | .commitStmt => some s.commitStmt
  | .rollbackStmt => some (s.rollbackStmt sd)
  | .other row value =>
    if ¬s.isLockedBy sd row ∧ value.rowLock ≠ some sd then
      some { s with rows := Function.update s.rows row value }
    else none

/-! ### The log -/

def isCallbackOf (uci : Nat) : SessionEvent κ → Bool
  | .sessionCallback u _ _ => u == uci
  | _ => false

/-- Whether the session has the row's lock after one more event. -/
def heldAfter (has : Bool) : SessionEvent κ → Bool
  | .lock r => has || decide (r = row)
  | .unlock r => has && !decide (r = row)
  | _ => has

/-- Whether the session has the row's lock after the events. -/
def held : List (SessionEvent κ) → Bool := List.foldl (heldAfter row) false

/-- The session had the row's lock when the uncommitted info came into being, and has not released
it since. -/
def Unreleased (log : List (SessionEvent κ)) (uci : Nat) (row : κ) : Prop :=
  ∃ past n later, log = past ++ .attach uci row n :: later ∧ held row past = true ∧
    .unlock row ∉ later

/-- A session callback is invoked before the row's lock is released. -/
def UnderLock (past : List (SessionEvent κ)) : SessionEvent κ → Prop
  | .sessionCallback uci row _ => Unreleased past uci row
  | _ => True

end SessionCtx

end OceanBase.UpdateServer
