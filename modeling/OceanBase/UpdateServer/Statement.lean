import OceanBase.Lib.Run
import OceanBase.UpdateServer.RowOps

/-!
# The statements of a session (`ob_sessionctx_factory.h`, `ob_table_engine.cpp`, `ob_memtable.cpp`)

A statement of a read-write session writes rows and ends in `commit_stmt` or in `rollback_stmt`.
A statement that is rolled back should leave nothing in the uncommitted infos of the rows and in the
data of the session.

The uncommitted nodes of a row are a list here, and `uc_list_tail_before_stmt` is the number of
nodes up to it. Whether a row is empty is part of a write, as is whether the write fails and how far
it comes. `RestoresCounts` says when it makes no difference that `rollback_stmt` does not restore
the counters of a row.
-/

namespace OceanBase.UpdateServer

open Common Lib List Option

/-! ### The uncommitted info of a row -/

/-- `TEValueUCInfo`: the nodes, how many of them were there before the statement once it has come
to the row, and the counters. -/
structure UcInfo where
  ucList : List (Int × List Cell)
  ucListTailBeforeStmt : Option Nat
  ucCellInfoCnt : BitVec 16
  ucCellInfoSize : BitVec 16
  deriving DecidableEq

namespace UcInfo

/-- `reset`. -/
def init : UcInfo := ⟨[], none, 0, 0⟩

/-- The part of `get_cur_value_` that marks the tail of the list. -/
def markTail (uci : UcInfo) : UcInfo :=
  { uci with ucListTailBeforeStmt := some (uci.ucListTailBeforeStmt.getD uci.ucList.length) }

/-- Cells and their size are counted. -/
def addCount (uci : UcInfo) (d : BitVec 16 × BitVec 16) : UcInfo :=
  { uci with
      ucCellInfoCnt := uci.ucCellInfoCnt + d.1
      ucCellInfoSize := uci.ucCellInfoSize + d.2 }

def copyCells (uci : UcInfo) (w : CompactCellWriter) : UcInfo :=
  { uci with ucList := uci.ucList ++ [(w.ctime, w.cells)] }

/-- `TEValueStmtCallback::cb_func`. -/
def stmtCallback (rollback : Bool) (uci : UcInfo) : UcInfo :=
  if rollback then
    { uci with
        ucList := uci.ucList.take (uci.ucListTailBeforeStmt.getD uci.ucList.length)
        ucListTailBeforeStmt := none }
  else { uci with ucListTailBeforeStmt := none }

end UcInfo

open UcInfo

/-- What `update_value_` adds to the counters. -/
def countCell (transId : Int) (w : CompactCellWriter) (c : WriteCell) : BitVec 16 × BitVec 16 :=
  let uci := (TEValueUCInfo.init 0).count transId w c
  (uci.ucCellInfoCnt, uci.ucCellInfoSize)

/-- What the cells of a row add to the counters. -/
def countCells (transId : Int) : CompactCellWriter → List WriteCell → BitVec 16 × BitVec 16
  | _, [] => 0
  | w, c :: cells => countCell transId w c + countCells transId (w.add transId c) cells

/-! ### Writes -/

/-- What a statement adds to the mutator. -/
inductive MutatorCell (κ : Type) where
  | dmlType (dmlType : Nat)
  | cell (row : κ) (cell : WriteCell)
  | rowBarrier
  deriving DecidableEq

/-- A row that a call of `set` writes. -/
structure RowWrite (κ : Type) where
  row : κ
  isEmpty : Bool
  cells : List WriteCell
  nonempty : cells ≠ []

/-- A row in which a call of `set` fails: `cells` have been counted by then, and the column of the
modify time once more when `build_mtime_cell_` is what failed. The node may have been written, and
`written` of the entries have come to the mutator. -/
structure FailedRow (κ : Type) extends RowWrite κ where
  mtimeFailed : Bool
  isRowFinished : Bool
  written : Nat

/-- How a call of `set` ends. -/
inductive SetEnd (κ : Type) where
  | success
  /-- Some row could not be locked or got no uncommitted info. -/
  | failed
  /-- `add_stmt_callback` failed for a row. -/
  | callbackFailed (row : κ)
  | rowFailed (write : FailedRow κ)

/-- A call of `set`. The one that takes a mutator has no `dmlType`. -/
structure SetCall (κ : Type) where
  transId : Int
  dmlType : Option Nat
  rows : List (RowWrite κ)
  ret : SetEnd κ

/-- A statement: its calls of `set`, and whether it commits. -/
structure Stmt (κ : Type) where
  calls : List (SetCall κ)
  commit : Bool

section Writes

variable {κ : Type}

/-- What a written row adds to the mutator. -/
def RowWrite.mutatorCells (dmlType : Option Nat) (write : RowWrite κ) : List (MutatorCell κ) :=
  dmlType.toList.map .dmlType ++ write.cells.map (.cell write.row) ++ [.rowBarrier]

/-- What a row adds to its counters. -/
def RowWrite.counts (transId : Int) (write : RowWrite κ) : BitVec 16 × BitVec 16 :=
  countCells transId .init write.cells

/-- What the row adds to its counters before the call fails. -/
def FailedRow.counts (transId : Int) (write : FailedRow κ) : BitVec 16 × BitVec 16 :=
  write.toRowWrite.counts transId + if write.mtimeFailed then (1, 0) else 0

variable [DecidableEq κ]

/-- What the call adds to the counters of `row`. -/
def SetCall.counts (call : SetCall κ) (row : κ) : BitVec 16 × BitVec 16 :=
  (call.rows.map fun write => if write.row = row then write.counts call.transId else 0).sum +
    match call.ret with
    | .rowFailed write => if write.row = row then write.counts call.transId else 0
    | _ => 0

/-- What the statement adds to the counters of `row`. -/
def Stmt.counts (stmt : Stmt κ) (row : κ) : BitVec 16 × BitVec 16 :=
  (stmt.calls.map fun call => call.counts row).sum

end Writes

/-! ### The session -/

/-- What `mark_stmt` remembers. -/
structure StmtData (κ χ : Type) where
  mutator : List (MutatorCell κ)
  affectedRows : Int
  ucRowCounter : Int
  ucChecksum : χ

/-- The part of `RWSessionCtx` that statements work on, with the uncommitted infos of its rows.
The two lists are the rows with a statement callback and those with a prepared session callback. -/
structure StmtCtx (κ χ : Type) extends StmtData κ χ where
  ucInfo : κ → Option UcInfo
  stmtCallbackList : List κ
  prepareList : List κ
  mark : StmtData κ χ

/-- The counters and the checksum of a call of `set`. -/
structure SetCounters (χ : Type) where
  totalRowCounter : Int
  newRowCounter : Int
  bc : χ

variable {κ χ : Type}

namespace StmtCtx

def start (checksum : χ) : StmtCtx κ χ where
  mutator := []
  affectedRows := 0
  ucRowCounter := 0
  ucChecksum := checksum
  ucInfo _ := none
  stmtCallbackList := []
  prepareList := []
  mark := ⟨[], 0, 0, checksum⟩

def markStmt (s : StmtCtx κ χ) : StmtCtx κ χ :=
  { s with mark := s.toStmtData, stmtCallbackList := [] }

variable [DecidableEq κ]

/-- `get_cur_value_` for the first cell of a row, up to the counters. `added` says whether
`add_stmt_callback` succeeds, if it is called. -/
def getCurValue (added : Bool) (row : κ) (s : StmtCtx κ χ) : StmtCtx κ χ :=
  let uci := (s.ucInfo row).getD .init
  { s with
      ucInfo := Function.update s.ucInfo row (some uci.markTail)
      prepareList := if s.ucInfo row = none then row :: s.prepareList else s.prepareList
      stmtCallbackList :=
        if uci.ucListTailBeforeStmt = none ∧ added then row :: s.stmtCallbackList
        else s.stmtCallbackList }

def modify (row : κ) (f : UcInfo → UcInfo) (s : StmtCtx κ χ) : StmtCtx κ χ :=
  { s with ucInfo := Function.update s.ucInfo row ((s.ucInfo row).map f) }

def addCells (cells : List (MutatorCell κ)) (s : StmtCtx κ χ) : StmtCtx κ χ :=
  { s with mutator := s.mutator ++ cells }

def writeRow (transId : Int) (dmlType : Option Nat) (write : RowWrite κ) (s : StmtCtx κ χ) :
    StmtCtx κ χ :=
  ((s.getCurValue true write.row).modify write.row fun uci =>
    (uci.addCount (write.counts transId)).copyCells (written transId write.cells)).addCells
      (write.mutatorCells dmlType)

/-- The cells of a row, up to the one that fails. -/
def failRow (transId : Int) (dmlType : Option Nat) (write : FailedRow κ) (s : StmtCtx κ χ) :
    StmtCtx κ χ :=
  ((s.getCurValue true write.row).modify write.row fun uci =>
    let uci := uci.addCount (write.counts transId)
    if write.isRowFinished then uci.copyCells (written transId write.cells) else uci).addCells
      ((write.mutatorCells dmlType).take write.written)

variable (checksumKey : χ → κ → χ) (checksumCell : χ → WriteCell → χ)

/-- The counters and the checksum after a row. -/
def countRow (write : RowWrite κ) (s : StmtCtx κ χ) (n : SetCounters χ) : SetCounters χ where
  totalRowCounter := n.totalRowCounter + 1
  newRowCounter :=
    if s.ucInfo write.row = none ∧ write.isEmpty then n.newRowCounter + 1 else n.newRowCounter
  bc := (write.cells.filter (· ≠ .nop)).foldl checksumCell (checksumKey n.bc write.row)

/-- The loop of `MemTable::set` over the rows. -/
def setRows (transId : Int) (dmlType : Option Nat) :
    List (RowWrite κ) → StmtCtx κ χ → SetCounters χ → StmtCtx κ χ × SetCounters χ
  | [], s, n => (s, n)
  | write :: rows, s, n =>
    setRows transId dmlType rows (s.writeRow transId dmlType write)
      (countRow checksumKey checksumCell write s n)

/-- `MemTable::set`. -/
def set (s : StmtCtx κ χ) (call : SetCall κ) : StmtCtx κ χ :=
  let (s, n) := setRows checksumKey checksumCell call.transId call.dmlType call.rows s
    ⟨0, 0, s.ucChecksum⟩
  match call.ret with
  | .success =>
    { s with
        -- the call that takes a mutator does not set the affected rows
        affectedRows := if call.dmlType = none then s.affectedRows else n.totalRowCounter
        ucRowCounter := s.ucRowCounter + n.newRowCounter
        ucChecksum := n.bc }
  | .failed => s
  | .callbackFailed row => s.getCurValue false row
  | .rowFailed write => s.failRow call.transId call.dmlType write

def stmtCallbacks (rollback : Bool) (s : StmtCtx κ χ) : StmtCtx κ χ :=
  { s with
      ucInfo := fun row =>
        if row ∈ s.stmtCallbackList then (s.ucInfo row).map (UcInfo.stmtCallback rollback)
        else s.ucInfo row
      stmtCallbackList := [] }

variable (s : StmtCtx κ χ)

def commitStmt : StmtCtx κ χ :=
  { s.stmtCallbacks false with prepareList := [] }

/-- `rollback_stmt`. The prepared session callbacks take the uncommitted infos off their rows. -/
def rollbackStmt : StmtCtx κ χ :=
  let s := stmtCallbacks true { s with toStmtData := s.mark }
  { s with
      ucInfo := fun row => if row ∈ s.prepareList then none else s.ucInfo row
      prepareList := [] }

def exec (stmt : Stmt κ) : StmtCtx κ χ :=
  let s := stmt.calls.foldl (set checksumKey checksumCell) s.markStmt
  if stmt.commit then s.commitStmt else s.rollbackStmt

/-- The same uncommitted state: what the session remembers at a mark, and of each row the nodes
with their tail and the counters. -/
def SameUncommitted (s t : StmtCtx κ χ) : Prop :=
  s.toStmtData = t.toStmtData ∧ s.ucInfo = t.ucInfo

/-- A statement that is rolled back adds nothing to the counters of the rows that have uncommitted
nodes of earlier statements, and no statement callback is lost. -/
def RestoresCounts (stmt : Stmt κ) : Prop :=
  (∀ call ∈ stmt.calls, ∀ row, call.ret ≠ .callbackFailed row) ∧
    (stmt.commit = false → ∀ row, s.ucInfo row ≠ none → stmt.counts row = 0)

variable {checksumKey checksumCell}

/-! ### A row within a statement -/

/-- No statement is open. -/
structure Boundary (s : StmtCtx κ χ) : Prop where
  stmtCallbackList : s.stmtCallbackList = []
  prepareList : s.prepareList = []
  unmarked : ∀ row uci, s.ucInfo row = some uci → uci.ucListTailBeforeStmt = none

end StmtCtx

namespace UcInfo

/-- The mark is a node of the list. -/
def TailFits (uci : UcInfo) : Prop := ∀ n, uci.ucListTailBeforeStmt = some n → n ≤ uci.ucList.length

variable {uci : UcInfo}

theorem tailFits_markTail (h : uci.TailFits) : uci.markTail.TailFits := by
  intro n hn
  rw [markTail, some.injEq] at hn
  subst hn
  rcases htail : uci.ucListTailBeforeStmt with _ | m
  · exact le_rfl
  · exact h m htail

theorem addCount_add (uci : UcInfo) (d d' : BitVec 16 × BitVec 16) :
    uci.addCount (d + d') = (uci.addCount d).addCount d' := by
  simp [addCount, BitVec.add_assoc]

@[simp]
theorem addCount_zero (uci : UcInfo) : uci.addCount 0 = uci := by
  simp [addCount]

theorem stmtCallback_true_of_unmarked (h : uci.ucListTailBeforeStmt = none) :
    uci.stmtCallback true = uci := by
  cases uci
  cases h
  simp [stmtCallback]

theorem stmtCallback_true_markTail (uci : UcInfo) :
    uci.markTail.stmtCallback true = uci.stmtCallback true := by
  simp [stmtCallback, markTail]

theorem stmtCallback_true_copyCells (hmarked : uci.ucListTailBeforeStmt ≠ none)
    (hfits : uci.TailFits) (w : CompactCellWriter) :
    (uci.copyCells w).stmtCallback true = uci.stmtCallback true := by
  obtain ⟨n, hn⟩ := ne_none_iff_exists'.1 hmarked
  simp [stmtCallback, copyCells, hn, take_append_of_le_length (hfits n hn)]

/-- A write behind the mark: undone, it leaves what it has counted. -/
structure Writes (f : UcInfo → UcInfo) (d : BitVec 16 × BitVec 16) : Prop where
  tail : ∀ uci, (f uci).ucListTailBeforeStmt = uci.ucListTailBeforeStmt
  fits : ∀ uci, uci.TailFits → (f uci).TailFits
  undo : ∀ uci, uci.ucListTailBeforeStmt ≠ none → uci.TailFits →
    (f uci).stmtCallback true = (uci.stmtCallback true).addCount d

theorem writes_addCount (d : BitVec 16 × BitVec 16) : Writes (addCount · d) d where
  tail _ := rfl
  fits _ h := h
  undo _ _ _ := rfl

theorem writes_copyCells (d : BitVec 16 × BitVec 16) (w : CompactCellWriter) :
    Writes (fun uci => (uci.addCount d).copyCells w) d where
  tail _ := rfl
  fits uci h n hn := by
    have hle : n ≤ uci.ucList.length := h n hn
    simp only [copyCells, addCount, length_append]
    omega
  undo uci hmarked hfits := by
    have hmarked' : (uci.addCount d).ucListTailBeforeStmt ≠ none := hmarked
    rw [stmtCallback_true_copyCells hmarked' hfits]
    rfl

end UcInfo

namespace StmtCtx

variable {rows : List (RowWrite κ)} {dmlType : Option Nat} {call : SetCall κ} {n : SetCounters χ}
    {transId : Int}

section RowInv

/-- A row within a statement. `before` is its uncommitted info when the statement began, and `d` is
what the statement has counted: the lists name the row when there is something to undo, and undoing
it leaves `before` with the count added. -/
structure RowInv (before : Option UcInfo) (d : BitVec 16 × BitVec 16) (s : StmtCtx κ χ) (row : κ) :
    Prop where
  prepared : row ∈ s.prepareList ↔ before = none ∧ s.ucInfo row ≠ none
  listed : row ∈ s.stmtCallbackList ↔
    ∃ uci, s.ucInfo row = some uci ∧ uci.ucListTailBeforeStmt ≠ none
  fits : ∀ uci, s.ucInfo row = some uci → uci.TailFits
  undo : ∀ uci, before = some uci → ∃ uci', s.ucInfo row = some uci' ∧
    uci'.stmtCallback true = uci.addCount d

variable {before : Option UcInfo} {d : BitVec 16 × BitVec 16} {s : StmtCtx κ χ} {row : κ}

theorem Boundary.rowInv (h : s.Boundary) : RowInv (s.ucInfo row) 0 s.markStmt row where
  prepared := by simp [markStmt, h.prepareList]
  listed := by
    refine ⟨fun hmem => absurd hmem (not_mem_nil), ?_⟩
    rintro ⟨uci, huci, hmarked⟩
    exact absurd (h.unmarked row uci huci) hmarked
  fits uci huci n hn := by
    rw [h.unmarked row uci huci] at hn
    cases hn
  undo uci huci := by
    refine ⟨uci, huci, ?_⟩
    rw [stmtCallback_true_of_unmarked (h.unmarked row uci huci), addCount_zero]

theorem RowInv.congr (h : RowInv before d s row) {t : StmtCtx κ χ}
    (hinfo : t.ucInfo row = s.ucInfo row)
    (hstmt : row ∈ t.stmtCallbackList ↔ row ∈ s.stmtCallbackList)
    (hprepare : row ∈ t.prepareList ↔ row ∈ s.prepareList) : RowInv before d t row where
  prepared := by rw [hprepare, hinfo, h.prepared]
  listed := by rw [hstmt, hinfo, h.listed]
  fits := hinfo ▸ h.fits
  undo := hinfo ▸ h.undo

/-- A row that had nothing before the statement is the only kind without an uncommitted info. -/
theorem RowInv.before_eq_none (h : RowInv before d s row) (hinfo : s.ucInfo row = none) :
    before = none := by
  by_contra hb
  obtain ⟨uci, hb⟩ := ne_none_iff_exists'.1 hb
  obtain ⟨uci', hinfo', -⟩ := h.undo uci hb
  rw [hinfo] at hinfo'
  cases hinfo'

variable [DecidableEq κ]

theorem ucInfo_getCurValue (added : Bool) (r : κ) : (s.getCurValue added r).ucInfo r =
    some ((s.ucInfo r).getD .init).markTail :=
  Function.update_self _ _ _

section

variable (h : RowInv before d s row) {d' : BitVec 16 × BitVec 16} {f : UcInfo → UcInfo} {r : κ}
include h

theorem RowInv.getCurValue (r : κ) : RowInv before d (s.getCurValue true r) row := by
  obtain rfl | hne := eq_or_ne r row
  · constructor
    · rcases hinfo : s.ucInfo r with _ | uci
      · simp [StmtCtx.getCurValue, hinfo, h.before_eq_none hinfo]
      · simpa [StmtCtx.getCurValue, hinfo] using h.prepared
    · rcases hinfo : s.ucInfo r with _ | uci
      · simp [StmtCtx.getCurValue, hinfo, init, markTail]
      have hlisted := h.listed
      rcases htail : uci.ucListTailBeforeStmt with _ | n
      · simp [StmtCtx.getCurValue, hinfo, htail, markTail]
      · simpa [StmtCtx.getCurValue, hinfo, htail, markTail] using hlisted
    · intro uci huci
      rw [ucInfo_getCurValue, some.injEq] at huci
      subst huci
      apply tailFits_markTail
      rcases hinfo : s.ucInfo r with _ | uci
      · intro n hn
        cases hn
      · exact h.fits uci hinfo
    · intro uci hb
      obtain ⟨uci', hinfo, hundo⟩ := h.undo uci hb
      refine ⟨_, ucInfo_getCurValue true r, ?_⟩
      rw [stmtCallback_true_markTail, hinfo, getD_some, hundo]
  · refine h.congr (Function.update_of_ne hne.symm _ _) ?_ ?_
    all_goals
      simp only [StmtCtx.getCurValue]
      split
      · simp [hne.symm]
      · rfl

theorem RowInv.modify (hf : UcInfo.Writes f d')
    (hmarked : ∀ uci, s.ucInfo r = some uci → uci.ucListTailBeforeStmt ≠ none) :
    RowInv before (d + if r = row then d' else 0) (s.modify r f) row := by
  obtain rfl | hne := eq_or_ne r row
  · have hinfo' : (s.modify r f).ucInfo r = (s.ucInfo r).map f := Function.update_self _ _ _
    rw [if_pos rfl]
    constructor
    · rw [hinfo', Ne, map_eq_none_iff]
      exact h.prepared
    · rw [hinfo']
      refine h.listed.trans ?_
      rcases s.ucInfo r with _ | uci
      · simp
      · simp [hf.tail uci]
    · intro uci huci
      rw [hinfo'] at huci
      obtain ⟨uci', huci', rfl⟩ := map_eq_some_iff.1 huci
      exact hf.fits uci' (h.fits uci' huci')
    · intro uci hb
      obtain ⟨uci', hinfo, hundo⟩ := h.undo uci hb
      refine ⟨f uci', by rw [hinfo', hinfo, map_some], ?_⟩
      rw [hf.undo uci' (hmarked uci' hinfo) (h.fits uci' hinfo), hundo, addCount_add]
  · rw [if_neg hne, add_zero]
    exact h.congr (Function.update_of_ne hne.symm _ _) Iff.rfl Iff.rfl

theorem RowInv.write (hf : UcInfo.Writes f d') (cells : List (MutatorCell κ)) :
    RowInv before (d + if r = row then d' else 0)
      (((s.getCurValue true r).modify r f).addCells cells) row := by
  have hmarked : ∀ uci, (s.getCurValue true r).ucInfo r = some uci →
      uci.ucListTailBeforeStmt ≠ none := by
    intro uci huci
    rw [ucInfo_getCurValue, some.injEq] at huci
    subst huci
    exact some_ne_none _
  exact ((h.getCurValue r).modify hf hmarked).congr rfl Iff.rfl Iff.rfl

theorem RowInv.writeRow (transId : Int) (dmlType : Option Nat) (write : RowWrite κ) :
    RowInv before (d + if write.row = row then write.counts transId else 0)
      (s.writeRow transId dmlType write) row :=
  h.write (writes_copyCells _ _) _

theorem RowInv.failRow (transId : Int) (dmlType : Option Nat) (write : FailedRow κ) :
    RowInv before (d + if write.row = row then write.counts transId else 0)
      (s.failRow transId dmlType write) row := by
  refine h.write ?_ _
  rcases write.isRowFinished with _ | _
  · exact writes_addCount _
  · exact writes_copyCells _ _

end

variable {checksumKey : χ → κ → χ} {checksumCell : χ → WriteCell → χ}

theorem RowInv.setRows (h : RowInv before d s row) :
    RowInv before
      (d + (rows.map fun write => if write.row = row then write.counts transId else 0).sum)
      (setRows checksumKey checksumCell transId dmlType rows s n).1 row := by
  induction rows generalizing s d n with
  | nil =>
    rwa [map_nil, sum_nil, add_zero]
  | cons write rows ih =>
    rw [map_cons, sum_cons, ← add_assoc]
    exact ih (h.writeRow transId dmlType write)

theorem RowInv.set (hcall : ∀ row, call.ret ≠ .callbackFailed row) (h : RowInv before d s row) :
    RowInv before (d + call.counts row) (s.set checksumKey checksumCell call) row := by
  have hrows : RowInv before _ (StmtCtx.setRows checksumKey checksumCell call.transId call.dmlType
      call.rows s ⟨0, 0, s.ucChecksum⟩).1 row := h.setRows
  rw [SetCall.counts, ← add_assoc, StmtCtx.set]
  cases hret : call.ret with
  | success =>
    rw [add_zero]
    exact hrows.congr rfl Iff.rfl Iff.rfl
  | failed =>
    rwa [add_zero]
  | callbackFailed r => exact absurd hret (hcall r)
  | rowFailed write => exact hrows.failRow call.transId call.dmlType write

theorem RowInv.calls {calls : List (SetCall κ)}
    (hcalls : ∀ call ∈ calls, ∀ row, call.ret ≠ .callbackFailed row) (h : RowInv before d s row) :
    RowInv before (d + (calls.map fun call => call.counts row).sum)
      (calls.foldl (StmtCtx.set checksumKey checksumCell) s) row := by
  induction calls generalizing s d with
  | nil => simpa using h
  | cons call calls ih =>
    rw [map_cons, sum_cons, ← add_assoc]
    exact ih (forall_mem_cons.1 hcalls).2
      (h.set (hcalls call mem_cons_self))

theorem RowInv.rollbackStmt (h : RowInv before d s row) :
    s.rollbackStmt.ucInfo row = before.map (addCount · d) := by
  change (if row ∈ s.prepareList then none else if row ∈ s.stmtCallbackList then
    (s.ucInfo row).map (stmtCallback true) else s.ucInfo row) = _
  rcases hb : before with _ | uci
  · by_cases hprepared : row ∈ s.prepareList
    · rw [if_pos hprepared]
      rfl
    have hinfo : s.ucInfo row = none := by
      by_contra hinfo
      exact hprepared (h.prepared.2 ⟨hb, hinfo⟩)
    simp [hinfo]
  obtain ⟨uci', hinfo, hundo⟩ := h.undo uci hb
  have hprepared : row ∉ s.prepareList := fun hmem => by
    rw [(h.prepared.1 hmem).1] at hb
    cases hb
  rw [if_neg hprepared, hinfo, map_some, map_some, ← hundo]
  split_ifs with hlisted
  · rfl
  have hunmarked : uci'.ucListTailBeforeStmt = none := by
    by_contra hmarked
    exact hlisted (h.listed.2 ⟨uci', hinfo, hmarked⟩)
  rw [stmtCallback_true_of_unmarked hunmarked]

theorem RowInv.commitStmt (h : RowInv before d s row) {uci : UcInfo}
    (huci : s.commitStmt.ucInfo row = some uci) : uci.ucListTailBeforeStmt = none := by
  change (if row ∈ s.stmtCallbackList then (s.ucInfo row).map (stmtCallback false)
    else s.ucInfo row) = some uci at huci
  split_ifs at huci with hlisted
  · obtain ⟨uci', -, rfl⟩ := map_eq_some_iff.1 huci
    rfl
  · by_contra hmarked
    exact hlisted (h.listed.2 ⟨uci, huci, hmarked⟩)

end RowInv

/-! ### Statements -/

section Statements

variable [DecidableEq κ] {checksumKey : χ → κ → χ} {checksumCell : χ → WriteCell → χ}
    {s t : StmtCtx κ χ} {stmt : Stmt κ}

theorem mark_setRows :
    (setRows checksumKey checksumCell transId dmlType rows s n).1.mark = s.mark := by
  induction rows generalizing s n with
  | nil => rfl
  | cons write rows ih => exact ih

theorem mark_set : (s.set checksumKey checksumCell call).mark = s.mark := by
  rw [set]
  cases call.ret with
  | success | failed | callbackFailed row | rowFailed write => exact mark_setRows

theorem mark_calls {calls : List (SetCall κ)} :
    (calls.foldl (set checksumKey checksumCell) s).mark = s.mark := by
  induction calls generalizing s with
  | nil => rfl
  | cons call calls ih => exact ih.trans mark_set

theorem Boundary.calls (hs : s.Boundary) (hok : s.RestoresCounts stmt) (row : κ) :
    RowInv (s.ucInfo row) (stmt.counts row)
      (stmt.calls.foldl (set checksumKey checksumCell) s.markStmt) row := by
  have h : RowInv (s.ucInfo row) (0 + stmt.counts row)
      (stmt.calls.foldl (set checksumKey checksumCell) s.markStmt) row := hs.rowInv.calls hok.1
  rwa [zero_add] at h

theorem Boundary.exec_rollback (hs : s.Boundary) (hok : s.RestoresCounts stmt)
    (hcommit : stmt.commit = false) : (s.exec checksumKey checksumCell stmt).SameUncommitted s := by
  rw [exec, hcommit]
  constructor
  · exact mark_calls
  funext row
  refine (hs.calls hok row).rollbackStmt.trans ?_
  rcases hinfo : s.ucInfo row with _ | uci
  · rfl
  have hcounts : stmt.counts row = 0 :=
    hok.2 hcommit row (hinfo ▸ some_ne_none uci)
  rw [map_some, hcounts, addCount_zero]

theorem boundary_exec (hs : s.Boundary) (hok : s.RestoresCounts stmt) :
    (s.exec checksumKey checksumCell stmt).Boundary := by
  rcases hcommit : stmt.commit with _ | _
  · have hsame : (s.exec checksumKey checksumCell stmt).SameUncommitted s :=
      hs.exec_rollback hok hcommit
    refine ⟨?_, ?_, fun row uci huci => hs.unmarked row uci (hsame.2 ▸ huci)⟩
    all_goals
      rw [exec, hcommit]
      rfl
  · rw [exec, hcommit]
    exact ⟨rfl, rfl, fun row uci huci => (hs.calls hok row).commitStmt huci⟩

omit [DecidableEq κ] in
/-- Statements see no more of a session than its uncommitted state. -/
theorem Boundary.markStmt_eq (hs : s.Boundary) (ht : t.Boundary) (h : s.SameUncommitted t) :
    s.markStmt = t.markStmt := by
  obtain ⟨data, info, list, prepare, mark⟩ := s
  obtain ⟨data', info', list', prepare', mark'⟩ := t
  obtain ⟨hdata, hinfo⟩ := h
  have hprepare : prepare = prepare' := hs.prepareList.trans ht.prepareList.symm
  subst hdata hinfo hprepare
  rfl

/-- The run and the run of the committed statements, from sessions with one uncommitted state. -/
theorem Boundary.sameUncommitted {stmts : List (Stmt κ)} (hs : s.Boundary) (ht : t.Boundary)
    (h : s.SameUncommitted t)
    (hok : Meets (fun s stmt => some (exec checksumKey checksumCell s stmt)) RestoresCounts s
      stmts) :
    (stmts.foldl (exec checksumKey checksumCell) s).SameUncommitted
      ((stmts.filter (·.commit)).foldl (exec checksumKey checksumCell) t) := by
  induction stmts generalizing s t with
  | nil => exact h
  | cons stmt stmts ih =>
    have hs' : (s.exec checksumKey checksumCell stmt).Boundary := boundary_exec hs hok.1
    rcases hcommit : stmt.commit with _ | _
    · rw [filter_cons_of_neg (by simp [hcommit]), foldl_cons]
      have hsame : (s.exec checksumKey checksumCell stmt).SameUncommitted s :=
        hs.exec_rollback hok.1 hcommit
      exact ih hs' ht ⟨hsame.1.trans h.1, hsame.2.trans h.2⟩ (hok.2 _ rfl)
    rw [filter_cons_of_pos hcommit, foldl_cons, foldl_cons]
    -- the two sessions are one from the mark on
    have heq : s.exec checksumKey checksumCell stmt = t.exec checksumKey checksumCell stmt := by
      rw [exec, exec, hs.markStmt_eq ht h]
    rw [← heq]
    exact ih hs' hs' ⟨rfl, rfl⟩ (hok.2 _ rfl)

omit [DecidableEq κ] in
theorem boundary_start (checksum : χ) : (start checksum : StmtCtx κ χ).Boundary where
  stmtCallbackList := rfl
  prepareList := rfl
  unmarked _ _ h := by cases h

/-- When rolled back statements count nothing on the rows of earlier ones, a session has the
uncommitted state that its committed statements alone would leave. -/
theorem sameUncommitted_of_restoresCounts {checksum : χ} {stmts : List (Stmt κ)}
    (hok : Meets (fun s stmt => some (exec checksumKey checksumCell s stmt)) RestoresCounts
      (start checksum) stmts) :
    (stmts.foldl (exec checksumKey checksumCell) (start checksum)).SameUncommitted
      ((stmts.filter (·.commit)).foldl (exec checksumKey checksumCell) (start checksum)) :=
  (boundary_start checksum).sameUncommitted (boundary_start checksum) ⟨rfl, rfl⟩ hok

def cellStmt (row : κ) (cell : WriteCell) (commit : Bool) : Stmt κ :=
  ⟨[⟨7, some 1, [⟨row, true, [cell], List.cons_ne_nil _ _⟩], .success⟩], commit⟩

theorem sameUncommitted_of_restoresCounts_twoRows :
    (([cellStmt false (.value (.data 16) (.int 5 false)) true,
        cellStmt true (.value (.data 16) (.int 6 false)) false].foldl
      (exec (fun n _ => n) fun n _ => n + 1) (start 0)).SameUncommitted
    ([cellStmt false (.value (.data 16) (.int 5 false)) true].foldl
      (exec (fun n _ => n) fun n _ => n + 1) (start 0)) : Prop) := by
  refine sameUncommitted_of_restoresCounts ⟨⟨?_, ?_⟩, fun s hs => ⟨⟨?_, ?_⟩, fun _ _ => trivial⟩⟩
  · simp [cellStmt]
  · simp [cellStmt]
  · simp [cellStmt]
  cases hs
  intro _ row
  rcases row with _ | _
  · exact fun _ => rfl
  · exact fun h => absurd rfl h

/-- A second statement on the row is rolled back, and its cell stays counted. -/
theorem not_sameUncommitted_rolledBackCell :
    ¬([cellStmt () (.value (.data 16) (.int 5 false)) true,
        cellStmt () (.value (.data 17) (.int 6 false)) false].foldl
      (exec (fun n _ => n) fun n _ => n + 1) (start 0)).SameUncommitted
    ([cellStmt () (.value (.data 16) (.int 5 false)) true].foldl
      (exec (fun n _ => n) fun n _ => n + 1) (start 0)) := by
  intro h
  have hcnt := congrArg (Option.map ucCellInfoCnt) (congrFun h.2 ())
  revert hcnt
  decide

end Statements

end StmtCtx

end OceanBase.UpdateServer
