import OceanBase.UpdateServer.RowHistory

/-!
# Publishing a transaction (`ob_trans_executor.cpp`, `ob_session_mgr.cpp`)

When the log of a transaction has been flushed, `handle_flushed_log_` publishes its trans id and
hands it on to a pool of threads, where `handle_commit_end_` invokes its callbacks: only then are
its nodes linked to their rows. A read-only session takes the published trans id as its snapshot
when it begins, so a snapshot may cover a transaction whose nodes are not in the rows yet.
-/

namespace OceanBase.UpdateServer

open Common Lib List Function Option

/-- The session that acts. -/
def RowAction.session : RowAction → Nat
  | .write sd _ _ | .ownRead sd _ | .merge sd | .commitStmt sd | .rollbackStmt sd | .commit sd _
  | .rollback sd => sd

/-- A transaction that waits for its log. -/
structure CommitTask where
  sd : Nat
  transId : Int
  deriving DecidableEq

/-- A read of a row by a read-only session. -/
structure SnapshotRead (κ : Type) where
  sd : Nat
  row : κ
  param : ReadParam
  result : Except Ret (List Cell)

/-- `TransExecutor` with its `SessionMgr` and the rows. `transSeq` is the last trans id given out,
`readers` are the trans ids of the read-only sessions, and `reads` records their reads. -/
structure TransExecutor (κ : Type) where
  rows : κ → RowState
  transSeq : Int
  publishedTransId : Int
  flushQueue : List CommitTask
  commitEndPool : List CommitTask
  readers : Nat → Option Int
  reads : List (SnapshotRead κ)

variable {κ : Type} {sd : Nat} {transId : Int}

namespace TransExecutor

/-- The steps of the executor's threads. -/
inductive Action (κ : Type) where
  /-- a call of a session that has not begun to commit -/
  | call (row : κ) (action : RowAction)
  | handleWriteCommit (sd : Nat) (transId : Int)
  | handleFlushedLog
  | handleCommitEnd (task : CommitTask)
  | beginSession (sd : Nat)
  | read (sd : Nat) (row : κ) (param : ReadParam)

def start (time : Int) : TransExecutor κ := ⟨fun _ => .init, time, time, [], [], fun _ => none, []⟩

variable (s : TransExecutor κ)

/-- The transactions that have begun to commit. -/
def committing : List CommitTask := s.flushQueue ++ s.commitEndPool

/-- The sessions in the queues are frozen. A session took its trans id when it began. -/
def Callable (action : RowAction) : Prop :=
  (∀ task ∈ s.committing, task.sd ≠ action.session) ∧
    match action with
    | .write _ snapshot _ => snapshot ≤ s.publishedTransId
    | .commit _ _ => False
    | _ => True

instance : (action : RowAction) → Decidable (s.Callable action)
  | .write .. | .commit .. | .ownRead .. | .merge .. | .commitStmt .. | .rollbackStmt ..
  | .rollback .. => inferInstanceAs (Decidable (_ ∧ _))

section Step

variable [DecidableEq κ] (arith : Arith) (maxRowCellNum : Int) (rowKey : κ → ReadParam)
  (s : TransExecutor κ)

/-- `handle_write_commit_`, with the trans id that `get_seq` takes from `trans_seq_`. -/
def handleWriteCommit (sd : Nat) (transId : Int) :
    Option (TransExecutor κ) :=
  if s.transSeq < transId ∧ transId < int64Max ∧ ∀ task ∈ s.committing, task.sd ≠ sd then
    some { s with transSeq := transId, flushQueue := s.flushQueue ++ [⟨sd, transId⟩] }
  else none

/-- `handle_flushed_log_` for the first task of the flush queue. -/
def handleFlushedLog : Option (TransExecutor κ) :=
  match s.flushQueue with
  | [] => none
  | task :: flushQueue =>
    some { s with
      flushQueue := flushQueue
      publishedTransId := task.transId
      commitEndPool := s.commitEndPool ++ [task] }

/-- The callbacks of a transaction on a row. -/
def commitRow (task : CommitTask) (row : κ) (r : RowState) : RowState :=
  if r.value.rowLock = some task.sd then
    (r.exec arith maxRowCellNum (rowKey row) (.commit task.sd task.transId)).getD r
  else r

/-- `handle_commit_end_`: `end_session` invokes the callbacks. -/
def handleCommitEnd (task : CommitTask) : Option (TransExecutor κ) :=
  if task ∈ s.commitEndPool then
    some { s with
      rows := fun row => commitRow arith maxRowCellNum rowKey task row (s.rows row)
      commitEndPool := s.commitEndPool.erase task }
  else none

/-- `begin_session` for a read-only session. -/
def beginSession (sd : Nat) : Option (TransExecutor κ) :=
  if s.readers sd = none then
    some { s with readers := Function.update s.readers sd (some s.publishedTransId) }
  else none

/-- A read of a read-only session, which holds no lock. -/
def read (sd : Nat) (row : κ) (param : ReadParam) :
    Option (TransExecutor κ) :=
  (s.readers sd).bind fun transId =>
    if (s.rows row).value.rowLock = some sd then none
    else
      ((s.rows row).value.readCompact arith ⟨.readOnly, transId, some sd⟩ param).map fun r =>
        { s with
            rows := Function.update s.rows row { s.rows row with value := r.1 }
            reads := s.reads ++ [⟨sd, row, param, r.2⟩] }

def step : Action κ → Option (TransExecutor κ)
  | .call row action =>
    if s.Callable action then
      ((s.rows row).step arith maxRowCellNum (rowKey row) action).map fun r =>
        { s with rows := Function.update s.rows row r }
    else none
  | .handleWriteCommit sd transId => s.handleWriteCommit sd transId
  | .handleFlushedLog => s.handleFlushedLog
  | .handleCommitEnd task => s.handleCommitEnd arith maxRowCellNum rowKey task
  | .beginSession sd => s.beginSession sd
  | .read sd row param => s.read arith sd row param

/-- Two reads of one row by one session with the same parameters have the same result. -/
def StableReads : Prop :=
  ∀ r ∈ s.reads, ∀ r' ∈ s.reads, r.sd = r'.sd → r.row = r'.row → r.param = r'.param →
    r.result = r'.result

/-- Each read shows every transaction up to the trans id of its session: it is the fold of the
mutations that the row has in the end, and no such transaction has still to be linked to the row. -/
def ReadsAll : Prop :=
  ∀ r ∈ s.reads, ∃ transId, s.readers r.sd = some transId ∧
    r.result = specRead arith r.param transId (s.rows r.row).history ∧
    ∀ task ∈ s.commitEndPool, task.transId ≤ transId →
      (s.rows r.row).value.rowLock ≠ some task.sd

/-- Mutations are plain, and a session does not read a row that a published transaction up to its
trans id is still to be linked to. -/
def LinkedRead : Action κ → Prop
  | .call row action => RowState.PlainStep (s.rows row) action
  | .read sd row _ => ∀ transId, s.readers sd = some transId → ∀ task ∈ s.commitEndPool,
    task.transId ≤ transId → (s.rows row).value.rowLock ≠ some task.sd
  | _ => True

end Step

end TransExecutor

/-! ### Rows -/

section Rows

variable {arith : Arith} {maxRowCellNum : Int} {rowKey : ReadParam}

theorem TEValue.rowLock_set {snapshot : Int} {cells : List WriteCell} (hne : cells ≠ [])
    {v : TEValue} (hlock : v.rowLock = none ∨ v.rowLock = some sd) {r : TEValue × Ret}
    (h : v.set arith maxRowCellNum sd snapshot rowKey cells = some r) : r.1.rowLock = some sd := by
  have hkept : KeptByCells arith snapshot fun v => v.rowLock = some sd :=
    ⟨fun _ _ hv _ _ _ => hv, fun _ _ hv hr => (merge_frame hr).2.trans hv, fun _ hv => hv⟩
  have hrule : r.1.rowLock = some sd ∨ r.2 ≠ .success ∧ r.1.rowLock = some sd :=
    set_rule (Q := fun v => v.rowLock = some sd) hkept hne hlock rfl (fun _ _ hv _ => hv)
      (fun _ hv => hv) h
  exact hrule.elim id And.right

/-- What a call before the commit leaves: the history, and the lock to its session or to nobody. -/
theorem RowState.step_frame {r r' : RowState} {a : RowAction}
    (h : r.step arith maxRowCellNum rowKey a = some r')
    (ha : ∀ sd transId, a ≠ .commit sd transId) :
    (r.value.rowLock = none ∨ r.value.rowLock = some a.session) ∧ r'.history = r.history ∧
      (r'.value.rowLock = none ∨ r'.value.rowLock = some a.session) ∧
      (r'.snapshot = r.snapshot ∨ ∃ sd cells, a = .write sd r'.snapshot cells) := by
  obtain ⟨henabled, h⟩ := ite_none_right_eq_some.1 h
  cases a with
  | write sd snapshot cells =>
    obtain ⟨hne, hlock⟩ := henabled
    have hlock' : r.value.rowLock = none ∨ r.value.rowLock = some sd := hlock.imp_right And.left
    obtain ⟨p, hp, rfl⟩ := map_eq_some_iff.1 h
    have hset := TEValue.rowLock_set hne hlock' hp
    refine ⟨hlock', ?_⟩
    split
    · exact ⟨rfl, .inr hset, .inr ⟨sd, cells, rfl⟩⟩
    · exact ⟨rfl, .inr ((TEValue.rowLock_rollbackStmt _ _).trans hset), .inr ⟨sd, cells, rfl⟩⟩
  | ownRead sd p =>
    obtain ⟨v, hv, rfl⟩ := map_eq_some_iff.1 h
    have hlock : v.1.rowLock = r.value.rowLock := by
      obtain heq | heq := TEValue.read_cases hv
      · rw [heq]
      · rw [heq]
        rfl
    exact ⟨.inr henabled, rfl, .inr (hlock.trans henabled), .inl rfl⟩
  | merge sd =>
    obtain ⟨v, hv, rfl⟩ := map_eq_some_iff.1 h
    exact ⟨.inr henabled, rfl, .inr ((TEValue.merge_frame hv).2.trans henabled), .inl rfl⟩
  | commitStmt sd =>
    cases h
    exact ⟨.inr henabled, rfl, .inr ((TEValue.rowLock_stmtCallback _ _).trans henabled), .inl rfl⟩
  | rollbackStmt sd =>
    cases h
    exact ⟨.inr henabled, rfl, .inr ((TEValue.rowLock_rollbackStmt _ _).trans henabled), .inl rfl⟩
  | commit sd transId => exact absurd rfl (ha sd transId)
  | rollback sd =>
    cases h
    exact ⟨.inr henabled, rfl, .inl rfl, .inl rfl⟩

theorem specRead_append {p : ReadParam} {history later : List Committed}
    (h : ∀ c ∈ later, transId < c.transId) :
    specRead arith p transId (history ++ later) = specRead arith p transId history := by
  have hlater : later.filter (fun c => decide (c.transId ≤ transId)) = [] :=
    filter_eq_nil_iff.2 fun c hc => by simpa using h c hc
  simp [specRead, hlater]

end Rows

namespace TransExecutor

section Runs

variable {arith : Arith} {maxRowCellNum : Int} {rowKey : κ → ReadParam} {s s' : TransExecutor κ}
    {param : ReadParam}

/-! ### Steps -/

variable (arith) in
/-- What every step of the executor keeps. -/
structure Inv (s : TransExecutor κ) : Prop where
  rows : ∀ row, RowRule.Holds (PlainRow arith) (s.rows row)
  nonneg : 0 ≤ s.publishedTransId
  published_le : s.publishedTransId ≤ s.transSeq
  transSeq_lt : s.transSeq < int64Max
  flushSorted : s.flushQueue.Pairwise fun task task' => task.transId < task'.transId
  flush : ∀ task ∈ s.flushQueue, s.publishedTransId < task.transId ∧ task.transId ≤ s.transSeq
  pool : ∀ task ∈ s.commitEndPool, task.transId ≤ s.publishedTransId
  row_le : ∀ row, (s.rows row).snapshot ≤ s.transSeq ∧
    ∀ c ∈ (s.rows row).history, c.transId ≤ s.transSeq
  next : ∀ task ∈ s.committing, ∀ row, (s.rows row).value.rowLock = some task.sd →
    (s.rows row).NextTransId task.transId
  readers_le : ∀ sd transId, s.readers sd = some transId → transId ≤ s.publishedTransId
  reads : s.ReadsAll arith

namespace Inv

theorem start {time : Int} (h : 0 ≤ time) (hmax : time < int64Max) :
    Inv arith (TransExecutor.start time : TransExecutor κ) where
  rows _ := RowRule.holds_init (plainRow_empty arith)
  nonneg := h
  published_le := le_rfl
  transSeq_lt := hmax
  flushSorted := .nil
  flush _ hmem := nomatch hmem
  pool _ hmem := nomatch hmem
  row_le _ := ⟨h, fun _ hc => nomatch hc⟩
  next _ hmem := nomatch hmem
  readers_le _ _ h := nomatch h
  reads _ hmem := nomatch hmem

variable {task : CommitTask}

theorem transId_lt (h : Inv arith s) (htask : task ∈ s.committing) : task.transId < int64Max := by
  have hseq := h.transSeq_lt
  have hle := h.published_le
  obtain htask | htask := mem_append.1 htask
  · exact lt_of_le_of_lt (h.flush task htask).2 hseq
  · exact lt_of_le_of_lt ((h.pool task htask).trans hle) hseq

variable {row : κ}

theorem call [DecidableEq κ] (h : Inv arith s) {action : RowAction} {r : RowState}
    (hcall : s.Callable action) (hplain : RowState.PlainStep (s.rows row) action)
    (hstep : (s.rows row).step arith maxRowCellNum (rowKey row) action = some r) :
    Inv arith { s with rows := Function.update s.rows row r } := by
  have hnot : ∀ sd transId, action ≠ .commit sd transId := by
    rintro sd transId rfl
    exact hcall.2
  obtain ⟨hbefore, hhistory, hafter, hsnapshot⟩ := RowState.step_frame hstep hnot
  -- neither before nor after the call does a transaction that commits have the row's lock
  have hfree : ∀ task ∈ s.committing, r.value.rowLock ≠ some task.sd := by
    intro task htask hlock
    obtain hafter | hafter := hafter
    · exact nomatch hafter.symm.trans hlock
    · exact hcall.1 task htask (some.inj (hlock.symm.trans hafter))
  refine { h with
    rows := (forall_update_iff s.rows _).2
      ⟨(plainRow_rule arith).holds_step (h.rows row) hplain hstep, fun row' _ => h.rows row'⟩
    row_le := (forall_update_iff s.rows fun _ r =>
        r.snapshot ≤ s.transSeq ∧ ∀ c ∈ r.history, c.transId ≤ s.transSeq).2
      ⟨?_, fun row' _ => h.row_le row'⟩
    next := fun task htask => (forall_update_iff s.rows fun _ r =>
        r.value.rowLock = some task.sd → r.NextTransId task.transId).2
      ⟨fun hlock => absurd hlock (hfree task htask), fun row' _ => h.next task htask row'⟩
    reads := fun rd hrd => ?_ }
  · rw [hhistory]
    refine ⟨?_, (h.row_le row).2⟩
    obtain heq | ⟨sd, cells, rfl⟩ := hsnapshot
    · rw [heq]
      exact (h.row_le row).1
    · exact le_trans hcall.2 h.published_le
  · obtain ⟨transId, hreader, hresult, hlinked⟩ := h.reads rd hrd
    refine ⟨transId, hreader, ?_⟩
    dsimp only
    by_cases hrow : rd.row = row
    · subst hrow
      rw [update_self, hhistory]
      exact ⟨hresult, fun task htask _ => hfree task (mem_append_right _ htask)⟩
    · rw [update_of_ne hrow]
      exact ⟨hresult, hlinked⟩

section

variable (h : Inv arith s)
include h

theorem handleWriteCommit (hstep : s.handleWriteCommit sd transId = some s') : Inv arith s' := by
  obtain ⟨⟨hlt, hmax, -⟩, hstep⟩ := ite_none_right_eq_some.1 hstep
  cases hstep
  have hmem : ∀ task, task ∈ (s.flushQueue ++ [⟨sd, transId⟩]) ++ s.commitEndPool →
      task ∈ s.committing ∨ task = ⟨sd, transId⟩ := by
    intro task htask
    simp only [mem_append, mem_singleton] at htask
    obtain (htask | htask) | htask := htask
    · exact .inl (mem_append_left _ htask)
    · exact .inr htask
    · exact .inl (mem_append_right _ htask)
  refine ⟨h.rows, h.nonneg, h.published_le.trans hlt.le, hmax, ?_, ?_, h.pool, fun row => ?_,
    fun task htask row hlock => ?_, h.readers_le, h.reads⟩
  · refine pairwise_append.2 ⟨h.flushSorted, pairwise_singleton _ _, ?_⟩
    intro task htask task' htask'
    obtain rfl := mem_singleton.1 htask'
    exact lt_of_le_of_lt (h.flush task htask).2 hlt
  · exact forall_mem_append.2 ⟨fun task htask => (h.flush task htask).imp_right (·.trans hlt.le),
      forall_mem_singleton.2 ⟨lt_of_le_of_lt h.published_le hlt, le_rfl⟩⟩
  · exact ⟨(h.row_le row).1.trans hlt.le, fun c hc => ((h.row_le row).2 c hc).trans hlt.le⟩
  obtain htask | rfl := hmem task htask
  · exact h.next task htask row hlock
  obtain ⟨hsnapshot, hhistory⟩ := h.row_le row
  have hpos : 0 < transId := lt_of_le_of_lt (h.nonneg.trans h.published_le) hlt
  exact ⟨hpos, lt_of_le_of_lt hsnapshot hlt, fun c hc => lt_of_le_of_lt (hhistory c hc) hlt⟩

theorem handleFlushedLog (hstep : s.handleFlushedLog = some s') :
    Inv arith s' := by
  unfold TransExecutor.handleFlushedLog at hstep
  split at hstep
  · cases hstep
  · next task flushQueue hqueue =>
    cases hstep
    have hflush := h.flush
    have hsorted := h.flushSorted
    rw [hqueue] at hflush hsorted
    obtain ⟨hfirst, hrest⟩ := pairwise_cons.1 hsorted
    obtain ⟨hlt, hle⟩ := hflush task mem_cons_self
    have hcommitting : ∀ t, t ∈ flushQueue ++ (s.commitEndPool ++ [task]) → t ∈ s.committing := by
      intro t ht
      rw [committing, hqueue]
      simp only [mem_append, mem_cons] at ht ⊢
      tauto
    refine ⟨h.rows, h.nonneg.trans hlt.le, hle, h.transSeq_lt, hrest, ?_, ?_, h.row_le,
      fun t ht => h.next t (hcommitting t ht), ?_, ?_⟩
    · exact fun t ht => ⟨hfirst t ht, (hflush t (mem_cons_of_mem _ ht)).2⟩
    · exact forall_mem_append.2
        ⟨fun t ht => (h.pool t ht).trans hlt.le, forall_mem_singleton.2 le_rfl⟩
    · exact fun sd transId hreader => (h.readers_le sd transId hreader).trans hlt.le
    -- the transaction is above the trans ids of all sessions that have begun
    intro rd hrd
    obtain ⟨transId, hreader, hresult, hlinked⟩ := h.reads rd hrd
    refine ⟨transId, hreader, hresult, forall_mem_append.2 ⟨hlinked, forall_mem_singleton.2 ?_⟩⟩
    exact fun hle => absurd hle (not_le.2 (lt_of_le_of_lt (h.readers_le _ _ hreader) hlt))

theorem step_commit (htask : task ∈ s.committing)
    (hlock : (s.rows row).value.rowLock = some task.sd) :
    (s.rows row).step arith maxRowCellNum (rowKey row) (.commit task.sd task.transId) =
      some (commitRow arith maxRowCellNum rowKey task row (s.rows row)) := by
  rw [RowState.step, if_pos ⟨hlock, h.next task htask row hlock⟩, commitRow, if_pos hlock]
  rfl

theorem handleCommitEnd
    (hstep : s.handleCommitEnd arith maxRowCellNum rowKey task = some s') : Inv arith s' := by
  obtain ⟨hmem, hstep⟩ := ite_none_right_eq_some.1 hstep
  cases hstep
  have htask : task ∈ s.committing := mem_append_right _ hmem
  have hcommitting : ∀ t, t ∈ s.flushQueue ++ s.commitEndPool.erase task → t ∈ s.committing := by
    intro t ht
    exact (mem_append.1 ht).elim (fun ht => mem_append_left _ ht)
      fun ht => mem_append_right _ (mem_of_mem_erase ht)
  -- a row is left as it is, or linked and unlocked
  have hrow : ∀ row, (commitRow arith maxRowCellNum rowKey task row (s.rows row) = s.rows row) ∨
      (s.rows row).value.rowLock = some task.sd ∧
      (commitRow arith maxRowCellNum rowKey task row (s.rows row)).value.rowLock = none ∧
      (commitRow arith maxRowCellNum rowKey task row (s.rows row)).snapshot =
        (s.rows row).snapshot ∧
      ∃ later, (commitRow arith maxRowCellNum rowKey task row (s.rows row)).history =
        (s.rows row).history ++ later ∧ ∀ c ∈ later, c.transId = task.transId := by
    intro row
    by_cases hlock : (s.rows row).value.rowLock = some task.sd
    · refine .inr ⟨hlock, ?_⟩
      rw [commitRow, if_pos hlock]
      refine ⟨rfl, rfl, _, rfl, fun c hc => ?_⟩
      obtain ⟨cells, -, rfl⟩ := mem_map.1 hc
      rfl
    · exact .inl (if_neg hlock)
  refine ⟨fun row => ?_, h.nonneg, h.published_le, h.transSeq_lt, h.flushSorted, h.flush,
    fun t ht => h.pool t (mem_of_mem_erase ht), fun row => ?_, fun t ht row hlock => ?_,
    h.readers_le, fun rd hrd => ?_⟩
  · by_cases hlock : (s.rows row).value.rowLock = some task.sd
    · have hok : RowState.PlainStep (s.rows row) (.commit task.sd task.transId) :=
        h.transId_lt htask
      exact (plainRow_rule arith).holds_step (h.rows row) hok (h.step_commit htask hlock)
    show RowRule.Holds _ (commitRow arith maxRowCellNum rowKey task row (s.rows row))
    rw [commitRow, if_neg hlock]
    exact h.rows row
  · obtain heq | ⟨-, -, hsnapshot, later, hhistory, hlater⟩ := hrow row
    · dsimp only
      rw [heq]
      exact h.row_le row
    rw [hsnapshot, hhistory]
    refine ⟨(h.row_le row).1, fun c hc => ?_⟩
    obtain hc | hc := mem_append.1 hc
    · exact (h.row_le row).2 c hc
    · rw [hlater c hc]
      exact (h.pool task hmem).trans h.published_le
  · dsimp only at hlock ⊢
    obtain heq | ⟨-, hnone, -⟩ := hrow row
    · rw [heq] at hlock ⊢
      exact h.next t (hcommitting t ht) row hlock
    · exact nomatch hnone.symm.trans hlock
  obtain ⟨transId, hreader, hresult, hlinked⟩ := h.reads rd hrd
  refine ⟨transId, hreader, ?_⟩
  dsimp only
  obtain heq | ⟨hlock, hnone, -, later, hhistory, hlater⟩ := hrow rd.row
  · rw [heq]
    exact ⟨hresult, fun t ht => hlinked t (mem_of_mem_erase ht)⟩
  have hlt : transId < task.transId :=
    not_le.1 fun hle => hlinked task hmem hle hlock
  rw [hnone, hhistory, specRead_append fun c hc => (hlater c hc).symm ▸ hlt]
  exact ⟨hresult, fun t _ _ hsome => nomatch hsome⟩

theorem beginSession (hstep : s.beginSession sd = some s') : Inv arith s' := by
  obtain ⟨hnew, hstep⟩ := ite_none_right_eq_some.1 hstep
  cases hstep
  refine { h with
    readers_le := (forall_update_iff s.readers fun _ reader =>
        ∀ transId, reader = some transId → transId ≤ s.publishedTransId).2
      ⟨fun _ hreader => (some.inj hreader).symm.le, fun sd' _ => h.readers_le sd'⟩
    reads := fun rd hrd => ?_ }
  obtain ⟨transId, hreader, hresult⟩ := h.reads rd hrd
  have hne : rd.sd ≠ sd := by
    intro heq
    rw [heq, hnew] at hreader
    cases hreader
  refine ⟨transId, ?_, hresult⟩
  dsimp only
  rwa [update_of_ne hne]

end

theorem read [DecidableEq κ] (h : Inv arith s)
    (hlinked : ∀ transId, s.readers sd = some transId → ∀ task ∈ s.commitEndPool,
      task.transId ≤ transId → (s.rows row).value.rowLock ≠ some task.sd)
    (hstep : s.read arith sd row param = some s') : Inv arith s' := by
  obtain ⟨transId, hreader, hstep⟩ := bind_eq_some_iff.1 hstep
  split at hstep
  · cases hstep
  · next hlock =>
    have htransId : transId < int64Max :=
      lt_of_le_of_lt ((h.readers_le sd transId hreader).trans h.published_le) h.transSeq_lt
    obtain ⟨uc, ⟨live, q, hinv⟩, -⟩ := (h.rows row).row
    have hread : (s.rows row).value.readCompact arith ⟨.readOnly, transId, some sd⟩ param =
        some ((s.rows row).value, specRead arith param transId (s.rows row).history) := by
      refine hinv.readCompact_readOnly htransId ?_ param
      rw [TEValue.readUncommitted]
      simpa using hlock
    rw [hread, map_some] at hstep
    cases hstep
    -- the row is as it was
    have hrows : Function.update s.rows row { s.rows row with value := (s.rows row).value } =
        s.rows := update_eq_self row s.rows
    rw [hrows]
    exact { h with
      reads := forall_mem_append.2
        ⟨h.reads, forall_mem_singleton.2 ⟨transId, hreader, rfl, hlinked transId hreader⟩⟩ }

end Inv

theorem ReadsAll.stableReads (h : s.ReadsAll arith) : s.StableReads := by
  intro r hr r' hr' hsd hrow hparam
  obtain ⟨transId, hreader, hresult, -⟩ := h r hr
  obtain ⟨transId', hreader', hresult', -⟩ := h r' hr'
  rw [hsd, hreader', some.injEq] at hreader
  rw [hresult, hresult', hparam, hrow, hreader]

variable [DecidableEq κ]

theorem Inv.step (h : Inv arith s) {a : Action κ} (hok : s.LinkedRead a)
    (hstep : s.step arith maxRowCellNum rowKey a = some s') : Inv arith s' := by
  cases a with
  | call row action =>
    obtain ⟨hcall, hstep⟩ := ite_none_right_eq_some.1 hstep
    obtain ⟨r, hr, rfl⟩ := map_eq_some_iff.1 hstep
    exact h.call hcall hok hr
  | handleWriteCommit sd transId => exact h.handleWriteCommit hstep
  | handleFlushedLog => exact h.handleFlushedLog hstep
  | handleCommitEnd task => exact h.handleCommitEnd hstep
  | beginSession sd => exact h.beginSession hstep
  | read sd row param => exact h.read hok hstep

variable (arith maxRowCellNum rowKey) in
/-- **Stable snapshots.** As long as mutations are plain and no session reads a row to which a
published transaction up to its trans id is still to be linked, its reads of a row are the same, and
show every transaction up to its trans id. -/
theorem stableReads_of_run {time : Int} (htime : 0 ≤ time) (hmax : time < int64Max)
    {as : List (Action κ)}
    (hok : Meets (step arith maxRowCellNum rowKey) LinkedRead (start time) as)
    (hrun : run (step arith maxRowCellNum rowKey) (start time) as = some s) :
    s.StableReads ∧ s.ReadsAll arith := by
  have h : Inv arith s := run_invariant_of_meets (fun _ _ _ h hok hstep => h.step hok hstep)
    (Inv.start htime hmax) hok hrun
  exact ⟨h.reads.stableReads, h.reads⟩

/-- A row is written and its transaction published, then a session begins. -/
def publishedWrite : List (Action Unit) :=
  [.call () (.write 1 0 [.value (.data 16) (.int 5 false)]), .handleWriteCommit 1 3,
    .handleFlushedLog, .beginSession 9]

omit [DecidableEq κ] in
theorem linkedRead_of_nil (h : s.commitEndPool = []) (sd : Nat) (row : κ) (param : ReadParam) :
    s.LinkedRead (.read sd row param) := by
  intro transId _ task htask
  rw [h] at htask
  cases htask

theorem commitEndPool_read {row : κ}
    (h : s.read arith sd row param = some s') : s'.commitEndPool = s.commitEndPool := by
  obtain ⟨transId, -, h⟩ := bind_eq_some_iff.1 h
  split at h
  · cases h
  · obtain ⟨r, -, rfl⟩ := map_eq_some_iff.1 h
    rfl

/-- The nodes are linked before the session reads the row twice. -/
theorem stableReads_of_run_linkedReads : ∃ s,
    run (step RowState.intArith 10 fun _ => .all) (start 0)
      ((publishedWrite ++ [.handleCommitEnd ⟨1, 3⟩]) ++ [.read 9 () .all, .read 9 () .all]) =
        some s ∧ s.reads.length = 2 ∧ s.StableReads ∧ s.ReadsAll RowState.intArith := by
  have hlength : (run (step RowState.intArith 10 fun _ => .all) (start 0)
      ((publishedWrite ++ [.handleCommitEnd ⟨1, 3⟩]) ++ [.read 9 () .all, .read 9 () .all])).map
        (·.reads.length) = some 2 := rfl
  obtain ⟨s, hrun, hreads⟩ := map_eq_some_iff.1 hlength
  refine ⟨s, hrun, hreads, stableReads_of_run RowState.intArith 10 (fun _ => .all) (by decide)
    (by decide) (Meets.append (meets_of_forall ?_ _) ?_) hrun⟩
  · intro a ha t
    simp only [publishedWrite, cons_append, nil_append, mem_cons, not_mem_nil, or_false] at ha
    rcases ha with rfl | rfl | rfl | rfl | rfl
    · exact ⟨⟨rfl, ⟨16, rfl⟩, rfl, trivial⟩, by decide⟩
    all_goals trivial
  intro t ht
  have hpool : (run (step RowState.intArith 10 fun _ => .all) (start 0)
      (publishedWrite ++ [.handleCommitEnd ⟨1, 3⟩])).map (·.commitEndPool) = some [] := rfl
  rw [ht, map_some, some.injEq] at hpool
  refine ⟨linkedRead_of_nil hpool 9 () .all, fun t' ht' => ⟨?_, fun _ _ => trivial⟩⟩
  exact linkedRead_of_nil ((commitEndPool_read ht').trans hpool) 9 () .all

/-- The nodes are linked between the two reads. -/
theorem not_stableReads_unlinkedRead : ∃ s,
    run (step RowState.intArith 10 fun _ => .all) (start 0)
      (publishedWrite ++ [.read 9 () .all, .handleCommitEnd ⟨1, 3⟩, .read 9 () .all]) = some s ∧
    ¬s.StableReads := by
  have hreads : (run (step RowState.intArith 10 fun _ => .all) (start 0)
      (publishedWrite ++ [.read 9 () .all, .handleCommitEnd ⟨1, 3⟩, .read 9 () .all])).map
        (·.reads) = some [⟨9, (), .all, .ok [.rowDoesNotExist]⟩,
          ⟨9, (), .all, .ok [.value .modifyTime (.modifyTime 3),
            .value .createTime (.createTime 3), .value (.data 16) (.int 5 false)]⟩] := rfl
  obtain ⟨s, hrun, hreads⟩ := map_eq_some_iff.1 hreads
  refine ⟨s, hrun, fun h => ?_⟩
  unfold StableReads at h
  rw [hreads] at h
  have hresult := h _ mem_cons_self _ (mem_cons_of_mem _ mem_cons_self) rfl rfl rfl
  exact absurd hresult (by decide)

end Runs

end TransExecutor

end OceanBase.UpdateServer
