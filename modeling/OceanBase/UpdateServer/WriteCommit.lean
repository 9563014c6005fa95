import OceanBase.Common.Define

/-!
# Handing a write transaction to the log (`ob_trans_executor.cpp`)

The commit thread calls `handle_write_commit_` with the task of a finished write transaction.
The task's mutations are appended to the log buffer (`fill_log_`, tried a second time after a
flush when the buffer is full), the task is pushed onto the flush queue, and the buffer is
flushed when no further task waits (`commit_log_`).

What the callees outside this component answer is an input (`Outcomes`). The variable that
`fill_log_`'s result is stored in shadows the one that decides whether an error is answered;
`handleWriteCommit` keeps the two apart as the source does.
-/

namespace OceanBase.UpdateServer

namespace WriteCommit

def maxBatchNum : Nat := 1024

/-- The packet codes `fill_log_` tells apart. -/
inductive PacketCode where
  | phyPlanExecute
  | endTransaction
  | other (code : Nat)
  deriving DecidableEq, Repr

structure Task where
  id : Nat
  packetCode : PacketCode
  sidIsValid : Bool
  deriving DecidableEq, Repr

/-- The members of the read-write session that the commit thread reads and writes. `host` is
the uncommitted checksum of the memtable the session writes to, if there is one. -/
structure SessionCtx where
  transId : Int64
  mutatorSize : Nat
  host : Option UInt64
  ucChecksum : UInt64
  checksum : UInt64
  mutateTimestamp : Int64
  checksumBeforeMutate : UInt64
  checksumAfterMutate : UInt64
  updateCommitedDone : Bool
  frozen : Bool
  deriving DecidableEq, Repr

/-- The executor as the commit thread sees it, with the responses sent so far and whether the
process has been told to stop. -/
structure Executor where
  ctx : SessionCtx
  commitedTransId : Int64
  flushQueue : List (Int × Task)
  uncommitedSessionList : List Task
  responses : List (Ret × Task)
  killSelf : Bool
  deriving DecidableEq, Repr

/-- What the callees of one `fill_log_` answer: `write_log`, `get_filled_cursor` with the log id
of the cursor, and whether the flush queue takes the task. -/
structure FillOutcome where
  writeLog : Ret
  filledCursor : Ret × Int
  pushed : Bool
  deriving DecidableEq, Repr

/-- What the callees of one `handle_write_commit_` answer: `fetch_session`, the two `fill_log_`,
the flush between them, the number of waiting tasks, and the closing flush. -/
structure Outcomes where
  fetchSession : Ret
  fill : FillOutcome
  flushLog : Ret
  fillAgain : FillOutcome
  queuedNum : Nat
  closingFlush : Ret
  deriving DecidableEq, Repr

/-- `ObUpsTableMgr::fill_commit_log_`, from the answer of `write_log`. -/
def fillCommitLog (writeLog : Ret) : Ret :=
  if writeLog = .bufNotEnough then .eAgain
  else if writeLog ≠ .success then .responseTimeOut
  else writeLog

/-- `SessionMgr::update_commited_trans_id`. -/
def updateCommitedTransId (e : Executor) : Executor × Ret :=
  if e.ctx.updateCommitedDone then (e, .success)
  else
    ({ e with
        commitedTransId := if e.ctx.transId > 0 then e.ctx.transId else e.commitedTransId
        ctx := { e.ctx with updateCommitedDone := true } }, .success)

section

variable (crc64 : UInt64 → UInt64 → UInt64)

variable (o : FillOutcome)

variable (task : Task)

variable (e : Executor)

/-- The part of `fill_log_` that writes the mutations of the session to the log buffer. -/
def fillMutator : Executor × Ret :=
  if e.ctx.mutatorSize ≠ 0 ∨
      (task.packetCode ≠ .phyPlanExecute ∧ task.packetCode ≠ .endTransaction) then
    match e.ctx.host with
    | none => (e, .errUnexpected)
    | some uncommitedChecksum =>
      let ucChecksum := crc64 uncommitedChecksum e.ctx.ucChecksum
      let ctx := { e.ctx with
        mutateTimestamp := e.ctx.transId
        checksumBeforeMutate := uncommitedChecksum
        checksumAfterMutate := ucChecksum ^^^ e.ctx.checksum }
      let ret := fillCommitLog o.writeLog
      if ret = .success then
        ({ e with ctx := { ctx with ucChecksum := ucChecksum, host := some ucChecksum } }, ret)
      else
        ({ e with ctx := ctx }, ret)
  else
    ({ e with ctx := { e.ctx with host := none } }, .success)

/-- `TransExecutor::fill_log_`. -/
def fillLog : Executor × Ret :=
  match fillMutator crc64 o task e with
  | (e, .success) =>
    if o.filledCursor.1 ≠ .success then (e, o.filledCursor.1)
    else if o.pushed then
      ({ e with
          flushQueue := e.flushQueue ++ [(o.filledCursor.2, task)]
          ctx := { e.ctx with frozen := true } }, .success)
    else ({ e with killSelf := true }, .memOverflow)
  | (e, ret) => (e, ret)

/-- `TransExecutor::commit_log_`: the buffer is flushed when the flush queue is not empty. -/
def commitLog (asyncFlushLog : Ret) (e : Executor) : Ret :=
  if 0 < e.flushQueue.length then asyncFlushLog else .success

/-- The retry around `fill_log_` in `handle_write_commit_`. Its return code is the variable
declared inside the block, which nothing after the block reads. -/
def fillLogTwice (o : Outcomes) (task : Task) (e : Executor) : Executor × Ret :=
  match fillLog crc64 o.fill task e with
  | (e, .success) => (e, .success)
  | (e, .eAgain) =>
    match commitLog o.flushLog e with
    | .success => fillLog crc64 o.fillAgain task e
    | ret => (e, ret)
  | (e, ret) => (e, ret)

/-- What `handle_write_commit_` does to the session before it fills the log: the transaction id
enters the checksum, and the process is told to stop when it is not positive. -/
def chainTransId : Executor :=
  { e with
      ctx := { e.ctx with ucChecksum := crc64 e.ctx.ucChecksum e.ctx.transId.toUInt64 }
      killSelf := e.killSelf || decide (e.ctx.transId ≤ 0) }

/-- The block of `handle_write_commit_` for a task with a valid session id. What `fill_log_`
returned is lost at its end: the return code is that of the calls before. -/
def withSession (o : Outcomes) (task : Task) (e : Executor) : Executor × Ret :=
  if o.fetchSession ≠ .success then ({ e with killSelf := true }, o.fetchSession)
  else
    match updateCommitedTransId e with
    | (e, .success) => ((fillLogTwice crc64 o task (chainTransId crc64 e)).1, .success)
    | (e, ret) => ({ e with killSelf := true }, ret)

/-- `TransExecutor::handle_write_commit_`. -/
def handleWriteCommit (o : Outcomes) (task : Task) (e : Executor) : Executor × Ret :=
  let (e, ret) := if task.sidIsValid then withSession crc64 o task e else (e, .transRollbacked)
  let ret :=
    if ret = .success ∧ (o.queuedNum = 0 ∨ maxBatchNum ≤ e.uncommitedSessionList.length) then
      commitLog o.closingFlush e
    else ret
  if ret ≠ .success then ({ e with responses := e.responses ++ [(ret, task)] }, ret)
  else (e, ret)

/-! ### What becomes of the task -/

/-- The task is queued once, with its session frozen. -/
def Queued (before after : Executor) : Prop :=
  (∃ logId, after.flushQueue = before.flushQueue ++ [(logId, task)]) ∧ after.ctx.frozen = true

/-- One error is answered to the task. -/
def Answered (before after : Executor) : Prop :=
  ∃ ret, ret ≠ .success ∧ after.responses = before.responses ++ [(ret, task)]

/-- The task ends up in **exactly one of two ways**: queued, or answered with an error. -/
def SettledOnce (before after : Executor) : Prop :=
  (Queued task before after ∧ after.responses = before.responses) ∨
    (after.flushQueue = before.flushQueue ∧ Answered task before after)

/-- `fill_log_` has mutations to write: the session has some, or the packet is of another kind. -/
def NeedsLog : Prop :=
  e.ctx.mutatorSize ≠ 0 ∨
    (task.packetCode ≠ .phyPlanExecute ∧ task.packetCode ≠ .endTransaction)

/-- What has to be written has a memtable, and `write_log` takes it. -/
def FillOutcome.Writes : Prop :=
  NeedsLog task e → e.ctx.host.isSome ∧ o.writeLog = .success

/-- The callees of one `fill_log_` all succeed. -/
def FillOutcome.Succeeds : Prop :=
  o.Writes task e ∧ o.filledCursor.1 = .success ∧ o.pushed = true

/-- The log buffer is full, or the cursor asks to be read again. -/
def FillOutcome.AsksAgain : Prop :=
  (NeedsLog task e ∧ e.ctx.host.isSome ∧ o.writeLog = .bufNotEnough) ∨
    (o.Writes task e ∧ o.filledCursor.1 = .eAgain)

/-- The task's log is filled: at once, or after a flush that does not fail. -/
def Outcomes.Logs (o : Outcomes) (task : Task) (e : Executor) : Prop :=
  o.fill.Succeeds task e ∨
    (o.fill.AsksAgain task e ∧ (e.flushQueue = [] ∨ o.flushLog = .success) ∧
      o.fillAgain.Succeeds task e)

/-- The task ends a batch: no further task waits, or the batch is full. -/
def Outcomes.EndsBatch (o : Outcomes) (e : Executor) : Prop :=
  o.queuedNum = 0 ∨ maxBatchNum ≤ e.uncommitedSessionList.length

/-- What filling the log does to the queue and the session, by its return code; it answers
nobody. -/
structure FillSpec (task : Task) (e : Executor) (r : Executor × Ret) : Prop where
  responses : r.1.responses = e.responses
  list : r.1.uncommitedSessionList = e.uncommitedSessionList
  filled : r.2 = .success → Queued task e r.1
  failed : r.2 ≠ .success → r.1.flushQueue = e.flushQueue

variable {o : Outcomes} {task : Task} {e e' : Executor}

theorem FillSpec.trans {r : Executor × Ret}
    (hr : FillSpec task e' r) (hresponses : e'.responses = e.responses)
    (hlist : e'.uncommitedSessionList = e.uncommitedSessionList)
    (hqueue : e'.flushQueue = e.flushQueue) : FillSpec task e r := by
  refine ⟨hr.responses.trans hresponses, hr.list.trans hlist, fun h => ?_, fun h => ?_⟩
  · rw [Queued, ← hqueue]
    exact hr.filled h
  · rw [hr.failed h, hqueue]

theorem fillMutator_spec (o : FillOutcome) (task : Task) (e : Executor) :
    (fillMutator crc64 o task e).1.responses = e.responses ∧
      (fillMutator crc64 o task e).1.uncommitedSessionList = e.uncommitedSessionList ∧
      (fillMutator crc64 o task e).1.flushQueue = e.flushQueue := by
  unfold fillMutator
  split
  · split
    · simp
    · dsimp only
      split <;> simp
  · simp

theorem fillLog_spec (o : FillOutcome) (task : Task) (e : Executor) :
    FillSpec task e (fillLog crc64 o task e) := by
  obtain ⟨hresponses, hlist, hqueue⟩ := fillMutator_spec crc64 o task e
  unfold fillLog
  split
  · next e' heq =>
    rw [heq] at hresponses hlist hqueue
    split
    · next hcursor => exact ⟨hresponses, hlist, fun h => absurd h hcursor, fun _ => hqueue⟩
    split
    · refine ⟨hresponses, hlist, fun _ => ⟨⟨o.filledCursor.2, ?_⟩, rfl⟩, fun h => absurd rfl h⟩
      rw [← hqueue]
    · exact ⟨hresponses, hlist, nofun, fun _ => hqueue⟩
  · next e' ret hne heq =>
    rw [heq] at hresponses hlist hqueue
    exact ⟨hresponses, hlist, fun h => absurd h hne, fun _ => hqueue⟩

/-- The retry queues the task at most once: a failed first `fill_log_` has not queued it. -/
theorem fillLogTwice_spec (o : Outcomes) (task : Task) (e : Executor) :
    FillSpec task e (fillLogTwice crc64 o task e) := by
  have hfirst := fillLog_spec crc64 o.fill task e
  unfold fillLogTwice
  split
  · next e' heq => rwa [heq] at hfirst
  · next e' heq =>
    rw [heq] at hfirst
    have hqueue : e'.flushQueue = e.flushQueue := hfirst.failed nofun
    split
    · exact (fillLog_spec crc64 o.fillAgain task e').trans hfirst.responses hfirst.list hqueue
    · next hne => exact ⟨hfirst.responses, hfirst.list, fun h => absurd h hne, fun _ => hqueue⟩
  · next e' ret _ _ heq => rwa [heq] at hfirst

/-- Filling the log keeps what decides whether the log has to be filled and can be. -/
structure SameNeed (task : Task) (e e' : Executor) : Prop where
  needsLog : NeedsLog task e' ↔ NeedsLog task e
  host : NeedsLog task e → (e'.ctx.host.isSome ↔ e.ctx.host.isSome)

theorem SameNeed.writes_iff (h : SameNeed task e e') (o : FillOutcome) :
    o.Writes task e' ↔ o.Writes task e := by
  rw [FillOutcome.Writes, FillOutcome.Writes, h.needsLog]
  exact imp_congr_right fun hneed => by rw [h.host hneed]

theorem SameNeed.succeeds_iff (h : SameNeed task e e') (o : FillOutcome) :
    o.Succeeds task e' ↔ o.Succeeds task e :=
  and_congr_left fun _ => h.writes_iff o

theorem SameNeed.asksAgain_iff (h : SameNeed task e e') (o : FillOutcome) :
    o.AsksAgain task e' ↔ o.AsksAgain task e := by
  rw [FillOutcome.AsksAgain, FillOutcome.AsksAgain, h.writes_iff, h.needsLog]
  refine or_congr (and_congr_right fun hneed => ?_) Iff.rfl
  rw [h.host hneed]

theorem fillMutator_ret (o : FillOutcome) (task : Task) (e : Executor) :
    ((fillMutator crc64 o task e).2 = .success ↔ o.Writes task e) ∧
      ((fillMutator crc64 o task e).2 = .eAgain ↔
        NeedsLog task e ∧ e.ctx.host.isSome ∧ o.writeLog = .bufNotEnough) ∧
      SameNeed task e (fillMutator crc64 o task e).1 := by
  unfold fillMutator
  split
  · next hneed =>
    change NeedsLog task e at hneed
    cases hhost : e.ctx.host with
    | none =>
      exact ⟨by simp [FillOutcome.Writes, hneed, hhost], by simp, Iff.rfl, fun _ => Iff.rfl⟩
    | some checksum =>
      have hret : (fillCommitLog o.writeLog = .success ↔ o.writeLog = .success) ∧
          (fillCommitLog o.writeLog = .eAgain ↔ o.writeLog = .bufNotEnough) := by
        unfold fillCommitLog
        split_ifs with hfull hfail <;> simp_all
      dsimp only
      split_ifs
      all_goals
        refine ⟨by simp [FillOutcome.Writes, hneed, hhost, hret.1], by simp [hneed, hret.2],
          Iff.rfl,
          fun _ => by simp [hhost]⟩
  · next hneed =>
    change ¬ NeedsLog task e at hneed
    exact ⟨by simp [FillOutcome.Writes, hneed], by simp [hneed], Iff.rfl,
      fun h => absurd h hneed⟩

/-- When one `fill_log_` succeeds, and when it asks to be called again. -/
theorem fillLog_ret (o : FillOutcome) (task : Task) (e : Executor) :
    ((fillLog crc64 o task e).2 = .success ↔ o.Succeeds task e) ∧
      ((fillLog crc64 o task e).2 = .eAgain ↔ o.AsksAgain task e) ∧
      ((fillLog crc64 o task e).2 = .eAgain → SameNeed task e (fillLog crc64 o task e).1) := by
  obtain ⟨hok, hagain, hsame⟩ := fillMutator_ret crc64 o task e
  unfold fillLog FillOutcome.Succeeds FillOutcome.AsksAgain
  rw [← hok, ← hagain]
  split
  · next e' heq =>
    rw [heq] at hsame ⊢
    by_cases hcursor : o.filledCursor.1 = .success
    · cases hpushed : o.pushed <;> simp [hcursor]
    · rw [if_pos hcursor]
      exact ⟨by simp [hcursor], by simp, fun _ => hsame⟩
  · next e' ret hne heq =>
    have hfail : ret ≠ .success := hne
    rw [heq] at hsame ⊢
    exact ⟨by simp [hfail], by simp [hfail], fun _ => hsame⟩

variable (o task e)

/-- The retry succeeds exactly when the answers of the callees let it. -/
theorem fillLogTwice_ret :
    (fillLogTwice crc64 o task e).2 = .success ↔ o.Logs task e := by
  obtain ⟨hok, hagain, hsame⟩ := fillLog_ret crc64 o.fill task e
  have hfirst := fillLog_spec crc64 o.fill task e
  unfold fillLogTwice Outcomes.Logs
  rw [← hok, ← hagain]
  split
  · next e' heq => simp [heq]
  · next e' heq =>
    rw [heq] at hsame hfirst ⊢
    have hqueue : e'.flushQueue = e.flushQueue := hfirst.failed nofun
    have hflush :
        commitLog o.flushLog e' = .success ↔ e.flushQueue = [] ∨ o.flushLog = .success := by
      rw [commitLog, hqueue]
      rcases e.flushQueue with _ | ⟨first, rest⟩ <;> simp
    split
    · next hcommit =>
      rw [(fillLog_ret crc64 o.fillAgain task e').1, (hsame rfl).succeeds_iff]
      simp [hflush.1 hcommit]
    · next hne =>
      have hfail : commitLog o.flushLog e' ≠ .success := hne
      simp [mt hflush.2 hfail, hfail]
  · next e' ret hne hne' heq =>
    rw [heq]
    simp_all

/-- The executor when `fill_log_` is first called. -/
def atFill : Executor := chainTransId crc64 (updateCommitedTransId e).1

/-- One of the two `fill_log_` succeeds. -/
def Filled : Prop :=
  (fillLogTwice crc64 o task (atFill crc64 e)).2 = .success

/-- The flush at the end of `handle_write_commit_` is reached and fails. -/
def ClosingFlushFails : Prop :=
  (o.queuedNum = 0 ∨ maxBatchNum ≤ e.uncommitedSessionList.length) ∧
    commitLog o.closingFlush (fillLogTwice crc64 o task (atFill crc64 e)).1 ≠ .success

theorem atFill_spec : (atFill crc64 e).responses = e.responses ∧
    (atFill crc64 e).uncommitedSessionList = e.uncommitedSessionList ∧
    (atFill crc64 e).flushQueue = e.flushQueue := by
  unfold atFill updateCommitedTransId chainTransId
  split <;> simp

theorem sameNeed_atFill : SameNeed task e (atFill crc64 e) := by
  unfold atFill updateCommitedTransId chainTransId
  split <;> exact ⟨Iff.rfl, fun _ => Iff.rfl⟩

theorem filled_iff :
    Filled crc64 o task e ↔ o.Logs task e := by
  have hsame := sameNeed_atFill crc64 task e
  rw [Filled, fillLogTwice_ret, Outcomes.Logs, Outcomes.Logs, hsame.succeeds_iff,
    hsame.succeeds_iff, hsame.asksAgain_iff, (atFill_spec crc64 e).2.2]

/-- The closing flush fails when it is reached with something to flush: tasks that waited already,
or the task itself. -/
theorem closingFlushFails_iff :
    ClosingFlushFails crc64 o task e ↔
      o.EndsBatch e ∧ (e.flushQueue ≠ [] ∨ o.Logs task e) ∧ o.closingFlush ≠ .success := by
  obtain ⟨hresponses, hlist, hqueue⟩ := atFill_spec crc64 e
  have hspec := (fillLogTwice_spec crc64 o task _).trans hresponses hlist hqueue
  refine and_congr_right fun _ => ?_
  rw [← filled_iff crc64, commitLog]
  by_cases hfilled : Filled crc64 o task e
  · obtain ⟨⟨logId, hafter⟩, -⟩ := hspec.filled hfilled
    simp [hafter, hfilled]
  · rw [hspec.failed hfilled]
    rcases e.flushQueue with _ | ⟨first, rest⟩ <;> simp [hfilled]

theorem updateCommitedTransId_eq :
    updateCommitedTransId e = ((updateCommitedTransId e).1, .success) := by
  unfold updateCommitedTransId
  split <;> rfl

theorem withSession_eq (hfetch : o.fetchSession = .success) :
    withSession crc64 o task e = ((fillLogTwice crc64 o task (atFill crc64 e)).1, .success) := by
  unfold withSession
  rw [if_neg (not_not.2 hfetch), updateCommitedTransId_eq]
  rfl

/-- What is left of a task whose session is fetched: the flush queue as the two `fill_log_`
left it, and one error when the closing flush fails. -/
theorem handleWriteCommit_eq
    (hvalid : task.sidIsValid = true) (hfetch : o.fetchSession = .success) :
    let filled := (fillLogTwice crc64 o task (atFill crc64 e)).1
    (¬ ClosingFlushFails crc64 o task e → (handleWriteCommit crc64 o task e).1 = filled) ∧
      (ClosingFlushFails crc64 o task e → (handleWriteCommit crc64 o task e).1 =
        { filled with
          responses := filled.responses ++ [(commitLog o.closingFlush filled, task)] }) := by
  have hlist : (fillLogTwice crc64 o task (atFill crc64 e)).1.uncommitedSessionList =
      e.uncommitedSessionList :=
    (fillLogTwice_spec crc64 o task _).list.trans (atFill_spec crc64 e).2.1
  simp only [handleWriteCommit, hvalid, if_true, withSession_eq crc64 o task e hfetch,
    ClosingFlushFails, hlist]
  by_cases hlast : o.queuedNum = 0 ∨ maxBatchNum ≤ e.uncommitedSessionList.length
  · constructor <;> intro h <;> simp_all
  · simp [hlast]

theorem answered_of_fetchSession_fails
    (hvalid : task.sidIsValid = true) (hfetch : o.fetchSession ≠ .success) :
    SettledOnce task e (handleWriteCommit crc64 o task e).1 := by
  refine .inr ⟨?_, o.fetchSession, hfetch, ?_⟩ <;>
    simp [handleWriteCommit, hvalid, withSession, hfetch]

/-- The task is settled exactly when it is queued without an error answered, or answered with an
error and not queued. -/
theorem settledOnce_iff_filled
    (hvalid : task.sidIsValid = true) (hfetch : o.fetchSession = .success) :
    SettledOnce task e (handleWriteCommit crc64 o task e).1 ↔
      (Filled crc64 o task e ↔ ¬ ClosingFlushFails crc64 o task e) := by
  obtain ⟨hquiet, hloud⟩ := handleWriteCommit_eq crc64 o task e hvalid hfetch
  have hspec : FillSpec task e (fillLogTwice crc64 o task (atFill crc64 e)) := by
    obtain ⟨hresponses, hlist, hqueue⟩ := atFill_spec crc64 e
    exact (fillLogTwice_spec crc64 o task _).trans hresponses hlist hqueue
  by_cases hfilled : Filled crc64 o task e <;>
    by_cases hclosing : ClosingFlushFails crc64 o task e
  -- queued and answered
  · refine iff_of_false ?_ (by simp [hfilled, hclosing])
    obtain ⟨⟨logId, hqueue⟩, -⟩ := hspec.filled hfilled
    rintro (⟨-, hresponses⟩ | ⟨hsame, -⟩)
    · simp [hloud hclosing, hspec.responses] at hresponses
    · simp [hloud hclosing, hqueue] at hsame
  · refine iff_of_true (.inl ?_) (by simp [hfilled, hclosing])
    rw [hquiet hclosing]
    exact ⟨hspec.filled hfilled, hspec.responses⟩
  · refine iff_of_true (.inr ?_) (by simp [hfilled, hclosing])
    rw [hloud hclosing]
    exact ⟨hspec.failed hfilled, _, hclosing.2, by rw [hspec.responses]⟩
  -- neither queued nor answered
  · refine iff_of_false ?_ (by simp [hfilled, hclosing])
    rw [hquiet hclosing]
    rintro (⟨⟨⟨logId, hqueue⟩, -⟩, -⟩ | ⟨-, ret, -, hanswer⟩)
    · simp [hspec.failed hfilled] at hqueue
    · simp [hspec.responses] at hanswer

/-- **A task with a valid session is queued or answered, and not both, exactly when** its session
cannot be fetched, or its log is filled and the task ends no batch or the closing flush succeeds,
or its log is not filled and the task ends a batch whose closing flush, of tasks that waited
already, fails. -/
theorem settledOnce_iff
    (hvalid : task.sidIsValid = true) :
    SettledOnce task e (handleWriteCommit crc64 o task e).1 ↔
      o.fetchSession ≠ .success ∨
      (o.Logs task e ∧ (¬ o.EndsBatch e ∨ o.closingFlush = .success)) ∨
      (¬ o.Logs task e ∧ o.EndsBatch e ∧ e.flushQueue ≠ [] ∧ o.closingFlush ≠ .success) := by
  by_cases hfetch : o.fetchSession = .success
  · rw [settledOnce_iff_filled crc64 o task e hvalid hfetch, filled_iff, closingFlushFails_iff]
    rw [or_iff_right (not_not.2 hfetch)]
    by_cases hlogs : o.Logs task e
    · simp [hlogs, imp_iff_not_or]
    · simp [hlogs]
  · simp [hfetch, answered_of_fetchSession_fails crc64 o task e hvalid hfetch]

end

/-- An idle executor whose session has written one row. -/
def idleExecutor : Executor where
  ctx := ⟨7, 1, some 0, 0, 0, 0, 0, 0, false, false⟩
  commitedTransId := 0
  flushQueue := []
  uncommitedSessionList := []
  responses := []
  killSelf := false

def endTask : Task := ⟨1, .endTransaction, true⟩

def allSucceed : Outcomes where
  fetchSession := .success
  fill := ⟨.success, (.success, 12), true⟩
  flushLog := .success
  fillAgain := ⟨.success, (.success, 12), true⟩
  queuedNum := 0
  closingFlush := .success

/-- The log buffer is full at first; the task is queued after a flush, and its batch is flushed. -/
def fullAtFirst : Outcomes := { allSucceed with fill := ⟨.bufNotEnough, (.success, 12), true⟩ }

theorem settledOnce_iff_fullAtFirst :
    endTask.sidIsValid = true ∧ SettledOnce endTask idleExecutor
      (handleWriteCommit (fun _ _ => 0) fullAtFirst endTask idleExecutor).1 := by
  refine ⟨rfl, (settledOnce_iff (fun _ _ => 0) fullAtFirst endTask idleExecutor rfl).2 ?_⟩
  refine .inr (.inl ⟨.inr ⟨.inl ⟨.inl (by decide), rfl, rfl⟩, .inl rfl, ?_⟩, .inr rfl⟩)
  exact ⟨fun _ => ⟨rfl, rfl⟩, rfl, rfl⟩

/-- `write_log` fails, and other tasks are waiting. -/
def writeLogFails : Outcomes :=
  { allSucceed with fill := ⟨.error, (.success, 12), true⟩, queuedNum := 3 }

/-- When the log cannot be written and other tasks are waiting, the task is neither queued nor
answered, and the handler returns success. -/
theorem not_settledOnce_writeLogFails :
    endTask.sidIsValid = true ∧
      (handleWriteCommit (fun _ _ => 0) writeLogFails endTask idleExecutor).2 = .success ∧
      (handleWriteCommit (fun _ _ => 0) writeLogFails endTask idleExecutor).1.flushQueue = [] ∧
      (handleWriteCommit (fun _ _ => 0) writeLogFails endTask idleExecutor).1.responses = [] ∧
      ¬ SettledOnce endTask idleExecutor
        (handleWriteCommit (fun _ _ => 0) writeLogFails endTask idleExecutor).1 := by
  refine ⟨rfl, rfl, rfl, rfl, ?_⟩
  rintro (⟨⟨⟨logId, hqueue⟩, -⟩, -⟩ | ⟨-, ret, -, hanswer⟩)
  · cases hqueue
  · cases hanswer

end WriteCommit

end OceanBase.UpdateServer
