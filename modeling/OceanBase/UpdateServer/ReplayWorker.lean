import OceanBase.Common.LogEntry
import OceanBase.Common.SeqQueue
import OceanBase.Lib.Except

/-!
# The log replay worker (`ob_log_replay_worker.cpp`)

One thread submits the committed logs in the order of their ids. The apply workers take them in
any order, apply them, and add them to the sequence queue; the commit thread takes them out of the
queue one id after the other and ends their transactions. A barrier log waits until every smaller
id is committed, and every later log waits for the last barrier before it.

Each access to the counters, the error flag and the queue is a step of its own. The queues in front
of the workers are modelled by what they promise: a pushed task is handled once, by some worker, at
some time. The applier's answers are arbitrary.

In every interleaving each log is applied at most once and before it is committed, commits come in
consecutive ids, and both sides of a barrier are kept apart (`ReplayWorker.lawful_of_run`).
-/

namespace OceanBase.UpdateServer

open Common List SeqQueueState

/-! ### The code -/

/-- `ObLogTask`, as far as the replay worker looks at it. -/
structure LogTask where
  logId : Int
  barrierLogId : Int
  deriving DecidableEq, Repr

/-- A log to replay: its entry, and whether the mutator it carries says in its header that it is a
normal one. -/
structure CommitLog where
  entry : LogEntry
  isNormalMutator : Except Ret Bool

def isBarrierLog (log : CommitLog) : Except Ret Bool :=
  if log.entry.getLogDataLen ≤ 0 then .error .invalidArgument
  else if log.entry.cmd = LogCommand.nop.code ∨ log.entry.cmd = LogCommand.switchLog.code then
    .ok false
  else if log.entry.cmd = LogCommand.upsMutator.code then log.isNormalMutator.map not
  else .ok true

/-- A task that `submit` is about to push. -/
structure Submission where
  task : LogTask
  entry : LogEntry
  isBarrier : Bool

/-- Where `handle_apply` stands in a worker. -/
inductive WorkerPc where
  | idle
  /-- Before the condition of the loop around `replay`. -/
  | replayLoop (task : LogTask)
  /-- Before the barrier is looked up. -/
  | replay (task : LogTask)
  /-- Before the applier is called. -/
  | apply (task : LogTask)
  /-- `replay` has returned something else than `OB_EAGAIN`. -/
  | replayed (task : LogTask) (err : Ret)
  /-- Before the condition of the loop around `commit_queue_.add`. -/
  | addLoop (task : LogTask)
  /-- In `commit_queue_.add`. -/
  | add (task : LogTask)
  /-- `add` has failed for good. -/
  | failed (err : Ret)

/-- The task a worker is busy with. -/
def WorkerPc.task? : WorkerPc → Option LogTask
  | .idle | .failed _ => none
  | .replayLoop task | .replay task | .apply task | .replayed task _ | .addLoop task | .add task =>
    some task

/-- Where `do_commit` stands. -/
inductive CommitPc where
  | loop
  /-- In `commit_queue_.get`. -/
  | get
  | endTransaction (task : LogTask)
  | setNextCommit (task : LogTask)
  | flush
  /-- The loop was left with an error. -/
  | failed (err : Ret)
  | finished

/-- What the applier was made to do. -/
inductive ReplayEvent where
  | applied (logId : Int)
  | committed (logId : Int)
  deriving DecidableEq, Repr

/-- `ObLogReplayWorker` with the threads `τ` of its apply workers, the ids of the barrier logs
submitted so far, and the events so far. -/
structure ReplayWorker (τ : Type*) where
  flyingTransNoLimit : Int
  nextSubmitLogId : Int
  nextCommitLogId : Int
  lastBarrierLogId : Int
  replayCursor : LogCursor
  err : Ret
  stop : Bool
  submitting : Option Submission
  pending : List LogTask
  workers : τ → WorkerPc
  commitQueue : SeqQueueState τ LogTask
  committer : CommitPc
  barriers : List Int
  events : List ReplayEvent

/-- The moves of the threads. Where the applier is called, the move says what it returns. -/
inductive ReplayMove (τ : Type*) where
  | submit (log : CommitLog)
  | push (full : Bool)
  | take (t : τ) (i : Nat)
  | work (t : τ) (ret : Ret)
  | commit (timedOut : Bool) (ret : Ret)
  | stop

namespace ReplayWorker

section Code

variable {τ : Type*}

/-- `init` and `start_log`. -/
def startLog (queueLen : Int) (cursor : LogCursor) : Except Ret (ReplayWorker τ) :=
  if ¬ cursor.isValid then .error .invalidArgument
  else
    (SeqQueue.init queueLen).bind fun q => (q.update cursor.logId).map fun q =>
      { flyingTransNoLimit := queueLen
        nextSubmitLogId := cursor.logId
        nextCommitLogId := cursor.logId
        lastBarrierLogId := cursor.logId - 1
        replayCursor := cursor
        err := .success
        stop := false
        submitting := none
        pending := []
        workers := fun _ => .idle
        commitQueue := .ofQueue q
        committer := .loop
        barriers := []
        events := [] }

variable (s : ReplayWorker τ)

/-- The condition of every loop fails. Both flags are only ever raised, so reading them one after
the other is the same as reading them at once. -/
def Halted : Prop := s.stop = true ∨ s.err ≠ .success

instance : Decidable s.Halted := inferInstanceAs (Decidable (_ ∨ _))

def isTaskCommited (logId : Int) : Prop := logId < s.nextCommitLogId

instance (logId : Int) : Decidable (s.isTaskCommited logId) :=
  inferInstanceAs (Decidable (_ < _))

/-- `submit` up to the push. -/
def submitTask (log : CommitLog) : Except Ret Submission :=
  let seq := log.entry.seq.toInt
  if s.stop then .error .canceled
  else if s.err ≠ .success then .error s.err
  else if s.nextSubmitLogId ≠ seq then .error .discontinuousLog
  else if s.nextCommitLogId + s.flyingTransNoLimit ≤ seq then .error .eAgain
  else
    (isBarrierLog log).map fun isBarrier =>
      ⟨⟨seq, if isBarrier then seq - 1 else s.lastBarrierLogId⟩, log.entry, isBarrier⟩

/-- The push, and `submit` behind it. -/
def pushTask (sub : Submission) : ReplayWorker τ :=
  let id := sub.task.logId
  let s' := { s with
    submitting := none
    pending := s.pending ++ [sub.task]
    barriers := if sub.isBarrier then id :: s.barriers else s.barriers }
  match s.replayCursor.advance sub.entry with
  | .error _ => s'
  | .ok cursor =>
    { s' with
      replayCursor := cursor
      lastBarrierLogId := if sub.isBarrier then id else s.lastBarrierLogId
      nextSubmitLogId := id + 1 }

variable [DecidableEq τ]

/-- A worker goes on to `pc`. -/
def setPc (s : ReplayWorker τ) (t : τ) (pc : WorkerPc) : ReplayWorker τ :=
  { s with workers := Function.update s.workers t pc }

/-- The next access of `handle_apply`; `ret` is what the applier returns. -/
def work (s : ReplayWorker τ) (t : τ) (ret : Ret) : Option (ReplayWorker τ) :=
  match s.workers t with
  | .idle => none
  | .replayLoop task =>
    some (if s.Halted then s.setPc t (.addLoop task) else s.setPc t (.replay task))
  | .replay task =>
    some (if task.logId = 0 then s.setPc t (.replayed task .errUnexpected)
      else if ¬ s.isTaskCommited task.barrierLogId then s.setPc t (.replayLoop task)
      else s.setPc t (.apply task))
  | .apply task =>
    some (if ret = .eAgain then s.setPc t (.replayLoop task)
      else if ret = .success then
        { s.setPc t (.replayed task .success) with events := s.events ++ [.applied task.logId] }
      else s.setPc t (.replayed task ret))
  | .replayed task err =>
    some (if err ≠ .success then { s.setPc t (.addLoop task) with err := err }
      else s.setPc t (.addLoop task))
  | .addLoop task =>
    if s.Halted then some (s.setPc t .idle)
    else
      (s.commitQueue.step (.callAdd t task.logId task)).map fun q =>
        { s.setPc t (.add task) with commitQueue := q }
  | .add task =>
    (s.commitQueue.adds t).map fun c =>
      let s' := { s with commitQueue := s.commitQueue.stepAdd t c }
      match (c.next s.commitQueue.queue).2 with
      | .inl _ => s'
      | .inr err =>
        if err = .eAgain then s'.setPc t (.addLoop task)
        else if err = .success then s'.setPc t .idle
        else s'.setPc t (.failed err)
  | .failed err => some { s.setPc t .idle with err := err }

/-- The next access of `do_commit`; `ret` is what the applier returns. -/
def commit (s : ReplayWorker τ) (timedOut : Bool) (ret : Ret) : Option (ReplayWorker τ) :=
  match s.committer with
  | .loop =>
    if s.Halted then some { s with committer := .finished }
    else
      match GetCall.enter s.commitQueue.queue with
      | .inl c =>
        some { s with commitQueue := { s.commitQueue with get := some c }, committer := .get }
      | .inr _ => some { s with committer := .failed .errUnexpected }
  | .get =>
    s.commitQueue.get.bind fun c =>
      let s' := { s with commitQueue := s.commitQueue.stepGet c timedOut }
      match (c.next timedOut s.commitQueue.queue).2 with
      | .inl _ => some s'
      | .inr (.error err) =>
        some { s' with committer := if err = .eAgain then .loop else .failed err }
      | .inr (.ok (_, some task)) => some { s' with committer := .endTransaction task }
      -- a null task would be dereferenced
      | .inr (.ok (_, none)) => none
  | .endTransaction task =>
    some (if ret = .success then
      { s with committer := .setNextCommit task, events := s.events ++ [.committed task.logId] }
      else { s with committer := .failed ret })
  | .setNextCommit task =>
    some { s with committer := .flush, nextCommitLogId := task.logId + 1 }
  | .flush => some { s with committer := if ret = .success then .loop else .failed ret }
  -- `run` stops the workers and publishes the error
  | .failed err =>
    some { s with
      committer := .finished
      stop := true
      err := if s.err = .success ∧ err ≠ .eAgain then err else s.err }
  | .finished => none

def step (s : ReplayWorker τ) : ReplayMove τ → Option (ReplayWorker τ)
  | .submit log =>
    if s.submitting.isSome then none
    else
      match s.submitTask log with
      | .error _ => some s
      | .ok sub => some { s with submitting := some sub }
  | .push full =>
    s.submitting.map fun sub => if full then { s with submitting := none } else s.pushTask sub
  | .take t i =>
    match s.workers t with
    | .idle =>
      s.pending[i]?.map fun task =>
        { s.setPc t (.replayLoop task) with pending := s.pending.eraseIdx i }
    | _ => none
  | .work t ret => s.work t ret
  | .commit timedOut ret => s.commit timedOut ret
  | .stop => some { s with stop := true }

end Code

/-! ### What the events must be -/

end ReplayWorker

def ReplayEvent.isCommitted : ReplayEvent → Bool
  | .applied _ => false
  | .committed _ => true

/-- The law of a replay from id `start` on with the given barrier logs, for an event and those
before it. A log is applied once; a barrier log behind every smaller id, and every log behind the
barrier logs below it. A log is committed after it was applied, and its id is the next one. -/
def ReplayEvent.Lawful (start : Int) (barriers : List Int) (past : List ReplayEvent) :
    ReplayEvent → Prop
  | .applied logId =>
    .applied logId ∉ past ∧
    (logId ∈ barriers → ∀ id, start ≤ id → id < logId → .committed id ∈ past) ∧
    ∀ barrier ∈ barriers, barrier < logId → .committed barrier ∈ past
  | .committed logId =>
    .applied logId ∈ past ∧ logId = start + past.countP isCommitted

namespace ReplayWorker

section Invariant

variable {τ : Type*}

/-! ### The invariant -/

variable (s : ReplayWorker τ)

/-- The log has been applied. -/
def Applied (logId : Int) : Prop := .applied logId ∈ s.events

/-- The log is in the commit queue or was. -/
def Added (logId : Int) : Prop := logId ∈ s.commitQueue.added.map Prod.fst

/-- How many logs have been committed. -/
def commits : Nat := s.events.countP ReplayEvent.isCommitted

/-- The barrier of a task is right. -/
structure TaskOk (start : Int) (barriers : List Int) (task : LogTask) : Prop where
  lower : start ≤ task.logId
  barrier_lt : task.barrierLogId < task.logId
  of_barrier : task.logId ∈ barriers → task.barrierLogId = task.logId - 1
  of_later : ∀ barrier ∈ barriers, barrier < task.logId → barrier ≤ task.barrierLogId

/-- What holds of a worker where it stands. -/
def PcOk (t : τ) : WorkerPc → Prop
  | .idle => s.commitQueue.adds t = none
  | .failed err => s.commitQueue.adds t = none ∧ err ≠ .success
  | .replayLoop task | .replay task => s.commitQueue.adds t = none ∧ ¬ s.Applied task.logId
  | .apply task =>
    s.commitQueue.adds t = none ∧ ¬ s.Applied task.logId ∧ task.barrierLogId < s.nextCommitLogId
  | .replayed task err => s.commitQueue.adds t = none ∧ (err = .success → s.Applied task.logId)
  | .addLoop task => s.commitQueue.adds t = none ∧ (s.Applied task.logId ∨ s.Halted)
  | .add task =>
    s.Applied task.logId ∧ ∃ pc, s.commitQueue.adds t = some ⟨task.logId, task, pc⟩

/-- What holds of the commit thread where it stands: how many items it received, how many it
committed, and what the others know of it. -/
def CommitOk (start : Int) (s : ReplayWorker τ) : Prop :=
  match s.committer with
  | .loop | .flush =>
    s.commitQueue.get = none ∧ s.nextCommitLogId = start + s.commits ∧
      s.commitQueue.received.length = s.commits
  | .get =>
    s.nextCommitLogId = start + s.commits ∧ s.commitQueue.received.length = s.commits
  | .endTransaction task =>
    s.commitQueue.get = none ∧ s.nextCommitLogId = start + s.commits ∧
      s.commitQueue.received.length = s.commits + 1 ∧ task.logId = start + s.commits ∧
      s.Applied task.logId
  | .setNextCommit task =>
    s.commitQueue.get = none ∧ s.commitQueue.received.length = s.commits ∧
      task.logId + 1 = start + s.commits ∧ s.nextCommitLogId = task.logId ∧
      .committed task.logId ∈ s.events
  | .failed _ | .finished => True

/-- What every move of the workers keeps. -/
structure Inv (start : Int) (s : ReplayWorker τ) : Prop where
  queue : SeqQueueState.Inv start s.commitQueue
  cursor : s.replayCursor.logId = s.nextSubmitLogId
  start_le : start ≤ s.nextSubmitLogId
  lastBarrier_lt : s.lastBarrierLogId < s.nextSubmitLogId
  start_le_barrier : ∀ barrier ∈ s.barriers, start ≤ barrier
  barriers_le : ∀ barrier ∈ s.barriers, barrier ≤ s.lastBarrierLogId
  submitting : ∀ sub ∈ s.submitting, sub.task.logId = s.nextSubmitLogId ∧
    sub.entry.seq.toInt = sub.task.logId ∧
    sub.task.barrierLogId = if sub.isBarrier then sub.task.logId - 1 else s.lastBarrierLogId
  pending : ∀ task ∈ s.pending, TaskOk start s.barriers task ∧ task.logId < s.nextSubmitLogId ∧
    ¬ s.Applied task.logId ∧ ¬ s.Added task.logId
  nodup : (s.pending.map LogTask.logId).Nodup
  working : ∀ t, ∀ task ∈ (s.workers t).task?, TaskOk start s.barriers task ∧
    task.logId < s.nextSubmitLogId ∧ ¬ s.Added task.logId ∧ task.logId ∉ s.pending.map LogTask.logId
  distinct : ∀ t u, ∀ a ∈ (s.workers t).task?, ∀ b ∈ (s.workers u).task?, a.logId = b.logId → t = u
  pcs : ∀ t, s.PcOk t (s.workers t)
  added : ∀ p task, (p, task) ∈ s.commitQueue.added → task.logId = p ∧ s.Applied p
  applied_lt : ∀ logId, s.Applied logId → logId < s.nextSubmitLogId
  passed : ∀ id, start ≤ id → id < s.nextCommitLogId → .committed id ∈ s.events
  committing : s.CommitOk start
  lawful : Lib.Along (ReplayEvent.Lawful start s.barriers) s.events

variable {start : Int} {s s' : ReplayWorker τ} {t : τ}

theorem PcOk.of_others {pc : WorkerPc} (h : s.PcOk t pc)
    (hadds : s'.commitQueue.adds t = s.commitQueue.adds t)
    (hcommit : s.nextCommitLogId ≤ s'.nextCommitLogId) (hhalted : s.Halted → s'.Halted)
    (happlied : ∀ task ∈ pc.task?, s'.Applied task.logId ↔ s.Applied task.logId) :
    s'.PcOk t pc := by
  cases pc with
  | idle => exact hadds.trans h
  | failed err => exact ⟨hadds.trans h.1, h.2⟩
  | replayLoop task | replay task => exact ⟨hadds.trans h.1, mt (happlied task rfl).1 h.2⟩
  | apply task =>
    exact ⟨hadds.trans h.1, mt (happlied task rfl).1 h.2.1, Int.lt_of_lt_of_le h.2.2 hcommit⟩
  | replayed task err => exact ⟨hadds.trans h.1, fun herr => (happlied task rfl).2 (h.2 herr)⟩
  | addLoop task => exact ⟨hadds.trans h.1, h.2.imp (happlied task rfl).2 hhalted⟩
  | add task =>
    obtain ⟨happ, pc, hpc⟩ := h
    exact ⟨(happlied task rfl).2 happ, pc, hadds.trans hpc⟩

theorem CommitOk.of_others (h : s.CommitOk start) (hcommitter : s'.committer = s.committer)
    (hget : s'.commitQueue.get = s.commitQueue.get)
    (hreceived : s'.commitQueue.received = s.commitQueue.received)
    (hnext : s'.nextCommitLogId = s.nextCommitLogId) (hcommits : s'.commits = s.commits)
    (hevents : s.events ⊆ s'.events) : s'.CommitOk start := by
  unfold CommitOk at h ⊢
  rw [hcommitter, hget, hreceived, hnext, hcommits]
  split <;> simp only [*] at h ⊢
  · exact h
  · exact h
  · exact h
  all_goals exact ⟨h.1, h.2.1, h.2.2.1, h.2.2.2.1, hevents h.2.2.2.2⟩

theorem Inv.setFlags (h : Inv start s) {stop : Bool} {err : Ret}
    (hhalted : s.Halted → stop = true ∨ err ≠ .success) :
    Inv start { s with stop := stop, err := err } :=
  { h with pcs := fun t => (h.pcs t).of_others rfl (Int.le_refl _) hhalted fun _ _ => Iff.rfl }

variable {task : LogTask} {sub : Submission}

/-- Between the barrier and the task nothing is missing. -/
theorem Inv.lawful_apply (h : Inv start s) (hpc : s.workers t = .apply task) :
    ReplayEvent.Lawful start s.barriers s.events (.applied task.logId) := by
  obtain ⟨hok, -⟩ := h.working t task (by rw [hpc]; rfl)
  have hpcok := h.pcs t
  rw [hpc] at hpcok
  obtain ⟨-, hnot, hlt⟩ := hpcok
  refine ⟨hnot, fun hbarrier id hlower hid => ?_, fun barrier hbarrier hid => ?_⟩
  · have hle := hok.of_barrier hbarrier
    exact h.passed id hlower (by omega)
  · have hle := hok.of_later barrier hbarrier hid
    exact h.passed barrier (h.start_le_barrier barrier hbarrier) (by omega)

theorem Inv.submitTask (h : Inv start s) {log : CommitLog}
    (hsub : s.submitTask log = .ok sub) : Inv start { s with submitting := some sub } := by
  refine { h with submitting := fun sub' hsub' => ?_ }
  cases hsub'
  simp only [ReplayWorker.submitTask] at hsub
  split_ifs at hsub with hstop herr hnext hlimit
  obtain ⟨isBarrier, -, rfl⟩ := Lib.except_map_eq_ok.1 hsub
  exact ⟨(not_not.1 hnext).symm, rfl, rfl⟩

theorem Inv.pushTask (h : Inv start s) (hsub : s.submitting = some sub) :
    Inv start (s.pushTask sub) := by
  obtain ⟨hid, hseq, hbarrier⟩ := h.submitting sub hsub
  have hle := h.start_le
  have hlast := h.lastBarrier_lt
  -- the cursor stands at the log, so it moves over it
  obtain ⟨cursor, hcursor, hcursorId⟩ : ∃ c, s.replayCursor.advance sub.entry = .ok c ∧
      c.logId = sub.task.logId + 1 := by
    have hnot : ¬ (s.replayCursor.logId > 0 ∧ sub.entry.seq.toInt ≠ s.replayCursor.logId) := by
      rw [h.cursor, hseq, hid]
      exact fun hc => hc.2 rfl
    unfold LogCursor.advance
    rw [if_neg hnot]
    split_ifs
    all_goals exact ⟨_, rfl, by rw [hseq]⟩
  simp only [ReplayWorker.pushTask, hcursor]
  -- the barriers behind the push, as far as tasks pushed before are concerned
  have hbarriers : ∀ b, b ∈ (if sub.isBarrier then sub.task.logId :: s.barriers else s.barriers) →
      b ∈ s.barriers ∨ b = s.nextSubmitLogId ∧ sub.isBarrier := by
    intro b hb
    split_ifs at hb with hflag
    · rcases mem_cons.1 hb with rfl | hb
      · exact .inr ⟨hid, hflag⟩
      · exact .inl hb
    · exact .inl hb
  have hbefore : ∀ b, b ∈ (if sub.isBarrier then sub.task.logId :: s.barriers else s.barriers) →
      b < s.nextSubmitLogId → b ∈ s.barriers :=
    fun b hb hlt => (hbarriers b hb).resolve_right fun heq => hlt.ne heq.1
  have hold : ∀ task, task.logId < s.nextSubmitLogId → TaskOk start s.barriers task →
      TaskOk start (if sub.isBarrier then sub.task.logId :: s.barriers else s.barriers) task := by
    intro task hlt hok
    exact ⟨hok.lower, hok.barrier_lt, fun hmem => hok.of_barrier (hbefore _ hmem hlt),
      fun b hb hblt => hok.of_later b (hbefore b hb (hblt.trans hlt)) hblt⟩
  -- nothing that is under way has the new id
  have hfresh : ∀ id, id < s.nextSubmitLogId → id ≠ sub.task.logId := by
    intro id hlt
    omega
  have hnotAdded : ¬ s.Added sub.task.logId := by
    intro hadded
    obtain ⟨⟨p, task⟩, hmem, heq⟩ := mem_map.1 hadded
    have hlt := h.applied_lt p (h.added p task hmem).2
    omega
  have hnew : TaskOk start (if sub.isBarrier then sub.task.logId :: s.barriers else s.barriers)
      sub.task := by
    refine ⟨by omega, ?_, fun hmem => ?_, fun b hb hblt => ?_⟩
    · rw [hbarrier]
      split_ifs <;> omega
    · rcases hbarriers _ hmem with hmem | ⟨-, hflag⟩
      · have := h.barriers_le _ hmem
        omega
      · rw [hbarrier, if_pos hflag]
    have := h.barriers_le _ (hbefore b hb (by omega))
    rw [hbarrier]
    split_ifs <;> omega
  exact
    { h with
      cursor := hcursorId
      start_le := show start ≤ sub.task.logId + 1 by omega
      lastBarrier_lt := by
        dsimp only
        split_ifs <;> omega
      start_le_barrier := fun b hb => by
        rcases hbarriers b hb with hb | ⟨rfl, -⟩
        · exact h.start_le_barrier b hb
        · exact hle
      barriers_le := fun b hb => by
        dsimp only
        rcases hbarriers b hb with hb | ⟨rfl, hflag⟩
        · have := h.barriers_le b hb
          split_ifs <;> omega
        · rw [if_pos hflag]
          exact Int.le_of_eq hid.symm
      submitting := nofun
      pending := fun task htask => by
        rcases mem_append.1 htask with htask | htask
        · obtain ⟨hok, hlt, hnot, hadded⟩ := h.pending task htask
          exact ⟨hold task hlt hok, by dsimp only; omega, hnot, hadded⟩
        obtain rfl := mem_singleton.1 htask
        refine ⟨hnew, by dsimp only; omega, fun happlied => ?_, hnotAdded⟩
        exact hfresh _ (h.applied_lt _ happlied) rfl
      nodup := by
        rw [map_append, map_singleton, nodup_append]
        refine ⟨h.nodup, nodup_singleton _, fun id hmem id' hid' => ?_⟩
        obtain ⟨task, htask, rfl⟩ := mem_map.1 hmem
        rw [mem_singleton.1 hid']
        exact hfresh _ (h.pending task htask).2.1
      working := fun t task htask => by
        obtain ⟨hok, hlt, hadded, hpending⟩ := h.working t task htask
        refine ⟨hold task hlt hok, by dsimp only; omega, hadded, ?_⟩
        rw [map_append, mem_append, not_or]
        exact ⟨hpending, fun hmem => hfresh _ hlt (mem_singleton.1 hmem)⟩
      applied_lt := fun id happlied => by
        have := h.applied_lt id happlied
        dsimp only
        omega
      lawful := by
        refine h.lawful.imp fun past e he hlaw => ?_
        cases e with
        | committed id => exact hlaw
        | applied id =>
          have hlt := h.applied_lt id he
          exact ⟨hlaw.1, fun hmem => hlaw.2.1 (hbefore id hmem hlt),
            fun b hb hblt => hlaw.2.2 b (hbefore b hb (hblt.trans hlt)) hblt⟩ }

/-! ### The commit thread -/

variable (h : Inv start s) {q : SeqQueueState τ LogTask} {ret : Ret}

section

include h

theorem Inv.received {c : GetCall LogTask} {timedOut : Bool} {seq : Int}
    {data : Option LogTask} (hget : s.commitQueue.get = some c)
    (hnext : (c.next timedOut s.commitQueue.queue).2 = .inr (.ok (seq, data))) :
    seq = start + s.commitQueue.received.length ∧
      ∃ task, data = some task ∧ task.logId = seq ∧ s.Applied seq := by
  have hinv := h.queue.stepGet hget timedOut
  have horder := hinv.inOrder
  obtain ⟨-, hreceived⟩ := stepGet_of_ok hnext
  have hseqs := horder.seqs
  rw [hreceived, map_append, length_append, length_singleton, range_succ, map_append] at hseqs
  have hlast := (append_inj' hseqs rfl).2
  refine ⟨by simpa using hlast, ?_⟩
  obtain ⟨task, hdata, hmem⟩ := horder.data (seq, data) (by rw [hreceived]; simp)
  rw [added_stepGet] at hmem
  exact ⟨task, hdata, h.added seq task hmem⟩

/-- The commit thread moves, and with it the queue: the workers do not see it. -/
theorem Inv.queueGet {committer : CommitPc}
    (hq : SeqQueueState.Inv start q) (hadds : q.adds = s.commitQueue.adds)
    (hadded : q.added = s.commitQueue.added)
    (hcommit : CommitOk start { s with commitQueue := q, committer := committer }) :
    Inv start { s with commitQueue := q, committer := committer } :=
  { h with
    queue := hq
    pending := fun task htask => by
      obtain ⟨hok, hlt, hnot, hmem⟩ := h.pending task htask
      exact ⟨hok, hlt, hnot, by rwa [Added, hadded]⟩
    working := fun t task htask => by
      obtain ⟨hok, hlt, hmem, hpending⟩ := h.working t task htask
      exact ⟨hok, hlt, by rwa [Added, hadded], hpending⟩
    pcs := fun t =>
      (h.pcs t).of_others (congrFun hadds t) (Int.le_refl _) id fun _ _ => Iff.rfl
    added := fun p task hmem => h.added p task (hadded ▸ hmem)
    committing := hcommit }

theorem Inv.endTransaction (hpc : s.committer = .endTransaction task) :
    Inv start { s with
      committer := .setNextCommit task, events := s.events ++ [.committed task.logId] } := by
  have hcommit := h.committing
  simp only [CommitOk, hpc] at hcommit
  obtain ⟨hget, hnext, hreceived, hid, happlied⟩ := hcommit
  have hsame : ∀ id, .applied id ∈ s.events ++ [.committed task.logId] ↔ s.Applied id := by
    intro id
    simp [Applied]
  have hcommits : (s.events ++ [ReplayEvent.committed task.logId]).countP ReplayEvent.isCommitted =
      s.commits + 1 := by
    simp [commits, ReplayEvent.isCommitted]
  exact
    { h with
      pending := fun a ha => by
        obtain ⟨hok, hlt, hnot, hadded⟩ := h.pending a ha
        exact ⟨hok, hlt, mt (hsame a.logId).1 hnot, hadded⟩
      pcs := fun t => (h.pcs t).of_others rfl (Int.le_refl _) id fun a _ => hsame a.logId
      added := fun p a ha => ⟨(h.added p a ha).1, mem_append_left _ (h.added p a ha).2⟩
      applied_lt := fun id hid => h.applied_lt id ((hsame id).1 hid)
      passed := fun id hlower hlt => mem_append_left _ (h.passed id hlower hlt)
      committing := by
        refine ⟨hget, hreceived.trans hcommits.symm, ?_, hnext.trans hid.symm,
          mem_append_right _ (mem_singleton_self _)⟩
        rw [commits, hcommits]
        omega
      lawful := Lib.along_concat.2 ⟨h.lawful, happlied, hid⟩ }

theorem Inv.setNextCommit (hpc : s.committer = .setNextCommit task) :
    Inv start { s with committer := .flush, nextCommitLogId := task.logId + 1 } := by
  have hcommit := h.committing
  simp only [CommitOk, hpc] at hcommit
  obtain ⟨hget, hreceived, hid, hnext, hmem⟩ := hcommit
  exact
    { h with
      pcs := fun t =>
        (h.pcs t).of_others rfl (by dsimp only; omega) id fun _ _ => Iff.rfl
      passed := fun id hlower hlt => by
        by_cases heq : id = task.logId
        · rwa [heq]
        · exact h.passed id hlower (by dsimp only at hlt; omega)
      committing := ⟨hget, hid, hreceived⟩ }

/-- **A move of the commit thread.** -/
theorem Inv.commit {timedOut : Bool} (hstep : s.commit timedOut ret = some s') : Inv start s' := by
  have hcommit := h.committing
  unfold CommitOk at hcommit
  unfold ReplayWorker.commit at hstep
  rcases hpc : s.committer with _ | _ | task | task | _ | err | _ <;>
    simp only [hpc] at hstep hcommit
  · -- the loop
    split_ifs at hstep with hhalted
    · cases hstep
      exact h.queueGet h.queue rfl rfl trivial
    split at hstep
    next c hc =>
      cases hstep
      exact h.queueGet (h.queue.enter hcommit.1 hc) rfl rfl hcommit.2
    next =>
      cases hstep
      exact h.queueGet h.queue rfl rfl trivial
  · -- in `get`
    obtain ⟨c, hc, hstep⟩ := Option.bind_eq_some_iff.1 hstep
    have hinv := h.queue.stepGet hc timedOut
    have hlen := hcommit.2
    split at hstep
    next c' hc' =>
      cases hstep
      have hreceived := received_stepGet_of_inl hc'
      have hstay : Inv start { s with
          commitQueue := s.commitQueue.stepGet c timedOut, committer := .get } :=
        h.queueGet hinv adds_stepGet added_stepGet ⟨hcommit.1, by rw [hreceived]; exact hlen⟩
      exact hstay
    next err herr =>
      cases hstep
      obtain ⟨hget, hreceived⟩ := stepGet_of_error herr
      refine h.queueGet hinv adds_stepGet added_stepGet ?_
      split_ifs
      · exact ⟨hget, hcommit.1, by rw [hreceived]; exact hlen⟩
      · trivial
    next seq task hok =>
      cases hstep
      obtain ⟨hget, hreceived⟩ := stepGet_of_ok hok
      obtain ⟨hseq, task', htask, hid, happlied⟩ := h.received hc hok
      cases htask
      refine h.queueGet hinv adds_stepGet added_stepGet ⟨hget, hcommit.1, ?_, ?_, ?_⟩
      · simp [hreceived, hlen, commits]
      · rw [hid, hseq, hlen]
        rfl
      · rwa [hid]
    next => cases hstep
  · -- `end_transaction`
    cases hstep
    split_ifs
    · exact h.endTransaction hpc
    · exact h.queueGet h.queue rfl rfl trivial
  · -- the counter
    cases hstep
    exact h.setNextCommit hpc
  · -- `flush`
    cases hstep
    refine h.queueGet h.queue rfl rfl ?_
    split_ifs
    · exact hcommit
    · trivial
  · -- the thread ends
    cases hstep
    have hflags : Inv start { s with
        stop := true, err := if s.err = .success ∧ err ≠ .eAgain then err else s.err } :=
      h.setFlags fun _ => .inl rfl
    exact hflags.queueGet hflags.queue rfl rfl trivial
  · cases hstep

end

section Work

variable [DecidableEq τ]

open Function

@[simp]
theorem workers_setPc_self (s : ReplayWorker τ) (t : τ) (pc : WorkerPc) :
    (s.setPc t pc).workers t = pc :=
  update_self ..

theorem workers_setPc_of_ne (s : ReplayWorker τ) {u : τ} (h : u ≠ t) (pc : WorkerPc) :
    (s.setPc t pc).workers u = s.workers u :=
  update_of_ne h ..

variable {pc : WorkerPc}

/-- A task that a worker has behind the move of `t` to a place with the same task, or none, it had
before. -/
theorem task?_of_setPc {u : τ} (hpc : ∀ task ∈ pc.task?, task ∈ (s.workers t).task?)
    (h : task ∈ ((s.setPc t pc).workers u).task?) : task ∈ (s.workers u).task? := by
  by_cases htu : u = t
  · subst htu
    rw [workers_setPc_self] at h
    exact hpc task h
  · rwa [workers_setPc_of_ne s htu] at h

theorem Inv.setPc (h : Inv start s)
    (htask : ∀ task ∈ pc.task?, task ∈ (s.workers t).task?) (hpc : s.PcOk t pc) :
    Inv start (s.setPc t pc) :=
  { h with
    working := fun u task hu => h.working u task (task?_of_setPc htask hu)
    distinct := fun u v a ha b hb =>
      h.distinct u v a (task?_of_setPc htask ha) b (task?_of_setPc htask hb)
    pcs := (forall_update_iff s.workers (PcOk _)).2 ⟨hpc, fun u _ => h.pcs u⟩ }

theorem setPc_eq_self (h : s.workers t = pc) : s.setPc t pc = s := by
  rw [← h, ReplayWorker.setPc, update_eq_self]

section

include h

variable {t : τ}

theorem Inv.apply (hpc : s.workers t = .apply task) :
    Inv start { s.setPc t (.replayed task .success) with
      events := s.events ++ [.applied task.logId] } := by
  have htask : task ∈ (s.workers t).task? := by
    rw [hpc]
    rfl
  obtain ⟨hok, hlt, hadded, hpending⟩ := h.working t task htask
  have hsame : ∀ a ∈ (WorkerPc.replayed task .success).task?, a ∈ (s.workers t).task? := by
    intro a ha
    cases ha
    exact htask
  -- nobody else is busy with the log
  have happlied : ∀ id, id ≠ task.logId →
      (.applied id ∈ s.events ++ [.applied task.logId] ↔ s.Applied id) := by
    intro id hid
    simp [Applied, hid]
  exact
    { h with
      pending := fun a ha => by
        obtain ⟨haok, halt, hanot, haadded⟩ := h.pending a ha
        have hne : a.logId ≠ task.logId := fun heq => hpending (heq ▸ mem_map_of_mem ha)
        exact ⟨haok, halt, mt (happlied a.logId hne).1 hanot, haadded⟩
      working := fun u a ha => h.working u a (task?_of_setPc hsame ha)
      distinct := fun u v a ha b hb =>
        h.distinct u v a (task?_of_setPc hsame ha) b (task?_of_setPc hsame hb)
      pcs := by
        have hpcok := h.pcs t
        rw [hpc] at hpcok
        refine (forall_update_iff s.workers (PcOk _)).2
          ⟨⟨hpcok.1, fun _ => mem_append_right _ (mem_singleton_self _)⟩, fun u htu => ?_⟩
        refine (h.pcs u).of_others rfl (Int.le_refl _) id fun a ha => happlied a.logId fun heq => ?_
        exact htu (h.distinct u t a ha task htask heq)
      added := fun p a ha => ⟨(h.added p a ha).1, mem_append_left _ (h.added p a ha).2⟩
      applied_lt := fun id hid => by
        by_cases heq : id = task.logId
        · rwa [heq]
        · exact h.applied_lt id ((happlied id heq).1 hid)
      passed := fun id hlower hid => mem_append_left _ (h.passed id hlower hid)
      committing := by
        refine h.committing.of_others rfl rfl rfl rfl ?_ (subset_append_left _ _)
        simp [commits, ReplayEvent.isCommitted]
      lawful := Lib.along_concat.2 ⟨h.lawful, h.lawful_apply hpc⟩ }

/-- The worker `t` makes a move on the commit queue, and goes on to `pc`. -/
theorem Inv.queueAdd (pc : WorkerPc) (htask : task ∈ (s.workers t).task?)
    (hq : SeqQueueState.Inv start q) (hadds : ∀ u, u ≠ t → q.adds u = s.commitQueue.adds u)
    (hget : q.get = s.commitQueue.get) (hreceived : q.received = s.commitQueue.received)
    (hadded : q.added = s.commitQueue.added ∨ pc.task? = none ∧ s.Applied task.logId ∧
      q.added = (task.logId, task) :: s.commitQueue.added)
    (hsame : ∀ a ∈ pc.task?, a ∈ (s.workers t).task?)
    (hpc : PcOk { s with commitQueue := q } t pc) :
    Inv start ({ s with commitQueue := q }.setPc t pc) := by
  obtain ⟨-, -, hnot, hpending⟩ := h.working t task htask
  -- what is added now was added before, or is the task of `t`
  have hmem : ∀ id, id ≠ task.logId → ¬ s.Added id → id ∉ q.added.map Prod.fst := by
    intro id hid hnot
    rcases hadded with heq | ⟨-, -, heq⟩
    · rwa [heq]
    · rw [heq, map_cons, mem_cons, not_or]
      exact ⟨hid, hnot⟩
  exact
    { h with
      queue := hq
      pending := fun a ha => by
        obtain ⟨haok, halt, hanot, haadded⟩ := h.pending a ha
        have hne : a.logId ≠ task.logId := fun heq => hpending (heq ▸ mem_map_of_mem ha)
        exact ⟨haok, halt, hanot, hmem a.logId hne haadded⟩
      working := fun u a ha => by
        have hua := task?_of_setPc (s := s) hsame ha
        obtain ⟨haok, halt, haadded, hapending⟩ := h.working u a hua
        refine ⟨haok, halt, ?_, hapending⟩
        by_cases heq : a.logId = task.logId
        · -- then `t` still has its task, and nothing was added
          obtain rfl : u = t := h.distinct u t a hua task htask heq
          rcases hadded with hsameAdded | ⟨hnone, -, -⟩
          · show a.logId ∉ q.added.map Prod.fst
            rwa [hsameAdded]
          rw [show (({ s with commitQueue := q } : ReplayWorker τ).setPc u pc).workers u = pc from
            workers_setPc_self .., hnone] at ha
          cases ha
        · exact hmem a.logId heq haadded
      distinct := fun u v a ha b hb =>
        h.distinct u v a (task?_of_setPc (s := s) hsame ha) b (task?_of_setPc (s := s) hsame hb)
      pcs := (forall_update_iff s.workers (PcOk _)).2 ⟨hpc, fun u htu =>
        (h.pcs u).of_others (hadds u htu) (Int.le_refl _) id fun _ _ => Iff.rfl⟩
      added := fun p a ha => by
        rcases hadded with heq | ⟨-, happlied, heq⟩
        · exact h.added p a (heq ▸ ha)
        change (p, a) ∈ q.added at ha
        rw [heq] at ha
        cases ha with
        | head => exact ⟨rfl, happlied⟩
        | tail _ ha => exact h.added p a ha
      committing :=
        h.committing.of_others rfl hget hreceived rfl rfl (List.Subset.refl _) }

/-- An access of `commit_queue_.add`, and where the worker goes with its result. -/
theorem Inv.stepAdd {pc : AddPc}
    (hpc : s.workers t = .add task)
    (hcall : s.commitQueue.adds t = some ⟨task.logId, task, pc⟩) {pc' : WorkerPc}
    (hpc' : (∃ c, (AddCall.next ⟨task.logId, task, pc⟩ s.commitQueue.queue).2 = .inl c ∧
        pc' = .add task) ∨
      (AddCall.next ⟨task.logId, task, pc⟩ s.commitQueue.queue).2 = .inr .eAgain ∧
        pc' = .addLoop task ∨
      (AddCall.next ⟨task.logId, task, pc⟩ s.commitQueue.queue).2 = .inr .success ∧ pc' = .idle ∨
      ∃ err, (AddCall.next ⟨task.logId, task, pc⟩ s.commitQueue.queue).2 = .inr err ∧
        err ≠ .success ∧ pc' = .failed err) :
    Inv start ({ s with
      commitQueue := s.commitQueue.stepAdd t ⟨task.logId, task, pc⟩ }.setPc t pc') := by
  have htask : task ∈ (s.workers t).task? := by
    rw [hpc]
    rfl
  have hpcok := h.pcs t
  rw [hpc] at hpcok
  obtain ⟨-, -, hnot, -⟩ := h.working t task htask
  have hinv : SeqQueueState.Inv start (s.commitQueue.stepAdd t ⟨task.logId, task, pc⟩) :=
    h.queue.stepAdd hcall fun _ => hnot
  have hsame : ∀ a ∈ some task, a ∈ (s.workers t).task? := by
    intro a ha
    cases ha
    exact htask
  have hqueue (pc' : WorkerPc) := h.queueAdd pc' htask hinv
    (fun u hu => adds_stepAdd_of_ne hu) get_stepAdd
    received_stepAdd
  rcases hpc' with ⟨c, hc, rfl⟩ | ⟨hret, rfl⟩ | ⟨hret, rfl⟩ | ⟨err, hret, herr, rfl⟩
  · obtain ⟨hself, hadded⟩ := stepAdd_of_inl (t := t) hc
    rw [AddCall.next_inl hc] at hself
    exact hqueue _ (.inl hadded) hsame ⟨hpcok.1, c.pc, hself⟩
  · obtain ⟨hself, hadded⟩ := stepAdd_of_inr (t := t) hret
    exact hqueue _ (.inl hadded) hsame ⟨hself, .inl hpcok.1⟩
  · obtain ⟨hself, hadded⟩ := stepAdd_of_inr (t := t) hret
    exact hqueue _ (.inr ⟨rfl, hpcok.1, hadded⟩) nofun hself
  obtain ⟨hself, hadded⟩ := stepAdd_of_inr (t := t) hret
  rw [if_neg herr] at hadded
  exact hqueue _ (.inl hadded) nofun ⟨hself, herr⟩

/-- **A move of a worker.** -/
theorem Inv.work (hstep : s.work t ret = some s') : Inv start s' := by
  have hpcok := h.pcs t
  have hsame : ∀ {pc task}, s.workers t = pc → pc.task? = some task →
      ∀ a ∈ some task, a ∈ (s.workers t).task? := by
    rintro pc task rfl htask a ha
    rwa [htask]
  unfold ReplayWorker.work at hstep
  rcases hpc : s.workers t with _ | task | task | task | ⟨task, err⟩ | task | task | err <;>
    simp only [hpc] at hstep hpcok
  · cases hstep
  · -- the loop around `replay`
    cases hstep
    split_ifs with hhalted
    · exact h.setPc (hsame hpc rfl) ⟨hpcok.1, .inr hhalted⟩
    · exact h.setPc (hsame hpc rfl) hpcok
  · -- the barrier
    cases hstep
    split_ifs with hzero hbarrier
    · exact h.setPc (hsame hpc rfl) ⟨hpcok.1, nofun⟩
    · exact h.setPc (hsame hpc rfl) ⟨hpcok.1, hpcok.2, hbarrier⟩
    · exact h.setPc (hsame hpc rfl) hpcok
  · -- the applier
    cases hstep
    split_ifs with hagain hsuccess
    · exact h.setPc (hsame hpc rfl) ⟨hpcok.1, hpcok.2.1⟩
    · exact h.apply hpc
    · exact h.setPc (hsame hpc rfl) ⟨hpcok.1, fun hret => absurd hret hsuccess⟩
  · -- behind the loop
    cases hstep
    split_ifs with herr
    · have hraised : Inv start { s with err := err } := h.setFlags fun _ => .inr herr
      exact hraised.setPc (hsame hpc rfl) ⟨hpcok.1, .inr (.inr herr)⟩
    · exact h.setPc (hsame hpc rfl) ⟨hpcok.1, .inl (hpcok.2 (not_not.1 herr))⟩
  · -- the loop around `add`
    split_ifs at hstep with hhalted
    · cases hstep
      exact h.setPc nofun hpcok.1
    obtain ⟨q, hq, rfl⟩ := Option.map_eq_some_iff.1 hstep
    have honce : s.commitQueue.AddsOnce (.callAdd t task.logId task) := trivial
    have hinv : SeqQueueState.Inv start q := h.queue.step honce hq
    obtain rfl : { s.commitQueue with
        adds := update s.commitQueue.adds t (some ⟨task.logId, task, .checkStarted⟩) } = q := by
      simpa [SeqQueueState.step, hpcok.1] using hq
    refine h.queueAdd _ (by rw [hpc]; rfl) hinv (fun u hu => update_of_ne hu ..) rfl rfl
      (.inl rfl) (hsame hpc rfl) ⟨hpcok.2.resolve_right hhalted, ?_⟩
    exact ⟨.checkStarted, update_self ..⟩
  · -- in `add`
    obtain ⟨-, pc, hcall⟩ := hpcok
    rw [hcall] at hstep
    cases hstep
    dsimp only
    split
    next c' hc' =>
      have hstay : ∀ q, ({ s with commitQueue := q } : ReplayWorker τ).setPc t (.add task) =
          { s with commitQueue := q } := fun _ => setPc_eq_self hpc
      have hnext := h.stepAdd hpc hcall (.inl ⟨c', hc', rfl⟩)
      rwa [hstay] at hnext
    next err herr =>
      split_ifs with hagain hsuccess
      · exact h.stepAdd hpc hcall (.inr (.inl ⟨hagain ▸ herr, rfl⟩))
      · exact h.stepAdd hpc hcall (.inr (.inr (.inl ⟨hsuccess ▸ herr, rfl⟩)))
      · exact h.stepAdd hpc hcall (.inr (.inr (.inr ⟨err, herr, hsuccess, rfl⟩)))
  · -- `add` has failed
    cases hstep
    have hraised : Inv start { s with err := err } := h.setFlags fun _ => .inr hpcok.2
    exact hraised.setPc nofun hpcok.1

theorem Inv.take {i : Nat} (hpc : s.workers t = .idle) (htask : s.pending[i]? = some task) :
    Inv start { s.setPc t (.replayLoop task) with pending := s.pending.eraseIdx i } := by
  have hmem : task ∈ s.pending := mem_of_getElem? htask
  obtain ⟨hok, hlt, hnot, hadded⟩ := h.pending task hmem
  have hpcok := h.pcs t
  rw [hpc] at hpcok
  have hsub : ((s.pending.eraseIdx i).map LogTask.logId).Sublist (s.pending.map LogTask.logId) :=
    (eraseIdx_sublist ..).map _
  -- the task is in the queue once
  have hgone : task.logId ∉ (s.pending.eraseIdx i).map LogTask.logId := by
    obtain ⟨hi, rfl⟩ := List.getElem?_eq_some_iff.1 htask
    have hperm := (getElem_cons_eraseIdx_perm hi).map LogTask.logId
    exact (nodup_cons.1 (hperm.nodup_iff.2 h.nodup)).1
  have hcases : ∀ u a, a ∈ ((s.setPc t (.replayLoop task)).workers u).task? →
      u = t ∧ a = task ∨ u ≠ t ∧ a ∈ (s.workers u).task? := by
    intro u a ha
    by_cases htu : u = t
    · subst htu
      rw [workers_setPc_self] at ha
      cases ha
      exact .inl ⟨rfl, rfl⟩
    · rw [workers_setPc_of_ne s htu] at ha
      exact .inr ⟨htu, ha⟩
  have hother : ∀ u, ∀ a ∈ (s.workers u).task?, a.logId ≠ task.logId := by
    intro u a ha heq
    exact (h.working u a ha).2.2.2 (heq ▸ mem_map_of_mem hmem)
  exact
    { h with
      pending := fun a ha => h.pending a (mem_of_mem_eraseIdx ha)
      nodup := h.nodup.sublist hsub
      working := fun u a ha => by
        rcases hcases u a ha with ⟨-, rfl⟩ | ⟨-, ha⟩
        · exact ⟨hok, hlt, hadded, hgone⟩
        · obtain ⟨haok, halt, haadded, hapending⟩ := h.working u a ha
          exact ⟨haok, halt, haadded, fun hmem => hapending (hsub.subset hmem)⟩
      distinct := fun u v a ha b hb heq => by
        rcases hcases u a ha with ⟨rfl, rfl⟩ | ⟨-, hua⟩ <;>
          rcases hcases v b hb with ⟨rfl, rfl⟩ | ⟨-, hvb⟩
        · rfl
        · exact absurd heq.symm (hother v b hvb)
        · exact absurd heq (hother u a hua)
        · exact h.distinct u v a hua b hvb heq
      pcs := (forall_update_iff s.workers (PcOk _)).2 ⟨⟨hpcok, hnot⟩, fun u _ => h.pcs u⟩ }

/-- **One move.** -/
theorem Inv.step {m : ReplayMove τ} (hstep : s.step m = some s') : Inv start s' := by
  cases m with
  | submit log =>
    simp only [ReplayWorker.step] at hstep
    split_ifs at hstep
    split at hstep <;> cases hstep
    next => exact h
    next sub hsub => exact h.submitTask hsub
  | push full =>
    obtain ⟨sub, hsub, rfl⟩ := Option.map_eq_some_iff.1 hstep
    split_ifs
    · exact { h with submitting := nofun }
    · exact h.pushTask hsub
  | take t i =>
    simp only [ReplayWorker.step] at hstep
    split at hstep
    next hpc =>
      obtain ⟨task, htask, rfl⟩ := Option.map_eq_some_iff.1 hstep
      exact h.take hpc htask
    next => cases hstep
  | work t ret => exact h.work hstep
  | commit timedOut ret => exact h.commit hstep
  | stop =>
    cases hstep
    exact h.setFlags fun _ => .inl rfl

end

end Work

theorem inv_startLog {queueLen : Int} {cursor : LogCursor}
    (hstart : startLog queueLen cursor = .ok s) : Inv cursor.logId s := by
  unfold startLog at hstart
  split_ifs at hstart
  obtain ⟨q, hinit, hstart⟩ := Lib.except_bind_eq_ok.1 hstart
  obtain ⟨q', hupdate, rfl⟩ := Lib.except_map_eq_ok.1 hstart
  exact
    { queue := inv_ofQueue hinit hupdate
      cursor := rfl
      start_le := Int.le_refl _
      lastBarrier_lt := show cursor.logId - 1 < cursor.logId by omega
      start_le_barrier := nofun
      barriers_le := nofun
      submitting := nofun
      pending := nofun
      nodup := nodup_nil
      working := nofun
      distinct := nofun
      pcs := fun _ => rfl
      added := nofun
      applied_lt := nofun
      passed := fun id hlower hlt => absurd hlt (Int.not_lt.2 hlower)
      committing := ⟨rfl, show cursor.logId = cursor.logId + 0 by omega, rfl⟩
      lawful := Lib.along_nil }

end Invariant

/-! ### The result -/

/-- **Replay keeps the order.** In every interleaving: every log is applied once and before it is
committed, the ids committed are consecutive from the first on, a barrier log is applied after every
smaller id was committed, and no larger id before the barrier log was. -/
theorem lawful_of_run {τ : Type*} [DecidableEq τ] {queueLen : Int} {cursor : LogCursor}
    {s₀ s : ReplayWorker τ} {moves : List (ReplayMove τ)}
    (hstart : startLog queueLen cursor = .ok s₀) (hrun : Lib.run step s₀ moves = some s) :
    Lib.Along (ReplayEvent.Lawful cursor.logId s.barriers) s.events :=
  (Lib.run_invariant (fun _ _ _ h hstep => h.step hstep) (inv_startLog hstart) hrun).lawful

def smallLog (seq : Nat) (cmd : LogCommand) : CommitLog :=
  ⟨⟨⟨0, 0, 0, 0, 0, 13, 13, 0⟩, BitVec.ofNat 64 seq, cmd.code⟩, .ok true⟩

/-- Log 5 and the barrier log 6. A worker takes the barrier log first and is sent back; the other
one applies log 5; once that is committed the barrier log is applied. -/
def overtakenBarrier : List (ReplayMove Bool) :=
  [.submit (smallLog 5 .nop), .push false, .submit (smallLog 6 .upsSwitchSchema), .push false] ++
  [.take true 1, .work true .success, .work true .success, .take false 0] ++
  List.replicate 12 (.work false .success) ++ List.replicate 9 (.commit false .success) ++
  List.replicate 12 (.work true .success) ++ List.replicate 9 (.commit false .success)

theorem lawful_of_run_overtakenBarrier :
    ∃ s₀ s : ReplayWorker Bool, startLog 2 ⟨1, 5, 0⟩ = .ok s₀ ∧
      Lib.run step s₀ overtakenBarrier = some s ∧ s.barriers = [6] ∧
      s.events = [.applied 5, .committed 5, .applied 6, .committed 6] ∧
      Lib.Along (ReplayEvent.Lawful 5 s.barriers) s.events := by
  obtain ⟨s₀, hs₀⟩ : ∃ s₀ : ReplayWorker Bool, startLog 2 ⟨1, 5, 0⟩ = .ok s₀ := ⟨_, rfl⟩
  have hrun : (Lib.run step s₀ overtakenBarrier).map (fun s => (s.barriers, s.events)) =
      some ([6], [.applied 5, .committed 5, .applied 6, .committed 6]) := by
    cases hs₀
    decide +kernel
  obtain ⟨s, hs, hevents⟩ := Option.map_eq_some_iff.1 hrun
  exact ⟨s₀, s, hs₀, hs, congrArg Prod.fst hevents, congrArg Prod.snd hevents, lawful_of_run hs₀ hs⟩

end ReplayWorker

end OceanBase.UpdateServer
