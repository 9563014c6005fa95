import OceanBase.Lib.Run

/-!
# The transaction sequencer (`ob_inc_seq.h`)

Every packet that enters the update server draws a sequence number and a transaction id from
one sequencer: `CasIncSeq`, a pair of words changed by one 128-bit compare-and-swap (the one in
use), or `LockedIncSeq`, a word guarded by a ticket lock and a reader-writer lock. `next` takes the
caller's clock by reference, so the transaction id handed back is whatever the caller's variable
holds when `next` returns.

`CasIncSeq` is modelled as interleavings of the atomic steps of any number of callers. What a
sequencer is for is said by `LockedIncSeq.replay`, one caller running `LockedIncSeq` alone:
`CasIncSeq` keeps to it exactly when no caller's clock is behind the stored value.

The words are unbounded here, where those of the source have 64 bits and wrap around: the results
are about runs in which neither clocks nor numbers come to `2 ^ 63`.
-/

namespace OceanBase.UpdateServer

open Lib List Function Option

/-- A call of the sequencer, with the argument passed in. -/
inductive SeqCall where
  | next (clock : Int)
  | update (value : Int)
  deriving DecidableEq, Repr

/-- What a `next` hands back: its return value, and the transaction id that the caller's
variable holds afterwards. -/
structure SeqReply where
  seq : Nat
  transId : Int
  deriving DecidableEq, Repr

/-- A call that has taken effect, with its reply if it is a `next`. -/
structure SeqEvent where
  call : SeqCall
  reply : Option SeqReply
  deriving DecidableEq, Repr

/-! ### `CasIncSeq` -/

/-- The two words that `CAS128` changes together. -/
structure CasIncSeq where
  seq : Nat
  value : Int
  deriving DecidableEq, Repr

namespace CasIncSeq

/-- The constructor `CasIncSeq()`. -/
def init : CasIncSeq := ⟨0, 0⟩

/-- The pair `tmp` that `next` computes from the pair it loaded. -/
def nextTmp (old : CasIncSeq) (clock : Int) : CasIncSeq :=
  ⟨old.seq + 1, if clock > old.value then clock else old.value + 1⟩

/-- The pair `tmp` that `update` computes from the pair it loaded. -/
def updateTmp (old : CasIncSeq) (value : Int) : CasIncSeq := ⟨old.seq, value⟩

/-- Where a caller stands in the retry loop of `next` or `update`: the argument, and the pair
`old` once it has been loaded. -/
inductive Pc where
  | idle
  | next (clock : Int) (old : Option CasIncSeq)
  | update (value : Int) (old : Option CasIncSeq)
  deriving DecidableEq, Repr

/-- The shared pair, the callers, and the calls that have taken effect. -/
structure State (θ : Type*) where
  shared : CasIncSeq
  pc : θ → Pc
  history : List SeqEvent

inductive Action (θ : Type*) where
  | callNext (t : θ) (clock : Int)
  | callUpdate (t : θ) (value : Int)
  | load (t : θ)
  | cas (t : θ)

variable {θ : Type*} [DecidableEq θ]

def State.init : State θ := ⟨CasIncSeq.init, fun _ => .idle, []⟩

/-- One atomic step. A failed compare-and-swap goes back to the load; a successful one of
`next` returns `tmp.seq_` and leaves the caller's variable `value` as it was passed in. -/
def step (s : State θ) : Action θ → Option (State θ)
  | .callNext t clock =>
    match s.pc t with
    | .idle => some { s with pc := update s.pc t (.next clock none) }
    | _ => none
  | .callUpdate t value =>
    match s.pc t with
    | .idle => some { s with pc := update s.pc t (.update value none) }
    | _ => none
  | .load t =>
    match s.pc t with
    | .next clock none =>
      some { s with pc := update s.pc t (.next clock (some s.shared)) }
    | .update value none =>
      if s.shared.value ≥ value then
        some { s with pc := update s.pc t .idle
                      history := s.history ++ [⟨.update value, none⟩] }
      else
        some { s with pc := update s.pc t (.update value (some s.shared)) }
    | _ => none
  | .cas t =>
    match s.pc t with
    | .next clock (some old) =>
      if s.shared = old then
        some { shared := old.nextTmp clock
               pc := update s.pc t .idle
               history := s.history ++ [⟨.next clock, some ⟨(old.nextTmp clock).seq, clock⟩⟩] }
      else
        some { s with pc := update s.pc t (.next clock none) }
    | .update value (some old) =>
      if s.shared = old then
        some { shared := old.updateTmp value
               pc := update s.pc t .idle
               history := s.history ++ [⟨.update value, none⟩] }
      else
        some { s with pc := update s.pc t (.update value none) }
    | _ => none

end CasIncSeq

/-! ### `LockedIncSeq`, run by one caller -/

namespace LockedIncSeq

/-- The words `do_seq_` and `value_` between calls. -/
structure Words where
  doSeq : Nat
  value : Int
  deriving DecidableEq, Repr

/-- The section of `next` under `rdlock`: the word `value_` and the caller's variable `value`
after it. -/
def nextBody (value_ value : Int) : Int × Int :=
  if value > value_ then (value, value) else (value_ + 1, value_ + 1)

/-- The section of `update` under `wrlock`: the word `value_` after it. -/
def updateBody (value_ value : Int) : Int :=
  if value_ < value then value else value_

variable (w : Words)

/-- One call by a caller that is alone: the words and the reply. -/
def alone : SeqCall → Words × Option SeqReply
  | .next clock =>
    (⟨w.doSeq + 1, (nextBody w.value clock).1⟩,
      some ⟨w.doSeq + 1, (nextBody w.value clock).2⟩)
  | .update value => (⟨w.doSeq, updateBody w.value value⟩, none)

/-- The words after a list of calls by one caller. -/
def wordsAfter (calls : List SeqCall) : Words :=
  calls.foldl (fun w c => (alone w c).1) w

/-- The replies to a list of calls by one caller. -/
def replay : Words → List SeqCall → List (Option SeqReply)
  | _, [] => []
  | w, c :: cs => (alone w c).2 :: replay (alone w c).1 cs

variable (cs : List SeqCall)

@[simp]
theorem wordsAfter_append_singleton (c : SeqCall) :
    wordsAfter w (cs ++ [c]) = (alone (wordsAfter w cs) c).1 := by
  simp [wordsAfter]

@[simp]
theorem replay_append_singleton (c : SeqCall) :
    replay w (cs ++ [c]) = replay w cs ++ [(alone (wordsAfter w cs) c).2] := by
  induction cs generalizing w with
  | nil => rfl
  | cons d cs ih => simp [replay, wordsAfter, ih]

theorem nextBody_fst (value_ value : Int) :
    (nextBody value_ value).1 = (nextBody value_ value).2 := by
  unfold nextBody
  split <;> rfl

theorem lt_nextBody (value_ value : Int) : value_ < (nextBody value_ value).2 := by
  unfold nextBody
  split
  · assumption
  · exact Int.lt_succ value_

theorem le_updateBody (value_ value : Int) : value_ ≤ updateBody value_ value := by
  unfold updateBody
  split <;> omega

theorem replay_consecutive :
    ((replay w cs).filterMap id).map SeqReply.seq =
      List.range' (w.doSeq + 1) ((replay w cs).filterMap id).length := by
  induction cs generalizing w with
  | nil => rfl
  | cons c cs ih =>
    cases c with
    | next clock => simpa [replay, alone, range'_succ] using ih _
    | update value => simpa [replay, alone] using ih _

theorem lt_of_mem_replay {w : Words} {cs : List SeqCall} {r : SeqReply}
    (hr : some r ∈ replay w cs) : w.value < r.transId := by
  induction cs generalizing w with
  | nil => simp [replay] at hr
  | cons c cs ih =>
    cases c with
    | next clock =>
      have hlt := lt_nextBody w.value clock
      rcases mem_cons.1 hr with heq | hmem
      · simp only [alone, some.injEq] at heq
        rwa [heq]
      have hrest := ih hmem
      simp only [alone, nextBody_fst] at hrest
      omega
    | update value =>
      have hle := le_updateBody w.value value
      rcases mem_cons.1 hr with heq | hmem
      · cases heq
      have hrest := ih hmem
      simp only [alone] at hrest
      omega

theorem replay_increasing :
    (((replay w cs).filterMap id).map SeqReply.transId).Pairwise (· < ·) := by
  induction cs generalizing w with
  | nil => exact List.Pairwise.nil
  | cons c cs ih =>
    cases c with
    | next clock =>
      simp only [replay, alone, filterMap_cons, id_eq, map_cons, pairwise_cons]
      refine ⟨?_, ih _⟩
      intro v hv
      obtain ⟨r, hr, rfl⟩ := mem_map.1 hv
      have hlt := lt_of_mem_replay (by simpa using hr)
      rwa [nextBody_fst] at hlt
    | update value => simpa [replay, alone] using ih _

end LockedIncSeq

open LockedIncSeq

/-! ### The contract of a sequencer -/

/-- The replies of the `next` calls of a history, in the order of their effects. -/
def nextReplies (history : List SeqEvent) : List SeqReply :=
  history.filterMap SeqEvent.reply

/-- **The contract of a sequencer**, over the calls in the order in which they took effect. -/
structure IsSequencer (history : List SeqEvent) : Prop where
  /-- The sequence numbers are distinct and consecutive. -/
  consecutive : (nextReplies history).map SeqReply.seq =
    List.range' 1 (nextReplies history).length
  /-- The transaction ids are strictly increasing in the order of the sequence numbers. -/
  increasing : ((nextReplies history).map SeqReply.transId).Pairwise (· < ·)
  /-- `LockedIncSeq` would have given the same replies to the same calls. -/
  asLocked : history.map SeqEvent.reply =
    LockedIncSeq.replay ⟨0, 0⟩ (history.map SeqEvent.call)

/-- Answering as `LockedIncSeq` does is all there is to the contract. -/
theorem isSequencer_iff (history : List SeqEvent) :
    IsSequencer history ↔ history.map SeqEvent.reply =
      replay ⟨0, 0⟩ (history.map SeqEvent.call) := by
  refine ⟨IsSequencer.asLocked, fun h => ?_⟩
  have hreplies : nextReplies history =
      (replay ⟨0, 0⟩ (history.map SeqEvent.call)).filterMap id := by
    rw [← h, nextReplies, filterMap_map]
    rfl
  refine ⟨?_, ?_, h⟩
  · rw [hreplies]
    exact replay_consecutive _ _
  · rw [hreplies]
    exact replay_increasing _ _

/-! ### `CasIncSeq` against the contract -/

namespace CasIncSeq

variable {θ : Type*} [DecidableEq θ]

/-- The step of caller `t` is the successful compare-and-swap of a `next`, called with
`clock`. -/
def Succeeds (s : State θ) (a : Action θ) (t : θ) (clock : Int) : Prop :=
  a = .cas t ∧ s.pc t = .next clock (some s.shared)

variable {s s' : State θ} {a : Action θ}

/-- All a step can do: move one caller, finish an `update` that has nothing to raise, or
succeed in the compare-and-swap of a `next` or of an `update`. -/
theorem step_cases (h : step s a = some s') :
    (∃ t pc, (∀ u clock, ¬ Succeeds s a u clock) ∧
      (∀ value old, pc = .update value (some old) → old.value < value) ∧
      s' = { s with pc := update s.pc t pc }) ∨
    (∃ t value, (∀ u clock, ¬ Succeeds s a u clock) ∧ value ≤ s.shared.value ∧
      s' = { s with pc := update s.pc t .idle
                    history := s.history ++ [⟨.update value, none⟩] }) ∨
    (∃ t clock, Succeeds s a t clock ∧
      s' = { shared := s.shared.nextTmp clock
             pc := update s.pc t .idle
             history := s.history ++ [⟨.next clock, some ⟨s.shared.seq + 1, clock⟩⟩] }) ∨
    (∃ t value, (∀ u clock, ¬ Succeeds s a u clock) ∧
      s.pc t = .update value (some s.shared) ∧
      s' = { shared := s.shared.updateTmp value
             pc := update s.pc t .idle
             history := s.history ++ [⟨.update value, none⟩] }) := by
  cases a with
  | callNext t clock =>
    simp only [step] at h
    split at h <;> simp only [some.injEq, reduceCtorEq] at h
    exact .inl ⟨t, .next clock none, by simp [Succeeds], by simp, h.symm⟩
  | callUpdate t value =>
    simp only [step] at h
    split at h <;> simp only [some.injEq, reduceCtorEq] at h
    exact .inl ⟨t, .update value none, by simp [Succeeds], by simp, h.symm⟩
  | load t =>
    simp only [step] at h
    split at h
    · exact .inl ⟨t, _, by simp [Succeeds], by simp, (some.inj h).symm⟩
    · next value _ =>
      split at h
      · next hle =>
        exact .inr (.inl ⟨t, value, by simp [Succeeds], hle, (some.inj h).symm⟩)
      · next hlt =>
        refine .inl ⟨t, _, by simp [Succeeds], ?_, (some.inj h).symm⟩
        rintro v old ⟨⟩
        omega
    · cases h
  | cas t =>
    simp only [step] at h
    split at h
    · next clock old hpc =>
      split at h
      · next heq =>
        subst heq
        exact .inr (.inr (.inl ⟨t, clock, ⟨rfl, hpc⟩, (some.inj h).symm⟩))
      · next hne =>
        refine .inl ⟨t, _, ?_, by simp, (some.inj h).symm⟩
        rintro u clock' ⟨hu, hpc'⟩
        cases hu
        rw [hpc] at hpc'
        cases hpc'
        exact hne rfl
    · next value old hpc =>
      have hno : ∀ u clock, ¬ Succeeds s (.cas t) u clock := by
        rintro u clock ⟨hu, hpc'⟩
        cases hu
        rw [hpc] at hpc'
        cases hpc'
      split at h
      · next heq =>
        subst heq
        exact .inr (.inr (.inr ⟨t, value, hno, hpc, (some.inj h).symm⟩))
      · exact .inl ⟨t, _, hno, by simp, (some.inj h).symm⟩
    · cases h

/-- The stored pair is what `LockedIncSeq` would hold after the same calls, and a caller only
attempts an `update` that raises the value it loaded. -/
structure Inv (s : State θ) : Prop where
  shared_eq : LockedIncSeq.wordsAfter ⟨0, 0⟩ (s.history.map SeqEvent.call) =
    ⟨s.shared.seq, s.shared.value⟩
  raises : ∀ t value old, s.pc t = .update value (some old) → old.value < value

omit [DecidableEq θ] in
theorem inv_init : Inv (State.init : State θ) :=
  ⟨rfl, fun _ _ _ h => by cases h⟩

theorem Inv.raises_update {s : State θ} (hi : Inv s) {t : θ} {pc : Pc}
    (hpc : ∀ value old, pc = .update value (some old) → old.value < value) :
    ∀ u value old, update s.pc t pc u = .update value (some old) → old.value < value :=
  (forall_update_iff s.pc fun _ pc =>
    ∀ value old, pc = .update value (some old) → old.value < value).2 ⟨hpc, fun u _ => hi.raises u⟩

theorem inv_step (hi : Inv s) (h : step s a = some s') : Inv s' := by
  obtain ⟨t, pc, -, hpc, rfl⟩ | ⟨t, value, -, hle, rfl⟩ | ⟨t, clock, -, rfl⟩ |
    ⟨t, value, -, hpc, rfl⟩ := step_cases h
  · exact ⟨hi.shared_eq, hi.raises_update hpc⟩
  · refine ⟨?_, hi.raises_update (by simp)⟩
    have hnot : ¬ s.shared.value < value := by omega
    simp [hi.shared_eq, alone, updateBody, hnot]
  · refine ⟨?_, hi.raises_update (by simp)⟩
    simp only [map_append, map_cons, map_nil, wordsAfter_append_singleton,
      hi.shared_eq, alone, nextBody, nextTmp]
    split <;> rfl
  · refine ⟨?_, hi.raises_update (by simp)⟩
    have hlt := hi.raises t value _ hpc
    simp [hi.shared_eq, alone, updateBody, updateTmp, hlt]

/-- A `next` whose compare-and-swap succeeds finds a stored value below its clock. -/
def ClockAhead (s : State θ) (a : Action θ) : Prop :=
  ∀ t clock, Succeeds s a t clock → s.shared.value < clock

/-- A step keeps the contract exactly when the clock of a succeeding `next` is ahead. -/
theorem isSequencer_step_iff (hi : Inv s) (h : step s a = some s') :
    IsSequencer s'.history ↔ IsSequencer s.history ∧ ClockAhead s a := by
  simp only [isSequencer_iff]
  obtain ⟨t, pc, hno, -, rfl⟩ | ⟨t, value, hno, -, rfl⟩ | ⟨t, clock, hs, rfl⟩ |
    ⟨t, value, hno, -, rfl⟩ := step_cases h
  · simp [ClockAhead, hno]
  · simp [ClockAhead, hno, alone]
  · have hahead : ClockAhead s a ↔ s.shared.value < clock := by
      refine ⟨fun hc => hc t clock hs, ?_⟩
      rintro hlt u clock' ⟨hu, hpc⟩
      obtain ⟨ht, hpc'⟩ := hs
      rw [ht] at hu
      cases hu
      rw [hpc'] at hpc
      cases hpc
      exact hlt
    -- the sequence numbers always agree, the ids only when `nextBody` keeps the clock
    have hbody : (nextBody s.shared.value clock).2 = clock ↔
        s.shared.value < clock := by
      unfold nextBody
      split <;> omega
    simp only [map_append, map_cons, map_nil, replay_append_singleton, hi.shared_eq,
      alone, hahead, ← hbody]
    rw [← concat_eq_append, ← concat_eq_append, concat_inj]
    simp [eq_comm]
  · simp [ClockAhead, hno, alone]

/-- **`CasIncSeq` keeps the contract of a sequencer in an interleaving exactly when every `next`
whose compare-and-swap succeeds finds a stored value below its clock.** -/
theorem isSequencer_iff_clockAhead {as : List (Action θ)} {s : State θ}
    (hrun : run step State.init as = some s) :
    IsSequencer s.history ↔ Meets step ClockAhead State.init as := by
  have hinit : IsSequencer (State.init : State θ).history := (isSequencer_iff _).2 rfl
  rw [run_iff_meets (fun _ _ _ => inv_step) (fun _ _ _ => isSequencer_step_iff) inv_init hrun]
  simp [hinit]

/-- Two callers whose clocks read `5`, one after the other. -/
def equalClocks : List (Action Bool) :=
  [.callNext false 5, .load false, .cas false, .callNext true 5, .load true, .cas true]

/-- A run of two callers with increasing clocks, the first of which loses the race for its
first compare-and-swap. -/
def racingClocks : List (Action Bool) :=
  [.callNext false 6, .callNext true 5, .load false, .load true, .cas true, .cas false,
    .load false, .cas false]

theorem isSequencer_iff_clockAhead_racing :
    ∃ s, run step State.init racingClocks = some s ∧
      (IsSequencer s.history ↔ Meets step ClockAhead State.init racingClocks) ∧
      nextReplies s.history = [⟨1, 5⟩, ⟨2, 6⟩] :=
  ⟨_, rfl, isSequencer_iff_clockAhead rfl, rfl⟩

/-- The second of two callers with equal clocks goes on with the transaction id of the first,
while the pair stored says that it drew the next one. -/
theorem not_isSequencer_equalClocks :
    ∃ s, run step State.init equalClocks = some s ∧
      nextReplies s.history = [⟨1, 5⟩, ⟨2, 5⟩] ∧ s.shared = ⟨2, 6⟩ ∧
      ¬ IsSequencer s.history := by
  refine ⟨_, rfl, rfl, rfl, fun h => ?_⟩
  exact absurd h.increasing (by decide)

end CasIncSeq

end OceanBase.UpdateServer
