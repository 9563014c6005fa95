import OceanBase.Common.LogGeneratorRun

/-!
# The log stream of a file

The batches that a generator hands out for one file stand in the file one after another. They are
entries with their payloads: every entry is intact, and the sequence numbers are consecutive
(`LogGeneratorState.framed_of_run`). A part of them that no switch entry goes on behind is a
`LogStream`. The generator does not keep its user from writing a switch entry like any other entry,
and its batch then goes on behind it.
-/

namespace OceanBase.Common

open Lib List LogCursor

/-- The entry has the payload's length and passes the integrity check in front of it. -/
structure LogFrame.Intact (crc64 : Crc64) (f : LogFrame) : Prop where
  length : f.entry.getLogDataLen = f.data.length
  integrity : f.entry.checkDataIntegrity crc64 f.data = true

/-- The entry switches to the next file. -/
def LogFrame.IsSwitch (f : LogFrame) : Prop := f.entry.cmd = LogCommand.switchLog.code

instance (f : LogFrame) : Decidable f.IsSwitch := inferInstanceAs (Decidable (_ = _))

/-- The entries of one file, from the log id `logId` on: a switch entry is the last of them. -/
structure LogStream (crc64 : Crc64) (logId : Int) (fs : List LogFrame) : Prop where
  logId_nonneg : 0 ≤ logId
  intact : ∀ f ∈ fs, f.Intact crc64
  consecutive : Consecutive logId fs
  switchLast : ∀ f ∈ fs.dropLast, ¬ f.IsSwitch

variable {crc64 : Crc64}

section Stream

variable {logId : Int} {f : LogFrame} {fs : List LogFrame}

theorem frameBytes_append (fs gs : List LogFrame) :
    frameBytes (fs ++ gs) = frameBytes fs ++ frameBytes gs :=
  flatMap_append

theorem length_frameBytes_cons :
    (frameBytes (f :: fs)).length = f.bytes.length + (frameBytes fs).length := by
  rw [frameBytes, flatMap_cons, length_append, frameBytes]

theorem LogStream.of_cons
    (h : LogStream crc64 logId (f :: fs)) : LogStream crc64 (logId + 1) fs where
  logId_nonneg := by
    have := h.logId_nonneg
    omega
  intact g hg := h.intact g (mem_cons_of_mem _ hg)
  consecutive := h.consecutive.2
  switchLast g hg := by
    refine h.switchLast g ?_
    rw [dropLast_cons_of_ne_nil]
    · exact mem_cons_of_mem _ hg
    · rintro rfl
      cases hg

theorem LogStream.eq_nil_of_isSwitch (h : LogStream crc64 logId (f :: fs)) (hf : f.IsSwitch) :
    fs = [] := by
  by_contra hne
  refine h.switchLast f ?_ hf
  rw [dropLast_cons_of_ne_nil hne]
  exact mem_cons_self

end Stream

/-! ### The entries of records -/

section Records

variable (crc64)

/-- The entries of records written at `c`. -/
def framesFrom : LogCursor → List LogRecord → List LogFrame
  | _, [] => []
  | c, r :: rs => ⟨c.nextEntry crc64 r.cmd r.data, r.data⟩ :: framesFrom (c.next r.cmd r.data) rs

variable {crc64} {c : LogCursor} {r : LogRecord} {rs : List LogRecord}

theorem frameBytes_framesFrom (c : LogCursor) (rs : List LogRecord) :
    frameBytes (framesFrom crc64 c rs) = bytesFrom crc64 c rs := by
  induction rs generalizing c with
  | nil => rfl
  | cons r rs ih => rw [framesFrom, frameBytes_cons, ih, bytesFrom]

@[simp]
theorem length_framesFrom (c : LogCursor) (rs : List LogRecord) :
    (framesFrom crc64 c rs).length = rs.length := by
  induction rs generalizing c with
  | nil => rfl
  | cons r rs ih => rw [framesFrom, length_cons, ih, length_cons]

theorem intact_framesFrom (hfits : ∀ r ∈ rs, r.Fits) :
    ∀ f ∈ framesFrom crc64 c rs, f.Intact crc64 := by
  induction rs generalizing c with
  | nil => simp [framesFrom]
  | cons r rs ih =>
    intro f hf
    rcases mem_cons.1 hf with rfl | hrest
    · have hr := (hfits r mem_cons_self).2
      refine ⟨LogEntry.getLogDataLen_fillHeader (by omega), ?_⟩
      have hcheck : (c.nextEntry crc64 r.cmd r.data).checkDataIntegrity crc64 (r.data ++ []) =
          true := LogEntry.checkDataIntegrity_fillHeader hr []
      rwa [append_nil] at hcheck
    · exact ih (forall_mem_cons.1 hfits).2 f hrest

theorem consecutive_framesFrom (hvalid : c.isValid = true) (hids : c.logId + rs.length ≤ 2 ^ 63) :
    Consecutive c.logId (framesFrom crc64 c rs) := by
  induction rs generalizing c with
  | nil => trivial
  | cons r rs ih =>
    rw [length_cons] at hids
    refine ⟨seq_nextEntry hvalid (by omega), ?_⟩
    have hrest := @ih (c.next r.cmd r.data) (isValid_next hvalid) (by rw [next_logId]; omega)
    rwa [next_logId] at hrest

end Records

/-! ### Batches -/

/-- The bytes of a batch are entries, as many as the cursors are apart. -/
def Batch.Framed (crc64 : Crc64) (b : Batch) : Prop :=
  ∃ fs, b.buf = frameBytes fs ∧ (∀ f ∈ fs, f.Intact crc64) ∧
    Consecutive b.startCursor.logId fs ∧ b.endCursor.logId = b.startCursor.logId + fs.length ∧
    0 ≤ b.startCursor.logId

/-- The second batch starts where the first one ends. -/
def Batch.Joins (b b' : Batch) : Prop := b'.startCursor = b.endCursor

section Batches

variable {logId : Int} {fs gs : List LogFrame}

theorem consecutive_append :
    Consecutive logId (fs ++ gs) ↔ Consecutive logId fs ∧ Consecutive (logId + fs.length) gs := by
  induction fs generalizing logId with
  | nil => simp [Consecutive]
  | cons f fs ih =>
    have hlen : logId + ((f :: fs).length : Nat) = logId + 1 + fs.length := by
      rw [length_cons]
      omega
    rw [cons_append, Consecutive, Consecutive, ih, hlen, and_assoc]

theorem LogStream.append (hfs : LogStream crc64 logId fs) (hplain : ∀ f ∈ fs, ¬ f.IsSwitch)
    (hgs : LogStream crc64 (logId + fs.length) gs) : LogStream crc64 logId (fs ++ gs) where
  logId_nonneg := hfs.logId_nonneg
  intact f hf := (mem_append.1 hf).elim (hfs.intact f) (hgs.intact f)
  consecutive := consecutive_append.2 ⟨hfs.consecutive, hgs.consecutive⟩
  switchLast f hf := by
    rw [dropLast_append] at hf
    split at hf
    · exact hfs.switchLast f hf
    · exact (mem_append.1 hf).elim (hplain f) (hgs.switchLast f)

/-- Batches that join are entries with consecutive log ids. -/
theorem exists_frames {b : Batch} {bs : List Batch} (hchain : (b :: bs).IsChain Batch.Joins)
    (hframed : ∀ b' ∈ b :: bs, b'.Framed crc64) :
    ∃ fs, (b :: bs).flatMap Batch.buf = frameBytes fs ∧ (∀ f ∈ fs, f.Intact crc64) ∧
      Consecutive b.startCursor.logId fs := by
  induction bs generalizing b with
  | nil =>
    obtain ⟨fs, hbuf, hintact, hcons, -⟩ := hframed b mem_cons_self
    exact ⟨fs, by simp [hbuf], hintact, hcons⟩
  | cons b' bs ih =>
    obtain ⟨fs, hbuf, hintact, hcons, hend, -⟩ := hframed b mem_cons_self
    obtain ⟨hstart, hchain⟩ := isChain_cons_cons.1 hchain
    obtain ⟨gs, hgs, hintact', hcons'⟩ := ih hchain (forall_mem_cons.1 hframed).2
    rw [show b'.startCursor = b.endCursor from hstart, hend] at hcons'
    refine ⟨fs ++ gs, ?_, forall_mem_append.2 ⟨hintact, hintact'⟩,
      consecutive_append.2 ⟨hcons, hcons'⟩⟩
    rw [flatMap_cons, hgs, hbuf, frameBytes_append]

end Batches

/-! ### Runs -/

namespace LogGenerator

variable {g : LogGenerator} {rs : List LogRecord} {cmd : BitVec 32} {data : List UInt8}

/-- As long as its log ids are 64-bit numbers, the buffer holds records. -/
def HoldsRecords (crc64 : Crc64) (g : LogGenerator) : Prop :=
  g.endCursor.logId < 2 ^ 63 → ∃ rs, Holds crc64 g rs

/-- The sequence number of an entry is a 64-bit number, so that a cursor with a larger log id does
not advance over it. -/
theorem advance_of_le {c : LogCursor} (hid : 2 ^ 63 ≤ c.logId) :
    c.advance (c.nextEntry crc64 cmd data) = .error .discontinuousLog := by
  have hseq := (c.nextEntry crc64 cmd data).seq.toInt_lt
  rw [advance, if_pos ⟨by omega, by omega⟩]

section

variable (h : HoldsRecords crc64 g)
include h

/-- An entry is written as a whole or not at all. -/
theorem HoldsRecords.doWriteLog (hlen : data.length < 2 ^ 31 - 12) (reservedLen : Nat) :
    HoldsRecords crc64 (g.doWriteLog crc64 cmd data reservedLen).1 := by
  unfold LogGenerator.doWriteLog
  split
  · exact h
  next hne =>
  split
  · exact h
  unfold generateLog
  split
  · exact h
  split
  · exact h
  simp only
  split
  · exact h
  rcases lt_or_ge g.endCursor.logId (2 ^ 63) with hid | hid
  · obtain ⟨rs, hrs⟩ := h hid
    rw [advance_nextEntry hrs.endCursor_valid hid (by omega)]
    exact fun _ => ⟨_, hrs.append ⟨length_pos_iff.2 hne, hlen⟩⟩
  · rw [advance_of_le hid]
    exact fun hlt => absurd hlt (by simp only; omega)

theorem HoldsRecords.writeLog {cmd : LogCommand} (hlen : data.length < 2 ^ 31 - 12) :
    HoldsRecords crc64 (g.writeLog crc64 cmd data).1 := by
  unfold LogGenerator.writeLog
  split
  · exact h
  split
  · exact h
  · exact h.doWriteLog hlen _

theorem HoldsRecords.appendSwitchLog : HoldsRecords crc64 (g.appendSwitchLog crc64).1 := by
  have hlen := length_switchLogPayload g.endCursor.fileId
  rw [logFileAlignSize] at hlen
  exact h.doWriteLog (by omega) _

variable (now : BitVec 64)

theorem HoldsRecords.writeNop (forceWrite : Bool) :
    HoldsRecords crc64 (g.writeNop crc64 now forceWrite).1 := by
  unfold LogGenerator.writeNop
  split
  · exact h
  · have hlen := (length_nopPayload (g.debugLog.advance now) g.logBuf.length).2.1
    have hg : HoldsRecords crc64 { g with debugLog := g.debugLog.advance now } := fun hid =>
      (h hid).imp fun _ hrs => { hrs with }
    exact hg.doWriteLog (by simp only; omega) _

theorem HoldsRecords.switchLog :
    HoldsRecords crc64 (g.switchLog crc64 now).1 := by
  have hnop := h.writeNop now false
  unfold LogGenerator.switchLog
  split
  · next g₁ heq =>
    rw [heq] at hnop
    have hswitch := hnop.appendSwitchLog
    split
    · next g₂ heq₂ =>
      rw [heq₂] at hswitch
      exact fun hid => (hswitch hid).imp fun _ hrs => { hrs with }
    · exact hswitch
  · exact hnop

theorem HoldsRecords.completeBatch :
    HoldsRecords crc64 (g.completeBatch crc64 now).1 := by
  unfold LogGenerator.completeBatch
  split
  · exact h
  have hnop := h.writeNop now (decide (g.logBuf.length ≠ 0))
  split
  · next g₁ heq =>
    rw [heq] at hnop
    unfold checkLogFileSize
    split
    · exact hnop
    · exact hnop.appendSwitchLog
  · exact hnop

/-- What `get_log` hands out is what the buffer then holds. -/
theorem HoldsRecords.getLog :
    HoldsRecords crc64 (g.getLog crc64 now).1 ∧
      ∀ b, (g.getLog crc64 now).2 = .ok b → b = (g.getLog crc64 now).1.batch := by
  have hcomplete := h.completeBatch now
  unfold LogGenerator.getLog appendEof
  split
  · next g₁ heq =>
    rw [heq] at hcomplete
    split
    · next behind hbehind =>
      refine ⟨fun hid => (hcomplete hid).imp fun _ hrs => { hrs with }, fun b hb => ?_⟩
      cases hb
      split at hbehind
      all_goals cases hbehind
      rfl
    · exact ⟨hcomplete, fun b hb => nomatch hb⟩
  · next g₁ err _ heq =>
    rw [heq] at hcomplete
    exact ⟨hcomplete, fun b hb => nomatch hb⟩

theorem HoldsRecords.commit (endCursor : LogCursor) :
    HoldsRecords crc64 (g.commit endCursor).1 := by
  unfold LogGenerator.commit
  split
  · exact h
  · intro hid
    obtain ⟨rs, hrs⟩ := h hid
    exact ⟨[], hrs.endCursor_valid, rfl, rfl, by simp⟩

end

/-- A buffer that holds records is handed out as entries. -/
theorem Holds.framed_batch (h : Holds crc64 g rs) (hid : g.endCursor.logId < 2 ^ 63) :
    g.batch.Framed crc64 := by
  refine ⟨framesFrom crc64 g.startCursor rs, ?_, intact_framesFrom h.fits, ?_, ?_,
    (isValid_iff.1 h.start_valid).2.1⟩
  · rw [frameBytes_framesFrom]
    exact h.logBuf_eq
  · exact consecutive_framesFrom h.start_valid (h.logId_eq ▸ Int.le_of_lt hid)
  · rw [length_framesFrom]
    exact h.logId_eq

end LogGenerator

namespace LogGeneratorState

open LogGenerator

variable {start : LogCursor} {s s' : LogGeneratorState} {call : LogGeneratorCall} {g : LogGenerator}

/-- The payload's length, with 12 bytes for sequence number and command, fits its 32-bit field. -/
def ShortPayload (_ : LogGeneratorState) : LogGeneratorCall → Prop
  | .writeLog _ data => data.length < 2 ^ 31 - 12
  | _ => True

instance (s : LogGeneratorState) : DecidablePred s.ShortPayload
  | .writeLog .. => inferInstanceAs (Decidable (_ < _))
  | .switchLog _ | .getLog _ | .commit _ => inferInstanceAs (Decidable True)

/-- The generator holds records, and the batches handed out are entries, as long as their log ids
are 64-bit numbers. -/
structure StreamInv (crc64 : Crc64) (s : LogGeneratorState) : Prop where
  generator : HoldsRecords crc64 s.generator
  batches : ∀ b ∈ s.batches, b.endCursor.logId < 2 ^ 63 → b.Framed crc64

theorem streamInv_step (h : StreamInv crc64 s) (hshort : s.ShortPayload call)
    (hstep : s.step crc64 call = some s') : StreamInv crc64 s' := by
  cases call with
  | writeLog cmd data =>
    simp only [step] at hstep
    split at hstep
    · cases hstep
      exact ⟨h.generator.writeLog hshort, h.batches⟩
    · cases hstep
  | switchLog now =>
    cases hstep
    exact ⟨h.generator.switchLog now, h.batches⟩
  | getLog now =>
    obtain ⟨hg, hbatch⟩ := h.generator.getLog now
    simp only [step] at hstep
    split at hstep
    · next g b heq =>
      rw [heq] at hg hbatch
      cases hstep
      refine ⟨hg, forall_mem_append.2 ⟨h.batches, forall_mem_singleton.2 fun hid => ?_⟩⟩
      rw [hbatch b rfl] at hid ⊢
      obtain ⟨rs, hrs⟩ := hg hid
      exact hrs.framed_batch hid
    · next g err heq =>
      rw [heq] at hg
      cases hstep
      exact ⟨hg, h.batches⟩
  | commit endCursor =>
    cases hstep
    exact ⟨h.generator.commit endCursor, h.batches⟩

/-- The batches of any run are entries. -/
theorem framed_of_run {logBufSize logFileMaxSize : Nat} {server : Server}
    {calls : List LogGeneratorCall}
    (hinit : LogGenerator.init logBufSize logFileMaxSize server start = .ok g)
    (hshort : Meets (step crc64) ShortPayload ⟨g, []⟩ calls)
    (hrun : run (step crc64) ⟨g, []⟩ calls = some s) :
    ∀ b ∈ s.batches, b.endCursor.logId < 2 ^ 63 → b.Framed crc64 := by
  have hinv : StreamInv crc64 ⟨g, []⟩ := by
    refine ⟨fun _ => ⟨[], ?_⟩, by simp⟩
    unfold LogGenerator.init at hinit
    split at hinit
    · cases hinit
    · next hok =>
      rw [not_or, not_or, not_not] at hok
      cases hinit
      exact ⟨hok.2.2, rfl, rfl, by simp⟩
  exact (run_invariant_of_meets (fun _ _ _ => streamInv_step) hinv hshort hrun).batches

end LogGeneratorState

end OceanBase.Common
