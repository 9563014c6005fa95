import OceanBase.Common.LogGenerator
import OceanBase.Common.LogParse
import OceanBase.Lib.Run

/-!
# The batches of a log generator

The buffer of a generator holds the records written since its start cursor (`Content`). Until
the batch is completed three alignment units of it are free (`Open`): for the nop that pads the
batch, the entry that switches to the next file and the end-of-file mark (`Padded`, `Complete`). So
`get_log` never fails, and every batch ends where the next one starts
(`LogGeneratorState.batches_safe_of_run`).

`check_log_size` does not look at the 32-bit field for the length of a payload: with a buffer of
more than 4 GiB a batch may not parse. `commit` takes the end cursor of what is in the buffer even
when it was not handed out, and drops it. The mark behind a file's last batch may lie behind the
largest size of the file (`LogGeneratorState.batches_counterexamples`).
-/

namespace OceanBase.Common

open Lib List LogEntry LogCursor

variable {crc64 : Crc64}

variable {fileSize : Nat}

variable {g : LogGenerator} {rs : List LogRecord} {c : LogCursor}

namespace LogGenerator

variable {cmd : BitVec 32} {data : List UInt8}

/-! ### Lengths -/

theorem length_encodeVi32 (fuel v : Nat) :
    0 < (encodeVi32 fuel v).length ∧ (encodeVi32 fuel v).length ≤ fuel + 1 := by
  induction fuel generalizing v with
  | zero => simp [encodeVi32]
  | succ fuel ih =>
    unfold encodeVi32
    have hrest := ih (v >>> 7)
    split
    · simp only [length_cons]
      omega
    · simp

theorem length_debugLog (d : DebugLog) : 8 ≤ d.serialize.length ∧ d.serialize.length ≤ 54 := by
  have hserver : d.server.serialize.length ≤ 30 := by
    cases d.server with
    | ipv4 port ip =>
      have h1 := (length_encodeVi32 4 4).2
      have h2 := (length_encodeVi32 4 port.toNat).2
      have h3 := (length_encodeVi32 4 ip.toNat).2
      simp only [Server.serialize, length_append]
      omega
    | ipv6 port ip0 ip1 ip2 ip3 =>
      have h1 := (length_encodeVi32 4 6).2
      have h2 := (length_encodeVi32 4 port.toNat).2
      have h3 := (length_encodeVi32 4 ip0.toNat).2
      have h4 := (length_encodeVi32 4 ip1.toNat).2
      have h5 := (length_encodeVi32 4 ip2.toNat).2
      have h6 := (length_encodeVi32 4 ip3.toNat).2
      simp only [Server.serialize, length_append]
      omega
  simp only [DebugLog.serialize, length_append, length_encodeInt]
  omega

/-- A nop fills the buffer to the alignment, within one unit of the end of its payload. -/
theorem length_nopPayload (d : DebugLog) (pos : Nat) :
    8 ≤ (nopPayload d pos).length ∧ (nopPayload d pos).length < 566 ∧
      (pos + LogEntry.headerSize + (nopPayload d pos).length) % logFileAlignSize = 0 := by
  obtain ⟨hmin, hmax⟩ := length_debugLog d
  simp only [nopPayload, calcNopLogLen, getAlignPaddingSize, logFileAlignSize, length_append,
    length_replicate]
  omega

theorem length_switchLogPayload (fileId : Int) :
    (switchLogPayload fileId).length + LogEntry.headerSize = logFileAlignSize := by
  rw [switchLogPayload, length_append, length_encodeInt, length_replicate]
  decide

/-! ### Writing one entry -/

/-- The generator with one more record in its buffer. -/
def append (crc64 : Crc64) (g : LogGenerator)
    (cmd : BitVec 32) (data : List UInt8) : LogGenerator :=
  { g with
      logBuf := g.logBuf ++ (g.endCursor.nextEntry crc64 cmd data).serialize ++ data
      endCursor := g.endCursor.next cmd data }

@[simp]
theorem append_startCursor : (g.append crc64 cmd data).startCursor = g.startCursor := rfl

@[simp]
theorem append_endCursor : (g.append crc64 cmd data).endCursor = g.endCursor.next cmd data := rfl

@[simp]
theorem append_logBufLen : (g.append crc64 cmd data).logBufLen = g.logBufLen := rfl

@[simp]
theorem append_logFileMaxSize : (g.append crc64 cmd data).logFileMaxSize = g.logFileMaxSize := rfl

@[simp]
theorem length_append_logBuf : (g.append crc64 cmd data).logBuf.length =
    g.logBuf.length + LogEntry.headerSize + data.length := by
  simp [append, Nat.add_assoc]

variable {reservedLen : Nat} {frozen : Bool}

/-- Where there is room, `do_write_log` writes the entry and moves the end cursor over it. -/
theorem doWriteLog_of_advance (hfrozen : g.isFrozen = false)
    (hvalid : g.endCursor.isValid = true) (hpos : 0 < data.length)
    (hadvance : g.endCursor.advance (g.endCursor.nextEntry crc64 cmd data) = .ok c)
    (hroom : g.logBuf.length + LogEntry.headerSize + data.length + reservedLen ≤ g.logBufLen) :
    g.doWriteLog crc64 cmd data reservedLen =
      ({ g with
          logBuf := g.logBuf ++ (g.endCursor.nextEntry crc64 cmd data).serialize ++ data
          endCursor := c }, .success) := by
  have hne : data ≠ [] := length_pos_iff.1 hpos
  rw [doWriteLog, if_neg hne, if_neg (by simp [hfrozen]), generateLog,
    if_neg (by simp [hne, hvalid]; omega), if_neg (by omega)]
  simp only
  rw [if_neg (by omega), hadvance]

theorem doWriteLog_eq_append (hfrozen : g.isFrozen = false) (hvalid : g.endCursor.isValid = true)
    (hid : g.endCursor.logId < 2 ^ 63) (hpos : 0 < data.length) (hlen : data.length < 2 ^ 31)
    (hroom : g.logBuf.length + LogEntry.headerSize + data.length + reservedLen ≤ g.logBufLen) :
    g.doWriteLog crc64 cmd data reservedLen = (g.append crc64 cmd data, .success) :=
  doWriteLog_of_advance hfrozen hvalid hpos (advance_nextEntry hvalid hid hlen) hroom

theorem doWriteLog_no_room (hfrozen : g.isFrozen = false)
    (hvalid : g.endCursor.isValid = true) (hpos : 0 < data.length)
    (hsize : LogEntry.headerSize + data.length + reservedLen ≤ g.logBufLen)
    (hbuf : g.logBuf = [] ∨ g.logBuf.length + reservedLen ≤ g.logBufLen)
    (hroom : ¬ g.logBuf.length + LogEntry.headerSize + data.length + reservedLen ≤
      g.logBufLen) : g.doWriteLog crc64 cmd data reservedLen = (g, .bufNotEnough) := by
  have hne : data ≠ [] := length_pos_iff.1 hpos
  have hlength : g.logBuf.length + reservedLen ≤ g.logBufLen := by
    rcases hbuf with hnil | hle
    · rw [hnil, length_nil]
      omega
    · exact hle
  rw [doWriteLog, if_neg hne, if_neg (by simp [hfrozen]), generateLog,
    if_neg (by simp [hne, hvalid]; omega), if_neg (by omega)]
  rw [if_pos (by omega)]

/-! ### The invariant -/

/-- The buffer holds the records `rs`, written from the start cursor to the end cursor. -/
structure Holds (crc64 : Crc64) (g : LogGenerator) (rs : List LogRecord) : Prop where
  start_valid : g.startCursor.isValid = true
  logBuf_eq : g.logBuf = bytesFrom crc64 g.startCursor rs
  endCursor_eq : g.endCursor = cursorAfter g.startCursor rs
  fits : ∀ r ∈ rs, r.Fits

theorem Holds.endCursor_valid (h : Holds crc64 g rs) : g.endCursor.isValid = true := by
  rw [h.endCursor_eq]
  exact isValid_cursorAfter h.start_valid

/-- Every record takes one log id. -/
theorem Holds.logId_eq (h : Holds crc64 g rs) :
    g.endCursor.logId = g.startCursor.logId + rs.length := by
  rw [h.endCursor_eq, cursorAfter_logId]

theorem Holds.append (h : Holds crc64 g rs) (hfits : (⟨cmd, data⟩ : LogRecord).Fits) :
    Holds crc64 (g.append crc64 cmd data) (rs ++ [⟨cmd, data⟩]) :=
  { h with
    logBuf_eq := by
      rw [bytesFrom_append_singleton, append_startCursor, ← h.endCursor_eq, ← h.logBuf_eq]
      simp [LogGenerator.append]
    endCursor_eq := by
      rw [cursorAfter_append_singleton, append_startCursor, ← h.endCursor_eq, append_endCursor]
    fits := forall_mem_append.2 ⟨h.fits, forall_mem_singleton.2 hfits⟩ }

/-- What holds of the buffer and the cursors, frozen or not: the buffer holds the records written
since the start cursor, and the start cursor leaves room for a full buffer in its file unless
the file is empty. -/
structure Content (crc64 : Crc64) (fileSize : Nat)
    (g : LogGenerator) (rs : List LogRecord) : Prop extends Holds crc64 g rs where
  file_eq : g.logFileMaxSize = fileSize
  aligned : g.logBufLen % logFileAlignSize = 0
  two_units : 2 * logFileAlignSize ≤ g.logBufLen
  le_file : g.logBufLen ≤ g.logFileMaxSize + logFileAlignSize
  small : g.logBufLen ≤ 2 ^ 31 + 3 * logFileAlignSize
  start_offset : g.startCursor.offset = 0 ∨
    g.startCursor.offset + g.logBufLen ≤ g.logFileMaxSize

theorem Content.append (hc : Content crc64 fileSize g rs) (hfits : (⟨cmd, data⟩ : LogRecord).Fits) :
    Content crc64 fileSize (g.append crc64 cmd data) (rs ++ [⟨cmd, data⟩]) :=
  { hc with toHolds := hc.toHolds.append hfits }

/-- Before the batch is completed, three units of the buffer are free, or all of it is. -/
def Open (g : LogGenerator) : Prop :=
  g.isFrozen = false ∧ (g.logBuf = [] ∨ g.logBuf.length + logBufReservedSize ≤ g.logBufLen)

/-- A completed batch: it ends at an alignment, leaves room for the end-of-file mark, ends with a
record long enough to hold a file id, and its end cursor leaves room for a full buffer in its
file. -/
structure Complete (g : LogGenerator) (rs : List LogRecord) : Prop where
  aligned : g.logBuf.length % logFileAlignSize = 0
  room : g.logBuf.length + logFileAlignSize ≤ g.logBufLen
  end_offset : g.endCursor.offset = 0 ∨ g.endCursor.offset + g.logBufLen ≤ g.logFileMaxSize
  last : ∀ r, rs.getLast? = some r → 8 ≤ r.data.length

/-- The buffer ends at an alignment and has two units left, or is empty. -/
def Padded (g : LogGenerator) : Prop :=
  g.isFrozen = false ∧ g.logBuf.length % logFileAlignSize = 0 ∧
    (g.logBuf = [] ∨ g.logBuf.length + 2 * logFileAlignSize ≤ g.logBufLen)

theorem Content.logBuf_eq_nil_iff (hc : Content crc64 fileSize g rs) : g.logBuf = [] ↔ rs = [] := by
  have hlong : _ ≤ (bytesFrom crc64 g.startCursor rs).length := length_le_bytesFrom _ _
  rw [← hc.logBuf_eq, show headerSize = 44 from rfl] at hlong
  constructor
  · intro hnil
    rw [hnil, length_nil] at hlong
    exact length_eq_zero_iff.1 (by omega)
  · rintro rfl
    exact hc.logBuf_eq

theorem Content.setDebugLog (hc : Content crc64 fileSize g rs) (d : DebugLog) :
    Content crc64 fileSize { g with debugLog := d } rs :=
  { hc with }

theorem Content.setFrozen (hc : Content crc64 fileSize g rs) :
    Content crc64 fileSize { g with isFrozen := frozen } rs :=
  { hc with }

theorem Complete.setFrozen (hc : Complete g rs) : Complete { g with isFrozen := frozen } rs :=
  { hc with }

/-- `write_nop` pads an open generator. A forced nop is the last record. -/
theorem writeNop_spec (hc : Content crc64 fileSize g rs) (ho : Open g)
    (hid : g.endCursor.logId < 2 ^ 63) (now : BitVec 64) (forceWrite : Bool)
    (hforce : forceWrite = true → g.logBuf ≠ []) :
    ∃ g' rs', g.writeNop crc64 now forceWrite = (g', .success) ∧ Content crc64 fileSize g' rs' ∧
      Padded g' ∧ g'.startCursor = g.startCursor ∧ g'.endCursor.logId ≤ g.endCursor.logId + 1 ∧
      ((g.logBuf ≠ [] → forceWrite = true) →
        ∀ r, rs'.getLast? = some r → 8 ≤ r.data.length) := by
  obtain ⟨hfrozen, hfree⟩ := ho
  rw [logBufReservedSize] at hfree
  unfold writeNop
  split
  · next hskip =>
    refine ⟨g, rs, rfl, hc, ⟨hfrozen, hskip.1, ?_⟩, rfl, by omega, fun hforced r hr => ?_⟩
    · exact hfree.imp_right (by omega)
    have hnil : g.logBuf = [] := by_contra fun hne => hskip.2 (hforced hne)
    rw [hc.logBuf_eq_nil_iff.1 hnil] at hr
    cases hr
  · next hwrite =>
    have hne : g.logBuf ≠ [] := by
      intro hnil
      refine hwrite ⟨by rw [hnil]; rfl, fun hf => hforce hf hnil⟩
    have hle := hfree.resolve_left hne
    obtain ⟨hlong, hshort, haligned⟩ := length_nopPayload (g.debugLog.advance now) g.logBuf.length
    have hunits := hc.aligned
    have hheader : headerSize = 44 := rfl
    simp only [logFileAlignSize] at hle haligned hunits
    have hfits : (⟨LogCommand.nop.code,
        nopPayload (g.debugLog.advance now) g.logBuf.length⟩ : LogRecord).Fits :=
      ⟨by simp only; omega, by simp only; omega⟩
    have hcd := hc.setDebugLog (g.debugLog.advance now)
    refine ⟨_, _, doWriteLog_eq_append hfrozen hcd.endCursor_valid hid hfits.1 ?_ ?_,
      hcd.append hfits, ⟨hfrozen, ?_, .inr ?_⟩, rfl, ?_, fun _ r hr => ?_⟩
    · simp only
      omega
    · simp only
      omega
    · simp only [length_append_logBuf, logFileAlignSize]
      omega
    · simp only [length_append_logBuf, append_logBufLen, logFileAlignSize]
      omega
    · simp
    · rw [getLast?_append, getLast?_singleton, Option.some_or] at hr
      cases hr
      exact hlong

theorem appendSwitchLog_spec (hc : Content crc64 fileSize g rs) (hp : Padded g)
    (hid : g.endCursor.logId < 2 ^ 63) :
    ∃ g' rs', g.appendSwitchLog crc64 = (g', .success) ∧ Content crc64 fileSize g' rs' ∧
      Complete g' rs' ∧ g'.startCursor = g.startCursor ∧
      g'.endCursor.logId ≤ g.endCursor.logId + 1 := by
  obtain ⟨hfrozen, haligned, hfree⟩ := hp
  have hlen := length_switchLogPayload g.endCursor.fileId
  have hunits := hc.aligned
  have htwo := hc.two_units
  have hheader : headerSize = 44 := rfl
  simp only [logFileAlignSize] at hlen haligned hunits hfree htwo
  have hroom : g.logBuf.length + 2 * 512 ≤ g.logBufLen := by
    rcases hfree with hnil | hle
    · rw [hnil, length_nil]
      omega
    · exact hle
  have hfits : (⟨LogCommand.switchLog.code, switchLogPayload g.endCursor.fileId⟩ :
      LogRecord).Fits := ⟨by simp only; omega, by simp only; omega⟩
  refine ⟨_, _, doWriteLog_eq_append hfrozen hc.endCursor_valid hid hfits.1 ?_ ?_,
    hc.append hfits, ⟨?_, ?_, .inl ?_, fun r hr => ?_⟩, rfl, ?_⟩
  · omega
  · omega
  · simp only [length_append_logBuf, logFileAlignSize]
    omega
  · simp only [length_append_logBuf, append_logBufLen, logFileAlignSize]
    omega
  · simp [LogCursor.next]
  · rw [getLast?_append, getLast?_singleton, Option.some_or] at hr
    cases hr
    simp only
    omega
  · simp

/-! ### The calls -/

/-- The batch of a completed generator, with the mark behind it. -/
def batch (g : LogGenerator) : Batch := ⟨g.startCursor, g.endCursor, g.logBuf, eofFlagBuf⟩

/-- What holds of a generator between calls. -/
structure Sound (crc64 : Crc64) (fileSize : Nat)
    (g : LogGenerator) (rs : List LogRecord) : Prop where
  content : Content crc64 fileSize g rs
  phase : Open g ∨ g.isFrozen = true ∧ Complete g rs

theorem sound_init (crc64 : Crc64)
    {logBufSize logFileMaxSize : Nat} {server : Server} {start : LogCursor}
    (hinit : init logBufSize logFileMaxSize server start = .ok g) (hoffset : start.offset = 0)
    (haligned : logBufSize % logFileAlignSize = 0) (hfile : logBufSize ≤ logFileMaxSize)
    (hsmall : logBufSize ≤ 2 ^ 31 + 2 * logFileAlignSize) :
    Sound crc64 logFileMaxSize g [] ∧ g.startCursor = start := by
  unfold init at hinit
  split at hinit
  · cases hinit
  · next hok =>
    rw [not_or, not_or, not_not] at hok
    obtain ⟨hpos, -, hvalid⟩ := hok
    cases hinit
    simp only [logFileAlignSize] at haligned hsmall
    refine ⟨⟨⟨⟨hvalid, rfl, rfl, by simp⟩, rfl, ?_, ?_, ?_, ?_, .inl hoffset⟩,
      .inl ⟨rfl, .inl rfl⟩⟩, rfl⟩
    all_goals simp only [logFileAlignSize]; omega

section

variable (hs : Sound crc64 fileSize g rs)
include hs

theorem writeLog_spec (hid : g.endCursor.logId < 2 ^ 63)
    (cmd : LogCommand) (hsize : g.checkLogSize data.length = true) :
    g.writeLog crc64 cmd data = (g, .bufNotEnough) ∨
      g.writeLog crc64 cmd data = (g.append crc64 cmd.code data, .success) ∧
        Sound crc64 fileSize (g.append crc64 cmd.code data) (rs ++ [⟨cmd.code, data⟩]) ∧
        g.isFrozen = false := by
  obtain ⟨hc, hphase⟩ := hs
  rw [checkLogSize, Bool.and_eq_true, decide_eq_true_iff, decide_eq_true_iff] at hsize
  obtain ⟨hpos, hsize⟩ := hsize
  have hne : data ≠ [] := length_pos_iff.1 hpos
  have hsmall := hc.small
  have hheader : headerSize = 44 := rfl
  have hreserved : logBufReservedSize = 3 * logFileAlignSize := rfl
  rw [writeLog, if_neg hne]
  rcases hphase with ⟨hfrozen, hfree⟩ | ⟨hfrozen, -⟩
  · rw [if_neg (by simp [hfrozen])]
    have hfits : (⟨cmd.code, data⟩ : LogRecord).Fits := ⟨hpos, by simp only; omega⟩
    by_cases hroom : g.logBuf.length + headerSize + data.length + logBufReservedSize ≤ g.logBufLen
    · refine .inr ⟨doWriteLog_eq_append hfrozen hc.endCursor_valid hid hpos (by omega) hroom,
        ⟨hc.append hfits, .inl ⟨hfrozen, .inr ?_⟩⟩, hfrozen⟩
      rwa [length_append_logBuf]
    · exact .inl (doWriteLog_no_room hfrozen hc.endCursor_valid hpos (by omega) hfree hroom)
  · rw [if_pos hfrozen]
    exact .inl rfl

/-- `switch_log` completes the batch of an open generator and freezes it, and leaves a frozen one
as it is. -/
theorem switchLog_spec (hid : g.endCursor.logId + 2 < 2 ^ 63) (now : BitVec 64) :
    (g.switchLog crc64 now).1 = g ∨
      ∃ rs', Sound crc64 fileSize (g.switchLog crc64 now).1 rs' ∧ g.isFrozen = false ∧
        (g.switchLog crc64 now).1.startCursor = g.startCursor := by
  obtain ⟨hc, ho | ⟨hfrozen, hcomplete⟩⟩ := hs
  · obtain ⟨g₁, rs₁, hnop, hc₁, hp₁, hstart₁, hid₁, -⟩ :=
      writeNop_spec hc ho (by omega) now false (fun h => nomatch h)
    obtain ⟨g₂, rs₂, hswitch, hc₂, hcomplete₂, hstart₂, -⟩ :=
      appendSwitchLog_spec hc₁ hp₁ (by omega)
    have heq : g.switchLog crc64 now = ({ g₂ with isFrozen := true }, .success) := by
      simp [switchLog, hnop, hswitch]
    rw [heq]
    exact .inr ⟨rs₂, ⟨hc₂.setFrozen, .inr ⟨rfl, hcomplete₂.setFrozen⟩⟩, ho.1,
      hstart₂.trans hstart₁⟩
  · have hnop : g.writeNop crc64 now false = (g, .success) := by
      rw [writeNop, if_pos ⟨hcomplete.aligned, by simp⟩]
    have hswitch : g.appendSwitchLog crc64 = (g, .stateNotMatch) := by
      have hlen := length_switchLogPayload g.endCursor.fileId
      have hunits : logFileAlignSize = 512 ∧ headerSize = 44 := ⟨rfl, rfl⟩
      rw [appendSwitchLog, doWriteLog, if_neg (length_pos_iff.1 (by omega)), if_pos hfrozen]
    left
    simp [switchLog, hnop, hswitch]

/-- Completing a batch succeeds, and changes nothing once the generator is frozen. -/
theorem completeBatch_spec (hid : g.endCursor.logId + 2 < 2 ^ 63) (now : BitVec 64) :
    ∃ g' rs', g.completeBatch crc64 now = (g', .success) ∧ Content crc64 fileSize g' rs' ∧
      Complete g' rs' ∧ g'.startCursor = g.startCursor ∧
      g'.endCursor.logId ≤ g.endCursor.logId + 2 ∧ (g.isFrozen = true → g' = g) := by
  obtain ⟨hc, ho | ⟨hfrozen, hcomplete⟩⟩ := hs
  · obtain ⟨g₁, rs₁, hnop, hc₁, hp₁, hstart₁, hid₁, hlast₁⟩ :=
      writeNop_spec hc ho (by omega) now (decide (g.logBuf.length ≠ 0)) (by simp)
    rw [completeBatch, if_neg (by simp [ho.1]), hnop]
    simp only [checkLogFileSize]
    split
    · next hroom =>
      refine ⟨g₁, rs₁, rfl, hc₁, ⟨hp₁.2.1, ?_, .inr hroom, hlast₁ (by simp)⟩, hstart₁, by omega,
        fun h => absurd (ho.1.symm.trans h) (by decide)⟩
      have htwo := hc₁.two_units
      rcases hp₁.2.2 with hnil | hle
      · rw [hnil, length_nil]
        omega
      · omega
    · obtain ⟨g₂, rs₂, hswitch, hc₂, hcomplete₂, hstart₂, hid₂⟩ :=
        appendSwitchLog_spec hc₁ hp₁ (by omega)
      exact ⟨g₂, rs₂, hswitch, hc₂, hcomplete₂, hstart₂.trans hstart₁, by omega,
        fun h => absurd (ho.1.symm.trans h) (by decide)⟩
  · rw [completeBatch, if_pos hfrozen]
    exact ⟨g, rs, rfl, hc, hcomplete, rfl, by omega, fun _ => rfl⟩

/-- `get_log` always hands out the batch: it freezes the generator, and hands the same batch out
again until it is committed. -/
theorem getLog_spec (hid : g.endCursor.logId + 2 < 2 ^ 63) (now : BitVec 64) :
    ∃ g' rs', g.getLog crc64 now = (g', .ok g'.batch) ∧
      Content crc64 fileSize g' rs' ∧ g'.isFrozen = true ∧ Complete g' rs' ∧
      g'.startCursor = g.startCursor ∧ g'.endCursor.logId ≤ g.endCursor.logId + 2 ∧
      (g.isFrozen = true → g' = g) := by
  obtain ⟨g₁, rs₁, hbatch, hc₁, hcomplete₁, hstart₁, hid₁, hsame⟩ :=
    completeBatch_spec hs hid now
  have heof : g₁.appendEof = .ok eofFlagBuf := by
    have hroom := hcomplete₁.room
    rw [appendEof, length_eofFlagBuf, if_neg (by omega)]
  refine ⟨{ g₁ with isFrozen := true }, rs₁, ?_, hc₁.setFrozen, rfl, hcomplete₁.setFrozen,
    hstart₁, hid₁, fun h => ?_⟩
  · simp [getLog, hbatch, heof, batch]
  · obtain rfl := hsame h
    rw [← h]

end

end LogGenerator

/-! ### Batches -/

/-- A batch is a multiple of the alignment long, fits its file, holds records under consecutive
log ids, and `parse_log_buffer` reads it from its start cursor exactly to its end cursor; only
a batch without records, which the parser refuses, is empty. What is written for it ends at most
one unit behind the largest size of the file. -/
structure Batch.Sound (crc64 : Crc64) (fileSize : Nat) (b : Batch) : Prop where
  aligned : b.buf.length % logFileAlignSize = 0
  in_file : b.startCursor.offset + b.buf.length ≤ fileSize
  written_le : b.startCursor.offset + b.written.length ≤ fileSize + logFileAlignSize
  records : ∃ rs, b.buf = bytesFrom crc64 b.startCursor rs ∧
    b.endCursor = cursorAfter b.startCursor rs ∧
    b.endCursor.logId = b.startCursor.logId + rs.length
  parses : b.buf = [] ∧ b.endCursor = b.startCursor ∨
    ∀ checkIntegrity, parseLogBuffer crc64 checkIntegrity b.buf b.startCursor =
      some (.success, b.endCursor)

/-- The next batch handed out is the same one again, or starts where it ends. -/
def Batch.Follows (b b' : Batch) : Prop := b' = b ∨ b'.startCursor = b.endCursor

/-- One unit is written behind a batch. -/
theorem Batch.length_written_le (b : Batch) :
    b.written.length ≤ b.buf.length + logFileAlignSize := by
  unfold Batch.written
  split
  · simp
  · exact length_take_le _ _

namespace LogGenerator

/-- The logs of a batch end within the file: its start cursor leaves room for a full buffer, or
is at the beginning of a file, which is at least one unit smaller than the buffer. -/
theorem Content.in_file (hc : Content crc64 fileSize g rs) (hcomplete : Complete g rs) :
    g.startCursor.offset + g.logBuf.length ≤ fileSize := by
  have hroom := hcomplete.room
  have hle := hc.le_file
  have hfile := hc.file_eq
  rcases hc.start_offset with hzero | hfull
  all_goals omega

theorem Content.sound_batch (hc : Content crc64 fileSize g rs) (hcomplete : Complete g rs)
    (hid : g.endCursor.logId ≤ 2 ^ 63) : g.batch.Sound crc64 fileSize where
  aligned := hcomplete.aligned
  in_file := hc.in_file hcomplete
  written_le := by
    have hin := hc.in_file hcomplete
    have hle : g.batch.written.length ≤ g.logBuf.length + logFileAlignSize :=
      g.batch.length_written_le
    simp only [batch] at hle ⊢
    omega
  records := ⟨rs, hc.logBuf_eq, hc.endCursor_eq, hc.logId_eq⟩
  parses := by
    simp only [batch]
    by_cases hnil : rs = []
    · refine .inl ⟨hc.logBuf_eq_nil_iff.2 hnil, ?_⟩
      rw [hc.endCursor_eq, hnil]
      rfl
    right
    intro checkIntegrity
    rw [hc.logBuf_eq, hc.endCursor_eq]
    exact parseLogBuffer_bytesFrom checkIntegrity hc.start_valid hnil
      (hc.logId_eq ▸ hid) hc.fits hcomplete.last

end LogGenerator

namespace LogGeneratorState

open LogGenerator

variable {start : LogCursor} {s s' : LogGeneratorState} {call : LogGeneratorCall} {g : LogGenerator}
    {data : List UInt8}

/-- The generator's next batch takes at most two more log ids. -/
def LogIdsLeft (s : LogGeneratorState) : Prop := s.generator.endCursor.logId + 2 < 2 ^ 63

instance (s : LogGeneratorState) : Decidable s.LogIdsLeft := inferInstanceAs (Decidable (_ < _))

/-- Log ids are left, and what is committed was handed out. -/
def InUse (s : LogGeneratorState) : LogGeneratorCall → Prop
  | .commit endCursor => s.LogIdsLeft ∧ endCursor ∈ s.batches.map Batch.endCursor
  | _ => s.LogIdsLeft

instance (s : LogGeneratorState) : DecidablePred s.InUse
  | .commit _ => inferInstanceAs (Decidable (_ ∧ _))
  | .writeLog .. | .switchLog _ | .getLog _ => inferInstanceAs (Decidable s.LogIdsLeft)

/-- The invariant of a generator started at `start`: its batches are sound and follow one another
from `start` on, and the last of them ends where the generator's content starts, or is the one
the generator is frozen for. -/
structure Inv (crc64 : Crc64) (fileSize : Nat)
    (start : LogCursor) (s : LogGeneratorState) : Prop where
  generator : ∃ rs, LogGenerator.Sound crc64 fileSize s.generator rs
  batches : ∀ b ∈ s.batches, b.Sound crc64 fileSize
  chain : s.batches.IsChain Batch.Follows
  first : ∀ b, s.batches.head? = some b → b.startCursor = start
  none : s.batches = [] → s.generator.startCursor = start
  last : ∀ b, s.batches.getLast? = some b → b.endCursor = s.generator.startCursor ∨
    s.generator.isFrozen = true ∧ b = s.generator.batch
  sorted : ∀ b, s.batches.getLast? = some b →
    ∀ b' ∈ s.batches, b'.endCursor.logId ≤ b.endCursor.logId

section

variable (h : Inv crc64 fileSize start s)
include h

theorem Inv.setGenerator {rs : List LogRecord} (hs : LogGenerator.Sound crc64 fileSize g rs)
    (hopen : s.generator.isFrozen = false) (hstart : g.startCursor = s.generator.startCursor) :
    Inv crc64 fileSize start { s with generator := g } :=
  { h with
    generator := ⟨rs, hs⟩
    none := fun hnil => hstart.trans (h.none hnil)
    last := fun b hb => by
      rcases h.last b hb with hend | ⟨hfrozen, -⟩
      · exact .inl (hend.trans hstart.symm)
      · rw [hopen] at hfrozen
        cases hfrozen }

theorem inv_writeLog (hids : s.LogIdsLeft) {cmd : LogCommand}
    (hsize : s.generator.checkLogSize data.length = true) :
    Inv crc64 fileSize start { s with generator := (s.generator.writeLog crc64 cmd data).1 } := by
  obtain ⟨rs, hs⟩ := h.generator
  have hid : s.generator.endCursor.logId < 2 ^ 63 := by
    unfold LogIdsLeft at hids
    omega
  rcases writeLog_spec hs hid cmd hsize with hfull | ⟨hok, hs', hopen⟩
  · rwa [hfull]
  · rw [hok]
    exact h.setGenerator hs' hopen rfl

theorem inv_switchLog (hids : s.LogIdsLeft) (now : BitVec 64) :
    Inv crc64 fileSize start { s with generator := (s.generator.switchLog crc64 now).1 } := by
  obtain ⟨rs, hs⟩ := h.generator
  rcases switchLog_spec hs hids now with hsame | ⟨rs', hs', hopen, hstart⟩
  · rwa [hsame]
  · exact h.setGenerator hs' hopen hstart

theorem inv_getLog (hids : s.LogIdsLeft) (now : BitVec 64) :
    ∃ g, s.generator.getLog crc64 now = (g, .ok g.batch) ∧
      Inv crc64 fileSize start ⟨g, s.batches ++ [g.batch]⟩ := by
  obtain ⟨rs, hs⟩ := h.generator
  obtain ⟨g, rs', hget, hc, hfrozen, hcomplete, hstart, hid, hsame⟩ := getLog_spec hs hids now
  have hfollows : ∀ b, s.batches.getLast? = some b →
      b.Follows g.batch ∧ b.endCursor.logId ≤ g.endCursor.logId := by
    intro b hb
    rcases h.last b hb with hend | ⟨hf, rfl⟩
    · have hlogId := hc.logId_eq
      refine ⟨.inr (hstart.trans hend.symm), ?_⟩
      rw [hend, ← hstart]
      omega
    · rw [hsame hf]
      exact ⟨.inl rfl, Int.le_refl _⟩
  refine ⟨g, hget, ⟨rs', hc, .inr ⟨hfrozen, hcomplete⟩⟩, ?_, ?_, ?_, by simp, ?_, ?_⟩
  · intro b hb
    rcases mem_append.1 hb with hold | hnew
    · exact h.batches b hold
    rw [mem_singleton.1 hnew]
    unfold LogIdsLeft at hids
    exact hc.sound_batch hcomplete (by omega)
  · refine h.chain.append (.singleton _) fun b hb b' hb' => ?_
    cases hb'
    exact (hfollows b hb).1
  · intro b hb
    rcases hbatches : s.batches with _ | ⟨b₀, bs⟩
    · rw [hbatches] at hb
      cases hb
      exact hstart.trans (h.none hbatches)
    · exact h.first b (hbatches ▸ hb)
  · intro b hb
    rw [getLast?_append, getLast?_singleton, Option.some_or] at hb
    cases hb
    exact .inr ⟨hfrozen, rfl⟩
  · intro b hb b' hb'
    rw [getLast?_append, getLast?_singleton, Option.some_or] at hb
    cases hb
    rcases mem_append.1 hb' with hold | hnew
    · -- a batch from before is not behind the last batch from before
      have hb := getLast?_eq_some_getLast (ne_nil_of_mem hold)
      exact Int.le_trans (h.sorted _ hb b' hold) (hfollows _ hb).2
    · obtain rfl := mem_singleton.1 hnew
      exact Int.le_refl _

/-- A commit that is accepted starts the next batch where the last one handed out ends. -/
theorem inv_commit {b : Batch} (hb : b ∈ s.batches) :
    Inv crc64 fileSize start { s with generator := (s.generator.commit b.endCursor).1 } := by
  obtain ⟨rs, hc, hphase⟩ := h.generator
  unfold commit
  split
  · exact h
  · next hend =>
    rw [not_not] at hend
    obtain ⟨b₁, hb₁⟩ : ∃ b₁, s.batches.getLast? = some b₁ :=
      ⟨_, getLast?_eq_some_getLast (ne_nil_of_mem hb)⟩
    -- an older batch ends at the end cursor only when nothing was written since
    have hlast : b₁.endCursor = s.generator.endCursor := by
      rcases h.last b₁ hb₁ with hstart | ⟨-, rfl⟩
      · have hle := h.sorted b₁ hb₁ b hb
        have hlogId := hc.logId_eq
        rw [hend, hstart] at hle
        have hnil : rs = [] := length_eq_zero_iff.1 (by omega)
        rw [hstart, hc.endCursor_eq, hnil]
        rfl
      · rfl
    have hoffset : s.generator.endCursor.offset = 0 ∨
        s.generator.endCursor.offset + s.generator.logBufLen ≤ s.generator.logFileMaxSize := by
      rcases h.last b₁ hb₁ with hstart | ⟨hfrozen, -⟩
      · rw [← hlast, hstart]
        exact hc.start_offset
      rcases hphase with ⟨hopen, -⟩ | ⟨-, hcomplete⟩
      · rw [hopen] at hfrozen
        cases hfrozen
      · exact hcomplete.end_offset
    exact { h with
      generator := ⟨[], ⟨⟨hc.endCursor_valid, rfl, rfl, by simp⟩, hc.file_eq, hc.aligned,
        hc.two_units, hc.le_file, hc.small, hoffset⟩, .inl ⟨rfl, .inl rfl⟩⟩
      none := fun hnil => absurd (hnil ▸ hb) not_mem_nil
      last := fun b' hb' => by
        rw [hb₁] at hb'
        cases hb'
        exact .inl hlast }

theorem inv_step (huse : s.InUse call)
    (hstep : s.step crc64 call = some s') : Inv crc64 fileSize start s' := by
  cases call with
  | writeLog cmd data =>
    simp only [step] at hstep
    split at hstep
    · next hsize =>
      cases hstep
      exact inv_writeLog h huse hsize
    · cases hstep
  | switchLog now =>
    cases hstep
    exact inv_switchLog h huse now
  | getLog now =>
    obtain ⟨g, hget, hg⟩ := inv_getLog h huse now
    simp only [step, hget] at hstep
    cases hstep
    exact hg
  | commit endCursor =>
    obtain ⟨b, hb, rfl⟩ := mem_map.1 huse.2
    cases hstep
    exact inv_commit h hb

end

theorem inv_init (hsound : LogGenerator.Sound crc64 fileSize g [])
    (hstart : g.startCursor = start) : Inv crc64 fileSize start ⟨g, []⟩ where
  generator := ⟨[], hsound⟩
  batches := by simp
  chain := .nil
  first := by simp
  none _ := hstart
  last := by simp
  sorted := by simp

/-- What a user of the generator relies on: as long as log ids are left, `get_log` hands out a
batch and `write_log` fails only for lack of room; every batch handed out is sound; and the
batches follow one another from the cursor the generator was started at. -/
structure Safe (crc64 : Crc64) (fileSize : Nat)
    (start : LogCursor) (s : LogGeneratorState) : Prop where
  getLog_ok : ∀ now, s.LogIdsLeft →
    ∃ b, (s.generator.getLog crc64 now).2 = .ok b
  writeLog_ok : ∀ cmd data, s.LogIdsLeft →
    s.generator.checkLogSize data.length = true →
    (s.generator.writeLog crc64 cmd data).2 = .success ∨
      s.generator.writeLog crc64 cmd data = (s.generator, .bufNotEnough)
  batches : ∀ b ∈ s.batches, b.Sound crc64 fileSize
  chain : s.batches.IsChain Batch.Follows
  first : ∀ b, s.batches.head? = some b → b.startCursor = start

theorem Inv.safe (h : Inv crc64 fileSize start s) : Safe crc64 fileSize start s where
  getLog_ok now hids := by
    obtain ⟨g, hget, -⟩ := inv_getLog h hids now
    exact ⟨g.batch, by rw [hget]⟩
  writeLog_ok cmd data hids hsize := by
    obtain ⟨rs, hs⟩ := h.generator
    unfold LogIdsLeft at hids
    rcases writeLog_spec hs (by omega) cmd hsize with hfull | ⟨hok, -⟩
    · exact .inr hfull
    · exact .inl (by rw [hok])
  batches := h.batches
  chain := h.chain
  first := h.first

/-- **The batches of a generator** are sound and follow one another through every sequence of calls
that commits only what was handed out, as long as the buffer is small enough for the entries'
length field and the log ids last. -/
theorem batches_safe_of_run {logBufSize logFileMaxSize : Nat} {server : Server} {g : LogGenerator}
    {calls : List LogGeneratorCall}
    (hinit : LogGenerator.init logBufSize logFileMaxSize server start = .ok g)
    (hoffset : start.offset = 0) (haligned : logBufSize % logFileAlignSize = 0)
    (hfile : logBufSize ≤ logFileMaxSize) (hsmall : logBufSize ≤ 2 ^ 31 + 2 * logFileAlignSize)
    (huse : Meets (step crc64) InUse ⟨g, []⟩ calls)
    (hrun : run (step crc64) ⟨g, []⟩ calls = some s) : Safe crc64 logFileMaxSize start s := by
  obtain ⟨hsound, hstart⟩ := sound_init crc64 hinit hoffset haligned hfile hsmall
  exact (run_invariant_of_meets (fun _ _ _ => inv_step) (inv_init hsound hstart) huse hrun).safe

/-- A generator with a buffer of 4096 bytes, for files of 8192 bytes. -/
def smallGenerator : LogGenerator :=
  ⟨false, 8192, ⟨1, 1, 0⟩, ⟨1, 1, 0⟩, [], 4608, .ipv4 2700 1, 0, 0⟩

theorem init_smallGenerator :
    LogGenerator.init 4096 8192 (.ipv4 2700 1) ⟨1, 1, 0⟩ = .ok smallGenerator := by
  decide +kernel

/-- A batch with a mutator, and one that switches to the second file. -/
theorem batches_safe_of_run_twoBatches :
    ∃ s, run (step fun _ _ _ => 0) ⟨smallGenerator, []⟩
        [.writeLog .upsMutator [1, 2, 3], .getLog 7, .commit ⟨1, 3, 512⟩, .switchLog 8, .getLog 9] =
          some s ∧
      s.batches.map Batch.endCursor = [⟨1, 3, 512⟩, ⟨2, 4, 0⟩] ∧
      Safe (fun _ _ _ => 0) 8192 ⟨1, 1, 0⟩ s := by
  have hends : (run (step fun _ _ _ => 0) ⟨smallGenerator, []⟩
      [.writeLog .upsMutator [1, 2, 3], .getLog 7, .commit ⟨1, 3, 512⟩, .switchLog 8,
        .getLog 9]).map (fun s => s.batches.map Batch.endCursor) =
      some [⟨1, 3, 512⟩, ⟨2, 4, 0⟩] := by
    decide +kernel
  obtain ⟨s, hrun, hs⟩ := Option.map_eq_some_iff.1 hends
  exact ⟨s, hrun, hs, batches_safe_of_run init_smallGenerator rfl rfl (by decide) (by decide)
    (by decide +kernel) hrun⟩

/-! ### A payload that its length field cannot hold -/

/-- Read as an entry, zeros announce a payload of `-12` bytes under sequence number 0. -/
theorem deserialize_replicate_zero (rest : List UInt8) :
    LogEntry.deserialize (replicate 44 0 ++ rest) =
      some (⟨⟨0, 0, 0, 0, 0, 0, 0, 0⟩, 0, 0⟩, rest) :=
  deserialize_serialize_append ⟨⟨0, 0, 0, 0, 0, 0, 0, 0⟩, 0, 0⟩ rest

theorem getLogDataLen_nextEntry_wrapped {cmd : BitVec 32}
    (hlen : data.length = 2 ^ 32) : (c.nextEntry crc64 cmd data).getLogDataLen = 0 := by
  rw [nextEntry, getLogDataLen_fillHeader_eq, hlen]
  decide

theorem advance_nextEntry_wrapped (hlen : data.length = 2 ^ 32) :
    (⟨1, 1, 0⟩ : LogCursor).advance (nextEntry crc64 ⟨1, 1, 0⟩ 200 data) = .ok ⟨1, 2, 44⟩ := by
  have hseq : (nextEntry crc64 ⟨1, 1, 0⟩ 200 data).seq.toInt = 1 :=
    seq_nextEntry (by decide) (by decide)
  have hcmd : (nextEntry crc64 ⟨1, 1, 0⟩ 200 data).cmd = 200 := rfl
  rw [advance, hseq, hcmd, getLogDataLen_nextEntry_wrapped hlen]
  decide

/-- The parser goes on at the payload, where it finds no next entry. -/
theorem parseLogBuffer_wrapped {n : Nat} (hn : n = 2 ^ 32) (rest : List UInt8) :
    parseLogBuffer crc64 false
        ((nextEntry crc64 ⟨1, 1, 0⟩ 200 (replicate n 0)).serialize ++
          (replicate n 0 ++ rest)) ⟨1, 1, 0⟩ =
      some (.discontinuousLog, ⟨1, 2, 44⟩) := by
  have hlen : (replicate n (0 : UInt8)).length = 2 ^ 32 := by rw [length_replicate, hn]
  have hheader : headerSize = 44 := rfl
  generalize hdata : (nextEntry crc64 ⟨1, 1, 0⟩ 200 (replicate n 0)).serialize ++
    (replicate n 0 ++ rest) = data
  have hlength : data.length = 44 + n + rest.length := by
    rw [← hdata, length_append, length_append, length_replicate, length_serialize, hheader,
      Nat.add_assoc]
  have hfirst : ∀ fuel, parseLoop crc64 false data ⟨1, 1, 0⟩ (fuel + 1) 0 0 ⟨1, 1, 0⟩ =
      parseLoop crc64 false data ⟨1, 1, 0⟩ fuel 44 0 ⟨1, 2, 44⟩ := by
    intro fuel
    have hcmd : (nextEntry crc64 ⟨1, 1, 0⟩ 200 (replicate n 0)).cmd = 200 := rfl
    rw [parseLoop, if_pos (by omega), drop_zero, ← hdata, deserialize_serialize_append, hdata]
    simp only [getLogDataLen_nextEntry_wrapped hlen, advance_nextEntry_wrapped hlen]
    rw [if_neg (by omega)]
    rfl
  have hsecond : ∀ fuel, parseLoop crc64 false data ⟨1, 1, 0⟩ (fuel + 1) 44 0 ⟨1, 2, 44⟩ =
      some (.discontinuousLog, 76, ⟨1, 2, 44⟩) := by
    intro fuel
    have hzeros : data.drop 44 = replicate 44 0 ++ (replicate (n - 44) 0 ++ rest) := by
      rw [← hdata, ← hheader, drop_left' (length_serialize _), ← append_assoc,
        replicate_append_replicate, hheader, Nat.add_sub_cancel' (by omega)]
    rw [parseLoop, if_pos (by omega), hzeros, deserialize_replicate_zero]
    simp only [getLogDataLen, hheader]
    rw [if_neg (by rw [show ((0 : BitVec 32) - 12).toInt = -12 by decide]; omega)]
    rfl
  obtain ⟨fuel, hfuel⟩ : ∃ fuel, data.length = fuel + 1 := ⟨43 + n + rest.length, by omega⟩
  rw [parseLogBuffer, if_neg, hfuel, hfirst, hsecond]
  · rfl
  rintro (hnil | hvalid)
  · rw [hnil] at hfuel
    cases hfuel
  · exact hvalid (by decide)

/-- `get_log` pads an open generator whose file has room for more, whatever its buffer holds. -/
theorem getLog_of_room (hfrozen : g.isFrozen = false) (hne : g.logBuf ≠ [])
    (hvalid : g.endCursor.isValid = true) (hid : g.endCursor.logId < 2 ^ 63)
    (hroom : g.logBuf.length + logBufReservedSize ≤ g.logBufLen)
    (hfile : g.endCursor.offset + 610 + g.logBufLen ≤ g.logFileMaxSize) (now : BitVec 64) :
    ∃ g' rest, g.getLog crc64 now =
      (g', .ok ⟨g.startCursor, g'.endCursor, g.logBuf ++ rest, eofFlagBuf⟩) := by
  obtain ⟨hmin, hmax, haligned⟩ := length_nopPayload (g.debugLog.advance now) g.logBuf.length
  generalize hnop : nopPayload (g.debugLog.advance now) g.logBuf.length = nop at hmin hmax haligned
  have hheader : headerSize = 44 := rfl
  have hpos : 0 < g.logBuf.length := length_pos_iff.2 hne
  simp only [logBufReservedSize, logFileAlignSize] at hroom haligned
  have hwrite : g.writeNop crc64 now (decide (g.logBuf.length ≠ 0)) =
      (LogGenerator.append crc64 { g with debugLog := g.debugLog.advance now }
        LogCommand.nop.code nop, .success) := by
    rw [writeNop, if_neg fun h => h.2 (decide_eq_true (by omega))]
    simp only [hnop]
    exact doWriteLog_eq_append hfrozen hvalid hid (by omega) (by omega) (by simp only; omega)
  have hswitch : LogCommand.nop.code ≠ LogCommand.switchLog.code := by decide
  rw [getLog, completeBatch, if_neg (by simp [hfrozen]), hwrite]
  simp only
  rw [checkLogFileSize, if_pos]
  · simp only [appendEof, length_append_logBuf, append_logBufLen, length_eofFlagBuf,
      logFileAlignSize]
    rw [if_neg (by omega)]
    exact ⟨_, _, by simp only [LogGenerator.append, append_assoc]; rfl⟩
  · simp only [append_endCursor, append_logBufLen, append_logFileMaxSize, LogCursor.next,
      if_neg hswitch]
    omega

variable (crc64) in
/-- The batch with a payload of `2 ^ 32` zeros, of a generator whose buffer can take it. -/
theorem batch_wrapped {n : Nat} (hn : n = 2 ^ 32) :
    ∃ g s b rest, LogGenerator.init (2 ^ 32 + 1536) (2 ^ 34) (.ipv4 0 0) ⟨1, 1, 0⟩ = .ok g ∧
      run (step crc64) ⟨g, []⟩
        [.writeLog .upsMutator (replicate n 0), .getLog 0] = some s ∧
      s.batches = [b] ∧ b.startCursor = ⟨1, 1, 0⟩ ∧
      b.buf = (nextEntry crc64 ⟨1, 1, 0⟩ 200 (replicate n 0)).serialize ++
        (replicate n 0 ++ rest) := by
  have hlen : (replicate n (0 : UInt8)).length = 2 ^ 32 := by rw [length_replicate, hn]
  have hne : replicate n (0 : UInt8) ≠ [] := length_pos_iff.1 (by omega)
  have hheader : headerSize = 44 := rfl
  have hreserved : logBufReservedSize = 1536 := rfl
  generalize hg : LogGenerator.mk false (2 ^ 34) ⟨1, 1, 0⟩ ⟨1, 1, 0⟩ [] (2 ^ 32 + 2048)
    ⟨.ipv4 0 0, 0, 0⟩ = g
  have hsize : g.checkLogSize (replicate n (0 : UInt8)).length = true := by
    rw [hlen, ← hg]
    decide
  obtain ⟨g₁, hwrite, hfrozen₁, hstart₁, hend₁, hbuf₁, hbufLen₁, hfile₁⟩ :
      ∃ g₁, g.writeLog crc64 .upsMutator (replicate n 0) = (g₁, .success) ∧
        g₁.isFrozen = false ∧ g₁.startCursor = ⟨1, 1, 0⟩ ∧ g₁.endCursor = ⟨1, 2, 44⟩ ∧
        g₁.logBuf = (nextEntry crc64 ⟨1, 1, 0⟩ 200
          (replicate n 0)).serialize ++ replicate n 0 ∧
        g₁.logBufLen = 2 ^ 32 + 2048 ∧ g₁.logFileMaxSize = 2 ^ 34 := by
    rw [← hg, writeLog, if_neg hne, if_neg (by decide)]
    refine ⟨_, doWriteLog_of_advance rfl (by decide) (by omega) (advance_nextEntry_wrapped hlen)
      (by simp only [length_nil]; omega), rfl, rfl, rfl, rfl, rfl, rfl⟩
  have hlen₁ : g₁.logBuf.length = 2 ^ 32 + 44 := by
    rw [hbuf₁, length_append, length_serialize, hlen, hheader, Nat.add_comm]
  obtain ⟨g₂, rest, hget⟩ : ∃ g₂ rest, g₁.getLog crc64 0 =
      (g₂, .ok ⟨g₁.startCursor, g₂.endCursor, g₁.logBuf ++ rest, eofFlagBuf⟩) :=
    getLog_of_room hfrozen₁ (length_pos_iff.1 (by omega)) (by rw [hend₁]; decide)
      (by rw [hend₁]; decide) (by omega) (by rw [hend₁]; simp only; omega) 0
  refine ⟨g, ⟨g₂, [⟨g₁.startCursor, g₂.endCursor, g₁.logBuf ++ rest, eofFlagBuf⟩]⟩,
    ⟨g₁.startCursor, g₂.endCursor, g₁.logBuf ++ rest, eofFlagBuf⟩, rest, ?_, ?_, rfl, hstart₁, ?_⟩
  · rw [← hg]
    exact if_neg (by decide)
  · simp only [run, step, hsize, hwrite, hget, if_true, Option.bind_some, nil_append]
  · simp only [hbuf₁, append_assoc]

/-- What the batches of a generator need not be, without further conditions:
* with a buffer of `2 ^ 32 + 1536` bytes, a payload of `2 ^ 32` bytes passes `check_log_size` and
  is handed out in a batch that does not parse;
* a commit of what is in the buffer, before it is handed out, leaves a gap in the log ids;
* a batch handed out without a record in it is refused by the parser;
* with a buffer as large as the file, 2560 bytes are written to a file of at most 2048. -/
theorem batches_counterexamples :
    (∃ g s b, LogGenerator.init (2 ^ 32 + 1536) (2 ^ 34) (.ipv4 0 0) ⟨1, 1, 0⟩ = .ok g ∧
      run (step fun _ _ _ => 0) ⟨g, []⟩
        [.writeLog .upsMutator (replicate (2 ^ 32) 0), .getLog 0] = some s ∧
      s.batches = [b] ∧
      parseLogBuffer (fun _ _ _ => 0) false b.buf b.startCursor =
        some (.discontinuousLog, ⟨1, 2, 44⟩)) ∧
    (run (step fun _ _ _ => 0) ⟨smallGenerator, []⟩
        [.writeLog .upsMutator [1], .getLog 7, .commit ⟨1, 3, 512⟩, .writeLog .upsMutator [2],
          .commit ⟨1, 4, 557⟩, .writeLog .upsMutator [3], .getLog 8]).map
      (fun s => s.batches.map fun b => (b.startCursor.logId, b.endCursor.logId)) =
        some [(1, 3), (4, 6)] ∧
    (run (step fun _ _ _ => 0) ⟨smallGenerator, []⟩ [.getLog 7]).map
      (fun s => s.batches.map fun b =>
        (parseLogBuffer (fun _ _ _ => 0) false b.buf b.startCursor).map Prod.fst) =
        some [some .invalidArgument] ∧
    (∃ g, LogGenerator.init 2048 2048 (.ipv4 2700 1) ⟨1, 1, 0⟩ = .ok g ∧
      (run (step fun _ _ _ => 0) ⟨g, []⟩
          [.writeLog .upsMutator (replicate 980 0), .getLog 7]).map
        (fun s => s.batches.map fun b => (b.startCursor.offset, b.written.length)) =
          some [(0, 2560)]) := by
  refine ⟨?_, by decide +kernel, by decide +kernel,
    ⟨⟨false, 2048, ⟨1, 1, 0⟩, ⟨1, 1, 0⟩, [], 2560, .ipv4 2700 1, 0, 0⟩, by decide +kernel,
      by decide +kernel⟩⟩
  obtain ⟨g, s, b, rest, hinit, hrun, hb, hstart, hbuf⟩ :=
    batch_wrapped (fun _ _ _ => 0) rfl
  refine ⟨g, s, b, hinit, hrun, hb, ?_⟩
  rw [hstart, hbuf]
  exact parseLogBuffer_wrapped rfl rest

end LogGeneratorState

end OceanBase.Common
