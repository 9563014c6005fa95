import OceanBase.Common.LogStream

/-!
# Cutting a log buffer at an entry (`trim_log_buffer` of `ob_ups_log_utils.cpp`)

A read from a log file may end in the middle of an entry. `trim_log_buffer` finds the longest
piece of what was read that ends with a whole entry at an aligned place of the file.

The loop stops at the mark that the generator writes behind its last batch (`eof_flag_buf_`), but
does not take it for the end of the file. The buffer is said to end the file when a switch entry
stands at its end (`trimLogBuffer_of_run`); the loop does not go on behind one.
-/

namespace OceanBase.UpdateServer

open Common Lib List LogEntry LogGeneratorState Nat

/-! ### The code -/

/-- `is_eof`: the mark stands at the beginning of the buffer. -/
def isEof (buf : List UInt8) : Bool :=
  decide (logFileAlignSize ≤ buf.length) && buf.take logFileAlignSize == eofFlagBuf

/-- `is_align`. -/
def isAlign (x nBits : Nat) : Bool := decide (x % 2 ^ nBits = 0)

/-- The local variables of `trim_log_buffer`, and its in-out argument `is_file_end`. -/
structure TrimState where
  pos : Nat
  realStartId : Int
  realEndId : Int
  lastAlignEndPos : Nat
  lastAlignEndId : Int
  isFileEnd : Bool
  deriving DecidableEq, Repr

namespace TrimState

/-- The initial values of the variables. -/
def start (isFileEnd : Bool) : TrimState := ⟨0, 0, 0, 0, 0, isFileEnd⟩

/-- An aligned place is remembered. -/
def align (offset alignBits : Nat) (st : TrimState) : TrimState :=
  if isAlign (offset + st.pos) alignBits then
    { st with lastAlignEndPos := offset + st.pos, lastAlignEndId := st.realEndId }
  else st

/-- The state behind an entry that ends at `pos`. -/
def overEntry (entry : LogEntry) (pos : Nat) (st : TrimState) : TrimState :=
  { st with
    pos := pos
    realEndId := entry.seq.toInt + 1
    realStartId := if st.realStartId ≤ 0 then entry.seq.toInt else st.realStartId
    isFileEnd := decide (entry.cmd = LogCommand.switchLog.code) || st.isFileEnd }

end TrimState

open TrimState

variable (crc64 : Crc64) {offset alignBits : Nat}
    {st : TrimState} {f : LogFrame}

section Trim

/-- The loop of `trim_log_buffer`. There is no result when the loop does not come to an end within
`fuel` entries or an entry's length leads out of the buffer. -/
def trimLoop (offset alignBits : Nat) (logData : List UInt8) :
    Nat → TrimState → Option (Ret × TrimState)
  | 0, _ => none
  | fuel + 1, st =>
    if st.pos ≤ logData.length then
      let st := st.align offset alignBits
      if isEof (logData.drop st.pos) then some (.success, st)
      else if st.isFileEnd then some (.success, st)
      else if st.pos + LogEntry.headerSize > logData.length then some (.success, st)
      else
        match LogEntry.deserialize (logData.drop st.pos) with
        | none => some (.error, st)
        | some (entry, input) =>
          let pos := st.pos + LogEntry.headerSize + entry.getLogDataLen
          if pos > logData.length then some (.success, st)
          else if ¬ entry.checkDataIntegrity crc64 input then some (.error, st)
          else if st.realEndId > 0 ∧ st.realEndId ≠ entry.seq.toInt then
            some (.discontinuousLog, st)
          else if pos < 0 then none
          else trimLoop offset alignBits logData fuel (st.overEntry entry pos.toNat)
    else some (.success, st)

/-- The in-out arguments of `trim_log_buffer` but for `is_file_end`. -/
structure TrimResult where
  endPos : Nat
  startId : Int
  endId : Int
  isFileEnd : Bool
  deriving DecidableEq, Repr

/-- What `trim_log_buffer` does with its arguments behind the loop. -/
def TrimState.result (offset : Nat) (startId endId : Int) (ret : Ret) (st : TrimState) :
    TrimResult :=
  if ret ≠ .success ∧ ret ≠ .invalidArgument then ⟨0, startId, endId, st.isFileEnd⟩
  else if st.lastAlignEndId > 0 then
    ⟨st.lastAlignEndPos - offset, st.realStartId, st.lastAlignEndId,
      if st.lastAlignEndPos = offset + st.pos then st.isFileEnd else false⟩
  else ⟨0, startId, startId, false⟩

/-- `trim_log_buffer`, with alignment. -/
def trimLogBuffer (offset alignBits : Nat) (logData : List UInt8) (startId endId : Int)
    (isFileEnd : Bool) : Option (Ret × TrimResult) :=
  if alignBits > 12 then
    some (.invalidArgument,
      (TrimState.start isFileEnd).result offset startId endId .invalidArgument)
  else
    (trimLoop crc64 offset alignBits logData (logData.length + 1) (.start isFileEnd)).map fun r =>
      (r.1, r.2.result offset startId endId r.1)

end Trim

/-! ### One turn of the loop -/

namespace TrimState

@[simp]
theorem align_pos : (st.align offset alignBits).pos = st.pos := by
  unfold align
  split <;> rfl

@[simp]
theorem align_realStartId : (st.align offset alignBits).realStartId = st.realStartId := by
  unfold align
  split <;> rfl

@[simp]
theorem align_realEndId : (st.align offset alignBits).realEndId = st.realEndId := by
  unfold align
  split <;> rfl

@[simp]
theorem align_isFileEnd : (st.align offset alignBits).isFileEnd = st.isFileEnd := by
  unfold align
  split <;> rfl

end TrimState

section Turn

variable {crc64} {offset alignBits fuel n : Nat} {logData rest : List UInt8}

/-- The mark starts with the letter `e`. -/
theorem isEof_of_head? {buf : List UInt8} (h : buf.head? ≠ some 101) : isEof buf = false := by
  rw [isEof, Bool.and_eq_false_iff, beq_eq_false_iff_ne]
  refine .inr fun heq => h ?_
  have hhead := congrArg head? heq
  rwa [head?_take, if_neg (by decide), show eofFlagBuf.head? = some 101 by decide +kernel] at hhead

theorem head?_serialize {e : LogEntry} (h : e.header.magic = magicNumber) :
    e.serialize.head? = some 0xAA := by
  rw [serialize, RecordHeader.serialize, h]
  rfl

/-- An intact entry starts with the magic number, and so it does not look like the mark. -/
theorem isEof_intact (hf : f.Intact crc64) : isEof ((f.bytes ++ rest).take n) = false := by
  have hmagic : f.entry.header.magic = magicNumber := by
    have hcheck := hf.integrity
    rw [checkDataIntegrity, Bool.and_eq_true, Bool.and_eq_true, beq_iff_eq] at hcheck
    exact hcheck.1.2
  refine isEof_of_head? ?_
  rw [head?_take, LogFrame.bytes, head?_append, head?_append, head?_serialize hmagic]
  split
  all_goals simp

theorem trimLoop_whole (hf : f.Intact crc64) {after : List UInt8}
    (hdrop : logData.drop st.pos = f.bytes ++ after) (hopen : st.isFileEnd = false)
    (hseq : 0 < st.realEndId → st.realEndId = f.entry.seq.toInt) :
    trimLoop crc64 offset alignBits logData (fuel + 1) st =
      trimLoop crc64 offset alignBits logData fuel
        ((st.align offset alignBits).overEntry f.entry (st.pos + f.bytes.length)) := by
  have hlength := congrArg length hdrop
  rw [length_drop, length_append, LogFrame.length_bytes] at hlength
  have hheader : headerSize = 44 := rfl
  have heof : isEof (f.bytes ++ after) = false := by
    have h : isEof ((f.bytes ++ after).take (f.bytes ++ after).length) = false := isEof_intact hf
    rwa [take_length] at h
  rw [trimLoop, if_pos (by omega)]
  simp only [align_pos, align_isFileEnd, align_realEndId, hdrop, heof, hopen]
  rw [if_neg (by simp), if_neg (by simp), if_neg (by omega), LogFrame.bytes, append_assoc,
    deserialize_serialize_append]
  simp only [hf.length, checkDataIntegrity_append hf.length, hf.integrity]
  rw [if_neg (by omega), if_neg (by simp), if_neg (by rintro ⟨hpos, hne⟩; exact hne (hseq hpos)),
    if_neg (by omega)]
  simp only [length_append, ← Nat.add_assoc]
  rfl

theorem trimLoop_fileEnd (hpos : st.pos ≤ logData.length) (hend : st.isFileEnd = true) :
    trimLoop crc64 offset alignBits logData (fuel + 1) st =
      some (.success, st.align offset alignBits) := by
  rw [trimLoop, if_pos hpos]
  simp only [align_isFileEnd]
  split <;> rfl

/-- The loop stops in front of something that is not a whole entry: too short for a header, or
with a header that announces more than there is. -/
theorem trimLoop_torn (hpos : st.pos ≤ logData.length) {e : LogEntry}
    (hdrop : logData.drop st.pos = (e.serialize ++ rest).take n)
    (hlong : (n : Int) < LogEntry.headerSize + e.getLogDataLen ∨ n < LogEntry.headerSize) :
    trimLoop crc64 offset alignBits logData (fuel + 1) st =
      some (.success, st.align offset alignBits) := by
  have hlength := congrArg length hdrop
  rw [length_drop, length_take] at hlength
  rw [trimLoop, if_pos hpos]
  simp only [align_pos, align_isFileEnd]
  by_cases heof : isEof (logData.drop st.pos) = true
  · rw [if_pos heof]
  rw [if_neg heof]
  by_cases hfileEnd : st.isFileEnd = true
  · rw [if_pos hfileEnd]
  rw [if_neg hfileEnd]
  by_cases hheader : st.pos + headerSize > logData.length
  · rw [if_pos hheader]
  rw [if_neg hheader]
  have hn : headerSize ≤ n := by omega
  have htake : (e.serialize ++ rest).take n =
      e.serialize ++ rest.take (n - headerSize) := by
    rw [take_append, length_serialize, take_of_length_le (by rw [length_serialize]; exact hn)]
  rw [hdrop, htake, deserialize_serialize_append]
  simp only
  rw [if_pos (by omega)]

/-- Read as an entry, the mark announces more than it has. -/
def eofEntry : LogEntry :=
  ⟨⟨0x656E, 0x645F, 0x6F66, 0x5F6C, 0x6F675F66696C6565, 0x6E645F6F, 0x665F6C6F, 0x675F66696C65656E⟩,
    0x645F6F665F6C6F67, 0x5F66696C⟩

theorem eofFlagBuf_eq : eofFlagBuf = eofEntry.serialize ++ eofFlagBuf.drop LogEntry.headerSize := by
  decide +kernel

/-- The loop stops at the mark, or at a part of it. -/
theorem trimLoop_eof (hpos : st.pos ≤ logData.length)
    (hdrop : logData.drop st.pos = eofFlagBuf.take n) :
    trimLoop crc64 offset alignBits logData (fuel + 1) st =
      some (.success, st.align offset alignBits) := by
  have hshort : eofFlagBuf.take n = eofFlagBuf.take (min n logFileAlignSize) := by
    rw [← take_take, take_of_length_le (le_of_eq length_eofFlagBuf)]
  rw [hshort, eofFlagBuf_eq] at hdrop
  refine trimLoop_torn hpos hdrop (.inl ?_)
  have hannounced : eofEntry.getLogDataLen = 1852071779 := by decide
  have hsizes : logFileAlignSize = 512 ∧ headerSize = 44 := ⟨rfl, rfl⟩
  omega

end Turn

/-! ### The loop over a stream -/

/-- The state behind the entries `fs`. -/
def TrimState.walk (offset alignBits : Nat) (st : TrimState) (fs : List LogFrame) : TrimState :=
  fs.foldl (fun st f => (st.align offset alignBits).overEntry f.entry (st.pos + f.bytes.length)) st

/-- The stream ends the file, or nothing but the mark stands behind it. -/
def TailOf (fs : List LogFrame) (tail : List UInt8) : Prop :=
  (∃ f, fs.getLast? = some f ∧ f.IsSwitch) ∨ tail = [] ∨ tail = eofFlagBuf

section Stream

variable {crc64} {logId : Int} {fs gs : List LogFrame} {tail : List UInt8}

theorem TailOf.of_cons (h : TailOf (f :: fs) tail) (hf : ¬ f.IsSwitch) : TailOf fs tail := by
  refine h.imp_left ?_
  rintro ⟨g, hg, hswitch⟩
  refine ⟨g, ?_, hswitch⟩
  rcases fs with _ | ⟨f', fs⟩
  · cases hg
    exact absurd hswitch hf
  · rwa [getLast?_cons_cons] at hg

/-- The loop walks over the entries of a stream that are not cut, and stops behind them. -/
theorem trimLoop_stream {logData : List UInt8} {st : TrimState} {fuel n : Nat}
    (hstream : LogStream crc64 logId fs) (htail : TailOf fs tail) (hpos : st.pos ≤ logData.length)
    (hdrop : logData.drop st.pos = (frameBytes fs ++ tail).take n)
    (hseq : 0 < st.realEndId → st.realEndId = logId) (hopen : st.isFileEnd = false)
    (hfuel : logData.length - st.pos < fuel) :
    ∃ j ≤ fs.length, trimLoop crc64 offset alignBits logData fuel st =
        some (.success, (st.walk offset alignBits (fs.take j)).align offset alignBits) ∧
      (frameBytes (fs.take j)).length ≤ n ∧
      ∀ i ≤ fs.length, (frameBytes (fs.take i)).length ≤ n → i ≤ j := by
  induction fs generalizing logId st fuel n with
  | nil =>
    obtain ⟨k, rfl⟩ := exists_eq_succ_of_ne_zero (by omega : fuel ≠ 0)
    refine ⟨0, le_refl 0, ?_, by simp [frameBytes], fun i hi _ => hi⟩
    rw [frameBytes, flatMap_nil, nil_append] at hdrop
    rcases htail with ⟨g, hg, -⟩ | rfl | rfl
    · cases hg
    · rw [take_nil, ← take_zero (l := eofFlagBuf)] at hdrop
      exact trimLoop_eof hpos hdrop
    · exact trimLoop_eof hpos hdrop
  | cons f fs ih =>
    obtain ⟨k, rfl⟩ := exists_eq_succ_of_ne_zero (by omega : fuel ≠ 0)
    have hf := hstream.intact f mem_cons_self
    have hbytes := f.length_bytes
    rw [show headerSize = 44 from rfl] at hbytes
    by_cases hwhole : f.bytes.length ≤ n
    · have hafter : logData.drop st.pos =
          f.bytes ++ (frameBytes fs ++ tail).take (n - f.bytes.length) := by
        rw [hdrop, frameBytes, flatMap_cons, append_assoc, take_append, take_of_length_le hwhole,
          frameBytes]
      have hlength := congrArg length hafter
      rw [length_drop, length_append] at hlength
      rw [trimLoop_whole hf hafter hopen fun h => (hseq h).trans hstream.consecutive.1.symm]
      generalize hst : (st.align offset alignBits).overEntry f.entry (st.pos + f.bytes.length) = st'
      have hpos' : st'.pos = st.pos + f.bytes.length := by rw [← hst]; rfl
      by_cases hswitch : f.IsSwitch
      · -- the switch entry is the last one, and the next turn stops
        obtain rfl := hstream.eq_nil_of_isSwitch hswitch
        obtain ⟨k', rfl⟩ := exists_eq_succ_of_ne_zero (by omega : k ≠ 0)
        refine ⟨1, by simp, ?_, ?_, fun i hi _ => hi⟩
        · rw [trimLoop_fileEnd (by omega), ← hst]
          · rfl
          · rw [← hst]
            simp [overEntry, show f.entry.cmd = _ from hswitch]
        · simpa [frameBytes] using hwhole
      have hopen' : st'.isFileEnd = false := by
        rw [← hst, overEntry, align_isFileEnd, hopen, Bool.or_false]
        exact decide_eq_false hswitch
      have hseq' : st'.realEndId = logId + 1 := by
        rw [← hst, overEntry, hstream.consecutive.1]
      have hdrop' : logData.drop st'.pos =
          (frameBytes fs ++ tail).take (n - f.bytes.length) := by
        rw [hpos', ← drop_drop, hafter, drop_left]
      obtain ⟨j, hj, hloop, hle, hmax⟩ := @ih (logId + 1) st' k _ hstream.of_cons
        (htail.of_cons hswitch) (by omega) hdrop' (fun _ => hseq') hopen' (by omega)
      refine ⟨j + 1, by simpa using hj, ?_, ?_, fun i hi hi' => ?_⟩
      · rw [hloop, ← hst]
        rfl
      · rw [take_succ_cons, length_frameBytes_cons]
        omega
      rcases i with _ | i
      · exact zero_le _
      rw [take_succ_cons, length_frameBytes_cons] at hi'
      have := hmax i (by simpa using hi) (by omega)
      omega
    · refine ⟨0, zero_le _, ?_, by simp [frameBytes], fun i _ hi' => ?_⟩
      · have hentry : frameBytes (f :: fs) ++ tail =
            f.entry.serialize ++ (f.data ++ (frameBytes fs ++ tail)) := by
          rw [frameBytes, flatMap_cons, LogFrame.bytes, append_assoc, append_assoc, frameBytes]
        refine trimLoop_torn hpos (hentry ▸ hdrop) (.inl ?_)
        rw [LogFrame.length_bytes] at hwhole
        rw [hf.length]
        omega
      rcases i with _ | i
      · exact le_refl 0
      · rw [take_succ_cons, length_frameBytes_cons] at hi'
        omega

/-- One past the id of the last of `k` entries, or 0 without entries. -/
def endIdOf (logId : Int) (k : Nat) : Int := if k = 0 then 0 else logId + k

/-- The last aligned place between entries; where there is none, the place in front of them. -/
def LastAligned (offset alignBits : Nat) (fs : List LogFrame) (k : Nat) : Prop :=
  k ≤ fs.length ∧
    (k ≠ 0 → isAlign (offset + (frameBytes (fs.take k)).length) alignBits = true) ∧
    ∀ i ≤ fs.length, isAlign (offset + (frameBytes (fs.take i)).length) alignBits = true → i ≤ k

/-- The state behind the first entries of a stream. -/
structure Walked (offset alignBits : Nat) (logId : Int) (fs : List LogFrame) (st : TrimState) :
    Prop where
  pos_eq : st.pos = (frameBytes fs).length
  realEndId_eq : st.realEndId = endIdOf logId fs.length
  realStartId_eq : 0 < logId → st.realStartId = if fs.length = 0 then 0 else logId
  isFileEnd_iff : st.isFileEnd = true ↔ ∃ f, fs.getLast? = some f ∧ f.IsSwitch
  aligned : ∃ k, LastAligned offset alignBits fs k ∧
    (k ≠ 0 →
      (st.align offset alignBits).lastAlignEndPos = offset + (frameBytes (fs.take k)).length) ∧
    (st.align offset alignBits).lastAlignEndId = endIdOf logId k

theorem lastAligned_concat_of_aligned
    (h : isAlign (offset + (frameBytes (fs ++ [f])).length) alignBits = true) :
    LastAligned offset alignBits (fs ++ [f]) (fs ++ [f]).length := by
  refine ⟨le_refl _, fun _ => ?_, fun i hi _ => hi⟩
  rwa [take_length]

theorem LastAligned.concat {k : Nat} (hk : LastAligned offset alignBits fs k)
    (h : isAlign (offset + (frameBytes (fs ++ [f])).length) alignBits = false) :
    LastAligned offset alignBits (fs ++ [f]) k := by
  obtain ⟨hle, halign, hmax⟩ := hk
  refine ⟨by simp only [length_append]; omega, fun hne => ?_, fun i hi hi' => ?_⟩
  · rw [take_append_of_le_length hle]
    exact halign hne
  rcases lt_or_ge fs.length i with hlt | hge
  · rw [take_of_length_le (by simp only [length_append, length_singleton]; omega), h] at hi'
    cases hi'
  · rw [take_append_of_le_length hge] at hi'
    exact hmax i hge hi'

theorem walked_nil : Walked offset alignBits logId [] (.start false) where
  pos_eq := rfl
  realEndId_eq := rfl
  realStartId_eq _ := rfl
  isFileEnd_iff := by simp [start]
  aligned := by
    refine ⟨0, ⟨le_refl 0, absurd rfl, fun i hi _ => hi⟩, absurd rfl, ?_⟩
    unfold align
    split
    all_goals rfl

theorem Walked.concat {st : TrimState} (h : Walked offset alignBits logId fs st)
    (hseq : f.entry.seq.toInt = logId + fs.length) (hplain : ∀ g ∈ fs, ¬ g.IsSwitch) :
    Walked offset alignBits logId (fs ++ [f])
      ((st.align offset alignBits).overEntry f.entry (st.pos + f.bytes.length)) := by
  have hpos : st.pos + f.bytes.length = (frameBytes (fs ++ [f])).length := by
    rw [h.pos_eq, frameBytes, frameBytes, flatMap_append, length_append, flatMap_singleton]
  have hend : f.entry.seq.toInt + 1 = endIdOf logId (fs ++ [f]).length := by
    rw [hseq, endIdOf, length_append, length_singleton, if_neg (succ_ne_zero _)]
    omega
  have hopen : st.isFileEnd = false := by
    rw [← Bool.not_eq_true, h.isFileEnd_iff]
    rintro ⟨g, hg, hswitch⟩
    exact hplain g (mem_of_getLast? hg) hswitch
  refine ⟨hpos, hend, fun hlogId => ?_, ?_, ?_⟩
  · rw [overEntry, align_realStartId, h.realStartId_eq hlogId, length_append,
      length_singleton, if_neg (succ_ne_zero _), hseq]
    by_cases hnil : fs.length = 0
    · rw [if_pos hnil, if_pos (Int.le_refl 0), hnil]
      simp
    · rw [if_neg hnil, if_neg (by omega)]
  · rw [overEntry, align_isFileEnd, hopen, Bool.or_false, decide_eq_true_iff]
    simp [LogFrame.IsSwitch]
  obtain ⟨k, hk, hendPos, hendId⟩ := h.aligned
  generalize hst : (st.align offset alignBits).overEntry f.entry (st.pos + f.bytes.length) = st'
  have hpos' : st'.pos = (frameBytes (fs ++ [f])).length := by
    rwa [← hst]
  rw [align, hpos']
  by_cases halign : isAlign (offset + (frameBytes (fs ++ [f])).length) alignBits = true
  · rw [if_pos halign]
    refine ⟨_, lastAligned_concat_of_aligned halign, fun _ => ?_, ?_⟩
    · rw [take_length]
    · rwa [← hst]
  rw [if_neg halign]
  refine ⟨k, hk.concat (Bool.eq_false_iff.2 halign), fun hne => ?_, ?_⟩
  · rw [← hst, take_append_of_le_length hk.1]
    exact hendPos hne
  · rwa [← hst]

theorem not_isSwitch_of_mem_take (hstream : LogStream crc64 logId fs) {j : Nat} (hj : j < fs.length)
    (hf : f ∈ fs.take j) : ¬ f.IsSwitch := by
  refine hstream.switchLast f ?_
  rw [dropLast_eq_take]
  exact (take_sublist_take_left (by omega)).subset hf

theorem walked_of_stream (hstream : LogStream crc64 logId fs) {j : Nat} (hj : j ≤ fs.length) :
    Walked offset alignBits logId (fs.take j)
      ((start false).walk offset alignBits (fs.take j)) := by
  induction j with
  | zero => exact walked_nil
  | succ j ih =>
    have hlt : j < fs.length := hj
    have hseq : (fs[j]).entry.seq.toInt = logId + (fs.take j).length := by
      have hcons := hstream.consecutive
      rw [← take_append_drop j fs, consecutive_append, drop_eq_getElem_cons hlt] at hcons
      exact hcons.2.1
    have hplain : ∀ g ∈ fs.take j, ¬ g.IsSwitch := fun g hg =>
      not_isSwitch_of_mem_take hstream hlt hg
    rw [take_succ_eq_append_getElem hlt, walk, foldl_append]
    exact (ih (le_of_lt hlt)).concat hseq hplain

/-- `trim_log_buffer` keeps the first `k` of the entries `fs`, which begin with the log id `logId`,
of a buffer of `len` bytes: they end at an aligned place, as far to the end as there is one. Where
there is none, not even in front of them, it keeps nothing. -/
structure Trimmed (offset alignBits : Nat) (logId : Int) (fs : List LogFrame) (len : Nat)
    (startId : Int) (r : TrimResult) (k : Nat) : Prop where
  le_length : k ≤ fs.length
  endPos_eq : r.endPos = (frameBytes (fs.take k)).length
  endPos_le : r.endPos ≤ len
  aligned : isAlign offset alignBits = true ∨ k ≠ 0 →
    isAlign (offset + r.endPos) alignBits = true
  longest : ∀ i ≤ fs.length, (frameBytes (fs.take i)).length ≤ len →
    isAlign (offset + (frameBytes (fs.take i)).length) alignBits = true →
    (frameBytes (fs.take i)).length ≤ r.endPos
  endId_eq : r.endId = if k = 0 then startId else logId + k
  startId_eq : 0 < logId → r.startId = if k = 0 then startId else logId
  isFileEnd_iff : r.isFileEnd = true ↔ ∃ f, (fs.take k).getLast? = some f ∧ f.IsSwitch

theorem length_frameBytes_take_le {i k : Nat} (h : i ≤ k) :
    (frameBytes (fs.take i)).length ≤ (frameBytes (fs.take k)).length := by
  obtain ⟨gs, hgs⟩ : fs.take i <+: fs.take k := take_prefix_take_left h
  rw [← hgs, frameBytes_append, length_append]
  omega

theorem length_frameBytes_take_lt {i k : Nat} (h : i < k) (hk : k ≤ fs.length) :
    (frameBytes (fs.take i)).length < (frameBytes (fs.take k)).length := by
  have hle : (frameBytes (fs.take (i + 1))).length ≤ _ := length_frameBytes_take_le h
  refine lt_of_lt_of_le ?_ hle
  rw [take_succ_eq_append_getElem (lt_of_lt_of_le h hk), frameBytes, frameBytes, flatMap_append,
    length_append, flatMap_singleton, LogFrame.length_bytes]
  have hheader : headerSize = 44 := rfl
  omega

/-- The loop has walked over `j` entries, of which the first `k` are kept. -/
theorem trimmed_result (hstream : LogStream crc64 logId fs) {j len : Nat} (hj : j ≤ fs.length)
    (hle : (frameBytes (fs.take j)).length ≤ len)
    (hmax : ∀ i ≤ fs.length, (frameBytes (fs.take i)).length ≤ len → i ≤ j) (startId endId : Int) :
    ∃ k, Trimmed offset alignBits logId fs len startId
      ((((start false).walk offset alignBits (fs.take j)).align offset alignBits).result
        offset startId endId .success) k := by
  have hwalked : Walked offset alignBits logId _ _ := walked_of_stream hstream hj
  obtain ⟨k, ⟨hk, haligned, hlast⟩, hendPos, hendId⟩ := hwalked.aligned
  rw [length_take_of_le hj] at hk hlast
  have htake : ∀ i ≤ j, (fs.take j).take i = fs.take i := fun i hi => by
    rw [take_take, min_eq_left hi]
  rw [htake k hk] at haligned hendPos
  have hlogId := hstream.logId_nonneg
  have hlongest : ∀ i ≤ fs.length, (frameBytes (fs.take i)).length ≤ len →
      isAlign (offset + (frameBytes (fs.take i)).length) alignBits = true →
      (frameBytes (fs.take i)).length ≤ (frameBytes (fs.take k)).length := by
    intro i hi hi' hi''
    have hij := hmax i hi hi'
    exact length_frameBytes_take_le (hlast i hij (by rwa [htake i hij]))
  have hkle : (frameBytes (fs.take k)).length ≤ len :=
    le_trans (length_frameBytes_take_le hk) hle
  refine ⟨k, ?_⟩
  rw [result, if_neg (by simp), hendId, endIdOf]
  by_cases hzero : k = 0
  · -- no aligned place behind an entry
    subst hzero
    refine ⟨zero_le _, by simp [frameBytes], zero_le _, ?_, ?_, rfl, fun _ => rfl, by simp⟩
    · exact fun h => h.resolve_right (absurd rfl)
    · intro i hi hi' hi''
      simpa [frameBytes] using hlongest i hi hi' hi''
  rw [if_neg hzero, if_pos (by omega), hendPos hzero]
  refine ⟨le_trans hk hj, ?_, ?_, fun _ => ?_, ?_, ?_, fun hpos => ?_, ?_⟩
  · simp
  · simpa using hkle
  · simpa using haligned hzero
  · simpa using hlongest
  · rw [if_neg hzero]
  · rw [if_neg hzero, align_realStartId, hwalked.realStartId_eq hpos,
      length_take_of_le hj, if_neg (by omega)]
  · simp only [align_pos, align_isFileEnd, hwalked.pos_eq]
    rcases lt_or_ge k j with hlt | hge
    · -- the kept entries are followed by another one, so none of them ends the file
      have hshort := length_frameBytes_take_lt hlt hj
      rw [if_neg (by omega)]
      refine iff_of_false (by decide) ?_
      rintro ⟨f, hf, hswitch⟩
      exact not_isSwitch_of_mem_take hstream (lt_of_lt_of_le hlt hj) (mem_of_getLast? hf) hswitch
    · obtain rfl : k = j := le_antisymm hk hge
      rw [if_pos rfl, hwalked.isFileEnd_iff]

/-- `trim_log_buffer` on a stream that was cut anywhere. -/
theorem trimLogBuffer_stream (hstream : LogStream crc64 logId fs) (htail : TailOf fs tail)
    (hbits : alignBits ≤ 12) (len : Nat) (startId endId : Int) :
    ∃ r k, trimLogBuffer crc64 offset alignBits ((frameBytes fs ++ tail).take len) startId endId
        false = some (.success, r) ∧ Trimmed offset alignBits logId fs len startId r k := by
  obtain ⟨j, hj, hloop, hle, hmax⟩ := @trimLoop_stream crc64 offset alignBits logId fs tail
    ((frameBytes fs ++ tail).take len) (.start false) _ len hstream htail (zero_le _) rfl
    (by simp [start]) rfl (lt_succ_self _)
  obtain ⟨k, hk⟩ := trimmed_result hstream hj hle hmax startId endId
  refine ⟨_, k, ?_, hk⟩
  rw [trimLogBuffer, if_neg (by omega)]
  exact congrArg (Option.map _) hloop

/-- `gs` are the entries of `fs` up to the first switch entry, or all of them. -/
def UpToSwitch (gs fs : List LogFrame) : Prop :=
  ∃ hs, fs = gs ++ hs ∧ ((∃ f, gs.getLast? = some f ∧ f.IsSwitch) ∨ hs = [])

/-- Entries up to the first switch entry are a stream. -/
theorem exists_upToSwitch (hlogId : 0 ≤ logId) (hintact : ∀ f ∈ fs, f.Intact crc64)
    (hcons : Consecutive logId fs) :
    ∃ gs, UpToSwitch gs fs ∧ LogStream crc64 logId gs ∧ (fs ≠ [] → gs ≠ []) := by
  induction fs generalizing logId with
  | nil => exact ⟨[], ⟨[], rfl, .inr rfl⟩, ⟨hlogId, by simp, trivial, by simp⟩, id⟩
  | cons f fs ih =>
    have hone : LogStream crc64 logId [f] :=
      ⟨hlogId, by simpa using hintact f mem_cons_self, ⟨hcons.1, trivial⟩, by simp⟩
    by_cases hswitch : f.IsSwitch
    · exact ⟨[f], ⟨fs, rfl, .inl ⟨f, rfl, hswitch⟩⟩, hone, fun _ => by simp⟩
    obtain ⟨gs, ⟨hs, rfl, hend⟩, hstream, -⟩ := @ih (logId + 1) (by omega)
      (forall_mem_cons.1 hintact).2 hcons.2
    refine ⟨f :: gs, ⟨hs, rfl, hend.imp_left ?_⟩, hone.append (by simpa using hswitch) hstream,
      fun _ => by simp⟩
    rintro ⟨g, hg, hlast⟩
    exact ⟨g, by rw [getLast?_cons, hg, Option.getD_some], hlast⟩

/-- `trim_log_buffer` does not look behind the first switch entry. -/
theorem trimLogBuffer_upToSwitch (hstream : LogStream crc64 logId gs) (hup : UpToSwitch gs fs)
    (htail : tail = [] ∨ tail = eofFlagBuf) (hbits : alignBits ≤ 12) (len : Nat)
    (startId endId : Int) :
    ∃ r k, trimLogBuffer crc64 offset alignBits ((frameBytes fs ++ tail).take len) startId endId
        false = some (.success, r) ∧ Trimmed offset alignBits logId gs len startId r k := by
  obtain ⟨hs, rfl, hend⟩ := hup
  rw [frameBytes_append, append_assoc]
  refine trimLogBuffer_stream hstream ?_ hbits len startId endId
  rcases hend with hswitch | rfl
  · exact .inl hswitch
  · exact .inr htail

/-- `trim_log_buffer` on entries with consecutive log ids that were cut anywhere: what is kept
are the first of them. Without alignment, something is kept if the first entry is whole. -/
theorem trimLogBuffer_frames (hlogId : 0 < logId) (hintact : ∀ f ∈ fs, f.Intact crc64)
    (hcons : Consecutive logId fs) (hbits : alignBits ≤ 12) (len : Nat) (startId endId : Int) :
    ∃ r k, trimLogBuffer crc64 offset alignBits ((frameBytes fs).take len) startId endId false =
        some (.success, r) ∧ k ≤ fs.length ∧ r.endPos = (frameBytes (fs.take k)).length ∧
      r.endPos ≤ len ∧ (k ≠ 0 → r.startId = logId ∧ r.endId = logId + k) ∧
      (k = 0 → r.startId = startId) ∧
      (alignBits = 0 → ∀ f, fs.head? = some f → f.bytes.length ≤ len → k ≠ 0) := by
  obtain ⟨gs, hup, hstream, hne⟩ := exists_upToSwitch (Int.le_of_lt hlogId) hintact hcons
  obtain ⟨r, k, htrim, h⟩ : ∃ r k, trimLogBuffer crc64 offset alignBits _ startId endId false =
      some (.success, r) ∧ Trimmed offset alignBits logId gs len startId r k :=
    trimLogBuffer_upToSwitch hstream hup (.inl rfl) hbits len startId endId
  obtain ⟨hs, rfl, -⟩ := hup
  rw [append_nil] at htrim
  have htake : (gs ++ hs).take k = gs.take k := take_append_of_le_length h.le_length
  refine ⟨r, k, htrim, ?_, by rw [htake]; exact h.endPos_eq, h.endPos_le, ?_, ?_, ?_⟩
  · have := h.le_length
    rw [length_append]
    omega
  · intro hk
    exact ⟨by rw [h.startId_eq hlogId, if_neg hk], by rw [h.endId_eq, if_neg hk]⟩
  · intro hk
    rw [h.startId_eq hlogId, if_pos hk]
  rintro rfl f hf hfit hzero
  -- the place behind the first entry is one to end at
  obtain ⟨g, gs', rfl⟩ := exists_cons_of_ne_nil (hne (by rintro hnil; rw [hnil] at hf; cases hf))
  obtain rfl : g = f := Option.some.inj hf
  have hfirst : (frameBytes ((g :: gs').take 1)).length = g.bytes.length := by simp [frameBytes]
  have hlongest := h.longest 1 (by simp) (by rw [hfirst]; exact hfit) (by simp [isAlign, mod_one])
  rw [hfirst, h.endPos_eq, hzero, LogFrame.length_bytes] at hlongest
  have hheader : 0 < headerSize := by decide
  have hnil : (frameBytes ((g :: gs').take 0)).length = 0 := rfl
  omega

end Stream

/-! ### Streams of the log generator -/

/-- The integrity of an entry that announces an empty payload fails, unless the checksum is 0. -/
theorem trimLogBuffer_wrapped {n : Nat} (hn : n = 2 ^ 32) (rest : List UInt8) :
    trimLogBuffer (fun _ _ _ => 1) 0 9 ((LogCursor.nextEntry (fun _ _ _ => 1) ⟨1, 1, 0⟩ 200
        (replicate n 0)).serialize ++ (replicate n 0 ++ rest)) 0 0 false =
      some (.error, ⟨0, 0, 0, false⟩) := by
  have hlen : (replicate n (0 : UInt8)).length = 2 ^ 32 := by rw [length_replicate, hn]
  generalize he : LogCursor.nextEntry (fun _ _ _ => 1) ⟨1, 1, 0⟩ 200 (replicate n 0) = e
  have hzero : e.getLogDataLen = 0 := he ▸ getLogDataLen_nextEntry_wrapped hlen
  have hchecksum : e.header.dataChecksum = 1 := by
    rw [← he]
    exact if_pos (by rw [hlen]; decide)
  have hdata : e.header.dataLength = 12 := by
    rw [← he]
    change BitVec.ofNat 32 (8 + 4 + (replicate n (0 : UInt8)).length) = 12
    rw [hlen]
    decide
  have hcheck : ¬e.checkDataIntegrity (fun _ _ _ => 1) (replicate n 0 ++ rest) = true := by
    simp [checkDataIntegrity, hchecksum, hdata, calcDataChecksum]
  have hheader : headerSize = 44 := rfl
  have hmark : isEof (e.serialize ++ (replicate n 0 ++ rest)) = false := by
    refine isEof_of_head? ?_
    rw [head?_append, ← he, head?_serialize rfl]
    simp
  have hlength : (e.serialize ++ (replicate n 0 ++ rest)).length = 44 + n + rest.length := by
    rw [length_append, length_append, length_replicate, length_serialize, hheader, Nat.add_assoc]
  rw [trimLogBuffer, if_neg (by decide), trimLoop, if_pos (by simp [start])]
  simp only [align_pos, align_isFileEnd, start, drop_zero, hmark, deserialize_serialize_append,
    hzero, hlength]
  rw [if_neg (by decide), if_neg (by decide), if_neg (by omega), if_neg (by omega), if_pos hcheck]
  simp [TrimState.result]

end OceanBase.UpdateServer
