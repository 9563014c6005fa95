import OceanBase.Common.LogEntry

/-!
# The log generator (`ob_log_generator.cpp`)

The generator collects log entries in a buffer until `get_log` hands the buffer out as one batch;
`commit` then empties it. A batch is a multiple of the direct-io alignment long: `get_log` pads it
with a nop entry, and appends an entry that switches to the next file when the current file could
not take another full buffer. Behind the batch it puts the end-of-file mark, which is not counted
in the batch's length but is written to the file with it.

The buffer is modelled by its first `pos_` bytes. Clock readings are inputs, the checksum function
is a parameter.
-/

namespace OceanBase.Common

open Lib

/-! ### The nop payload -/

/-- `encode_vi32`, on the value as an unsigned number; `fuel` bounds the bytes written. -/
def encodeVi32 : Nat → Nat → List UInt8
  | 0, v => [UInt8.ofNat v &&& 0x7f]
  | fuel + 1, v =>
    if v > 0x7f then (UInt8.ofNat v ||| 0x80) :: encodeVi32 fuel (v >>> 7)
    else [UInt8.ofNat v &&& 0x7f]

/-- `ObServer`: the address of this server. -/
inductive Server where
  | ipv4 (port : BitVec 32) (ip : BitVec 32)
  | ipv6 (port : BitVec 32) (ip0 ip1 ip2 ip3 : BitVec 32)
  deriving DecidableEq, Repr

/-- `ObServer::serialize`. -/
def Server.serialize : Server → List UInt8
  | .ipv4 port ip => encodeVi32 4 4 ++ encodeVi32 4 port.toNat ++ encodeVi32 4 ip.toNat
  | .ipv6 port ip0 ip1 ip2 ip3 =>
    encodeVi32 4 6 ++ encodeVi32 4 port.toNat ++ encodeVi32 4 ip0.toNat ++
      encodeVi32 4 ip1.toNat ++ encodeVi32 4 ip2.toNat ++ encodeVi32 4 ip3.toNat

/-- `DebugLog`: what a nop entry says. -/
structure DebugLog where
  server : Server
  ctime : BitVec 64
  lastCtime : BitVec 64
  deriving DecidableEq, Repr

namespace DebugLog

/-- `MAGIC`: the number a nop's payload starts with. -/
def magic : BitVec 64 := 0xde6a9de6a901

/-- `advance`, with the clock's reading. -/
def advance (d : DebugLog) (now : BitVec 64) : DebugLog :=
  { d with lastCtime := d.ctime, ctime := now }

/-- `DebugLog::serialize`. -/
def serialize (d : DebugLog) : List UInt8 :=
  encodeInt 8 magic ++ d.server.serialize ++ encodeInt 8 d.ctime ++ encodeInt 8 d.lastCtime

end DebugLog

/-! ### The generator -/

/-- `LOG_FILE_ALIGN_SIZE`. -/
def logFileAlignSize : Nat := 512

/-- The text `end_of_log_file`. -/
def markStr : List UInt8 := [101, 110, 100, 95, 111, 102, 95, 108, 111, 103, 95, 102, 105, 108, 101]

/-- `eof_flag_buf_`: as many copies of the text as fit in front of a zero. -/
def eofFlagBuf : List UInt8 := (List.replicate 34 markStr).flatten ++ [0, 0]

@[simp]
theorem length_eofFlagBuf : eofFlagBuf.length = logFileAlignSize := by
  decide +kernel

/-- `LOG_BUF_RESERVED_SIZE`: a nop, a switch entry and the end-of-file mark. -/
def logBufReservedSize : Nat := 3 * logFileAlignSize

/-- The bytes missing to the next multiple of the alignment. -/
def getAlignPaddingSize (x : Nat) : Nat :=
  (logFileAlignSize - x % logFileAlignSize) % logFileAlignSize

/-- `calc_nop_log_len`: the payload of a nop that ends at an alignment. -/
def calcNopLogLen (pos minLogSize : Nat) : Nat :=
  getAlignPaddingSize (pos + LogEntry.headerSize + minLogSize) + minLogSize

/-- `ObLogGenerator`, once initialised. -/
structure LogGenerator where
  isFrozen : Bool
  logFileMaxSize : Nat
  startCursor : LogCursor
  endCursor : LogCursor
  logBuf : List UInt8
  logBufLen : Nat
  debugLog : DebugLog
  deriving DecidableEq, Repr

/-- What `get_log` hands out: the cursors, the `len` bytes of the batch, and the bytes that stand
behind them in the same buffer. -/
structure Batch where
  startCursor : LogCursor
  endCursor : LogCursor
  buf : List UInt8
  behind : List UInt8
  deriving DecidableEq, Repr

/-- What `ObLogWriter::async_flush_log` writes to the file of the start cursor: one alignment unit
more than the batch, and nothing for an empty batch. -/
def Batch.written (b : Batch) : List UInt8 :=
  if b.buf = [] then [] else (b.buf ++ b.behind).take (b.buf.length + logFileAlignSize)

variable (crc64 : Crc64)

namespace LogGenerator

/-- `init` and `start_log` on a fresh generator. -/
def init (logBufSize logFileMaxSize : Nat) (server : Server) (start : LogCursor) :
    Except Ret LogGenerator :=
  if logBufSize = 0 ∨ logFileMaxSize < 2 * logFileAlignSize ∨ ¬ start.isValid then
    .error .invalidArgument
  else .ok {
    isFrozen := false
    logFileMaxSize := logFileMaxSize
    startCursor := start
    endCursor := start
    logBuf := []
    logBufLen := logBufSize + logFileAlignSize
    debugLog := ⟨server, 0, 0⟩ }

variable (g : LogGenerator)

/-- `check_log_size`: the payload fits an empty buffer in front of the reserved units. -/
def checkLogSize (size : Nat) : Bool :=
  decide (size > 0) && decide (size + logBufReservedSize + LogEntry.headerSize ≤ g.logBufLen)

section Write

/-- `generate_log` on the buffer of the generator, of which the first `len` bytes may be
used. -/
def generateLog (len : Int) (cmd : BitVec 32) (data : List UInt8) :
    LogGenerator × Ret :=
  if 0 ≥ len ∨ g.logBuf.length > len ∨ data = [] ∨ ¬ g.endCursor.isValid then
    (g, .invalidArgument)
  else if LogEntry.headerSize + data.length > len then (g, .logTooLarge)
  else
    let entry := g.endCursor.nextEntry crc64 cmd data
    if g.logBuf.length + LogEntry.headerSize + data.length > len then (g, .bufNotEnough)
    else
      let g := { g with logBuf := g.logBuf ++ entry.serialize ++ data }
      match g.endCursor.advance entry with
      | .ok c => ({ g with endCursor := c }, .success)
      | .error err => (g, err)

/-- `do_write_log`. -/
def doWriteLog (cmd : BitVec 32) (data : List UInt8) (reservedLen : Nat) :
    LogGenerator × Ret :=
  if data = [] then (g, .invalidArgument)
  else if g.isFrozen then (g, .stateNotMatch)
  else g.generateLog crc64 ((g.logBufLen : Int) - reservedLen) cmd data

/-- `write_log`. -/
def writeLog (cmd : LogCommand) (data : List UInt8) : LogGenerator × Ret :=
  if data = [] then (g, .invalidArgument)
  else if g.isFrozen then (g, .bufNotEnough)
  else g.doWriteLog crc64 cmd.code data logBufReservedSize

/-- The payload of a switch entry: the id of the next file, in a block of one alignment unit. -/
def switchLogPayload (fileId : Int) : List UInt8 :=
  encodeInt 8 (BitVec.ofInt 64 (fileId + 1)) ++
    List.replicate (logFileAlignSize - LogEntry.headerSize - 8) 0

/-- `switch_log()`. -/
def appendSwitchLog : LogGenerator × Ret :=
  g.doWriteLog crc64 LogCommand.switchLog.code (switchLogPayload g.endCursor.fileId) 0

/-- The payload of a nop entry that pads a buffer of `pos` bytes to the alignment. -/
def nopPayload (d : DebugLog) (pos : Nat) : List UInt8 :=
  d.serialize ++
    List.replicate (calcNopLogLen pos d.serialize.length - d.serialize.length) 0

variable (now : BitVec 64)

/-- `write_nop`, with the clock's reading. -/
def writeNop (forceWrite : Bool) : LogGenerator × Ret :=
  if g.logBuf.length % logFileAlignSize = 0 ∧ ¬ forceWrite then (g, .success)
  else
    let g := { g with debugLog := g.debugLog.advance now }
    g.doWriteLog crc64 LogCommand.nop.code (nopPayload g.debugLog g.logBuf.length) 0

/-- `switch_log(new_file_id)`. -/
def switchLog : LogGenerator × Ret :=
  match g.writeNop crc64 now false with
  | (g, .success) =>
    match g.appendSwitchLog crc64 with
    | (g, .success) => ({ g with isFrozen := true }, .success)
    | r => r
  | r => r

/-- `check_log_file_size`: switch to the next file when this one cannot take another buffer. -/
def checkLogFileSize : LogGenerator × Ret :=
  if g.endCursor.offset + g.logBufLen ≤ g.logFileMaxSize then (g, .success)
  else g.appendSwitchLog crc64

/-- `append_eof`: the bytes copied behind the `pos_` bytes of the batch. -/
def appendEof : Except Ret (List UInt8) :=
  if g.logBuf.length + eofFlagBuf.length > g.logBufLen then .error .errUnexpected
  else .ok eofFlagBuf

/-- The part of `get_log` that completes the batch of a generator that is not frozen. -/
def completeBatch : LogGenerator × Ret :=
  if g.isFrozen then (g, .success)
  else
    match g.writeNop crc64 now (decide (g.logBuf.length ≠ 0)) with
    | (g, .success) => g.checkLogFileSize crc64
    | r => r

/-- `get_log`. -/
def getLog : LogGenerator × Except Ret Batch :=
  match g.completeBatch crc64 now with
  | (g, .success) =>
    match g.appendEof with
    | .ok behind =>
      ({ g with isFrozen := true }, .ok ⟨g.startCursor, g.endCursor, g.logBuf, behind⟩)
    | .error err => (g, .error err)
  | (g, err) => (g, .error err)

end Write

/-- `commit`: the buffer is emptied, whether or not it was handed out. -/
def commit (endCursor : LogCursor) : LogGenerator × Ret :=
  if endCursor ≠ g.endCursor then (g, .errUnexpected)
  else ({ g with startCursor := g.endCursor, logBuf := [], isFrozen := false }, .success)

end LogGenerator

/-! ### Runs -/

/-- A generator in use, with the batches handed out so far. -/
structure LogGeneratorState where
  generator : LogGenerator
  batches : List Batch

/-- The calls of a generator's user. -/
inductive LogGeneratorCall where
  | writeLog (cmd : LogCommand) (data : List UInt8)
  | switchLog (now : BitVec 64)
  | getLog (now : BitVec 64)
  | commit (endCursor : LogCursor)

namespace LogGeneratorState

/-- One call. A payload has to pass `check_log_size`. -/
def step (s : LogGeneratorState) : LogGeneratorCall → Option LogGeneratorState
  | .writeLog cmd data =>
    if s.generator.checkLogSize data.length then
      some { s with generator := (s.generator.writeLog crc64 cmd data).1 }
    else none
  | .switchLog now => some { s with generator := (s.generator.switchLog crc64 now).1 }
  | .getLog now =>
    match s.generator.getLog crc64 now with
    | (g, .ok batch) => some ⟨g, s.batches ++ [batch]⟩
    | (g, .error _) => some { s with generator := g }
  | .commit endCursor => some { s with generator := (s.generator.commit endCursor).1 }

end LogGeneratorState

end OceanBase.Common
