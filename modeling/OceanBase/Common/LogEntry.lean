import OceanBase.Common.Define
import OceanBase.Lib.BigEndian

/-!
# Commit log entries and cursors (`ob_log_entry.h`, `ob_record_header.h`, `ob_log_cursor.h`)

An entry of the commit log is a record header, a sequence number, a command and the payload, whose
length stands in a 32-bit field of the header.

A cursor points between two entries: the file, the sequence number of the next entry and the
offset in the file. `advance` moves it over an entry, a `OB_LOG_SWITCH_LOG` entry to the start of
the next file.
-/

namespace OceanBase.Common

open Lib

/-! ### Integers (`serialization.h`) -/

/-- `encode_i16`, `encode_i32` and `encode_i64`, for an integer of `n` bytes. -/
def encodeInt (n : Nat) (x : BitVec (8 * n)) : List UInt8 := BigEndian.encode n x.toNat

/-- `decode_i16`, `decode_i32` and `decode_i64`, for an integer of `n` bytes. -/
def decodeInt (n : Nat) (input : List UInt8) : Option (BitVec (8 * n) × List UInt8) :=
  (BigEndian.read n input).map fun r => (BitVec.ofNat (8 * n) r.1, r.2)

@[simp]
theorem length_encodeInt (n : Nat) (x : BitVec (8 * n)) : (encodeInt n x).length = n :=
  BigEndian.length_encode n _

@[simp]
theorem decodeInt_encodeInt_append (n : Nat) (x : BitVec (8 * n)) (rest : List UInt8) :
    decodeInt n (encodeInt n x ++ rest) = some (x, rest) := by
  simp [decodeInt, encodeInt, BigEndian.read_encode_toNat rfl]

theorem decodeInt_isSome {n : Nat} {input : List UInt8} (h : n ≤ input.length) :
    ∃ r, decodeInt n input = some r := by
  simp [decodeInt, BigEndian.read, h]

/-! ### The record header -/

/-- `ObRecordHeader`. -/
structure RecordHeader where
  magic : BitVec 16
  headerLength : BitVec 16
  version : BitVec 16
  headerChecksum : BitVec 16
  reserved : BitVec 64
  dataLength : BitVec 32
  dataZlength : BitVec 32
  dataChecksum : BitVec 64
  deriving DecidableEq, Repr

namespace RecordHeader

/-- `format_i64`: the four 16-bit pieces of the value enter the checksum. -/
def formatI64 (value : BitVec 64) (checksum : BitVec 16) : BitVec 16 :=
  checksum ^^^ value.extractLsb' 0 16 ^^^ value.extractLsb' 16 16 ^^^ value.extractLsb' 32 16 ^^^
    value.extractLsb' 48 16

/-- `format_i32`: the two 16-bit pieces of the value enter the checksum. -/
def formatI32 (value : BitVec 32) (checksum : BitVec 16) : BitVec 16 :=
  checksum ^^^ value.extractLsb' 0 16 ^^^ value.extractLsb' 16 16

/-- The checksum over all fields that `set_header_checksum` and `check_header_checksum`
compute. -/
def fold (h : RecordHeader) : BitVec 16 :=
  let checksum := formatI64 (h.magic.signExtend 64) 0
  let checksum := checksum ^^^ h.headerLength
  let checksum := checksum ^^^ h.version
  let checksum := checksum ^^^ h.headerChecksum
  let checksum := checksum ^^^ h.reserved.truncate 16
  formatI64 h.dataChecksum (formatI32 h.dataZlength (formatI32 h.dataLength checksum))

def setHeaderChecksum (h : RecordHeader) : RecordHeader :=
  { h with headerChecksum := fold { h with headerChecksum := 0 } }

def checkHeaderChecksum (h : RecordHeader) : Bool := h.fold == 0

/-- `OB_RECORD_HEADER_LENGTH`. -/
def recordHeaderLength : Nat := 32

def serialize (h : RecordHeader) : List UInt8 :=
  encodeInt 2 h.magic ++ (encodeInt 2 h.headerLength ++ (encodeInt 2 h.version ++
    (encodeInt 2 h.headerChecksum ++ (encodeInt 8 h.reserved ++ (encodeInt 4 h.dataLength ++
      (encodeInt 4 h.dataZlength ++ encodeInt 8 h.dataChecksum))))))

def deserialize (input : List UInt8) : Option (RecordHeader × List UInt8) := do
  let (magic, input) ← decodeInt 2 input
  let (headerLength, input) ← decodeInt 2 input
  let (version, input) ← decodeInt 2 input
  let (headerChecksum, input) ← decodeInt 2 input
  let (reserved, input) ← decodeInt 8 input
  let (dataLength, input) ← decodeInt 4 input
  let (dataZlength, input) ← decodeInt 4 input
  let (dataChecksum, input) ← decodeInt 8 input
  return (⟨magic, headerLength, version, headerChecksum, reserved, dataLength, dataZlength,
    dataChecksum⟩, input)

section

variable (h : RecordHeader)
include h

theorem fold_headerChecksum :
    h.fold = fold { h with headerChecksum := 0 } ^^^ h.headerChecksum := by
  simp only [fold, formatI64, formatI32]
  ac_rfl

theorem checkHeaderChecksum_setHeaderChecksum :
    h.setHeaderChecksum.checkHeaderChecksum = true := by
  rw [checkHeaderChecksum, fold_headerChecksum]
  simp [setHeaderChecksum]

@[simp]
theorem length_serialize : h.serialize.length = recordHeaderLength := by
  simp [serialize, recordHeaderLength]

@[simp]
theorem deserialize_serialize_append (rest : List UInt8) :
    deserialize (h.serialize ++ rest) = some (h, rest) := by
  simp [deserialize, serialize]

end

end RecordHeader

/-! ### Log entries -/

/-- A checksum of the sequence number, the command and the payload of an entry. -/
abbrev Crc64 := BitVec 64 → BitVec 32 → List UInt8 → BitVec 64

/-- `LogCommand`: the commands the log itself acts on, those of the update server, and the
others by their code. -/
inductive LogCommand where
  | switchLog
  | checkpoint
  | nop
  | upsMutator
  | upsSwitchSchema
  | other (code : BitVec 32)
  deriving DecidableEq, Repr

/-- The number of a command. -/
def LogCommand.code : LogCommand → BitVec 32
  | .switchLog => 101
  | .checkpoint => 102
  | .nop => 103
  | .upsMutator => 200
  | .upsSwitchSchema => 201
  | .other code => code

/-- `ObLogEntry`: what is written in front of the payload. -/
structure LogEntry where
  header : RecordHeader
  seq : BitVec 64
  cmd : BitVec 32
  deriving DecidableEq, Repr

variable (crc64 : Crc64) {cmd : BitVec 32}
    {data : List UInt8}

namespace LogEntry

/-- `get_header_size`, which is also `get_serialize_size`. -/
def headerSize : Nat := RecordHeader.recordHeaderLength + 8 + 4

/-- `MAGIC_NUMER`. -/
def magicNumber : BitVec 16 := 0xAAAA

def logVersion : BitVec 16 := 1

section Checksum

/-- `calc_data_checksum`, over the sequence number, the command and the payload. -/
def calcDataChecksum (seq : BitVec 64) (cmd : BitVec 32) (data : List UInt8) : BitVec 64 :=
  if 0 < data.length then crc64 seq cmd data else 0

/-- The entry that `ObLogCursor::next_entry` and `fill_header` make for a payload. -/
def fillHeader (seq : BitVec 64) (cmd : BitVec 32) (data : List UInt8) : LogEntry where
  header := RecordHeader.setHeaderChecksum
    { magic := magicNumber
      headerLength := BitVec.ofNat 16 RecordHeader.recordHeaderLength
      version := logVersion
      headerChecksum := 0
      reserved := 0
      dataLength := BitVec.ofNat 32 (8 + 4 + data.length)
      dataZlength := BitVec.ofNat 32 (8 + 4 + data.length)
      dataChecksum := calcDataChecksum crc64 seq cmd data }
  seq := seq
  cmd := cmd

/-- `get_log_data_len`: the length of the payload, as the 32-bit field has it. -/
def getLogDataLen (e : LogEntry) : Int := (e.header.dataLength - 12).toInt

/-- `check_data_integrity`, on the input behind the entry. -/
def checkDataIntegrity (e : LogEntry) (input : List UInt8) : Bool :=
  e.header.checkHeaderChecksum && e.header.magic == magicNumber &&
    calcDataChecksum crc64 e.seq e.cmd (input.take (e.header.dataLength.toInt - 12).toNat) ==
      e.header.dataChecksum

end Checksum

def serialize (e : LogEntry) : List UInt8 :=
  e.header.serialize ++ (encodeInt 8 e.seq ++ encodeInt 4 e.cmd)

def deserialize (input : List UInt8) : Option (LogEntry × List UInt8) := do
  let (header, input) ← RecordHeader.deserialize input
  let (seq, input) ← decodeInt 8 input
  let (cmd, input) ← decodeInt 4 input
  return (⟨header, seq, cmd⟩, input)

@[simp]
theorem length_serialize (e : LogEntry) : e.serialize.length = headerSize := by
  simp [serialize, headerSize]

@[simp]
theorem deserialize_serialize_append (e : LogEntry) (rest : List UInt8) :
    deserialize (e.serialize ++ rest) = some (e, rest) := by
  simp [deserialize, serialize]

variable {crc64} {seq : BitVec 64}

theorem getLogDataLen_fillHeader_eq :
    (fillHeader crc64 seq cmd data).getLogDataLen = (BitVec.ofNat 32 data.length).toInt := by
  have hsub : (fillHeader crc64 seq cmd data).header.dataLength - 12 =
      BitVec.ofNat 32 data.length := by
    simp only [fillHeader]
    rw [show 8 + 4 + data.length = data.length + 12 by omega, BitVec.ofNat_add]
    exact BitVec.add_sub_cancel _ _
  rw [getLogDataLen, hsub]

theorem getLogDataLen_fillHeader (h : data.length < 2 ^ 31) :
    (fillHeader crc64 seq cmd data).getLogDataLen = data.length := by
  rw [getLogDataLen_fillHeader_eq, BitVec.toInt_eq_toNat_of_lt]
  all_goals
    simp only [BitVec.toNat_ofNat]
    omega

theorem checkDataIntegrity_fillHeader (h : data.length < 2 ^ 31 - 12) (rest : List UInt8) :
    checkDataIntegrity crc64 (fillHeader crc64 seq cmd data) (data ++ rest) = true := by
  have hlen : ((fillHeader crc64 seq cmd data).header.dataLength.toInt - 12).toNat =
      data.length := by
    simp only [fillHeader, RecordHeader.setHeaderChecksum]
    rw [BitVec.toInt_eq_toNat_of_lt (by simp only [BitVec.toNat_ofNat]; omega)]
    simp only [BitVec.toNat_ofNat]
    omega
  have hheader : (fillHeader crc64 seq cmd data).header.checkHeaderChecksum = true :=
    RecordHeader.checkHeaderChecksum_setHeaderChecksum _
  rw [checkDataIntegrity, hlen, List.take_left, hheader]
  simp [fillHeader, RecordHeader.setHeaderChecksum]

end LogEntry

/-! ### Cursors -/

/-- `ObLogCursor`: a place between two entries of the log. -/
structure LogCursor where
  fileId : Int
  logId : Int
  offset : Int
  deriving DecidableEq, Repr

namespace LogCursor

variable (c : LogCursor)

def isValid : Bool :=
  decide (c.fileId > 0) && decide (c.logId ≥ 0) && decide (c.offset ≥ 0)

/-- `next_entry`: the entry for a payload written at the cursor. -/
def nextEntry (crc64 : Crc64) (c : LogCursor) (cmd : BitVec 32) (data : List UInt8) : LogEntry :=
  LogEntry.fillHeader crc64 (BitVec.ofInt 64 c.logId) cmd data

/-- `advance`: move over an entry. -/
def advance (e : LogEntry) : Except Ret LogCursor :=
  if c.logId > 0 ∧ e.seq.toInt ≠ c.logId then .error .discontinuousLog
  else if e.cmd = LogCommand.switchLog.code then
    .ok ⟨c.fileId + 1, e.seq.toInt + 1, 0⟩
  else .ok ⟨c.fileId, e.seq.toInt + 1, c.offset + LogEntry.headerSize + e.getLogDataLen⟩

/-- Where a cursor stands behind a payload written at it. -/
def next (cmd : BitVec 32) (data : List UInt8) : LogCursor :=
  if cmd = LogCommand.switchLog.code then ⟨c.fileId + 1, c.logId + 1, 0⟩
  else ⟨c.fileId, c.logId + 1, c.offset + LogEntry.headerSize + data.length⟩

variable {crc64} {c : LogCursor}

theorem isValid_iff : c.isValid = true ↔ 0 < c.fileId ∧ 0 ≤ c.logId ∧ 0 ≤ c.offset := by
  simp [isValid, and_assoc]

theorem seq_nextEntry (hvalid : c.isValid = true) (hid : c.logId < 2 ^ 63) :
    (c.nextEntry crc64 cmd data).seq.toInt = c.logId := by
  obtain ⟨-, hlog, -⟩ := isValid_iff.1 hvalid
  simp only [nextEntry, LogEntry.fillHeader]
  rw [BitVec.toInt_ofInt]
  exact Int.bmod_eq_of_le (by omega) (by omega)

/-- A cursor moves over the entry written at it, as long as the payload's length and the
sequence number fit their fields. -/
theorem advance_nextEntry (hvalid : c.isValid = true) (hid : c.logId < 2 ^ 63)
    (hlen : data.length < 2 ^ 31) :
    c.advance (c.nextEntry crc64 cmd data) = .ok (c.next cmd data) := by
  have hdata : (c.nextEntry crc64 cmd data).getLogDataLen = data.length :=
    LogEntry.getLogDataLen_fillHeader hlen
  have hcmd : (c.nextEntry crc64 cmd data).cmd = cmd := rfl
  rw [advance, seq_nextEntry hvalid hid, if_neg (by simp), hcmd, hdata, next]
  split <;> rfl

theorem isValid_next (hvalid : c.isValid = true) : (c.next cmd data).isValid = true := by
  rw [isValid_iff] at hvalid ⊢
  unfold next
  split
  all_goals
    simp only
    omega

@[simp]
theorem next_logId : (c.next cmd data).logId = c.logId + 1 := by
  unfold next
  split <;> rfl

end LogCursor

end OceanBase.Common
