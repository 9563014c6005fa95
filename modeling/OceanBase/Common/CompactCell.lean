import OceanBase.Lib.Iterate
import OceanBase.Common.ObjectCodec

/-!
# Compact cells (`ob_compact_cell_writer.cpp`, `ob_compact_cell_iterator.cpp`)

The writer appends a cell as a byte with its type and attributes, its value as the machine holds it
and, in a sparse store, its column id. The iterator takes them back, either with `next_cell` and
`get_cell` or with `get_next_cell`.

What is written to a sparse store is read back unless a float, double or decimal carries the add
flag, a decimal has more than three words, or a column id is 65535 (`read_append_iff`).
-/

namespace OceanBase.Common

open Lib Serialization List Except

/-- `ObCompactStoreType`. -/
inductive StoreType where
  | sparse
  | dense
  | denseSparse
  | denseDense
  | invalid
  deriving DecidableEq

/-- `OB_INVALID_ID`. -/
def invalidId : BitVec 64 := BitVec.allOnes 64

/-- `OB_COMPACT_COLUMN_INVALID_ID`. -/
def compactColumnInvalidId : BitVec 32 := 65535

/-- The marks that `append_escape` writes and `parse` knows: `ES_END_ROW` to `ES_VALID`. -/
inductive Escape where
  | endRow
  | delRow
  | nopRow
  | notExistRow
  | newAdd
  | valid
  deriving DecidableEq

namespace ObActionFlag

def opDelRow : BitVec 64 := 8
def opRowDoesNotExist : BitVec 64 := 11
def opNop : BitVec 64 := 15
def opEndRow : BitVec 64 := 17
def opValid : BitVec 64 := 18
def opNewAdd : BitVec 64 := 19

end ObActionFlag

namespace ObObj

/-- `MIN_OBJECT_VALUE` and `MAX_OBJECT_VALUE`. -/
def minObjectValue : BitVec 64 := BitVec.allOnes 64 - 2
def maxObjectValue : BitVec 64 := BitVec.allOnes 64 - 1

def getExt : ObObj → BitVec 64
  | extend v => v
  | _ => 0

/-- The type is `ObExtendType`. -/
def isExtend : ObObj → Bool
  | extend _ => true
  | _ => false

/-- The mark at the end of a row. -/
def isEndRow (value : ObObj) : Bool := value.isExtend && value.getExt == ObActionFlag.opEndRow

end ObObj

/-- The `ES_` code of a mark. -/
def Escape.code : Escape → Nat
  | endRow => 0
  | delRow => 1
  | nopRow => 2
  | notExistRow => 3
  | newAdd => 4
  | valid => 5

/-- The extended object that `parse` makes of a mark. -/
def Escape.action : Escape → BitVec 64
  | endRow => ObActionFlag.opEndRow
  | delRow => ObActionFlag.opDelRow
  | nopRow => ObActionFlag.opNop
  | notExistRow => ObActionFlag.opRowDoesNotExist
  | newAdd => ObActionFlag.opNewAdd
  | valid => ObActionFlag.opValid

namespace CompactCell

/-! ### The writer -/

/-- `ObCellMeta`: five bits of type and three of attributes. -/
def cellMeta (type attr : Nat) : Byte := BitVec.ofNat 8 (type + 32 * attr)

def tpNull : Nat := 0
def tpInt8 : Nat := 1
def tpInt16 : Nat := 2
def tpInt32 : Nat := 3
def tpInt64 : Nat := 4
def tpVarchar : Nat := 6
def tpDecimal : Nat := 7
def tpTime : Nat := 8
def tpPreciseTime : Nat := 9
def tpCreateTime : Nat := 10
def tpModifyTime : Nat := 11
def tpFloat : Nat := 12
def tpDouble : Nat := 13
def tpExtend : Nat := 14
def tpBool : Nat := 15
def tpEscape : Nat := 31

def arNormal : Nat := 0
def arAdd : Nat := 1
def arMin : Nat := 3
def arMax : Nat := 4
def esDelRow : Nat := 1

/-- `ObBufferWriter::write` and `write_varchar`: the bytes of the value in memory. -/
def write (bs : List Byte) (room : Int) : Except Ret (List Byte) :=
  if bs.length ≤ room then .ok bs else .error .bufNotEnough

/-- The cell meta and then the bytes of a value. -/
def writeCell (type attr : Nat) (bs : List Byte) (room : Int) : Except Ret (List Byte) :=
  andThen (write [cellMeta type attr]) (write bs) room

def getIntByte (v : BitVec 64) : Nat :=
  if -128 ≤ v.toInt ∧ v.toInt ≤ 127 then 1
  else if -32768 ≤ v.toInt ∧ v.toInt ≤ 32767 then 2
  else if -2147483648 ≤ v.toInt ∧ v.toInt ≤ 2147483647 then 4
  else 8

/-- The type of an integer cell of so many bytes. -/
def intType (n : Nat) : Nat :=
  if n = 1 then tpInt8 else if n = 2 then tpInt16 else if n = 4 then tpInt32 else tpInt64

def addAttr (isAdd : Bool) : Nat := if isAdd then arAdd else arNormal

/-- `ObDecimalMeta`: seven bits of precision, six of scale and three for the number of words. -/
def decimalMeta (d : ObDecimal) : BitVec 16 :=
  BitVec.ofNat 16 (d.precision.toNat + 128 * d.scale.toNat + 8192 * (d.words.length - 1))

/-- The loop of `write_decimal` over the words. -/
def writeWords : List (BitVec 32) → Int → Except Ret (List Byte)
  | [], _ => .ok []
  | word :: words, room => andThen (write (leBytes 4 word)) (writeWords words) room

def writeDecimal (d : ObDecimal) (room : Int) : Except Ret (List Byte) :=
  andThen (write [d.vscale.setWidth 8])
    (andThen (write (leBytes 2 (decimalMeta d))) (writeWords d.words)) room

def writeVarchar (s : Varchar) (room : Int) : Except Ret (List Byte) :=
  andThen (write (leBytes 4 (BitVec.ofNat 32 s.bytes.length))) (write s.bytes) room

/-- The attribute for an extended value, if the format has one. -/
def extendAttr (v : BitVec 64) : Option Nat :=
  if v = ObObj.minObjectValue then some arMin
  else if v = ObObj.maxObjectValue then some arMax
  else if v = ObActionFlag.opDelRow then some esDelRow
  else none

/-- What `append` writes of the value. The add flag goes with integers and times only. -/
def writeValue : ObObj → Int → Except Ret (List Byte)
  | .null, room => write [cellMeta tpNull arNormal] room
  | .int v isAdd, room =>
    writeCell (intType (getIntByte v)) (addAttr isAdd) (leBytes (getIntByte v) v) room
  | .decimal d _, room => andThen (write [cellMeta tpDecimal arNormal]) (writeDecimal d) room
  | .float v _, room => writeCell tpFloat arNormal (leBytes 4 v) room
  | .double v _, room => writeCell tpDouble arNormal (leBytes 8 v) room
  | .bool v, room => writeCell tpBool arNormal [if v then 1 else 0] room
  | .dateTime v isAdd, room => writeCell tpTime (addAttr isAdd) (leBytes 8 v) room
  | .preciseDateTime v isAdd, room => writeCell tpPreciseTime (addAttr isAdd) (leBytes 8 v) room
  | .varchar s, room => andThen (write [cellMeta tpVarchar arNormal]) (writeVarchar s) room
  | .createTime v, room => writeCell tpCreateTime arNormal (leBytes 8 v) room
  | .modifyTime v, room => writeCell tpModifyTime arNormal (leBytes 8 v) room
  | .extend v, room =>
    match extendAttr v with
    | some attr => write [cellMeta tpExtend attr] room
    | none => .error .error
  | .seq, _ => .error .notSupported

/-- What `append` writes of the column id. -/
def writeColumnId (storeType : StoreType) (columnId : BitVec 64) (room : Int) :
    Except Ret (List Byte) :=
  if columnId = invalidId then
    if storeType = .sparse then .error .errUnexpected else .ok []
  else if 2 ^ 32 - 1 < columnId.toNat then .error .sizeOverflow
  else write (leBytes 4 (columnId.setWidth 32)) room

def append (storeType : StoreType) (columnId : BitVec 64) (value : ObObj) (room : Int) :
    Except Ret (List Byte) :=
  andThen (writeValue value) (writeColumnId storeType columnId) room

def appendEscape (escape : Escape) (room : Int) : Except Ret (List Byte) :=
  write [cellMeta tpEscape escape.code] room

/-! ### The iterator -/

section Reading

variable (mem : Buf) (bufSize : Int)

/-- `ObBufferReader::get` of a number of `n` bytes. -/
def get (w n : Nat) (pos : Int) : Except Ret (BitVec w × Int) :=
  if pos = bufSize then .error .iterEnd
  else if bufSize < pos + n then .error .bufNotEnough
  else .ok (leValue (bytesAt mem pos n), pos + n)

/-- `parse_varchar`; the length is not compared with the buffer. -/
def parseVarchar (pos : Int) : Except Ret (ObObj × Int) := do
  let (len, pos) ← get mem bufSize 32 4 pos
  return (.varchar (ObObj.varcharAt mem pos len), pos + len.toInt)

/-- The loop of `parse_decimal` over the words. -/
def parseWords : Nat → Int → Except Ret (List (BitVec 32) × Int)
  | 0, pos => .ok ([], pos)
  | n + 1, pos => do
    let (word, pos) ← get mem bufSize 32 4 pos
    let (words, pos) ← parseWords n pos
    return (word :: words, pos)

/-- `parse_decimal` and `set_add`. -/
def parseDecimal (isAdd : Bool) (pos : Int) : Except Ret (ObObj × Int) := do
  let (vscale, pos) ← get mem bufSize 8 1 pos
  let (decMeta, pos) ← get mem bufSize 16 2 pos
  let nwords := decMeta.toNat / 8192 % 8 + 1
  if nwords ≤ 3 then do
    let (words, pos) ← parseWords mem bufSize nwords pos
    let value ← ObObj.decimalOf isAdd (BitVec.ofNat 8 (decMeta.toNat % 128))
      (BitVec.ofNat 8 (decMeta.toNat / 128 % 64)) vscale words
    return (value, pos)
  else .error .notImplement

/-- An integer cell of `n` bytes, read with its sign. -/
def parseInt (n : Nat) (isAdd : Bool) (pos : Int) : Except Ret (ObObj × Int) := do
  let (v, pos) ← get mem bufSize (8 * n) n pos
  return (.int (v.signExtend 64) isAdd, pos)

/-- A cell of eight bytes. -/
def parseWord (make : BitVec 64 → ObObj) (pos : Int) : Except Ret (ObObj × Int) := do
  let (v, pos) ← get mem bufSize 64 8 pos
  return (make v, pos)

/-- The value of a cell behind its meta. -/
def parseBody (type attr : Nat) (pos : Int) : Except Ret (ObObj × Int) :=
  let isAdd := attr == arAdd
  match type with
  | 0 => .ok (.null, pos)
  | 1 => parseInt mem bufSize 1 isAdd pos
  | 2 => parseInt mem bufSize 2 isAdd pos
  | 3 => parseInt mem bufSize 4 isAdd pos
  | 4 => parseInt mem bufSize 8 isAdd pos
  | 6 => parseVarchar mem bufSize pos
  | 7 => parseDecimal mem bufSize isAdd pos
  | 8 => parseWord mem bufSize (.dateTime · isAdd) pos
  | 9 => parseWord mem bufSize (.preciseDateTime · isAdd) pos
  | 10 => parseWord mem bufSize .createTime pos
  | 11 => parseWord mem bufSize .modifyTime pos
  | 12 => do
    let (v, pos) ← get mem bufSize 32 4 pos
    return (.float v isAdd, pos)
  | 13 => parseWord mem bufSize (.double · isAdd) pos
  | 14 =>
    match attr with
    | 1 => .ok (.extend ObActionFlag.opDelRow, pos)
    | 3 => .ok (.extend ObObj.minObjectValue, pos)
    | 4 => .ok (.extend ObObj.maxObjectValue, pos)
    | _ => .error .notSupported
  | 15 => do
    let (v, pos) ← get mem bufSize 8 1 pos
    return (.bool (v != 0), pos)
  | 31 =>
    match attr with
    | 0 => .ok (.extend ObActionFlag.opEndRow, pos)
    | 1 => .ok (.extend ObActionFlag.opDelRow, pos)
    | 2 => .ok (.extend ObActionFlag.opNop, pos)
    | 3 => .ok (.extend ObActionFlag.opRowDoesNotExist, pos)
    | 4 => .ok (.extend ObActionFlag.opNewAdd, pos)
    | 5 => .ok (.extend ObActionFlag.opValid, pos)
    | _ => .error .notSupported
  | _ => .error .notSupported

/-- The column id that stands behind a cell that is not a mark. -/
def parseColumnId (type : Nat) (pos : Int) : Except Ret (BitVec 64 × Int) :=
  if type = tpEscape then .ok (invalidId, pos)
  else do
    let (id, pos) ← get mem bufSize 32 4 pos
    return (if id = compactColumnInvalidId then invalidId else id.setWidth 64, pos)

/-- `parse` without a column id. -/
def parse (pos : Int) : Except Ret (ObObj × Int) := do
  let (cellMeta, pos) ← get mem bufSize 8 1 pos
  parseBody mem bufSize (cellMeta.toNat % 32) (cellMeta.toNat / 32) pos

/-- `parse` with a column id. -/
def parseWithId (pos : Int) : Except Ret ((ObObj × BitVec 64) × Int) := do
  let (cellMeta, pos) ← get mem bufSize 8 1 pos
  let (value, pos) ← parseBody mem bufSize (cellMeta.toNat % 32) (cellMeta.toNat / 32) pos
  let (id, pos) ← parseColumnId mem bufSize (cellMeta.toNat % 32) pos
  return ((value, id), pos)

end Reading

/-- `step_`: before or behind the end mark of the row key. -/
inductive RowStep where
  | rowkey
  | value
  deriving DecidableEq

/-- `ObCompactCellIterator`, which reads a fixed buffer. -/
structure CellIterator where
  pos : Int
  columnId : BitVec 64
  value : ObObj
  step : RowStep
  isRowFinished : Bool

/-- The iterator after its constructor and `init`. -/
def CellIterator.init : CellIterator := ⟨0, invalidId, .null, .rowkey, true⟩

/-- A cell as it is handed out: column id, value and whether the row is finished. -/
abbrev Delivered := BitVec 64 × ObObj × Bool

section Iterating

variable (mem : Buf) (bufSize : Int) (storeType : StoreType)

variable (it : CellIterator)

def nextCell : Except Ret CellIterator :=
  match storeType with
  | .sparse => do
    let ((value, columnId), pos) ← parseWithId mem bufSize it.pos
    return ⟨pos, columnId, value, it.step, value.isEndRow⟩
  | .dense => do
    let (value, pos) ← parse mem bufSize it.pos
    return ⟨pos, invalidId, value, it.step, value.isEndRow⟩
  | .denseSparse | .denseDense =>
    match it.step with
    | .rowkey => do
      let (value, pos) ← parse mem bufSize it.pos
      return ⟨pos, invalidId, value, if value.isEndRow then .value else .rowkey, value.isEndRow⟩
    | .value =>
      if storeType = .denseSparse then do
        let ((value, columnId), pos) ← parseWithId mem bufSize it.pos
        return ⟨pos, columnId, value, if value.isEndRow then .rowkey else .value, value.isEndRow⟩
      else do
        let (value, pos) ← parse mem bufSize it.pos
        return ⟨pos, invalidId, value, if value.isEndRow then .rowkey else .value, value.isEndRow⟩
  | .invalid => .error .error

def getCell : Delivered := (it.columnId, it.value, it.isRowFinished)

/-- `next_cell` and then `get_cell`. -/
def nextAndGet : Except Ret (Delivered × CellIterator) := do
  let it ← nextCell mem bufSize storeType it
  return (getCell it, it)

/-- The variables that the caller of `get_next_cell` passes, as they are from call to call. -/
structure Caller where
  columnId : BitVec 64
  value : ObObj

/-- `get_next_cell`. The member `value_`, which it looks at to find the end of a row, it does not
set; and the column id it sets only where the format has one. -/
def getNextCell (s : CellIterator × Caller) : Except Ret (CellIterator × Caller) :=
  let (it, caller) := s
  match storeType with
  | .sparse | .dense => .ok ({ it with isRowFinished := caller.value.isEndRow }, caller)
  | .denseSparse | .denseDense =>
    match it.step with
    | .rowkey => do
      let (value, pos) ← parse mem bufSize it.pos
      return ({ it with
        pos, step := if value.isEndRow then .value else .rowkey, isRowFinished := value.isEndRow },
        { caller with value })
    | .value =>
      if storeType = .denseSparse then do
        let ((value, columnId), pos) ← parseWithId mem bufSize it.pos
        let atEnd := value.isExtend && it.value.getExt == ObActionFlag.opEndRow
        return ({ it with
          pos, step := if atEnd then .rowkey else .value, isRowFinished := value.isEndRow },
          { columnId, value })
      else do
        let (value, pos) ← parse mem bufSize it.pos
        return ({ it with
          pos, step := if it.value.isEndRow then .rowkey else .value,
          isRowFinished := value.isEndRow }, { caller with value })
  | .invalid => .error .error

/-- `get_next_cell`, and what the caller then has in its variables. -/
def getNextAndLook (s : CellIterator × Caller) :
    Except Ret (Delivered × CellIterator × Caller) := do
  let (it, caller) ← getNextCell mem bufSize storeType s
  return ((caller.columnId, caller.value, it.isRowFinished), it, caller)

end Iterating

/-! ### What the writer writes -/

/-- The format has a form for the value. -/
def storable : ObObj → Bool
  | .seq => false
  | .extend v => (extendAttr v).isSome
  | _ => true

/-- The type in the meta of a value. -/
def valueType : ObObj → Nat
  | .null => tpNull
  | .int v _ => intType (getIntByte v)
  | .decimal _ _ => tpDecimal
  | .float _ _ => tpFloat
  | .double _ _ => tpDouble
  | .bool _ => tpBool
  | .dateTime _ _ => tpTime
  | .preciseDateTime _ _ => tpPreciseTime
  | .varchar _ => tpVarchar
  | .createTime _ => tpCreateTime
  | .modifyTime _ => tpModifyTime
  | .extend _ => tpExtend
  | .seq => tpNull

/-- The attribute in the meta of a value. -/
def valueAttr : ObObj → Nat
  | .int _ isAdd => addAttr isAdd
  | .dateTime _ isAdd => addAttr isAdd
  | .preciseDateTime _ isAdd => addAttr isAdd
  | .extend v => (extendAttr v).getD arNormal
  | _ => arNormal

/-- The bytes of a value behind its meta. -/
def valueBody : ObObj → List Byte
  | .int v _ => leBytes (getIntByte v) v
  | .decimal d _ =>
    d.vscale.setWidth 8 :: (leBytes 2 (decimalMeta d) ++ d.words.flatMap (leBytes 4))
  | .float v _ => leBytes 4 v
  | .double v _ => leBytes 8 v
  | .bool v => [if v then 1 else 0]
  | .dateTime v _ => leBytes 8 v
  | .preciseDateTime v _ => leBytes 8 v
  | .varchar s => leBytes 4 (BitVec.ofNat 32 s.bytes.length) ++ s.bytes
  | .createTime v => leBytes 8 v
  | .modifyTime v => leBytes 8 v
  | _ => []

/-- The bytes of a cell. -/
def valueBytes (v : ObObj) : List Byte := cellMeta (valueType v) (valueAttr v) :: valueBody v

variable {bs : List Byte}

theorem encodes_write (hne : bs ≠ []) : Encodes (write bs) bs := by
  intro room
  rw [Fits, or_iff_left hne]
  constructor
  · intro hroom
    exact if_pos hroom
  · intro hroom
    exact ⟨.bufNotEnough, if_neg hroom⟩

theorem encodes_andThen_write {e : Int → Except Ret (List Byte)} (he : Encodes e bs) (hne : bs ≠ [])
    (cs : List Byte) : Encodes (andThen e (write cs)) (bs ++ cs) := by
  by_cases hcs : cs = []
  · subst hcs
    intro room
    rw [append_nil]
    constructor
    · intro hfits
      have hroom := hfits.resolve_right hne
      rw [andThen, (he room).1 hfits, Except.bind, write, if_pos (by simpa using hroom)]
      simp [Except.map]
    · intro hfits
      obtain ⟨err, herr⟩ := (he room).2 hfits
      exact ⟨err, by rw [andThen, herr]; rfl⟩
  · exact he.andThen (encodes_write hcs)

theorem encodes_writeCell (type attr : Nat) (bs : List Byte) :
    Encodes (writeCell type attr bs) (cellMeta type attr :: bs) :=
  encodes_andThen_write (encodes_write (cons_ne_nil _ _)) (cons_ne_nil _ _) bs

theorem leBytes_ne_nil {w n : Nat} (v : BitVec w) (hn : n ≠ 0) : leBytes n v ≠ [] := by
  rw [← length_pos_iff, length_leBytes]
  omega

theorem encodes_writeWords (words : List (BitVec 32)) :
    Encodes (writeWords words) (words.flatMap (leBytes 4)) := by
  induction words with
  | nil => exact encodes_nil fun _ => rfl
  | cons word words ih =>
    exact (encodes_write (leBytes_ne_nil word (by decide))).andThen ih

theorem encodes_writeValue {v : ObObj} (h : storable v = true) :
    Encodes (writeValue v) (valueBytes v) := by
  cases v with
  | null => exact encodes_write (cons_ne_nil _ _)
  | int v isAdd | float v isAdd | double v isAdd | dateTime v isAdd | preciseDateTime v isAdd
  | createTime v | modifyTime v | bool v => exact encodes_writeCell _ _ _
  | varchar s =>
    exact (encodes_write (cons_ne_nil _ _)).andThen
      (encodes_andThen_write (encodes_write (leBytes_ne_nil _ (by decide)))
        (leBytes_ne_nil _ (by decide)) s.bytes)
  | seq => exact absurd h (by decide)
  | extend v =>
    obtain ⟨attr, hattr⟩ := Option.isSome_iff_exists.1 h
    have hbytes : valueBytes (.extend v) = [cellMeta tpExtend attr] := by
      simp [valueBytes, valueType, valueAttr, valueBody, hattr]
    intro room
    rw [hbytes]
    simp only [writeValue, hattr]
    exact encodes_write (cons_ne_nil _ _) room
  | decimal d isAdd =>
    exact (encodes_write (cons_ne_nil _ _)).andThen
      ((encodes_write (cons_ne_nil _ _)).andThen
        ((encodes_write (leBytes_ne_nil _ (by decide))).andThen (encodes_writeWords d.words)))

theorem writeValue_of_not_storable {v : ObObj} (h : storable v = false) (room : Int) :
    ∃ err, writeValue v room = .error err := by
  cases v with
  | seq => exact ⟨.notSupported, rfl⟩
  | extend v =>
    have hattr : extendAttr v = none := by simpa [storable] using h
    exact ⟨.error, by simp [writeValue, hattr]⟩
  | _ => exact absurd h (by simp [storable])

/-! ### What the iterator reads -/

/-- The value as it is read back: floats, doubles and decimals have lost the add flag. -/
def readValue : ObObj → ObObj
  | .float v _ => .float v false
  | .double v _ => .double v false
  | .decimal d _ => .decimal d false
  | v => v

/-- A decimal that `parse` refuses. -/
def isLongDecimal : ObObj → Bool
  | .decimal d _ => 3 < d.words.length
  | _ => false

section Parsing

variable {mem : Buf} {bufSize pos : Int}

theorem get_holds (w : Nat) {bs : List Byte} (h : Holds mem pos bs) (hne : bs ≠ [])
    (hroom : pos + bs.length ≤ bufSize) :
    get mem bufSize w bs.length pos = .ok (leValue bs, pos + bs.length) := by
  have hpos := length_pos_iff.2 hne
  rw [get, if_neg (by omega), if_neg (by omega), bytesAt_of_holds h]

theorem get_byte {b : Byte} (h : mem pos = b) (hroom : pos + 1 ≤ bufSize) :
    get mem bufSize 8 1 pos = .ok (b, pos + 1) := by
  have hone : Holds mem pos [b] := ⟨h, trivial⟩
  have hget := get_holds 8 hone (cons_ne_nil _ _) (show pos + (1 : Nat) ≤ bufSize by omega)
  rw [length_singleton] at hget
  rw [hget]
  simp [leValue]

theorem get_leBytes {w w' n : Nat} {v : BitVec w'} (h : Holds mem pos (leBytes n v)) (hn : n ≠ 0)
    (hroom : pos + n ≤ bufSize) :
    get mem bufSize w n pos = .ok (leValue (leBytes n v), pos + n) := by
  have hroom' : pos + (leBytes n v).length ≤ bufSize := by rwa [length_leBytes]
  have hget := get_holds w h (leBytes_ne_nil v hn) hroom'
  rwa [length_leBytes] at hget

variable {v : BitVec 64} {escape : Escape} {attr type : Nat}

open BitVec

theorem signExtend_setWidth {m n : Nat} (hm : m = n + 1) (hn : n < 64)
    (hlow : -(2 ^ n : Int) ≤ v.toInt) (hhigh : v.toInt < 2 ^ n) :
    (v.setWidth m).signExtend 64 = v := by
  subst hm
  have hpow : ((2 ^ (n + 1) : Nat) : Int) = 2 * 2 ^ n := by
    push_cast
    omega
  have hbmod : v.toInt.bmod (2 ^ (n + 1)) = v.toInt := by
    apply Int.bmod_eq_of_le
    all_goals omega
  have hnat : (v.toNat : Int).bmod (2 ^ (n + 1)) = v.toInt.bmod (2 ^ (n + 1)) := by
    rw [toInt_eq_toNat_bmod v, Int.bmod_bmod_of_dvd (Nat.pow_dvd_pow 2 (by omega))]
  apply eq_of_toInt_eq
  rw [toInt_signExtend_of_le (by omega), toInt_setWidth, hnat, hbmod]

theorem getIntByte_spec (v : BitVec 64) : getIntByte v ≠ 0 ∧ ∃ n, 8 * getIntByte v = n + 1 ∧
    n < 64 ∧ -(2 ^ n : Int) ≤ v.toInt ∧ v.toInt < 2 ^ n := by
  have hlow := le_toInt v
  have hhigh := toInt_lt (x := v)
  rw [getIntByte]
  split_ifs
  · exact ⟨by decide, 7, rfl, by decide, by omega, by omega⟩
  · exact ⟨by decide, 15, rfl, by decide, by omega, by omega⟩
  · exact ⟨by decide, 31, rfl, by decide, by omega, by omega⟩
  · exact ⟨by decide, 63, rfl, by decide, hlow, hhigh⟩

theorem parseInt_holds {isAdd : Bool} (h : Holds mem pos (leBytes (getIntByte v) v))
    (hroom : pos + getIntByte v ≤ bufSize) :
    parseInt mem bufSize (getIntByte v) isAdd pos = .ok (.int v isAdd, pos + getIntByte v) := by
  obtain ⟨hne, n, hm, hn, hlow, hhigh⟩ := getIntByte_spec v
  rw [parseInt, get_leBytes h hne hroom, except_ok_bind, leValue_leBytes_setWidth]
  simp only [signExtend_setWidth hm hn hlow hhigh]
  rfl

theorem parseBody_int (v : BitVec 64) (isAdd : Bool) :
    parseBody mem bufSize (intType (getIntByte v)) (addAttr isAdd) pos =
      parseInt mem bufSize (getIntByte v) isAdd pos := by
  have hclass : getIntByte v = 1 ∨ getIntByte v = 2 ∨ getIntByte v = 4 ∨ getIntByte v = 8 := by
    rw [getIntByte]
    split_ifs <;> simp
  obtain h | h | h | h := hclass
  all_goals
    rw [h]
    cases isAdd with
    | false | true => rfl

theorem parseWords_holds {words : List (BitVec 32)} (h : Holds mem pos (words.flatMap (leBytes 4)))
    (hroom : pos + 4 * words.length ≤ bufSize) :
    parseWords mem bufSize words.length pos = .ok (words, pos + 4 * words.length) := by
  induction words generalizing pos with
  | nil => simp [parseWords]
  | cons word words ih =>
    rw [flatMap_cons, holds_append, length_leBytes] at h
    rw [length_cons] at hroom ⊢
    rw [parseWords, get_leBytes h.1 (by decide) (by omega), leValue_leBytes word.isLt]
    simp only [except_ok_bind]
    have hpos : pos + ((4 : Nat) : Int) + 4 * words.length = pos + 4 * (words.length + 1) := by
      omega
    rw [ih h.2 (by omega), hpos]
    rfl

theorem toNat_decimalMeta (d : ObDecimal) : (decimalMeta d).toNat =
    d.precision.toNat + 128 * d.scale.toNat + 8192 * (d.words.length - 1) := by
  have hw := d.words_le
  rw [decimalMeta, toNat_ofNat]
  omega

theorem length_flatMap_leBytes (words : List (BitVec 32)) :
    (words.flatMap (leBytes 4)).length = 4 * words.length := by
  induction words with
  | nil => rfl
  | cons word words ih =>
    rw [flatMap_cons, length_append, ih, length_leBytes, length_cons]
    omega

theorem parseDecimal_holds (d : ObDecimal) (isAdd : Bool)
    (h : Holds mem pos (valueBody (.decimal d isAdd)))
    (hroom : pos + (valueBody (.decimal d isAdd)).length ≤ bufSize) :
    parseDecimal mem bufSize false pos =
      if d.words.length ≤ 3 then
        .ok (.decimal d false, pos + (valueBody (.decimal d isAdd)).length)
      else .error .notImplement := by
  have hp := d.precision.isLt
  have hs := d.scale.isLt
  have hw := d.words_le
  have hpos := d.words_pos
  have hlen : ((valueBody (.decimal d isAdd)).length : Int) = 1 + 2 + 4 * d.words.length := by
    rw [valueBody, length_cons, length_append, length_leBytes, length_flatMap_leBytes]
    omega
  rw [valueBody, Holds, holds_append, length_leBytes] at h
  obtain ⟨hvscale, hmeta, hwords⟩ := h
  have hnwords : (decimalMeta d).toNat / 8192 % 8 + 1 = d.words.length := by
    rw [toNat_decimalMeta]
    omega
  rw [parseDecimal, get_byte hvscale (by omega)]
  simp only [except_ok_bind]
  rw [get_leBytes hmeta (by decide) (by omega), leValue_leBytes (decimalMeta d).isLt]
  simp only [except_ok_bind, hnwords]
  split_ifs with hle
  · have hprecision : (BitVec.ofNat 8 ((decimalMeta d).toNat % 128)).setWidth 7 = d.precision := by
      apply BitVec.eq_of_toNat_eq
      rw [toNat_decimalMeta, BitVec.toNat_setWidth, BitVec.toNat_ofNat]
      omega
    have hscale : (BitVec.ofNat 8 ((decimalMeta d).toNat / 128 % 64)).setWidth 6 = d.scale := by
      apply BitVec.eq_of_toNat_eq
      rw [toNat_decimalMeta, BitVec.toNat_setWidth, BitVec.toNat_ofNat]
      omega
    have hvscale' : (d.vscale.setWidth 8).setWidth 6 = d.vscale := by
      rw [BitVec.setWidth_setWidth_of_le _ (by decide), BitVec.setWidth_eq]
    rw [parseWords_holds hwords (by omega)]
    simp only [except_ok_bind]
    rw [ObObj.decimalOf, dif_pos ⟨hpos, hle⟩, except_ok_bind]
    simp only [hprecision, hscale, hvscale']
    refine congrArg ok (Prod.ext rfl ?_)
    omega
  · rfl

theorem parseWord_holds (make : BitVec 64 → ObObj) (h : Holds mem pos (leBytes 8 v))
    (hroom : pos + (leBytes 8 v).length ≤ bufSize) :
    parseWord mem bufSize make pos = .ok (make v, pos + (leBytes 8 v).length) := by
  rw [parseWord, get_leBytes h (by decide) hroom, leValue_leBytes v.isLt]
  rfl

theorem parseVarchar_holds {s : Varchar} (h : Holds mem pos (valueBody (.varchar s)))
    (hroom : pos + (valueBody (.varchar s)).length ≤ bufSize) :
    parseVarchar mem bufSize pos = .ok (.varchar s, pos + (valueBody (.varchar s)).length) := by
  rw [valueBody, holds_append, length_leBytes] at h
  rw [valueBody, length_append, length_leBytes] at hroom ⊢
  rw [parseVarchar, get_leBytes h.1 (by decide) (by omega), leValue_leBytes (BitVec.isLt _),
    except_ok_bind]
  simp only [ObObj.varcharAt_holds h.2, ObObj.toInt_length]
  refine congrArg ok (Prod.ext rfl ?_)
  omega

theorem parseBody_extend (h : extendAttr v = some attr) :
    parseBody mem bufSize tpExtend attr pos = .ok (.extend v, pos) := by
  rw [extendAttr] at h
  split_ifs at h with hmin hmax hdel
  · obtain rfl := Option.some.inj h
    rw [hmin]
    rfl
  · obtain rfl := Option.some.inj h
    rw [hmax]
    rfl
  obtain rfl := Option.some.inj h
  rw [hdel]
  rfl

theorem parseBody_value {v : ObObj} (hstore : storable v = true) (h : Holds mem pos (valueBody v))
    (hroom : pos + (valueBody v).length ≤ bufSize) :
    parseBody mem bufSize (valueType v) (valueAttr v) pos =
      if isLongDecimal v then .error .notImplement
      else .ok (readValue v, pos + (valueBody v).length) := by
  cases v with
  | null => exact congrArg ok (Prod.ext rfl (Int.add_zero pos).symm)
  | int v isAdd =>
    rw [valueBody, length_leBytes] at hroom
    rw [valueType, valueAttr, parseBody_int, parseInt_holds h hroom, valueBody, length_leBytes]
    rfl
  | float v isAdd =>
    have hget : get mem bufSize 32 4 pos = .ok (v, pos + (4 : Nat)) := by
      rw [get_leBytes h (by decide) hroom, leValue_leBytes v.isLt]
    have hparse : parseBody mem bufSize (valueType (.float v isAdd))
        (valueAttr (.float v isAdd)) pos
        = (get mem bufSize 32 4 pos >>= fun x => .ok (.float x.1 false, x.2)) := rfl
    rw [hparse, hget, valueBody, length_leBytes]
    rfl
  | double v isAdd => exact parseWord_holds (.double · false) h hroom
  | dateTime v isAdd =>
    rcases isAdd with _ | _
    · exact parseWord_holds (.dateTime · false) h hroom
    · exact parseWord_holds (.dateTime · true) h hroom
  | preciseDateTime v isAdd =>
    rcases isAdd with _ | _
    · exact parseWord_holds (.preciseDateTime · false) h hroom
    · exact parseWord_holds (.preciseDateTime · true) h hroom
  | varchar s => exact parseVarchar_holds h hroom
  | seq => exact absurd hstore (by decide)
  | createTime v => exact parseWord_holds .createTime h hroom
  | modifyTime v => exact parseWord_holds .modifyTime h hroom
  | extend v =>
    obtain ⟨attr, hattr⟩ := Option.isSome_iff_exists.1 hstore
    rw [valueType, valueAttr, hattr, Option.getD_some, parseBody_extend hattr]
    exact congrArg ok (Prod.ext rfl (Int.add_zero pos).symm)
  | bool v =>
    have hparse : parseBody mem bufSize (valueType (.bool v)) (valueAttr (.bool v)) pos
        = (get mem bufSize 8 1 pos >>= fun x => .ok (.bool (x.1 != 0), x.2)) := rfl
    rw [hparse, get_byte h.1 hroom]
    cases v <;> rfl
  | decimal d isAdd =>
    have hparse : parseBody mem bufSize (valueType (.decimal d isAdd))
        (valueAttr (.decimal d isAdd))
        pos = parseDecimal mem bufSize false pos := rfl
    rw [hparse, parseDecimal_holds d isAdd h hroom, isLongDecimal, readValue]
    by_cases hle : d.words.length ≤ 3
    · rw [if_pos hle, if_neg (by simpa using hle)]
    · rw [if_neg hle, if_pos (by simpa using hle)]

theorem cellMeta_type (htype : type < 32) (hattr : attr < 8) :
    (cellMeta type attr).toNat % 32 = type ∧ (cellMeta type attr).toNat / 32 = attr := by
  rw [cellMeta, toNat_ofNat]
  omega

theorem valueType_lt (v : ObObj) : valueType v < 31 := by
  cases v with
  | int v isAdd =>
    rw [valueType, intType]
    split_ifs <;> decide
  | _ =>
    rw [valueType]
    decide

theorem addAttr_lt (isAdd : Bool) : addAttr isAdd < 8 := by cases isAdd <;> decide

theorem valueAttr_lt (v : ObObj) : valueAttr v < 8 := by
  cases v with
  | int v isAdd | dateTime v isAdd | preciseDateTime v isAdd => exact addAttr_lt isAdd
  | extend v =>
    rw [valueAttr, extendAttr]
    split_ifs <;> decide
  | _ => simp [valueAttr, arNormal]

theorem parse_value {v : ObObj} (hstore : storable v = true) (h : Holds mem pos (valueBytes v))
    (hroom : pos + (valueBytes v).length ≤ bufSize) :
    parse mem bufSize pos =
      if isLongDecimal v then .error .notImplement
      else .ok (readValue v, pos + (valueBytes v).length) := by
  obtain ⟨hmeta, hbody⟩ := h
  rw [valueBytes, length_cons] at hroom ⊢
  push_cast at hroom ⊢
  obtain ⟨htype, hattr⟩ := cellMeta_type (Nat.lt_succ_of_lt (valueType_lt v)) (valueAttr_lt v)
  rw [parse, get_byte hmeta (by omega)]
  simp only [except_ok_bind, htype, hattr]
  rw [parseBody_value hstore hbody (by omega), Int.add_assoc, Int.add_comm 1]

/-- The column id as it is read back. -/
def readColumnId (id : BitVec 32) : BitVec 64 :=
  if id = compactColumnInvalidId then invalidId else id.setWidth 64

theorem parseWithId_value {v : ObObj} {id : BitVec 32} (hstore : storable v = true)
    (h : Holds mem pos (valueBytes v ++ leBytes 4 id))
    (hroom : pos + (valueBytes v ++ leBytes 4 id).length ≤ bufSize) :
    parseWithId mem bufSize pos =
      if isLongDecimal v then .error .notImplement
      else .ok ((readValue v, readColumnId id), pos + (valueBytes v ++ leBytes 4 id).length) := by
  rw [holds_append] at h
  obtain ⟨⟨hmeta, hbody⟩, hid⟩ := h
  rw [valueBytes, length_cons] at hid
  rw [valueBytes, length_append, length_cons, length_leBytes] at hroom ⊢
  push_cast at hid hroom ⊢
  obtain ⟨htype, hattr⟩ := cellMeta_type (Nat.lt_succ_of_lt (valueType_lt v)) (valueAttr_lt v)
  rw [parseWithId, get_byte hmeta (by omega)]
  simp only [except_ok_bind, htype, hattr]
  rw [parseBody_value hstore hbody (by omega)]
  rcases hlong : isLongDecimal v with _ | _
  · have hpos : pos + ((valueBody v).length + 1) = pos + 1 + (valueBody v).length := by omega
    rw [hpos] at hid
    have hne : valueType v ≠ tpEscape := Nat.ne_of_lt (valueType_lt v)
    simp only [Bool.false_eq_true, if_false, except_ok_bind]
    rw [parseColumnId, if_neg hne, get_leBytes hid (by decide) (by omega), leValue_leBytes id.isLt]
    refine congrArg ok (Prod.ext rfl ?_)
    omega
  · rfl

theorem parse_escape (h : mem pos = cellMeta tpEscape escape.code)
    (hroom : pos + 1 ≤ bufSize) : parse mem bufSize pos = .ok (.extend escape.action, pos + 1) := by
  rw [parse, get_byte h hroom]
  cases escape <;> rfl

theorem parseWithId_escape (h : mem pos = cellMeta tpEscape escape.code)
    (hroom : pos + 1 ≤ bufSize) :
    parseWithId mem bufSize pos = .ok ((.extend escape.action, invalidId), pos + 1) := by
  rw [parseWithId, get_byte h hroom]
  cases escape <;> rfl

theorem parse_end : parse mem bufSize bufSize = .error .iterEnd := by
  rw [parse, get, if_pos rfl]
  rfl

theorem parseWithId_end : parseWithId mem bufSize bufSize = .error .iterEnd := by
  rw [parseWithId, get, if_pos rfl]
  rfl

end Parsing

/-! ### Sparse cells there and back -/

/-- What is appended: a cell under a column id, or a mark. -/
inductive CellItem where
  | cell (columnId : BitVec 64) (value : ObObj)
  | escape (mark : Escape)

namespace CellItem

/-- `append` or `append_escape`. -/
def append (storeType : StoreType) : CellItem → Int → Except Ret (List Byte)
  | cell columnId value, room => CompactCell.append storeType columnId value room
  | escape mark, room => appendEscape mark room

/-- What reading it should hand out. -/
def delivered : CellItem → Delivered
  | cell columnId value => (columnId, value, false)
  | escape mark => (invalidId, .extend mark.action, mark == .endRow)

/-- The writer accepts the item in a sparse store, given room. -/
def accepted : CellItem → Bool
  | cell columnId value => storable value && columnId.toNat ≤ 2 ^ 32 - 1
  | escape _ => true

/-- The value carries an add flag that is not written. -/
def losesAdd : ObObj → Bool
  | .float _ isAdd => isAdd
  | .double _ isAdd => isAdd
  | .decimal _ isAdd => isAdd
  | _ => false

/-- The item survives: no add flag on a float, double or decimal, no decimal of more than three
words, and not the column id that stands for none. -/
def faithful : CellItem → Bool
  | cell columnId value => !losesAdd value && !isLongDecimal value && columnId != 65535
  | escape _ => true

/-- The bytes of an item. -/
def bytes : CellItem → List Byte
  | cell columnId value => valueBytes value ++ leBytes 4 (columnId.setWidth 32)
  | escape mark => [cellMeta tpEscape mark.code]

end CellItem

open CellItem

/-- Items are written one behind the other. -/
def appendItems (storeType : StoreType) : List CellItem → Int → Except Ret (List Byte)
  | [], _ => .ok []
  | item :: items, room => andThen (item.append storeType) (appendItems storeType items) room

variable {item : CellItem}

theorem encodes_item (h : item.accepted = true) :
    Encodes (item.append .sparse) item.bytes := by
  cases item with
  | cell columnId value =>
    rw [accepted, Bool.and_eq_true, decide_eq_true_eq] at h
    have hne : columnId ≠ invalidId := by
      rintro rfl
      exact absurd h.2 (by decide)
    have hid : Encodes (writeColumnId .sparse columnId) (leBytes 4 (columnId.setWidth 32)) := by
      intro room
      rw [writeColumnId, if_neg hne, if_neg (by omega)]
      exact encodes_write (leBytes_ne_nil _ (by decide)) room
    exact (encodes_writeValue h.1).andThen hid
  | escape mark => exact encodes_write (cons_ne_nil _ _)

variable {room : Int} {items : List CellItem}

theorem andThen_eq_ok {e f : Int → Except Ret (List Byte)} (h : andThen e f room = .ok bs) :
    ∃ cs ds, e room = .ok cs ∧ f (room - cs.length) = .ok ds ∧ cs ++ ds = bs := by
  obtain ⟨cs, he, hrest⟩ := except_bind_eq_ok.1 h
  obtain ⟨ds, hf, heq⟩ := except_map_eq_ok.1 hrest
  exact ⟨cs, ds, he, hf, heq⟩

theorem accepted_of_append (h : item.append .sparse room = .ok bs) : item.accepted = true := by
  cases item with
  | escape mark => rfl
  | cell columnId value =>
    obtain ⟨cs, ds, hvalue, hid, -⟩ := andThen_eq_ok h
    rw [accepted, Bool.and_eq_true, decide_eq_true_eq]
    constructor
    · by_contra hstore
      obtain ⟨err, herr⟩ := writeValue_of_not_storable (Bool.eq_false_iff.2 hstore) room
      exact absurd (hvalue.symm.trans herr) (by simp)
    by_contra hlarge
    by_cases hinvalid : columnId = invalidId
    · rw [writeColumnId, if_pos hinvalid, if_pos rfl] at hid
      exact absurd hid (by simp)
    · rw [writeColumnId, if_neg hinvalid, if_pos (Nat.lt_of_not_le hlarge)] at hid
      exact absurd hid (by simp)

theorem appendItems_eq_ok (h : appendItems .sparse items room = .ok bs) :
    (∀ item ∈ items, item.accepted = true) ∧ bs = items.flatMap bytes := by
  induction items generalizing room bs with
  | nil =>
    obtain rfl := ok.inj h
    exact ⟨by simp, rfl⟩
  | cons item items ih =>
    obtain ⟨cs, ds, hitem, hitems, rfl⟩ := andThen_eq_ok h
    obtain ⟨haccepted, rfl⟩ := ih hitems
    have hone := accepted_of_append hitem
    refine ⟨forall_mem_cons.2 ⟨hone, haccepted⟩, ?_⟩
    rw [(encodes_item hone).eq_of_ok hitem, flatMap_cons]

section Sparse

variable {mem : Buf} {bufSize : Int}

variable {it : CellIterator} {v : ObObj}

theorem nextAndGet_sparse_ok {value : ObObj} {columnId : BitVec 64} {pos : Int}
    (h : parseWithId mem bufSize it.pos = .ok ((value, columnId), pos)) :
    nextAndGet mem bufSize .sparse it = .ok ((columnId, value, value.isEndRow),
      ⟨pos, columnId, value, it.step, value.isEndRow⟩) := by
  simp [nextAndGet, nextCell, h, getCell]

theorem nextAndGet_sparse_error {err : Ret} (h : parseWithId mem bufSize it.pos = .error err) :
    nextAndGet mem bufSize .sparse it = .error err := by
  simp [nextAndGet, nextCell, h]

theorem isEndRow_readValue (h : storable v = true) : (readValue v).isEndRow = false := by
  cases v with
  | extend v =>
    refine Bool.eq_false_iff.2 fun hend => ?_
    have hv : v = ObActionFlag.opEndRow := by
      simpa [readValue, ObObj.isEndRow, ObObj.isExtend, ObObj.getExt] using hend
    rw [hv] at h
    exact absurd h (by decide)
  | _ => rfl

theorem readValue_eq_iff : readValue v = v ↔ losesAdd v = false := by
  cases v with
  | float v isAdd | double v isAdd | decimal d isAdd =>
    cases isAdd <;> simp [readValue, losesAdd]
  | _ => exact iff_of_true rfl rfl

theorem readColumnId_eq_iff {id : BitVec 64} (h : id.toNat ≤ 2 ^ 32 - 1) :
    readColumnId (id.setWidth 32) = id ↔ id ≠ 65535 := by
  have hwide : (id.setWidth 32).setWidth 64 = id := by
    apply BitVec.eq_of_toNat_eq
    rw [BitVec.toNat_setWidth, BitVec.toNat_setWidth]
    omega
  rw [readColumnId]
  split_ifs with heq
  · have hid : id = 65535 := by
      rw [← hwide, heq]
      rfl
    refine iff_of_false ?_ (not_not_intro hid)
    rw [hid]
    decide
  · refine iff_of_true hwide fun hid => heq ?_
    rw [hid]
    rfl

theorem nextAndGet_item (haccepted : item.accepted = true)
    (hholds : Holds mem it.pos item.bytes) (hroom : it.pos + item.bytes.length ≤ bufSize) :
    (item.faithful = true ∧ ∃ t, nextAndGet mem bufSize .sparse it = .ok (item.delivered, t) ∧
      t.pos = it.pos + item.bytes.length) ∨
    (item.faithful = false ∧ ∀ t, nextAndGet mem bufSize .sparse it ≠ .ok (item.delivered, t)) := by
  cases item with
  | escape mark =>
    have hnext := nextAndGet_sparse_ok (parseWithId_escape hholds.1 hroom)
    have hend : (ObObj.extend mark.action).isEndRow = (mark == .endRow) := by cases mark <;> rfl
    rw [hend] at hnext
    exact Or.inl ⟨rfl, _, hnext, rfl⟩
  | cell columnId value =>
    rw [accepted, Bool.and_eq_true, decide_eq_true_eq] at haccepted
    obtain ⟨hstore, hid⟩ := haccepted
    have hparse := parseWithId_value hstore hholds hroom
    have hfaithful : (cell columnId value).faithful = true ↔
        readValue value = value ∧ isLongDecimal value = false ∧
          readColumnId (columnId.setWidth 32) = columnId := by
      rw [readValue_eq_iff, readColumnId_eq_iff hid]
      simp [faithful, and_assoc]
    rcases hlong : isLongDecimal value with _ | _
    · rw [hlong, if_neg (by decide)] at hparse
      have hnext := nextAndGet_sparse_ok hparse
      rw [isEndRow_readValue hstore] at hnext
      by_cases h : readValue value = value ∧ readColumnId (columnId.setWidth 32) = columnId
      · rw [h.1, h.2] at hnext
        exact Or.inl ⟨hfaithful.2 ⟨h.1, hlong, h.2⟩, _, hnext, rfl⟩
      refine Or.inr ⟨Bool.eq_false_iff.2 fun h' => h ?_, fun t h' => h ?_⟩
      · exact ⟨(hfaithful.1 h').1, (hfaithful.1 h').2.2⟩
      rw [hnext] at h'
      have hdelivered := (Prod.mk.inj (ok.inj h')).1
      exact ⟨congrArg (fun d => d.2.1) hdelivered, congrArg Prod.fst hdelivered⟩
    · rw [hlong, if_pos rfl] at hparse
      refine Or.inr ⟨Bool.eq_false_iff.2 fun h => ?_, fun t h => ?_⟩
      · exact absurd (hlong.symm.trans (hfaithful.1 h).2.1) (by decide)
      · rw [nextAndGet_sparse_error hparse] at h
        exact absurd h (by simp)

theorem yields_items_iff (haccepted : ∀ item ∈ items, item.accepted = true)
    (hholds : Holds mem it.pos (items.flatMap bytes))
    (hend : it.pos + (items.flatMap bytes).length = bufSize) :
    Yields (nextAndGet mem bufSize .sparse) (items.map delivered) .iterEnd it ↔
      ∀ item ∈ items, item.faithful = true := by
  induction items generalizing it with
  | nil =>
    have hpos : it.pos = bufSize := by simpa using hend
    refine iff_of_true ?_ (by simp)
    refine nextAndGet_sparse_error ?_
    rw [hpos]
    exact parseWithId_end
  | cons item items ih =>
    rw [flatMap_cons, holds_append] at hholds
    rw [flatMap_cons, length_append] at hend
    have hhead := haccepted item mem_cons_self
    have htail : ∀ other ∈ items, other.accepted = true := by
      intro other hmem
      exact haccepted other (mem_cons_of_mem _ hmem)
    have hroom : it.pos + item.bytes.length ≤ bufSize := by omega
    rw [map_cons, Yields, forall_mem_cons]
    obtain ⟨hfaithful, t, hnext, hpos⟩ | ⟨hfaithful, hnext⟩ :=
      nextAndGet_item hhead hholds.1 hroom
    · have hrest := ih htail (by rw [hpos]; exact hholds.2) (by rw [hpos]; omega)
      rw [and_iff_right hfaithful, ← hrest]
      constructor
      · rintro ⟨t', hnext', hyields⟩
        obtain ⟨-, rfl⟩ := Prod.mk.inj (ok.inj (hnext.symm.trans hnext'))
        exact hyields
      · intro hyields
        exact ⟨t, hnext, hyields⟩
    · refine iff_of_false ?_ fun h => absurd (hfaithful.symm.trans h.1) (by decide)
      rintro ⟨t, hnext', -⟩
      exact hnext t hnext'

/-- Whatever was appended to a sparse store, `next_cell` and `get_cell` hand out the same column
ids, values, add flags and marks and then the end of the data, just if every item survives. -/
theorem read_append_iff {items : List CellItem} {room : Int} {bs : List Byte}
    (happend : appendItems .sparse items room = .ok bs) {mem : Buf} (hholds : Holds mem 0 bs) :
    Yields (nextAndGet mem bs.length .sparse) (items.map CellItem.delivered) .iterEnd
      CellIterator.init ↔ ∀ item ∈ items, item.faithful = true := by
  obtain ⟨haccepted, rfl⟩ := appendItems_eq_ok happend
  exact yields_items_iff haccepted hholds (Int.zero_add _)

theorem read_append_twoCells :
    Yields (nextAndGet (fun i => [(33 : Byte), 5, 16, 0, 0, 0, 63, 31].getD i.toNat 0) 8 .sparse)
      [(16, .int 5 true, false), (invalidId, .extend ObActionFlag.opDelRow, false),
        (invalidId, .extend ObActionFlag.opEndRow, true)] .iterEnd CellIterator.init := by
  have happend :
      appendItems .sparse [.cell 16 (.int 5 true), .escape .delRow, .escape .endRow] 100 =
      .ok [33, 5, 16, 0, 0, 0, 63, 31] := by decide
  exact (read_append_iff happend ⟨rfl, rfl, rfl, rfl, rfl, rfl, rfl, rfl, trivial⟩).2 (by decide)

/-- A float to add is read as a float. -/
theorem not_read_append_floatAdd :
    appendItems .sparse [.cell 16 (.float 0 true)] 100 = .ok [12, 0, 0, 0, 0, 16, 0, 0, 0] ∧
      (nextAndGet (fun i => [(12 : Byte), 0, 0, 0, 0, 16, 0, 0, 0].getD i.toNat 0) 9 .sparse
        CellIterator.init).map Prod.fst = .ok (16, .float 0 false, false) ∧
      ¬ Yields (nextAndGet (fun i => [(12 : Byte), 0, 0, 0, 0, 16, 0, 0, 0].getD i.toNat 0) 9
        .sparse) [(16, .float 0 true, false)] .iterEnd CellIterator.init := by
  have hread : (nextAndGet (fun i => [(12 : Byte), 0, 0, 0, 0, 16, 0, 0, 0].getD i.toNat 0) 9
      .sparse CellIterator.init).map Prod.fst = .ok (16, .float 0 false, false) := by decide
  refine ⟨by decide, hread, ?_⟩
  rintro ⟨t, hnext, -⟩
  rw [hnext] at hread
  exact absurd hread (by simp [Except.map])

end Sparse

end CompactCell

end OceanBase.Common
