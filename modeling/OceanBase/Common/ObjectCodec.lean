import OceanBase.Lib.Codec
import OceanBase.Lib.Except
import OceanBase.Common.Serialization

/-!
# Serialized objects (`ob_object.cpp`, `serialization.h`)

`serialize` writes an object as a first byte, in which its type, sign, add flag and length are
packed, and the bytes of its value (`code`). `deserialize` takes it back
(`deserialize_serialize_iff`), but for the sequence type and decimals of more than three words;
`getSerializeSize` counts the bytes, but for decimals of up to three words
(`getSerializeSize_iff`).

Floating-point numbers are bit patterns.
-/

namespace OceanBase.Common

open Lib List

/-- The text of a varchar object; its length is an `int32_t`. -/
structure Varchar where
  bytes : List Byte
  length_lt : bytes.length < 2 ^ 31
  deriving DecidableEq

/-- A decimal object, with `dec_nwords_ + 1` words. -/
structure ObDecimal where
  precision : BitVec 7
  scale : BitVec 6
  vscale : BitVec 6
  words : List (BitVec 32)
  words_pos : 0 < words.length
  words_le : words.length ≤ 8
  deriving DecidableEq

/-- `ObObj`. -/
inductive ObObj where
  | null
  | int (value : BitVec 64) (isAdd : Bool)
  | float (value : BitVec 32) (isAdd : Bool)
  | double (value : BitVec 64) (isAdd : Bool)
  | dateTime (value : BitVec 64) (isAdd : Bool)
  | preciseDateTime (value : BitVec 64) (isAdd : Bool)
  | varchar (value : Varchar)
  | seq
  | createTime (value : BitVec 64)
  | modifyTime (value : BitVec 64)
  | extend (value : BitVec 64)
  | bool (value : Bool)
  | decimal (value : ObDecimal) (isAdd : Bool)
  deriving DecidableEq

/-- What a decoder hands to `deserialize`: the value and the new position. -/
def Decoded.result {α : Type} (d : Decoded α) : Except Ret (α × Int) :=
  match d.ret with
  | some a => .ok (a, d.pos)
  | none => .error .error

theorem Decoded.result_of_outcome {α : Type} {d : Decoded α} {a : α} {pos : Int}
    (h : d.outcome = (some a, pos)) : d.result = .ok (a, pos) := by
  obtain ⟨hret, hpos⟩ := Prod.mk.inj h
  rw [Decoded.result, hret, ← hpos]

namespace Serialization

/-! ### The encoders of the types -/

/-- `OB_DATETIME_OPERATION_BIT`, `OB_DATETIME_SIGN_BIT`, `OB_FLOAT_OPERATION_BIT_POS`. -/
def datetimeOperationBit : Nat := 3
def datetimeSignBit : Nat := 2
def floatOperationBitPos : Nat := 0

def varcharType : Byte := 0x80
def datetimeType : Byte := 0xd0
def preciseDatetimeType : Byte := 0xe0
def modifytimeType : Byte := 0xf0
def createtimeType : Byte := 0xf4
def floatType : Byte := 0xf8
def doubleType : Byte := 0xfa
def nullType : Byte := 0xfc
def boolType : Byte := 0xfd
def extendType : Byte := 0xfe
def decimalType : Byte := 0xff

/-- `encode_i32` and `encode_i64`: the highest byte first. -/
def encodeBig {w : Nat} (n : Nat) (val : BitVec w) (room : Int) : Except Ret (List Byte) :=
  if n ≤ room then .ok ((List.range n).reverse.map fun i => (val >>> (8 * i)).setWidth 8)
  else .error .error

def encodeI32 (val : BitVec 32) (room : Int) : Except Ret (List Byte) := encodeBig 4 val room

variable (val : BitVec 64)

variable (room : Int)

def encodeI64 : Except Ret (List Byte) := encodeBig 8 val room

def encodedLengthVi64 (v : BitVec 64) : Nat :=
  if v.toNat ≤ 2 ^ 7 - 1 then 1
  else if v.toNat ≤ 2 ^ 14 - 1 then 2
  else if v.toNat ≤ 2 ^ 21 - 1 then 3
  else if v.toNat ≤ 2 ^ 28 - 1 then 4
  else if v.toNat ≤ 2 ^ 35 - 1 then 5
  else if v.toNat ≤ 2 ^ 42 - 1 then 6
  else if v.toNat ≤ 2 ^ 49 - 1 then 7
  else if v.toNat ≤ 2 ^ 56 - 1 then 8
  else if v.toNat ≤ 2 ^ 63 - 1 then 9
  else 10

def encodedLengthVi32 (v : BitVec 32) : Nat :=
  if v.toNat ≤ 2 ^ 7 - 1 then 1
  else if v.toNat ≤ 2 ^ 14 - 1 then 2
  else if v.toNat ≤ 2 ^ 21 - 1 then 3
  else if v.toNat ≤ 2 ^ 28 - 1 then 4
  else 5

/-- `encode_vi64`; ten groups hold every number. -/
def encodeVi64 : Except Ret (List Byte) :=
  if encodedLengthVi64 val ≤ room then .ok (viBytes 9 val) else .error .error

/-- `encode_vi32`; five groups hold every number. -/
def encodeVi32 (val : BitVec 32) (room : Int) : Except Ret (List Byte) :=
  if encodedLengthVi32 val ≤ room then .ok (viBytes 4 val) else .error .error

/-- Bytes one by one with `encode_i8`. -/
def encodeI8s : List Byte → Int → Except Ret (List Byte)
  | [], _ => .ok []
  | b :: bs, room => andThen (encodeI8 · b) (encodeI8s bs) room

def encodeNull : Except Ret (List Byte) := encodeI8 room nullType

def encodeBoolType (val : Bool) (room : Int) : Except Ret (List Byte) :=
  andThen (encodeI8 · boolType) (encodeI8 · (if val then 1 else 0)) room

/-- The first byte of a float or a double. -/
def floatFirstByte (type : Byte) (isAdd : Bool) : Byte :=
  if isAdd then setBit type floatOperationBitPos else type

def encodeFloatType (val : BitVec 32) (isAdd : Bool) (room : Int) : Except Ret (List Byte) :=
  andThen (encodeI8 · (floatFirstByte floatType isAdd)) (encodeI32 val) room

variable (isAdd : Bool)

def encodeDoubleType (room : Int) : Except Ret (List Byte) :=
  andThen (encodeI8 · (floatFirstByte doubleType isAdd)) (encodeI64 val) room

def encodedLengthStrLen (len : Int) : Int :=
  if len < 0 then -1
  else if len ≤ max1BStrLen then 1
  else if len ≤ 2 ^ 8 - 1 then 2
  else if len ≤ 2 ^ 16 - 1 then 3
  else if len ≤ 2 ^ 24 - 1 then 4
  else if len ≤ 2 ^ 32 - 1 then 5
  else -1

def encodedLengthStr (len : Int) : Int := encodedLengthStrLen len + len

def encodeStr (vbuf : List Byte) (room : Int) : Except Ret (List Byte) :=
  let len : Int := vbuf.length
  let lenSize := encodedLengthStrLen len
  if lenSize < 0 ∨ room < lenSize + len then .error .error
  else
    let firstByte :=
      if lenSize = 1 then varcharType ||| BitVec.ofInt 8 len
      else varcharType ||| BitVec.ofInt 8 (lenSize - 1 + max1BStrLen)
    let lenBytes := (List.range (lenSize - 1).toNat).map fun n =>
      (BitVec.ofInt 64 len >>> (8 * n)).setWidth 8
    andThen (encodeI8 · firstByte)
      (andThen (encodeI8s lenBytes) (fun _ => .ok vbuf)) room

/-- `encoded_length_datetime`, which the other three times use too. -/
def encodedLengthDatetime (value : BitVec 64) : Nat :=
  if (safeInt64Abs value).toNat ≤ 2 ^ 32 - 1 then 5
  else if (safeInt64Abs value).toNat ≤ 2 ^ 48 - 1 then 7
  else 9

def encodeTimeType (firstByte : Byte) (val : BitVec 64) (room : Int) : Except Ret (List Byte) :=
  let len := encodedLengthDatetime val
  if room < len then .error .error
  else
    let firstByte :=
      if len = 7 then firstByte ||| 1 else if len = 9 then firstByte ||| 2 else firstByte
    andThen (encodeI8 · firstByte)
      (fun room => encodeUintWithGivenLength room (safeInt64Abs val) (len - 1)) room

/-- The first byte of a time that has a sign and may be added. -/
def timeFirstByte (type : Byte) (val : BitVec 64) (isAdd : Bool) : Byte :=
  let firstByte := if val.slt 0 then setBit type datetimeSignBit else type
  if isAdd then setBit firstByte datetimeOperationBit else firstByte

/-- `encode_datetime_type` and `encode_precise_datetime_type`. -/
def encodeSignedTime (type : Byte) (val : BitVec 64) (isAdd : Bool) (room : Int) :
    Except Ret (List Byte) :=
  if room ≤ 0 then .error .error else encodeTimeType (timeFirstByte type val isAdd) val room

def encodeDatetimeType (room : Int) : Except Ret (List Byte) :=
  encodeSignedTime datetimeType val isAdd room

def encodePreciseDatetimeType (room : Int) :
    Except Ret (List Byte) :=
  encodeSignedTime preciseDatetimeType val isAdd room

/-- `encode_modifytime_type` and `encode_createtime_type`. -/
def encodeUnsignedTime (type : Byte) (val : BitVec 64) (room : Int) : Except Ret (List Byte) :=
  if room ≤ 0 ∨ val.slt 0 then .error .error else encodeTimeType type val room

def encodeModifytimeType : Except Ret (List Byte) :=
  encodeUnsignedTime modifytimeType val room

def encodeCreatetimeType : Except Ret (List Byte) :=
  encodeUnsignedTime createtimeType val room

def encodedLengthExtend (value : BitVec 64) : Nat := encodedLengthVi64 value + 1

def encodeExtendType : Except Ret (List Byte) :=
  if room < encodedLengthExtend val then .error .error
  else andThen (encodeI8 · extendType) (encodeVi64 val) room

/-- The loop over the words of a decimal. -/
def encodeWords : List (BitVec 32) → Int → Except Ret (List Byte)
  | [], _ => .ok []
  | word :: words, room => andThen (encodeVi32 word) (encodeWords words) room

def encodeDecimalType (precision scale vscale : Byte) (words : List (BitVec 32))
    (room : Int) : Except Ret (List Byte) :=
  if room ≤ 0 then .error .invalidArgument
  else
    andThen (encodeI8s [decimalType, if isAdd then 1 else 0, precision, scale, vscale,
      BitVec.ofNat 8 words.length]) (encodeWords words) room

def encodedLengthDecimalType (words : List (BitVec 32)) : Nat :=
  words.foldl (fun ret word => ret + encodedLengthVi32 word) 6

/-! ### The decoders of the types -/

section Decoders

variable (buf : Buf) (dataLen : Int)

def decodeI32 (pos : Int) : Except Ret (BitVec 32 × Int) :=
  if 4 ≤ dataLen - pos then
    .ok ((buf pos).setWidth 32 <<< 24 ||| (buf (pos + 1)).setWidth 32 <<< 16 |||
      (buf (pos + 2)).setWidth 32 <<< 8 ||| (buf (pos + 3)).setWidth 32, pos + 4)
  else .error .error

def decodeI64 (pos : Int) : Except Ret (BitVec 64 × Int) :=
  if 8 ≤ dataLen - pos then
    .ok ((buf pos).setWidth 64 <<< 56 ||| (buf (pos + 1)).setWidth 64 <<< 48 |||
      (buf (pos + 2)).setWidth 64 <<< 40 ||| (buf (pos + 3)).setWidth 64 <<< 32 |||
      (buf (pos + 4)).setWidth 64 <<< 24 ||| (buf (pos + 5)).setWidth 64 <<< 16 |||
      (buf (pos + 6)).setWidth 64 <<< 8 ||| (buf (pos + 7)).setWidth 64, pos + 8)
  else .error .error

def decodeBoolType (pos : Int) : Except Ret (Bool × Int) := do
  let (v, pos) ← (decodeI8 buf dataLen pos).result
  return (v != 0, pos)

variable (firstByte : Byte)

variable (pos : Int)

def decodeFloatType : Except Ret ((BitVec 32 × Bool) × Int) := do
  let (v, pos) ← decodeI32 buf dataLen pos
  return ((v, testBit firstByte floatOperationBitPos), pos)

def decodeDoubleType : Except Ret ((BitVec 64 × Bool) × Int) := do
  let (v, pos) ← decodeI64 buf dataLen pos
  return ((v, testBit firstByte floatOperationBitPos), pos)

def decodeTimeType : Except Ret (BitVec 64 × Int) :=
  if dataLen - pos < 0 then .error .error
  else
    match (firstByte &&& 0x3).toNat with
    | 0 => (decodeUintWithGivenLength buf dataLen pos 4).result
    | 1 => (decodeUintWithGivenLength buf dataLen pos 6).result
    | 2 => (decodeUintWithGivenLength buf dataLen pos 8).result
    | _ => .error .error

/-- `decode_datetime_type` and `decode_precise_datetime_type`, which do the same. -/
def decodeSignedTime : Except Ret ((BitVec 64 × Bool) × Int) :=
  if dataLen - pos < 0 then .error .error
  else do
    let (v, pos) ← decodeTimeType buf dataLen firstByte pos
    return ((if testBit firstByte datetimeSignBit then -v else v,
      testBit firstByte datetimeOperationBit), pos)

/-- `decode_modifytime_type` and `decode_createtime_type`, which do the same. -/
def decodeUnsignedTime : Except Ret (BitVec 64 × Int) :=
  if dataLen - pos ≤ 0 then .error .error else decodeTimeType buf dataLen firstByte pos

/-- The loop over the words of a decimal. -/
def decodeWords : Nat → Int → Except Ret (List (BitVec 32) × Int)
  | 0, pos => .ok ([], pos)
  | n + 1, pos => do
    let (word, pos) ← (decodeVi32 buf dataLen pos).result
    let (words, pos) ← decodeWords n pos
    return (word :: words, pos)

/-- `decode_decimal_type`: the add flag, precision, scale and scale of the value, the number of
words and the words. -/
def decodeDecimalType :
    Except Ret ((Bool × Byte × Byte × Byte × Byte × List (BitVec 32)) × Int) :=
  if dataLen ≤ 0 ∨ dataLen ≤ pos then .error .invalidArgument
  else do
    let (op, pos) ← (decodeI8 buf dataLen pos).result
    let (precision, pos) ← (decodeI8 buf dataLen pos).result
    let (scale, pos) ← (decodeI8 buf dataLen pos).result
    let (vscale, pos) ← (decodeI8 buf dataLen pos).result
    let (nwords, pos) ← (decodeI8 buf dataLen pos).result
    let (words, pos) ← decodeWords buf dataLen nwords.toInt.toNat pos
    return ((op != 0, precision, scale, vscale, nwords, words), pos)

end Decoders

end Serialization

namespace ObObj

open Serialization

def serialize : ObObj → Int → Except Ret (List Byte)
  | null, room => encodeNull room
  | int v isAdd, room => Serialization.encodeInt room v isAdd
  | varchar s, room => encodeStr s.bytes room
  | float v isAdd, room => encodeFloatType v isAdd room
  | double v isAdd, room => encodeDoubleType v isAdd room
  | dateTime v isAdd, room => encodeDatetimeType v isAdd room
  | preciseDateTime v isAdd, room => encodePreciseDatetimeType v isAdd room
  | modifyTime v, room => encodeModifytimeType v room
  | createTime v, room => encodeCreatetimeType v room
  -- the type is accepted, and nothing is written
  | seq, _ => .ok []
  | extend v, room => encodeExtendType v room
  | bool v, room => encodeBoolType v room
  | decimal d isAdd, room =>
    encodeDecimalType isAdd (d.precision.setWidth 8) (d.scale.setWidth 8) (d.vscale.setWidth 8)
      d.words room

/-- `get_serialize_size`. Of a decimal that is kept in the object itself it passes `dec_nwords_`,
which is one less than the number of words. -/
def getSerializeSize : ObObj → Int
  | null => 1
  | int v _ => encodedLengthInt v
  | varchar s => encodedLengthStr s.bytes.length
  | float _ _ => 5
  | double _ _ => 9
  | dateTime v _ => encodedLengthDatetime v
  | preciseDateTime v _ => encodedLengthDatetime v
  | modifyTime v => encodedLengthDatetime v
  | createTime v => encodedLengthDatetime v
  | seq => 0
  | extend v => encodedLengthExtend v
  | bool _ => 2
  | decimal d _ =>
    if d.words.length ≤ 3 then encodedLengthDecimalType (d.words.take (d.words.length - 1))
    else encodedLengthDecimalType d.words

/-- The string of a varchar object in the buffer. -/
def varcharAt (buf : Buf) (offset : Int) (len : BitVec 32) : Varchar where
  bytes := bytesAt buf offset len.toInt.toNat
  length_lt := by
    have hlt := BitVec.toInt_lt (x := len)
    rw [length_bytesAt]
    omega

/-- The decimal that `deserialize` builds; of more than three words it is not implemented. Counts
that are not positive, which `serialize` does not write, count as errors. -/
def decimalOf (isAdd : Bool) (precision scale vscale : Byte) (words : List (BitVec 32)) :
    Except Ret ObObj :=
  if h : 0 < words.length ∧ words.length ≤ 3 then
    .ok (decimal ⟨precision.setWidth 7, scale.setWidth 6, vscale.setWidth 6, words, h.1, by omega⟩
      isAdd)
  else .error .notImplement

/-- `deserialize` after the first byte. -/
def deserializeValue (buf : Buf) (dataLen : Int) (firstByte : Byte) (pos : Int) :
    Except Ret (ObObj × Int) :=
  if firstByte = extendType then do
    let (v, pos) ← (decodeVi64 buf dataLen pos).result
    return (extend v, pos)
  else
    match ((firstByte &&& 0xc0) >>> 6).toNat with
    | 0 | 1 => do
      let ((v, isAdd), pos) ← (Serialization.decodeInt buf dataLen firstByte pos).result
      return (int v isAdd, pos)
    | 2 => do
      let ((offset, len), pos) ← (decodeStr buf dataLen firstByte pos).result
      return (varchar (varcharAt buf offset len), pos)
    | _ =>
      match ((firstByte &&& 0x30) >>> 4).toNat with
      -- reserved: the object stays as `reset` left it
      | 0 => .ok (null, pos)
      | 1 => do
        let ((v, isAdd), pos) ← decodeSignedTime buf dataLen firstByte pos
        return (dateTime v isAdd, pos)
      | 2 => do
        let ((v, isAdd), pos) ← decodeSignedTime buf dataLen firstByte pos
        return (preciseDateTime v isAdd, pos)
      | _ =>
        match ((firstByte &&& 0x0c) >>> 2).toNat with
        | 0 => do
          let (v, pos) ← decodeUnsignedTime buf dataLen firstByte pos
          return (modifyTime v, pos)
        | 1 => do
          let (v, pos) ← decodeUnsignedTime buf dataLen firstByte pos
          return (createTime v, pos)
        | 2 =>
          if firstByte &&& 0x02 ≠ 0 then do
            let ((v, isAdd), pos) ← decodeDoubleType buf dataLen firstByte pos
            return (double v isAdd, pos)
          else do
            let ((v, isAdd), pos) ← decodeFloatType buf dataLen firstByte pos
            return (float v isAdd, pos)
        | _ =>
          match (firstByte &&& 0x03).toNat with
          | 0 => .ok (null, pos)
          | 1 => do
            let (v, pos) ← decodeBoolType buf dataLen pos
            return (bool v, pos)
          | 3 => do
            let ((isAdd, precision, scale, vscale, _, words), pos) ←
              decodeDecimalType buf dataLen pos
            let obj ← decimalOf isAdd precision scale vscale words
            return (obj, pos)
          | _ => .error .errUnexpected

def deserialize (buf : Buf) (dataLen pos : Int) : Except Ret (ObObj × Int) := do
  let (firstByte, pos) ← (decodeI8 buf dataLen pos).result
  deserializeValue buf dataLen firstByte pos

end ObObj

variable {v : BitVec 64}

variable {dataLen pos : Int} {code mark n len : Nat}

namespace Serialization

/-! ### What the encoders write -/

variable {bs : List Byte} {b : Byte}

theorem not_fits_cons {room : Int} : ¬ Fits (b :: bs) room ↔ room < bs.length + 1 := by
  simp only [Fits, cons_ne_nil, or_false, Int.not_le]
  rfl

variable {n w : Nat}

theorem encodes_of_length {e : Int → Except Ret (List Byte)} (hn : bs.length = n) (hne : bs ≠ [])
    (he : ∀ room, e room = if n ≤ room then .ok bs else .error .error) : Encodes e bs := by
  intro room
  rw [Fits, hn, he room, or_iff_left hne]
  constructor
  · intro hroom
    exact if_pos hroom
  · intro hroom
    exact ⟨.error, if_neg hroom⟩

theorem encodes_encodeI8 (b : Byte) : Encodes (encodeI8 · b) [b] :=
  encodes_of_length rfl (cons_ne_nil _ _) fun _ => rfl

theorem encodes_encodeI8s (bs : List Byte) : Encodes (encodeI8s bs) bs := by
  induction bs with
  | nil => exact encodes_nil fun _ => rfl
  | cons b bs ih => exact (encodes_encodeI8 b).andThen ih

theorem encodes_encodeBig (n : Nat) (val : BitVec w) (hn : n ≠ 0) :
    Encodes (encodeBig n val) (leBytes n val).reverse := by
  have hne : (leBytes n val).reverse ≠ [] := by
    rw [← length_pos_iff, length_reverse, length_leBytes]
    omega
  refine encodes_of_length (n := n) (by simp) hne fun room => ?_
  rw [encodeBig, leBytes_eq_map, map_reverse]

theorem length_viBytes_ite {k rest : Nat} {val : BitVec w} (hk : k ≤ n)
    (hge : k = 0 ∨ ¬ val.toNat ≤ 2 ^ (7 * k) - 1)
    (hrest : ¬ val.toNat ≤ 2 ^ (7 * (k + 1)) - 1 → (viBytes n val).length = rest) :
    (viBytes n val).length = if val.toNat ≤ 2 ^ (7 * (k + 1)) - 1 then k + 1 else rest := by
  by_cases h : val.toNat ≤ 2 ^ (7 * (k + 1)) - 1
  · rw [if_pos h]
    refine length_viBytes hk (Nat.lt_of_le_pred (Nat.two_pow_pos _) h) (hge.imp_right fun h => ?_)
    exact Nat.le_of_pred_lt (Nat.lt_of_not_le h)
  · rw [if_neg h]
    exact hrest h

variable (val : BitVec 64)

theorem length_viBytes_64 : (viBytes 9 val).length = encodedLengthVi64 val := by
  have hmax : val.toNat < 2 ^ 70 := Nat.lt_trans val.isLt (by decide)
  refine length_viBytes_ite (k := 0) (by decide) (.inl rfl) fun h => ?_
  refine length_viBytes_ite (k := 1) (by decide) (.inr h) fun h => ?_
  refine length_viBytes_ite (k := 2) (by decide) (.inr h) fun h => ?_
  refine length_viBytes_ite (k := 3) (by decide) (.inr h) fun h => ?_
  refine length_viBytes_ite (k := 4) (by decide) (.inr h) fun h => ?_
  refine length_viBytes_ite (k := 5) (by decide) (.inr h) fun h => ?_
  refine length_viBytes_ite (k := 6) (by decide) (.inr h) fun h => ?_
  refine length_viBytes_ite (k := 7) (by decide) (.inr h) fun h => ?_
  refine length_viBytes_ite (k := 8) (by decide) (.inr h) fun h => ?_
  exact length_viBytes (k := 9) (by decide) hmax (.inr (Nat.le_of_pred_lt (Nat.lt_of_not_le h)))

theorem length_viBytes_32 (val : BitVec 32) : (viBytes 4 val).length = encodedLengthVi32 val := by
  have hmax : val.toNat < 2 ^ 35 := Nat.lt_trans val.isLt (by decide)
  refine length_viBytes_ite (k := 0) (by decide) (.inl rfl) fun h => ?_
  refine length_viBytes_ite (k := 1) (by decide) (.inr h) fun h => ?_
  refine length_viBytes_ite (k := 2) (by decide) (.inr h) fun h => ?_
  refine length_viBytes_ite (k := 3) (by decide) (.inr h) fun h => ?_
  exact length_viBytes (k := 4) (by decide) hmax (.inr (Nat.le_of_pred_lt (Nat.lt_of_not_le h)))

theorem viBytes_ne_nil (n : Nat) (val : BitVec w) : viBytes n val ≠ [] := by
  obtain ⟨bs, b, hbytes, -, -⟩ := viBytes_spec n val
  rw [hbytes]
  exact append_ne_nil_of_right_ne_nil _ (cons_ne_nil _ _)

theorem encodes_encodeVi64 : Encodes (encodeVi64 val) (viBytes 9 val) :=
  encodes_of_length (length_viBytes_64 val) (viBytes_ne_nil 9 val) fun _ => rfl

theorem encodes_encodeVi32 (val : BitVec 32) : Encodes (encodeVi32 val) (viBytes 4 val) :=
  encodes_of_length (length_viBytes_32 val) (viBytes_ne_nil 4 val) fun _ => rfl

theorem encodes_encodeInt (isAdd : Bool) :
    Encodes (encodeInt · val isAdd) (fastEncode val isAdd) := by
  obtain ⟨n, code, hcode, hlen, hfast, hsafe⟩ := encodeInt_spec val
  have hn : n ≤ 8 := by
    obtain ⟨rfl, -, -⟩ | ⟨-, hmem⟩ := hcode
    · omega
    · simp only [mem_cons, Prod.mk.injEq, not_mem_nil, or_false] at hmem
      omega
  intro room
  dsimp only
  rw [encodeInt]
  constructor
  · intro hroom
    split_ifs with h10
    · rfl
    · rw [hfast, Fits, length_cons, length_leBytes, or_iff_left (cons_ne_nil _ _)] at hroom
      rw [hsafe isAdd room (by omega), hfast]
  · intro hroom
    rw [hfast, not_fits_cons, length_leBytes] at hroom
    rw [if_neg (by omega), encodeIntSafe]
    exact ⟨.error, if_pos (by omega)⟩

/-- The number of bytes of a length behind the first byte, and the code for it there. -/
def StrCode (len : Nat) (n : Nat) (code : Nat) : Prop :=
  n = 0 ∧ len ≤ max1BStrLen ∧ code = len ∨
    0 < n ∧ n ≤ 4 ∧ len < 2 ^ (8 * n) ∧ code = max1BStrLen + n

theorem encodedLengthStrLen_spec (hlen : len < 2 ^ 31) :
    ∃ n code, StrCode len n code ∧ encodedLengthStrLen len = n + 1 := by
  rw [encodedLengthStrLen, if_neg (by omega)]
  by_cases h0 : (len : Int) ≤ max1BStrLen
  · exact ⟨0, len, .inl ⟨rfl, by omega, rfl⟩, if_pos h0⟩
  rw [if_neg h0]
  by_cases h1 : (len : Int) ≤ 2 ^ 8 - 1
  · exact ⟨1, 56, .inr ⟨by decide, by decide, by omega, rfl⟩, if_pos h1⟩
  rw [if_neg h1]
  by_cases h2 : (len : Int) ≤ 2 ^ 16 - 1
  · exact ⟨2, 57, .inr ⟨by decide, by decide, by omega, rfl⟩, if_pos h2⟩
  rw [if_neg h2]
  by_cases h3 : (len : Int) ≤ 2 ^ 24 - 1
  · exact ⟨3, 58, .inr ⟨by decide, by decide, by omega, rfl⟩, if_pos h3⟩
  rw [if_neg h3, if_pos (by omega)]
  exact ⟨4, 59, .inr ⟨by decide, by decide, by omega, rfl⟩, rfl⟩

open BitVec

theorem strFirstByte_eq (h : StrCode len n code) :
    (if (n : Int) + 1 = 1 then varcharType ||| BitVec.ofInt 8 len
      else varcharType ||| BitVec.ofInt 8 ((n : Int) + 1 - 1 + max1BStrLen)) =
      varcharType ||| BitVec.ofNat 8 code := by
  obtain ⟨rfl, -, rfl⟩ | ⟨hpos, -, -, rfl⟩ := h
  · rw [if_pos (by omega), BitVec.ofInt_natCast]
  rw [if_neg (by omega), ← BitVec.ofInt_natCast]
  congr 2
  omega

theorem encodeStr_spec (vbuf : List Byte) (hlen : vbuf.length < 2 ^ 31) :
    ∃ n code, StrCode vbuf.length n code ∧ encodedLengthStrLen vbuf.length = n + 1 ∧
      Encodes (encodeStr vbuf) ((varcharType ||| BitVec.ofNat 8 code) ::
        (leBytes n (BitVec.ofNat 64 vbuf.length) ++ vbuf)) := by
  obtain ⟨n, code, hcode, hn⟩ := encodedLengthStrLen_spec hlen
  refine ⟨n, code, hcode, hn, fun room => ?_⟩
  have hfirst := strFirstByte_eq hcode
  have hbytes : ((List.range ((n : Int) + 1 - 1).toNat).map fun i =>
      (BitVec.ofInt 64 vbuf.length >>> (8 * i)).setWidth 8) =
      leBytes n (BitVec.ofNat 64 vbuf.length) := by
    rw [leBytes_eq_map, BitVec.ofInt_natCast, Int.add_sub_cancel, Int.toNat_natCast]
  simp only [encodeStr, hn]
  rw [hfirst, hbytes]
  constructor
  · intro hfits
    rw [Fits, or_iff_left (cons_ne_nil _ _), length_cons, length_append, length_leBytes] at hfits
    have hlenBytes : Fits (leBytes n (BitVec.ofNat 64 vbuf.length)) (room - ((1 : Nat) : Int)) :=
      Or.inl (by rw [length_leBytes]; omega)
    rw [if_neg (by omega), andThen, encodeI8, if_pos (by omega), Except.bind, andThen,
      length_singleton, (encodes_encodeI8s _ _).1 hlenBytes]
    rfl
  · intro hfits
    rw [not_fits_cons, length_append, length_leBytes] at hfits
    exact ⟨.error, if_pos (by omega)⟩

theorem encodes_encodeUintWithGivenLength (hn : n ≠ 0) :
    Encodes (encodeUintWithGivenLength · val n) (leBytes n val) := by
  have hne : leBytes n val ≠ [] := by
    rw [← length_pos_iff, length_leBytes]
    omega
  refine encodes_of_length (length_leBytes n val) hne fun room => ?_
  by_cases hroom : (n : Int) ≤ room
  · rw [encodeUintWithGivenLength_eq val hn hroom, if_pos hroom]
  · rw [encodeUintWithGivenLength, if_pos (by omega), if_neg hroom]

/-- The number of bytes of a time, and the mark for it in the first byte. -/
def TimeCode (v : BitVec 64) (n : Nat) (mark : Nat) : Prop :=
  v.toNat < 2 ^ (8 * n) ∧ (n, mark) ∈ [(4, 0), (6, 1), (8, 2)]

theorem TimeCode.mark_lt (h : TimeCode v n mark) : mark < 3 := by
  have hmem := h.2
  simp only [mem_cons, Prod.mk.injEq, not_mem_nil, or_false] at hmem
  omega

theorem encodeTimeType_spec :
    ∃ n mark, TimeCode (safeInt64Abs val) n mark ∧ encodedLengthDatetime val = n + 1 ∧
      ∀ firstByte, Encodes (encodeTimeType firstByte val)
        ((firstByte ||| BitVec.ofNat 8 mark) :: leBytes n (safeInt64Abs val)) := by
  obtain ⟨n, mark, hcode, hlen⟩ : ∃ n mark, TimeCode (safeInt64Abs val) n mark ∧
      encodedLengthDatetime val = n + 1 := by
    rw [encodedLengthDatetime]
    split_ifs
    · exact ⟨4, 0, ⟨by omega, by simp⟩, rfl⟩
    · exact ⟨6, 1, ⟨by omega, by simp⟩, rfl⟩
    · exact ⟨8, 2, ⟨by omega, by simp⟩, rfl⟩
  refine ⟨n, mark, hcode, hlen, fun firstByte => ?_⟩
  have hmem := hcode.2
  simp only [mem_cons, Prod.mk.injEq, not_mem_nil, or_false] at hmem
  have hmark : (if n + 1 = 7 then firstByte ||| 1 else if n + 1 = 9 then firstByte ||| 2
      else firstByte) = firstByte ||| BitVec.ofNat 8 mark := by
    obtain ⟨rfl, rfl⟩ | ⟨rfl, rfl⟩ | ⟨rfl, rfl⟩ := hmem
    · exact BitVec.or_zero.symm
    all_goals rfl
  have hwriter := (encodes_encodeI8 (firstByte ||| BitVec.ofNat 8 mark)).andThen
    (encodes_encodeUintWithGivenLength (safeInt64Abs val) (n := n) (by omega))
  have hguarded := hwriter.guard (fun room => room < ((n + 1 : Nat) : Int)) .error
      fun room hroom => by
    rw [singleton_append, not_fits_cons, length_leBytes]
    omega
  intro room
  simp only [encodeTimeType, hlen, hmark]
  exact hguarded room

/-! ### What the decoders read -/

theorem signed_safeInt64Abs (v : BitVec 64) :
    (if v.slt 0 then -safeInt64Abs v else safeInt64Abs v) = v := by
  rw [safeInt64Abs_eq]
  split_ifs
  · exact neg_neg
  · rfl

section Reading

variable {buf : Buf}

theorem bytesAt_of_holds (h : Holds buf pos bs) : bytesAt buf pos bs.length = bs :=
  h.map_range

theorem decodeI8_holds (h : buf pos = b) (hroom : pos + 1 ≤ dataLen) :
    (decodeI8 buf dataLen pos).result = .ok (b, pos + 1) := by
  rw [decodeI8, if_pos (by omega), h]
  rfl

theorem decodeI32_eq (hroom : pos + 4 ≤ dataLen) :
    decodeI32 buf dataLen pos = .ok (leValue (bytesAt buf pos 4).reverse, pos + 4) := by
  have hbytes : (bytesAt buf pos 4).reverse =
      [buf (pos + 3), buf (pos + 2), buf (pos + 1), buf pos] := by
    simp [bytesAt, range_succ]
  rw [decodeI32, if_pos (by omega), hbytes]
  simp [leValue, BitVec.shiftLeft_or_distrib, BitVec.or_comm]

theorem or_reverse (a b c d e f g h : BitVec 64) :
    a ||| b ||| c ||| d ||| e ||| f ||| g ||| h =
      h ||| (g ||| (f ||| (e ||| (d ||| (c ||| (b ||| a)))))) := by
  ac_rfl

theorem decodeI64_eq (hroom : pos + 8 ≤ dataLen) :
    decodeI64 buf dataLen pos = .ok (leValue (bytesAt buf pos 8).reverse, pos + 8) := by
  have hbytes : (bytesAt buf pos 8).reverse = [buf (pos + 7), buf (pos + 6), buf (pos + 5),
      buf (pos + 4), buf (pos + 3), buf (pos + 2), buf (pos + 1), buf pos] := by
    simp [bytesAt, range_succ]
  rw [decodeI64, if_pos (by omega), hbytes]
  simp only [leValue, shiftLeft_or_distrib, ← shiftLeft_add, ofNat_eq_ofNat,
    zero_shiftLeft, or_zero]
  rw [or_reverse]

theorem decodeVi_holds {v : BitVec w} (h : Holds buf pos (viBytes n v))
    (hv : v.toNat < 2 ^ (7 * (n + 1))) (hroom : pos + (viBytes n v).length ≤ dataLen) :
    (decodeVi buf dataLen w pos).result = .ok (v, pos + (viBytes n v).length) := by
  obtain ⟨bs, b, hbytes, hmore, hlast⟩ := viBytes_spec n v
  have hlen : (viBytes n v).length = bs.length + 1 := by rw [hbytes]; simp
  have hall := bytesAt_of_holds h
  rw [hbytes, holds_append] at h
  rw [hlen] at hroom hall ⊢
  have hmore' : ∀ j < bs.length, more (buf (pos + (j : Nat))) = true := by
    intro j hj
    rw [h.1.getElem hj]
    exact hmore _ (getElem_mem hj)
  rw [decodeVi,
    decodeViLoop_ok buf pos 0 0 hmore' (by rw [h.2.1]; exact hlast) (by omega) (by omega), hall,
    viValue_viBytes n v hv, shiftLeft_zero, ofNat_eq_ofNat, zero_or]
  rfl

theorem decodeUintWithGivenLength_holds (h : Holds buf pos (leBytes n v))
    (hv : v.toNat < 2 ^ (8 * n)) (hroom : pos + n ≤ dataLen) :
    (decodeUintWithGivenLength buf dataLen pos n).result = .ok (v, pos + n) := by
  have hbytes := bytesAt_of_holds h
  rw [length_leBytes] at hbytes
  rw [decodeUintWithGivenLength_ok buf (by omega), hbytes, leValue_leBytes hv]
  rfl

theorem decodeTimeType_holds {firstByte : Byte}
    (h : Holds buf pos (leBytes n v)) (hcode : TimeCode v n mark)
    (hmark : (firstByte &&& 0x3).toNat = mark) (hroom : pos + n ≤ dataLen) :
    decodeTimeType buf dataLen firstByte pos = .ok (v, pos + n) := by
  obtain ⟨hv, hmem⟩ := hcode
  have huint := decodeUintWithGivenLength_holds h hv hroom
  rw [decodeTimeType, if_neg (by omega), hmark]
  simp only [mem_cons, not_mem_nil, or_false] at hmem
  obtain ⟨rfl, rfl⟩ | ⟨rfl, rfl⟩ | ⟨rfl, rfl⟩ := hmem
  all_goals exact huint

theorem decodeWords_holds {words : List (BitVec 32)} (h : Holds buf pos (words.flatMap (viBytes 4)))
    (hroom : pos + (words.flatMap (viBytes 4)).length ≤ dataLen) :
    decodeWords buf dataLen words.length pos =
      .ok (words, pos + (words.flatMap (viBytes 4)).length) := by
  induction words generalizing pos with
  | nil => simp [decodeWords]
  | cons word words ih =>
    rw [flatMap_cons, holds_append] at h
    rw [flatMap_cons, length_append] at hroom ⊢
    have hword : word.toNat < 2 ^ (7 * (4 + 1)) := by
      omega
    rw [length_cons, decodeWords, decodeVi32, decodeVi_holds h.1 hword (by omega)]
    simp only [except_ok_bind]
    rw [ih h.2 (by omega), Int.add_assoc]
    rfl

end Reading

end Serialization

namespace ObObj

open Serialization

/-! ### Objects there and back -/

/-- The bytes, wherever they lie and whatever follows them, are read as the object. -/
def ReadBack (obj : ObObj) (bs : List Byte) : Prop :=
  ∀ (buf : Buf) (dataLen pos : Int), 0 ≤ pos → Holds buf pos bs → pos + bs.length ≤ dataLen →
    deserialize buf dataLen pos = .ok (obj, pos + bs.length)

variable {obj : ObObj} {b : Byte} {buf : Buf}

theorem readBack_cons {bs : List Byte}
    (h : ∀ (buf : Buf) (dataLen pos : Int), 0 < pos → Holds buf pos bs →
      pos + bs.length ≤ dataLen → deserializeValue buf dataLen b pos = .ok (obj, pos + bs.length)) :
    ReadBack obj (b :: bs) := by
  intro buf dataLen pos hpos hholds hroom
  rw [length_cons] at hroom ⊢
  push_cast at hroom ⊢
  rw [deserialize, decodeI8_holds hholds.1 (by omega)]
  simp only [except_ok_bind]
  rw [h buf dataLen (pos + 1) (by omega) hholds.2 (by omega), Int.add_assoc, Int.add_comm 1]

/-- The object is written as so many bytes, which are read back. -/
def Codes (obj : ObObj) (size : Nat) : Prop :=
  ∃ bs, Encodes obj.serialize bs ∧ bs.length = size ∧ ReadBack obj bs

theorem intFirstByte_spec (val : BitVec 64) (isAdd : Bool) (hcode : code < 32) :
    let b := intFlags val isAdd ||| BitVec.ofNat 8 code
    b ≠ extendType ∧ (((b &&& 0xc0) >>> 6).toNat = 0 ∨ ((b &&& 0xc0) >>> 6).toNat = 1) ∧
      b &&& intValueMask = BitVec.ofNat 8 code ∧ testBit b intSignBitPos = val.slt 0 ∧
      testBit b intOperationBitPos = isAdd := by
  rw [intFlags]
  generalize val.slt 0 = neg
  revert neg isAdd
  revert code
  decide

theorem deserializeValue_int (hne : b ≠ extendType)
    (hkind : ((b &&& 0xc0) >>> 6).toNat = 0 ∨ ((b &&& 0xc0) >>> 6).toNat = 1)
    {isAdd : Bool} {pos' : Int}
    (hint : (Serialization.decodeInt buf dataLen b pos).outcome = (some (v, isAdd), pos')) :
    deserializeValue buf dataLen b pos = .ok (int v isAdd, pos') := by
  have hresult := Decoded.result_of_outcome hint
  rw [deserializeValue, if_neg hne]
  obtain hkind | hkind := hkind
  all_goals
    simp only [hkind, hresult]
    rfl

theorem int_spec (v : BitVec 64) (isAdd : Bool) : Codes (int v isAdd) (encodedLengthInt v) := by
  obtain ⟨n, code, hcode, hlen, hfast, -⟩ := encodeInt_spec v
  refine ⟨fastEncode v isAdd, encodes_encodeInt v isAdd, by rw [hfast, hlen]; simp, ?_⟩
  rw [hfast]
  refine readBack_cons fun buf dataLen pos _ hholds hroom => ?_
  have hbytes := bytesAt_of_holds hholds
  rw [length_leBytes] at hbytes hroom ⊢
  have hlt32 : code < 32 := by
    obtain ⟨-, hle, rfl⟩ | ⟨-, hmem⟩ := hcode
    · exact Nat.lt_of_le_of_lt hle (by decide)
    · simp only [mem_cons, Prod.mk.injEq, not_mem_nil, or_false] at hmem
      omega
  obtain ⟨hne, hkind, hmask, hneg, hadd⟩ := intFirstByte_spec v isAdd hlt32
  have hmaskNat : ((intFlags v isAdd ||| BitVec.ofNat 8 code) &&& intValueMask).toNat = code := by
    rw [hmask, BitVec.toNat_ofNat]
    omega
  refine deserializeValue_int hne hkind ?_
  obtain ⟨rfl, hle, rfl⟩ | ⟨hlt, hmem⟩ := hcode
  · have hshort : ((intFlags v isAdd ||| BitVec.ofNat 8 (safeInt64Abs v).toNat) &&&
        intValueMask).toNat ≤ maxInt1B := by rw [hmaskNat]; exact hle
    have hwide : (BitVec.ofNat 8 (safeInt64Abs v).toNat).setWidth 64 = safeInt64Abs v := by
      apply BitVec.eq_of_toNat_eq
      simp
      omega
    rw [decodeInt_short buf hshort (by omega), shortInt, hneg, hadd, hmask, hwide,
      signed_safeInt64Abs]
    simp [Decoded.outcome]
  have hlong : ¬ ((intFlags v isAdd ||| BitVec.ofNat 8 code) &&& intValueMask).toNat ≤
      maxInt1B := by
    simp only [mem_cons, Prod.mk.injEq, not_mem_nil, or_false] at hmem
    have hmax : maxInt1B = 23 := rfl
    omega
  have hclass : safeLen code = n ∧ code ≠ 29 := by
    simp only [mem_cons, not_mem_nil, or_false] at hmem
    obtain ⟨rfl, rfl⟩ | ⟨rfl, rfl⟩ | ⟨rfl, rfl⟩ | ⟨rfl, rfl⟩ | ⟨rfl, rfl⟩ | ⟨rfl, rfl⟩ := hmem <;>
      exact ⟨rfl, by decide⟩
  have h29 : (intFlags v isAdd ||| BitVec.ofNat 8 code) &&& intValueMask ≠ 29 := by
    intro h
    exact hclass.2 (by rw [← hmaskNat, h]; rfl)
  have hn : safeLen ((intFlags v isAdd ||| BitVec.ofNat 8 code) &&& intValueMask).toNat = n := by
    rw [hmaskNat]
    exact hclass.1
  rw [decodeInt_ok buf hlong hn h29 (by omega), hneg, hadd, hbytes, leValue_leBytes hlt,
    signed_safeInt64Abs]

theorem null_spec : Encodes null.serialize [nullType] ∧ ReadBack null [nullType] := by
  refine ⟨encodes_encodeI8 nullType, readBack_cons fun buf dataLen pos _ _ _ => ?_⟩
  rw [length_nil, Int.natCast_zero, Int.add_zero]
  rfl

theorem bool_spec (v : Bool) :
    Encodes (bool v).serialize [boolType, if v then 1 else 0] ∧
      ReadBack (bool v) [boolType, if v then 1 else 0] := by
  refine ⟨(encodes_encodeI8 boolType).andThen (encodes_encodeI8 _), ?_⟩
  refine readBack_cons fun buf dataLen pos _ hholds hroom => ?_
  have hdispatch : deserializeValue buf dataLen boolType pos =
      (decodeBoolType buf dataLen pos >>= fun x => .ok (bool x.1, x.2)) := rfl
  have hv : ((if v then 1 else 0 : Byte) != 0) = v := by cases v <;> rfl
  rw [hdispatch, decodeBoolType, decodeI8_holds hholds.1 hroom, except_ok_bind]
  simp only [hv]
  rfl

theorem extend_spec (v : BitVec 64) : Codes (extend v) (encodedLengthExtend v) := by
  have hlen : (extendType :: viBytes 9 v).length = encodedLengthExtend v := by
    rw [length_cons, length_viBytes_64, encodedLengthExtend]
  refine ⟨extendType :: viBytes 9 v, ?_, hlen, ?_⟩
  · refine ((encodes_encodeI8 extendType).andThen (encodes_encodeVi64 v)).guard
      (fun room => room < (encodedLengthExtend v : Int)) .error fun room hroom => ?_
    rw [singleton_append, not_fits_cons, length_viBytes_64]
    rw [encodedLengthExtend] at hroom
    omega
  refine readBack_cons fun buf dataLen pos _ hholds hroom => ?_
  have hv : v.toNat < 2 ^ (7 * (9 + 1)) := by
    omega
  rw [deserializeValue, if_pos rfl, decodeVi64, decodeVi_holds hholds hv hroom]
  rfl

theorem float_spec (v : BitVec 32) (isAdd : Bool) : Codes (float v isAdd) 5 := by
  refine ⟨floatFirstByte floatType isAdd :: (leBytes 4 v).reverse,
    (encodes_encodeI8 _).andThen (encodes_encodeBig 4 v (by decide)), by simp, ?_⟩
  refine readBack_cons fun buf dataLen pos _ hholds hroom => ?_
  have hdispatch : deserializeValue buf dataLen (floatFirstByte floatType isAdd) pos =
      (decodeI32 buf dataLen pos >>= fun x => .ok (float x.1 isAdd, x.2)) := by
    rcases isAdd with _ | _
    all_goals exact bind_assoc _ _ _
  have hbytes := bytesAt_of_holds hholds
  rw [length_reverse, length_leBytes] at hbytes hroom ⊢
  rw [hdispatch, decodeI32_eq hroom, hbytes, reverse_reverse, leValue_leBytes v.isLt]
  rfl

theorem double_spec (v : BitVec 64) (isAdd : Bool) : Codes (double v isAdd) 9 := by
  refine ⟨floatFirstByte doubleType isAdd :: (leBytes 8 v).reverse,
    (encodes_encodeI8 _).andThen (encodes_encodeBig 8 v (by decide)), by simp, ?_⟩
  refine readBack_cons fun buf dataLen pos _ hholds hroom => ?_
  have hdispatch : deserializeValue buf dataLen (floatFirstByte doubleType isAdd) pos =
      (decodeI64 buf dataLen pos >>= fun x => .ok (double x.1 isAdd, x.2)) := by
    rcases isAdd with _ | _
    all_goals exact bind_assoc _ _ _
  have hbytes := bytesAt_of_holds hholds
  rw [length_reverse, length_leBytes] at hbytes hroom ⊢
  rw [hdispatch, decodeI64_eq hroom, hbytes, reverse_reverse, leValue_leBytes v.isLt]
  rfl

variable {type : Byte}

theorem timeFirstByte_spec (htype : type = datetimeType ∨ type = preciseDatetimeType)
    (val : BitVec 64) (isAdd : Bool) (hmark : mark < 3) :
    let b := timeFirstByte type val isAdd ||| BitVec.ofNat 8 mark
    b ≠ extendType ∧ ((b &&& 0xc0) >>> 6).toNat = 3 ∧ (b &&& 0x30) >>> 4 = (type &&& 0x30) >>> 4 ∧
      (b &&& 0x3).toNat = mark ∧ testBit b datetimeSignBit = val.slt 0 ∧
      testBit b datetimeOperationBit = isAdd := by
  simp only [timeFirstByte]
  generalize val.slt 0 = neg
  revert neg isAdd
  revert mark
  obtain rfl | rfl := htype
  all_goals decide

theorem signedTime_spec (htype : type = datetimeType ∨ type = preciseDatetimeType)
    (v : BitVec 64) (isAdd : Bool) :
    ∃ b bs, Encodes (encodeSignedTime type v isAdd) (b :: bs) ∧
      (b :: bs).length = encodedLengthDatetime v ∧ b ≠ extendType ∧
      ((b &&& 0xc0) >>> 6).toNat = 3 ∧ (b &&& 0x30) >>> 4 = (type &&& 0x30) >>> 4 ∧
      ∀ (buf : Buf) (dataLen pos : Int), Holds buf pos bs → pos + bs.length ≤ dataLen →
        decodeSignedTime buf dataLen b pos = .ok ((v, isAdd), pos + bs.length) := by
  obtain ⟨n, mark, hcode, hlen, hencodes⟩ := encodeTimeType_spec v
  obtain ⟨hne, h6, h4, hmark, hneg, hadd⟩ := timeFirstByte_spec htype v isAdd hcode.mark_lt
  refine ⟨_, leBytes n (safeInt64Abs v), ?_, by simp [hlen], hne, h6, h4, ?_⟩
  · refine (hencodes (timeFirstByte type v isAdd)).guard (fun room => room ≤ 0) .error
      fun room hroom => ?_
    rw [not_fits_cons]
    omega
  intro buf dataLen pos hholds hroom
  rw [length_leBytes] at hroom ⊢
  rw [decodeSignedTime, if_neg (by omega), decodeTimeType_holds hholds hcode hmark hroom,
    except_ok_bind, hneg, hadd]
  simp only [signed_safeInt64Abs]
  rfl

theorem dateTime_spec (v : BitVec 64) (isAdd : Bool) :
    Codes (dateTime v isAdd) (encodedLengthDatetime v) := by
  obtain ⟨b, bs, hencodes, hlen, hne, h6, h4, hread⟩ := signedTime_spec (Or.inl rfl) v isAdd
  refine ⟨b :: bs, hencodes, hlen, readBack_cons fun buf dataLen pos _ hholds hroom => ?_⟩
  rw [deserializeValue, if_neg hne]
  simp only [h6, h4, hread buf dataLen pos hholds hroom]
  rfl

theorem preciseDateTime_spec (v : BitVec 64) (isAdd : Bool) :
    Codes (preciseDateTime v isAdd) (encodedLengthDatetime v) := by
  obtain ⟨b, bs, hencodes, hlen, hne, h6, h4, hread⟩ := signedTime_spec (Or.inr rfl) v isAdd
  refine ⟨b :: bs, hencodes, hlen, readBack_cons fun buf dataLen pos _ hholds hroom => ?_⟩
  rw [deserializeValue, if_neg hne]
  simp only [h6, h4, hread buf dataLen pos hholds hroom]
  rfl

theorem unsignedFirstByte_spec (htype : type = modifytimeType ∨ type = createtimeType)
    (hmark : mark < 3) : let b := type ||| BitVec.ofNat 8 mark
    b ≠ extendType ∧ ((b &&& 0xc0) >>> 6).toNat = 3 ∧ ((b &&& 0x30) >>> 4).toNat = 3 ∧
      (b &&& 0x0c) >>> 2 = (type &&& 0x0c) >>> 2 ∧ (b &&& 0x3).toNat = mark := by
  revert mark
  obtain rfl | rfl := htype
  all_goals decide

theorem unsignedTime_spec (htype : type = modifytimeType ∨ type = createtimeType)
    (hv : v.slt 0 = false) :
    ∃ b bs, Encodes (encodeUnsignedTime type v) (b :: bs) ∧
      (b :: bs).length = encodedLengthDatetime v ∧ b ≠ extendType ∧
      ((b &&& 0xc0) >>> 6).toNat = 3 ∧ ((b &&& 0x30) >>> 4).toNat = 3 ∧
      (b &&& 0x0c) >>> 2 = (type &&& 0x0c) >>> 2 ∧
      ∀ (buf : Buf) (dataLen pos : Int), Holds buf pos bs → pos + bs.length ≤ dataLen →
        decodeUnsignedTime buf dataLen b pos = .ok (v, pos + bs.length) := by
  obtain ⟨n, mark, hcode, hlen, hencodes⟩ := encodeTimeType_spec v
  obtain ⟨hne, h6, h4, h2, hmark⟩ := unsignedFirstByte_spec htype hcode.mark_lt
  have hpos : 0 < n := by
    have hmem := hcode.2
    simp only [mem_cons, Prod.mk.injEq, not_mem_nil, or_false] at hmem
    omega
  have habs : safeInt64Abs v = v := by rw [safeInt64Abs_eq, if_neg (Bool.eq_false_iff.1 hv)]
  refine ⟨_, leBytes n (safeInt64Abs v), ?_, by simp [hlen], hne, h6, h4, h2, ?_⟩
  · refine (hencodes type).guard (fun room => room ≤ 0 ∨ v.slt 0 = true) .error fun room hroom => ?_
    rw [not_fits_cons]
    have hroom := hroom.resolve_right (Bool.eq_false_iff.1 hv)
    omega
  · intro buf dataLen pos hholds hroom
    rw [length_leBytes] at hroom ⊢
    rw [decodeUnsignedTime, if_neg (by omega), decodeTimeType_holds hholds hcode hmark hroom, habs]

theorem modifyTime_spec (hv : v.slt 0 = false) :
    Codes (modifyTime v) (encodedLengthDatetime v) := by
  obtain ⟨b, bs, hencodes, hlen, hne, h6, h4, h2, hread⟩ := unsignedTime_spec (Or.inl rfl) hv
  refine ⟨b :: bs, hencodes, hlen, readBack_cons fun buf dataLen pos _ hholds hroom => ?_⟩
  rw [deserializeValue, if_neg hne]
  simp only [h6, h4, h2, hread buf dataLen pos hholds hroom]
  rfl

theorem createTime_spec (hv : v.slt 0 = false) :
    Codes (createTime v) (encodedLengthDatetime v) := by
  obtain ⟨b, bs, hencodes, hlen, hne, h6, h4, h2, hread⟩ := unsignedTime_spec (Or.inr rfl) hv
  refine ⟨b :: bs, hencodes, hlen, readBack_cons fun buf dataLen pos _ hholds hroom => ?_⟩
  rw [deserializeValue, if_neg hne]
  simp only [h6, h4, h2, hread buf dataLen pos hholds hroom]
  rfl

theorem encodeUnsignedTime_negative (type : Byte) (hv : v.slt 0 = true)
    (room : Int) : encodeUnsignedTime type v room = .error .error := by
  rw [encodeUnsignedTime, if_pos (Or.inr hv)]

theorem strFirstByte_spec (hcode : code < 64) : let b := varcharType ||| BitVec.ofNat 8 code
    b ≠ extendType ∧ ((b &&& 0xc0) >>> 6).toNat = 2 ∧ (b &&& varcharLenMask).toNat = code := by
  revert code
  decide

theorem decodeStr_holds (hlen : len < 2 ^ 31)
    (hcode : StrCode len n code) (hmask : (b &&& varcharLenMask).toNat = code)
    (hholds : Holds buf pos (leBytes n (BitVec.ofNat 64 len))) (hdata : 0 ≤ dataLen)
    (hroom : pos + n + len ≤ dataLen) :
    (decodeStr buf dataLen b pos).result = .ok ((pos + n, BitVec.ofNat 32 len), pos + n + len) := by
  have hval : (BitVec.ofNat 64 len).toNat = len := by
    rw [BitVec.toNat_ofNat]
    omega
  have hint : (BitVec.ofNat 64 len).toInt = len := by
    rw [BitVec.toInt_eq_toNat_of_lt (by omega), hval]
  have hwidth : (BitVec.ofNat 64 len).setWidth 32 = BitVec.ofNat 32 len := by
    apply BitVec.eq_of_toNat_eq
    simp
  rw [decodeStr, if_neg (by omega)]
  simp only [hmask]
  obtain ⟨rfl, hle, rfl⟩ | ⟨hpos, hle, hlt, rfl⟩ := hcode
  · rw [if_pos hle]
    simp only [hint]
    rw [if_pos (by omega), hwidth, Int.natCast_zero, Int.add_zero]
    rfl
  have hbytes := bytesAt_of_holds hholds
  rw [length_leBytes] at hbytes
  rw [if_neg (by omega), Nat.add_sub_cancel_left, decodeUintLoop_ok buf 0 0 (by omega), hbytes,
    leValue_leBytes (by rw [hval]; exact hlt), Nat.mul_zero, BitVec.shiftLeft_zero,
    BitVec.ofNat_eq_ofNat, BitVec.zero_or]
  simp only [hint]
  rw [if_pos (by omega), hwidth]
  rfl

theorem toInt_length (s : Varchar) :
    (BitVec.ofNat 32 s.bytes.length).toInt = s.bytes.length := by
  have hs := s.length_lt
  rw [BitVec.toInt_eq_toNat_of_lt (by rw [BitVec.toNat_ofNat]; omega), BitVec.toNat_ofNat]
  omega

theorem varcharAt_holds {s : Varchar} (h : Holds buf pos s.bytes) :
    varcharAt buf pos (BitVec.ofNat 32 s.bytes.length) = s := by
  rw [varcharAt, Varchar.mk.injEq, toInt_length, Int.toNat_natCast]
  exact bytesAt_of_holds h

theorem varchar_spec (s : Varchar) :
    ∃ bs, Encodes (varchar s).serialize bs ∧ (bs.length : Int) = encodedLengthStr s.bytes.length ∧
      ReadBack (varchar s) bs := by
  obtain ⟨n, code, hcode, hlen, hencodes⟩ := encodeStr_spec s.bytes s.length_lt
  have hlt : code < 64 := by
    have hmax : max1BStrLen = 55 := rfl
    obtain ⟨-, hle, rfl⟩ | ⟨-, hle, -, rfl⟩ := hcode
    all_goals omega
  obtain ⟨hne, h6, hmask⟩ := strFirstByte_spec hlt
  refine ⟨_, hencodes, ?_, readBack_cons fun buf dataLen pos hpos hholds hroom => ?_⟩
  · rw [encodedLengthStr, hlen, length_cons, length_append, length_leBytes]
    omega
  rw [holds_append, length_leBytes] at hholds
  rw [length_append, length_leBytes] at hroom ⊢
  rw [deserializeValue, if_neg hne]
  simp only [h6, decodeStr_holds s.length_lt hcode hmask hholds.1 (by omega)
    (show pos + n + s.bytes.length ≤ dataLen by omega), except_ok_bind, varcharAt_holds hholds.2]
  rw [Int.add_assoc]
  rfl

variable (d : ObDecimal)

variable (isAdd : Bool)

/-- The bytes of a decimal behind the first one. -/
def decimalBytes : List Byte :=
  [if isAdd then 1 else 0, d.precision.setWidth 8, d.scale.setWidth 8, d.vscale.setWidth 8,
    BitVec.ofNat 8 d.words.length] ++ d.words.flatMap (viBytes 4)

theorem encodes_encodeWords (words : List (BitVec 32)) :
    Encodes (encodeWords words) (words.flatMap (viBytes 4)) := by
  induction words with
  | nil => exact encodes_nil fun _ => rfl
  | cons word words ih =>
    exact (encodes_encodeVi32 word).andThen ih

theorem decimal_encodes :
    Encodes (decimal d isAdd).serialize (decimalType :: decimalBytes d isAdd) := by
  refine ((encodes_encodeI8s [decimalType, if isAdd then 1 else 0, d.precision.setWidth 8,
    d.scale.setWidth 8, d.vscale.setWidth 8, BitVec.ofNat 8 d.words.length]).andThen
      (encodes_encodeWords d.words)).guard (fun room => room ≤ 0) .invalidArgument
        fun room hroom => ?_
  rw [cons_append, not_fits_cons]
  omega

theorem encodedLengthDecimalType_eq (words : List (BitVec 32)) :
    encodedLengthDecimalType words = 6 + (words.flatMap (viBytes 4)).length := by
  have hfold : ∀ (words : List (BitVec 32)) (init : Nat),
      words.foldl (fun ret word => ret + encodedLengthVi32 word) init =
        init + (words.flatMap (viBytes 4)).length := by
    intro words
    induction words with
    | nil => simp
    | cons word words ih =>
      intro init
      rw [foldl_cons, ih, flatMap_cons, length_append, length_viBytes_32, Nat.add_assoc]
  exact hfold words 6

theorem length_decimalBytes :
    (decimalType :: decimalBytes d isAdd).length = encodedLengthDecimalType d.words := by
  rw [encodedLengthDecimalType_eq, decimalBytes, length_cons, length_append]
  simp only [length_cons, length_nil]
  omega

/-- A decimal is read with all its words, and then refused if they are more than three. -/
theorem deserializeValue_decimal
    (hpos : 0 < pos) (hholds : Holds buf pos (decimalBytes d isAdd))
    (hroom : pos + (decimalBytes d isAdd).length ≤ dataLen) :
    deserializeValue buf dataLen decimalType pos =
      if d.words.length ≤ 3 then .ok (decimal d isAdd, pos + (decimalBytes d isAdd).length)
      else .error .notImplement := by
  have hlen : (decimalBytes d isAdd).length = 5 + (d.words.flatMap (viBytes 4)).length := by
    rw [decimalBytes, length_append]
    rfl
  rw [decimalBytes, holds_append] at hholds
  obtain ⟨⟨hop, hprec, hscale, hvscale, hn, -⟩, hwords⟩ := hholds
  have hnwords : (BitVec.ofNat 8 d.words.length).toInt.toNat = d.words.length := by
    have hle := d.words_le
    rw [BitVec.toInt_eq_toNat_of_lt (by rw [BitVec.toNat_ofNat]; omega), BitVec.toNat_ofNat]
    omega
  have hadd : ((if isAdd then 1 else 0 : Byte) != 0) = isAdd := by cases isAdd <;> rfl
  have hdispatch : deserializeValue buf dataLen decimalType pos =
      (decodeDecimalType buf dataLen pos >>= fun x =>
        decimalOf x.1.1 x.1.2.1 x.1.2.2.1 x.1.2.2.2.1 x.1.2.2.2.2.2 >>= fun obj =>
          .ok (obj, x.2)) := rfl
  rw [hdispatch, decodeDecimalType, if_neg (by omega), decodeI8_holds hop (by omega)]
  simp only [except_ok_bind]
  rw [decodeI8_holds hprec (by omega)]
  simp only [except_ok_bind]
  rw [decodeI8_holds hscale (by omega)]
  simp only [except_ok_bind]
  rw [decodeI8_holds hvscale (by omega)]
  simp only [except_ok_bind]
  rw [decodeI8_holds hn (by omega)]
  simp only [except_ok_bind, hnwords]
  have hfour : pos + ([if isAdd then 1 else 0, d.precision.setWidth 8, d.scale.setWidth 8,
      d.vscale.setWidth 8, BitVec.ofNat 8 d.words.length] : List Byte).length =
      pos + 1 + 1 + 1 + 1 + 1 := by
    simp only [length_cons, length_nil]
    omega
  rw [hfour] at hwords
  rw [decodeWords_holds hwords (by omega)]
  simp only [except_ok_bind, pure, Except.pure, hadd]
  by_cases hle : d.words.length ≤ 3
  · have hprecision : (d.precision.setWidth 8).setWidth 7 = d.precision := by
      rw [BitVec.setWidth_setWidth_of_le _ (by decide), BitVec.setWidth_eq]
    have hscale' : ∀ x : BitVec 6, (x.setWidth 8).setWidth 6 = x := by
      intro x
      rw [BitVec.setWidth_setWidth_of_le _ (by decide), BitVec.setWidth_eq]
    rw [if_pos hle, decimalOf, dif_pos ⟨d.words_pos, hle⟩, except_ok_bind]
    simp only [hprecision, hscale']
    congr 2
    omega
  · rw [if_neg hle, decimalOf, dif_neg (fun h => hle h.2), except_error_bind]

/-! ### The whole of it -/

/-- A time that must not be negative is. -/
def hasNegativeTime : ObObj → Bool
  | modifyTime v => v.slt 0
  | createTime v => v.slt 0
  | _ => false

/-- A decimal that is kept in the object itself. -/
def isShortDecimal : ObObj → Bool
  | decimal d _ => d.words.length ≤ 3
  | _ => false

/-- The sequence type, or a decimal that is kept outside the object. -/
def isUnimplemented : ObObj → Bool
  | seq => true
  | decimal d _ => 3 < d.words.length
  | _ => false

theorem serialize_negativeTime (h : obj.hasNegativeTime = true) (room : Int) :
    obj.serialize room = .error .error := by
  cases obj with
  | modifyTime v => exact encodeUnsignedTime_negative modifytimeType h room
  | createTime v => exact encodeUnsignedTime_negative createtimeType h room
  | _ => exact absurd h (by simp [hasNegativeTime])

/-- Nothing is read as an object of its own. -/
theorem not_readBack_nil : ¬ ReadBack seq [] := by
  intro hread
  have hseq := hread (fun _ => nullType) 1 0 (Int.le_refl 0) trivial (by decide)
  exact absurd hseq (by decide)

theorem decimal_readBack_iff :
    ReadBack (decimal d isAdd) (decimalType :: decimalBytes d isAdd) ↔ d.words.length ≤ 3 := by
  constructor
  · intro hread
    by_contra hlong
    obtain ⟨buf, hholds⟩ := exists_holds 0 (decimalType :: decimalBytes d isAdd)
    have hok := hread buf _ 0 (Int.le_refl 0) hholds (Int.le_refl _)
    rw [length_cons] at hok
    rw [deserialize, decodeI8_holds hholds.1 (by omega)] at hok
    simp only [except_ok_bind] at hok
    rw [deserializeValue_decimal d isAdd (by omega) hholds.2 (by omega), if_neg hlong] at hok
    exact absurd hok (by simp)
  · intro hle
    refine readBack_cons fun buf dataLen pos hpos hholds hroom => ?_
    rw [deserializeValue_decimal d isAdd hpos hholds hroom, if_pos hle]

theorem encodedLengthDecimalType_take_lt :
    encodedLengthDecimalType (d.words.take (d.words.length - 1)) <
      encodedLengthDecimalType d.words := by
  have hne : d.words ≠ [] := length_pos_iff.1 d.words_pos
  have hsplit := dropLast_append_getLast hne
  have hlast := length_pos_iff.2 (viBytes_ne_nil 4 (d.words.getLast hne))
  rw [encodedLengthDecimalType_eq, encodedLengthDecimalType_eq, ← dropLast_eq_take]
  conv_rhs => rw [← hsplit]
  rw [flatMap_append, length_append, flatMap_singleton]
  omega

theorem serialize_spec (h : obj.hasNegativeTime = false) :
    ∃ bs, Encodes obj.serialize bs ∧
      ((bs.length : Int) = obj.getSerializeSize ↔ obj.isShortDecimal = false) ∧
      (ReadBack obj bs ↔ obj.isUnimplemented = false) := by
  -- all types but two are measured and read back as they should be
  have hplain : ∀ {size : Nat}, obj.Codes size → (size : Int) = obj.getSerializeSize →
      obj.isShortDecimal = false → obj.isUnimplemented = false → ∃ bs, Encodes obj.serialize bs ∧
        ((bs.length : Int) = obj.getSerializeSize ↔ obj.isShortDecimal = false) ∧
        (ReadBack obj bs ↔ obj.isUnimplemented = false) := by
    rintro size ⟨bs, hencodes, rfl, hread⟩ hlen hshort hunimplemented
    exact ⟨bs, hencodes, iff_of_true hlen hshort, iff_of_true hread hunimplemented⟩
  cases obj with
  | null => exact hplain ⟨_, null_spec.1, rfl, null_spec.2⟩ rfl rfl rfl
  | int v isAdd => exact hplain (int_spec v isAdd) rfl rfl rfl
  | float v isAdd => exact hplain (float_spec v isAdd) rfl rfl rfl
  | double v isAdd => exact hplain (double_spec v isAdd) rfl rfl rfl
  | dateTime v isAdd => exact hplain (dateTime_spec v isAdd) rfl rfl rfl
  | preciseDateTime v isAdd => exact hplain (preciseDateTime_spec v isAdd) rfl rfl rfl
  | varchar s =>
    obtain ⟨bs, hencodes, hlen, hread⟩ := varchar_spec s
    exact hplain ⟨bs, hencodes, rfl, hread⟩ hlen rfl rfl
  | seq =>
    refine ⟨[], encodes_nil fun _ => rfl, iff_of_true rfl rfl,
      iff_of_false not_readBack_nil (by decide)⟩
  | createTime v => exact hplain (createTime_spec h) rfl rfl rfl
  | modifyTime v => exact hplain (modifyTime_spec h) rfl rfl rfl
  | extend v => exact hplain (extend_spec v) rfl rfl rfl
  | bool v => exact hplain ⟨_, (bool_spec v).1, rfl, (bool_spec v).2⟩ rfl rfl rfl
  | decimal d isAdd =>
    refine ⟨decimalType :: decimalBytes d isAdd, decimal_encodes d isAdd, ?_, ?_⟩
    · have htake := encodedLengthDecimalType_take_lt d
      rw [length_decimalBytes, getSerializeSize, isShortDecimal, decide_eq_false_iff_not]
      split_ifs with hle
      · exact iff_of_false (by omega) (not_not_intro hle)
      · exact iff_of_true rfl hle
    · rw [decimal_readBack_iff, isUnimplemented, decide_eq_false_iff_not, Nat.not_lt]

/-- The bytes of every object that `serialize` accepts are read back as the object, whatever follows
them, unless it has the sequence type, of which nothing is written, or is a decimal of more than
three words, of which the reader is not implemented. -/
theorem deserialize_serialize_iff (obj : ObObj) {room : Int} {bs : List Byte}
    (h : obj.serialize room = .ok bs) : ReadBack obj bs ↔ obj.isUnimplemented = false := by
  have hnegative : obj.hasNegativeTime = false := by
    refine Bool.eq_false_iff.2 fun hneg => ?_
    rw [serialize_negativeTime hneg room] at h
    exact absurd h (by simp)
  obtain ⟨cs, hencodes, -, hread⟩ := serialize_spec hnegative
  rwa [hencodes.eq_of_ok h]

theorem deserialize_serialize_minInt :
    (int (BitVec.intMin 64) true).serialize 9 = .ok (fastEncode (BitVec.intMin 64) true) ∧
      ReadBack (int (BitVec.intMin 64) true) (fastEncode (BitVec.intMin 64) true) := by
  have hok : (int (BitVec.intMin 64) true).serialize 9 =
      .ok (fastEncode (BitVec.intMin 64) true) := by decide
  exact ⟨hok, (deserialize_serialize_iff _ hok).2 rfl⟩

/-- A sequence object is written as nothing at all, and what follows is read in its place. -/
theorem not_readBack_seq :
    seq.serialize 1 = .ok [] ∧ deserialize (fun _ => nullType) 1 0 = .ok (null, 1) ∧
      ¬ ReadBack seq [] :=
  ⟨rfl, by decide, not_readBack_nil⟩

/-- A buffer of the size that `get_serialize_size` counts, or a longer one, is filled up to that
size. -/
def SizeExact (obj : ObObj) : Prop :=
  ∀ room : Int, obj.getSerializeSize ≤ room →
    ∃ bs, obj.serialize room = .ok bs ∧ (bs.length : Int) = obj.getSerializeSize

/-- `get_serialize_size` counts what `serialize` writes, unless `serialize` refuses the object for
a negative time, or it is a decimal of at most three words, of which the last is not counted. -/
theorem getSerializeSize_iff (obj : ObObj) :
    SizeExact obj ↔ obj.hasNegativeTime = false ∧ obj.isShortDecimal = false := by
  constructor
  · intro hexact
    have hnegative : obj.hasNegativeTime = false := by
      refine Bool.eq_false_iff.2 fun hneg => ?_
      obtain ⟨bs, hok, -⟩ := hexact obj.getSerializeSize (Int.le_refl _)
      rw [serialize_negativeTime hneg] at hok
      exact absurd hok (by simp)
    obtain ⟨cs, hencodes, hsize, -⟩ := serialize_spec hnegative
    obtain ⟨bs, hok, hlen⟩ := hexact obj.getSerializeSize (Int.le_refl _)
    rw [hencodes.eq_of_ok hok] at hlen
    exact ⟨hnegative, hsize.1 hlen⟩
  · rintro ⟨hnegative, hshort⟩ room hroom
    obtain ⟨bs, hencodes, hsize, -⟩ := serialize_spec hnegative
    have hlen := hsize.2 hshort
    exact ⟨bs, (hencodes room).1 (Or.inl (by omega)), hlen⟩

/-- A decimal of one word is counted as six bytes, and does not go into them. -/
theorem not_sizeExact_oneWord :
    (decimal ⟨38, 0, 0, [7], by decide, by decide⟩ false).getSerializeSize = 6 ∧
      (decimal ⟨38, 0, 0, [7], by decide, by decide⟩ false).serialize 6 = .error .error ∧
      ¬ SizeExact (decimal ⟨38, 0, 0, [7], by decide, by decide⟩ false) := by
  refine ⟨by decide, by decide, fun hexact => ?_⟩
  obtain ⟨bs, hok, -⟩ := hexact 6 (by decide)
  have herror : (decimal ⟨38, 0, 0, [7], by decide, by decide⟩ false).serialize 6 =
      .error .error := by decide
  rw [herror] at hok
  exact absurd hok (by simp)

end ObObj

end OceanBase.Common
