import OceanBase.Lib.Bytes
import OceanBase.Common.Define

/-!
# Encoded numbers and strings (`serialization.h`)

An encoder gets the room that is left in the buffer and yields the bytes it appends. A decoder gets
the memory behind `buf`, `data_len` and `pos`; what it yields includes the offsets it looked at.

The two forms of the decoder of integers agree on every first byte but those with the length code
29, which no encoder writes (`fastDecode_eq_iff`). The other decoders keep inside the data under the
conditions of the theorems `…_safe_iff`.
-/

namespace OceanBase.Common

open Lib List

/-- A character of a buffer. -/
abbrev Byte := BitVec 8

/-- The memory behind `buf`, by offset. -/
abbrev Buf := Int → Byte

/-- What a decoder leaves: its value unless it fails, the new `pos`, and the offsets it has looked
at. -/
structure Decoded (α : Type) where
  ret : Option α
  pos : Int
  reads : List Int
  deriving DecidableEq

/-- The value, unless it fails, and the new `pos`. -/
def Decoded.outcome {α : Type} (d : Decoded α) : Option α × Int := (d.ret, d.pos)

namespace Serialization

/-! ### The encoders -/

/-- `OB_MAX_INT_1B`, `OB_MAX_1B_STR_LEN`, `OB_INT_VALUE_MASK`, `OB_VARCHAR_LEN_MASK`. -/
def maxInt1B : Nat := 23
def max1BStrLen : Nat := 55
def intValueMask : Byte := 0x1f
def varcharLenMask : Byte := 0x3f

def setBit (v : Byte) (pos : Nat) : Byte := v ||| (1 <<< pos)

def testBit (v : Byte) (pos : Nat) : Bool := v.getLsbD pos

def intOperationBitPos : Nat := 6
def intSignBitPos : Nat := 5

variable (val : BitVec 64)

def safeInt64Abs : BitVec 64 :=
  (val ^^^ val.sshiftRight 63) - val.sshiftRight 63

variable (room : Int)

def encodeI8 (val : Byte) : Except Ret (List Byte) :=
  if 1 ≤ room then .ok [val] else .error .error

def encodeUintWithGivenLength (val : BitVec 64) (valLen : Nat) :
    Except Ret (List Byte) :=
  if valLen = 0 ∨ room < valLen then .error .error
  else .ok ((List.range valLen).map fun n => (val >>> (8 * n)).setWidth 8)

def encodedLengthInt : Nat :=
  if (safeInt64Abs val).toNat ≤ maxInt1B then 1
  else if (safeInt64Abs val).toNat ≤ 2 ^ 8 - 1 then 2
  else if (safeInt64Abs val).toNat ≤ 2 ^ 16 - 1 then 3
  else if (safeInt64Abs val).toNat ≤ 2 ^ 24 - 1 then 4
  else if (safeInt64Abs val).toNat ≤ 2 ^ 32 - 1 then 5
  else if (safeInt64Abs val).toNat ≤ 2 ^ 48 - 1 then 7
  else 9

/-- The first byte of an integer, with its sign and whether it is to be added. -/
def intFlags (isAdd : Bool) : Byte :=
  let firstByte : Byte := if val.slt 0 then setBit 0 intSignBitPos else 0
  if isAdd then setBit firstByte intOperationBitPos else firstByte

/-- The bytes `G_INT2B` to `G_INT9B` write: the lowest, and the value shifted down by a byte with
its sign. -/
def fastBytes : Nat → BitVec 64 → List Byte
  | 0, _ => []
  | n + 1, val => val.setWidth 8 :: fastBytes n (val.sshiftRight 8)

def fastEncode (isAdd : Bool) : List Byte :=
  let firstByte := intFlags val isAdd
  let val := if val.slt 0 then -val else val
  if val.toNat ≤ maxInt1B then [firstByte ||| val.setWidth 8]
  else
    let firstByte := firstByte ||| BitVec.ofNat 8 maxInt1B
    if val.toNat ≤ 2 ^ 24 - 1 then
      if val.toNat ≤ 2 ^ 8 - 1 then (firstByte + 1) :: fastBytes 1 val
      else if val.toNat ≤ 2 ^ 16 - 1 then (firstByte + 2) :: fastBytes 2 val
      else (firstByte + 3) :: fastBytes 3 val
    else if val.toNat ≤ 2 ^ 32 - 1 then (firstByte + 4) :: fastBytes 4 val
    else if val.toNat ≤ 2 ^ 48 - 1 then (firstByte + 5) :: fastBytes 6 val
    else (firstByte + 7) :: fastBytes 8 val

def encodeIntSafe (val : BitVec 64) (isAdd : Bool) : Except Ret (List Byte) :=
  let len := encodedLengthInt val
  if room < len then .error .error
  else
    let firstByte := intFlags val isAdd
    let v := safeInt64Abs val
    let firstByte :=
      if v.toNat ≤ maxInt1B then firstByte ||| v.setWidth 8
      else
        let tmpLen := if len = 7 ∨ len = 9 then len - 1 else len
        firstByte ||| BitVec.ofNat 8 (tmpLen - 1 + maxInt1B)
    (encodeI8 room firstByte).bind fun first =>
      if 0 < len - 1 then
        (encodeUintWithGivenLength (room - 1) v (len - 1)).map (first ++ ·)
      else .ok first

def encodeInt (val : BitVec 64) (isAdd : Bool) : Except Ret (List Byte) :=
  if 10 ≤ room then .ok (fastEncode val isAdd) else encodeIntSafe room val isAdd

/-! ### The decoders -/

variable (buf : Buf) (dataLen : Int) {n : Nat}

section Decoders

def decodeI8 (pos : Int) : Decoded Byte :=
  if 1 ≤ dataLen - pos then ⟨some (buf pos), pos + 1, [pos]⟩ else ⟨none, pos, []⟩

/-- The loop of `__decode_uint_with_given_length` from byte `n` on. -/
def decodeUintLoop : Nat → Nat → Int → BitVec 64 → Decoded (BitVec 64)
  | 0, _, tmpPos, v => ⟨some v, tmpPos, []⟩
  | rounds + 1, n, tmpPos, v =>
    match decodeI8 buf dataLen tmpPos with
    | ⟨none, tmpPos, reads⟩ => ⟨none, tmpPos, reads⟩
    | ⟨some tmp, tmpPos, reads⟩ =>
      let rest := decodeUintLoop rounds (n + 1) tmpPos (v ||| (tmp.setWidth 64 <<< (8 * n)))
      ⟨rest.ret, rest.pos, reads ++ rest.reads⟩

def decodeUintWithGivenLength (pos : Int) (valLen : Nat) : Decoded (BitVec 64) :=
  if dataLen - pos < valLen then ⟨none, pos, []⟩
  else
    match decodeUintLoop buf dataLen valLen 0 pos 0 with
    | ⟨some v, tmpPos, reads⟩ => ⟨some v, tmpPos, reads⟩
    | ⟨none, _, reads⟩ => ⟨none, pos, reads⟩

variable (firstByte : Byte)

/-- The value in the first byte of a short integer. -/
def shortInt : BitVec 64 :=
  if testBit firstByte intSignBitPos then -(firstByte &&& intValueMask).setWidth 64
  else (firstByte &&& intValueMask).setWidth 64

/-- The bytes `D_INT9B` to `D_INT2B` read, from the last down. -/
def fastValue (pos : Int) : Nat → BitVec 64 → BitVec 64
  | 0, val => val
  | 1, val => val ||| (buf pos).setWidth 64
  | n + 2, val => fastValue pos (n + 1) ((val ||| (buf (pos + (n + 1))).setWidth 64) <<< 8)

/-- The number of bytes that `fast_decode` takes for a length code. -/
def fastLen (lenOrValue : Nat) : Nat :=
  if lenOrValue ≤ maxInt1B + 3 then
    if lenOrValue = maxInt1B + 1 then 1 else if lenOrValue = maxInt1B + 2 then 2 else 3
  else if lenOrValue = maxInt1B + 4 then 4
  else if lenOrValue = maxInt1B + 5 then 6
  else 8

/-- The offsets of `n` bytes. -/
def offsets (pos : Int) : Nat → List Int
  | 0 => []
  | n + 1 => pos :: offsets (pos + 1) n

variable (pos : Int)

/-- `fast_decode`, with the add flag. -/
def fastDecode : Decoded (BitVec 64 × Bool) :=
  let isAdd := testBit firstByte intOperationBitPos
  let lenOrValue := (firstByte &&& intValueMask).toNat
  if lenOrValue ≤ maxInt1B then ⟨some (shortInt firstByte, isAdd), pos, []⟩
  else
    let val := fastValue buf pos (fastLen lenOrValue) 0
    ⟨some (if testBit firstByte intSignBitPos then -val else val, isAdd),
      pos + fastLen lenOrValue, (offsets pos (fastLen lenOrValue)).reverse⟩

/-- The number of bytes that `decode_int_safe` takes for a length code. -/
def safeLen (lenOrValue : Nat) : Nat :=
  if lenOrValue - maxInt1B = 5 ∨ lenOrValue - maxInt1B = 7 then lenOrValue - maxInt1B + 1
  else lenOrValue - maxInt1B

/-- `decode_int_safe`, with the add flag. -/
def decodeIntSafe : Decoded (BitVec 64 × Bool) :=
  if dataLen - pos < 0 then ⟨none, pos, []⟩
  else
    let isAdd := testBit firstByte intOperationBitPos
    let lenOrValue := (firstByte &&& intValueMask).toNat
    if lenOrValue ≤ maxInt1B then ⟨some (shortInt firstByte, isAdd), pos, []⟩
    else
      match decodeUintWithGivenLength buf dataLen pos (safeLen lenOrValue) with
      | ⟨some uv, pos, reads⟩ =>
        ⟨some (if testBit firstByte intSignBitPos then -uv else uv, isAdd), pos, reads⟩
      | ⟨none, pos, reads⟩ => ⟨none, pos, reads⟩

def decodeInt : Decoded (BitVec 64 × Bool) :=
  if 9 ≤ dataLen - pos then fastDecode buf firstByte pos
  else decodeIntSafe buf dataLen firstByte pos

/-- The loop of `decode_vi32` and `decode_vi64` and what follows it. It reads the byte before it
compares the offset with `data_len`. The shift of a group behind the width of the number, which is
undefined in the source, gives zeros here. -/
def decodeViLoop (w : Nat) (pos : Int) : Nat → Int → BitVec w → Nat → Decoded (BitVec w)
  | 0, tmpPos, v, shift =>
    if dataLen - tmpPos < 1 then ⟨none, pos, [tmpPos]⟩
    else ⟨some (v ||| ((low7 (buf tmpPos)).setWidth w <<< shift)), tmpPos + 1, [tmpPos]⟩
  | rounds + 1, tmpPos, v, shift =>
    if more (buf tmpPos) then
      if dataLen - tmpPos < 1 then ⟨none, pos, [tmpPos]⟩
      else
        let rest := decodeViLoop w pos rounds (tmpPos + 1)
          (v ||| ((low7 (buf tmpPos)).setWidth w <<< shift)) (shift + 7)
        ⟨rest.ret, rest.pos, tmpPos :: rest.reads⟩
    else if dataLen - tmpPos < 1 then ⟨none, pos, [tmpPos]⟩
    else ⟨some (v ||| ((low7 (buf tmpPos)).setWidth w <<< shift)), tmpPos + 1, [tmpPos]⟩

/-- `decode_vi32` and `decode_vi64`: the loop ends when the data does. -/
def decodeVi (w : Nat) (pos : Int) : Decoded (BitVec w) :=
  decodeViLoop buf dataLen w pos ((dataLen - pos).toNat + 1) pos 0 0

def decodeVi32 : Decoded (BitVec 32) := decodeVi buf dataLen 32 pos

def decodeVi64 : Decoded (BitVec 64) := decodeVi buf dataLen 64 pos

/-- The two forms of `decode_vstr`, of which one copies the string to a buffer that may be too
short: the offset of the string and its length. -/
def decodeVstrWith (limit : Option Int) (pos : Int) : Decoded (Int × Int) :=
  if dataLen < 0 ∨ pos < 0 ∨ limit.any (· < 0) then ⟨none, pos, []⟩
  else
    match decodeVi64 buf dataLen pos with
    | ⟨none, _, reads⟩ => ⟨none, pos, reads⟩
    | ⟨some tmpLen, tmpPos, reads⟩ =>
      if limit.any (· < tmpLen.toInt) then ⟨none, pos, reads⟩
      else if 0 ≤ tmpLen.toInt ∧ tmpLen.toInt ≤ dataLen - tmpPos then
        ⟨some (tmpPos, tmpLen.toInt), tmpPos + (tmpLen.toInt + 1),
          reads ++ if limit.isSome then offsets tmpPos tmpLen.toInt.toNat else []⟩
      else ⟨none, pos, reads⟩

def decodeVstr : Decoded (Int × Int) := decodeVstrWith buf dataLen none pos

/-- `decode_vstr` into a buffer of `buf_len` bytes. -/
def decodeVstrInto (bufLen : Int) (pos : Int) : Decoded (Int × Int) :=
  decodeVstrWith buf dataLen (some bufLen) pos

/-- `decode_str`: the offset of the string and its length. Its loop over the bytes of the length is
that of `__decode_uint_with_given_length`, but moves `pos` itself. -/
def decodeStr : Decoded (Int × BitVec 32) :=
  if dataLen < 0 then ⟨none, pos, []⟩
  else
    let lenOrValue := (firstByte &&& varcharLenMask).toNat
    match
      if lenOrValue ≤ max1BStrLen then ⟨some (BitVec.ofNat 64 lenOrValue), pos, []⟩
      else decodeUintLoop buf dataLen (lenOrValue - max1BStrLen) 0 pos 0 with
    | ⟨none, pos, reads⟩ => ⟨none, pos, reads⟩
    | ⟨some strLen, pos, reads⟩ =>
      if 0 ≤ strLen.toInt ∧ strLen.toInt ≤ dataLen - pos then
        ⟨some (pos, strLen.setWidth 32), pos + strLen.toInt, reads⟩
      else ⟨none, pos, reads⟩

end Decoders

/-! ### Integers -/

theorem sshiftRight_63 (val : BitVec 64) :
    val.sshiftRight 63 = if val.slt 0 then BitVec.allOnes 64 else 0#64 := by
  have hmsb : val.slt 0 = val.msb := BitVec.slt_zero_eq_msb
  have hlast := BitVec.msb_eq_getLsbD_last val
  apply BitVec.eq_of_getLsbD_eq
  intro i hi
  rw [hmsb, BitVec.getLsbD_sshiftRight]
  obtain rfl | h0 := Nat.eq_zero_or_pos i
  · rcases h : val.msb with _ | _
    all_goals simpa [h] using hlast.symm
  have hlt : ¬ 63 + i < 64 := by omega
  rcases h : val.msb with _ | _
  · simp [hlt]
  · rw [if_pos rfl, BitVec.getLsbD_allOnes]
    simp [hlt, hi]

theorem safeInt64Abs_eq (val : BitVec 64) : safeInt64Abs val = if val.slt 0 then -val else val := by
  rw [safeInt64Abs, sshiftRight_63]
  split_ifs with h
  · rw [BitVec.xor_allOnes, BitVec.neg_eq_not_add, BitVec.sub_eq_add_neg]
    rfl
  · rw [BitVec.xor_zero, BitVec.sub_zero]

theorem fastBytes_eq_map (n : Nat) (val : BitVec 64) :
    fastBytes n val = (List.range n).map fun i => (val.sshiftRight (8 * i)).setWidth 8 := by
  induction n generalizing val with
  | zero => rfl
  | succ n ih =>
    rw [fastBytes, ih, range_succ_eq_map, map_cons, map_map]
    congr 1
    · simp
    refine map_congr_left fun i _ => ?_
    simp only [Function.comp_apply]
    rw [← BitVec.sshiftRight_add, Nat.mul_succ, Nat.add_comm 8]

/-- The sign that the shifts bring in stays above the bytes that are written. -/
theorem fastBytes_eq (hn : n ≤ 8) (val : BitVec 64) : fastBytes n val = leBytes n val := by
  rw [fastBytes_eq_map, leBytes_eq_map]
  refine map_congr_left fun i hi => ?_
  have hi' := mem_range.1 hi
  apply BitVec.eq_of_getLsbD_eq
  intro j hj
  have hbit : 8 * i + j < 64 := by omega
  have hj' : ¬ 64 ≤ j := by omega
  simp [BitVec.getLsbD_sshiftRight, hbit, hj']

variable {room : Int}

theorem encodeUintWithGivenLength_eq (val : BitVec 64) (hn : n ≠ 0)
    (h : (n : Int) ≤ room) : encodeUintWithGivenLength room val n = .ok (leBytes n val) := by
  rw [encodeUintWithGivenLength, if_neg (by omega), leBytes_eq_map]

/-- The first byte of an integer of more than one byte, in the two forms. -/
theorem intFlags_or_add (val : BitVec 64) (isAdd : Bool) {k : Nat} (hk : k ≤ 7) :
    (intFlags val isAdd ||| BitVec.ofNat 8 maxInt1B) + BitVec.ofNat 8 k =
      intFlags val isAdd ||| BitVec.ofNat 8 (k + maxInt1B) := by
  rw [intFlags]
  generalize val.slt 0 = neg
  revert neg isAdd k
  decide

variable {val : BitVec 64}

theorem encodeIntSafe_short (hv : (safeInt64Abs val).toNat ≤ maxInt1B)
    (isAdd : Bool) (hroom : 1 ≤ room) :
    encodeIntSafe room val isAdd =
      .ok [intFlags val isAdd ||| BitVec.ofNat 8 (safeInt64Abs val).toNat] := by
  have hlen : encodedLengthInt val = 1 := if_pos hv
  simp only [encodeIntSafe, hlen]
  rw [if_neg (by omega), if_pos hv, encodeI8, if_pos hroom]
  rfl

theorem encodeIntSafe_long {code : Nat} (hlen : encodedLengthInt val = n + 1)
    (hv : ¬ (safeInt64Abs val).toNat ≤ maxInt1B) (hn : n ≠ 0)
    (hcode : (if n + 1 = 7 ∨ n + 1 = 9 then n + 1 - 1 else n + 1) - 1 + maxInt1B = code)
    (isAdd : Bool) (hroom : (n : Int) + 1 ≤ room) :
    encodeIntSafe room val isAdd =
      .ok ((intFlags val isAdd ||| BitVec.ofNat 8 code) :: leBytes n (safeInt64Abs val)) := by
  simp only [encodeIntSafe, hlen]
  rw [if_neg (by omega), if_neg hv, hcode, encodeI8, if_pos (by omega)]
  simp only [Except.bind]
  rw [if_pos (by omega), Nat.add_sub_cancel, encodeUintWithGivenLength_eq _ hn (by omega)]
  rfl

/-- The number of bytes behind the first one, and the code for it in the first byte. -/
def IntCode (v : BitVec 64) (n : Nat) (code : Nat) : Prop :=
  n = 0 ∧ v.toNat ≤ maxInt1B ∧ code = v.toNat ∨
    v.toNat < 2 ^ (8 * n) ∧ (n, code) ∈ [(1, 24), (2, 25), (3, 26), (4, 27), (6, 28), (8, 30)]

/-- The classes of longer integers, by the number of bytes: `k` is what the class adds to the first
byte. -/
theorem fastEncode_long (hv : ¬ (safeInt64Abs val).toNat ≤ maxInt1B) :
    ∃ n k, (safeInt64Abs val).toNat < 2 ^ (8 * n) ∧
      (n, k) ∈ [(1, 1), (2, 2), (3, 3), (4, 4), (6, 5), (8, 7)] ∧ encodedLengthInt val = n + 1 ∧
      ∀ isAdd, fastEncode val isAdd =
        ((intFlags val isAdd ||| BitVec.ofNat 8 maxInt1B) + BitVec.ofNat 8 k) ::
          fastBytes n (safeInt64Abs val) := by
  simp only [fastEncode, ← safeInt64Abs_eq, encodedLengthInt, if_neg hv]
  generalize safeInt64Abs val = a at *
  by_cases h1 : a.toNat ≤ 2 ^ 8 - 1
  · have h3 : a.toNat ≤ 2 ^ 24 - 1 := Nat.le_trans h1 (by decide)
    exact ⟨1, 1, by omega, by simp, if_pos h1, fun _ => by rw [if_pos h3, if_pos h1]; rfl⟩
  rw [if_neg h1]
  by_cases h2 : a.toNat ≤ 2 ^ 16 - 1
  · have h3 : a.toNat ≤ 2 ^ 24 - 1 := Nat.le_trans h2 (by decide)
    exact ⟨2, 2, by omega, by simp, if_pos h2,
      fun _ => by rw [if_pos h3, if_neg h1, if_pos h2]; rfl⟩
  rw [if_neg h2]
  by_cases h3 : a.toNat ≤ 2 ^ 24 - 1
  · exact ⟨3, 3, by omega, by simp, if_pos h3,
      fun _ => by rw [if_pos h3, if_neg h1, if_neg h2]; rfl⟩
  rw [if_neg h3]
  by_cases h4 : a.toNat ≤ 2 ^ 32 - 1
  · exact ⟨4, 4, by omega, by simp, if_pos h4, fun _ => by rw [if_neg h3, if_pos h4]; rfl⟩
  rw [if_neg h4]
  by_cases h5 : a.toNat ≤ 2 ^ 48 - 1
  · exact ⟨6, 5, by omega, by simp, if_pos h5,
      fun _ => by rw [if_neg h3, if_neg h4, if_pos h5]; rfl⟩
  · exact ⟨8, 7, a.isLt, by simp, if_neg h5, fun _ => by rw [if_neg h3, if_neg h4, if_neg h5]; rfl⟩

/-- What both encoders write: a first byte with the code, and the absolute value. -/
theorem encodeInt_spec (val : BitVec 64) :
    ∃ n code, IntCode (safeInt64Abs val) n code ∧ encodedLengthInt val = n + 1 ∧
      (∀ isAdd, fastEncode val isAdd =
        (intFlags val isAdd ||| BitVec.ofNat 8 code) :: leBytes n (safeInt64Abs val)) ∧
      ∀ (isAdd : Bool) (room : Int), (n : Int) + 1 ≤ room → encodeIntSafe room val isAdd =
        .ok ((intFlags val isAdd ||| BitVec.ofNat 8 code) :: leBytes n (safeInt64Abs val)) := by
  by_cases hv : (safeInt64Abs val).toNat ≤ maxInt1B
  · refine ⟨0, (safeInt64Abs val).toNat, Or.inl ⟨rfl, hv, rfl⟩, if_pos hv, fun isAdd => ?_,
      fun isAdd room hroom => encodeIntSafe_short hv isAdd hroom⟩
    simp only [fastEncode, ← safeInt64Abs_eq]
    rw [if_pos hv]
    rfl
  obtain ⟨n, k, hlt, hmem, hlen, hfast⟩ := fastEncode_long hv
  have hcode : (n, k + maxInt1B) ∈ [(1, 24), (2, 25), (3, 26), (4, 27), (6, 28), (8, 30)] :=
    mem_map_of_mem (f := fun p : Nat × Nat => (p.1, p.2 + maxInt1B)) hmem
  have hclass : n ≠ 0 ∧ n ≤ 8 ∧ k ≤ 7 ∧
      (if n + 1 = 7 ∨ n + 1 = 9 then n + 1 - 1 else n + 1) - 1 + maxInt1B = k + maxInt1B :=
    (by decide : ∀ p ∈ [(1, 1), (2, 2), (3, 3), (4, 4), (6, 5), (8, 7)], p.1 ≠ 0 ∧ p.1 ≤ 8 ∧
      p.2 ≤ 7 ∧ (if p.1 + 1 = 7 ∨ p.1 + 1 = 9 then p.1 + 1 - 1 else p.1 + 1) - 1 + maxInt1B =
        p.2 + maxInt1B) (n, k) hmem
  obtain ⟨hn, hn8, hk, hfirst⟩ := hclass
  refine ⟨n, k + maxInt1B, Or.inr ⟨hlt, hcode⟩, hlen, fun isAdd => ?_, fun isAdd room hroom =>
    encodeIntSafe_long hlen hv hn hfirst isAdd hroom⟩
  rw [hfast, intFlags_or_add val isAdd hk, fastBytes_eq hn8]

theorem encodeIntSafe_eq_fastEncode (val : BitVec 64) (isAdd : Bool)
    (h : (encodedLengthInt val : Int) ≤ room) :
    encodeIntSafe room val isAdd = .ok (fastEncode val isAdd) := by
  obtain ⟨n, code, -, hlen, hfast, hsafe⟩ := encodeInt_spec val
  rw [hsafe isAdd room (by omega), hfast]

section Decoders

variable {dataLen}

variable (pos : Int)

/-- The bytes from an offset on. -/
def bytesAt (n : Nat) : List Byte := (List.range n).map fun i : Nat => buf (pos + i)

theorem bytesAt_succ (n : Nat) :
    bytesAt buf pos (n + 1) = buf pos :: bytesAt buf (pos + 1) n := by
  rw [bytesAt, range_succ_eq_map, map_cons, map_map, bytesAt]
  congr 1
  · simp
  refine map_congr_left fun i _ => ?_
  simp only [Function.comp_apply]
  congr 1
  omega

theorem bytesAt_concat (n : Nat) :
    bytesAt buf pos (n + 1) = bytesAt buf pos n ++ [buf (pos + n)] := by
  rw [bytesAt, range_succ, map_append, bytesAt]
  rfl

@[simp]
theorem length_bytesAt (n : Nat) : (bytesAt buf pos n).length = n := by
  simp [bytesAt]

variable {n : Nat}

theorem mem_offsets {pos i : Int} : i ∈ offsets pos n ↔ pos ≤ i ∧ i < pos + n := by
  induction n generalizing pos with
  | zero => simp [offsets]
  | succ n ih =>
    rw [offsets, mem_cons, ih]
    omega

theorem lt_of_mem_offsets {pos : Int} (h : pos + n ≤ dataLen) : ∀ i ∈ offsets pos n, i < dataLen :=
  fun _ hi => (mem_offsets.1 hi).2.trans_le h

variable {tmpPos : Int} {rounds : Nat}

theorem decodeUintLoop_ok (n : Nat) (v : BitVec 64) (h : (rounds : Int) ≤ dataLen - tmpPos) :
    decodeUintLoop buf dataLen rounds n tmpPos v =
      ⟨some (v ||| (leValue (bytesAt buf tmpPos rounds) <<< (8 * n))), tmpPos + rounds,
        offsets tmpPos rounds⟩ := by
  induction rounds generalizing n tmpPos v with
  | zero => simp [decodeUintLoop, bytesAt, leValue, offsets]
  | succ rounds ih =>
    rw [decodeUintLoop, decodeI8, if_pos (by omega)]
    simp only
    rw [ih (n + 1) _ (by omega), bytesAt_succ, leValue, offsets]
    congr 1
    · rw [BitVec.shiftLeft_or_distrib, ← BitVec.shiftLeft_add, Nat.mul_succ, Nat.add_comm 8,
        BitVec.or_assoc]
    · push_cast
      omega

theorem decodeUintLoop_error (n : Nat) (v : BitVec 64)
    (h : dataLen - tmpPos < rounds) (hne : rounds ≠ 0 ∨ tmpPos ≤ dataLen) :
    ∃ reads, decodeUintLoop buf dataLen rounds n tmpPos v = ⟨none, max tmpPos dataLen, reads⟩ ∧
      ∀ i ∈ reads, i < dataLen := by
  induction rounds generalizing n tmpPos v with
  | zero => omega
  | succ rounds ih =>
    rw [decodeUintLoop, decodeI8]
    by_cases hroom : 1 ≤ dataLen - tmpPos
    · have hleft : dataLen - (tmpPos + 1) < rounds := by omega
      obtain ⟨reads, hrest, hreads⟩ := ih (n + 1) (v ||| ((buf tmpPos).setWidth 64 <<< (8 * n)))
        hleft (by omega)
      rw [if_pos hroom]
      simp only
      refine ⟨tmpPos :: reads, ?_, ?_⟩
      · rw [hrest]
        simp only [singleton_append, Decoded.mk.injEq, true_and, and_true]
        omega
      intro i hi
      obtain rfl | hi := mem_cons.1 hi
      · omega
      · exact hreads i hi
    · rw [if_neg hroom]
      refine ⟨[], ?_, by simp⟩
      simp only [Decoded.mk.injEq, true_and, and_true]
      omega

variable {pos : Int}

theorem decodeUintWithGivenLength_ok (h : (n : Int) ≤ dataLen - pos) :
    decodeUintWithGivenLength buf dataLen pos n =
      ⟨some (leValue (bytesAt buf pos n)), pos + n, offsets pos n⟩ := by
  rw [decodeUintWithGivenLength, if_neg (by omega), decodeUintLoop_ok buf 0 0 h]
  simp

/-- Bytes from the highest down make the same number as bytes from the lowest up. -/
theorem fastValue_eq (pos : Int) (n : Nat) (val : BitVec 64) :
    fastValue buf pos (n + 1) val = leValue (bytesAt buf pos (n + 1)) ||| (val <<< (8 * n)) := by
  induction n generalizing val with
  | zero => simp [fastValue, bytesAt, leValue, BitVec.or_comm]
  | succ n ih =>
    rw [fastValue, ih, bytesAt_concat buf pos (n + 1), leValue_concat, length_bytesAt,
      ← BitVec.shiftLeft_add, BitVec.shiftLeft_or_distrib, Nat.mul_succ, Nat.add_comm 8,
      BitVec.or_assoc, BitVec.or_comm (val <<< _)]
    rfl

variable {firstByte : Byte} {reads : List Int}

theorem fastDecode_long (pos : Int) (h : ¬ (firstByte &&& intValueMask).toNat ≤ maxInt1B)
    (hn : fastLen (firstByte &&& intValueMask).toNat = n + 1) :
    fastDecode buf firstByte pos =
      ⟨some (if testBit firstByte intSignBitPos then -leValue (bytesAt buf pos (n + 1))
          else leValue (bytesAt buf pos (n + 1)), testBit firstByte intOperationBitPos),
        pos + (n + 1 : Nat), (offsets pos (n + 1)).reverse⟩ := by
  simp only [fastDecode, if_neg h, hn]
  rw [fastValue_eq, BitVec.ofNat_eq_ofNat, BitVec.zero_shiftLeft, BitVec.or_zero]

theorem decodeIntSafe_long (h : ¬ (firstByte &&& intValueMask).toNat ≤ maxInt1B)
    (hn : safeLen (firstByte &&& intValueMask).toNat = n) (hroom : (n : Int) ≤ dataLen - pos) :
    decodeIntSafe buf dataLen firstByte pos =
      ⟨some (if testBit firstByte intSignBitPos then -leValue (bytesAt buf pos n)
          else leValue (bytesAt buf pos n), testBit firstByte intOperationBitPos),
        pos + n, offsets pos n⟩ := by
  simp only [decodeIntSafe, if_neg h, hn, decodeUintWithGivenLength_ok buf hroom]
  rw [if_neg (by omega)]

theorem fastDecode_short (pos : Int) (h : (firstByte &&& intValueMask).toNat ≤ maxInt1B) :
    fastDecode buf firstByte pos =
      ⟨some (shortInt firstByte, testBit firstByte intOperationBitPos), pos, []⟩ := by
  simp only [fastDecode, if_pos h]

theorem decodeIntSafe_short
    (h : (firstByte &&& intValueMask).toNat ≤ maxInt1B) (hroom : 0 ≤ dataLen - pos) :
    decodeIntSafe buf dataLen firstByte pos =
      ⟨some (shortInt firstByte, testBit firstByte intOperationBitPos), pos, []⟩ := by
  simp only [decodeIntSafe, if_pos h]
  rw [if_neg (by omega)]

theorem decodeIntSafe_error (h : ¬ (firstByte &&& intValueMask).toNat ≤ maxInt1B)
    (hroom : dataLen - pos < safeLen (firstByte &&& intValueMask).toNat) :
    decodeIntSafe buf dataLen firstByte pos = ⟨none, pos, []⟩ := by
  simp only [decodeIntSafe, if_neg h, decodeUintWithGivenLength, if_pos hroom, ite_self]

/-- The two forms of the decoder take the same number of bytes for all length codes but one. -/
theorem fastLen_eq_safeLen_iff (firstByte : Byte)
    (h : ¬ (firstByte &&& intValueMask).toNat ≤ maxInt1B) :
    fastLen (firstByte &&& intValueMask).toNat = safeLen (firstByte &&& intValueMask).toNat ↔
      firstByte &&& intValueMask ≠ 29 := by
  revert firstByte
  decide

theorem fastLen_pos (lenOrValue : Nat) : 0 < fastLen lenOrValue := by
  rw [fastLen]
  split_ifs <;> omega

theorem fastLen_le (lenOrValue : Nat) : fastLen lenOrValue ≤ 8 := by
  rw [fastLen]
  split_ifs <;> omega

theorem safeLen_le (firstByte : Byte) : safeLen (firstByte &&& intValueMask).toNat ≤ 8 := by
  revert firstByte
  decide

/-- The two forms of the decoder agree but on the length code 29. -/
theorem fastDecode_outcome_eq_iff (firstByte : Byte) (hroom : 9 ≤ dataLen - pos) :
    (fastDecode buf firstByte pos).outcome = (decodeIntSafe buf dataLen firstByte pos).outcome ↔
      firstByte &&& intValueMask ≠ 29 := by
  by_cases h : (firstByte &&& intValueMask).toNat ≤ maxInt1B
  · rw [fastDecode_short buf pos h, decodeIntSafe_short buf h (by omega)]
    refine iff_of_true rfl fun h29 => ?_
    rw [h29] at h
    exact absurd h (by decide)
  obtain ⟨n, hn⟩ := Nat.exists_eq_succ_of_ne_zero
    (Nat.ne_of_gt (fastLen_pos (firstByte &&& intValueMask).toNat))
  have hle := safeLen_le firstByte
  rw [fastDecode_long buf pos h hn, decodeIntSafe_long buf h rfl (by omega),
    ← fastLen_eq_safeLen_iff firstByte h, hn]
  constructor
  · intro heq
    have hpos := congrArg Prod.snd heq
    simp only [Decoded.outcome] at hpos
    omega
  · intro heq
    rw [← heq]
    rfl

/-- With the same length a success of `decode_int` does not depend on what follows. -/
theorem decodeInt_ok (h : ¬ (firstByte &&& intValueMask).toNat ≤ maxInt1B)
    (hn : safeLen (firstByte &&& intValueMask).toNat = n) (hcode : firstByte &&& intValueMask ≠ 29)
    (hroom : (n : Int) ≤ dataLen - pos) :
    (decodeInt buf dataLen firstByte pos).outcome =
      (some (if testBit firstByte intSignBitPos then -leValue (bytesAt buf pos n)
          else leValue (bytesAt buf pos n), testBit firstByte intOperationBitPos), pos + n) := by
  by_cases h9 : 9 ≤ dataLen - pos
  · rw [decodeInt, if_pos h9, (fastDecode_outcome_eq_iff buf firstByte h9).2 hcode,
      decodeIntSafe_long buf h hn hroom]
    rfl
  · rw [decodeInt, if_neg h9, decodeIntSafe_long buf h hn hroom]
    rfl

theorem decodeInt_short
    (h : (firstByte &&& intValueMask).toNat ≤ maxInt1B) (hroom : 0 ≤ dataLen - pos) :
    decodeInt buf dataLen firstByte pos =
      ⟨some (shortInt firstByte, testBit firstByte intOperationBitPos), pos, []⟩ := by
  rw [decodeInt, fastDecode_short buf pos h, decodeIntSafe_short buf h hroom, ite_self]

theorem decodeInt_room (h : (decodeInt buf dataLen firstByte pos).ret ≠ none) :
    0 ≤ dataLen - pos ∧ ((firstByte &&& intValueMask).toNat ≤ maxInt1B ∨
      safeLen (firstByte &&& intValueMask).toNat ≤ dataLen - pos) := by
  by_contra hroom
  have hle := safeLen_le firstByte
  refine h ?_
  rw [decodeInt, if_neg (by omega)]
  by_cases hneg : dataLen - pos < 0
  · rw [decodeIntSafe, if_pos hneg]
  · rw [decodeIntSafe_error buf (by omega) (by omega)]

theorem decodeInt_pos_of_none (h : (decodeInt buf dataLen firstByte pos).ret = none) :
    decodeInt buf dataLen firstByte pos = ⟨none, pos, []⟩ := by
  by_cases h9 : 9 ≤ dataLen - pos
  · rw [decodeInt, if_pos h9, fastDecode] at h
    split_ifs at h
  rw [decodeInt, if_neg h9] at h ⊢
  by_cases hneg : dataLen - pos < 0
  · rw [decodeIntSafe, if_pos hneg]
  by_cases hshort : (firstByte &&& intValueMask).toNat ≤ maxInt1B
  · rw [decodeIntSafe_short buf hshort (by omega)] at h
    exact absurd h (Option.some_ne_none _)
  by_cases hroom : dataLen - pos < safeLen (firstByte &&& intValueMask).toNat
  · exact decodeIntSafe_error buf hshort hroom
  · rw [decodeIntSafe_long buf hshort rfl (by omega)] at h
    exact absurd h (Option.some_ne_none _)

/-- The two encoders of integers write the same bytes. The decoders agree where both are allowed,
and `decode_int` gives one outcome whatever follows the number, but for the length code 29, of which
`fast_decode` takes eight bytes and `decode_int_safe` six. -/
theorem intCodec_slack_iff (buf : Buf) (firstByte : Byte) (pos : Int) :
    (∀ val isAdd room, (encodedLengthInt val : Int) ≤ room →
      encodeIntSafe room val isAdd = .ok (fastEncode val isAdd)) ∧
    (∀ dataLen, (decodeInt buf dataLen firstByte pos).ret = none →
      (decodeInt buf dataLen firstByte pos).pos = pos) ∧
    (∀ dataLen, 9 ≤ dataLen - pos →
      ((fastDecode buf firstByte pos).outcome = (decodeIntSafe buf dataLen firstByte pos).outcome ↔
        firstByte &&& intValueMask ≠ 29)) ∧
    ((∀ dataLen dataLen', (decodeInt buf dataLen firstByte pos).ret ≠ none →
        (decodeInt buf dataLen' firstByte pos).ret ≠ none →
        (decodeInt buf dataLen firstByte pos).outcome =
          (decodeInt buf dataLen' firstByte pos).outcome) ↔ firstByte &&& intValueMask ≠ 29) := by
  refine ⟨?_, ?_, ?_, ?_, ?_⟩
  · intro val isAdd room hroom
    exact encodeIntSafe_eq_fastEncode val isAdd hroom
  · intro dataLen hnone
    rw [decodeInt_pos_of_none buf hnone]
  · intro dataLen h9
    exact fastDecode_outcome_eq_iff buf firstByte h9
  · -- the code 29 with six bytes left and with nine
    intro hsame h29
    have h6 :
        decodeInt buf (pos + 6) firstByte pos = decodeIntSafe buf (pos + 6) firstByte pos := by
      rw [decodeInt, if_neg (by omega)]
    have h9 : decodeInt buf (pos + 9) firstByte pos = fastDecode buf firstByte pos := by
      rw [decodeInt, if_pos (by omega)]
    have hlong : ¬ (firstByte &&& intValueMask).toNat ≤ maxInt1B := by rw [h29]; decide
    have hroom : ((6 : Nat) : Int) ≤ pos + 6 - pos := by omega
    have hsafe := decodeIntSafe_long buf hlong (by rw [h29]; rfl) hroom
    have hfast := fastDecode_long buf pos (n := 7) hlong (by rw [h29]; rfl)
    have heq := hsame (pos + 6) (pos + 9) (by rw [h6, hsafe]; exact Option.some_ne_none _)
      (by rw [h9, hfast]; exact Option.some_ne_none _)
    rw [h6, h9, hsafe, hfast] at heq
    have hpos := congrArg Prod.snd heq
    simp only [Decoded.outcome] at hpos
    omega
  · intro hcode dataLen dataLen' hsome hsome'
    obtain ⟨hroom, hlen⟩ := decodeInt_room buf hsome
    obtain ⟨hroom', hlen'⟩ := decodeInt_room buf hsome'
    by_cases hshort : (firstByte &&& intValueMask).toNat ≤ maxInt1B
    · rw [decodeInt_short buf hshort hroom, decodeInt_short buf hshort hroom']
    · rw [decodeInt_ok buf hshort rfl hcode (hlen.resolve_left hshort),
        decodeInt_ok buf hshort rfl hcode (hlen'.resolve_left hshort)]

/-- The first byte 29 and nine bytes: one form leaves `pos` at 8, the other at 6. -/
theorem fastDecode_ne_decodeIntSafe :
    (fastDecode (fun _ => 1) 29 0).outcome ≠ (decodeIntSafe (fun _ => 1) 9 29 0).outcome := by
  decide

/-! ### Staying inside the data -/

/-- A decoder looked only at offsets below `data_len`, left `pos` there if it succeeded and at its
old place if it failed. -/
def Safe {α : Type} (dataLen pos : Int) (d : Decoded α) : Prop :=
  (∀ i ∈ d.reads, i < dataLen) ∧ (d.ret ≠ none → d.pos ≤ dataLen) ∧ (d.ret = none → d.pos = pos)

theorem decodeInt_safe (dataLen : Int) (firstByte : Byte) (pos : Int) :
    Safe dataLen pos (decodeInt buf dataLen firstByte pos) := by
  by_cases hnone : (decodeInt buf dataLen firstByte pos).ret = none
  · rw [decodeInt_pos_of_none buf hnone]
    exact ⟨by simp, fun h => absurd rfl h, fun _ => rfl⟩
  obtain ⟨hroom, hlen⟩ := decodeInt_room buf hnone
  refine and_assoc.1 ⟨?_, fun h => absurd h hnone⟩
  by_cases hshort : (firstByte &&& intValueMask).toNat ≤ maxInt1B
  · rw [decodeInt_short buf hshort hroom]
    exact ⟨by simp, fun _ => Int.sub_nonneg.1 hroom⟩
  by_cases h9 : 9 ≤ dataLen - pos
  · have hle := fastLen_le (firstByte &&& intValueMask).toNat
    simp only [decodeInt, if_pos h9, fastDecode, if_neg hshort, mem_reverse, mem_offsets]
    exact ⟨fun i hi => by omega, fun _ => by omega⟩
  rw [decodeInt, if_neg h9, decodeIntSafe_long buf hshort rfl (hlen.resolve_left hshort)]
  simp only [mem_offsets]
  exact ⟨fun i hi => by omega, fun _ => by omega⟩

/-- A byte that ends a number in groups of seven bits lies inside the data. -/
def ViEnds (dataLen pos : Int) : Prop := ∃ i, pos ≤ i ∧ i < dataLen ∧ more (buf i) = false

theorem decodeViLoop_ok {w : Nat} (pos : Int) {k rounds : Nat} (v : BitVec w)
    (shift : Nat) (hmore : ∀ j < k, more (buf (tmpPos + (j : Nat))) = true)
    (hlast : more (buf (tmpPos + k)) = false) (hroom : tmpPos + k < dataLen) (hk : k ≤ rounds) :
    decodeViLoop buf dataLen w pos rounds tmpPos v shift =
      ⟨some (v ||| (viValue (bytesAt buf tmpPos (k + 1)) <<< shift)), tmpPos + (k + 1 : Nat),
        offsets tmpPos (k + 1)⟩ := by
  induction k generalizing rounds tmpPos v shift with
  | zero =>
    rw [Int.natCast_zero, Int.add_zero] at hlast
    have hvalue : viValue (bytesAt buf tmpPos 1) = (low7 (buf tmpPos)).setWidth w := by
      simp [bytesAt, viValue]
    rcases rounds with _ | rounds
    · rw [decodeViLoop, if_neg (by omega), hvalue]
      rfl
    · rw [decodeViLoop, if_neg (by simp [hlast]), if_neg (by omega), hvalue]
      rfl
  | succ k ih =>
    obtain ⟨rounds, rfl⟩ : ∃ r, rounds = r + 1 := ⟨rounds - 1, by omega⟩
    have hfirst := hmore 0 (by omega)
    rw [Int.natCast_zero, Int.add_zero] at hfirst
    have hshift : ∀ j : Nat, tmpPos + (j + 1 : Nat) = tmpPos + 1 + (j : Int) := by omega
    have hmore' : ∀ j < k, more (buf (tmpPos + 1 + (j : Nat))) = true := by
      intro j hj
      exact hshift j ▸ hmore (j + 1) (by omega)
    rw [decodeViLoop, if_pos hfirst, if_neg (by omega),
      ih _ (shift + 7) hmore' (hshift k ▸ hlast) (by omega) (by omega),
      bytesAt_succ buf tmpPos (k + 1), viValue, BitVec.shiftLeft_or_distrib,
      ← BitVec.shiftLeft_add, BitVec.or_assoc, Nat.add_comm 7]
    simp only [offsets, Decoded.mk.injEq, and_true, true_and]
    omega

/-- A number that does not end inside the data is read past its end. -/
theorem decodeViLoop_overrun {w : Nat} (pos : Int) (v : BitVec w)
    (shift : Nat) (hmore : ∀ i, tmpPos ≤ i → i < dataLen → more (buf i) = true)
    (hrounds : dataLen - tmpPos ≤ rounds) :
    ∃ i ∈ (decodeViLoop buf dataLen w pos rounds tmpPos v shift).reads, dataLen ≤ i := by
  induction rounds generalizing tmpPos v shift with
  | zero =>
    rw [decodeViLoop, if_pos (by omega)]
    exact ⟨tmpPos, mem_singleton_self _, by omega⟩
  | succ rounds ih =>
    by_cases hroom : dataLen - tmpPos < 1
    · simp only [decodeViLoop, if_pos hroom, ite_self]
      exact ⟨tmpPos, mem_singleton_self _, by omega⟩
    have hmore' : ∀ i, tmpPos + 1 ≤ i → i < dataLen → more (buf i) = true := by
      intro i hle hlt
      exact hmore i (by omega) hlt
    obtain ⟨i, hi, hge⟩ := ih (v ||| ((low7 (buf tmpPos)).setWidth w <<< shift)) (shift + 7)
      hmore' (by omega)
    rw [decodeViLoop, if_pos (hmore tmpPos (by omega) (by omega)), if_neg hroom]
    exact ⟨i, mem_cons_of_mem _ hi, hge⟩

/-- The number at `pos` ends with the byte `k` places behind it. -/
def ViEndsAt (pos : Int) (k : Nat) : Prop :=
  (∀ j < k, more (buf (pos + (j : Nat))) = true) ∧ more (buf (pos + k)) = false

variable {buf} in
theorem ViEndsAt.unique {k k' : Nat} (h : ViEndsAt buf pos k) (h' : ViEndsAt buf pos k') :
    k = k' := by
  rcases Nat.lt_trichotomy k k' with hlt | heq | hlt
  · exact absurd ((h'.1 k hlt).symm.trans h.2) (by decide)
  · exact heq
  · exact absurd ((h.1 k' hlt).symm.trans h'.2) (by decide)

theorem decodeVi_ok (w : Nat) (h : ViEnds buf dataLen pos) :
    ∃ k : Nat, pos + k < dataLen ∧ ViEndsAt buf pos k ∧ decodeVi buf dataLen w pos =
      ⟨some (viValue (bytesAt buf pos (k + 1))), pos + (k + 1 : Nat), offsets pos (k + 1)⟩ := by
  have hex : ∃ k : Nat, pos + k < dataLen ∧ more (buf (pos + k)) = false := by
    obtain ⟨i, hle, hlt, hend⟩ := h
    have hi : pos + (i - pos).toNat = i := by omega
    exact ⟨(i - pos).toNat, by omega, hi.symm ▸ hend⟩
  obtain ⟨hlt, hend⟩ := Nat.find_spec hex
  have hmore : ∀ j < Nat.find hex, more (buf (pos + (j : Nat))) = true := by
    intro j hj
    have hmin := Nat.find_min hex hj
    rw [not_and] at hmin
    exact eq_true_of_ne_false (hmin (by omega))
  refine ⟨Nat.find hex, hlt, ⟨hmore, hend⟩, ?_⟩
  rw [decodeVi, decodeViLoop_ok buf pos 0 0 hmore hend hlt (by omega), BitVec.shiftLeft_zero,
    BitVec.ofNat_eq_ofNat, BitVec.zero_or]

theorem decodeVi_overrun (w : Nat) (h : ¬ ViEnds buf dataLen pos) :
    ∃ i ∈ (decodeVi buf dataLen w pos).reads, dataLen ≤ i := by
  refine decodeViLoop_overrun buf pos 0 0 ?_ (by omega)
  intro i hle hlt
  exact eq_true_of_ne_false fun hend => h ⟨i, hle, hlt, hend⟩

theorem safe_error {α : Type} {dataLen pos : Int}
    (h : ∀ i ∈ reads, i < dataLen) : Safe dataLen pos (⟨none, pos, reads⟩ : Decoded α) :=
  ⟨h, fun hret => absurd rfl hret, fun _ => rfl⟩

theorem safe_ok_iff {α : Type} {dataLen pos pos' : Int} {a : α}
    (h : ∀ i ∈ reads, i < dataLen) : Safe dataLen pos ⟨some a, pos', reads⟩ ↔ pos' ≤ dataLen :=
  ⟨fun hsafe => hsafe.2.1 (Option.some_ne_none _),
    fun hpos => ⟨h, fun _ => hpos, fun hret => absurd hret (Option.some_ne_none _)⟩⟩

/-- A number in groups of seven bits is decoded inside the data just if it ends there. -/
theorem decodeVi_safe_iff (w : Nat) (dataLen pos : Int) :
    Safe dataLen pos (decodeVi buf dataLen w pos) ↔ ViEnds buf dataLen pos := by
  constructor
  · intro hsafe
    by_contra hends
    obtain ⟨i, hi, hge⟩ := decodeVi_overrun buf w hends
    have hlt := hsafe.1 i hi
    omega
  intro hends
  obtain ⟨k, hk, -, heq⟩ := decodeVi_ok buf w hends
  rw [heq, safe_ok_iff (lt_of_mem_offsets (by omega))]
  omega

/-- The string behind the length, if it is not longer than `limit`, does not fill the data
exactly. -/
def VstrGap (dataLen pos : Int) (limit : Option Int) : Prop :=
  ∀ k, ViEndsAt buf pos k →
    limit.any (· < (viValue (bytesAt buf pos (k + 1)) : BitVec 64).toInt) = false →
    (viValue (bytesAt buf pos (k + 1)) : BitVec 64).toInt ≠ dataLen - (pos + (k + 1 : Nat))

theorem vstrGap_iff {limit : Option Int} {pos : Int} {k : Nat} (hk : ViEndsAt buf pos k) :
    VstrGap buf dataLen pos limit ↔
      (limit.any (· < (viValue (bytesAt buf pos (k + 1)) : BitVec 64).toInt) = false →
        (viValue (bytesAt buf pos (k + 1)) : BitVec 64).toInt ≠
          dataLen - (pos + (k + 1 : Nat))) := by
  refine ⟨fun h => h k hk, fun h k' hk' => ?_⟩
  rwa [hk'.unique hk]

theorem mem_reads_decodeVstrWith {limit : Option Int} {pos i : Int}
    (harg : ¬ (dataLen < 0 ∨ pos < 0 ∨ limit.any (· < 0)))
    (hi : i ∈ (decodeVi64 buf dataLen pos).reads) :
    i ∈ (decodeVstrWith buf dataLen limit pos).reads := by
  rw [decodeVstrWith, if_neg harg]
  revert hi
  obtain ⟨ret, tmpPos, reads⟩ := decodeVi64 buf dataLen pos
  intro hi
  rcases ret with _ | tmpLen
  · exact hi
  simp only
  split_ifs
  · exact hi
  · exact mem_append_left _ hi
  · exact mem_append_left _ hi
  · exact hi

/-- `decode_vstr` counts one byte more than the string has. -/
theorem decodeVstrWith_safe_iff (dataLen : Int) (limit : Option Int) (pos : Int) :
    Safe dataLen pos (decodeVstrWith buf dataLen limit pos) ↔
      (dataLen < 0 ∨ pos < 0 ∨ limit.any (· < 0)) ∨
        ViEnds buf dataLen pos ∧ VstrGap buf dataLen pos limit := by
  by_cases harg : dataLen < 0 ∨ pos < 0 ∨ limit.any (· < 0)
  · rw [decodeVstrWith, if_pos harg]
    exact iff_of_true (safe_error (by simp)) (Or.inl harg)
  rw [or_iff_right harg]
  by_cases hends : ViEnds buf dataLen pos
  · obtain ⟨k, hk, hendsAt, hvi⟩ := decodeVi_ok buf 64 hends
    have hreads : ∀ i ∈ offsets pos (k + 1), i < dataLen := lt_of_mem_offsets (by omega)
    rw [and_iff_right hends, decodeVstrWith, if_neg harg]
    rw [vstrGap_iff buf hendsAt]
    simp only [decodeVi64, hvi]
    generalize (viValue (bytesAt buf pos (k + 1)) : BitVec 64).toInt = len
    by_cases hlimit : limit.any (· < len) = true
    · rw [if_pos hlimit]
      exact iff_of_true (safe_error hreads) fun h => absurd (hlimit.symm.trans h) (by decide)
    rw [if_neg hlimit]
    rw [Bool.not_eq_true] at hlimit
    rw [forall_prop_of_true hlimit]
    by_cases hlen : 0 ≤ len ∧ len ≤ dataLen - (pos + (k + 1 : Nat))
    · rw [if_pos hlen, safe_ok_iff]
      · omega
      refine forall_mem_append.2 ⟨hreads, ?_⟩
      split_ifs
      · exact lt_of_mem_offsets (by omega)
      · simp
    · rw [if_neg hlen]
      exact iff_of_true (safe_error hreads) (by omega)
  · refine iff_of_false (fun hsafe => ?_) fun h => hends h.1
    obtain ⟨i, hi, hge⟩ := decodeVi_overrun buf 64 hends
    have hlt := hsafe.1 i (mem_reads_decodeVstrWith buf harg hi)
    omega

/-- The bytes of the length are all there and the string after them too. -/
def StrFits (dataLen : Int) (pos : Int) (lenBytes : Nat) : Prop :=
  lenBytes ≤ dataLen - pos ∧ 0 ≤ (leValue (bytesAt buf pos lenBytes) : BitVec 64).toInt ∧
    (leValue (bytesAt buf pos lenBytes) : BitVec 64).toInt ≤ dataLen - (pos + lenBytes)

/-- `decode_str` moves `pos` over the bytes of the length before it knows that it succeeds. -/
theorem decodeStr_safe_iff (dataLen : Int) (firstByte : Byte) (pos : Int) :
    Safe dataLen pos (decodeStr buf dataLen firstByte pos) ↔
      dataLen < 0 ∨ (firstByte &&& varcharLenMask).toNat ≤ max1BStrLen ∨ dataLen ≤ pos ∨
        StrFits buf dataLen pos ((firstByte &&& varcharLenMask).toNat - max1BStrLen) := by
  by_cases harg : dataLen < 0
  · rw [decodeStr, if_pos harg]
    exact iff_of_true (safe_error (by simp)) (Or.inl harg)
  rw [or_iff_right harg, decodeStr, if_neg harg]
  generalize (firstByte &&& varcharLenMask).toNat = len
  simp only
  by_cases hshort : len ≤ max1BStrLen
  · rw [if_pos hshort]
    refine iff_of_true ?_ (Or.inl hshort)
    simp only
    split_ifs with hlen
    · rw [safe_ok_iff (by simp)]
      omega
    · exact safe_error (by simp)
  rw [if_neg hshort, or_iff_right hshort]
  by_cases hroom : ((len - max1BStrLen : Nat) : Int) ≤ dataLen - pos
  · have hreads : ∀ i ∈ offsets pos (len - max1BStrLen), i < dataLen :=
      lt_of_mem_offsets (by omega)
    rw [decodeUintLoop_ok buf 0 0 hroom, StrFits, or_iff_right (by omega), and_iff_right hroom,
      Nat.mul_zero, BitVec.shiftLeft_zero, BitVec.ofNat_eq_ofNat, BitVec.zero_or]
    simp only
    split_ifs with hlen
    · rw [safe_ok_iff hreads]
      omega
    refine iff_of_false (fun hsafe => ?_) hlen
    have hpos := hsafe.2.2 rfl
    simp only at hpos
    omega
  · obtain ⟨reads, hloop, hreads⟩ := decodeUintLoop_error buf 0 0
      (Int.not_le.1 hroom) (Or.inl (by omega))
    rw [hloop, StrFits, or_iff_left (fun h => hroom h.1)]
    constructor
    · intro hsafe
      have hpos := hsafe.2.2 rfl
      simp only at hpos
      omega
    · intro hle
      rw [Int.max_eq_left hle]
      exact safe_error hreads

/-- The decoders keep inside the data just if a number in groups of seven bits ends there, a string
behind such a number does not fill it, and a string with a long length is complete. `decode_int`
always does. -/
theorem decoders_safe_iff (buf : Buf) (dataLen : Int) (firstByte : Byte) (bufLen pos : Int) :
    (Safe dataLen pos (decodeVi32 buf dataLen pos) ↔ ViEnds buf dataLen pos) ∧
    (Safe dataLen pos (decodeVi64 buf dataLen pos) ↔ ViEnds buf dataLen pos) ∧
    (Safe dataLen pos (decodeVstr buf dataLen pos) ↔
      (dataLen < 0 ∨ pos < 0) ∨ ViEnds buf dataLen pos ∧ VstrGap buf dataLen pos none) ∧
    (Safe dataLen pos (decodeVstrInto buf dataLen bufLen pos) ↔
      (dataLen < 0 ∨ pos < 0 ∨ bufLen < 0) ∨
        ViEnds buf dataLen pos ∧ VstrGap buf dataLen pos (some bufLen)) ∧
    Safe dataLen pos (decodeInt buf dataLen firstByte pos) ∧
    (Safe dataLen pos (decodeStr buf dataLen firstByte pos) ↔
      dataLen < 0 ∨ (firstByte &&& varcharLenMask).toNat ≤ max1BStrLen ∨ dataLen ≤ pos ∨
        StrFits buf dataLen pos ((firstByte &&& varcharLenMask).toNat - max1BStrLen)) := by
  refine ⟨decodeVi_safe_iff buf 32 dataLen pos, decodeVi_safe_iff buf 64 dataLen pos, ?_, ?_,
    decodeInt_safe buf dataLen firstByte pos, decodeStr_safe_iff buf dataLen firstByte pos⟩
  · have hvstr := decodeVstrWith_safe_iff buf dataLen none pos
    simpa [decodeVstr] using hvstr
  · have hvstr := decodeVstrWith_safe_iff buf dataLen (some bufLen) pos
    simpa [decodeVstrInto] using hvstr

/-- Data of no bytes: the byte behind it is looked at. A string that fills the data: `pos` is left
behind its end. A long length cut short: `pos` has moved. -/
theorem decoders_not_safe :
    ¬ Safe 0 0 (decodeVi64 (fun _ => 0) 0 0) ∧ ¬ Safe 0 0 (decodeVi32 (fun _ => 0) 0 0) ∧
    ¬ Safe 1 0 (decodeVstr (fun _ => 0) 1 0) ∧
    ¬ Safe 1 0 (decodeVstrInto (fun _ => 0) 1 1 0) ∧
    ¬ Safe 1 0 (decodeStr (fun _ => 0) 1 0xb9 0) := by
  refine ⟨fun h => absurd (h.1 0) (by decide), fun h => absurd (h.1 0) (by decide),
    fun h => absurd (h.2.1 (by decide)) (by decide),
    fun h => absurd (h.2.1 (by decide)) (by decide),
    fun h => absurd (h.2.2 (by decide)) (by decide)⟩

end Decoders

end Serialization

end OceanBase.Common
