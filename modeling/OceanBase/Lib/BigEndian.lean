import Mathlib

/-!
# Fixed-width big-endian numbers

`encode n v` writes the low `n` bytes of `v`, most significant byte first; `read n` takes `n`
bytes off the front of an input and hands back the number they spell and the rest. A reader
never looks behind the bytes it takes, so what was written in front of an input is read back
whatever follows (`read_encode_append`).
-/

namespace Lib

namespace BigEndian

/-- The low `n` bytes of `v`, most significant first. -/
def encode : Nat → Nat → List UInt8
  | 0, _ => []
  | n + 1, v => encode n (v / 256) ++ [UInt8.ofNat v]

/-- The number that bytes spell, most significant first. -/
def decode (bytes : List UInt8) : Nat :=
  bytes.foldl (fun acc b => acc * 256 + b.toNat) 0

/-- Take `n` bytes off the front of the input. -/
def read (n : Nat) (input : List UInt8) : Option (Nat × List UInt8) :=
  if n ≤ input.length then some (decode (input.take n), input.drop n) else none

@[simp]
theorem length_encode (n v : Nat) : (encode n v).length = n := by
  induction n generalizing v with
  | zero => rfl
  | succ n ih => simp [encode, ih]

theorem decode_append_singleton (bytes : List UInt8) (b : UInt8) :
    decode (bytes ++ [b]) = decode bytes * 256 + b.toNat := by
  simp [decode]

theorem decode_encode (n v : Nat) : decode (encode n v) = v % 256 ^ n := by
  induction n generalizing v with
  | zero => simp [encode, decode, Nat.mod_one]
  | succ n ih =>
    have hbyte : (UInt8.ofNat v).toNat = v % 256 := by simp
    rw [encode, decode_append_singleton, ih, hbyte, Nat.pow_succ, Nat.mul_comm (256 ^ n) 256,
      Nat.mod_mul, Nat.mul_comm, Nat.add_comm]

/-- What was written is read back, up to the width, and the rest is untouched. -/
theorem read_encode_append (n v : Nat) (rest : List UInt8) :
    read n (encode n v ++ rest) = some (v % 256 ^ n, rest) := by
  have hlen := length_encode n v
  simp [read, decode_encode]

/-- A word of `8 * n` bits survives the round trip. -/
theorem read_encode_toNat {n w : Nat} (hw : w = 8 * n) (x : BitVec w) (rest : List UInt8) :
    read n (encode n x.toNat ++ rest) = some (x.toNat, rest) := by
  have hpow : (256 : Nat) ^ n = 2 ^ w := by
    rw [hw, Nat.pow_mul]
  have hlt : x.toNat < 256 ^ n := by
    rw [hpow]
    exact x.isLt
  rw [read_encode_append, Nat.mod_eq_of_lt hlt]

end BigEndian

end Lib
