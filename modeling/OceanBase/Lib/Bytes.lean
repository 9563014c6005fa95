import Mathlib

/-!
# Numbers as bytes

A number as a given number of bytes, the lowest first (`leBytes`, `leValue`), and as groups of seven
bits, each but the last with the top bit of its byte set (`viBytes`, `viValue`).
-/

namespace Lib

open List

variable {w : Nat}

/-! ### Lowest byte first -/

/-- The lowest `n` bytes of a number. -/
def leBytes : Nat → BitVec w → List (BitVec 8)
  | 0, _ => []
  | n + 1, v => v.setWidth 8 :: leBytes n (v >>> 8)

/-- The number with the given bytes. -/
def leValue : List (BitVec 8) → BitVec w
  | [] => 0
  | b :: bs => b.setWidth w ||| (leValue bs <<< 8)

@[simp]
theorem length_leBytes (n : Nat) (v : BitVec w) : (leBytes n v).length = n := by
  induction n generalizing v with
  | zero => rfl
  | succ n ih => rw [leBytes, length_cons, ih]

theorem low_or_high (v : BitVec w) : (v.setWidth 8).setWidth w ||| ((v >>> 8) <<< 8) = v := by
  apply BitVec.eq_of_getLsbD_eq
  intro i hi
  simp only [BitVec.getLsbD_or, BitVec.getLsbD_setWidth, BitVec.getLsbD_shiftLeft, hi]
  by_cases h8 : i < 8
  · simp [h8]
  · have : 8 + (i - 8) = i := by omega
    simp [h8, this]

variable {v : BitVec w}

theorem leValue_leBytes {n : Nat} (h : v.toNat < 2 ^ (8 * n)) : leValue (leBytes n v) = v := by
  induction n generalizing v with
  | zero =>
    have hv : v = 0 := BitVec.eq_of_toNat_eq (by simpa using h)
    rw [hv]
    rfl
  | succ n ih =>
    have hhigh : (v >>> 8).toNat < 2 ^ (8 * n) := by
      rwa [BitVec.toNat_ushiftRight, Nat.shiftRight_eq_div_pow, Nat.div_lt_iff_lt_mul (by decide),
        ← Nat.pow_add]
    rw [leBytes, leValue, ih hhigh, low_or_high]

/-- The bytes one by one, each shifted down from the whole number. -/
theorem leBytes_eq_map (n : Nat) (v : BitVec w) :
    leBytes n v = (List.range n).map fun i => (v >>> (8 * i)).setWidth 8 := by
  induction n generalizing v with
  | zero => rfl
  | succ n ih =>
    rw [leBytes, ih, range_succ_eq_map, map_cons, map_map]
    congr 1
    refine map_congr_left fun i _ => ?_
    simp only [Function.comp_apply]
    rw [← BitVec.shiftRight_add, Nat.mul_succ, Nat.add_comm 8]

theorem leValue_concat (bs : List (BitVec 8)) (b : BitVec 8) :
    (leValue (bs ++ [b]) : BitVec w) = leValue bs ||| (b.setWidth w <<< (8 * bs.length)) := by
  induction bs with
  | nil => simp [leValue]
  | cons a bs ih =>
    rw [cons_append, leValue, ih, leValue, BitVec.shiftLeft_or_distrib, ← BitVec.shiftLeft_add,
      length_cons, Nat.mul_succ, BitVec.or_assoc]

/-- Only the bits that the bytes hold count. -/
theorem leBytes_setWidth (n : Nat)
    (v : BitVec w) : leBytes n (v.setWidth (8 * n)) = leBytes n v := by
  rw [leBytes_eq_map, leBytes_eq_map]
  refine map_congr_left fun i hi => ?_
  rw [mem_range] at hi
  apply BitVec.eq_of_getLsbD_eq
  intro j hj
  have hlt : 8 * i + j < 8 * n := by omega
  simp [hlt]

theorem leValue_leBytes_setWidth (n : Nat) (v : BitVec w) :
    (leValue (leBytes n v) : BitVec (8 * n)) = v.setWidth (8 * n) := by
  rw [← leBytes_setWidth, leValue_leBytes (v.setWidth (8 * n)).isLt]

variable (b : BitVec 8)

theorem setWidth_leValue (bs : List (BitVec 8)) (h : 8 ≤ w) :
    (leValue (b :: bs) : BitVec w).setWidth 8 = b := by
  apply BitVec.eq_of_getLsbD_eq
  intro i hi
  have hw : i < w := by omega
  simp [leValue, hi, hw]

/-! ### Seven bits at a time -/

/-- The lowest seven bits of a byte. -/
def low7 : BitVec 8 := b &&& 0x7f

theorem getLsbD_low7
    (i : Nat) : (low7 b).getLsbD i = (decide (i < 7) && b.getLsbD i) := by
  rw [low7, BitVec.getLsbD_and, Bool.and_comm]
  by_cases h : i < 8
  · congr 1
    revert i
    decide
  · rw [BitVec.getLsbD_of_ge b i (by omega), Bool.and_false, Bool.and_false]

/-- The byte is not the last of its number. -/
def more : Bool := b.getLsbD 7

theorem getLsbD_or_80 (i : Nat) :
    (b ||| 0x80).getLsbD i = (decide (i = 7) || b.getLsbD i) := by
  rw [BitVec.getLsbD_or, Bool.or_comm]
  by_cases h : i < 8
  · congr 1
    revert i
    decide
  rw [BitVec.getLsbD_of_ge b i (by omega), BitVec.getLsbD_of_ge _ i (by omega)]
  simp
  omega

@[simp]
theorem more_or_80 : more (b ||| 0x80) = true := by
  rw [more, getLsbD_or_80]
  rfl

@[simp]
theorem more_low7 : more (low7 b) = false := by
  rw [more, getLsbD_low7]
  rfl

@[simp]
theorem low7_or_80 : low7 (b ||| 0x80) = low7 b := by
  apply BitVec.eq_of_getLsbD_eq
  intro i hi
  rw [getLsbD_low7, getLsbD_low7, getLsbD_or_80]
  by_cases h7 : i = 7
  · subst h7
    rfl
  · simp [h7]

@[simp]
theorem low7_low7 : low7 (low7 b) = low7 b := by
  apply BitVec.eq_of_getLsbD_eq
  intro i hi
  rw [getLsbD_low7, getLsbD_low7, ← Bool.and_assoc, Bool.and_self]

theorem low7_or_high (v : BitVec w) :
    (low7 (v.setWidth 8)).setWidth w ||| ((v >>> 7) <<< 7) = v := by
  apply BitVec.eq_of_getLsbD_eq
  intro i hi
  simp only [BitVec.getLsbD_or, BitVec.getLsbD_setWidth, BitVec.getLsbD_shiftLeft, getLsbD_low7, hi]
  by_cases h7 : i < 7
  · have : i < 8 := by omega
    simp [h7, this]
  · have : 7 + (i - 7) = i := by omega
    simp [h7, this]

/-- A number in groups of seven bits, of which there are at most `n + 1`. -/
def viBytes : Nat → BitVec w → List (BitVec 8)
  | 0, v => [low7 (v.setWidth 8)]
  | n + 1, v =>
    if 127 < v.toNat then (v.setWidth 8 ||| 0x80) :: viBytes n (v >>> 7)
    else [low7 (v.setWidth 8)]

theorem low7_of_le (h : v.toNat ≤ 127) : (low7 (v.setWidth 8)).setWidth w = v := by
  have hhigh : v >>> 7 = 0#w := by
    apply BitVec.eq_of_toNat_eq
    simp
    omega
  have hv := low7_or_high v
  rwa [hhigh, BitVec.zero_shiftLeft, BitVec.or_zero] at hv

theorem length_viBytes {n k : Nat} (hk : k ≤ n) (hlt : v.toNat < 2 ^ (7 * (k + 1)))
    (hge : k = 0 ∨ 2 ^ (7 * k) ≤ v.toNat) : (viBytes n v).length = k + 1 := by
  induction n generalizing k v with
  | zero =>
    obtain rfl := Nat.le_zero.1 hk
    rfl
  | succ n ih =>
    rcases k with _ | k
    · rw [viBytes, if_neg (by omega)]; rfl
    have hpow : (2 : Nat) ^ (7 * (k + 1)) = 2 ^ (7 * k) * 2 ^ 7 := by
      rw [← Nat.pow_add]
      congr 1
    have hpow' : (2 : Nat) ^ (7 * (k + 1 + 1)) = 2 ^ (7 * (k + 1)) * 2 ^ 7 := by
      rw [← Nat.pow_add]
      congr 1
    have hhigh : (v >>> 7).toNat = v.toNat / 2 ^ 7 := by
      rw [BitVec.toNat_ushiftRight, Nat.shiftRight_eq_div_pow]
    rw [viBytes, if_pos (by omega), length_cons, ih (k := k) (by omega)]
    · omega
    · rw [hhigh]
      omega

/-- The number that groups of seven bits make. -/
def viValue : List (BitVec 8) → BitVec w
  | [] => 0
  | b :: bs => (low7 b).setWidth w ||| (viValue bs <<< 7)

theorem viValue_viBytes (n : Nat) (v : BitVec w) (h : v.toNat < 2 ^ (7 * (n + 1))) :
    viValue (viBytes n v) = v := by
  induction n generalizing v with
  | zero =>
    have hle : v.toNat ≤ 127 := by omega
    rw [viBytes, viValue, viValue, low7_low7, low7_of_le hle, BitVec.ofNat_eq_ofNat,
      BitVec.zero_shiftLeft, BitVec.or_zero]
  | succ n ih =>
    by_cases hv : 127 < v.toNat
    · have hhigh : (v >>> 7).toNat < 2 ^ (7 * (n + 1)) := by
        rw [BitVec.toNat_ushiftRight, Nat.shiftRight_eq_div_pow]
        have hpow : (2 : Nat) ^ (7 * (n + 1 + 1)) = 2 ^ (7 * (n + 1)) * 2 ^ 7 := by
          rw [← Nat.pow_add]
          congr 1
        exact Nat.div_lt_of_lt_mul (by rw [hpow] at h; omega)
      rw [viBytes, if_pos hv, viValue, ih _ hhigh, low7_or_80, low7_or_high]
    · rw [viBytes, if_neg hv, viValue, viValue, low7_low7, low7_of_le (by omega),
        BitVec.ofNat_eq_ofNat, BitVec.zero_shiftLeft, BitVec.or_zero]

/-- All bytes but the last say that more follow. -/
theorem viBytes_spec (n : Nat) (v : BitVec w) :
    ∃ bs b, viBytes n v = bs ++ [b] ∧ (∀ x ∈ bs, more x = true) ∧ more b = false := by
  induction n generalizing v with
  | zero => exact ⟨[], _, rfl, by simp, more_low7 _⟩
  | succ n ih =>
    by_cases hv : 127 < v.toNat
    · obtain ⟨bs, b, hbytes, hbs, hb⟩ := ih (v >>> 7)
      refine ⟨(v.setWidth 8 ||| 0x80) :: bs, b, ?_, forall_mem_cons.2 ⟨more_or_80 _, hbs⟩, hb⟩
      rw [viBytes, if_pos hv, hbytes, cons_append]
    · exact ⟨[], _, if_neg hv, by simp, more_low7 _⟩

end Lib
