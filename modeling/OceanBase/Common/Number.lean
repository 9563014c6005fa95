import OceanBase.Common.Define

/-!
# Decimal numbers and 64-bit integers (`ob_number.cpp`, `ob_number.h`)

An `ObNumber` is an integer of some words of 32 bits in two's complement, and the number of its
decimal places. `from(int64_t)` takes as many words as the magnitude of the integer has, and none
for its sign. So an integer whose magnitude fills one word comes back with the wrong sign
(`toInt64_fromInt64_iff`).
-/

namespace OceanBase.Common

open BitVec

/-- `ObNumber`: the decimal places and the words from the lowest on. -/
structure Number where
  vscale : Nat
  words : List (BitVec 32)
  deriving DecidableEq

namespace Number

/-- `BASE`. -/
abbrev base : Nat := 4294967296

/-- The loop of `negate` that adds the carry to the inverted words. -/
def negateLoop : Nat → List (BitVec 32) → List (BitVec 32)
  | _, [] => []
  | carry, w :: ws =>
    let sum := carry + (~~~w).toNat
    BitVec.ofNat 32 sum :: negateLoop (if base ≤ sum then 1 else 0) ws

/-- `negate`. -/
def negate (ws : List (BitVec 32)) : List (BitVec 32) := negateLoop 1 ws

/-- `is_negative`. -/
def isNegative (ws : List (BitVec 32)) : Bool := ws.getLast?.any BitVec.msb

/-- The loop of `from(int64_t)`; two rounds leave nothing of an integer of 64 bits. -/
def fromLoop : Nat → Int → List (BitVec 32)
  | 0, _ => []
  | rounds + 1, i => if i = 0 then [] else BitVec.ofInt 32 i :: fromLoop rounds (i.tdiv base)

/-- The words that `from(int64_t)` takes for the magnitude, at least one. -/
def magnitude (i : BitVec 64) : List (BitVec 32) :=
  let ws := fromLoop 2 i.toInt
  if ws = [] then [0] else ws

/-- `from(int64_t)`; the least integer is its own negation. -/
def fromInt64 (i : BitVec 64) : Number :=
  ⟨0, if i.toInt < 0 then negate (magnitude (-i)) else magnitude i⟩

/-- `can_convert_to_int64`. -/
def canConvertToInt64 (n : Number) : Bool := n.vscale = 0 ∧ n.words.length ≤ 2

/-- The loop of `to_int64`, which starts with the highest word. -/
def wordsToInt64 (ws : List (BitVec 32)) : BitVec 64 :=
  ws.foldr (fun w i => i * BitVec.ofNat 64 base + w.setWidth 64) 0

/-- `to_int64`. -/
def toInt64 (n : Number) : Except Ret (BitVec 64) :=
  if n.canConvertToInt64 then
    .ok (if isNegative n.words then -wordsToInt64 (negate n.words) else wordsToInt64 n.words)
  -- `OB_VALUE_OUT_OF_RANGE`
  else .error (.other (-79))

/-- The integer that words stand for without a sign. -/
def unsignedValue (ws : List (BitVec 32)) : Nat := Nat.ofDigits base (ws.map BitVec.toNat)

/-- The integer that words stand for in two's complement. -/
def signedValue (ws : List (BitVec 32)) : Int :=
  (unsignedValue ws : Int).bmod (base ^ ws.length)

variable {ws : List (BitVec 32)} {i : BitVec 64}

theorem unsignedValue_cons (w : BitVec 32) (ws : List (BitVec 32)) :
    unsignedValue (w :: ws) = w.toNat + base * unsignedValue ws := Nat.ofDigits_cons ..

theorem length_negateLoop (carry : Nat) (ws : List (BitVec 32)) :
    (negateLoop carry ws).length = ws.length := by
  induction ws generalizing carry with
  | nil => rfl
  | cons w ws ih => simp only [negateLoop, List.length_cons, ih]

theorem length_negate (ws : List (BitVec 32)) : (negate ws).length = ws.length :=
  length_negateLoop 1 ws

-- Each word and its inverse sum to one less than the base, which the carry makes up for.
theorem dvd_negateLoop (ws : List (BitVec 32)) {carry : Nat} (h : carry ≤ 1) :
    ((base ^ ws.length : Nat) : Int) ∣
      unsignedValue (negateLoop carry ws) + unsignedValue ws + 1 - carry := by
  induction ws generalizing carry with
  | nil => simp
  | cons w ws ih =>
    have hw := w.isLt
    let carry' := if base ≤ carry + (~~~w).toNat then 1 else 0
    have hcarry' : carry' ≤ 1 := by grind
    have hword : (BitVec.ofNat 32 (carry + (~~~w).toNat)).toNat + base * carry' + w.toNat + 1 =
        carry + base := by
      simp only [toNat_ofNat, toNat_not, carry', base]
      split <;> omega
    have heq : (unsignedValue (negateLoop carry (w :: ws)) + unsignedValue (w :: ws) + 1 - carry :
        Int) = base * (unsignedValue (negateLoop carry' ws) + unsignedValue ws + 1 - carry') := by
      simp only [negateLoop, unsignedValue_cons]
      push_cast
      linarith
    rw [heq, List.length_cons, Nat.pow_succ', Nat.cast_mul]
    exact mul_dvd_mul_left _ (ih hcarry')

theorem signedValue_negate (ws : List (BitVec 32)) :
    signedValue (negate ws) = (-(unsignedValue ws : Int)).bmod (base ^ ws.length) := by
  obtain ⟨k, hk⟩ := dvd_negateLoop ws (Nat.le_refl 1)
  have heq : (unsignedValue (negate ws) : Int) =
      -(unsignedValue ws : Int) + ((base ^ ws.length : Nat) : Int) * k := by
    rw [Nat.cast_one] at hk
    rw [negate]
    linarith
  rw [signedValue, length_negate, heq, Int.add_mul_bmod_self_left]

theorem wordsToInt64_eq (ws : List (BitVec 32)) :
    wordsToInt64 ws = BitVec.ofNat 64 (unsignedValue ws) := by
  induction ws with
  | nil => rfl
  | cons w ws ih =>
    have hstep : wordsToInt64 (w :: ws) =
        wordsToInt64 ws * BitVec.ofNat 64 base + w.setWidth 64 := rfl
    rw [hstep, ih, unsignedValue_cons, ofNat_add, ofNat_mul, ofNat_toNat, BitVec.mul_comm,
      BitVec.add_comm]

theorem base_sq : base ^ 2 = 2 ^ 64 := by decide

theorem toInt_wordsToInt64 (h : ws.length = 2) :
    (wordsToInt64 ws).toInt = signedValue ws := by
  rw [wordsToInt64_eq, toInt_ofNat', signedValue, h, base_sq]

-- Two words are as wide as the integer, so the two negations cancel.
theorem toInt_neg_wordsToInt64 (h : ws.length = 2) :
    (-wordsToInt64 (negate ws)).toInt = signedValue ws := by
  rw [toInt_neg, toInt_wordsToInt64 ((length_negate ws).trans h), signedValue_negate, signedValue,
    h, base_sq, Int.bmod_neg_bmod, Int.neg_neg]

theorem toInt_words (h : ws.length ≤ 2) :
    (if isNegative ws then -wordsToInt64 (negate ws) else wordsToInt64 ws).toInt =
      signedValue ws := by
  match ws, h with
  | [], _ => decide
  | [w], _ =>
    have hw := w.isLt
    simp only [isNegative, List.getLast?_singleton, Option.any_some, msb_eq_decide, negate,
      negateLoop, wordsToInt64, decide_eq_true_eq, signedValue]
    split <;> simp [toInt_eq_toNat_bmod, Int.bmod, unsignedValue] <;> omega
  | [w, v], _ =>
    split
    · exact toInt_neg_wordsToInt64 rfl
    · exact toInt_wordsToInt64 rfl

theorem magnitude_spec (h : 0 ≤ i.toInt) :
    (unsignedValue (magnitude i) : Int) = i.toInt ∧
      (magnitude i).length = if i.toInt.natAbs < base then 1 else 2 := by
  have hlt := i.toInt_lt
  obtain ⟨k, hk⟩ := Int.eq_ofNat_of_zero_le h
  simp only [magnitude, hk, fromLoop, ← Int.ofNat_tdiv, Int.natCast_eq_zero]
  -- no word for zero, then one word, then two
  by_cases hzero : k = 0
  · subst hzero
    decide
  by_cases hone : k < base
  · have hdiv : k / base = 0 := Nat.div_eq_of_lt hone
    simp [hzero, hone, unsignedValue, Nat.mod_eq_of_lt hone]
  have hdiv : k / base ≠ 0 := by simp only [base] at hone ⊢; omega
  simp [hzero, hdiv, unsignedValue, Nat.ofDigits]
  omega

theorem signedValue_fromInt64 (h : i ≠ BitVec.intMin 64) :
    signedValue (fromInt64 i).words =
      i.toInt.bmod (base ^ if i.toInt.natAbs < base then 1 else 2) := by
  rw [fromInt64]
  split
  next hneg =>
    have hneg' := toInt_neg_of_ne_intMin h
    obtain ⟨hvalue, hlength⟩ := magnitude_spec (i := -i) (by omega)
    rw [signedValue_negate, hvalue, hlength, hneg', Int.neg_neg, Int.natAbs_neg]
  next hpos =>
    obtain ⟨hvalue, hlength⟩ := magnitude_spec (i := i) (by omega)
    rw [signedValue, hvalue, hlength]

theorem length_fromLoop_le (rounds : Nat) (i : Int) : (fromLoop rounds i).length ≤ rounds := by
  induction rounds generalizing i with
  | zero => exact Nat.le_refl 0
  | succ rounds ih => grind [fromLoop]

theorem length_fromInt64_le (i : BitVec 64) : (fromInt64 i).words.length ≤ 2 := by
  have hle (i : BitVec 64) : (magnitude i).length ≤ 2 := by
    grind [magnitude, length_fromLoop_le 2 i.toInt]
  rw [fromInt64]
  split
  · exact (length_negate _).trans_le (hle (-i))
  · exact hle i

theorem toInt64_spec (h : ws.length ≤ 2) :
    ∃ i, toInt64 ⟨0, ws⟩ = .ok i ∧ i.toInt = signedValue ws :=
  ⟨_, if_pos (by simpa [canConvertToInt64] using h), toInt_words h⟩

/-- The conversions give an integer back unless its magnitude takes one word and the sign of this
word is not its own; every number of two words at most is read exactly. -/
theorem toInt64_fromInt64_iff (i : BitVec 64) (ws : List (BitVec 32)) :
    ((fromInt64 i).toInt64 = .ok i ↔ base ≤ i.toInt.natAbs ∨ -2 ^ 31 ≤ i.toInt ∧ i.toInt < 2 ^ 31) ∧
    (toInt64 ⟨0, ws⟩ = .error (.other (-79)) ∧ 2 < ws.length ∨
      ∃ j, toInt64 ⟨0, ws⟩ = .ok j ∧ j.toInt = signedValue ws) := by
  constructor
  · -- the least integer is its own negation, and takes two words
    by_cases hmin : i = BitVec.intMin 64
    · subst hmin
      decide
    obtain ⟨j, hj, hvalue⟩ := toInt64_spec (length_fromInt64_le i)
    rw [signedValue_fromInt64 hmin] at hvalue
    have hback : (fromInt64 i).toInt64 = .ok i ↔ j.toInt = i.toInt := by
      rw [show fromInt64 i = ⟨0, (fromInt64 i).words⟩ from rfl, hj, Except.ok.injEq, toInt_inj]
    have hlt := i.toInt_lt
    have hle := i.le_toInt
    rw [hback, hvalue]
    split
    next hone =>
      rw [Nat.pow_one, Int.bmod]
      simp only [base] at hone ⊢
      split <;> omega
    next htwo =>
      -- two words have room for the sign of every other integer
      rw [Int.bmod_eq_of_le_mul_two]
      · simp [Nat.le_of_not_lt htwo]
      all_goals simp only [base]; omega
  · rcases Nat.lt_or_ge 2 ws.length with hlt | hle
    · have hneg : ¬ canConvertToInt64 ⟨0, ws⟩ := by simpa [canConvertToInt64] using hlt
      exact .inl ⟨if_neg hneg, hlt⟩
    · exact .inr (toInt64_spec hle)

/-- One word holds `2 ^ 31`, and its highest bit is taken for the sign. -/
theorem toInt64_fromInt64_halfBase :
    (fromInt64 2147483648).toInt64 = .ok (-2147483648) := by
  decide

end Number

end OceanBase.Common
