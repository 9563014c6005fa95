import OceanBase.Common.ObjectCodec

/-!
# Expressions (`ob_expr_obj.cpp`)

`btw` compares with the lower bound first and is unknown when that comparison is, even where the
value is above the upper bound (`btw_eq_iff`). `substr` narrows its arguments to 32 bits and adds
them up before it compares with the length of the string (`substr_eq_iff`). `trim` takes copies of
a pattern off both ends (`trim_eq`).
-/

namespace OceanBase.Common

/-! ### `BETWEEN` -/

/-- The values of `ObExprObj`: `compare_type_promotion`, which fails where a value is null or cannot
be cast, and `compare_same_type`. -/
structure ExprType (α : Type) where
  promote : α → α → Option (α × α)
  compareSameType : α → α → Int

/-- `land` of truth values, of which `none` is unknown. -/
def land : Option Bool → Option Bool → Option Bool
  | some left, some right => some (left && right)
  | some left, none => if left then none else some false
  | none, some right => if right then none else some false
  | none, none => none

namespace ExprType

variable {α : Type} (t : ExprType α) (x lo hi : α)

def compare (y : α) : Option Int := (t.promote x y).map fun p => t.compareSameType p.1 p.2

def ge (y : α) : Option Bool := (t.compare x y).map (0 ≤ ·)

def le (y : α) : Option Bool := (t.compare x y).map (· ≤ 0)

def btw : Option Bool :=
  (t.compare x lo).bind fun cmp => if 0 ≤ cmp then (t.compare x hi).map (· ≤ 0) else some false

def notBtw : Option Bool :=
  (t.compare x lo).bind fun cmp => if 0 ≤ cmp then (t.compare x hi).map (0 < ·) else some true

/-- **`BETWEEN`** is the conjunction of its comparisons and `NOT BETWEEN` the negation of that,
unless the first comparison is unknown and the value is above the upper bound. -/
theorem btw_eq_iff :
    t.btw x lo hi = land (t.ge x lo) (t.le x hi) ∧
        t.notBtw x lo hi = (land (t.ge x lo) (t.le x hi)).map (!·) ↔
      (t.compare x lo = none → t.le x hi ≠ some false) := by
  rw [btw, notBtw, ge, le]
  rcases t.compare x lo with _ | lower
  · rcases t.compare x hi with _ | upper
    · simp [land]
    · by_cases hupper : upper ≤ 0 <;> simp [land, hupper]
  · rcases t.compare x hi with _ | upper
    · by_cases hlower : 0 ≤ lower <;> simp [land, hlower]
    · by_cases hlower : 0 ≤ lower <;> simp [land, hlower, ← decide_not]

/-- Integers and null. -/
def intOrNull : ExprType (Option Int) where
  promote x y := if x.isSome && y.isSome then some (x, y) else none
  compareSameType x y := (x.getD 0 - y.getD 0).sign

/-- The value `5` is not between null and `3`. -/
theorem btw_null_three : intOrNull.btw (some 5) none (some 3) = none ∧
    land (intOrNull.ge (some 5) none) (intOrNull.le (some 5) (some 3)) = some false := by
  decide

end ExprType

/-! ### `SUBSTR` -/

/-- Where a substring starts: the first byte is at `1`, and negative numbers count from the end. -/
def position (n start : Int) : Int :=
  if 0 < start then start else if start = 0 then 1 else start + n + 1

/-- The substring of a string of length `n`, as its offset and length. -/
def substring (n start length : Int) : Option (Int × Int) :=
  if n ≤ 0 ∨ length ≤ 0 ∨ position n start ≤ 0 ∨ n < position n start then none
  else some (position n start - 1, min length (n - position n start + 1))

/-- `substr` with `int32_t` arguments, whose sum wraps around. -/
def substr32 (n : Int) (startPos expectLengthOfStr : BitVec 32) : Option (Int × Int) :=
  if n ≤ 0 ∨ expectLengthOfStr.toInt ≤ 0 then none
  else
    let start := position n startPos.toInt
    if start ≤ 0 ∨ n < start then none
    else
      some (start - 1, if n < (start + expectLengthOfStr.toInt - 1).bmod (2 ^ 32) then n - start + 1
        else expectLengthOfStr.toInt)

def substr (varchar : Varchar) (startPos expectLength : BitVec 64) : Option (Int × Int) :=
  substr32 varchar.bytes.length (startPos.setWidth 32) (expectLength.setWidth 32)

theorem substring_inside {n start length : Int} :
    ∀ w ∈ substring n start length, w.1 + w.2 ≤ n := by
  rw [substring]
  split
  · simp
  · rintro _ ⟨⟩
    dsimp only
    omega

/-- Where the sum wraps around, the length is not cut down to the end of the string. -/
theorem substr32_eq_iff {n : Int} (hn : n < 2 ^ 31) (s e : BitVec 32) {x : Option (Int × Int)}
    (hx : ∀ w ∈ x, w.1 + w.2 ≤ n) : substr32 n s e = x ↔
      substring n s.toInt e.toInt = x ∧ ∀ w ∈ x, w.1 + e.toInt < 2 ^ 31 := by
  have he := e.toInt_lt
  rw [substr32, substring]
  generalize position n s.toInt = pos
  by_cases hout : n ≤ 0 ∨ e.toInt ≤ 0 ∨ pos ≤ 0 ∨ n < pos
  · rw [if_pos hout, ite_eq_left_iff.2 fun h => if_pos (by omega)]
    refine ⟨?_, And.left⟩
    rintro rfl
    simp
  rw [if_neg (by omega), if_neg (by omega), if_neg hout]
  -- A sum from `2 ^ 31` on wraps around to a negative one, and the length is not cut.
  by_cases hsum : pos - 1 + e.toInt < 2 ^ 31
  · have hlen : min e.toInt (n - pos + 1) =
        if n < pos + e.toInt - 1 then n - pos + 1 else e.toInt := by omega
    rw [Int.bmod_eq_of_le (by omega) (by omega), ← hlen]
    refine ⟨?_, And.left⟩
    rintro rfl
    simpa using hsum
  · have hwrap : (pos + e.toInt - 1).bmod (2 ^ 32) < 0 := by
      rw [Int.bmod_def]
      omega
    rw [if_neg (by omega)]
    constructor
    · rintro rfl
      have := hx _ rfl
      omega
    · rintro ⟨rfl, h⟩
      exact absurd (h _ rfl) hsum

/-- **`SUBSTR`** gives the substring exactly if the arguments ask for the same one after they are
narrowed, and then their sum does not wrap around. -/
theorem substr_eq_iff (varchar : Varchar) (startPos expectLength : BitVec 64) :
    substr varchar startPos expectLength =
        substring varchar.bytes.length startPos.toInt expectLength.toInt ↔
      substring varchar.bytes.length (startPos.setWidth 32).toInt (expectLength.setWidth 32).toInt =
          substring varchar.bytes.length startPos.toInt expectLength.toInt ∧
        ∀ w ∈ substring varchar.bytes.length startPos.toInt expectLength.toInt,
          w.1 + (expectLength.setWidth 32).toInt < 2 ^ 31 :=
  substr32_eq_iff (by exact_mod_cast varchar.length_lt) _ _ substring_inside

/-- Of the three bytes of a string, more than two thousand million are taken. -/
theorem substr_past_end : substr ⟨[97, 98, 99], by decide⟩ 2 (2 ^ 31 - 1) = some (1, 2 ^ 31 - 1) ∧
    substring 3 2 (2 ^ 31 - 1) = some (1, 2) := by
  decide

/-! ### `TRIM` -/

open List

/-- The loop of `ltrim` and `lrtrim`: the copies of the pattern from `start` on are passed over. -/
def ltrim (src pattern : List Byte) (start : Nat) : Nat :=
  if 0 < pattern.length ∧ start + pattern.length ≤ src.length ∧ pattern <+: src.drop start then
    ltrim src pattern (start + pattern.length)
  else start
termination_by src.length - start

/-- The loop of `rtrim` and `lrtrim`, which takes off copies of the pattern as long as they do not
begin before `start`. -/
def rtrim (src pattern : List Byte) (start last : Nat) : Nat :=
  if 0 < pattern.length ∧ start + pattern.length ≤ last ∧
      pattern <+: src.drop (last - pattern.length) then
    rtrim src pattern start (last - pattern.length)
  else last
termination_by last

/-- `trim` of both sides, the leading one and the trailing one, or null. -/
def trim (type : Int) (src pattern : List Byte) : Option (List Byte) :=
  if pattern.length = 0 then none
  else if type = 0 then
    let start := ltrim src pattern 0
    some ((src.take (rtrim src pattern start src.length)).drop start)
  else if type = 1 then some (src.drop (ltrim src pattern 0))
  else if type = 2 then some (src.take (rtrim src pattern 0 src.length))
  else none

section

variable {src pattern : List Byte} {start last : Nat}

theorem ltrim_spec (hp : pattern ≠ []) (hstart : start ≤ src.length) :
    ltrim src pattern start ≤ src.length ∧ ¬pattern <+: src.drop (ltrim src pattern start) ∧
      ∃ a, src.drop start =
        (replicate a pattern).flatten ++ src.drop (ltrim src pattern start) := by
  induction start using ltrim.induct src pattern with
  | case1 start h ih =>
    obtain ⟨hle, hnot, a, ha⟩ := ih h.2.1
    obtain ⟨rest, hrest⟩ := h.2.2
    rw [ltrim, if_pos h]
    refine ⟨hle, hnot, a + 1, ?_⟩
    rw [replicate_succ, flatten_cons, append_assoc, ← ha, ← drop_drop, ← hrest, drop_left]
  | case2 start h =>
    rw [ltrim, if_neg h]
    refine ⟨hstart, fun hpre => h ?_, 0, rfl⟩
    have hpos := length_pos_iff.2 hp
    have hlen := hpre.length_le
    rw [length_drop] at hlen
    exact ⟨hpos, by omega, hpre⟩

theorem rtrim_spec (hp : pattern ≠ []) (hstart : start ≤ last) (hlast : last ≤ src.length) :
    ¬pattern <:+ (src.take (rtrim src pattern start last)).drop start ∧
      ∃ b, (src.take last).drop start =
        (src.take (rtrim src pattern start last)).drop start ++ (replicate b pattern).flatten := by
  induction last using rtrim.induct src pattern start with
  | case1 last h ih =>
    obtain ⟨hnot, b, hb⟩ := ih (by omega) (by omega)
    obtain ⟨rest, hrest⟩ := h.2.2
    have htake : src.take last = src.take (last - pattern.length) ++ pattern := by
      conv_lhs =>
        rw [← Nat.sub_add_cancel (Nat.le_of_add_left_le h.2.1), take_add, ← hrest, take_left]
    rw [rtrim, if_pos h]
    refine ⟨hnot, b + 1, ?_⟩
    rw [htake, drop_append_of_le_length (by rw [length_take]; omega), hb, append_assoc,
      replicate_succ', flatten_concat]
  | case2 last h =>
    rw [rtrim, if_neg h]
    refine ⟨fun hsuf => h ?_, 0, by simp⟩
    have hpos := length_pos_iff.2 hp
    have hlen := hsuf.length_le
    have heq := suffix_iff_eq_drop.1 (hsuf.trans (drop_suffix start _))
    rw [length_drop, length_take] at hlen
    rw [length_take, Nat.min_eq_left hlast, drop_take] at heq
    have hpre := take_prefix (last - (last - pattern.length)) (src.drop (last - pattern.length))
    rw [← heq] at hpre
    exact ⟨hpos, by omega, hpre⟩

theorem ltrim_eq_zero (h : ¬pattern <+: src) : ltrim src pattern 0 = 0 := by
  rw [ltrim, if_neg fun hc => h hc.2.2]

theorem rtrim_eq_length (h : ¬pattern <:+ src) : rtrim src pattern 0 src.length = src.length := by
  rw [rtrim, if_neg]
  rintro ⟨-, hle, hpre⟩
  have heq := hpre.eq_of_length (by rw [length_drop]; omega)
  exact h (heq ▸ drop_suffix _ src)

/-- A string that does not start or end with the pattern on the trimmed sides stays as it is. -/
theorem trim_eq_self {type : Int} (htype : 0 ≤ type ∧ type ≤ 2) (hp : pattern ≠ [])
    (hpre : type ≠ 2 → ¬pattern <+: src) (hsuf : type ≠ 1 → ¬pattern <:+ src) :
    trim type src pattern = some src := by
  have hlen : pattern.length ≠ 0 := by simpa using hp
  obtain rfl | rfl | rfl : type = 0 ∨ type = 1 ∨ type = 2 := by omega
  · simp [trim, hlen, ltrim_eq_zero (hpre (by decide)), rtrim_eq_length (hsuf (by decide))]
  · simp [trim, hlen, ltrim_eq_zero (hpre (by decide))]
  · simp [trim, hlen, rtrim_eq_length (hsuf (by decide))]

end

/-- **`TRIM`** takes as many copies of the pattern off each requested side as there are, the leading
ones first, and nothing off the other side. -/
theorem trim_eq (type : Int) (htype : 0 ≤ type ∧ type ≤ 2) (src pattern : List Byte)
    (hp : pattern ≠ []) : ∃ a b result, trim type src pattern = some result ∧
      src = (replicate a pattern).flatten ++ (result ++ (replicate b pattern).flatten) ∧
      (if type = 2 then a = 0 else ¬pattern <+: result ++ (replicate b pattern).flatten) ∧
      (if type = 1 then b = 0 else ¬pattern <:+ result) ∧
      (type ≠ 2 → ¬pattern <+: result) ∧ trim type result pattern = some result := by
  have hlen : pattern.length ≠ 0 := by simpa using hp
  obtain ⟨hle, hpre, a, ha⟩ := ltrim_spec hp (Nat.zero_le src.length)
  have hsrc : src = (replicate a pattern).flatten ++ src.drop (ltrim src pattern 0) := ha
  obtain rfl | rfl | rfl : type = 0 ∨ type = 1 ∨ type = 2 := by omega
  · obtain ⟨hsuf, b, hb⟩ := rtrim_spec hp hle le_rfl
    rw [take_length] at hb
    rw [hb] at hsrc hpre
    have hres := fun h => hpre (IsPrefix.trans h ⟨_, rfl⟩)
    exact ⟨a, b, _, by simp [trim, hlen], hsrc, hpre, hsuf, fun _ => hres,
      trim_eq_self htype hp (fun _ => hres) fun _ => hsuf⟩
  · exact ⟨a, 0, _, by simp [trim, hlen], by simpa using hsrc, by simpa using hpre, rfl,
      fun _ => hpre, trim_eq_self htype hp (fun _ => hpre) fun h => absurd rfl h⟩
  · obtain ⟨hsuf, b, hb⟩ := rtrim_spec hp (Nat.zero_le src.length) le_rfl
    rw [take_length] at hb
    exact ⟨0, b, _, by simp [trim, hlen], hb, rfl, hsuf, fun h => absurd rfl h,
      trim_eq_self htype hp (fun h => absurd rfl h) fun _ => hsuf⟩

/-- `"ababxab"` without `"ab"` on both sides is `"x"`. -/
theorem trim_eq_ab : ∃ a b,
    trim 0 [97, 98, 97, 98, 120, 97, 98] [97, 98] = some [120] ∧
      ([97, 98, 97, 98, 120, 97, 98] : List Byte) =
        (replicate a [97, 98]).flatten ++ ([120] ++ (replicate b [97, 98]).flatten) := by
  have hvalue : trim 0 [97, 98, 97, 98, 120, 97, 98] [97, 98] = some [120] := by decide +kernel
  obtain ⟨a, b, result, h, hsrc, -⟩ := trim_eq 0 (by decide) [97, 98, 97, 98, 120, 97, 98] [97, 98]
    (by decide)
  obtain rfl := Option.some.inj (h.symm.trans hvalue)
  exact ⟨a, b, h, hsrc⟩

end OceanBase.Common
