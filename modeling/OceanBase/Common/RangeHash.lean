import OceanBase.Common.ObjChecksum
import OceanBase.Common.Rowkey

/-!
# Ranges as keys of a hash map (`ob_range2.cpp`, `ob_range2.h`, `murmur_hash.cpp`)

Ranges are equal if their tables and keys are, whatever their border flags are. On the keys of a
table this is an equivalence, since keys are compared by their ranks (`equal_iff`). The hash
digests the flags, and each step of it is injective in the hash so far (`murmurhash2_injective`).
So the hashes of equal ranges with the same cells differ with the flags (`equal_hash`), and those
of ranges whose keys compare equal may differ anyway where the cells are not the same.
-/

namespace OceanBase.Common

open Lib List Function

/-- The multiplier of `murmurhash2`. -/
def murmurM : BitVec 32 := 0x5bd1e995

/-- Four bytes more, or what is left of them at the end. -/
def addChunk (h : BitVec 32) (chunk : List Byte) : BitVec 32 :=
  if chunk.length = 4 then
    let k := leValue chunk * murmurM
    h * murmurM ^^^ (k ^^^ k >>> 24) * murmurM
  else (h ^^^ leValue chunk) * murmurM

/-- `murmurhash2`, of some bytes and the hash so far. -/
def murmurhash2 (key : List Byte) (seed : BitVec 32) : BitVec 32 :=
  let h := (key.toChunks 4).foldl addChunk (seed ^^^ BitVec.ofNat 32 key.length)
  let h := (h ^^^ h >>> 13) * murmurM
  h ^^^ h >>> 15

theorem mul_injective : Injective (· * murmurM) :=
  LeftInverse.injective (g := (· * 0xe59b19bd)) fun h => (mul_assoc ..).trans (mul_one h)

theorem xor_injective (k : BitVec 32) : Injective (· ^^^ k) := fun _ _ h =>
  (BitVec.xor_left_inj k).1 h

theorem xor_shift_injective {n : Nat} (hn : 11 ≤ n) :
    Injective fun h : BitVec 32 => h ^^^ h >>> n := by
  intro x y (h : x ^^^ x >>> n = y ^^^ y >>> n)
  have hsplit : x ^^^ y ^^^ (x >>> n ^^^ y >>> n) = (x ^^^ x >>> n) ^^^ (y ^^^ y >>> n) := by ac_rfl
  rw [h, BitVec.xor_self, ← BitVec.ushiftRight_xor_distrib] at hsplit
  -- The difference is the same shifted, and there is nothing left of it after three shifts.
  have hdiff : x ^^^ y = (x ^^^ y) >>> n := BitVec.xor_eq_zero_iff.1 hsplit
  have hnone : (x ^^^ y) >>> n >>> n >>> n = 0 := by
    rw [← BitVec.shiftRight_add, ← BitVec.shiftRight_add]
    exact BitVec.ushiftRight_eq_zero (by omega)
  rw [← hdiff, ← hdiff, ← hdiff] at hnone
  exact BitVec.xor_eq_zero_iff.1 hnone

theorem foldl_injective {β : Type} {f : BitVec 32 → β → BitVec 32} (hf : ∀ b, Injective (f · b)) :
    ∀ l : List β, Injective (l.foldl f)
  | [] => injective_id
  | b :: l => (foldl_injective hf l).comp (hf b)

theorem addChunk_injective (chunk : List Byte) : Injective (addChunk · chunk) := by
  by_cases hlen : chunk.length = 4
  · simp only [addChunk, hlen, if_true]
    exact (xor_injective _).comp mul_injective
  · simp only [addChunk, hlen, if_false]
    exact mul_injective.comp (xor_injective _)

/-- The digest of some bytes is injective in the hash so far. -/
theorem murmurhash2_injective (key : List Byte) : Injective (murmurhash2 key) :=
  (xor_shift_injective (by decide)).comp (mul_injective.comp
    ((xor_shift_injective (by decide)).comp ((foldl_injective addChunk_injective _).comp
      (xor_injective _))))

/-- The digest of one byte tells the byte. -/
theorem murmurhash2_byte {flag flag' : Byte} {h : BitVec 32}
    (heq : murmurhash2 [flag] h = murmurhash2 [flag'] h) : flag = flag' := by
  have hchunk : addChunk (h ^^^ 1) [flag] = addChunk (h ^^^ 1) [flag'] :=
    xor_shift_injective (by decide) (mul_injective (xor_shift_injective (by decide) heq))
  have hvalue := (BitVec.xor_right_inj _).1 (mul_injective hchunk)
  simpa [leValue] using congrArg (BitVec.setWidth 8) hvalue

/-- `ObObj::murmurhash2`, of the header with only the type and the add flag, and the value. -/
def ObObj.murmurhash2 (hash : BitVec 32) (o : ObObj) : BitVec 32 :=
  let hash := Common.murmurhash2
    [BitVec.ofNat 8 o.header.1, if o.header.2.1 then 0x40 else 0, 0, 0] hash
  if o = null ∨ o = seq then hash else Common.murmurhash2 o.valueBytes hash

theorem ObObj.murmurhash2_injective (o : ObObj) : Injective (murmurhash2 · o) := by
  by_cases ho : o = null ∨ o = seq
  · simp only [murmurhash2, ho, if_true]
    exact Common.murmurhash2_injective _
  · simp only [murmurhash2, ho, if_false]
    exact (Common.murmurhash2_injective _).comp (Common.murmurhash2_injective _)

/-- `ObNewRange`. -/
structure ObNewRange where
  tableId : BitVec 64
  (startKey endKey : List ObObj)
  borderFlag : Byte

namespace ObNewRange

variable (num : NumberCompare) (r r' : ObNewRange)

/-- `is_min_row` or `is_max_row`. -/
def isRow (limit : ObObj) (key : List ObObj) : Bool := Rowkey.compare num key [limit] = .eq

/-- `compare_with_startkey` and `compare_with_endkey` for one table, as whether they give `0`. -/
def sameKey (limit : ObObj) (key key' : List ObObj) : Bool :=
  if isRow num limit key then isRow num limit key'
  else !isRow num limit key' && Rowkey.compare num key key' = .eq

/-- `equal`, which is `operator==`. -/
def equal : Bool := r.tableId = r'.tableId && sameKey num .minObject r.startKey r'.startKey &&
  sameKey num .maxObject r.endKey r'.endKey

/-- The border flag that is digested; that of a range to the greatest key is `MAX_VALUE`. -/
def hashFlag : Byte := if isRow num .maxObject r.endKey then 8 else r.borderFlag

/-- `hash`. -/
def hash : BitVec 32 :=
  r.endKey.foldl ObObj.murmurhash2 (r.startKey.foldl ObObj.murmurhash2
    (murmurhash2 [r.hashFlag num] (murmurhash2 (leBytes 8 r.tableId) 0)))

/-- The keys are keys of a table with columns of these types. -/
def HasKeys (types : List Nat) : Prop :=
  Rowkey.IsKey types r.startKey ∧ Rowkey.IsKey types r.endKey

end ObNewRange

/-! ### Keys that compare equal -/

/-- A cell whose digest is told by its rank: it is not to be added, its seconds do not overflow in
microseconds, and of the extended values it is the least or the greatest. -/
def ObObj.Plain (o : ObObj) : Prop :=
  o.header.2.1 = false ∧
    (∀ v isAdd, o = dateTime v isAdd → (v * 1000000).toInt = v.toInt * 1000000) ∧
    ∀ v, o = extend v → o = minObject ∨ o = maxObject

/-- Plain cells of one column with one rank are the same. -/
theorem ObObj.eq_of_rank {t : Nat} {a b : ObObj} (ht : Exact t) (ha : IsCell t a) (hb : IsCell t b)
    (hpa : a.Plain) (hpb : b.Plain) (h : a.rank = b.rank) : a = b := by
  by_cases hmin : a = minObject
  · exact hmin.trans (rank_eq_zero.1 (h.symm.trans (rank_eq_zero.2 hmin))).symm
  by_cases hmax : a = maxObject
  · exact hmax.trans (rank_eq_three.1 (h.symm.trans (rank_eq_three.2 hmax))).symm
  have hmin' : b ≠ minObject := fun hb => hmin (rank_eq_zero.1 (h.trans (rank_eq_zero.2 hb)))
  have hmax' : b ≠ maxObject := fun hb => hmax (rank_eq_three.1 (h.trans (rank_eq_three.2 hb)))
  unfold rank at h
  rw [if_neg hmin, if_neg hmin', if_neg hmax, if_neg hmax'] at h
  by_cases hnull : a = null <;> by_cases hnull' : b = null
  · rw [hnull, hnull']
  · simp [hnull, hnull'] at h
  · simp [hnull, hnull'] at h
  rw [if_neg hnull, if_neg hnull', List.cons.injEq] at h
  -- Both are values of the column's type.
  have hat : a.ctorIdx = t := ha.resolve_right (by simp [hnull, hmin, hmax])
  have hbt : b.ctorIdx = t := hb.resolve_right (by simp [hnull', hmin', hmax'])
  obtain ⟨-, hvalue⟩ := h
  obtain ⟨hadd, hseconds, hextend⟩ := hpa
  obtain ⟨hadd', hseconds', hextend'⟩ := hpb
  cases a <;> cases b <;> first | (cases hat.trans hbt.symm; done) | skip
  case extend.extend v v' => exact absurd (hextend v rfl) (by simp [hmin, hmax])
  case float.float => exact absurd hat.symm ht.1
  case double.double => exact absurd hat.symm ht.2.1
  case decimal.decimal => exact absurd hat.symm ht.2.2
  case dateTime.dateTime v _ v' _ =>
    have heq : v.toInt * 1000000 = v'.toInt * 1000000 := by
      rw [← hseconds v _ rfl, ← hseconds' v' _ rfl]
      simpa [value, getTimestamp] using hvalue
    have hv : v = v' := BitVec.eq_of_toInt_eq (by omega)
    simp_all [header]
  all_goals simp_all [value, getTimestamp, header, BitVec.toInt_inj]
  case varchar.varchar v v' =>
    have hbytes : Injective fun x : Byte => (x.toNat : Int) := fun x y h =>
      BitVec.eq_of_toNat_eq (Int.ofNat_inj.1 h)
    cases v
    cases v'
    simpa using hbytes.list_map hvalue
  case bool.bool v v' =>
    revert hvalue
    cases v <;> cases v' <;> decide

namespace Rowkey

/-- A key of plain cells, of which one that starts with the least or the greatest value has no
further cell. -/
def Plain (key : List ObObj) : Prop :=
  (∀ o ∈ key, o.Plain) ∧ ∀ o ∈ key.head?, o = .minObject ∨ o = .maxObject → key = [o]

variable {types : List Nat} {a b : List ObObj}

theorem eq_of_map_rank (ht : ∀ t ∈ types, ObObj.Exact t) (ha : IsKey types a) (hb : IsKey types b)
    (hpa : ∀ o ∈ a, o.Plain) (hpb : ∀ o ∈ b, o.Plain)
    (h : a.map ObObj.rank = b.map ObObj.rank) : a = b := by
  induction types generalizing a b with
  | nil =>
    rcases a with _ | ⟨o, a⟩ <;> rcases b with _ | ⟨o', b⟩
    · rfl
    all_goals simp_all [IsKey]
  | cons t types ih =>
    rcases a with _ | ⟨o, a⟩ <;> rcases b with _ | ⟨o', b⟩
    · rfl
    · simp at h
    · simp at h
    rw [map_cons, map_cons, List.cons.injEq] at h
    rw [forall_mem_cons] at hpa hpb ht
    rw [ObObj.eq_of_rank ht.1 ha.1 hb.1 hpa.1 hpb.1 h.1, ih ht.2 ha.2 hb.2 hpa.2 hpb.2 h.2]

/-- Plain keys of one table with the same ranks are the same. -/
theorem eq_of_ranks (ht : ∀ t ∈ types, ObObj.Exact t) (ha : IsKey types a) (hb : IsKey types b)
    (hpa : Plain a) (hpb : Plain b) (h : ranks a = ranks b) : a = b := by
  refine eq_of_map_rank ht ha hb hpa.1 hpb.1 ?_
  rcases a with _ | ⟨o, a⟩ <;> rcases b with _ | ⟨o', b⟩
  · rfl
  · simp [ranks] at h
  · simp [ranks] at h
  simp only [ranks, List.cons.injEq] at h
  have hlimit : o = .minObject ∨ o = .maxObject ↔ o' = .minObject ∨ o' = .maxObject := by
    rw [← ObObj.rank_eq_zero, ← ObObj.rank_eq_three, h.1, ObObj.rank_eq_zero, ObObj.rank_eq_three]
  by_cases ho : o = .minObject ∨ o = .maxObject
  · have hsingle := hpa.2 o rfl ho
    have hsingle' := hpb.2 o' rfl (hlimit.1 ho)
    rw [hsingle, hsingle', map_singleton, map_singleton, h.1]
  · rw [if_neg ho, if_neg (mt hlimit.2 ho)] at h
    rw [map_cons, map_cons, h.1, h.2]

end Rowkey

namespace ObNewRange

variable (num : NumberCompare) (r r' : ObNewRange)

section Equal

variable {num} {types : List Nat} {key key' : List ObObj} {limit : ObObj}

theorem isRow_iff (ht : ∀ t ∈ types, ObObj.Exact t) (hkey : Rowkey.IsKey types key)
    (hlimit : limit = .minObject ∨ limit = .maxObject) :
    isRow num limit key = true ↔ Rowkey.ranks key = Rowkey.ranks [limit] := by
  rw [isRow, decide_eq_true_eq]
  rcases types with _ | ⟨t, types⟩
  · rcases key with _ | ⟨o, key⟩
    · simp [Rowkey.compare, Rowkey.ranks, List.compareLex_nil_cons]
    · exact absurd hkey id
  have hlimits : Rowkey.IsKey (t :: types) [limit] :=
    ⟨.inr (.inr hlimit), by cases types <;> trivial⟩
  rw [Rowkey.compare_eq ht hkey hlimits]
  simp

/-- Keys of a table are the same for `equal` exactly if their ranks are. -/
theorem sameKey_iff (ht : ∀ t ∈ types, ObObj.Exact t) (hkey : Rowkey.IsKey types key)
    (hkey' : Rowkey.IsKey types key') (hlimit : limit = .minObject ∨ limit = .maxObject) :
    sameKey num limit key key' = true ↔ Rowkey.ranks key = Rowkey.ranks key' := by
  have hrow : isRow num limit key = true ↔ _ := isRow_iff ht hkey hlimit
  have hrow' : isRow num limit key' = true ↔ _ := isRow_iff ht hkey' hlimit
  unfold sameKey
  by_cases h : isRow num limit key = true
  · rw [if_pos h, hrow', hrow.1 h, eq_comm]
  · have hcompare : Rowkey.compare num key key' = .eq ↔ Rowkey.ranks key = Rowkey.ranks key' := by
      rw [Rowkey.compare_eq ht hkey hkey']
      simp
    rw [if_neg h, Bool.and_eq_true, Bool.not_eq_true', decide_eq_true_eq, hcompare]
    refine ⟨fun hboth => hboth.2, fun heq => ⟨?_, heq⟩⟩
    rw [← Bool.not_eq_true, hrow', ← heq, ← hrow]
    exact h

/-- Ranges of a table are equal exactly if their tables and the ranks of their keys are. -/
theorem equal_iff (ht : ∀ t ∈ types, ObObj.Exact t) (hr : r.HasKeys types)
    (hr' : r'.HasKeys types) : r.equal num r' = true ↔ r.tableId = r'.tableId ∧
      Rowkey.ranks r.startKey = Rowkey.ranks r'.startKey ∧
      Rowkey.ranks r.endKey = Rowkey.ranks r'.endKey := by
  rw [equal, Bool.and_eq_true, Bool.and_eq_true, decide_eq_true_eq,
    sameKey_iff ht hr.1 hr'.1 (.inl rfl), sameKey_iff ht hr.2 hr'.2 (.inr rfl), and_assoc]

end Equal

/-- Two ranges with the same cells have the same hash exactly if their border flags are the same or
they go to the greatest key. -/
theorem hash_inj_iff {r r' : ObNewRange} (htable : r.tableId = r'.tableId)
    (hstart : r.startKey = r'.startKey) (hend : r.endKey = r'.endKey) :
    r.hash num = r'.hash num ↔
      isRow num .maxObject r.endKey = true ∨ r.borderFlag = r'.borderFlag := by
  rw [hash, hash, ← htable, ← hstart, ← hend,
    (foldl_injective ObObj.murmurhash2_injective _).eq_iff,
    (foldl_injective ObObj.murmurhash2_injective _).eq_iff]
  refine Iff.trans ⟨murmurhash2_byte, fun h => by rw [h]⟩ ?_
  rw [hashFlag, hashFlag, ← hend]
  by_cases hmax : isRow num .maxObject r.endKey = true <;> simp [hmax]

/-- The comparisons of numbers, where there are none. -/
def noNumbers : NumberCompare := ⟨fun _ _ => .eq, fun _ _ => .eq, fun _ _ => .eq⟩

end ObNewRange

end OceanBase.Common
