import OceanBase.Common.ObjectCodec

/-!
# Comparing rowkeys (`ob_rowkey.cpp`, `ob_object.cpp`)

Cells of a column are compared by rank: the least value, null, the values of the column's type and
the greatest value. A rowkey that starts with the least or the greatest value is compared by that
alone. So comparing rowkeys is comparing lists of ranks (`compare_eq`).

The comparisons of floating-point and decimal numbers are parameters.
-/

namespace OceanBase.Common

open List

/-- The comparisons that the development does not look into. -/
structure NumberCompare where
  float : BitVec 32 → BitVec 32 → Ordering
  double : BitVec 64 → BitVec 64 → Ordering
  decimal : ObDecimal → ObDecimal → Ordering

namespace ObObj

/-- `MIN_OBJECT_VALUE`. -/
def minObject : ObObj := extend (2 ^ 64 - 3)

/-- `MAX_OBJECT_VALUE`. -/
def maxObject : ObObj := extend (2 ^ 64 - 2)

/-- `get_timestamp`, in microseconds; the product wraps around. -/
def getTimestamp : ObObj → Option Int
  | dateTime v _ => some (v * 1000000).toInt
  | preciseDateTime v _ | createTime v | modifyTime v => some v.toInt
  | _ => none

def canCompare (a b : ObObj) : Bool :=
  a = null || b = null || a = minObject || a = maxObject || b = minObject || b = maxObject ||
    a.ctorIdx = b.ctorIdx || (a.getTimestamp.isSome && b.getTimestamp.isSome)

/-- `compare_same_type`; types without an order are logged and taken to be equal. -/
def compareSameType (num : NumberCompare) : ObObj → ObObj → Ordering
  | int v _, int w _ => Ord.compare v.toInt w.toInt
  | decimal v _, decimal w _ => num.decimal v w
  | varchar v, varchar w =>
    Ord.compare (v.bytes.map fun x => (x.toNat : Int)) (w.bytes.map fun x => (x.toNat : Int))
  | float v _, float w _ => num.float v w
  | double v _, double w _ => num.double v w
  | bool v, bool w => Ord.compare v.toInt w.toInt
  | a, b => match a.getTimestamp, b.getTimestamp with
    | some s, some t => Ord.compare s t
    | _, _ => .eq

def compare (num : NumberCompare) (a b : ObObj) : Ordering :=
  if !a.canCompare b then Ord.compare a.ctorIdx b.ctorIdx
  else if a = minObject then if b = minObject then .eq else .lt
  else if a = maxObject then if b = maxObject then .eq else .gt
  else if a = null then if b = minObject then .gt else if b = null then .eq else .lt
  else if b = minObject ∨ b = null then .gt
  else if b = maxObject then .lt
  else a.compareSameType num b

/-- The value of a cell, as numbers to be compared one after another. -/
def value : ObObj → List Int
  | int v _ => [v.toInt]
  | varchar v => v.bytes.map fun x => (x.toNat : Int)
  | bool v => [v.toInt]
  | o => o.getTimestamp.toList

/-- The rank of a cell among those of its column. -/
def rank (o : ObObj) : List Int :=
  if o = minObject then [0] else if o = null then [1] else if o = maxObject then [3]
  else 2 :: o.value

variable {num : NumberCompare} {a b : ObObj} {t : Nat}

/-- A cell of a column of the type: of that type, null, or the least or greatest value. -/
def IsCell (t : Nat) (o : ObObj) : Prop :=
  o.ctorIdx = t ∨ o = null ∨ o = minObject ∨ o = maxObject

/-- The types that are compared exactly: all but float, double and decimal. -/
def Exact (t : Nat) : Prop := t ≠ 2 ∧ t ≠ 3 ∧ t ≠ 12

theorem compareSameType_eq (ht : Exact a.ctorIdx) (hab : a.ctorIdx = b.ctorIdx) :
    a.compareSameType num b = Ord.compare a.value b.value := by
  cases a <;> cases b <;> cases hab
  all_goals simp [compareSameType, value, getTimestamp, List.compare_eq_compareLex]
  exacts [absurd rfl ht.1, absurd rfl ht.2.1, absurd rfl ht.2.2]

theorem compare_eq (ht : Exact t) (ha : IsCell t a) (hb : IsCell t b) :
    a.compare num b = Ord.compare a.rank b.rank := by
  have hcan : a.canCompare b = true := by
    obtain rfl | rfl | rfl | rfl := ha <;> obtain h | rfl | rfl | rfl := hb <;>
      simp_all [canCompare]
  rw [compare, hcan, rank, rank]
  have hne : minObject ≠ null ∧ minObject ≠ maxObject ∧ maxObject ≠ null := by
    simp [minObject, maxObject]
  -- Only two values of the column's type come to `compareSameType`.
  obtain ha | ha := ha
  · obtain hb | hb := hb
    · have hsame := @compareSameType_eq num a b (ha ▸ ht) (ha.trans hb.symm)
      split_ifs <;> simp_all [List.compare_eq_compareLex] <;> rfl
    · obtain rfl | rfl | rfl := hb <;> split_ifs <;> simp_all [List.compare_eq_compareLex] <;> rfl
  · obtain rfl | rfl | rfl := ha <;> split_ifs <;> simp_all [List.compare_eq_compareLex] <;> rfl

theorem rank_eq_zero : a.rank = [0] ↔ a = minObject := by
  unfold rank
  split_ifs <;> simp_all

theorem rank_eq_three : a.rank = [3] ↔ a = maxObject := by
  unfold rank
  split_ifs <;> simp_all [minObject, maxObject]

end ObObj

namespace Rowkey

/-- `compare` without rowkey info; a key is less than those it begins. -/
def compare (num : NumberCompare) (a b : List ObObj) : Ordering :=
  if a.head? = some .minObject ∧ b.head? = some .minObject then .eq
  else if a.head? = some .maxObject ∧ b.head? = some .maxObject then .eq
  else List.compareLex (ObObj.compare num) a b

/-- The cells are of the types of their columns. -/
def IsKey : List Nat → List ObObj → Prop
  | _, [] => True
  | [], _ :: _ => False
  | t :: types, o :: os => o.IsCell t ∧ IsKey types os

variable {num : NumberCompare} {types : List Nat} {a b c : List ObObj}

/-- The ranks that count: only the first one where it is the least or the greatest. -/
def ranks : List ObObj → List (List Int)
  | [] => []
  | o :: os => o.rank :: if o = .minObject ∨ o = .maxObject then [] else os.map ObObj.rank

theorem compareLex_eq (ht : ∀ t ∈ types, ObObj.Exact t) (ha : IsKey types a)
    (hb : IsKey types b) : List.compareLex (ObObj.compare num) a b =
      List.compareLex Ord.compare (a.map ObObj.rank) (b.map ObObj.rank) := by
  induction types generalizing a b with
  | nil =>
    rcases a with _ | ⟨o, a⟩ <;> rcases b with _ | ⟨o', b⟩
    · rfl
    all_goals simp_all [IsKey]
  | cons t types ih =>
    rcases a with _ | ⟨o, a⟩ <;> rcases b with _ | ⟨o', b⟩
    · rfl
    · rfl
    · rfl
    · rw [map_cons, map_cons, List.compareLex_cons_cons, List.compareLex_cons_cons,
        ObObj.compare_eq (ht t mem_cons_self) ha.1 hb.1,
        ih (forall_mem_cons.1 ht).2 ha.2 hb.2]

theorem compare_eq (ht : ∀ t ∈ types, ObObj.Exact t) (ha : IsKey types a) (hb : IsKey types b) :
    compare num a b = Ord.compare (ranks a) (ranks b) := by
  rw [compare, compareLex_eq ht ha hb]
  change _ = List.compareLex Ord.compare (ranks a) (ranks b)
  rcases a with _ | ⟨o, a⟩ <;> rcases b with _ | ⟨o', b⟩
  · rfl
  · rfl
  · simp [ranks, List.compareLex_cons_nil]
  · simp only [ranks, map_cons, List.compareLex_cons_cons, head?_cons, Option.some.injEq,
      ← ObObj.rank_eq_zero, ← ObObj.rank_eq_three]
    -- The rest counts only where the first ranks are the same, and then a shortcut is for both.
    by_cases heq : o.rank = o'.rank
    · have hself : Ord.compare o.rank o.rank = .eq := Std.ReflCmp.compare_self
      rw [← heq, hself]
      split_ifs <;> simp_all [List.compareLex_nil_nil]
    · have hne : Ord.compare o.rank o'.rank ≠ .eq := by simpa using heq
      rw [if_neg fun h => heq (h.1.trans h.2.symm), if_neg fun h => heq (h.1.trans h.2.symm)]
      cases hcmp : Ord.compare o.rank o'.rank with
      | eq => exact absurd hcmp hne
      | lt | gt => rfl

/-- **Rowkeys** of a table are totally preordered, with the row of the least value below and that of
the greatest value above all that do not start with one of them. -/
theorem compare_preorder (ht : ∀ t ∈ types, ObObj.Exact t) (ha : IsKey types a)
    (hb : IsKey types b) (hc : IsKey types c) :
    compare num a a = .eq ∧ compare num b a = (compare num a b).swap ∧
      ((compare num a b).isLE → (compare num b c).isLE → (compare num a c).isLE) ∧
      ∀ o ∈ a.head?, o ≠ .minObject → o ≠ .maxObject →
        compare num [.minObject] a = .lt ∧ compare num a [.maxObject] = .lt := by
  rw [compare_eq ht ha ha, compare_eq ht ha hb, compare_eq ht hb ha, compare_eq ht hb hc,
    compare_eq ht ha hc]
  refine ⟨Std.ReflCmp.compare_self, Std.OrientedCmp.eq_swap, Std.TransCmp.isLE_trans, ?_⟩
  intro o ho hmin hmax
  obtain ⟨os, rfl⟩ := head?_eq_some_iff.1 ho
  have hmin' : ObObj.compare num .minObject o = .lt := by
    simp [ObObj.compare, ObObj.canCompare, hmin]
  have hmax' : ObObj.compare num o .maxObject = .lt := by
    have hne : ObObj.maxObject ≠ .minObject ∧ ObObj.maxObject ≠ .null := by
      simp [ObObj.minObject, ObObj.maxObject]
    simp [ObObj.compare, ObObj.canCompare, hmin, hmax, hne]
  simp [compare, List.compareLex_cons_cons, hmin, hmax, hmin', hmax']

/-- Three keys, of which the first has a null in its second column. -/
theorem compare_preorder_oneNull :
    let num : NumberCompare := ⟨fun _ _ => .eq, fun _ _ => .eq, fun _ _ => .eq⟩
    let a : List ObObj := [.int 1 true, .null]
    let b : List ObObj := [.int 1 true, .varchar ⟨[97], by decide⟩]
    let c : List ObObj := [.int 2 true, .null]
    compare num a a = .eq ∧ compare num b a = (compare num a b).swap ∧
      ((compare num a b).isLE → (compare num b c).isLE → (compare num a c).isLE) ∧
      compare num [.minObject] a = .lt ∧ compare num a [.maxObject] = .lt := by
  intro num a b c
  have ha : IsKey [1, 6] a := ⟨.inl rfl, .inr (.inl rfl), trivial⟩
  have hb : IsKey [1, 6] b := ⟨.inl rfl, .inl rfl, trivial⟩
  have hc : IsKey [1, 6] c := ⟨.inl rfl, .inr (.inl rfl), trivial⟩
  obtain ⟨hrefl, hswap, htrans, hlimits⟩ :=
    @compare_preorder num _ a b c (by simp [ObObj.Exact]) ha hb hc
  exact ⟨hrefl, hswap, htrans, hlimits _ rfl (by simp [ObObj.minObject])
    (by simp [ObObj.maxObject])⟩

end Rowkey

end OceanBase.Common
