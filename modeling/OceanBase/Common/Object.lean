import OceanBase.Common.Define
import OceanBase.Lib.Except

/-!
# Objects and cells (`ob_object.cpp`, `ob_define.h`)

An object is the value of a cell. `apply` merges a later value of a column into an earlier one:
numbers that carry the add flag are added, create times are minimised, modify times maximised,
and everything else is overwritten.

Extended objects occur only as marks of a whole row (deleted, nop, does not exist), under the
invalid column id; a `Cell` is such a mark or the value of a column. Floating-point and decimal
addition are parameters.
-/

namespace OceanBase.Common

open Lib

/-- The number in a decimal object, with its declared precision and scale. -/
structure Decimal where
  precision : Nat
  scale : Nat
  words : List (BitVec 32)
  deriving DecidableEq, Repr

/-- `ObObj`, without the extended type. -/
inductive Obj where
  | null
  | int (value : BitVec 64) (isAdd : Bool)
  | float (value : BitVec 32) (isAdd : Bool)
  | double (value : BitVec 64) (isAdd : Bool)
  | dateTime (value : BitVec 64) (isAdd : Bool)
  | preciseDateTime (value : BitVec 64) (isAdd : Bool)
  | varchar (value : List UInt8)
  | seq
  | createTime (value : Int)
  | modifyTime (value : Int)
  | bool (value : Bool)
  | decimal (value : Decimal) (isAdd : Bool)
  deriving DecidableEq, Repr

/-- Addition of the numbers that the development does not look into. -/
structure Arith where
  addFloat : BitVec 32 → BitVec 32 → BitVec 32
  addDouble : BitVec 64 → BitVec 64 → BitVec 64
  addDecimal : List (BitVec 32) → List (BitVec 32) → Except Ret (List (BitVec 32))

namespace Obj

/-- A number `org` with a mutation applied: added or overwritten, with the add flag only if both
have it. -/
def applyNumber {α : Type} (add : α → α → α) (org : α) (orgIsAdd : Bool) (mutation : α)
    (isAdd : Bool) : α × Bool :=
  (if isAdd then add org mutation else mutation, orgIsAdd && isAdd)

variable (arith : Arith)

/-- `applyNumber` on decimals, whose addition can fail; the precision and scale stay. -/
def applyDecimal (org : Decimal) (orgIsAdd : Bool) (mutation : Decimal)
    (isAdd : Bool) : Except Ret Obj :=
  (if isAdd then arith.addDecimal org.words mutation.words else .ok mutation.words).map
    fun words => decimal ⟨org.precision, org.scale, words⟩ (orgIsAdd && isAdd)

/-- `apply`: merge the second object into the first. A null takes part as a zero, and objects of
different types do not mix. -/
def apply : Obj → Obj → Except Ret Obj
  | _, seq => .error .invalidArgument
  | _, null => .ok null
  | null, varchar s => .ok (varchar s)
  | varchar _, varchar s => .ok (varchar s)
  | null, bool b => .ok (bool b)
  | bool _, bool b => .ok (bool b)
  | null, int m isAdd => .ok (Function.uncurry int (applyNumber (· + ·) 0 false m isAdd))
  | int v orgIsAdd, int m isAdd =>
    .ok (Function.uncurry int (applyNumber (· + ·) v orgIsAdd m isAdd))
  | null, float m isAdd => .ok (Function.uncurry float (applyNumber arith.addFloat 0 false m isAdd))
  | float v orgIsAdd, float m isAdd =>
    .ok (Function.uncurry float (applyNumber arith.addFloat v orgIsAdd m isAdd))
  | null, double m isAdd =>
    .ok (Function.uncurry double (applyNumber arith.addDouble 0 false m isAdd))
  | double v orgIsAdd, double m isAdd =>
    .ok (Function.uncurry double (applyNumber arith.addDouble v orgIsAdd m isAdd))
  | null, dateTime m isAdd => .ok (Function.uncurry dateTime (applyNumber (· + ·) 0 false m isAdd))
  | dateTime v orgIsAdd, dateTime m isAdd =>
    .ok (Function.uncurry dateTime (applyNumber (· + ·) v orgIsAdd m isAdd))
  | null, preciseDateTime m isAdd =>
    .ok (Function.uncurry preciseDateTime (applyNumber (· + ·) 0 false m isAdd))
  | preciseDateTime v orgIsAdd, preciseDateTime m isAdd =>
    .ok (Function.uncurry preciseDateTime (applyNumber (· + ·) v orgIsAdd m isAdd))
  | null, createTime m => .ok (createTime m)
  | createTime v, createTime m => .ok (createTime (min v m))
  | null, modifyTime m => .ok (modifyTime m)
  | modifyTime v, modifyTime m => .ok (modifyTime (max v m))
  | null, decimal m isAdd => applyDecimal arith ⟨0, 0, []⟩ false m isAdd
  | decimal v orgIsAdd, decimal m isAdd => applyDecimal arith v orgIsAdd m isAdd
  | _, _ => .error .invalidArgument

def isAdd : Obj → Bool
  | int _ a | float _ a | double _ a | dateTime _ a | preciseDateTime _ a | decimal _ a => a
  | _ => false

def isTime : Obj → Bool
  | createTime _ | modifyTime _ => true
  | _ => false

/-- A value that can stand in a row key: it overwrites, and it is no time of the row. -/
def isKey (o : Obj) : Bool := !o.isAdd && !o.isTime && decide (o ≠ seq)

theorem isTime_applyDecimal {arith : Arith} {org mutation : Decimal} {orgIsAdd isAdd : Bool}
    {o : Obj} (h : applyDecimal arith org orgIsAdd mutation isAdd = .ok o) : o.isTime = false := by
  obtain ⟨words, -, rfl⟩ := except_map_eq_ok.1 h
  rfl

theorem isTime_apply {arith : Arith} {org mutation o : Obj} (hm : mutation.isTime = false)
    (h : apply arith org mutation = .ok o) : o.isTime = false := by
  unfold apply at h
  split at h <;> first
    | exact isTime_applyDecimal h
    | cases hm; done
    | cases h; rfl
    | cases h

theorem apply_self_of_isKey {o : Obj} (h : o.isKey = true) :
    apply arith o o = .ok o := by
  cases o with
  | null | varchar | bool => rfl
  | seq | createTime | modifyTime => cases h
  | int v a | float v a | double v a | dateTime v a | preciseDateTime v a | decimal v a =>
    rcases a with _ | _
    · rfl
    · cases h

end Obj

/-! ### Cells -/

/-- A column of a table: the two time columns, a column of the row key, or any other. -/
inductive Column where
  | createTime
  | modifyTime
  | key (index : Nat)
  | data (id : Nat)
  deriving DecidableEq, Repr

/-- What an iterator over a row yields (`ObCellInfo`): a mark of the row, or a value. -/
inductive Cell where
  | delRow
  | nop
  | rowDoesNotExist
  | value (column : Column) (obj : Obj)
  deriving DecidableEq, Repr

/-- The cell's object as a modify time. -/
def Cell.modifyTime? : Cell → Option Int
  | .value _ (.modifyTime t) => some t
  | _ => none

end OceanBase.Common
