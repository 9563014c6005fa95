import OceanBase.Common.ObjectCodec

/-!
# Checksums of objects (`ob_object.cpp`)

`checksum` means to feed the type and the add flag of an object before its value, but copies them
from the empty header into itself. So objects of different types with the same bytes as their value
have the same checksum (`checksum_iff`).
-/

namespace OceanBase.Common

open Lib List

namespace ObObj

def valueBytes : ObObj → List Byte
  | null | seq => []
  | int v _ | double v _ | dateTime v _ | preciseDateTime v _ | createTime v | modifyTime v
  | extend v => leBytes 8 v
  | float v _ => leBytes 4 v
  | varchar v => v.bytes
  | bool v => [if v then 1 else 0]
  | decimal v _ => v.words.flatMap (leBytes 4)

/-- The header as `memset` leaves it. -/
def emptyMeta : List Byte := [0, 0, 0, 0]

/-- `checksum` of a running checksum; there is nothing to add for null and sequences. -/
def checksum {σ : Type} (crc64 : σ → List Byte → σ) (current : σ) (o : ObObj) : σ :=
  match o with
  | null | seq => crc64 current emptyMeta
  | _ => crc64 (crc64 current emptyMeta) o.valueBytes

/-- `checksum` into a batch, as what is filled into it one after another. -/
def checksumFills (o : ObObj) : List (List Byte) :=
  match o with
  | null | seq => [emptyMeta]
  | _ => [emptyMeta, o.valueBytes]

/-- The type, the add flag and the scales, which the bytes of the value do not tell. Two decimals
with the same digits and other scales are other objects here, also where precision and scale only
say how the same number is kept. -/
def header : ObObj → Nat × Bool × Option (BitVec 7 × BitVec 6 × BitVec 6)
  | o@(int _ isAdd) | o@(float _ isAdd) | o@(double _ isAdd) | o@(dateTime _ isAdd)
  | o@(preciseDateTime _ isAdd) => (o.ctorIdx, isAdd, none)
  | o@(decimal v isAdd) => (o.ctorIdx, isAdd, some (v.precision, v.scale, v.vscale))
  | o => (o.ctorIdx, false, none)

end ObObj

theorem leBytes_injective {w n : Nat} (hw : w ≤ 8 * n) :
    Function.Injective (leBytes n : BitVec w → List Byte) := by
  have hlt (v : BitVec w) : v.toNat < 2 ^ (8 * n) :=
    Nat.lt_of_lt_of_le v.isLt (Nat.pow_le_pow_right (by decide) hw)
  exact Function.LeftInverse.injective fun v => leValue_leBytes (hlt v)

theorem words_injective {ws ws' : List (BitVec 32)}
    (h : ws.flatMap (leBytes 4) = ws'.flatMap (leBytes 4)) : ws = ws' := by
  induction ws generalizing ws' with
  | nil =>
    rcases ws' with _ | ⟨w', ws'⟩
    · rfl
    · simp [leBytes] at h
  | cons w ws ih =>
    rcases ws' with _ | ⟨w', ws'⟩
    · simp [leBytes] at h
    · obtain ⟨hhead, htail⟩ := append_inj h (by simp)
      rw [leBytes_injective (by decide) hhead, ih htail]

namespace ObObj

theorem eq_of_header {a b : ObObj} (hheader : a.header = b.header)
    (hvalue : a.valueBytes = b.valueBytes) : a = b := by
  have hlong {v v' : BitVec 64} : leBytes 8 v = leBytes 8 v' ↔ v = v' :=
    (leBytes_injective (by decide)).eq_iff
  have hshort {v v' : BitVec 32} : leBytes 4 v = leBytes 4 v' ↔ v = v' :=
    (leBytes_injective (by decide)).eq_iff
  -- The type is in the header, so only pairs of one type are left.
  cases a <;> cases b <;> cases congrArg Prod.fst hheader
  all_goals simp_all [header, valueBytes]
  case varchar.varchar v v' =>
    cases v
    cases v'
    cases hvalue
    rfl
  case bool.bool v v' =>
    revert hvalue
    cases v <;> cases v' <;> decide
  case decimal.decimal v _ v' _ =>
    have hwords := words_injective hvalue
    cases v
    cases v'
    simp_all

theorem flatten_checksumFills (o : ObObj) :
    o.checksumFills.flatten = emptyMeta ++ o.valueBytes := by
  cases o <;> simp [checksumFills, valueBytes]

/-- **Checksums.** Both functions feed the same bytes, and these differ for different objects
exactly where the bytes of the values alone tell the types, the add flags and the scales. -/
theorem checksum_iff (a b : ObObj) :
    (∀ (σ : Type) (crc64 : σ → List Byte → σ) (current : σ),
        a.checksum crc64 current = a.checksumFills.foldl crc64 current) ∧
      (a ≠ b → a.checksumFills.flatten ≠ b.checksumFills.flatten) ↔
      (a.valueBytes = b.valueBytes → a.header = b.header) := by
  have hfed : ∀ (σ : Type) (crc64 : σ → List Byte → σ) (current : σ),
      a.checksum crc64 current = a.checksumFills.foldl crc64 current := by
    intro σ crc64 current
    cases a <;> rfl
  rw [and_iff_right hfed, flatten_checksumFills, flatten_checksumFills, ne_eq, ne_eq,
    append_cancel_left_eq, not_imp_not]
  exact ⟨fun h hvalue => h hvalue ▸ rfl, fun h hvalue => eq_of_header (h hvalue) hvalue⟩

/-- A number and the same number that is to be added. -/
theorem checksumFills_addFlag : int 1 false ≠ int 1 true ∧
    (int 1 false).checksumFills.flatten = (int 1 true).checksumFills.flatten := by
  decide

end ObObj

end OceanBase.Common
