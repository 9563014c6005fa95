import OceanBase.Common.Define
import OceanBase.Lib.Run

/-!
# Casting the rowkeys of an IN list (`ob_sql_read_strategy.cpp`, `ob_rowkey.cpp`, `ob_obj_cast.cpp`)

In `find_rowkeys_from_in_expr` the cells that are cast to varchar are printed into one buffer of
`OB_MAX_ROW_LENGTH` bytes. The pointer into it moves on by what each rowkey has used, but the total
from which the room is computed is only that of the last one (`total_used_buf_len = used_buf_len`).
So from the third rowkey on a text may be written behind the end of the buffer.

`castCells_reach` says that the cast of one rowkey keeps to the room it is given, which is what is
left of the buffer for the first two rowkeys; `castCells_within` that it writes no more than the
rowkey's texts and one terminator, so that nothing goes wrong where all texts fit the buffer.
-/

namespace OceanBase.Sql

open Lib List

namespace CastRowkeys

/-! ### The source's functions -/

/-- `OB_MAX_ROW_LENGTH`: `OB_MAX_PACKET_LENGTH - 512 * 1024`. -/
def maxRowLength : Nat := 2 ^ 21 - 512 * 1024

/-- `ObNumber::MAX_PRINTABLE_SIZE`. -/
def maxPrintableSize : Nat := 128

/-- `ObObjType`. -/
inductive ObjType where
  | null | int | float | double | dateTime | preciseDateTime | varchar | seq | createTime
  | modifyTime | extend | bool | decimal
  deriving DecidableEq

/-- A cell of a rowkey: its type, the length of the text that it prints as, and whether its cast to
a type other than varchar succeeds. -/
structure Cell where
  type : ObjType
  printed : Nat
  castable : Bool
  deriving DecidableEq

/-- Some bytes written, by their offset behind the start of the buffer. -/
structure Write where
  offset : Nat
  count : Nat
  deriving DecidableEq

/-- What the cast of a cell does: its return code, the number of bytes it writes, and
`used_buf_len`. -/
structure CellCast where
  ret : Ret
  written : Nat
  used : Nat
  deriving DecidableEq

/-- `varchar_printf`: `vsnprintf` writes no more than it is given room for, the terminator included,
and returns the length of the whole text. -/
def varcharPrintf (room : Int) (printed : Nat) : CellCast :=
  if room ≤ 0 then ⟨.invalidArgument, 0, 0⟩
  else ⟨.success, min (printed + 1) room.toNat, printed⟩

/-- `OB_OBJ_CAST[type][ObVarcharType]`. A boolean becomes one of two constant texts, which stand
elsewhere. -/
def castToVarchar (room : Int) (cell : Cell) : CellCast :=
  match cell.type with
  | .null => ⟨.success, 0, 0⟩
  | .seq | .extend => ⟨.notSupported, 0, 0⟩
  | .bool => ⟨.success, 0, cell.printed⟩
  | .decimal =>
    if room < maxPrintableSize then ⟨.invalidArgument, 0, 0⟩
    else ⟨.success, min (cell.printed + 1) room.toNat, cell.printed⟩
  | _ => varcharPrintf room cell.printed

/-- `obj_cast`: a cell of the column's type is left as it is. -/
def objCast (room : Int) (cell : Cell) (expected : ObjType) : CellCast :=
  if cell.type = expected then ⟨.success, 0, 0⟩
  else if expected = .varchar then castToVarchar room cell
  else if cell.castable then ⟨.success, 0, 0⟩ else ⟨.invalidArgument, 0, 0⟩

/-- What the cast of a rowkey does: its return code, what it writes, by offset behind the pointer it
is given, and `used_buf_len`. -/
structure KeyCast where
  ret : Ret
  writes : List Write
  used : Nat
  deriving DecidableEq

/-- The loop of `ob_cast_rowkey`, with `used` bytes used so far. -/
def castCells (room : Int) : List (Cell × ObjType) → Nat → KeyCast
  | [], used => ⟨.success, [], used⟩
  | (cell, expected) :: rest, used =>
    let c := objCast (room - used) cell expected
    if c.ret = .success then
      let k := castCells room rest (used + c.used)
      { k with writes := ⟨used, c.written⟩ :: k.writes }
    else ⟨c.ret, [⟨used, c.written⟩], used⟩

variable (columns : List ObjType)

/-- `ob_cast_rowkey`. -/
def obCastRowkey (room : Int) (key : List Cell) : KeyCast :=
  if columns.length ≠ key.length then ⟨.errUnexpected, [], 0⟩
  else castCells room (key.zip columns) 0

/-- `ob_cast_rowkey_need_buf`: some cell is cast to varchar. -/
def obCastRowkeyNeedBuf (key : List Cell) : Except Ret Bool :=
  if columns.length ≠ key.length then .error .errUnexpected
  else .ok ((key.zip columns).any fun c => c.1.type ≠ c.2 ∧ c.2 = .varchar)

/-- The locals of the loop over the rowkeys: whether `in_rowkey_buf` is set, how far it has moved,
`total_used_buf_len`, `ret`, and everything written behind it. -/
structure Casting where
  hasBuf : Bool
  moved : Nat
  totalUsedBufLen : Nat
  ret : Ret
  writes : List Write
  deriving DecidableEq

/-- `OB_ALLOCATE_MEMORY_FAILED`. -/
def allocateMemoryFailed : Ret := .other (-13)

/-- A rowkey, and whether memory for the buffer can be had when it is asked for. -/
structure Rowkey where
  cells : List Cell
  memory : Bool
  deriving DecidableEq

/-- The first part of the loop's body: is a buffer needed, and is it there? -/
def ensureBuf (s : Casting) (key : Rowkey) : Casting :=
  match obCastRowkeyNeedBuf columns key.cells with
  | .error ret => { s with ret }
  | .ok false => { s with ret := .success }
  | .ok true =>
    if s.hasBuf ∨ key.memory then { s with hasBuf := true, ret := .success }
    else { s with ret := allocateMemoryFailed }

/-- The loop's body. What is written is recorded behind the place the pointer has moved to. -/
def castKey (s : Casting) (key : Rowkey) : Casting :=
  let s := ensureBuf columns s key
  if s.ret = .success then
    if maxRowLength ≤ s.totalUsedBufLen then s
    else
      let k := obCastRowkey columns (maxRowLength - s.totalUsedBufLen) key.cells
      let writes := s.writes ++ k.writes.map fun w => ⟨s.moved + w.offset, w.count⟩
      if k.ret = .success then
        { s with ret := .success, writes, totalUsedBufLen := k.used, moved := s.moved + k.used }
      else { s with ret := k.ret, writes }
  else s

/-- The locals in front of the loop. -/
def start : Casting := ⟨false, 0, 0, .success, []⟩

/-- One turn of the loop of `find_rowkeys_from_in_expr`. -/
def step (s : Casting) (key : Rowkey) : Option Casting :=
  some (castKey columns s key)

variable {columns : List ObjType} {n : Nat}

theorem run_isSome (s : Casting) (keys : List Rowkey) :
    ∃ s', run (step columns) s keys = some s' := by
  induction keys generalizing s with
  | nil => exact ⟨s, rfl⟩
  | cons key keys ih =>
    obtain ⟨s', hrun⟩ := ih (castKey columns s key)
    exact ⟨s', (run_cons_eq_some _).2 ⟨_, rfl, hrun⟩⟩

/-- Every byte written is in the buffer. -/
def Casting.Inside (s : Casting) : Prop :=
  ∀ w ∈ s.writes, 0 < w.count → w.offset + w.count ≤ maxRowLength

/-! ### The cast of one rowkey -/

theorem objCast_written_le (room : Int) (cell : Cell) (expected : ObjType) :
    ((objCast room cell expected).written : Int) ≤ max room 0 := by
  have hprint : ((varcharPrintf room cell.printed).written : Int) ≤ max room 0 := by
    rw [varcharPrintf]
    split_ifs <;> dsimp only <;> omega
  rw [objCast]
  split_ifs
  · dsimp only; omega
  · rw [castToVarchar]
    cases cell.type
    case decimal =>
      split_ifs <;> dsimp only <;> omega
    all_goals first | exact hprint | (dsimp only; omega)
  all_goals dsimp only; omega

/-- The cast of a rowkey writes inside the room it is given. -/
theorem castCells_reach {room : Int} {cells : List (Cell × ObjType)} {used : Nat} :
    ∀ w ∈ (castCells room cells used).writes, 0 < w.count → (w.offset + w.count : Int) ≤ room := by
  induction cells generalizing used with
  | nil => simp [castCells]
  | cons c cells ih =>
    obtain ⟨cell, expected⟩ := c
    have hc := objCast_written_le (room - used) cell expected
    rw [castCells]
    split_ifs
    · rintro w (_ | ⟨_, hw⟩) hpos
      · dsimp only at hpos ⊢
        omega
      · exact ih w hw hpos
    intro w hw hpos
    rw [mem_singleton] at hw
    subst hw
    dsimp only at hpos ⊢
    omega

theorem obCastRowkey_reach {room : Int} {key : List Cell} :
    ∀ w ∈ (obCastRowkey columns room key).writes, 0 < w.count →
      (w.offset + w.count : Int) ≤ room := by
  rw [obCastRowkey]
  split_ifs
  · simp
  · exact castCells_reach

/-! ### The texts of a rowkey -/

/-- The length of the text that a cell is cast to; nothing, where it is not cast to varchar. -/
def textLen (c : Cell × ObjType) : Nat :=
  if c.1.type ≠ c.2 ∧ c.2 = .varchar then c.1.printed else 0

/-- The length of the texts of a rowkey. -/
def Rowkey.textLen (columns : List ObjType) (key : Rowkey) : Nat :=
  ((key.cells.zip columns).map CastRowkeys.textLen).sum

/-- The cast of a cell uses no more than its text, and writes one byte more at most. -/
theorem objCast_textLen (room : Int) (cell : Cell) (expected : ObjType) :
    (objCast room cell expected).used ≤ textLen (cell, expected) ∧
      (objCast room cell expected).written ≤ textLen (cell, expected) + 1 := by
  have hprint : (varcharPrintf room cell.printed).used ≤ cell.printed ∧
      (varcharPrintf room cell.printed).written ≤ cell.printed + 1 := by
    rw [varcharPrintf]
    split_ifs <;> simp
  rw [objCast]
  split_ifs with htype hvarchar
  · simp
  · have htext : textLen (cell, expected) = cell.printed := if_pos ⟨htype, hvarchar⟩
    rw [castToVarchar, htext]
    cases cell.type
    case decimal =>
      dsimp only
      split_ifs <;> simp
    all_goals first | exact hprint | simp
  all_goals simp

/-- The cast of a rowkey uses no more than its texts, and writes one byte more at most. -/
theorem castCells_within {room : Int} {cells : List (Cell × ObjType)} {used : Nat} :
    (castCells room cells used).used ≤ used + (cells.map textLen).sum ∧
      ∀ w ∈ (castCells room cells used).writes, 0 < w.count →
        w.offset + w.count ≤ used + (cells.map textLen).sum + 1 := by
  induction cells generalizing used with
  | nil => simp [castCells]
  | cons c cells ih =>
    obtain ⟨cell, expected⟩ := c
    obtain ⟨hused, hwritten⟩ := objCast_textLen (room - used) cell expected
    obtain ⟨hrest, hwrites⟩ := @ih (used + (objCast (room - used) cell expected).used)
    rw [castCells, List.map_cons, List.sum_cons]
    split_ifs
    · refine ⟨by dsimp only; omega, ?_⟩
      rintro w (_ | ⟨_, hw⟩) hpos
      · dsimp only
        omega
      · have := hwrites w hw hpos
        omega
    · refine ⟨by dsimp only; omega, fun w hw _ => ?_⟩
      rw [mem_singleton] at hw
      subst hw
      dsimp only
      omega

theorem obCastRowkey_within {room : Int} {key : Rowkey} :
    (obCastRowkey columns room key.cells).used ≤ key.textLen columns ∧
      ∀ w ∈ (obCastRowkey columns room key.cells).writes, 0 < w.count →
        w.offset + w.count ≤ key.textLen columns + 1 := by
  rw [obCastRowkey]
  split_ifs
  · simp
  · obtain ⟨hused, hwrites⟩ := @castCells_within room (key.cells.zip columns) 0
    rw [Nat.zero_add] at hused hwrites
    exact ⟨hused, hwrites⟩

/-! ### The loop -/

variable {s s' : Casting} {key : Rowkey} {keys : List Rowkey}

/-- What one turn of the loop can do: leave everything where it is, or write a rowkey's texts behind
the pointer, and then move it by what they used, which becomes the total. -/
theorem castKey_cases (columns : List ObjType) (s : Casting) (key : Rowkey) :
    ((castKey columns s key).writes = s.writes ∧ (castKey columns s key).moved = s.moved ∧
      (castKey columns s key).totalUsedBufLen = s.totalUsedBufLen) ∨
    ∃ k, k = obCastRowkey columns (maxRowLength - s.totalUsedBufLen) key.cells ∧
      s.totalUsedBufLen < maxRowLength ∧
      (castKey columns s key).writes =
        s.writes ++ k.writes.map (fun w => ⟨s.moved + w.offset, w.count⟩) ∧
      (((castKey columns s key).moved = s.moved ∧
          (castKey columns s key).totalUsedBufLen = s.totalUsedBufLen) ∨
        ((castKey columns s key).moved = s.moved + k.used ∧
          (castKey columns s key).totalUsedBufLen = k.used)) := by
  have hensure : (ensureBuf columns s key).moved = s.moved ∧
      (ensureBuf columns s key).totalUsedBufLen = s.totalUsedBufLen ∧
      (ensureBuf columns s key).writes = s.writes := by
    rw [ensureBuf]
    rcases obCastRowkeyNeedBuf columns key.cells with ret | _ | _
    · exact ⟨rfl, rfl, rfl⟩
    · exact ⟨rfl, rfl, rfl⟩
    · split_ifs <;> exact ⟨rfl, rfl, rfl⟩
  obtain ⟨hmoved, htotal, hwrites⟩ := hensure
  rw [castKey]
  dsimp only
  rw [hmoved, htotal, hwrites]
  split_ifs with hret hfull hcast
  · exact .inl ⟨hwrites, hmoved, htotal⟩
  · exact .inr ⟨_, rfl, Nat.not_le.1 hfull, rfl, .inr ⟨rfl, rfl⟩⟩
  · exact .inr ⟨_, rfl, Nat.not_le.1 hfull, rfl, .inl ⟨rfl, rfl⟩⟩
  · exact .inl ⟨hwrites, hmoved, htotal⟩

/-- Some texts of `n` bytes in all have been written. -/
def Casting.Within (s : Casting) (n : Nat) : Prop :=
  s.moved ≤ n ∧ ∀ w ∈ s.writes, 0 < w.count → w.offset + w.count ≤ n + 1

theorem castKey_within (h : s.Within n) :
    (castKey columns s key).Within (n + key.textLen columns) := by
  obtain ⟨hmoved, hwrites⟩ := h
  have hold : ∀ w ∈ s.writes, 0 < w.count → w.offset + w.count ≤ n + key.textLen columns + 1 := by
    intro w hw hpos
    have := hwrites w hw hpos
    omega
  rcases castKey_cases columns s key with ⟨hw, hm, -⟩ | ⟨k, hk, -, hw, hm⟩
  · refine ⟨by omega, ?_⟩
    rw [hw]
    exact hold
  obtain ⟨hused, hnew⟩ := @obCastRowkey_within columns (maxRowLength - s.totalUsedBufLen) key
  rw [← hk] at hused hnew
  refine ⟨by omega, ?_⟩
  rw [hw]
  simp only [mem_append, mem_map]
  rintro w (hw | ⟨v, hv, rfl⟩) hpos
  · exact hold w hw hpos
  · have := hnew v hv hpos
    dsimp only
    omega

theorem run_within (h : s.Within n) (hrun : run (step columns) s keys = some s') :
    s'.Within (n + (keys.map (Rowkey.textLen columns)).sum) := by
  induction keys generalizing s n with
  | nil =>
    cases hrun
    exact h
  | cons key keys ih =>
    obtain ⟨t, ht, hrest⟩ := (run_cons_eq_some _).1 hrun
    cases ht
    rw [map_cons, sum_cons, ← Nat.add_assoc]
    exact ih (castKey_within h) hrest

/-- Where the pointer has moved by the running total, a rowkey is cast inside the buffer. -/
theorem castKey_inside (hmoved : s.moved = s.totalUsedBufLen) (h : s.Inside) :
    (castKey columns s key).Inside := by
  rcases castKey_cases columns s key with ⟨hw, -⟩ | ⟨k, rfl, hroom, hw, -⟩
  · rwa [Casting.Inside, hw]
  rw [Casting.Inside, hw]
  simp only [mem_append, mem_map]
  rintro w (hw | ⟨v, hv, rfl⟩) hpos
  · exact h w hw hpos
  · have := obCastRowkey_reach v hv hpos
    dsimp only
    omega

/-- The first rowkey moves the pointer by the running total. -/
theorem castKey_start (columns : List ObjType) (key : Rowkey) :
    (castKey columns start key).moved = (castKey columns start key).totalUsedBufLen := by
  rcases castKey_cases columns start key with ⟨-, hm, ht⟩ | ⟨k, -, -, -, ⟨hm, ht⟩ | ⟨hm, ht⟩⟩
  · rw [hm, ht]
    rfl
  · rw [hm, ht]
    rfl
  · rw [hm, ht]
    exact Nat.zero_add _

/-- A rowkey of one integer of nineteen digits. -/
def longInt : Rowkey := ⟨[⟨.int, 19, true⟩], true⟩

/-- The texts of such rowkeys stand one behind the other. -/
theorem run_longInt (n : Nat) :
    run (step [.varchar]) start (List.replicate (n + 1) longInt) =
      some ⟨true, 19 * (n + 1), 19, .success, (List.range (n + 1)).map fun j => ⟨19 * j, 20⟩⟩ := by
  induction n with
  | zero => rfl
  | succ n ih =>
    rw [replicate_succ', run_append _ ih]
    have hturn : ∀ moved writes, castKey [.varchar] ⟨true, moved, 19, .success, writes⟩ longInt =
        ⟨true, moved + 19, 19, .success, writes ++ [⟨moved, 20⟩]⟩ := fun _ _ => rfl
    simp [run, step, hturn, Nat.mul_add, range_succ]

theorem sum_textLen_longInt (n : Nat) :
    ((List.replicate n longInt).map (Rowkey.textLen [.varchar])).sum = n * 19 := by
  rw [map_replicate, sum_replicate, smul_eq_mul]
  rfl

/-- Enough such rowkeys reach behind the buffer. -/
theorem run_longInt_not_inside (h : maxRowLength < 19 * n + 20) :
    ∃ s, run (step [.varchar]) start (List.replicate (n + 1) longInt) = some s ∧
      s.ret = .success ∧ ¬s.Inside := by
  refine ⟨_, run_longInt n, rfl, fun hinside => ?_⟩
  have hlast : (⟨19 * n, 20⟩ : Write) ∈ (List.range (n + 1)).map fun j => (⟨19 * j, 20⟩ : Write) :=
    mem_map.2 ⟨n, mem_range.2 n.lt_succ_self, rfl⟩
  exact absurd (hinside _ hlast (Nat.succ_pos 19)) (Nat.not_le.2 h)

end CastRowkeys

end OceanBase.Sql
