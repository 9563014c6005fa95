import OceanBase.Common.Serialization
import OceanBase.Lib.Codec

/-!
# Length-encoded strings (`ob_mysql_util.h`, `ob_mysql_util.cpp`)

A length takes one byte below 251, and otherwise a byte that says how many follow: 252 for two, 253
for three, 254 for eight. The byte 251 alone stands for a null, the largest 64-bit length.

`Writes` says what a writer that succeeds has done to the memory behind `buf`; `Refuses`, what one
that fails has not done. An item is written exactly when there is room for it (`storeItem_writes`,
`storeItem_refuses`), and a sequence is read back by induction on it (`storeAll_spec`).
-/

namespace OceanBase.ObMySql

open Lib Common List Or

/-! ### The source's functions -/

/-- What a writer leaves: its return code, the memory behind `buf`, and `pos`. -/
structure Stored where
  ret : Ret
  buf : Buf
  pos : Int

/-- The memory with a text copied to an offset. -/
def write (buf : Buf) (pos : Int) (bs : List Byte) : Buf := fun i =>
  if pos ≤ i then bs.getD (i - pos).toNat (buf i) else buf i

def null : BitVec 64 := BitVec.allOnes 64

variable (len : BitVec 64) {bs : List Byte}

section Writers

/-- `store_int1` to `store_int8`: the lowest `n` bytes of a value. -/
def storeInt (n : Nat) (buf : Buf) (v : BitVec 64) (pos : Int) : Stored :=
  if pos + n ≤ len.toInt then ⟨.success, write buf pos (leBytes n v), pos + n⟩
  else ⟨.sizeOverflow, buf, pos⟩

def storeInt1 : Buf → BitVec 64 → Int → Stored := storeInt len 1
def storeInt2 : Buf → BitVec 64 → Int → Stored := storeInt len 2
def storeInt3 : Buf → BitVec 64 → Int → Stored := storeInt len 3
def storeInt8 : Buf → BitVec 64 → Int → Stored := storeInt len 8

def storeNull (buf : Buf) (pos : Int) : Stored := storeInt1 len buf 251 pos

/-- A marker byte and, if it is stored, the bytes of the length; `pos` goes back by one when these
are not. -/
def storeMarked (storeInt : Buf → BitVec 64 → Int → Stored) (marker : BitVec 64) (buf : Buf)
    (length : BitVec 64) (pos : Int) : Stored :=
  let m := storeInt1 len buf marker pos
  if m.ret = .success then
    let s := storeInt m.buf length m.pos
    if s.ret = .success then s else { s with pos := s.pos - 1 }
  else m

def storeLength (buf : Buf) (length : BitVec 64) (pos : Int) : Stored :=
  if len.toInt < 0 ∨ pos < 0 ∨ len.toInt ≤ pos then ⟨.sizeOverflow, buf, pos⟩
  else
    let remain := len.toInt - pos
    if length.toNat < 251 ∧ 1 ≤ remain then storeInt1 len buf length pos
    else if length.toNat < 0x10000 ∧ 3 ≤ remain then
      storeMarked len (storeInt2 len) 252 buf length pos
    else if length.toNat < 0x1000000 ∧ 4 ≤ remain then
      storeMarked len (storeInt3 len) 253 buf length pos
    else if length.toNat < 2 ^ 64 - 1 ∧ 9 ≤ remain then
      storeMarked len (storeInt8 len) 254 buf length pos
    else if length = null then storeNull len buf pos
    else ⟨.sizeOverflow, buf, pos⟩

/-- `store_str_v`: `str` is the memory behind the pointer it is given. -/
def storeStrV (buf : Buf) (str : Nat → Byte) (length : BitVec 64) (pos : Int) : Stored :=
  let s := storeLength len buf length pos
  if s.ret ≠ .success then s
  else if s.pos ≤ len.toInt ∧ length.toNat ≤ (BitVec.ofInt 64 (len.toInt - s.pos)).toNat then
    ⟨.success, write s.buf s.pos ((List.range length.toNat).map str), s.pos + length.toNat⟩
  else ⟨.sizeOverflow, s.buf, pos⟩

end Writers

/-- `get_uint1` to `get_uint8`. -/
def getUint (n : Nat) (buf : Buf) (pos : Int) : BitVec 64 × Int :=
  (leValue ((List.range n).map fun i : Nat => buf (pos + i)), pos + n)

/-- `get_length`: `none` is `OB_INVALID_DATA`, with `pos` rolled back. -/
def getLength (buf : Buf) (pos : Int) : Option (BitVec 64) × Int :=
  let (sentinel, pos') := getUint 1 buf pos
  if sentinel.toNat < 251 then (some sentinel, pos')
  else if sentinel.toNat = 251 then (some null, pos')
  else if sentinel.toNat = 252 then ((getUint 2 buf pos').1, (getUint 2 buf pos').2)
  else if sentinel.toNat = 253 then ((getUint 3 buf pos').1, (getUint 3 buf pos').2)
  else if sentinel.toNat = 254 then ((getUint 8 buf pos').1, (getUint 8 buf pos').2)
  else (none, pos' - 1)

/-! ### Sequences of strings and nulls -/

/-- What is stored: a null, or a string behind a pointer with its length. -/
inductive Item where
  | null
  | str (str : Nat → Byte) (length : BitVec 64)

/-- Store an item at `pos`. -/
def storeItem (len : BitVec 64) (buf : Buf) (pos : Int) : Item → Stored
  | .null => storeNull len buf pos
  | .str str length => storeStrV len buf str length pos

/-- Store the items one after another. Besides the final memory and `pos`, the items whose store
returned success. -/
def storeAll (len : BitVec 64) : List Item → Buf → Int → List Item × Buf × Int
  | [], buf, pos => ([], buf, pos)
  | item :: items, buf, pos =>
    let s := storeItem len buf pos item
    let rest := storeAll len items s.buf s.pos
    (if s.ret = .success then item :: rest.1 else rest.1, rest.2)

/-- What a reader finds: a null mark, or the bytes of a string. -/
inductive Value where
  | null
  | str (bytes : List Byte)

/-- What is stored. -/
def Item.value : Item → Value
  | .null => .null
  | .str p length => .str ((List.range length.toNat).map p)

/-- Read one value: its length with `get_length` and, unless that is the null mark, so many
bytes. -/
def readItem (buf : Buf) (pos : Int) : Option Value × Int :=
  match getLength buf pos with
  | (none, pos') => (none, pos')
  | (some length, pos') =>
    if length = null then (some .null, pos')
    else (some (.str ((List.range length.toNat).map fun i : Nat => buf (pos' + i))),
      pos' + length.toNat)

/-- Read so many values one after another. -/
def readAll (buf : Buf) : Nat → Int → Option (List Value) × Int
  | 0, pos => (some [], pos)
  | n + 1, pos =>
    match readItem buf pos with
    | (none, pos') => (none, pos')
    | (some v, pos') => ((readAll buf n pos').1.map (v :: ·), (readAll buf n pos').2)

/-! ### Texts in memory -/

theorem write_of_lt {buf : Buf} {pos i : Int} (bs : List Byte) (h : i < pos) :
    write buf pos bs i = buf i := by
  rw [write, if_neg (by omega)]

theorem holds_write (buf : Buf) (pos : Int) (bs : List Byte) : Holds (write buf pos bs) pos bs := by
  refine holds_of_getElem fun i hi => ?_
  have hoffset : (pos + i - pos).toNat = i := by omega
  rw [write, if_pos (by omega), hoffset, getD_eq_getElem?_getD, getElem?_eq_getElem hi,
    Option.getD_some]

theorem holds_congr {buf buf' : Buf} {pos : Int} (h : Holds buf pos bs)
    (hsame : ∀ i < pos + bs.length, buf' i = buf i) : Holds buf' pos bs := by
  refine holds_of_getElem fun i hi => ?_
  rw [hsame _ (by omega), h.getElem hi]

/-- A successful writer has put `bs` where `pos` was, moved `pos` behind it and left what is before
it alone. -/
structure Writes (buf : Buf) (pos : Int) (bs : List Byte) (s : Stored) : Prop where
  ret : s.ret = .success
  pos_eq : s.pos = pos + bs.length
  holds : Holds s.buf pos bs
  before : ∀ i < pos, s.buf i = buf i

/-- A writer that fails has left `pos` and what is before it alone. -/
structure Refuses (buf : Buf) (pos : Int) (s : Stored) : Prop where
  ret : s.ret = .sizeOverflow
  pos_eq : s.pos = pos
  before : ∀ i < pos, s.buf i = buf i

section Spec

variable {len} {buf : Buf} {pos : Int}

theorem writes_write (bs : List Byte) :
    Writes buf pos bs ⟨.success, write buf pos bs, pos + bs.length⟩ :=
  ⟨rfl, rfl, holds_write buf pos bs, fun _ hi => write_of_lt bs hi⟩

theorem refuses_self : Refuses buf pos ⟨.sizeOverflow, buf, pos⟩ :=
  ⟨rfl, rfl, fun _ _ => rfl⟩

theorem Writes.trans {as : List Byte} {s t : Stored} (hs : Writes buf pos as s)
    (ht : Writes s.buf s.pos bs t) : Writes buf pos (as ++ bs) t := by
  have hpos := hs.pos_eq
  refine ⟨ht.ret, ?_, holds_append.2 ⟨holds_congr hs.holds fun i hi => ht.before i ?_, ?_⟩, ?_⟩
  · rw [ht.pos_eq, hpos, length_append]
    omega
  · rwa [hpos]
  · rw [← hpos]
    exact ht.holds
  · intro i hi
    rw [ht.before i (by omega), hs.before i hi]

theorem settled {fits : Prop} {s : Stored} (hw : fits → Writes buf pos bs s)
    (hr : ¬fits → Refuses buf pos s) :
    (s.ret = .success ↔ fits) ∧ (s.ret ≠ .success → s.pos = pos) ∧ ∀ i < pos, s.buf i = buf i := by
  by_cases hfit : fits
  · have hw := hw hfit
    exact ⟨iff_of_true hw.ret hfit, fun hne => absurd hw.ret hne, hw.before⟩
  have hr := hr hfit
  have hne : s.ret ≠ .success := by rw [hr.ret]; decide
  exact ⟨iff_of_false hne hfit, fun _ => hr.pos_eq, hr.before⟩

/-! ### Lengths -/

variable {n : Nat}

theorem storeInt_writes (v : BitVec 64) (h : pos + n ≤ len.toInt) :
    Writes buf pos (leBytes n v) (storeInt len n buf v pos) := by
  have hw : Writes buf pos (leBytes n v) ⟨.success, write buf pos (leBytes n v), _⟩ :=
    writes_write (leBytes n v)
  rw [length_leBytes] at hw
  rwa [storeInt, if_pos h]

theorem storeMarked_writes (marker v : BitVec 64) (h : pos + 1 + n ≤ len.toInt) :
    Writes buf pos (leBytes 1 marker ++ leBytes n v)
      (storeMarked len (storeInt len n) marker buf v pos) := by
  have hm : Writes buf pos (leBytes 1 marker) (storeInt1 len buf marker pos) :=
    storeInt_writes marker (by omega)
  have hpos : (storeInt1 len buf marker pos).pos = pos + 1 := hm.pos_eq
  have hs : Writes (storeInt1 len buf marker pos).buf (storeInt1 len buf marker pos).pos
      (leBytes n v) (storeInt len n (storeInt1 len buf marker pos).buf v
        (storeInt1 len buf marker pos).pos) := storeInt_writes v (by omega)
  rw [storeMarked]
  rw [if_pos hm.ret, if_pos hs.ret]
  exact hm.trans hs

variable (length : BitVec 64)

/-- The bytes of a length. -/
def lengthText : List Byte :=
  if length.toNat < 251 then leBytes 1 length
  else if length.toNat < 0x10000 then leBytes 1 (252 : BitVec 64) ++ leBytes 2 length
  else if length.toNat < 0x1000000 then leBytes 1 (253 : BitVec 64) ++ leBytes 3 length
  else if length.toNat < 2 ^ 64 - 1 then leBytes 1 (254 : BitVec 64) ++ leBytes 8 length
  else leBytes 1 (251 : BitVec 64)

theorem lengthText_cases :
    (length.toNat < 251 ∧ lengthText length = leBytes 1 length) ∨
    (251 ≤ length.toNat ∧ length.toNat < 0x10000 ∧
      lengthText length = leBytes 1 (252 : BitVec 64) ++ leBytes 2 length) ∨
    (0x10000 ≤ length.toNat ∧ length.toNat < 0x1000000 ∧
      lengthText length = leBytes 1 (253 : BitVec 64) ++ leBytes 3 length) ∨
    (0x1000000 ≤ length.toNat ∧ length.toNat < 2 ^ 64 - 1 ∧
      lengthText length = leBytes 1 (254 : BitVec 64) ++ leBytes 8 length) ∨
    (length = null ∧ lengthText length = leBytes 1 (251 : BitVec 64)) := by
  by_cases h1 : length.toNat < 251
  · exact inl ⟨h1, if_pos h1⟩
  by_cases h2 : length.toNat < 0x10000
  · refine inr (inl ⟨not_lt.1 h1, h2, ?_⟩)
    rw [lengthText, if_neg h1, if_pos h2]
  by_cases h3 : length.toNat < 0x1000000
  · refine inr (inr (inl ⟨not_lt.1 h2, h3, ?_⟩))
    rw [lengthText, if_neg h1, if_neg h2, if_pos h3]
  by_cases h4 : length.toNat < 2 ^ 64 - 1
  · refine inr (inr (inr (inl ⟨not_lt.1 h3, h4, ?_⟩)))
    rw [lengthText, if_neg h1, if_neg h2, if_neg h3, if_pos h4]
  refine inr (inr (inr (inr ⟨?_, ?_⟩)))
  · exact BitVec.eq_of_toNat_eq (by simp [null]; omega)
  · rw [lengthText, if_neg h1, if_neg h2, if_neg h3, if_neg h4]

theorem lengthText_pos : 1 ≤ (lengthText length).length := by
  obtain ⟨-, h⟩ | ⟨-, -, h⟩ | ⟨-, -, h⟩ | ⟨-, -, h⟩ | ⟨-, h⟩ := lengthText_cases length <;> simp [h]

theorem toNat_null : null.toNat = 2 ^ 64 - 1 := rfl

theorem storeLength_writes (h0 : 0 ≤ pos)
    (h : pos + (lengthText length).length ≤ len.toInt) :
    Writes buf pos (lengthText length) (storeLength len buf length pos) := by
  have hne := lengthText_pos length
  have hroom : ¬(len.toInt < 0 ∨ pos < 0 ∨ len.toInt ≤ pos) := by omega
  rw [storeLength, if_neg hroom]
  -- the room that the text takes is what the branch of its class asks for
  obtain ⟨h1, ht⟩ | ⟨h1, h2, ht⟩ | ⟨h1, h2, ht⟩ | ⟨h1, h2, ht⟩ | ⟨hn, ht⟩ := lengthText_cases length
  all_goals rw [ht] at h ⊢
  all_goals simp only [length_append, length_leBytes] at h
  · rw [if_pos ⟨h1, by omega⟩]
    exact storeInt_writes length h
  · rw [if_neg (show ¬(length.toNat < 251 ∧ _) by omega), if_pos ⟨h2, by omega⟩]
    exact storeMarked_writes 252 length (by omega)
  · rw [if_neg (show ¬(length.toNat < 251 ∧ _) by omega),
      if_neg (show ¬(length.toNat < 0x10000 ∧ _) by omega), if_pos ⟨h2, by omega⟩]
    exact storeMarked_writes 253 length (by omega)
  · rw [if_neg (show ¬(length.toNat < 251 ∧ _) by omega),
      if_neg (show ¬(length.toNat < 0x10000 ∧ _) by omega),
      if_neg (show ¬(length.toNat < 0x1000000 ∧ _) by omega), if_pos ⟨h2, by omega⟩]
    exact storeMarked_writes 254 length (by omega)
  · have hnull := toNat_null
    rw [← hn] at hnull
    rw [if_neg (show ¬(length.toNat < 251 ∧ _) by omega),
      if_neg (show ¬(length.toNat < 0x10000 ∧ _) by omega),
      if_neg (show ¬(length.toNat < 0x1000000 ∧ _) by omega),
      if_neg (show ¬(length.toNat < 2 ^ 64 - 1 ∧ _) by omega), if_pos hn]
    exact storeInt_writes 251 h

theorem storeLength_refuses
    (h : ¬(0 ≤ pos ∧ pos + (lengthText length).length ≤ len.toInt)) :
    Refuses buf pos (storeLength len buf length pos) := by
  rw [storeLength]
  by_cases hroom : len.toInt < 0 ∨ pos < 0 ∨ len.toInt ≤ pos
  · rw [if_pos hroom]
    exact refuses_self
  rw [if_neg hroom]
  -- one byte is there, so the length is of a class that takes more than there is
  have hlarge : 251 ≤ length.toNat ∧ length ≠ null ∧
      ((length.toNat < 0x10000 ∧ len.toInt - pos < 3) ∨
      (0x10000 ≤ length.toNat ∧ length.toNat < 0x1000000 ∧ len.toInt - pos < 4) ∨
      (0x1000000 ≤ length.toNat ∧ len.toInt - pos < 9)) := by
    have hnull := toNat_null
    obtain ⟨h1, ht⟩ | ⟨h1, h2, ht⟩ | ⟨h1, h2, ht⟩ | ⟨h1, h2, ht⟩ | ⟨hn, ht⟩ :=
      lengthText_cases length
    · rw [ht, length_leBytes] at h
      omega
    all_goals rw [ht] at h
    all_goals simp only [length_append, length_leBytes] at h
    · exact ⟨h1, fun hn => by rw [hn] at h2; omega, inl ⟨h2, by omega⟩⟩
    · exact ⟨by omega, fun hn => by rw [hn] at h2; omega, inr (inl ⟨h1, h2, by omega⟩)⟩
    · exact ⟨by omega, fun hn => by rw [hn] at h2; omega, inr (inr ⟨h1, by omega⟩)⟩
    · omega
  obtain ⟨hge, hnull, hshort⟩ := hlarge
  rw [if_neg (show ¬(length.toNat < 251 ∧ _) by omega),
    if_neg (show ¬(length.toNat < 0x10000 ∧ 3 ≤ len.toInt - pos) by omega),
    if_neg (show ¬(length.toNat < 0x1000000 ∧ 4 ≤ len.toInt - pos) by omega),
    if_neg (show ¬(length.toNat < 2 ^ 64 - 1 ∧ 9 ≤ len.toInt - pos) by omega), if_neg hnull]
  exact refuses_self

/-! ### Reading lengths -/

theorem getUint_of_holds {v : BitVec 64} (hv : v.toNat < 2 ^ (8 * n))
    (h : Holds buf pos (leBytes n v)) : getUint n buf pos = (v, pos + n) := by
  have hbytes := h.map_range
  rw [length_leBytes] at hbytes
  rw [getUint, hbytes, leValue_leBytes hv]

theorem getUint_of_marked {marker v : BitVec 64} (hm : marker.toNat < 2 ^ 8)
    (hv : v.toNat < 2 ^ (8 * n)) (h : Holds buf pos (leBytes 1 marker ++ leBytes n v)) :
    getUint 1 buf pos = (marker, pos + 1) ∧ getUint n buf (pos + 1) = (v, pos + 1 + n) := by
  obtain ⟨hmark, hbytes⟩ := holds_append.1 h
  exact ⟨getUint_of_holds (by omega) hmark, getUint_of_holds hv hbytes⟩

variable {length : BitVec 64}

theorem getLength_of_holds (h : Holds buf pos (lengthText length)) :
    getLength buf pos = (some length, pos + (lengthText length).length) := by
  rw [getLength]
  obtain ⟨h1, ht⟩ | ⟨h1, h2, ht⟩ | ⟨h1, h2, ht⟩ | ⟨h1, h2, ht⟩ | ⟨hn, ht⟩ := lengthText_cases length
  all_goals rw [ht] at h ⊢
  · rw [getUint_of_holds (by omega) h]
    dsimp only
    rw [if_pos h1, length_leBytes]
  on_goal 4 =>
    rw [getUint_of_holds (by decide) h]
    simp [hn]
  all_goals
    obtain ⟨hm, hv⟩ := getUint_of_marked (by decide) (by omega) h
    rw [hm]
    dsimp only
    rw [hv]
    simp
    omega

/-! ### Items -/

/-- The bytes of an item. -/
def Item.text : Item → List Byte
  | .null => leBytes 1 (251 : BitVec 64)
  | .str p length => lengthText length ++ (List.range length.toNat).map p

/-- There is room for the item behind `pos`. The writer of a length refuses a negative `pos`, the
writer of a null does not look. -/
def Item.Fits (len : BitVec 64) (pos : Int) : Item → Prop
  | .null => pos + 1 ≤ len.toInt
  | .str p length => 0 ≤ pos ∧ pos + (Item.str p length).text.length ≤ len.toInt

variable {p : Nat → Byte}

theorem storeStrV_writes (h : Item.Fits len pos (.str p length)) :
    Writes buf pos (Item.str p length).text (storeStrV len buf p length pos) := by
  obtain ⟨h0, hroom⟩ := h
  rw [Item.text, length_append, length_map, length_range] at hroom
  have hl : Writes buf pos (lengthText length) (storeLength len buf length pos) :=
    storeLength_writes length h0 (by omega)
  have hpos := hl.pos_eq
  have hleft : (BitVec.ofInt 64 (len.toInt - (storeLength len buf length pos).pos)).toNat =
      (len.toInt - (storeLength len buf length pos).pos).toNat := by
    have hlt := len.toInt_lt
    rw [BitVec.toNat_ofInt]
    omega
  rw [storeStrV, if_neg (not_not.2 hl.ret), hleft, if_pos ⟨by omega, by omega⟩]
  have hbytes : Writes (storeLength len buf length pos).buf (storeLength len buf length pos).pos
      ((List.range length.toNat).map p) ⟨.success, _, _⟩ := writes_write _
  rw [length_map, length_range] at hbytes
  exact hl.trans hbytes

theorem storeStrV_refuses (h : ¬Item.Fits len pos (.str p length)) :
    Refuses buf pos (storeStrV len buf p length pos) := by
  rw [storeStrV]
  by_cases hfit : 0 ≤ pos ∧ pos + (lengthText length).length ≤ len.toInt
  · have hl : Writes buf pos (lengthText length) (storeLength len buf length pos) :=
      storeLength_writes length hfit.1 hfit.2
    have hpos := hl.pos_eq
    -- the length is there but not the room for the bytes: `pos` is rolled back
    have hshort : ¬((storeLength len buf length pos).pos ≤ len.toInt ∧ length.toNat ≤
        (BitVec.ofInt 64 (len.toInt - (storeLength len buf length pos).pos)).toNat) := by
      rintro ⟨hle, hbytes⟩
      refine h ⟨hfit.1, ?_⟩
      rw [BitVec.toNat_ofInt] at hbytes
      rw [Item.text, length_append, length_map, length_range]
      omega
    rw [if_neg (not_not.2 hl.ret), if_neg hshort]
    exact ⟨rfl, rfl, hl.before⟩
  · have hl : Refuses buf pos (storeLength len buf length pos) := storeLength_refuses length hfit
    rwa [if_pos (by rw [hl.ret]; decide)]

variable {item : Item}

theorem storeItem_writes (h : item.Fits len pos) :
    Writes buf pos item.text (storeItem len buf pos item) := by
  cases item with
  | null => exact storeInt_writes 251 h
  | str p length => exact storeStrV_writes h

theorem storeItem_refuses (h : ¬item.Fits len pos) :
    Refuses buf pos (storeItem len buf pos item) := by
  cases item with
  | null =>
    have hroom : ¬(pos + (1 : Nat) ≤ len.toInt) := h
    rw [storeItem, storeNull, storeInt1, storeInt, if_neg hroom]
    exact refuses_self
  | str p length => exact storeStrV_refuses h

/-- No string has the length that stands for a null: there is no room for it. -/
theorem Item.Fits.ne_null (h : Item.Fits len pos (.str p length)) : length ≠ ObMySql.null := by
  intro hn
  obtain ⟨h0, hroom⟩ := h
  have hlt := len.toInt_lt
  rw [Item.text, length_append, length_map, length_range, hn, toNat_null] at hroom
  omega

theorem readItem_of_holds (hfit : item.Fits len pos) (h : Holds buf pos item.text) :
    readItem buf pos = (some item.value, pos + item.text.length) := by
  cases item with
  | null =>
    have hl : getLength buf pos = (some null, pos + (lengthText null).length) :=
      getLength_of_holds h
    rw [readItem, hl]
    rfl
  | str p length =>
    obtain ⟨hlength, hbytes⟩ := holds_append.1 h
    have hmap := hbytes.map_range
    rw [length_map, length_range] at hmap
    rw [readItem, getLength_of_holds hlength]
    dsimp only
    rw [if_neg hfit.ne_null, hmap, Item.value, Item.text, length_append, length_map, length_range]
    congr 1
    omega

/-! ### Sequences -/

/-- A step stores its item where the reader will look for it, or stores nothing; the run, by
induction on the items: later items leave what is before them alone. -/
theorem storeAll_spec (items : List Item) (buf : Buf) (pos : Int) :
    (∀ i < pos, (storeAll len items buf pos).2.1 i = buf i) ∧
    pos ≤ (storeAll len items buf pos).2.2 ∧
    ∀ buf' : Buf, (∀ i < (storeAll len items buf pos).2.2,
        buf' i = (storeAll len items buf pos).2.1 i) →
      readAll buf' (storeAll len items buf pos).1.length pos =
        (some ((storeAll len items buf pos).1.map Item.value),
          (storeAll len items buf pos).2.2) := by
  induction items generalizing buf pos with
  | nil => exact ⟨fun _ _ => rfl, Int.le_refl _, fun _ _ => rfl⟩
  | cons item items ih =>
    obtain ⟨hbefore, hle, hread⟩ :=
      ih (storeItem len buf pos item).buf (storeItem len buf pos item).pos
    rw [storeAll]
    dsimp only
    by_cases hfit : item.Fits len pos
    · have hw : Writes buf pos item.text (storeItem len buf pos item) := storeItem_writes hfit
      have hpos := hw.pos_eq
      rw [if_pos hw.ret]
      refine ⟨fun i hi => ?_, by omega, fun buf' hsame => ?_⟩
      · rw [hbefore i (by omega), hw.before i hi]
      have hitem : readItem buf' pos = (some item.value, (storeItem len buf pos item).pos) := by
        rw [hpos]
        refine readItem_of_holds hfit (holds_congr hw.holds fun i hi => ?_)
        rw [hsame i (by omega), hbefore i (by omega)]
      rw [length_cons, readAll, hitem]
      dsimp only
      rw [hread buf' hsame]
      rfl
    · have hr : Refuses buf pos (storeItem len buf pos item) := storeItem_refuses hfit
      have hpos := hr.pos_eq
      rw [if_neg (by rw [hr.ret]; decide)]
      refine ⟨fun i hi => ?_, by omega, fun buf' hsame => ?_⟩
      · rw [hbefore i (by omega), hr.before i hi]
      · have hrest := hread buf' hsame
        rwa [hpos] at hrest ⊢

/-- **Stored items are read back.** What a sequence of stores leaves is read back as the items whose
store succeeded, and the reader ends where the writer did. A store succeeds exactly when there is
room; one that fails leaves `pos` and every byte before it as they were. And each length comes back,
the null mark for the largest. -/
theorem storeAll_readAll (len : BitVec 64) :
    (∀ (items : List Item) (buf : Buf) (pos : Int),
      readAll (storeAll len items buf pos).2.1 (storeAll len items buf pos).1.length pos =
          (some ((storeAll len items buf pos).1.map Item.value), (storeAll len items buf pos).2.2) ∧
        ∀ i < pos, (storeAll len items buf pos).2.1 i = buf i) ∧
    (∀ (item : Item) (buf : Buf) (pos : Int),
      ((storeItem len buf pos item).ret = .success ↔ item.Fits len pos) ∧
      ((storeItem len buf pos item).ret = .success →
        readItem (storeItem len buf pos item).buf pos =
          (some item.value, (storeItem len buf pos item).pos)) ∧
      ((storeItem len buf pos item).ret ≠ .success → (storeItem len buf pos item).pos = pos) ∧
      ∀ i < pos, (storeItem len buf pos item).buf i = buf i) ∧
    (∀ (length : BitVec 64) (buf : Buf) (pos : Int),
      ((storeLength len buf length pos).ret = .success ↔
        0 ≤ pos ∧ pos + (lengthText length).length ≤ len.toInt) ∧
      ((storeLength len buf length pos).ret = .success →
        getLength (storeLength len buf length pos).buf pos =
          (some length, (storeLength len buf length pos).pos)) ∧
      ((storeLength len buf length pos).ret ≠ .success →
        (storeLength len buf length pos).pos = pos) ∧
      ∀ i < pos, (storeLength len buf length pos).buf i = buf i) := by
  refine ⟨fun items buf pos => ?_, fun item buf pos => ?_, fun length buf pos => ?_⟩
  · obtain ⟨hbefore, -, hread⟩ := storeAll_spec items buf pos
    exact ⟨hread _ fun _ _ => rfl, hbefore⟩
  · have hw : item.Fits len pos → Writes buf pos item.text (storeItem len buf pos item) :=
      storeItem_writes
    obtain ⟨hiff, hpos, hbefore⟩ := settled hw storeItem_refuses
    refine ⟨hiff, fun hsucc => ?_, hpos, hbefore⟩
    have hw := hw (hiff.1 hsucc)
    rw [hw.pos_eq]
    exact readItem_of_holds (hiff.1 hsucc) hw.holds
  have hw : 0 ≤ pos ∧ pos + (lengthText length).length ≤ len.toInt →
      Writes buf pos (lengthText length) (storeLength len buf length pos) :=
    fun hfit => storeLength_writes length hfit.1 hfit.2
  obtain ⟨hiff, hpos, hbefore⟩ := settled hw (storeLength_refuses length)
  refine ⟨hiff, fun hsucc => ?_, hpos, hbefore⟩
  have hw := hw (hiff.1 hsucc)
  rw [hw.pos_eq]
  exact getLength_of_holds hw.holds

end Spec

end OceanBase.ObMySql
