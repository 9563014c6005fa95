import OceanBase.Common.Define

/-!
# A ring of data blocks (`ob_ring_data_buffer.cpp`, `ob_data_block.cpp`)

Positions count bytes and never decrease; a position belongs to the block whose number is its
quotient by the block size, and blocks are stored modulo the number of blocks. Where the block that
is being written has no room, the rest of it stays unused and the next block begins, in the place of
the oldest one.

`Holds` gives the contents of the window `[start_pos_, end_pos_)` block by block.
-/

namespace OceanBase.UpdateServer

open List Nat

def blockReservedBytes : Nat := 16

def maxNBlocks : Nat := 128

/-- `ObRingDataBuffer`, initialised. A block is given by its bytes up to the block's `end_pos_`. -/
structure RingDataBuffer where
  nBlocks : Nat
  blockSizeShift : Nat
  blocks : Nat → List UInt8
  startPos : Nat
  endPos : Nat
  nBlocks_pos : 0 < nBlocks
  nBlocks_le : nBlocks ≤ maxNBlocks
  blockSizeShift_pos : 0 < blockSizeShift

namespace RingDataBuffer

/-! ### The code -/

/-- `init`. A shift of 0 passes the check, but leaves the buffer not initialised for every other
call. -/
def init (nBlocks blockSizeShift : Nat) : Except Ret RingDataBuffer :=
  if h : 0 < nBlocks ∧ nBlocks ≤ maxNBlocks then
    if hshift : 0 < blockSizeShift then
      .ok ⟨nBlocks, blockSizeShift, fun _ => [], 0, 0, h.1, h.2, hshift⟩
    else .error .notInit
  else .error .invalidArgument

variable (r : RingDataBuffer)

/-- `get_block_size`. -/
def blockSize : Nat := 2 ^ r.blockSizeShift

variable (pos : Nat)

def getNextBlockPos : Nat := (pos / r.blockSize + 1) * r.blockSize

def isPosValid : Bool :=
  decide (r.startPos ≤ pos) && decide (pos < r.endPos)

def getBlockId : Nat := pos / r.blockSize % r.nBlocks

def getBlockOffset : Nat := pos % r.blockSize

/-- `get_read_pos`: behind the end of a block, reading goes on in the next one. -/
def getReadPos : Nat :=
  if (r.blocks (r.getBlockId pos)).length ≤ r.getBlockOffset pos then r.getNextBlockPos pos else pos

/-- `ObDataBlock::read`. -/
def readBlock (block : List UInt8) (pos len : Nat) : Except Ret (List UInt8) :=
  if block.length < pos then .error .dataNotServe else .ok ((block.drop pos).take len)

/-- `read`: the position that was read from, and what was read. -/
def read (pos : Int) (len : Nat) : Except Ret (Nat × List UInt8) :=
  if len = 0 ∨ pos < 0 then .error .invalidArgument
  else if pos.toNat = r.endPos then .ok (pos.toNat, [])
  else if r.isPosValid pos.toNat then
    let realPos := r.getReadPos pos.toNat
    (readBlock (r.blocks (r.getBlockId realPos)) (r.getBlockOffset realPos) len).map fun data =>
      (realPos, data)
  else .error .dataNotServe

/-- `ObDataBlock::get_remain_size`. -/
def getRemainSize (block : List UInt8) : Int :=
  r.blockSize - block.length - blockReservedBytes

def nextBlockForAppend : RingDataBuffer :=
  let endPos := r.getNextBlockPos r.endPos
  { r with
    endPos := endPos
    startPos := max r.startPos (endPos - (r.nBlocks - 1) * r.blockSize)
    blocks := Function.update r.blocks (r.getBlockId endPos) [] }

/-- `ObDataBlock::append`, to the block that is being written. -/
def appendBlock (buf : List UInt8) : RingDataBuffer × Ret :=
  let block := r.blocks (r.getBlockId r.endPos)
  if block.length + buf.length + blockReservedBytes > r.blockSize then (r, .errUnexpected)
  else
    ({ r with
      endPos := r.endPos + buf.length
      blocks := Function.update r.blocks (r.getBlockId r.endPos) (block ++ buf) }, .success)

def append (buf : List UInt8) : RingDataBuffer × Ret :=
  if buf.length + blockReservedBytes > r.blockSize then (r, .invalidArgument)
  else if r.getRemainSize (r.blocks (r.getBlockId r.endPos)) < buf.length then
    r.nextBlockForAppend.appendBlock buf
  else r.appendBlock buf

/-- What `reset` of `ObLogBuffer` does to the ring: all blocks are emptied, and the positions go on
at the next one that belongs to the first block. -/
def restart : RingDataBuffer :=
  let size := r.nBlocks * r.blockSize
  let pos := (r.endPos / size + 1) * size
  { r with startPos := pos, endPos := pos, blocks := fun _ => [] }

/-! ### Positions -/

variable {r}

section Positions

variable {i o : Nat}

theorem blockSize_pos (r : RingDataBuffer) : 0 < r.blockSize := Nat.two_pow_pos _

section

variable (ho : o < r.blockSize)
include ho

theorem div_blockSize : (i * r.blockSize + o) / r.blockSize = i := by
  rw [add_comm, add_mul_div_right _ _ r.blockSize_pos, div_eq_of_lt ho, zero_add]

theorem getBlockId_add :
    r.getBlockId (i * r.blockSize + o) = i % r.nBlocks := by
  rw [getBlockId, div_blockSize ho]

theorem getBlockOffset_add : r.getBlockOffset (i * r.blockSize + o) = o := by
  rw [getBlockOffset, add_comm, add_mul_mod_self_right, mod_eq_of_lt ho]

theorem getNextBlockPos_add :
    r.getNextBlockPos (i * r.blockSize + o) = (i + 1) * r.blockSize := by
  rw [getNextBlockPos, div_blockSize ho]

end

theorem mod_ne_mod {n j k : Nat} (hlt : j < k) (hround : k < j + n) : k % n ≠ j % n := by
  intro h
  have hdvd : n ∣ k - j := (modEq_iff_dvd' (le_of_lt hlt)).1 h.symm
  have := le_of_dvd (by omega) hdvd
  omega

end Positions

/-! ### The contents of the window -/

/-- The window consists of the blocks `segs` from the block number `first` on, and of the block
`last` behind them, which is being written. -/
structure Holds (r : RingDataBuffer) (first : Nat) (segs : List (List UInt8)) (last : List UInt8) :
    Prop where
  startPos_eq : r.startPos = first * r.blockSize
  endPos_eq : r.endPos = (first + segs.length) * r.blockSize + last.length
  round : segs.length < r.nBlocks
  block_eq : ∀ j seg, (segs ++ [last])[j]? = some seg → r.blocks ((first + j) % r.nBlocks) = seg
  room : ∀ seg ∈ segs ++ [last], seg = [] ∨ seg.length + blockReservedBytes ≤ r.blockSize
  ne_nil : ∀ seg ∈ segs, seg ≠ []

variable {segs : List (List UInt8)}

section Append

variable {first : Nat} {last buf : List UInt8}

theorem holds_init {nBlocks blockSizeShift : Nat}
    (hinit : init nBlocks blockSizeShift = .ok r) : Holds r 0 [] [] := by
  unfold init at hinit
  split at hinit
  · next h =>
    split at hinit
    · cases hinit
      refine ⟨by simp, by simp, h.1, ?_, by simp, by simp⟩
      intro j seg hseg
      rcases j with _ | j
      · exact Option.some.inj hseg
      · cases hseg
    · cases hinit
  · cases hinit

theorem holds_restart (r : RingDataBuffer) : ∃ first, Holds r.restart first [] [] := by
  refine ⟨(r.endPos / (r.nBlocks * r.blockSize) + 1) * r.nBlocks, ?_⟩
  refine ⟨?_, ?_, r.nBlocks_pos, ?_, by simp, by simp⟩
  · simp [restart, blockSize, mul_assoc]
  · simp [restart, blockSize, mul_assoc]
  intro j seg hseg
  rcases j with _ | j
  · exact Option.some.inj hseg
  · cases hseg

section

variable (h : Holds r first segs last)
include h

theorem Holds.length_lt {seg : List UInt8}
    (hseg : seg ∈ segs ++ [last]) : seg.length < r.blockSize := by
  rcases h.room seg hseg with rfl | hroom
  · exact r.blockSize_pos
  · simp only [blockReservedBytes] at hroom
    omega

theorem Holds.last_lt : last.length < r.blockSize :=
  h.length_lt (by simp)

theorem Holds.getBlockId_endPos : r.getBlockId r.endPos = (first + segs.length) % r.nBlocks := by
  rw [h.endPos_eq, getBlockId_add h.last_lt]

theorem Holds.last_eq : r.blocks ((first + segs.length) % r.nBlocks) = last :=
  h.block_eq segs.length last (by simp)

theorem Holds.appendBlock (hfits : last.length + buf.length + blockReservedBytes ≤ r.blockSize) :
    ∃ r', r.appendBlock buf = (r', .success) ∧ Holds r' first segs (last ++ buf) ∧
      r'.nBlocks = r.nBlocks ∧ r'.blockSize = r.blockSize := by
  unfold RingDataBuffer.appendBlock
  simp only [h.getBlockId_endPos, h.last_eq]
  rw [if_neg (by omega)]
  refine ⟨_, rfl, ⟨h.startPos_eq, ?_, h.round, ?_, ?_, h.ne_nil⟩, rfl, rfl⟩
  · simp [h.endPos_eq, blockSize, add_assoc]
  · intro j seg hseg
    rcases lt_or_ge j segs.length with hlt | hge
    · -- the blocks before are stored elsewhere
      rw [getElem?_append_left hlt] at hseg
      have hround := h.round
      simp only
      rw [Function.update_of_ne (mod_ne_mod (by omega) (by omega)).symm]
      exact h.block_eq j seg (by rwa [getElem?_append_left hlt])
    rw [getElem?_append_right hge] at hseg
    rcases hj : j - segs.length with _ | k
    · rw [hj] at hseg
      obtain rfl : j = segs.length := by omega
      simp only [Function.update_self]
      exact Option.some.inj hseg
    · rw [hj] at hseg
      cases hseg
  · refine forall_mem_append.2 ⟨(forall_mem_append.1 h.room).1, forall_mem_singleton.2 (.inr ?_)⟩
    rwa [length_append]

/-- The next block begins empty; where the ring is full, it takes the place of the oldest one. -/
theorem Holds.nextBlockForAppend (hne : last ≠ []) :
    Holds r.nextBlockForAppend (first + (segs.length + 2 - r.nBlocks))
      ((segs ++ [last]).drop (segs.length + 2 - r.nBlocks)) [] := by
  have hround := h.round
  have hnext : r.getNextBlockPos r.endPos = (first + segs.length + 1) * r.blockSize := by
    rw [h.endPos_eq, getNextBlockPos_add h.last_lt]
  have hid : r.getBlockId ((first + segs.length + 1) * r.blockSize) =
      (first + segs.length + 1) % r.nBlocks := by
    have hid := getBlockId_add (i := first + segs.length + 1) r.blockSize_pos
    rwa [Nat.add_zero] at hid
  generalize hd : segs.length + 2 - r.nBlocks = d
  have hlength : ((segs ++ [last]).drop d).length = segs.length + 1 - d := by
    rw [length_drop, length_append, length_singleton]
  refine ⟨?_, ?_, ?_, ?_, ?_, ?_⟩
  · have hstart : max (first * r.blockSize)
        ((first + segs.length + 1) * r.blockSize - (r.nBlocks - 1) * r.blockSize) =
          (first + d) * r.blockSize := by
      rw [← Nat.sub_mul, Nat.mul_max_mul_right]
      congr 1
      omega
    simp only [RingDataBuffer.nextBlockForAppend, hnext, h.startPos_eq]
    exact hstart
  · have hend : first + segs.length + 1 = first + d + (segs.length + 1 - d) := by omega
    simp only [RingDataBuffer.nextBlockForAppend, hnext, hlength]
    rw [← hend]
    rfl
  · simp only [RingDataBuffer.nextBlockForAppend]
    omega
  · intro j seg hseg
    simp only [RingDataBuffer.nextBlockForAppend, hnext, hid]
    rcases Nat.lt_or_ge j (segs.length + 1 - d) with hlt | hge
    · -- a block that stays is not the one that begins
      rw [getElem?_append_left (by omega), getElem?_drop] at hseg
      rw [Function.update_of_ne (mod_ne_mod (by omega) (by omega)).symm, Nat.add_assoc]
      exact h.block_eq (d + j) seg hseg
    rw [getElem?_append_right (by omega), hlength] at hseg
    rcases hj : j - (segs.length + 1 - d) with _ | k
    · rw [hj] at hseg
      have hlast : first + d + j = first + segs.length + 1 := by omega
      rw [hlast, Function.update_self]
      exact Option.some.inj hseg
    · rw [hj] at hseg
      cases hseg
  · exact forall_mem_append.2
      ⟨fun seg hseg => h.room seg (mem_of_mem_drop hseg), forall_mem_singleton.2 (.inl rfl)⟩
  · exact fun seg hseg => forall_mem_append.2 ⟨h.ne_nil, forall_mem_singleton.2 hne⟩ seg
      (mem_of_mem_drop hseg)

end

/-- What stays of the window when `buf` is appended, from which block on, and what is then in the
block that is being written. -/
def afterAppend (r : RingDataBuffer) (first : Nat) (segs : List (List UInt8))
    (last buf : List UInt8) : Nat × List (List UInt8) × List UInt8 :=
  if last.length + buf.length + blockReservedBytes ≤ r.blockSize then (first, segs, last ++ buf)
  else
    let d := segs.length + 2 - r.nBlocks
    (first + d, (segs ++ [last]).drop d, buf)

theorem Holds.append (h : Holds r first segs last)
    (hsize : buf.length + blockReservedBytes ≤ r.blockSize) :
    ∃ r', r.append buf = (r', .success) ∧ r'.nBlocks = r.nBlocks ∧ r'.blockSize = r.blockSize ∧
      Holds r' (r.afterAppend first segs last buf).1 (r.afterAppend first segs last buf).2.1
        (r.afterAppend first segs last buf).2.2 := by
  unfold RingDataBuffer.append afterAppend
  rw [if_neg (by omega), h.getBlockId_endPos, h.last_eq, getRemainSize]
  split
  · next hfull =>
    rw [if_neg (by omega)]
    have hne : last ≠ [] := by
      rintro rfl
      rw [length_nil] at hfull
      omega
    have hnext := h.nextBlockForAppend hne
    have hroom : ([] : List UInt8).length + buf.length + blockReservedBytes ≤ r.blockSize := by
      rwa [length_nil, zero_add]
    obtain ⟨r', hr', hholds, hblocks, hsize'⟩ := hnext.appendBlock hroom
    exact ⟨r', hr', hblocks, hsize', hholds⟩
  · next hfits =>
    have hfits : last.length + buf.length + blockReservedBytes ≤ r.blockSize := by omega
    rw [if_pos hfits]
    obtain ⟨r', hr', hholds, hblocks, hsize'⟩ := h.appendBlock hfits
    exact ⟨r', hr', hblocks, hsize', hholds⟩

theorem append_of_gt (hsize : r.blockSize < buf.length + blockReservedBytes) :
    r.append buf = (r, .invalidArgument) := by
  rw [RingDataBuffer.append, if_pos hsize]

end Append

/-! ### Reading -/

section Read

variable {first j o len : Nat} {last seg seg' : List UInt8}

section

variable (h : Holds r first segs last)
include h

theorem Holds.startPos_le : r.startPos ≤ r.endPos := by
  rw [h.startPos_eq, h.endPos_eq, add_mul]
  omega

theorem Holds.isPosValid (hseg : (segs ++ [last])[j]? = some seg)
    (ho : o < seg.length ∨ j < segs.length ∧ o ≤ seg.length) :
    r.isPosValid ((first + j) * r.blockSize + o) = true ∧
      (first + j) * r.blockSize + o ≠ r.endPos := by
  have hroom := h.length_lt (mem_of_getElem? hseg)
  have hlt : (first + j) * r.blockSize + o < r.endPos := by
    rcases lt_or_ge j segs.length with hj | hj
    · have hnext : (first + j + 1) * r.blockSize ≤ (first + segs.length) * r.blockSize :=
        mul_le_mul_right _ (by omega)
      rw [h.endPos_eq]
      rw [add_mul (first + j) 1, one_mul] at hnext
      omega
    have hlength := (List.getElem?_eq_some_iff.1 hseg).1
    rw [length_append, length_singleton] at hlength
    obtain rfl : j = segs.length := by omega
    rw [getElem?_concat_length] at hseg
    cases hseg
    rw [h.endPos_eq]
    omega
  have hle : first * r.blockSize ≤ (first + j) * r.blockSize := mul_le_mul_right _ (by omega)
  rw [RingDataBuffer.isPosValid, h.startPos_eq, Bool.and_eq_true, decide_eq_true_iff,
    decide_eq_true_iff]
  omega

theorem Holds.read_inside (hseg : (segs ++ [last])[j]? = some seg)
    (ho : o < seg.length) (hlen : 0 < len) :
    r.read (((first + j) * r.blockSize + o : Nat) : Int) len =
      .ok ((first + j) * r.blockSize + o, (seg.drop o).take len) := by
  obtain ⟨hvalid, hend⟩ := h.isPosValid hseg (.inl ho)
  have hsize : o < r.blockSize := lt_trans ho (h.length_lt (mem_of_getElem? hseg))
  have hblock := h.block_eq j seg hseg
  have hreadPos : r.getReadPos ((first + j) * r.blockSize + o) = (first + j) * r.blockSize + o := by
    rw [getReadPos, getBlockId_add hsize, getBlockOffset_add hsize, hblock, if_neg (by omega)]
  rw [read, if_neg (by omega), Int.toNat_natCast, if_neg hend, if_pos hvalid]
  simp only [hreadPos, getBlockId_add hsize, getBlockOffset_add hsize, hblock]
  rw [readBlock, if_neg (by omega)]
  rfl

theorem Holds.read_next (hseg : (segs ++ [last])[j]? = some seg)
    (hseg' : (segs ++ [last])[j + 1]? = some seg') (hlen : 0 < len) :
    r.read (((first + j) * r.blockSize + seg.length : Nat) : Int) len =
      .ok ((first + (j + 1)) * r.blockSize, seg'.take len) := by
  have hj : j < segs.length := by
    have hlength := (List.getElem?_eq_some_iff.1 hseg').1
    rw [length_append, length_singleton] at hlength
    omega
  obtain ⟨hvalid, hend⟩ := h.isPosValid hseg (.inr ⟨hj, le_refl _⟩)
  have hsize : seg.length < r.blockSize := h.length_lt (mem_of_getElem? hseg)
  have hreadPos : r.getReadPos ((first + j) * r.blockSize + seg.length) =
      (first + (j + 1)) * r.blockSize + 0 := by
    rw [getReadPos, getBlockId_add hsize, getBlockOffset_add hsize, h.block_eq j seg hseg,
      if_pos (le_refl _), getNextBlockPos_add hsize, add_assoc]
    rfl
  rw [read, if_neg (by omega), Int.toNat_natCast, if_neg hend, if_pos hvalid]
  simp only [hreadPos, getBlockId_add r.blockSize_pos, getBlockOffset_add r.blockSize_pos,
    h.block_eq (j + 1) seg' hseg']
  rfl

end

theorem read_endPos (r : RingDataBuffer) (hlen : 0 < len) :
    r.read (r.endPos : Int) len = .ok (r.endPos, []) := by
  rw [read, if_neg (by omega), Int.toNat_natCast, if_pos rfl]

theorem Holds.read_of_lt (h : Holds r first segs last) {pos : Nat} (hpos : pos < r.startPos)
    (hlen : 0 < len) : r.read (pos : Int) len = .error .dataNotServe := by
  have hle := h.startPos_le
  rw [read, if_neg (by omega), Int.toNat_natCast, if_neg (by omega), if_neg]
  rw [RingDataBuffer.isPosValid, Bool.and_eq_true, decide_eq_true_iff, decide_eq_true_iff]
  omega

end Read

end RingDataBuffer

end OceanBase.UpdateServer
