import OceanBase.UpdateServer.LogBuffer

/-!
# The buffer of prefetched logs (`ob_prefetch_log_buffer.cpp`)

Logs that were fetched ahead of the replay wait in a log buffer of their own, which remembers how
far they were read. A batch is only appended while a block's length is left between the end and
the read position a whole round ahead.

The room is counted in bytes, but a batch that does not fit the block being written empties the
whole oldest block. When the read position stands in the middle of that block, the unread rest of
it is lost (`not_noLoss_midBlock`); otherwise nothing unread is (`noLoss_iff_of_run`).
-/

namespace OceanBase.UpdateServer

open Common Lib List Option RingDataBuffer

/-! ### The code -/

/-- `ObPrefetchLogBuffer`. -/
structure PrefetchLogBuffer where
  buffer : LogBuffer
  readPos : Nat

namespace PrefetchLogBuffer

def getRemain (p : PrefetchLogBuffer) : Int :=
  p.readPos + p.buffer.ring.nBlocks * p.buffer.ring.blockSize - p.buffer.ring.endPos

def reset (p : PrefetchLogBuffer) : PrefetchLogBuffer :=
  ⟨p.buffer.reset, p.buffer.reset.ring.endPos⟩

def getLog (crc64 : Crc64) (p : PrefetchLogBuffer)
    (alignBits : Nat) (startId endId : Int) (len : Nat) :
    Option (PrefetchLogBuffer × Except Ret LogPiece) :=
  if len = 0 ∨ startId < 0 then some (p, .error .invalidArgument)
  else
    (p.buffer.getLog crc64 alignBits p.readPos startId endId len).map fun
      | .error err => (p, .error err)
      | .ok piece =>
        if startId ≠ piece.startId then (p, .error .discontinuousLog)
        else ({ p with readPos := (piece.realPos + piece.data.length).toNat }, .ok piece)

def appendLog (p : PrefetchLogBuffer) (startId endId : Int) (buf : List UInt8) :
    PrefetchLogBuffer × Ret :=
  if startId ≤ 0 ∨ endId < startId ∨ buf.length + blockReservedBytes > p.buffer.ring.blockSize then
    (p, .invalidArgument)
  else if p.getRemain < p.buffer.ring.blockSize then (p, .eAgain)
  else
    let r := p.buffer.appendLog startId endId buf
    ({ p with buffer := r.1 }, r.2)

/-- Appending `buf` leaves what is unread alone: it fits the block that is being written, or the
window still contains the read position behind it, or the block of the read position is read to
its end. -/
def ReadOut (p : PrefetchLogBuffer) (buf : List UInt8) : Prop :=
  let r := p.buffer.ring
  (buf.length : Int) ≤ r.getRemainSize (r.blocks (r.getBlockId r.endPos)) ∨
    r.getNextBlockPos r.endPos - (r.nBlocks - 1) * r.blockSize ≤ p.readPos ∨
    (r.blocks (r.getBlockId p.readPos)).length ≤ r.getBlockOffset p.readPos

end PrefetchLogBuffer

/-! ### Runs -/

/-- A prefetch buffer in use, with the entries of every block written and the bytes handed out
since the last reset. -/
structure PrefetchState where
  prefetch : PrefetchLogBuffer
  history : List (List LogFrame)
  delivered : List UInt8

/-- The calls of the buffer. -/
inductive PrefetchCall (crc64 : Crc64) where
  | append (batch : LogBatch crc64)
  | get (alignBits : Nat) (startId endId : Int) (len : Nat)
  | reset

namespace PrefetchState

variable (crc64 : Crc64)

section Step

def step (s : PrefetchState) : PrefetchCall crc64 → Option PrefetchState
  | .append batch =>
    let r := s.prefetch.appendLog batch.startId batch.endId (frameBytes batch.frames)
    let same := decide (r.1.buffer.ring.endPos / r.1.buffer.ring.blockSize =
      s.prefetch.buffer.ring.endPos / s.prefetch.buffer.ring.blockSize)
    some { s with
      prefetch := r.1
      history := if r.2 = .success then recordBlock same s.history batch.frames else s.history }
  | .get alignBits startId endId len =>
    (s.prefetch.getLog crc64 alignBits startId endId len).map fun r =>
      { s with
        prefetch := r.1
        delivered := s.delivered ++ (match r.2 with
          | .ok piece => piece.data
          | .error _ => []) }
  | .reset => some ⟨s.prefetch.reset, [[]], []⟩

/-- A buffer behind `init`. -/
def start (ring : RingDataBuffer) : PrefetchState := ⟨⟨⟨ring, 0⟩, 0⟩, [[]], []⟩

end Step

variable (s : PrefetchState)

/-- All entries appended. -/
def appended : List LogFrame := s.history.flatten

/-- The entries of blocks that were overwritten. -/
def evicted : List LogFrame :=
  (s.history.take (s.history.length - s.prefetch.buffer.ring.nBlocks)).flatten

/-- What is overwritten was handed out before. -/
def NoLoss : Prop := frameBytes s.evicted <+: s.delivered

/-- What was handed out is the first part of what was appended. -/
def InOrder : Prop :=
  ∃ fs, fs <+: s.appended ∧ s.delivered = frameBytes fs

/-! ### The reader -/

/-- Where the reader is: between entries of the window, with everything before handed out; or behind
the window, where it is not given anything any more. -/
def Reader (p : PrefetchLogBuffer) (first : Nat) (old ws : List (List LogFrame))
    (last : List LogFrame) (delivered : List UInt8) : Prop :=
  (∃ done cur later, At p.buffer.ring first (ws ++ [last]) p.readPos done cur later ∧
    delivered = frameBytes (old.flatten ++ done)) ∨
  p.readPos < p.buffer.ring.startPos ∧ old ≠ [] ∧
    ∃ fs, fs <+: old.flatten ∧ delivered = frameBytes fs

/-- The history, and the reader. -/
structure Tracked (crc64 : Crc64) (s : PrefetchState)
    (first : Nat) (old ws : List (List LogFrame)) (last : List LogFrame) (retId : Int) : Prop
    extends Recorded crc64 s.prefetch.buffer s.history first old ws last retId where
  reader : Reader s.prefetch first old ws last s.delivered

/-- Some description fits the state. -/
def Inv (crc64 : Crc64) (s : PrefetchState) : Prop :=
  ∃ first old ws last retId, Tracked crc64 s first old ws last retId

section Reader

variable {crc64} {s s' : PrefetchState} {first : Nat} {old ws : List (List LogFrame)}
    {last : List LogFrame} {retId : Int}

theorem Tracked.evicted_eq (h : Tracked crc64 s first old ws last retId) :
    s.evicted = old.flatten := by
  rw [evicted, h.length_old, h.history_eq, take_left]

theorem Tracked.appended_eq (h : Tracked crc64 s first old ws last retId) :
    s.appended = old.flatten ++ (ws ++ [last]).flatten := by
  rw [appended, h.history_eq, flatten_append]

theorem frameBytes_prefix {fs gs : List LogFrame}
    (h : fs <+: gs) : frameBytes fs <+: frameBytes gs := by
  obtain ⟨hs, rfl⟩ := h
  exact ⟨frameBytes hs, (frameBytes_append fs hs).symm⟩

section

variable (h : Tracked crc64 s first old ws last retId)
include h

theorem Tracked.noLoss {done : List LogFrame}
    (hdelivered : s.delivered = frameBytes (old.flatten ++ done)) : s.NoLoss := by
  rw [NoLoss, h.evicted_eq, hdelivered]
  exact frameBytes_prefix (prefix_append _ _)

theorem Tracked.inOrder : s.InOrder := by
  rw [InOrder, h.appended_eq]
  rcases h.reader with ⟨done, cur, later, hat, hdelivered⟩ | ⟨-, -, fs, hfs, hdelivered⟩
  · refine ⟨_, ?_, hdelivered⟩
    rw [hat.flatten_eq]
    exact (prefix_append_right_inj _).2 (prefix_append _ _)
  · exact ⟨fs, hfs.trans (prefix_append _ _), hdelivered⟩

/-- A reader behind the window keeps batches from being appended. -/
theorem Tracked.getRemain_lt
    (hpos : s.prefetch.readPos < s.prefetch.buffer.ring.startPos) (hold : old ≠ []) :
    s.prefetch.getRemain < s.prefetch.buffer.ring.blockSize := by
  have hfull := h.full.resolve_left hold
  have hholds := h.window.frames.holds
  have hend := hholds.endPos_eq
  rw [length_map, Nat.add_mul, ← hholds.startPos_eq] at hend
  rw [PrefetchLogBuffer.getRemain, ← hfull]
  push_cast
  rw [Int.add_mul, Int.one_mul]
  omega

theorem Tracked.getRemainSize_eq :
    s.prefetch.buffer.ring.getRemainSize
      (s.prefetch.buffer.ring.blocks
        (s.prefetch.buffer.ring.getBlockId s.prefetch.buffer.ring.endPos)) =
      s.prefetch.buffer.ring.blockSize - (frameBytes last).length - blockReservedBytes := by
  have hholds := h.window.frames.holds
  rw [hholds.getBlockId_endPos, hholds.last_eq, getRemainSize]

theorem Tracked.nextStart_eq :
    s.prefetch.buffer.ring.getNextBlockPos s.prefetch.buffer.ring.endPos -
        (s.prefetch.buffer.ring.nBlocks - 1) * s.prefetch.buffer.ring.blockSize =
      (first + ws.length + 1 - (s.prefetch.buffer.ring.nBlocks - 1)) *
        s.prefetch.buffer.ring.blockSize := by
  have hholds := h.window.frames.holds
  rw [hholds.endPos_eq, getNextBlockPos_add hholds.last_lt, length_map, ← Nat.sub_mul]

variable {later history' : List (List LogFrame)} {batch : LogBatch crc64} {b' : LogBuffer}

theorem Tracked.readOut_iff {j : Nat}
    {before cur : List LogFrame}
    (hpos : s.prefetch.readPos =
      (first + j) * s.prefetch.buffer.ring.blockSize + (frameBytes before).length)
    (hdrop : (ws ++ [last]).drop j = (before ++ cur) :: later) :
    (s.prefetch.buffer.ring.blocks
        (s.prefetch.buffer.ring.getBlockId s.prefetch.readPos)).length ≤
      s.prefetch.buffer.ring.getBlockOffset s.prefetch.readPos ↔ cur = [] := by
  have hframes := h.window.frames
  have hmem : before ++ cur ∈ ws ++ [last] := mem_of_mem_drop (hdrop ▸ mem_cons_self)
  have hlt := hframes.length_lt hmem
  rw [frameBytes_append, length_append] at hlt
  have hblock : s.prefetch.buffer.ring.blocks ((first + j) % s.prefetch.buffer.ring.nBlocks) =
      frameBytes (before ++ cur) := by
    refine hframes.holds.block_eq j _ ?_
    rw [← map_singleton, ← map_append, getElem?_map, ← head?_drop, hdrop]
    rfl
  rw [hpos, getBlockId_add (by omega), getBlockOffset_add (by omega), hblock, frameBytes_append,
    length_append]
  constructor
  · intro hle
    by_contra hne
    have := length_pos_iff.2 (frameBytes_ne_nil hne)
    omega
  · rintro rfl
    simp [frameBytes]

section

variable {retId' : Int} {done cur : List LogFrame}
  (hat : At s.prefetch.buffer.ring first (ws ++ [last]) s.prefetch.readPos done cur later)
  (hdelivered : s.delivered = frameBytes (old.flatten ++ done))
  (hsize : b'.ring.blockSize = s.prefetch.buffer.ring.blockSize)
include hat hdelivered hsize

/-- A batch that fits the block being written leaves the reader where it is. -/
theorem tracked_append_fits
    (hfits : (frameBytes last).length + (frameBytes batch.frames).length + blockReservedBytes ≤
      s.prefetch.buffer.ring.blockSize)
    (hrecorded : Recorded crc64 b' history' first old ws (last ++ batch.frames) retId') :
    Tracked crc64 ⟨⟨b', s.prefetch.readPos⟩, history', s.delivered⟩ first old ws
        (last ++ batch.frames) retId' ∧
      (NoLoss ⟨⟨b', s.prefetch.readPos⟩, history', s.delivered⟩ ↔
        s.prefetch.ReadOut (frameBytes batch.frames)) := by
  obtain ⟨cur', later', hat'⟩ := hat.grow hsize
  have htracked : Tracked crc64 ⟨⟨b', s.prefetch.readPos⟩, history', s.delivered⟩ first old ws
      (last ++ batch.frames) retId' :=
    ⟨hrecorded, .inl ⟨done, cur', later', hat', hdelivered⟩⟩
  refine ⟨htracked, iff_of_true (htracked.noLoss hdelivered) (.inl ?_)⟩
  rw [h.getRemainSize_eq]
  omega

/-- A batch that makes a new block loses what is unread in the block that goes. -/
theorem tracked_append_next
    (hfull : s.prefetch.buffer.ring.blockSize <
      (frameBytes last).length + (frameBytes batch.frames).length + blockReservedBytes)
    (hrecorded : Recorded crc64 b' history'
      (first + (ws.length + 2 - s.prefetch.buffer.ring.nBlocks))
      (old ++ (ws ++ [last]).take (ws.length + 2 - s.prefetch.buffer.ring.nBlocks))
      ((ws ++ [last]).drop (ws.length + 2 - s.prefetch.buffer.ring.nBlocks)) batch.frames retId') :
    Inv crc64 ⟨⟨b', s.prefetch.readPos⟩, history', s.delivered⟩ ∧
      (NoLoss ⟨⟨b', s.prefetch.readPos⟩, history', s.delivered⟩ ↔
        s.prefetch.ReadOut (frameBytes batch.frames)) := by
  have hround := h.window.frames.holds.round
  have hblocks := s.prefetch.buffer.ring.nBlocks_pos
  rw [length_map] at hround
  have hfit : ¬ ((frameBytes batch.frames).length : Int) ≤
      s.prefetch.buffer.ring.blockSize - (frameBytes last).length - blockReservedBytes := by
    omega
  rw [PrefetchLogBuffer.ReadOut, h.getRemainSize_eq, h.nextStart_eq]
  generalize hd : ws.length + 2 - s.prefetch.buffer.ring.nBlocks = d at hrecorded
  rcases hat.next batch.frames hsize with
    ⟨done', later', hat', hdone, hle⟩ | ⟨j, hj, before, hpos, hdrop, hdone⟩
  · -- the block of the read position stays
    have hdelivered' : s.delivered =
        frameBytes ((old ++ (ws ++ [last]).take d).flatten ++ done') := by
      rw [hdelivered, hdone, flatten_append, append_assoc]
    have htracked :
        Tracked crc64 ⟨⟨b', s.prefetch.readPos⟩, history', s.delivered⟩ _ _ _ _ retId' :=
      ⟨hrecorded, .inl ⟨done', cur, later', hat', hdelivered'⟩⟩
    refine ⟨⟨_, _, _, _, _, htracked⟩, iff_of_true (htracked.noLoss hdelivered') (.inr (.inl ?_))⟩
    refine Nat.le_trans (Nat.mul_le_mul_right _ ?_) hle
    omega
  -- the block of the read position is the one that goes
  obtain rfl : j = 0 := by omega
  obtain rfl : d = 1 := by omega
  have hread := h.readOut_iff hpos hdrop
  rw [drop_zero] at hdrop
  rw [Nat.add_zero] at hpos
  have hold : (old ++ (ws ++ [last]).take 1).flatten = old.flatten ++ (before ++ cur) := by
    rw [hdrop]
    simp
  have hdelivered' : s.delivered = frameBytes (old.flatten ++ before) := by
    rw [hdelivered, hdone]
    rfl
  have hbefore : (frameBytes before).length < s.prefetch.buffer.ring.blockSize := by
    have hlt := h.window.frames.length_lt (hdrop ▸ mem_cons_self)
    rw [frameBytes_append, length_append] at hlt
    omega
  have hlost : s.prefetch.readPos < b'.ring.startPos := by
    rw [hrecorded.window.frames.holds.startPos_eq, hsize, hpos, Nat.succ_mul]
    omega
  have htracked : Tracked crc64 ⟨⟨b', s.prefetch.readPos⟩, history', s.delivered⟩ (first + 1)
      (old ++ (ws ++ [last]).take 1) ((ws ++ [last]).drop 1) batch.frames retId' := by
    refine ⟨hrecorded, .inr ⟨hlost, by rw [hdrop]; simp, _, ?_, hdelivered'⟩⟩
    rw [hold, ← append_assoc]
    exact prefix_append _ _
  refine ⟨⟨_, _, _, _, _, htracked⟩, ?_⟩
  have hstart : ¬ (first + ws.length + 1 - (s.prefetch.buffer.ring.nBlocks - 1)) *
      s.prefetch.buffer.ring.blockSize ≤ s.prefetch.readPos := by
    have hnumber : first + ws.length + 1 - (s.prefetch.buffer.ring.nBlocks - 1) = first + 1 := by
      omega
    rw [hnumber, hpos, Nat.succ_mul]
    omega
  rw [or_iff_right hfit, or_iff_right hstart, hread, NoLoss, htracked.evicted_eq, hold,
    hdelivered', ← append_assoc, frameBytes_append _ cur]
  constructor
  · intro hprefix
    by_contra hne
    have hpos := length_pos_iff.2 (frameBytes_ne_nil hne)
    have hle := hprefix.length_le
    rw [length_append] at hle
    omega
  · rintro rfl
    simp [frameBytes]

end

end

/-- What a call of `append_log` does: what is unread stays exactly when it is read out of the way.
-/
theorem inv_append (h : Inv crc64 s) (batch : LogBatch crc64)
    (hstep : s.step crc64 (.append batch) = some s') :
    Inv crc64 s' ∧
      ((s.prefetch.appendLog batch.startId batch.endId (frameBytes batch.frames)).2 = .success →
        (s'.NoLoss ↔ s.prefetch.ReadOut (frameBytes batch.frames))) ∧
      ((s.prefetch.appendLog batch.startId batch.endId (frameBytes batch.frames)).2 ≠ .success →
        s' = s) := by
  obtain ⟨first, old, ws, last, retId, h⟩ := h
  obtain rfl := some.inj hstep
  unfold PrefetchLogBuffer.appendLog
  split
  · exact ⟨⟨first, old, ws, last, retId, h⟩, (fun herr => nomatch herr), fun _ => rfl⟩
  split
  · exact ⟨⟨first, old, ws, last, retId, h⟩, (fun herr => nomatch herr), fun _ => rfl⟩
  next hremain =>
  rcases h.appendLog batch with ⟨err, herr, happend⟩ | ⟨b', retId', happend, hblocks, hsize,
    history', rfl, happended⟩
  · simp only [happend, if_neg herr]
    exact ⟨⟨first, old, ws, last, retId, h⟩, (fun herr' => absurd herr' herr), fun _ => trivial⟩
  simp only [happend, ne_eq, not_true_eq_false, false_imp_iff, and_true, true_imp_iff]
  rcases h.reader with ⟨done, cur, later, hat, hdelivered⟩ | ⟨hpos, hold, -⟩
  · rcases happended with ⟨hfits, hrecorded⟩ | ⟨hfull, hrecorded⟩
    · obtain ⟨htracked, hiff⟩ := tracked_append_fits h hat hdelivered hsize hfits hrecorded
      exact ⟨⟨_, _, _, _, _, htracked⟩, hiff⟩
    · exact tracked_append_next h hat hdelivered hsize hfull hrecorded
  · exact absurd (h.getRemain_lt hpos hold) hremain

theorem inv_reset (hstep : s.step crc64 .reset = some s') : Inv crc64 s' ∧ s'.NoLoss := by
  obtain rfl := some.inj hstep
  obtain ⟨first, hholds⟩ := holds_restart s.prefetch.buffer.ring
  have hframes : HoldsFrames s.prefetch.reset.buffer.ring first [] [] :=
    ⟨hholds, fun h => absurd rfl h⟩
  have htracked : Tracked crc64 ⟨s.prefetch.reset, [[]], []⟩ first [] [] [] 1 := by
    refine ⟨⟨rfl, .inl rfl, hframes, by simp, trivial, by decide, .inr ⟨rfl, rfl⟩⟩, .inl ?_⟩
    exact ⟨[], [], [], ⟨0, [], hholds.startPos_eq, rfl, rfl⟩, rfl⟩
  have hnil : ([] : List UInt8) = frameBytes (([] : List (List LogFrame)).flatten ++ []) := rfl
  exact ⟨⟨_, _, _, _, _, htracked⟩, htracked.noLoss hnil⟩

variable {startId endId : Int} {piece : LogPiece}

/-- `get_log` of the log buffer gives something only from a position in its window, and for an
alignment that `trim_log_buffer` takes. -/
theorem getLog_eq_ok {b : LogBuffer} {alignBits len pos : Nat}
    (hget : b.getLog crc64 alignBits pos startId endId len = some (.ok piece)) :
    alignBits ≤ 12 ∧ ¬ (startId = 0 ∨ b.endId ≠ 0 ∧ startId > b.endId) ∧ 0 < len ∧
      ∃ realPos data n, b.ring.read pos len = .ok (realPos, data) ∧ piece.realPos = realPos ∧
        piece.data = data.take n := by
  unfold LogBuffer.getLog at hget
  split at hget
  · cases hget
  next hlen =>
  split at hget
  · cases hget
  next hserve =>
  split at hget
  · cases hget
  next realPos data hread =>
  obtain ⟨r, htrim, hpiece⟩ := map_eq_some_iff.1 hget
  split at hpiece
  · cases hpiece
  next hok =>
  split at hpiece
  · cases hpiece
  cases hpiece
  refine ⟨?_, hserve, by omega, realPos, data, _, hread, rfl, rfl⟩
  by_contra hbits
  rw [trimLogBuffer, if_pos (by omega)] at htrim
  cases htrim
  exact hok fun herr => by cases herr

variable {alignBits len : Nat} {call : PrefetchCall crc64}

theorem reader_of_getLog (h : Tracked crc64 s first old ws last retId)
    (hget : s.prefetch.buffer.getLog crc64 alignBits s.prefetch.readPos startId endId len =
      some (.ok piece)) :
    Reader ⟨s.prefetch.buffer, (piece.realPos + piece.data.length).toNat⟩ first old ws last
      (s.delivered ++ piece.data) := by
  obtain ⟨hbits, hserve, hlen, realPos, data, n, hread, hrealPos, hdata⟩ := getLog_eq_ok hget
  rcases h.reader with ⟨done, cur, later, hat, hdelivered⟩ | ⟨hpos, -, -⟩
  · by_cases hrest : cur ++ later.flatten = []
    · -- everything was read before
      have hend := hat.eq_endPos h.window.frames hrest
      rw [hend, read_endPos _ hlen] at hread
      cases hread
      rw [take_nil] at hdata
      rw [hdata, hrealPos, append_nil, length_nil, ← hend]
      exact .inl ⟨done, cur, later, hat, hdelivered⟩
    obtain ⟨res, hres, hcases, -⟩ := getLog_at h.window hat hrest hserve hbits hlen endId
    rw [hget] at hres
    cases hres
    rcases hcases with herr | ⟨realPos, gs, cur', later', hpiece, -, hat'⟩
    · cases herr
    cases hpiece
    refine .inl ⟨done ++ gs, cur', later', hat'.over_append, ?_⟩
    rw [hdelivered, ← frameBytes_append, append_assoc]
  · rw [h.window.frames.holds.read_of_lt hpos hlen] at hread
    cases hread

theorem reader_get (h : Tracked crc64 s first old ws last retId)
    {r : PrefetchLogBuffer × Except Ret LogPiece}
    (hget : s.prefetch.getLog crc64 alignBits startId endId len = some r) :
    r.1.buffer = s.prefetch.buffer ∧ ∃ data, (match r.2 with
        | .ok piece => piece.data
        | .error _ => []) = data ∧ Reader r.1 first old ws last (s.delivered ++ data) := by
  have hsame : Reader s.prefetch first old ws last (s.delivered ++ []) := by
    rw [append_nil]
    exact h.reader
  unfold PrefetchLogBuffer.getLog at hget
  split at hget
  · cases hget
    exact ⟨rfl, [], rfl, hsame⟩
  obtain ⟨res, hres, hr⟩ := map_eq_some_iff.1 hget
  rcases res with err | piece
  · subst hr
    exact ⟨rfl, [], rfl, hsame⟩
  simp only at hr
  split at hr
  · subst hr
    exact ⟨rfl, [], rfl, hsame⟩
  · subst hr
    exact ⟨rfl, piece.data, rfl, reader_of_getLog h hres⟩

theorem inv_get (h : Inv crc64 s)
    (hstep : s.step crc64 (.get alignBits startId endId len) = some s') :
    Inv crc64 s' ∧ (s.NoLoss → s'.NoLoss) := by
  obtain ⟨first, old, ws, last, retId, h⟩ := h
  obtain ⟨r, hget, rfl⟩ := map_eq_some_iff.1 hstep
  obtain ⟨hbuffer, data, hdata, hreader⟩ := reader_get h hget
  rw [hdata]
  have hrecorded := h.toRecorded
  rw [← hbuffer] at hrecorded
  refine ⟨⟨first, old, ws, last, retId, hrecorded, hreader⟩, fun hloss => ?_⟩
  rw [NoLoss, evicted] at hloss ⊢
  simp only [hbuffer]
  exact hloss.trans (prefix_append _ _)

theorem inv_start {nBlocks blockSizeShift : Nat} {ring : RingDataBuffer}
    (hinit : RingDataBuffer.init nBlocks blockSizeShift = .ok ring) :
    Inv crc64 (start ring) ∧ (start ring).NoLoss := by
  have hholds := holds_init hinit
  have hframes : HoldsFrames ring 0 [] [] := ⟨hholds, fun h => absurd rfl h⟩
  have hzero : (0 : Nat) = (0 + 0) * ring.blockSize + (frameBytes []).length := by simp [frameBytes]
  have htracked : Tracked crc64 (start ring) 0 [] [] [] 1 := by
    refine ⟨⟨rfl, .inl rfl, hframes, by simp, trivial, by decide, .inr ⟨rfl, rfl⟩⟩, .inl ?_⟩
    exact ⟨[], [], [], ⟨0, [], hzero, rfl, rfl⟩, rfl⟩
  have hnil : ([] : List UInt8) = frameBytes (([] : List (List LogFrame)).flatten ++ []) := rfl
  exact ⟨⟨_, _, _, _, _, htracked⟩, htracked.noLoss hnil⟩

/-- The condition on a call: where a batch is appended, what is unread is out of its way. -/
def AppendsReadOut (s : PrefetchState) (call : PrefetchCall crc64) : Prop :=
  ∀ batch, call = .append batch →
    (s.prefetch.appendLog batch.startId batch.endId (frameBytes batch.frames)).2 = .success →
    s.prefetch.ReadOut (frameBytes batch.frames)

theorem inv_step (h : Inv crc64 s) (hstep : s.step crc64 call = some s') : Inv crc64 s' := by
  cases call with
  | append batch => exact (inv_append h batch hstep).1
  | get alignBits startId endId len => exact (inv_get h hstep).1
  | reset => exact (inv_reset hstep).1

theorem noLoss_step (h : Inv crc64 s ∧ s.NoLoss)
    (hok : AppendsReadOut s call) (hstep : s.step crc64 call = some s') :
    Inv crc64 s' ∧ s'.NoLoss := by
  refine ⟨inv_step h.1 hstep, ?_⟩
  cases call with
  | append batch =>
    obtain ⟨-, hiff, hsame⟩ := inv_append h.1 batch hstep
    by_cases hsuccess :
        (s.prefetch.appendLog batch.startId batch.endId (frameBytes batch.frames)).2 = .success
    · exact (hiff hsuccess).2 (hok batch rfl hsuccess)
    · rw [hsame hsuccess]
      exact h.2
  | get alignBits startId endId len => exact (inv_get h.1 hstep).2 h.2
  | reset => exact (inv_reset hstep).2

/-- **The prefetch buffer hands out the first logs of those appended.** A batch that is appended
leaves what is unread alone exactly when it fits the block being written or the block that it
empties was read to its end; and nothing unread is ever lost where this holds of every batch
appended. -/
theorem noLoss_iff_of_run {nBlocks blockSizeShift : Nat} {ring : RingDataBuffer}
    {calls : List (PrefetchCall crc64)}
    (hinit : RingDataBuffer.init nBlocks blockSizeShift = .ok ring)
    (hrun : run (step crc64) (start ring) calls = some s) :
    s.InOrder ∧
    (∀ batch s', s.step crc64 (.append batch) = some s' →
      (s.prefetch.appendLog batch.startId batch.endId (frameBytes batch.frames)).2 = .success →
      (s'.NoLoss ↔ s.prefetch.ReadOut (frameBytes batch.frames))) ∧
    (Meets (step crc64) AppendsReadOut (start ring) calls → s.NoLoss) := by
  have hinv : Inv crc64 s :=
    run_invariant (fun _ _ _ => inv_step) (inv_start hinit).1 hrun
  refine ⟨?_, fun batch s' hstep => (inv_append hinv batch hstep).2.1, fun hok => ?_⟩
  · obtain ⟨first, old, ws, last, retId, h⟩ := hinv
    exact h.inOrder
  · exact (run_invariant_of_meets (fun _ _ _ => noLoss_step) (inv_start hinit) hok hrun).2

end Reader

theorem fits_replicate {n : Nat} (hn : n < 2 ^ 31 - 13) :
    ∀ r ∈ [LogRecord.mk LogCommand.upsMutator.code (List.replicate (n + 1) 0)], r.Fits := by
  simp only [List.mem_singleton, forall_eq, LogRecord.Fits, List.length_replicate]
  omega

/-- One log entry with a payload of `n + 1` bytes. -/
def oneLog (logId : Nat) (n : Nat) (hid : (logId : Int) + 1 ≤ 2 ^ 63) (hn : n < 2 ^ 31 - 13) :
    LogBatch fun _ _ _ => 0 :=
  .ofRecords _ ⟨1, logId, 0⟩ [⟨LogCommand.upsMutator.code, List.replicate (n + 1) 0⟩]
    (by simp [LogCursor.isValid]) (by simpa using hid) (fits_replicate hn)

/-- Two logs in the first block of two, one in the second block, and one of them is read. -/
def midBlock : List (PrefetchCall fun _ _ _ => 0) :=
  [.append (oneLog 1 0 (by decide) (by decide)), .append (oneLog 2 0 (by decide) (by decide)),
    .append (oneLog 3 0 (by decide) (by decide)), .get 0 1 0 45]

def twoBlocks : RingDataBuffer := ⟨2, 7, fun _ => [], 0, 0, by decide, by decide, by decide⟩

theorem noLoss_iff_of_run_midBlock :
    ∃ s, run (step fun _ _ _ => 0) (start twoBlocks) midBlock = some s ∧ s.InOrder ∧
      s.delivered.length = 45 := by
  have hlength : (run (step fun _ _ _ => 0) (start twoBlocks) midBlock).map
      (fun s => s.delivered.length) = some 45 := by
    decide +kernel
  obtain ⟨s, hrun, hread⟩ := map_eq_some_iff.1 hlength
  have hinit : RingDataBuffer.init 2 7 = .ok twoBlocks := rfl
  exact ⟨s, hrun, (noLoss_iff_of_run hinit hrun).1, hread⟩

/-- A log that does not fit the second block is appended, and the second log of the first block is
lost unread. -/
theorem not_noLoss_midBlock :
    ∃ s s', run (step fun _ _ _ => 0) (start twoBlocks) midBlock = some s ∧
      s.step (fun _ _ _ => 0) (.append (oneLog 4 29 (by decide) (by decide))) = some s' ∧
      s'.history.length = s.history.length + 1 ∧ ¬ s'.NoLoss := by
  have hlength : ((run (step fun _ _ _ => 0) (start twoBlocks) midBlock).bind fun s =>
      (s.step (fun _ _ _ => 0) (.append (oneLog 4 29 (by decide) (by decide)))).map fun s' =>
        decide (s'.history.length = s.history.length + 1 ∧
          s'.delivered.length < (frameBytes s'.evicted).length)) = some true := by
    decide +kernel
  obtain ⟨s, hrun, hs⟩ := bind_eq_some_iff.1 hlength
  obtain ⟨s', hstep, hs'⟩ := map_eq_some_iff.1 hs
  obtain ⟨hblock, hlost⟩ := of_decide_eq_true hs'
  refine ⟨s, s', hrun, hstep, hblock, fun hprefix => ?_⟩
  have hle := hprefix.length_le
  omega

end PrefetchState

end OceanBase.UpdateServer
