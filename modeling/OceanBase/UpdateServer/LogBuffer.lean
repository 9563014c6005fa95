import OceanBase.UpdateServer.RingDataBuffer
import OceanBase.UpdateServer.UpsLogUtils

/-!
# The ring buffer of recent logs (`ob_log_buffer.cpp`)

Batches of log entries are appended to a ring of data blocks, and read again by log id. From where
the reader thinks its log id is, or from the start of the window, the buffer walks over the entries
to the one with the id, and hands out what `trim_log_buffer` leaves of the block behind it.

The model keeps next to the buffer the entries of every block that was written since the last reset.
`Inv` says that the window consists of the last of these blocks; from it we get what a reader is
given (`served_of_run`).
-/

namespace OceanBase

open List Nat

namespace Common

def LogEntry.checkHeaderIntegrity (e : LogEntry) : Bool :=
  e.header.checkHeaderChecksum && e.header.magic == magicNumber

theorem LogFrame.Intact.checkHeaderIntegrity
    {crc64 : Crc64} {f : LogFrame} (hf : f.Intact crc64) :
    f.entry.checkHeaderIntegrity = true := by
  have hcheck := hf.integrity
  rw [LogEntry.checkDataIntegrity, Bool.and_eq_true] at hcheck
  exact hcheck.1

end Common

namespace UpdateServer

open Common Lib

/-! ### The code -/

/-- `ObLogBuffer`. -/
structure LogBuffer where
  ring : RingDataBuffer
  endId : Int

/-- What is read from a log buffer: the position it was read from, the range of log ids, and the
bytes. -/
structure LogPiece where
  realPos : Int
  startId : Int
  endId : Int
  data : List UInt8
  deriving DecidableEq, Repr

variable (crc64 : Crc64) {r : RingDataBuffer}
    {ws later all : List (List LogFrame)} {b : LogBuffer} {f : LogFrame} {fs : List LogFrame}

namespace LogBuffer

def reset (b : LogBuffer) : LogBuffer := ⟨b.ring.restart, 0⟩

def appendLog (b : LogBuffer) (startId endId : Int) (buf : List UInt8) : LogBuffer × Ret :=
  if startId ≤ 0 ∨ startId > endId then (b, .invalidArgument)
  else if b.endId > 0 ∧ b.endId ≠ startId then (b, .discontinuousLog)
  else
    match b.ring.append buf with
    | (ring, .success) => (⟨ring, endId⟩, .success)
    | (ring, err) => (⟨ring, b.endId⟩, err)

/-- The size of the buffer that `get_next_entry` reads a header into, `sizeof(ObLogEntry)`. -/
def logEntryBufSize : Nat := 48

/-- `get_next_entry`: the position behind the entry, and its log id. -/
def getNextEntry (b : LogBuffer) (pos : Int) : Except Ret (Int × Int) :=
  match b.ring.read pos logEntryBufSize with
  | .error err => .error err
  | .ok (realPos, data) =>
    if data.length < LogEntry.headerSize then .error .dataNotServe
    else
      match LogEntry.deserialize data with
      | none => .error .error
      | some (entry, _) =>
        if entry.checkHeaderIntegrity then
          .ok (realPos + LogEntry.headerSize + entry.getLogDataLen, entry.seq.toInt)
        else .error .error

/-- The loop of `seek`; there is no result when it does not come to an end within `fuel` entries. -/
def seekLoop (b : LogBuffer) (logId : Int) : Nat → Int → Option (Except Ret Int)
  | 0, _ => none
  | fuel + 1, realPos =>
    match b.getNextEntry realPos with
    | .error err => some (.error err)
    | .ok (nextPos, curId) =>
      if logId < curId then some (.error .dataNotServe)
      else if logId = curId then some (.ok realPos)
      else b.seekLoop logId fuel nextPos

def seek (b : LogBuffer) (logId advisedPos : Int) : Option (Except Ret Int) :=
  if logId ≥ b.endId then some (.error .dataNotServe)
  else b.seekLoop logId (b.ring.endPos + 1) (max advisedPos b.ring.startPos)

section Get

def getLog (b : LogBuffer) (alignBits : Nat) (pos startId endId : Int) (len : Nat) :
    Option (Except Ret LogPiece) :=
  if len = 0 ∨ pos < 0 then some (.error .invalidArgument)
  else if startId = 0 ∨ b.endId ≠ 0 ∧ startId > b.endId then some (.error .dataNotServe)
  else
    match b.ring.read pos len with
    | .error err => some (.error err)
    | .ok (realPos, data) =>
      (trimLogBuffer crc64 realPos alignBits data startId endId false).map fun r =>
        if r.1 ≠ .success then .error r.1
        else if 0 < data.length ∧ r.2.endPos = 0 then .error .dataNotServe
        else .ok ⟨realPos, r.2.startId, r.2.endId, data.take r.2.endPos⟩

def getFromLogBuffer (b : LogBuffer) (alignBits : Nat) (advisedPos startId : Int) (len : Nat) :
    Option (Except Ret LogPiece) :=
  if startId < 0 ∨ len = 0 then some (.error .invalidArgument)
  else if startId = 0 ∨ startId > b.endId then some (.error .dataNotServe)
  else if advisedPos > 0 ∧ advisedPos = b.ring.endPos then
    some (.ok ⟨advisedPos, startId, startId, []⟩)
  else
    match b.seek startId advisedPos with
    | none => none
    | some (.error err) => some (.error err)
    | some (.ok pos) =>
      (b.getLog crc64 alignBits pos startId startId len).map fun
        | .error err => .error err
        | .ok piece => if startId ≠ piece.startId then .error .errUnexpected else .ok piece

end Get

end LogBuffer

open LogBuffer

/-! ### Places between entries -/

section Places

variable {crc64} {first pos len : Nat} {last done cur : List LogFrame}

/-- The blocks of the window, as entries. -/
structure HoldsFrames (r : RingDataBuffer) (first : Nat) (ws : List (List LogFrame))
    (last : List LogFrame) : Prop where
  holds : r.Holds first (ws.map frameBytes) (frameBytes last)
  last_ne_nil : ws ≠ [] → last ≠ []

theorem HoldsFrames.length_lt (h : HoldsFrames r first ws last)
    (hfs : fs ∈ ws ++ [last]) : (frameBytes fs).length < r.blockSize := by
  refine h.holds.length_lt ?_
  rw [← map_singleton, ← map_append]
  exact mem_map_of_mem hfs

/-- The position stands between entries of the window `all`: behind the entries `done`, in front of
the entries `cur` of its own block and the blocks `later`. -/
def At (r : RingDataBuffer) (first : Nat) (all : List (List LogFrame)) (pos : Nat)
    (done cur : List LogFrame) (later : List (List LogFrame)) : Prop :=
  ∃ j before, pos = (first + j) * r.blockSize + (frameBytes before).length ∧
    all.drop j = (before ++ cur) :: later ∧ done = (all.take j).flatten ++ before

theorem At.flatten_eq (h : At r first all pos done cur later) :
    all.flatten = done ++ (cur ++ later.flatten) := by
  obtain ⟨j, before, -, hdrop, rfl⟩ := h
  calc all.flatten = (all.take j ++ all.drop j).flatten := by rw [take_append_drop]
    _ = _ := by rw [flatten_append, hdrop]; simp

theorem at_start (h : HoldsFrames r first ws last) :
    ∃ cur later, At r first (ws ++ [last]) r.startPos [] cur later := by
  obtain ⟨cur, later, hall⟩ : ∃ cur later, ws ++ [last] = cur :: later :=
    exists_cons_of_ne_nil (by simp)
  exact ⟨cur, later, 0, [], by rw [h.holds.startPos_eq]; rfl, hall, rfl⟩

theorem At.over (h : At r first all pos done (f :: cur) later) :
    At r first all (pos + f.bytes.length) (done ++ [f]) cur later := by
  obtain ⟨j, before, rfl, hdrop, rfl⟩ := h
  refine ⟨j, before ++ [f], ?_, by simpa using hdrop, by simp⟩
  simp [frameBytes, add_assoc]

theorem frameBytes_ne_nil (h : fs ≠ []) : frameBytes fs ≠ [] := by
  intro hnil
  have hle := length_le_frameBytes fs
  rw [hnil, length_nil] at hle
  exact h (length_eq_zero_iff.1 (by omega))

theorem HoldsFrames.ne_nil_of_mem (h : HoldsFrames r first ws last) {j : Nat}
    {block : List LogFrame} (hdrop : (ws ++ [last]).drop j = block :: later) (hfs : fs ∈ later) :
    fs ≠ [] := by
  have hmem : fs ∈ ws ++ [last] := mem_of_mem_drop (hdrop ▸ mem_cons_of_mem _ hfs)
  have hws : ws ≠ [] := by
    rintro rfl
    rcases j with _ | j
    · cases hdrop
      cases hfs
    · simp at hdrop
  rcases mem_append.1 hmem with hold | hnew
  · rintro rfl
    exact h.holds.ne_nil _ (mem_map_of_mem hold) rfl
  · rw [mem_singleton.1 hnew]
    exact h.last_ne_nil hws

/-- Reading between entries gives the rest of the block, or the next block. -/
theorem read_at (h : HoldsFrames r first ws last)
    (hat : At r first (ws ++ [last]) pos done cur later) (hne : cur ++ later.flatten ≠ [])
    (hlen : 0 < len) :
    ∃ realPos cur' later', r.read (pos : Int) len = .ok (realPos, (frameBytes cur').take len) ∧
      At r first (ws ++ [last]) realPos done cur' later' ∧ cur' ≠ [] ∧
      cur' ++ later'.flatten = cur ++ later.flatten := by
  obtain ⟨j, before, rfl, hdrop, rfl⟩ := hat
  have hmap : ws.map frameBytes ++ [frameBytes last] = (ws ++ [last]).map frameBytes := by simp
  have hblock :
      (ws.map frameBytes ++ [frameBytes last])[j]? = some (frameBytes (before ++ cur)) := by
    rw [hmap, getElem?_map, ← head?_drop, hdrop]
    rfl
  by_cases hcur : cur = []
  · -- the block is at its end, so there is a next one
    subst hcur
    obtain ⟨next, more, rfl⟩ : ∃ next more, later = next :: more := by
      refine exists_cons_of_ne_nil ?_
      rintro rfl
      exact hne rfl
    have hdrop' : (ws ++ [last]).drop (j + 1) = next :: more := by
      rw [← drop_drop, hdrop, drop_one, tail_cons]
    have hnext : (ws.map frameBytes ++ [frameBytes last])[j + 1]? = some (frameBytes next) := by
      rw [hmap, getElem?_map, ← head?_drop, hdrop']
      rfl
    have hread := h.holds.read_next hblock hnext hlen
    rw [append_nil] at hread hdrop
    refine ⟨_, next, more, hread, ⟨j + 1, [], by simp [frameBytes], hdrop', ?_⟩,
      h.ne_nil_of_mem hdrop mem_cons_self, by simp⟩
    have htake : (ws ++ [last]).take (j + 1) = (ws ++ [last]).take j ++ [before] := by
      rw [take_add_one, ← head?_drop, hdrop]
      rfl
    rw [htake]
    simp
  · have hpos : (frameBytes before).length < (frameBytes (before ++ cur)).length := by
      have := length_pos_iff.2 (frameBytes_ne_nil hcur)
      rw [frameBytes_append, length_append]
      omega
    have hread := h.holds.read_inside hblock hpos hlen
    rw [frameBytes_append, drop_left] at hread
    exact ⟨_, cur, later, hread, ⟨j, before, rfl, hdrop, rfl⟩, hcur, rfl⟩

theorem At.eq_endPos (h : HoldsFrames r first ws last)
    (hat : At r first (ws ++ [last]) pos done cur later) (hnil : cur ++ later.flatten = []) :
    pos = r.endPos := by
  obtain ⟨j, before, rfl, hdrop, -⟩ := hat
  obtain ⟨rfl, hlater⟩ := append_eq_nil_iff.1 hnil
  have hlater : later = [] := by
    rcases later with _ | ⟨next, more⟩
    · rfl
    · have := h.ne_nil_of_mem hdrop mem_cons_self
      exact absurd (flatten_eq_nil_iff.1 hlater next mem_cons_self) this
  subst hlater
  have hlength := congrArg List.length hdrop
  rw [length_drop, length_append, length_singleton, length_singleton] at hlength
  obtain rfl : j = ws.length := by omega
  rw [drop_left, append_nil] at hdrop
  cases hdrop
  rw [h.holds.endPos_eq, length_map]

end Places

/-! ### Seeking -/

section Seek

variable {crc64} {first pos fuel : Nat} {last done cur rest : List LogFrame} {retId logId : Int}

theorem At.seq_eq
    (hat : At r first all pos done cur later) (hrest : cur ++ later.flatten = f :: rest)
    (hcons : Consecutive retId all.flatten) : f.entry.seq.toInt = retId + done.length := by
  rw [hat.flatten_eq, hrest, consecutive_append] at hcons
  exact hcons.2.1

variable (h : HoldsFrames b.ring first ws last)
  (hat : At b.ring first (ws ++ [last]) pos done cur later)
include h hat

theorem getNextEntry_at (hrest : cur ++ later.flatten = f :: rest) (hf : f.Intact crc64) :
    ∃ pos' cur' later', b.getNextEntry pos = .ok ((pos' : Nat), f.entry.seq.toInt) ∧
      At b.ring first (ws ++ [last]) pos' (done ++ [f]) cur' later' ∧
      cur' ++ later'.flatten = rest := by
  obtain ⟨realPos, cur', later', hread, hat', hne, heq⟩ :=
    read_at h hat (by rw [hrest]; simp) (show 0 < logEntryBufSize by decide)
  obtain ⟨g, cs, rfl⟩ := exists_cons_of_ne_nil hne
  rw [hrest, cons_append] at heq
  obtain ⟨rfl, htail⟩ := List.cons.inj heq
  have htake : (frameBytes (g :: cs)).take logEntryBufSize =
      g.entry.serialize ++ (g.data ++ frameBytes cs).take 4 := by
    rfl
  refine ⟨realPos + g.bytes.length, cs, later', ?_, hat'.over, htail⟩
  rw [getNextEntry, hread]
  simp only [htake, LogEntry.deserialize_serialize_append]
  rw [if_neg (by simp), if_pos hf.checkHeaderIntegrity, hf.length, LogFrame.length_bytes]
  push_cast
  rw [Int.add_assoc]

theorem getNextEntry_end (hrest : cur ++ later.flatten = []) :
    b.getNextEntry pos = .error .dataNotServe := by
  rw [hat.eq_endPos h hrest, getNextEntry, RingDataBuffer.read_endPos _ (by decide)]
  rfl

variable (hintact : ∀ f ∈ (ws ++ [last]).flatten, f.Intact crc64)
  (hcons : Consecutive retId (ws ++ [last]).flatten)
include hintact hcons

theorem seekLoop_found (hfuel : (cur ++ later.flatten).length < fuel)
    (hge : retId + done.length ≤ logId) (hlt : logId < retId + (ws ++ [last]).flatten.length) :
    ∃ pos' done' cur' later', b.seekLoop logId fuel pos = some (.ok (pos' : Nat)) ∧
      At b.ring first (ws ++ [last]) pos' done' cur' later' ∧ retId + done'.length = logId := by
  generalize hrest : cur ++ later.flatten = rest at hfuel
  have hlength := congrArg List.length hat.flatten_eq
  rw [hrest, length_append] at hlength
  induction rest generalizing pos done cur later fuel with
  | nil =>
    rw [length_nil] at hlength
    omega
  | cons f rest ih =>
    obtain ⟨k, rfl⟩ := exists_eq_succ_of_ne_zero (by omega : fuel ≠ 0)
    have hf : f.Intact crc64 := hintact f (by rw [hat.flatten_eq, hrest]; simp)
    obtain ⟨pos', cur', later', hnext, hat', hrest'⟩ := getNextEntry_at h hat hrest hf
    have hseq := hat.seq_eq hrest hcons
    rw [seekLoop, hnext]
    simp only [hseq]
    rw [if_neg (by omega)]
    by_cases heq : logId = retId + done.length
    · exact ⟨pos, done, cur, later, by rw [if_pos heq], hat, heq.symm⟩
    rw [if_neg heq]
    rw [length_cons] at hfuel hlength
    refine ih hat' ?_ hrest' (show rest.length < k by omega) ?_
    · rw [length_append, length_singleton]
      omega
    · rw [length_append, length_singleton, hlength]
      omega

theorem seekLoop_not_found (hfuel : 0 < fuel) (hlt : logId < retId + done.length) :
    b.seekLoop logId fuel pos = some (.error .dataNotServe) := by
  obtain ⟨k, rfl⟩ := exists_eq_succ_of_ne_zero (by omega : fuel ≠ 0)
  rw [seekLoop]
  rcases hrest : cur ++ later.flatten with _ | ⟨f, rest⟩
  · rw [getNextEntry_end h hat hrest]
  have hf : f.Intact crc64 := hintact f (by rw [hat.flatten_eq, hrest]; simp)
  obtain ⟨pos', cur', later', hnext, -, -⟩ := getNextEntry_at h hat hrest hf
  rw [hnext]
  simp only [hat.seq_eq hrest hcons]
  rw [if_pos hlt]

end Seek

/-! ### What a reader gets -/

/-- The entries of the window: they are intact and have consecutive log ids, which end at the end
id of the buffer. -/
structure Window (crc64 : Crc64) (b : LogBuffer)
    (first : Nat) (ws : List (List LogFrame)) (last : List LogFrame) (retId : Int) : Prop where
  frames : HoldsFrames b.ring first ws last
  intact : ∀ f ∈ (ws ++ [last]).flatten, f.Intact crc64
  consecutive : Consecutive retId (ws ++ [last]).flatten
  retId_pos : 0 < retId
  endId_eq : b.endId = retId + (ws ++ [last]).flatten.length ∨
    b.endId = 0 ∧ (ws ++ [last]).flatten = []

/-- A position to start seeking from: one in front of the window, or one between entries. -/
def Advised (r : RingDataBuffer) (first : Nat) (all : List (List LogFrame)) (pos : Int) : Prop :=
  pos ≤ r.startPos ∨ ∃ p done cur later, pos = (p : Nat) ∧ At r first all p done cur later

/-- What may be answered to a reader that asks for `startId`: entries of the window, the first of
them the one that was asked for, or that the id is not there. -/
def Answers (all : List (List LogFrame)) (startId : Int) : Except Ret LogPiece → Prop
  | .ok piece => ∃ done gs post, all.flatten = done ++ (gs ++ post) ∧ piece.data = frameBytes gs ∧
      Consecutive startId gs ∧ piece.startId = startId ∧ piece.endId = startId + gs.length
  | .error err => err = .dataNotServe

section Get

variable {crc64} {first pos len alignBits : Nat} {last done cur gs : List LogFrame}
    {retId startId advisedPos : Int}

theorem At.over_append (h : At r first all pos done (gs ++ cur) later) :
    At r first all (pos + (frameBytes gs).length) (done ++ gs) cur later := by
  obtain ⟨j, before, rfl, hdrop, rfl⟩ := h
  refine ⟨j, before ++ gs, ?_, by simpa using hdrop, by simp⟩
  simp [frameBytes, add_assoc]

theorem length_bytes_le (h : HoldsFrames b.ring first ws last)
    (hat : At b.ring first (ws ++ [last]) pos done (f :: cur) later) :
    f.bytes.length ≤ b.ring.blockSize := by
  obtain ⟨j, before, -, hdrop, -⟩ := hat
  have hmem : before ++ f :: cur ∈ ws ++ [last] :=
    mem_of_mem_drop (hdrop ▸ mem_cons_self)
  have hroom := h.length_lt hmem
  simp only [frameBytes, flatMap_append, flatMap_cons, length_append] at hroom
  omega

theorem getLog_at (h : Window crc64 b first ws last retId)
    (hat : At b.ring first (ws ++ [last]) pos done cur later)
    (hrest : cur ++ later.flatten ≠ []) (hserve : ¬ (startId = 0 ∨ b.endId ≠ 0 ∧ startId > b.endId))
    (hbits : alignBits ≤ 12) (hlen : 0 < len) (endId : Int) :
    ∃ res, b.getLog crc64 alignBits pos startId endId len = some res ∧
      (res = .error .dataNotServe ∨
        ∃ realPos gs cur' later', res = .ok ⟨(realPos : Nat), retId + done.length,
            retId + done.length + gs.length, frameBytes gs⟩ ∧
          gs ≠ [] ∧ At b.ring first (ws ++ [last]) realPos done (gs ++ cur') later') ∧
      (alignBits = 0 → b.ring.blockSize ≤ len → res ≠ .error .dataNotServe) := by
  obtain ⟨realPos, cs, later', hread, hat', hne, heq⟩ := read_at h.frames hat hrest hlen
  have hretId := h.retId_pos
  have hflat := hat'.flatten_eq
  have hintact : ∀ f ∈ cs, f.Intact crc64 := fun f hf => h.intact f (by rw [hflat]; simp [hf])
  have hcons : Consecutive (retId + done.length) cs := by
    have hall := h.consecutive
    rw [hflat, consecutive_append, consecutive_append] at hall
    exact hall.2.1
  obtain ⟨r, k, htrim, hk, hendPos, hendLe, hids, -, hkept⟩ :
      ∃ r k, trimLogBuffer crc64 realPos alignBits _ startId endId false = some (.success, r) ∧ _ :=
    trimLogBuffer_frames (by omega) hintact hcons hbits len startId endId
  have hbytes : frameBytes cs = frameBytes (cs.take k) ++ frameBytes (cs.drop k) := by
    rw [← frameBytes_append, take_append_drop]
  have hdata : ((frameBytes cs).take len).take r.endPos = frameBytes (cs.take k) := by
    rw [take_take, min_eq_left hendLe, hbytes, hendPos, take_left]
  have hpos : 0 < ((frameBytes cs).take len).length := by
    have := length_pos_iff.2 (frameBytes_ne_nil hne)
    rw [length_take]
    omega
  have hget : b.getLog crc64 alignBits pos startId endId len =
      some (if r.endPos = 0 then .error .dataNotServe
        else .ok ⟨realPos, r.startId, r.endId, frameBytes (cs.take k)⟩) := by
    rw [getLog, if_neg (by omega), if_neg hserve, hread]
    simp only [htrim, Option.map_some, hdata, hpos, true_and, ne_eq, not_true_eq_false, if_false]
  have hlength : (cs.take k).length = k := length_take_of_le hk
  have hzero : r.endPos = 0 ↔ k = 0 := by
    rw [hendPos, length_eq_zero_iff, ← hlength, length_eq_zero_iff, hlength]
    refine ⟨fun hnil => by_contra fun hne' => frameBytes_ne_nil hne' hnil, fun hnil => ?_⟩
    rw [hnil]
    rfl
  refine ⟨_, hget, ?_, fun hbit hsize => ?_⟩
  · split
    · exact .inl rfl
    · next hkeep =>
      rw [hzero] at hkeep
      obtain ⟨hstartId, hendId⟩ := hids hkeep
      refine .inr ⟨realPos, cs.take k, cs.drop k, later', by rw [hlength, hstartId, hendId], ?_, ?_⟩
      · exact ne_nil_of_length_pos (by omega)
      · rwa [take_append_drop]
  · obtain ⟨f, cs', rfl⟩ := exists_cons_of_ne_nil hne
    have hk' := hkept hbit f rfl (le_trans (length_bytes_le h.frames hat') hsize)
    rw [if_neg (hzero.not.2 hk')]
    simp

theorem length_flatten_le (h : HoldsFrames b.ring first ws last) :
    (ws ++ [last]).flatten.length ≤ b.ring.endPos := by
  have hsum : ∀ ws : List (List LogFrame), (∀ w ∈ ws, (frameBytes w).length ≤ b.ring.blockSize) →
      ws.flatten.length ≤ ws.length * b.ring.blockSize := by
    intro ws
    induction ws with
    | nil => simp
    | cons w ws ih =>
      intro hle
      have hw := hle w mem_cons_self
      have hws := ih (forall_mem_cons.1 hle).2
      have hframes := length_le_frameBytes w
      rw [flatten_cons, length_append, length_cons, succ_mul]
      omega
  have hws := hsum ws fun w hw => le_of_lt (h.length_lt (mem_append_left _ hw))
  have hlast := length_le_frameBytes last
  rw [h.holds.endPos_eq, length_map, add_mul, flatten_append, length_append]
  simp only [flatten_cons, flatten_nil, append_nil]
  omega

/-- `seek` from an advised position: it finds an entry of the window with the id, or nothing. It
finds every entry from a position in front of the window. -/
theorem seek_spec (h : Window crc64 b first ws last retId)
    (hadvised : Advised b.ring first (ws ++ [last]) advisedPos) (startId : Int) :
    (b.seek startId advisedPos = some (.error .dataNotServe) ∧
      ¬ (retId ≤ startId ∧ startId < b.endId ∧ advisedPos ≤ b.ring.startPos)) ∨
    ∃ pos done cur later, b.seek startId advisedPos = some (.ok (pos : Nat)) ∧
      At b.ring first (ws ++ [last]) pos done cur later ∧ retId + done.length = startId ∧
      cur ++ later.flatten ≠ [] := by
  by_cases hend : startId ≥ b.endId
  · left
    exact ⟨by rw [seek, if_pos hend], by omega⟩
  -- the place where the loop starts
  obtain ⟨p, done, cur, later, hp, hat, hfront⟩ : ∃ p done cur later,
      max advisedPos b.ring.startPos = (p : Nat) ∧
      At b.ring first (ws ++ [last]) p done cur later ∧
      (advisedPos ≤ b.ring.startPos → done = []) := by
    by_cases hle : advisedPos ≤ b.ring.startPos
    · obtain ⟨cur, later, hat⟩ := at_start h.frames
      exact ⟨_, [], cur, later, by omega, hat, fun _ => rfl⟩
    · obtain ⟨p, done, cur, later, rfl, hat⟩ := hadvised.resolve_left hle
      exact ⟨p, done, cur, later, by omega, hat, fun h => absurd h hle⟩
  have hflat := hat.flatten_eq
  have hlength := length_flatten_le h.frames
  have hseek : b.seek startId advisedPos = b.seekLoop startId (b.ring.endPos + 1) p := by
    rw [seek, if_neg hend, hp]
  rw [hseek]
  by_cases hge : retId + done.length ≤ startId
  · have hlt : startId < retId + (ws ++ [last]).flatten.length := by
      have hretId := h.retId_pos
      rcases h.endId_eq with hendId | ⟨hendId, -⟩
      all_goals omega
    have hfuel : (cur ++ later.flatten).length < b.ring.endPos + 1 := by
      rw [hflat, length_append] at hlength
      omega
    obtain ⟨pos', done', cur', later', hloop, hat', hid⟩ :=
      seekLoop_found h.frames hat h.intact h.consecutive hfuel hge hlt
    refine .inr ⟨pos', done', cur', later', hloop, hat', hid, ?_⟩
    intro hnil
    have hflat' := congrArg List.length hat'.flatten_eq
    rw [hnil, append_nil] at hflat'
    omega
  · left
    refine ⟨seekLoop_not_found h.frames hat h.intact h.consecutive (by omega) (by omega), ?_⟩
    rintro ⟨hretId, -, hle⟩
    rw [hfront hle, length_nil] at hge
    omega

theorem flatten_eq_nil_of_startPos_eq (h : HoldsFrames b.ring first ws last)
    (heq : b.ring.startPos = b.ring.endPos) : (ws ++ [last]).flatten = [] := by
  rw [h.holds.startPos_eq, h.holds.endPos_eq, length_map, Nat.add_mul] at heq
  have hws : ws.length * b.ring.blockSize = 0 := by omega
  rcases Nat.mul_eq_zero.1 hws with hnil | hzero
  · have hlast := length_le_frameBytes last
    have hlast : last = [] := length_eq_zero_iff.1 (by omega)
    rw [length_eq_zero_iff.1 hnil, hlast]
    rfl
  · have := b.ring.blockSize_pos
    omega

theorem getFromLogBuffer_spec (h : Window crc64 b first ws last retId)
    (hadvised : Advised b.ring first (ws ++ [last]) advisedPos) (hid : 0 ≤ startId)
    (hbits : alignBits ≤ 12) (hlen : 0 < len) :
    ∃ res, b.getFromLogBuffer crc64 alignBits advisedPos startId len = some res ∧
      Answers (ws ++ [last]) startId res ∧
      (∀ piece, res = .ok piece → Advised b.ring first (ws ++ [last]) piece.realPos ∧
        Advised b.ring first (ws ++ [last]) (piece.realPos + piece.data.length)) ∧
      (retId ≤ startId → startId < b.endId → advisedPos ≤ b.ring.startPos → alignBits = 0 →
        b.ring.blockSize ≤ len → ∃ piece, res = .ok piece ∧ piece.data ≠ []) := by
  have hretId := h.retId_pos
  rw [getFromLogBuffer, if_neg (by omega)]
  by_cases hout : startId = 0 ∨ startId > b.endId
  · rw [if_pos hout]
    exact ⟨_, rfl, rfl, by simp, by omega⟩
  rw [if_neg hout]
  by_cases hend : advisedPos > 0 ∧ advisedPos = b.ring.endPos
  · rw [if_pos hend]
    refine ⟨_, rfl, ⟨(ws ++ [last]).flatten, [], [], by simp, rfl, trivial, rfl, by simp⟩, ?_, ?_⟩
    · intro piece hpiece
      cases hpiece
      exact ⟨hadvised, by simpa using hadvised⟩
    intro hge hlt hfront
    -- the advised position is both ends of the window, so there is nothing in it
    have hle := h.frames.holds.startPos_le
    have hnil := flatten_eq_nil_of_startPos_eq h.frames (by omega)
    have hendId := h.endId_eq
    rw [hnil, length_nil] at hendId
    omega
  rw [if_neg hend]
  rcases seek_spec h hadvised startId with
    ⟨hseek, hnot⟩ | ⟨pos, done, cur, later, hseek, hat, hat', hne⟩
  · rw [hseek]
    exact ⟨_, rfl, rfl, by simp, fun hge hlt hfront => absurd ⟨hge, hlt, hfront⟩ hnot⟩
  have hserve : ¬ (startId = 0 ∨ b.endId ≠ 0 ∧ startId > b.endId) := by omega
  obtain ⟨res, hget, hres, hserved⟩ := getLog_at h hat hne hserve hbits hlen startId
  simp only [hseek, hget, Option.map_some]
  rw [hat'] at hres
  rcases hres with rfl | ⟨realPos, gs, cur', later', rfl, hgs, hplace⟩
  · exact ⟨_, rfl, rfl, by simp, fun _ _ _ hzero hsize => absurd rfl (hserved hzero hsize)⟩
  simp only [ne_eq]
  refine ⟨_, rfl, ⟨done, gs, cur' ++ later'.flatten, ?_, rfl, ?_, rfl, rfl⟩, ?_, ?_⟩
  · rw [hplace.flatten_eq, append_assoc]
  · have hcons := h.consecutive
    rw [hplace.flatten_eq, consecutive_append, consecutive_append, consecutive_append, hat']
      at hcons
    exact hcons.2.1.1
  · intro piece hpiece
    cases hpiece
    exact ⟨.inr ⟨realPos, _, _, _, rfl, hplace⟩,
      .inr ⟨_, _, _, _, by push_cast; rfl, hplace.over_append⟩⟩
  · intro _ _ _ _ _
    exact ⟨_, rfl, frameBytes_ne_nil hgs⟩

end Get

/-! ### Runs -/

/-- Intact entries with consecutive ids. -/
structure LogBatch (crc64 : Crc64) where
  startId : Int
  frames : List LogFrame
  intact : ∀ f ∈ frames, f.Intact crc64
  consecutive : Consecutive startId frames

/-- The entries of records written at a cursor. -/
def LogBatch.ofRecords (crc64 : Crc64) (c : LogCursor)
    (rs : List LogRecord) (hvalid : c.isValid = true) (hids : c.logId + rs.length ≤ 2 ^ 63)
    (hfits : ∀ r ∈ rs, r.Fits) : LogBatch crc64 where
  startId := c.logId
  frames := framesFrom crc64 c rs
  intact := intact_framesFrom hfits
  consecutive := consecutive_framesFrom hvalid hids

/-- The id behind the last entry. -/
def LogBatch.endId {crc64 : Crc64}
    (batch : LogBatch crc64) : Int := batch.startId + batch.frames.length

/-- Entries are written to the same block as those before, or to the next one. -/
def recordBlock (same : Bool) (history : List (List LogFrame)) (fs : List LogFrame) :
    List (List LogFrame) :=
  if same then history.dropLast ++ [history.getLastD [] ++ fs] else history ++ [fs]

/-- The window of the buffer is made of the last blocks of the history, as many as the ring has. -/
structure Recorded (crc64 : Crc64) (b : LogBuffer)
    (history : List (List LogFrame)) (first : Nat) (old ws : List (List LogFrame))
    (last : List LogFrame) (retId : Int) : Prop where
  history_eq : history = old ++ (ws ++ [last])
  full : old = [] ∨ ws.length + 1 = b.ring.nBlocks
  window : Window crc64 b first ws last retId

section Append

variable {crc64} {first : Nat} {history old ws : List (List LogFrame)} {last : List LogFrame}
    {retId : Int}

/-- A batch that is accepted goes on where the window ends; an empty window may begin anywhere. -/
theorem Window.exists_retId (h : Window crc64 b first ws last retId) {batch : LogBatch crc64}
    (hstart : 0 < batch.startId) (hend : ¬ (b.endId > 0 ∧ b.endId ≠ batch.startId)) :
    ∃ retId', 0 < retId' ∧ Consecutive retId' ((ws ++ [last]).flatten ++ batch.frames) ∧
      retId' + (ws ++ [last]).flatten.length = batch.startId := by
  have hretId := h.retId_pos
  rcases h.endId_eq with hendId | ⟨-, hnil⟩
  · have heq : retId + (ws ++ [last]).flatten.length = batch.startId := by omega
    refine ⟨retId, hretId, consecutive_append.2 ⟨h.consecutive, ?_⟩, heq⟩
    rw [heq]
    exact batch.consecutive
  · rw [hnil]
    exact ⟨batch.startId, hstart, batch.consecutive, by simp⟩

open RingDataBuffer

/-- What `append_log` does to the window: nothing, or the batch is added to the last block, or it
makes a new one, and the oldest block goes when the ring was full. -/
theorem Window.appendLog (h : Window crc64 b first ws last retId) (batch : LogBatch crc64) :
    (∃ err, err ≠ .success ∧
      b.appendLog batch.startId batch.endId (frameBytes batch.frames) = (b, err)) ∨
    ∃ b' retId', b.appendLog batch.startId batch.endId (frameBytes batch.frames) = (b', .success) ∧
      b'.ring.nBlocks = b.ring.nBlocks ∧ b'.ring.blockSize = b.ring.blockSize ∧
      ((frameBytes last).length + (frameBytes batch.frames).length + blockReservedBytes ≤
          b.ring.blockSize ∧ Window crc64 b' first ws (last ++ batch.frames) retId' ∨
        b.ring.blockSize <
          (frameBytes last).length + (frameBytes batch.frames).length + blockReservedBytes ∧
        Window crc64 b' (first + (ws.length + 2 - b.ring.nBlocks))
          ((ws ++ [last]).drop (ws.length + 2 - b.ring.nBlocks)) batch.frames retId') := by
  unfold LogBuffer.appendLog
  split
  · exact .inl ⟨_, by decide, rfl⟩
  next hid =>
  split
  · exact .inl ⟨_, by decide, rfl⟩
  next hend =>
  rcases lt_or_ge b.ring.blockSize ((frameBytes batch.frames).length + blockReservedBytes) with
    hlong | hsize
  · rw [append_of_gt hlong]
    exact .inl ⟨_, by decide, rfl⟩
  obtain ⟨retId', hretId', hcons, hstart⟩ := h.exists_retId (show 0 < batch.startId by omega) hend
  obtain ⟨ring, happend, hblocks, hblockSize, hholds⟩ := h.frames.holds.append hsize
  have hintact : ∀ f ∈ (ws ++ [last]).flatten ++ batch.frames, f.Intact crc64 := by
    exact forall_mem_append.2 ⟨h.intact, batch.intact⟩
  have hendId : batch.endId = retId' + ((ws ++ [last]).flatten ++ batch.frames).length := by
    rw [LogBatch.endId, ← hstart, length_append]
    omega
  right
  rw [happend]
  unfold afterAppend at hholds
  split at hholds
  · next hfits =>
    have hflat :
        (ws ++ [last ++ batch.frames]).flatten = (ws ++ [last]).flatten ++ batch.frames := by
      simp
    rw [← frameBytes_append] at hholds
    refine ⟨⟨ring, batch.endId⟩, retId', rfl, hblocks, hblockSize,
      .inl ⟨hfits, ⟨hholds, ?_⟩, ?_, ?_,
      hretId', .inl ?_⟩⟩
    · intro hws hnil
      exact h.frames.last_ne_nil hws (append_eq_nil_iff.1 hnil).1
    all_goals rwa [hflat]
  · next hfull =>
    rw [length_map] at hholds
    generalize ws.length + 2 - b.ring.nBlocks = d at hholds ⊢
    -- the log ids go on behind those of the blocks that go
    have hsplit : (ws ++ [last]).flatten ++ batch.frames = ((ws ++ [last]).take d).flatten ++
        ((ws ++ [last]).drop d ++ [batch.frames]).flatten := by
      have hparts : ((ws ++ [last]).drop d ++ [batch.frames]).flatten =
          ((ws ++ [last]).drop d).flatten ++ batch.frames := by simp
      rw [hparts, ← append_assoc, ← flatten_append, take_append_drop]
    rw [hsplit] at hintact hendId hcons
    rw [consecutive_append] at hcons
    refine ⟨⟨ring, batch.endId⟩, retId' + ((ws ++ [last]).take d).flatten.length, rfl, hblocks,
      hblockSize, .inr ⟨by omega, ⟨?_, ?_⟩, ?_, hcons.2, by omega, .inl ?_⟩⟩
    · rwa [map_drop, map_append, map_singleton]
    · rintro - hnil
      rw [hnil] at hfull hsize
      rcases h.frames.holds.room (frameBytes last) (by simp) with hempty | hroom
      · exact hfull (by rw [hempty]; simpa using hsize)
      · exact hfull (by simpa [frameBytes] using hroom)
    · exact fun f hf => hintact f (mem_append_right _ hf)
    · rw [hendId, length_append]
      push_cast
      omega

theorem HoldsFrames.endPos_div (h : HoldsFrames r first ws last) :
    r.endPos / r.blockSize = first + ws.length := by
  rw [h.holds.endPos_eq, div_blockSize h.holds.last_lt, length_map]

variable {later : List (List LogFrame)} {pos : Nat}

theorem At.le_next (h : HoldsFrames r first ws last) {j : Nat} {before cur : List LogFrame}
    (hpos : pos = (first + j) * r.blockSize + (frameBytes before).length)
    (hdrop : (ws ++ [last]).drop j = (before ++ cur) :: later) :
    pos ≤ (first + (j + 1)) * r.blockSize := by
  have hmem : before ++ cur ∈ ws ++ [last] := mem_of_mem_drop (hdrop ▸ mem_cons_self)
  have hroom := h.length_lt hmem
  rw [frameBytes_append, length_append] at hroom
  rw [hpos, ← add_assoc, succ_mul]
  omega

theorem At.le_endPos (h : HoldsFrames r first ws last) {done cur : List LogFrame}
    (hat : At r first (ws ++ [last]) pos done cur later) : pos ≤ r.endPos := by
  obtain ⟨j, before, hpos, hdrop, -⟩ := hat
  rw [h.holds.endPos_eq, length_map]
  have hlength := congrArg List.length hdrop
  rw [length_drop, length_append, length_singleton, length_cons] at hlength
  rcases lt_or_ge j ws.length with hlt | hge
  · have hnext := At.le_next h hpos hdrop
    have hle : (first + (j + 1)) * r.blockSize ≤ (first + ws.length) * r.blockSize :=
      mul_le_mul_right _ (by omega)
    omega
  obtain rfl : j = ws.length := by omega
  rw [drop_left] at hdrop
  obtain ⟨hlast, -⟩ := List.cons.inj hdrop
  rw [hpos, hlast, frameBytes_append, length_append]
  omega

variable {r r' : RingDataBuffer}

theorem At.grow {done cur : List LogFrame}
    (h : At r first (ws ++ [last]) pos done cur later) (hsize : r'.blockSize = r.blockSize) :
    ∃ cur' later', At r' first (ws ++ [last ++ fs]) pos done cur' later' := by
  obtain ⟨j, before, hpos, hdrop, rfl⟩ := h
  have hlength := congrArg List.length hdrop
  rw [length_drop, length_append, length_singleton, length_cons] at hlength
  have htake : (ws ++ [last]).take j = (ws ++ [last ++ fs]).take j := by
    rw [take_append_of_le_length (by omega), take_append_of_le_length (by omega)]
  rw [htake]
  rcases lt_or_ge j ws.length with hlt | hge
  · -- an earlier block
    obtain ⟨more, hmore⟩ : ∃ more, ws.drop j = (before ++ cur) :: more := by
      rw [drop_append_of_le_length (le_of_lt hlt)] at hdrop
      obtain ⟨w, more, hw⟩ := exists_cons_of_ne_nil (show ws.drop j ≠ [] by simpa using hlt)
      rw [hw, cons_append] at hdrop
      exact ⟨more, by rw [hw, (List.cons.inj hdrop).1]⟩
    refine ⟨cur, more ++ [last ++ fs], j, before, by rw [hsize]; exact hpos, ?_, rfl⟩
    rw [drop_append_of_le_length (le_of_lt hlt), hmore, cons_append]
  · obtain rfl : j = ws.length := by omega
    rw [drop_left] at hdrop
    obtain ⟨hlast, -⟩ := List.cons.inj hdrop
    refine ⟨cur ++ fs, [], ws.length, before, by rw [hsize]; exact hpos, ?_, rfl⟩
    rw [drop_left, hlast, append_assoc]

/-- Positions stay places between entries when a block is added and `d` blocks go, unless they are
in one of these. -/
theorem At.next {d : Nat} {done cur : List LogFrame} (fs : List LogFrame)
    (h : At r first all pos done cur later) (hsize : r'.blockSize = r.blockSize) :
    (∃ done' later', At r' (first + d) (all.drop d ++ [fs]) pos done' cur later' ∧
      done = (all.take d).flatten ++ done' ∧ (first + d) * r.blockSize ≤ pos) ∨
    ∃ j < d, ∃ before, pos = (first + j) * r.blockSize + (frameBytes before).length ∧
      all.drop j = (before ++ cur) :: later ∧ done = (all.take j).flatten ++ before := by
  obtain ⟨j, before, hpos, hdrop, hdone⟩ := h
  rcases lt_or_ge j d with hlt | hge
  · exact .inr ⟨j, hlt, before, hpos, hdrop, hdone⟩
  left
  have hlength := congrArg List.length hdrop
  rw [length_drop, length_cons] at hlength
  have hd : d + (j - d) = j := by omega
  have hshort : j - d ≤ (all.drop d).length := by
    rw [length_drop]
    omega
  refine ⟨_, later ++ [fs], ⟨j - d, before, ?_, ?_, rfl⟩, ?_, ?_⟩
  · rw [hsize, hpos, add_assoc, hd]
  · rw [drop_append_of_le_length hshort, drop_drop, hd, hdrop, cons_append]
  · have htake : all.take j = all.take d ++ (all.drop d).take (j - d) := by
      rw [← take_add, hd]
    rw [hdone, take_append_of_le_length hshort, htake, flatten_append, append_assoc]
  have hle : (first + d) * r.blockSize ≤ (first + j) * r.blockSize :=
    mul_le_mul_right _ (by omega)
  omega

theorem Advised.grow {pos : Int}
    (h : Advised r first (ws ++ [last]) pos) (hsize : r'.blockSize = r.blockSize)
    (hstart : r'.startPos = r.startPos) : Advised r' first (ws ++ [last ++ fs]) pos := by
  rcases h with hle | ⟨p, done, cur, later, rfl, hat⟩
  · exact .inl (by omega)
  · obtain ⟨cur', later', hat'⟩ := hat.grow hsize
    exact .inr ⟨p, done, cur', later', rfl, hat'⟩

/-- A reader's positions, when a block is added: they may fall behind the window. -/
theorem Advised.next {pos : Int} {d : Nat}
    (hframes : HoldsFrames r first ws last) (h : Advised r first (ws ++ [last]) pos)
    (hsize : r'.blockSize = r.blockSize) (hstart : r'.startPos = (first + d) * r'.blockSize) :
    Advised r' (first + d) ((ws ++ [last]).drop d ++ [fs]) pos := by
  have hmono : r.startPos ≤ r'.startPos := by
    rw [hstart, hsize, hframes.holds.startPos_eq]
    exact mul_le_mul_right _ (by omega)
  rcases h with hle | ⟨p, done, cur, later, rfl, hat⟩
  · exact .inl (by omega)
  rcases hat.next fs hsize with ⟨done', later', hat', -, -⟩ | ⟨j, hj, before, hp, hdrop, -⟩
  · exact .inr ⟨p, done', cur, later', rfl, hat'⟩
  left
  have hnext := At.le_next hframes hp hdrop
  have hle : (first + (j + 1)) * r.blockSize ≤ (first + d) * r.blockSize :=
    mul_le_mul_right _ (by omega)
  rw [hstart, hsize]
  omega

theorem Recorded.length_old (h : Recorded crc64 b history first old ws last retId) :
    history.length - b.ring.nBlocks = old.length := by
  have hround := h.window.frames.holds.round
  rw [length_map] at hround
  rw [h.history_eq, length_append, length_append, length_singleton]
  rcases h.full with rfl | hfull
  · rw [length_nil]
    omega
  · omega

theorem Recorded.appendLog (h : Recorded crc64 b history first old ws last retId)
    (batch : LogBatch crc64) :
    (∃ err, err ≠ .success ∧
      b.appendLog batch.startId batch.endId (frameBytes batch.frames) = (b, err)) ∨
    ∃ b' retId', b.appendLog batch.startId batch.endId (frameBytes batch.frames) = (b', .success) ∧
      b'.ring.nBlocks = b.ring.nBlocks ∧ b'.ring.blockSize = b.ring.blockSize ∧
      ∃ history', history' = recordBlock (decide (b'.ring.endPos / b'.ring.blockSize =
          b.ring.endPos / b.ring.blockSize)) history batch.frames ∧
        ((frameBytes last).length + (frameBytes batch.frames).length + blockReservedBytes ≤
            b.ring.blockSize ∧
          Recorded crc64 b' history' first old ws (last ++ batch.frames) retId' ∨
        b.ring.blockSize <
            (frameBytes last).length + (frameBytes batch.frames).length + blockReservedBytes ∧
          Recorded crc64 b' history' (first + (ws.length + 2 - b.ring.nBlocks))
            (old ++ (ws ++ [last]).take (ws.length + 2 - b.ring.nBlocks))
            ((ws ++ [last]).drop (ws.length + 2 - b.ring.nBlocks)) batch.frames retId') := by
  have hround := h.window.frames.holds.round
  have hdiv := h.window.frames.endPos_div
  rcases h.window.appendLog batch with hfail | ⟨b', retId', happend, hblocks, hsize,
    ⟨hfits, hwindow⟩ | ⟨hfull, hwindow⟩⟩
  · exact .inl hfail
  · have hdiv' := hwindow.frames.endPos_div
    refine .inr ⟨b', retId', happend, hblocks, hsize, _, rfl, .inl ⟨hfits, ?_, ?_, hwindow⟩⟩
    · simp only [hdiv, hdiv', recordBlock]
      simp [h.history_eq]
    · rw [hblocks]
      exact h.full
  have hdiv' := hwindow.frames.endPos_div
  refine .inr ⟨b', retId', happend, hblocks, hsize, _, rfl, .inr ⟨hfull, ?_, ?_, hwindow⟩⟩
  · rw [hdiv, hdiv', length_drop, length_append, length_singleton, decide_eq_false (by omega),
      recordBlock, h.history_eq, append_assoc old, append_assoc old,
      ← append_assoc ((ws ++ [last]).take (ws.length + 2 - b.ring.nBlocks)), take_append_drop]
    rfl
  rw [length_drop, length_append, length_singleton, hblocks]
  rcases lt_or_ge (ws.length + 1) b.ring.nBlocks with hlt | hge
  · left
    rw [h.full.resolve_right (by omega), show ws.length + 2 - b.ring.nBlocks = 0 by omega]
    rfl
  · right
    omega

end Append

/-- A log buffer in use, with the entries of every block written since the last reset, and the
positions that readers know. -/
structure LogBufferState where
  buffer : LogBuffer
  history : List (List LogFrame)
  positions : List Int

/-- The calls of the buffer. -/
inductive LogBufferCall (crc64 : Crc64) where
  | append (batch : LogBatch crc64)
  | reset
  | get (alignBits : Nat) (advisedPos startId : Int) (len : Nat)

namespace LogBufferState

/-- One call. A reader knows the position 0, and those that it was told with what it read: where
that is, and where it ends. -/
def step (s : LogBufferState) : LogBufferCall crc64 → Option LogBufferState
  | .append batch =>
    let r := s.buffer.appendLog batch.startId batch.endId (frameBytes batch.frames)
    let same := decide (r.1.ring.endPos / r.1.ring.blockSize =
      s.buffer.ring.endPos / s.buffer.ring.blockSize)
    some { s with
      buffer := r.1
      history := if r.2 = .success then recordBlock same s.history batch.frames else s.history }
  | .reset => some { s with buffer := s.buffer.reset, history := [[]] }
  | .get alignBits advisedPos startId len =>
    if advisedPos ∈ s.positions ∧ 0 ≤ startId ∧ alignBits ≤ 12 ∧ 0 < len then
      match s.buffer.getFromLogBuffer crc64 alignBits advisedPos startId len with
      | some (.ok piece) =>
        some { s with
          positions := s.positions ++ [piece.realPos, piece.realPos + piece.data.length] }
      | _ => some s
    else none

/-- The blocks that are not overwritten. -/
def window (s : LogBufferState) : List (List LogFrame) :=
  s.history.drop (s.history.length - s.buffer.ring.nBlocks)

/-- A buffer behind `init`. -/
def start (ring : RingDataBuffer) : LogBufferState := ⟨⟨ring, 0⟩, [[]], [0]⟩

section Run

variable {crc64} {s s' : LogBufferState} {last : List LogFrame} {retId : Int} {first : Nat}

/-- The history, and the positions that readers know. -/
structure Described (crc64 : Crc64) (s : LogBufferState)
    (first : Nat) (old ws : List (List LogFrame)) (last : List LogFrame) (retId : Int) : Prop
    extends Recorded crc64 s.buffer s.history first old ws last retId where
  advised : ∀ pos ∈ s.positions, Advised s.buffer.ring first (ws ++ [last]) pos

/-- Some description fits the state. -/
def Inv (crc64 : Crc64) (s : LogBufferState) : Prop :=
  ∃ first old ws last retId, Described crc64 s first old ws last retId

theorem Described.window_eq {old ws : List (List LogFrame)}
    (h : Described crc64 s first old ws last retId) : s.window = ws ++ [last] := by
  rw [LogBufferState.window, h.length_old, h.history_eq, drop_left]

theorem inv_append (h : Inv crc64 s) (batch : LogBatch crc64)
    (hstep : s.step crc64 (.append batch) = some s') : Inv crc64 s' := by
  obtain ⟨first, old, ws, last, retId, h⟩ := h
  obtain rfl := Option.some.inj hstep
  rcases h.appendLog batch with ⟨err, herr, happend⟩ | ⟨b', retId', happend, hblocks, hsize,
    history', rfl, ⟨hfits, hrecorded⟩ | ⟨hfull, hrecorded⟩⟩
  · simp only [happend, if_neg herr]
    exact ⟨first, old, ws, last, retId, h⟩
  · simp only [happend]
    refine ⟨_, _, _, _, retId', hrecorded, fun pos hpos => ?_⟩
    refine (h.advised pos hpos).grow hsize ?_
    rw [hrecorded.window.frames.holds.startPos_eq, h.window.frames.holds.startPos_eq, hsize]
  simp only [happend]
  refine ⟨_, _, _, _, retId', hrecorded, fun pos hpos => ?_⟩
  exact (h.advised pos hpos).next h.window.frames hsize hrecorded.window.frames.holds.startPos_eq

theorem inv_reset (h : Inv crc64 s) (hstep : s.step crc64 .reset = some s') : Inv crc64 s' := by
  obtain ⟨first, old, ws, last, retId, h⟩ := h
  obtain rfl := Option.some.inj hstep
  obtain ⟨first', hholds⟩ := RingDataBuffer.holds_restart s.buffer.ring
  refine ⟨first', [], [], [], 1, ⟨rfl, .inl rfl, ?_⟩, ?_⟩
  · exact ⟨⟨hholds, fun h => absurd rfl h⟩, by simp, trivial, by decide, .inr ⟨rfl, rfl⟩⟩
  intro pos hpos
  left
  -- the positions go on behind all those that were there
  have hend : s.buffer.ring.endPos ≤ s.buffer.reset.ring.startPos := by
    have hlt := Nat.lt_div_mul_add (a := s.buffer.ring.endPos)
      (Nat.mul_pos s.buffer.ring.nBlocks_pos s.buffer.ring.blockSize_pos)
    simp only [reset, RingDataBuffer.restart]
    rw [Nat.succ_mul]
    omega
  have hle := h.window.frames.holds.startPos_le
  rcases h.advised pos hpos with hstart | ⟨p, done, cur, later, rfl, hat⟩
  · simp only
    omega
  have := hat.le_endPos h.window.frames
  simp only
  omega

theorem inv_get (h : Inv crc64 s) {alignBits len : Nat} {advisedPos startId : Int}
    (hstep : s.step crc64 (.get alignBits advisedPos startId len) = some s') : Inv crc64 s' := by
  have hinv := h
  obtain ⟨first, old, ws, last, retId, h⟩ := h
  rw [step] at hstep
  split at hstep
  · next hok =>
    obtain ⟨hmem, hid, hbits, hlen⟩ := hok
    obtain ⟨res, hget, -, hpositions, -⟩ :=
      getFromLogBuffer_spec h.window (h.advised advisedPos hmem) hid hbits hlen
    rw [hget] at hstep
    rcases res with err | piece
    · cases hstep
      exact hinv
    cases hstep
    obtain ⟨hreal, hend⟩ := hpositions piece rfl
    refine ⟨first, old, ws, last, retId, h.toRecorded, ?_⟩
    exact forall_mem_append.2 ⟨h.advised, forall_mem_cons.2 ⟨hreal, forall_mem_singleton.2 hend⟩⟩
  · cases hstep

theorem inv_start {nBlocks blockSizeShift : Nat} {ring : RingDataBuffer}
    (hinit : RingDataBuffer.init nBlocks blockSizeShift = .ok ring) : Inv crc64 (start ring) := by
  have hframes : HoldsFrames ring 0 [] [] :=
    ⟨RingDataBuffer.holds_init hinit, fun h => absurd rfl h⟩
  refine ⟨0, [], [], [], 1, ⟨rfl, .inl rfl,
    hframes, by simp, trivial, by decide, .inr ⟨rfl, rfl⟩⟩, ?_⟩
  intro pos hpos
  left
  rw [mem_singleton.1 hpos]
  omega

/-- What a reader relies on: whatever it asks for, from a position that it knows, it is given
entries of the blocks that are not overwritten, the first of them the one that was asked for, or
it is told that the id is not there; an entry of these blocks is found from the position 0, and
can be read with a buffer of the size of a block. The last block is one of these blocks. -/
structure Served (crc64 : Crc64) (s : LogBufferState) : Prop where
  answers : ∀ alignBits ≤ 12, ∀ advisedPos ∈ s.positions, ∀ startId ≥ 0, ∀ len > 0,
    ∃ res, s.buffer.getFromLogBuffer crc64 alignBits advisedPos startId len = some res ∧
      Answers s.window startId res
  retained : ∀ f ∈ s.window.flatten,
    (∃ pos, s.buffer.seek f.entry.seq.toInt 0 = some (.ok pos)) ∧
    ∀ len ≥ s.buffer.ring.blockSize, ∃ piece,
      s.buffer.getFromLogBuffer crc64 0 0 f.entry.seq.toInt len = some (.ok piece) ∧ piece.data ≠ []
  last : ∀ fs, s.history.getLast? = some fs → fs ∈ s.window

/-- The log ids of the window are those from `retId` to the end id. -/
theorem Described.seq_mem {old ws : List (List LogFrame)}
    (h : Described crc64 s first old ws last retId) (hf : f ∈ (ws ++ [last]).flatten) :
    retId ≤ f.entry.seq.toInt ∧ f.entry.seq.toInt < s.buffer.endId := by
  obtain ⟨fs, gs, hsplit⟩ := append_of_mem hf
  have hcons := h.window.consecutive
  have hendId := h.window.endId_eq
  rw [hsplit] at hcons hendId
  rw [consecutive_append] at hcons
  have hseq := hcons.2.1
  simp only [length_append, length_cons, append_eq_nil_iff, reduceCtorEq, and_false,
    or_false] at hendId
  omega

theorem Inv.served (h : Inv crc64 s) : Served crc64 s := by
  obtain ⟨first, old, ws, last, retId, h⟩ := h
  refine ⟨?_, ?_, ?_⟩
  · intro alignBits hbits advisedPos hmem startId hid len hlen
    obtain ⟨res, hget, hanswers, -, -⟩ :=
      getFromLogBuffer_spec h.window (h.advised advisedPos hmem) hid hbits hlen
    exact ⟨res, hget, by rwa [h.window_eq]⟩
  · intro f hf
    rw [h.window_eq] at hf
    obtain ⟨hge, hlt⟩ := h.seq_mem hf
    have hretId := h.window.retId_pos
    have hzero : Advised s.buffer.ring first (ws ++ [last]) 0 := .inl (by omega)
    refine ⟨?_, fun len hlen => ?_⟩
    · rcases seek_spec h.window hzero f.entry.seq.toInt with ⟨-, hnot⟩ | ⟨pos, -, -, -, hseek, -⟩
      · exact absurd ⟨hge, hlt, by omega⟩ hnot
      · exact ⟨pos, hseek⟩
    have hblock := s.buffer.ring.blockSize_pos
    obtain ⟨res, hget, -, -, hserved⟩ := getFromLogBuffer_spec h.window hzero
      (show 0 ≤ f.entry.seq.toInt by omega) (zero_le 12) (show 0 < len by omega)
    obtain ⟨piece, rfl, hne⟩ := hserved hge hlt (by omega) rfl hlen
    exact ⟨piece, hget, hne⟩
  · intro fs hfs
    rw [h.window_eq]
    rw [h.history_eq, ← append_assoc, getLast?_concat] at hfs
    rw [← Option.some.inj hfs]
    simp

theorem inv_step {call : LogBufferCall crc64} (h : Inv crc64 s)
    (hstep : s.step crc64 call = some s') : Inv crc64 s' := by
  cases call with
  | append batch => exact inv_append h batch hstep
  | reset => exact inv_reset h hstep
  | get alignBits advisedPos startId len => exact inv_get h hstep

/-- **The log buffer serves the entries of the last blocks**, through every sequence of calls. -/
theorem served_of_run {nBlocks blockSizeShift : Nat} {ring : RingDataBuffer}
    {calls : List (LogBufferCall crc64)}
    (hinit : RingDataBuffer.init nBlocks blockSizeShift = .ok ring)
    (hrun : run (step crc64) (start ring) calls = some s) : Served crc64 s :=
  (run_invariant (fun _ _ _ => inv_step) (inv_start hinit) hrun).served

end Run

/-- Two entries with the log ids `logId` and `logId + 1`, which together take 92 bytes. -/
def twoLogs (logId : Fin 100) : LogBatch fun _ _ _ => 0 :=
  .ofRecords _ ⟨1, logId.val, 0⟩
    [⟨LogCommand.upsMutator.code, [1, 2, 3]⟩, ⟨LogCommand.upsMutator.code, [4]⟩]
    rfl ((Int.add_le_add_right (Int.ofNat_le.2 logId.isLt.le) 2).trans (by decide))
    (forall_mem_cons.2 ⟨⟨by decide, by decide⟩, forall_mem_singleton.2 ⟨by decide, by decide⟩⟩)

/-- Each batch takes a block of the ring, and the third one overwrites the first one. -/
theorem served_of_run_overwritten :
    ∃ ring s, RingDataBuffer.init 2 7 = .ok ring ∧
      run (step fun _ _ _ => 0) (start ring)
        [.append (twoLogs 1), .append (twoLogs 3), .append (twoLogs 5), .get 0 0 4 128] = some s ∧
      s.positions.length = 3 ∧
      s.window.flatten.map (fun f => f.entry.seq.toInt) = [3, 4, 5, 6] ∧
      Served (fun _ _ _ => 0) s := by
  have hinit : RingDataBuffer.init 2 7 =
      .ok ⟨2, 7, fun _ => [], 0, 0, by decide, by decide, by decide⟩ := rfl
  have hids : (run (step fun _ _ _ => 0)
      (start ⟨2, 7, fun _ => [], 0, 0, by decide, by decide, by decide⟩)
      [.append (twoLogs 1), .append (twoLogs 3), .append (twoLogs 5), .get 0 0 4 128]).map
        (fun s => (s.positions.length, s.window.flatten.map fun f => f.entry.seq.toInt)) =
      some (3, [3, 4, 5, 6]) := by
    decide +kernel
  obtain ⟨s, hrun, hs⟩ := Option.map_eq_some_iff.1 hids
  obtain ⟨hthree, hwindow⟩ := Prod.mk.inj hs
  exact ⟨_, s, hinit, hrun, hthree, hwindow, served_of_run hinit hrun⟩

end LogBufferState

end UpdateServer

end OceanBase
