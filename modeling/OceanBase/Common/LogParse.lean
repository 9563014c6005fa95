import OceanBase.Common.LogEntry

/-!
# Parsing log batches (`parse_log_buffer` of `ob_log_generator.cpp`)

`parse_log_buffer` walks over a buffer of log entries and moves a cursor over each of them. The
bytes of a sequence of records are read back to the cursor behind the last record
(`parseLogBuffer_bytesFrom`).

The other way round, the ids of a buffer that is accepted are consecutive if the start cursor has a
positive log id, but its switch entries need not name the files they lead to (`acceptedOk_iff`).
-/

namespace OceanBase.Common

open List LogEntry LogCursor

/-! ### Parsing a batch -/

variable (crc64 : Crc64) {c : LogCursor}
    {data : List UInt8} {fuel : Nat}

section Parse

/-- What the check of a switch entry in `parse_log_buffer` assigns to `err` and `file_id`. The
`&&` stands inside the assignment, so a file id that can be decoded is never compared. -/
def switchLogCheck (input : List UInt8) (start : LogCursor) (fileId : Int) : Ret × Int :=
  match decodeInt 8 input with
  | some (v, _) => (.success, v.toInt)
  | none => (if start.logId = fileId then .error else .success, fileId)

/-- The loop of `parse_log_buffer`, from position `pos`: the return code, and the position and
cursor reached. There is no result when the loop does not come to an end within `fuel` entries
or an entry's length leads out of the buffer. -/
def parseLoop (checkIntegrity : Bool) (data : List UInt8) (start : LogCursor) :
    Nat → Nat → Int → LogCursor → Option (Ret × Nat × LogCursor)
  | 0, _, _, _ => none
  | fuel + 1, pos, fileId, cur =>
    if pos < data.length then
      match LogEntry.deserialize (data.drop pos) with
      | none => some (.error, pos, cur)
      | some (entry, input) =>
        let pos := pos + LogEntry.headerSize
        if pos + entry.getLogDataLen > data.length then some (.lastLogRuinned, pos, cur)
        else if checkIntegrity ∧ ¬ entry.checkDataIntegrity crc64 input then
          some (.error, pos, cur)
        else
          let r := if entry.cmd = LogCommand.switchLog.code then switchLogCheck input start fileId
            else (.success, fileId)
          if r.1 ≠ .success then some (r.1, pos, cur)
          else if pos + entry.getLogDataLen < 0 then none
          else
            let pos := (pos + entry.getLogDataLen).toNat
            match cur.advance entry with
            | .error err => some (err, pos, cur)
            | .ok cur => parseLoop checkIntegrity data start fuel pos r.2 cur
    else some (.success, pos, cur)

def parseLogBuffer (checkIntegrity : Bool) (data : List UInt8) (start : LogCursor) :
    Option (Ret × LogCursor) :=
  if data = [] ∨ ¬ start.isValid then some (.invalidArgument, start)
  else
    (parseLoop crc64 checkIntegrity data start (data.length + 1) 0 0 start).map fun r =>
      (if r.1 = .success ∧ r.2.1 ≠ data.length then .errUnexpected else r.1, r.2.2)

end Parse

/-! ### Entries with their payloads -/

/-- An entry with the payload that stands behind it. -/
structure LogFrame where
  entry : LogEntry
  data : List UInt8
  deriving DecidableEq, Repr

namespace LogFrame

def bytes (f : LogFrame) : List UInt8 := f.entry.serialize ++ f.data

@[simp]
theorem length_bytes (f : LogFrame) : f.bytes.length = LogEntry.headerSize + f.data.length := by
  simp [bytes]

/-- The entry is the header of its payload: it has the payload's length, passes the integrity
check in front of it, and a switch entry has room for the id of a file. -/
structure WellFormed (crc64 : Crc64) (f : LogFrame) : Prop where
  length : f.entry.getLogDataLen = f.data.length
  integrity : f.entry.checkDataIntegrity crc64 f.data = true
  switchLog : f.entry.cmd = LogCommand.switchLog.code → 8 ≤ f.data.length

end LogFrame

section Frames

variable {crc64} {e : LogEntry}

theorem checkDataIntegrity_append (hlen : e.getLogDataLen = data.length) (after : List UInt8) :
    e.checkDataIntegrity crc64 (data ++ after) = e.checkDataIntegrity crc64 data := by
  have htake : (e.header.dataLength.toInt - 12).toNat ≤ data.length := by
    have hhigh := BitVec.toInt_lt (x := e.header.dataLength)
    rw [getLogDataLen, BitVec.toInt_sub, show (12 : BitVec 32).toInt = 12 from rfl,
      Int.bmod_eq_emod] at hlen
    -- the length wraps around where the subtraction of 64-bit integers does not
    split at hlen
    all_goals omega
  rw [checkDataIntegrity, checkDataIntegrity, take_append_of_le_length htake]

/-- One turn of the loop of `parse_log_buffer`, at an entry with its payload: the cursor decides. -/
theorem parseLoop_entry (checkIntegrity : Bool) (start : LogCursor) (fuel : Nat) (fileId : Int)
    (before after : List UInt8) (c : LogCursor) (hlen : e.getLogDataLen = data.length)
    (hcheck : e.checkDataIntegrity crc64 (data ++ after) = true)
    (hswitch : e.cmd = LogCommand.switchLog.code → 8 ≤ (data ++ after).length) :
    ∃ fileId', parseLoop crc64 checkIntegrity (before ++ (e.serialize ++ (data ++ after))) start
        (fuel + 1) before.length fileId c =
      match c.advance e with
      | .error err => some (err, before.length + LogEntry.headerSize + data.length, c)
      | .ok c => parseLoop crc64 checkIntegrity (before ++ (e.serialize ++ (data ++ after))) start
          fuel (before.length + LogEntry.headerSize + data.length) fileId' c := by
  have hfile : ∃ fileId', (if e.cmd = LogCommand.switchLog.code then
      switchLogCheck (data ++ after) start fileId else (.success, fileId)) =
        (Ret.success, fileId') := by
    split
    · next hcmd =>
      obtain ⟨⟨v, rest⟩, hv⟩ := decodeInt_isSome (hswitch hcmd)
      exact ⟨v.toInt, by simp [switchLogCheck, hv]⟩
    · exact ⟨fileId, rfl⟩
  obtain ⟨fileId', hfileId⟩ := hfile
  have hpos : 0 < headerSize := by decide
  refine ⟨fileId', ?_⟩
  rw [parseLoop, if_pos (by simp; omega), drop_left, deserialize_serialize_append]
  simp only [hlen, hcheck, hfileId]
  rw [if_neg (by simp; omega), if_neg (by simp), if_neg (by simp), if_neg (by omega)]
  rfl

end Frames

/-! ### Records -/

/-- A command with its payload. -/
structure LogRecord where
  cmd : BitVec 32
  data : List UInt8
  deriving DecidableEq, Repr

/-- The cursor behind records written at `c`. -/
def cursorAfter (c : LogCursor) (rs : List LogRecord) : LogCursor :=
  rs.foldl (fun c r => c.next r.cmd r.data) c

section Records

/-- The bytes of records written at `c`: each under the sequence number of the cursor that the
records before it lead to. -/
def bytesFrom : LogCursor → List LogRecord → List UInt8
  | _, [] => []
  | c, r :: rs =>
    (c.nextEntry crc64 r.cmd r.data).serialize ++ (r.data ++ bytesFrom (c.next r.cmd r.data) rs)

/-- The payload is not empty, and its length fits the header together with the sequence number
and the command. -/
def LogRecord.Fits (r : LogRecord) : Prop := 0 < r.data.length ∧ r.data.length < 2 ^ 31 - 12

variable {crc64} {rs : List LogRecord} {r : LogRecord} {fileId : Int}

@[simp]
theorem cursorAfter_append_singleton :
    cursorAfter c (rs ++ [r]) = (cursorAfter c rs).next r.cmd r.data := by
  simp [cursorAfter]

theorem bytesFrom_append_singleton :
    bytesFrom crc64 c (rs ++ [r]) = bytesFrom crc64 c rs ++
      (((cursorAfter c rs).nextEntry crc64 r.cmd r.data).serialize ++ r.data) := by
  induction rs generalizing c with
  | nil => simp [bytesFrom, cursorAfter]
  | cons q rs ih => simp [bytesFrom, cursorAfter, ih]

theorem isValid_cursorAfter (h : c.isValid = true) : (cursorAfter c rs).isValid = true := by
  induction rs generalizing c with
  | nil => exact h
  | cons q rs ih => exact ih (isValid_next h)

theorem cursorAfter_logId (c : LogCursor) (rs : List LogRecord) :
    (cursorAfter c rs).logId = c.logId + rs.length := by
  induction rs generalizing c with
  | nil => simp [cursorAfter]
  | cons q rs ih =>
    have hstep := ih (c.next q.cmd q.data)
    simp only [cursorAfter, foldl_cons, length_cons] at hstep ⊢
    rw [hstep, next_logId]
    omega

theorem length_le_bytesFrom (c : LogCursor) (rs : List LogRecord) :
    rs.length * LogEntry.headerSize ≤ (bytesFrom crc64 c rs).length := by
  induction rs generalizing c with
  | nil => simp
  | cons q rs ih =>
    have hrest := ih (c.next q.cmd q.data)
    simp only [bytesFrom, length_append, length_serialize, length_cons, Nat.succ_mul]
    omega

variable (checkIntegrity : Bool)

theorem parseLoop_succ (start : LogCursor)
    {before after : List UInt8} (hvalid : c.isValid = true) (hid : c.logId < 2 ^ 63)
    (hfits : r.Fits) (hlong : 8 ≤ (r.data ++ after).length) :
    ∃ fileId', parseLoop crc64 checkIntegrity
        (before ++ ((c.nextEntry crc64 r.cmd r.data).serialize ++ (r.data ++ after))) start
        (fuel + 1) before.length fileId c =
      parseLoop crc64 checkIntegrity
        (before ++ ((c.nextEntry crc64 r.cmd r.data).serialize ++ (r.data ++ after))) start
        fuel (before.length + LogEntry.headerSize + r.data.length) fileId'
        (c.next r.cmd r.data) := by
  have hlen : (c.nextEntry crc64 r.cmd r.data).getLogDataLen = r.data.length :=
    getLogDataLen_fillHeader (by have := hfits.2; omega)
  have hcheck : checkDataIntegrity crc64 (c.nextEntry crc64 r.cmd r.data)
      (r.data ++ after) = true :=
    checkDataIntegrity_fillHeader hfits.2 after
  have hadvance : c.advance (c.nextEntry crc64 r.cmd r.data) = .ok (c.next r.cmd r.data) :=
    advance_nextEntry hvalid hid (by have := hfits.2; omega)
  obtain ⟨fileId', hturn⟩ :=
    parseLoop_entry checkIntegrity start fuel fileId before after c hlen hcheck fun _ => hlong
  rw [hadvance] at hturn
  exact ⟨fileId', hturn⟩

/-- The loop of `parse_log_buffer` reads records back, from the cursor they were written at to
the cursor behind them. -/
theorem parseLoop_bytesFrom (start : LogCursor)
    {before : List UInt8} (hvalid : c.isValid = true)
    (hids : c.logId + rs.length ≤ 2 ^ 63) (hfits : ∀ r ∈ rs, r.Fits)
    (hlast : ∀ r, rs.getLast? = some r → 8 ≤ r.data.length) (hfuel : rs.length < fuel) :
    parseLoop crc64 checkIntegrity (before ++ bytesFrom crc64 c rs) start fuel before.length
        fileId c =
      some (.success, (before ++ bytesFrom crc64 c rs).length, cursorAfter c rs) := by
  induction rs generalizing c fuel fileId before with
  | nil =>
    obtain ⟨k, rfl⟩ := Nat.exists_eq_succ_of_ne_zero (Nat.ne_of_gt hfuel)
    simp [parseLoop, bytesFrom, cursorAfter]
  | cons q rs ih =>
    obtain ⟨k, rfl⟩ := Nat.exists_eq_succ_of_ne_zero (by omega : fuel ≠ 0)
    rw [length_cons] at hids hfuel
    have hq : q.Fits := hfits q mem_cons_self
    have hlong : 8 ≤ (q.data ++ bytesFrom crc64 (c.next q.cmd q.data) rs).length := by
      rcases rs with _ | ⟨p, ps⟩
      · have := hlast q rfl
        simpa [bytesFrom] using this
      have : _ ≤ (bytesFrom crc64 _ _).length :=
        length_le_bytesFrom (c.next q.cmd q.data) (p :: ps)
      simp only [length_cons, Nat.succ_mul, length_append, headerSize] at this ⊢
      omega
    obtain ⟨fileId', hturn⟩ := parseLoop_succ checkIntegrity start hvalid
      (by omega : c.logId < 2 ^ 63) hq hlong
    have hdata : before ++ bytesFrom crc64 c (q :: rs) =
        before ++ ((c.nextEntry crc64 q.cmd q.data).serialize ++ q.data) ++
          bytesFrom crc64 (c.next q.cmd q.data) rs := by
      simp [bytesFrom]
    have hlen : before.length + headerSize + q.data.length =
        (before ++ ((c.nextEntry crc64 q.cmd q.data).serialize ++ q.data)).length := by
      simp [Nat.add_assoc]
    rw [bytesFrom, hturn, ← bytesFrom, hdata, hlen]
    refine ih (isValid_next hvalid) (by rw [next_logId]; omega)
      (forall_mem_cons.1 hfits).2 (fun r hr => hlast r ?_) (by omega)
    rw [getLast?_cons, hr, Option.getD_some]

/-- `parse_log_buffer` reads a batch of records from the cursor it was written at exactly to
the cursor behind it, with or without the integrity check. -/
theorem parseLogBuffer_bytesFrom (hvalid : c.isValid = true)
    (hne : rs ≠ []) (hids : c.logId + rs.length ≤ 2 ^ 63) (hfits : ∀ r ∈ rs, r.Fits)
    (hlast : ∀ r, rs.getLast? = some r → 8 ≤ r.data.length) :
    parseLogBuffer crc64 checkIntegrity (bytesFrom crc64 c rs) c =
      some (.success, cursorAfter c rs) := by
  have hlong : _ ≤ (bytesFrom crc64 c rs).length := length_le_bytesFrom c rs
  have hpos : 0 < rs.length := length_pos_iff.2 hne
  rw [show headerSize = 44 from rfl] at hlong
  have hdata : bytesFrom crc64 c rs ≠ [] := by
    intro h
    rw [h, length_nil] at hlong
    omega
  have hloop : parseLoop crc64 checkIntegrity ([] ++ bytesFrom crc64 c rs) c
      ((bytesFrom crc64 c rs).length + 1) ([] : List UInt8).length 0 c = _ :=
    parseLoop_bytesFrom checkIntegrity c hvalid hids hfits hlast (by omega)
  rw [nil_append, length_nil] at hloop
  simp [parseLogBuffer, hdata, hvalid, hloop]

end Records

/-! ### What is accepted -/

def frameBytes (fs : List LogFrame) : List UInt8 := fs.flatMap LogFrame.bytes

def LogFrame.record (f : LogFrame) : LogRecord := ⟨f.entry.cmd, f.data⟩

/-- The sequence numbers are consecutive from `logId` on. -/
def Consecutive : Int → List LogFrame → Prop
  | _, [] => True
  | logId, f :: fs => f.entry.seq.toInt = logId ∧ Consecutive (logId + 1) fs

/-- The payload of a switch entry starts with the id of a file. -/
def LogFrame.Names (f : LogFrame) (fileId : Int) : Prop :=
  ∃ r, decodeInt 8 f.data = some r ∧ r.1.toInt = fileId

/-- Every switch entry names the file that it leads to, from the file `fileId` on. -/
def SwitchIds : Int → List LogFrame → Prop
  | _, [] => True
  | fileId, f :: fs =>
    if f.entry.cmd = LogCommand.switchLog.code then
      f.Names (fileId + 1) ∧ SwitchIds (fileId + 1) fs
    else SwitchIds fileId fs

/-- A cursor moves over the entries: where it has a log id, which is positive, the next entry has
that id. -/
def Follows : Int → List LogFrame → Prop
  | _, [] => True
  | logId, f :: fs => (0 < logId → f.entry.seq.toInt = logId) ∧ Follows (f.entry.seq.toInt + 1) fs

/-- An entry is met at a cursor with a positive log id, and has another id. -/
def IdTestFails : Int → List LogFrame → Prop
  | _, [] => False
  | logId, f :: fs =>
    (0 < logId ∧ f.entry.seq.toInt ≠ logId) ∨ IdTestFails (f.entry.seq.toInt + 1) fs

/-- A cursor without a log id is met by an entry with the id 0. -/
def StartsRight (logId : Int) (fs : List LogFrame) : Prop :=
  logId = 0 → ∀ f ∈ fs.head?, f.entry.seq.toInt = 0

section Accept

variable {crc64} {f : LogFrame} {fs : List LogFrame}

theorem frameBytes_cons :
    frameBytes (f :: fs) = f.entry.serialize ++ (f.data ++ frameBytes fs) := by
  simp [frameBytes, LogFrame.bytes]

theorem length_le_frameBytes (fs : List LogFrame) : fs.length ≤ (frameBytes fs).length := by
  induction fs with
  | nil => simp
  | cons f fs ih =>
    have hsize : 0 < headerSize := by decide
    rw [frameBytes_cons]
    simp only [length_cons, length_append, length_serialize]
    omega

theorem advance_ok (h : 0 < c.logId → f.entry.seq.toInt = c.logId) :
    ∃ c', c.advance f.entry = .ok c' ∧ c'.logId = f.entry.seq.toInt + 1 := by
  rw [advance, if_neg fun hne => hne.2 (h hne.1)]
  split
  all_goals exact ⟨_, rfl, rfl⟩

theorem advance_error (h : ¬ (0 < c.logId → f.entry.seq.toInt = c.logId)) :
    c.advance f.entry = .error .discontinuousLog := by
  rw [advance, if_pos (Classical.not_imp.1 h)]

/-- The cursor moves as it does over a record, where the entry has the cursor's log id. -/
theorem advance_eq_next (hlen : f.entry.getLogDataLen = f.data.length)
    (hseq : f.entry.seq.toInt = c.logId) :
    c.advance f.entry = .ok (c.next f.record.cmd f.record.data) := by
  have hcmd : f.record.cmd = f.entry.cmd := rfl
  rw [advance, if_neg (by simp [hseq]), LogCursor.next, hlen, hseq, hcmd]
  split <;> rfl

/-- The loop of `parse_log_buffer` over well-formed entries: it succeeds exactly when the cursor
follows them, and then it comes to the end of the buffer. -/
theorem parseLoop_frames (checkIntegrity : Bool) (start c : LogCursor) (fileId : Int)
    (before : List UInt8) (hwf : ∀ f ∈ fs, f.WellFormed crc64) (hfuel : fs.length < fuel) :
    ∃ r, parseLoop crc64 checkIntegrity (before ++ frameBytes fs) start fuel before.length
        fileId c =
        some r ∧ (r.1 = .success ↔ Follows c.logId fs) ∧
      (r.1 = .success → r.2.1 = (before ++ frameBytes fs).length) ∧
      (Consecutive c.logId fs → r.2.2 = cursorAfter c (fs.map LogFrame.record)) := by
  induction fs generalizing c fuel fileId before with
  | nil =>
    obtain ⟨k, rfl⟩ := Nat.exists_eq_succ_of_ne_zero (Nat.ne_of_gt hfuel)
    refine ⟨(.success, before.length, c), by simp [parseLoop, frameBytes], by simp [Follows],
      by simp [frameBytes], fun _ => rfl⟩
  | cons f fs ih =>
    obtain ⟨k, rfl⟩ := Nat.exists_eq_succ_of_ne_zero (by omega : fuel ≠ 0)
    obtain ⟨hlen, hcheck, hswitch⟩ := hwf f mem_cons_self
    rw [length_cons] at hfuel
    have hlong :
        f.entry.cmd = LogCommand.switchLog.code → 8 ≤ (f.data ++ frameBytes fs).length := by
      intro hcmd
      have hdata := hswitch hcmd
      rw [length_append]
      omega
    obtain ⟨fileId', hturn⟩ :=
      parseLoop_entry checkIntegrity start k fileId before (frameBytes fs) c
      hlen ((checkDataIntegrity_append hlen _).trans hcheck) hlong
    rw [frameBytes_cons, hturn]
    by_cases hfollow : 0 < c.logId → f.entry.seq.toInt = c.logId
    · obtain ⟨c', hc', hlogId⟩ := advance_ok hfollow
      have hdata : before ++ (f.entry.serialize ++ (f.data ++ frameBytes fs)) =
          (before ++ f.bytes) ++ frameBytes fs := by
        simp [LogFrame.bytes]
      have hpos : before.length + headerSize + f.data.length = (before ++ f.bytes).length := by
        simp [Nat.add_assoc]
      obtain ⟨r, hr, hiff, hend, hcur⟩ := ih c' fileId' (before ++ f.bytes)
        (forall_mem_cons.1 hwf).2 (show fs.length < k by omega)
      rw [hc', hdata, hpos]
      refine ⟨r, hr, ?_, hend, fun hcons => ?_⟩
      · rw [hiff, hlogId, Follows]
        exact (and_iff_right hfollow).symm
      obtain ⟨hseq, hcons⟩ := hcons
      obtain rfl : c' = c.next f.record.cmd f.record.data :=
        Except.ok.inj (hc'.symm.trans (advance_eq_next hlen hseq))
      exact hcur (by rwa [next_logId])
    · rw [advance_error hfollow]
      refine ⟨_, rfl, ?_, (fun h => nomatch h), fun hcons => absurd (fun _ => hcons.1) hfollow⟩
      exact iff_of_false (by simp) fun h => hfollow h.1

theorem parseLogBuffer_frames (checkIntegrity : Bool) (start : LogCursor)
    (hwf : ∀ f ∈ fs, f.WellFormed crc64) :
    ∃ r, parseLogBuffer crc64 checkIntegrity (frameBytes fs) start = some r ∧
      (r.1 = .success ↔ fs ≠ [] ∧ start.isValid = true ∧ Follows start.logId fs) ∧
      (r.1 = .success → Consecutive start.logId fs →
        r.2 = cursorAfter start (fs.map LogFrame.record)) := by
  have hlength := length_le_frameBytes fs
  have hnil : frameBytes fs = [] ↔ fs = [] := by
    refine ⟨fun h => ?_, fun h => by rw [h]; rfl⟩
    rw [h] at hlength
    exact eq_nil_of_length_eq_zero (Nat.le_zero.1 hlength)
  rw [parseLogBuffer]
  split
  · next hinvalid =>
    refine ⟨_, rfl, iff_of_false (by simp) fun h => ?_, fun h => nomatch h⟩
    rcases hinvalid with hempty | hstart
    · exact h.1 (hnil.1 hempty)
    · exact hstart h.2.1
  · next hvalid =>
    obtain ⟨hdata, hstart⟩ := not_or.1 hvalid
    obtain ⟨r, hr, hiff, hend, hcur⟩ := parseLoop_frames checkIntegrity start start 0
      [] hwf (Nat.lt_succ_of_le hlength)
    rw [nil_append, length_nil] at hr
    rw [hr]
    refine ⟨_, rfl, ?_, fun _ hcons => hcur hcons⟩
    dsimp only
    by_cases hsuccess : r.1 = .success
    · rw [if_neg fun h => h.2 (hend hsuccess)]
      exact iff_of_true hsuccess ⟨fun h => hdata (hnil.2 h), not_not.1 hstart, hiff.1 hsuccess⟩
    · rw [if_neg fun h => hsuccess h.1]
      exact iff_of_false hsuccess fun h => hsuccess (hiff.2 h.2.2)

/-- What a slave relies on when `parse_log_buffer` accepts entries: their ids are consecutive from
the start cursor, their switch entries name the files they lead to, and the cursor returned is the
start cursor moved over them. -/
def AcceptedOk (start : LogCursor) (fs : List LogFrame) (cur : LogCursor) : Prop :=
  Consecutive start.logId fs ∧ SwitchIds start.fileId fs ∧
    cur = cursorAfter start (fs.map LogFrame.record)

theorem idTestFails_iff {logId : Int} : IdTestFails logId fs ↔ ¬ Follows logId fs := by
  induction fs generalizing logId with
  | nil => simp [IdTestFails, Follows]
  | cons f fs ih => rw [IdTestFails, Follows, ih, not_and_or, Classical.not_imp]

/-- From a positive log id on the cursor is compared with every entry. -/
theorem follows_iff_consecutive {logId : Int} (hpos : 0 < logId) :
    Follows logId fs ↔ Consecutive logId fs := by
  induction fs generalizing logId with
  | nil => exact Iff.rfl
  | cons f fs ih =>
    rw [Follows, Consecutive, imp_iff_right hpos]
    refine and_congr_right fun hseq => ?_
    rw [hseq]
    exact ih (by omega)

/-- Where the cursor follows, the ids are consecutive exactly when they start right. -/
theorem consecutive_iff_startsRight {logId : Int} (hid : 0 ≤ logId) (h : Follows logId fs) :
    Consecutive logId fs ↔ StartsRight logId fs := by
  rcases Int.lt_or_eq_of_le hid with hpos | rfl
  · exact iff_of_true ((follows_iff_consecutive hpos).1 h) fun hzero => absurd hzero (by omega)
  rcases fs with _ | ⟨f, fs⟩
  · simp [Consecutive, StartsRight]
  have hrest (hseq : f.entry.seq.toInt = 0) : Consecutive 1 fs := by
    have hfollows := h.2
    rw [hseq] at hfollows
    exact (follows_iff_consecutive (by decide)).1 hfollows
  simp only [Consecutive, StartsRight, head?_cons, Option.mem_def, Option.some.injEq,
    forall_eq', true_implies]
  exact ⟨fun hcons => hcons.1, fun hseq => ⟨hseq, hrest hseq⟩⟩

/-- **What `parse_log_buffer` accepts** is right exactly when the start cursor is not valid, or an
id test fails, or the ids start right and the switch entries name the files they lead to. -/
theorem acceptedOk_iff (checkIntegrity : Bool) (start : LogCursor)
    (hwf : ∀ f ∈ fs, f.WellFormed crc64) :
    (∀ cur, parseLogBuffer crc64 checkIntegrity (frameBytes fs) start = some (.success, cur) →
      AcceptedOk start fs cur) ↔
    start.isValid = false ∨ IdTestFails start.logId fs ∨
      (StartsRight start.logId fs ∧ SwitchIds start.fileId fs) := by
  obtain ⟨⟨ret, cur⟩, hr, hiff, hcur⟩ := parseLogBuffer_frames checkIntegrity start hwf
  rw [hr, idTestFails_iff]
  by_cases hvalid : start.isValid = true
  · rw [or_iff_right (by simp [hvalid])]
    by_cases hfollows : Follows start.logId fs
    · rw [or_iff_right (not_not.2 hfollows),
        ← consecutive_iff_startsRight (isValid_iff.1 hvalid).2.1 hfollows]
      constructor
      · intro h
        by_cases hne : fs = []
        · rw [hne]
          exact ⟨trivial, trivial⟩
        obtain rfl : ret = .success := hiff.2 ⟨hne, hvalid, hfollows⟩
        obtain ⟨hcons, hswitch, -⟩ := h cur rfl
        exact ⟨hcons, hswitch⟩
      · rintro ⟨hcons, hswitch⟩ cur' heq
        cases heq
        exact ⟨hcons, hswitch, hcur rfl hcons⟩
    · refine iff_of_true (fun cur' heq => ?_) (.inl hfollows)
      cases heq
      exact absurd (hiff.1 rfl).2.2 hfollows
  · refine iff_of_true (fun cur' heq => ?_) (.inl (by simpa using hvalid))
    cases heq
    exact absurd (hiff.1 rfl).2.1 hvalid

theorem wellFormed_fillHeader {seq : BitVec 64} {cmd : BitVec 32} (hlen : data.length < 2 ^ 31 - 12)
    (hswitch : cmd = LogCommand.switchLog.code → 8 ≤ data.length) :
    LogFrame.WellFormed crc64 ⟨LogEntry.fillHeader crc64 seq cmd data, data⟩ := by
  refine ⟨getLogDataLen_fillHeader (by omega), ?_, hswitch⟩
  have hcheck : checkDataIntegrity crc64 (fillHeader crc64 seq cmd data)
      (data ++ []) = true := checkDataIntegrity_fillHeader hlen []
  rwa [append_nil] at hcheck

end Accept

/-- The switch entry of log 5 that names the file `fileId`. -/
def switchFrame (fileId : BitVec 64) : LogFrame :=
  ⟨LogEntry.fillHeader (fun _ _ _ => 0) 5 LogCommand.switchLog.code (encodeInt 8 fileId),
    encodeInt 8 fileId⟩

theorem wellFormed_switchFrame (fileId : BitVec 64) :
    (switchFrame fileId).WellFormed fun _ _ _ => 0 :=
  wellFormed_fillHeader (by simp) fun _ => by simp

theorem acceptedOk_iff_switchFrame : ∃ cur,
    parseLogBuffer (fun _ _ _ => 0) true (frameBytes [switchFrame 2]) ⟨1, 5, 0⟩ =
      some (.success, cur) ∧ AcceptedOk ⟨1, 5, 0⟩ [switchFrame 2] cur := by
  have hwf : ∀ f ∈ [switchFrame 2], f.WellFormed fun _ _ _ => 0 := by
    intro f hf
    rw [mem_singleton.1 hf]
    exact wellFormed_switchFrame 2
  have hrun : parseLogBuffer (fun _ _ _ => 0) true (frameBytes [switchFrame 2]) ⟨1, 5, 0⟩ =
      some (.success, ⟨2, 6, 0⟩) := by decide +kernel
  refine ⟨⟨2, 6, 0⟩, hrun, (acceptedOk_iff true ⟨1, 5, 0⟩ hwf).2 (.inr (.inr ⟨?_, ?_⟩)) _ hrun⟩
  · exact fun hzero => absurd hzero (by decide)
  · exact ⟨⟨(2, []), by decide, rfl⟩, trivial⟩

/-- The cursor of file 1 moves to file 2 over a switch entry that names file 99. -/
theorem not_acceptedOk_switchFrame : ∃ cur,
    parseLogBuffer (fun _ _ _ => 0) true (frameBytes [switchFrame 99]) ⟨1, 5, 0⟩ =
      some (.success, cur) ∧ ¬ AcceptedOk ⟨1, 5, 0⟩ [switchFrame 99] cur := by
  refine ⟨⟨2, 6, 0⟩, by decide +kernel, ?_⟩
  rintro ⟨-, ⟨⟨r, hr, hid⟩, -⟩, -⟩
  cases hr
  exact absurd hid (by decide)

end OceanBase.Common
