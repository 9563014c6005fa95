import OceanBase.Common.Define
import OceanBase.Lib.Run

/-!
# The root table (`ob_root_table2.cpp`, `ob_root_meta2.cpp`, `ob_tablet_info_manager.cpp`)

An entry of the root table says which servers hold a tablet, each with a version, and where the
tablet's range and checksums stand in a second array, which only grows. `add_range`, `create_table`
and `split_range` first make room among the entries and then add to the second array; when that
fails, the entries stay moved (`splitRange_same_iff` and so on).

`delete_tables` looks at all entries but keeps only what it finds among those sorted so far
(`deleteTables_keeps_iff`).
-/

namespace OceanBase.RootServer

open Lib List

/-! ### Ranges -/

/-- A rowkey, or the least or the greatest one. -/
abbrev Key (α : Type) : Type := WithBot (WithTop α)

/-- `ObNewRange`. -/
structure Range (α : Type) where
  tableId : Nat
  startKey : Key α
  endKey : Key α
  inclusiveStart : Bool
  inclusiveEnd : Bool
  deriving DecidableEq

variable {α : Type}

section Ranges

/-- What `compare_with_endkey` compares: the table and the end key. -/
def Range.endPos (r : Range α) : ℕ ×ₗ Key α := toLex (r.tableId, r.endKey)

/-- What `compare_with_startkey` compares: the table and the start key. -/
def Range.startPos (r : Range α) : ℕ ×ₗ Key α := toLex (r.tableId, r.startKey)

end Ranges

/-! ### The arrays -/

/-- `OB_SAFE_COPY_COUNT`. -/
abbrev safeCopyCount : Nat := 3

/-- `ObTabletInfoManager::MAX_TABLET_COUNT`. -/
def maxTabletCount : Nat := 10 * 1024 * 1024

structure Slot where
  server : Option Nat
  version : Int
  deriving DecidableEq

/-- `ObRootMeta2`. -/
structure RootMeta where
  tabletInfoIndex : Option Nat
  slots : Fin safeCopyCount → Slot
  deriving DecidableEq

/-- `ObTabletInfo`. -/
structure TabletInfo (α : Type) where
  range : Range α
  crcSum : Nat
  rowChecksum : Nat
  deriving DecidableEq

/-- A checksum that is kept. -/
structure Crc where
  version : Int
  crcSum : Nat
  rowChecksum : Nat
  deriving DecidableEq

/-- `ObTabletCrcHistoryHelper`, which keeps `MAX_KEEP_HIS_COUNT` checksums. -/
abbrev CrcHistory : Type := Fin 3 → Crc

/-- `ObTabletCrcHistoryHelper::reset`. -/
def CrcHistory.reset : CrcHistory := fun _ => ⟨0, 0, 0⟩

/-- `get_min_max_version`. -/
def CrcHistory.minVersion (h : CrcHistory) : Int :=
  min (h 0).version (min (h 1).version (h 2).version)

def CrcHistory.maxVersion (h : CrcHistory) : Int :=
  max 0 (max (h 0).version (max (h 1).version (h 2).version))

def CrcHistory.updateCrcSum (h : CrcHistory) (version : Int) (crc : Crc) : CrcHistory :=
  match (List.finRange 3).find? fun i => (h i).version = version with
  | none => h
  | some i => Function.update h i crc

/-- `check_and_update`: whether the checksum agrees with the one that is kept, and what is kept
then. -/
def CrcHistory.checkAndUpdate (h : CrcHistory) (crc : Crc) : Bool × CrcHistory :=
  if h.maxVersion < crc.version then (true, h.updateCrcSum h.minVersion crc)
  else if ∃ i, (h i).version = crc.version then
    (decide (∀ i, (h i).version = crc.version → (h i).crcSum = 0 ∨ crc.crcSum = 0 ∨
        crc.crcSum = (h i).crcSum),
      fun i => if (h i).version = crc.version ∧ (h i).crcSum = 0 then crc else h i)
  else (true, if h.minVersion < crc.version then h.updateCrcSum h.minVersion crc else h)

/-- `ObRootTable2` with its `ObTabletInfoManager`. -/
structure RootTable (α : Type) where
  metas : List RootMeta
  sortedCount : Nat
  infos : List (TabletInfo α × CrcHistory)

/-- What a call meets: whether the tablet infos it adds can be copied, one after another, and what
stands in memory behind and before the entries. -/
structure Room where
  copied : Nat → Bool
  spare : RootMeta
  stray : RootMeta

def findOutOfRange : Ret := .other (-3006)
def errorOutOfRange : Ret := .other (-3003)

namespace RootTable

variable (t : RootTable α)

/-- `ObTabletInfoManager::get_tablet_info`. -/
def infoOf (m : RootMeta) : Option (TabletInfo α) :=
  m.tabletInfoIndex.bind fun i => (t.infos[i]?).map Prod.fst

/-- `get_tablet_info`. -/
def tabletInfo (pos : Nat) : Option (TabletInfo α) := (t.metas[pos]?).bind t.infoOf

/-- `add_tablet_info`, and what its crc helper is made to keep. -/
def addInfo (copied : Bool) (info : TabletInfo α) (crc : CrcHistory) : Option (RootTable α) :=
  if maxTabletCount ≤ t.infos.length then none
  else if copied then some { t with infos := t.infos ++ [(info, crc)] } else none

/-- The checksums of a tablet that is reported. -/
def reportedCrc (info : TabletInfo α) (version : Int) : CrcHistory :=
  (CrcHistory.reset.checkAndUpdate ⟨version, info.crcSum, info.rowChecksum⟩).2

def newMeta (index : Nat) (servers : List Nat) (version : Int) : RootMeta :=
  ⟨some index, fun i => match servers[i.val]? with
    | some server => ⟨some server, version⟩
    | none => ⟨none, 0⟩⟩

/-- `move_back`: the places that come free keep what was there. -/
def moveBack (room : Room) (pos step : Nat) : Option (RootTable α) :=
  if step + t.metas.length < maxTabletCount ∧ pos ≤ t.metas.length then
    some { t with
      metas := t.metas.take pos ++ (t.metas.drop pos ++ List.replicate step room.spare).take step ++
        t.metas.drop pos
      sortedCount := t.sortedCount + step }
  else none

def add (room : Room) (info : TabletInfo α) (server : Nat) (version : Int) :
    Ret × RootTable α :=
  match t.addInfo (room.copied 0) info (reportedCrc info version) with
  | none => (.error, t)
  | some t' =>
    if t'.metas.length < maxTabletCount then
      (.success, { t' with metas := t'.metas ++ [newMeta t.infos.length [server] version] })
    else (.error, t')

section Order

variable [LinearOrder α]

/-- `std::lower_bound` with `ObRootMeta2RangeLessThan`: the first entry that does not end before. -/
def lowerBound (pos : ℕ ×ₗ Key α) : Nat :=
  t.metas.findIdx fun m => match t.infoOf m with
    | none => false
    | some info => ¬info.range.endPos < pos

/-- The range starts right on the end of the tablet, without its start key. -/
def skips (range tablet : Range α) : Bool :=
  range.startKey ≠ ⊥ ∧ tablet.endKey ≠ ⊤ ∧ range.startKey = tablet.endKey ∧ ¬range.inclusiveStart

variable (range : Range α)

/-- The second search of `find_range`. -/
def findLast (first : Nat) : Ret × Nat × Nat :=
  let last := t.lowerBound range.endPos
  if last = t.metas.length then (findOutOfRange, first, last)
  else if last < first then (errorOutOfRange, first, last)
  else (.success, first, last)

/-- `find_range`: the return code, `first` and `last`. -/
def findRange : Ret × Nat × Nat :=
  if t.metas.length = 0 then (findOutOfRange, 0, 0)
  else
    let start := t.lowerBound range.startPos
    if start = t.metas.length then (findOutOfRange, start, start)
    else
      match t.tabletInfo start with
      | none => (errorOutOfRange, start, start)
      | some info =>
        if skips range info.range then
          if t.metas.length ≤ start + 1 then (findOutOfRange, start + 1, start + 1)
          else if t.tabletInfo (start + 1) = none then (errorOutOfRange, start + 1, start + 1)
          else t.findLast range (start + 1)
        else t.findLast range start

/-- `POS_TYPE_…`. -/
inductive PosType where
  | addRange | mergeRange | sameRange | splitRange | error | uninit
  deriving DecidableEq

/-- `get_range_pos_type` for a range that starts before the first entry found. -/
def posTypeBefore (first : Nat) (info : TabletInfo α) : PosType :=
  if range.tableId < info.range.tableId ∨
      (range.endKey ≠ ⊤ ∧ range.endKey ≤ info.range.startKey) then
    if first = 0 then .addRange
    else
      match t.tabletInfo (first - 1) with
      | none => .error
      | some prev =>
        if range.tableId = prev.range.tableId ∧ (prev.range.endKey = ⊤ ∨ range.startKey = ⊥ ∨
            range.startKey < prev.range.endKey) then .error
        else .addRange
  else .error

def getRangePosType (first last : Nat) : PosType :=
  match t.tabletInfo first with
  | none => .addRange
  | some info =>
    if last = t.metas.length then
      if range.startKey = info.range.startKey then .mergeRange else .uninit
    else if range.startPos < info.range.startPos then t.posTypeBefore range first info
    else if first = last then
      if range.startPos = info.range.startPos ∧ range.endPos = info.range.endPos then .sameRange
      else .splitRange
    else
      match t.tabletInfo last with
      | none => .error
      | some info' =>
        if range.startPos = info.range.startPos ∧ range.endPos = info'.range.endPos then .mergeRange
        else .error

def addRange (room : Room) (reported : TabletInfo α) (pos : Nat) (version : Int) (server : Nat) :
    Ret × RootTable α :=
  if pos = t.metas.length ∨ t.getRangePosType reported.range pos pos = .addRange then
    match t.moveBack room pos 1 with
    | none => (.error, t)
    | some t1 =>
      match t1.addInfo (room.copied 0) reported (reportedCrc reported version) with
      | none => (.error, t1)
      | some t2 =>
        (.success, { t2 with metas := t2.metas.set pos (newMeta t.infos.length [server] version) })
  else (.error, t)

/-- `create_table`. When several tablets are found, the place to insert stays -1: the entries move
by one, with what stands before them, and the new entry is written there. -/
def createTable (room : Room) (tablet : TabletInfo α) (chunkservers : List Nat) (version : Int) :
    Ret × RootTable α :=
  let found := t.findRange tablet.range
  if found.1 = .success ∨ found.1 = findOutOfRange then
    let pos : Option Nat :=
      if found.1 = .success then if found.2.1 = found.2.2 then some found.2.1 else none
      else some t.metas.length
    match t.moveBack room (pos.getD 0) 1 with
    | none => (.error, t)
    | some t1 =>
      let t1 := if pos = none then { t1 with metas := room.stray :: t.metas } else t1
      match t1.addInfo (room.copied 0) tablet (reportedCrc tablet version) with
      | none => (.error, t1)
      | some t2 =>
        (.success, match pos with
          | none => t2
          | some pos =>
            { t2 with metas := t2.metas.set pos (newMeta t.infos.length chunkservers version) })
  else (found.1, t)

/-- `find_suitable_pos`: the slot of the server, or a free one, or the one with the least version
below the one given. -/
def findSuitablePos (m : RootMeta) (server : Nat) (version : Int) : Option (Fin safeCopyCount) :=
  ((List.finRange safeCopyCount).find? fun i => (m.slots i).server = some server).or <|
    ((List.finRange safeCopyCount).find? fun i => (m.slots i).server = none).or <|
      ((List.finRange safeCopyCount).foldl (fun (best : Int × Option (Fin safeCopyCount)) i =>
        if (m.slots i).version < best.1 then ((m.slots i).version, some i) else best)
        (version, none)).2

def place (m : RootMeta) (server : Nat) (version : Int) : RootMeta :=
  match findSuitablePos m server version with
  | none => m
  | some i => { m with slots := Function.update m.slots i ⟨some server, version⟩ }

def addInfos (room : Room) : List (TabletInfo α × CrcHistory) → Nat → RootTable α →
    Bool × RootTable α
  | [], _, t => (true, t)
  | (info, crc) :: rest, n, t =>
    match t.addInfo (room.copied n) info crc with
    | none => (false, t)
    | some t' => addInfos room rest (n + 1) t'

/-- `SPLIT_TYPE_…`. -/
inductive SplitType where
  | topHalf | bottomHalf | middleHalf
  deriving DecidableEq

/-- Which part of the tablet the range is. -/
def splitType (range tablet : Range α) : Option SplitType :=
  if range.startPos = tablet.startPos then some .topHalf
  else if tablet.startPos < range.startPos then
    if range.endPos = tablet.endPos then some .bottomHalf
    else if range.endPos < tablet.endPos then some .middleHalf
    else none
  else none

/-- The tablet infos that are added, in the order in which they are. Those of the other parts carry
the checksums of the report, or a zero for one of them. -/
def splitInfos (reported : TabletInfo α) (tablet : Range α) (version : Int) :
    SplitType → List (TabletInfo α × CrcHistory)
  | .topHalf =>
    let key := reported.range.endKey
    [({ reported with range := { tablet with endKey := key, inclusiveEnd := true } },
        reportedCrc reported version),
      ({ reported with range := { tablet with startKey := key, inclusiveEnd := true } }, .reset)]
  | .bottomHalf =>
    let key := reported.range.startKey
    [({ reported with range := { tablet with endKey := key, inclusiveEnd := true } }, .reset),
      ({ reported with range := { tablet with startKey := key, inclusiveEnd := true } },
        reportedCrc reported version)]
  | .middleHalf =>
    let range := reported.range
    [({ reported with range := { range with inclusiveEnd := true } }, reportedCrc reported version),
      (⟨{ tablet with endKey := range.startKey, inclusiveEnd := true }, 0, reported.rowChecksum⟩,
        .reset),
      (⟨{ tablet with startKey := range.endKey, inclusiveEnd := true }, 0, reported.rowChecksum⟩,
        .reset)]

/-- The entries that take the place of one, with the infos added from index `n` on. -/
def splitMetas (m : RootMeta) (n : Nat) (server : Nat) (version : Int) : SplitType → List RootMeta
  | .topHalf =>
    [place { m with tabletInfoIndex := some n } server version,
      { m with tabletInfoIndex := some (n + 1) }]
  | .bottomHalf =>
    [{ m with tabletInfoIndex := some n },
      place { m with tabletInfoIndex := some (n + 1) } server version]
  | .middleHalf =>
    [{ m with tabletInfoIndex := some (n + 1) },
      place { m with tabletInfoIndex := some n } server version,
      { m with tabletInfoIndex := some (n + 2) }]

/-- By how many places the entries behind are moved. -/
def SplitType.step : SplitType → Nat
  | .middleHalf => 2
  | _ => 1

/-- `split_range`. After `move_back` the entry stands in all the places its parts will take. -/
def splitRange (room : Room) (reported : TabletInfo α) (pos : Nat) (version : Int) (server : Nat) :
    Ret × RootTable α :=
  if t.getRangePosType reported.range pos pos ≠ .splitRange then (.error, t)
  else
    match t.metas[pos]?, t.tabletInfo pos with
    | some m, some tablet =>
      match splitType reported.range tablet.range with
      | none => (.error, t)
      | some type =>
        match t.moveBack room pos type.step with
        | none => (.error, t)
        | some t1 =>
          let t1 := { t1 with
            metas := t.metas.take pos ++ List.replicate (type.step + 1) m ++
              t.metas.drop (pos + 1) }
          let r := addInfos room (splitInfos reported tablet.range version type) 0 t1
          if r.1 then
            (.success, { r.2 with
              metas := t.metas.take pos ++ splitMetas m t.infos.length server version type ++
                t.metas.drop (pos + 1) })
          else (.error, r.2)
    | _, _ => (.error, t)

/-- The order of `ObRootMeta2CompareHelper`: by end key, and by index for the same one. An entry
without a tablet info comes first. -/
def metaLe (m m' : RootMeta) : Bool :=
  match t.infoOf m, t.infoOf m' with
  | none, _ => true
  | some _, none => false
  | some info, some info' =>
    info.range.endPos < info'.range.endPos ∨ (info.range.endPos = info'.range.endPos ∧
      m.tabletInfoIndex.getD 0 ≤ m'.tabletInfoIndex.getD 0)

def sort : RootTable α :=
  { t with metas := t.metas.mergeSort t.metaLe, sortedCount := t.metas.length }

end Order

/-- `shrink`: the sorted entries that have not been marked. -/
def shrink : RootTable α :=
  let kept := (t.metas.take t.sortedCount).filter (·.tabletInfoIndex.isSome)
  { t with metas := kept, sortedCount := kept.length }

/-- The table id of a meta. -/
def tableOf (m : RootMeta) : Option Nat := (t.infoOf m).map (·.range.tableId)

variable (ids : List Nat)

/-- The meta is of a table to delete. -/
def Deleted (m : RootMeta) : Prop := ∃ id ∈ ids, t.tableOf m = some id

instance (m : RootMeta) : Decidable (t.Deleted ids m) :=
  inferInstanceAs (Decidable (∃ id ∈ ids, _))

/-- `delete_tables`: `none` where the source asserts that an entry has a tablet info. -/
def deleteTables : Option (RootTable α) :=
  if ∀ m ∈ t.metas, (t.infoOf m).isSome then
    some (shrink { t with
      metas := t.metas.map fun m =>
        if t.Deleted ids m then { m with tabletInfoIndex := none } else m })
  else none

/-! ### What each step does -/

section Steps

variable {t} {room : Room} {t' : RootTable α} {pos step : Nat} {copied : Bool}

/-- `move_back` has room. -/
def CanMove (t : RootTable α) (pos step : Nat) : Prop :=
  step + t.metas.length < maxTabletCount ∧ pos ≤ t.metas.length

/-- The next `k` tablet infos can be added. -/
def RoomFor (t : RootTable α) (room : Room) (k : Nat) : Prop :=
  ∀ i < k, t.infos.length + i < maxTabletCount ∧ room.copied i = true

theorem moveBack_of_not_canMove (h : ¬t.CanMove pos step) : t.moveBack room pos step = none :=
  if_neg h

theorem moveBack_of_canMove (room : Room) (h : t.CanMove pos step) : ∃ t',
    t.moveBack room pos step = some t' ∧ t'.metas.length = t.metas.length + step ∧
      t'.sortedCount = t.sortedCount + step ∧ t'.infos = t.infos := by
  refine ⟨_, if_pos h, ?_, rfl, rfl⟩
  simp only [length_append, length_take, length_drop, length_replicate]
  omega

theorem addInfo_of_room (info : TabletInfo α) (crc : CrcHistory)
    (h : t.infos.length < maxTabletCount ∧ copied = true) :
    t.addInfo copied info crc = some { t with infos := t.infos ++ [(info, crc)] } := by
  rw [addInfo, if_neg (by omega), if_pos h.2]

theorem addInfo_of_not_room (info : TabletInfo α) (crc : CrcHistory)
    (h : ¬(t.infos.length < maxTabletCount ∧ copied = true)) :
    t.addInfo copied info crc = none := by
  rw [addInfo]
  by_cases hfull : maxTabletCount ≤ t.infos.length
  · exact if_pos hfull
  · rw [if_neg hfull, if_neg fun hc => h ⟨by omega, hc⟩]

theorem roomFor_one : t.RoomFor room 1 ↔
    t.infos.length < maxTabletCount ∧ room.copied 0 = true := by
  simp [RoomFor]

/-- The infos are added if there is room for all of them; the entries are not touched. -/
theorem addInfos_spec (room : Room) (l : List (TabletInfo α × CrcHistory)) (n : Nat)
    (t : RootTable α) :
    (addInfos room l n t).2.metas = t.metas ∧
      (addInfos room l n t).2.sortedCount = t.sortedCount ∧
      ((addInfos room l n t).1 = true ↔
        ∀ i < l.length, t.infos.length + i < maxTabletCount ∧ room.copied (n + i) = true) ∧
      ((addInfos room l n t).1 = true → (addInfos room l n t).2.infos = t.infos ++ l) := by
  induction l generalizing n t with
  | nil => simp [addInfos]
  | cons p l ih =>
    obtain ⟨info, crc⟩ := p
    rw [addInfos]
    by_cases hroom : t.infos.length < maxTabletCount ∧ room.copied n = true
    · rw [addInfo_of_room info crc hroom]
      obtain ⟨hmetas, hcount, hok, hinfos⟩ :=
        ih (n + 1) { t with infos := t.infos ++ [(info, crc)] }
      refine ⟨hmetas, hcount, hok.trans ?_, fun h => by rw [hinfos h]; simp⟩
      rw [length_cons, Nat.forall_lt_succ_left]
      simp only [length_append, length_singleton, add_assoc, add_comm 1]
      exact ⟨fun h => ⟨hroom, h⟩, fun h => h.2⟩
    · rw [addInfo_of_not_room info crc hroom]
      refine ⟨rfl, rfl, iff_of_false (by simp) fun h => hroom ?_, by simp⟩
      simpa using h 0 (by simp)

/-- What the three calls have in common: `r` is an error that changes nothing, or the entries move
by `step` and the call succeeds if there is room for `k` tablet infos. -/
def Grows (t : RootTable α) (room : Room) (moves : Prop) (step k : Nat) (r : Ret × RootTable α) :
    Prop :=
  (¬moves → r.1 ≠ .success ∧ r.2 = t) ∧
    (moves → r.2.metas.length = t.metas.length + step ∧
      r.2.sortedCount = t.sortedCount + step ∧ (r.1 = .success ↔ t.RoomFor room k))

/-- An error leaves the entries as they were. -/
def SameOnError (t : RootTable α) (r : Ret × RootTable α) : Prop :=
  r.1 ≠ .success → r.2.metas = t.metas

theorem Grows.same_iff {moves : Prop} {step k : Nat} {r : Ret × RootTable α}
    (h : t.Grows room moves step k r) (hstep : 0 < step) :
    t.SameOnError r ↔ (moves → t.RoomFor room k) := by
  constructor
  · intro hsame hmoves
    obtain ⟨hlength, -, hok⟩ := h.2 hmoves
    by_contra hroom
    rw [hsame fun hsucc => hroom (hok.1 hsucc)] at hlength
    omega
  · intro hroom herr
    by_cases hmoves : moves
    · exact absurd ((h.2 hmoves).2.2.2 (hroom hmoves)) herr
    · rw [(h.1 hmoves).2]

theorem length_splitInfos (reported : TabletInfo α) (tablet : Range α) (version : Int)
    (type : SplitType) : (splitInfos reported tablet version type).length = type.step + 1 := by
  cases type <;> rfl

theorem length_splitMetas (m : RootMeta) (n server : Nat) (version : Int) (type : SplitType) :
    (splitMetas m n server version type).length = type.step + 1 := by
  cases type <;> rfl

end Steps

/-! ### Errors -/

section Errors

variable [LinearOrder α] {t} {room : Room} {t' : RootTable α} {pos : Nat} {range : Range α}

theorem lowerBound_le (p : ℕ ×ₗ Key α) : t.lowerBound p ≤ t.metas.length :=
  findIdx_le_length

theorem findLast_success {first : Nat} (h : (t.findLast range first).1 = .success) :
    (t.findLast range first).2.1 ≤ (t.findLast range first).2.2 ∧
      (t.findLast range first).2.2 < t.metas.length ∧
      (t.findLast range first).2.2 = t.lowerBound range.endPos := by
  have hle := t.lowerBound_le range.endPos
  revert h
  rw [findLast]
  split_ifs
  · simp [findOutOfRange]
  · simp [errorOutOfRange]
  intro _
  dsimp only
  omega

theorem findRange_success (h : (t.findRange range).1 = .success) :
    (t.findRange range).2.1 ≤ (t.findRange range).2.2 ∧
      (t.findRange range).2.2 < t.metas.length ∧
      (t.findRange range).2.2 = t.lowerBound range.endPos := by
  revert h
  rw [findRange]
  by_cases hzero : t.metas.length = 0
  · simp [hzero, findOutOfRange]
  rw [if_neg hzero]
  by_cases hstart : t.lowerBound range.startPos = t.metas.length
  · simp [hstart, findOutOfRange]
  rw [if_neg hstart]
  rcases t.tabletInfo (t.lowerBound range.startPos) with _ | info
  · simp [errorOutOfRange]
  dsimp only
  split_ifs
  · simp [findOutOfRange]
  · simp [errorOutOfRange]
  all_goals exact findLast_success

/-- How `split_range` would split the entry. -/
def splitTypeAt (t : RootTable α) (range : Range α) (pos : Nat) : Option SplitType :=
  if t.getRangePosType range pos pos = .splitRange then
    (t.tabletInfo pos).bind fun tablet => splitType range tablet.range
  else none

variable {reported : TabletInfo α} {type : SplitType}

theorem splitRange_of_not_canMove
    (h : ∀ type, t.splitTypeAt reported.range pos = some type → ¬t.CanMove pos type.step)
    (version : Int) (server : Nat) :
    t.splitRange room reported pos version server = (.error, t) := by
  rw [splitTypeAt] at h
  rw [splitRange]
  by_cases hpos : t.getRangePosType reported.range pos pos = .splitRange
  · rw [if_pos hpos] at h
    rw [if_neg (not_not.2 hpos)]
    rcases hm : t.metas[pos]? with _ | m
    · rfl
    rcases htab : t.tabletInfo pos with _ | tablet
    · rfl
    dsimp only
    rcases htype : splitType reported.range tablet.range with _ | type
    · rfl
    · dsimp only
      rw [moveBack_of_not_canMove (h type (by rw [htab]; exact htype))]
  · exact if_pos hpos

theorem splitRange_of_canMove (room : Room)
    (htype : t.splitTypeAt reported.range pos = some type) (hmove : t.CanMove pos type.step)
    (version : Int) (server : Nat) : ∃ m tablet, t.metas[pos]? = some m ∧
      t.infoOf m = some tablet ∧ splitType reported.range tablet.range = some type ∧
      let r := addInfos room (splitInfos reported tablet.range version type) 0
        ⟨t.metas.take pos ++ List.replicate (type.step + 1) m ++ t.metas.drop (pos + 1),
          t.sortedCount + type.step, t.infos⟩
      t.splitRange room reported pos version server =
        if r.1 then (.success, { r.2 with
          metas := t.metas.take pos ++ splitMetas m t.infos.length server version type ++
            t.metas.drop (pos + 1) })
        else (.error, r.2) := by
  rw [splitTypeAt] at htype
  by_cases hpos : t.getRangePosType reported.range pos pos = .splitRange
  · rw [if_pos hpos] at htype
    obtain ⟨tablet, htab, htype⟩ := Option.bind_eq_some_iff.1 htype
    obtain ⟨m, hm, hinfo⟩ := Option.bind_eq_some_iff.1 htab
    obtain ⟨t', hback, -, hcount, hinfos⟩ := moveBack_of_canMove room hmove
    refine ⟨m, tablet, hm, hinfo, htype, ?_⟩
    rw [splitRange, if_neg (not_not.2 hpos), hm, htab]
    dsimp only
    rw [htype]
    dsimp only
    rw [hback, ← hcount, ← hinfos]
  · rw [if_neg hpos] at htype
    exact absurd htype (by simp)

theorem addRange_grows (reported : TabletInfo α) (pos : Nat) (version : Int) (server : Nat) :
    t.Grows room ((pos = t.metas.length ∨ t.getRangePosType reported.range pos pos = .addRange) ∧
      t.CanMove pos 1) 1 1 (t.addRange room reported pos version server) := by
  rw [addRange]
  by_cases hpos : pos = t.metas.length ∨ t.getRangePosType reported.range pos pos = .addRange
  · rw [if_pos hpos]
    by_cases hmove : t.CanMove pos 1
    · obtain ⟨t1, hback, hlength, hcount, hinfos⟩ := moveBack_of_canMove room hmove
      refine ⟨fun hn => absurd ⟨hpos, hmove⟩ hn, fun _ => ?_⟩
      rw [hback, roomFor_one, ← hinfos]
      dsimp only
      by_cases hroom : t1.infos.length < maxTabletCount ∧ room.copied 0 = true
      · rw [addInfo_of_room _ _ hroom]
        exact ⟨(length_set ..).trans hlength, hcount, iff_of_true rfl hroom⟩
      · rw [addInfo_of_not_room _ _ hroom]
        exact ⟨hlength, hcount, iff_of_false (by simp) hroom⟩
    · rw [moveBack_of_not_canMove hmove]
      exact ⟨fun _ => ⟨by simp, rfl⟩, fun hc => absurd hc.2 hmove⟩
  · rw [if_neg hpos]
    exact ⟨fun _ => ⟨by simp, rfl⟩, fun hc => absurd hc.1 hpos⟩

theorem createTable_grows (tablet : TabletInfo α) (chunkservers : List Nat) (version : Int) :
    t.Grows room (((t.findRange tablet.range).1 = .success ∨
      (t.findRange tablet.range).1 = findOutOfRange) ∧ 1 + t.metas.length < maxTabletCount) 1 1
      (t.createTable room tablet chunkservers version) := by
  rw [createTable]
  dsimp only
  by_cases hfound : (t.findRange tablet.range).1 = .success ∨
      (t.findRange tablet.range).1 = findOutOfRange
  · rw [if_pos hfound]
    generalize hp : (if (t.findRange tablet.range).1 = .success then
      if (t.findRange tablet.range).2.1 = (t.findRange tablet.range).2.2 then
        some (t.findRange tablet.range).2.1 else none
      else some t.metas.length) = place
    have hle : place.getD 0 ≤ t.metas.length := by
      rw [← hp]
      split_ifs with hsucc
      · have := findRange_success hsucc
        exact this.1.trans this.2.1.le
      · exact Nat.zero_le _
      · exact le_rfl
    by_cases hcount : 1 + t.metas.length < maxTabletCount
    · obtain ⟨t1, hback, hlength, hsorted, hinfos⟩ := moveBack_of_canMove room ⟨hcount, hle⟩
      -- with no place, the entries move as a whole
      obtain ⟨t2, ht2, hlength, hsorted, hinfos⟩ : ∃ t2,
          (if place = none then { t1 with metas := room.stray :: t.metas } else t1) = t2 ∧
          t2.metas.length = t.metas.length + 1 ∧ t2.sortedCount = t.sortedCount + 1 ∧
          t2.infos = t.infos := by
        refine ⟨_, rfl, ?_⟩
        split_ifs
        · exact ⟨rfl, hsorted, hinfos⟩
        · exact ⟨hlength, hsorted, hinfos⟩
      refine ⟨fun hn => absurd ⟨hfound, hcount⟩ hn, fun _ => ?_⟩
      rw [hback, roomFor_one, ← hinfos]
      dsimp only
      rw [ht2]
      by_cases hroom : t2.infos.length < maxTabletCount ∧ room.copied 0 = true
      · rw [addInfo_of_room _ _ hroom]
        refine ⟨?_, ?_, iff_of_true rfl hroom⟩
        · rcases place with _ | pos
          · exact hlength
          · exact (length_set ..).trans hlength
        · rcases place with _ | pos <;> exact hsorted
      · rw [addInfo_of_not_room _ _ hroom]
        exact ⟨hlength, hsorted, iff_of_false (by simp) hroom⟩
    · rw [moveBack_of_not_canMove fun hc => hcount hc.1]
      exact ⟨fun _ => ⟨by simp, rfl⟩, fun hc => absurd hc.2 hcount⟩
  · rw [if_neg hfound]
    exact ⟨fun _ => ⟨fun hc => hfound (Or.inl hc), rfl⟩, fun hc => absurd hc.1 hfound⟩

theorem splitRange_grows
    (htype : t.splitTypeAt reported.range pos = some type) (version : Int) (server : Nat) :
    t.Grows room (t.CanMove pos type.step) type.step (type.step + 1)
      (t.splitRange room reported pos version server) := by
  by_cases hmove : t.CanMove pos type.step
  · obtain ⟨m, tablet, hm, -, -, heq⟩ := splitRange_of_canMove room htype hmove version server
    refine ⟨fun hn => absurd hmove hn, fun _ => ?_⟩
    rw [heq]
    generalize hinfos : splitInfos reported tablet.range version type = infos
    have hlt : pos < t.metas.length := (List.getElem?_eq_some_iff.1 hm).1
    obtain ⟨hmetas, hcount, hok, -⟩ := addInfos_spec room infos 0
      ⟨t.metas.take pos ++ List.replicate (type.step + 1) m ++ t.metas.drop (pos + 1),
          t.sortedCount + type.step, t.infos⟩
    rw [← hinfos, length_splitInfos] at hok
    simp only [Nat.zero_add] at hok
    rw [hinfos] at hok
    split_ifs with hr
    · refine ⟨?_, hcount, iff_of_true rfl (hok.1 hr)⟩
      simp only [length_append, length_splitMetas, length_take, length_drop]
      omega
    refine ⟨?_, hcount, iff_of_false (by simp) fun hroom => hr (hok.2 hroom)⟩
    rw [hmetas]
    simp only [length_append, length_replicate, length_take, length_drop]
    omega
  · rw [splitRange_of_not_canMove fun type' htype' => ?_]
    · exact ⟨fun _ => ⟨by simp, rfl⟩, fun hc => absurd hc hmove⟩
    rw [htype] at htype'
    cases htype'
    exact hmove

/-- **An error leaves the entries as they were** exactly when no tablet info is missing room after
the entries have been moved. -/
theorem entries_same_iff (t : RootTable α) (room : Room) (reported : TabletInfo α) (pos : Nat)
    (version : Int) (server : Nat) (chunkservers : List Nat) :
    (t.SameOnError (t.splitRange room reported pos version server) ↔
      ∀ type, t.splitTypeAt reported.range pos = some type → t.CanMove pos type.step →
        t.RoomFor room (type.step + 1)) ∧
    (t.SameOnError (t.addRange room reported pos version server) ↔
      ((pos = t.metas.length ∨ t.getRangePosType reported.range pos pos = .addRange) ∧
        t.CanMove pos 1 → t.RoomFor room 1)) ∧
    (t.SameOnError (t.createTable room reported chunkservers version) ↔
      (((t.findRange reported.range).1 = .success ∨
          (t.findRange reported.range).1 = findOutOfRange) ∧
        1 + t.metas.length < maxTabletCount → t.RoomFor room 1)) := by
  refine ⟨?_, (addRange_grows reported pos version server).same_iff Nat.one_pos,
    (createTable_grows reported chunkservers version).same_iff Nat.one_pos⟩
  rcases htype : t.splitTypeAt reported.range pos with _ | type
  · rw [splitRange_of_not_canMove (by simp [htype])]
    exact iff_of_true (fun _ => rfl) (by simp)
  · rw [(splitRange_grows htype version server).same_iff (by cases type <;> decide)]
    simp

theorem not_same_of_full {version : Int} {server : Nat}
    (hfull : maxTabletCount ≤ t.infos.length) (hmove : t.CanMove t.metas.length 1) :
    ¬t.SameOnError (t.addRange room reported t.metas.length version server) := by
  rw [(addRange_grows reported _ version server).same_iff Nat.one_pos]
  intro hroom
  have := (hroom ⟨Or.inl rfl, hmove⟩ 0 Nat.one_pos).1
  omega

/-- A root table without entries whose array of tablet infos is full. -/
def fullInfos : RootTable Nat :=
  ⟨[], 0, List.replicate maxTabletCount (⟨⟨1, ⊥, ⊤, false, true⟩, 0, 0⟩, .reset)⟩

/-- Then `add_range` returns an error and leaves an entry nobody has written. -/
theorem not_same_fullInfos :
    ¬fullInfos.SameOnError (fullInfos.addRange ⟨fun _ => true, newMeta 0 [] 0, newMeta 0 [] 0⟩
      ⟨⟨1, ⊥, ⊤, false, true⟩, 0, 0⟩ fullInfos.metas.length 1 0) :=
  not_same_of_full (length_replicate ..).ge ⟨by decide, le_rfl⟩

end Errors

/-! ### Deleting tables -/

/-- The calls that change a root table. -/
inductive Call (α : Type) where
  | add (room : Room) (info : TabletInfo α) (server : Nat) (version : Int)
  | sort
  | createTable (room : Room) (tablet : TabletInfo α) (chunkservers : List Nat) (version : Int)
  | addRange (room : Room) (reported : TabletInfo α) (pos : Nat) (version : Int) (server : Nat)
  | splitRange (room : Room) (reported : TabletInfo α) (pos : Nat) (version : Int) (server : Nat)

def init (infos : List (TabletInfo α × CrcHistory)) : RootTable α := ⟨[], 0, infos⟩

section Runs

variable [LinearOrder α]

def exec (t : RootTable α) : Call α → RootTable α
  | .add room info server version => (t.add room info server version).2
  | .sort => t.sort
  | .createTable room tablet chunkservers version =>
    (t.createTable room tablet chunkservers version).2
  | .addRange room reported pos version server => (t.addRange room reported pos version server).2
  | .splitRange room reported pos version server =>
    (t.splitRange room reported pos version server).2

variable {t}

theorem exec_sortedCount_le (h : t.sortedCount ≤ t.metas.length) (c : Call α) :
    (t.exec c).sortedCount ≤ (t.exec c).metas.length := by
  have hgrows : ∀ {room moves step k r}, t.Grows room moves step k r →
      r.2.sortedCount ≤ r.2.metas.length := by
    intro room moves step k r hr
    by_cases hmoves : moves
    · obtain ⟨hlength, hcount, -⟩ := hr.2 hmoves
      omega
    · rwa [(hr.1 hmoves).2]
  cases c with
  | add room info server version =>
    rw [exec, add]
    by_cases hroom : t.infos.length < maxTabletCount ∧ room.copied 0 = true
    · rw [addInfo_of_room _ _ hroom]
      dsimp only
      split_ifs
      · rw [length_append]
        exact Nat.le_add_right_of_le h
      · exact h
    · rwa [addInfo_of_not_room _ _ hroom]
  | sort => exact (length_mergeSort _).ge
  | createTable => exact hgrows (createTable_grows ..)
  | addRange => exact hgrows (addRange_grows ..)
  | splitRange room reported pos version server =>
    rw [exec]
    rcases htype : t.splitTypeAt reported.range pos with _ | type
    · rwa [splitRange_of_not_canMove (by simp [htype])]
    · exact hgrows (splitRange_grows htype version server)

theorem foldl_sortedCount_le (h : t.sortedCount ≤ t.metas.length) (calls : List (Call α)) :
    (calls.foldl exec t).sortedCount ≤ (calls.foldl exec t).metas.length := by
  induction calls generalizing t with
  | nil => exact h
  | cons c calls ih => exact ih (exec_sortedCount_le h c)

end Runs

theorem deleteTables_eq {t : RootTable α} (ids : List Nat)
    (h : ∀ m ∈ t.metas, (t.infoOf m).isSome) :
    ∃ t', t.deleteTables ids = some t' ∧
      t'.metas = (t.metas.take t.sortedCount).filter fun m => ¬t.Deleted ids m := by
  refine ⟨_, if_pos h, ?_⟩
  dsimp only [shrink]
  rw [← map_take, filter_map]
  have hmarked : ∀ m ∈ t.metas.take t.sortedCount,
      (if t.Deleted ids m then { m with tabletInfoIndex := none } else m).tabletInfoIndex.isSome =
        decide ¬t.Deleted ids m := by
    intro m hm
    split_ifs with hdel
    · simp [hdel]
    obtain ⟨info, hinfo⟩ := Option.isSome_iff_exists.1 (h m (mem_of_mem_take hm))
    obtain ⟨i, hi, -⟩ := Option.bind_eq_some_iff.1 hinfo
    simp [hi, hdel]
  refine (congrArg (List.map _) (filter_congr hmarked)).trans ?_
  refine (map_congr_left (g := id) fun m hm => if_neg ?_).trans (map_id _)
  exact of_decide_eq_true (mem_filter.1 hm).2

/-- **`delete_tables` removes the entries of the tables and keeps every other one** exactly when
every entry has its tablet info and those behind the sorted ones are all to be deleted. -/
theorem deleteTables_keeps_iff [LinearOrder α] (infos : List (TabletInfo α × CrcHistory))
    (calls : List (Call α)) (ids : List Nat) :
    let t := calls.foldl exec (init infos)
    t.sortedCount ≤ t.metas.length ∧
    ((∃ t', t.deleteTables ids = some t' ∧ t'.metas = t.metas.filter fun m => ¬t.Deleted ids m) ↔
      (∀ m ∈ t.metas, (t.infoOf m).isSome) ∧
        ∀ m ∈ t.metas.drop t.sortedCount, t.Deleted ids m) := by
  intro t
  refine ⟨foldl_sortedCount_le (Nat.zero_le 0) calls, ?_⟩
  by_cases hinfos : ∀ m ∈ t.metas, (t.infoOf m).isSome
  · obtain ⟨t', heq, hkept⟩ := deleteTables_eq ids hinfos
    have hsplit : t.metas.filter (fun m => ¬t.Deleted ids m) =
        t'.metas ++ (t.metas.drop t.sortedCount).filter fun m => ¬t.Deleted ids m := by
      rw [hkept, ← filter_append, take_append_drop]
    simp only [heq, Option.some.injEq, exists_eq_left', hsplit]
    rw [self_eq_append_right, filter_eq_nil_iff, and_iff_right hinfos]
    simp
  · refine iff_of_false ?_ fun hc => hinfos hc.1
    rintro ⟨t', heq, -⟩
    rw [deleteTables, if_neg hinfos] at heq
    exact absurd heq (by simp)

/-- A tablet that has been added and not yet sorted is lost when no table at all is deleted. -/
theorem not_keeps_added :
    let t := exec (init ([] : List (TabletInfo Nat × CrcHistory)))
      (.add ⟨fun _ => true, newMeta 0 [] 0, newMeta 0 [] 0⟩ ⟨⟨1, ⊥, ⊤, false, true⟩, 0, 0⟩ 5 1)
    ¬∃ t', t.deleteTables [] = some t' ∧ t'.metas = t.metas.filter fun m => ¬t.Deleted [] m := by
  rintro t ⟨t', heq, hmetas⟩
  have : t'.metas = [] := by
    have := congrArg (Option.map (·.metas)) heq
    exact (Option.some.inj this).symm
  rw [this] at hmetas
  exact absurd hmetas (by decide)

end RootTable

end OceanBase.RootServer
