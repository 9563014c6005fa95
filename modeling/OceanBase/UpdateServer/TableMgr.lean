import OceanBase.Common.Define
import OceanBase.Lib.Run

/-!
# Freezing tables and replaying the freeze log (`ob_table_mgr.cpp`, `ob_sstable_mgr.h`)

The master chooses the version of each new table from its limits and logs it
(`TableMgr.tryFreezeMemtable`). Another manager follows the log (`TableMgr.replayFreezeMemtable`):
the first record it meets gives its active table a version, and drops that table when it is empty.
Each replayed freeze ends with `check_sstable_id`, which wants the first table to have the minor
version 1.

So a manager that has just been initialised refuses a log that starts behind the first freeze of a
major version, and a whole log whose first table is empty and was frozen with a minor freeze.
-/

namespace OceanBase.UpdateServer

open Lib List Prod

/-! ### Versions -/

/-- `SSTableID`, by the fields of its bits. -/
structure SSTableID where
  majorVersion : Nat
  minorVersionStart : Nat
  minorVersionEnd : Nat
  deriving DecidableEq

namespace SSTableID

def maxMinorVersion : Nat := 2 ^ 16 - 1

def startMajorVersion : Nat := 2

def startMinorVersion : Nat := 1

def zero : SSTableID := ⟨0, 0, 0⟩

/-- `OB_INVALID_ID`, all bits set. -/
def invalid : SSTableID := ⟨2 ^ 32 - 1, 2 ^ 16 - 1, 2 ^ 16 - 1⟩

/-- `get_id`: 32 bits are for the major version, 16 for each minor version. -/
def getId (major minorStart minorEnd : Nat) : SSTableID :=
  ⟨major % 2 ^ 32, minorStart % 2 ^ 16, minorEnd % 2 ^ 16⟩

def continous (id other : SSTableID) : Bool :=
  if id.majorVersion = other.majorVersion then id.minorVersionEnd + 1 = other.minorVersionStart
  else startMinorVersion = other.minorVersionStart

/-- What `compare` looks at, in its order. -/
def key (id : SSTableID) : Nat ×ₗ (Nat ×ₗ Nat) :=
  toLex (id.majorVersion, toLex (id.minorVersionStart, id.minorVersionEnd))

theorem key_injective : Function.Injective key := by
  rintro ⟨a, b, c⟩ ⟨a', b', c'⟩ h
  obtain ⟨rfl, rfl, rfl⟩ := h
  rfl

instance : LinearOrder SSTableID := LinearOrder.lift' key key_injective

theorem lt_iff {a b : SSTableID} :
    a < b ↔ a.majorVersion < b.majorVersion ∨ a.majorVersion = b.majorVersion ∧
      (a.minorVersionStart < b.minorVersionStart ∨
        a.minorVersionStart = b.minorVersionStart ∧ a.minorVersionEnd < b.minorVersionEnd) := by
  have h : a < b ↔ a.key < b.key := Iff.rfl
  rw [h, key, key, Prod.Lex.toLex_lt_toLex, Prod.Lex.toLex_lt_toLex]

theorem single_lt_single {a b c d : Nat} :
    (⟨a, b, b⟩ : SSTableID) < ⟨c, d, d⟩ ↔ a < c ∨ a = c ∧ b < d := by
  rw [lt_iff]
  dsimp only
  omega

end SSTableID

open SSTableID

/-! ### The code -/

/-- `TableItem::Stat`, as far as the active table goes. -/
inductive TableStat
  | unknow
  | active
  | freezing
  | frozen
  deriving DecidableEq

/-- A table: its version, its state, and the rows and the memory of its memory table. -/
structure TableItem where
  sstableId : SSTableID
  stat : TableStat
  size : Nat
  total : Int

/-- `OB_INVALID_ID`, as a file id. -/
def obInvalidId : Nat := 2 ^ 64 - 1

namespace TableItem

def doFreeze (item : TableItem) (clogId : Nat) : Ret :=
  if item.stat ≠ .freezing then .error
  else if clogId = obInvalidId then .invalidArgument
  else .success

end TableItem

/-- `TableMgr`. The map is the list of its versions, in the order of the tree. -/
structure TableMgr where
  inited : Bool
  sstableScanFinished : Bool
  tableMap : List SSTableID
  curMajorVersion : Nat
  curMinorVersion : Nat
  activeTableItem : TableItem
  lastMajorFreezeTime : Int
  lastClogId : Nat

/-- The log of a freeze. -/
structure FreezeRecord where
  newVersion : SSTableID
  frozenVersion : SSTableID
  clogId : Nat
  timeStamp : Int
  deriving DecidableEq

/-- What a freeze on the master is called with, and what it reads: the limits, three readings of
the clock, whether `freeze_lock_` is free, and the answer of `switch_log_file`, whose file ids are
never `OB_INVALID_ID`. -/
structure FreezeCall where
  memLimit : Int
  numLimit : Int
  minMajorFreezeInterval : Int
  now : Int
  timeStamp : Int
  freezeTime : Int
  unlocked : Bool
  switchLogFile : Except Ret Nat
  fileId_ne : ∀ fileId, switchLogFile = .ok fileId → fileId ≠ obInvalidId

namespace TableMgr

def init : TableMgr where
  inited := true
  sstableScanFinished := false
  tableMap := []
  curMajorVersion := SSTableID.startMajorVersion
  curMinorVersion := SSTableID.startMinorVersion
  activeTableItem := ⟨.zero, .active, 0, 0⟩
  lastMajorFreezeTime := 0
  lastClogId := 0

variable (m : TableMgr)

/-- `table_map_.put` without overwriting. -/
def put (id : SSTableID) : Option TableMgr :=
  if id ∈ m.tableMap then none
  else some { m with tableMap := m.tableMap.orderedInsert (· ≤ ·) id }

def fill (size : Nat) (total : Int) : TableMgr :=
  { m with activeTableItem := { m.activeTableItem with size := size, total := total } }

/-- The loop of `check_sstable_id`. -/
def checkFrom : SSTableID → List SSTableID → Bool
  | _, [] => true
  | checker, id :: ids => checker.continous id && checkFrom id ids

def checkSstableId : Ret :=
  if !m.inited then .notInit
  else if checkFrom .zero m.tableMap then .success
  else .error

/-- Whether the next version is one of a new major version. -/
def majorDue (numLimit : Int) : Bool :=
  (numLimit % 2 ^ 64).toNat < m.curMinorVersion + 1 ||
    SSTableID.maxMinorVersion < m.curMinorVersion + 1

def nextVersion (numLimit : Int) : Nat × Nat :=
  if m.majorDue numLimit then (m.curMajorVersion + 1, SSTableID.startMinorVersion)
  else (m.curMajorVersion, m.curMinorVersion + 1)

/-- `add_sstable`; a version that is there already is no error. -/
def addSstable (id : SSTableID) : TableMgr × Ret :=
  if !m.inited then (m, .notInit)
  else if id = .invalid then (m, .invalidArgument)
  else
    match m.put id with
    | none => (m, .success)
    | some m =>
      if m.sstableScanFinished then (m, .success)
      else if m.curMajorVersion < id.majorVersion then
        ({ m with
          curMajorVersion := id.majorVersion
          curMinorVersion := id.minorVersionEnd }, .success)
      else if m.curMajorVersion = id.majorVersion ∧ m.curMinorVersion < id.minorVersionEnd then
        ({ m with curMinorVersion := id.minorVersionEnd }, .success)
      else (m, .success)

/-- The manager when the dumped tables have been found, in any order. -/
def loadSstables (ids : List SSTableID) : TableMgr :=
  ids.foldl (fun m id => (m.addSstable id).1) init

/-- `sstable_scan_finished`. -/
def scanFinished (minorNumLimit : Int) : TableMgr × Ret :=
  if !m.inited then (m, .notInit)
  else if m.sstableScanFinished then (m, m.checkSstableId)
  else
    let version :=
      if m.tableMap = [] then (m.curMajorVersion, m.curMinorVersion)
      else m.nextVersion minorNumLimit
    let id := SSTableID.getId version.1 version.2 version.2
    let m := { m with activeTableItem := { m.activeTableItem with sstableId := id } }
    match m.put id with
    | none => (m, .error)
    | some m =>
      let m := { m with
        curMajorVersion := version.1
        curMinorVersion := version.2
        sstableScanFinished := true }
      (m, m.checkSstableId)

/-- `freeze_active_`, with the table that is frozen. -/
def freezeActive (newVersion : SSTableID) : TableMgr × Option TableItem :=
  if m.activeTableItem.stat ≠ .active ∧ m.activeTableItem.stat ≠ .freezing then (m, none)
  else
    let item := { m.activeTableItem with stat := .freezing }
    match m.put newVersion with
    | none => ({ m with activeTableItem := item }, none)
    | some m =>
      ({ m with
        curMajorVersion := newVersion.majorVersion
        curMinorVersion := newVersion.minorVersionEnd
        activeTableItem := ⟨newVersion, .active, 0, 0⟩ }, some item)

/-- `try_freeze_memtable`, with the record that is logged. -/
def tryFreezeMemtable (c : FreezeCall) : TableMgr × Except Ret FreezeRecord :=
  if !m.inited then (m, .error .notInit)
  else if m.activeTableItem.total < c.memLimit then (m, .error .eAgain)
  else if m.majorDue c.numLimit ∧ c.now - m.lastMajorFreezeTime < c.minMajorFreezeInterval then
    (m, .error .eAgain)
  else if !c.unlocked then (m, .error .eAgain)
  else
    match c.switchLogFile with
    | .error ret => (m, .error ret)
    | .ok clogId =>
      let frozenVersion := SSTableID.getId m.curMajorVersion m.curMinorVersion m.curMinorVersion
      let version := m.nextVersion c.numLimit
      let newVersion := SSTableID.getId version.1 version.2 version.2
      let changed := m.majorDue c.numLimit
      match m.freezeActive newVersion with
      | (m, none) => (m, .error .error)
      | (m, some item) =>
        let m := { m with lastClogId := clogId }
        match item.doFreeze clogId with
        | .success =>
          ({ m with
            lastMajorFreezeTime := if changed then c.freezeTime else m.lastMajorFreezeTime },
            .ok ⟨newVersion, frozenVersion, clogId, c.timeStamp⟩)
        | ret => (m, .error ret)

/-- The part of `replay_freeze_memtable` that meets a first record: the active table has no version
yet, and gets the frozen one. -/
def firstFreeze (frozenVersion : SSTableID) : TableMgr × Bool :=
  if m.activeTableItem.sstableId = .zero then
    match m.put frozenVersion with
    | none => ({ m with sstableScanFinished := true }, true)
    | some m =>
      ({ m with
        activeTableItem := { m.activeTableItem with sstableId := frozenVersion }
        sstableScanFinished := true }, true)
  else (m, false)

def replayFreezeMemtable (r : FreezeRecord) : TableMgr × Ret :=
  if !m.inited then (m, .notInit)
  else if r.newVersion = .invalid ∨ r.clogId = obInvalidId then (m, .invalidArgument)
  else
    let (m, isFirstFreeze) := m.firstFreeze r.frozenVersion
    match m.freezeActive r.newVersion with
    | (m, none) => (m, .error)
    | (m, some item) =>
      let m := { m with lastClogId := r.clogId }
      -- an empty table is dropped, and there is nothing left to freeze
      if item.size = 0 ∧ (item.sstableId = .zero ∨ isFirstFreeze) then
        let m := { m with tableMap := m.tableMap.erase item.sstableId }
        (m, m.checkSstableId)
      else
        match item.doFreeze r.clogId with
        | .success => (m, m.checkSstableId)
        | ret => (m, ret)

/-- A replayed record, behind `size` rows that were written to the active table; `none` when it
fails. -/
def replayStep (a : Nat × FreezeRecord) : Option TableMgr :=
  match (m.fill a.1 0).replayFreezeMemtable a.2 with
  | (m, .success) => some m
  | _ => none

end TableMgr

open TableMgr

/-- The master and the freeze records it has logged. -/
structure FreezeMaster where
  mgr : TableMgr
  log : List FreezeRecord

/-- A call of the master, behind writes that leave the active table with `size` rows in `total`
bytes. -/
def FreezeMaster.step (s : FreezeMaster) (a : Nat × Int × FreezeCall) : Option FreezeMaster :=
  match (s.mgr.fill a.1 a.2.1).tryFreezeMemtable a.2.2 with
  | (m, .ok r) => some ⟨m, s.log ++ [r]⟩
  | (m, .error _) => some ⟨m, s.log⟩

/-! ### Chains of versions -/

variable {id w v : SSTableID} {item : TableItem}

namespace SSTableID

/-- The version that a freeze makes active behind `v`. -/
def Next (v w : SSTableID) : Prop :=
  w = ⟨v.majorVersion, v.minorVersionEnd + 1, v.minorVersionEnd + 1⟩ ∨
    w = ⟨(v.majorVersion + 1) % 2 ^ 32, 1, 1⟩

theorem Next.continous (h : Next v w) : v.continous w = true := by
  unfold SSTableID.continous
  rcases h with rfl | rfl
  · rw [if_pos rfl]
    exact decide_eq_true rfl
  · rw [if_neg (by dsimp only; omega)]
    exact decide_eq_true rfl

theorem Next.ne_zero (h : Next v w) : w ≠ zero := by
  rintro rfl
  rcases h with h | h <;> simp [zero] at h

/-- The first table must have the minor version 1. -/
theorem continous_zero : zero.continous id = true ↔ id.minorVersionStart = 1 := by
  unfold continous zero startMinorVersion
  split_ifs <;> simp [eq_comm]

end SSTableID

namespace FreezeRecord

/-- The version that is active behind the records. -/
def lastVersion : SSTableID → List FreezeRecord → SSTableID
  | v, [] => v
  | _, r :: rs => lastVersion r.newVersion rs

/-- The records freeze `v`, then each the version the one before made active. -/
def Follows : SSTableID → List FreezeRecord → Prop
  | _, [] => True
  | v, r :: rs => r.frozenVersion = v ∧ v.Next r.newVersion ∧ Follows r.newVersion rs

variable {v : SSTableID} {r : FreezeRecord} {rs as bs : List FreezeRecord}

theorem lastVersion_append : lastVersion v (as ++ bs) = lastVersion (lastVersion v as) bs := by
  induction as generalizing v with
  | nil => rfl
  | cons a as ih => exact ih

theorem follows_append : Follows v (as ++ bs) ↔ Follows v as ∧ Follows (lastVersion v as) bs := by
  induction as generalizing v with
  | nil => simp [Follows, lastVersion]
  | cons a as ih => simp [Follows, lastVersion, ih, and_assoc]

theorem lastVersion_mem (v : SSTableID) (rs : List FreezeRecord) :
    lastVersion v rs ∈ v :: rs.map newVersion := by
  induction rs generalizing v with
  | nil => exact mem_cons_self
  | cons r rs ih => exact mem_cons_of_mem _ (ih r.newVersion)

theorem le_lastVersion (h : ∀ r ∈ rs, v ≤ r.newVersion) : v ≤ lastVersion v rs := by
  rcases mem_cons.1 (lastVersion_mem v rs) with hlast | hlast
  · exact le_of_eq hlast.symm
  obtain ⟨r, hr, hlast⟩ := mem_map.1 hlast
  rw [← hlast]
  exact h r hr

theorem Follows.increasing (h : Follows v rs) (hup : ∀ r ∈ rs, r.frozenVersion < r.newVersion) :
    ∀ r ∈ rs, v < r.newVersion ∧ r.newVersion ≤ lastVersion v rs := by
  induction rs generalizing v with
  | nil => simp
  | cons r rs ih =>
    obtain ⟨rfl, -, hrest⟩ := h
    have hhead := hup r mem_cons_self
    have ih := ih hrest (forall_mem_cons.1 hup).2
    intro r' hr'
    rcases mem_cons.1 hr' with rfl | hr'
    · exact ⟨hhead, le_lastVersion fun r'' hr'' => le_of_lt (ih r'' hr'').1⟩
    · exact ⟨lt_trans hhead (ih r' hr').1, (ih r' hr').2⟩

end FreezeRecord

/-! ### What the master does -/

namespace TableMgr

variable {m : TableMgr} {id : SSTableID}

theorem freezeActive_of_mem
    (hstat : m.activeTableItem.stat = .active ∨ m.activeTableItem.stat = .freezing)
    (h : id ∈ m.tableMap) :
    m.freezeActive id =
      ({ m with activeTableItem := { m.activeTableItem with stat := .freezing } }, none) := by
  have hcond : ¬ (m.activeTableItem.stat ≠ .active ∧ m.activeTableItem.stat ≠ .freezing) := by
    tauto
  simp [freezeActive, if_neg hcond, put, if_pos h]

theorem freezeActive_of_not_mem
    (hstat : m.activeTableItem.stat = .active ∨ m.activeTableItem.stat = .freezing)
    (h : id ∉ m.tableMap) :
    m.freezeActive id =
      ({ m with
        tableMap := m.tableMap.orderedInsert (· ≤ ·) id
        curMajorVersion := id.majorVersion
        curMinorVersion := id.minorVersionEnd
        activeTableItem := ⟨id, .active, 0, 0⟩ },
        some { m.activeTableItem with stat := .freezing }) := by
  have hcond : ¬ (m.activeTableItem.stat ≠ .active ∧ m.activeTableItem.stat ≠ .freezing) := by
    tauto
  simp [freezeActive, if_neg hcond, put, if_neg h]

/-- A manager that serves as a master: the active table has the current version. -/
structure Serving (m : TableMgr) : Prop where
  inited : m.inited = true
  stat : m.activeTableItem.stat = .active ∨ m.activeTableItem.stat = .freezing
  active_eq : m.activeTableItem.sstableId =
    ⟨m.curMajorVersion, m.curMinorVersion, m.curMinorVersion⟩
  major_lt : m.curMajorVersion < 2 ^ 32
  minor_pos : 1 ≤ m.curMinorVersion
  minor_lt : m.curMinorVersion < 2 ^ 16

/-- A master that starts: the active table is the last of the map. -/
structure Started (m : TableMgr) : Prop extends m.Serving where
  active_mem : m.activeTableItem.sstableId ∈ m.tableMap
  le_active : ∀ id ∈ m.tableMap, id ≤ m.activeTableItem.sstableId

/-- The id of a dumped table, within the widths of its fields. -/
structure IsDumped (id : SSTableID) : Prop where
  major_lt : id.majorVersion < 2 ^ 32
  minor_pos : 1 ≤ id.minorVersionStart
  minor_le : id.minorVersionStart ≤ id.minorVersionEnd
  minor_lt : id.minorVersionEnd < 2 ^ 16

/-- A manager that loads its tables before it serves: none is above the current version. -/
structure Loading (m : TableMgr) : Prop where
  inited : m.inited = true
  unfinished : m.sstableScanFinished = false
  stat : m.activeTableItem.stat = .active
  major_lt : m.curMajorVersion < 2 ^ 32
  minor_pos : 1 ≤ m.curMinorVersion
  minor_lt : m.curMinorVersion < 2 ^ 16
  le_cur : ∀ id ∈ m.tableMap, id.minorVersionStart ≤ id.minorVersionEnd ∧
    (id.majorVersion < m.curMajorVersion ∨
      id.majorVersion = m.curMajorVersion ∧ id.minorVersionEnd ≤ m.curMinorVersion)

theorem loading_init : init.Loading :=
  ⟨rfl, rfl, rfl, by decide, by decide, by decide, fun _ hid => nomatch hid⟩

theorem Loading.addSstable (h : m.Loading) (hid : IsDumped id) : (m.addSstable id).1.Loading := by
  have hle := hid.minor_le
  have hpos := hid.minor_pos.trans hle
  have hcur := h.le_cur
  have hinsert : ∀ i ∈ m.tableMap.orderedInsert (· ≤ ·) id, i = id ∨ i ∈ m.tableMap :=
    fun i hi => (mem_orderedInsert _).1 hi
  unfold TableMgr.addSstable put
  by_cases hmem : id ∈ m.tableMap
  · rw [if_pos hmem]
    split_ifs <;> exact h
  rw [if_neg hmem]
  dsimp only
  split_ifs with hinited hinvalid hfinished hnew hminor
  · exact h
  · exact h
  · exact absurd (hfinished.symm.trans h.unfinished) (by decide)
  · exact ⟨h.inited, h.unfinished, h.stat, hid.major_lt, hpos, hid.minor_lt, by grind⟩
  · exact ⟨h.inited, h.unfinished, h.stat, h.major_lt, hpos, hid.minor_lt, by grind⟩
  · exact { h with le_cur := by grind }

theorem loading_loadSstables {ids : List SSTableID} (hids : ∀ id ∈ ids, IsDumped id) :
    (loadSstables ids).Loading :=
  foldlRecOn ids _ loading_init fun _ h id hid => h.addSstable (hids id hid)

/-- A table that is found enters the map, unless its id is invalid. -/
theorem mem_addSstable (hinited : m.inited = true) {i : SSTableID} :
    i ∈ (m.addSstable id).1.tableMap ↔ i ∈ m.tableMap ∨ (i = id ∧ i ≠ .invalid) := by
  by_cases hinvalid : id = .invalid
  · have hsame : m.addSstable id = (m, .invalidArgument) := by
      simp [TableMgr.addSstable, hinited, hinvalid]
    rw [hsame, or_iff_left fun h => h.2 (h.1.trans hinvalid)]
  have hadd : i = id ∧ i ≠ .invalid ↔ i = id :=
    and_iff_left_of_imp fun h hi => hinvalid (h ▸ hi)
  rw [hadd]
  unfold TableMgr.addSstable put
  rw [if_neg (by simp [hinited]), if_neg hinvalid]
  by_cases hmem : id ∈ m.tableMap
  · rw [if_pos hmem, or_iff_left_of_imp fun h => h ▸ hmem]
  · rw [if_neg hmem, or_comm, ← mem_orderedInsert (· ≤ ·)]
    dsimp only
    split_ifs <;> rfl

/-- When the tables have been found, the map has just these. -/
theorem mem_loadSstables {ids : List SSTableID} (hids : ∀ id ∈ ids, IsDumped id) {i : SSTableID} :
    i ∈ (loadSstables ids).tableMap ↔ i ∈ ids ∧ i ≠ .invalid := by
  induction ids using List.reverseRecOn with
  | nil => simp [loadSstables, init]
  | append_singleton ids id ih =>
    have hbefore : ∀ id ∈ ids, IsDumped id := fun id hid => hids id (mem_append_left _ hid)
    have hload : loadSstables (ids ++ [id]) = ((loadSstables ids).addSstable id).1 := by
      simp [loadSstables]
    rw [hload, mem_addSstable (loading_loadSstables hbefore).inited, ih hbefore, mem_append,
      mem_singleton, or_and_right]

/-- When the tables are loaded, the master starts behind them, with one version more in its map. -/
theorem Loading.started_scanFinished (h : m.Loading) {minorNumLimit : Int}
    (hmajor : (m.nextVersion minorNumLimit).1 < 2 ^ 32) :
    (m.scanFinished minorNumLimit).1.Started ∧
      ∀ id, id ∈ (m.scanFinished minorNumLimit).1.tableMap ↔
        id ∈ m.tableMap ∨ id = (m.scanFinished minorNumLimit).1.activeTableItem.sstableId := by
  have hcur := h.le_cur
  -- the version the active table gets
  obtain ⟨major, minor, hversion, hlt, hpos, hlt', habove⟩ : ∃ major minor,
      (if m.tableMap = [] then (m.curMajorVersion, m.curMinorVersion)
        else m.nextVersion minorNumLimit) = (major, minor) ∧ major < 2 ^ 32 ∧ 1 ≤ minor ∧
      minor < 2 ^ 16 ∧ ∀ id ∈ m.tableMap, id < ⟨major, minor, minor⟩ := by
    by_cases hempty : m.tableMap = []
    · refine ⟨_, _, if_pos hempty, h.major_lt, h.minor_pos, h.minor_lt, ?_⟩
      simp [hempty]
    unfold nextVersion at hmajor ⊢
    split_ifs at hmajor ⊢ with hdue
    · refine ⟨_, _, rfl, hmajor, le_refl _, by decide, fun i hi => lt_iff.2 ?_⟩
      have := hcur i hi
      dsimp only
      omega
    have hmax : maxMinorVersion = 65535 := rfl
    simp only [majorDue, Bool.or_eq_true, decide_eq_true_eq] at hdue
    refine ⟨_, _, rfl, hmajor, by omega, by omega, fun i hi => lt_iff.2 ?_⟩
    have := hcur i hi
    dsimp only
    omega
  have hid : getId major minor minor = ⟨major, minor, minor⟩ := by
    rw [getId, Nat.mod_eq_of_lt hlt, Nat.mod_eq_of_lt hlt']
  have hnew : (⟨major, minor, minor⟩ : SSTableID) ∉ m.tableMap :=
    fun hin => lt_irrefl _ (habove _ hin)
  unfold scanFinished
  rw [if_neg (by simp [h.inited]), if_neg (by simp [h.unfinished]), hversion]
  simp only [hid, put, if_neg hnew]
  refine ⟨⟨⟨h.inited, .inl h.stat, rfl, hlt, hpos, hlt'⟩, ?_, fun i hi => ?_⟩,
    fun i => (mem_orderedInsert _).trans or_comm⟩
  · exact (mem_orderedInsert _).2 (.inl rfl)
  rcases (mem_orderedInsert _).1 hi with rfl | hi
  · exact le_refl _
  · exact le_of_lt (habove i hi)

theorem Serving.fill (h : m.Serving) (size : Nat) (total : Int) : (m.fill size total).Serving :=
  ⟨h.inited, h.stat, h.active_eq, h.major_lt, h.minor_pos, h.minor_lt⟩

theorem Serving.nextVersion_spec (h : m.Serving) (numLimit : Int) :
    ∃ major minor, getId (m.nextVersion numLimit).1 (m.nextVersion numLimit).2
        (m.nextVersion numLimit).2 = ⟨major, minor, minor⟩ ∧
      m.activeTableItem.sstableId.Next ⟨major, minor, minor⟩ ∧
      major < 2 ^ 32 ∧ 1 ≤ minor ∧ minor < 2 ^ 16 := by
  have hmajor := h.major_lt
  unfold nextVersion
  split_ifs with hdue
  · exact ⟨(m.curMajorVersion + 1) % 2 ^ 32, 1, rfl, .inr (by rw [h.active_eq]),
      Nat.mod_lt _ (by decide), le_refl _, by decide⟩
  have hmax : maxMinorVersion = 65535 := rfl
  simp only [majorDue, Bool.or_eq_true, decide_eq_true_eq] at hdue
  refine ⟨m.curMajorVersion, m.curMinorVersion + 1, ?_, .inl (by rw [h.active_eq]), hmajor, ?_, ?_⟩
  · rw [getId, Nat.mod_eq_of_lt hmajor, Nat.mod_eq_of_lt (by omega)]
  all_goals omega

/-- What a call of a serving master does: nothing that shows, or the next version. -/
theorem Serving.tryFreezeMemtable_cases (h : m.Serving) (c : FreezeCall) :
    (∃ item ret, m.tryFreezeMemtable c = ({ m with activeTableItem := item }, .error ret) ∧
      item.sstableId = m.activeTableItem.sstableId ∧
      (item.stat = .active ∨ item.stat = .freezing)) ∨
    ∃ m' r, m.tryFreezeMemtable c = (m', .ok r) ∧ m'.Serving ∧
      r.frozenVersion = m.activeTableItem.sstableId ∧
      m.activeTableItem.sstableId.Next r.newVersion ∧ r.newVersion ∉ m.tableMap ∧
      r.clogId ≠ obInvalidId ∧ m'.activeTableItem.sstableId = r.newVersion ∧
      m'.tableMap = m.tableMap.orderedInsert (· ≤ ·) r.newVersion := by
  have hsame : ∀ ret, ∃ item ret',
      ((m, .error ret) : TableMgr × Except Ret FreezeRecord) =
        ({ m with activeTableItem := item }, .error ret') ∧
      item.sstableId = m.activeTableItem.sstableId ∧
      (item.stat = .active ∨ item.stat = .freezing) :=
    fun ret => ⟨m.activeTableItem, ret, rfl, rfl, h.stat⟩
  unfold tryFreezeMemtable
  split_ifs
  · exact .inl (hsame _)
  · exact .inl (hsame _)
  · exact .inl (hsame _)
  · exact .inl (hsame _)
  cases hswitch : c.switchLogFile with
  | error ret => exact .inl (hsame ret)
  | ok clogId =>
  obtain ⟨major, minor, hnew, hnext, hmajor, hpos, hlt⟩ := h.nextVersion_spec c.numLimit
  have hclog := c.fileId_ne clogId hswitch
  simp only [hnew]
  by_cases hmem : (⟨major, minor, minor⟩ : SSTableID) ∈ m.tableMap
  · left
    simp only [freezeActive_of_mem h.stat hmem]
    exact ⟨_, _, rfl, rfl, .inr rfl⟩
  right
  have hfreeze : TableItem.doFreeze { m.activeTableItem with stat := .freezing } clogId =
      .success := by
    simp [TableItem.doFreeze, hclog]
  simp only [freezeActive_of_not_mem h.stat hmem, hfreeze]
  refine ⟨_, _, rfl, ⟨h.inited, .inl rfl, rfl, hmajor, hpos, hlt⟩, ?_, hnext, hmem, hclog, rfl, rfl⟩
  rw [h.active_eq, getId, Nat.mod_eq_of_lt h.major_lt, Nat.mod_eq_of_lt h.minor_lt]

end TableMgr

namespace FreezeMaster

open FreezeRecord

/-- What holds on a master that started as `m₀`. Either its versions went up all the time, or the
major version has wrapped around and its versions come up again from below. -/
structure Inv (m₀ : TableMgr) (s : FreezeMaster) : Prop where
  serving : s.mgr.Serving
  follows : Follows m₀.activeTableItem.sstableId s.log
  active_eq : s.mgr.activeTableItem.sstableId = lastVersion m₀.activeTableItem.sstableId s.log
  mem_iff : ∀ id, id ∈ s.mgr.tableMap ↔ id ∈ m₀.tableMap ∨ id ∈ s.log.map newVersion
  new : ∀ r ∈ s.log, r.newVersion ∉ m₀.tableMap
  clogId_ne : ∀ r ∈ s.log, r.clogId ≠ obInvalidId
  majors : ∀ major, m₀.curMajorVersion < major → major ≤ s.mgr.curMajorVersion →
    (∀ r ∈ s.log, r.frozenVersion < r.newVersion) → ⟨major, 1, 1⟩ ∈ s.mgr.tableMap
  wrapped : (∃ r ∈ s.log, ¬ r.frozenVersion < r.newVersion) →
    (∀ major, m₀.curMajorVersion < major → major < 2 ^ 32 → ⟨major, 1, 1⟩ ∈ s.mgr.tableMap) ∧
    ⟨0, 1, 1⟩ ∈ s.mgr.tableMap ∧
    ∃ as bs, s.log = as ++ bs ∧ bs ≠ [] ∧
      (∀ r ∈ as, m₀.activeTableItem.sstableId < r.newVersion) ∧
      ∀ r ∈ bs, r.newVersion < m₀.activeTableItem.sstableId

variable {m₀ m : TableMgr} {s s' : FreezeMaster}

theorem inv_start (h : m₀.Started) : Inv m₀ ⟨m₀, []⟩ := by
  refine ⟨h.toServing, trivial, rfl, ?_, ?_, ?_, ?_, ?_⟩
  · simp
  · simp
  · simp
  · intro major hlt hle
    dsimp only at hle
    omega
  · simp

/-- A version below the first one is followed by one below it, as long as no version is taken
twice. -/
theorem next_lt_start (h : m₀.Started) {map : List SSTableID}
    (hmap : ∀ id ∈ m₀.tableMap, id ∈ map) (hv : v.minorVersionStart = v.minorVersionEnd)
    (hlt : v < m₀.activeTableItem.sstableId) (hnext : v.Next w) (hnew : w ∉ map)
    (hmajors : ∀ major, m₀.curMajorVersion < major → major < 2 ^ 32 → ⟨major, 1, 1⟩ ∈ map)
    (hzero : ⟨0, 1, 1⟩ ∈ map) : w < m₀.activeTableItem.sstableId := by
  have hne : w ≠ m₀.activeTableItem.sstableId := fun heq => hnew (heq ▸ hmap _ h.active_mem)
  obtain ⟨major, minor, minorEnd⟩ := v
  obtain rfl : minor = minorEnd := hv
  have hpos := h.minor_pos
  have hmajor := h.major_lt
  rw [h.active_eq] at hlt hne ⊢
  rw [SSTableID.single_lt_single] at hlt
  rcases hnext with rfl | rfl
  · simp only [ne_eq, SSTableID.mk.injEq] at hne
    rw [SSTableID.single_lt_single]
    dsimp only
    omega
  -- a new major version: all those above the first one are taken
  by_cases hsucc : major + 1 < 2 ^ 32
  · rw [Nat.mod_eq_of_lt hsucc] at hnew hne ⊢
    have hle : ¬ m₀.curMajorVersion < major + 1 := fun hlt' => hnew (hmajors _ hlt' hsucc)
    simp only [ne_eq, SSTableID.mk.injEq] at hne
    rw [SSTableID.single_lt_single]
    omega
  · have hwrap : (major + 1) % 2 ^ 32 = 0 := by omega
    rw [hwrap] at hnew
    exact absurd hzero hnew

theorem Inv.of_fail (h : Inv m₀ s) {size : Nat} {total : Int}
    (hid : item.sstableId = s.mgr.activeTableItem.sstableId)
    (hstat : item.stat = .active ∨ item.stat = .freezing) :
    Inv m₀ ⟨{ s.mgr.fill size total with activeTableItem := item }, s.log⟩ :=
  { h with
    serving := ⟨h.serving.inited, hstat, hid.trans h.serving.active_eq, h.serving.major_lt,
      h.serving.minor_pos, h.serving.minor_lt⟩
    active_eq := hid.trans h.active_eq }

/-- The next version is above the active one, unless it is the first of all. -/
theorem lt_next_or_wrapped (h : m.Serving) (hnext : m.activeTableItem.sstableId.Next w) :
    m.activeTableItem.sstableId < w ∨ m.curMajorVersion = 2 ^ 32 - 1 ∧ w = ⟨0, 1, 1⟩ := by
  have hmajor := h.major_lt
  rw [h.active_eq] at hnext ⊢
  rcases hnext with rfl | rfl
  · left
    rw [single_lt_single]
    exact .inr ⟨rfl, Nat.lt_succ_self _⟩
  dsimp only
  by_cases hsucc : m.curMajorVersion + 1 < 2 ^ 32
  · left
    rw [Nat.mod_eq_of_lt hsucc, single_lt_single]
    exact .inl (Nat.lt_succ_self _)
  right
  have hlast : m.curMajorVersion = 2 ^ 32 - 1 := by omega
  rw [hlast]
  exact ⟨rfl, rfl⟩

theorem exists_lastVersion_eq (v : SSTableID) (as : List FreezeRecord) {bs : List FreezeRecord}
    (h : bs ≠ []) : ∃ r ∈ bs, lastVersion v (as ++ bs) = r.newVersion := by
  obtain ⟨bs, r, rfl⟩ := (eq_nil_or_concat' bs).resolve_left h
  refine ⟨r, mem_append_right _ mem_cons_self, ?_⟩
  rw [lastVersion_append, lastVersion_append]
  rfl

theorem Inv.of_freeze (h₀ : m₀.Started) (h : Inv m₀ s) {r : FreezeRecord}
    (hserving : m.Serving) (hfrozen : r.frozenVersion = s.mgr.activeTableItem.sstableId)
    (hnext : s.mgr.activeTableItem.sstableId.Next r.newVersion)
    (hnew : r.newVersion ∉ s.mgr.tableMap) (hclog : r.clogId ≠ obInvalidId)
    (hactive : m.activeTableItem.sstableId = r.newVersion)
    (hmap : m.tableMap = s.mgr.tableMap.orderedInsert (· ≤ ·) r.newVersion) :
    Inv m₀ ⟨m, s.log ++ [r]⟩ := by
  have hmem : ∀ id, id ∈ m.tableMap ↔ id = r.newVersion ∨ id ∈ s.mgr.tableMap := by
    intro id
    rw [hmap, mem_orderedInsert]
  have hold : ∀ id ∈ m₀.tableMap, id ∈ s.mgr.tableMap := fun id hid => (h.mem_iff id).2 (.inl hid)
  have hcur : m.curMajorVersion = r.newVersion.majorVersion := by
    rw [← hactive, hserving.active_eq]
  have hactive₀ := h.serving.active_eq
  refine ⟨hserving, ?_, ?_, ?_, ?_, ?_, ?_, ?_⟩
  · rw [follows_append]
    exact ⟨h.follows, hfrozen.trans h.active_eq, h.active_eq ▸ hnext, trivial⟩
  · rwa [lastVersion_append]
  · intro id
    rw [hmem, h.mem_iff, map_append, mem_append, map_singleton, mem_singleton]
    tauto
  · exact forall_mem_append.2 ⟨h.new, forall_mem_singleton.2 fun hin => hnew (hold _ hin)⟩
  · exact forall_mem_append.2 ⟨h.clogId_ne, forall_mem_singleton.2 hclog⟩
  · intro major hlt hle hup
    obtain ⟨hupLog, hupNew⟩ := forall_mem_append.1 hup
    by_cases hle' : major ≤ s.mgr.curMajorVersion
    · exact (hmem _).2 (.inr (h.majors major hlt hle' hupLog))
    -- the new version is the first one of its major version
    have hupNew := hupNew r mem_cons_self
    rw [hactive₀] at hnext
    rw [hcur] at hle
    refine (hmem _).2 (.inl ?_)
    rcases hnext with hminor | hmajor
    · rw [hminor] at hle
      exact absurd hle hle'
    rw [hmajor] at hle hupNew ⊢
    dsimp only at hle hupNew ⊢
    congr 1
    omega
  · rintro ⟨r', hr', hdown⟩
    by_cases hlog : ∃ r' ∈ s.log, ¬ r'.frozenVersion < r'.newVersion
    · obtain ⟨hmajors, hzero, as, bs, heq, hne, has, hbs⟩ := h.wrapped hlog
      refine ⟨fun major hlt hlt' => (hmem _).2 (.inr (hmajors major hlt hlt')),
        (hmem _).2 (.inr hzero), as, bs ++ [r], ?_, by simp, has, ?_⟩
      · rw [heq, append_assoc]
      obtain ⟨last, hlast, hlastEq⟩ :=
        exists_lastVersion_eq m₀.activeTableItem.sstableId as hne
      have hlt : s.mgr.activeTableItem.sstableId < m₀.activeTableItem.sstableId := by
        rw [h.active_eq, heq, hlastEq]
        exact hbs last hlast
      have hdiag : s.mgr.activeTableItem.sstableId.minorVersionStart =
          s.mgr.activeTableItem.sstableId.minorVersionEnd := by rw [hactive₀]
      exact forall_mem_append.2 ⟨hbs, forall_mem_singleton.2
        (next_lt_start h₀ hold hdiag hlt hnext hnew hmajors hzero)⟩
    · -- this is the freeze that wraps around
      have hup : ∀ r' ∈ s.log, r'.frozenVersion < r'.newVersion := by
        intro r'' hr''
        by_contra hnot
        exact hlog ⟨r'', hr'', hnot⟩
      rcases mem_append.1 hr' with hr' | hr'
      · exact absurd (hup r' hr') hdown
      rw [mem_singleton.1 hr', hfrozen] at hdown
      obtain ⟨hlast, hzero⟩ := (lt_next_or_wrapped h.serving hnext).resolve_left hdown
      refine ⟨fun major hlt hlt' => (hmem _).2 (.inr (h.majors major hlt (by omega) hup)),
        (hmem _).2 (.inl hzero.symm), s.log, [r], rfl, by simp, fun r'' hr'' => ?_,
        fun r'' hr'' => ?_⟩
      · exact (h.follows.increasing hup r'' hr'').1
      rw [mem_singleton.1 hr'', hzero]
      have hne : (⟨0, 1, 1⟩ : SSTableID) ≠ m₀.activeTableItem.sstableId :=
        fun heq => hnew (hzero ▸ heq ▸ hold _ h₀.active_mem)
      have hpos := h₀.minor_pos
      rw [h₀.active_eq] at hne ⊢
      simp only [ne_eq, SSTableID.mk.injEq] at hne
      rw [SSTableID.single_lt_single]
      omega

theorem Inv.step (h₀ : m₀.Started) {a : Nat × Int × FreezeCall} (h : Inv m₀ s)
    (hstep : s.step a = some s') : Inv m₀ s' := by
  unfold FreezeMaster.step at hstep
  rcases (h.serving.fill a.1 a.2.1).tryFreezeMemtable_cases a.2.2 with
    ⟨item, ret, hcall, hid, hstat⟩ |
      ⟨m, r, hcall, hserving, hfrozen, hnext, hnew, hclog, hactive, hmap⟩
  · rw [hcall] at hstep
    cases hstep
    exact h.of_fail hid hstat
  rw [hcall] at hstep
  cases hstep
  exact h.of_freeze h₀ hserving hfrozen hnext hnew hclog hactive hmap

end FreezeMaster

open FreezeMaster

/-! ### What the replaying manager does -/

namespace TableMgr

open FreezeRecord

variable {ids : List SSTableID}

theorem orderedInsert_of_forall_lt
    (h : ∀ i ∈ ids, i < id) : ids.orderedInsert (· ≤ ·) id = ids ++ [id] := by
  induction ids with
  | nil => rfl
  | cons i ids ih =>
    rw [orderedInsert_cons, if_neg (not_le.2 (h i mem_cons_self)),
      ih fun j hj => h j (mem_cons_of_mem _ hj)]
    rfl

theorem checkFrom_concat {checker last : SSTableID} :
    checkFrom checker (ids ++ [last] ++ [id]) =
      (checkFrom checker (ids ++ [last]) && last.continous id) := by
  induction ids generalizing checker with
  | nil => simp [checkFrom]
  | cons i ids ih =>
    simp only [cons_append, checkFrom]
    rw [ih, Bool.and_assoc]

/-- The manager is ready to replay a freeze. -/
structure Replaying (m : TableMgr) : Prop where
  inited : m.inited = true
  stat : m.activeTableItem.stat = .active
  ne_zero : m.activeTableItem.sstableId ≠ .zero
  major_eq : m.curMajorVersion = m.activeTableItem.sstableId.majorVersion
  minor_eq : m.curMinorVersion = m.activeTableItem.sstableId.minorVersionEnd

variable {m m' : TableMgr} {size : Nat} {r : FreezeRecord} {rest : List (Nat × FreezeRecord)}

/-- What a replayed record makes of the manager, with the new tables. -/
def replayed (m : TableMgr) (r : FreezeRecord) (tableMap : List SSTableID) : TableMgr :=
  { m with
    tableMap := tableMap
    curMajorVersion := r.newVersion.majorVersion
    curMinorVersion := r.newVersion.minorVersionEnd
    activeTableItem := ⟨r.newVersion, .active, 0, 0⟩
    lastClogId := r.clogId }

theorem checkSstableId_eq_success (h : m.inited = true) :
    m.checkSstableId = .success ↔ checkFrom .zero m.tableMap = true := by
  simp [checkSstableId, h]

theorem doFreeze_eq_success {clogId : Nat} (hstat : item.stat = .freezing)
    (hclog : clogId ≠ obInvalidId) : item.doFreeze clogId = .success := by
  simp [TableItem.doFreeze, hstat, hclog]

theorem replayStep_of_checked {m₁ : TableMgr}
    (h : (m.fill size 0).replayFreezeMemtable r = (m₁, m₁.checkSstableId))
    (hinited : m₁.inited = true) :
    m.replayStep (size, r) = some m' ↔ checkFrom .zero m₁.tableMap = true ∧ m' = m₁ := by
  unfold replayStep
  rw [h, ← checkSstableId_eq_success hinited]
  cases m₁.checkSstableId <;> simp [eq_comm]

/-- A record behind the first one succeeds when its version is a new one and the tables pass the
check. -/
theorem Replaying.replayStep_iff (h : m.Replaying) (hclog : r.clogId ≠ obInvalidId) :
    m.replayStep (size, r) = some m' ↔
      r.newVersion ≠ .invalid ∧ r.newVersion ∉ m.tableMap ∧
      checkFrom .zero (m.tableMap.orderedInsert (· ≤ ·) r.newVersion) = true ∧
      m' = m.replayed r (m.tableMap.orderedInsert (· ≤ ·) r.newVersion) := by
  have hinited : (m.fill size 0).inited = true := h.inited
  by_cases hinvalid : r.newVersion = .invalid
  · simp [replayStep, replayFreezeMemtable, hinited, hinvalid]
  have hparam : ¬ (r.newVersion = .invalid ∨ r.clogId = obInvalidId) := by tauto
  have hfirst : (m.fill size 0).firstFreeze r.frozenVersion = (m.fill size 0, false) :=
    if_neg h.ne_zero
  have hstat : (m.fill size 0).activeTableItem.stat = .active ∨
      (m.fill size 0).activeTableItem.stat = .freezing := .inl h.stat
  by_cases hmem : r.newVersion ∈ m.tableMap
  · have hfreeze :=
      freezeActive_of_mem hstat (show r.newVersion ∈ (m.fill size 0).tableMap from hmem)
    simp [replayStep, replayFreezeMemtable, hinited, hparam, hfirst, hfreeze, hmem]
  have hfreeze :=
    freezeActive_of_not_mem hstat (show r.newVersion ∉ (m.fill size 0).tableMap from hmem)
  have hreplay : (m.fill size 0).replayFreezeMemtable r =
      (m.replayed r (m.tableMap.orderedInsert (· ≤ ·) r.newVersion),
        (m.replayed r (m.tableMap.orderedInsert (· ≤ ·) r.newVersion)).checkSstableId) := by
    unfold replayFreezeMemtable
    rw [if_neg (by simp [hinited]), if_neg hparam, hfirst]
    dsimp only
    rw [hfreeze]
    dsimp only
    rw [if_neg (by rintro ⟨-, hzero | hzero⟩; exacts [h.ne_zero hzero, nomatch hzero]),
      doFreeze_eq_success rfl hclog]
    rfl
  rw [replayStep_of_checked hreplay h.inited]
  exact ⟨fun ⟨hcheck, heq⟩ => ⟨hinvalid, hmem, hcheck, heq⟩,
    fun ⟨_, _, hcheck, heq⟩ => ⟨hcheck, heq⟩⟩

/-- The tables behind the first record: the first one is dropped when it is empty. -/
def firstTables (size : Nat) (r : FreezeRecord) : List SSTableID :=
  if size = 0 then [r.newVersion] else [r.frozenVersion].orderedInsert (· ≤ ·) r.newVersion

theorem replayStep_init_iff (hclog : r.clogId ≠ obInvalidId) :
    init.replayStep (size, r) = some m' ↔
      r.newVersion ≠ .invalid ∧ r.newVersion ≠ r.frozenVersion ∧
      checkFrom .zero (firstTables size r) = true ∧
      m' = { init with sstableScanFinished := true }.replayed r (firstTables size r) := by
  by_cases hinvalid : r.newVersion = .invalid
  · simp [replayStep, replayFreezeMemtable, fill, init, hinvalid]
  have hparam : ¬ (r.newVersion = .invalid ∨ r.clogId = obInvalidId) := by tauto
  have hinited : (init.fill size 0).inited = true := rfl
  -- the active table is put under the frozen version
  obtain ⟨m₁, hm₁⟩ : ∃ m₁ : TableMgr, m₁ = { init with
      sstableScanFinished := true
      tableMap := [r.frozenVersion]
      activeTableItem := ⟨r.frozenVersion, .active, size, 0⟩ } := ⟨_, rfl⟩
  have hfirst : (init.fill size 0).firstFreeze r.frozenVersion = (m₁, true) := by
    rw [hm₁]
    rfl
  have hstat : m₁.activeTableItem.stat = .active ∨ m₁.activeTableItem.stat = .freezing := by
    rw [hm₁]
    exact .inl rfl
  by_cases hne : r.newVersion = r.frozenVersion
  · have hmem : r.newVersion ∈ m₁.tableMap := by
      rw [hm₁, hne]
      exact mem_cons_self
    have hfreeze := freezeActive_of_mem hstat hmem
    rw [replayStep, replayFreezeMemtable, if_neg (by simp [hinited]), if_neg hparam, hfirst]
    dsimp only
    rw [hfreeze]
    simp [hne]
  have hmem : r.newVersion ∉ m₁.tableMap := by
    rw [hm₁]
    exact fun hin => hne (mem_singleton.1 hin)
  have hfreeze := freezeActive_of_not_mem hstat hmem
  have hreplay : (init.fill size 0).replayFreezeMemtable r =
      ({ init with sstableScanFinished := true }.replayed r (firstTables size r),
        ({ init with sstableScanFinished := true }.replayed r
          (firstTables size r)).checkSstableId) := by
    unfold replayFreezeMemtable
    rw [if_neg (by simp [hinited]), if_neg hparam, hfirst]
    dsimp only
    rw [hfreeze]
    dsimp only
    by_cases hsize : size = 0
    · have herase : ([r.frozenVersion].orderedInsert (· ≤ ·) r.newVersion).erase r.frozenVersion =
          [r.newVersion] := by
        simp only [orderedInsert_cons]
        split_ifs <;> simp [hne]
      rw [if_pos (by rw [hm₁]; exact ⟨hsize, .inr rfl⟩), hm₁]
      rw [herase, firstTables, if_pos hsize]
      rfl
    · rw [if_neg (by rw [hm₁]; exact fun hcond => hsize hcond.1), doFreeze_eq_success rfl hclog,
        hm₁, firstTables, if_neg hsize]
      rfl
  rw [replayStep_of_checked hreplay rfl]
  exact ⟨fun ⟨hcheck, heq⟩ => ⟨hinvalid, hne, hcheck, heq⟩,
    fun ⟨_, _, hcheck, heq⟩ => ⟨hcheck, heq⟩⟩

theorem Replaying.replayed (h : m.inited = true) (tableMap : List SSTableID)
    (hnew : r.newVersion ≠ .zero) : (m.replayed r tableMap).Replaying :=
  ⟨h, rfl, hnew, rfl, rfl⟩

/-- A run of records behind the first one adds their versions. -/
theorem Replaying.of_run (h : m.Replaying)
    (hfollows : Follows m.activeTableItem.sstableId (rest.map snd))
    (hclog : ∀ r ∈ rest.map snd, r.clogId ≠ obInvalidId)
    (hrun : run replayStep m rest = some m') :
    (∀ id, id ∈ m'.tableMap ↔ id ∈ m.tableMap ∨ id ∈ (rest.map snd).map newVersion) ∧
      ∀ r ∈ rest.map snd, r.newVersion ≠ .invalid := by
  induction rest generalizing m with
  | nil =>
    cases hrun
    simp
  | cons a rest ih =>
    obtain ⟨size, r⟩ := a
    obtain ⟨m₁, hstep, hrun⟩ := (run_cons_eq_some _).1 hrun
    obtain ⟨-, hnext, hrest⟩ := hfollows
    rw [h.replayStep_iff (hclog r mem_cons_self)] at hstep
    obtain ⟨hvalid, -, -, rfl⟩ := hstep
    obtain ⟨hmem, hvalids⟩ := ih (.replayed h.inited _ hnext.ne_zero) hrest
      (forall_mem_cons.1 hclog).2 hrun
    constructor
    · intro id
      rw [hmem]
      simp only [TableMgr.replayed, mem_orderedInsert, map_cons, mem_cons]
      tauto
    exact forall_mem_cons.2 ⟨hvalid, hvalids⟩

theorem Replaying.exists_run (h : m.Replaying)
    (hmap : m.tableMap = ids ++ [m.activeTableItem.sstableId])
    (hlt : ∀ id ∈ ids, id < m.activeTableItem.sstableId)
    (hcheck : checkFrom .zero m.tableMap = true)
    (hfollows : Follows m.activeTableItem.sstableId (rest.map snd))
    (hup : ∀ r ∈ rest.map snd, r.frozenVersion < r.newVersion)
    (hclog : ∀ r ∈ rest.map snd, r.clogId ≠ obInvalidId)
    (hvalid : ∀ r ∈ rest.map snd, r.newVersion ≠ .invalid) :
    ∃ m', run replayStep m rest = some m' ∧ m'.Replaying ∧
      m'.activeTableItem.sstableId = lastVersion m.activeTableItem.sstableId (rest.map snd) := by
  induction rest generalizing m ids with
  | nil => exact ⟨m, rfl, h, rfl⟩
  | cons a rest ih =>
    obtain ⟨size, r⟩ := a
    obtain ⟨hfrozen, hnext, hrest⟩ := hfollows
    have hnew : m.activeTableItem.sstableId < r.newVersion := by
      rw [← hfrozen]
      exact hup r mem_cons_self
    have hall : ∀ id ∈ m.tableMap, id < r.newVersion := by
      rw [hmap]
      exact forall_mem_append.2
        ⟨fun id hid => lt_trans (hlt id hid) hnew, forall_mem_singleton.2 hnew⟩
    have hinsert := orderedInsert_of_forall_lt hall
    have hcheck' : checkFrom .zero (m.tableMap.orderedInsert (· ≤ ·) r.newVersion) = true := by
      rw [hinsert, hmap, checkFrom_concat, ← hmap, hcheck, hnext.continous]
      rfl
    have hstep : m.replayStep (size, r) = some _ := (h.replayStep_iff (hclog r mem_cons_self)).2
      ⟨hvalid r mem_cons_self, fun hin => lt_irrefl _ (hall _ hin), hcheck', rfl⟩
    obtain ⟨m', hrun, hlast⟩ := ih (.replayed h.inited _ hnext.ne_zero) hinsert hall hcheck' hrest
      (forall_mem_cons.1 hup).2
      (forall_mem_cons.1 hclog).2
      (forall_mem_cons.1 hvalid).2
    exact ⟨m', (run_cons_eq_some _).2 ⟨_, hstep, hrun⟩, hlast⟩

theorem mem_firstTables :
    id ∈ firstTables size r ↔ id = r.newVersion ∨ id = r.frozenVersion ∧ size ≠ 0 := by
  unfold firstTables
  split_ifs with hsize
  · simp [hsize]
  · rw [mem_orderedInsert, mem_singleton]
    exact or_congr_right (and_iff_left hsize).symm

/-- The tables of the first record pass the check when the first one kept is the first of its major
version. -/
theorem checkFrom_firstTables (hup : r.frozenVersion < r.newVersion)
    (hnext : r.frozenVersion.Next r.newVersion) :
    checkFrom .zero (firstTables size r) = true ↔
      (if size = 0 then r.newVersion else r.frozenVersion).minorVersionStart = 1 := by
  unfold firstTables
  split_ifs with hsize
  · rw [checkFrom, checkFrom, Bool.and_true, continous_zero]
  · rw [orderedInsert_of_forall_lt (by simpa using hup), singleton_append, checkFrom, checkFrom,
      checkFrom, hnext.continous, Bool.and_true, Bool.and_true, continous_zero]

end TableMgr

/-! ### Both managers -/

open FreezeRecord

/-- The replaying manager has the active version of the master, and from the first frozen version on
its tables, except that the first one may be absent when it is empty. -/
structure Agrees (master m : TableMgr) (first : SSTableID) (size : Nat) : Prop where
  active_eq : m.activeTableItem.sstableId = master.activeTableItem.sstableId
  major_eq : m.curMajorVersion = master.curMajorVersion
  minor_eq : m.curMinorVersion = master.curMinorVersion
  subset : ∀ id ∈ m.tableMap, id ∈ master.tableMap ∧ first ≤ id
  superset : ∀ id ∈ master.tableMap, first ≤ id → id ∈ m.tableMap ∨ id = first ∧ size = 0

/-- A log of which the records from `r` on can be replayed: its versions go up, none of those
replayed is `OB_INVALID_ID`, and the first table that is kept is the first of its major version. -/
structure Replayable (log : List FreezeRecord) (size : Nat) (r : FreezeRecord)
    (rest : List FreezeRecord) : Prop where
  up : ∀ r' ∈ log, r'.frozenVersion < r'.newVersion
  valid : ∀ r' ∈ r :: rest, r'.newVersion ≠ .invalid
  first : (if size = 0 then r.newVersion else r.frozenVersion).minorVersionStart = 1

section Replay

variable {m₀ m : TableMgr} {s : FreezeMaster} {earlier rest : List FreezeRecord} {r : FreezeRecord}
  {size : Nat}

/-- Once the major version has wrapped around, the tables of the master from a version on are not
those that were made since. -/
theorem FreezeMaster.Inv.not_agrees_of_wrapped (h₀ : m₀.Started) (h : s.Inv m₀)
    (hlog : s.log = earlier ++ r :: rest)
    (hdown : ∃ r' ∈ s.log, ¬ r'.frozenVersion < r'.newVersion)
    (hmem : ∀ id, id ∈ m.tableMap ↔
      (id = r.newVersion ∨ id = r.frozenVersion ∧ size ≠ 0) ∨ id ∈ rest.map newVersion) :
    ¬ Agrees s.mgr m r.frozenVersion size := by
  intro hagrees
  obtain ⟨-, -, as, bs, heq, hne, has, hbs⟩ := h.wrapped hdown
  have hfollows := h.follows
  rw [hlog, follows_append] at hfollows
  have hfrozen : r.frozenVersion = lastVersion m₀.activeTableItem.sstableId earlier :=
    hfollows.2.1
  -- a version below the first one that is replayed is refuted by the tables being a subset
  have hrefute : m₀.activeTableItem.sstableId ≤ r.frozenVersion → ∀ r' ∈ r :: rest, r' ∉ bs := by
    intro hle r' hr' hin
    have hid : r'.newVersion ∈ m.tableMap := by
      rw [hmem]
      rcases mem_cons.1 hr' with rfl | hr'
      · exact .inl (.inl rfl)
      · exact .inr (mem_map_of_mem hr')
    exact absurd (hbs r' hin) (not_lt.2 (le_trans hle (hagrees.subset _ hid).2))
  have hstart : ∀ cs, (∀ r' ∈ cs, r' ∈ as) →
      m₀.activeTableItem.sstableId ≤ lastVersion m₀.activeTableItem.sstableId cs := by
    intro cs hcs
    exact le_lastVersion fun r' hr' => le_of_lt (has r' (hcs r' hr'))
  rw [hlog] at heq
  rcases append_eq_append_iff.1 heq with ⟨cs, has', hbs'⟩ | ⟨cs, hearlier, hbs'⟩
  · -- the log wraps around in the part that is replayed
    have hle := hstart earlier fun r' hr' => by rw [has']; exact mem_append_left _ hr'
    rw [← hfrozen] at hle
    obtain ⟨b, hb⟩ := exists_mem_of_ne_nil bs hne
    exact hrefute hle b (by rw [hbs']; exact mem_append_right _ hb) hb
  rcases eq_nil_or_concat' cs with rfl | ⟨cs, last, rfl⟩
  · have hle := hstart earlier fun r' hr' => by rwa [hearlier, append_nil] at hr'
    rw [← hfrozen] at hle
    exact hrefute hle r mem_cons_self (by rw [hbs']; exact mem_cons_self)
  -- it did so before: the first table of the master is missing
  have hlast : r.frozenVersion = last.newVersion := by
    rw [hfrozen, hearlier, ← append_assoc, lastVersion_append]
    rfl
  have hbelow : ∀ r' ∈ (cs ++ [last]) ++ r :: rest,
      r'.newVersion < m₀.activeTableItem.sstableId := by
    rwa [← hbs']
  have hfirst : r.frozenVersion < m₀.activeTableItem.sstableId := by
    rw [hlast]
    exact hbelow last (by simp)
  have hmaster : m₀.activeTableItem.sstableId ∈ s.mgr.tableMap :=
    (h.mem_iff _).2 (.inl h₀.active_mem)
  rcases hagrees.superset _ hmaster (le_of_lt hfirst) with hin | ⟨hid, -⟩
  · rcases (hmem _).1 hin with (hid | ⟨hid, -⟩) | hid
    · exact absurd hid.symm (ne_of_lt (hbelow r (by simp)))
    · exact absurd hid.symm (ne_of_lt hfirst)
    · obtain ⟨r', hr', hid⟩ := mem_map.1 hid
      exact absurd hid (ne_of_lt (hbelow r' (by simp [hr'])))
  · exact absurd hid.symm (ne_of_lt hfirst)

/-- The tables from a version on, when the versions go up. -/
theorem FreezeMaster.Inv.le_frozen (h₀ : m₀.Started) (h : s.Inv m₀)
    (hlog : s.log = earlier ++ r :: rest) (hup : ∀ r' ∈ s.log, r'.frozenVersion < r'.newVersion) :
    (∀ id ∈ s.mgr.tableMap, id ≤ r.frozenVersion ∨ id = r.newVersion ∨ id ∈ rest.map newVersion) ∧
      ∀ id ∈ rest.map newVersion, r.newVersion < id := by
  have hfollows := h.follows
  rw [hlog] at hup
  rw [hlog, follows_append] at hfollows
  obtain ⟨hbefore, hfrozen, hnext, hafter⟩ := hfollows
  have hbefore := hbefore.increasing fun r' hr' => hup r' (mem_append_left _ hr')
  have hafter := hafter.increasing fun r' hr' =>
    hup r' (mem_append_right _ (mem_cons_of_mem _ hr'))
  constructor
  · intro id hid
    rcases (h.mem_iff id).1 hid with hid | hid
    · -- a table that was there at the start
      left
      have hstart : m₀.activeTableItem.sstableId ≤ r.frozenVersion := by
        rw [hfrozen]
        exact le_lastVersion fun r' hr' => le_of_lt (hbefore r' hr').1
      exact le_trans (h₀.le_active id hid) hstart
    obtain ⟨r', hr', rfl⟩ := mem_map.1 hid
    rw [hlog] at hr'
    rcases mem_append.1 hr' with hr' | hr'
    · left
      rw [hfrozen]
      exact (hbefore r' hr').2
    right
    rcases mem_cons.1 hr' with rfl | hr'
    · exact .inl rfl
    · exact .inr (mem_map_of_mem hr')
  · exact forall_mem_map.2 fun r' hr' => (hafter r' hr').1

/-- **Replaying a part of the freeze log**, from any record to its end, on a manager that was just
initialised: it succeeds and the manager agrees with the master exactly when that part is
replayable. -/
theorem replay_iff_of_run (h₀ : m₀.Started) {calls : List (Nat × Int × FreezeCall)}
    (hrun : run FreezeMaster.step ⟨m₀, []⟩ calls = some s) {rest : List (Nat × FreezeRecord)}
    (hlog : s.log = earlier ++ r :: rest.map Prod.snd) :
    (∃ m, run TableMgr.replayStep .init ((size, r) :: rest) = some m ∧
      Agrees s.mgr m r.frozenVersion size) ↔
      Replayable s.log size r (rest.map Prod.snd) := by
  have h : s.Inv m₀ := run_invariant (fun _ _ _ h => h.step h₀) (inv_start h₀) hrun
  have hin : ∀ r' ∈ r :: rest.map snd, r' ∈ s.log := by
    intro r' hr'
    rw [hlog]
    exact mem_append_right _ hr'
  have hclog := h.clogId_ne r (hin r mem_cons_self)
  have hclogs : ∀ r' ∈ rest.map snd, r'.clogId ≠ obInvalidId :=
    fun r' hr' => h.clogId_ne r' (hin r' (mem_cons_of_mem _ hr'))
  have hfollows := h.follows
  rw [hlog, follows_append] at hfollows
  obtain ⟨-, hfrozen, hnext, hafter⟩ := hfollows
  rw [← hfrozen] at hnext
  have hready : ({ init with sstableScanFinished := true }.replayed r
      (firstTables size r)).Replaying := .replayed rfl _ hnext.ne_zero
  constructor
  · rintro ⟨m, hreplay, hagrees⟩
    obtain ⟨m₁, hstep, hreplay⟩ := (run_cons_eq_some _).1 hreplay
    rw [replayStep_init_iff hclog] at hstep
    obtain ⟨hvalid, -, hcheck, rfl⟩ := hstep
    obtain ⟨hmem, hvalids⟩ := hready.of_run hafter hclogs hreplay
    have hup : ∀ r' ∈ s.log, r'.frozenVersion < r'.newVersion := by
      by_contra hnot
      push Not at hnot
      refine h.not_agrees_of_wrapped h₀ hlog ?_ (fun id => ?_) hagrees
      · obtain ⟨r', hr', hle⟩ := hnot
        exact ⟨r', hr', not_lt.2 hle⟩
      · rw [hmem]
        exact or_congr_left mem_firstTables
    exact ⟨hup, forall_mem_cons.2 ⟨hvalid, hvalids⟩,
      (checkFrom_firstTables (hup r (hin r mem_cons_self)) hnext).1 hcheck⟩
  · rintro ⟨hup, hvalid, hfirst⟩
    have hlt := hup r (hin r mem_cons_self)
    have hcheck := (checkFrom_firstTables hlt hnext).2 hfirst
    have hstep : init.replayStep (size, r) = some _ :=
      (replayStep_init_iff hclog).2 ⟨hvalid r mem_cons_self, (ne_of_lt hlt).symm, hcheck, rfl⟩
    obtain ⟨m, hreplay, hreplaying, hlast⟩ : ∃ m, run replayStep
        ({ init with sstableScanFinished := true }.replayed r
          (firstTables size r)) rest = some m ∧ m.Replaying ∧
        m.activeTableItem.sstableId = lastVersion r.newVersion (rest.map snd) := by
      have hups : ∀ r' ∈ rest.map snd, r'.frozenVersion < r'.newVersion :=
        fun r' hr' => hup r' (hin r' (mem_cons_of_mem _ hr'))
      have hvalids : ∀ r' ∈ rest.map snd, r'.newVersion ≠ .invalid :=
        (forall_mem_cons.1 hvalid).2
      by_cases hsize : size = 0
      · have hmap : firstTables size r = [] ++ [r.newVersion] := if_pos hsize
        exact hready.exists_run hmap (by simp) hcheck hafter hups hclogs hvalids
      have hbefore : ∀ id ∈ [r.frozenVersion], id < r.newVersion := by simpa using hlt
      have hmap : firstTables size r = [r.frozenVersion] ++ [r.newVersion] := by
        rw [firstTables, if_neg hsize]
        exact orderedInsert_of_forall_lt hbefore
      exact hready.exists_run hmap hbefore hcheck hafter hups hclogs hvalids
    obtain ⟨hmem, -⟩ := hready.of_run hafter hclogs hreplay
    obtain ⟨hbelow, habove⟩ := h.le_frozen h₀ hlog hup
    have hactive : m.activeTableItem.sstableId = s.mgr.activeTableItem.sstableId := by
      rw [hlast, h.active_eq, hlog, lastVersion_append]
      rfl
    refine ⟨m, (run_cons_eq_some _).2 ⟨_, hstep, hreplay⟩, hactive, ?_, ?_, ?_, ?_⟩
    · rw [hreplaying.major_eq, hactive, h.serving.active_eq]
    · rw [hreplaying.minor_eq, hactive, h.serving.active_eq]
    · intro id hid
      have hnews : ∀ r' ∈ r :: rest.map snd, r'.newVersion ∈ s.mgr.tableMap :=
        fun r' hr' => (h.mem_iff _).2 (.inr (mem_map_of_mem (hin r' hr')))
      rcases (hmem id).1 hid with hid | hid
      · rcases mem_firstTables.1 hid with rfl | ⟨rfl, -⟩
        · exact ⟨hnews r mem_cons_self, le_of_lt hlt⟩
        refine ⟨(h.mem_iff _).2 ?_, le_refl _⟩
        rw [hfrozen]
        rcases mem_cons.1 (lastVersion_mem m₀.activeTableItem.sstableId earlier) with
          hlast | hlast
        · rw [hlast]
          exact .inl h₀.active_mem
        refine .inr ?_
        rw [hlog, map_append]
        exact mem_append_left _ hlast
      · refine ⟨?_, le_of_lt (lt_trans hlt (habove id hid))⟩
        obtain ⟨r', hr', rfl⟩ := mem_map.1 hid
        exact hnews r' (mem_cons_of_mem _ hr')
    · intro id hid hle
      rcases hbelow id hid with hle' | hnew | hrest
      · obtain rfl := le_antisymm hle' hle
        by_cases hsize : size = 0
        · exact .inr ⟨rfl, hsize⟩
        · exact .inl ((hmem _).2 (.inl (mem_firstTables.2 (.inr ⟨rfl, hsize⟩))))
      · exact .inl ((hmem _).2 (.inl (mem_firstTables.2 (.inl hnew))))
      · exact .inl ((hmem _).2 (.inr hrest))

end Replay

/-- A freeze with the minor limit `numLimit`. -/
def freezeCall (numLimit : Int) : FreezeCall where
  memLimit := 0
  numLimit := numLimit
  minMajorFreezeInterval := 0
  now := 0
  timeStamp := 7
  freezeTime := 0
  unlocked := true
  switchLogFile := .ok 5
  fileId_ne := by
    rintro fileId ⟨⟩
    decide

/-- The master starts with version 2.1 and freezes to 3.1, 3.2 and 4.1. The last two records are
replayed. -/
theorem replay_iff_of_run_secondMajor :
    ∃ s m, run FreezeMaster.step ⟨(TableMgr.init.scanFinished 10).1, []⟩
        [(4, 100, freezeCall 1), (3, 100, freezeCall 10), (0, 100, freezeCall 1)] = some s ∧
      run TableMgr.replayStep .init [(3, ⟨⟨3, 2, 2⟩, ⟨3, 1, 1⟩, 5, 7⟩),
        (0, ⟨⟨4, 1, 1⟩, ⟨3, 2, 2⟩, 5, 7⟩)] = some m ∧ Agrees s.mgr m ⟨3, 1, 1⟩ 3 := by
  have hstarted : (init.scanFinished 10).1.Started :=
    (loading_init.started_scanFinished (by decide)).1
  have hlog : (run step ⟨(init.scanFinished 10).1, []⟩
      [(4, 100, freezeCall 1), (3, 100, freezeCall 10), (0, 100, freezeCall 1)]).map
        log = some [⟨⟨3, 1, 1⟩, ⟨2, 1, 1⟩, 5, 7⟩, ⟨⟨3, 2, 2⟩, ⟨3, 1, 1⟩, 5, 7⟩,
          ⟨⟨4, 1, 1⟩, ⟨3, 2, 2⟩, 5, 7⟩] := by
    decide +kernel
  obtain ⟨s, hrun, hlog⟩ := Option.map_eq_some_iff.1 hlog
  have hreplayable : Replayable s.log 3 ⟨⟨3, 2, 2⟩, ⟨3, 1, 1⟩, 5, 7⟩
      [⟨⟨4, 1, 1⟩, ⟨3, 2, 2⟩, 5, 7⟩] := by
    rw [hlog]
    exact ⟨by decide, by decide, by decide⟩
  have hpart : s.log = [⟨⟨3, 1, 1⟩, ⟨2, 1, 1⟩, 5, 7⟩] ++ ⟨⟨3, 2, 2⟩, ⟨3, 1, 1⟩, 5, 7⟩ ::
      List.map snd [(0, (⟨⟨4, 1, 1⟩, ⟨3, 2, 2⟩, 5, 7⟩ : FreezeRecord))] := hlog
  obtain ⟨m, hreplay, hagrees⟩ := (replay_iff_of_run hstarted hrun hpart).2 hreplayable
  exact ⟨s, m, hrun, hreplay, hagrees⟩

/-- The master starts with version 2.1 and freezes it while it is empty, to 2.2. The whole log does
not replay. -/
theorem not_replay_emptyFirst :
    (run FreezeMaster.step ⟨(TableMgr.init.scanFinished 10).1, []⟩
        [(0, 100, freezeCall 10)]).map FreezeMaster.log =
      some [⟨⟨2, 2, 2⟩, ⟨2, 1, 1⟩, 5, 7⟩] ∧
    ((TableMgr.init.fill 0 0).replayFreezeMemtable ⟨⟨2, 2, 2⟩, ⟨2, 1, 1⟩, 5, 7⟩).2 = .error ∧
    ¬ ∃ m, run TableMgr.replayStep .init [(0, ⟨⟨2, 2, 2⟩, ⟨2, 1, 1⟩, 5, 7⟩)] = some m := by
  refine ⟨by decide +kernel, by decide +kernel, ?_⟩
  rintro ⟨m, hrun⟩
  have hnone : (run replayStep .init
      [(0, (⟨⟨2, 2, 2⟩, ⟨2, 1, 1⟩, 5, 7⟩ : FreezeRecord))]).isSome = false := by decide +kernel
  rw [hrun] at hnone
  cases hnone

/-! ### The versions of a server -/

namespace FreezeMaster

variable {m₀ : TableMgr} {s s' : FreezeMaster}

/-- No two records have the same new version. -/
structure Fresh (m₀ : TableMgr) (s : FreezeMaster) : Prop extends Inv m₀ s where
  nodup : (s.log.map newVersion).Nodup

theorem Fresh.step (h₀ : m₀.Started) (h : Fresh m₀ s) {a : Nat × Int × FreezeCall}
    (hstep : s.step a = some s') : Fresh m₀ s' := by
  refine ⟨h.toInv.step h₀ hstep, ?_⟩
  unfold FreezeMaster.step at hstep
  rcases (h.serving.fill a.1 a.2.1).tryFreezeMemtable_cases a.2.2 with
    ⟨item, ret, hcall, -⟩ | ⟨m, r, hcall, -, -, -, hnew, -⟩
  · rw [hcall] at hstep
    cases hstep
    exact h.nodup
  rw [hcall] at hstep
  cases hstep
  have hfresh : r.newVersion ∉ s.log.map newVersion :=
    fun hmem => hnew ((h.mem_iff _).2 (.inr hmem))
  rw [map_append]
  exact h.nodup.append (nodup_singleton _) (disjoint_singleton.2 hfresh)

/-- **No version is given out twice**: whatever tables a manager has found when it starts to serve,
its map has just these and the active version, which none of them is above; and however often it
freezes then, the active version is the last of the freeze records, each of which continues the one
before with a version that the map did not have. -/
theorem versions_of_run {ids : List SSTableID} (hids : ∀ id ∈ ids, IsDumped id)
    {minorNumLimit : Int} (hmajor : ((loadSstables ids).nextVersion minorNumLimit).1 < 2 ^ 32)
    (hstart : ((loadSstables ids).scanFinished minorNumLimit).1 = m₀)
    {calls : List (Nat × Int × FreezeCall)} (hrun : run step ⟨m₀, []⟩ calls = some s) :
    (∀ id, id ∈ m₀.tableMap ↔
        (id ∈ ids ∧ id ≠ .invalid) ∨ id = m₀.activeTableItem.sstableId) ∧
      (∀ id ∈ m₀.tableMap, id ≤ m₀.activeTableItem.sstableId) ∧
      Follows m₀.activeTableItem.sstableId s.log ∧
      s.mgr.activeTableItem.sstableId = lastVersion m₀.activeTableItem.sstableId s.log ∧
      (∀ id, id ∈ s.mgr.tableMap ↔ id ∈ m₀.tableMap ∨ id ∈ s.log.map newVersion) ∧
      (∀ r ∈ s.log, r.newVersion ∉ m₀.tableMap) ∧ (s.log.map newVersion).Nodup := by
  obtain ⟨hstarted, hmem⟩ := (loading_loadSstables hids).started_scanFinished hmajor
  rw [hstart] at hstarted hmem
  have h : Fresh m₀ s :=
    run_invariant (fun _ _ _ h => h.step hstarted) ⟨inv_start hstarted, nodup_nil⟩ hrun
  refine ⟨fun id => ?_, hstarted.le_active, h.follows, h.active_eq, h.mem_iff, h.new, h.nodup⟩
  rw [hmem, mem_loadSstables hids]

/-- Two dumped tables have been found, the later one first. -/
def twoDumped : TableMgr := ((loadSstables [⟨2, 2, 3⟩, ⟨2, 1, 1⟩]).scanFinished 10).1

theorem versions_of_run_twoDumped :
    ∃ s, run step ⟨twoDumped, []⟩ [(4, 100, freezeCall 10), (3, 100, freezeCall 1)] = some s ∧
      s.log.map newVersion = [⟨2, 5, 5⟩, ⟨3, 1, 1⟩] ∧ (s.log.map newVersion).Nodup ∧
      ∀ id, id ∈ s.mgr.tableMap ↔ id ∈ twoDumped.tableMap ∨ id ∈ s.log.map newVersion := by
  have hlog : (run step ⟨twoDumped, []⟩ [(4, 100, freezeCall 10), (3, 100, freezeCall 1)]).map
      (fun s => s.log.map newVersion) = some [⟨2, 5, 5⟩, ⟨3, 1, 1⟩] := by
    decide +kernel
  obtain ⟨s, hrun, hlog⟩ := Option.map_eq_some_iff.1 hlog
  have hids : ∀ id ∈ [⟨2, 2, 3⟩, ⟨2, 1, 1⟩], IsDumped id := by
    intro id hid
    fin_cases hid <;> exact ⟨by decide, by decide, by decide, by decide⟩
  obtain ⟨-, -, -, -, hmem, -, hnodup⟩ := versions_of_run hids (by decide) rfl hrun
  exact ⟨s, hrun, hlog, hnodup, hmem⟩

end FreezeMaster

end OceanBase.UpdateServer
