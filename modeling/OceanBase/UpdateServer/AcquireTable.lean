import OceanBase.Lib.Sorted
import OceanBase.UpdateServer.TableMgr

/-!
# Acquiring the tables of a range of versions (`ob_table_mgr.cpp`)

`acquire_table` walks the version map from the start of the range to its end, takes one entity of
each table and raises the reference counts of the entity and of the table. When it comes to a table
it refuses, `revert_table` takes back what was raised.

A table whose memory table was dropped, and that has no row of an in-memory table, hands out one
shared empty entity. Taking back then goes to the table of that entity (`acquireTable_iff`).
-/

namespace OceanBase.UpdateServer

open Lib List SSTableID

/-! ### Ranges of versions -/

/-- `ObVersion`; `is_final_minor_` is not read here. -/
structure ObVersion where
  major : BitVec 32
  minor : BitVec 16

/-- `ObBorderFlag`. -/
structure ObBorderFlag where
  inclusiveStart : Bool
  inclusiveEnd : Bool
  isMinValue : Bool
  isMaxValue : Bool

/-- `ObVersionRange`. -/
structure ObVersionRange where
  borderFlag : ObBorderFlag
  startVersion : ObVersion
  endVersion : ObVersion

/-- An id with the version as it is. -/
def ObVersion.toId (v : ObVersion) : SSTableID := ⟨v.major.toNat, v.minor.toNat, v.minor.toNat⟩

/-- An id with another minor version in the place of 0. -/
def ObVersion.toIdOr (v : ObVersion) (minor : Nat) : SSTableID :=
  if v.minor = 0 then ⟨v.major.toNat, minor, minor⟩ else v.toId

namespace ObVersionRange

variable (range : ObVersionRange)

/-- `sst_id_start`. -/
def startId : SSTableID :=
  range.startVersion.toIdOr
    (if range.borderFlag.inclusiveStart then SSTableID.startMinorVersion
      else SSTableID.maxMinorVersion)

/-- `sst_id_end`. -/
def endId : SSTableID :=
  range.endVersion.toIdOr
    (if range.borderFlag.inclusiveEnd then SSTableID.maxMinorVersion
      else SSTableID.startMinorVersion)

variable (id : SSTableID)

def fromStart : Bool :=
  if range.borderFlag.inclusiveStart then range.startId ≤ id else range.startId < id

/-- `less_than` with the end of the range. -/
def lessThan : Bool :=
  range.borderFlag.isMaxValue || id < range.endId ||
    (range.borderFlag.inclusiveEnd && id == range.endId)

/-- Behind the start of the range; the minor version 0 stands for the whole major version. -/
def afterStart : Bool :=
  let v := range.startVersion
  if v.minor = 0 then
    if range.borderFlag.inclusiveStart then v.major.toNat ≤ id.majorVersion
    else v.major.toNat < id.majorVersion
  else if range.borderFlag.inclusiveStart then v.toId ≤ id
  else v.toId < id

/-- Before the end of the range; the minor version 0 stands for the whole major version. -/
def beforeEnd : Bool :=
  let v := range.endVersion
  if range.borderFlag.isMaxValue then true
  else if v.minor = 0 then
    if range.borderFlag.inclusiveEnd then id.majorVersion ≤ v.major.toNat
    else id.majorVersion < v.major.toNat
  else if range.borderFlag.inclusiveEnd then id ≤ v.toId
  else id < v.toId

def contains : Bool :=
  range.afterStart id && range.beforeEnd id

end ObVersionRange

/-! ### Tables, entities and their reference counts -/

/-- `TableItem::Stat`. -/
inductive ItemStat
  | unknow
  | active
  | freezing
  | frozen
  | dumping
  | dumped
  | droping
  | droped
  deriving DecidableEq

/-- What `get_table_entity` reads of a table. -/
structure ItemState where
  stat : ItemStat
  isInmemtableReady : Bool
  inmemtableInited : Bool

/-- `ITableEntity`: those of a table, and the shared one of `get_empty_memtable_entity`. -/
inductive TableEntity (α : Type)
  | memtable (item : α)
  | inmemtable (item : α)
  | sstable (item : α)
  | emptyMemtable
  deriving DecidableEq

/-- The reference counts there are: of tables and of memory tables. -/
inductive RefCount (α : Type)
  | tableItem (item : α)
  | memtable (item : α)
  | inmemtable (item : α)
  | emptyItem
  | emptyMemtable
  deriving DecidableEq

/-- The values of all reference counts, or changes to them. -/
abbrev Counts (α : Type) := RefCount α → ℤ

variable {α : Type} {item : α} {state : ItemState} {tableId : Nat}

def obAppMinTableId : Nat := 1000

def isInmemtable (tableId : Nat) : Bool := tableId != obInvalidId && tableId < obAppMinTableId

/-- `get_table_entity`, with what `random` answers, and the percentage it leaves. -/
def getTableEntity (tableId : Nat) (random : Int) (item : α) (state : ItemState) (percent : Int) :
    Option (TableEntity α) × Int :=
  match state.stat with
  | .active | .freezing | .frozen | .dumping => (some (.memtable item), 0)
  | .dumped =>
    if percent = 0 then (some (.memtable item), 0)
    else if random = 0 then
      if isInmemtable tableId then (some (.memtable item), 0) else (some (.sstable item), 0)
    else (some (.memtable item), 0)
  | .droping | .droped =>
    if isInmemtable tableId && state.isInmemtableReady then
      if state.inmemtableInited then (some (.inmemtable item), percent)
      else (some .emptyMemtable, percent)
    else (some (.sstable item), percent)
  | .unknow => (none, percent)

/-- The table hands out the shared empty entity. -/
def ItemState.handsOutEmpty (state : ItemState) (tableId : Nat) : Bool :=
  (state.stat == .droping || state.stat == .droped) && isInmemtable tableId &&
    state.isInmemtableReady && !state.inmemtableInited

def TableEntity.ofItem (entity : TableEntity α) (item : α) : Prop :=
  entity = .memtable item ∨ entity = .inmemtable item ∨ entity = .sstable item

theorem getTableEntity_spec {random percent percent' : Int} {entity : TableEntity α}
    (h : getTableEntity tableId random item state percent = (some entity, percent')) :
    state.stat ≠ .unknow ∧
      if state.handsOutEmpty tableId then entity = .emptyMemtable else entity.ofItem item := by
  obtain ⟨stat, ready, inited⟩ := state
  cases stat with
  | unknow => simp [getTableEntity] at h
  | dumped | droping | droped =>
    refine ⟨by simp, ?_⟩
    simp only [getTableEntity] at h
    simp only [ItemState.handsOutEmpty, TableEntity.ofItem]
    split_ifs at h <;> simp_all
  | _ =>
    obtain ⟨rfl, -⟩ := h
    exact ⟨by simp, .inl rfl⟩

theorem getTableEntity_none {random percent percent' : Int}
    (h : getTableEntity tableId random item state percent = (none, percent')) :
    state.stat = .unknow := by
  by_contra hstat
  obtain ⟨stat, ready, inited⟩ := state
  cases stat with
  | unknow => exact hstat rfl
  | dumped | droping | droped =>
    simp only [getTableEntity] at h
    split_ifs at h <;> simp at h
  | _ => simp [getTableEntity] at h

variable [DecidableEq α]

namespace TableEntity

/-- What `ref` raises; the entity of a file has no count. -/
def count : TableEntity α → Counts α
  | .memtable item => Pi.single (.memtable item) 1
  | .inmemtable item => Pi.single (.inmemtable item) 1
  | .sstable _ => 0
  | .emptyMemtable => Pi.single .emptyMemtable 1

/-- What asking for the entity raises: `get_empty_memtable_entity` raises the count of its table. -/
def asked : TableEntity α → Counts α
  | .emptyMemtable => Pi.single .emptyItem 1
  | _ => 0

/-- The count of the table `get_table_item` gives. -/
def tableItem : TableEntity α → RefCount α
  | .memtable item => .tableItem item
  | .inmemtable item => .tableItem item
  | .sstable item => .tableItem item
  | .emptyMemtable => .emptyItem

end TableEntity

open TableEntity

def revertTable (tableList : List (TableEntity α)) (counts : Counts α) : Counts α :=
  tableList.foldl (fun counts entity => counts - entity.count - Pi.single entity.tableItem 1) counts

/-! ### `acquire_table` -/

/-- The version map: tables under increasing versions, whose minor versions start with 1. -/
structure VersionMap (α : Type) where
  entries : List (SSTableID × Option α)
  sorted : (entries.map Prod.fst).Pairwise (· < ·)
  minor_pos : ∀ entry ∈ entries, 1 ≤ entry.1.minorVersionStart ∧ 1 ≤ entry.1.minorVersionEnd
  minor_le : ∀ entry ∈ entries, entry.1.minorVersionStart ≤ SSTableID.maxMinorVersion ∧
    entry.1.minorVersionEnd ≤ SSTableID.maxMinorVersion

/-- The manager, what `acquire_table` is called with, and what it meets: whether it gets a handle
of the tree, what `random` answers, and whether the list has room for one more element. -/
structure AcquireCall (α : Type) where
  inited : Bool
  tableMap : VersionMap α
  items : α → ItemState
  activeTableItem : α
  warmUpPercent : Int
  versionRange : ObVersionRange
  tableId : Nat
  getReadHandle : Bool
  random : Int
  pushBack : Nat → Bool

/-- What the loop of `acquire_table` works on. -/
structure Acquiring (α : Type) where
  counts : Counts α
  tableList : List (TableEntity α)
  warmUpPercent : Int
  maxVersion : SSTableID
  isFinalMinor : Bool
  sstIdChecker : SSTableID
  lastKey : SSTableID
  first : Bool

namespace Acquiring

def ask (s : Acquiring α) (entity : TableEntity α) (percent : Int) : Acquiring α :=
  { s with warmUpPercent := percent, counts := s.counts + entity.asked }

/-- An entity is held: it is in the list, and its count and that of the table are raised. -/
def hold (s : Acquiring α) (key : SSTableID) (item : α) (entity : TableEntity α) : Acquiring α :=
  { s with
    tableList := s.tableList ++ [entity]
    counts := s.counts + entity.count + Pi.single (.tableItem item) 1
    maxVersion := key }

end Acquiring

variable (call : AcquireCall α)

namespace AcquireCall

def takeTable (entry : SSTableID × Option α) (s : Acquiring α) :
    Except (Ret × Acquiring α) (Acquiring α) :=
  let key := entry.1
  let s := { s with lastKey := key }
  match entry.2 with
  | none => .error (.upsAcquireTableFail, s)
  | some item =>
    match getTableEntity call.tableId call.random item (call.items item) s.warmUpPercent with
    | (none, percent) => .error (.upsAcquireTableFail, { s with warmUpPercent := percent })
    | (some entity, percent) =>
      let s := s.ask entity percent
      if call.activeTableItem = item ∧ call.versionRange.borderFlag.isMaxValue = false then
        .error (.upsTableNotFrozen, s)
      else if s.tableList = [] ∧ call.versionRange.borderFlag.inclusiveStart = true ∧
          key.majorVersion ≠ call.versionRange.startId.majorVersion then
        .error (.notMaster, s)
      else if call.pushBack s.tableList.length = false then .error (.memOverflow, s)
      else
        let s := s.hold key item entity
        if s.first = false ∧ s.sstIdChecker.continous key = false then
          .error (.upsAcquireTableFail, s)
        else .ok { s with sstIdChecker := key, first := false }

def acquireLoop : List (SSTableID × Option α) → Acquiring α → Acquiring α × Ret
  | [], s => (s, .success)
  | entry :: entries, s =>
    if call.versionRange.lessThan entry.1 then
      match call.takeTable entry s with
      | .ok s => acquireLoop entries s
      | .error (ret, s) => (s, ret)
    else
      ({ s with isFinalMinor := s.lastKey.majorVersion < entry.1.majorVersion }, .success)

/-- The range is refused before the map is looked at. -/
def invalidRange : Bool :=
  call.versionRange.borderFlag.isMinValue ||
    (call.versionRange.endId.majorVersion < call.versionRange.startId.majorVersion &&
      !call.versionRange.borderFlag.isMaxValue)

def start (s : Acquiring α) : Acquiring α :=
  { s with
    tableList := []
    warmUpPercent := call.warmUpPercent
    sstIdChecker := .zero
    lastKey := .zero
    first := true }

def acquireTable (s : Acquiring α) : Acquiring α × Ret :=
  if !call.inited then (s, .notInit)
  else if call.invalidRange then (s, .upsAcquireTableFail)
  else if !call.getReadHandle then ({ s with tableList := [] }, .upsAcquireTableFail)
  else
    let todo := call.tableMap.entries.filter fun entry => call.versionRange.fromStart entry.1
    let r := call.acquireLoop todo (call.start s)
    if r.2 = .success then r
    else ({ r.1 with counts := revertTable r.1.tableList r.1.counts, tableList := [] }, r.2)

end AcquireCall

/-! ### What was taken back -/

theorem revertTable_eq (tableList : List (TableEntity α)) (counts : Counts α) :
    revertTable tableList counts =
      counts - (tableList.map fun entity => entity.count + Pi.single entity.tableItem 1).sum := by
  induction tableList generalizing counts with
  | nil => exact (sub_zero counts).symm
  | cons entity tableList ih =>
    rw [revertTable, foldl_cons, ← revertTable, ih, map_cons, sum_cons]
    abel

theorem revertTable_add (tableList : List (TableEntity α)) (counts extra : Counts α) :
    revertTable tableList (counts + extra) = revertTable tableList counts + extra := by
  rw [revertTable_eq, revertTable_eq]
  abel

namespace AcquireCall

def handsOutEmpty (entry : SSTableID × Option α) : Bool :=
  match entry.2 with
  | none => false
  | some item => (call.items item).handsOutEmpty call.tableId

variable (entry : SSTableID × Option α)

/-- The reference an entry's item is given. -/
def itemCount : Counts α :=
  match entry.2 with
  | none => 0
  | some item => Pi.single (.tableItem item) 1

/-- The entity is one of the entry's table, or the shared empty one in its place. -/
def EntityOf (entity : TableEntity α) : Prop :=
  ∃ item, entry.2 = some item ∧
    if call.handsOutEmpty entry then entity = .emptyMemtable else entity.ofItem item

/-- What stays raised of an entry that was taken and taken back. -/
def leak : Counts α :=
  if call.handsOutEmpty entry then itemCount entry else 0

variable {call}

variable {entry : SSTableID × Option α}

variable {entity : TableEntity α}

theorem EntityOf.leak (h : call.EntityOf entry entity) :
    itemCount entry + entity.asked - Pi.single entity.tableItem 1 = call.leak entry := by
  obtain ⟨item, hitem, hentity⟩ := h
  rw [AcquireCall.leak]
  split_ifs at hentity ⊢ with hempty
  · obtain rfl := hentity
    simp only [asked, tableItem]
    abel
  rw [itemCount, hitem]
  obtain rfl | rfl | rfl := hentity
  all_goals simp [asked, tableItem]

variable {entries : List (SSTableID × Option α)}

theorem revert_taken {tableList : List (TableEntity α)}
    (h : List.Forall₂ call.EntityOf entries tableList) (counts : Counts α) :
    revertTable tableList (counts + (entries.map itemCount).sum +
        (tableList.map fun entity => entity.asked + entity.count).sum) =
      counts + (entries.map call.leak).sum := by
  rw [revertTable_eq]
  induction h with
  | nil => simp
  | @cons entry entity entries tableList hentity _ ih =>
    have hleak := hentity.leak
    simp only [map_cons, ← hleak]
    calc counts + (itemCount entry + (entries.map itemCount).sum) +
          (entity.asked + entity.count +
            (tableList.map fun entity => entity.asked + entity.count).sum) -
          (entity.count + Pi.single entity.tableItem 1 +
            (tableList.map fun entity => entity.count + Pi.single entity.tableItem 1).sum)
        = counts + (entries.map itemCount).sum +
              (tableList.map fun entity => entity.asked + entity.count).sum -
            (tableList.map fun entity => entity.count + Pi.single entity.tableItem 1).sum +
          (itemCount entry + entity.asked - Pi.single entity.tableItem 1) := by abel
      _ = counts + (itemCount entry + entity.asked - Pi.single entity.tableItem 1 +
            (entries.map call.leak).sum) := by rw [ih]; abel

/-! ### The loop -/

/-- The entry is refused behind the entries that were taken. -/
def refused (call : AcquireCall α) (taken : List (SSTableID × Option α))
    (entry : SSTableID × Option α) : Bool :=
  match entry.2 with
  | none => true
  | some item =>
    (call.items item).stat == .unknow ||
      (call.activeTableItem == item && !call.versionRange.borderFlag.isMaxValue) ||
      (taken.isEmpty && call.versionRange.borderFlag.inclusiveStart &&
        entry.1.majorVersion != call.versionRange.startId.majorVersion) ||
      !call.pushBack taken.length ||
      taken.getLast?.any fun last => !last.1.continous entry.1

/-- The entries looked at when one of them is refused, behind those that were taken. -/
def untilRefused (call : AcquireCall α) : List (SSTableID × Option α) →
    List (SSTableID × Option α) → Option (List (SSTableID × Option α))
  | _, [] => none
  | taken, entry :: entries =>
    if call.refused taken entry then some (taken ++ [entry])
    else untilRefused call (taken ++ [entry]) entries

/-- The state of the loop when some entries were taken. -/
structure Taken (call : AcquireCall α) (counts : Counts α) (taken : List (SSTableID × Option α))
    (s : Acquiring α) : Prop where
  entities : List.Forall₂ call.EntityOf taken s.tableList
  counts_eq : s.counts = counts + (taken.map itemCount).sum +
    (s.tableList.map fun entity => entity.asked + entity.count).sum
  first : s.first = taken.isEmpty
  last : ∀ last, taken.getLast? = some last → s.sstIdChecker = last.1
  continous : (taken.map Prod.fst).IsChain fun id other => id.continous other = true

variable {counts : Counts α} {taken : List (SSTableID × Option α)} {s : Acquiring α}

theorem taken_start (s : Acquiring α) : Taken call s.counts [] (call.start s) where
  entities := .nil
  counts_eq := by simp [start]
  first := rfl
  last _ h := by simp at h
  continous := .nil

theorem Taken.revert (h : Taken call counts taken s) :
    revertTable s.tableList s.counts = counts + (taken.map call.leak).sum := by
  rw [h.counts_eq, revert_taken h.entities]

theorem single_ne_zero (c : RefCount α) : (Pi.single c 1 : Counts α) ≠ 0 := by
  intro h
  have hc := congrFun h c
  rw [Pi.single_eq_same] at hc
  exact absurd hc one_ne_zero

theorem single_nonneg (c : RefCount α) : (0 : Counts α) ≤ Pi.single c 1 :=
  Pi.single_nonneg.2 zero_le_one

theorem leak_nonneg (entry : SSTableID × Option α) : 0 ≤ call.leak entry := by
  rw [AcquireCall.leak, itemCount]
  split_ifs
  · rcases entry.2 with _ | item
    · exact le_rfl
    · exact single_nonneg _
  · exact le_rfl

theorem leak_eq_zero_iff : call.leak entry = 0 ↔ call.handsOutEmpty entry = false := by
  obtain ⟨key, item⟩ := entry
  rcases item with _ | item
  · exact iff_of_true (ite_self _) rfl
  rw [AcquireCall.leak, itemCount]
  rcases call.handsOutEmpty (key, some item) with _ | _
  all_goals simp

theorem EntityOf.asked_eq (h : call.EntityOf entry entity) :
    0 ≤ entity.asked ∧ (entity.asked = 0 ↔ call.handsOutEmpty entry = false) := by
  obtain ⟨item, -, hentity⟩ := h
  rcases hempty : call.handsOutEmpty entry with _ | _
  · rw [hempty] at hentity
    obtain rfl | rfl | rfl := hentity
    all_goals exact ⟨le_rfl, iff_of_true rfl rfl⟩
  rw [hempty] at hentity
  obtain rfl := hentity
  exact ⟨single_nonneg _, iff_of_false (single_ne_zero _) (by decide)⟩

theorem Taken.discontinous_iff (h : Taken call counts taken s) (key : SSTableID) :
    (taken.getLast?.any fun last => !last.1.continous key) = true ↔
      s.first = false ∧ s.sstIdChecker.continous key = false := by
  rw [h.first]
  rcases hlast : taken.getLast? with _ | last
  · rw [getLast?_eq_none_iff.1 hlast]
    simp
  have hne : taken ≠ [] := by
    rintro rfl
    simp at hlast
  rw [h.last last hlast]
  simp [hne]

theorem Taken.push (h : Taken call counts taken s) {key : SSTableID}
    (hentity : call.EntityOf (key, some item) entity) :
    List.Forall₂ call.EntityOf (taken ++ [(key, some item)]) (s.tableList ++ [entity]) ∧
      s.counts + entity.asked + entity.count + Pi.single (.tableItem item) 1 =
        counts + ((taken ++ [(key, some item)]).map itemCount).sum +
          ((s.tableList ++ [entity]).map fun entity => entity.asked + entity.count).sum := by
  refine ⟨rel_append h.entities (.cons hentity .nil), ?_⟩
  rw [h.counts_eq]
  simp only [map_append, map_cons, sum_append, sum_cons]
  abel

/-- One round: either the entry is taken, or it is refused and what stays raised of it is nothing
or one count, the latter just if it hands out the shared empty entity. -/
theorem takeTable_spec (h : Taken call counts taken s) (entry : SSTableID × Option α) :
    (call.refused taken entry = false ∧
      ∃ s', call.takeTable entry s = .ok s' ∧ Taken call counts (taken ++ [entry]) s') ∨
    (call.refused taken entry = true ∧ ∃ ret s' extra, call.takeTable entry s = .error (ret, s') ∧
      ret ≠ .success ∧
      revertTable s'.tableList s'.counts = counts + (taken.map call.leak).sum + extra ∧
      0 ≤ extra ∧ (extra = 0 ↔ call.handsOutEmpty entry = false)) := by
  obtain ⟨key, item⟩ := entry
  have hrevert := h.revert
  rcases item with _ | item
  · refine .inr ⟨rfl, _, _, 0, rfl, by decide, ?_, le_rfl, iff_of_true rfl rfl⟩
    rw [add_zero, ← hrevert]
  obtain ⟨answer, percent, hget⟩ : ∃ answer percent, getTableEntity call.tableId call.random item
      (call.items item) s.warmUpPercent = (answer, percent) := ⟨_, _, rfl⟩
  rcases answer with _ | entity
  · have hstat := getTableEntity_none hget
    have hrefused : call.refused taken (key, some item) = true := by simp [refused, hstat]
    have hempty : call.handsOutEmpty (key, some item) = false := by
      simp [handsOutEmpty, ItemState.handsOutEmpty, hstat]
    refine .inr ⟨hrefused, .upsAcquireTableFail,
      { s with lastKey := key, warmUpPercent := percent }, 0, ?_, by decide, ?_, le_rfl,
      iff_of_true rfl hempty⟩
    · simp [takeTable, hget]
    · rw [add_zero, ← hrevert]
  obtain ⟨hstat, hspec⟩ := getTableEntity_spec hget
  have hentity : call.EntityOf (key, some item) entity := ⟨item, rfl, hspec⟩
  obtain ⟨hasked, hasked'⟩ := hentity.asked_eq
  obtain ⟨hentities, hcounts⟩ := h.push hentity
  have hlength : s.tableList.length = taken.length := h.entities.length_eq.symm
  have hnil : s.tableList = [] ↔ taken = [] := by
    rw [← length_eq_zero_iff, ← length_eq_zero_iff, hlength]
  have hraised : revertTable ({ s with lastKey := key }.ask entity percent).tableList
      ({ s with lastKey := key }.ask entity percent).counts =
      counts + (taken.map call.leak).sum + entity.asked := by
    rw [← hrevert]
    exact revertTable_add _ _ _
  by_cases hactive : call.activeTableItem = item ∧ call.versionRange.borderFlag.isMaxValue = false
  · refine .inr ⟨by simp [refused, hactive], .upsTableNotFrozen, _, _, ?_, by decide, hraised,
      hasked, hasked'⟩
    simp only [takeTable, hget]
    exact if_pos hactive
  by_cases hservice : s.tableList = [] ∧ call.versionRange.borderFlag.inclusiveStart = true ∧
      key.majorVersion ≠ call.versionRange.startId.majorVersion
  · have hrefused : call.refused taken (key, some item) = true := by
      simp [refused, hnil.1 hservice.1, hservice.2.1, hservice.2.2]
    refine .inr ⟨hrefused, .notMaster, _, _, ?_, by decide, hraised, hasked, hasked'⟩
    simp only [takeTable, hget]
    exact (if_neg hactive).trans (if_pos hservice)
  by_cases hroom : call.pushBack s.tableList.length = false
  · have hrefused : call.refused taken (key, some item) = true := by
      simp [refused, ← hlength, hroom]
    refine .inr ⟨hrefused, .memOverflow, _, _, ?_, by decide, hraised, hasked, hasked'⟩
    simp only [takeTable, hget]
    exact (if_neg hactive).trans ((if_neg hservice).trans (if_pos hroom))
  by_cases hchain : s.first = false ∧ s.sstIdChecker.continous key = false
  · have hrefused : call.refused taken (key, some item) = true := by
      simp [refused, (h.discontinous_iff key).2 hchain]
    refine .inr ⟨hrefused, .upsAcquireTableFail,
      (({ s with lastKey := key }.ask entity percent).hold key item entity),
      call.leak (key, some item), ?_, by decide, ?_, leak_nonneg _, leak_eq_zero_iff⟩
    · simp only [takeTable, hget]
      exact (if_neg hactive).trans ((if_neg hservice).trans ((if_neg hroom).trans (if_pos hchain)))
    simp only [Acquiring.ask, Acquiring.hold]
    rw [hcounts, revert_taken hentities, map_append, sum_append, add_assoc]
    simp
  have haccepted : call.refused taken (key, some item) = false := by
    rw [← h.discontinous_iff key, Bool.not_eq_true] at hchain
    simp only [refused]
    simp_all
  have hcontinous : ((taken ++ [(key, some item)]).map Prod.fst).IsChain fun id other =>
      id.continous other = true := by
    rw [map_append, isChain_append]
    refine ⟨h.continous, .singleton _, ?_⟩
    intro id hid other hother
    obtain ⟨last, hlast, rfl⟩ : ∃ last, taken.getLast? = some last ∧ last.1 = id := by
      simpa using hid
    obtain rfl : key = other := by simpa using hother
    by_contra hne
    refine hchain ((h.discontinous_iff key).1 ?_)
    rw [hlast]
    simpa using hne
  have htake : call.takeTable (key, some item) s = .ok
      { ({ s with lastKey := key }.ask entity percent).hold key item entity with
        sstIdChecker := key, first := false } := by
    simp only [takeTable, hget]
    exact (if_neg hactive).trans ((if_neg hservice).trans ((if_neg hroom).trans (if_neg hchain)))
  refine .inl ⟨haccepted, _, htake, hentities, hcounts, ?_, ?_, hcontinous⟩
  all_goals simp

/-- Nothing stays raised just if no entry that was looked at hands out the shared empty entity. -/
theorem leaks_eq_zero_iff {extra : Counts α} (hextra : 0 ≤ extra)
    (hextra' : extra = 0 ↔ call.handsOutEmpty entry = false) :
    counts + (taken.map call.leak).sum + extra = counts ↔
      ∀ visited ∈ taken ++ [entry], call.handsOutEmpty visited = false := by
  have hnonneg : ∀ x ∈ taken.map call.leak, 0 ≤ x :=
    forall_mem_map.2 fun visited _ => leak_nonneg visited
  rw [add_assoc, add_eq_left, add_eq_zero_iff_of_nonneg (sum_nonneg hnonneg) hextra, hextra',
    forall_mem_append, forall_mem_singleton]
  refine and_congr_left fun _ => ?_
  constructor
  · intro hsum visited hmem
    rw [← leak_eq_zero_iff]
    exact all_zero_of_le_zero_le_of_sum_eq_zero hnonneg hsum (mem_map_of_mem hmem)
  intro hall
  refine sum_eq_zero fun x hx => ?_
  obtain ⟨visited, hmem, rfl⟩ := mem_map.1 hx
  exact leak_eq_zero_iff.2 (hall visited hmem)

/-- The entries of the range, of those that are walked over. -/
def upToEnd (call : AcquireCall α) (entries : List (SSTableID × Option α)) :
    List (SSTableID × Option α) :=
  entries.takeWhile fun entry => call.versionRange.lessThan entry.1

omit [DecidableEq α] in
theorem upToEnd_cons_of_lessThan (h : call.versionRange.lessThan entry.1 = true) :
    call.upToEnd (entry :: entries) = entry :: call.upToEnd entries :=
  takeWhile_cons_of_pos h

theorem acquireLoop_of_taken (h : Taken call counts taken s)
    (hnone : call.untilRefused taken (call.upToEnd entries) = none) :
    ∃ s', call.acquireLoop entries s = (s', .success) ∧
      Taken call counts (taken ++ call.upToEnd entries) s' := by
  induction entries generalizing taken s with
  | nil => exact ⟨s, rfl, by simpa [upToEnd] using h⟩
  | cons entry entries ih =>
    rw [acquireLoop]
    by_cases hless : call.versionRange.lessThan entry.1 = true
    · rw [upToEnd_cons_of_lessThan hless] at hnone ⊢
      rw [untilRefused] at hnone
      obtain ⟨haccepted, t, htake, ht⟩ | ⟨hrefused, -⟩ := takeTable_spec h entry
      · rw [haccepted, if_neg (by decide)] at hnone
        obtain ⟨s', hloop, hs'⟩ := ih ht hnone
        rw [append_assoc, singleton_append] at hs'
        rw [if_pos hless, htake]
        exact ⟨s', hloop, hs'⟩
      · rw [hrefused, if_pos rfl] at hnone
        exact absurd hnone (by simp)
    · have hnil : call.upToEnd (entry :: entries) = [] := takeWhile_cons_of_neg hless
      rw [if_neg hless, hnil, append_nil]
      exact ⟨_, rfl, h.entities, h.counts_eq, h.first, h.last, h.continous⟩

theorem acquireLoop_of_refused {entries visited : List (SSTableID × Option α)}
    (h : Taken call counts taken s)
    (hsome : call.untilRefused taken (call.upToEnd entries) = some visited) :
    ∃ s' ret, call.acquireLoop entries s = (s', ret) ∧ ret ≠ .success ∧
      (revertTable s'.tableList s'.counts = counts ↔
        ∀ entry ∈ visited, call.handsOutEmpty entry = false) := by
  induction entries generalizing taken s with
  | nil => exact absurd hsome (by simp [upToEnd, untilRefused])
  | cons entry entries ih =>
    rw [acquireLoop]
    by_cases hless : call.versionRange.lessThan entry.1 = true
    · rw [upToEnd_cons_of_lessThan hless, untilRefused] at hsome
      rw [if_pos hless]
      obtain ⟨haccepted, t, htake, ht⟩ | ⟨hrefused, ret, t, extra, htake, hret, hrevert, hextra,
        hextra'⟩ := takeTable_spec h entry
      · rw [haccepted, if_neg (by decide)] at hsome
        rw [htake]
        exact ih ht hsome
      rw [hrefused, if_pos rfl, Option.some.injEq] at hsome
      rw [htake, ← hsome]
      refine ⟨t, ret, rfl, hret, ?_⟩
      rw [hrevert]
      exact leaks_eq_zero_iff hextra hextra'
    · have hnil : call.upToEnd (entry :: entries) = [] := takeWhile_cons_of_neg hless
      rw [hnil] at hsome
      exact absurd hsome (by simp [untilRefused])

end AcquireCall

/-! ### The range -/

namespace ObVersionRange

variable {range : ObVersionRange} {id : SSTableID}

theorem fromStart_eq (hpos : 1 ≤ id.minorVersionStart ∧ 1 ≤ id.minorVersionEnd)
    (hle : id.minorVersionStart ≤ maxMinorVersion ∧ id.minorVersionEnd ≤ maxMinorVersion) :
    range.fromStart id = range.afterStart id := by
  have hone : startMinorVersion = 1 := rfl
  by_cases hminor : range.startVersion.minor = 0
  · rcases hincl : range.borderFlag.inclusiveStart with _ | _
    · simp only [fromStart, afterStart, startId, ObVersion.toIdOr, hminor, hincl, if_true,
        Bool.false_eq_true, if_false]
      rw [decide_eq_decide, lt_iff]
      dsimp only
      omega
    · simp only [fromStart, afterStart, startId, ObVersion.toIdOr, hminor, hincl, if_true]
      rw [decide_eq_decide, ← not_lt, lt_iff]
      dsimp only
      omega
  · simp only [fromStart, afterStart, startId, ObVersion.toIdOr, hminor, if_false]

theorem lessThan_eq (hpos : 1 ≤ id.minorVersionStart ∧ 1 ≤ id.minorVersionEnd)
    (hle : id.minorVersionStart ≤ maxMinorVersion ∧
      id.minorVersionEnd ≤ maxMinorVersion) : range.lessThan id = range.beforeEnd id := by
  have hone : startMinorVersion = 1 := rfl
  rcases hmax : range.borderFlag.isMaxValue with _ | _
  · rw [Bool.eq_iff_iff]
    simp only [lessThan, beforeEnd, hmax, Bool.false_or, Bool.or_eq_true, Bool.and_eq_true,
      decide_eq_true_eq, beq_iff_eq, Bool.false_eq_true, if_false]
    by_cases hminor : range.endVersion.minor = 0
    · rcases hincl : range.borderFlag.inclusiveEnd with _ | _
      · simp only [endId, ObVersion.toIdOr, hminor, hincl, if_true, Bool.false_eq_true, if_false,
          false_and, or_false, decide_eq_true_eq]
        rw [lt_iff]
        dsimp only
        omega
      simp only [endId, ObVersion.toIdOr, hminor, hincl, if_true, true_and, ← le_iff_lt_or_eq,
        decide_eq_true_eq]
      rw [← not_lt, lt_iff]
      dsimp only
      omega
    · rcases hincl : range.borderFlag.inclusiveEnd with _ | _
      · simp only [endId, ObVersion.toIdOr, hminor, if_false, Bool.false_eq_true, false_and,
          or_false, decide_eq_true_eq]
      · simp only [endId, ObVersion.toIdOr, hminor, if_false, true_and, if_true,
          ← le_iff_lt_or_eq, decide_eq_true_eq]
  · simp only [lessThan, beforeEnd, hmax, Bool.true_or, if_true]

theorem lessThan_of_lt {other : SSTableID} (hlt : id < other) (h : range.lessThan other = true) :
    range.lessThan id = true := by
  simp only [lessThan, Bool.or_eq_true, Bool.and_eq_true, decide_eq_true_eq, beq_iff_eq] at h ⊢
  obtain (hmax | hother) | ⟨-, rfl⟩ := h
  · exact .inl (.inl hmax)
  · exact .inl (.inr (hlt.trans hother))
  · exact .inl (.inr hlt)

end ObVersionRange

namespace AcquireCall

variable {call}

/-- The entries whose tables the call asks for. -/
def inRange (call : AcquireCall α) : List (SSTableID × Option α) :=
  call.tableMap.entries.filter fun entry => call.versionRange.contains entry.1

omit [DecidableEq α] in
theorem upToEnd_filter :
    call.upToEnd (call.tableMap.entries.filter fun entry => call.versionRange.fromStart entry.1) =
      call.inRange := by
  have hsorted : call.tableMap.entries.Pairwise fun a b => a.1 < b.1 :=
    pairwise_map.1 call.tableMap.sorted
  have hdown : ∀ a b : SSTableID × Option α, a.1 < b.1 → call.versionRange.lessThan b.1 = true →
      call.versionRange.lessThan a.1 = true := fun _ _ => ObVersionRange.lessThan_of_lt
  rw [upToEnd, takeWhile_eq_filter hdown (hsorted.filter _), filter_filter, inRange]
  refine filter_congr fun entry hentry => ?_
  have hpos := call.tableMap.minor_pos entry hentry
  have hle := call.tableMap.minor_le entry hentry
  rw [ObVersionRange.fromStart_eq hpos hle, ObVersionRange.lessThan_eq hpos hle, Bool.and_comm]
  rfl

/-- The map is walked over. -/
def scans (call : AcquireCall α) : Bool := call.inited && !call.invalidRange && call.getReadHandle

/-- Just the tables of the range, in the order of their versions, each version continuing the one
before, and the counts of each entity and each table raised by one. The count of the table of the
shared empty entity belongs to no table of the map. -/
structure Acquired (call : AcquireCall α) (counts : Counts α) (s : Acquiring α) : Prop where
  entities : List.Forall₂ call.EntityOf call.inRange s.tableList
  increasing : (call.inRange.map Prod.fst).Pairwise (· < ·)
  continous : (call.inRange.map Prod.fst).IsChain fun id other => id.continous other = true
  raised : ∀ c ≠ .emptyItem, s.counts c =
    counts c + (call.inRange.map itemCount).sum c + (s.tableList.map TableEntity.count).sum c

/-- A success acquires the tables of the range, a failure leaves every count as it was. -/
def AllOrNothing (call : AcquireCall α) (s : Acquiring α) : Prop :=
  if (call.acquireTable s).2 = .success then call.Acquired s.counts (call.acquireTable s).1
  else (call.acquireTable s).1.counts = s.counts

theorem sum_asked (tableList : List (TableEntity α)) {c : RefCount α} (hc : c ≠ .emptyItem) :
    (tableList.map fun entity => entity.asked + entity.count).sum c =
      (tableList.map TableEntity.count).sum c := by
  induction tableList with
  | nil => rfl
  | cons entity tableList ih =>
    have hasked : entity.asked c = 0 := by
      cases entity with
      | emptyMemtable => exact Pi.single_eq_of_ne hc 1
      | _ => rfl
    simp only [map_cons, sum_cons, Pi.add_apply, hasked, ih, zero_add]

theorem Taken.acquired {s : Acquiring α} {counts : Counts α}
    (h : Taken call counts call.inRange s) : call.Acquired counts s where
  entities := h.entities
  increasing := by
    have hsorted := pairwise_map.1 call.tableMap.sorted
    exact pairwise_map.2 (hsorted.filter _)
  continous := h.continous
  raised c hc := by
    rw [h.counts_eq, Pi.add_apply, Pi.add_apply, sum_asked _ hc]

/-- `acquire_table` acquires just the tables of the range, or leaves every reference count as it
was, just if it does not come to a table it refuses, or no table looked at until then hands out the
shared empty entity. -/
theorem acquireTable_iff (call : AcquireCall α) (s : Acquiring α) :
    call.AllOrNothing s ↔
      (call.scans = true → ∀ visited, call.untilRefused [] call.inRange = some visited →
        ∀ entry ∈ visited, call.handsOutEmpty entry = false) := by
  rw [AllOrNothing, acquireTable, scans]
  rcases call.inited with _ | _
  · exact iff_of_true rfl fun h => absurd h (by simp)
  rcases call.invalidRange with _ | _
  · rcases call.getReadHandle with _ | _
    · exact iff_of_true rfl fun h => absurd h (by simp)
    have hstart : Taken call s.counts [] (call.start s) := taken_start s
    rcases hrefused : call.untilRefused [] call.inRange with _ | visited
    · rw [← upToEnd_filter] at hrefused
      obtain ⟨s', hloop, hs'⟩ := acquireLoop_of_taken hstart hrefused
      rw [nil_append, upToEnd_filter] at hs'
      refine iff_of_true ?_ fun _ visited h => absurd h (by simp)
      simp only [hloop]
      exact hs'.acquired
    rw [← upToEnd_filter] at hrefused
    obtain ⟨s', ret, hloop, hret, hrevert⟩ := acquireLoop_of_refused hstart hrefused
    simp only [Bool.not_true, Bool.false_eq_true, if_false, hloop, hret, Bool.and_self,
      Bool.not_false, true_implies]
    rw [hrevert]
    constructor
    · rintro hall _ ⟨⟩
      exact hall
    · intro hall
      exact hall visited rfl
  · exact iff_of_true rfl fun h => absurd h (by simp)

/-- A system table of which the first version has no row, and a gap behind that version. -/
def gapCall : AcquireCall Nat where
  inited := true
  tableMap :=
    { entries := [(⟨2, 1, 1⟩, some 0), (⟨2, 3, 3⟩, some 1)]
      sorted := by decide
      minor_pos := by decide
      minor_le := by decide }
  items item := if item = 0 then ⟨.droped, true, false⟩ else ⟨.active, false, false⟩
  activeTableItem := 1
  warmUpPercent := 0
  versionRange := ⟨⟨true, false, false, true⟩, ⟨2, 0⟩, ⟨0, 0⟩⟩
  tableId := 1
  getReadHandle := true
  random := 0
  pushBack _ := true

/-- The versions do not continue each other, and the count of the first table stays raised. -/
theorem not_allOrNothing_gap :
    (gapCall.acquireTable ⟨1, [], 0, .zero, false, .zero, .zero, true⟩).2 = .upsAcquireTableFail ∧
      (gapCall.acquireTable ⟨1, [], 0, .zero, false, .zero, .zero, true⟩).1.counts
        (.tableItem 0) = 2 ∧
      ¬ gapCall.AllOrNothing ⟨1, [], 0, .zero, false, .zero, .zero, true⟩ := by
  have hret : (gapCall.acquireTable ⟨1, [], 0, .zero, false, .zero, .zero, true⟩).2 =
      .upsAcquireTableFail := by decide +kernel
  have hcount : (gapCall.acquireTable ⟨1, [], 0, .zero, false, .zero, .zero, true⟩).1.counts
      (.tableItem 0) = 2 := by decide +kernel
  refine ⟨hret, hcount, ?_⟩
  intro hcounts
  rw [hcounts] at hcount
  exact absurd hcount (by decide)

end AcquireCall

end OceanBase.UpdateServer
