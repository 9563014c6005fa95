import OceanBase.CompactSSTable.BlockIndex
import OceanBase.Lib.Iterate

/-!
# Scanning a compact sstable (`ob_compact_sstable_scanner.cpp`)

The scanner asks the index for a batch of blocks, reads them one after the other, and hands out the
rows the block scanner finds. What can fail is up to a `Disk`. The loops over blocks have fuel,
since one of them can go on for ever.

What a scan does depends on the blocks that are still to come (`Upcoming`): fetching a block goes
over them to the first one with rows of the range (`fetchNextBlock_spec`).
-/

namespace OceanBase.CompactSSTable

open Lib List

variable {κ ρ : Type}

/-- The answer of `read_current_block_data`: a buffer, success without one (there is no
decompressor for the block), or an error. -/
inductive BlockRead
  | data
  | noData
  | failed (ret : Ret)

/-- What fails: reading a block, `set_scan_param` of the block scanner, and `deserialize_row` or
`store_and_advance_row`. -/
structure Disk (κ ρ : Type) where
  readBlock : Block κ ρ → BlockRead
  openBlock : Block κ ρ → Option Ret
  readRow : Row κ ρ → Option Ret
  readBlock_failed : ∀ b ret, readBlock b = .failed ret → ret ≠ .success
  openBlock_failed : ∀ b ret, openBlock b = some ret → ret ≠ .success ∧ ret ≠ .beyondTheRange
  readRow_failed : ∀ row ret, readRow row = some ret → ret ≠ .success ∧ ret ≠ .iterEnd

/-- `iterate_status_`. -/
inductive IterateStatus
  | notInitialized
  | notStart
  | inProgress
  | lastBlock
  | needForward
  | inError
  | ended
  deriving DecidableEq

/-- `check_status`. -/
def IterateStatus.check : IterateStatus → Ret
  | .inProgress | .lastBlock | .needForward => .success
  | .notInitialized | .notStart => .notInit
  | .ended => .iterEnd
  | .inError => .error

/-- `is_forward_status`. -/
def IterateStatus.isForward : IterateStatus → Bool
  | .inProgress | .lastBlock | .needForward => true
  | _ => false

/-- `ObCompactSSTableScanner`. Of the block scanner the rows are kept that are still between its
cursor and its last row; it has none before it was given a block. -/
structure Scanner (κ ρ : Type) where
  iterateStatus : IterateStatus
  endOfData : Bool
  indexArray : List (Block κ ρ)
  indexArrayCursor : Int
  pending : Option (List (Row κ ρ))

/-- How `get_next_row` ends without a row: with an error, reading a row it has not loaded, or not
within the fuel. -/
inductive Stop
  | ret (ret : Ret)
  | nullRow
  | outOfFuel
  deriving DecidableEq

variable [LinearOrder κ]

/-- A table of an sstable: its blocks in the order of their offsets and keys. -/
structure SSTable (κ ρ : Type) [LinearOrder κ] where
  blocks : List (Block κ ρ)
  offset_nonneg : ∀ b ∈ blocks, 0 ≤ b.offset
  offsets_increasing : blocks.Pairwise fun a b => a.offset < b.offset
  rows_increasing : Increasing (blocks.flatMap Block.rows)

/-- A scan: the table, what fails, the range and the direction, and how many blocks a batch of the
index has at most. -/
structure Scan (κ ρ : Type) [LinearOrder κ] where
  table : SSTable κ ρ
  disk : Disk κ ρ
  range : ObNewRange κ
  isReverseScan : Bool
  batchBlockCount : Nat
  batchBlockCount_pos : 1 ≤ batchBlockCount

namespace Scan

variable (scan : Scan κ ρ) (s : Scanner κ ρ)

/-- The block under the cursor; there is none when `is_end_of_block`. -/
def currentBlock : Option (Block κ ρ) :=
  if 0 ≤ s.indexArrayCursor then s.indexArray[s.indexArrayCursor.toNat]? else none

def advanceToNextBlock : Scanner κ ρ :=
  { s with
    indexArrayCursor :=
      if scan.isReverseScan then s.indexArrayCursor - 1 else s.indexArrayCursor + 1 }

/-- The search of `load_block_index`: by the range, or by the offset at the end of the batch. -/
def searchIndex (firstTime : Bool) (s : Scanner κ ρ) : Except Ret (List (Block κ ρ)) :=
  let blocks := scan.table.blocks
  if firstTime then searchByRange blocks scan.range scan.isReverseScan scan.batchBlockCount
  else if scan.isReverseScan then
    searchByOffset blocks ((s.indexArray.head?.map Block.offset).getD 0) .lessThan
      scan.batchBlockCount
  else
    searchByOffset blocks ((s.indexArray.getLast?.map Block.offset).getD 0) .greaterThan
      scan.batchBlockCount

/-- `load_block_index`, with `prepare_read_blocks`. -/
def loadBlockIndex (firstTime : Bool) (s : Scanner κ ρ) : Ret × Scanner κ ρ :=
  match scan.searchIndex firstTime s with
  | .ok batch =>
    (.success,
      { s with
        indexArray := batch
        indexArrayCursor := if scan.isReverseScan then batch.length - 1 else 0
        iterateStatus := .inProgress })
  | .error ret =>
    let s := { s with indexArray := [], indexArrayCursor := -1 }
    if ret = .beyondTheRange then (.success, { s with iterateStatus := .ended })
    else (ret, { s with iterateStatus := .inError })

/-- The first half of `load_current_block_and_advance`: behind the last block is the end, behind a
batch the next one. -/
def ensureIndex : Ret × Scanner κ ρ :=
  if s.iterateStatus = .lastBlock then (.success, { s with iterateStatus := .ended })
  else if (currentBlock s).isNone then scan.loadBlockIndex false s
  else (.success, s)

/-- The second half of `load_current_block_and_advance`. -/
def readCurrentBlock : Ret × Scanner κ ρ :=
  match currentBlock s with
  | none => (.success, { s with iterateStatus := .ended })
  | some b =>
    match scan.disk.readBlock b with
    | .failed ret => (ret, s)
    | .noData => (.success, s)
    | .data =>
      match scan.disk.openBlock b with
      | some ret => (ret, s)
      | none =>
        match setBlock scan.range scan.isReverseScan b.rows with
        | (some rows, needLookingForward) =>
          (.success,
            { scan.advanceToNextBlock s with
              pending := some rows
              iterateStatus := if needLookingForward then .inProgress else .lastBlock })
        | (none, true) =>
          (.success, { scan.advanceToNextBlock s with iterateStatus := .needForward })
        | (none, false) => (.success, { s with iterateStatus := .ended })

def loadCurrentBlockAndAdvance : Ret × Scanner κ ρ :=
  let index := if s.iterateStatus.isForward then scan.ensureIndex s else (.success, s)
  let read :=
    if index.1 = .success ∧ index.2.iterateStatus.isForward = true then
      scan.readCurrentBlock index.2
    else index
  if read.1 = .success then read else (read.1, { read.2 with iterateStatus := .inError })

def fetchNextBlock : Nat → Scanner κ ρ → Option (Ret × Scanner κ ρ)
  | 0, _ => none
  | fuel + 1, s =>
    let loaded := scan.loadCurrentBlockAndAdvance s
    if loaded.1 = .success ∧ loaded.2.iterateStatus = .needForward then
      fetchNextBlock fuel loaded.2
    else some loaded

/-- `get_next_row` of the block scanner. `load_current_row` does not fail in a block that was
opened: it finds a row at every cursor up to the last one. -/
def blockGetNextRow : Except Ret (Row κ ρ × Scanner κ ρ) :=
  match s.pending with
  | none => .error .notInit
  | some [] => .error .beyondTheRange
  | some (row :: rows) => .ok (row, { s with pending := some rows })

/-- The loop of `get_next_row`, with the row it loads, if it loads one. -/
def nextFromBlocks : Nat → Scanner κ ρ → Option (Option (Row κ ρ) × Scanner κ ρ)
  | 0, _ => none
  | fuel + 1, s =>
    match scan.fetchNextBlock (fuel + 1) s with
    | none => none
    | some (ret, s) =>
      if ret = .success ∧ s.iterateStatus.isForward = true then
        match blockGetNextRow s with
        | .ok (row, s) => some (some row, s)
        | .error ret => if ret = .beyondTheRange then nextFromBlocks fuel s else some (none, s)
      else if ret = .beyondTheRange then nextFromBlocks fuel s
      else some (none, s)

/-- The end of `get_next_row`, which looks at the status and not at what happened. -/
def handOut (row : Option (Row κ ρ)) (s : Scanner κ ρ) : Except Stop (Row κ ρ × Scanner κ ρ) :=
  if s.iterateStatus.check = .success then
    match row with
    | none => .error .nullRow
    | some row =>
      match scan.disk.readRow row with
      | some ret => .error (.ret ret)
      | none => .ok (row, s)
  else .error (.ret s.iterateStatus.check)

def getNextRow (fuel : Nat) (s : Scanner κ ρ) : Except Stop (Row κ ρ × Scanner κ ρ) :=
  if s.iterateStatus.check ≠ .success then scan.handOut none s
  else if s.endOfData then scan.handOut none { s with iterateStatus := .ended }
  else
    match blockGetNextRow s with
    | .ok (row, s) => scan.handOut (some row) s
    | .error ret =>
      if ret = .beyondTheRange then
        match scan.nextFromBlocks fuel s with
        | none => .error .outOfFuel
        | some (row, s) => scan.handOut row s
      else scan.handOut none { s with iterateStatus := .ended }

/-- `set_scan_param`; a table without rows has no blocks. -/
def setScanParam (fuel : Nat) : Option (Ret × Scanner κ ρ) :=
  let s : Scanner κ ρ := ⟨.notStart, false, [], 0, none⟩
  if scan.table.blocks = [] then
    some (.success, { s with iterateStatus := .ended, endOfData := true })
  else
    let index := scan.loadBlockIndex true s
    if index.1 = .success then scan.fetchNextBlock fuel index.2 else some index

/-! ### The blocks that are still to come -/

/-- What a reverse scan reads of the blocks before a batch, from the last to the first: it leaves
one out and takes the next batch, over and over. -/
def skipping (count : Nat) : List (Block κ ρ) → List (Block κ ρ)
  | [] => []
  | _ :: blocks => blocks.take count ++ skipping count (blocks.drop count)
termination_by blocks => blocks.length
decreasing_by
  rw [List.length_drop, List.length_cons]
  omega

/-- The blocks the index finds behind a batch, in the order of the scan, when these are ahead. -/
def nextBlocks (ahead : List (Block κ ρ)) : List (Block κ ρ) :=
  if scan.isReverseScan then ahead.drop 1 else ahead

/-- The blocks of all batches to come, when these are ahead. -/
def laterBlocks (ahead : List (Block κ ρ)) : List (Block κ ρ) :=
  if scan.isReverseScan then skipping scan.batchBlockCount ahead else ahead

/-- Where the scanner stands: the blocks left in the batch, and those ahead of it in the table, in
the order of the scan. -/
structure Position (s : Scanner κ ρ) (todo ahead : List (Block κ ρ)) : Prop where
  batch_ne : s.indexArray ≠ []
  forward : scan.isReverseScan = false → 0 ≤ s.indexArrayCursor ∧
    todo = s.indexArray.drop s.indexArrayCursor.toNat ∧
    ∃ other, scan.table.blocks = other ++ s.indexArray ++ ahead
  reverse : scan.isReverseScan = true → -1 ≤ s.indexArrayCursor ∧
    s.indexArrayCursor < s.indexArray.length ∧
    todo = (s.indexArray.take (s.indexArrayCursor + 1).toNat).reverse ∧
    ∃ other, scan.table.blocks = ahead.reverse ++ s.indexArray ++ other

/-- The blocks that are still to come, in the order in which they are read. -/
def Upcoming (blocks : List (Block κ ρ)) : Prop :=
  ∃ todo ahead, scan.Position s todo ahead ∧ blocks = todo ++ scan.laterBlocks ahead

variable {scan s} {b : Block κ ρ} {todo ahead blocks batch : List (Block κ ρ)}
    {firstTime : Bool}

theorem laterBlocks_eq (ahead : List (Block κ ρ)) :
    scan.laterBlocks ahead = (scan.nextBlocks ahead).take scan.batchBlockCount ++
      scan.laterBlocks ((scan.nextBlocks ahead).drop scan.batchBlockCount) := by
  rw [laterBlocks, laterBlocks, nextBlocks]
  split_ifs
  · rcases ahead with _ | ⟨b, ahead⟩
    · simp
    · rw [skipping, drop_one, tail_cons]
  · rw [take_append_drop]

theorem Position.currentBlock_cons (h : scan.Position s (b :: todo) ahead) :
    currentBlock s = some b ∧ scan.Position (scan.advanceToNextBlock s) todo ahead := by
  rw [currentBlock]
  rcases hrev : scan.isReverseScan with _ | _
  · obtain ⟨hcursor, htodo, hblocks⟩ := h.forward hrev
    obtain ⟨c, hc⟩ : ∃ c : Nat, s.indexArrayCursor = c := ⟨s.indexArrayCursor.toNat, by omega⟩
    rw [hc, Int.toNat_natCast] at htodo
    have hlt : c < s.indexArray.length := by
      by_contra hge
      rw [drop_of_length_le (not_lt.1 hge)] at htodo
      exact absurd htodo (cons_ne_nil _ _)
    rw [drop_eq_getElem_cons hlt, List.cons.injEq] at htodo
    refine ⟨?_, h.batch_ne, fun _ => ⟨?_, ?_, hblocks⟩,
      fun h => absurd (hrev.symm.trans h) (by decide)⟩
    · rw [hc, if_pos (by omega), Int.toNat_natCast, getElem?_eq_getElem hlt, htodo.1]
    · simp only [advanceToNextBlock, hrev, Bool.false_eq_true, if_false]
      omega
    have hnext : (s.indexArrayCursor + 1).toNat = c + 1 := by omega
    simp only [advanceToNextBlock, hrev, Bool.false_eq_true, if_false, hnext]
    exact htodo.2
  · obtain ⟨hcursor, hlt, htodo, hblocks⟩ := h.reverse hrev
    have hpos : 0 ≤ s.indexArrayCursor := by
      by_contra hneg
      have hzero : (s.indexArrayCursor + 1).toNat = 0 := by omega
      rw [hzero, take_zero, reverse_nil] at htodo
      exact absurd htodo (cons_ne_nil _ _)
    obtain ⟨c, hc⟩ : ∃ c : Nat, s.indexArrayCursor = c := ⟨s.indexArrayCursor.toNat, by omega⟩
    have hclt : c < s.indexArray.length := by omega
    have hsucc : (s.indexArrayCursor + 1).toNat = c + 1 := by omega
    rw [hsucc, take_add_one, getElem?_eq_getElem hclt, Option.toList_some, reverse_append,
      reverse_singleton, singleton_append, List.cons.injEq] at htodo
    refine ⟨?_, h.batch_ne, fun h => absurd (hrev.symm.trans h) (by decide),
      fun _ => ⟨?_, ?_, ?_, hblocks⟩⟩
    · rw [hc, if_pos (by omega), Int.toNat_natCast, getElem?_eq_getElem hclt, htodo.1]
    · simp only [advanceToNextBlock]
      omega
    · simp only [advanceToNextBlock, hrev, if_true]
      omega
    have hpred : (s.indexArrayCursor - 1 + 1).toNat = c := by omega
    simp only [advanceToNextBlock, hrev, if_true, hpred]
    exact htodo.2

theorem Position.currentBlock_nil (h : scan.Position s [] ahead) : currentBlock s = none := by
  rw [currentBlock]
  rcases hrev : scan.isReverseScan with _ | _
  · obtain ⟨hcursor, htodo, -⟩ := h.forward hrev
    rw [if_pos hcursor, List.getElem?_eq_none_iff]
    exact drop_eq_nil_iff.1 htodo.symm
  obtain ⟨hcursor, hlt, htodo, -⟩ := h.reverse hrev
  have htake := reverse_eq_nil_iff.1 htodo.symm
  rw [take_eq_nil_iff] at htake
  rw [if_neg]
  have hzero := htake.resolve_right h.batch_ne
  omega

/-- The state behind a search that found a batch. -/
def withBatch (scan : Scan κ ρ) (s : Scanner κ ρ) (batch : List (Block κ ρ)) : Scanner κ ρ :=
  { s with
    indexArray := batch
    indexArrayCursor := if scan.isReverseScan then batch.length - 1 else 0
    iterateStatus := .inProgress }

theorem loadBlockIndex_ok (h : scan.searchIndex firstTime s = .ok batch) :
    scan.loadBlockIndex firstTime s = (.success, scan.withBatch s batch) := by
  rw [loadBlockIndex, h]
  rfl

theorem loadBlockIndex_beyond (h : scan.searchIndex firstTime s = .error .beyondTheRange) :
    ∃ s', scan.loadBlockIndex firstTime s = (.success, s') ∧ s'.iterateStatus = .ended ∧
      s'.endOfData = s.endOfData ∧ s'.pending = s.pending := by
  rw [loadBlockIndex, h]
  exact ⟨_, rfl, rfl, rfl, rfl⟩

theorem position_withBatch (hne : batch ≠ [])
    (hforward : scan.isReverseScan = false → ∃ other, scan.table.blocks = other ++ batch ++ ahead)
    (hreverse : scan.isReverseScan = true →
      ∃ other, scan.table.blocks = ahead.reverse ++ batch ++ other) :
    scan.Position (scan.withBatch s batch) (inOrder scan.isReverseScan batch) ahead := by
  refine ⟨hne, fun hrev => ⟨?_, ?_, hforward hrev⟩, fun hrev => ⟨?_, ?_, ?_, hreverse hrev⟩⟩
  · simp [withBatch, hrev]
  · simp [withBatch, hrev, inOrder]
  · simp only [withBatch]
    omega
  · simp only [withBatch, hrev, if_true]
    omega
  · simp [withBatch, hrev, inOrder]

theorem Position.loadBlockIndex (h : scan.Position s [] ahead) :
    (scan.nextBlocks ahead = [] ∧ ∃ s', scan.loadBlockIndex false s = (.success, s') ∧
        s'.iterateStatus = .ended ∧ s'.endOfData = s.endOfData) ∨
      ∃ batch, scan.loadBlockIndex false s = (.success, scan.withBatch s batch) ∧
        (scan.nextBlocks ahead).take scan.batchBlockCount = inOrder scan.isReverseScan batch ∧
        batch ≠ [] ∧
        scan.Position (scan.withBatch s batch) (inOrder scan.isReverseScan batch)
          ((scan.nextBlocks ahead).drop scan.batchBlockCount) := by
  have hcount := scan.batchBlockCount_pos
  -- the search finds the next batch, and there is something in it unless the end is reached
  obtain ⟨batch, hindex, hbatch, hposition⟩ : ∃ batch, scan.searchIndex false s =
      (if scan.nextBlocks ahead = [] then .error .beyondTheRange else .ok batch) ∧
      (scan.nextBlocks ahead).take scan.batchBlockCount = inOrder scan.isReverseScan batch ∧
      (batch ≠ [] → scan.Position (scan.withBatch s batch) (inOrder scan.isReverseScan batch)
        ((scan.nextBlocks ahead).drop scan.batchBlockCount)) := by
    rcases hrev : scan.isReverseScan with _ | _
    · obtain ⟨-, -, other, hblocks⟩ := h.forward hrev
      obtain ⟨init, last, hbatch⟩ : ∃ init last, s.indexArray = init ++ [last] :=
        ⟨_, _, (dropLast_append_getLast h.batch_ne).symm⟩
      have hsplit : scan.table.blocks = (other ++ init) ++ last :: ahead := by
        simp [hblocks, hbatch]
      have hsearch := searchByOffset_greaterThan scan.table.offsets_increasing
        scan.table.offset_nonneg hsplit hcount
      have hnext : scan.nextBlocks ahead = ahead := by simp [nextBlocks, hrev]
      rw [hnext, ← hrev]
      refine ⟨ahead.take scan.batchBlockCount, ?_, by simp [inOrder, hrev],
        fun hne => position_withBatch hne (fun _ => ⟨other ++ s.indexArray, ?_⟩)
          fun h => absurd (hrev.symm.trans h) (by decide)⟩
      · rw [← hsearch]
        simp [searchIndex, hrev, hbatch]
      · rw [append_assoc, take_append_drop, hblocks]
    · obtain ⟨-, -, -, other, hblocks⟩ := h.reverse hrev
      obtain ⟨head, tail, hbatch⟩ : ∃ head tail, s.indexArray = head :: tail :=
        exists_cons_of_ne_nil h.batch_ne
      have hsplit : scan.table.blocks = ahead.reverse ++ head :: (tail ++ other) := by
        simp [hblocks, hbatch]
      have hsearch := searchByOffset_lessThan scan.table.offsets_increasing
        scan.table.offset_nonneg hsplit hcount
      rw [reverse_reverse] at hsearch
      have hnext : scan.nextBlocks ahead = ahead.drop 1 := by simp [nextBlocks, hrev]
      rw [hnext, ← hrev]
      refine ⟨((ahead.drop 1).take scan.batchBlockCount).reverse, ?_, by simp [inOrder, hrev],
        fun hne => position_withBatch hne (fun h => absurd (hrev.symm.trans h) (by decide))
        fun _ => ⟨(ahead.take 1).reverse ++ s.indexArray ++ other, ?_⟩⟩
      · rw [← hsearch]
        simp [searchIndex, hrev, hbatch]
      rw [← reverse_append, take_append_drop, hblocks]
      simp only [← append_assoc]
      rw [← reverse_append, take_append_drop]
  by_cases hnil : scan.nextBlocks ahead = []
  · rw [if_pos hnil] at hindex
    obtain ⟨s', hload, hstatus, hdata, -⟩ := loadBlockIndex_beyond hindex
    exact .inl ⟨hnil, s', hload, hstatus, hdata⟩
  rw [if_neg hnil] at hindex
  have hne : batch ≠ [] := by
    rintro rfl
    rw [inOrder, reverse_nil, ite_self, take_eq_nil_iff] at hbatch
    exact hbatch.elim (by omega) hnil
  exact .inr ⟨batch, loadBlockIndex_ok hindex, hbatch, hne, hposition hne⟩

/-- The scanner goes on to the next block. -/
def Ready (s : Scanner κ ρ) : Prop :=
  s.iterateStatus = .inProgress ∨ s.iterateStatus = .needForward

omit [LinearOrder κ] in
theorem Ready.isForward (h : Ready s) : s.iterateStatus.isForward = true := by
  obtain h | h := h <;> rw [h] <;> rfl

theorem Ready.ensureIndex (h : Ready s) :
    scan.ensureIndex s =
      if (currentBlock s).isNone then scan.loadBlockIndex false s else (.success, s) := by
  rw [Scan.ensureIndex, if_neg]
  obtain h | h := h <;> rw [h] <;> decide

variable {t : Scanner κ ρ} {ret : Ret}

theorem load_of_ended (hready : Ready s)
    (hindex : scan.ensureIndex s = (.success, t)) (ht : t.iterateStatus = .ended) :
    scan.loadCurrentBlockAndAdvance s = (.success, t) := by
  have hnot : t.iterateStatus.isForward = false := by
    rw [ht]
    rfl
  simp [loadCurrentBlockAndAdvance, hready.isForward, hindex, hnot]

theorem load_of_ready (hready : Ready s)
    (hindex : scan.ensureIndex s = (.success, t)) (ht : Ready t) :
    scan.loadCurrentBlockAndAdvance s =
      if (scan.readCurrentBlock t).1 = .success then scan.readCurrentBlock t
      else ((scan.readCurrentBlock t).1,
        { (scan.readCurrentBlock t).2 with iterateStatus := .inError }) := by
  simp [loadCurrentBlockAndAdvance, hready.isForward, hindex, ht.isForward]

theorem load_nil (h : scan.Upcoming s []) (hready : Ready s) :
    ∃ s', scan.loadCurrentBlockAndAdvance s = (.success, s') ∧ s'.iterateStatus = .ended ∧
      s'.endOfData = s.endOfData := by
  obtain ⟨todo, ahead, hposition, hnil⟩ := h
  obtain ⟨rfl, hlater⟩ := append_eq_nil_iff.1 hnil.symm
  rw [laterBlocks_eq] at hlater
  obtain ⟨hnext, s', hload, hstatus, hdata⟩ | ⟨batch, -, hbatch, hne, -⟩ :=
    hposition.loadBlockIndex
  · refine ⟨s', ?_, hstatus, hdata⟩
    refine load_of_ended hready ?_ hstatus
    rwa [hready.ensureIndex, hposition.currentBlock_nil]
  rw [hbatch, append_eq_nil_iff] at hlater
  refine absurd hlater.1 ?_
  rw [inOrder]
  split_ifs <;> simp [hne]

theorem load_cons (h : scan.Upcoming s (b :: blocks)) (hready : Ready s) :
    ∃ t, Ready t ∧ t.pending = s.pending ∧ t.endOfData = s.endOfData ∧ currentBlock t = some b ∧
      scan.Upcoming t (b :: blocks) ∧ scan.Upcoming (scan.advanceToNextBlock t) blocks ∧
      scan.loadCurrentBlockAndAdvance s =
        if (scan.readCurrentBlock t).1 = .success then scan.readCurrentBlock t
        else ((scan.readCurrentBlock t).1,
          { (scan.readCurrentBlock t).2 with iterateStatus := .inError }) := by
  obtain ⟨todo, ahead, hposition, heq⟩ := h
  rcases todo with _ | ⟨b', todo⟩
  · rw [nil_append, laterBlocks_eq] at heq
    obtain ⟨hnext, -⟩ | ⟨batch, hload, hbatch, hne, hposition'⟩ := hposition.loadBlockIndex
    · rw [hnext, take_nil, drop_nil, nil_append, laterBlocks] at heq
      split_ifs at heq
      rw [skipping] at heq
      exact absurd heq (cons_ne_nil _ _)
    rw [hbatch] at heq
    have hready' : Ready (scan.withBatch s batch) := .inl rfl
    have hupcoming : scan.Upcoming (scan.withBatch s batch) (b :: blocks) :=
      ⟨_, _, hposition', heq⟩
    rcases htodo : inOrder scan.isReverseScan batch with _ | ⟨b', todo⟩
    · rw [inOrder] at htodo
      split_ifs at htodo
      · exact absurd (reverse_eq_nil_iff.1 htodo) hne
      · exact absurd htodo hne
    rw [htodo] at heq hposition'
    obtain ⟨rfl, rfl⟩ := List.cons.inj heq
    obtain ⟨hcurrent, hnext⟩ := hposition'.currentBlock_cons
    refine ⟨_, hready', rfl, rfl, hcurrent, hupcoming, ⟨_, _, hnext, rfl⟩, ?_⟩
    refine load_of_ready hready ?_ hready'
    rwa [hready.ensureIndex, hposition.currentBlock_nil]
  · obtain ⟨rfl, rfl⟩ := List.cons.inj heq
    obtain ⟨hcurrent, hnext⟩ := hposition.currentBlock_cons
    refine ⟨s, hready, rfl, rfl, hcurrent, ⟨_, _, hposition, heq⟩, ⟨_, _, hnext, rfl⟩, ?_⟩
    refine load_of_ready hready ?_ hready
    rw [hready.ensureIndex, hcurrent]
    rfl

/-! ### Fetching a block -/

/-- What fetching the next block comes to. -/
inductive Fetched (κ ρ : Type)
  | ended
  | failed
  | stuck
  | located (rows : List (Row κ ρ)) (needLookingForward : Bool) (blocks : List (Block κ ρ))

/-- What fetching the next block comes to, when these blocks are to come. -/
def fetched (scan : Scan κ ρ) : List (Block κ ρ) → Fetched κ ρ
  | [] => .ended
  | b :: blocks =>
    match scan.disk.readBlock b, scan.disk.openBlock b,
        setBlock scan.range scan.isReverseScan b.rows with
    | .failed _, _, _ => .failed
    | .noData, _, _ => .stuck
    | .data, some _, _ => .failed
    | .data, none, (some rows, needLookingForward) => .located rows needLookingForward blocks
    | .data, none, (none, true) => fetched scan blocks
    | .data, none, (none, false) => .ended

theorem Upcoming.congr (h : scan.Upcoming s blocks)
    (hindex : t.indexArray = s.indexArray) (hcursor : t.indexArrayCursor = s.indexArrayCursor) :
    scan.Upcoming t blocks := by
  obtain ⟨todo, ahead, ⟨hne, hforward, hreverse⟩, heq⟩ := h
  rw [← hindex] at hne
  rw [← hindex, ← hcursor] at hforward hreverse
  exact ⟨todo, ahead, ⟨hne, hforward, hreverse⟩, heq⟩

theorem fetchNextBlock_succ (fuel : Nat) (hload : scan.loadCurrentBlockAndAdvance s = (ret, t))
    (hdone : ret ≠ .success ∨ t.iterateStatus ≠ .needForward) :
    scan.fetchNextBlock (fuel + 1) s = some (ret, t) := by
  simp only [fetchNextBlock, hload]
  refine if_neg fun h => ?_
  obtain hret | hstatus := hdone
  · exact hret h.1
  · exact hstatus h.2

theorem load_failed
    (hload : scan.loadCurrentBlockAndAdvance s =
      if (scan.readCurrentBlock t).1 = .success then scan.readCurrentBlock t
      else ((scan.readCurrentBlock t).1,
        { (scan.readCurrentBlock t).2 with iterateStatus := .inError }))
    (hread : scan.readCurrentBlock t = (ret, t)) (hret : ret ≠ .success) :
    scan.loadCurrentBlockAndAdvance s = (ret, { t with iterateStatus := .inError }) := by
  rw [hload, hread, if_neg hret]

/-- A block without rows in the range is passed, and the loop goes on with the next one. -/
theorem fetchNextBlock_skipped (h : scan.Upcoming s (b :: blocks)) (hready : Ready s)
    (hread : scan.disk.readBlock b = .data) (hopen : scan.disk.openBlock b = none)
    (hset : setBlock scan.range scan.isReverseScan b.rows = (none, true)) :
    ∃ t, (∀ fuel, scan.fetchNextBlock (fuel + 1) s = scan.fetchNextBlock fuel t) ∧
      scan.Upcoming t blocks ∧ Ready t ∧ t.pending = s.pending ∧ t.endOfData = s.endOfData := by
  obtain ⟨t, -, hpending, hdata, hcurrent, -, hnext, hload⟩ := load_cons h hready
  simp only [readCurrentBlock, hcurrent, hread, hopen, hset] at hload
  refine ⟨{ scan.advanceToNextBlock t with iterateStatus := .needForward }, fun fuel => ?_,
    hnext.congr rfl rfl, .inr rfl, hpending, hdata⟩
  simp [fetchNextBlock, hload]

theorem fetchNextBlock_spec {fuel : Nat} (h : scan.Upcoming s blocks) (hready : Ready s)
    (hfuel : blocks.length < fuel) (hstuck : scan.fetched blocks ≠ .stuck) :
    ∃ ret s', scan.fetchNextBlock fuel s = some (ret, s') ∧ s'.endOfData = s.endOfData ∧
      match scan.fetched blocks with
      | .ended => ret = .success ∧ s'.iterateStatus = .ended
      | .failed => ret ≠ .success ∧ s'.iterateStatus = .inError
      | .stuck => False
      | .located rows need blocks' => ret = .success ∧ s'.pending = some rows ∧
          s'.iterateStatus = (if need then .inProgress else .lastBlock) ∧
          scan.Upcoming s' blocks' := by
  induction blocks generalizing s fuel with
  | nil =>
    obtain ⟨fuel, rfl⟩ : ∃ f, fuel = f + 1 := ⟨fuel - 1, by omega⟩
    obtain ⟨s', hload, hstatus, hdata⟩ := load_nil h hready
    refine ⟨.success, s', fetchNextBlock_succ fuel hload (.inr ?_), hdata, rfl, hstatus⟩
    rw [hstatus]
    decide
  | cons b blocks ih =>
    obtain ⟨fuel, rfl⟩ : ∃ f, fuel = f + 1 := ⟨fuel - 1, by omega⟩
    obtain ⟨t, ht, -, hdata, hcurrent, -, hnext, hload⟩ := load_cons h hready
    cases hread : scan.disk.readBlock b with
    | failed ret =>
      have hblock : scan.readCurrentBlock t = (ret, t) := by
        simp [readCurrentBlock, hcurrent, hread]
      have hret := scan.disk.readBlock_failed b ret hread
      refine ⟨_, _, fetchNextBlock_succ fuel (load_failed hload hblock hret) (.inl hret), hdata, ?_⟩
      simp only [fetched, hread]
      exact ⟨hret, trivial⟩
    | noData =>
      refine absurd ?_ hstuck
      simp [fetched, hread]
    | data =>
      rcases hopen : scan.disk.openBlock b with _ | ret
      · obtain ⟨located, need, hset⟩ : ∃ located need,
            setBlock scan.range scan.isReverseScan b.rows = (located, need) := ⟨_, _, rfl⟩
        simp only [readCurrentBlock, hcurrent, hread, hopen, hset] at hload
        simp only [fetched, hread, hopen, hset] at hstuck ⊢
        rcases located with _ | rows
        · rcases need with _ | _
          · exact ⟨_, _, fetchNextBlock_succ fuel hload (.inr (by simp)), hdata, rfl, rfl⟩
          obtain ⟨t, hfetch, hupcoming, ht, -, hdata⟩ :=
            fetchNextBlock_skipped h hready hread hopen hset
          rw [length_cons] at hfuel
          obtain ⟨ret, s', hs', hdata', hmatch⟩ :=
            ih hupcoming ht (show blocks.length < fuel by omega) hstuck
          rw [hfetch]
          exact ⟨ret, s', hs', hdata'.trans hdata, hmatch⟩
        · refine ⟨_, _, fetchNextBlock_succ fuel hload (.inr ?_), hdata, rfl, rfl, rfl,
            hnext.congr rfl rfl⟩
          cases need <;> simp
      · have hblock : scan.readCurrentBlock t = (ret, t) := by
          simp [readCurrentBlock, hcurrent, hread, hopen]
        have hret := (scan.disk.openBlock_failed b ret hopen).1
        refine ⟨_, _, fetchNextBlock_succ fuel (load_failed hload hblock hret) (.inl hret), hdata,
          ?_⟩
        simp only [fetched, hread, hopen]
        exact ⟨hret, trivial⟩

theorem fetched_eq_stuck (h : scan.fetched (b :: blocks) = .stuck) :
    scan.disk.readBlock b = .noData ∨
      scan.disk.readBlock b = .data ∧ scan.disk.openBlock b = none ∧
        setBlock scan.range scan.isReverseScan b.rows = (none, true) ∧
        scan.fetched blocks = .stuck := by
  rw [fetched] at h
  split at h
  case h_2 hread => exact .inl hread
  case h_5 hread hopen hset => exact .inr ⟨hread, hopen, hset, h⟩
  all_goals cases h

/-- At a block without data the loop goes on for ever, or stands where it stood. -/
theorem fetchNextBlock_stuck (fuel : Nat) (h : scan.Upcoming s blocks) (hready : Ready s)
    (hstuck : scan.fetched blocks = .stuck) :
    scan.fetchNextBlock fuel s = none ∨
      ∃ s' blocks', scan.fetchNextBlock fuel s = some (.success, s') ∧
        s'.iterateStatus = .inProgress ∧ s'.pending = s.pending ∧ s'.endOfData = s.endOfData ∧
        scan.Upcoming s' blocks' ∧ scan.fetched blocks' = .stuck := by
  induction fuel generalizing s blocks with
  | zero => exact .inl rfl
  | succ fuel ih =>
    rcases blocks with _ | ⟨b, blocks⟩
    · exact absurd hstuck (by simp [fetched])
    obtain hread | ⟨hread, hopen, hset, hstuck'⟩ := fetched_eq_stuck hstuck
    · obtain ⟨t, ht, hpending, hdata, hcurrent, hupcoming, -, hload⟩ := load_cons h hready
      simp only [readCurrentBlock, hcurrent, hread] at hload
      obtain hprogress | hforward := ht
      · have hfetch := fetchNextBlock_succ fuel hload (.inr (by simp [hprogress]))
        exact .inr ⟨t, _, hfetch, hprogress, hpending, hdata, hupcoming, hstuck⟩
      have hfetch : scan.fetchNextBlock (fuel + 1) s = scan.fetchNextBlock fuel t := by
        simp [fetchNextBlock, hload, hforward]
      rw [hfetch, ← hpending, ← hdata]
      exact ih hupcoming (.inr hforward) hstuck
    · obtain ⟨t, hfetch, hupcoming, ht, hpending, hdata⟩ :=
        fetchNextBlock_skipped h hready hread hopen hset
      rw [hfetch, ← hpending, ← hdata]
      exact ih hupcoming ht hstuck'

end Scan

end OceanBase.CompactSSTable
