import OceanBase.CompactSSTable.ScanOrder

/-!
# Scans that find every row, and scans that do not

A forward scan without failures hands out just the rows of its range. A reverse scan does so unless
the block it leaves out behind its first batch has a row of the range. A scan that reports its end
has handed out every row, unless it is such a reverse scan, or the first step that failed is one the
scanner does not report.
-/

namespace OceanBase.CompactSSTable

open Lib List

variable {κ ρ : Type} [LinearOrder κ]

omit [LinearOrder κ] in
/-- Nothing fails in reading these blocks and their rows. -/
def Disk.NoErrors (disk : Disk κ ρ) (blocks : List (Block κ ρ)) : Prop :=
  ∀ b ∈ blocks, disk.readBlock b = .data ∧ disk.openBlock b = none ∧
    ∀ row ∈ b.rows, disk.readRow row = none

namespace Scan

variable {scan : Scan κ ρ} {blocks : List (Block κ ρ)} {rows outs : List (Row κ ρ)}
  {fuel : Nat} {stop : Stop}

theorem failureOfRows_eq_none (h : ∀ row ∈ rows, scan.disk.readRow row = none) :
    scan.failureOfRows rows = none := by
  induction rows with
  | nil => rfl
  | cons row rows ih =>
    rw [forall_mem_cons] at h
    simp only [failureOfRows, h.1]
    exact ih h.2

theorem failure_eq_none (hrows : ∀ b ∈ blocks, Increasing b.rows)
    (h : scan.disk.NoErrors blocks) : scan.failure blocks = none := by
  induction blocks with
  | nil => rfl
  | cons b blocks ih =>
    rw [Disk.NoErrors, forall_mem_cons] at h
    rw [forall_mem_cons] at hrows
    obtain ⟨⟨hread, hopen, hrow⟩, hblocks⟩ := h
    obtain ⟨need, hlocated, -, -⟩ : ∃ need,
        (setBlock scan.range scan.isReverseScan b.rows).1.getD [] = _ ∧ _ = need ∧ (_ → _) :=
      setBlock_getD hrows.1
    have hfailure : scan.failureOfRows
        ((setBlock scan.range scan.isReverseScan b.rows).1.getD []) = none := by
      rw [hlocated]
      refine failureOfRows_eq_none fun row hmem => hrow row ?_
      rw [inOrder] at hmem
      split_ifs at hmem
      · exact mem_of_mem_filter (mem_reverse.1 hmem)
      · exact mem_of_mem_filter hmem
    simp [failure, hread, hopen, hfailure, ih hrows.2 hblocks]

theorem mem_blocks_of_mem_blocksRead {b : Block κ ρ} (hb : b ∈ scan.blocksRead) :
    b ∈ scan.table.blocks := by
  have hmem := scan.blocksRead_sublist.subset hb
  rw [inOrder] at hmem
  split_ifs at hmem
  · exact mem_reverse.1 hmem
  · exact hmem

theorem failure_blocksRead (h : scan.disk.NoErrors scan.table.blocks) :
    scan.failure scan.blocksRead = none :=
  failure_eq_none (fun _ hb => scan.table.increasing_rows (mem_blocks_of_mem_blocksRead hb))
    fun b hb => h b (mem_blocks_of_mem_blocksRead hb)

/-- Without failures the scan hands out the rows of the blocks it reads, and ends. -/
theorem scans_of_noErrors (scan : Scan κ ρ) (h : scan.disk.NoErrors scan.table.blocks)
    (hfuel : scan.table.blocks.length < fuel) :
    scan.Scans fuel (scan.rowsOf scan.blocksRead) (.ret .iterEnd) ∧
      ∃ s, scan.setScanParam fuel = some (.success, s) := by
  obtain ⟨outs, stop, hscans, hends, hset⟩ := spec_blocksRead hfuel
  have hnone := failure_blocksRead h
  rw [hnone] at hends
  obtain ⟨rfl, rfl⟩ := hends
  exact ⟨hscans, hset hnone⟩

/-- The rows with the keys 1, 2 and 3, each in a block of its own. -/
def threeBlocks : SSTable Nat Unit where
  blocks := [⟨0, [⟨1, ()⟩], by simp⟩, ⟨1, [⟨2, ()⟩], by simp⟩, ⟨2, [⟨3, ()⟩], by simp⟩]
  offset_nonneg := by simp
  offsets_increasing := by simp
  rows_increasing := by simp [IncreasingBy]

/-- Nothing fails, but there is no decompressor for the block at one offset. -/
def withoutDecompressor (offset : Int) : Disk Nat Unit where
  readBlock := fun b => if b.offset = offset then .noData else .data
  openBlock := fun _ => none
  readRow := fun _ => none
  readBlock_failed := by
    intro b ret h
    split_ifs at h
  openBlock_failed := by simp
  readRow_failed := by simp

/-- The scan of the rows above 1 and up to 3. -/
def scanThree (isReverseScan : Bool) (offset : Int) (count : Nat) : Scan Nat Unit where
  table := threeBlocks
  disk := withoutDecompressor offset
  range := ⟨some 1, some 3, false, true⟩
  isReverseScan := isReverseScan
  batchBlockCount := count + 1
  batchBlockCount_pos := by omega

theorem noErrors_scanThree (isReverseScan : Bool) (count : Nat) :
    (scanThree isReverseScan (-1) count).disk.NoErrors threeBlocks.blocks := by
  simp [Disk.NoErrors, scanThree, withoutDecompressor, threeBlocks]

/-- A forward scan without failures hands out the rows of the range, in the order of their keys, and
then reports its end. -/
theorem forward_scan (hforward : scan.isReverseScan = false)
    (hdisk : scan.disk.NoErrors scan.table.blocks) (hfuel : scan.table.blocks.length < fuel) :
    ∃ s, scan.setScanParam fuel = some (.success, s) ∧
      Yields (scan.getNextRow fuel)
        (scan.range.filter (scan.table.blocks.flatMap Block.rows)) (.ret .iterEnd) s ∧
      Increasing (scan.range.filter (scan.table.blocks.flatMap Block.rows)) := by
  obtain ⟨hscans, s, hset⟩ := scans_of_noErrors scan hdisk hfuel
  rw [Scans, hset, rowsOf_forward hforward] at hscans
  exact ⟨s, hset, hscans, scan.table.rows_increasing.sublist filter_sublist⟩

theorem forward_scanThree : ∃ s, (scanThree false (-1) 0).setScanParam 4 = some (.success, s) ∧
    Yields ((scanThree false (-1) 0).getNextRow 4) [⟨2, ()⟩, ⟨3, ()⟩] (.ret .iterEnd) s ∧
    Increasing ([⟨2, ()⟩, ⟨3, ()⟩] : List (Row Nat Unit)) :=
  forward_scan rfl (noErrors_scanThree false 0) (by decide)

/-- The scan in the given direction. -/
def directed (scan : Scan κ ρ) (isReverseScan : Bool) : Scan κ ρ :=
  { scan with isReverseScan }

/-- The reverse scan hands out the rows of the forward scan, from the last to the first. -/
def ReversesForward (scan : Scan κ ρ) (fuel : Nat) : Prop :=
  ∃ outs, (scan.directed false).Scans fuel outs (.ret .iterEnd) ∧
    (scan.directed true).Scans fuel outs.reverse (.ret .iterEnd)

theorem reversesForward_iff (hdisk : scan.disk.NoErrors scan.table.blocks)
    (hfuel : scan.table.blocks.length < fuel) :
    scan.ReversesForward fuel ↔ ∀ b ∈ scan.skippedBlock, scan.range.filter b.rows = [] := by
  have hforward : (scan.directed false).Scans fuel
      (scan.range.filter (scan.table.blocks.flatMap Block.rows)) (.ret .iterEnd) := by
    have hrows : (scan.directed false).rowsOf (scan.directed false).blocksRead =
        scan.range.filter (scan.table.blocks.flatMap Block.rows) := rowsOf_forward rfl
    rw [← hrows]
    exact (scans_of_noErrors (scan.directed false) hdisk hfuel).1
  have hreverse : (scan.directed true).Scans fuel
      ((scan.directed true).rowsOf (scan.directed true).blocksRead) (.ret .iterEnd) :=
    (scans_of_noErrors (scan.directed true) hdisk hfuel).1
  have hiff : (scan.directed true).rowsOf (scan.directed true).blocksRead =
      (scan.range.filter (scan.table.blocks.flatMap Block.rows)).reverse ↔
        ∀ b ∈ scan.skippedBlock, scan.range.filter b.rows = [] := rowsOf_reverse_iff rfl
  rw [← hiff]
  constructor
  · rintro ⟨outs, hforward', hreverse'⟩
    rw [(hforward.unique hforward').1]
    exact (hreverse.unique hreverse').1
  intro heq
  rw [heq] at hreverse
  exact ⟨_, hforward, hreverse⟩

theorem reversesForward_scanThree : (scanThree false (-1) 2).ReversesForward 4 := by
  have hskipped : (scanThree false (-1) 2).skippedBlock = none := rfl
  refine (reversesForward_iff (noErrors_scanThree false 2) (by decide)).2 ?_
  rw [hskipped]
  simp

/-- With batches of one block the reverse scan leaves out the block in the middle. -/
theorem not_reversesForward_scanThree : ¬ (scanThree false (-1) 0).ReversesForward 4 := by
  rintro ⟨outs, hforward, hreverse⟩
  have hall : ((scanThree false (-1) 0).directed false).Scans 4 [⟨2, ()⟩, ⟨3, ()⟩]
      (.ret .iterEnd) := ⟨_, rfl, _, rfl, rfl⟩
  have hsome : ((scanThree false (-1) 0).directed true).Scans 4 [⟨3, ()⟩] (.ret .iterEnd) :=
    ⟨_, rfl, rfl⟩
  obtain ⟨rfl, -⟩ := hforward.unique hall
  have hlength := congrArg List.length (hreverse.unique hsome).1
  exact absurd hlength (by decide)

/-! ### Failures -/

variable {s t : Scanner κ ρ} {row : Row κ ρ}

theorem handOut_ok {row : Option (Row κ ρ)} {row' : Row κ ρ}
    (h : scan.handOut row s = .ok (row', t)) : row = some row' ∧ scan.disk.readRow row' = none := by
  rw [handOut.eq_def] at h
  split_ifs at h
  split at h
  · simp at h
  split at h
  · simp at h
  · next hread =>
    obtain ⟨rfl, -⟩ := h
    exact ⟨rfl, hread⟩

/-- A row that is handed out was read. -/
theorem getNextRow_ok (h : scan.getNextRow fuel s = .ok (row, t)) :
    scan.disk.readRow row = none := by
  rw [getNextRow] at h
  split_ifs at h
  · exact (handOut_ok h).2
  · exact (handOut_ok h).2
  split at h
  · exact (handOut_ok h).2
  split_ifs at h
  · split at h
    · simp at h
    · exact (handOut_ok h).2
  · exact (handOut_ok h).2

theorem Scans.read (h : scan.Scans fuel outs stop) :
    ∀ row ∈ outs, scan.disk.readRow row = none := by
  rw [Scans] at h
  split at h
  · simp [h.1]
  · exact h.forall_mem fun _ _ _ => getNextRow_ok

/-- A step that fails is reported, no row is handed out or read through that was not loaded, and the
end comes only behind all rows of the range. -/
def Sound (scan : Scan κ ρ) (fuel : Nat) : Prop :=
  ∃ outs ret, scan.Scans fuel outs (.ret ret) ∧ ret ≠ .success ∧
    (∀ row ∈ outs, scan.disk.readRow row = none) ∧
    (ret = .iterEnd → scan.failure scan.blocksRead = none ∧
      outs = inOrder scan.isReverseScan
        (scan.range.filter (scan.table.blocks.flatMap Block.rows)))

theorem rowsOf_iff :
    scan.rowsOf scan.blocksRead = inOrder scan.isReverseScan
        (scan.range.filter (scan.table.blocks.flatMap Block.rows)) ↔
      scan.isReverseScan = false ∨ ∀ b ∈ scan.skippedBlock, scan.range.filter b.rows = [] := by
  rcases hrev : scan.isReverseScan with _ | _
  · exact iff_of_true (rowsOf_forward hrev) (.inl rfl)
  · rw [or_iff_right (by decide), ← rowsOf_reverse_iff hrev]
    rfl

/-- **A scan is sound exactly when** the first step that fails, if one does, is one the scanner
reports, and, if none does, the scan leaves no block with rows of its range out. -/
theorem sound_iff (hfuel : scan.table.blocks.length < fuel) :
    scan.Sound fuel ↔
      (∀ f ∈ scan.failure scan.blocksRead, f.isReported = true) ∧
        (scan.failure scan.blocksRead = none →
          scan.isReverseScan = false ∨ ∀ b ∈ scan.skippedBlock, scan.range.filter b.rows = []) := by
  obtain ⟨outs, stop, hscans, hends, -⟩ := spec_blocksRead hfuel
  rw [← rowsOf_iff]
  rcases hfailure : scan.failure scan.blocksRead with _ | f
  · rw [hfailure] at hends
    obtain ⟨rfl, rfl⟩ := hends
    constructor
    · rintro ⟨outs', ret, hscans', -, -, hcomplete⟩
      obtain ⟨rfl, hstop⟩ := hscans.unique hscans'
      refine ⟨by simp, fun _ => (hcomplete (Stop.ret.inj hstop).symm).2⟩
    · intro hcond
      exact ⟨_, .iterEnd, hscans, by decide, hscans.read, fun _ => ⟨hfailure, hcond.2 rfl⟩⟩
  rw [hfailure] at hends
  rcases hreported : f.isReported with _ | _
  · -- The scan ends as if nothing had failed, or does not come back with an answer.
    simp only [Ends, hreported] at hends
    refine iff_of_false ?_ (by simp [hreported])
    rintro ⟨outs', ret, hscans', -, -, hcomplete⟩
    obtain ⟨-, rfl⟩ := hscans.unique hscans'
    obtain hend | hfuel := hends
    · exact absurd ((hcomplete (Stop.ret.inj hend)).1.symm.trans hfailure) (by simp)
    · exact absurd hfuel (by simp)
  · simp only [Ends, hreported] at hends
    obtain ⟨ret, rfl, hsuccess, hend⟩ := hends
    refine iff_of_true ⟨outs, ret, hscans, hsuccess, hscans.read, fun h => absurd h hend⟩ ?_
    simp [hreported]

theorem sound_scanThree : (scanThree false (-1) 0).Sound 4 := by
  have hnone : (scanThree false (-1) 0).failure (scanThree false (-1) 0).blocksRead = none :=
    failure_blocksRead (noErrors_scanThree false 0)
  refine (sound_iff (by decide)).2 ⟨?_, fun _ => .inl rfl⟩
  rw [hnone]
  simp

/-- There is no decompressor for the first block that is read, and the scan ends without a row;
there is none for the next one, and the second call does not come back. -/
theorem not_sound_scanThree :
    (scanThree false 1 0).Scans 4 [] (.ret .iterEnd) ∧ ¬ (scanThree false 1 0).Sound 4 ∧
      (scanThree false 2 0).Scans 4 [⟨2, ()⟩] .outOfFuel ∧ ¬ (scanThree false 2 0).Sound 4 := by
  have hend : (scanThree false 1 0).Scans 4 [] (.ret .iterEnd) := rfl
  have hstuck : (scanThree false 2 0).Scans 4 [⟨2, ()⟩] .outOfFuel := ⟨_, rfl, rfl⟩
  refine ⟨hend, ?_, hstuck, ?_⟩
  · rintro ⟨outs, ret, hscans, -, -, hcomplete⟩
    obtain ⟨rfl, hstop⟩ := hend.unique hscans
    have hlength := congrArg List.length (hcomplete (Stop.ret.inj hstop).symm).2
    exact absurd hlength (by decide)
  · rintro ⟨outs, ret, hscans, -⟩
    exact absurd (hstuck.unique hscans).2 (by simp)

end Scan

end OceanBase.CompactSSTable
