import OceanBase.CompactSSTable.ScanRows

/-!
# The rows of forward and reverse scans

The blocks a scan reads (`blocksRead`) are a part of the table in the order of the scan. A forward
scan leaves out only blocks that end before the range. A reverse scan leaves out a block between any
two batches of the index, and hands out all rows of the range when the first of these blocks has
none (`rowsOf_reverse_iff`).
-/

namespace OceanBase.CompactSSTable

open Lib List

variable {κ ρ : Type} [LinearOrder κ] {range : ObNewRange κ} {b c : Block κ ρ} {row : Row κ ρ}
    {rows : List (Row κ ρ)} {isReverseScan : Bool}

/-- The keys of one block are below those of the other. -/
def Block.Before (b c : Block κ ρ) : Prop := ∀ row ∈ b.rows, ∀ row' ∈ c.rows, row.key < row'.key

/-- The second block comes later in the scan. -/
def Block.Behind (isReverseScan : Bool) (b c : Block κ ρ) : Prop :=
  if isReverseScan then c.Before b else b.Before c

theorem Block.key_le_endKey (h : Increasing b.rows) (hrow : row ∈ b.rows) : row.key ≤ b.endKey := by
  have hlast := dropLast_append_getLast b.rows_ne
  rw [← hlast] at hrow h
  obtain hinit | hlast := mem_append.1 hrow
  · exact ((pairwise_append.1 h).2.2 row hinit _ (mem_singleton_self _)).le
  · rw [mem_singleton.1 hlast]
    exact le_rfl

theorem Block.filter_eq_nil (hrows : Increasing b.rows)
    (h : range.aboveStart b.endKey = false) : range.filter b.rows = [] := by
  refine filter_eq_nil_of_aboveStart fun row hrow => ?_
  obtain heq | hlt := (Block.key_le_endKey hrows hrow).eq_or_lt
  · rwa [heq]
  · exact aboveStart_eq_false_of_lt hlt h

theorem Closed.filter_eq_nil (h : Closed range isReverseScan b.rows)
    (hbehind : b.Behind isReverseScan c) : range.filter c.rows = [] := by
  rcases isReverseScan with _ | _
  · obtain ⟨row, hrow, hend⟩ := h
    exact filter_eq_nil_of_belowEnd fun row' hrow' => hend _ (hbehind row hrow row' hrow')
  obtain ⟨row, hrow, hstart⟩ := h
  exact filter_eq_nil_of_aboveStart fun row' hrow' =>
    aboveStart_eq_false_of_lt (hbehind row' hrow' row hrow) hstart

namespace SSTable

variable (table : SSTable κ ρ)

theorem increasing_rows (hb : b ∈ table.blocks) : Increasing b.rows :=
  (pairwise_flatMap.1 table.rows_increasing).1 b hb

theorem pairwise_before : table.blocks.Pairwise Block.Before :=
  (pairwise_flatMap.1 table.rows_increasing).2

theorem increasing_endKey : IncreasingBy Block.endKey table.blocks := by
  refine table.pairwise_before.imp fun {b c} hbefore => ?_
  exact hbefore _ (getLast_mem b.rows_ne) _ (getLast_mem c.rows_ne)

theorem pairwise_behind (isReverseScan : Bool) :
    (inOrder isReverseScan table.blocks).Pairwise (Block.Behind isReverseScan) := by
  rcases isReverseScan with _ | _
  · exact table.pairwise_before
  · exact pairwise_reverse.2 table.pairwise_before

end SSTable

namespace Scan

variable {scan : Scan κ ρ} {blocks : List (Block κ ρ)} {fuel : Nat} {s : Scanner κ ρ}

theorem setBlock_getD (h : Increasing b.rows) :
    ∃ need, (setBlock range isReverseScan b.rows).1.getD [] =
        inOrder isReverseScan (range.filter b.rows) ∧
      (setBlock range isReverseScan b.rows).2 = need ∧
      (need = false → Closed range isReverseScan b.rows) := by
  obtain ⟨need, hset, hclosed⟩ : ∃ need,
      setBlock range isReverseScan b.rows = (_, need) ∧ (need = false → _) :=
    setBlock_spec b.rows_ne h
  refine ⟨need, ?_, by rw [hset], hclosed⟩
  rw [hset]
  by_cases hnil : range.filter b.rows = []
  · rw [if_pos hnil, hnil]
    cases isReverseScan <;> rfl
  · rw [if_neg hnil, Option.getD_some]

/-- Without a failure, and apart from blocks the scan leaves out, all rows of the range. -/
theorem rowsOf_eq (h : blocks.Sublist (inOrder scan.isReverseScan scan.table.blocks)) :
    scan.rowsOf blocks =
      blocks.flatMap fun b => inOrder scan.isReverseScan (scan.range.filter b.rows) := by
  have hrows : ∀ b ∈ blocks, Increasing b.rows := by
    intro b hb
    refine scan.table.increasing_rows ?_
    have hmem := h.subset hb
    rw [inOrder] at hmem
    split_ifs at hmem
    · exact mem_reverse.1 hmem
    · exact hmem
  have hbehind := (scan.table.pairwise_behind scan.isReverseScan).sublist h
  clear h
  induction blocks with
  | nil => rfl
  | cons b blocks ih =>
    rw [pairwise_cons] at hbehind
    rw [forall_mem_cons] at hrows
    obtain ⟨need, hlocated, hneed, hclosed⟩ : ∃ need,
        (setBlock scan.range scan.isReverseScan b.rows).1.getD [] = _ ∧ _ = need ∧ (_ → _) :=
      setBlock_getD hrows.1
    rw [rowsOf, hlocated, flatMap_cons, hneed]
    rcases need with _ | _
    · have hnone : blocks.flatMap (fun b => inOrder scan.isReverseScan (scan.range.filter b.rows)) =
          [] := by
        refine flatMap_eq_nil_iff.2 fun c hc => ?_
        rw [(hclosed rfl).filter_eq_nil (hbehind.1 c hc)]
        cases scan.isReverseScan <;> rfl
      rw [hnone]
      rfl
    · rw [if_pos rfl, ih hrows.2 hbehind.2]

/-! ### The blocks a scan reads -/

omit [LinearOrder κ] in
theorem skipping_sublist (count : Nat) (blocks : List (Block κ ρ)) :
    (skipping count blocks).Sublist blocks.tail := by
  induction blocks using skipping.induct count with
  | case1 =>
    rw [skipping]
    exact nil_sublist _
  | case2 b blocks ih =>
    rw [skipping]
    have happend := (List.Sublist.refl (blocks.take count)).append (ih.trans (tail_sublist _))
    rwa [take_append_drop] at happend

/-- The blocks up to the one a reverse scan starts with, from the last to the first. -/
def below (scan : Scan κ ρ) : List (Block κ ρ) :=
  (scan.table.blocks.take (reversePos scan.table.blocks scan.range + 1)).reverse

/-- The blocks a scan reads when nothing fails before: a forward scan those that do not end before
the range, a reverse scan the first batch, and later batches with a block between any two. -/
def blocksRead (scan : Scan κ ρ) : List (Block κ ρ) :=
  if scan.isReverseScan then
    let batch := reverseBatch scan.table.blocks scan.range scan.batchBlockCount
    if batch.isEmpty then []
    else batch.reverse ++ skipping scan.batchBlockCount (scan.below.drop batch.length)
  else scan.table.blocks.filter fun b => scan.range.aboveStart b.endKey

theorem below_sublist : scan.below.Sublist scan.table.blocks.reverse :=
  (take_sublist _ _).reverse

theorem pairwise_below (scan : Scan κ ρ) : scan.below.Pairwise fun b c => c.Before b :=
  (pairwise_reverse.2 scan.table.pairwise_before).sublist below_sublist

theorem endKey_lt_of_before (h : b.Before c) : b.endKey < c.endKey :=
  h _ (getLast_mem b.rows_ne) _ (getLast_mem c.rows_ne)

/-- The first batch of a reverse scan; where it has not its full length, the range starts in it. -/
theorem blocksRead_reverse (hrev : scan.isReverseScan = true) (hne : scan.table.blocks ≠ []) :
    ∃ count ≤ scan.batchBlockCount,
      (reverseBatch scan.table.blocks scan.range scan.batchBlockCount).reverse =
        scan.below.take count ∧
      (reverseBatch scan.table.blocks scan.range scan.batchBlockCount).length = count ∧
      (count < scan.batchBlockCount →
        ∀ b ∈ scan.below.drop count, scan.range.aboveStart b.endKey = false) ∧
      scan.blocksRead = if count = 0 then []
        else scan.below.take count ++ skipping scan.batchBlockCount (scan.below.drop count) := by
  obtain ⟨p, hp⟩ : ∃ p : Block κ ρ → Bool,
    p = fun b => !scan.range.startKey.any fun start => b.endKey < start := ⟨_, rfl⟩
  obtain ⟨first, hfirst⟩ : ∃ first, first = scan.below.take scan.batchBlockCount := ⟨_, rfl⟩
  have hbatch : (reverseBatch scan.table.blocks scan.range scan.batchBlockCount).reverse =
      first.takeWhile p := by
    rw [reverseBatch, window_eq (reversePos_lt hne), ← filter_reverse, reverse_reverse, hp, hfirst]
    refine (takeWhile_eq_filter (r := fun b c : Block κ ρ => c.Before b) ?_ ?_).symm
    · intro b c hbefore hc
      rcases hstart : scan.range.startKey with _ | start
      · simp
      simp only [hstart, Option.any_some, Bool.not_eq_true', decide_eq_false_iff_not,
        not_lt] at hc ⊢
      exact hc.trans (endKey_lt_of_before hbefore).le
    · exact scan.pairwise_below.sublist (take_sublist _ _)
  have hsplit : scan.below = first.takeWhile p ++
      (first.dropWhile p ++ scan.below.drop scan.batchBlockCount) := by
    rw [← append_assoc, takeWhile_append_dropWhile, hfirst, take_append_drop]
  have hlength : (first.takeWhile p).length ≤ scan.batchBlockCount := by
    refine ( takeWhile_prefix p).length_le.trans ?_
    rw [hfirst, length_take]
    omega
  have htake : (reverseBatch scan.table.blocks scan.range scan.batchBlockCount).reverse =
      scan.below.take (first.takeWhile p).length := by
    rw [hbatch]
    nth_rewrite 1 [hsplit]
    rw [take_left]
  have hcount := congrArg List.length hbatch
  rw [length_reverse] at hcount
  refine ⟨(first.takeWhile p).length, hlength, htake, hcount, fun hlt => ?_,
    by simp only [blocksRead, hrev, if_true, isEmpty_iff_length_eq_zero, hcount, htake]⟩
  have hdrop : scan.below.drop (first.takeWhile p).length =
      first.dropWhile p ++ scan.below.drop scan.batchBlockCount := by
    nth_rewrite 1 [hsplit]
    rw [drop_left]
  have hpairwise := scan.pairwise_below.sublist (drop_sublist (first.takeWhile p).length _)
  rw [hdrop] at hpairwise ⊢
  rcases hrest : first.dropWhile p with _ | ⟨d, rest⟩
  · -- The blocks have come to an end within the batch.
    have hall := takeWhile_append_dropWhile (p := p) (l := first)
    rw [hrest, append_nil] at hall
    rw [hall, hfirst, length_take] at hlt
    rw [drop_eq_nil_iff.2 (by omega), append_nil]
    simp
  have hd : p d = false := by
    have hhead := head?_dropWhile_not p first
    rwa [hrest] at hhead
  have habove : scan.range.aboveStart d.endKey = false := by
    rcases hstart : scan.range.startKey with _ | start
    · simp [hp, hstart] at hd
    · simp only [hp, hstart, Option.any_some, Bool.not_eq_false', decide_eq_true_eq] at hd
      exact (aboveStart_some hstart).1 hd
  rw [hrest, cons_append, pairwise_cons] at hpairwise
  refine forall_mem_cons.2 ⟨habove, fun b hb => ?_⟩
  exact aboveStart_eq_false_of_lt (endKey_lt_of_before (hpairwise.1 b hb)) habove

theorem blocksRead_sublist (scan : Scan κ ρ) :
    scan.blocksRead.Sublist (inOrder scan.isReverseScan scan.table.blocks) := by
  rcases hrev : scan.isReverseScan with _ | _
  · rw [blocksRead, hrev]
    exact filter_sublist
  by_cases hne : scan.table.blocks = []
  · simp [blocksRead, hne, reverseBatch, window]
  obtain ⟨count, -, -, -, -, hread⟩ := blocksRead_reverse hrev hne
  rw [hread]
  split_ifs
  · exact nil_sublist _
  have happend := (List.Sublist.refl (scan.below.take count)).append
    ((skipping_sublist scan.batchBlockCount (scan.below.drop count)).trans (tail_sublist _))
  rw [take_append_drop] at happend
  exact happend.trans below_sublist

/-- The state behind `initialize`. -/
def initial : Scanner κ ρ := ⟨.notStart, false, [], 0, none⟩

theorem setScanParam_of_ne (hne : scan.table.blocks ≠ [])
    (h : scan.loadBlockIndex true initial = (.success, s)) :
    scan.setScanParam fuel = scan.fetchNextBlock fuel s := by
  have hindex : scan.loadBlockIndex true ⟨.notStart, false, [], 0, none⟩ = (.success, s) := h
  simp [setScanParam, if_neg hne, hindex]

/-- What a scan comes to, by the blocks it reads. -/
def Spec (scan : Scan κ ρ) (fuel : Nat) (blocks : List (Block κ ρ)) : Prop :=
  ∃ outs stop, scan.Scans fuel outs stop ∧
    Ends (scan.failure blocks) (scan.rowsOf blocks) outs stop ∧
    (scan.failure blocks = none → ∃ t, scan.setScanParam fuel = some (.success, t))

theorem spec_of_ended (hset : scan.setScanParam fuel = some (.success, s))
    (hstatus : s.iterateStatus = .ended) : scan.Spec fuel [] := by
  have hscans := scans_of_check hset (by rw [hstatus]; decide)
  rw [hstatus] at hscans
  exact ⟨[], _, hscans, ends_ended, fun _ => ⟨s, hset⟩⟩

theorem spec_of_beyond (hne : scan.table.blocks ≠ []) (hfuel : 0 < fuel)
    (h : scan.searchIndex true initial = .error .beyondTheRange) : scan.Spec fuel [] := by
  obtain ⟨fuel, rfl⟩ : ∃ f, fuel = f + 1 := ⟨fuel - 1, by omega⟩
  obtain ⟨s, hindex, hstatus, -, -⟩ := loadBlockIndex_beyond h
  have hload : scan.loadCurrentBlockAndAdvance s = (.success, s) := by
    simp [loadCurrentBlockAndAdvance, hstatus, IterateStatus.isForward]
  refine spec_of_ended ((setScanParam_of_ne hne hindex).trans ?_) hstatus
  refine fetchNextBlock_succ fuel hload (.inr ?_)
  rw [hstatus]
  decide

theorem spec_of_batch {batch ahead : List (Block κ ρ)} (hne : batch ≠ [])
    (h : scan.searchIndex true initial = .ok batch)
    (hforward : scan.isReverseScan = false → ∃ other, scan.table.blocks = other ++ batch ++ ahead)
    (hreverse : scan.isReverseScan = true →
      ∃ other, scan.table.blocks = ahead.reverse ++ batch ++ other)
    (hfuel : (inOrder scan.isReverseScan batch ++ scan.laterBlocks ahead).length < fuel) :
    scan.Spec fuel (inOrder scan.isReverseScan batch ++ scan.laterBlocks ahead) := by
  have hblocks : scan.table.blocks ≠ [] := by
    intro hnil
    rcases hrev : scan.isReverseScan with _ | _
    all_goals exact hne (by simp_all)
  have hposition := position_withBatch (s := initial) hne hforward hreverse
  have hup : scan.Upcoming (scan.withBatch initial batch) _ := ⟨_, _, hposition, rfl⟩
  exact hup.scans (setScanParam_of_ne hblocks (loadBlockIndex_ok h)) rfl rfl rfl hfuel

theorem spec_blocksRead (hfuel : scan.table.blocks.length < fuel) :
    scan.Spec fuel scan.blocksRead := by
  have hlength : scan.blocksRead.length < fuel := by
    refine lt_of_le_of_lt scan.blocksRead_sublist.length_le ?_
    rw [inOrder]
    split_ifs
    · rwa [length_reverse]
    · exact hfuel
  by_cases hne : scan.table.blocks = []
  · have hread : scan.blocksRead = [] := by
      simp [blocksRead, hne, reverseBatch, window]
    rw [hread]
    have hset : scan.setScanParam fuel = some (.success, _) := if_pos hne
    exact spec_of_ended hset rfl
  rcases hrev : scan.isReverseScan with _ | _
  · have hindex : scan.searchIndex true initial =
        searchByRange scan.table.blocks scan.range false scan.batchBlockCount := by
      simp [searchIndex, hrev]
    have hread : scan.blocksRead =
        scan.table.blocks.filter fun b => scan.range.aboveStart b.endKey := by
      simp [blocksRead, hrev]
    obtain ⟨hsearch, hnone⟩ | ⟨before, batch, after, hblocks, hbatch, hbefore, habove, hsearch⟩ :=
      searchByRange_forward scan.range hne scan.table.increasing_endKey scan.batchBlockCount_pos
    · rw [hread, filter_eq_nil_iff.2 fun b hb => by simp [hnone b hb]]
      exact spec_of_beyond hne (by omega) (hindex.trans hsearch)
    have hlater : inOrder scan.isReverseScan batch ++ scan.laterBlocks after =
        scan.blocksRead := by
      rw [hread, hblocks, append_assoc, filter_append,
        filter_eq_nil_iff.2 fun b hb => by simp [hbefore b hb], filter_eq_self.2 habove,
        nil_append]
      simp [inOrder, laterBlocks, hrev]
    rw [← hlater] at hlength ⊢
    refine spec_of_batch hbatch (hindex.trans hsearch) (fun _ => ⟨before, hblocks⟩)
      (fun h => ?_) hlength
    exact absurd (hrev.symm.trans h) (by decide)
  · obtain ⟨count, -, hbatch, hcount, -, hread⟩ := blocksRead_reverse hrev hne
    have hindex : scan.searchIndex true initial =
        searchByRange scan.table.blocks scan.range true scan.batchBlockCount := by
      simp [searchIndex, hrev]
    rw [searchByRange_reverse hne] at hindex
    by_cases hnil : reverseBatch scan.table.blocks scan.range scan.batchBlockCount = []
    · rw [if_pos hnil] at hindex
      rw [hnil, length_nil] at hcount
      rw [hread, if_pos hcount.symm]
      exact spec_of_beyond hne (by omega) hindex
    rw [if_neg hnil] at hindex
    have hzero : count ≠ 0 := by
      rw [← hcount]
      exact fun hzero => hnil (length_eq_zero_iff.1 hzero)
    have hlater : inOrder scan.isReverseScan
          (reverseBatch scan.table.blocks scan.range scan.batchBlockCount) ++
        scan.laterBlocks (scan.below.drop count) = scan.blocksRead := by
      rw [hread, if_neg hzero]
      simp [inOrder, laterBlocks, hrev, hbatch]
    rw [← hlater] at hlength ⊢
    refine spec_of_batch hnil hindex (fun h => ?_)
      (fun _ => ⟨scan.table.blocks.drop (reversePos scan.table.blocks scan.range + 1), ?_⟩)
      hlength
    · exact absurd (hrev.symm.trans h) (by decide)
    · rw [← reverse_reverse (reverseBatch _ _ _), hbatch, ← reverse_append, take_append_drop,
        below, reverse_reverse, take_append_drop]

/-! ### Forward scans -/

theorem rowsOf_forward (hforward : scan.isReverseScan = false) :
    scan.rowsOf scan.blocksRead = scan.range.filter (scan.table.blocks.flatMap Block.rows) := by
  rw [rowsOf_eq scan.blocksRead_sublist, ObNewRange.filter, filter_flatMap]
  simp only [blocksRead, hforward, Bool.false_eq_true, if_false]
  have hrows : ∀ b ∈ scan.table.blocks, Increasing b.rows := fun b hb =>
    scan.table.increasing_rows hb
  generalize scan.table.blocks = blocks at hrows ⊢
  induction blocks with
  | nil => rfl
  | cons b blocks ih =>
    rw [forall_mem_cons] at hrows
    rw [flatMap_cons, ← ih hrows.2]
    rcases habove : scan.range.aboveStart b.endKey with _ | _
    · have hnil := Block.filter_eq_nil hrows.1 habove
      rw [ObNewRange.filter] at hnil
      rw [filter_cons_of_neg (by simp [habove]), hnil, nil_append]
    · rw [filter_cons, if_pos habove, flatMap_cons]
      rfl

/-! ### Reverse scans -/

/-- The block a reverse scan leaves out behind its first batch. -/
def skippedBlock (scan : Scan κ ρ) : Option (Block κ ρ) := scan.below[scan.batchBlockCount]?

/-- The rows of the range in a block, from the last to the first. -/
def reverseRows (scan : Scan κ ρ) (b : Block κ ρ) : List (Row κ ρ) :=
  (scan.range.filter b.rows).reverse

theorem reverseRows_eq_nil : scan.reverseRows b = [] ↔ scan.range.filter b.rows = [] :=
  reverse_eq_nil_iff

theorem mem_blocks_of_mem_below (hb : b ∈ scan.below) : b ∈ scan.table.blocks :=
  mem_reverse.1 (below_sublist.subset hb)

theorem filter_eq_nil_of_mem_drop
    (hb : b ∈ scan.table.blocks.drop (reversePos scan.table.blocks scan.range + 1)) :
    scan.range.filter b.rows = [] := by
  have hlength := length_pos_of_mem hb
  rw [length_drop] at hlength
  rcases hend : scan.range.endKey with _ | last
  · simp only [reversePos, hend] at hlength
    omega
  simp only [reversePos, hend] at hlength hb
  obtain ⟨it, hit⟩ : ∃ it, it = lowerBound (fun b => b.endKey < last) scan.table.blocks :=
    ⟨_, rfl⟩
  rw [← hit] at hlength hb
  have hlt : it < scan.table.blocks.length := by omega
  rw [Nat.min_eq_left (by omega)] at hb
  obtain ⟨-, hle, hdrop, -, -⟩ := split_lowerBound scan.table.increasing_endKey hit
    (getElem?_eq_getElem hlt)
  have hpairwise := scan.table.pairwise_before.sublist (drop_sublist it _)
  rw [hdrop, pairwise_cons] at hpairwise
  refine filter_eq_nil_of_belowEnd fun row hrow => ?_
  have hbefore := hpairwise.1 b hb _ (getLast_mem (Block.rows_ne _)) row hrow
  exact (belowEnd_some hend).2.1 (hle.trans_lt hbefore)

/-- All rows before the block a reverse scan starts with are before the end of the range. -/
theorem belowEnd_of_mem_drop (hb : b ∈ scan.below.drop 1) (hrow : row ∈ b.rows) :
    scan.range.belowEnd row.key = true := by
  rcases hend : scan.range.endKey with _ | last
  · rw [ObNewRange.belowEnd, hend]
  have hmem := mem_blocks_of_mem_below (mem_of_mem_drop hb)
  have htake : b ∈ scan.table.blocks.take
      (lowerBound (fun b => b.endKey < last) scan.table.blocks) := by
    rw [below, drop_reverse, mem_reverse, length_take, take_take] at hb
    simp only [reversePos, hend] at hb
    exact (take_prefix_take_left (by omega)).subset hb
  rw [take_lowerBound scan.table.increasing_endKey, mem_filter, decide_eq_true_eq] at htake
  have hle := Block.key_le_endKey (scan.table.increasing_rows hmem) hrow
  exact (belowEnd_some hend).1 (hle.trans_lt htake.2)

theorem flatMap_reverseRows :
    scan.below.flatMap scan.reverseRows =
      (scan.range.filter (scan.table.blocks.flatMap Block.rows)).reverse := by
  have hsplit := take_append_drop (reversePos scan.table.blocks scan.range + 1) scan.table.blocks
  have hnil : (scan.table.blocks.drop (reversePos scan.table.blocks scan.range + 1)).reverse.flatMap
      scan.reverseRows = [] := by
    refine flatMap_eq_nil_iff.2 fun b hb => reverseRows_eq_nil.2 ?_
    exact filter_eq_nil_of_mem_drop (mem_reverse.1 hb)
  have hall : (scan.range.filter (scan.table.blocks.flatMap Block.rows)).reverse =
      scan.table.blocks.reverse.flatMap scan.reverseRows := by
    rw [ObNewRange.filter, filter_flatMap, reverse_flatMap]
    rfl
  rw [hall]
  nth_rewrite 1 [← hsplit]
  rw [reverse_append, flatMap_append, hnil, nil_append]
  rfl

/-- From a block without rows of the range on, a reverse scan finds none. -/
theorem flatMap_drop_eq_nil {n : Nat} {rest : List (Block κ ρ)} (hn : 1 ≤ n)
    (hdrop : scan.below.drop n = b :: rest) (h : scan.range.filter b.rows = []) :
    rest.flatMap scan.reverseRows = [] := by
  have hb : b ∈ scan.below.drop 1 := by
    have hmem : b ∈ scan.below.drop n := by simp [hdrop]
    exact (drop_sublist_drop_left _ hn).subset hmem
  have habove : scan.range.aboveStart b.endKey = false := by
    have hlast := getLast_mem b.rows_ne
    have hnot := filter_eq_nil_iff.1 h _ hlast
    rw [ObNewRange.contains, belowEnd_of_mem_drop hb hlast, Bool.and_true, Bool.not_eq_true] at hnot
    exact hnot
  have hpairwise := scan.pairwise_below.sublist (drop_sublist n _)
  rw [hdrop, pairwise_cons] at hpairwise
  refine flatMap_eq_nil_iff.2 fun c hc => reverseRows_eq_nil.2 ?_
  refine filter_eq_nil_of_aboveStart fun row hrow => ?_
  exact aboveStart_eq_false_of_lt (hpairwise.1 c hc row hrow _ (getLast_mem b.rows_ne)) habove

/-- A reverse scan hands out all rows of the range if and only if there are none in the block it
leaves out behind its first batch. -/
theorem rowsOf_reverse_iff (hrev : scan.isReverseScan = true) :
    scan.rowsOf scan.blocksRead =
        (scan.range.filter (scan.table.blocks.flatMap Block.rows)).reverse ↔
      ∀ b ∈ scan.skippedBlock, scan.range.filter b.rows = [] := by
  have hrows : scan.rowsOf scan.blocksRead = scan.blocksRead.flatMap scan.reverseRows := by
    rw [rowsOf_eq scan.blocksRead_sublist, hrev]
    rfl
  rw [hrows, ← flatMap_reverseRows]
  by_cases hne : scan.table.blocks = []
  · simp [blocksRead, hne, reverseBatch, window, skippedBlock, below]
  obtain ⟨count, hle, -, -, habove, hread⟩ := blocksRead_reverse hrev hne
  obtain hlt | rfl := hle.lt_or_eq
  · -- The range starts within the first batch.
    have hnone : ∀ b ∈ scan.below.drop count, scan.range.filter b.rows = [] := fun b hb =>
      Block.filter_eq_nil
        (scan.table.increasing_rows (mem_blocks_of_mem_below (mem_of_mem_drop hb)))
        (habove hlt b hb)
    have hdrop : (scan.below.drop count).flatMap scan.reverseRows = [] :=
      flatMap_eq_nil_iff.2 fun b hb => reverseRows_eq_nil.2 (hnone b hb)
    have hskip : (skipping scan.batchBlockCount (scan.below.drop count)).flatMap
        scan.reverseRows = [] := by
      refine sublist_nil.1 ?_
      rw [← hdrop]
      exact ((skipping_sublist _ _).trans (tail_sublist _)).flatMap _
    refine iff_of_true ?_ fun b hb => hnone b ?_
    · have hbelow : scan.below.flatMap scan.reverseRows =
          (scan.below.take count).flatMap scan.reverseRows := by
        nth_rewrite 1 [← take_append_drop count scan.below]
        rw [flatMap_append, hdrop, append_nil]
      rw [hread, hbelow]
      split_ifs with hzero
      · rw [hzero, take_zero]
      · rw [flatMap_append, hskip, append_nil]
    · obtain ⟨hindex, rfl⟩ := List.getElem?_eq_some_iff.1 hb
      exact mem_drop_iff_getElem.2 ⟨scan.batchBlockCount - count, by omega, by
        congr 1
        omega⟩
  · have hpos := scan.batchBlockCount_pos
    have hsplit := take_append_drop scan.batchBlockCount scan.below
    rw [hread, if_neg (by omega), flatMap_append]
    nth_rewrite 3 [← hsplit]
    rw [flatMap_append, append_cancel_left_eq, skippedBlock]
    rcases hdrop : scan.below.drop scan.batchBlockCount with _ | ⟨c, rest⟩
    · rw [getElem?_eq_none (drop_eq_nil_iff.1 hdrop), skipping]
      simp
    have hskipped : scan.below[scan.batchBlockCount]? = some c := by
      rw [← head?_drop, hdrop, head?_cons]
    have hsub : ((skipping scan.batchBlockCount (c :: rest)).flatMap scan.reverseRows).Sublist
        (rest.flatMap scan.reverseRows) := (skipping_sublist _ _).flatMap _
    rw [hskipped, flatMap_cons]
    constructor
    · rintro heq b hb
      obtain rfl := Option.some.inj hb
      have hlength := hsub.length_le
      rw [heq, length_append] at hlength
      exact reverseRows_eq_nil.1 (length_eq_zero_iff.1 (by omega))
    intro hnone
    have hc := hnone c rfl
    have hrest := flatMap_drop_eq_nil hpos hdrop hc
    rw [hrest] at hsub ⊢
    rw [sublist_nil.1 hsub, reverseRows_eq_nil.2 hc, append_nil]

end Scan

end OceanBase.CompactSSTable
