import OceanBase.CompactSSTable.Scanner

/-!
# What a scan hands out

The blocks a scan reads decide what `get_next_row` hands out and how it ends: `failure` is the first
step among them that fails, `rowsOf` are the rows if none does. An error is reported for some of the
failures only; where a block has no decompressor, the scanner ends as if there were no more rows, or
does not come back (`Handing.yields`, `Upcoming.scans`).
-/

namespace OceanBase.CompactSSTable

open Lib

variable {κ ρ : Type} [LinearOrder κ]

/-- A step of a scan that fails; `noBuffer` is a block without a decompressor. -/
inductive Failure
  | readBlock
  | noBuffer
  | openBlock
  | readRow
  deriving DecidableEq

/-- The scanner reports an error where this step fails. -/
def Failure.isReported : Failure → Bool
  | .readBlock | .openBlock | .readRow => true
  | .noBuffer => false

namespace Scan

/-- The first step that fails in handing out these rows. -/
def failureOfRows (scan : Scan κ ρ) : List (Row κ ρ) → Option Failure
  | [] => none
  | row :: rows =>
    if (scan.disk.readRow row).isSome then some .readRow
    else failureOfRows scan rows

/-- The first step that fails in reading these blocks and handing out their rows. -/
def failure (scan : Scan κ ρ) : List (Block κ ρ) → Option Failure
  | [] => none
  | b :: blocks =>
    match scan.disk.readBlock b, scan.disk.openBlock b with
    | .failed _, _ => some .readBlock
    | .noData, _ => some .noBuffer
    | .data, some _ => some .openBlock
    | .data, none =>
      (scan.failureOfRows ((setBlock scan.range scan.isReverseScan b.rows).1.getD [])).or
        (if (setBlock scan.range scan.isReverseScan b.rows).2 then failure scan blocks else none)

/-- The rows of these blocks, as far as a scan looks at them. -/
def rowsOf (scan : Scan κ ρ) : List (Block κ ρ) → List (Row κ ρ)
  | [] => []
  | b :: blocks =>
    (setBlock scan.range scan.isReverseScan b.rows).1.getD [] ++
      if (setBlock scan.range scan.isReverseScan b.rows).2 then rowsOf scan blocks else []

variable {scan : Scan κ ρ} {s : Scanner κ ρ} {blocks : List (Block κ ρ)} {fuel : Nat}
  {row : Row κ ρ} {rows outs : List (Row κ ρ)} {stop : Stop} {need : Bool}

/-- How the calls of `get_next_row` end when this is the first failure and these are the rows. -/
def Ends (first : Option Failure) (rows outs : List (Row κ ρ)) (stop : Stop) : Prop :=
  match first with
  | none => outs = rows ∧ stop = .ret .iterEnd
  | some f =>
    if f.isReported then ∃ ret, stop = .ret ret ∧ ret ≠ .success ∧ ret ≠ .iterEnd
    else stop = .ret .iterEnd ∨ stop = .outOfFuel

theorem fetched_spec (blocks : List (Block κ ρ)) :
    match scan.fetched blocks with
    | .ended => scan.failure blocks = none ∧ scan.rowsOf blocks = []
    | .failed => ∃ f, scan.failure blocks = some f ∧ f.isReported = true
    | .stuck => scan.failure blocks = some .noBuffer
    | .located rows need blocks' => rows ≠ [] ∧ blocks'.length < blocks.length ∧
        scan.failure blocks =
          (scan.failureOfRows rows).or (if need then scan.failure blocks' else none) ∧
        scan.rowsOf blocks = rows ++ if need then scan.rowsOf blocks' else [] := by
  induction blocks with
  | nil => exact ⟨rfl, rfl⟩
  | cons b blocks ih =>
    cases hread : scan.disk.readBlock b with
    | failed ret =>
      simp only [fetched, failure, hread]
      exact ⟨_, rfl, rfl⟩
    | noData => simp [fetched, failure, hread]
    | data =>
      rcases hopen : scan.disk.openBlock b with _ | ret
      · obtain ⟨located, need, hset⟩ : ∃ located need,
            setBlock scan.range scan.isReverseScan b.rows = (located, need) := ⟨_, _, rfl⟩
        simp only [fetched, failure, rowsOf, hread, hopen, hset]
        rcases located with _ | rows
        · rcases need with _ | _
          · exact ⟨rfl, rfl⟩
          -- The block has no rows of the range, and fetching goes on behind it.
          cases hfetched : scan.fetched blocks with
          | ended | failed | stuck =>
            rwa [hfetched] at ih
          | located rows need blocks' =>
            rw [hfetched] at ih
            obtain ⟨hne, hlength, hfailure, hrows⟩ := ih
            refine ⟨hne, ?_, hfailure, hrows⟩
            rw [List.length_cons]
            omega
        · refine ⟨setBlock_ne_nil b.rows_ne hset, ?_, rfl, rfl⟩
          rw [List.length_cons]
          omega
      · simp only [fetched, failure, hread, hopen]
        exact ⟨_, rfl, rfl⟩

/-! ### One call -/

theorem getNextRow_of_check (h : s.iterateStatus.check ≠ .success) :
    scan.getNextRow fuel s = .error (.ret s.iterateStatus.check) := by
  rw [getNextRow, if_pos h, handOut, if_neg h]

/-- The scanner hands out rows of a block, with other blocks to come if it needs them. -/
structure Handing (scan : Scan κ ρ) (s : Scanner κ ρ) (rows : List (Row κ ρ)) (need : Bool)
    (blocks : List (Block κ ρ)) : Prop where
  pending : s.pending = some rows
  not_end : s.endOfData = false
  status : s.iterateStatus = if need then .inProgress else .lastBlock
  upcoming : scan.Upcoming s blocks

theorem Handing.check (h : scan.Handing s rows need blocks) : s.iterateStatus.check = .success := by
  rw [h.status]
  cases need <;> rfl

theorem Handing.getNextRow (h : scan.Handing s rows need blocks) :
    scan.getNextRow fuel s =
      match blockGetNextRow s with
      | .ok (row, s) => scan.handOut (some row) s
      | .error ret =>
        if ret = .beyondTheRange then
          match scan.nextFromBlocks fuel s with
          | none => .error .outOfFuel
          | some (row, s) => scan.handOut row s
        else scan.handOut none { s with iterateStatus := .ended } := by
  have hcheck : ¬ s.iterateStatus.check ≠ .success := not_not.2 h.check
  rw [Scan.getNextRow, if_neg hcheck, h.not_end]
  rfl

section

variable (h : scan.Handing s (row :: rows) need blocks)
include h

theorem Handing.blockGetNextRow_cons :
    blockGetNextRow s = .ok (row, { s with pending := some rows }) := by
  rw [blockGetNextRow, h.pending]

/-- A call with rows of a block in hand hands out the first of them. -/
theorem Handing.getNextRow_cons :
    scan.getNextRow fuel s = scan.handOut (some row) { s with pending := some rows } := by
  rw [h.getNextRow, h.blockGetNextRow_cons]

theorem Handing.tail : scan.Handing { s with pending := some rows } rows need blocks :=
  ⟨rfl, h.not_end, h.status, h.upcoming.congr rfl rfl⟩

end

theorem Handing.handOut_some (h : scan.Handing s rows need blocks) (row : Row κ ρ) :
    scan.handOut (some row) s =
      match scan.disk.readRow row with
      | some ret => .error (.ret ret)
      | none => .ok (row, s) :=
  if_pos h.check

theorem Handing.getNextRow_nil (h : scan.Handing s [] need blocks) (fuel : Nat) :
    scan.getNextRow fuel s =
      match scan.nextFromBlocks fuel s with
      | none => .error .outOfFuel
      | some (row, s) => scan.handOut row s := by
  have hnone : blockGetNextRow s = .error .beyondTheRange := by rw [blockGetNextRow, h.pending]
  simp [h.getNextRow, hnone]

theorem Handing.ready (h : scan.Handing s rows true blocks) : Ready s := .inl h.status

theorem Handing.getNextRow_lastBlock (h : scan.Handing s [] false blocks) (hfuel : 0 < fuel) :
    scan.getNextRow fuel s = .error (.ret .iterEnd) := by
  obtain ⟨fuel, rfl⟩ : ∃ f, fuel = f + 1 := ⟨fuel - 1, by omega⟩
  have hstatus : s.iterateStatus = .lastBlock := h.status
  have hload : scan.loadCurrentBlockAndAdvance s =
      (.success, { s with iterateStatus := .ended }) := by
    simp [loadCurrentBlockAndAdvance, hstatus, ensureIndex, IterateStatus.isForward]
  have hfetch := fetchNextBlock_succ fuel hload (.inr (by simp))
  rw [h.getNextRow_nil, nextFromBlocks, hfetch]
  rfl

/-- At a block without data the call does not come back. -/
theorem nextFromBlocks_stuck (fuel : Nat) (hup : scan.Upcoming s blocks) (hready : Ready s)
    (hpending : s.pending = some []) (hstuck : scan.fetched blocks = .stuck) :
    scan.nextFromBlocks fuel s = none := by
  induction fuel generalizing s blocks with
  | zero => rfl
  | succ fuel ih =>
    obtain hnone | ⟨t, blocks', hsome, hstatus, hpending', -, hup', hstuck'⟩ :=
      fetchNextBlock_stuck (fuel + 1) hup hready hstuck
    · simp [nextFromBlocks, hnone]
    have hrow : blockGetNextRow t = .error .beyondTheRange := by
      rw [blockGetNextRow, hpending', hpending]
    have hforward : t.iterateStatus.isForward = true := by
      rw [hstatus]
      rfl
    simp only [nextFromBlocks, hsome, hforward, hrow]
    exact ih hup' (.inl hstatus) (hpending'.trans hpending) hstuck'

variable {t : Scanner κ ρ}

theorem nextFromBlocks_of_ended (hfetch : scan.fetchNextBlock (fuel + 1) s = some (.success, t))
    (hstop : t.iterateStatus.isForward = false) :
    scan.nextFromBlocks (fuel + 1) s = some (none, t) := by
  simp [nextFromBlocks, hfetch, hstop]

/-- Behind a failure the loop ends, if need be after another turn. -/
theorem nextFromBlocks_of_failed {ret : Ret} (hfuel : 0 < fuel)
    (hfetch : scan.fetchNextBlock (fuel + 1) s = some (ret, t)) (hret : ret ≠ .success)
    (hstatus : t.iterateStatus = .inError) : scan.nextFromBlocks (fuel + 1) s = some (none, t) := by
  obtain ⟨fuel, rfl⟩ : ∃ f, fuel = f + 1 := ⟨fuel - 1, by omega⟩
  have hload : scan.loadCurrentBlockAndAdvance t = (.success, t) := by
    simp [loadCurrentBlockAndAdvance, hstatus, IterateStatus.isForward]
  have hagain := fetchNextBlock_succ fuel hload (.inr (by simp [hstatus]))
  have hnext := nextFromBlocks_of_ended hagain (by rw [hstatus]; rfl)
  rw [nextFromBlocks, hfetch]
  simp [hret, hnext]

theorem Handing.getNextRow_of_next (h : scan.Handing s [] need blocks)
    (hnext : scan.nextFromBlocks fuel s = some (none, t))
    (hcheck : t.iterateStatus.check ≠ .success) :
    scan.getNextRow fuel s = .error (.ret t.iterateStatus.check) := by
  rw [h.getNextRow_nil, hnext]
  exact if_neg hcheck

/-- The first row of a block that was fetched in the call. -/
theorem Handing.nextFromBlocks (h : scan.Handing t (row :: rows) need blocks)
    (hfetch : scan.fetchNextBlock (fuel + 1) s = some (.success, t)) :
    scan.nextFromBlocks (fuel + 1) s = some (some row, { t with pending := some rows }) := by
  have hforward : t.iterateStatus.isForward = true := by
    rw [h.status]
    cases need <;> rfl
  simp only [Scan.nextFromBlocks, hfetch, hforward, h.blockGetNextRow_cons]
  rfl

/-! ### Whole scans -/

omit [LinearOrder κ] in
theorem Ends.cons {first : Option Failure} (h : Ends first rows outs stop) (row : Row κ ρ) :
    Ends first (row :: rows) (row :: outs) stop := by
  rcases first with _ | f
  · exact ⟨congrArg _ h.1, h.2⟩
  · exact h

omit [LinearOrder κ] in
theorem ends_ended : Ends none ([] : List (Row κ ρ)) [] (.ret .iterEnd) := ⟨rfl, rfl⟩

omit [LinearOrder κ] in
theorem ends_error {f : Failure} (h : f.isReported = true) :
    Ends (some f) rows outs (.ret .error) := by
  simp only [Ends, h]
  exact ⟨.error, rfl, by decide, by decide⟩

/-- Handing out rows of a block and those of the blocks to come, for any number of calls. -/
theorem Handing.yields (h : scan.Handing s rows need blocks) (hfuel : blocks.length < fuel) :
    ∃ outs stop, Yields (scan.getNextRow fuel) outs stop s ∧
      Ends ((scan.failureOfRows rows).or (if need then scan.failure blocks else none))
        (rows ++ if need then scan.rowsOf blocks else []) outs stop := by
  -- Over the number of blocks to come, and for each over the rows of the block in hand.
  induction hn : blocks.length using Nat.strong_induction_on generalizing s rows need blocks with
  | _ n ih =>
    induction rows generalizing s with
    | cons row rows ihrows =>
      have hnext : scan.getNextRow fuel s = _ :=
        h.getNextRow_cons.trans (h.tail.handOut_some row)
      rcases hread : scan.disk.readRow row with _ | ret
      · rw [hread] at hnext
        obtain ⟨outs, stop, hyields, hends⟩ := ihrows h.tail
        refine ⟨row :: outs, stop, ⟨_, hnext, hyields⟩, ?_⟩
        simp only [failureOfRows, hread]
        exact hends.cons row
      · rw [hread] at hnext
        refine ⟨[], _, hnext, ?_⟩
        simp only [failureOfRows, hread]
        exact ⟨ret, rfl, scan.disk.readRow_failed row ret hread⟩
    | nil =>
      rw [failureOfRows, Option.none_or, List.nil_append]
      rcases need with _ | _
      · exact ⟨[], _, h.getNextRow_lastBlock (by omega), ends_ended⟩
      simp only
      obtain ⟨fuel, rfl⟩ : ∃ f, fuel = f + 1 := ⟨fuel - 1, by omega⟩
      have hspec := scan.fetched_spec blocks
      by_cases hstuck : scan.fetched blocks = .stuck
      · have hnone := nextFromBlocks_stuck (fuel + 1) h.upcoming h.ready h.pending hstuck
        rw [hstuck] at hspec
        refine ⟨[], .outOfFuel, ?_, ?_⟩
        · rw [Yields, h.getNextRow_nil, hnone]
        · rw [hspec]
          exact .inr rfl
      obtain ⟨ret, t, hfetch, hdata, hmatch⟩ :=
        fetchNextBlock_spec h.upcoming h.ready hfuel hstuck
      cases hfetched : scan.fetched blocks with
      | stuck => exact absurd hfetched hstuck
      | ended =>
        rw [hfetched] at hspec hmatch
        obtain ⟨rfl, hended⟩ := hmatch
        have hnext := h.getNextRow_of_next
          (nextFromBlocks_of_ended hfetch (by rw [hended]; rfl)) (by rw [hended]; decide)
        rw [hended] at hnext
        refine ⟨[], _, hnext, ?_⟩
        rw [hspec.1, hspec.2]
        exact ends_ended
      | failed =>
        rw [hfetched] at hspec hmatch
        have hpos : 0 < blocks.length := by
          refine List.length_pos_iff.2 fun hnil => ?_
          simp [hnil, fetched] at hfetched
        have hnext := h.getNextRow_of_next
          (nextFromBlocks_of_failed (by omega) hfetch hmatch.1 hmatch.2)
          (by rw [hmatch.2]; decide)
        rw [hmatch.2] at hnext
        obtain ⟨f, hf, hreported⟩ := hspec
        refine ⟨[], _, hnext, ?_⟩
        rw [hf]
        exact ends_error hreported
      | located rows need blocks' =>
        rw [hfetched] at hspec hmatch
        obtain ⟨hne, hlength, hfailure, hrows⟩ := hspec
        obtain ⟨rfl, hpending, hstatus, hup⟩ := hmatch
        have ht : scan.Handing t rows need blocks' :=
          ⟨hpending, hdata.trans h.not_end, hstatus, hup⟩
        rw [hfailure, hrows]
        obtain ⟨row, rows, rfl⟩ := List.exists_cons_of_ne_nil hne
        have hnext := h.getNextRow_nil (fuel + 1)
        rw [ht.nextFromBlocks hfetch] at hnext
        -- The call does what it would do with the block already in hand.
        obtain ⟨outs, stop, hyields, hends⟩ :=
          ih _ (hn ▸ hlength) ht (hlength.trans hfuel) rfl
        exact ⟨outs, stop, hyields.congr (hnext.trans ht.getNextRow_cons.symm), hends⟩

/-- What `get_next_row` hands out behind `set_scan_param`, and how it ends. -/
def Scans (scan : Scan κ ρ) (fuel : Nat) (outs : List (Row κ ρ)) (stop : Stop) : Prop :=
  match scan.setScanParam fuel with
  | none => outs = [] ∧ stop = .outOfFuel
  | some (_, s) => Yields (scan.getNextRow fuel) outs stop s

theorem Scans.unique {outs' : List (Row κ ρ)} {stop' : Stop} (h : scan.Scans fuel outs stop)
    (h' : scan.Scans fuel outs' stop') : outs = outs' ∧ stop = stop' := by
  rcases hset : scan.setScanParam fuel with _ | first
  · simp only [Scans, hset] at h h'
    obtain ⟨rfl, rfl⟩ := h
    obtain ⟨rfl, rfl⟩ := h'
    exact ⟨rfl, rfl⟩
  · simp only [Scans, hset] at h h'
    exact h.unique h'

theorem scans_of_check {ret : Ret}
    (hset : scan.setScanParam fuel = some (ret, t)) (h : t.iterateStatus.check ≠ .success) :
    scan.Scans fuel [] (.ret t.iterateStatus.check) := by
  rw [Scans, hset]
  exact getNextRow_of_check h

theorem getNextRow_of_pending_none (hstatus : s.iterateStatus = .inProgress)
    (hdata : s.endOfData = false) (hpending : s.pending = none) :
    scan.getNextRow fuel s = .error (.ret .iterEnd) := by
  have hcheck : ¬ s.iterateStatus.check ≠ .success := by
    rw [hstatus]
    decide
  have hrow : blockGetNextRow s = .error .notInit := by rw [blockGetNextRow, hpending]
  rw [getNextRow, if_neg hcheck, hdata, hrow]
  rfl

theorem Upcoming.scans (h : scan.Upcoming s blocks)
    (hset : scan.setScanParam fuel = scan.fetchNextBlock fuel s)
    (hstatus : s.iterateStatus = .inProgress) (hdata : s.endOfData = false)
    (hpending : s.pending = none) (hfuel : blocks.length < fuel) :
    ∃ outs stop, scan.Scans fuel outs stop ∧
      Ends (scan.failure blocks) (scan.rowsOf blocks) outs stop ∧
      (scan.failure blocks = none → ∃ t, scan.setScanParam fuel = some (.success, t)) := by
  have hready : Ready s := .inl hstatus
  have hspec := scan.fetched_spec blocks
  by_cases hstuck : scan.fetched blocks = .stuck
  · rw [hstuck] at hspec
    rw [hspec]
    obtain hnone | ⟨t, -, hsome, hstatus', hpending', hdata', -, -⟩ :=
      fetchNextBlock_stuck fuel h hready hstuck
    · refine ⟨[], .outOfFuel, ?_, .inr rfl, fun hnot => absurd hnot (by simp)⟩
      rw [Scans, hset, hnone]
      exact ⟨rfl, rfl⟩
    refine ⟨[], .ret .iterEnd, ?_, .inl rfl, fun hnot => absurd hnot (by simp)⟩
    rw [Scans, hset, hsome]
    exact getNextRow_of_pending_none hstatus' (hdata'.trans hdata) (hpending'.trans hpending)
  obtain ⟨ret, t, hfetch, hdata', hmatch⟩ := fetchNextBlock_spec h hready hfuel hstuck
  rw [← hset] at hfetch
  cases hfetched : scan.fetched blocks with
  | stuck => exact absurd hfetched hstuck
  | ended =>
    rw [hfetched] at hspec hmatch
    obtain ⟨rfl, hended⟩ := hmatch
    have hscans := scans_of_check hfetch (by rw [hended]; decide)
    rw [hended] at hscans
    rw [hspec.1, hspec.2]
    exact ⟨[], _, hscans, ends_ended, fun _ => ⟨t, hfetch⟩⟩
  | failed =>
    rw [hfetched] at hspec hmatch
    obtain ⟨f, hf, hreported⟩ := hspec
    have hscans := scans_of_check hfetch (by rw [hmatch.2]; decide)
    rw [hmatch.2] at hscans
    rw [hf]
    exact ⟨[], _, hscans, ends_error hreported, fun hnot => absurd hnot (by simp)⟩
  | located rows need blocks' =>
    rw [hfetched] at hspec hmatch
    obtain ⟨-, hlength, hfailure, hrows⟩ := hspec
    obtain ⟨rfl, hpending', hstatus', hup⟩ := hmatch
    have ht : scan.Handing t rows need blocks' :=
      ⟨hpending', hdata'.trans hdata, hstatus', hup⟩
    obtain ⟨outs, stop, hyields, hends⟩ := ht.yields (hlength.trans hfuel)
    rw [hfailure, hrows]
    refine ⟨outs, stop, ?_, hends, fun _ => ⟨t, hfetch⟩⟩
    rwa [Scans, hfetch]

end Scan

end OceanBase.CompactSSTable
