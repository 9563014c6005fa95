import OceanBase.Common.Define
import OceanBase.Lib.Sorted

/-!
# Scanning one block (`ob_sstable_block_scanner.cpp`)

A block holds rows in the order of their keys. `set_scan_param` looks for the first and the last
row of a range in it and says whether the scan has to look at the next block. The keys are of any
linear order; a row key of a range that is `MIN` or `MAX` is none.
-/

namespace OceanBase.CompactSSTable

open Lib List

variable {κ ρ : Type}

/-- A row of an sstable. -/
structure Row (κ ρ : Type) where
  key : κ
  value : ρ

/-- `ObNewRange`, whose border flags agree with its keys: the start key is `MIN` or a key, the end
key a key or `MAX`. -/
structure ObNewRange (κ : Type) where
  startKey : Option κ
  endKey : Option κ
  inclusiveStart : Bool
  inclusiveEnd : Bool

variable [LinearOrder κ]

variable {range : ObNewRange κ}

namespace ObNewRange

def aboveStart (range : ObNewRange κ) (key : κ) : Bool :=
  match range.startKey with
  | none => true
  | some start => if range.inclusiveStart then start ≤ key else start < key

def belowEnd (range : ObNewRange κ) (key : κ) : Bool :=
  match range.endKey with
  | none => true
  | some last => if range.inclusiveEnd then key ≤ last else key < last

def contains (range : ObNewRange κ) (key : κ) : Bool := range.aboveStart key && range.belowEnd key

end ObNewRange

open ObNewRange

/-- `std::lower_bound`: the first element that is not less. -/
def lowerBound {β : Type} (less : β → Bool) (l : List β) : Nat := l.findIdx fun b => !less b

/-- `locate_start_pos`: the position, if there is one, and `need_looking_forward`. -/
def locateStartPos (range : ObNewRange κ) (isReverseScan : Bool) (rows : List (Row κ ρ))
    (needLookingForward : Bool) : Option Nat × Bool :=
  match range.startKey with
  | none => (some 0, needLookingForward)
  | some start =>
    let it := lowerBound (fun row => row.key < start) rows
    match rows[it]? with
    | none => (none, if isReverseScan then false else needLookingForward)
    | some row =>
      let it := if row.key = start ∧ range.inclusiveStart = false then it + 1 else it
      (if it = rows.length then none else some it, if isReverseScan then it == 0 else true)

/-- `locate_end_pos`: the position, if there is one, and `need_looking_forward`. -/
def locateEndPos (range : ObNewRange κ) (isReverseScan : Bool) (rows : List (Row κ ρ))
    (needLookingForward : Bool) : Option Nat × Bool :=
  match range.endKey with
  | none => (if rows.length = 0 then none else some (rows.length - 1), needLookingForward)
  | some last =>
    let it := lowerBound (fun row => row.key < last) rows
    let need := if it = rows.length then needLookingForward
      else if isReverseScan then needLookingForward else false
    let it := if it = rows.length then it - 1 else it
    match rows[it]? with
    | none => (none, need)
    | some row =>
      if it = 0 then
        if last < row.key ∨ row.key = last ∧ range.inclusiveEnd = false then (none, need)
        else (some it, need)
      else
        let it' := if last < row.key then it - 1 else it
        let it' := if last = row.key ∧ range.inclusiveEnd = false then it' - 1 else it'
        (some it', need)

/-- `set_scan_param` of a block that can be read: the rows between the two positions, in the order
of the scan, if there are any, and `need_looking_forward`. -/
def setBlock (range : ObNewRange κ) (isReverseScan : Bool) (rows : List (Row κ ρ)) :
    Option (List (Row κ ρ)) × Bool :=
  match locateStartPos range isReverseScan rows true with
  | (none, need) => (none, need)
  | (some start, need) =>
    match locateEndPos range isReverseScan rows need with
    | (none, need) => (none, need)
    | (some last, need) =>
      if last < start then (none, false)
      else
        let located := (rows.take (last + 1)).drop start
        (some (if isReverseScan then located.reverse else located), need)

/-! ### Which rows are found -/

section Located

variable {rows : List (Row κ ρ)} {isReverseScan need : Bool} {key : κ} {it : Nat}

def ObNewRange.filter (range : ObNewRange κ) (rows : List (Row κ ρ)) : List (Row κ ρ) :=
  rows.filter fun row => range.contains row.key

/-- In the order of the scan. -/
def inOrder {β : Type} (isReverseScan : Bool) (l : List β) : List β :=
  if isReverseScan then l.reverse else l

/-- No row of the range comes behind the block in the order of the scan. -/
def Closed (range : ObNewRange κ) (isReverseScan : Bool) (rows : List (Row κ ρ)) : Prop :=
  if isReverseScan then ∃ row ∈ rows, range.aboveStart row.key = false
  else ∃ row ∈ rows, ∀ key, row.key < key → range.belowEnd key = false

/-- Elements in the order of their keys. -/
def IncreasingBy {β : Type} (keyOf : β → κ) (l : List β) : Prop :=
  l.Pairwise fun a b => keyOf a < keyOf b

abbrev Increasing (rows : List (Row κ ρ)) : Prop := IncreasingBy Row.key rows

section LowerBound

variable {β : Type} {keyOf : β → κ} {l : List β} {b : β}

theorem take_lowerBound (hl : IncreasingBy keyOf l) (key : κ) :
    l.take (lowerBound (fun b => keyOf b < key) l) = l.filter fun b => decide (keyOf b < key) := by
  refine take_findIdx_not_eq_filter (fun a b hab hb => ?_) hl
  simp only [decide_eq_true_eq] at hb ⊢
  exact hab.trans hb

theorem lt_of_mem_take (hl : IncreasingBy keyOf l)
    (hit : it = lowerBound (fun b => keyOf b < key) l) (hb : b ∈ l.take it) : keyOf b < key := by
  rw [hit, take_lowerBound hl, mem_filter, decide_eq_true_eq] at hb
  exact hb.2

theorem not_lt_lowerBound
    (h : l[lowerBound (fun b => keyOf b < key) l]? = some b) : key ≤ keyOf b := by
  obtain ⟨hlt, rfl⟩ := List.getElem?_eq_some_iff.1 h
  have hnot : (!decide (keyOf l[lowerBound (fun b => keyOf b < key) l] < key)) = true :=
    findIdx_getElem (w := hlt)
  simpa using hnot

theorem split_lowerBound (hl : IncreasingBy keyOf l)
    (hit : it = lowerBound (fun b => keyOf b < key) l) (hb : l[it]? = some b) :
    it < l.length ∧ key ≤ keyOf b ∧ l.drop it = b :: l.drop (it + 1) ∧
      (∀ other ∈ l.take it, keyOf other < key) ∧
      ∀ other ∈ l.drop (it + 1), keyOf b < keyOf other := by
  obtain ⟨hlt, hget⟩ := List.getElem?_eq_some_iff.1 hb
  have hdrop : l.drop it = b :: l.drop (it + 1) := by
    rw [drop_eq_getElem_cons hlt, hget]
  refine ⟨hlt, ?_, hdrop, fun _ => lt_of_mem_take hl hit, ?_⟩
  · rw [hit] at hb
    exact not_lt_lowerBound hb
  intro other hother
  have hsorted : IncreasingBy keyOf (l.drop it) := List.Pairwise.drop hl
  rw [hdrop] at hsorted
  exact rel_of_pairwise_cons hsorted hother

theorem filter_eq_drop_of {q : β → Bool}
    (hdrop : l.drop it = b :: l.drop (it + 1)) (hbefore : ∀ other ∈ l.take it, q other = false)
    (hbehind : ∀ other ∈ l.drop (it + 1), q other = true) :
    l.filter q = l.drop (if q b then it else it + 1) := by
  have hnil : (l.take it).filter q = [] :=
    filter_eq_nil_iff.2 fun other hother => by simp [hbefore other hother]
  conv_lhs => rw [← take_append_drop it l]
  rw [filter_append, hnil, nil_append, hdrop]
  rcases hq : q b with _ | _
  · simp [hq, filter_eq_self.2 hbehind]
  · simp [hq, hdrop, filter_eq_self.2 hbehind]

end LowerBound

theorem aboveStart_some {start : κ} (hstart : range.startKey = some start) :
    (∀ ⦃key⦄, key < start → range.aboveStart key = false) ∧
      (∀ ⦃key⦄, start < key → range.aboveStart key = true) ∧
      ∀ ⦃key⦄, key = start → range.aboveStart key = range.inclusiveStart := by
  rcases hincl : range.inclusiveStart with _ | _
  · simp only [aboveStart, hstart, hincl, Bool.false_eq_true, if_false,
      decide_eq_false_iff_not, decide_eq_true_eq]
    exact ⟨fun _ h => h.not_gt, fun _ => id, fun _ h => h.not_gt⟩
  · simp only [aboveStart, hstart, hincl, if_true, decide_eq_false_iff_not, decide_eq_true_eq]
    exact ⟨fun _ h => h.not_ge, fun _ h => h.le, fun _ h => h.ge⟩

theorem aboveStart_eq_false_of_lt {key' : κ} (hlt : key < key')
    (h : range.aboveStart key' = false) : range.aboveStart key = false := by
  rcases hstart : range.startKey with _ | start
  · simp [aboveStart, hstart] at h
  obtain ⟨hbefore, hbehind, -⟩ := aboveStart_some hstart
  by_contra hnot
  have hle : start ≤ key := not_lt.1 fun hkey => hnot (hbefore hkey)
  exact absurd (h.symm.trans (hbehind (hle.trans_lt hlt))) (by decide)

theorem locateStartPos_spec (hne : rows ≠ []) (hrows : Increasing rows) :
    ∃ need, (need = false → isReverseScan = true ∧ ∃ row ∈ rows, range.aboveStart row.key = false) ∧
      ((∃ start < rows.length, locateStartPos range isReverseScan rows true = (some start, need) ∧
          rows.drop start = rows.filter fun row => range.aboveStart row.key) ∨
        locateStartPos range isReverseScan rows true = (none, need) ∧
          ∀ row ∈ rows, range.aboveStart row.key = false) := by
  obtain ⟨first, hfirst⟩ := exists_mem_of_ne_nil rows hne
  rcases hstart : range.startKey with _ | start
  · have hall : ∀ row ∈ rows, range.aboveStart row.key = true := by
      intro row _
      rw [aboveStart, hstart]
    refine ⟨true, fun h => absurd h (by decide), .inl ⟨0, length_pos_iff.2 hne, ?_, ?_⟩⟩
    · rw [locateStartPos, hstart]
    · rw [filter_eq_self.2 hall, drop_zero]
  obtain ⟨hbelow, habove, hequal⟩ := aboveStart_some hstart
  have hreverse : ∀ {p : Bool}, (if isReverseScan then p else true) = false →
      isReverseScan = true := by
    intro p h
    by_contra hforward
    rw [if_neg hforward] at h
    exact absurd h (by decide)
  obtain ⟨it, hit⟩ : ∃ it, it = lowerBound (fun row => row.key < start) rows := ⟨_, rfl⟩
  rcases hrow : rows[it]? with _ | row
  · have hall : ∀ row ∈ rows, range.aboveStart row.key = false := by
      intro row hmem
      rw [← take_of_length_le (List.getElem?_eq_none_iff.1 hrow)] at hmem
      exact hbelow (lt_of_mem_take hrows hit hmem)
    refine ⟨if isReverseScan then false else true,
      fun h => ⟨hreverse h, first, hfirst, hall first hfirst⟩, .inr ⟨?_, hall⟩⟩
    simp [locateStartPos, hstart, ← hit, hrow]
  · obtain ⟨hlt, hle, hdrop, hbefore, hbehind⟩ := split_lowerBound hrows hit hrow
    have hfilter := filter_eq_drop_of (q := fun row => range.aboveStart row.key) hdrop
      (fun other hother => hbelow (hbefore other hother))
      (fun other hother => habove (hle.trans_lt (hbehind other hother)))
    have hmem : row ∈ rows := mem_of_getElem? hrow
    by_cases hskip : row.key = start ∧ range.inclusiveStart = false
    · -- the row with the start key is left out
      have hnot : range.aboveStart row.key = false := (hequal hskip.1).trans hskip.2
      rw [hnot, if_neg (by decide)] at hfilter
      refine ⟨if isReverseScan then it + 1 == 0 else true,
        fun h => ⟨hreverse h, row, hmem, hnot⟩, ?_⟩
      have hlocate : locateStartPos range isReverseScan rows true =
          (if it + 1 = rows.length then none else some (it + 1),
            if isReverseScan then it + 1 == 0 else true) := by
        simp [locateStartPos, hstart, ← hit, hrow, if_pos hskip]
      by_cases hlast : it + 1 = rows.length
      · rw [if_pos hlast] at hlocate
        rw [hlast, drop_length, filter_eq_nil_iff] at hfilter
        exact .inr ⟨hlocate, fun other hother => Bool.not_eq_true _ ▸ hfilter other hother⟩
      · rw [if_neg hlast] at hlocate
        exact .inl ⟨it + 1, by omega, hlocate, hfilter.symm⟩
    · have hyes : range.aboveStart row.key = true := by
        obtain heq | hgt := hle.eq_or_lt
        · rw [hequal heq.symm]
          by_contra hincl
          exact hskip ⟨heq.symm, Bool.not_eq_true _ ▸ hincl⟩
        · exact habove hgt
      rw [hyes, if_pos rfl] at hfilter
      have hlocate : locateStartPos range isReverseScan rows true =
          (some it, if isReverseScan then it == 0 else true) := by
        simp [locateStartPos, hstart, ← hit, hrow, if_neg hskip, if_neg hlt.ne]
      refine ⟨_, fun h => ?_, .inl ⟨it, hlt, hlocate, hfilter.symm⟩⟩
      obtain rfl := hreverse h
      have hpos : it ≠ 0 := by simpa using h
      have hhead : rows[0] ∈ rows.take it := mem_take_iff_getElem.2 ⟨0, by omega, rfl⟩
      exact ⟨rfl, _, mem_of_mem_take hhead, hbelow (hbefore _ hhead)⟩

theorem belowEnd_some {last : κ} (hend : range.endKey = some last) :
    (∀ ⦃key⦄, key < last → range.belowEnd key = true) ∧
      (∀ ⦃key⦄, last < key → range.belowEnd key = false) ∧
      ∀ ⦃key⦄, key = last → range.belowEnd key = range.inclusiveEnd := by
  rcases hincl : range.inclusiveEnd with _ | _
  · simp only [belowEnd, hend, hincl, Bool.false_eq_true, if_false,
      decide_eq_false_iff_not, decide_eq_true_eq]
    exact ⟨fun _ => id, fun _ h => h.not_gt, fun _ h => h.not_lt⟩
  · simp only [belowEnd, hend, hincl, if_true, decide_eq_false_iff_not, decide_eq_true_eq]
    exact ⟨fun _ h => h.le, fun _ h => h.not_ge, fun _ h => h.le⟩

theorem belowEnd_eq_false_of_lt {key' : κ} (hlt : key < key')
    (h : range.belowEnd key = false) : range.belowEnd key' = false := by
  rcases hend : range.endKey with _ | last
  · simp [belowEnd, hend] at h
  obtain ⟨hbefore, hbehind, -⟩ := belowEnd_some hend
  by_contra hnot
  have hle : key' ≤ last := not_lt.1 fun hkey => hnot (hbehind hkey)
  exact absurd (h.symm.trans (hbefore (hlt.trans_le hle))) (by decide)

omit [LinearOrder κ] in
theorem filter_eq_take_of {q : Row κ ρ → Bool} {row : Row κ ρ}
    (hdrop : rows.drop it = row :: rows.drop (it + 1))
    (hbefore : ∀ other ∈ rows.take it, q other = true)
    (hbehind : ∀ other ∈ rows.drop (it + 1), q other = false) :
    rows.filter q = rows.take (if q row then it + 1 else it) := by
  have hnil : (rows.drop (it + 1)).filter q = [] :=
    filter_eq_nil_iff.2 fun other hother => by simp [hbehind other hother]
  have hsucc : rows.take (it + 1) = rows.take it ++ [row] := by
    rw [take_add, hdrop, take_succ_cons, take_zero]
  conv_lhs => rw [← take_append_drop it rows]
  rw [filter_append, filter_eq_self.2 hbefore, hdrop]
  rcases hq : q row with _ | _
  · simp [hq, hnil]
  · simp [hq, hnil, hsucc]

theorem locateEndPos_spec (hne : rows ≠ []) (hrows : Increasing rows) (need : Bool) :
    ∃ need', (need' = false → need = false ∨ isReverseScan = false ∧
        ∃ row ∈ rows, ∀ key, row.key < key → range.belowEnd key = false) ∧
      ((∃ last < rows.length, locateEndPos range isReverseScan rows need = (some last, need') ∧
          rows.take (last + 1) = rows.filter fun row => range.belowEnd row.key) ∨
        locateEndPos range isReverseScan rows need = (none, need') ∧
          ∀ row ∈ rows, range.belowEnd row.key = false) := by
  have hlength := length_pos_iff.2 hne
  rcases hend : range.endKey with _ | last
  · have hall : ∀ row ∈ rows, range.belowEnd row.key = true := by
      intro row _
      rw [belowEnd, hend]
    refine ⟨need, .inl, .inl ⟨rows.length - 1, by omega, ?_, ?_⟩⟩
    · simp only [locateEndPos, hend, if_neg hlength.ne']
    · rw [filter_eq_self.2 hall, take_of_length_le (by omega)]
  obtain ⟨htrue, hfalse, hequal⟩ := belowEnd_some hend
  obtain ⟨it, hit⟩ : ∃ it, it = lowerBound (fun row => row.key < last) rows := ⟨_, rfl⟩
  have hitle : it ≤ rows.length := hit ▸ findIdx_le_length
  by_cases hall : it = rows.length
  · -- every row is before the end key, and the last one is taken
    have hbelow : ∀ row ∈ rows, row.key < last := by
      intro row hmem
      rw [← take_of_length_le hall.ge] at hmem
      exact lt_of_mem_take hrows hit hmem
    have hlast : rows.length - 1 < rows.length := by omega
    have hrow : rows[it - 1]? = some rows[rows.length - 1] := by
      rw [hall, getElem?_eq_getElem hlast]
    have hlt : rows[rows.length - 1].key < last := hbelow _ (getElem_mem hlast)
    refine ⟨need, .inl, .inl ⟨rows.length - 1, hlast, ?_, ?_⟩⟩
    · simp only [locateEndPos, hend, ← hit, if_pos hall, hrow, hlt.not_gt, hlt.ne, hlt.ne',
        false_and, or_false, if_false, ite_self]
      rw [hall]
    · rw [filter_eq_self.2 fun row hmem => htrue (hbelow row hmem), take_of_length_le (by omega)]
  · have hrow : rows[it]? = some (rows.get ⟨it, by omega⟩) := by
      rw [get_eq_getElem, getElem?_eq_getElem]
    obtain ⟨row, hrow⟩ : ∃ row, rows[it]? = some row := ⟨_, hrow⟩
    obtain ⟨hlt, hle, hdrop, hbefore, hbehind⟩ := split_lowerBound hrows hit hrow
    have hfilter := filter_eq_take_of (q := fun row => range.belowEnd row.key) hdrop
      (fun other hother => htrue (hbefore other hother))
      (fun other hother => hfalse (hle.trans_lt (hbehind other hother)))
    have hmem : row ∈ rows := mem_of_getElem? hrow
    refine ⟨if isReverseScan then need else false, ?_, ?_⟩
    · intro hneed
      rcases isReverseScan with _ | _
      · refine .inr ⟨rfl, row, hmem, fun key hkey => ?_⟩
        exact hfalse (hle.trans_lt hkey)
      · exact .inl hneed
    by_cases hskip : last < row.key ∨ row.key = last ∧ range.inclusiveEnd = false
    · -- the row is not before the end any more
      have hnot : range.belowEnd row.key = false := by
        obtain hgt | ⟨heq, hexcl⟩ := hskip
        · exact hfalse hgt
        · exact (hequal heq).trans hexcl
      rw [hnot, if_neg (by decide)] at hfilter
      by_cases hzero : it = 0
      · refine .inr ⟨?_, ?_⟩
        · simp only [locateEndPos, hend, ← hit, if_neg hall, hrow, if_pos hzero, if_pos hskip]
        · rw [hzero, take_zero, filter_eq_nil_iff] at hfilter
          exact fun other hother => Bool.not_eq_true _ ▸ hfilter other hother
      refine .inl ⟨it - 1, by omega, ?_, ?_⟩
      · simp only [locateEndPos, hend, ← hit, if_neg hall, hrow, if_neg hzero]
        obtain hgt | ⟨heq, hexcl⟩ := hskip
        · rw [if_pos hgt, if_neg fun h => hgt.ne h.1]
        · rw [if_neg heq.le.not_gt, if_pos ⟨heq.symm, hexcl⟩]
      · rw [Nat.sub_add_cancel (Nat.pos_of_ne_zero hzero), hfilter]
    · obtain ⟨hnotlt, hnoteq⟩ := not_or.1 hskip
      have heq : row.key = last := (not_lt.1 hnotlt).antisymm hle
      have hincl : range.inclusiveEnd = true := by
        by_contra hexcl
        exact hnoteq ⟨heq, Bool.not_eq_true _ ▸ hexcl⟩
      rw [hequal heq, hincl, if_pos rfl] at hfilter
      refine .inl ⟨it, hlt, ?_, hfilter.symm⟩
      have hne' : ¬ (last = row.key ∧ range.inclusiveEnd = false) := by
        rintro ⟨-, hexcl⟩
        exact absurd (hincl.symm.trans hexcl) (by decide)
      simp only [locateEndPos, hend, ← hit, if_neg hall, hrow, if_neg hskip, if_neg hnotlt,
        if_neg hne', ite_self]

theorem filter_take_of_drop {β : Type} {l : List β} {q : β → Bool} {i : Nat}
    (h : l.drop i = l.filter q) (n : Nat) : (l.take n).filter q = (l.take n).drop i := by
  have hbehind : ∀ a ∈ l.drop i, q a = true := by
    intro a ha
    rw [h, mem_filter] at ha
    exact ha.2
  have hbefore : (l.take i).filter q = [] := by
    have hall := congrArg (List.filter q) (take_append_drop i l)
    rw [filter_append, filter_eq_self.2 hbehind, ← h] at hall
    exact append_left_eq_self.1 hall
  conv_lhs => rw [← take_append_drop i (l.take n)]
  have hnil : ((l.take n).take i).filter q = [] := by
    rw [filter_eq_nil_iff] at hbefore ⊢
    intro a ha
    rw [take_take, Nat.min_comm, ← take_take] at ha
    exact hbefore a (mem_of_mem_take ha)
  have hself : ((l.take n).drop i).filter q = (l.take n).drop i := by
    rw [filter_eq_self]
    intro a ha
    rw [drop_take] at ha
    exact hbehind a (mem_of_mem_take ha)
  rw [filter_append, hnil, hself, nil_append]

theorem filter_eq_nil_of_aboveStart
    (h : ∀ row ∈ rows, range.aboveStart row.key = false) : range.filter rows = [] := by
  refine filter_eq_nil_iff.2 fun row hrow => ?_
  simp [ObNewRange.contains, h row hrow]

theorem filter_eq_nil_of_belowEnd
    (h : ∀ row ∈ rows, range.belowEnd row.key = false) : range.filter rows = [] := by
  refine filter_eq_nil_iff.2 fun row hrow => ?_
  simp [ObNewRange.contains, h row hrow]

/-- `set_scan_param` finds the rows of the range, and asks for no other block only if no row of the
range comes behind this one. -/
theorem setBlock_spec (hne : rows ≠ []) (hrows : Increasing rows) :
    ∃ need, setBlock range isReverseScan rows =
        (if range.filter rows = [] then none else some (inOrder isReverseScan (range.filter rows)),
          need) ∧
      (need = false → Closed range isReverseScan rows) := by
  obtain ⟨need, hneed, hstart⟩ :
      ∃ need, _ ∧ (_ ∨ locateStartPos range isReverseScan rows true = (none, need) ∧ _) :=
    locateStartPos_spec hne hrows
  have hsplit : range.filter rows =
      (rows.filter fun row => range.belowEnd row.key).filter
        fun row => range.aboveStart row.key := by
    rw [filter_filter]
    rfl
  have hclosed : ∀ need', (need' = false → need = false ∨ isReverseScan = false ∧
      ∃ row ∈ rows, ∀ key, row.key < key → range.belowEnd key = false) →
      need' = false → Closed range isReverseScan rows := by
    intro need' hneed' hfalse
    obtain hfalse | ⟨rfl, hrow⟩ := hneed' hfalse
    · obtain ⟨rfl, hrow⟩ := hneed hfalse
      exact hrow
    · exact hrow
  obtain ⟨start, hstartlt, hlocate, hdrop⟩ | ⟨hlocate, hnone⟩ := hstart
  · obtain ⟨need', hneed', hend⟩ :
        ∃ need', _ ∧ (_ ∨ locateEndPos range isReverseScan rows need = (none, need') ∧ _) :=
      locateEndPos_spec hne hrows need
    obtain ⟨last, hlastlt, hlocate', htake⟩ | ⟨hlocate', hnone⟩ := hend
    · have hfilter : range.filter rows = (rows.take (last + 1)).drop start := by
        rw [hsplit, ← htake, filter_take_of_drop hdrop]
      by_cases hlt : last < start
      · have hnil : range.filter rows = [] := by
          rw [hfilter, drop_eq_nil_iff, length_take]
          omega
        have hnot : ∀ row ∈ rows, range.contains row.key = false := by
          intro row hrow
          exact Bool.not_eq_true _ ▸ filter_eq_nil_iff.1 hnil row hrow
        refine ⟨false, ?_, fun _ => ?_⟩
        · simp [setBlock, hlocate, hlocate', if_pos hlt, if_pos hnil]
        -- the row at the start is behind the end, the row at the end is before the start
        have hfirst : rows[start] ∈ rows.filter fun row => range.aboveStart row.key := by
          rw [← hdrop, drop_eq_getElem_cons hstartlt]
          exact mem_cons_self
        have hlast : rows[last] ∈ rows.filter fun row => range.belowEnd row.key := by
          rw [← htake]
          exact mem_take_iff_getElem.2 ⟨last, by omega, rfl⟩
        rw [mem_filter] at hfirst hlast
        rw [Closed]
        split_ifs
        · refine ⟨rows[last], hlast.1, ?_⟩
          have hcontains := hnot _ hlast.1
          rwa [ObNewRange.contains, hlast.2, Bool.and_true] at hcontains
        refine ⟨rows[start], hfirst.1, fun key hkey => ?_⟩
        have hcontains := hnot _ hfirst.1
        rw [ObNewRange.contains, hfirst.2, Bool.true_and] at hcontains
        exact belowEnd_eq_false_of_lt hkey hcontains
      · have hne' : range.filter rows ≠ [] := by
          rw [hfilter, Ne, drop_eq_nil_iff, length_take]
          omega
        refine ⟨need', ?_, hclosed need' hneed'⟩
        rw [if_neg hne']
        simp [setBlock, hlocate, hlocate', if_neg hlt, hfilter, inOrder]
    · have hnil := filter_eq_nil_of_belowEnd hnone
      refine ⟨need', ?_, hclosed need' hneed'⟩
      simp [setBlock, hlocate, hlocate', if_pos hnil]
  · have hnil := filter_eq_nil_of_aboveStart hnone
    refine ⟨need, ?_, hclosed need .inl⟩
    simp [setBlock, hlocate, if_pos hnil]

theorem locateStartPos_lt {start : Nat} {before : Bool} (hne : rows ≠ [])
    (h : locateStartPos range isReverseScan rows before = (some start, need)) :
    start < rows.length := by
  have hpos := length_pos_iff.2 hne
  rw [locateStartPos] at h
  rcases hstart : range.startKey with _ | key
  · simp only [hstart, Prod.mk.injEq, Option.some.injEq] at h
    omega
  simp only [hstart] at h
  split at h
  · simp at h
  · next row hrow =>
    obtain ⟨hlt, -⟩ := List.getElem?_eq_some_iff.1 hrow
    split_ifs at h <;> simp at h <;> omega

theorem setBlock_ne_nil {located : List (Row κ ρ)} (hne : rows ≠ [])
    (h : setBlock range isReverseScan rows = (some located, need)) : located ≠ [] := by
  rw [setBlock] at h
  split at h
  · simp at h
  · next start need' hstart =>
    have hlt := locateStartPos_lt hne hstart
    split at h
    · simp at h
    · next last need'' hend =>
      by_cases hbefore : last < start
      · simp [hbefore] at h
      simp only [if_neg hbefore, Prod.mk.injEq, Option.some.injEq] at h
      have hlocated : (rows.take (last + 1)).drop start ≠ [] := by
        rw [Ne, drop_eq_nil_iff, length_take]
        omega
      rw [← h.1]
      split_ifs
      · exact fun hnil => hlocated (reverse_eq_nil_iff.1 hnil)
      · exact hlocated

end Located

end OceanBase.CompactSSTable
