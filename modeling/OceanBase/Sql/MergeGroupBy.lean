import OceanBase.Common.Define
import OceanBase.Lib.Iterate

/-!
# Grouping of sorted rows (`ob_merge_groupby.cpp`, `ob_aggregate_function.cpp`)

`MergeGroupBy` reads rows whose groups come one after the other and outputs a row for each of
them: the cells of the group's first row and one cell for each aggregate. The row that ends a group
is kept in `lastInputRow` and begins the next one.

Cells are integers or null. Sums are taken in `Int`, so that nothing overflows. AVG leaves the
quotient as the pair of its operands.
-/

namespace OceanBase.Sql

open Lib List

/-- The aggregates of `ObItemType`. -/
inductive AggrFun where
  | count
  | max
  | min
  | sum
  | avg
  deriving DecidableEq

inductive ResCell where
  | null
  | int (v : Int)
  | div (sum count : Int)
  deriving DecidableEq

/-- An aggregate column; `calcCell` is `calc`, its expression's value on an input row. -/
structure AggrColumn (ι : Type) where
  aggrFun : AggrFun
  isDistinct : Bool
  calcCell : (ι → Option Int) → Option Int

/-- The cell `aggr_cells_` and `aux_cells_` hold for a column, and the set of operands it has seen
if it is a DISTINCT one. -/
structure AggrCell where
  res1 : Option Int
  res2 : Int
  dedupSet : List (Option Int)

/-! ### Operands of one aggregate -/

variable (aggrFun : AggrFun)

def initAggrCell (oprand : Option Int) : AggrCell :=
  match aggrFun, oprand with
  | .count, some _ => ⟨some 1, 1, []⟩
  | .count, none => ⟨some 0, 0, []⟩
  | _, some v => ⟨some v, 1, []⟩
  | _, none => ⟨none, 0, []⟩

/-- `ObExprObj::lt`: unknown on a null. -/
def exprLt : Option Int → Option Int → Option Bool
  | some a, some b => some (decide (a < b))
  | _, _ => none

/-- The switch of `calc_aggr_cell`, for an operand that is not null. -/
def calcRes1 (res1 : Option Int) (v : Int) : Option Int :=
  match aggrFun with
  | .count => res1.map (· + 1)
  | .max =>
    match exprLt res1 (some v) with
    | some true => some v
    | some false => res1
    | none => if res1.isNone then some v else res1
  | .min =>
    match exprLt (some v) res1 with
    | some true => some v
    | some false => res1
    | none => if res1.isNone then some v else res1
  | .sum | .avg =>
    match res1 with
    | none => some v
    | some sum => some (sum + v)

def calcAggrCell (oprand : Option Int) (cell : AggrCell) : AggrCell :=
  match oprand with
  | none => cell
  | some v => { cell with res1 := calcRes1 aggrFun cell.res1 v, res2 := cell.res2 + 1 }

/-- The switch of `get_result`. -/
def resultCell (cell : AggrCell) : ResCell :=
  let res := match cell.res1 with
    | none => ResCell.null
    | some v => .int v
  match aggrFun with
  | .count => res
  | .max | .min | .sum => if cell.res2 = 0 then .null else res
  | .avg =>
    if cell.res2 = 0 then .null else
      match cell.res1 with
      | none => .null
      | some sum => .div sum cell.res2

/-! ### All aggregates of a group -/

variable {ι : Type} (usedMemSize : List (List (Option Int)) → Int) {vs : List Int}

section Model

/-- `ObAggregateFunction`: the current group's row, the cells of its aggregates and the rows of
operands kept for DISTINCT. -/
structure AggregateFunction (ι : Type) where
  currRow : ι → Option Int
  cells : List AggrCell
  rowStore : List (List (Option Int))

/-- The operands of the DISTINCT columns. -/
def dedupRow (columns : List (AggrColumn ι)) (row : ι → Option Int) : List (Option Int) :=
  (columns.filter (·.isDistinct)).map fun column => column.calcCell row

variable (row : ι → Option Int)

variable (column : AggrColumn ι)

/-- A column's part of `prepare`. -/
def prepareCell : AggrCell :=
  let oprand := column.calcCell row
  let cell := initAggrCell column.aggrFun oprand
  if column.isDistinct then { cell with dedupSet := [oprand] } else cell

/-- A DISTINCT column that has not seen the operand. -/
def isQualified (cell : AggrCell) : Bool :=
  column.isDistinct && !cell.dedupSet.contains (column.calcCell row)

/-- A column's part of `process`. -/
def processCell (cell : AggrCell) : AggrCell :=
  let oprand := column.calcCell row
  if column.isDistinct then
    if cell.dedupSet.contains oprand then cell
    else calcAggrCell column.aggrFun oprand { cell with dedupSet := oprand :: cell.dedupSet }
  else calcAggrCell column.aggrFun oprand cell

namespace AggregateFunction

/-- `prepare`: begin a group with its first row. -/
def prepare (columns : List (AggrColumn ι)) (row : ι → Option Int) (f : AggregateFunction ι) :
    AggregateFunction ι where
  currRow := row
  cells := columns.map (prepareCell row)
  rowStore := if columns.any (·.isDistinct) then [dedupRow columns row] else f.rowStore

/-- `process`: a further row of the group. -/
def process (columns : List (AggrColumn ι)) (row : ι → Option Int) (f : AggregateFunction ι) :
    AggregateFunction ι where
  currRow := f.currRow
  cells := List.zipWith (processCell row) columns f.cells
  rowStore :=
    if (List.zipWith (isQualified row) columns f.cells).any id then
      f.rowStore ++ [dedupRow columns row]
    else f.rowStore

def getResult (columns : List (AggrColumn ι)) (f : AggregateFunction ι) :
    (ι → Option Int) × List ResCell :=
  (f.currRow, List.zipWith (fun column cell => resultCell column.aggrFun cell) columns f.cells)

end AggregateFunction

/-! ### The operator -/

/-- `is_same_group`; rows without group columns are all of one group. -/
def isSameGroup (groupColumns : List ι) (row₁ row₂ : ι → Option Int) : Bool :=
  groupColumns.all fun i => row₁ i == row₂ i

/-- `ObMergeGroupBy`, with the rows its child still delivers. -/
structure MergeGroupBy (ι : Type) where
  groupColumns : List ι
  aggrColumns : List (AggrColumn ι)
  memSizeLimit : Int
  child : List (ι → Option Int)
  lastInputRow : Option (ι → Option Int)
  aggrFunc : AggregateFunction ι

namespace MergeGroupBy

/-- `open`. -/
def «open» (groupColumns : List ι) (aggrColumns : List (AggrColumn ι)) (memSizeLimit : Int)
    (rows : List (ι → Option Int)) : MergeGroupBy ι :=
  ⟨groupColumns, aggrColumns, memSizeLimit, rows, none, ⟨fun _ => none, [], []⟩⟩

/-- The loop of `get_next_row` over the rows of the child. -/
def groupLoop (s : MergeGroupBy ι) :
    AggregateFunction ι → List (ι → Option Int) → Except Ret (MergeGroupBy ι)
  | f, [] => .ok { s with child := [], lastInputRow := none, aggrFunc := f }
  | f, row :: rows =>
    if isSameGroup s.groupColumns f.currRow row then
      let f := f.process s.aggrColumns row
      if 0 < s.memSizeLimit ∧ s.memSizeLimit < usedMemSize f.rowStore then
        .error .exceedMemLimit
      else groupLoop s f rows
    else .ok { s with child := rows, lastInputRow := some row, aggrFunc := f }

/-- `get_next_row` once the first row of the group is known. -/
def getNextGroup (s : MergeGroupBy ι) (row : ι → Option Int) (rows : List (ι → Option Int)) :
    Except Ret (((ι → Option Int) × List ResCell) × MergeGroupBy ι) :=
  match s.groupLoop usedMemSize (s.aggrFunc.prepare s.aggrColumns row) rows with
  | .error e => .error e
  | .ok s' => .ok (s'.aggrFunc.getResult s'.aggrColumns, s')

def getNextRow (s : MergeGroupBy ι) :
    Except Ret (((ι → Option Int) × List ResCell) × MergeGroupBy ι) :=
  match s.lastInputRow, s.child with
  | none, [] => .error .iterEnd
  | none, row :: rows => s.getNextGroup usedMemSize row rows
  | some row, rows => s.getNextGroup usedMemSize row rows

end MergeGroupBy

end Model

/-! ### Aggregates of SQL -/

/-- The aggregate of some values. -/
def AggrFun.over : AggrFun → List Int → ResCell
  | .count, vs => .int vs.length
  | .max, vs => vs.max?.elim .null .int
  | .min, vs => vs.min?.elim .null .int
  | .sum, vs => if vs = [] then .null else .int vs.sum
  | .avg, vs => if vs = [] then .null else .div vs.sum vs.length

/-- The values an aggregate is taken of: nulls are left out, and under DISTINCT duplicates. -/
def AggrColumn.values {ι : Type} (column : AggrColumn ι) (group : List (ι → Option Int)) :
    List Int :=
  let vs := group.filterMap column.calcCell
  if column.isDistinct then vs.dedup else vs

/-- The row SQL has for a group. -/
def groupRow {ι : Type} (aggrColumns : List (AggrColumn ι)) (group : List (ι → Option Int)) :
    (ι → Option Int) × List ResCell :=
  (group.headD fun _ => none,
    aggrColumns.map fun column => column.aggrFun.over (column.values group))

theorem AggrFun.over_perm (aggrFun : AggrFun) {ws : List Int} (h : vs.Perm ws) :
    aggrFun.over vs = aggrFun.over ws := by
  have hmax : vs.max? = ws.max? := by
    ext v
    simp [max?_eq_some_iff, h.mem_iff]
  have hmin : vs.min? = ws.min? := by
    ext v
    simp [min?_eq_some_iff, h.mem_iff]
  have hnil : vs = [] ↔ ws = [] := by
    rw [← length_eq_zero_iff, h.length_eq, length_eq_zero_iff]
  cases aggrFun <;> simp [AggrFun.over, hmax, hmin, h.sum_eq, h.length_eq, hnil]

theorem AggrColumn.values_perm {ι : Type} (column : AggrColumn ι)
    {group group' : List (ι → Option Int)}
    (h : group.Perm group') : (column.values group).Perm (column.values group') := by
  have hvals : (group.filterMap column.calcCell).Perm (group'.filterMap column.calcCell) :=
    h.filterMap column.calcCell
  unfold AggrColumn.values
  cases column.isDistinct
  · exact hvals
  · exact hvals.dedup

/-! ### The cell of one aggregate -/

/-- What `res1` holds after some values. -/
def AggrFun.acc : AggrFun → List Int → Option Int
  | .count, vs => some vs.length
  | .max, vs => vs.max?
  | .min, vs => vs.min?
  | .sum, vs => if vs = [] then none else some vs.sum
  | .avg, vs => if vs = [] then none else some vs.sum

/-- The cell of an aggregate after some values. -/
structure Accumulates (aggrFun : AggrFun) (vs : List Int) (cell : AggrCell) : Prop where
  res1 : cell.res1 = aggrFun.acc vs
  res2 : cell.res2 = vs.length

theorem calcRes1_acc (aggrFun : AggrFun) (vs : List Int) (v : Int) :
    calcRes1 aggrFun (aggrFun.acc vs) v = aggrFun.acc (v :: vs) := by
  cases aggrFun with
  | count => simp [calcRes1, AggrFun.acc]
  | max =>
    rcases h : vs.max? with _ | m
    · simp [calcRes1, AggrFun.acc, exprLt, h, max?_cons]
    have hmax : max v m = if m < v then v else m := by grind
    by_cases hlt : m < v <;> simp [calcRes1, AggrFun.acc, exprLt, h, hlt, max?_cons, hmax]
  | min =>
    rcases h : vs.min? with _ | m
    · simp [calcRes1, AggrFun.acc, exprLt, h]
    have hmin : min v m = if v < m then v else m := by grind
    by_cases hlt : v < m <;> simp [calcRes1, AggrFun.acc, exprLt, h, hlt, hmin]
  | sum | avg => cases vs <;> simp [calcRes1, AggrFun.acc, add_comm]

theorem accumulates_init (aggrFun : AggrFun) (oprand : Option Int) :
    Accumulates aggrFun oprand.toList (initAggrCell aggrFun oprand) := by
  constructor <;> cases aggrFun <;> cases oprand <;> simp [initAggrCell, AggrFun.acc]

variable {cell : AggrCell} {aggrFun : AggrFun}

theorem Accumulates.calcAggrCell (h : Accumulates aggrFun vs cell) (oprand : Option Int) :
    Accumulates aggrFun (oprand.toList ++ vs) (calcAggrCell aggrFun oprand cell) := by
  rcases oprand with _ | v
  · exact h
  refine ⟨?_, ?_⟩
  · simp [Sql.calcAggrCell, h.res1, calcRes1_acc]
  · simp [Sql.calcAggrCell, h.res2]

theorem Accumulates.resultCell
    (h : Accumulates aggrFun vs cell) : resultCell aggrFun cell = aggrFun.over vs := by
  cases aggrFun with
  | count => simp [Sql.resultCell, AggrFun.over, h.res1, AggrFun.acc]
  | max | min | sum | avg =>
    cases vs <;> simp [Sql.resultCell, AggrFun.over, h.res1, h.res2, AggrFun.acc]
    omega

section Groups

/-- The cell of a column after some rows of the group, the last one first. -/
structure HoldsRows (done : List (ι → Option Int)) (column : AggrColumn ι) (cell : AggrCell) :
    Prop where
  accumulates : Accumulates column.aggrFun (column.values done) cell
  dedupSet : column.isDistinct = true → ∀ oprand,
    oprand ∈ cell.dedupSet ↔ oprand ∈ done.map column.calcCell

theorem holdsRows_prepareCell (row : ι → Option Int) (column : AggrColumn ι) :
    HoldsRows [row] column (prepareCell row column) := by
  have hinit := accumulates_init column.aggrFun (column.calcCell row)
  have hvalues : column.values [row] = (column.calcCell row).toList := by
    cases h : column.calcCell row <;> simp [AggrColumn.values, h]
  refine ⟨hvalues ▸ ?_, fun hdistinct oprand => ?_⟩
  · unfold prepareCell
    cases column.isDistinct
    · exact hinit
    · exact ⟨hinit.res1, hinit.res2⟩
  · simp [prepareCell, hdistinct]

variable {done : List (ι → Option Int)}

variable {column : AggrColumn ι} {row : ι → Option Int}

theorem values_cons_of_mem (hdistinct : column.isDistinct = true)
    (hmem : column.calcCell row ∈ done.map column.calcCell) :
    column.values (row :: done) = column.values done := by
  rcases h : column.calcCell row with _ | v
  · simp [AggrColumn.values, h]
  have hv : v ∈ done.filterMap column.calcCell := by
    simpa [h] using hmem
  simp [AggrColumn.values, h, hdistinct, dedup_cons_of_mem hv]

theorem values_cons_of_notMem
    (hnew : column.isDistinct = true → column.calcCell row ∉ done.map column.calcCell) :
    column.values (row :: done) = (column.calcCell row).toList ++ column.values done := by
  rcases h : column.calcCell row with _ | v
  · simp [AggrColumn.values, h]
  rcases hdistinct : column.isDistinct with _ | _
  · simp [AggrColumn.values, h, hdistinct]
  have hv : v ∉ done.filterMap column.calcCell := by
    simpa [h] using hnew hdistinct
  simp [AggrColumn.values, h, hdistinct, dedup_cons_of_notMem hv]

@[simp] theorem calcAggrCell_dedupSet (aggrFun : AggrFun) (oprand : Option Int) (cell : AggrCell) :
    (calcAggrCell aggrFun oprand cell).dedupSet = cell.dedupSet := by
  cases oprand <;> rfl

theorem HoldsRows.processCell (h : HoldsRows done column cell) (row : ι → Option Int) :
    HoldsRows (row :: done) column (processCell row column cell) := by
  by_cases hdistinct : column.isDistinct = true
  · by_cases hseen : column.calcCell row ∈ cell.dedupSet
    · have hmem := (h.dedupSet hdistinct _).1 hseen
      have hcell : Sql.processCell row column cell = cell := by
        simp [Sql.processCell, hdistinct, hseen]
      rw [hcell]
      refine ⟨values_cons_of_mem hdistinct hmem ▸ h.accumulates, fun _ oprand => ?_⟩
      rw [h.dedupSet hdistinct, map_cons, mem_cons]
      exact ⟨.inr, fun hor => hor.elim (fun heq => heq ▸ hmem) id⟩
    have hcell : Sql.processCell row column cell = calcAggrCell column.aggrFun
        (column.calcCell row) { cell with dedupSet := column.calcCell row :: cell.dedupSet } := by
      simp [Sql.processCell, hdistinct, hseen]
    rw [hcell]
    refine ⟨?_, fun _ oprand => ?_⟩
    · rw [values_cons_of_notMem fun _ => mt (h.dedupSet hdistinct _).2 hseen]
      have hacc : Accumulates column.aggrFun (column.values done)
          { cell with dedupSet := column.calcCell row :: cell.dedupSet } :=
        ⟨h.accumulates.res1, h.accumulates.res2⟩
      exact hacc.calcAggrCell _
    · simp [h.dedupSet hdistinct]
  · have hcell : Sql.processCell row column cell =
        calcAggrCell column.aggrFun (column.calcCell row) cell := by
      simp [Sql.processCell, hdistinct]
    rw [hcell]
    refine ⟨?_, fun htrue => absurd htrue hdistinct⟩
    rw [values_cons_of_notMem fun htrue => absurd htrue hdistinct]
    exact h.accumulates.calcAggrCell _

/-! ### The cells of a group -/

/-- The state of all aggregates after some rows of a group, the last one first. -/
structure HoldsGroup (columns : List (AggrColumn ι)) (first : ι → Option Int)
    (done : List (ι → Option Int)) (f : AggregateFunction ι) : Prop where
  currRow : f.currRow = first
  cells : List.Forall₂ (HoldsRows done) columns f.cells

theorem holdsGroup_prepare (columns : List (AggrColumn ι)) (first : ι → Option Int)
    (f : AggregateFunction ι) : HoldsGroup columns first [first] (f.prepare columns first) := by
  refine ⟨rfl, ?_⟩
  show List.Forall₂ _ columns (columns.map (prepareCell first))
  rw [forall₂_map_right_iff, forall₂_same]
  exact fun column _ => holdsRows_prepareCell first column

variable {columns : List (AggrColumn ι)} {cells : List AggrCell}

theorem zipWith_processCell
    (h : List.Forall₂ (HoldsRows done) columns cells) (row : ι → Option Int) :
    List.Forall₂ (HoldsRows (row :: done)) columns
      (List.zipWith (processCell row) columns cells) := by
  induction h with
  | nil => exact .nil
  | cons hcell _ ih => exact .cons (hcell.processCell row) ih

theorem zipWith_resultCell (h : List.Forall₂ (HoldsRows done) columns cells) :
    List.zipWith (fun column cell => resultCell column.aggrFun cell) columns cells =
      columns.map fun column => column.aggrFun.over (column.values done) := by
  induction h with
  | nil => rfl
  | cons hcell _ ih => rw [zipWith_cons_cons, map_cons, ih, hcell.accumulates.resultCell]

variable {f : AggregateFunction ι} {first : ι → Option Int}

theorem HoldsGroup.process (h : HoldsGroup columns first done f)
    (row : ι → Option Int) : HoldsGroup columns first (row :: done) (f.process columns row) :=
  ⟨h.currRow, zipWith_processCell h.cells row⟩

theorem HoldsGroup.getResult {done more : List (ι → Option Int)}
    (h : HoldsGroup columns first done f) (hperm : done.Perm (first :: more)) :
    f.getResult columns = groupRow columns (first :: more) := by
  refine Prod.ext h.currRow ((zipWith_resultCell h.cells).trans ?_)
  exact map_congr_left fun column _ => column.aggrFun.over_perm (column.values_perm hperm)

/-! ### Runs of the operator -/

variable {groupColumns : List ι}

theorem isSameGroup_iff {row₁ row₂ : ι → Option Int} :
    isSameGroup groupColumns row₁ row₂ = true ↔ ∀ i ∈ groupColumns, row₁ i = row₂ i := by
  simp [isSameGroup]

theorem isSameGroup_symm {row₁ row₂ : ι → Option Int}
    (h : isSameGroup groupColumns row₁ row₂ = true) : isSameGroup groupColumns row₂ row₁ = true :=
  isSameGroup_iff.2 fun i hi => (isSameGroup_iff.1 h i hi).symm

theorem isSameGroup_trans {row₁ row₂ row₃ : ι → Option Int}
    (h : isSameGroup groupColumns row₁ row₂ = true)
    (h' : isSameGroup groupColumns row₂ row₃ = true) : isSameGroup groupColumns row₁ row₃ = true :=
  isSameGroup_iff.2 fun i hi => (isSameGroup_iff.1 h i hi).trans (isSameGroup_iff.1 h' i hi)

namespace MergeGroupBy

/-- The rows not yet in a group. -/
def pending (s : MergeGroupBy ι) : List (ι → Option Int) := s.lastInputRow.toList ++ s.child

/-- The operator with the rows `rows` to come. -/
structure Pending (groupColumns : List ι) (aggrColumns : List (AggrColumn ι)) (memSizeLimit : Int)
    (rows : List (ι → Option Int)) (s : MergeGroupBy ι) : Prop where
  groupColumns : s.groupColumns = groupColumns
  aggrColumns : s.aggrColumns = aggrColumns
  memSizeLimit : s.memSizeLimit = memSizeLimit
  pending : s.pending = rows

variable {first : ι → Option Int}

/-- The loop takes the rows of the group and stops before the first row of the next one, unless
the operands kept for DISTINCT take too much memory. -/
theorem groupLoop_spec (s : MergeGroupBy ι) {more rest done : List (ι → Option Int)}
    (hf : HoldsGroup s.aggrColumns first done f)
    (hmore : ∀ row ∈ more, isSameGroup s.groupColumns first row = true)
    (hrest : ∀ row ∈ rest.head?, isSameGroup s.groupColumns first row = false) :
    (s.groupLoop usedMemSize f (more ++ rest) = .error .exceedMemLimit ∧ 0 < s.memSizeLimit) ∨
    ∃ f', s.groupLoop usedMemSize f (more ++ rest) =
        .ok { s with child := rest.tail, lastInputRow := rest.head?, aggrFunc := f' } ∧
      HoldsGroup s.aggrColumns first (more.reverse ++ done) f' := by
  induction more generalizing f done with
  | nil =>
    refine .inr ⟨f, ?_, hf⟩
    rcases rest with _ | ⟨row, rest⟩
    · rfl
    · simp [groupLoop, hf.currRow, hrest row rfl]
  | cons row more ih =>
    have hsame : isSameGroup s.groupColumns f.currRow row = true := by
      rw [hf.currRow]
      exact hmore row (by simp)
    rw [cons_append, groupLoop, if_pos hsame]
    by_cases hmem : 0 < s.memSizeLimit ∧
        s.memSizeLimit < usedMemSize (f.process s.aggrColumns row).rowStore
    · exact .inl ⟨if_pos hmem, hmem.1⟩
    rw [if_neg hmem]
    have hnext := ih (hf.process row) fun row' h => hmore row' (by simp [h])
    simpa using hnext

variable {s : MergeGroupBy ι} {aggrColumns : List (AggrColumn ι)} {groupColumns : List ι}
    {memSizeLimit : Int}

theorem getNextRow_of_pending {rows : List (ι → Option Int)} (h : s.pending = first :: rows) :
    s.getNextRow usedMemSize = s.getNextGroup usedMemSize first rows := by
  unfold pending at h
  unfold getNextRow
  rcases hlast : s.lastInputRow with _ | row
  · have hchild : s.child = first :: rows := by simpa [hlast] using h
    rw [hchild]
  have hcons : row = first ∧ s.child = rows := by simpa [hlast] using h
  obtain ⟨rfl, rfl⟩ := hcons
  rfl

theorem getNextRow_spec {more rest : List (ι → Option Int)}
    (hs : Pending groupColumns aggrColumns memSizeLimit (first :: (more ++ rest)) s)
    (hmore : ∀ row ∈ more, isSameGroup groupColumns first row = true)
    (hrest : ∀ row ∈ rest.head?, isSameGroup groupColumns first row = false) :
    (s.getNextRow usedMemSize = .error .exceedMemLimit ∧ 0 < memSizeLimit) ∨
    ∃ s', s.getNextRow usedMemSize = .ok (groupRow aggrColumns (first :: more), s') ∧
      Pending groupColumns aggrColumns memSizeLimit rest s' := by
  obtain ⟨rfl, rfl, rfl, hpending⟩ := hs
  have hloop := groupLoop_spec usedMemSize s
    (holdsGroup_prepare s.aggrColumns first s.aggrFunc) hmore hrest
  rw [getNextRow_of_pending usedMemSize hpending, getNextGroup]
  obtain ⟨hloop, hlimit⟩ | ⟨f', hloop, hf'⟩ := hloop
  · rw [hloop]
    exact .inl ⟨rfl, hlimit⟩
  have hperm : (more.reverse ++ [first]).Perm (first :: more) :=
    (perm_append_singleton _ _).trans ((reverse_perm more).cons first)
  rw [hloop]
  refine .inr ⟨_, congrArg (fun out => Except.ok (out, _)) (hf'.getResult hperm), rfl, rfl, rfl, ?_⟩
  cases rest <;> rfl

/-- Rows cut into groups: those of a group agree in the group columns, and those on both sides
of a cut do not. -/
structure Grouped (groupColumns : List ι) (groups : List (List (ι → Option Int))) : Prop where
  nonempty : [] ∉ groups
  same : ∀ group ∈ groups, group.IsChain fun row row' => isSameGroup groupColumns row row' = true
  differ : groups.IsChain fun group group' => ∃ h h',
    isSameGroup groupColumns (group.getLast h) (group'.head h') = false

theorem grouped_splitBy (groupColumns : List ι) (rows : List (ι → Option Int)) :
    Grouped groupColumns (rows.splitBy (isSameGroup groupColumns)) :=
  ⟨nil_notMem_splitBy _ _, fun _ h => isChain_of_mem_splitBy h, isChain_getLast_head_splitBy _ _⟩

namespace Grouped

variable {more : List (ι → Option Int)} {groups : List (List (ι → Option Int))}

theorem tail {group : List (ι → Option Int)} (h : Grouped groupColumns (group :: groups)) :
    Grouped groupColumns groups :=
  ⟨fun hmem => h.nonempty (mem_cons_of_mem _ hmem),
    (forall_mem_cons.1 h.same).2, h.differ.tail⟩

theorem same_first (h : Grouped groupColumns ((first :: more) :: groups)) :
    ∀ row ∈ more, isSameGroup groupColumns first row = true := by
  have : IsTrans (ι → Option Int) fun row row' => isSameGroup groupColumns row row' = true :=
    ⟨fun _ _ _ => isSameGroup_trans⟩
  have hpairs := (h.same (first :: more) (by simp)).pairwise
  exact (pairwise_cons.1 hpairs).1

theorem next_differs (h : Grouped groupColumns ((first :: more) :: groups)) :
    ∀ row ∈ groups.flatten.head?, isSameGroup groupColumns first row = false := by
  intro row hrow
  rcases groups with _ | ⟨group, groups⟩
  · simp at hrow
  obtain ⟨⟨hne, hne', hdiffer⟩, -⟩ := isChain_cons_cons.1 h.differ
  have hhead : group.head hne' = row := by
    rcases group with _ | ⟨row', group⟩
    · exact absurd rfl hne'
    · simpa using hrow
  have hlast : isSameGroup groupColumns first ((first :: more).getLast hne) = true := by
    obtain heq | hmem := mem_cons.1 (getLast_mem hne)
    · rw [heq]
      exact isSameGroup_iff.2 fun _ _ => rfl
    · exact h.same_first _ hmem
  rw [hhead] at hdiffer
  rw [← Bool.not_eq_true] at hdiffer ⊢
  exact fun hsame => hdiffer (isSameGroup_trans (isSameGroup_symm hlast) hsame)

end Grouped

theorem yields_groups {groups : List (List (ι → Option Int))}
    (hgroups : Grouped groupColumns groups)
    (hs : Pending groupColumns aggrColumns memSizeLimit groups.flatten s) :
    ∃ outs e, Yields (getNextRow usedMemSize) outs e s ∧
      outs <+: groups.map (groupRow aggrColumns) ∧
      (e = .iterEnd ∧ outs = groups.map (groupRow aggrColumns) ∨
        e = .exceedMemLimit ∧ 0 < memSizeLimit) := by
  induction groups generalizing s with
  | nil =>
    have hempty : s.lastInputRow = none ∧ s.child = [] := by
      simpa [pending] using hs.pending
    exact ⟨[], .iterEnd, by simp [Yields, getNextRow, hempty], nil_prefix, .inl ⟨rfl, rfl⟩⟩
  | cons group groups ih =>
    rcases group with _ | ⟨first, more⟩
    · exact absurd mem_cons_self hgroups.nonempty
    obtain ⟨hnext, hlimit⟩ | ⟨s', hnext, hs'⟩ :=
      getNextRow_spec usedMemSize hs hgroups.same_first hgroups.next_differs
    · exact ⟨[], .exceedMemLimit, hnext, nil_prefix, .inr ⟨rfl, hlimit⟩⟩
    obtain ⟨outs, e, hyields, hprefix, hend⟩ := ih hgroups.tail hs'
    refine ⟨_ :: outs, e, ⟨s', hnext, hyields⟩, cons_prefix_cons.2 ⟨rfl, hprefix⟩, ?_⟩
    exact hend.imp (fun ⟨he, houts⟩ => ⟨he, by rw [houts, map_cons]⟩) id

end MergeGroupBy

/-- **Merge group-by.** On every input, the output is the row SQL has for each group, in the order
of the groups; only a memory limit can end it before the last group. -/
theorem mergeGroupBy_outputs (usedMemSize : List (List (Option Int)) → Int) (groupColumns : List ι)
    (aggrColumns : List (AggrColumn ι)) (memSizeLimit : Int) (rows : List (ι → Option Int)) :
    ∃ outs e, Yields (MergeGroupBy.getNextRow usedMemSize) outs e
        (MergeGroupBy.open groupColumns aggrColumns memSizeLimit rows) ∧
      outs <+: (rows.splitBy (isSameGroup groupColumns)).map (groupRow aggrColumns) ∧
      (e = .iterEnd ∧
          outs = (rows.splitBy (isSameGroup groupColumns)).map (groupRow aggrColumns) ∨
        e = .exceedMemLimit ∧ 0 < memSizeLimit) := by
  refine MergeGroupBy.yields_groups usedMemSize (MergeGroupBy.grouped_splitBy groupColumns rows) ?_
  refine ⟨rfl, rfl, rfl, ?_⟩
  rw [flatten_splitBy]
  rfl

end Groups

end OceanBase.Sql
