import OceanBase.Common.Define

/-!
# Scan ranges from conditions (`ob_sql_read_strategy.cpp`)

`findClosedColumnRange` tightens the bounds of one key column condition by condition;
`findScanRange` concatenates the bounds of the leading columns that are bounded on both sides, and
`findRowkeysFromEqualExpr` finds the only row key when every column is bound by equality alone.

A key object is the least value, a cell, or the greatest value, in this order; a null cell comes
before the others. Casting a constant to the column's type is a parameter.
-/

namespace OceanBase.Sql

open List

/-- The object in a row key: a cell (a null is the least one), the least or the greatest value. -/
abbrev KeyObj (α : Type) : Type := WithBot (WithTop (WithBot α))

def KeyObj.ofCell {α : Type} (cell : WithBot α) : KeyObj α :=
  ((cell : WithTop (WithBot α)) : KeyObj α)

inductive CondOp where
  | eq
  | le
  | lt
  | ge
  | gt
  | is
  deriving DecidableEq, Repr

/-- An expression that bounds a column: a simple condition, or a simple between. -/
inductive Condition (α : Type) where
  | simple (columnId : Nat) (op : CondOp) (val : WithBot α)
  | between (columnId : Nat) (start : WithBot α) («end» : WithBot α)

/-- `start_key_objs_`, `end_key_objs_` of one column and whether they were found. -/
structure ColumnRange (α : Type) where
  start : KeyObj α
  «end» : KeyObj α
  foundStart : Bool
  foundEnd : Bool

section Strategy

variable {α : Type}

def ColumnRange.all : ColumnRange α := ⟨⊥, ⊤, false, false⟩

/-- For a single row only equalities count. -/
def ColumnRange.checkSingleRow (range : ColumnRange α) (op : CondOp) (singleRowOnly : Bool) :
    ColumnRange α :=
  if singleRowOnly && op ≠ .eq then { range with foundStart := false, foundEnd := false }
  else range

def Condition.columnId : Condition α → Nat
  | simple columnId _ _ => columnId
  | between columnId _ _ => columnId

/-- The condition's constants have the type of the key column with the index. -/
def Condition.Typed (objCast : Nat → WithBot α → Except Ret (WithBot α)) (idx : Nat) :
    Condition α → Prop
  | simple _ _ val => objCast idx val = .ok val
  | between _ start «end» => objCast idx start = .ok start ∧ objCast idx «end» = .ok «end»

variable [LinearOrder α]

namespace ColumnRange

variable (range : ColumnRange α)

variable (val : WithBot α)

def lowerEnd : ColumnRange α :=
  if range.end = ⊤ then { range with «end» := KeyObj.ofCell val, foundEnd := true }
  else if KeyObj.ofCell val < range.end then { range with «end» := KeyObj.ofCell val }
  else range

def raiseStart : ColumnRange α :=
  if range.start = ⊥ then { range with start := KeyObj.ofCell val, foundStart := true }
  else if range.start < KeyObj.ofCell val then { range with start := KeyObj.ofCell val }
  else range

/-- An equality: the range becomes the constant, unless it is a single value already. -/
def setEqual : ColumnRange α :=
  if range.start = ⊥ ∧ range.end = ⊤ then
    ⟨KeyObj.ofCell val, KeyObj.ofCell val, true, true⟩
  else if range.start = range.end then range
  else { range with start := KeyObj.ofCell val, «end» := KeyObj.ofCell val }

/-- The switch over the operator of a simple condition. -/
def applyOp : CondOp → ColumnRange α
  | .lt | .le => range.lowerEnd val
  | .gt | .ge => range.raiseStart val
  | .eq | .is => range.setEqual val

end ColumnRange

open ColumnRange

variable (objCast : Nat → WithBot α → Except Ret (WithBot α))

/-- One round of the loop of `find_closed_column_range`: a condition on the column with the given
index in the row key. -/
def applyCondition (idx columnId : Nat) (singleRowOnly : Bool) (range : ColumnRange α) :
    Condition α → Except Ret (ColumnRange α)
  | .simple condCid op val =>
    if condCid = columnId then
      (objCast idx val).map fun val => (range.applyOp val op).checkSingleRow op singleRowOnly
    else .ok range
  | .between condCid start «end» =>
    if !singleRowOnly && condCid = columnId then do
      let start ← objCast idx start
      let «end» ← objCast idx «end»
      return (range.raiseStart start).lowerEnd «end»
    else .ok range

/-- `find_closed_column_range`, from the range of all values. -/
def findClosedColumnRange (conditions : List (Condition α)) (idx columnId : Nat)
    (singleRowOnly : Bool) : Except Ret (ColumnRange α) :=
  conditions.foldlM (applyCondition objCast idx columnId singleRowOnly) .all

/-- The loop of `find_scan_range` over the columns of the row key from the given index on; it stops
after the first column that is not bounded on both sides. -/
def findColumnRanges (conditions : List (Condition α)) (singleRowOnly : Bool) :
    Nat → List Nat → Except Ret (List (ColumnRange α))
  | _, [] => .ok []
  | idx, columnId :: columnIds => do
    let range ← findClosedColumnRange objCast conditions idx columnId singleRowOnly
    if !range.foundStart || !range.foundEnd then
      return range :: columnIds.map fun _ => .all
    else
      let ranges ← findColumnRanges conditions singleRowOnly (idx + 1) columnIds
      return range :: ranges

/-- A range of row keys, and whether a bound of its first column was found. -/
structure ScanRange (α : Type) where
  startKey : List (KeyObj α)
  endKey : List (KeyObj α)
  found : Bool

/-- `find_scan_range`; `found` is only ever cleared. -/
def findScanRange (conditions : List (Condition α)) (rowkeyInfo : List Nat) (found : Bool)
    (singleRowOnly : Bool) : Except Ret (ScanRange α) := do
  let ranges ← findColumnRanges objCast conditions singleRowOnly 0 rowkeyInfo
  let first := ranges.headD .all
  return {
    startKey := ranges.map (·.start)
    endKey := ranges.map (·.end)
    found := found && (first.foundStart || first.foundEnd) }

/-- The loop of `find_rowkeys_from_equal_expr`: the values of the columns if each has one. -/
def findEqualColumns (conditions : List (Condition α)) :
    Nat → List Nat → Except Ret (Option (List (KeyObj α)))
  | _, [] => .ok (some [])
  | idx, columnId :: columnIds => do
    let range ← findClosedColumnRange objCast conditions idx columnId true
    if range.foundStart && range.foundEnd then
      let rest ← findEqualColumns conditions (idx + 1) columnIds
      return rest.map (range.start :: ·)
    else
      return none

/-- `find_rowkeys_from_equal_expr`: the row key it adds, if any. -/
def findRowkeysFromEqualExpr (conditions : List (Condition α)) (rowkeyInfo : List Nat) :
    Except Ret (Option (List (KeyObj α))) :=
  if rowkeyInfo.isEmpty then .ok none else findEqualColumns objCast conditions 0 rowkeyInfo

/-! ### What satisfies the conditions -/

/-- A cell compares with a constant as the operator says; a null compares with nothing, though it
may be it. -/
def CondOp.Holds (op : CondOp) (cell val : WithBot α) : Prop :=
  match op with
  | .eq => cell ≠ ⊥ ∧ val ≠ ⊥ ∧ cell = val
  | .le => cell ≠ ⊥ ∧ val ≠ ⊥ ∧ cell ≤ val
  | .lt => cell ≠ ⊥ ∧ val ≠ ⊥ ∧ cell < val
  | .ge => cell ≠ ⊥ ∧ val ≠ ⊥ ∧ val ≤ cell
  | .gt => cell ≠ ⊥ ∧ val ≠ ⊥ ∧ val < cell
  | .is => cell = val

namespace Condition

/-- The row meets the condition. -/
def Satisfied (row : Nat → WithBot α) : Condition α → Prop
  | simple columnId op val => op.Holds (row columnId) val
  | between columnId start «end» =>
    row columnId ≠ ⊥ ∧ start ≤ row columnId ∧ row columnId ≤ «end»

end Condition

/-! ### One column -/

namespace ColumnRange

variable {range : ColumnRange α} {x : KeyObj α} {cell val : WithBot α} {op : CondOp}

/-- The value is within the bounds. -/
def Contains (range : ColumnRange α) (x : KeyObj α) : Prop := range.start ≤ x ∧ x ≤ range.end

theorem contains_all (x : KeyObj α) : (all : ColumnRange α).Contains x := ⟨bot_le, le_top⟩

theorem ofCell_le {a b : WithBot α} : KeyObj.ofCell a ≤ KeyObj.ofCell b ↔ a ≤ b := by
  simp [KeyObj.ofCell]

theorem Contains.lowerEnd (h : range.Contains x) (hx : x ≤ KeyObj.ofCell val) :
    (range.lowerEnd val).Contains x := by
  unfold ColumnRange.lowerEnd
  split_ifs
  · exact ⟨h.1, hx⟩
  · exact ⟨h.1, hx⟩
  · exact h

theorem Contains.raiseStart (h : range.Contains x) (hx : KeyObj.ofCell val ≤ x) :
    (range.raiseStart val).Contains x := by
  unfold ColumnRange.raiseStart
  split_ifs
  · exact ⟨hx, h.2⟩
  · exact ⟨hx, h.2⟩
  · exact h

theorem Contains.setEqual (h : range.Contains (KeyObj.ofCell val)) :
    (range.setEqual val).Contains (KeyObj.ofCell val) := by
  unfold ColumnRange.setEqual
  split_ifs
  · exact ⟨le_rfl, le_rfl⟩
  · exact h
  · exact ⟨le_rfl, le_rfl⟩

theorem Contains.applyOp (h : range.Contains (KeyObj.ofCell cell))
    (hop : op.Holds cell val) : (range.applyOp val op).Contains (KeyObj.ofCell cell) := by
  cases op with
  | eq =>
    obtain ⟨-, -, rfl⟩ := hop
    exact h.setEqual
  | le => exact h.lowerEnd (ofCell_le.2 hop.2.2)
  | lt => exact h.lowerEnd (ofCell_le.2 hop.2.2.le)
  | ge => exact h.raiseStart (ofCell_le.2 hop.2.2)
  | gt => exact h.raiseStart (ofCell_le.2 hop.2.2.le)
  | is =>
    obtain rfl := hop
    exact h.setEqual

omit [LinearOrder α] in
theorem checkSingleRow_bounds (range : ColumnRange α) (op : CondOp) (singleRowOnly : Bool) :
    (range.checkSingleRow op singleRowOnly).start = range.start ∧
      (range.checkSingleRow op singleRowOnly).end = range.end := by
  unfold checkSingleRow
  split <;> exact ⟨rfl, rfl⟩

/-- A range found for a single row has one value. -/
def SingleIfFound (range : ColumnRange α) : Prop :=
  range.foundStart = true → range.foundEnd = true → range.start = range.end

theorem SingleIfFound.setEqual (h : range.SingleIfFound) : (range.setEqual val).SingleIfFound := by
  unfold ColumnRange.setEqual
  split_ifs with h₁ h₂
  · exact fun _ _ => rfl
  · exact h
  · exact fun _ _ => rfl

/-- Whatever is no equality takes back what was found. -/
theorem SingleIfFound.applyOp (h : range.SingleIfFound) :
    ((range.applyOp val op).checkSingleRow op true).SingleIfFound := by
  by_cases hop : op = .eq
  · subst hop
    exact h.setEqual
  · intro hfound
    simp [checkSingleRow, hop] at hfound

end ColumnRange

section Column

variable {objCast} {idx columnId : Nat} {singleRowOnly : Bool} {range : ColumnRange α}
    {condition : Condition α} {conditions : List (Condition α)}

section

variable (htyped : condition.columnId = columnId → condition.Typed objCast idx)
    {range' : ColumnRange α}
include htyped

variable (singleRowOnly range) in
theorem applyCondition_ok :
    ∃ range', applyCondition objCast idx columnId singleRowOnly range condition = .ok range' := by
  cases condition with
  | simple condCid op val =>
    by_cases hcid : condCid = columnId
    · have hcast : objCast idx val = .ok val := htyped hcid
      exact ⟨_, by simp [applyCondition, hcid, hcast]; rfl⟩
    · exact ⟨range, by simp [applyCondition, hcid]⟩
  | between condCid start «end» =>
    by_cases hcid : singleRowOnly = false ∧ condCid = columnId
    · obtain ⟨hstart, hend⟩ : objCast idx start = .ok start ∧ objCast idx «end» = .ok «end» :=
        htyped hcid.2
      exact ⟨_, by simp [applyCondition, hcid, hstart, hend]; rfl⟩
    · exact ⟨range, by simp [applyCondition, hcid]⟩

theorem applyCondition_contains {row : Nat → WithBot α}
    (hrow : condition.Satisfied row) (h : range.Contains (KeyObj.ofCell (row columnId)))
    (happly : applyCondition objCast idx columnId singleRowOnly range condition = .ok range') :
    range'.Contains (KeyObj.ofCell (row columnId)) := by
  cases condition with
  | simple condCid op val =>
    by_cases hcid : condCid = columnId
    · subst hcid
      have hcast : objCast idx val = .ok val := htyped rfl
      simp only [applyCondition, if_true, hcast, Except.map, Except.ok.injEq] at happly
      obtain ⟨hstart, hend⟩ :=
        checkSingleRow_bounds (range.applyOp val op) op singleRowOnly
      rw [← happly, ColumnRange.Contains, hstart, hend]
      exact h.applyOp hrow
    · simp only [applyCondition, if_neg hcid, Except.ok.injEq] at happly
      exact happly ▸ h
  | between condCid start «end» =>
    by_cases hcid : singleRowOnly = false ∧ condCid = columnId
    · obtain ⟨rfl, rfl⟩ := hcid
      obtain ⟨hstart, hend⟩ : objCast idx start = .ok start ∧ objCast idx «end» = .ok «end» :=
        htyped rfl
      have heq : range' = (range.raiseStart start).lowerEnd «end» := by
        simpa [applyCondition, hstart, hend, bind, Except.bind, pure, Except.pure, eq_comm]
          using happly
      rw [heq]
      exact (h.raiseStart (ofCell_le.2 hrow.2.1)).lowerEnd (ofCell_le.2 hrow.2.2)
    · have heq : range = range' := by simpa [applyCondition, hcid] using happly
      exact heq ▸ h

theorem applyCondition_singleIfFound (h : range.SingleIfFound)
    (happly : applyCondition objCast idx columnId true range condition = .ok range') :
    range'.SingleIfFound := by
  cases condition with
  | simple condCid op val =>
    by_cases hcid : condCid = columnId
    · have hcast : objCast idx val = .ok val := htyped hcid
      simp only [applyCondition, if_pos hcid, hcast, Except.map, Except.ok.injEq] at happly
      exact happly ▸ h.applyOp
    · simp only [applyCondition, if_neg hcid, Except.ok.injEq] at happly
      exact happly ▸ h
  | between condCid start «end» =>
    have heq : range = range' := by simpa [applyCondition] using happly
    exact heq ▸ h

end

variable (objCast singleRowOnly) in
/-- The loop over the conditions: it comes to a range that has the cell of every row satisfying
them, and a single value if that was asked for and found. -/
theorem foldlM_applyCondition
    (htyped : ∀ c ∈ conditions, c.columnId = columnId → c.Typed objCast idx)
    (range : ColumnRange α) :
    ∃ range', conditions.foldlM (applyCondition objCast idx columnId singleRowOnly) range =
        .ok range' ∧
      (∀ row : Nat → WithBot α, (∀ c ∈ conditions, c.Satisfied row) →
        range.Contains (KeyObj.ofCell (row columnId)) →
        range'.Contains (KeyObj.ofCell (row columnId))) ∧
      (singleRowOnly = true → range.SingleIfFound → range'.SingleIfFound) := by
  induction conditions generalizing range with
  | nil => exact ⟨range, rfl, fun _ _ h => h, fun _ h => h⟩
  | cons c conditions ih =>
    have hc := htyped c (by simp)
    obtain ⟨range₁, happly⟩ := applyCondition_ok singleRowOnly range hc
    obtain ⟨range', hrun, hcontains, hsingle⟩ := ih (fun c hc => htyped c (by simp [hc])) range₁
    refine ⟨range', ?_, fun row hrow h => ?_, fun hrows h => ?_⟩
    · rwa [foldlM_cons, happly]
    · exact hcontains row (fun c hc => hrow c (by simp [hc]))
        (applyCondition_contains hc (hrow c (by simp)) h happly)
    · subst hrows
      exact hsingle rfl (applyCondition_singleIfFound hc h happly)

variable (objCast singleRowOnly) in
theorem findClosedColumnRange_spec
    (htyped : ∀ c ∈ conditions, c.columnId = columnId → c.Typed objCast idx) :
    ∃ range, findClosedColumnRange objCast conditions idx columnId singleRowOnly = .ok range ∧
      (∀ row : Nat → WithBot α, (∀ c ∈ conditions, c.Satisfied row) →
        range.Contains (KeyObj.ofCell (row columnId))) ∧
      (singleRowOnly = true → range.SingleIfFound) := by
  obtain ⟨range, hrun, hcontains, hsingle⟩ :=
    foldlM_applyCondition objCast singleRowOnly htyped .all
  exact ⟨range, hrun, fun row hrow => hcontains row hrow (ColumnRange.contains_all _),
    fun hrows => hsingle hrows fun h => by simp [ColumnRange.all] at h⟩

/-! ### The columns of the row key -/

/-- The constants of the conditions have the types of the key columns from the index on. -/
def TypedFrom (objCast : Nat → WithBot α → Except Ret (WithBot α))
    (conditions : List (Condition α)) (idx : Nat) (columnIds : List Nat) : Prop :=
  ∀ i columnId, columnIds[i]? = some columnId → ∀ c ∈ conditions, c.columnId = columnId →
    c.Typed objCast (idx + i)

variable {columnIds : List Nat}

omit [LinearOrder α] in
theorem TypedFrom.head (h : TypedFrom objCast conditions idx (columnId :: columnIds)) :
    ∀ c ∈ conditions, c.columnId = columnId → c.Typed objCast idx :=
  h 0 columnId rfl

omit [LinearOrder α] in
theorem TypedFrom.tail (h : TypedFrom objCast conditions idx (columnId :: columnIds)) :
    TypedFrom objCast conditions (idx + 1) columnIds := by
  intro i cid hi c hc hcid
  rw [Nat.add_assoc, Nat.add_comm 1]
  exact h (i + 1) cid (by simpa using hi) c hc hcid

/-- Each column's range contains the cell of every row that satisfies the conditions. -/
theorem findColumnRanges_spec (singleRowOnly : Bool)
    (htyped : TypedFrom objCast conditions idx columnIds) :
    ∃ ranges, findColumnRanges objCast conditions singleRowOnly idx columnIds = .ok ranges ∧
      ∀ row : Nat → WithBot α, (∀ c ∈ conditions, c.Satisfied row) →
        List.Forall₂ (fun columnId range => range.Contains (KeyObj.ofCell (row columnId)))
          columnIds ranges := by
  induction columnIds generalizing idx with
  | nil => exact ⟨[], rfl, fun _ _ => .nil⟩
  | cons columnId columnIds ih =>
    obtain ⟨range, hrange, hcontains, -⟩ :=
      findClosedColumnRange_spec objCast singleRowOnly htyped.head
    obtain ⟨ranges, hranges, hall⟩ := ih htyped.tail
    by_cases hfound : (!range.foundStart || !range.foundEnd) = true
    · refine ⟨range :: columnIds.map fun _ => .all, ?_, fun row hrow =>
        .cons (hcontains row hrow) ?_⟩
      · simp [findColumnRanges, hrange, hfound, bind, Except.bind, pure, Except.pure]
      · rw [forall₂_map_right_iff]
        exact forall₂_same.2 fun columnId _ => contains_all _
    · refine ⟨range :: ranges, ?_, fun row hrow => .cons (hcontains row hrow) (hall row hrow)⟩
      simp [findColumnRanges, hrange, hfound, hranges, bind, Except.bind, pure, Except.pure]

theorem le_of_forall₂_le {β : Type} [LinearOrder β] {xs ys : List β}
    (h : List.Forall₂ (· ≤ ·) xs ys) : xs ≤ ys := by
  induction h with
  | nil => exact le_rfl
  | @cons x y xs ys hle _ ih =>
    obtain hlt | rfl := hle.lt_or_eq
    · have hlists : x :: xs < y :: ys := List.Lex.rel hlt
      exact le_of_lt hlists
    · exact cons_le_cons x ih

theorem findEqualColumns_spec (htyped : TypedFrom objCast conditions idx columnIds) :
    ∃ key, findEqualColumns objCast conditions idx columnIds = .ok key ∧
      ∀ row : Nat → WithBot α, (∀ c ∈ conditions, c.Satisfied row) → ∀ objs, key = some objs →
        columnIds.map (fun columnId => KeyObj.ofCell (row columnId)) = objs := by
  induction columnIds generalizing idx with
  | nil => exact ⟨some [], rfl, fun _ _ _ h => Option.some.inj h⟩
  | cons columnId columnIds ih =>
    obtain ⟨range, hrange, hcontains, hsingle⟩ :=
      findClosedColumnRange_spec objCast true htyped.head
    obtain ⟨rest, hrest, hall⟩ := ih htyped.tail
    by_cases hfound : (range.foundStart && range.foundEnd) = true
    · refine ⟨rest.map (range.start :: ·), ?_, fun row hrow objs hobjs => ?_⟩
      · simp [findEqualColumns, hrange, bind, Except.bind, hfound, hrest, pure, Except.pure]
      obtain ⟨objs, hrestObjs, rfl⟩ := Option.map_eq_some_iff.1 hobjs
      obtain ⟨hstart, hend⟩ := Bool.and_eq_true_iff.1 hfound
      have hsame := hsingle rfl hstart hend
      obtain ⟨hle, hle'⟩ := hcontains row hrow
      rw [map_cons, hall row hrow objs hrestObjs, le_antisymm (hsame ▸ hle') hle]
    · refine ⟨none, ?_, fun _ _ _ h => by cases h⟩
      simp [findEqualColumns, hrange, bind, Except.bind, hfound, pure, Except.pure]

end Column

/-- **Ranges and keys from conditions.** If the constants have the types of the columns, every row
that satisfies the conditions has its row key in the range found, and has the row key found from
equalities. -/
theorem findScanRange_sound (objCast : Nat → WithBot α → Except Ret (WithBot α))
    (conditions : List (Condition α)) (rowkeyInfo : List Nat) (found singleRowOnly : Bool)
    (htyped : TypedFrom objCast conditions 0 rowkeyInfo) :
    (∃ range, findScanRange objCast conditions rowkeyInfo found singleRowOnly = .ok range ∧
      ∀ row : Nat → WithBot α, (∀ c ∈ conditions, c.Satisfied row) →
        range.startKey ≤ rowkeyInfo.map (fun columnId => KeyObj.ofCell (row columnId)) ∧
          rowkeyInfo.map (fun columnId => KeyObj.ofCell (row columnId)) ≤ range.endKey) ∧
    ∃ key, findRowkeysFromEqualExpr objCast conditions rowkeyInfo = .ok key ∧
      ∀ row : Nat → WithBot α, (∀ c ∈ conditions, c.Satisfied row) → ∀ objs, key = some objs →
        rowkeyInfo.map (fun columnId => KeyObj.ofCell (row columnId)) = objs := by
  constructor
  · obtain ⟨ranges, hranges, hall⟩ := findColumnRanges_spec singleRowOnly htyped
    refine ⟨_, by simp only [findScanRange, hranges]; rfl, fun row hrow => ?_⟩
    have hforall := hall row hrow
    constructor
    · refine le_of_forall₂_le ?_
      rw [forall₂_map_left_iff, forall₂_map_right_iff]
      exact hforall.flip.imp fun _ _ h => h.1
    refine le_of_forall₂_le ?_
    rw [forall₂_map_left_iff, forall₂_map_right_iff]
    exact hforall.imp fun _ _ h => h.2
  · unfold findRowkeysFromEqualExpr
    split
    · exact ⟨none, rfl, fun _ _ _ h => by cases h⟩
    · exact findEqualColumns_spec htyped

/-- Two key columns with the conditions `c₁ = 3`, `c₂ > 1`, `c₂ <= 7`. -/
def twoColumnConditions : List (Condition Nat) :=
  [.simple 1 .eq (3 : Nat), .simple 2 .gt (1 : Nat), .simple 2 .le (7 : Nat)]

theorem findScanRange_sound_twoColumn :
    ∃ range, findScanRange (fun _ val => .ok val) twoColumnConditions [1, 2] true false =
        .ok range ∧
      ∀ row : Nat → WithBot Nat, (∀ c ∈ twoColumnConditions, c.Satisfied row) →
        range.startKey ≤ [KeyObj.ofCell (row 1), KeyObj.ofCell (row 2)] ∧
          [KeyObj.ofCell (row 1), KeyObj.ofCell (row 2)] ≤ range.endKey := by
  refine (findScanRange_sound (fun _ val => .ok val) twoColumnConditions [1, 2] true false ?_).1
  intro i columnId _ c _ _
  cases c with
  | simple => rfl
  | between => exact ⟨rfl, rfl⟩

end Strategy

end OceanBase.Sql
