import OceanBase.Common.Define
import OceanBase.Lib.Iterate

/-!
# Set operators on sorted inputs (`ob_merge_union.cpp`, `ob_merge_except.cpp`,
`ob_merge_intersect.cpp`)

Each of the operators merges two sorted children, in a form that drops duplicates (DISTINCT) and
one that keeps them (ALL). All of them compare rows with `compareRows`, column by column; a null
on either side makes the first row the smaller one.

The operators are defined for rows and comparison of any kind.
-/

namespace OceanBase.Sql

open Lib

/-! ### Rows and their comparison -/

/-- `ObExprObj::compare`: nothing is known of a null (`OB_RESULT_UNKNOWN`). -/
def exprCompare {α : Type} [LinearOrder α] : Option α → Option α → Option Ordering
  | some a, some b => some (cmp a b)
  | _, _ => none

/-- The loop of `compare` over the cells of two rows. -/
def compareCells {α : Type} [LinearOrder α] : List (Option α × Option α) → Ordering
  | [] => .eq
  | (a, b) :: cells =>
    match exprCompare a b with
    | some .eq => compareCells cells
    | some order => order
    | none => .lt

/-- `compare`. -/
def compareRows {α : Type} [LinearOrder α] {n : Nat} (row₁ row₂ : Fin n → Option α) : Ordering :=
  compareCells (List.ofFn fun i => (row₁ i, row₂ i))

/-! ### Children -/

/-- A child operator with the row fetched last, if it was not at its end, and the rows to come. -/
structure Child (ρ : Type) where
  cur : Option ρ
  rest : List ρ

section Operators

variable {ρ : Type}

namespace Child

def ofRows (rows : List ρ) : Child ρ := ⟨none, rows⟩

/-- `get_next_row` of a child. -/
def getNextRow (child : Child ρ) : Child ρ := ⟨child.rest.head?, child.rest.tail⟩

/-- `do_distinct`: fetch the next row that differs from `other`. -/
def doDistinct (compare : ρ → ρ → Ordering) (child : Child ρ) (other : ρ) : Child ρ :=
  getNextRow ⟨child.cur, child.rest.dropWhile fun row => compare row other == .eq⟩

end Child

/-! ### UNION -/

/-- `ObMergeUnion`; `lastRow` is empty until `got_first_row_`. -/
structure MergeUnion (ρ : Type) where
  left : Child ρ
  right : Child ρ
  lastRow : Option ρ
  lastCmp : Ordering

variable (compare : ρ → ρ → Ordering)

namespace MergeUnion

/-- `open` for UNION DISTINCT. -/
def «open» (left right : List ρ) : MergeUnion ρ :=
  ⟨(Child.ofRows left).getNextRow, (Child.ofRows right).getNextRow, none, .lt⟩

variable (s : MergeUnion ρ)

def skipLastRow : MergeUnion ρ :=
  match s.lastRow, s.lastCmp with
  | none, _ => s
  | some last, .lt => { s with left := s.left.doDistinct compare last }
  | some last, .eq =>
    { s with left := s.left.doDistinct compare last, right := s.right.doDistinct compare last }
  | some last, .gt => { s with right := s.right.doDistinct compare last }

/-- Output the smaller of the current rows. -/
def outputLeast : Except Ret (ρ × MergeUnion ρ) :=
  match s.left.cur, s.right.cur with
  | some l, some r =>
    let row := if compare l r = .gt then r else l
    .ok (row, { s with lastRow := some row, lastCmp := compare l r })
  | none, some r => .ok (r, { s with lastRow := some r, lastCmp := .gt })
  | some l, none => .ok (l, { s with lastRow := some l, lastCmp := .lt })
  | none, none => .error .iterEnd

def distinctGetNextRow : Except Ret (ρ × MergeUnion ρ) :=
  (s.skipLastRow compare).outputLeast compare

end MergeUnion

/-- `ObMergeUnion` for UNION ALL: what the children still deliver. -/
structure MergeUnionAll (ρ : Type) where
  left : List ρ
  right : List ρ

def MergeUnionAll.allGetNextRow (s : MergeUnionAll ρ) : Except Ret (ρ × MergeUnionAll ρ) :=
  match s.left, s.right with
  | row :: left, _ => .ok (row, { s with left := left })
  | [], row :: right => .ok (row, ⟨[], right⟩)
  | [], [] => .error .iterEnd

/-! ### EXCEPT -/

/-- `ObMergeExcept`. -/
structure MergeExcept (ρ : Type) where
  left : Child ρ
  right : Child ρ
  gotFirstRow : Bool
  leftLastRow : Option ρ

namespace MergeExcept

/-- `open`. -/
def «open» (left right : List ρ) : MergeExcept ρ :=
  ⟨(Child.ofRows left).getNextRow, (Child.ofRows right).getNextRow, false, none⟩

/-- The loop of both forms. They differ in how they pass a row that both sides have. Each round
uses up a row of the right child. -/
def loop (passEqual : Child ρ → ρ → Child ρ) : Nat → MergeExcept ρ → Except Ret (ρ × MergeExcept ρ)
  | 0, _ => .error .errUnexpected
  | fuel + 1, s =>
    match s.left.cur, s.right.cur with
    | some l, some r =>
      match compare l r with
      | .lt => .ok (l, { s with gotFirstRow := true, leftLastRow := some l })
      | .eq => loop passEqual fuel
          { s with left := passEqual s.left l, right := passEqual s.right r, leftLastRow := some l }
      | .gt => loop passEqual fuel { s with right := s.right.doDistinct compare r }
    | some l, none => .ok (l, { s with gotFirstRow := true, leftLastRow := some l })
    | none, _ => .error .iterEnd

variable (s : MergeExcept ρ)

def rounds : Nat := s.right.rest.length + 2

def skipLastRow : MergeExcept ρ :=
  match s.gotFirstRow, s.leftLastRow with
  | true, some last => { s with left := s.left.doDistinct compare last }
  | _, _ => s

def distinctGetNextRow : Except Ret (ρ × MergeExcept ρ) :=
  loop compare (Child.doDistinct compare) s.rounds (s.skipLastRow compare)

def passLastRow : MergeExcept ρ :=
  if s.gotFirstRow then { s with left := s.left.getNextRow } else s

def allGetNextRow : Except Ret (ρ × MergeExcept ρ) :=
  loop compare (fun child _ => child.getNextRow) s.rounds s.passLastRow

end MergeExcept

/-! ### INTERSECT -/

/-- `ObMergeIntersect`; the last rows are those of the last output. -/
structure MergeIntersect (ρ : Type) where
  left : Child ρ
  right : Child ρ
  lastRows : Option (ρ × ρ)

namespace MergeIntersect

/-- `open`, which fetches no row. -/
def «open» (left right : List ρ) : MergeIntersect ρ := ⟨.ofRows left, .ofRows right, none⟩

/-- The loop of both forms. Each round uses up a row. -/
def loop : Nat → MergeIntersect ρ → Except Ret (ρ × MergeIntersect ρ)
  | 0, _ => .error .errUnexpected
  | fuel + 1, s =>
    match s.left.cur, s.right.cur with
    | some l, some r =>
      match compare l r with
      | .lt => loop fuel { s with left := s.left.doDistinct compare l }
      | .eq => .ok (l, { s with lastRows := some (l, r) })
      | .gt => loop fuel { s with right := s.right.doDistinct compare r }
    | _, _ => .error .iterEnd

variable (s : MergeIntersect ρ)

def rounds : Nat := s.left.rest.length + s.right.rest.length + 1

/-- Skip what equals the rows output last; at first, fetch the first rows. -/
def skipLastRows : MergeIntersect ρ :=
  match s.lastRows with
  | some (l, r) =>
    { s with left := s.left.doDistinct compare l, right := s.right.doDistinct compare r }
  | none => { s with left := s.left.getNextRow, right := s.right.getNextRow }

def distinctGetNextRow : Except Ret (ρ × MergeIntersect ρ) :=
  loop compare s.rounds (s.skipLastRows compare)

def allGetNextRow : Except Ret (ρ × MergeIntersect ρ) :=
  loop compare s.rounds { s with left := s.left.getNextRow, right := s.right.getNextRow }

end MergeIntersect

end Operators

end OceanBase.Sql
