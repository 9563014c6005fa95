import OceanBase.Common.Define
import OceanBase.Lib.Except
import OceanBase.Lib.Iterate

/-!
# Iterating over a mutator (`ob_mutator.cpp`, `ob_mutator.h`)

A mutator is a list of nodes: cells, and marks for row barriers and dml types, which are nodes
without a cell of their own. `next_cell` passes a mark by going on once more, and does not look
at what it comes to. So of two marks in a row the second one is handed out as a cell
(`yields_cells_iff`).
-/

namespace OceanBase.Common

open Lib List

/-- A table or a column, by its name, which `copy_cell_` knows by its length, or by its id. -/
inductive Ident where
  | name (s : List UInt8) (hs : s ≠ [])
  | id (n : Nat)
  deriving DecidableEq, Repr

/-- `IdNameType`. -/
inductive IdNameType where
  | unsure
  | useId
  | useName
  deriving DecidableEq, Repr

/-- What a node is for, with what `copy_cell_` keeps of its cell: the row key and the value are of
any type. -/
inductive MutatorNode (κ ω : Type) where
  /-- `use_ob_sem` and `use_db_sem`. -/
  | semantic (ext : Int)
  | delRow (table : Ident) (rowKey : κ)
  | value (table : Ident) (rowKey : κ) (column : Ident) (opType : Int) (value : ω)
  /-- `add_row_barrier`. -/
  | rowBarrier
  /-- `set_dml_type`. -/
  | dmlType (type : Nat)
  deriving DecidableEq, Repr

/-- `ObMutator`, with the nodes from `cur_iter_node_` on. -/
structure Mutator (κ ω : Type) where
  list : List (MutatorNode κ ω)
  idNameType : IdNameType
  hasBegin : Bool
  curIterNode : List (MutatorNode κ ω)
  deriving DecidableEq, Repr

variable {κ ω : Type}

/-- The `barrier_flag` of the node is `NO_BARRIER`. -/
def MutatorNode.isCell : MutatorNode κ ω → Bool
  | .rowBarrier | .dmlType _ => false
  | _ => true

/-- Names and ids do not mix. -/
def IdNameType.use : IdNameType → Ident → Except Ret IdNameType
  | .useId, .name .. => .error .error
  | _, .name .. => .ok .useName
  | .useName, .id _ => .error .error
  | _, .id _ => .ok .useId

/-- `copy_cell_`, as far as it can fail. The cell of a mark has ids. -/
def IdNameType.copyCell (type : IdNameType) : MutatorNode κ ω → Except Ret IdNameType
  | .semantic _ => .ok type
  | .delRow table _ => type.use table
  | .value table _ column _ _ => (type.use table).bind (·.use column)
  | .rowBarrier | .dmlType _ => (type.use (.id 0)).bind (·.use (.id 0))

namespace Mutator

def empty : Mutator κ ω := ⟨[], .unsure, false, []⟩

variable (m : Mutator κ ω)

def addCell (x : MutatorNode κ ω) : Except Ret (Mutator κ ω) :=
  (m.idNameType.copyCell x).map fun type => { m with list := m.list ++ [x], idNameType := type }

def resetIter : Mutator κ ω := { m with hasBegin := false }

/-- `next_cell_`. -/
def nextNode : Except Ret (Mutator κ ω) :=
  match if m.hasBegin then m.curIterNode.tail else m.list with
  | [] => .error .iterEnd
  | node :: rest => .ok { m with hasBegin := true, curIterNode := node :: rest }

def nextCell : Except Ret (Mutator κ ω) :=
  m.nextNode.bind fun m =>
    match m.curIterNode with
    | [] => .error .errUnexpected
    | node :: _ => if node.isCell then .ok m else m.nextNode

def getCell : Except Ret (MutatorNode κ ω) :=
  match m.curIterNode with
  | [] => .error .error
  | node :: _ => .ok node

/-- `next_cell` and `get_cell`. -/
def next : Except Ret (MutatorNode κ ω × Mutator κ ω) :=
  m.nextCell.bind fun m => m.getCell.map (·, m)

/-! ### What is handed out -/

/-- What the calls hand out of the nodes that are left. -/
def handedOut : List (MutatorNode κ ω) → List (MutatorNode κ ω)
  | [] => []
  | [node] => if node.isCell then [node] else []
  | node :: node' :: rest =>
    if node.isCell then node :: handedOut (node' :: rest) else node' :: handedOut rest

variable {m : Mutator κ ω} {rest : List (MutatorNode κ ω)}

/-- Cells are added at the end. -/
theorem list_of_addCells {adds : List (MutatorNode κ ω)} {m' : Mutator κ ω}
    (h : adds.foldlM addCell m = .ok m') : m'.list = m.list ++ adds := by
  induction adds generalizing m with
  | nil =>
    cases h
    exact (append_nil _).symm
  | cons x adds ih =>
    rw [foldlM_cons] at h
    obtain ⟨m₁, hadd, hrest⟩ := except_bind_eq_ok.1 h
    obtain ⟨type, -, rfl⟩ := except_map_eq_ok.1 hadd
    rw [ih hrest, append_assoc, singleton_append]

/-- The iterator hands out the cells and the node behind each mark. -/
theorem yields_handedOut (h : (if m.hasBegin then m.curIterNode.tail else m.list) = rest) :
    Yields next (handedOut rest) .iterEnd m := by
  induction rest using handedOut.induct generalizing m with
  | case1 => simp [handedOut, Yields, next, nextCell, nextNode, h, Except.bind]
  | case2 node hcell =>
    rw [handedOut, if_pos hcell]
    refine ⟨{ m with hasBegin := true, curIterNode := [node] }, ?_, ?_⟩
    · simp [next, nextCell, nextNode, h, hcell, getCell, Except.bind, Except.map]
    · simp [Yields, next, nextCell, nextNode, Except.bind]
  | case3 node hcell =>
    -- the mark is the last node, and the call that passes it finds the end
    rw [handedOut, if_neg hcell]
    simp [Yields, next, nextCell, nextNode, h, hcell, Except.bind]
  | case4 node node' rest hcell ih =>
    rw [handedOut, if_pos hcell]
    refine ⟨{ m with hasBegin := true, curIterNode := node :: node' :: rest }, ?_, ih rfl⟩
    simp [next, nextCell, nextNode, h, hcell, getCell, Except.bind, Except.map]
  | case5 node node' rest hcell ih =>
    -- the node behind the mark is handed out, whatever it is
    rw [handedOut, if_neg hcell]
    refine ⟨{ m with hasBegin := true, curIterNode := node' :: rest }, ?_, ih rfl⟩
    simp [next, nextCell, nextNode, h, hcell, getCell, Except.bind, Except.map]

/-- The cells, and no others, exactly if no mark follows a mark. -/
theorem handedOut_eq_iff (adds : List (MutatorNode κ ω)) :
    handedOut adds = adds.filter (·.isCell) ↔
      adds.IsChain fun node node' => node.isCell = true ∨ node'.isCell = true := by
  induction adds using handedOut.induct with
  | case1 => simp [handedOut]
  | case2 node hcell | case3 node hcell => simp [handedOut, hcell]
  | case4 node node' rest hcell ih =>
    rw [handedOut, if_pos hcell, filter_cons_of_pos hcell, isChain_cons_cons, ← ih]
    simp [hcell]
  | case5 node node' rest hcell ih =>
    rw [handedOut, if_neg hcell, filter_cons_of_neg hcell, isChain_cons_cons]
    by_cases hcell' : node'.isCell = true
    · rw [filter_cons_of_pos hcell', List.isChain_cons, ← ih]
      simp [hcell']
    -- of two marks the second one is handed out, and is no cell
    refine iff_of_false (fun heq => hcell' ?_) (by simp [hcell, hcell'])
    exact (mem_filter.1 (heq ▸ mem_cons_self)).2

/-- **Iteration** over a mutator hands out exactly the cells that were added, in order, if and only
if no mark was added right behind a mark. -/
theorem yields_cells_iff {adds : List (MutatorNode κ ω)} {m : Mutator κ ω}
    (h : adds.foldlM addCell empty = .ok m) :
    Yields next (adds.filter (·.isCell)) .iterEnd m.resetIter ↔
      adds.IsChain fun node node' => node.isCell = true ∨ node'.isCell = true := by
  have hlist : m.list = adds := list_of_addCells h
  have hyields : Yields next (handedOut adds) .iterEnd m.resetIter := yields_handedOut hlist
  rw [← handedOut_eq_iff]
  constructor
  · intro hcells
    exact (hyields.unique hcells).1
  · intro heq
    exact heq ▸ hyields

/-- The type `OB_DML_INSERT`, a cell and a row barrier. -/
def markedCells : List (MutatorNode Nat Int) :=
  [.dmlType 2, .value (.id 1001) 7 (.id 16) 2 5, .rowBarrier]

theorem yields_markedCells : ∃ m, markedCells.foldlM addCell empty = .ok m ∧
    Yields next [.value (.id 1001) 7 (.id 16) 2 5] .iterEnd m.resetIter := by
  refine ⟨_, rfl, (yields_cells_iff (show markedCells.foldlM addCell empty = _ from rfl)).2 ?_⟩
  simp [markedCells, MutatorNode.isCell]

/-- A row barrier with the dml type of the next row behind it: the mark of the type is handed out,
and the cell after it. -/
theorem yields_barrier_dmlType : ∃ m : Mutator Nat Int,
    [.rowBarrier, .dmlType 2, .value (.id 1001) 7 (.id 16) 2 5].foldlM addCell empty = .ok m ∧
    Yields next [.dmlType 2, .value (.id 1001) 7 (.id 16) 2 5] .iterEnd m.resetIter :=
  ⟨_, rfl, _, rfl, _, rfl, rfl⟩

end Mutator

end OceanBase.Common
