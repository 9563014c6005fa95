import OceanBase.Common.Object

/-!
# Compaction of a row (`ob_row_compaction.cpp`)

`ObRowCompaction` folds the cells of a row into at most one cell for each column, in the order in
which the columns were first seen. A delete mark drops everything before it. The flags of the
row are kept apart from its values and come out as marks.
-/

namespace OceanBase.Common

open Lib List Prod

/-- What `ObRowCompaction` has collected of a row: the three bits of `row_ext_flag`, and the list
of values. -/
structure CompactRow where
  delRow : Bool
  nop : Bool
  rowDoesNotExist : Bool
  list : List (Column × Obj)
  deriving DecidableEq, Repr

namespace CompactRow

def empty : CompactRow := ⟨false, false, false, []⟩

def nodesNum : Nat := 65535 + 1

/-- The column's id has a node in `nodes_`. -/
def hasNode : Column → Bool
  | .data id => decide (id < nodesNum)
  | _ => true

section AddCell

variable (arith : Arith)

/-- Merge a value into the list: into the value of its column if there is one, else at the
end. -/
def addValue (column : Column) (obj : Obj) :
    List (Column × Obj) → Except Ret (List (Column × Obj))
  | [] => .ok [(column, obj)]
  | (c, o) :: rest =>
    if c = column then (o.apply arith obj).map fun o => (c, o) :: rest
    else (addValue column obj rest).map fun rest => (c, o) :: rest

def addCell (r : CompactRow) : Cell → Except Ret CompactRow
  | .delRow => .ok ⟨true, false, false, []⟩
  | .rowDoesNotExist => .ok { r with rowDoesNotExist := true }
  | .nop => .ok { r with nop := true }
  | .value column obj =>
    if hasNode column then
      (addValue arith column obj r.list).map fun list => { r with list := list }
    else .error .invalidArgument

/-- The loop of `row_compaction_` over the cells of a row. -/
def addCells (r : CompactRow) (cells : List Cell) : Except Ret CompactRow :=
  cells.foldlM (addCell arith) r

end AddCell

/-- The cells that `row_compaction_` leaves in `list_`. -/
def output (r : CompactRow) : List Cell :=
  let list := r.list.map fun v => Cell.value v.1 v.2
  let list := if r.nop ∧ list = [] then [Cell.nop] else list
  let list := if r.rowDoesNotExist ∧ list = [] then [Cell.rowDoesNotExist] else list
  if r.delRow then Cell.delRow :: list else list

/-- `ObRowCompaction` over a row: the compacted cells, or the error of a cell that does not go with
those before it. -/
def compact (arith : Arith) (cells : List Cell) : Except Ret (List Cell) :=
  (addCells arith empty cells).map output

variable {arith : Arith} {r : CompactRow} {column : Column} {obj : Obj}
  {list : List (Column × Obj)}

@[simp]
theorem addCells_nil : addCells arith r [] = .ok r := rfl

theorem addCells_cons (c : Cell) (cells : List Cell) :
    addCells arith r (c :: cells) = (addCell arith r c).bind fun r => addCells arith r cells :=
  rfl

theorem addCells_append (cells cells' : List Cell) :
    addCells arith r (cells ++ cells') =
      (addCells arith r cells).bind fun r => addCells arith r cells' := by
  induction cells generalizing r with
  | nil => rfl
  | cons c cells ih =>
    rw [cons_append, addCells_cons, addCells_cons]
    rcases addCell arith r c with e | r
    · rfl
    · exact ih

variable {list' : List (Column × Obj)} {cells : List Cell} {r' : CompactRow}

theorem addCell_value_eq_ok (r : CompactRow)
    (hnode : hasNode column = true) (h : addValue arith column obj r.list = .ok list') :
    addCell arith r (.value column obj) = .ok { r with list := list' } := by
  rw [addCell, if_pos hnode, h]
  rfl

theorem addValue_of_notMem (h : column ∉ list.map fst) :
    addValue arith column obj list = .ok (list ++ [(column, obj)]) := by
  induction list with
  | nil => rfl
  | cons v list ih =>
    rw [map_cons, mem_cons, not_or] at h
    rw [addValue, if_neg (Ne.symm h.1), ih h.2]
    rfl

theorem addValue_append (front : List (Column × Obj)) (h : column ∉ front.map fst) :
    addValue arith column obj (front ++ list) =
      (addValue arith column obj list).map fun list => front ++ list := by
  induction front with
  | nil =>
    rw [nil_append]
    rcases addValue arith column obj list with e | list
    all_goals rfl
  | cons v front ih =>
    rw [map_cons, mem_cons, not_or] at h
    rw [cons_append, addValue, if_neg (Ne.symm h.1), ih h.2]
    rcases addValue arith column obj list with e | list
    all_goals rfl

theorem addValue_of_mem_self (hmem : (column, obj) ∈ list) (hnodup : (list.map fst).Nodup)
    (hself : obj.apply arith obj = .ok obj) : addValue arith column obj list = .ok list := by
  induction list with
  | nil => cases hmem
  | cons v list ih =>
    rw [map_cons, nodup_cons] at hnodup
    rw [addValue]
    rcases mem_cons.1 hmem with rfl | hmem
    · rw [if_pos rfl, hself]
      rfl
    have hne : v.1 ≠ column := by
      rintro rfl
      exact hnodup.1 (mem_map.2 ⟨_, hmem, rfl⟩)
    rw [if_neg hne, ih hmem hnodup.2]
    rfl

theorem map_fst_addValue (h : addValue arith column obj list = .ok list') :
    list'.map fst = if column ∈ list.map fst then list.map fst else list.map fst ++ [column] := by
  induction list generalizing list' with
  | nil =>
    cases h
    rfl
  | cons v list ih =>
    rw [addValue] at h
    split at h
    · next heq =>
      obtain ⟨o, -, rfl⟩ := except_map_eq_ok.1 h
      rw [if_pos (by simp [heq])]
      rfl
    · next hne =>
      obtain ⟨rest, hrest, rfl⟩ := except_map_eq_ok.1 h
      have hcolumn : column ∈ (v :: list).map fst ↔ column ∈ list.map fst := by
        rw [map_cons, mem_cons]
        exact or_iff_right (Ne.symm hne)
      rw [map_cons, ih hrest, if_congr hcolumn rfl rfl]
      split
      all_goals rfl

theorem exists_mem_of_addCells
    (h : addCells arith r cells = .ok r') (hmem : column ∈ r'.list.map fst) :
    column ∈ r.list.map fst ∨ ∃ o, .value column o ∈ cells := by
  induction cells generalizing r with
  | nil =>
    cases h
    exact .inl hmem
  | cons c cells ih =>
    obtain ⟨r₁, hr₁, h⟩ := except_bind_eq_ok.1 h
    rcases ih h with hmem | ⟨o, ho⟩
    · cases c with
      | delRow =>
        cases hr₁
        cases hmem
      | nop | rowDoesNotExist =>
        cases hr₁
        exact .inl hmem
      | value d o =>
        rw [addCell] at hr₁
        split at hr₁
        · obtain ⟨list, hlist, rfl⟩ := except_map_eq_ok.1 hr₁
          rw [map_fst_addValue hlist] at hmem
          split at hmem
          · exact .inl hmem
          rcases mem_append.1 hmem with hmem | hmem
          · exact .inl hmem
          · rw [mem_singleton.1 hmem]
            exact .inr ⟨o, mem_cons_self⟩
        · cases hr₁
    · exact .inr ⟨o, mem_cons_of_mem _ ho⟩

theorem mem_list_of_mem_output {r : CompactRow} (h : .value column obj ∈ r.output) :
    column ∈ r.list.map fst := by
  rw [output] at h
  grind

theorem exists_mem_of_compact {cells' : List Cell} (h : compact arith cells = .ok cells')
    (hmem : .value column obj ∈ cells') : ∃ o, .value column o ∈ cells := by
  obtain ⟨r', hr', rfl⟩ := except_map_eq_ok.1 h
  rcases exists_mem_of_addCells hr' (mem_list_of_mem_output hmem) with hnil | ho
  · cases hnil
  · exact ho

/-- What holds of every value of a list, of the value added and of what comes of merging it. -/
theorem forall_addValue {P : Column × Obj → Prop} (hlist : ∀ v ∈ list, P v) (hobj : P (column, obj))
    (hmerge : ∀ o o', P (column, o) → o.apply arith obj = .ok o' → P (column, o'))
    (h : addValue arith column obj list = .ok list') : ∀ v ∈ list', P v := by
  induction list generalizing list' with
  | nil =>
    cases h
    intro v hv
    rwa [mem_singleton.1 hv]
  | cons w list ih =>
    have hw := hlist w mem_cons_self
    have htail : ∀ v ∈ list, P v := (forall_mem_cons.1 hlist).2
    rw [addValue] at h
    intro v hv
    split at h
    · next heq =>
      obtain ⟨o, ho, rfl⟩ := except_map_eq_ok.1 h
      subst heq
      rcases mem_cons.1 hv with rfl | hv
      · exact hmerge w.2 o hw ho
      · exact htail v hv
    · obtain ⟨rest, hrest, rfl⟩ := except_map_eq_ok.1 h
      rcases mem_cons.1 hv with rfl | hv
      · exact hw
      · exact ih htail hrest v hv

variable (exist : Column → Bool)

theorem filter_addValue (h : addValue arith column obj list = .ok list') :
    if exist column then
      addValue arith column obj (list.filter fun v => exist v.1) =
        .ok (list'.filter fun v => exist v.1)
    else (list'.filter fun v => exist v.1) = list.filter fun v => exist v.1 := by
  induction list generalizing list' with
  | nil =>
    cases h
    rcases hexist : exist column with _ | _
    · simp [hexist]
    · simp [hexist, addValue]
  | cons v list ih =>
    rw [addValue] at h
    split at h
    · next heq =>
      obtain ⟨o, ho, rfl⟩ := except_map_eq_ok.1 h
      subst heq
      rcases hexist : exist v.1 with _ | _
      · simp [hexist]
      · simp [hexist, addValue, ho, Except.map]
    · next hne =>
      obtain ⟨rest, hrest, rfl⟩ := except_map_eq_ok.1 h
      have hih := ih hrest
      rcases hexist : exist column with _ | _
      · rw [if_neg (by simp [hexist])] at hih
        simp [filter_cons, hih]
      rw [if_pos hexist] at hih
      rcases hv : exist v.1 with _ | _
      · simpa [hv] using hih
      · simp [hv, addValue, hne, hih, Except.map]

/-- The columns of a row that exist. -/
def restrict (r : CompactRow) : CompactRow :=
  { r with list := r.list.filter fun v => exist v.1 }

/-- Dropping columns from the cells drops them from the result, and nothing else. -/
theorem addCells_restrict (keep : Cell → Bool)
    (hvalue : ∀ c o, keep (.value c o) = exist c) (hmark : ∀ c, (∀ d o, c ≠ .value d o) → keep c)
    (h : addCells arith r cells = .ok r') :
    addCells arith (r.restrict exist) (cells.filter keep) = .ok (r'.restrict exist) := by
  induction cells generalizing r with
  | nil =>
    cases h
    rfl
  | cons c cells ih =>
    obtain ⟨r₁, hr₁, h⟩ := except_bind_eq_ok.1 h
    have hih := ih h
    cases c with
    | delRow | nop | rowDoesNotExist =>
      rw [filter_cons_of_pos (hmark _ (by simp)), addCells_cons]
      cases hr₁
      exact hih
    | value column obj =>
      rw [addCell] at hr₁
      split at hr₁
      · next hnode =>
        obtain ⟨list, hlist, rfl⟩ := except_map_eq_ok.1 hr₁
        have hfilter := filter_addValue exist hlist
        rcases hexist : exist column with _ | _
        · rw [if_neg (by simp [hexist])] at hfilter
          rw [filter_cons_of_neg (by rw [hvalue, hexist]; simp)]
          rw [restrict] at hih ⊢
          rwa [← hfilter]
        · rw [if_pos hexist] at hfilter
          rwa [filter_cons_of_pos (by rw [hvalue, hexist]), addCells_cons, addCell, if_pos hnode,
            restrict, hfilter]
      · cases hr₁

end CompactRow

end OceanBase.Common
