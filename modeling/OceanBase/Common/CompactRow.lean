import OceanBase.Common.CompactCell

/-!
# Rows of compact cells (`ob_compact_cell_iterator.cpp`)

A store of rows with row keys holds of each row the cells of its row key, an end mark, its other
cells, with or without column ids, and another end mark.

`get_next_cell` looks for the end of a row in the member `value_`, which it does not set, and so
never goes back to reading a row key. Where the other cells have column ids, it agrees with
`next_cell` just if only the first row has a row key with cells (`getNextCell_iff`).
-/

namespace OceanBase.Common

open Lib Serialization List Except

namespace CompactCell

/-- What is left of the buffer. -/
def Left (mem : Buf) (bufSize pos : Int) (bs : List Byte) : Prop :=
  Holds mem pos bs ∧ pos + bs.length = bufSize

/-- The iterator reads the value again. -/
def readable (v : ObObj) : Bool := storable v && !isLongDecimal v

/-- A row: the cells of its row key, and the cells and marks behind it. -/
structure DenseRow where
  rowkey : List ObObj
  items : List CellItem
  rowkey_readable : ∀ v ∈ rowkey, readable v = true
  items_readable : ∀ columnId v, CellItem.cell columnId v ∈ items → readable v = true
  items_inside : CellItem.escape .endRow ∉ items

/-- The byte that ends a row. -/
def endByte : Byte := cellMeta tpEscape Escape.endRow.code

variable (storeType : StoreType)

/-- The bytes of what stands behind the row key. -/
def itemBytes : CellItem → List Byte
  | .cell columnId v =>
    if storeType = .denseSparse then valueBytes v ++ leBytes 4 (columnId.setWidth 32)
    else valueBytes v
  | .escape mark => [cellMeta tpEscape mark.code]

/-- A row as the writer leaves it. -/
def DenseRow.bytes (row : DenseRow) : List Byte :=
  row.rowkey.flatMap valueBytes ++ endByte :: (row.items.flatMap (itemBytes storeType) ++ [endByte])

/-- What is handed out of an item behind the row key. -/
def itemOut : CellItem → Delivered
  | .cell columnId v =>
    (if storeType = .denseSparse then readColumnId (columnId.setWidth 32) else invalidId,
      readValue v, false)
  | .escape mark => (invalidId, .extend mark.action, false)

/-- What is handed out for a cell of the row key. -/
def valueOut (v : ObObj) : Delivered := (invalidId, readValue v, false)

/-- What is handed out at the end of a row. -/
def endOut : Delivered := (invalidId, .extend ObActionFlag.opEndRow, true)

/-- What is handed out of a row. -/
def DenseRow.outs (row : DenseRow) : List Delivered :=
  row.rowkey.map valueOut ++ endOut :: (row.items.map (itemOut storeType) ++ [endOut])

section Dense

variable {mem : Buf} {bufSize pos : Int} {rest : List Byte} {storeType : StoreType}

theorem left_append {as bs : List Byte} (h : Left mem bufSize pos (as ++ bs)) :
    Holds mem pos as ∧ pos + as.length ≤ bufSize ∧ Left mem bufSize (pos + as.length) bs := by
  obtain ⟨hholds, hend⟩ := h
  rw [holds_append] at hholds
  rw [length_append] at hend
  exact ⟨hholds.1, by omega, hholds.2, by omega⟩

variable {v : ObObj}

theorem readable_iff : readable v = true ↔ storable v = true ∧ isLongDecimal v = false := by
  simp [readable]

theorem parse_left_value (hv : readable v = true)
    (h : Left mem bufSize pos (valueBytes v ++ rest)) :
    ∃ pos', parse mem bufSize pos = .ok (readValue v, pos') ∧ Left mem bufSize pos' rest := by
  obtain ⟨hstore, hlong⟩ := readable_iff.1 hv
  obtain ⟨hholds, hroom, hleft⟩ := left_append h
  refine ⟨_, ?_, hleft⟩
  rw [parse_value hstore hholds hroom, hlong]
  rfl

variable {mark : Escape}

theorem parse_left_escape (h : Left mem bufSize pos (cellMeta tpEscape mark.code :: rest)) :
    ∃ pos', parse mem bufSize pos = .ok (.extend mark.action, pos') ∧
      Left mem bufSize pos' rest := by
  have happend : Left mem bufSize pos ([cellMeta tpEscape mark.code] ++ rest) := h
  obtain ⟨hholds, hroom, hleft⟩ := left_append happend
  exact ⟨_, parse_escape hholds.1 hroom, hleft⟩

variable {item : CellItem}

theorem parseWithId_left_item (hv : ∀ columnId v, item = .cell columnId v → readable v = true)
    (h : Left mem bufSize pos (itemBytes .denseSparse item ++ rest)) :
    ∃ pos', parseWithId mem bufSize pos =
        .ok (((itemOut .denseSparse item).2.1, (itemOut .denseSparse item).1), pos') ∧
      Left mem bufSize pos' rest := by
  obtain ⟨hholds, hroom, hleft⟩ := left_append h
  refine ⟨_, ?_, hleft⟩
  cases item with
  | cell columnId v =>
    obtain ⟨hstore, hlong⟩ := readable_iff.1 (hv columnId v rfl)
    refine (parseWithId_value hstore hholds hroom).trans ?_
    rw [hlong]
    rfl
  | escape mark => exact parseWithId_escape hholds.1 hroom

theorem parse_left_item (hv : ∀ columnId v, item = .cell columnId v → readable v = true)
    (h : Left mem bufSize pos (itemBytes .denseDense item ++ rest)) :
    ∃ pos', parse mem bufSize pos = .ok ((itemOut .denseDense item).2.1, pos') ∧
      Left mem bufSize pos' rest := by
  cases item with
  | cell columnId v => exact parse_left_value (hv columnId v rfl) h
  | escape mark => exact parse_left_escape h

theorem itemOut_dense : (itemOut .denseDense item).1 = invalidId := by cases item <;> rfl

theorem isEndRow_action (h : mark ≠ .endRow) : (ObObj.extend mark.action).isEndRow = false := by
  cases mark with
  | endRow => exact absurd rfl h
  | _ => rfl

theorem itemOut_eq (hv : ∀ columnId v, item = .cell columnId v → readable v = true)
    (hend : item ≠ .escape .endRow) : (itemOut storeType item).2.1.isEndRow = false ∧
      itemOut storeType item =
        ((itemOut storeType item).1, (itemOut storeType item).2.1, false) := by
  cases item with
  | cell columnId v => exact ⟨isEndRow_readValue (readable_iff.1 (hv columnId v rfl)).1, rfl⟩
  | escape mark => exact ⟨isEndRow_action fun heq => hend (congrArg CellItem.escape heq), rfl⟩

/-- The store types with row keys. -/
def HasRowkey (storeType : StoreType) : Prop :=
  storeType = .denseSparse ∨ storeType = .denseDense

section

variable {σ : Type}

/-- The iterator hands out the cells of a row key one by one. -/
def ReadsCells (next : σ → Except Ret (Delivered × σ)) (R : σ → List Byte → Prop) : Prop :=
  ∀ s v rest, readable v = true → R s (valueBytes v ++ rest) →
    ∃ t, next s = .ok (valueOut v, t) ∧ R t rest

/-- The iterator hands out what stands behind the cells of a row key. -/
structure ReadsBehind (next : σ → Except Ret (Delivered × σ)) (storeType : StoreType)
    (R R' R'' : σ → List Byte → Prop) : Prop where
  rowkeyEnd : ∀ s rest, R s (endByte :: rest) → ∃ t, next s = .ok (endOut, t) ∧ R' t rest
  item : ∀ s item rest, (∀ columnId v, item = .cell columnId v → readable v = true) →
    item ≠ .escape .endRow → R' s (itemBytes storeType item ++ rest) →
    ∃ t, next s = .ok (itemOut storeType item, t) ∧ R' t rest
  rowEnd : ∀ s rest, R' s (endByte :: rest) → ∃ t, next s = .ok (endOut, t) ∧ R'' t rest

end

/-- Where `next_cell` stands. -/
def NextAt (mem : Buf) (bufSize : Int) (step : RowStep) (it : CellIterator) (bs : List Byte) :
    Prop :=
  it.step = step ∧ Left mem bufSize it.pos bs

variable {it : CellIterator} {value : ObObj} {pos' : Int}

theorem nextAndGet_rowkey (hst : HasRowkey storeType) (hstep : it.step = .rowkey)
    (h : parse mem bufSize it.pos = .ok (value, pos')) :
    nextAndGet mem bufSize storeType it = .ok ((invalidId, value, value.isEndRow),
      ⟨pos', invalidId, value, if value.isEndRow then .value else .rowkey, value.isEndRow⟩) := by
  obtain rfl | rfl := hst
  all_goals simp only [nextAndGet, nextCell, hstep, h, except_ok_bind, pure, Except.pure, getCell]

variable {columnId : BitVec 64}

theorem nextAndGet_sparseValue (hstep : it.step = .value)
    (h : parseWithId mem bufSize it.pos = .ok ((value, columnId), pos')) :
    nextAndGet mem bufSize .denseSparse it = .ok ((columnId, value, value.isEndRow),
      ⟨pos', columnId, value, if value.isEndRow then .rowkey else .value, value.isEndRow⟩) := by
  simp [nextAndGet, nextCell, hstep, h, getCell]

theorem nextAndGet_denseValue (hstep : it.step = .value)
    (h : parse mem bufSize it.pos = .ok (value, pos')) :
    nextAndGet mem bufSize .denseDense it = .ok ((invalidId, value, value.isEndRow),
      ⟨pos', invalidId, value, if value.isEndRow then .rowkey else .value, value.isEndRow⟩) := by
  simp only [nextAndGet, nextCell, hstep, h]
  rfl

variable (hst : HasRowkey storeType) {last : Bool}

section

include hst

theorem next_value (item : CellItem)
    (hv : ∀ columnId v, item = .cell columnId v → readable v = true)
    (hlast : (itemOut storeType item).2.1.isEndRow = last)
    (h : NextAt mem bufSize .value it (itemBytes storeType item ++ rest)) :
    ∃ t, nextAndGet mem bufSize storeType it =
        .ok (((itemOut storeType item).1, (itemOut storeType item).2.1, last), t) ∧
      NextAt mem bufSize (if last then .rowkey else .value) t rest := by
  obtain ⟨hstep, hleft⟩ := h
  subst hlast
  obtain rfl | rfl := hst
  · obtain ⟨pos', hparse, hrest⟩ := parseWithId_left_item hv hleft
    exact ⟨_, nextAndGet_sparseValue hstep hparse, rfl, hrest⟩
  · obtain ⟨pos', hparse, hrest⟩ := parse_left_item hv hleft
    rw [itemOut_dense]
    exact ⟨_, nextAndGet_denseValue hstep hparse, rfl, hrest⟩

theorem readsCells_next :
    ReadsCells (nextAndGet mem bufSize storeType) (NextAt mem bufSize .rowkey) := by
  intro it v rest hv h
  obtain ⟨hstep, hleft⟩ := h
  obtain ⟨pos', hparse, hrest⟩ := parse_left_value hv hleft
  have hnext := nextAndGet_rowkey hst hstep hparse
  rw [isEndRow_readValue (readable_iff.1 hv).1] at hnext
  exact ⟨_, hnext, rfl, hrest⟩

theorem readsBehind_next :
    ReadsBehind (nextAndGet mem bufSize storeType) storeType (NextAt mem bufSize .rowkey)
      (NextAt mem bufSize .value) (NextAt mem bufSize .rowkey) where
  rowkeyEnd it rest h := by
    obtain ⟨hstep, hleft⟩ := h
    obtain ⟨pos', hparse, hrest⟩ := parse_left_escape hleft
    exact ⟨_, nextAndGet_rowkey hst hstep hparse, rfl, hrest⟩
  item it item rest hv hend h := by
    obtain ⟨hlast, heq⟩ := itemOut_eq hv hend
    rw [heq]
    exact next_value hst item hv hlast h
  rowEnd it rest h := next_value hst (.escape .endRow) (by rintro _ _ ⟨⟩) rfl h

end

/-- Where `get_next_cell` stands: it has never set the member `value_`, and the caller's column id
is `columnId`. -/
def GetAt (mem : Buf) (bufSize : Int) (step : RowStep) (columnId : BitVec 64)
    (s : CellIterator × Caller) (bs : List Byte) : Prop :=
  s.1.step = step ∧ s.1.value = .null ∧ s.2.columnId = columnId ∧ Left mem bufSize s.1.pos bs

variable {s : CellIterator × Caller}

theorem getNextAndLook_rowkey (hst : HasRowkey storeType) (hstep : s.1.step = .rowkey)
    (h : parse mem bufSize s.1.pos = .ok (value, pos')) :
    getNextAndLook mem bufSize storeType s = .ok ((s.2.columnId, value, value.isEndRow),
      { s.1 with
        pos := pos', step := if value.isEndRow then .value else .rowkey,
        isRowFinished := value.isEndRow }, { s.2 with value }) := by
  obtain rfl | rfl := hst
  all_goals simp only [getNextAndLook, getNextCell, hstep, h, except_ok_bind, pure, Except.pure]

theorem getNextAndLook_sparseValue (hstep : s.1.step = .value) (hvalue : s.1.value = .null)
    (h : parseWithId mem bufSize s.1.pos = .ok ((value, columnId), pos')) :
    getNextAndLook mem bufSize .denseSparse s = .ok ((columnId, value, value.isEndRow),
      { s.1 with pos := pos', step := .value, isRowFinished := value.isEndRow },
      { columnId, value }) := by
  have hnever : (value.isExtend && s.1.value.getExt == ObActionFlag.opEndRow) = false := by
    rw [hvalue]
    exact Bool.and_false _
  simp only [getNextAndLook, getNextCell, hstep, h, except_ok_bind, hnever]
  rfl

theorem getNextAndLook_denseValue (hstep : s.1.step = .value) (hvalue : s.1.value = .null)
    (h : parse mem bufSize s.1.pos = .ok (value, pos')) :
    getNextAndLook mem bufSize .denseDense s = .ok ((s.2.columnId, value, value.isEndRow),
      { s.1 with pos := pos', step := .value, isRowFinished := value.isEndRow },
      { s.2 with value }) := by
  have hnever : s.1.value.isEndRow = false := by
    rw [hvalue]
    rfl
  simp only [getNextAndLook, getNextCell, hstep, h, hnever]
  rfl

theorem get_rowkeyCell (hst : HasRowkey storeType) (hv : readable v = true)
    (h : GetAt mem bufSize .rowkey columnId s (valueBytes v ++ rest)) :
    ∃ t, getNextAndLook mem bufSize storeType s = .ok ((columnId, readValue v, false), t) ∧
      GetAt mem bufSize .rowkey columnId t rest := by
  obtain ⟨hstep, hvalue, hcolumn, hleft⟩ := h
  obtain ⟨pos', hparse, hrest⟩ := parse_left_value hv hleft
  have hget := getNextAndLook_rowkey hst hstep hparse
  rw [isEndRow_readValue (readable_iff.1 hv).1, hcolumn] at hget
  exact ⟨_, hget, rfl, hvalue, hcolumn, hrest⟩

theorem get_rowkeyEnd (hst : HasRowkey storeType)
    (h : GetAt mem bufSize .rowkey columnId s (endByte :: rest)) :
    ∃ t, getNextAndLook mem bufSize storeType s =
        .ok ((columnId, .extend ObActionFlag.opEndRow, true), t) ∧
      GetAt mem bufSize .value columnId t rest := by
  obtain ⟨hstep, hvalue, hcolumn, hleft⟩ := h
  obtain ⟨pos', hparse, hrest⟩ := parse_left_escape hleft
  have hget := getNextAndLook_rowkey hst hstep hparse
  rw [hcolumn] at hget
  exact ⟨_, hget, rfl, hvalue, hcolumn, hrest⟩

/-- `get_next_cell` behind a row key; the column id of the caller is the invalid one where the
cells have none. -/
def GetInRow (mem : Buf) (bufSize : Int) (storeType : StoreType) (s : CellIterator × Caller)
    (bs : List Byte) : Prop :=
  ∃ columnId, GetAt mem bufSize .value columnId s bs ∧
    (storeType = .denseDense → columnId = invalidId)

variable {bs : List Byte} {row : DenseRow} {rows : List DenseRow} {step : RowStep}

theorem GetAt.inRow
    (h : GetAt mem bufSize .value invalidId s bs) : GetInRow mem bufSize storeType s bs :=
  ⟨invalidId, h, fun _ => rfl⟩

/-- A cell or mark behind the row key, or one that is taken for such. -/
theorem get_value (hst : HasRowkey storeType) (item : CellItem)
    (hv : ∀ columnId v, item = .cell columnId v → readable v = true)
    (hlast : (itemOut storeType item).2.1.isEndRow = last)
    (h : GetInRow mem bufSize storeType s (itemBytes storeType item ++ rest)) :
    ∃ t, getNextAndLook mem bufSize storeType s =
        .ok (((itemOut storeType item).1, (itemOut storeType item).2.1, last), t) ∧
      GetAt mem bufSize .value (itemOut storeType item).1 t rest := by
  obtain ⟨columnId', ⟨hstep, hvalue, hcolumn, hleft⟩, hdense⟩ := h
  subst hlast
  obtain rfl | rfl := hst
  · obtain ⟨pos', hparse, hrest⟩ := parseWithId_left_item hv hleft
    exact ⟨_, getNextAndLook_sparseValue hstep hvalue hparse, rfl, hvalue, rfl, hrest⟩
  · obtain ⟨pos', hparse, hrest⟩ := parse_left_item hv hleft
    have hget := getNextAndLook_denseValue hstep hvalue hparse
    rw [hdense rfl] at hcolumn
    rw [hcolumn] at hget
    rw [itemOut_dense]
    exact ⟨_, hget, rfl, hvalue, hcolumn, hrest⟩

theorem get_item (hst : HasRowkey storeType)
    (hv : ∀ columnId v, item = .cell columnId v → readable v = true) (hend : item ≠ .escape .endRow)
    (h : GetInRow mem bufSize storeType s (itemBytes storeType item ++ rest)) :
    ∃ t, getNextAndLook mem bufSize storeType s = .ok (itemOut storeType item, t) ∧
      GetInRow mem bufSize storeType t rest := by
  obtain ⟨hlast, heq⟩ := itemOut_eq hv hend
  obtain ⟨t, hget, ht⟩ := get_value hst item hv hlast h
  rw [heq]
  exact ⟨t, hget, _, ht, fun hdense => hdense ▸ itemOut_dense⟩

theorem get_rowEnd (hst : HasRowkey storeType)
    (h : GetInRow mem bufSize storeType s (endByte :: rest)) :
    ∃ t, getNextAndLook mem bufSize storeType s = .ok (endOut, t) ∧
      GetAt mem bufSize .value invalidId t rest :=
  get_value hst (.escape .endRow) (by rintro _ _ ⟨⟩) rfl h

theorem get_end (hst : HasRowkey storeType) (h : GetAt mem bufSize step columnId s []) :
    getNextAndLook mem bufSize storeType s = .error .iterEnd := by
  obtain ⟨hstep, -, -, -, hend⟩ := h
  have hpos : s.1.pos = bufSize := by simpa using hend
  obtain rfl | rfl := hst
  all_goals cases step
  all_goals
    simp only [getNextAndLook, getNextCell, hstep, hpos, parse_end, parseWithId_end]
    rfl

theorem next_end (hst : HasRowkey storeType) (h : NextAt mem bufSize step it []) :
    nextAndGet mem bufSize storeType it = .error .iterEnd := by
  obtain ⟨hstep, -, hend⟩ := h
  have hpos : it.pos = bufSize := by simpa using hend
  obtain rfl | rfl := hst
  all_goals cases step
  all_goals
    simp only [nextAndGet, nextCell, hstep, hpos, parse_end, parseWithId_end]
    rfl

/-! ### Whole rows -/

section Rows

variable {σ : Type} {next : σ → Except Ret (Delivered × σ)} {R R' R'' : σ → List Byte → Prop}

variable {s : σ}

theorem ReadsCells.delivers (hread : ReadsCells next R) {vs : List ObObj}
    (hvs : ∀ v ∈ vs, readable v = true) (h : R s (vs.flatMap valueBytes ++ rest)) :
    ∃ t, Delivers next s (vs.map valueOut) t ∧ R t rest := by
  induction vs generalizing s with
  | nil => exact ⟨s, rfl, h⟩
  | cons v vs ih =>
    rw [flatMap_cons, append_assoc] at h
    obtain ⟨t, hnext, ht⟩ := hread s v _ (hvs v mem_cons_self) h
    obtain ⟨u, hdelivers, hu⟩ := ih (forall_mem_cons.1 hvs).2 ht
    exact ⟨u, ⟨t, hnext, hdelivers⟩, hu⟩

theorem ReadsBehind.delivers_items (hread : ReadsBehind next storeType R R' R'')
    {items : List CellItem}
    (hreadable : ∀ columnId v, CellItem.cell columnId v ∈ items → readable v = true)
    (hinside : CellItem.escape .endRow ∉ items)
    (h : R' s (items.flatMap (itemBytes storeType) ++ rest)) :
    ∃ t, Delivers next s (items.map (itemOut storeType)) t ∧ R' t rest := by
  induction items generalizing s with
  | nil => exact ⟨s, rfl, h⟩
  | cons item items ih =>
    rw [mem_cons, not_or] at hinside
    rw [flatMap_cons, append_assoc] at h
    have hv : ∀ columnId v, item = .cell columnId v → readable v = true := by
      rintro columnId v rfl
      exact hreadable columnId v mem_cons_self
    have htail : ∀ columnId v, CellItem.cell columnId v ∈ items → readable v = true := by
      intro columnId v hmem
      exact hreadable columnId v (mem_cons_of_mem _ hmem)
    obtain ⟨t, hnext, ht⟩ := hread.item s item _ hv (Ne.symm hinside.1) h
    obtain ⟨u, hdelivers, hu⟩ := ih htail hinside.2 ht
    exact ⟨u, ⟨t, hnext, hdelivers⟩, hu⟩

/-- A whole row, whose row key may be without cells where the iterator does not read them. -/
theorem ReadsBehind.delivers_row (hread : ReadsBehind next storeType R R' R'')
    (hcells : row.rowkey = [] ∨ ReadsCells next R) (h : R s (row.bytes storeType ++ rest)) :
    ∃ t, Delivers next s (row.outs storeType) t ∧ R'' t rest := by
  rw [DenseRow.bytes, append_assoc, cons_append, append_assoc] at h
  have hrowkey : ∃ t, Delivers next s (row.rowkey.map valueOut) t ∧
      R t (endByte :: (row.items.flatMap (itemBytes storeType) ++ ([endByte] ++ rest))) := by
    obtain hnil | hcells := hcells
    · rw [hnil] at h ⊢
      exact ⟨s, rfl, h⟩
    · exact hcells.delivers row.rowkey_readable h
  obtain ⟨t, hdelivers, ht⟩ := hrowkey
  obtain ⟨t₁, hend, ht₁⟩ := hread.rowkeyEnd t _ ht
  obtain ⟨t₂, hitems, ht₂⟩ :=
    hread.delivers_items row.items_readable row.items_inside ht₁
  obtain ⟨t₃, hend', ht₃⟩ := hread.rowEnd t₂ _ ht₂
  have hbehind : Delivers next t (endOut :: (row.items.map (itemOut storeType) ++ [endOut])) t₃ :=
    ⟨t₁, hend, hitems.append (delivers_one hend')⟩
  exact ⟨t₃, hdelivers.append hbehind, ht₃⟩

theorem ReadsBehind.delivers_rows (hread : ReadsBehind next storeType R R' R)
    (hcells : ∀ row ∈ rows, row.rowkey = [] ∨ ReadsCells next R)
    (h : R s (rows.flatMap (DenseRow.bytes storeType) ++ rest)) :
    ∃ t, Delivers next s (rows.flatMap (DenseRow.outs storeType)) t ∧ R t rest := by
  induction rows generalizing s with
  | nil => exact ⟨s, rfl, h⟩
  | cons row rows ih =>
    rw [flatMap_cons, append_assoc] at h
    obtain ⟨t, hfirst, ht⟩ := hread.delivers_row (hcells row mem_cons_self) h
    obtain ⟨u, hdelivers, hu⟩ := ih (forall_mem_cons.1 hcells).2 ht
    exact ⟨u, hfirst.append hdelivers, hu⟩

end Rows

section

include hst

theorem readsCells_getFirst :
    ReadsCells (getNextAndLook mem bufSize storeType) (GetAt mem bufSize .rowkey invalidId) := by
  intro s v rest hv h
  exact get_rowkeyCell hst hv h

theorem readsBehind_getFirst :
    ReadsBehind (getNextAndLook mem bufSize storeType) storeType
      (GetAt mem bufSize .rowkey invalidId) (GetInRow mem bufSize storeType)
      (GetAt mem bufSize .value invalidId) where
  rowkeyEnd _ _ h := by
    obtain ⟨t, hget, ht⟩ := get_rowkeyEnd hst h
    exact ⟨t, hget, ht.inRow⟩
  item _ _ _ hv hend h := get_item hst hv hend h
  rowEnd _ _ h := get_rowEnd hst h

end

theorem readsCells_getLater :
    ReadsCells (getNextAndLook mem bufSize .denseDense) (GetAt mem bufSize .value invalidId) := by
  intro s v rest hv h
  have hlast := isEndRow_readValue (readable_iff.1 hv).1
  refine get_value (.inr rfl) (.cell 0 v) ?_ hlast h.inRow
  rintro _ _ ⟨⟩
  exact hv

theorem readsBehind_getLater (hst : HasRowkey storeType) :
    ReadsBehind (getNextAndLook mem bufSize storeType) storeType
      (GetAt mem bufSize .value invalidId) (GetInRow mem bufSize storeType)
      (GetAt mem bufSize .value invalidId) where
  rowkeyEnd _ _ h := by
    obtain ⟨t, hget, ht⟩ := get_rowEnd hst h.inRow
    exact ⟨t, hget, ht.inRow⟩
  item _ _ _ hv hend h := get_item hst hv hend h
  rowEnd _ _ h := get_rowEnd hst h

/-! ### Both ways over a store -/

/-- Both ways hand out the same cells, column ids, marks and row-finished flags, and stop for the
same reason. -/
def SameDelivery (mem : Buf) (bufSize : Int) (storeType : StoreType) (caller : Caller) : Prop :=
  ∃ outs e, Yields (nextAndGet mem bufSize storeType) outs e CellIterator.init ∧
    Yields (getNextAndLook mem bufSize storeType) outs e (CellIterator.init, caller)

/-- Of the rows only the first has a row key with cells. -/
def OneRowkey (rows : List DenseRow) : Prop :=
  ∀ row ∈ rows.tail, row.rowkey = []

variable {rows : List DenseRow} {caller : Caller}

theorem nextAt_init (h : Left mem bufSize 0 bs) :
    NextAt mem bufSize .rowkey CellIterator.init bs := ⟨rfl, h⟩

theorem getAt_init (h : Left mem bufSize 0 bs) :
    GetAt mem bufSize .rowkey caller.columnId (CellIterator.init, caller) bs := ⟨rfl, rfl, rfl, h⟩

theorem yields_next (hst : HasRowkey storeType)
    (h : NextAt mem bufSize .rowkey it (rows.flatMap (DenseRow.bytes storeType))) :
    Yields (nextAndGet mem bufSize storeType) (rows.flatMap (DenseRow.outs storeType)) .iterEnd
      it := by
  rw [← append_nil (rows.flatMap _)] at h
  obtain ⟨t, hdelivers, ht⟩ :=
    (readsBehind_next hst).delivers_rows (fun row _ => .inr (readsCells_next hst)) h
  rw [← append_nil (rows.flatMap (DenseRow.outs storeType)), hdelivers.yields_iff]
  exact next_end hst ht

/-- The rows behind the first, where `get_next_cell` reads their row keys as it should. -/
theorem yields_getLater (hst : HasRowkey storeType)
    (hcells : storeType = .denseDense ∨ ∀ row ∈ rows, row.rowkey = [])
    (h : GetAt mem bufSize .value invalidId s (rows.flatMap (DenseRow.bytes storeType))) :
    Yields (getNextAndLook mem bufSize storeType) (rows.flatMap (DenseRow.outs storeType)) .iterEnd
      s := by
  rw [← append_nil (rows.flatMap _)] at h
  have hrows : ∀ row ∈ rows, row.rowkey = [] ∨
      ReadsCells (getNextAndLook mem bufSize storeType) (GetAt mem bufSize .value invalidId) := by
    intro row hrow
    obtain rfl | hnil := hcells
    · exact .inr readsCells_getLater
    · exact .inl (hnil row hrow)
  obtain ⟨t, hdelivers, ht⟩ := (readsBehind_getLater hst).delivers_rows hrows h
  rw [← append_nil (rows.flatMap (DenseRow.outs storeType)), hdelivers.yields_iff]
  exact get_end hst ht

theorem yields_getFirst (hst : HasRowkey storeType) (hcolumn : caller.columnId = invalidId)
    (h : Left mem bufSize 0 ((row :: rows).flatMap (DenseRow.bytes storeType))) :
    ∃ t, GetAt mem bufSize .value invalidId t (rows.flatMap (DenseRow.bytes storeType)) ∧
      (Yields (getNextAndLook mem bufSize storeType)
          ((row :: rows).flatMap (DenseRow.outs storeType)) .iterEnd (CellIterator.init, caller) ↔
        Yields (getNextAndLook mem bufSize storeType) (rows.flatMap (DenseRow.outs storeType))
          .iterEnd t) := by
  have hstart : GetAt mem bufSize .rowkey caller.columnId (CellIterator.init, caller) _ :=
    getAt_init h
  rw [hcolumn, flatMap_cons] at hstart
  obtain ⟨t, hfirst, ht⟩ :=
    (readsBehind_getFirst hst).delivers_row (.inr (readsCells_getFirst hst)) hstart
  exact ⟨t, ht, hfirst.yields_iff⟩

/-- A caller with a column id of its own gets it with the first cell or mark. -/
theorem not_sameDelivery_of_columnId (hst : HasRowkey storeType)
    (hcolumn : caller.columnId ≠ invalidId)
    (h : Left mem bufSize 0 ((row :: rows).flatMap (DenseRow.bytes storeType))) :
    ¬ SameDelivery mem bufSize storeType caller := by
  rintro ⟨outs, e, hnext, hget⟩
  obtain ⟨rfl, -⟩ := hnext.unique (yields_next hst (nextAt_init h))
  have hstart : GetAt mem bufSize .rowkey caller.columnId (CellIterator.init, caller) _ :=
    getAt_init h
  rw [flatMap_cons, DenseRow.bytes] at hstart
  rw [flatMap_cons, DenseRow.outs] at hget
  rcases hrowkey : row.rowkey with _ | ⟨v, vs⟩
  · rw [hrowkey] at hstart hget
    obtain ⟨t, hfirst, -⟩ := get_rowkeyEnd hst hstart
    obtain ⟨t', hfirst', -⟩ := hget
    rw [hfirst] at hfirst'
    exact hcolumn (congrArg (fun r => r.1.1) (ok.inj hfirst'))
  have hv : readable v = true := row.rowkey_readable v (hrowkey ▸ mem_cons_self)
  rw [hrowkey, flatMap_cons, append_assoc, append_assoc] at hstart
  rw [hrowkey] at hget
  obtain ⟨t, hfirst, -⟩ := get_rowkeyCell hst hv hstart
  obtain ⟨t', hfirst', -⟩ := hget
  rw [hfirst] at hfirst'
  exact hcolumn (congrArg (fun r => r.1.1) (ok.inj hfirst'))

/-- No cell and no end mark begins with the lowest byte of the column id that stands for none. -/
theorem cellMeta_ne_allOnes (v : ObObj) : cellMeta (valueType v) (valueAttr v) ≠ 255 := by
  intro heq
  have htype := (cellMeta_type (Nat.lt_succ_of_lt (valueType_lt v)) (valueAttr_lt v)).1
  have hlt := valueType_lt v
  rw [heq] at htype
  exact absurd (htype.symm ▸ hlt) (by decide)

theorem parseColumnId_ne_invalidId {type : Nat} {b : Byte} (htype : type ≠ tpEscape)
    (hb : b ≠ 255) (h : Holds mem pos (b :: bs))
    (hparse : parseColumnId mem bufSize type pos = .ok (columnId, pos')) :
    columnId ≠ invalidId := by
  rw [parseColumnId, if_neg htype] at hparse
  obtain ⟨⟨id, pos''⟩, hget, hid⟩ := except_bind_eq_ok.1 hparse
  have hlow : id.setWidth 8 = b := by
    rw [get] at hget
    split_ifs at hget
    obtain ⟨rfl, -⟩ := Prod.mk.inj (ok.inj hget)
    rw [bytesAt_succ, setWidth_leValue _ _ (by decide)]
    exact h.1
  have hid : (if id = compactColumnInvalidId then invalidId else id.setWidth 64) = columnId :=
    congrArg Prod.fst (ok.inj hid)
  have hne : id ≠ compactColumnInvalidId := by
    rintro rfl
    exact hb (hlow.symm.trans (by decide))
  rw [if_neg hne] at hid
  rintro rfl
  have htoNat := congrArg BitVec.toNat hid
  simp [invalidId] at htoNat
  omega

theorem parseWithId_eq_ok (h : parseWithId mem bufSize pos = .ok ((value, columnId), pos')) :
    ∃ cellMeta metaEnd valueEnd, get mem bufSize 8 1 pos = .ok (cellMeta, metaEnd) ∧
      parse mem bufSize pos = .ok (value, valueEnd) ∧
      parseColumnId mem bufSize (cellMeta.toNat % 32) valueEnd = .ok (columnId, pos') := by
  obtain ⟨⟨cellMeta, metaEnd⟩, hmeta, h⟩ := except_bind_eq_ok.1 h
  obtain ⟨⟨value', valueEnd⟩, hbody, h⟩ := except_bind_eq_ok.1 h
  obtain ⟨⟨columnId', pos''⟩, hid, h⟩ := except_bind_eq_ok.1 h
  obtain ⟨⟨rfl, rfl⟩, rfl⟩ := h
  refine ⟨cellMeta, metaEnd, valueEnd, hmeta, ?_, hid⟩
  rwa [parse, hmeta]

theorem get_sparseRowkeyCell {b : Byte} (hv : readable v = true) (hb : b ≠ 255)
    (h : GetAt mem bufSize .value invalidId s (valueBytes v ++ b :: rest))
    (t : CellIterator × Caller) :
    getNextAndLook mem bufSize .denseSparse s ≠ .ok (valueOut v, t) := by
  intro hget
  obtain ⟨hstep, hvalue, -, hleft⟩ := h
  rcases hparse : parseWithId mem bufSize s.1.pos with e | r
  · simp [getNextAndLook, getNextCell, hstep, hparse] at hget
  obtain ⟨⟨value, columnId⟩, pos'⟩ := r
  rw [getNextAndLook_sparseValue hstep hvalue hparse] at hget
  have hcolumn : columnId = invalidId := congrArg (fun r => r.1.1) (Except.ok.inj hget)
  obtain ⟨meta', metaEnd, valueEnd, hmeta, hread, hid⟩ := parseWithId_eq_ok hparse
  obtain ⟨hholds, hroom, -⟩ := left_append hleft
  rw [valueBytes, length_cons] at hroom
  obtain ⟨valueEnd', hread', hrest, -⟩ := parse_left_value hv hleft
  obtain ⟨-, rfl⟩ := Prod.mk.inj (Except.ok.inj (hread.symm.trans hread'))
  rw [get_byte hholds.1 (by omega)] at hmeta
  obtain ⟨rfl, -⟩ := Prod.mk.inj (Except.ok.inj hmeta)
  have htype := (cellMeta_type (Nat.lt_succ_of_lt (valueType_lt v)) (valueAttr_lt v)).1
  rw [htype] at hid
  exact parseColumnId_ne_invalidId (Nat.ne_of_lt (valueType_lt v)) hb hrest hid hcolumn

theorem exists_head (vs : List ObObj) :
    ∃ b bs, vs.flatMap valueBytes ++ endByte :: rest = b :: bs ∧ b ≠ 255 := by
  rcases vs with _ | ⟨v, vs⟩
  · exact ⟨endByte, rest, rfl, by decide⟩
  · exact ⟨_, _, rfl, cellMeta_ne_allOnes v⟩

/-- The first later row key with cells is where the two ways part. -/
theorem not_yields_getLater {e : Ret} (hrows : ¬ ∀ row ∈ rows, row.rowkey = [])
    (h : GetAt mem bufSize .value invalidId s (rows.flatMap (DenseRow.bytes .denseSparse))) :
    ¬ Yields (getNextAndLook mem bufSize .denseSparse)
      (rows.flatMap (DenseRow.outs .denseSparse)) e s := by
  induction rows generalizing s with
  | nil => exact absurd (fun row hrow => absurd hrow not_mem_nil) hrows
  | cons row rows ih =>
    rw [flatMap_cons] at h ⊢
    rcases hrowkey : row.rowkey with _ | ⟨v, vs⟩
    · obtain ⟨t, hfirst, ht⟩ := (readsBehind_getLater (.inl rfl)).delivers_row (.inl hrowkey) h
      rw [hfirst.yields_iff]
      refine ih (fun hnil => hrows ?_) ht
      exact forall_mem_cons.2 ⟨hrowkey, hnil⟩
    have hv : readable v = true := row.rowkey_readable v (hrowkey ▸ mem_cons_self)
    rw [DenseRow.bytes, hrowkey, flatMap_cons, append_assoc, append_assoc, cons_append] at h
    obtain ⟨b, bs, hbytes, hb⟩ := exists_head vs
    rw [hbytes] at h
    rw [DenseRow.outs, hrowkey]
    rintro ⟨t, hget, -⟩
    exact get_sparseRowkeyCell hv hb h t hget

/-- Iterating with `get_next_cell` and with `next_cell` and `get_cell` agree just if there is no
row, or the caller starts with the invalid column id and either no cell has a column id or only the
first row has a row key with cells. -/
theorem getNextCell_iff (hst : HasRowkey storeType)
    (hholds : Holds mem 0 (rows.flatMap (DenseRow.bytes storeType))) (caller : Caller) :
    SameDelivery mem (rows.flatMap (DenseRow.bytes storeType)).length storeType caller ↔
      rows = [] ∨ caller.columnId = invalidId ∧ (storeType = .denseDense ∨ OneRowkey rows) := by
  have hleft : Left mem (rows.flatMap (DenseRow.bytes storeType)).length 0 _ :=
    ⟨hholds, Int.zero_add _⟩
  have hnext := yields_next hst (nextAt_init hleft)
  rcases rows with _ | ⟨row, rows⟩
  · refine iff_of_true ⟨_, _, hnext, ?_⟩ (.inl rfl)
    exact get_end hst (getAt_init hleft)
  rw [or_iff_right (cons_ne_nil _ _), OneRowkey, tail_cons]
  by_cases hcolumn : caller.columnId = invalidId
  · obtain ⟨t, ht, hfirst⟩ := yields_getFirst hst hcolumn hleft
    rw [and_iff_right hcolumn]
    constructor
    · rintro ⟨outs, e, hnext', hget⟩
      obtain ⟨rfl, rfl⟩ := hnext'.unique hnext
      by_contra hcells
      obtain ⟨hdense, hrows⟩ := not_or.1 hcells
      obtain rfl := hst.resolve_right hdense
      exact not_yields_getLater hrows ht (hfirst.1 hget)
    · intro hcells
      exact ⟨_, _, hnext, hfirst.2 (yields_getLater hst hcells ht)⟩
  · refine iff_of_false ?_ fun h => hcolumn h.1
    exact not_sameDelivery_of_columnId hst hcolumn hleft

/-- A row of one number as row key and nothing else. -/
def DenseRow.ofKey (key : BitVec 64) : DenseRow where
  rowkey := [.int key false]
  items := []
  rowkey_readable := List.forall_mem_singleton.2 rfl
  items_readable _ _ hmem := absurd hmem List.not_mem_nil
  items_inside := List.not_mem_nil

theorem getNextCell_denseRows :
    SameDelivery (fun i => [(1 : Byte), 1, 31, 31, 1, 2, 31, 31].getD i.toNat 0) 8 .denseDense
      ⟨invalidId, .null⟩ := by
  have hholds : Holds (fun i => [(1 : Byte), 1, 31, 31, 1, 2, 31, 31].getD i.toNat 0) 0
      ([.ofKey 1, .ofKey 2].flatMap (DenseRow.bytes .denseDense)) :=
    ⟨rfl, rfl, rfl, rfl, rfl, rfl, rfl, rfl, trivial⟩
  exact (getNextCell_iff (.inr rfl) hholds ⟨invalidId, .null⟩).2 (.inr ⟨rfl, .inl rfl⟩)

/-- The same two rows where cells have column ids: behind the second row key `get_next_cell` looks
for a column id. -/
theorem not_sameDelivery_twoRows :
    [.ofKey 1, .ofKey 2].flatMap (DenseRow.bytes .denseSparse) = [1, 1, 31, 31, 1, 2, 31, 31] ∧
      ¬ SameDelivery (fun i => [(1 : Byte), 1, 31, 31, 1, 2, 31, 31].getD i.toNat 0) 8
        .denseSparse ⟨invalidId, .null⟩ := by
  refine ⟨by decide, ?_⟩
  rintro ⟨outs, e, hnext, hget⟩
  have hnext' : Yields (nextAndGet (fun i => [(1 : Byte), 1, 31, 31, 1, 2, 31, 31].getD i.toNat 0) 8
      .denseSparse)
      [valueOut (.int 1 false), endOut, endOut, valueOut (.int 2 false), endOut, endOut]
      .iterEnd CellIterator.init :=
    ⟨_, rfl, _, rfl, _, rfl, _, rfl, _, rfl, _, rfl, rfl⟩
  have hget' : Yields (getNextAndLook
      (fun i => [(1 : Byte), 1, 31, 31, 1, 2, 31, 31].getD i.toNat 0) 8 .denseSparse)
      [valueOut (.int 1 false), endOut, endOut] .bufNotEnough
      (CellIterator.init, ⟨invalidId, .null⟩) :=
    ⟨_, rfl, _, rfl, _, rfl, rfl⟩
  obtain ⟨-, rfl⟩ := hnext.unique hnext'
  exact absurd (hget.unique hget').2 (by decide)

end Dense

end CompactCell

end OceanBase.Common
