import OceanBase.UpdateServer.RowFold

/-!
# Mutations of a row

What a reader should see of a row is said in terms of its mutations: a committed mutation shows
its commit id as the modify time of the row, and then its cells (`Committed.raw`). The node that
`update_value_` makes of a mutation holds more than that when the mutation deletes the row and
then goes on; for mutations that do not write after a delete nor supply times of their own
(`Plain`) the two are read alike (`addRaw_build`).
-/

namespace OceanBase.UpdateServer

open Common Lib List ReadParam CompactCellWriter

variable {arith : Arith} {p : ReadParam}

/-- The cell of a mutation as it is read, unless it is a nop. -/
def WriteCell.toCell? : WriteCell → Option Cell
  | .nop => none
  | .delRow => some .delRow
  | .value column obj => some (.value column obj)

/-- The stored cells of a mutation. -/
def rawCells (cells : List WriteCell) : List Cell := cells.filterMap WriteCell.toCell?

/-- A mutation with the trans id it was committed under. -/
structure Committed where
  transId : Int
  cells : List WriteCell
  deriving DecidableEq, Repr

/-- The stored cells, behind the time of the commit. -/
def Committed.raw (h : Committed) : List Cell := ReadParam.mtime h.transId :: rawCells h.cells

/-- Committed mutations in their order, as they are read. -/
def rawHistory (hs : List Committed) : List Cell := hs.flatMap Committed.raw

/-- No cell is a time or belongs to a time column or to the row key, and none is written after the
row was deleted. -/
def Plain : Bool → List WriteCell → Prop
  | _, [] => True
  | deleted, .nop :: cells => Plain deleted cells
  | _, .delRow :: cells => Plain true cells
  | deleted, .value column obj :: cells =>
    deleted = false ∧ (∃ id, column = .data id) ∧ obj.isTime = false ∧ Plain deleted cells

/-! ### The node of a mutation -/

/-- The cells that `update_value_` writes for a mutation. -/
def build (transId : Int) : Bool → List WriteCell → List Cell
  | _, [] => []
  | deleted, .nop :: cells => build transId deleted cells
  | deleted, .delRow :: cells =>
    (if deleted ∧ transId ≠ 0 then [ReadParam.mtime transId] else []) ++
      .delRow :: build transId true cells
  | deleted, .value column obj :: cells =>
    (if deleted ∧ transId ≠ 0 then [ReadParam.mtime transId] else []) ++
      .value column obj :: build transId false cells

theorem cells_foldl_add (transId : Int) (cells : List WriteCell) (w : CompactCellWriter) :
    (cells.foldl (add transId) w).cells = w.cells ++ build transId w.isRowDeleted cells := by
  induction cells generalizing w with
  | nil => simp [build]
  | cons c cells ih =>
    rw [foldl_cons, ih]
    cases c with
    | nop => rfl
    | delRow | value column obj =>
      simp only [add, append_assoc]
      rfl

variable {cells : List WriteCell} {deleted : Bool} {transId t : Int} {hs : List Committed}

theorem ctime_foldl_add
    (h : Plain deleted cells) {w : CompactCellWriter} (hw : w.ctime = int64Max) :
    (cells.foldl (add transId) w).ctime = int64Max := by
  induction cells generalizing deleted w with
  | nil => exact hw
  | cons c cells ih =>
    cases c with
    | nop => exact ih h hw
    | delRow =>
      refine ih h ?_
      simp only [add, addCTime, hw]
      split <;> simp
    | value column obj =>
      obtain ⟨-, -, htime, h⟩ := h
      refine ih h ?_
      cases obj with
      | createTime | modifyTime => cases htime
      | _ =>
        simp only [add, addCTime, hw]
        split <;> simp

theorem modifyTime?_build (h : Plain deleted cells) {c : Cell}
    (hc : c ∈ build transId deleted cells) (ht : c.modifyTime? = some t) : t = transId := by
  have hmtime : ∀ b : Bool, c ∈ (if b ∧ transId ≠ 0 then [ReadParam.mtime transId] else []) →
      t = transId := by
    intro b hmem
    split at hmem
    · rw [mem_singleton.1 hmem] at ht
      cases ht
      rfl
    · cases hmem
  induction cells generalizing deleted with
  | nil => cases hc
  | cons d cells ih =>
    cases d with
    | nop => exact ih h hc
    | delRow =>
      rcases mem_append.1 hc with hc | hc
      · exact hmtime _ hc
      rcases mem_cons.1 hc with rfl | hc
      · cases ht
      · exact ih h hc
    | value column obj =>
      obtain ⟨rfl, -, htime, h⟩ := h
      rcases mem_append.1 hc with hc | hc
      · exact hmtime _ hc
      rcases mem_cons.1 hc with rfl | hc
      · rw [modifyTime?_eq_none htime] at ht
        cases ht
      · exact ih h hc

theorem addRaw_mtime_of_deleted (arith : Arith) (p : ReadParam) (t : Int) :
    ∃ r, p.addRaw arith ⟨true, false, false, []⟩ [ReadParam.mtime t] = .ok r := by
  have htame : Tame false [ReadParam.mtime t] := trivial
  have hall : ReadParam.all.addRaw arith ⟨true, false, false, []⟩ [ReadParam.mtime t] = .ok _ :=
    rfl
  have hview := addRaw_view (p := p) htame (.none true) (fun h => nomatch h) hall
  rw [view_of_list_eq_nil rfl] at hview
  exact ⟨_, hview.2⟩

theorem addRaw_build (h : Plain deleted cells) {r : CompactRow}
    (hr : deleted = true → r = ⟨true, false, false, []⟩) :
    p.addRaw arith r (build transId deleted cells) = p.addRaw arith r (rawCells cells) := by
  induction cells generalizing deleted r with
  | nil => rfl
  | cons c cells ih =>
    cases c with
    | nop => exact ih h hr
    | delRow =>
      have hrest := ih h (r := ⟨true, false, false, []⟩) (fun _ => rfl)
      rw [rawCells, filterMap_cons, WriteCell.toCell?, addRaw_delRow, build]
      split
      · next hdeleted =>
        rw [hr hdeleted.1]
        obtain ⟨r₁, hr₁⟩ := addRaw_mtime_of_deleted arith p transId
        rwa [addRaw_append, hr₁, Except.bind, addRaw_delRow]
      · exact hrest
    | value column obj =>
      obtain ⟨rfl, -, -, h⟩ := h
      rw [rawCells, filterMap_cons, WriteCell.toCell?, build, if_neg (by simp), nil_append,
        addRaw_cons, addRaw_cons _ (List.filterMap WriteCell.toCell? cells)]
      rcases hfirst : p.addRaw arith r [.value column obj] with e | r₁
      · rfl
      · exact ih h (fun h => nomatch h)

/-! ### Histories -/

theorem tame_append {raw raw' : List Cell} {timed : Bool} (h : Tame timed raw)
    (h' : ∀ timed, Tame timed raw') : Tame timed (raw ++ raw') := by
  induction raw generalizing timed with
  | nil => exact h' timed
  | cons c raw ih =>
    match timed, c, h with
    | _, .delRow, h => exact ih h
    | _, .value .modifyTime (.modifyTime _), h => exact ih h
    | true, .value .createTime (.createTime _), h => exact ih h
    | true, .value (.data _) _, h => exact ⟨h.1, ih h.2⟩

theorem tame_rawCells (h : Plain deleted cells) : Tame (!deleted) (rawCells cells) := by
  induction cells generalizing deleted with
  | nil => trivial
  | cons c cells ih =>
    cases c with
    | nop => exact ih h
    | delRow => exact ih h
    | value column obj =>
      obtain ⟨rfl, ⟨id, rfl⟩, htime, h⟩ := h
      exact ⟨htime, ih h⟩

theorem tame_rawHistory (h : ∀ c ∈ hs, Plain false c.cells)
    (timed : Bool) : Tame timed (rawHistory hs) := by
  induction hs generalizing timed with
  | nil => trivial
  | cons c hs ih =>
    have hraw : Tame timed c.raw := tame_rawCells (h c mem_cons_self)
    exact tame_append hraw (ih (forall_mem_cons.1 h).2)

variable {r r' : CompactRow} {c : Committed}

theorem timesAt_rawCells (h : Plain deleted cells)
    (hr : Timed r) (hlist : deleted = false → r.list ≠ [])
    (ht : TimesAt t r) (hcells : ReadParam.all.addRaw arith r (rawCells cells) = .ok r') :
    TimesAt t r' := by
  induction cells generalizing deleted r with
  | nil =>
    cases hcells
    exact ht
  | cons c cells ih =>
    cases c with
    | nop => exact ih h hr hlist ht hcells
    | delRow =>
      exact ih h (.none true) (fun h => nomatch h) rfl hcells
    | value column obj =>
      obtain ⟨rfl, ⟨id, rfl⟩, htime, h⟩ := h
      rw [rawCells, filterMap_cons, WriteCell.toCell?, addRaw_cons] at hcells
      obtain ⟨r₁, hr₁, hcells⟩ := except_bind_eq_ok.1 hcells
      rw [addRaw_all, flatMap_singleton,
        expand_of_modifyTime?_eq_none (modifyTime?_eq_none htime)] at hr₁
      obtain ⟨htimed₁, hne₁, htimes, -⟩ :=
        addCells_data (p := ReadParam.all) hr (hlist rfl) htime hr₁
      exact ih h htimed₁ (fun _ => hne₁) (htimes t ht) hcells

/-- A modify time that is not below the last one becomes the time of the row. -/
theorem timesAt_mtime {t' : Int} (hle : t ≤ t') (hr : Timed r) (ht : r.list ≠ [] → TimesAt t r)
    (h : ReadParam.all.addRaw arith r [ReadParam.mtime t'] = .ok r') : TimesAt t' r' := by
  cases hr with
  | none delRow =>
    cases h
    exact ⟨rfl, Int.le_refl _⟩
  | some delRow m c hdata hnodup =>
    obtain ⟨rfl, hc⟩ := ht (by simp)
    cases h
    exact ⟨Int.max_eq_right hle, Int.min_le_right _ _⟩

theorem timesAt_raw (hplain : Plain false c.cells) (hle : t ≤ c.transId)
    (hr : Timed r) (ht : r.list ≠ [] → TimesAt t r)
    (h : ReadParam.all.addRaw arith r c.raw = .ok r') : Timed r' ∧ TimesAt c.transId r' := by
  rw [Committed.raw, addRaw_cons] at h
  obtain ⟨r₁, hr₁, h⟩ := except_bind_eq_ok.1 h
  have htimes := timesAt_mtime hle hr ht hr₁
  obtain ⟨r₂, hr₂, htimed, hne, -⟩ := addCells_expand_mtime arith ReadParam.all hr c.transId
  obtain rfl := Except.ok.inj (hr₁.symm.trans hr₂)
  refine ⟨(addRaw_view (p := ReadParam.all) (tame_rawCells hplain) htimed (fun _ => hne) h).1, ?_⟩
  exact timesAt_rawCells hplain htimed (fun _ => hne) htimes h

/-- The commit ids of the history do not decrease. -/
def Sorted (hs : List Committed) : Prop := hs.Pairwise fun c d => c.transId ≤ d.transId

/-- The times of a row are those of the last mutation of its history. -/
theorem timesAt_rawHistory (hplain : ∀ d ∈ hs, Plain false d.cells)
    (hsorted : Sorted hs) (hle : ∀ d ∈ hs, t ≤ d.transId) (hr : Timed r)
    (ht : r.list ≠ [] → TimesAt t r) (h : ReadParam.all.addRaw arith r (rawHistory hs) = .ok r')
    (hlast : hs.getLast? = some c) : TimesAt c.transId r' := by
  induction hs generalizing t r with
  | nil => cases hlast
  | cons d hs ih =>
    rw [rawHistory, flatMap_cons, addRaw_append] at h
    obtain ⟨r₁, hr₁, h⟩ := except_bind_eq_ok.1 h
    obtain ⟨htimed₁, htimes₁⟩ := timesAt_raw (hplain d mem_cons_self)
      (hle d mem_cons_self) hr ht hr₁
    obtain ⟨hd, hsorted⟩ := pairwise_cons.1 hsorted
    rcases hs with _ | ⟨e, hs⟩
    · cases hlast
      cases h
      exact htimes₁
    · exact ih (forall_mem_cons.1 hplain).2 hsorted hd htimed₁
        (fun _ => htimes₁) h (by rwa [getLast?_cons_cons] at hlast)

end OceanBase.UpdateServer
