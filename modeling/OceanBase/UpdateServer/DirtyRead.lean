import OceanBase.UpdateServer.RowHistory

/-!
# Reads of other sessions

The session that holds the lock of a row links its uncommitted nodes behind the list's tail when
it reads the row. What keeps other sessions from reading on is the modify time `INT64_MAX` of the
nodes; but `ObCTimeRecorder` takes a smaller time from the cells of the mutation, if it finds one.

`Clean` says where the cells of a node come from: from a committed mutation, or by compaction from
nodes that are clean. As long as the recorder finds no time, other sessions get cells of clean nodes
only.
-/

namespace OceanBase.UpdateServer

open Common Lib LinkedList List TEValue

variable {arith : Arith} {maxRowCellNum transId : Int} {rowKey : ReadParam}
    {r : TEValue × List Cell × Option Nat} {n : CellInfoNode} {cells : List WriteCell} {o : Obj}
    {id : Nat} {buf : List Cell} {history : List Committed}

/-! ### Nodes that a read comes by -/

namespace TEValue

variable {heap : List CellInfoNode} {p : ReadParam} {c : Cell}

theorem mem_setNext {p next : Option Nat}
    (h : n ∈ setNext heap p next) : ∃ m ∈ heap, m.modifyTime = n.modifyTime ∧ m.buf = n.buf := by
  rcases p with _ | a
  · exact ⟨n, h, rfl, rfl⟩
  obtain ⟨b, hb⟩ := mem_iff_getElem?.1 h
  rw [setNext, getElem?_modify, Option.map_eq_map] at hb
  obtain ⟨m, hm, rfl⟩ := Option.map_eq_some_iff.1 hb
  refine ⟨m, mem_iff_getElem?.2 ⟨b, hm⟩, ?_⟩
  split <;> exact ⟨rfl, rfl⟩

/-- A node that the scan of another session gets cells of has a time that the session may see. -/
theorem mem_scan {fuel : Nat} {ptr : Option Nat} {r : List Cell × Option Nat}
    (h : scan p (transEnd transId false) heap fuel ptr = some r) (hc : c ∈ r.1) :
    ∃ n ∈ heap, n.modifyTime ≤ transId ∧ c ∈ n.cells p := by
  induction fuel generalizing ptr r with
  | zero =>
    rcases ptr with _ | a
    · cases h
      cases hc
    · cases h
  | succ fuel ih =>
    rcases ptr with _ | a
    · cases h
      cases hc
    rw [scan] at h
    split at h
    · cases h
    · next n hn =>
      have hmem : n ∈ heap := mem_of_getElem? hn
      dsimp only at h
      split at h
      · cases h
        refine ⟨n, hmem, ?_, (takeWhile_sublist _).mem hc⟩
        by_contra hlt
        -- the node's own time comes first, and ends the scan
        have hend : transEnd transId false (.value .modifyTime (.modifyTime n.modifyTime)) :=
          decide_eq_true (Int.not_le.1 hlt)
        rw [CellInfoNode.cells, flatMap_cons, ReadParam.expand, cons_append,
          takeWhile_cons_of_neg (by rw [hend]; simp)] at hc
        cases hc
      · next hany =>
        obtain ⟨r', hr', rfl⟩ := Option.map_eq_some_iff.1 h
        rcases mem_append.1 hc with hc | hc
        · refine ⟨n, hmem, ?_, hc⟩
          rw [Bool.not_eq_true, any_eq_false] at hany
          have hhead := hany (.value .modifyTime (.modifyTime n.modifyTime)) mem_cons_self
          simpa [transEnd, Cell.modifyTime?] using hhead
        · exact ih hr' hc

theorem mem_read {v : TEValue} {s : ReadSession} (hun : v.readUncommitted s = false)
    (h : v.read s p = some r) (hc : c ∈ r.2.1) :
    c = .rowDoesNotExist ∨ ∃ n ∈ v.heap, n.modifyTime ≤ s.transId ∧ c ∈ n.cells p := by
  rw [read, getListHead_of_not_readUncommitted hun, hun] at h
  dsimp only at h
  split at h
  · cases h
    exact .inl (mem_singleton.1 hc)
  split at h
  · cases h
    exact .inl (mem_singleton.1 hc)
  · obtain ⟨r', hr', rfl⟩ := Option.map_eq_some_iff.1 h
    exact .inr (mem_scan hr' (mem_filter.1 hc).1)

end TEValue

/-! ### Clean nodes -/

/-- The cells of a node that stem from committed mutations. -/
inductive Clean (arith : Arith) (history : List Committed) : List Cell → Prop
  | mutation (snapshot : Int) {c : Committed} (hc : c ∈ history) :
    Clean arith history (written snapshot c.cells).cells
  | merged {sources : List CellInfoNode} {raw cells : List Cell}
    (hsources : ∀ n ∈ sources, Clean arith history n.buf)
    (hraw : ∀ c ∈ raw, c = .rowDoesNotExist ∨ ∃ n ∈ sources, c ∈ n.cells .all)
    (hcells : CompactRow.compact arith raw = .ok cells) : Clean arith history cells

/-- A cell that a session may be given: the mark of a row that does not exist, or a cell of a clean
node of the row. -/
def CleanCell (arith : Arith) (s : RowState) (p : ReadParam) (c : Cell) : Prop :=
  c = .rowDoesNotExist ∨ ∃ n ∈ s.value.heap, Clean arith s.history n.buf ∧ c ∈ n.cells p

/-- The mutation brings no time: `ObCTimeRecorder` is at `INT64_MAX` behind it. -/
def Untimed (snapshot : Int) (cells : List WriteCell) : Prop :=
  (written snapshot cells).ctime = int64Max ∧ snapshot < int64Max

/-- The invariant of a row whose mutations bring no times. -/
def CleanRow (arith : Arith) : RowPred := fun snapshot history pend v uc =>
  Own snapshot v uc pend ∧ snapshot < int64Max ∧
    ∀ n ∈ v.heap, n.modifyTime = int64Max ∨ Clean arith history n.buf

theorem Clean.mono {history' : List Committed}
    (h : Clean arith history buf) (hsub : ∀ c ∈ history, c ∈ history') :
    Clean arith history' buf := by
  induction h with
  | mutation snapshot hc => exact .mutation snapshot (hsub _ hc)
  | merged _ hraw hcells ih => exact .merged ih hraw hcells

/-! ### Columns of clean nodes -/

theorem mem_of_mem_build {deleted : Bool}
    (h : .value (.data id) o ∈ build transId deleted cells) : .value (.data id) o ∈ cells := by
  have hmtime : ∀ b : Bool, .value (.data id) o ∉
      (if b ∧ transId ≠ 0 then [ReadParam.mtime transId] else []) := by
    intro b hmem
    split at hmem
    · cases mem_singleton.1 hmem
    · cases hmem
  induction cells generalizing deleted with
  | nil => cases h
  | cons c cells ih =>
    cases c with
    | nop => exact mem_cons_of_mem _ (ih h)
    | delRow =>
      rcases mem_append.1 h with h | h
      · exact absurd h (hmtime _)
      rcases mem_cons.1 h with h | h
      · cases h
      · exact mem_cons_of_mem _ (ih h)
    | value column obj =>
      rcases mem_append.1 h with h | h
      · exact absurd h (hmtime _)
      rcases mem_cons.1 h with h | h
      · cases h
        exact mem_cons_self
      · exact mem_cons_of_mem _ (ih h)

/-- What is read of a node besides its buffer are times. -/
theorem mem_buf_of_mem_cells
    (h : .value (.data id) o ∈ n.cells .all) : .value (.data id) o ∈ n.buf := by
  obtain ⟨c, hc, hmem⟩ := mem_flatMap.1 h
  rcases mem_cons.1 hmem with heq | hmem
  · rcases mem_cons.1 hc with rfl | hc
    · cases heq
    · exact heq ▸ hc
  split at hmem
  · rcases mem_cons.1 hmem with heq | hmem
    · cases heq
    · cases hmem
  · cases hmem

/-- The columns of a clean node have been written by committed mutations. -/
theorem Clean.exists_value_mem (h : Clean arith history buf) (hmem : .value (.data id) o ∈ buf) :
    ∃ c ∈ history, ∃ o, .value (.data id) o ∈ c.cells := by
  induction h generalizing o with
  | mutation snapshot hc =>
    rw [written, cells_foldl_add] at hmem
    exact ⟨_, hc, o, mem_of_mem_build hmem⟩
  | merged _ hraw hcells ih =>
    obtain ⟨o', ho'⟩ := CompactRow.exists_mem_of_compact hcells hmem
    rcases hraw _ ho' with heq | ⟨n, hn, hmem⟩
    · cases heq
    · exact ih n hn (mem_buf_of_mem_cells hmem)

/-! ### Rows without times -/

variable {history : List Committed}

section Nodes

variable {heap heap' : List CellInfoNode}

theorem clean_setNext
    (h : ∀ n ∈ heap, n.modifyTime = int64Max ∨ Clean arith history n.buf) (p next : Option Nat) :
    ∀ n ∈ setNext heap p next, n.modifyTime = int64Max ∨ Clean arith history n.buf := by
  intro n hn
  obtain ⟨m, hm, htime, hbuf⟩ := mem_setNext hn
  rw [← htime, ← hbuf]
  exact h m hm

theorem clean_push (h : ∀ n ∈ heap, n.modifyTime = int64Max ∨ Clean arith history n.buf)
    (hn : n.modifyTime = int64Max ∨ Clean arith history n.buf) :
    ∀ m ∈ heap ++ [n], m.modifyTime = int64Max ∨ Clean arith history m.buf :=
  forall_mem_append.2 ⟨h, forall_mem_singleton.2 hn⟩

end Nodes

namespace CleanRow

variable {snapshot : Int} {pend : List (List WriteCell)} {v : TEValue} {uc : List Nat}

section

variable (h : CleanRow arith snapshot history pend v uc)
include h

theorem mem_read {s : ReadSession} {p : ReadParam} (htransId : s.transId < int64Max)
    (hun : v.readUncommitted s = false) (hr : v.read s p = some r) {c : Cell} (hc : c ∈ r.2.1) :
    c = .rowDoesNotExist ∨ ∃ n ∈ v.heap, Clean arith history n.buf ∧ c ∈ n.cells p := by
  refine (TEValue.mem_read hun hr hc).imp id fun ⟨n, hn, htime, hcn⟩ => ⟨n, hn, ?_, hcn⟩
  exact (h.2.2 n hn).resolve_left fun hmax => by omega

theorem merge {r : TEValue × Ret}
    (hr : v.merge arith snapshot = some r) : CleanRow arith snapshot history pend r.1 uc := by
  refine ⟨h.1.merge hr, h.2.1, ?_⟩
  rcases merge_cases hr with heq | ⟨-, raw, rest, cells, mtime, hread, hcompact, -, -, -, hv'⟩
  · rw [heq]
    exact h.2.2
  obtain ⟨cnt, size, heq⟩ := replaceHead_eq_some hv'
  rw [heq]
  classical
  have hsources : ∀ n ∈ v.heap.filter (fun n => decide (Clean arith history n.buf)),
      Clean arith history n.buf := fun n hn => of_decide_eq_true (mem_filter.1 hn).2
  refine clean_push h.2.2 (.inr (.merged hsources ?_ hcompact))
  intro c hc
  have hmem := h.mem_read h.2.1 (v.readUncommitted_none snapshot) hread hc
  refine hmem.imp id fun ⟨n, hn, hclean, hcn⟩ => ⟨n, ?_, hcn⟩
  exact mem_filter.2 ⟨hn, decide_eq_true hclean⟩

theorem stmtCallback_true {n : Nat} (hmarks : Marks v uc n) :
    CleanRow arith snapshot history (pend.take n) (v.stmtCallback true) (uc.take n) := by
  refine ⟨h.1.stmtCallback_true hmarks.marked hmarks.unmarked, h.2.1, ?_⟩
  rcases v.stmtCallback_true_cases with ⟨-, heq⟩ | ⟨_, _, -, heq, -, -, -⟩
  · rw [heq]
    exact h.2.2
  · rw [heq]
    exact clean_setNext h.2.2 _ _

theorem sessionCallback_true :
    CleanRow arith snapshot history [] (v.sessionCallback true 0) [] := by
  refine ⟨h.1.sessionCallback true 0, h.2.1, ?_⟩
  rcases huci : v.curUcInfo with _ | uci
  · rw [TEValue.sessionCallback_of_none huci]
    exact h.2.2
  · rw [TEValue.sessionCallback_true huci]
    exact clean_setNext h.2.2 _ _

theorem sessionCallback_false (transId : Int) :
    CleanRow arith snapshot (history ++ pend.map (Committed.mk transId)) []
      (v.sessionCallback false transId) [] := by
  refine ⟨h.1.sessionCallback false transId, h.2.1, ?_⟩
  have hold : ∀ n ∈ v.heap, n.modifyTime = int64Max ∨
      Clean arith (history ++ pend.map (Committed.mk transId)) n.buf := fun n hn =>
    (h.2.2 n hn).imp id fun hclean => hclean.mono fun c hc => mem_append_left _ hc
  rcases huci : v.curUcInfo with _ | uci
  · rwa [TEValue.sessionCallback_of_none huci]
  obtain ⟨cnt, size, heq⟩ := TEValue.sessionCallback_false huci transId
  rw [heq]
  refine clean_setNext (fun n hn => ?_) _ _
  obtain ⟨a, ha⟩ := mem_iff_getElem?.1 hn
  rw [h.1.tail, TEValue.getElem?_stamp h.1.seg h.1.nodup (h.1.seg.length_le h.1.nodup)] at ha
  split at ha
  · next hmem =>
    obtain ⟨m, hm, rfl⟩ := Option.map_eq_some_iff.1 ha
    obtain ⟨cells, hcells, next, hnode⟩ := h.1.exists_nodeAt hmem
    have hbuf : (TEValue.retime transId m).buf = (written snapshot cells).cells := by
      obtain rfl := Option.some.inj (hm.symm.trans hnode)
      rw [TEValue.retime]
      split <;> rfl
    rw [hbuf]
    refine .inr (.mutation snapshot (c := ⟨transId, cells⟩) (mem_append_right _ ?_))
    exact mem_map_of_mem hcells
  · exact hold n (mem_of_getElem? ha)

end

theorem rule (arith : Arith) : RowRule arith Untimed (fun _ => True) (CleanRow arith) where
  own h := h.1
  congr h hheap _ htail _ hucHead hucTail :=
    ⟨h.1.congr hheap htail hucHead hucTail, h.2.1, hheap ▸ h.2.2⟩
  linkOwn h := ⟨h.1.linkOwn, h.2.1, clean_setNext h.2.2 _ _⟩
  merge h hr := h.merge hr
  copyCells h hok huci :=
    ⟨h.1.copyCells huci _, h.2.1, clean_setNext (clean_push h.2.2 (.inl hok.1)) _ _⟩
  rollbackStmt h _ hmarks := h.stmtCallback_true hmarks
  rollbackAll h _ hmarks := (h.stmtCallback_true hmarks).sessionCallback_true
  rollback h := h.sessionCallback_true
  commit h _ _ _ _ := h.sessionCallback_false _
  snapshot h hok := ⟨⟨h.1.seg, h.1.tail, h.1.nodup, h.1.listTail, .nil⟩, hok.2, h.2.2⟩

theorem empty (arith : Arith) : CleanRow arith 0 [] [] empty [] :=
  ⟨.of_curUcInfo_eq_none rfl (fun _ ha => nomatch ha), by decide, fun _ hn => nomatch hn⟩

end CleanRow

namespace RowState

section Run

variable (arith maxRowCellNum rowKey)

/-- **No dirty reads**: in a history whose mutations bring no times, a session that does not hold
the lock gets cells of committed mutations only, whatever is linked behind the list's tail. -/
theorem cleanCell_of_run {s : RowState} {as : List RowAction}
    (hok : Meets (step arith maxRowCellNum rowKey) (RowRule.StepOk Untimed fun _ => True) init as)
    (hrun : run (step arith maxRowCellNum rowKey) init as = some s) {rs : ReadSession} {d : Nat}
    (hd : rs.descriptor = some d) (hlock : s.value.rowLock ≠ some d)
    (htransId : rs.transId < int64Max) {p : ReadParam} {r : TEValue × List Cell × Option Nat}
    (hr : s.value.read rs p = some r) {c : Cell} (hc : c ∈ r.2.1) :
    CleanCell arith s p c := by
  obtain ⟨uc, hinv, -⟩ := ((CleanRow.rule arith).holds_of_run (CleanRow.empty arith) hok hrun).row
  have hun : s.value.readUncommitted rs = false := by
    rw [readUncommitted, hd]
    simpa using hlock
  exact hinv.mem_read htransId hun hr hc

end Run

theorem untimed_of_plainWrite {snapshot : Int}
    (h : PlainWrite snapshot cells) : Untimed snapshot cells :=
  ⟨(written_of_plain snapshot h.1).1, h.2⟩

theorem stepOk_untimed_of_plainStep {s : RowState} {a : RowAction} (h : PlainStep s a) :
    RowRule.StepOk Untimed (fun _ => True) s a := by
  cases a with
  | write sd snapshot cells => exact untimed_of_plainWrite h
  | _ => trivial

theorem cleanCell_of_run_compactedRow : ∃ s r,
    run (step intArith 10 .all) init compactedRow = some s ∧
      s.value.read ⟨.readWrite, 6, some 9⟩ .all = some r ∧
      .value (.data 16) (.int 12 false) ∈ r.2.1 ∧
      CleanCell intArith s .all (.value (.data 16) (.int 12 false)) := by
  have h : ((run (step intArith 10 .all) init compactedRow).bind fun s =>
      (s.value.read ⟨.readWrite, 6, some 9⟩ .all).map fun r =>
        decide (s.value.rowLock ≠ some 9 ∧ .value (.data 16) (.int 12 false) ∈ r.2.1)) =
        some true := by
    decide +kernel
  obtain ⟨s, hs, h⟩ := Option.bind_eq_some_iff.1 h
  obtain ⟨r, hr, h⟩ := Option.map_eq_some_iff.1 h
  obtain ⟨hlock, hmem⟩ := of_decide_eq_true h
  have hok : Meets (step intArith 10 .all) (RowRule.StepOk Untimed fun _ => True) init
      compactedRow := by
    refine meets_of_forall (fun a ha s => ?_) init
    exact stepOk_untimed_of_plainStep (plainStep_compactedRow ha s)
  exact ⟨s, r, hs, hr, hmem, cleanCell_of_run intArith 10 .all hok hs rfl hlock (by decide) hr hmem⟩

/-- A session writes a modify time of its own and another column, and reads the row. -/
def timedRow : List RowAction :=
  [.write 1 0 [.value (.data 16) (.int 5 false)], .commit 1 3,
    .write 2 3 [.value .modifyTime (.modifyTime 2), .value (.data 17) (.int 9 false)],
    .ownRead 2 .all]

/-- The node of a mutation with a time is open to other sessions before the mutation is
committed. -/
theorem not_cleanCell_timedRow : ∃ s r,
    run (step intArith 10 .all) init timedRow = some s ∧ s.value.rowLock = some 2 ∧
      s.value.read ⟨.readOnly, 4, some 9⟩ .all = some r ∧
      .value (.data 17) (.int 9 false) ∈ r.2.1 ∧
      ¬ CleanCell intArith s .all (.value (.data 17) (.int 9 false)) := by
  have h : ((run (step intArith 10 .all) init timedRow).bind fun s =>
      (s.value.read ⟨.readOnly, 4, some 9⟩ .all).map fun r =>
        decide (s.value.rowLock = some 2 ∧ .value (.data 17) (.int 9 false) ∈ r.2.1 ∧
          s.history = [⟨3, [.value (.data 16) (.int 5 false)]⟩])) = some true := by
    decide +kernel
  obtain ⟨s, hs, h⟩ := Option.bind_eq_some_iff.1 h
  obtain ⟨r, hr, h⟩ := Option.map_eq_some_iff.1 h
  obtain ⟨hlock, hmem, hhistory⟩ := of_decide_eq_true h
  refine ⟨s, r, hs, hlock, hr, hmem, ?_⟩
  rintro (heq | ⟨n, -, hclean, hcn⟩)
  · cases heq
  -- no committed mutation writes the column
  obtain ⟨c, hc, o, ho⟩ := hclean.exists_value_mem (mem_buf_of_mem_cells hcn)
  rw [hhistory, mem_singleton] at hc
  rw [hc, mem_singleton] at ho
  cases ho

end RowState

end OceanBase.UpdateServer
