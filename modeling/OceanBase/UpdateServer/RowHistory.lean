import OceanBase.UpdateServer.RowRead
import OceanBase.UpdateServer.RowRule

/-!
# Snapshot reads over the history of a row

Every call that touches a row keeps its invariant, as long as the mutations are plain and the trans
ids are below `INT64_MAX`, which marks nodes that are not committed. So a read-only session gets the
fold of the mutations committed up to its snapshot whatever has happened to the row before.
-/

namespace OceanBase.UpdateServer

open Common Lib LinkedList List ReadParam

variable {arith : Arith} {maxRowCellNum : Int} {rowKey : ReadParam}

/-! ### Own reads come to an end -/

theorem isSome_read_of_seg {v u : TEValue} {s : ReadSession} {head : Option Nat}
    (hget : v.getListHead s = (u, head)) {as : List Nat}
    (hseg : Seg CellInfoNode.next u.heap head as none) (hnodup : as.Nodup) (p : ReadParam) :
    (v.read s p).isSome := by
  have hlength := hseg.length_le hnodup
  rw [TEValue.read, hget]
  dsimp only
  split
  · rfl
  split
  · rfl
  · rw [Option.isSome_map]
    exact isSome_scan hseg (by omega)

namespace RowInv

variable {snapshot : Int} {history : List Committed} {pend : List (List WriteCell)}
  {v : TEValue} {uc live : List Nat} {q : Option Nat}

theorem seg_listHead (h : RowInv arith snapshot history pend v uc live q) :
    ∃ as, Seg CellInfoNode.next v.heap v.listHead as none ∧ as.Nodup := by
  obtain ⟨as, has, hnodup⟩ := h.path
  exact ⟨live ++ as, seg_append.2 ⟨q, h.shape.seg, has⟩, hnodup⟩

theorem isSome_read (h : RowInv arith snapshot history pend v uc live q) (transId : Int)
    (d : Option Nat) (p : ReadParam) : (v.read ⟨.readWrite, transId, d⟩ p).isSome := by
  obtain ⟨as, has, hnodup⟩ := h.seg_listHead
  obtain ⟨q', h'⟩ := h.linkOwn
  obtain ⟨bs, hbs, hnodup'⟩ := h'.seg_listHead
  rcases v.getListHead_cases ⟨.readWrite, transId, d⟩ with ⟨hv, hhead | hhead⟩ | hget
  · exact isSome_read_of_seg (Prod.ext hv hhead) has hnodup p
  · exact isSome_read_of_seg (Prod.ext hv hhead) h.own.seg h.own.nodup p
  · exact isSome_read_of_seg hget hbs hnodup' p

end RowInv

/-! ### Runs -/

/-- The writes of a plain history. -/
def PlainWrite (snapshot : Int) (cells : List WriteCell) : Prop :=
  Plain false cells ∧ snapshot < int64Max

/-- The invariant of a row in a plain history. -/
def PlainRow (arith : Arith) : RowPred := fun snapshot history pend v uc =>
  ∃ live q, RowInv arith snapshot history pend v uc live q

theorem plainRow_rule (arith : Arith) :
    RowRule arith PlainWrite (· < int64Max) (PlainRow arith) where
  own := fun ⟨_, _, h⟩ => h.own
  congr := fun ⟨live, q, h⟩ hheap hhead htail hundo hucHead hucTail =>
    ⟨live, q, h.congr hheap hhead htail hundo hucHead hucTail⟩
  linkOwn := fun ⟨live, _, h⟩ => ⟨live, h.linkOwn⟩
  merge := by
    rintro _ _ _ _ _ r ⟨live, q, h⟩ hr
    obtain ⟨r', hr', hcases⟩ := h.merge h.snapshot_lt
    obtain rfl := Option.some.inj (hr.symm.trans hr')
    rcases hcases with heq | ⟨-, _, _, _, _, _, _, _, -, -, -, -, -, hinv'⟩
    · rw [heq]
      exact ⟨live, q, h⟩
    · exact ⟨_, _, hinv'⟩
  copyCells := fun ⟨live, q, h⟩ hok huci => ⟨live, q, h.copyCells huci hok.1⟩
  rollbackStmt := fun ⟨live, q, h⟩ hn hmarks =>
    ⟨live, q, h.stmtCallback_true hn hmarks.marked hmarks.unmarked⟩
  rollbackAll := fun ⟨live, _, h⟩ huci hmarks =>
    ⟨live, none, h.rollbackStmt_prepared (Option.ne_none_iff_exists'.1 huci) hmarks.marked
      fun hbefore => eq_nil_of_length_eq_zero (Nat.le_zero.1 (hmarks.unmarked hbefore))⟩
  rollback := fun ⟨live, _, h⟩ => ⟨live, none, h.sessionCallback_true 0⟩
  commit := fun ⟨_, _, h⟩ hpos hlt hlast hmax =>
    ⟨_, none, h.sessionCallback_false hpos hlt hmax hlast⟩
  snapshot := fun ⟨live, q, h⟩ hok => ⟨live, q, h.of_snapshot hok.2⟩

theorem plainRow_empty (arith : Arith) : PlainRow arith 0 [] [] TEValue.empty [] := by
  refine ⟨[], none, ⟨.nil, ?_, ?_, ?_⟩, ?_, by decide, ⟨rfl, rfl, .nil, ?_, .nil⟩,
    ⟨rfl, rfl, .nil, ?_⟩, .inl rfl, .nil rfl rfl⟩
  all_goals exact fun _ h => nomatch h

namespace RowState

/-- The mutations are plain, and trans ids are below the mark of uncommitted nodes. -/
abbrev PlainStep : RowState → RowAction → Prop := RowRule.StepOk PlainWrite (· < int64Max)

section Run

variable (arith maxRowCellNum rowKey) {s : RowState}

theorem inv_of_run {as : List RowAction}
    (hplain : Meets (step arith maxRowCellNum rowKey) PlainStep init as)
    (hrun : run (step arith maxRowCellNum rowKey) init as = some s) :
    ∃ uc live q,
      RowInv arith s.snapshot s.history (s.statements ++ s.current) s.value uc live q := by
  have h := (plainRow_rule arith).holds_of_run (plainRow_empty arith) hplain hrun
  obtain ⟨uc, ⟨live, q, hinv⟩, -⟩ := h.row
  exact ⟨uc, live, q, hinv⟩

/-- A call that can be made in a plain history comes to an end. -/
theorem isSome_exec (h : RowRule.Holds (PlainRow arith) s) {a : RowAction}
    (hplain : PlainStep s a) (henabled : s.Enabled a) :
    (exec arith maxRowCellNum rowKey s a).isSome := by
  obtain ⟨uc, ⟨live, q, hinv⟩, hmarks⟩ := h.row
  cases a with
  | write sd snapshot cells =>
    obtain ⟨uc', ⟨live', q', hinv'⟩, hmarks'⟩ :=
      (plainRow_rule arith).row_of_lock h hplain henabled.2
    rw [exec, RowState.write, Option.isSome_map]
    have hread : ∀ {v pend n}, RowRule.Writing (PlainRow arith) sd snapshot s.history n pend v →
        (v.read ⟨.readWrite, snapshot, some sd⟩ rowKey).isSome := by
      rintro v pend n ⟨-, -, uc, ⟨live, q, hv⟩, -⟩
      exact hv.isSome_read snapshot (some sd) rowKey
    have hmerge : ∀ v, RowRule.Writing (PlainRow arith) sd snapshot s.history s.statements.length
        (s.statements ++ s.current) v → (v.merge arith snapshot).isSome := by
      rintro v ⟨-, -, uc, ⟨live, q, hv⟩, -⟩
      obtain ⟨r, hr, -⟩ := hv.merge hv.snapshot_lt
      exact Option.isSome_iff_exists.2 ⟨r, hr⟩
    refine TEValue.isSome_set (plainRow_rule arith).keptByCells hmerge
      (fun v hv => hv.elim hread hread) (henabled.2.imp_right And.left)
      ((plainRow_rule arith).writing_begin ⟨live', q', hinv'⟩ hmarks' sd) fun v uci hv huci =>
        (plainRow_rule arith).writing_copyCells hv ?_ huci hplain
    rw [length_append]
    exact Nat.le_add_right _ _
  | ownRead sd p =>
    rw [exec, Option.isSome_map]
    exact hinv.isSome_read s.snapshot (some sd) p
  | merge sd =>
    obtain ⟨r, hr, -⟩ := hinv.merge hinv.snapshot_lt
    rw [exec, hr]
    rfl
  | commitStmt sd | rollbackStmt sd | commit sd transId | rollback sd => rfl

/-- **No call gets stuck**: in a plain history a call can be carried out exactly if its session may
make it. Its reads and compactions meet neither a dangling link nor a loop. -/
theorem isSome_step_iff_of_run {as : List RowAction}
    (hplain : Meets (step arith maxRowCellNum rowKey) PlainStep init as)
    (hrun : run (step arith maxRowCellNum rowKey) init as = some s) {a : RowAction}
    (ha : PlainStep s a) : (step arith maxRowCellNum rowKey s a).isSome ↔ s.Enabled a := by
  have hs := (plainRow_rule arith).holds_of_run (plainRow_empty arith) hplain hrun
  rw [step]
  split_ifs with henabled
  · exact iff_of_true (isSome_exec arith maxRowCellNum rowKey hs ha henabled) henabled
  · exact iff_of_false Bool.false_ne_true henabled

/-- **Snapshot reads**: whatever plain history a row has, a read-only session that does not hold its
lock reads the fold of the mutations committed up to its snapshot, and leaves the row as it is. -/
theorem readOnly_of_run {s : RowState} {as : List RowAction}
    (hplain : Meets (step arith maxRowCellNum rowKey) PlainStep init as)
    (hrun : run (step arith maxRowCellNum rowKey) init as = some s) {transId : Int}
    (htransId : transId < int64Max) {d : Nat} (hd : s.value.rowLock ≠ some d) (p : ReadParam) :
    s.value.readCompact arith ⟨.readOnly, transId, some d⟩ p =
      some (s.value, specRead arith p transId s.history) := by
  obtain ⟨uc, live, q, hinv⟩ := inv_of_run arith maxRowCellNum rowKey hplain hrun
  refine hinv.readCompact_readOnly htransId ?_ p
  rw [TEValue.readUncommitted]
  simpa using hd

end Run

def intArith : Arith := ⟨fun _ b => b, fun _ b => b, fun _ b => .ok b⟩

/-- Two sessions commit, and a third one writes, compacts the row and reads it. -/
def compactedRow : List RowAction :=
  [.write 1 0 [.value (.data 16) (.int 5 false)], .commit 1 3,
    .write 2 3 [.value (.data 16) (.int 7 true)], .commit 2 6,
    .write 3 6 [.value (.data 16) (.int 1 false)], .merge 3, .ownRead 3 .all]

theorem plainStep_compactedRow {a : RowAction} (ha : a ∈ compactedRow) (s : RowState) :
    PlainStep s a := by
  simp only [compactedRow, mem_cons, not_mem_nil, or_false] at ha
  rcases ha with rfl | rfl | rfl | rfl | rfl | rfl | rfl
  · exact ⟨⟨rfl, ⟨16, rfl⟩, rfl, trivial⟩, by decide⟩
  · exact (by decide : (3 : Int) < int64Max)
  · exact ⟨⟨rfl, ⟨16, rfl⟩, rfl, trivial⟩, by decide⟩
  · exact (by decide : (6 : Int) < int64Max)
  · exact ⟨⟨rfl, ⟨16, rfl⟩, rfl, trivial⟩, by decide⟩
  all_goals trivial

theorem run_compactedRow : (run (step intArith 10 .all) init compactedRow).map
    (fun s => (s.history, s.value.rowLock)) =
      some ([⟨3, [.value (.data 16) (.int 5 false)]⟩, ⟨6, [.value (.data 16) (.int 7 true)]⟩],
        some 3) := by
  decide +kernel

theorem readOnly_of_run_compactedRow : ∃ s,
    run (step intArith 10 .all) init compactedRow = some s ∧
      s.value.readCompact intArith ⟨.readOnly, 4, some 9⟩ .all = some (s.value,
        .ok [.value .modifyTime (.modifyTime 3), .value .createTime (.createTime 3),
          .value (.data 16) (.int 5 false)]) := by
  obtain ⟨s, hs, heq⟩ := Option.map_eq_some_iff.1 run_compactedRow
  obtain ⟨hhistory, hlock⟩ := Prod.mk.inj heq
  refine ⟨s, hs, (readOnly_of_run intArith 10 .all
    (meets_of_forall (fun _ ha s => plainStep_compactedRow ha s) init) hs (by decide)
    (by rw [hlock]; decide) .all).trans ?_⟩
  rw [hhistory]
  rfl

theorem isSome_step_iff_of_run_compactedRow : ∃ s,
    run (step intArith 10 .all) init compactedRow = some s ∧
      (step intArith 10 .all s (.merge 3)).isSome := by
  obtain ⟨s, hs, heq⟩ := Option.map_eq_some_iff.1 run_compactedRow
  have hplain : Meets (step intArith 10 .all) PlainStep init compactedRow :=
    meets_of_forall (fun _ ha s => plainStep_compactedRow ha s) init
  exact ⟨s, hs, (isSome_step_iff_of_run intArith 10 .all hplain hs (a := .merge 3) trivial).2
    (Prod.mk.inj heq).2⟩

/-- `INT64_MAX` is no snapshot: the session that has it would read uncommitted nodes. -/
theorem readOnly_int64Max : ∃ s,
    Meets (step intArith 10 .all) PlainStep init compactedRow ∧
      run (step intArith 10 .all) init compactedRow = some s ∧ s.value.rowLock ≠ some 9 ∧
      s.value.readCompact intArith ⟨.readOnly, int64Max, some 9⟩ .all ≠
        some (s.value, specRead intArith .all int64Max s.history) := by
  have h : (run (step intArith 10 .all) init compactedRow).map (fun s =>
      decide (s.value.rowLock ≠ some 9 ∧
        s.value.readCompact intArith ⟨.readOnly, int64Max, some 9⟩ .all ≠
          some (s.value, specRead intArith .all int64Max s.history))) = some true := by
    decide +kernel
  obtain ⟨s, hs, heq⟩ := Option.map_eq_some_iff.1 h
  obtain ⟨hlock, hread⟩ := of_decide_eq_true heq
  exact ⟨s, meets_of_forall (fun _ ha s => plainStep_compactedRow ha s) init, hs, hlock, hread⟩

end RowState

/-! ### Read-write sessions -/

namespace TEValue

variable {v : TEValue} {transId : Int} {p : ReadParam}

theorem findUndo_eq (undoList : List (Option Nat)) :
    v.findUndo transId undoList =
      (undoList.find? fun head => (v.node? head).any (·.modifyTime ≤ transId)).join := by
  induction undoList with
  | nil => rfl
  | cons head undoList ih =>
    rw [findUndo, List.find?_cons]
    rcases hnode : v.node? head with _ | n
    · exact ih
    · by_cases hle : n.modifyTime ≤ transId <;> simp [hle, ih]

/-- From a node that it may see, a reader gets the node's time and what goes with it. -/
theorem mem_scan_head {heap : List CellInfoNode} {a fuel : Nat} {n : CellInfoNode}
    {r : List Cell × Option Nat} (hn : heap[a]? = some n) (hle : n.modifyTime ≤ transId)
    (h : scan p (transEnd transId false) heap (fuel + 1) (some a) = some r) {c : Cell}
    (hc : c ∈ p.expand (mtime n.modifyTime)) : c ∈ r.1 := by
  have htimes : TimesLe transId [mtime n.modifyTime] := by
    intro c hc t ht
    obtain rfl := mem_singleton.1 hc
    cases ht
    exact hle
  have hgo := any_transEnd_eq_false (p := p) htimes
  rw [flatMap_singleton, any_eq_false] at hgo
  have hcells : n.cells p = p.expand (mtime n.modifyTime) ++ n.buf.flatMap p.expand := rfl
  rw [scan, hn] at h
  simp only [hcells] at h
  split at h
  · cases h
    rw [takeWhile_append_of_pos (by simpa using hgo)]
    exact mem_append_left _ hc
  · obtain ⟨r', -, rfl⟩ := Option.map_eq_some_iff.1 h
    exact mem_append_left _ (mem_append_left _ hc)

/-- Of a node that it may see, a reader gets a cell other than the mark of a row that does not
exist. -/
theorem exists_mem_expand (p : ReadParam) (t : Int) :
    ∃ c ∈ p.expand (mtime t), p.columnExist c = true ∧ c ≠ .rowDoesNotExist := by
  rcases hfilter : p.columnFilter with _ | exist
  · refine ⟨mtime t, mem_cons_self, ?_, by simp [mtime]⟩
    simp [columnExist, mtime, hfilter]
  · refine ⟨.nop, ?_, rfl, by simp⟩
    simp [expand, mtime, Cell.modifyTime?, extList, hfilter]

end TEValue

namespace RowState

open TEValue

/-- **Reads of a read-write session** that does not hold the lock: they give the cells that a
read-only session with the same snapshot reads exactly if, whenever the list starts behind the
snapshot, all lists on the undo list do. The read-write session does not look the undo list up. -/
theorem read_readWrite_iff (v : TEValue) (transId : Int) {d d' : Nat} (hd : v.rowLock ≠ some d)
    (hd' : v.rowLock ≠ some d') (p : ReadParam) :
    (v.read ⟨.readWrite, transId, some d⟩ p).map (·.2.1) =
        (v.read ⟨.readOnly, transId, some d'⟩ p).map (·.2.1) ↔
      ∀ n ∈ v.node? v.listHead, transId < n.modifyTime →
        ∀ head ∈ v.undoList, ∀ m ∈ v.node? head, transId < m.modifyTime := by
  have hun : v.readUncommitted ⟨.readWrite, transId, some d⟩ = false := by
    simpa [readUncommitted] using hd
  have hun' : v.readUncommitted ⟨.readOnly, transId, some d'⟩ = false := by
    simpa [readUncommitted] using hd'
  -- without an undo node both sessions start at the list head
  have hsame (hnone : v.undoHead ⟨.readOnly, transId, some d'⟩ = none) :
      v.read ⟨.readWrite, transId, some d⟩ p = v.read ⟨.readOnly, transId, some d'⟩ p := by
    rw [read_eq hun rfl, read_eq hun' rfl, hnone]
    rfl
  rcases hnode : v.node? v.listHead with _ | n
  · simp [hsame (by simp [undoHead, hnode])]
  by_cases hlt : transId < n.modifyTime
  · have hundo : v.undoHead ⟨.readOnly, transId, some d'⟩ = v.findUndo transId v.undoList := by
      simp [undoHead, hnode, hlt]
    rw [findUndo_eq] at hundo
    simp only [Option.mem_some_iff, forall_eq', hlt, true_imp_iff]
    rcases hfind : v.undoList.find? fun head => (v.node? head).any (·.modifyTime ≤ transId) with
      _ | head
    · rw [hfind] at hundo
      refine iff_of_true (congrArg _ (hsame hundo)) fun head hmem m hm => ?_
      simpa [Option.mem_def.1 hm] using List.find?_eq_none.1 hfind head hmem
    obtain ⟨m, hm, hle⟩ : ∃ m, v.node? head = some m ∧ m.modifyTime ≤ transId := by
      simpa [Option.any_eq_true] using List.find?_some hfind
    refine iff_of_false (fun heq => ?_) fun h =>
      Int.not_le.2 (h _ (List.mem_of_find?_eq_some hfind) m hm) hle
    -- the read-write session finds no row, and the read-only one gets cells of the undo node
    obtain ⟨a, rfl, hcell⟩ := Option.bind_eq_some_iff.1 hm
    have hstart : (v.undoHead ⟨.readOnly, transId, some d'⟩).or v.listHead = some a := by
      rw [hundo, hfind, Option.join_some, Option.some_or]
    simp only [read_eq hun (rfl : _ = v.listHead), hnode, if_pos hlt, read_eq hun' hstart, hm,
      if_neg (Int.not_lt.2 hle), Option.map_map] at heq
    obtain ⟨r, hscan, hr⟩ := Option.map_eq_some_iff.1 heq.symm
    obtain ⟨c, hc, hexist, hne⟩ := exists_mem_expand p m.modifyTime
    have hmem := mem_filter.2 ⟨mem_scan_head hcell hle hscan hc, hexist⟩
    rw [show r.1.filter p.columnExist = _ from hr] at hmem
    exact hne (mem_singleton.1 hmem)
  · simp [hsame (by simp [undoHead, hnode, hlt]), hlt]

def committedRow : TEValue where
  heap := [⟨3, none, [.value (.data 16) (.int 5 false)]⟩]
  undoList := []
  cellInfoCnt := 1
  cellInfoSize := 0
  listHead := some 0
  listTail := some 0
  curUcInfo := none
  rowLock := none

theorem read_readWrite_committedRow :
    (committedRow.read ⟨.readWrite, 4, some 8⟩ .all).map (·.2.1) =
      (committedRow.read ⟨.readOnly, 4, some 9⟩ .all).map (·.2.1) :=
  (read_readWrite_iff committedRow 4 (by decide) (by decide) .all).2 fun n hn hlt => by
    cases hn
    exact absurd hlt (by decide)

/-- The row was compacted by a session later than 4. A read-only session with that snapshot reads
what was committed at 3, and a read-write session that there is no row. -/
theorem read_readWrite_compactedRow : ∃ s,
    run (step intArith 10 .all) init compactedRow = some s ∧ s.value.rowLock ≠ some 9 ∧
      (s.value.read ⟨.readWrite, 4, some 9⟩ .all).map (·.2.1) = some [.rowDoesNotExist] ∧
      (s.value.read ⟨.readOnly, 4, some 9⟩ .all).map (·.2.1) =
        some [.value .modifyTime (.modifyTime 3), .value .createTime (.createTime 3),
          .value (.data 16) (.int 5 false)] := by
  have h : (run (step intArith 10 .all) init compactedRow).map (fun s =>
      decide (s.value.rowLock ≠ some 9 ∧
        (s.value.read ⟨.readWrite, 4, some 9⟩ .all).map (·.2.1) = some [.rowDoesNotExist] ∧
        (s.value.read ⟨.readOnly, 4, some 9⟩ .all).map (·.2.1) =
          some [.value .modifyTime (.modifyTime 3), .value .createTime (.createTime 3),
            .value (.data 16) (.int 5 false)])) = some true := by
    decide +kernel
  obtain ⟨s, hs, heq⟩ := Option.map_eq_some_iff.1 h
  exact ⟨s, hs, of_decide_eq_true heq⟩

end RowState

end OceanBase.UpdateServer
