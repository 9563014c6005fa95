import OceanBase.UpdateServer.RowHistory

/-!
# The time of compacted nodes

The compacted node has to keep readers away whose snapshot is behind a mutation it contains. Its
time is the largest modify time that is left among its cells. In a plain history that is the
commit id of the last mutation it contains; but the cells that a mutation writes after it has
deleted the row stand behind the writer's snapshot instead (`build_mtime_cell_`).
-/

namespace OceanBase.UpdateServer

open Common Lib LinkedList Option TEValue Keeps

variable {arith : Arith} {maxRowCellNum : Int} {rowKey : ReadParam}

/-- The node that a read starts at, when the session may see it. -/
def TEValue.servedNode (v : TEValue) (s : ReadSession) : Option Nat :=
  (v.getListHead s).2.filter fun a =>
    match v.heap[a]? with
    | some n => v.readUncommitted s || decide (n.modifyTime ≤ s.transId)
    | none => false

variable {v : TEValue} {s : ReadSession}

theorem modifyTime_le_of_servedNode
    (hun : v.readUncommitted s = false) {a : Nat} (ha : v.servedNode s = some a) {t : Int}
    {buf : List Cell} (hnode : NodeAt v.heap a t buf) : t ≤ s.transId := by
  obtain ⟨next, hnode⟩ := hnode
  have hserved := (filter_eq_some_iff.1 ha).2
  rw [hnode] at hserved
  simpa [hun] using hserved

/-! ### Nodes keep their times -/

namespace Keeps

theorem read {p : ReadParam} {r : TEValue × List Cell × Option Nat}
    (h : v.read s p = some r) : Keeps v.heap r.1.heap := by
  rcases read_cases h with heq | heq
  · rw [heq]
    exact refl _
  · rw [heq]
    exact setNext _ _ _

variable {r : TEValue × Ret} {transId : Int}

theorem merge (h : v.merge arith transId = some r) : Keeps v.heap r.1.heap := by
  rcases merge_cases h with heq | ⟨-, _, _, _, _, -, -, -, -, -, hreplace⟩
  · rw [heq]
    exact refl _
  obtain ⟨cnt, size, heq⟩ := replaceHead_eq_some hreplace
  rw [heq]
  exact push _ _

theorem stmtCallback (v : TEValue) (rollback : Bool) :
    Keeps v.heap (v.stmtCallback rollback).heap := by
  rcases rollback with _ | _
  · rw [stmtCallback_false]
    exact refl _
  rcases v.stmtCallback_true_cases with ⟨-, heq⟩ | ⟨_, _, -, heq, -, -, -⟩
  · rw [heq]
    exact refl _
  · rw [heq]
    exact setNext _ _ _

theorem sessionCallback (v : TEValue) (rollback : Bool) (transId : Int) :
    Keeps v.heap (v.sessionCallback rollback transId).heap := by
  rcases huci : v.curUcInfo with _ | uci
  · rw [sessionCallback_of_none huci]
    exact refl _
  rcases rollback with _ | _
  · obtain ⟨cnt, size, heq⟩ := sessionCallback_false huci transId
    rw [heq]
    exact (stamp _ _ _ _ _).trans (setNext _ _ _)
  · rw [sessionCallback_true huci]
    exact setNext _ _ _

theorem rollbackStmt (v : TEValue) (prepared : Bool) :
    Keeps v.heap (v.rollbackStmt prepared).heap := by
  rcases prepared with _ | _
  · exact stmtCallback v true
  · exact (stmtCallback v true).trans (sessionCallback _ true 0)

theorem set {sd : Nat} {p : ReadParam} {cells : List WriteCell}
    (hne : cells ≠ []) (hlock : v.rowLock = none ∨ v.rowLock = some sd)
    (h : v.set arith maxRowCellNum sd transId p cells = some r) : Keeps v.heap r.1.heap := by
  have hkept : TEValue.KeptByCells arith transId fun u => Keeps v.heap u.heap :=
    ⟨fun _ _ hu _ _ _ => hu, fun _ _ hu hr => hu.trans (merge hr),
      fun _ hu => hu.trans (setNext _ _ _)⟩
  have hset := set_rule (Q := fun u => Keeps v.heap u.heap) hkept hne hlock (refl _)
    (fun _ _ hu _ => hu.trans ((push _ _).trans (setNext _ _ _)))
    (fun _ hu => hu.trans (setNext _ _ _)) h
  exact hset.elim id And.right

/-- No call changes the time or the cells of a node that has a time. -/
theorem step {s s' : RowState} {a : RowAction}
    (h : RowState.step arith maxRowCellNum rowKey s a = some s') :
    Keeps s.value.heap s'.value.heap := by
  rw [RowState.step] at h
  split at h
  · next henabled =>
    cases a with
    | write sd snapshot cells =>
      obtain ⟨r, hr, rfl⟩ := map_eq_some_iff.1 h
      have hset := set henabled.1 (henabled.2.imp_right And.left) hr
      split
      · exact hset
      · exact hset.trans (rollbackStmt _ _)
    | ownRead sd p =>
      obtain ⟨r, hr, rfl⟩ := map_eq_some_iff.1 h
      exact read hr
    | merge sd =>
      obtain ⟨r, hr, rfl⟩ := map_eq_some_iff.1 h
      exact merge hr
    | commitStmt sd =>
      cases h
      exact stmtCallback _ _
    | rollbackStmt sd =>
      cases h
      exact rollbackStmt _ _
    | commit sd transId | rollback sd =>
      cases h
      exact sessionCallback _ _ _
  · cases h

theorem run {s s' : RowState} {as : List RowAction}
    (h : Lib.run (RowState.step arith maxRowCellNum rowKey) s as = some s') :
    Keeps s.value.heap s'.value.heap :=
  run_invariant (fun _ _ _ hinv hstep => trans hinv (step hstep)) (refl _) h

end Keeps

/-! ### The compacted node -/

/-- The node that `merge_` has put at the list head has the time of the last of the nodes it
replaces. -/
def StampedLast (v v' : TEValue) : Prop :=
  ∃ replaced z n a m, Seg CellInfoNode.next v.heap v.listHead replaced m.next ∧
    replaced.getLast? = some z ∧ v.heap[z]? = some n ∧ v'.listHead = some a ∧
    v'.heap[a]? = some m ∧ m.modifyTime = n.modifyTime

namespace RowState

variable (arith maxRowCellNum rowKey)

/-- **The time of a compacted node**: in a plain history, a compaction stamps its node with the time
of the last node it replaces, and a reader behind a mutation of it is not served the node then or
later. -/
theorem stampedLast_of_run {s : RowState} {as : List RowAction}
    (hplain : Meets (step arith maxRowCellNum rowKey) PlainStep init as)
    (hrun : run (step arith maxRowCellNum rowKey) init as = some s) {transId : Int}
    (htransId : transId < int64Max) {v' : TEValue} {ret : Ret}
    (hmerge : s.value.merge arith transId = some (v', ret)) (hne : v' ≠ s.value) :
    StampedLast s.value v' ∧ ∃ a hs, v'.listHead = some a ∧ hs <+: s.history ∧
      StandsFor arith v'.heap a hs ∧ ∀ c ∈ hs, ∀ snapshot < c.transId, ∀ bs t type d,
        run (step arith maxRowCellNum rowKey) { s with value := v' } bs = some t →
        t.value.rowLock ≠ some d →
        t.value.servedNode ⟨type, snapshot, some d⟩ ≠ some a := by
  obtain ⟨uc, live, q, hinv⟩ := inv_of_run arith maxRowCellNum rowKey hplain hrun
  obtain ⟨r, hr, hcases⟩ := hinv.merge htransId
  obtain rfl := some.inj (hmerge.symm.trans hr)
  obtain ⟨-, rest, b, l₁, l₂, k, c, cells, hf, hhead, hc, hreplace, hstands, -⟩ :=
    hcases.resolve_left hne
  obtain ⟨cnt, size, heq⟩ := replaceHead_eq_some hreplace
  have hlast : v'.listHead = some s.value.heap.length := congrArg TEValue.listHead heq
  refine ⟨?_, s.value.heap.length, folded transId s.history k, hlast, ?_, hstands, ?_⟩
  · obtain ⟨d, z, n, hd, hz, hn, htime⟩ := hf.getLast?
    obtain rfl := some.inj (hc.symm.trans hd)
    refine ⟨b :: l₁, z, n, _, ⟨c.transId, rest, cells⟩, hhead ▸ hf.seg, hz, hn, hlast, ?_,
      htime.symm⟩
    rw [show v'.heap = _ from congrArg TEValue.heap heq, List.getElem?_append_right (Nat.le_refl _),
      Nat.sub_self]
    rfl
  · rw [folded_eq_take]
    exact List.take_prefix _ _
  intro d hd snapshot hlt bs t type e ht hlock hserved
  -- the node still has its time, which is that of the last mutation it stands for
  obtain ⟨c', buf, hc', hmax, hnode, -⟩ := hstands
  obtain rfl := some.inj (hc.symm.trans hc')
  have hnode' := run ht _ _ _ hmax hnode
  have hun : t.value.readUncommitted ⟨type, snapshot, some e⟩ = false := by
    rw [readUncommitted]
    simpa using hlock
  have hle := modifyTime_le_of_servedNode hun hserved hnode'
  have hsorted : Sorted (folded transId s.history k) := by
    rw [folded_eq_take]
    exact hinv.history_ok.sorted.take _
  have hdc := hsorted.le_getLast hc hd
  have hle' : c.transId ≤ snapshot := hle
  omega

theorem stampedLast_of_run_compactedRow : ∃ s v',
    run (step intArith 10 .all) init (compactedRow.take 5) = some s ∧
      s.value.merge intArith 6 = some (v', .success) ∧ StampedLast s.value v' := by
  have h : ((run (step intArith 10 .all) init (compactedRow.take 5)).bind fun s =>
      (s.value.merge intArith 6).map fun r => (r.2, decide (r.1 ≠ s.value))) =
        some (.success, true) := by
    decide +kernel
  obtain ⟨s, hs, h⟩ := bind_eq_some_iff.1 h
  obtain ⟨⟨v', ret⟩, hr, h⟩ := map_eq_some_iff.1 h
  obtain ⟨rfl, hne⟩ := Prod.mk.inj h
  have hplain : Meets (step intArith 10 .all) PlainStep init (compactedRow.take 5) :=
    meets_of_forall (fun _ ha s => plainStep_compactedRow (List.mem_of_mem_take ha) s) init
  exact ⟨s, v', hs, hr, (stampedLast_of_run intArith 10 .all hplain hs (by decide) hr
    (of_decide_eq_true hne)).1⟩

/-- A session with snapshot 5 writes a row, deletes it and writes it again, and commits under 7. The
next session comes to write the row. -/
def rewrittenRow : List RowAction :=
  [.write 1 5 [.value (.data 16) (.int 5 false), .delRow, .value (.data 16) (.int 7 false)],
    .commit 1 7, .write 2 7 [.value (.data 16) (.int 9 false)]]

theorem run_rewrittenRow : (run (step intArith 10 .all) init rewrittenRow).map (fun s =>
    (s.value.listHead, s.value.heap.map (fun n => (n.modifyTime, n.next)),
      s.history.map Committed.transId)) =
    some (some 0, [(7, none), (int64Max, none)], [7]) := by
  decide +kernel

theorem merge_rewrittenRow : ((run (step intArith 10 .all) init rewrittenRow).bind fun s =>
    (s.value.merge intArith 7).map fun r => decide (r.2 = .success ∧ r.1.listHead = some 2 ∧
      r.1.heap.map (fun n => (n.modifyTime, n.next)) = [(7, none), (int64Max, none), (5, none)] ∧
      r.1.servedNode ⟨.readOnly, 6, some 9⟩ = some 2)) = some true := by
  decide +kernel

/-- The compacted node of a row that was deleted and written again has the writer's snapshot as its
time, and a reader between that and the commit id is served it. -/
theorem not_stampedLast_rewrittenRow : ∃ s v',
    run (step intArith 10 .all) init rewrittenRow = some s ∧
      s.value.merge intArith 7 = some (v', .success) ∧ ¬ StampedLast s.value v' ∧
      s.history.map Committed.transId = [7] ∧
      v'.servedNode ⟨.readOnly, 6, some 9⟩ = v'.listHead := by
  obtain ⟨s, hs, h⟩ := map_eq_some_iff.1 run_rewrittenRow
  obtain ⟨t, ht, h'⟩ := bind_eq_some_iff.1 merge_rewrittenRow
  obtain rfl := some.inj (hs.symm.trans ht)
  obtain ⟨⟨v', ret⟩, hr, h'⟩ := map_eq_some_iff.1 h'
  simp only [Prod.mk.injEq] at h
  obtain ⟨hhead, hheap, hhistory⟩ := h
  obtain ⟨rfl, hhead', hheap', hserved⟩ := of_decide_eq_true h'
  refine ⟨s, v', hs, hr, ?_, hhistory, hserved.trans hhead'.symm⟩
  rintro ⟨replaced, z, n, a, m, hseg, hz, hn, ha, hm, htime⟩
  -- the node at the new list head
  obtain rfl := some.inj (hhead'.symm.trans ha)
  have hm' := congrArg (·[2]?) hheap'
  simp only [List.getElem?_map, hm] at hm'
  obtain ⟨hmtime, hmnext⟩ := Prod.mk.inj (some.inj hm')
  -- the only node it replaces
  rw [hhead, hmnext] at hseg
  rcases replaced with _ | ⟨b, bs⟩
  · cases hseg
  obtain ⟨hb, n₀, hn₀, hseg⟩ := hseg
  obtain rfl := some.inj hb
  have hn' := congrArg (·[0]?) hheap
  simp only [List.getElem?_map, hn₀] at hn'
  obtain ⟨hntime, hnnext⟩ := Prod.mk.inj (some.inj hn')
  rw [hnnext] at hseg
  rcases bs with _ | ⟨c, bs⟩
  · obtain rfl := some.inj hz
    obtain rfl := some.inj (hn₀.symm.trans hn)
    rw [hmtime, hntime] at htime
    exact absurd htime (by decide)
  · exact nomatch hseg.1

end RowState

end OceanBase.UpdateServer
