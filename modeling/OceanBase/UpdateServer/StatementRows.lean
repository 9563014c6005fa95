import OceanBase.UpdateServer.RowHistory
import OceanBase.UpdateServer.Statement

/-!
# Rows and the lists of their statements

The uncommitted info that the statements of a session work on has its nodes in a list. The row
value of the table engine has them linked, with the marked tail as a link. `Represents` relates the
two, and the functions on the row value keep it: a mutation that is written, with the compactions
and the reads on its way, and the two ends of a statement. `represented_of_run` is about all rows
of a session through its statements.
-/

namespace OceanBase.UpdateServer

open Common Option TEValue

variable {transId : Int} {uc : List Nat} {pend : List (List WriteCell)}

namespace UcInfo

/-- The row value has this uncommitted info. Its nodes are at `uc`, of the mutations `pend`. -/
structure Represents (transId : Int) (v : TEValue) (uci : UcInfo) (uc : List Nat)
    (pend : List (List WriteCell)) : Prop where
  own : Own transId v uc pend
  ucList : uci.ucList =
    pend.map fun cells => ((written transId cells).ctime, (written transId cells).cells)
  info : ∃ u, v.curUcInfo = some u ∧ u.ucCellInfoCnt = uci.ucCellInfoCnt ∧
    u.ucCellInfoSize = uci.ucCellInfoSize ∧
    u.ucListTailBeforeStmt = uci.ucListTailBeforeStmt.map fun n => (uc.take n).getLast?

namespace Represents

variable {v v' : TEValue} {uci : UcInfo}

section

variable (h : Represents transId v uci uc pend) {u : TEValueUCInfo}
include h

theorem length_eq : uci.ucList.length = uc.length := by
  rw [h.ucList, List.length_map, h.own.nodes.length_eq]

theorem getUcInfo (sd : Nat) :
    Represents transId { v with curUcInfo := some (v.getUcInfo sd true) } uci.markTail uc pend := by
  obtain ⟨u, hu, hcnt, hsize, hbefore⟩ := h.info
  have hcounts : (v.getUcInfo sd true).ucCellInfoCnt = u.ucCellInfoCnt ∧
      (v.getUcInfo sd true).ucCellInfoSize = u.ucCellInfoSize := by
    rw [TEValue.getUcInfo, hu]
    split <;> exact ⟨rfl, rfl⟩
  have hucBefore : v.ucBefore = u.ucListTailBeforeStmt := by
    rw [TEValue.ucBefore, hu]
    rfl
  refine ⟨h.own.congr rfl rfl (ucListHead_getUcInfo sd true v)
    (ucListTail_getUcInfo sd true v), h.ucList, _, rfl, hcounts.1.trans hcnt,
    hcounts.2.trans hsize, ?_⟩
  rw [ucListTailBeforeStmt_getUcInfo_true, hucBefore, hbefore, h.own.tail, markTail, map_some,
    h.length_eq]
  rcases uci.ucListTailBeforeStmt with _ | n
  · rw [map_none, getD_none, getD_none, List.take_length]
  · rfl

theorem count (hu : v.curUcInfo = some u) (w : CompactCellWriter) (c : WriteCell) :
    Represents transId { v with curUcInfo := some (u.count transId w c) }
      (uci.addCount (countCell transId w c)) uc pend := by
  obtain ⟨u', hu', hcnt, hsize, hbefore⟩ := h.info
  obtain rfl : u = u' := some.inj (hu.symm.trans hu')
  refine ⟨h.own.congr rfl rfl ?_ ?_, h.ucList, _, rfl, ?_, ?_, ?_⟩
  · rw [TEValue.ucHead, TEValue.ucHead, hu]
    cases c with
    | nop | delRow | value column obj => rfl
  · rw [TEValue.ucTail, TEValue.ucTail, hu]
    cases c with
    | nop | delRow | value column obj => rfl
  · cases c with
    | nop | delRow | value column obj =>
      simp [TEValueUCInfo.count, countCell, addCount, TEValueUCInfo.init, hcnt, BitVec.add_assoc]
  · cases c with
    | nop | delRow | value column obj =>
      simp [TEValueUCInfo.count, countCell, addCount, TEValueUCInfo.init, hsize]
  · cases c with
    | nop | delRow | value column obj => exact hbefore

theorem copyCells (hfits : uci.TailFits) (hu : v.curUcInfo = some u) (cells : List WriteCell) :
    Represents transId (v.copyCells u (written transId cells))
      (uci.copyCells (written transId cells)) (uc ++ [v.heap.length]) (pend ++ [cells]) := by
  obtain ⟨u', hu', hcnt, hsize, hbefore⟩ := h.info
  obtain rfl : u = u' := some.inj (hu.symm.trans hu')
  refine ⟨h.own.copyCells hu cells, ?_, _, rfl, hcnt, hsize, hbefore.trans ?_⟩
  · rw [List.map_append, ← h.ucList]
    rfl
  -- the mark is not behind the old tail
  refine Option.map_congr fun n hn => ?_
  have hle : n ≤ uc.length := h.length_eq ▸ hfits n hn
  rw [List.take_append_of_le_length hle]

theorem of_own (hown : Own transId v' uc pend)
    (hinfo : v'.curUcInfo = v.curUcInfo) : Represents transId v' uci uc pend :=
  ⟨hown, h.ucList, by rw [hinfo]; exact h.info⟩

theorem linkOwn : Represents transId v.linkOwn uci uc pend :=
  h.of_own h.own.linkOwn rfl

end

/-! ### A mutation -/

variable {arith : Arith} {maxRowCellNum : Int} {sd : Nat} {p : ReadParam} {v₁ : TEValue}

theorem mergeIf (h : Represents transId v uci uc pend) {b : Prop} [Decidable b]
    (hmerge : (if b then v.mergeIfNeeded arith maxRowCellNum transId else some v) = some v') :
    Represents transId v' uci uc pend := by
  rw [mergeIfNeeded] at hmerge
  split at hmerge
  · split at hmerge
    · obtain ⟨r, hr, rfl⟩ := map_eq_some_iff.1 hmerge
      exact h.of_own (h.own.merge hr) (merge_frame hr).1
    · cases hmerge
      exact h
  · cases hmerge
    exact h

theorem obSemHandler (h : Represents transId v₁ uci uc pend) (hfits : uci.TailFits)
    {done : List WriteCell} {c : WriteCell} {isRowChanged isRowFinished : Bool}
    {r : (TEValue × CompactCellWriter) × Ret} (hcur : v.getCurValue sd isRowChanged = .ok v₁)
    (hr : v.obSemHandler arith maxRowCellNum sd transId p c isRowChanged isRowFinished
      (written transId done) = some r) :
    if isRowFinished then
      ∃ uc', Represents transId r.1.1
        ((uci.addCount (countCell transId (written transId done) c)).copyCells
          (written transId (done ++ [c]))) uc' (pend ++ [done ++ [c]])
    else Represents transId r.1.1 (uci.addCount (countCell transId (written transId done) c)) uc
        pend ∧ r.1.2 = written transId (done ++ [c]) := by
  have hdone := (written_concat transId done c).symm
  obtain ⟨u, hu, -⟩ := h.info
  have hcount := h.count hu (written transId done) c
  rw [TEValue.obSemHandler, hcur] at hr
  obtain ⟨v₂, hmerge, hr⟩ := bind_eq_some_iff.1 hr
  dsimp only [updateValue] at hmerge hr
  rw [TEValue.getUcInfo_false_of_curUcInfo hu] at hmerge
  have hv₂ := hcount.mergeIf hmerge
  obtain ⟨u₂, hu₂, -⟩ := hv₂.info
  obtain ⟨t, ht, rfl⟩ := map_eq_some_iff.1 hr
  have hcases := TEValue.isRowTooLong_cases ht
  rw [TEValue.finishRow, TEValue.getUcInfo_false_of_curUcInfo hu₂, hdone] at hcases ⊢
  rcases isRowFinished with _ | _
  · refine ⟨?_, rfl⟩
    rcases hcases with heq | heq
    · exact heq ▸ hv₂
    · exact heq ▸ hv₂.linkOwn
  have hfits' : (uci.addCount (countCell transId (written transId done) c)).TailFits := hfits
  have hcopy := hv₂.copyCells hfits' hu₂ (done ++ [c])
  refine ⟨uc ++ [v₂.heap.length], ?_⟩
  rcases hcases with heq | heq
  · rwa [show t.1 = _ from heq]
  · rw [show t.1 = _ from heq]
    exact hcopy.linkOwn

theorem setCells (h : Represents transId v₁ uci uc pend) (hfits : uci.TailFits)
    (done : List WriteCell) {cells : List WriteCell} (hne : cells ≠ []) {isRowChanged : Bool}
    (hcur : v.getCurValue sd isRowChanged = .ok v₁)
    (hset : TEValue.setCells arith maxRowCellNum sd transId p isRowChanged cells v
      (written transId done) = some (v', .success)) :
    ∃ uc', Represents transId v'
      ((uci.addCount (countCells transId (written transId done) cells)).copyCells
        (written transId (done ++ cells))) uc' (pend ++ [done ++ cells]) := by
  induction cells generalizing done v v₁ isRowChanged uci with
  | nil => exact absurd rfl hne
  | cons c cells ih =>
    have hdone := (written_concat transId done c).symm
    rcases cells with _ | ⟨d, cells⟩
    · obtain ⟨r, hr, heq⟩ := map_eq_some_iff.1 hset
      obtain rfl : r.1.1 = v' := congrArg Prod.fst heq
      have hlast := h.obSemHandler hfits hcur hr
      rwa [countCells, countCells, add_zero]
    obtain ⟨⟨⟨u, w⟩, ret⟩, hr, hset⟩ := bind_eq_some_iff.1 hset
    obtain ⟨hu, hw⟩ := h.obSemHandler hfits hcur hr
    change (if ret = .success then _ else _) = _ at hset
    split at hset
    · obtain ⟨u', hu', -⟩ := hu.info
      have hsame : { u with curUcInfo := some (u.getUcInfo sd false) } = u := by
        rw [getUcInfo_false_of_curUcInfo hu', ← hu']
      have hcur' : u.getCurValue sd false = .ok u := by
        rw [getCurValue_false, hsame]
      rw [show w = _ from hw] at hset
      have hrest := ih hu hfits _ (List.cons_ne_nil d cells) hcur' hset
      rw [List.append_assoc] at hrest
      rwa [countCells, addCount_add, hdone]
    · next hret =>
      cases hset
      exact absurd rfl hret

/-! ### The end of a statement -/

theorem stmtCallback_true (h : Represents transId v uci uc pend) (n : Nat)
    (hn : n = uci.ucListTailBeforeStmt.getD uc.length) :
    Represents transId (v.stmtCallback true) (uci.stmtCallback true) (uc.take n) (pend.take n) := by
  obtain ⟨u, hu, hcnt, hsize, hbefore⟩ := h.info
  have hucBefore : v.ucBefore = uci.ucListTailBeforeStmt.map fun n => (uc.take n).getLast? := by
    rwa [TEValue.ucBefore, hu]
  refine ⟨h.own.stmtCallback_true ?_ ?_, ?_, ?_⟩
  · intro before hb
    rw [hucBefore] at hb
    obtain ⟨m, hm, rfl⟩ := map_eq_some_iff.1 hb
    rw [hn, hm, getD_some]
  · intro hb
    rw [hucBefore, map_eq_none_iff] at hb
    rw [hn, hb, getD_none]
  · simp [UcInfo.stmtCallback, hn, h.ucList, h.own.nodes.length_eq]
  rcases hmark : uci.ucListTailBeforeStmt with _ | m
  · rw [hmark] at hbefore
    refine ⟨u, ?_, hcnt, hsize, hbefore⟩
    simp [TEValue.stmtCallback, hu, hbefore]
  rw [hmark] at hbefore
  simp only [TEValue.stmtCallback, hu, hbefore]
  exact ⟨_, rfl, hcnt, hsize, rfl⟩

theorem stmtCallback_false (h : Represents transId v uci uc pend) :
    Represents transId (v.stmtCallback false) (uci.stmtCallback false) uc pend := by
  obtain ⟨u, hu, hcnt, hsize, -⟩ := h.info
  have hv : v.stmtCallback false =
      { v with curUcInfo := some { u with ucListTailBeforeStmt := none } } := by
    simp [TEValue.stmtCallback, hu]
  rw [hv]
  refine ⟨h.own.congr rfl rfl ?_ ?_, h.ucList, _, rfl, hcnt, hsize, rfl⟩
  · rw [TEValue.ucHead, TEValue.ucHead, hu]
    rfl
  · rw [TEValue.ucTail, TEValue.ucTail, hu]
    rfl

end Represents

end UcInfo

/-! ### The rows of a session -/

/-- The row value has what the session knows of the row. -/
def RepresentsRow (transId : Int) (v : TEValue) (info : Option UcInfo) (uc : List Nat)
    (pend : List (List WriteCell)) : Prop :=
  match info with
  | none => v.curUcInfo = none ∧ Own transId v uc pend
  | some uci => uci.Represents transId v uc pend ∧ uci.TailFits

namespace RepresentsRow

variable {v v' : TEValue} {info : Option UcInfo}

theorem getUcInfo (h : RepresentsRow transId v info uc pend) (sd : Nat) :
    (info.getD .init).markTail.Represents transId
        { v with curUcInfo := some (v.getUcInfo sd true) } uc pend ∧
      (info.getD .init).markTail.TailFits := by
  rcases info with _ | uci
  · obtain ⟨hnone, hown⟩ := h
    obtain ⟨rfl, rfl⟩ := hown.eq_nil hnone
    have hget : v.getUcInfo sd true =
        { TEValueUCInfo.init sd with ucListTailBeforeStmt := some none } := by
      rw [TEValue.getUcInfo, hnone]
      rfl
    refine ⟨⟨hown.congr rfl rfl (ucListHead_getUcInfo sd true v)
      (ucListTail_getUcInfo sd true v), rfl, _, rfl, ?_⟩, UcInfo.tailFits_markTail ?_⟩
    · rw [hget]
      exact ⟨rfl, rfl, rfl⟩
    · intro n hn
      cases hn
  · exact ⟨h.1.getUcInfo sd, UcInfo.tailFits_markTail h.2⟩

/-- **A mutation of the row** is the write of the session: whatever is compacted or read on its
way, the row value has the uncommitted info that the session has of it. -/
theorem set {κ χ : Type} [DecidableEq κ] {arith : Arith} {maxRowCellNum : Int} {sd : Nat}
    {p : ReadParam} {s : StmtCtx κ χ} {write : RowWrite κ} {dmlType : Option Nat}
    (h : RepresentsRow transId v (s.ucInfo write.row) uc pend)
    (hlock : v.rowLock = none ∨ v.rowLock = some sd)
    (hset : v.set arith maxRowCellNum sd transId p write.cells = some (v', .success)) :
    ∃ uc', RepresentsRow transId v' ((s.writeRow transId dmlType write).ucInfo write.row) uc'
      (pend ++ [write.cells]) := by
  obtain ⟨hmarked, hfits⟩ := h.getUcInfo sd
  have hlocked : (((s.ucInfo write.row).getD .init).markTail).Represents transId
      { v with rowLock := some sd, curUcInfo := some (v.getUcInfo sd true) } uc pend :=
    hmarked.of_own (hmarked.own.congr rfl rfl rfl rfl) rfl
  obtain ⟨uc', hrep⟩ :=
    hlocked.setCells hfits [] write.nonempty (getCurValue_true hlock) hset
  have hinfo : (s.writeRow transId dmlType write).ucInfo write.row =
      some (((s.ucInfo write.row).getD .init).markTail.addCount (write.counts transId) |>.copyCells
        (written transId write.cells)) := by
    simp [StmtCtx.writeRow, StmtCtx.addCells, StmtCtx.modify, StmtCtx.getCurValue]
  rw [hinfo]
  exact ⟨uc', hrep, (UcInfo.writes_copyCells _ _).fits _ hfits⟩

theorem stmtCallback (h : RepresentsRow transId v info uc pend) (rollback : Bool) :
    ∃ uc' pend', RepresentsRow transId (v.stmtCallback rollback)
      (info.map (UcInfo.stmtCallback rollback)) uc' pend' := by
  rcases info with _ | uci
  · refine ⟨uc, pend, ?_⟩
    rwa [stmtCallback, h.1]
  rcases rollback with _ | _
  · refine ⟨uc, pend, h.1.stmtCallback_false, ?_⟩
    intro n hn
    cases hn
  refine ⟨_, _, h.1.stmtCallback_true _ rfl, ?_⟩
  intro n hn
  cases hn

/-- A prepared session callback takes the uncommitted info off its row. -/
theorem sessionCallback_true (h : RepresentsRow transId v info uc pend) (commitId : Int) :
    RepresentsRow transId (v.sessionCallback true commitId) none [] [] := by
  have hown : Own transId v uc pend := by
    rcases info with _ | uci
    · exact h.2
    · exact h.1.own
  exact ⟨(v.sessionCallback_frame true commitId).1, hown.sessionCallback true commitId⟩

end RepresentsRow

/-! ### The calls of a session -/

/-- The rows of a table, and the session that writes them. -/
structure SessionRows (κ χ : Type) where
  value : κ → TEValue
  ctx : StmtCtx κ χ

/-- The begin of a statement, a mutation of a row that succeeds, and the two ends. -/
inductive SessionCall (κ : Type) where
  | markStmt
  | set (dmlType : Option Nat) (p : ReadParam) (write : RowWrite κ)
  | commitStmt
  | rollbackStmt

variable {κ χ : Type} [DecidableEq κ]

namespace SessionRows

/-- The rows after the statement callbacks. -/
def stmtCallbacks (rollback : Bool) (s : SessionRows κ χ) (row : κ) : TEValue :=
  if row ∈ s.ctx.stmtCallbackList then (s.value row).stmtCallback rollback else s.value row

/-- One call of session `sd`, on the rows and on what the session knows of them. -/
def step (arith : Arith) (maxRowCellNum : Int) (sd : Nat) (transId : Int) (s : SessionRows κ χ) :
    SessionCall κ → Option (SessionRows κ χ)
  | .markStmt => some ⟨s.value, s.ctx.markStmt⟩
  | .set dmlType p write =>
    let v := s.value write.row
    if v.rowLock = none ∨ v.rowLock = some sd then
      match v.set arith maxRowCellNum sd transId p write.cells with
      | some (v, .success) =>
        some ⟨Function.update s.value write.row v, s.ctx.writeRow transId dmlType write⟩
      | _ => none
    else none
  | .commitStmt => some ⟨s.stmtCallbacks false, s.ctx.commitStmt⟩
  | .rollbackStmt =>
    some ⟨fun row =>
      if row ∈ s.ctx.prepareList then (s.stmtCallbacks true row).sessionCallback true transId
      else s.stmtCallbacks true row, s.ctx.rollbackStmt⟩

/-- Every row has what the session knows of it. -/
def Represented (transId : Int) (s : SessionRows κ χ) : Prop :=
  ∀ row, ∃ uc pend, RepresentsRow transId (s.value row) (s.ctx.ucInfo row) uc pend

variable {arith : Arith} {maxRowCellNum : Int} {sd : Nat} {s s' : SessionRows κ χ}

theorem Represented.stmtCallbacks (h : s.Represented transId) (rollback : Bool) (row : κ) :
    ∃ uc pend, RepresentsRow transId (s.stmtCallbacks rollback row)
      ((s.ctx.stmtCallbacks rollback).ucInfo row) uc pend := by
  obtain ⟨uc, pend, hrep⟩ := h row
  simp only [SessionRows.stmtCallbacks, StmtCtx.stmtCallbacks]
  split
  · exact hrep.stmtCallback rollback
  · exact ⟨uc, pend, hrep⟩

theorem represented_step {call : SessionCall κ} (h : s.Represented transId)
    (hstep : s.step arith maxRowCellNum sd transId call = some s') : s'.Represented transId := by
  cases call with
  | markStmt =>
    cases hstep
    exact h
  | set dmlType p write =>
    simp only [step] at hstep
    split at hstep
    case isFalse => cases hstep
    case isTrue hlock =>
    split at hstep
    case h_2 => cases hstep
    case h_1 v hset =>
    cases hstep
    obtain ⟨uc, pend, hrep⟩ := h write.row
    obtain ⟨uc', hrep'⟩ : ∃ uc', RepresentsRow transId v
        ((s.ctx.writeRow transId dmlType write).ucInfo write.row) uc' (pend ++ [write.cells]) :=
      hrep.set hlock hset
    refine (Function.forall_update_iff s.value (p := fun row v => ∃ uc pend, RepresentsRow transId v
      ((s.ctx.writeRow transId dmlType write).ucInfo row) uc pend)).2 ⟨⟨uc', _, hrep'⟩, ?_⟩
    intro row hrow
    have hinfo : (s.ctx.writeRow transId dmlType write).ucInfo row = s.ctx.ucInfo row := by
      simp [StmtCtx.writeRow, StmtCtx.addCells, StmtCtx.modify, StmtCtx.getCurValue, hrow]
    exact hinfo ▸ h row
  | commitStmt =>
    cases hstep
    exact h.stmtCallbacks false
  | rollbackStmt =>
    cases hstep
    intro row
    obtain ⟨uc, pend, hrep⟩ := h.stmtCallbacks true row
    dsimp only [StmtCtx.rollbackStmt]
    split
    · next hmem =>
      exact ⟨[], [], by simpa [hmem, StmtCtx.stmtCallbacks] using hrep.sessionCallback_true transId⟩
    · next hmem =>
      exact ⟨uc, pend, by simpa [hmem, StmtCtx.stmtCallbacks] using hrep⟩

/-- **The rows have what the session knows of them** through every sequence of statements, whatever
is compacted or read on the way: the linked uncommitted nodes are those of the session's list, up to
the same mark and with the same counters. -/
theorem represented_of_run {calls : List (SessionCall κ)} (hstart : s.Represented transId)
    (hrun : Lib.run (step arith maxRowCellNum sd transId) s calls = some s') :
    s'.Represented transId :=
  Lib.run_invariant (fun _ _ _ => represented_step) hstart hrun

/-- A session over one row that has nothing yet. -/
def oneRow : SessionRows Unit Unit := ⟨fun _ => .empty, .start ()⟩

/-- A statement that commits and one that is rolled back. -/
def twoStatements : List (SessionCall Unit) :=
  [.markStmt, .set none .all ⟨(), true, [.value (.data 16) (.int 5 false)], by simp⟩, .commitStmt,
    .markStmt, .set none .all ⟨(), true, [.value (.data 16) (.int 7 false)], by simp⟩,
    .rollbackStmt]

theorem represented_of_run_twoStatements :
    ∃ s', Lib.run (step RowState.intArith 10 1 int64Max) oneRow twoStatements = some s' ∧
      s'.Represented int64Max := by
  have hstart : oneRow.Represented int64Max :=
    fun _ => ⟨[], [], rfl, rfl, rfl, List.nodup_nil, by simp [oneRow, TEValue.empty], .nil⟩
  obtain ⟨s', hrun⟩ : ∃ s',
      Lib.run (step RowState.intArith 10 1 int64Max) oneRow twoStatements = some s' := ⟨_, rfl⟩
  exact ⟨s', hrun, represented_of_run hstart hrun⟩

end SessionRows

end OceanBase.UpdateServer
