import OceanBase.UpdateServer.MemTable

/-!
# What the operations do to a row

`set` goes through the cells of a mutation, and on the way it may compact the row and read it.
For all that, few things happen to the row: its uncommitted info is touched, a compacted node is
put in front, the uncommitted nodes are linked behind the tail, and in the end one node is
appended. `set_rule` turns what these keep into what `set` keeps.
-/

namespace OceanBase.UpdateServer

open Common Option

/-- What the writer holds behind the cells of a mutation. -/
def written (transId : Int) (cells : List WriteCell) : CompactCellWriter :=
  cells.foldl (CompactCellWriter.add transId) .init

theorem written_concat (transId : Int) (done : List WriteCell) (c : WriteCell) :
    written transId (done ++ [c]) = (written transId done).add transId c := by
  rw [written, List.foldl_append]
  rfl

namespace TEValue

variable (v : TEValue)

/-- The first uncommitted node. -/
def ucHead : Option Nat := v.curUcInfo.bind TEValueUCInfo.ucListHead

/-- The last uncommitted node. -/
def ucTail : Option Nat := v.curUcInfo.bind TEValueUCInfo.ucListTail

/-- The last uncommitted node before the statement. -/
def ucBefore : Option (Option Nat) :=
  v.curUcInfo.bind TEValueUCInfo.ucListTailBeforeStmt

/-- The row after the session that holds the lock has read it. -/
def linkOwn : TEValue := { v with heap := setNext v.heap v.listTail v.ucHead }

/-! ### Reads -/

variable {v : TEValue}

variable {s : ReadSession} {r : TEValue × List Cell × Option Nat} {p : ReadParam}

/-- A session that does not hold the lock starts at an undo node or at the list head. -/
theorem getListHead_of_not_readUncommitted (h : v.readUncommitted s = false) :
    v.getListHead s = (v, (v.undoHead s).or v.listHead) := by
  rw [getListHead]
  rcases v.undoHead s with _ | a
  · rcases v.curUcInfo with _ | uci
    · rfl
    · rw [h]
      rfl
  · rfl

theorem getListHead_cases (v : TEValue) (s : ReadSession) :
    (v.getListHead s).1 = v ∧ ((v.getListHead s).2 = (v.undoHead s).or v.listHead ∨
      (v.getListHead s).2 = v.ucHead) ∨ v.getListHead s = (v.linkOwn, v.listHead) := by
  rw [getListHead, ucHead]
  rcases v.undoHead s with _ | a
  · rcases huci : v.curUcInfo with _ | uci
    · exact .inl ⟨rfl, .inl rfl⟩
    dsimp only
    split
    · rcases hhead : v.listHead with _ | a
      · exact .inl ⟨rfl, .inr rfl⟩
      · exact .inr (by simp [linkOwn, ucHead, huci, hhead])
    · exact .inl ⟨rfl, .inl rfl⟩
  · exact .inl ⟨rfl, .inl rfl⟩

theorem fst_of_read (h : v.read s p = some r) : r.1 = (v.getListHead s).1 := by
  rw [read] at h
  split at h
  next u head hu =>
    rw [hu]
    split at h
    · cases h
      rfl
    split at h
    · cases h
      rfl
    · obtain ⟨-, -, rfl⟩ := map_eq_some_iff.1 h
      rfl

theorem read_cases (h : v.read s p = some r) : r.1 = v ∨ r.1 = v.linkOwn := by
  rw [fst_of_read h]
  rcases v.getListHead_cases s with ⟨heq, -⟩ | heq
  · exact .inl heq
  · exact .inr (congrArg Prod.fst heq)

/-! ### Callbacks -/

theorem stmtCallback_true_cases (v : TEValue) :
    v.ucBefore = none ∧ v.stmtCallback true = v ∨
      ∃ before uci, v.ucBefore = some before ∧
        v.stmtCallback true = { v with heap := setNext v.heap before none, curUcInfo := some uci } ∧
        uci.ucListHead = (if before = none then none else v.ucHead) ∧
        uci.ucListTail = before ∧ uci.ucListTailBeforeStmt = none := by
  rw [stmtCallback, ucBefore, ucHead]
  rcases v.curUcInfo with _ | uci
  · exact .inl ⟨rfl, rfl⟩
  simp only [bind_some]
  rcases uci.ucListTailBeforeStmt with _ | before
  · exact .inl ⟨rfl, rfl⟩
  · exact .inr ⟨before, _, rfl, rfl, rfl, rfl, rfl⟩

theorem stmtCallback_false (v : TEValue) :
    v.stmtCallback false =
      { v with
          curUcInfo := v.curUcInfo.map fun uci => { uci with ucListTailBeforeStmt := none } } := by
  obtain ⟨heap, undoList, cnt, size, head, tail, curUcInfo, rowLock⟩ := v
  cases curUcInfo <;> rfl

theorem sessionCallback_of_none (h : v.curUcInfo = none) (rollback : Bool)
    (transId : Int) : v.sessionCallback rollback transId = v := by
  rw [sessionCallback, h]

variable {uci : TEValueUCInfo}

theorem sessionCallback_true (h : v.curUcInfo = some uci) (transId : Int) :
    v.sessionCallback true transId =
      { v with heap := setNext v.heap v.listTail none, curUcInfo := none } := by
  rw [sessionCallback, h]
  rfl

theorem sessionCallback_false (h : v.curUcInfo = some uci)
    (transId : Int) : ∃ cnt size,
    v.sessionCallback false transId =
      { v with
          heap := setNext (stamp transId v.ucTail v.heap.length v.ucHead v.heap) v.listTail v.ucHead
          listHead := if v.listTail = none then v.ucHead else v.listHead
          listTail := if v.ucTail = none then v.listTail else v.ucTail
          cellInfoCnt := cnt
          cellInfoSize := size
          curUcInfo := none } := by
  rw [sessionCallback, ucHead, ucTail, h]
  exact ⟨_, _, rfl⟩

theorem ucBefore_stmtCallback (v : TEValue) (rollback : Bool) :
    (v.stmtCallback rollback).ucBefore = none := by
  rcases rollback with _ | _
  · rw [stmtCallback_false, ucBefore]
    cases v.curUcInfo <;> rfl
  rcases v.stmtCallback_true_cases with ⟨hbefore, heq⟩ | ⟨_, uci, -, heq, -, -, hnone⟩
  all_goals rwa [heq]

theorem rowLock_stmtCallback (v : TEValue) (rollback : Bool) :
    (v.stmtCallback rollback).rowLock = v.rowLock := by
  rcases rollback with _ | _
  · rw [stmtCallback_false]
  · rcases v.stmtCallback_true_cases with ⟨-, heq⟩ | ⟨_, _, -, heq, -, -, -⟩ <;> rw [heq]

theorem curUcInfo_stmtCallback_eq_none (v : TEValue) (rollback : Bool) :
    (v.stmtCallback rollback).curUcInfo = none ↔ v.curUcInfo = none := by
  rcases rollback with _ | _
  · rw [stmtCallback_false, map_eq_none_iff]
  rcases v.stmtCallback_true_cases with ⟨-, heq⟩ | ⟨_, uci, hbefore, heq, -, -, -⟩
  · rw [heq]
  rw [heq]
  refine ⟨fun h => (nomatch h), fun h => ?_⟩
  rw [ucBefore, h] at hbefore
  cases hbefore

/-- What the session callback leaves, whatever becomes of the nodes. -/
theorem sessionCallback_frame (v : TEValue) (rollback : Bool) (transId : Int) :
    (v.sessionCallback rollback transId).curUcInfo = none ∧
      (v.sessionCallback rollback transId).rowLock = v.rowLock ∧
      (v.sessionCallback rollback transId).undoList = v.undoList := by
  rcases huci : v.curUcInfo with _ | uci
  · rw [sessionCallback_of_none huci]
    exact ⟨huci, rfl, rfl⟩
  rcases rollback with _ | _
  · obtain ⟨cnt, size, heq⟩ := sessionCallback_false huci transId
    rw [heq]
    exact ⟨rfl, rfl, rfl⟩
  · rw [sessionCallback_true huci]
    exact ⟨rfl, rfl, rfl⟩

theorem undoList_stmtCallback_true (v : TEValue) : (v.stmtCallback true).undoList = v.undoList := by
  rcases v.stmtCallback_true_cases with ⟨-, heq⟩ | ⟨_, _, -, heq, -, -, -⟩ <;> rw [heq]

/-! ### Compaction -/

theorem readUncommitted_none (v : TEValue) (transId : Int) :
    v.readUncommitted ⟨.readWrite, transId, none⟩ = false := rfl

variable {r : TEValue × Ret} {v v' : TEValue} {rest : Option Nat} {arith : Arith} {transId : Int}

/-- `merge_` leaves the row as it is, or puts a node with the compacted cells in front of what it
has not read. -/
theorem merge_cases (h : v.merge arith transId = some r) :
    r.1 = v ∨ r.2 = .success ∧ ∃ raw rest cells mtime,
      v.read ⟨.readWrite, transId, none⟩ ReadParam.all = some (v, raw, rest) ∧
      CompactRow.compact arith raw = .ok cells ∧ .rowDoesNotExist ∉ cells ∧ cells ≠ [] ∧
      v.mergedTime cells rest = some mtime ∧ v.replaceHead mtime cells rest = some r.1 := by
  simp only [merge, bind_eq_bind, bind_eq_some_iff] at h
  obtain ⟨⟨u, raw, rest⟩, hread, h⟩ := h
  have hu : u = v := (fst_of_read hread).trans
    (congrArg Prod.fst (getListHead_of_not_readUncommitted (readUncommitted_none v transId)))
  subst hu
  rcases hcompact : CompactRow.compact arith raw with e | cells
  · rw [hcompact] at h
    cases h
    exact .inl rfl
  simp only [hcompact] at h
  split at h
  · cases h
    exact .inl rfl
  · next hexist =>
    split at h
    · cases h
      exact .inl rfl
    · next hne =>
      obtain ⟨mtime, hmtime, v', hv', hr⟩ := by
        simpa [bind_eq_some_iff] using h
      cases hr
      refine .inr ⟨rfl, raw, rest, cells, mtime, hread, hcompact, fun hmem => hexist ?_, hne,
        hmtime, hv'⟩
      exact List.any_eq_true.2 ⟨_, hmem, decide_eq_true rfl⟩

theorem replaceHead_eq_some {mtime : Int} {cells : List Cell}
    (h : v.replaceHead mtime cells rest = some v') : ∃ cnt size, v' =
      { v with
          heap := v.heap ++ [⟨mtime, rest, cells⟩]
          undoList := v.listHead :: v.undoList
          cellInfoCnt := cnt
          cellInfoSize := size
          listHead := some v.heap.length
          listTail := v.mergedTail v.heap.length rest } := by
  obtain ⟨counts, -, rfl⟩ := map_eq_some_iff.1 h
  exact ⟨counts.1, counts.2, rfl⟩

theorem mergedTail_cases (v : TEValue) (head : Nat) (rest : Option Nat) :
    v.mergedTail head rest = some head ∨ v.mergedTail head rest = v.listTail := by
  rcases rest with _ | a
  · exact .inl rfl
  rw [mergedTail]
  split
  · exact .inr rfl
  split
  · exact .inl rfl
  · exact .inr rfl

theorem mergedTail_of_ucHead {head : Nat}
    (h : rest = none ∨ rest = v.ucHead) : v.mergedTail head rest = some head := by
  rcases rest with _ | a
  · rfl
  have ha : v.ucHead = some a := (h.resolve_left (by simp)).symm
  obtain ⟨uci, huci, hhead⟩ := bind_eq_some_iff.1 ha
  simp [mergedTail, huci, hhead]

theorem mergedTail_of_ne {head a : Nat} (h : v.ucHead ≠ some a) :
    v.mergedTail head (some a) = v.listTail := by
  rw [ucHead] at h
  rcases huci : v.curUcInfo with _ | uci
  · simp [mergedTail, huci]
  rw [huci] at h
  simp only [mergedTail, huci]
  exact if_neg fun heq => h heq.symm

theorem merge_frame (h : v.merge arith transId = some r) :
    r.1.curUcInfo = v.curUcInfo ∧ r.1.rowLock = v.rowLock := by
  rcases merge_cases h with heq | ⟨-, _, _, _, _, -, -, -, -, -, hreplace⟩
  · rw [heq]
    exact ⟨rfl, rfl⟩
  obtain ⟨cnt, size, heq⟩ := replaceHead_eq_some hreplace
  rw [heq]
  exact ⟨rfl, rfl⟩

/-! ### Writes -/

section Write

variable {arith : Arith} {maxRowCellNum : Int} {sd : Nat} {transId : Int} {p : ReadParam}

theorem ucListHead_getUcInfo (sd : Nat) (isRowChanged : Bool) (v : TEValue) :
    (v.getUcInfo sd isRowChanged).ucListHead = v.ucHead := by
  rw [getUcInfo, ucHead]
  cases v.curUcInfo <;> split <;> rfl

theorem ucListTail_getUcInfo (sd : Nat) (isRowChanged : Bool) (v : TEValue) :
    (v.getUcInfo sd isRowChanged).ucListTail = v.ucTail := by
  rw [getUcInfo, ucTail]
  cases v.curUcInfo <;> split <;> rfl

theorem ucListTailBeforeStmt_getUcInfo_false (sd : Nat) (v : TEValue) :
    (v.getUcInfo sd false).ucListTailBeforeStmt = v.ucBefore := by
  rw [getUcInfo, ucBefore, if_neg (by simp)]
  cases v.curUcInfo <;> rfl

/-- The first cell of a mutation marks the tail, unless the statement has marked it before. -/
theorem ucListTailBeforeStmt_getUcInfo_true (sd : Nat) (v : TEValue) :
    (v.getUcInfo sd true).ucListTailBeforeStmt = some (v.ucBefore.getD v.ucTail) := by
  rw [getUcInfo, ucBefore, ucTail]
  rcases v.curUcInfo with _ | uci
  · rfl
  simp only [getD_some, bind_some]
  rcases hbefore : uci.ucListTailBeforeStmt with _ | before
  · rw [if_pos ⟨trivial, rfl⟩, getD_none]
  · rw [if_neg (by simp), hbefore, getD_some]

/-- The first cell of a mutation: the session has the lock, and the row has uncommitted info. -/
theorem getCurValue_true (h : v.rowLock = none ∨ v.rowLock = some sd) :
    v.getCurValue sd true =
      .ok { v with rowLock := some sd, curUcInfo := some (v.getUcInfo sd true) } := by
  rw [getCurValue, if_pos rfl, onWriteBegin]
  rcases h with h | h
  · rw [h]
    rfl
  · rw [h]
    simp [Except.map, ← h]

theorem getCurValue_false (v : TEValue) :
    v.getCurValue sd false = .ok { v with curUcInfo := some (v.getUcInfo sd false) } := by
  rfl

theorem getUcInfo_false_of_curUcInfo (h : v.curUcInfo = some uci) : v.getUcInfo sd false = uci := by
  rw [getUcInfo, if_neg (by simp), h]
  rfl

theorem isRowTooLong_cases {r : TEValue × Bool}
    (h : v.isRowTooLong arith sd transId p = some r) : r.1 = v ∨ r.1 = v.linkOwn := by
  rw [isRowTooLong] at h
  split at h
  · cases h
    exact .inl rfl
  obtain ⟨⟨u, cells⟩, hread, rfl⟩ := map_eq_some_iff.1 h
  obtain ⟨r', hr', heq⟩ := map_eq_some_iff.1 hread
  cases heq
  cases CompactRow.compact arith r'.2.1 <;> exact read_cases hr'

/-- What a cell of a mutation does to the row's uncommitted info leaves the list alone. -/
theorem count_uc (transId : Int) (w : CompactCellWriter) (uci : TEValueUCInfo) (c : WriteCell) :
    (uci.count transId w c).ucListHead = uci.ucListHead ∧
      (uci.count transId w c).ucListTail = uci.ucListTail ∧
      (uci.count transId w c).ucListTailBeforeStmt = uci.ucListTailBeforeStmt := by
  cases c <;> exact ⟨rfl, rfl, rfl⟩

/-- What has to be kept for the cells of a mutation to keep `P`: the row's uncommitted info is
counted, the row is compacted, and its uncommitted nodes are linked. -/
structure KeptByCells (arith : Arith) (transId : Int) (P : TEValue → Prop) : Prop where
  info : ∀ v uci, P v → uci.ucListHead = v.ucHead → uci.ucListTail = v.ucTail →
    uci.ucListTailBeforeStmt = v.ucBefore → P { v with curUcInfo := some uci }
  merge : ∀ v r, P v → v.merge arith transId = some r → P r.1
  link : ∀ v, P v → P v.linkOwn

variable {P Q : TEValue → Prop}

variable (hP : KeptByCells arith transId P) {cells : List WriteCell}
    {isRowChanged isRowFinished : Bool} {w : CompactCellWriter} {c : WriteCell} {b : Prop}

section

include hP

theorem KeptByCells.mergeIf [Decidable b] (hv : P v)
    (h : (if b then v.mergeIfNeeded arith maxRowCellNum transId else some v) = some v') :
    P v' ∧ v'.curUcInfo = v.curUcInfo := by
  rw [TEValue.mergeIfNeeded] at h
  split at h
  · split at h
    · obtain ⟨r, hr, rfl⟩ := map_eq_some_iff.1 h
      exact ⟨hP.merge v r hv hr, (merge_frame hr).1⟩
    · cases h
      exact ⟨hv, rfl⟩
  · cases h
    exact ⟨hv, rfl⟩

theorem KeptByCells.count (sd : Nat) (w : CompactCellWriter) (c : WriteCell) (hv : P v) :
    P { v with curUcInfo := some ((v.getUcInfo sd false).count transId w c) } := by
  obtain ⟨hhead, htail, hbefore⟩ := count_uc transId w (v.getUcInfo sd false) c
  exact hP.info v _ hv (hhead.trans (ucListHead_getUcInfo sd false v))
    (htail.trans (ucListTail_getUcInfo sd false v))
    (hbefore.trans (ucListTailBeforeStmt_getUcInfo_false sd v))

variable {v v₁ : TEValue}

theorem KeptByCells.obSemHandler
    {r : (TEValue × CompactCellWriter) × Ret} (hcur : v.getCurValue sd isRowChanged = .ok v₁)
    (hv₁ : P v₁)
    (h : v.obSemHandler arith maxRowCellNum sd transId p c isRowChanged isRowFinished w = some r) :
    ∃ v₂ uci, P v₂ ∧ v₂.curUcInfo = some uci ∧
      if isRowFinished then
        r.1.1 = v₂.copyCells uci (w.add transId c) ∨
          r.1.1 = (v₂.copyCells uci (w.add transId c)).linkOwn
      else (r.1.1 = v₂ ∨ r.1.1 = v₂.linkOwn) ∧ r.1.2 = w.add transId c := by
  have hcount := hP.count sd w c hv₁
  rw [TEValue.obSemHandler, hcur] at h
  obtain ⟨v₂, hmerge, h⟩ := bind_eq_some_iff.1 h
  obtain ⟨hv₂, huci⟩ := hP.mergeIf hcount hmerge
  refine ⟨v₂, _, hv₂, huci, ?_⟩
  obtain ⟨u, hu, rfl⟩ := map_eq_some_iff.1 h
  have hcases := isRowTooLong_cases hu
  rw [finishRow, getUcInfo_false_of_curUcInfo huci] at hcases ⊢
  rcases isRowFinished with _ | _
  · exact ⟨hcases, rfl⟩
  · exact hcases

theorem KeptByCells.obSemHandler_false {r : (TEValue × CompactCellWriter) × Ret}
    (hcur : v.getCurValue sd isRowChanged = .ok v₁) (hv₁ : P v₁)
    (h : v.obSemHandler arith maxRowCellNum sd transId p c isRowChanged false w = some r) :
    P r.1.1 ∧ r.1.2 = w.add transId c := by
  obtain ⟨v₂, uci, hv₂, -, hcases⟩ := hP.obSemHandler hcur hv₁ h
  obtain ⟨heq | heq, hw⟩ := hcases
  · exact ⟨heq ▸ hv₂, hw⟩
  · exact ⟨heq ▸ hP.link _ hv₂, hw⟩

/-- What the loop over the cells of a mutation does to the row; `done` are the cells before. -/
theorem KeptByCells.setCells (done : List WriteCell) (hne : cells ≠ [])
    (hcopy : ∀ v uci, P v → v.curUcInfo = some uci →
      Q (v.copyCells uci (written transId (done ++ cells))))
    (hlink : ∀ v, Q v → Q v.linkOwn) (hcur : v.getCurValue sd isRowChanged = .ok v₁) (hv₁ : P v₁)
    (h : TEValue.setCells arith maxRowCellNum sd transId p isRowChanged cells v
      (written transId done) = some r) : Q r.1 ∨ r.2 ≠ .success ∧ P r.1 := by
  induction cells generalizing done v v₁ isRowChanged with
  | nil => exact absurd rfl hne
  | cons c cells ih =>
    have hdone := (written_concat transId done c).symm
    rcases cells with _ | ⟨d, cells⟩
    · obtain ⟨r', hr', rfl⟩ := map_eq_some_iff.1 h
      obtain ⟨v₂, uci, hv₂, huci, hcases⟩ := hP.obSemHandler hcur hv₁ hr'
      rw [if_pos rfl, hdone] at hcases
      have hQ := hcopy v₂ uci hv₂ huci
      rcases hcases with heq | heq
      · exact .inl (heq ▸ hQ)
      · exact .inl (heq ▸ hlink _ hQ)
    obtain ⟨⟨⟨u, w⟩, ret⟩, hr', h⟩ := bind_eq_some_iff.1 h
    obtain ⟨hPu, hw⟩ := hP.obSemHandler_false hcur hv₁ hr'
    change (if ret = .success then _ else _) = _ at h
    split at h
    · rw [show w = _ from hw.trans hdone] at h
      refine ih _ (by simp) ?_ (getCurValue_false u) (hP.info u _ hPu
        (ucListHead_getUcInfo sd false u) (ucListTail_getUcInfo sd false u)
        (ucListTailBeforeStmt_getUcInfo_false sd u)) h
      rwa [List.append_assoc]
    · next hret =>
      cases h
      exact .inr ⟨hret, hPu⟩

/-- **What `set` does to a row**: when the session gets the lock the row has uncommitted info and
`P` holds, the cells of the mutation keep `P`, and the node they become turns `P` into `Q`. -/
theorem set_rule (hne : cells ≠ []) (hlock : v.rowLock = none ∨ v.rowLock = some sd)
    (hv : P { v with rowLock := some sd, curUcInfo := some (v.getUcInfo sd true) })
    (hcopy : ∀ v uci, P v → v.curUcInfo = some uci → Q (v.copyCells uci (written transId cells)))
    (hlink : ∀ v, Q v → Q v.linkOwn) {r : TEValue × Ret}
    (h : v.set arith maxRowCellNum sd transId p cells = some r) : Q r.1 ∨ r.2 ≠ .success ∧ P r.1 :=
  hP.setCells [] hne hcopy hlink (getCurValue_true hlock) hv h

end

/-! ### Termination -/

theorem isSome_isRowTooLong (h : (v.read ⟨.readWrite, transId, some sd⟩ p).isSome) :
    (v.isRowTooLong arith sd transId p).isSome := by
  rw [isRowTooLong]
  split
  · rfl
  · rwa [isSome_map, readCompact, isSome_map]

theorem exists_mergeIf [Decidable b] (maxRowCellNum : Int) (h : (v.merge arith transId).isSome) :
    ∃ v', (if b then v.mergeIfNeeded arith maxRowCellNum transId else some v) = some v' := by
  rw [← isSome_iff_exists, mergeIfNeeded]
  split
  · split
    · rwa [isSome_map]
    · rfl
  · rfl

section Total

variable (hmerge : ∀ v, P v → (v.merge arith transId).isSome)
    (hread : ∀ v, P v ∨ Q v → (v.read ⟨.readWrite, transId, some sd⟩ p).isSome) {v₁ : TEValue}

include hP hmerge hread

theorem KeptByCells.isSome_obSemHandler
    (hcopy : isRowFinished = true → ∀ v uci, P v → v.curUcInfo = some uci →
      Q (v.copyCells uci (w.add transId c)))
    (hcur : v.getCurValue sd isRowChanged = .ok v₁) (hv₁ : P v₁) :
    (v.obSemHandler arith maxRowCellNum sd transId p c isRowChanged isRowFinished w).isSome := by
  have hcount := hP.count sd w c hv₁
  rw [TEValue.obSemHandler, hcur]
  obtain ⟨v₂, hv₂⟩ := exists_mergeIf (b := isRowChanged ∨ isRowFinished) maxRowCellNum
    (hmerge _ hcount)
  obtain ⟨hPv₂, huci⟩ := hP.mergeIf hcount hv₂
  simp only [updateValue, hv₂, bind_some, isSome_map]
  refine isSome_isRowTooLong (hread _ ?_)
  rw [finishRow, getUcInfo_false_of_curUcInfo huci]
  rcases isRowFinished with _ | _
  · exact .inl hPv₂
  · exact .inr (hcopy rfl v₂ _ hPv₂ huci)

theorem KeptByCells.isSome_setCells (done : List WriteCell)
    (hcopy : ∀ v uci, P v → v.curUcInfo = some uci →
      Q (v.copyCells uci (written transId (done ++ cells))))
    (hcur : v.getCurValue sd isRowChanged = .ok v₁) (hv₁ : P v₁) :
    (TEValue.setCells arith maxRowCellNum sd transId p isRowChanged cells v
      (written transId done)).isSome := by
  induction cells generalizing done v v₁ isRowChanged with
  | nil => rfl
  | cons c cells ih =>
    have hdone := (written_concat transId done c).symm
    rcases cells with _ | ⟨d, cells⟩
    · rw [TEValue.setCells, isSome_map]
      refine hP.isSome_obSemHandler hmerge hread (fun _ => ?_) hcur hv₁
      rwa [hdone]
    have hsome : (v.obSemHandler arith maxRowCellNum sd transId p c isRowChanged false
        (written transId done)).isSome :=
      hP.isSome_obSemHandler hmerge hread (fun h => nomatch h) hcur hv₁
    obtain ⟨⟨⟨u, w⟩, ret⟩, hr'⟩ := isSome_iff_exists.1 hsome
    obtain ⟨hPu, hw⟩ := hP.obSemHandler_false hcur hv₁ hr'
    simp only [TEValue.setCells, hr', bind_eq_bind, bind_some]
    split
    · rw [show w = _ from hw.trans hdone]
      refine ih _ ?_ (getCurValue_false u) (hP.info u _ hPu (ucListHead_getUcInfo sd false u)
        (ucListTail_getUcInfo sd false u) (ucListTailBeforeStmt_getUcInfo_false sd u))
      rwa [List.append_assoc]
    · rfl

theorem isSome_set (hlock : v.rowLock = none ∨ v.rowLock = some sd)
    (hv : P { v with rowLock := some sd, curUcInfo := some (v.getUcInfo sd true) })
    (hcopy : ∀ v uci, P v → v.curUcInfo = some uci → Q (v.copyCells uci (written transId cells))) :
    (v.set arith maxRowCellNum sd transId p cells).isSome :=
  hP.isSome_setCells hmerge hread [] hcopy (getCurValue_true hlock) hv

end Total

end Write

end TEValue

end OceanBase.UpdateServer
