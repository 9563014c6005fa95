import OceanBase.UpdateServer.RowList
import OceanBase.UpdateServer.RowRun

/-!
# Invariants of a row over its runs

An invariant of a row is about the row, its history and the mutations that are not committed yet.
`RowRule` lists what such an invariant has to survive: the few things that the calls do to the row.
The bookkeeping of statements is the same for all of them, and is done here once: an invariant that
satisfies the rule holds in every state of every run (`RowRule.holds_of_run`).
-/

namespace OceanBase.UpdateServer

open Common Lib LinkedList List TEValue RowState

namespace TEValue

theorem rowLock_rollbackStmt (v : TEValue) (prepared : Bool) :
    (v.rollbackStmt prepared).rowLock = v.rowLock := by
  rcases prepared with _ | _
  · exact v.rowLock_stmtCallback true
  · rw [rollbackStmt, if_pos rfl, (sessionCallback_frame ..).2.1, rowLock_stmtCallback]

theorem curUcInfo_rollbackStmt (v : TEValue) (prepared : Bool) :
    (v.rollbackStmt prepared).curUcInfo = none ↔ prepared = true ∨ v.curUcInfo = none := by
  rcases prepared with _ | _
  · refine (v.curUcInfo_stmtCallback_eq_none true).trans ?_
    simp
  · rw [rollbackStmt, if_pos rfl, (sessionCallback_frame ..).1]
    simp

end TEValue

/-- An invariant of a row: of the snapshot of the session that holds the lock, the history, the
mutations of that session, the row, and the addresses of its uncommitted list. -/
abbrev RowPred := Int → List Committed → List (List WriteCell) → TEValue → List Nat → Prop

/-- The mark of the current statement on the uncommitted list, which has `n` nodes of earlier
statements. -/
structure Marks (v : TEValue) (uc : List Nat) (n : Nat) : Prop where
  marked : ∀ before, v.ucBefore = some before → before = (uc.take n).getLast?
  unmarked : v.ucBefore = none → uc.length ≤ n

variable {uc : List Nat} {n : Nat} {v : TEValue}

theorem Marks.of_ucBefore_eq_none (h : v.ucBefore = none) (hle : uc.length ≤ n) : Marks v uc n := by
  refine ⟨fun before hbefore => ?_, fun _ => hle⟩
  rw [h] at hbefore
  cases hbefore

theorem Marks.of_ucBefore_eq_some (h : v.ucBefore = some (uc.take n).getLast?) : Marks v uc n := by
  refine ⟨fun before hbefore => Option.some.inj (hbefore.symm.trans h), fun hnone => ?_⟩
  rw [h] at hnone
  cases hnone

theorem Marks.congr {v' : TEValue} (h : Marks v uc n)
    (huci : v'.curUcInfo = v.curUcInfo) : Marks v' uc n := by
  obtain ⟨hmarked, hunmarked⟩ := h
  constructor
  all_goals rwa [ucBefore, huci]

/-- What an invariant of a row has to survive, when writes satisfy `okWrite` and commit ids
`okCommit`. -/
structure RowRule (arith : Arith) (okWrite : Int → List WriteCell → Prop) (okCommit : Int → Prop)
    (R : RowPred) : Prop where
  own : ∀ {snapshot history pend v uc}, R snapshot history pend v uc → Own snapshot v uc pend
  congr : ∀ {snapshot history pend v v' uc}, R snapshot history pend v uc → v'.heap = v.heap →
    v'.listHead = v.listHead → v'.listTail = v.listTail → v'.undoList = v.undoList →
    v'.ucHead = v.ucHead → v'.ucTail = v.ucTail → R snapshot history pend v' uc
  linkOwn : ∀ {snapshot history pend v uc}, R snapshot history pend v uc →
    R snapshot history pend v.linkOwn uc
  merge : ∀ {snapshot history pend v uc r}, R snapshot history pend v uc →
    v.merge arith snapshot = some r → R snapshot history pend r.1 uc
  copyCells : ∀ {snapshot history pend v uc uci cells}, R snapshot history pend v uc →
    okWrite snapshot cells → v.curUcInfo = some uci →
    R snapshot history (pend ++ [cells]) (v.copyCells uci (written snapshot cells))
      (uc ++ [v.heap.length])
  /-- the nodes of some statements are left -/
  rollbackStmt : ∀ {snapshot history pend v uc n}, R snapshot history pend v uc →
    pend.take n ≠ [] → Marks v uc n →
    R snapshot history (pend.take n) (v.stmtCallback true) (uc.take n)
  /-- no node is left, and the uncommitted info goes -/
  rollbackAll : ∀ {snapshot history pend v uc}, R snapshot history pend v uc →
    v.curUcInfo ≠ none → Marks v uc 0 →
    R snapshot history [] ((v.stmtCallback true).sessionCallback true 0) []
  rollback : ∀ {snapshot history pend v uc}, R snapshot history pend v uc →
    R snapshot history [] (v.sessionCallback true 0) []
  commit : ∀ {snapshot history pend v uc transId}, R snapshot history pend v uc → 0 < transId →
    snapshot < transId → (∀ c ∈ history, c.transId < transId) → okCommit transId →
    R snapshot (history ++ pend.map (Committed.mk transId)) [] (v.sessionCallback false transId) []
  snapshot : ∀ {snapshot snapshot' history v cells}, R snapshot history [] v [] →
    okWrite snapshot' cells → R snapshot' history [] v []

namespace RowRule

variable {arith : Arith} {maxRowCellNum : Int} {rowKey : ReadParam}
  {okWrite : Int → List WriteCell → Prop} {okCommit : Int → Prop} {R : RowPred}
  {sd : Nat} {snapshot : Int} {history : List Committed} {n : Nat}
  {pend : List (List WriteCell)} {v : TEValue} {uc : List Nat}

/-- A row that a session is writing, after `n` mutations of earlier statements. -/
structure Writing (R : RowPred) (sd : Nat) (snapshot : Int) (history : List Committed) (n : Nat)
    (pend : List (List WriteCell)) (v : TEValue) : Prop where
  locked : v.rowLock = some sd
  info : v.curUcInfo ≠ none
  inv : ∃ uc, R snapshot history pend v uc ∧ v.ucBefore = some (uc.take n).getLast?

variable (hR : RowRule arith okWrite okCommit R) {cells : List WriteCell} {r : TEValue × Ret}

section

include hR

theorem writing_begin (h : R snapshot history pend v uc)
    (hmarks : Marks v uc n) (sd : Nat) : Writing R sd snapshot history n pend
      { v with rowLock := some sd, curUcInfo := some (v.getUcInfo sd true) } := by
  refine ⟨rfl, by simp, uc, ?_, ?_⟩
  · exact hR.congr h rfl rfl rfl rfl (v.ucListHead_getUcInfo sd true)
      (v.ucListTail_getUcInfo sd true)
  refine (v.ucListTailBeforeStmt_getUcInfo_true sd).trans (congrArg some ?_)
  rcases hbefore : v.ucBefore with _ | before
  · rw [Option.getD_none, (hR.own h).tail, take_of_length_le (hmarks.unmarked hbefore)]
  · exact hmarks.marked before hbefore

theorem writing_linkOwn (h : Writing R sd snapshot history n pend v) :
    Writing R sd snapshot history n pend v.linkOwn := by
  obtain ⟨uc, hinv, hbefore⟩ := h.inv
  exact ⟨h.locked, h.info, uc, hR.linkOwn hinv, hbefore⟩

theorem writing_merge (h : Writing R sd snapshot history n pend v)
    (hr : v.merge arith snapshot = some r) : Writing R sd snapshot history n pend r.1 := by
  obtain ⟨uc, hinv, hbefore⟩ := h.inv
  obtain ⟨huci, hlock⟩ := merge_frame hr
  refine ⟨hlock.trans h.locked, huci ▸ h.info, uc, hR.merge hinv hr, ?_⟩
  rwa [ucBefore, huci]

theorem keptByCells :
    TEValue.KeptByCells arith snapshot (Writing R sd snapshot history n pend) where
  info v uci h hhead htail hbefore := by
    obtain ⟨uc, hinv, hmark⟩ := h.inv
    exact ⟨h.locked, by simp, uc, hR.congr hinv rfl rfl rfl rfl hhead htail, hbefore.trans hmark⟩
  merge _ _ h hr := hR.writing_merge h hr
  link _ h := hR.writing_linkOwn h

theorem writing_copyCells
    (h : Writing R sd snapshot history n pend v) (hn : n ≤ pend.length) {uci : TEValueUCInfo}
    (huci : v.curUcInfo = some uci) (hok : okWrite snapshot cells) :
    Writing R sd snapshot history n (pend ++ [cells])
      (v.copyCells uci (written snapshot cells)) := by
  obtain ⟨uc, hinv, hbefore⟩ := h.inv
  refine ⟨h.locked, by simp [TEValue.copyCells], _, hR.copyCells hinv hok huci, ?_⟩
  have hlength : n ≤ uc.length := (hR.own hinv).nodes.length_eq ▸ hn
  rw [take_append_of_le_length hlength, ← hbefore, TEValue.ucBefore, TEValue.ucBefore, huci]
  rfl

/-- What a write leaves: when it fails, its node may have been written or not. -/
theorem set (h : R snapshot history pend v uc) (hmarks : Marks v uc n) (hn : n ≤ pend.length)
    (hlock : v.rowLock = none ∨ v.rowLock = some sd) (hne : cells ≠ [])
    (hok : okWrite snapshot cells)
    (hr : v.set arith maxRowCellNum sd snapshot rowKey cells = some r) :
    Writing R sd snapshot history n (pend ++ [cells]) r.1 ∨
      r.2 ≠ .success ∧ Writing R sd snapshot history n pend r.1 :=
  set_rule hR.keptByCells hne hlock (hR.writing_begin h hmarks sd)
    (fun _ _ hv huci => hR.writing_copyCells hv hn huci hok) (fun _ hv => hR.writing_linkOwn hv) hr

end

/-! ### States -/

/-- The invariant of a row in a state, with the bookkeeping of its session. -/
structure Holds (R : RowPred) (s : RowState) : Prop where
  row : ∃ uc, R s.snapshot s.history (s.statements ++ s.current) s.value uc ∧
    Marks s.value uc s.statements.length
  unlocked : s.value.rowLock = none → s.value.curUcInfo = none
  info : s.value.curUcInfo ≠ none →
    s.statements ++ s.current ≠ [] ∧ (s.statements = [] ↔ s.prepared = true)
  noInfo : s.value.curUcInfo = none → s.prepared = false

/-- A step of a run that the invariant is made for. -/
def StepOk (okWrite : Int → List WriteCell → Prop) (okCommit : Int → Prop) (_ : RowState) :
    RowAction → Prop
  | .write _ snapshot cells => okWrite snapshot cells
  | .commit _ transId => okCommit transId
  | _ => True

variable {s s' : RowState}

theorem eq_nil (hR : RowRule arith okWrite okCommit R) (h : Holds R s)
    (huci : s.value.curUcInfo = none) : s.statements = [] ∧ s.current = [] := by
  obtain ⟨uc, hinv, -⟩ := h.row
  exact append_eq_nil_iff.1 ((hR.own hinv).eq_nil huci).2

/-- A step that the uncommitted info of the row takes no part in. -/
theorem Holds.of_value (h : Holds R s)
    (hrow : ∃ uc, R s.snapshot s.history (s.statements ++ s.current) v uc ∧
      Marks v uc s.statements.length)
    (huci : v.curUcInfo = s.value.curUcInfo) (hlock : v.rowLock = s.value.rowLock) :
    Holds R { s with value := v } := by
  refine ⟨hrow, ?_, ?_, ?_⟩
  · rw [hlock, huci]
    exact h.unlocked
  · rw [huci]
    exact h.info
  · rw [huci]
    exact h.noInfo

section

include hR

theorem holds_read (h : Holds R s) {r : TEValue × List Cell × Option Nat} {rs : ReadSession}
    {p : ReadParam} (hr : s.value.read rs p = some r) : Holds R { s with value := r.1 } := by
  obtain ⟨uc, hinv, hmarks⟩ := h.row
  rcases read_cases hr with heq | heq
  · rwa [heq]
  · rw [heq]
    exact h.of_value ⟨uc, hR.linkOwn hinv, hmarks.congr rfl⟩ rfl rfl

theorem holds_merge (h : Holds R s)
    (hr : s.value.merge arith s.snapshot = some r) : Holds R { s with value := r.1 } := by
  obtain ⟨uc, hinv, hmarks⟩ := h.row
  obtain ⟨huci, hlock⟩ := merge_frame hr
  exact h.of_value ⟨uc, hR.merge hinv hr, hmarks.congr huci⟩ huci hlock

theorem holds_commitStmt (h : Holds R s) :
    Holds R { s with
      value := s.value.stmtCallback false
      prepared := false
      statements := s.statements ++ s.current
      current := [] } := by
  obtain ⟨uc, hinv, -⟩ := h.row
  have huci := s.value.curUcInfo_stmtCallback_eq_none false
  refine ⟨⟨uc, ?_, ?_⟩, ?_, ?_, fun _ => rfl⟩
  · rw [append_nil, stmtCallback_false]
    refine hR.congr hinv rfl rfl rfl rfl ?_ ?_
    · rw [ucHead, ucHead, Option.bind_map]
      rfl
    · rw [ucTail, ucTail, Option.bind_map]
      rfl
  · exact .of_ucBefore_eq_none (s.value.ucBefore_stmtCallback false)
      (Nat.le_of_eq (hR.own hinv).nodes.length_eq)
  · intro hlock
    exact huci.2 (h.unlocked ((s.value.rowLock_stmtCallback false).symm.trans hlock))
  · intro hne
    have hpend := (h.info fun hnone => hne (huci.2 hnone)).1
    refine ⟨?_, fun hnil => absurd hnil hpend, fun hprep => by cases hprep⟩
    rwa [append_nil]

/-- What is left of a row when its statement is rolled back. -/
theorem holds_of_rollbackStmt {statements current : List (List WriteCell)} {prepared : Bool}
    (hinv : R snapshot history (statements ++ current) v uc) (hmarks : Marks v uc statements.length)
    (huci : v.curUcInfo ≠ none) (hprepared : statements = [] ↔ prepared = true)
    (hlock : v.rowLock ≠ none) :
    Holds R ⟨v.rollbackStmt prepared, false, snapshot, history, statements, []⟩ := by
  obtain ⟨uc', hinv', hmarks'⟩ :
      ∃ uc', R snapshot history statements (v.rollbackStmt prepared) uc' ∧
      Marks (v.rollbackStmt prepared) uc' statements.length := by
    rcases prepared with _ | _
    · have hne : statements ≠ [] := fun hnil => by cases hprepared.1 hnil
      have htake : (statements ++ current).take statements.length = statements := take_left
      have hinv' := hR.rollbackStmt hinv (by rwa [htake]) hmarks
      rw [htake] at hinv'
      refine ⟨uc.take statements.length, hinv', ?_⟩
      refine .of_ucBefore_eq_none (v.ucBefore_stmtCallback true) ?_
      rw [length_take]
      exact Nat.min_le_left _ _
    · obtain rfl : statements = [] := hprepared.2 rfl
      refine ⟨[], hR.rollbackAll hinv huci hmarks, .of_ucBefore_eq_none ?_ (Nat.le_refl 0)⟩
      rw [TEValue.rollbackStmt, if_pos rfl, TEValue.ucBefore, (TEValue.sessionCallback_frame ..).1]
      rfl
  refine ⟨⟨uc', ?_, hmarks'⟩, fun hnone => ?_, fun hne => ?_, fun _ => rfl⟩
  · rwa [append_nil]
  · exact absurd ((v.rowLock_rollbackStmt prepared).symm.trans hnone) hlock
  have hstatements : statements ≠ [] := fun hnil =>
    hne ((v.curUcInfo_rollbackStmt prepared).2 (.inl (hprepared.1 hnil)))
  refine ⟨?_, fun hnil => absurd hnil hstatements, fun hprep => by cases hprep⟩
  rwa [append_nil]

theorem holds_rollbackStmt (h : Holds R s) (hlock : s.value.rowLock ≠ none) :
    Holds R { s with
      value := s.value.rollbackStmt s.prepared
      prepared := false
      current := [] } := by
  by_cases huci : s.value.curUcInfo = none
  · obtain ⟨-, hcurrent⟩ := hR.eq_nil h huci
    have hv : s.value.rollbackStmt s.prepared = s.value := by
      rw [h.noInfo huci, TEValue.rollbackStmt, TEValue.stmtCallback, huci]
      rfl
    rwa [hv, ← h.noInfo huci, ← hcurrent]
  · obtain ⟨uc, hinv, hmarks⟩ := h.row
    exact hR.holds_of_rollbackStmt hinv hmarks huci (h.info huci).2 hlock

theorem holds_unlock (hinv : R snapshot history [] v [])
    (huci : v.curUcInfo = none) : Holds R ⟨v.unlock, false, snapshot, history, [], []⟩ := by
  have hunlock : R snapshot history [] v.unlock [] := by
    refine hR.congr hinv rfl rfl rfl rfl ?_ ?_
    · rw [ucHead, ucHead, huci]
      rfl
    · rw [ucTail, ucTail, huci]
      rfl
  exact ⟨⟨[], hunlock, .of_ucBefore_eq_none rfl (Nat.le_refl 0)⟩, fun _ => rfl,
    fun hne => absurd rfl hne, fun _ => rfl⟩

/-- The invariant for the snapshot of the session that writes. -/
theorem row_of_lock (h : Holds R s) (hok : okWrite snapshot cells)
    (hlock : s.value.rowLock = none ∨ s.value.rowLock = some sd ∧ snapshot = s.snapshot) :
    ∃ uc, R snapshot s.history (s.statements ++ s.current) s.value uc ∧
      Marks s.value uc s.statements.length := by
  obtain ⟨uc, hinv, hmarks⟩ := h.row
  rcases hlock with hlock | ⟨-, rfl⟩
  · obtain ⟨rfl, hpend⟩ := (hR.own hinv).eq_nil (h.unlocked hlock)
    rw [hpend] at hinv ⊢
    exact ⟨[], hR.snapshot hinv hok, hmarks⟩
  · exact ⟨uc, hinv, hmarks⟩

theorem prepared_iff (h : Holds R s) :
    s.statements = [] ↔ (s.prepared || s.value.curUcInfo.isNone) = true := by
  rcases huci : s.value.curUcInfo with _ | uci
  · simp [hR.eq_nil h huci]
  · simpa using (h.info (by simp [huci])).2

theorem holds_write (h : Holds R s) (hne : cells ≠ [])
    (hlock : s.value.rowLock = none ∨ s.value.rowLock = some sd ∧ snapshot = s.snapshot)
    (hok : okWrite snapshot cells)
    (hwrite : s.write arith maxRowCellNum rowKey sd snapshot cells = some s') : Holds R s' := by
  obtain ⟨uc, hinv, hmarks⟩ := hR.row_of_lock h hok hlock
  have hn : s.statements.length ≤ (s.statements ++ s.current).length := by
    rw [length_append]
    exact Nat.le_add_right _ _
  obtain ⟨r, hr, rfl⟩ := Option.map_eq_some_iff.1 hwrite
  have hcases := hR.set hinv hmarks hn (hlock.imp_right And.left) hne hok hr
  have hprepared := hR.prepared_iff h
  -- what is rolled back when the write has failed
  have hfail : ∀ current, Writing R sd snapshot s.history s.statements.length
      (s.statements ++ current) r.1 →
      Holds R ⟨r.1.rollbackStmt (s.prepared || s.value.curUcInfo.isNone), false, snapshot,
        s.history, s.statements, []⟩ := by
    intro current hwriting
    obtain ⟨uc', hinv', hbefore⟩ := hwriting.inv
    refine hR.holds_of_rollbackStmt hinv' (.of_ucBefore_eq_some hbefore) hwriting.info hprepared ?_
    rw [hwriting.locked]
    simp
  split
  · next hret =>
    have hwriting := hcases.resolve_right fun hc => hc.1 hret
    obtain ⟨uc', hinv', hbefore⟩ := hwriting.inv
    rw [append_assoc] at hinv'
    refine ⟨⟨uc', hinv', .of_ucBefore_eq_some hbefore⟩, fun hnone => ?_,
      fun _ => ⟨by simp, hprepared⟩, fun hnone => absurd hnone hwriting.info⟩
    exact nomatch hwriting.locked.symm.trans hnone
  · rcases hcases with hwriting | ⟨-, hwriting⟩
    · rw [append_assoc] at hwriting
      exact hfail _ hwriting
    · exact hfail _ hwriting

end

/-! ### Runs -/

theorem holds_step (hR : RowRule arith okWrite okCommit R) {a : RowAction} (h : Holds R s)
    (hok : StepOk okWrite okCommit s a)
    (hstep : step arith maxRowCellNum rowKey s a = some s') : Holds R s' := by
  rw [step] at hstep
  split at hstep
  · next henabled =>
    obtain ⟨uc, hinv, -⟩ := h.row
    cases a with
    | write sd snapshot cells => exact hR.holds_write h henabled.1 henabled.2 hok hstep
    | ownRead sd p =>
      obtain ⟨r, hr, rfl⟩ := Option.map_eq_some_iff.1 hstep
      exact hR.holds_read h hr
    | merge sd =>
      obtain ⟨r, hr, rfl⟩ := Option.map_eq_some_iff.1 hstep
      exact hR.holds_merge h hr
    | commitStmt sd =>
      cases hstep
      exact hR.holds_commitStmt h
    | rollbackStmt sd =>
      cases hstep
      refine hR.holds_rollbackStmt h ?_
      rw [show s.value.rowLock = some sd from henabled]
      simp
    | commit sd transId =>
      cases hstep
      obtain ⟨-, hpos, hlt, hlast⟩ := henabled
      exact hR.holds_unlock (hR.commit hinv hpos hlt hlast hok)
        (s.value.sessionCallback_frame false transId).1
    | rollback sd =>
      cases hstep
      exact hR.holds_unlock (hR.rollback hinv) (s.value.sessionCallback_frame true 0).1
  · cases hstep

theorem holds_init (h : R 0 [] [] empty []) : Holds R init :=
  ⟨⟨[], h, .of_ucBefore_eq_none rfl (Nat.le_refl 0)⟩, fun _ => rfl, fun hne => absurd rfl hne,
    fun _ => rfl⟩

/-- The **invariant rule for rows**. -/
theorem holds_of_run (hR : RowRule arith okWrite okCommit R) (hinit : R 0 [] [] empty [])
    {as : List RowAction}
    (hok : Meets (step arith maxRowCellNum rowKey) (StepOk okWrite okCommit) init as)
    (hrun : run (step arith maxRowCellNum rowKey) init as = some s) : Holds R s :=
  run_invariant_of_meets (fun _ _ _ h hp hs => hR.holds_step h hp hs) (holds_init hinit) hok hrun

end RowRule

end OceanBase.UpdateServer
