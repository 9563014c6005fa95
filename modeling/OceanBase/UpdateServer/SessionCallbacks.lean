import OceanBase.UpdateServer.SessionCtx

/-!
# When the session callbacks are invoked

`Waiting` says which callbacks are still to come, and that the others were invoked once, by the
rollback of their statement. A row whose callback is to come is locked, and its lock has not been
released since its uncommitted info came into being (`Unreleased`), so what `endSession` appends to
the log is known: the callbacks, and behind them the releases.
-/

namespace OceanBase.UpdateServer

open Lib List

namespace SessionCtx

variable {κ : Type} [DecidableEq κ] {sd : Nat} {s : SessionCtx κ}

/-! ### The log -/

def callbackEvents (ucInfos : List κ) (rollback : Bool) (us : List Nat) : List (SessionEvent κ) :=
  us.filterMap fun u => ucInfos[u]?.map fun row => .sessionCallback u row rollback

variable {ucInfos : List κ} {row : κ} {us ps : List Nat}

section Log

variable {log : List (SessionEvent κ)} {rollback : Bool} {us : List Nat} {u : Nat}
    {e : SessionEvent κ}

theorem held_concat : held row (log ++ [e]) = heldAfter row (held row log) e := by
  simp [held]

theorem held_append_callbackEvents (log : List (SessionEvent κ)) (us : List Nat) :
    held row (log ++ callbackEvents ucInfos rollback us) = held row log := by
  induction us generalizing log with
  | nil => simp [callbackEvents]
  | cons u us ih =>
    rcases hu : ucInfos[u]? with _ | r
    · simpa [callbackEvents, hu] using ih log
    have hcons : log ++ callbackEvents ucInfos rollback (u :: us) =
        (log ++ [.sessionCallback u r rollback]) ++ callbackEvents ucInfos rollback us := by
      simp [callbackEvents, hu]
    rw [hcons, ih, held_concat]
    rfl

omit [DecidableEq κ] in
theorem exists_of_mem_callbackEvents (h : e ∈ callbackEvents ucInfos rollback us) :
    ∃ u row, e = .sessionCallback u row rollback := by
  obtain ⟨u, -, hu⟩ := mem_filterMap.1 h
  obtain ⟨row, -, rfl⟩ := Option.map_eq_some_iff.1 hu
  exact ⟨u, row, rfl⟩

omit [DecidableEq κ] in
theorem filter_callbackEvents_of_notMem (ucInfos : List κ) (rollback : Bool) (h : u ∉ us) :
    (callbackEvents ucInfos rollback us).filter (isCallbackOf u) = [] := by
  rw [filter_eq_nil_iff]
  intro e he
  obtain ⟨v, hv, hev⟩ := mem_filterMap.1 he
  obtain ⟨r, -, rfl⟩ := Option.map_eq_some_iff.1 hev
  simpa [isCallbackOf] using fun heq : v = u => h (heq ▸ hv)

omit [DecidableEq κ] in
theorem filter_callbackEvents_of_mem (hnodup : us.Nodup) (h : u ∈ us)
    (hrow : ucInfos[u]? = some row) :
    (callbackEvents ucInfos rollback us).filter (isCallbackOf u) =
      [.sessionCallback u row rollback] := by
  induction us with
  | nil => cases h
  | cons v us ih =>
    obtain ⟨hv, hnodup⟩ := nodup_cons.1 hnodup
    obtain rfl | h := mem_cons.1 h
    · have hrest := filter_callbackEvents_of_notMem ucInfos rollback hv
      simpa [callbackEvents, hrow, isCallbackOf] using hrest
    have hne : v ≠ u := fun heq => hv (heq ▸ h)
    rcases hr : ucInfos[v]? with _ | r
    · simpa [callbackEvents, hr] using ih hnodup h
    · simpa [callbackEvents, hr, isCallbackOf, hne] using ih hnodup h

theorem Unreleased.append {es : List (SessionEvent κ)} (h : Unreleased log u row)
    (hes : .unlock row ∉ es) : Unreleased (log ++ es) u row := by
  obtain ⟨past, n, later, rfl, hheld, hlater⟩ := h
  refine ⟨past, n, later ++ es, by simp, hheld, ?_⟩
  rw [mem_append]
  exact fun hmem => hmem.elim hlater hes

omit [DecidableEq κ] in
theorem unlock_notMem_callbackEvents : .unlock row ∉ callbackEvents ucInfos rollback us := by
  intro hmem
  obtain ⟨_, _, heq⟩ := exists_of_mem_callbackEvents hmem
  cases heq

theorem along_append_callbackEvents (h : Along UnderLock log)
    (hheld : ∀ u ∈ us, ∀ row, ucInfos[u]? = some row → Unreleased log u row) :
    Along UnderLock (log ++ callbackEvents ucInfos rollback us) := by
  induction us using List.reverseRecOn with
  | nil => simpa [callbackEvents] using h
  | append_singleton us u ih =>
    have hlog := ih fun v hv => hheld v (mem_append_left _ hv)
    rcases hu : ucInfos[u]? with _ | row
    · simpa [callbackEvents, hu] using hlog
    have hevents : callbackEvents ucInfos rollback (us ++ [u]) =
        callbackEvents ucInfos rollback us ++ [.sessionCallback u row rollback] := by
      simp [callbackEvents, hu]
    rw [hevents, ← append_assoc, along_concat]
    exact ⟨hlog, (hheld u (by simp) row hu).append unlock_notMem_callbackEvents⟩

end Log

/-! ### What a call does -/

@[simp] theorem rowLock_setUcInfo (s : SessionCtx κ) (row row' : κ) (uci : Option (Nat × Nat)) :
    ((s.setUcInfo row uci).rows row').rowLock = (s.rows row').rowLock := by
  by_cases h : row' = row
  · subst h
    simp [setUcInfo]
  · simp [setUcInfo, h]

/-- Under the locks of their rows, the callbacks leave the locks and are logged. -/
theorem foldl_cbFunc (rollback : Bool)
    (h : ∀ u ∈ us, ∃ row, s.ucInfos[u]? = some row ∧ s.isLockedBy sd row) :
    ∃ rows, (us.map .teValue).foldl (cbFunc sd rollback) s =
        { s with rows := rows, log := s.log ++ callbackEvents s.ucInfos rollback us } ∧
      ∀ row, (rows row).rowLock = (s.rows row).rowLock := by
  induction us generalizing s with
  | nil => exact ⟨s.rows, by simp [callbackEvents], fun _ => rfl⟩
  | cons u us ih =>
    obtain ⟨⟨row, hrow, hlocked⟩, hus⟩ := forall_mem_cons.1 h
    have hone : ∃ rows, s.sessionCallback sd rollback u =
        { s with rows := rows, log := s.log ++ [.sessionCallback u row rollback] } ∧
          ∀ row, (rows row).rowLock = (s.rows row).rowLock := by
      unfold sessionCallback linkRow
      rw [hrow]
      dsimp only
      rw [if_pos hlocked]
      split
      · exact ⟨_, rfl, fun row' => rowLock_setUcInfo s row row' none⟩
      · exact ⟨_, rfl, fun _ => rfl⟩
    obtain ⟨rows₁, hone, hlock₁⟩ := hone
    have hus₁ : ∀ v ∈ us, ∃ row', (s.sessionCallback sd rollback u).ucInfos[v]? = some row' ∧
        (s.sessionCallback sd rollback u).isLockedBy sd row' := by
      intro v hv
      obtain ⟨row', hrow', hlocked'⟩ := hus v hv
      rw [hone]
      exact ⟨row', hrow', (hlock₁ row').trans hlocked'⟩
    obtain ⟨rows, hfold, hlock⟩ := ih hus₁
    refine ⟨rows, hfold.trans ?_, fun row' => (hlock row').trans ?_⟩
    · rw [hone]
      simp [callbackEvents, hrow]
    · rw [hone]
      exact hlock₁ row'

variable (sd) in
theorem foldl_rowUnlocker (rows : List κ) (s : SessionCtx κ) :
    ∃ unlocked : List κ, (rows.foldl (rowUnlocker sd) s).log = s.log ++ unlocked.map .unlock ∧
      ∀ row, (rows.foldl (rowUnlocker sd) s).isLockedBy sd row →
        s.isLockedBy sd row ∧ row ∉ rows := by
  induction rows generalizing s with
  | nil => exact ⟨[], by simp, fun row h => ⟨h, by simp⟩⟩
  | cons r rows ih =>
    have hone : ∃ unlocked : List κ,
        (s.rowUnlocker sd r).log = s.log ++ unlocked.map .unlock ∧
          ∀ row, (s.rowUnlocker sd r).isLockedBy sd row → s.isLockedBy sd row ∧ row ≠ r := by
      unfold rowUnlocker unlock
      split
      · refine ⟨[r], rfl, fun row h => ?_⟩
        by_cases hne : row = r
        · subst hne
          simp [isLockedBy, emit, setLock] at h
        · exact ⟨by simpa [isLockedBy, emit, setLock, hne] using h, hne⟩
      · rename_i hlocked
        refine ⟨[], by simp [setUcInfo], fun row h => ?_⟩
        have hne : row ≠ r := fun heq => hlocked (heq ▸ h)
        exact ⟨by simpa [isLockedBy, hne] using h, hne⟩
    obtain ⟨unlocked₁, hlog₁, hlock₁⟩ := hone
    obtain ⟨unlocked, hlog, hlock⟩ := ih (s.rowUnlocker sd r)
    refine ⟨unlocked₁ ++ unlocked, ?_, fun row h => ?_⟩
    · rw [foldl_cons, hlog, hlog₁]
      simp
    obtain ⟨h, hmem⟩ := hlock row h
    obtain ⟨h, hne⟩ := hlock₁ row h
    exact ⟨h, by simp [hne, hmem]⟩

/-! ### The callbacks that are still to come -/

/-- The event is neither a session callback nor about a statement's part in them. -/
def IsNeutral : SessionEvent κ → Prop
  | .lock _ | .unlock _ | .commitStmt _ | .ended _ => True
  | .attach _ _ _ | .sessionCallback _ _ _ | .rollbackStmt _ => False

/-- The uncommitted infos whose callback is still to come: `us` of the statements that have
committed and `ps` of the one that is running. For the others it was invoked by a rollback. -/
structure Waiting (us ps : List Nat) (ucInfos : List κ) (stmt : Nat)
    (log : List (SessionEvent κ)) : Prop where
  nodup : (us ++ ps).Nodup
  lt : ∀ u ∈ us ++ ps, u < ucInfos.length
  attached : ∀ u row n, .attach u row n ∈ log → ucInfos[u]? = some row ∧
    log.filter (isCallbackOf u) = if u ∈ us ++ ps then [] else [.sessionCallback u row true]
  fresh : ∀ u, ucInfos.length ≤ u → log.filter (isCallbackOf u) = []
  committed : ∀ u ∈ us, ∀ row n, .attach u row n ∈ log → n < stmt ∧ .rollbackStmt n ∉ log
  prepared : ∀ u ∈ ps, ∀ row n, .attach u row n ∈ log → n = stmt
  rolledBack : ∀ n, .rollbackStmt n ∈ log → n < stmt

namespace Waiting

omit [DecidableEq κ]

variable {stmt : Nat} {log es : List (SessionEvent κ)}

theorem filter_of_neutral (hes : ∀ e ∈ es, IsNeutral e) (u : Nat) :
    es.filter (isCallbackOf u) = [] := by
  rw [filter_eq_nil_iff]
  intro e he
  have hneutral := hes e he
  cases e <;> simp_all [IsNeutral, isCallbackOf]

section

variable (h : Waiting us ps ucInfos stmt log)
include h

theorem emit (hes : ∀ e ∈ es, IsNeutral e) : Waiting us ps ucInfos stmt (log ++ es) := by
  have hattach : ∀ u row n, .attach u row n ∈ log ++ es ↔ .attach u row n ∈ log := by
    intro u row n
    rw [mem_append, or_iff_left fun hmem => hes (.attach u row n) hmem]
  have hrollback : ∀ n, .rollbackStmt n ∈ log ++ es ↔ .rollbackStmt n ∈ log := by
    intro n
    rw [mem_append, or_iff_left fun hmem => hes (.rollbackStmt n) hmem]
  have hfilter : ∀ u, (log ++ es).filter (isCallbackOf u) = log.filter (isCallbackOf u) := by
    intro u
    rw [filter_append, filter_of_neutral hes, append_nil]
  refine ⟨h.nodup, h.lt, ?_, ?_, ?_, ?_, ?_⟩
  · simpa [hattach, hfilter] using h.attached
  · simpa [hfilter] using h.fresh
  · simpa [hattach, hrollback] using h.committed
  · simpa [hattach] using h.prepared
  · simpa [hrollback] using h.rolledBack

theorem attach (row₀ : κ) :
    Waiting us (ucInfos.length :: ps) (ucInfos ++ [row₀]) stmt
      (log ++ [.attach ucInfos.length row₀ stmt]) := by
  have hnew : ucInfos.length ∉ us ++ ps := fun hmem => lt_irrefl _ (h.lt _ hmem)
  have hold : ∀ u row n, .attach u row n ∈ log → u < ucInfos.length := fun u row n hmem =>
    (List.getElem?_eq_some_iff.1 (h.attached u row n hmem).1).1
  have hfilter : ∀ u, List.filter (isCallbackOf u) (log ++ [.attach ucInfos.length row₀ stmt]) =
      log.filter (isCallbackOf u) := by
    intro u
    rw [filter_append]
    exact append_nil _
  have hperm : (us ++ ucInfos.length :: ps).Perm (ucInfos.length :: (us ++ ps)) :=
    perm_middle
  refine ⟨hperm.nodup_iff.2 (nodup_cons.2 ⟨hnew, h.nodup⟩), ?_, ?_, ?_, ?_, ?_, ?_⟩
  · intro u hu
    rw [hperm.mem_iff, mem_cons] at hu
    rw [length_append, length_singleton]
    obtain rfl | hu := hu
    · omega
    · have := h.lt u hu
      omega
  · intro u row n hmem
    simp only [hfilter, hperm.mem_iff, mem_cons]
    obtain hmem | hmem := mem_append.1 hmem
    · have hlt := hold u row n hmem
      obtain ⟨hrow, hcallbacks⟩ := h.attached u row n hmem
      simp only [getElem?_append_left hlt, hlt.ne, false_or]
      exact ⟨hrow, hcallbacks⟩
    · cases mem_singleton.1 hmem
      rw [if_pos (.inl rfl)]
      exact ⟨getElem?_concat_length, h.fresh _ le_rfl⟩
  · intro u hu
    rw [length_append, length_singleton] at hu
    rw [hfilter]
    exact h.fresh u (by omega)
  · intro u hu row n hmem
    obtain hmem | hmem := mem_append.1 hmem
    · obtain ⟨hlt, hnot⟩ := h.committed u hu row n hmem
      exact ⟨hlt, by simpa using hnot⟩
    · cases mem_singleton.1 hmem
      exact absurd (mem_append_left _ hu) hnew
  · intro u hu row n hmem
    obtain hmem | hmem := mem_append.1 hmem
    · obtain rfl | hu := mem_cons.1 hu
      · exact absurd (hold _ row n hmem) (lt_irrefl _)
      · exact h.prepared u hu row n hmem
    · cases mem_singleton.1 hmem
      rfl
  · intro n hn
    exact h.rolledBack n (by simpa using hn)

theorem commitStmt :
    Waiting (ps.reverse ++ us) [] ucInfos (stmt + 1) (log ++ [.commitStmt stmt]) := by
  have hcommit : Waiting us ps ucInfos stmt (log ++ [.commitStmt stmt]) :=
    h.emit (by simp [IsNeutral])
  have hmem : ∀ u, u ∈ (ps.reverse ++ us) ++ [] ↔ u ∈ us ++ ps := by
    intro u
    simp [or_comm]
  refine ⟨?_, ?_, ?_, hcommit.fresh, ?_, by simp, ?_⟩
  · rw [append_nil]
    exact (((reverse_perm ps).append_right us).trans perm_append_comm).nodup_iff.2 h.nodup
  · simpa only [hmem] using h.lt
  · simpa only [hmem] using hcommit.attached
  · intro u hu row n hattach
    obtain hu | hu := mem_append.1 hu
    · obtain rfl := hcommit.prepared u (mem_reverse.1 hu) row n hattach
      exact ⟨Nat.lt_succ_self n, fun hn => lt_irrefl n (hcommit.rolledBack n hn)⟩
    · obtain ⟨hlt, hnot⟩ := hcommit.committed u hu row n hattach
      exact ⟨hlt.trans (Nat.lt_succ_self stmt), hnot⟩
  · exact fun n hn => (hcommit.rolledBack n hn).trans (Nat.lt_succ_self stmt)

theorem rollbackStmt :
    Waiting us [] ucInfos (stmt + 1)
      (log ++ callbackEvents ucInfos true ps ++ [.rollbackStmt stmt]) := by
  have hattach : ∀ u row n,
      .attach u row n ∈ log ++ callbackEvents ucInfos true ps ++ [.rollbackStmt stmt] →
        .attach u row n ∈ log := by
    intro u row n hmem
    simp only [mem_append, mem_singleton, reduceCtorEq, or_false] at hmem
    refine hmem.resolve_right fun he => ?_
    obtain ⟨_, _, heq⟩ := exists_of_mem_callbackEvents he
    cases heq
  have hrollback : ∀ n,
      .rollbackStmt n ∈ log ++ callbackEvents ucInfos true ps ++ [.rollbackStmt stmt] →
        .rollbackStmt n ∈ log ∨ n = stmt := by
    intro n hmem
    simp only [mem_append, mem_singleton, SessionEvent.rollbackStmt.injEq] at hmem
    refine hmem.imp_left fun hmem => hmem.resolve_right fun he => ?_
    obtain ⟨_, _, heq⟩ := exists_of_mem_callbackEvents he
    cases heq
  have hfilter : ∀ u, List.filter (isCallbackOf u)
      (log ++ callbackEvents ucInfos true ps ++ [.rollbackStmt stmt]) =
        log.filter (isCallbackOf u) ++
          (callbackEvents ucInfos true ps).filter (isCallbackOf u) := by
    intro u
    rw [filter_append, filter_append]
    exact append_nil _
  obtain ⟨hus, hps, hdisjoint⟩ := nodup_append'.1 h.nodup
  refine ⟨by simpa using hus, fun u hu => h.lt u (by simp_all), ?_, ?_, ?_, by simp, ?_⟩
  · intro u row n hmem
    obtain ⟨hrow, hcallbacks⟩ := h.attached u row n (hattach u row n hmem)
    refine ⟨hrow, ?_⟩
    rw [hfilter, hcallbacks, append_nil]
    by_cases hu : u ∈ ps
    · have hnot : u ∉ us := fun hmem => hdisjoint hmem hu
      rw [filter_callbackEvents_of_mem hps hu hrow, if_neg hnot, if_pos (mem_append_right _ hu),
        nil_append]
    · rw [filter_callbackEvents_of_notMem ucInfos true hu, append_nil]
      simp [hu]
  · intro u hu
    have hnot : u ∉ ps := fun hmem =>
      absurd (h.lt u (mem_append_right _ hmem)) (Nat.not_lt.2 hu)
    rw [hfilter, h.fresh u hu, filter_callbackEvents_of_notMem ucInfos true hnot, append_nil]
  · intro u hu row n hmem
    obtain ⟨hlt, hnot⟩ := h.committed u hu row n (hattach u row n hmem)
    refine ⟨hlt.trans (Nat.lt_succ_self stmt), fun hn => ?_⟩
    exact (hrollback n hn).elim hnot hlt.ne
  · intro n hn
    exact (hrollback n hn).elim (fun hn => (h.rolledBack n hn).trans (Nat.lt_succ_self stmt))
      fun heq => heq ▸ Nat.lt_succ_self n

end

end Waiting

/-! ### Runs -/

variable (sd) in
/-- A session that is running. -/
structure Inv (s : SessionCtx κ) (us ps : List Nat) : Prop where
  callbackList : s.callbackMgr.callbackList = us.map .teValue ++ [.lockInfo]
  prepareList : s.callbackMgr.prepareList = ps.map .teValue
  waiting : Waiting us ps s.ucInfos s.stmt s.log
  locked : ∀ u ∈ us ++ ps, ∃ row, s.ucInfos[u]? = some row ∧ s.isLockedBy sd row
  unreleased : ∀ u ∈ us ++ ps, ∀ row, s.ucInfos[u]? = some row → Unreleased s.log u row
  listed : ∀ row, s.isLockedBy sd row → row ∈ s.lockInfo.callbackList
  held_iff : ∀ row, held row s.log = true ↔ s.isLockedBy sd row
  underLock : Along UnderLock s.log
  running : s.commitDone = false

theorem along_append_of_neutral {log es : List (SessionEvent κ)} (h : Along UnderLock log)
    (hes : ∀ e ∈ es, IsNeutral e) : Along UnderLock (log ++ es) := by
  induction es using List.reverseRecOn with
  | nil => simpa using h
  | append_singleton es e ih =>
    rw [← append_assoc, along_concat]
    refine ⟨ih fun e he => hes e (mem_append_left _ he), ?_⟩
    have hneutral := hes e (by simp)
    cases e <;> trivial

namespace Inv

variable {s' : SessionCtx κ}

theorem start {rows : κ → LockedRow} (h : ∀ row, (rows row).rowLock ≠ some sd) :
    Inv sd (SessionCtx.start rows) [] [] where
  callbackList := rfl
  prepareList := rfl
  waiting := ⟨by simp, by simp, by simp [SessionCtx.start], by simp [SessionCtx.start], by simp,
    by simp, by simp [SessionCtx.start]⟩
  locked := by simp
  unreleased := by simp
  listed row hrow := absurd hrow (h row)
  held_iff row := iff_of_false (by simp [SessionCtx.start, held]) (h row)
  underLock := along_nil
  running := rfl

section

variable (h : Inv sd s us ps)
include h

/-- A step that only changes locks the session does not have, or takes some. -/
theorem of_locks (es : List (SessionEvent κ)) (hmgr : s'.callbackMgr = s.callbackMgr)
    (hucis : s'.ucInfos = s.ucInfos) (hstmt : s'.stmt = s.stmt)
    (hdone : s'.commitDone = s.commitDone) (hlog : s'.log = s.log ++ es)
    (hes : ∀ e ∈ es, IsNeutral e) (hunlock : ∀ row, s.isLockedBy sd row → .unlock row ∉ es)
    (hkeep : ∀ row, s.isLockedBy sd row → s'.isLockedBy sd row)
    (hlisted : ∀ row, s'.isLockedBy sd row → row ∈ s'.lockInfo.callbackList)
    (hheld : ∀ row, held row s'.log = true ↔ s'.isLockedBy sd row) : Inv sd s' us ps where
  callbackList := hmgr ▸ h.callbackList
  prepareList := hmgr ▸ h.prepareList
  waiting := by
    rw [hucis, hstmt, hlog]
    exact h.waiting.emit hes
  locked u hu := by
    obtain ⟨row, hrow, hlocked⟩ := h.locked u hu
    exact ⟨row, hucis ▸ hrow, hkeep row hlocked⟩
  unreleased u hu row hrow := by
    rw [hucis] at hrow
    obtain ⟨row', hrow', hlocked⟩ := h.locked u hu
    obtain rfl := Option.some.inj (hrow.symm.trans hrow')
    rw [hlog]
    exact (h.unreleased u hu row hrow).append (hunlock row hlocked)
  listed := hlisted
  held_iff := hheld
  underLock := hlog ▸ along_append_of_neutral h.underLock hes
  running := hdone.trans h.running

theorem onWriteBegin (row : κ) (alloc : Bool) :
    Inv sd (s.onWriteBegin sd row alloc).1 us ps ∧
      ((s.onWriteBegin sd row alloc).2 = .success →
        (s.onWriteBegin sd row alloc).1.isLockedBy sd row) := by
  unfold SessionCtx.onWriteBegin
  by_cases hlocked : s.isLockedBy sd row
  · rw [if_pos hlocked]
    exact ⟨h, fun _ => hlocked⟩
  rw [if_neg hlocked]
  by_cases hfree : (s.rows row).rowLock = none
  swap
  · rw [if_neg hfree]
    exact ⟨h, fun hret => nomatch hret⟩
  rw [if_pos hfree]
  have hnew : ∀ row', ((s.setLock row (some sd)).rows row').rowLock = some sd ↔
      s.isLockedBy sd row' ∨ row' = row := by
    intro row'
    by_cases hrow : row' = row
    · simp [SessionCtx.setLock, hrow]
    · simp [SessionCtx.setLock, SessionCtx.isLockedBy, hrow]
  rcases alloc with _ | _
  · -- the lock is given back at once
    have hback : ((s.setLock row (some sd)).emit [.lock row]).unlock sd row =
        (((s.setLock row (some sd)).emit [.lock row]).setLock row none).emit [.unlock row] :=
      if_pos ((hnew row).2 (.inr rfl))
    have hsame : ∀ row', ((((s.setLock row (some sd)).emit [.lock row]).setLock row
        none).rows row').rowLock = (s.rows row').rowLock := by
      intro row'
      by_cases hrow : row' = row
      · subst hrow
        simp [SessionCtx.setLock, hfree]
      · simp [SessionCtx.setLock, SessionCtx.emit, hrow]
    show Inv sd (((s.setLock row (some sd)).emit [.lock row]).unlock sd row) us ps ∧ _
    rw [hback]
    refine ⟨h.of_locks [.lock row, .unlock row] rfl rfl rfl rfl (append_assoc ..)
      (by simp [IsNeutral]) ?_ ?_ ?_ ?_, fun hret => nomatch hret⟩
    · intro row' hrow' hmem
      obtain rfl : row' = row := by simpa using hmem
      exact hlocked hrow'
    · exact fun row' hrow' => (hsame row').trans hrow'
    · exact fun row' hrow' => h.listed row' ((hsame row').symm.trans hrow')
    intro row'
    have hiff : (((((s.setLock row (some sd)).emit [.lock row]).setLock row none).emit
        [.unlock row]).isLockedBy sd row') ↔ s.isLockedBy sd row' :=
      Eq.congr_left (hsame row')
    rw [hiff, ← h.held_iff row']
    show held row' ((s.log ++ [.lock row]) ++ [.unlock row]) = true ↔ _
    rw [held_concat, held_concat, heldAfter, heldAfter]
    by_cases hrow : row = row'
    · subst hrow
      have hnot : held row s.log = false :=
        Bool.eq_false_iff.2 fun hheld => hlocked ((h.held_iff row).1 hheld)
      simp [hnot]
    · simp [hrow]
  · refine ⟨h.of_locks [.lock row] rfl rfl rfl rfl rfl (by simp [IsNeutral]) (by simp) ?_ ?_
      ?_, fun _ => (hnew row).2 (.inr rfl)⟩
    · exact fun row' hrow' => (hnew row').2 (.inl hrow')
    · intro row' hrow'
      obtain hrow' | rfl := (hnew row').1 hrow'
      · exact mem_cons_of_mem _ (h.listed row' hrow')
      · exact mem_cons_self
    intro row'
    refine Iff.trans ?_ (hnew row').symm
    show held row' (s.log ++ [.lock row]) = true ↔ _
    rw [held_concat, heldAfter, Bool.or_eq_true, h.held_iff, decide_eq_true_eq, eq_comm]

theorem getUcInfo (hrow : s.isLockedBy sd row) (alloc prepare : Bool) :
    ∃ ps', Inv sd (s.getUcInfo sd row alloc prepare).1 us ps' := by
  unfold SessionCtx.getUcInfo
  rcases (s.rows row).curUcInfo with _ | uci
  · rcases alloc with _ | _
    · exact ⟨ps, h⟩
    rcases prepare with _ | _
    · exact ⟨ps, h⟩
    have hlocks : ∀ row', ((s.setUcInfo row (some (sd, s.ucInfos.length))).rows row').rowLock =
        (s.rows row').rowLock := fun row' => rowLock_setUcInfo s row row' _
    refine ⟨s.ucInfos.length :: ps, ⟨h.callbackList, ?_, h.waiting.attach row, ?_, ?_, ?_, ?_,
      ?_, h.running⟩⟩
    · exact congrArg (_ :: ·) h.prepareList
    · intro u hu
      rw [perm_middle.mem_iff, mem_cons] at hu
      obtain rfl | hu := hu
      · exact ⟨row, getElem?_concat_length, (hlocks row).trans hrow⟩
      obtain ⟨row', hrow', hlocked⟩ := h.locked u hu
      refine ⟨row', ?_, (hlocks row').trans hlocked⟩
      exact (getElem?_append_left (h.waiting.lt u hu)).trans hrow'
    · intro u hu row' hrow'
      rw [perm_middle.mem_iff, mem_cons] at hu
      obtain rfl | hu := hu
      · obtain rfl : row = row' :=
          Option.some.inj (getElem?_concat_length.symm.trans hrow')
        exact ⟨s.log, s.stmt, [], rfl, (h.held_iff row).2 hrow, not_mem_nil⟩
      have hold : s.ucInfos[u]? = some row' :=
        (getElem?_append_left (h.waiting.lt u hu)).symm.trans hrow'
      exact (h.unreleased u hu row' hold).append (by simp)
    · exact fun row' hrow' => h.listed row' ((hlocks row').symm.trans hrow')
    · intro row'
      show held row' (s.log ++ [.attach s.ucInfos.length row s.stmt]) = true ↔ _
      rw [held_concat]
      exact (h.held_iff row').trans (Eq.congr_left (hlocks row')).symm
    · exact along_concat.2 ⟨h.underLock, trivial⟩
  · exact ⟨ps, h⟩

theorem getCurValue {isRowChanged : Bool}
    (hrow : isRowChanged = true ∨ s.isLockedBy sd row) (allocs : Allocs) :
    ∃ ps', Inv sd (s.getCurValue sd row isRowChanged allocs).1 us ps' := by
  have hlocked : Inv sd (if isRowChanged then s.onWriteBegin sd row allocs.lock
        else (s, .success)).1 us ps ∧
      ((if isRowChanged then s.onWriteBegin sd row allocs.lock else (s, .success)).2 = .success →
        (if isRowChanged then s.onWriteBegin sd row allocs.lock
          else (s, .success)).1.isLockedBy sd row) := by
    rcases isRowChanged with _ | _
    · exact ⟨h, fun _ => hrow.resolve_left Bool.false_ne_true⟩
    · exact h.onWriteBegin row allocs.lock
  unfold SessionCtx.getCurValue
  generalize (if isRowChanged then s.onWriteBegin sd row allocs.lock else (s, .success)) = r
    at hlocked ⊢
  obtain ⟨t, ret⟩ := r
  by_cases hret : ret = .success
  · subst hret
    exact hlocked.1.getUcInfo (hlocked.2 rfl) _ _
  refine ⟨ps, ?_⟩
  -- any error leaves the state as it is
  cases ret <;> first | exact absurd rfl hret | exact hlocked.1

theorem commitStmt : Inv sd s.commitStmt (ps.reverse ++ us) [] where
  callbackList := by
    show CallbackMgr.spliced s.callbackMgr.prepareList s.callbackMgr.callbackList = _
    rw [CallbackMgr.spliced_eq, h.callbackList, h.prepareList]
    simp
  prepareList := rfl
  waiting := h.waiting.commitStmt
  locked u hu := h.locked u (by simpa [or_comm] using hu)
  unreleased u hu row hrow :=
    (h.unreleased u (by simpa [or_comm] using hu) row hrow).append (by simp)
  listed := h.listed
  held_iff row := by
    show held row (s.log ++ [.commitStmt s.stmt]) = true ↔ _
    rw [held_concat]
    exact h.held_iff row
  underLock := along_concat.2 ⟨h.underLock, trivial⟩
  running := h.running

theorem rollbackStmt : Inv sd (s.rollbackStmt sd) us [] := by
  obtain ⟨rows, hfold, hlocks⟩ :=
    foldl_cbFunc true fun u hu => h.locked u (mem_append_right us hu)
  have hstate : s.rollbackStmt sd = { s with
      callbackMgr := ⟨s.callbackMgr.callbackList, []⟩
      rows := rows
      stmt := s.stmt + 1
      log := s.log ++ callbackEvents s.ucInfos true ps ++ [.rollbackStmt s.stmt] } := by
    unfold SessionCtx.rollbackStmt SessionCtx.rollbackPrepareList
    rw [h.prepareList, hfold]
    rfl
  rw [hstate]
  refine ⟨h.callbackList, rfl, h.waiting.rollbackStmt, ?_, ?_, ?_, ?_, ?_, h.running⟩
  · intro u hu
    obtain ⟨row, hrow, hlocked⟩ := h.locked u (mem_append_left _ (by simpa using hu))
    exact ⟨row, hrow, (hlocks row).trans hlocked⟩
  · intro u hu row hrow
    have hold := h.unreleased u (mem_append_left _ (by simpa using hu)) row hrow
    exact (hold.append unlock_notMem_callbackEvents).append (by simp)
  · exact fun row hrow => h.listed row ((hlocks row).symm.trans hrow)
  · intro row
    have hheld : held row (s.log ++ callbackEvents s.ucInfos true ps ++ [.rollbackStmt s.stmt]) =
        held row s.log := held_concat.trans (held_append_callbackEvents s.log ps)
    refine (Eq.congr_left hheld).trans ((h.held_iff row).trans ?_)
    exact (Eq.congr_left (hlocks row)).symm
  · refine along_concat.2 ⟨along_append_callbackEvents h.underLock ?_, trivial⟩
    exact fun u hu => h.unreleased u (mem_append_right us hu)

theorem other {value : LockedRow} (hrow : ¬s.isLockedBy sd row) (hvalue : value.rowLock ≠ some sd) :
    Inv sd { s with rows := Function.update s.rows row value } us ps := by
  have hlocks : ∀ row', (Function.update s.rows row value row').rowLock = some sd ↔
      s.isLockedBy sd row' :=
    (Function.forall_update_iff s.rows fun row' value => value.rowLock = some sd ↔ _).2
      ⟨iff_of_false hvalue hrow, fun _ _ => Iff.rfl⟩
  refine h.of_locks [] rfl rfl rfl rfl (append_nil _).symm (by simp) (by simp) ?_ ?_ ?_
  · exact fun row' hrow' => (hlocks row').2 hrow'
  · exact fun row' hrow' => h.listed row' ((hlocks row').1 hrow')
  · exact fun row' => (h.held_iff row').trans (hlocks row').symm

theorem step {a : Action κ} (hstep : s.step sd a = some s') : ∃ us' ps', Inv sd s' us' ps' := by
  cases a with
  | lockRow row alloc =>
    cases hstep
    exact ⟨us, ps, (h.onWriteBegin row alloc).1⟩
  | write row isRowChanged allocs =>
    obtain ⟨hrow, hstep⟩ := Option.ite_none_right_eq_some.1 hstep
    cases hstep
    exact ⟨us, h.getCurValue hrow allocs⟩
  | commitStmt =>
    cases hstep
    exact ⟨_, [], h.commitStmt⟩
  | rollbackStmt =>
    cases hstep
    exact ⟨us, [], h.rollbackStmt⟩
  | other row value =>
    obtain ⟨hrow, hstep⟩ := Option.ite_none_right_eq_some.1 hstep
    cases hstep
    exact ⟨us, ps, h.other hrow.1 hrow.2⟩

end

end Inv

/-! ### The end of the session -/

variable (sd) in
/-- How a session leaves the callbacks: each was invoked once, committing only if the session and
the statement did, which `stmtOk` says of the log and the statement, and before the lock of its row
was released; and no lock is left. -/
structure CallbacksSettled (stmtOk : List (SessionEvent κ) → Nat → Prop) (needRollback : Bool)
    (s : SessionCtx κ) : Prop where
  once : ∀ u row n, .attach u row n ∈ s.log → ∃ rollback,
    s.log.filter (isCallbackOf u) = [.sessionCallback u row rollback] ∧
      (rollback = false → needRollback = false ∧ stmtOk s.log n)
  underLock : Along UnderLock s.log
  unlocked : ∀ row, ¬s.isLockedBy sd row

/-- The session callbacks come first, the release of the locks comes last. -/
theorem callback_spec (rollback : Bool)
    (hlist : s.callbackMgr.callbackList = us.map .teValue ++ [.lockInfo])
    (hlocked : ∀ u ∈ us, ∃ row, s.ucInfos[u]? = some row ∧ s.isLockedBy sd row) :
    ∃ unlocked : List κ, (s.callback sd rollback).log =
        s.log ++ callbackEvents s.ucInfos rollback us ++ unlocked.map .unlock ∧
      ∀ row, (s.callback sd rollback).isLockedBy sd row →
        s.isLockedBy sd row ∧ row ∉ s.lockInfo.callbackList := by
  obtain ⟨rows, hfold, hlocks⟩ := foldl_cbFunc rollback hlocked
  obtain ⟨unlocked, hlog, hfree⟩ := foldl_rowUnlocker sd s.lockInfo.callbackList
    { s with rows := rows, log := s.log ++ callbackEvents s.ucInfos rollback us }
  unfold callback
  rw [hlist, foldl_append, hfold]
  refine ⟨unlocked, hlog, fun row hrow => ?_⟩
  obtain ⟨hrow, hnot⟩ := hfree row hrow
  exact ⟨(hlocks row).symm.trans hrow, hnot⟩

theorem Inv.endSession_spec (h : Inv sd s us ps) (needRollback : Bool) :
    ∃ unlocked : List κ, (s.endSession sd needRollback).log = s.log ++ [.ended needRollback] ++
        callbackEvents s.ucInfos needRollback (ps.reverse ++ us) ++ unlocked.map .unlock ∧
      ∀ row, ¬(s.endSession sd needRollback).isLockedBy sd row := by
  have hlist : (s.emit [.ended needRollback]).commitPrepareList.callbackMgr.callbackList =
      (ps.reverse ++ us).map .teValue ++ [.lockInfo] := by
    show CallbackMgr.spliced s.callbackMgr.prepareList s.callbackMgr.callbackList = _
    rw [CallbackMgr.spliced_eq, h.callbackList, h.prepareList]
    simp
  obtain ⟨unlocked, hlog, hfree⟩ := callback_spec needRollback hlist fun u hu =>
    h.locked u (by simpa [or_comm] using hu)
  have hend : s.endSession sd needRollback =
      { ((s.emit [.ended needRollback]).commitPrepareList.callback sd needRollback) with
        commitDone := true } := if_neg (by simp [h.running])
  rw [hend]
  refine ⟨unlocked, hlog, fun row hrow => ?_⟩
  obtain ⟨hlocked, hnot⟩ := hfree row hrow
  exact hnot (h.listed row hlocked)

theorem Inv.callbacksSettled (h : Inv sd s us ps) (needRollback : Bool) :
    CallbacksSettled sd (fun log n => .rollbackStmt n ∉ log) needRollback
      (s.endSession sd needRollback) := by
  obtain ⟨unlocked, hlog, hfree⟩ := h.endSession_spec needRollback
  have hended : Waiting us ps s.ucInfos s.stmt (s.log ++ [.ended needRollback]) :=
    h.waiting.emit (by simp [IsNeutral])
  have hunlock : ∀ e ∈ unlocked.map SessionEvent.unlock, IsNeutral e := by simp [IsNeutral]
  have hperm : (ps.reverse ++ us).Perm (us ++ ps) :=
    ((reverse_perm ps).append_right us).trans perm_append_comm
  -- beyond the log so far there are only session callbacks and the release of locks
  have hmem : ∀ e, e ∈ (s.endSession sd needRollback).log → ¬IsNeutral e →
      e ∈ s.log ++ [.ended needRollback] ∨ ∃ u row, e = .sessionCallback u row needRollback := by
    intro e he hneutral
    rw [hlog, mem_append, mem_append] at he
    obtain (he | he) | he := he
    · exact .inl he
    · exact .inr (exists_of_mem_callbackEvents he)
    · exact absurd (hunlock e he) hneutral
  refine ⟨fun u row n hattach => ?_, ?_, hfree⟩
  · have hattach' : .attach u row n ∈ s.log ++ [.ended needRollback] :=
      (hmem _ hattach id).resolve_right (by rintro ⟨_, _, heq⟩; cases heq)
    obtain ⟨hrow, hcallbacks⟩ := hended.attached u row n hattach'
    have hfilter : (s.endSession sd needRollback).log.filter (isCallbackOf u) =
        List.filter (isCallbackOf u) (s.log ++ [.ended needRollback]) ++
          (callbackEvents s.ucInfos needRollback (ps.reverse ++ us)).filter (isCallbackOf u) := by
      rw [hlog, filter_append, filter_append, Waiting.filter_of_neutral hunlock, append_nil]
    by_cases hu : u ∈ us ++ ps
    · refine ⟨needRollback, ?_, fun hfalse => ⟨hfalse, fun hn => ?_⟩⟩
      · rw [hfilter, hcallbacks, if_pos hu, nil_append]
        exact filter_callbackEvents_of_mem (hperm.nodup_iff.2 h.waiting.nodup)
          (hperm.mem_iff.2 hu) hrow
      have hn' : .rollbackStmt n ∈ s.log ++ [.ended needRollback] :=
        (hmem _ hn id).resolve_right (by rintro ⟨_, _, heq⟩; cases heq)
      obtain hu | hu := mem_append.1 hu
      · exact (hended.committed u hu row n hattach').2 hn'
      · obtain rfl := hended.prepared u hu row n hattach'
        exact lt_irrefl _ (hended.rolledBack _ hn')
    · refine ⟨true, ?_, fun hfalse => nomatch hfalse⟩
      rw [hfilter, hcallbacks, if_neg hu,
        filter_callbackEvents_of_notMem _ _ (mt hperm.mem_iff.1 hu), append_nil]
  · rw [hlog]
    refine along_append_of_neutral (along_append_callbackEvents
      (along_append_of_neutral h.underLock (by simp [IsNeutral])) fun u hu row hrow => ?_) hunlock
    exact (h.unreleased u (hperm.mem_iff.1 hu) row hrow).append (by simp)

/-- **Session callbacks.** However a session went on until it ends, each session callback is invoked
once, committing only if the session commits and its statement was not rolled back, and before the
lock of the row is released. -/
theorem callbacksSettled_of_run {rows : κ → LockedRow} (hrows : ∀ row, (rows row).rowLock ≠ some sd)
    {as : List (Action κ)} (hrun : run (step sd) (start rows) as = some s) (needRollback : Bool) :
    CallbacksSettled sd (fun log n => .rollbackStmt n ∉ log) needRollback
      (s.endSession sd needRollback) := by
  have hstart : ∃ us ps, Inv sd (start rows) us ps := ⟨[], [], .start hrows⟩
  have hstep : ∀ (s : SessionCtx κ) a s', (∃ us ps, Inv sd s us ps) → step sd s a = some s' →
      ∃ us ps, Inv sd s' us ps := by
    rintro s a s' ⟨us, ps, h⟩ hstep
    exact h.step hstep
  obtain ⟨us, ps, h⟩ := run_invariant hstep hstart hrun
  exact h.callbacksSettled needRollback

/-- One statement that commits, one that is rolled back and one that is still open. -/
theorem callbacksSettled_of_run_threeStmts : ∃ s,
    run (step 1) (start fun _ : Bool => ⟨none, none⟩)
      [.write true true ⟨true, true, true⟩, .commitStmt, .write false true ⟨true, true, true⟩,
        .rollbackStmt, .write false true ⟨true, true, true⟩] = some s ∧
    CallbacksSettled 1 (fun log n => .rollbackStmt n ∉ log) false (s.endSession 1 false) := by
  have hrun : ∃ s, run (step 1) (start fun _ : Bool => ⟨none, none⟩)
      [.write true true ⟨true, true, true⟩, .commitStmt, .write false true ⟨true, true, true⟩,
        .rollbackStmt, .write false true ⟨true, true, true⟩] = some s := ⟨_, rfl⟩
  obtain ⟨s, hrun⟩ := hrun
  exact ⟨s, hrun, callbacksSettled_of_run (by simp) hrun false⟩

/-- The statement is still open when the session commits. -/
theorem not_callbacksSettled_openStmt : ∃ s,
    run (step 1) (start fun _ : Unit => ⟨none, none⟩) [.write () true ⟨true, true, true⟩] = some s ∧
    ¬CallbacksSettled 1 (fun log n => .commitStmt n ∈ log) false (s.endSession 1 false) := by
  refine ⟨_, rfl, fun h => ?_⟩
  obtain ⟨rollback, hcallbacks, hcommit⟩ := h.once 0 () 0 (by decide)
  have hfalse : rollback = false := by
    rcases rollback with _ | _
    · rfl
    · exact absurd hcallbacks (by decide)
  exact absurd (hcommit hfalse).2 (by decide)

end SessionCtx

end OceanBase.UpdateServer
