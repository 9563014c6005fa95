import OceanBase.UpdateServer.RowChain

/-!
# The invariant of a row

The committed list of a row stands for its history: the head stands for the first mutations, and
every other node holds one of the rest. Each undo node does the same for the history up to where the
list that replaced it starts.

Only the tail of the committed list and the uncommitted nodes are ever written (`Sealed`). So the
steps that do not compact the row keep all of this for reasons of the lists only (`SealedKept`).
-/

namespace OceanBase.UpdateServer

open Common Lib LinkedList List TEValue CellInfoNode

variable {arith : Arith} {p : ReadParam} {heap heap' : List CellInfoNode} {transId : Int}

/-! ### Nodes that are not written any more -/

/-- A node that no step stores into: not the tail of the list, and committed. -/
def Sealed (v : TEValue) (uc : List Nat) (a : Nat) : Prop :=
  a < v.heap.length ∧ a ∉ uc ∧ v.listTail ≠ some a

/-- A step from `v` to `v'` stores only into nodes that are not sealed. -/
structure SealedKept (v : TEValue) (uc : List Nat) (v' : TEValue) (uc' : List Nat) : Prop where
  keeps : Keeps v.heap v'.heap
  link : ∀ a, Sealed v uc a →
    v'.heap[a]?.map CellInfoNode.next = v.heap[a]?.map CellInfoNode.next
  kept : ∀ a, Sealed v uc a → Sealed v' uc' a

theorem map_next_setNext {heap : List CellInfoNode} {q next : Option Nat} {a : Nat}
    (h : q ≠ some a) : (TEValue.setNext heap q next)[a]?.map CellInfoNode.next =
      heap[a]?.map CellInfoNode.next := by
  rcases q with _ | b
  · rfl
  · have hba : b ≠ a := fun hba => h (congrArg some hba)
    rw [TEValue.setNext, getElem?_modify_ne _ _ hba]

variable {v v' : TEValue} {pend : List (List WriteCell)} {uci : TEValueUCInfo}

namespace SealedKept

variable {uc : List Nat}

theorem of_eq (hheap : v'.heap = v.heap) (htail : v'.listTail = v.listTail) :
    SealedKept v uc v' uc := by
  refine ⟨hheap ▸ Keeps.refl _, fun a _ => by rw [hheap], fun a ha => ?_⟩
  rwa [Sealed, hheap, htail]

theorem setNext (next : Option Nat) :
    SealedKept v uc { v with heap := TEValue.setNext v.heap v.listTail next } uc where
  keeps := Keeps.setNext _ _ _
  link _ ha := map_next_setNext ha.2.2
  kept a ha := by
    rwa [Sealed, length_setNext]

theorem copyCells (hown : Own transId v uc pend)
    (huci : v.curUcInfo = some uci) (w : CompactCellWriter) :
    SealedKept v uc (v.copyCells uci w) (uc ++ [v.heap.length]) := by
  have htail : v.ucTail = uci.ucListTail := by rw [TEValue.ucTail, huci]; rfl
  refine ⟨(Keeps.push _ _).trans (Keeps.setNext _ _ _), fun a ha => ?_, fun a ha => ?_⟩
  · have hne : uci.ucListTail ≠ some a := fun h => ha.2.1 (hown.mem_of_ucTail (htail.trans h))
    refine (map_next_setNext hne).trans ?_
    rw [getElem?_append_left ha.1]
  have hlength : (v.copyCells uci w).heap.length = v.heap.length + 1 := by
    simp [TEValue.copyCells]
  refine ⟨hlength ▸ Nat.lt_succ_of_lt ha.1, ?_, ha.2.2⟩
  rw [mem_append, mem_singleton, not_or]
  exact ⟨ha.2.1, Nat.ne_of_lt ha.1⟩

theorem replaceHead {mtime : Int} {cells : List Cell} {rest : Option Nat}
    (h : v.replaceHead mtime cells rest = some v') : SealedKept v uc v' uc := by
  obtain ⟨cnt, size, rfl⟩ := replaceHead_eq_some h
  refine ⟨Keeps.push _ _, fun a ha => ?_, fun a ha => ⟨?_, ha.2.1, fun htail => ?_⟩⟩
  · rw [getElem?_append_left ha.1]
  · rw [length_append]
    exact Nat.lt_succ_of_lt ha.1
  rcases v.mergedTail_cases v.heap.length rest with heq | heq
  · rw [heq] at htail
    exact Nat.ne_of_gt ha.1 (Option.some.inj htail)
  · exact ha.2.2 (heq.symm.trans htail)

theorem stmtCallback_true {n : Nat}
    (hmark : ∀ before, v.ucBefore = some before → before = (uc.take n).getLast?) :
    SealedKept v uc (v.stmtCallback true) (uc.take n) := by
  have hsub : ∀ a, a ∉ uc → a ∉ uc.take n := fun a ha hmem => ha (mem_of_mem_take hmem)
  rcases v.stmtCallback_true_cases with ⟨-, heq⟩ | ⟨before, uci, hbefore, heq, -, -, -⟩
  · rw [heq]
    exact ⟨Keeps.refl _, fun _ _ => rfl, fun a ha => ⟨ha.1, hsub a ha.2.1, ha.2.2⟩⟩
  rw [heq]
  refine ⟨Keeps.setNext _ _ _, fun a ha => map_next_setNext fun h => ?_, fun a ha => ?_⟩
  · rw [hmark before hbefore] at h
    exact ha.2.1 (mem_of_mem_take (mem_of_getLast? h))
  refine ⟨?_, hsub a ha.2.1, ha.2.2⟩
  rw [length_setNext]
  exact ha.1

theorem sessionCallback (hown : Own transId v uc pend) (rollback : Bool) (commitId : Int) :
    SealedKept v uc (v.sessionCallback rollback commitId) [] := by
  rcases huci : v.curUcInfo with _ | uci
  · rw [sessionCallback_of_none huci]
    exact ⟨Keeps.refl _, fun _ _ => rfl, fun a ha => ⟨ha.1, not_mem_nil, ha.2.2⟩⟩
  rcases rollback with _ | _
  · obtain ⟨cnt, size, heq⟩ := sessionCallback_false huci commitId
    rw [heq]
    refine ⟨(Keeps.stamp _ _ _ _ _).trans (Keeps.setNext _ _ _), fun a ha => ?_, fun a ha => ?_⟩
    · refine (map_next_setNext ha.2.2).trans ?_
      rw [hown.tail, getElem?_stamp hown.seg hown.nodup
        (hown.seg.length_le hown.nodup), if_neg ha.2.1]
    refine ⟨?_, not_mem_nil, ?_⟩
    · rw [length_setNext, length_stamp]
      exact ha.1
    change (if v.ucTail = none then v.listTail else v.ucTail) ≠ some a
    split
    · exact ha.2.2
    · exact fun h => ha.2.1 (hown.mem_of_ucTail h)
  · rw [sessionCallback_true huci]
    refine ⟨Keeps.setNext _ _ _, fun a ha => map_next_setNext ha.2.2, fun a ha => ?_⟩
    refine ⟨?_, not_mem_nil, ha.2.2⟩
    rw [length_setNext]
    exact ha.1

theorem seg (h : SealedKept v uc v' uc') {ptr q : Option Nat} {as : List Nat}
    (hseg : Seg next v.heap ptr as q) (has : ∀ a ∈ as, Sealed v uc a) :
    Seg next v'.heap ptr as q :=
  hseg.congr fun a ha => h.link a (has a ha)

end SealedKept

/-! ### The committed lists -/

/-- The undo list of a row whose list head stands for the first `k` mutations: its first node heads
a chain for those, and the rest is the undo list for the mutations its head stands for. -/
def UndoOk (arith : Arith) (v : TEValue) (uc : List Nat) (history : List Committed) :
    Nat → List (Option Nat) → Prop
  | k, [] => k = 1
  | _, none :: _ => False
  | k, some a :: undoList => ∃ j as q, 1 ≤ j ∧ j ≤ k ∧
    Chain arith v.heap a as q (history.take j) ((history.take k).drop j) ∧
    (∀ b ∈ a :: as, Sealed v uc b) ∧ UndoOk arith v uc history j undoList

/-- The lists of a row stand for its history: `live` are the nodes of the committed list. -/
inductive Stored (arith : Arith) (v : TEValue) (uc : List Nat) (history : List Committed) :
    List Nat → Prop
  | nil (hhistory : history = []) (hundo : v.undoList = []) : Stored arith v uc history []
  | cons {a : Nat} {as : List Nat} {k : Nat} (hk : 1 ≤ k) (hkn : k ≤ history.length)
    (hhead : StandsFor arith v.heap a (history.take k))
    (hnodes : List.Forall₂ (HoldsMutation v.heap) as (history.drop k))
    (hundo : UndoOk arith v uc history k v.undoList) : Stored arith v uc history (a :: as)

variable {history : List Committed}

section Stored

variable {uc uc' live : List Nat} {undoList : List (Option Nat)}

theorem UndoOk.mono (hkept : SealedKept v uc v' uc') {k : Nat}
    (h : UndoOk arith v uc history k undoList) : UndoOk arith v' uc' history k undoList := by
  induction undoList generalizing k with
  | nil => exact h
  | cons head undoList ih =>
    rcases head with _ | a
    · exact h
    obtain ⟨j, as, q, hj, hjk, hchain, hsealed, hundo⟩ := h
    exact ⟨j, as, q, hj, hjk, hchain.mono hkept.keeps (hkept.seg hchain.seg hsealed),
      fun b hb => hkept.kept b (hsealed b hb), ih hundo⟩

theorem UndoOk.append {k : Nat}
    (h : UndoOk arith v uc history k undoList) (hk : k ≤ history.length) (cs : List Committed) :
    UndoOk arith v uc (history ++ cs) k undoList := by
  induction undoList generalizing k with
  | nil => exact h
  | cons head undoList ih =>
    rcases head with _ | a
    · exact h
    obtain ⟨j, as, q, hj, hjk, hchain, hsealed, hundo⟩ := h
    refine ⟨j, as, q, hj, hjk, ?_, hsealed, ih hundo (Nat.le_trans hjk hk)⟩
    rwa [take_append_of_le_length hk, take_append_of_le_length (Nat.le_trans hjk hk)]

/-- A step that stores into no sealed node and leaves the committed and the undo list. -/
theorem Stored.mono (h : Stored arith v uc history live) (hkept : SealedKept v uc v' uc')
    (hundo : v'.undoList = v.undoList) : Stored arith v' uc' history live := by
  cases h with
  | nil hhistory hnil => exact .nil hhistory (hundo.trans hnil)
  | cons hk hkn hstands hnodes hundoOk =>
    refine .cons hk hkn (hstands.mono hkept.keeps) (hnodes.imp fun _ _ hn => hn.mono hkept.keeps) ?_
    rw [hundo]
    exact hundoOk.mono hkept

/-- A session that commits adds its mutations to the history. -/
theorem Stored.append (h : Stored arith v uc history live) (hkept : SealedKept v uc v' uc')
    (hundo : v'.undoList = v.undoList) {new : List Nat} {cs : List Committed}
    (hnew : List.Forall₂ (HoldsMutation v'.heap) new cs) (hplain : ∀ c ∈ cs, Plain false c.cells) :
    Stored arith v' uc' (history ++ cs) (live ++ new) := by
  cases h with
  | nil hhistory hnil =>
    subst hhistory
    cases hnew with
    | nil => exact .nil rfl (hundo.trans hnil)
    | @cons b c new cs hbc hnew =>
      refine .cons (k := 1) (Nat.le_refl 1) (by simp) ?_ hnew ?_
      · exact hbc.standsFor (hplain c mem_cons_self)
      · rw [hundo, hnil]
        rfl
  | @cons a as k hk hkn hstands hnodes hundoOk =>
    refine .cons (k := k) hk ?_ ?_ ?_ ?_
    · rw [length_append]
      omega
    · rw [take_append_of_le_length hkn]
      exact hstands.mono hkept.keeps
    · rw [drop_append_of_le_length hkn]
      exact rel_append (hnodes.imp fun _ _ hn => hn.mono hkept.keeps) hnew
    · rw [hundo]
      exact (hundoOk.mono hkept).append hkn cs

end Stored

/-! ### Histories -/

/-- A history as the theorems want it: commit ids in order, positive and below `INT64_MAX`, and
plain mutations. -/
structure HistoryOk (history : List Committed) : Prop where
  sorted : Sorted history
  pos : ∀ c ∈ history, 0 < c.transId
  lt : ∀ c ∈ history, c.transId < int64Max
  plain : ∀ c ∈ history, Plain false c.cells

variable {hs : List Committed} {cells : List WriteCell}

theorem Sorted.le_getLast (h : Sorted hs) {c d : Committed}
    (hc : hs.getLast? = some c) (hd : d ∈ hs) : d.transId ≤ c.transId := by
  obtain ⟨ds, rfl⟩ := getLast?_eq_some_iff.1 hc
  rcases mem_append.1 hd with hd | hd
  · exact (pairwise_append.1 h).2.2 d hd c (mem_singleton_self c)
  · obtain rfl := mem_singleton.1 hd
    exact Int.le_refl _

/-- In a sorted history a reader sees a first part. -/
theorem Sorted.filter_eq_seen (h : Sorted hs) (transId : Int) :
    hs.filter (fun c => decide (c.transId ≤ transId)) = seen transId hs := by
  induction hs with
  | nil => rfl
  | cons c hs ih =>
    obtain ⟨hc, h⟩ := pairwise_cons.1 h
    rw [seen, takeWhile_cons, filter_cons]
    by_cases hle : c.transId ≤ transId
    · rw [if_pos (decide_eq_true hle), if_pos (decide_eq_true hle), ih h]
      rfl
    rw [if_neg (by simpa using hle), if_neg (by simpa using hle), filter_eq_nil_iff]
    intro d hd hdle
    have := hc d hd
    have : d.transId ≤ transId := by simpa using hdle
    omega

theorem seen_append_unseen (transId : Int) (hs : List Committed) :
    seen transId hs ++ unseen transId hs = hs := takeWhile_append_dropWhile

theorem seen_of_le (h : ∀ c ∈ hs, c.transId ≤ transId) (cs : List Committed) :
    seen transId (hs ++ cs) = hs ++ seen transId cs :=
  takeWhile_append_of_pos fun c hc => decide_eq_true (h c hc)

theorem seen_eq_nil {c : Committed} (h : transId < c.transId) : seen transId (c :: hs) = [] := by
  rw [seen, takeWhile_cons, if_neg]
  simpa using h

theorem take_length_seen (transId : Int) (hs : List Committed) :
    hs.take (seen transId hs).length = seen transId hs :=
  (prefix_iff_eq_take.1 ( takeWhile_prefix _)).symm

theorem drop_length_seen (transId : Int) (hs : List Committed) :
    hs.drop (seen transId hs).length = unseen transId hs := by
  have h : (seen transId hs ++ unseen transId hs).drop (seen transId hs).length =
    unseen transId hs := drop_left
  rwa [seen_append_unseen] at h

/-! ### The invariant -/

/-- The **invariant** of a row with this history, that a session with this snapshot has written the
mutations `pend` to; `uc` and `live` are the addresses of the two lists, and `q` is the link of the
committed list's tail. -/
structure RowInv (arith : Arith) (snapshot : Int) (history : List Committed)
    (pend : List (List WriteCell)) (v : TEValue) (uc live : List Nat) (q : Option Nat) : Prop where
  history_ok : HistoryOk history
  pend_plain : ∀ cells ∈ pend, Plain false cells
  snapshot_lt : snapshot < int64Max
  own : Own snapshot v uc pend
  shape : Shape v uc live q
  linked : Linked v live q
  stored : Stored arith v uc history live

theorem written_of_plain (transId : Int) (h : Plain false cells) :
    (written transId cells).ctime = int64Max ∧
      (written transId cells).cells = build transId false cells :=
  ⟨ctime_foldl_add h rfl, cells_foldl_add transId cells .init⟩

namespace RowInv

variable {snapshot : Int} {uc live : List Nat} {q : Option Nat}

/-- A reader stops behind the committed nodes. -/
theorem stops (h : RowInv arith snapshot history pend v uc live q) (htransId : transId < int64Max) :
    Stops v.heap transId q := by
  rcases h.linked with hq | ⟨-, hq⟩
  · exact .inl hq
  rcases q with _ | a
  · exact .inl rfl
  have hseg := h.own.seg
  have hnodes := h.own.nodes
  rw [← hq] at hseg
  rcases uc with _ | ⟨b, uc⟩
  · cases hseg
  obtain ⟨hab, -⟩ := hseg
  obtain rfl := Option.some.inj hab
  obtain ⟨cells, pend', ⟨next, hnode⟩, -, rfl⟩ := forall₂_cons_left_iff.1 hnodes
  refine .inr ⟨a, _, rfl, hnode, ?_⟩
  rwa [(written_of_plain snapshot (h.pend_plain cells mem_cons_self)).1]

theorem path (h : RowInv arith snapshot history pend v uc live q) :
    ∃ as, Seg next v.heap q as none ∧ (live ++ as).Nodup := by
  rcases h.linked with hq | ⟨-, hq⟩
  · exact ⟨[], hq, by rw [append_nil]; exact h.shape.nodup⟩
  refine ⟨uc, hq ▸ h.own.seg, ?_⟩
  rw [nodup_append]
  exact ⟨h.shape.nodup, h.own.nodup, fun a ha b hb hab => h.shape.disjoint a ha (hab ▸ hb)⟩

theorem listHead_eq_none (h : RowInv arith snapshot history pend v uc [] q) :
    v.listHead = none := by
  have hseg : v.listHead = q := h.shape.seg
  rw [hseg]
  exact h.linked.resolve_right fun hq => hq.1 rfl

variable (h : RowInv arith snapshot history pend v uc live q)

section

include h

theorem congr (hheap : v'.heap = v.heap)
    (hhead : v'.listHead = v.listHead) (htail : v'.listTail = v.listTail)
    (hundo : v'.undoList = v.undoList) (hucHead : v'.ucHead = v.ucHead)
    (hucTail : v'.ucTail = v.ucTail) : RowInv arith snapshot history pend v' uc live q :=
  { h with
    own := h.own.congr hheap htail hucHead hucTail
    shape := h.shape.congr hheap hhead htail
    linked := h.linked.imp id fun hq => ⟨hq.1, hq.2.trans hucHead.symm⟩
    stored := h.stored.mono (.of_eq hheap htail) hundo }

theorem linkOwn : ∃ q', RowInv arith snapshot history pend v.linkOwn uc live q' := by
  obtain ⟨q', hshape, hlinked⟩ := h.shape.linkOwn h.linked
  exact ⟨q', h.history_ok, h.pend_plain, h.snapshot_lt, h.own.linkOwn, hshape, hlinked,
    h.stored.mono (.setNext _) rfl⟩

theorem copyCells (huci : v.curUcInfo = some uci) (hplain : Plain false cells) :
    RowInv arith snapshot history (pend ++ [cells]) (v.copyCells uci (written snapshot cells))
      (uc ++ [v.heap.length]) live q where
  history_ok := h.history_ok
  pend_plain := forall_mem_append.2 ⟨h.pend_plain, forall_mem_singleton.2 hplain⟩
  snapshot_lt := h.snapshot_lt
  own := h.own.copyCells huci cells
  shape := (h.shape.copyCells h.linked h.own huci _).1
  linked := (h.shape.copyCells h.linked h.own huci _).2
  stored := h.stored.mono (.copyCells h.own huci _) rfl

end

/-! ### The end of a statement -/

/-- The statement is rolled back, and mutations of earlier statements are left. -/
theorem stmtCallback_true (h : RowInv arith snapshot history pend v uc live q) {n : Nat}
    (hn : pend.take n ≠ [])
    (hmark : ∀ before, v.ucBefore = some before → before = (uc.take n).getLast?)
    (hnone : v.ucBefore = none → uc.length ≤ n) :
    RowInv arith snapshot history (pend.take n) (v.stmtCallback true) (uc.take n) live q := by
  have hlength : (uc.take n).length = (pend.take n).length :=
    (forall₂_take n h.own.nodes).length_eq
  have hn' : uc.take n ≠ [] := by
    rwa [← length_pos_iff, hlength, length_pos_iff]
  refine ⟨h.history_ok, fun c hc => h.pend_plain c (mem_of_mem_take hc), h.snapshot_lt,
    h.own.stmtCallback_true hmark hnone, h.shape.stmtCallback_true hmark,
    h.linked.stmtCallback_true hn' hmark, ?_⟩
  exact h.stored.mono (.stmtCallback_true hmark) v.undoList_stmtCallback_true

/-! ### The end of a session -/

section

include h

theorem q_eq_none (huci : v.curUcInfo = none) : q = none := by
  rcases h.linked with hq | ⟨-, hq⟩
  · exact hq
  · rw [hq, TEValue.ucHead, huci]
    rfl

theorem sessionCallback_true (commitId : Int) :
    RowInv arith snapshot history [] (v.sessionCallback true commitId) [] live none := by
  refine ⟨h.history_ok, (fun _ hc => nomatch hc), h.snapshot_lt,
    h.own.sessionCallback true commitId, ?_, .inl rfl,
    h.stored.mono (.sessionCallback h.own true commitId) (v.sessionCallback_frame _ _).2.2⟩
  rcases huci : v.curUcInfo with _ | uci
  · rw [sessionCallback_of_none huci]
    refine ⟨?_, h.shape.tail, h.shape.nodup, fun _ _ => not_mem_nil⟩
    have hseg := h.shape.seg
    rwa [h.q_eq_none huci] at hseg
  · refine h.shape.sessionCallback_true ⟨uci, huci⟩ (fun hnil => ?_) commitId
    exact h.linked.resolve_right fun hq => hq.1 hnil

/-- The statement that has allocated the uncommitted info is rolled back. -/
theorem rollbackStmt_prepared (huci : ∃ uci, v.curUcInfo = some uci)
    (hmark : ∀ before, v.ucBefore = some before → before = none)
    (hnone : v.ucBefore = none → uc = []) :
    RowInv arith snapshot history [] ((v.stmtCallback true).sessionCallback true 0) [] live
      none := by
  have hmark' : ∀ before, v.ucBefore = some before → before = (uc.take 0).getLast? :=
    fun before hbefore => hmark before hbefore
  have hown := h.own.stmtCallback_true hmark' fun hbefore => by rw [hnone hbefore]; rfl
  have hshape := h.shape.stmtCallback_true hmark'
  have hstored := (h.stored.mono (.stmtCallback_true hmark') v.undoList_stmtCallback_true).mono
    (.sessionCallback hown true 0) (sessionCallback_frame _ _ _).2.2
  refine ⟨h.history_ok, (fun _ hc => nomatch hc), h.snapshot_lt, hown.sessionCallback true 0, ?_,
    .inl rfl, hstored⟩
  refine hshape.sessionCallback_true ?_ (fun hnil => ?_) 0
  · rcases v.stmtCallback_true_cases with ⟨-, heq⟩ | ⟨_, uci, -, heq, -, -, -⟩
    · rwa [heq]
    · rw [heq]
      exact ⟨uci, rfl⟩
  · exact h.linked.resolve_right fun hq => hq.1 hnil

theorem holdsMutation_sessionCallback (huci : v.curUcInfo = some uci)
    {commitId : Int} (hlt : snapshot < commitId) (hmax : commitId < int64Max) :
    List.Forall₂ (HoldsMutation (v.sessionCallback false commitId).heap) uc
      (pend.map (Committed.mk commitId)) := by
  rw [forall₂_map_right_iff, forall₂_iff_zip]
  refine ⟨h.own.nodes.length_eq, fun {a cells} hmem => ?_⟩
  obtain ⟨ha, hcells⟩ := of_mem_zip hmem
  have hnode := forall₂_zip h.own.nodes hmem
  have hcommitted := h.own.nodeAt_sessionCallback_false huci commitId ha hnode
  obtain ⟨hctime, hbuild⟩ := written_of_plain snapshot (h.pend_plain cells hcells)
  rw [hctime, if_pos rfl, hbuild] at hcommitted
  exact ⟨snapshot, hlt, hmax, hcommitted⟩

theorem sessionCallback_false {commitId : Int} (hpos : 0 < commitId) (hlt : snapshot < commitId)
    (hmax : commitId < int64Max) (hlast : ∀ c ∈ history, c.transId < commitId) :
    RowInv arith snapshot (history ++ pend.map (Committed.mk commitId)) []
      (v.sessionCallback false commitId) [] (live ++ uc) none := by
  have hnew : ∀ c ∈ pend.map (Committed.mk commitId),
      c.transId = commitId ∧ Plain false c.cells :=
    forall_mem_map.2 fun cells hcells => ⟨rfl, h.pend_plain cells hcells⟩
  refine ⟨?_, (fun _ hc => nomatch hc), h.snapshot_lt, h.own.sessionCallback false commitId, ?_,
    .inl rfl, ?_⟩
  · refine ⟨pairwise_append.2 ⟨h.history_ok.sorted, ?_, ?_⟩, ?_, ?_, ?_⟩
    · refine pairwise_iff_forall_sublist.2 fun {c d} hsub => ?_
      have hc := (hnew c (hsub.mem (by simp))).1
      have hd := (hnew d (hsub.mem (by simp))).1
      exact Int.le_of_eq (hc.trans hd.symm)
    · intro c hc d hd
      rw [(hnew d hd).1]
      exact Int.le_of_lt (hlast c hc)
    all_goals
      intro c hc
      rcases mem_append.1 hc with hc | hc
    · exact h.history_ok.pos c hc
    · rwa [(hnew c hc).1]
    · exact h.history_ok.lt c hc
    · rwa [(hnew c hc).1]
    · exact h.history_ok.plain c hc
    · exact (hnew c hc).2
  · rcases huci : v.curUcInfo with _ | uci
    · rw [sessionCallback_of_none huci, (h.own.eq_nil huci).1, append_nil]
      refine ⟨?_, h.shape.tail, h.shape.nodup, fun _ _ => not_mem_nil⟩
      have hseg := h.shape.seg
      rwa [h.q_eq_none huci] at hseg
    · refine h.shape.sessionCallback_false (fun hnil => ?_) h.own ⟨uci, huci⟩ commitId
      exact h.linked.resolve_right fun hq => hq.1 hnil
  · refine h.stored.append (.sessionCallback h.own false commitId)
      (v.sessionCallback_frame _ _).2.2 ?_ fun c hc => (hnew c hc).2
    rcases huci : v.curUcInfo with _ | uci
    · obtain ⟨rfl, rfl⟩ := h.own.eq_nil huci
      exact .nil
    · exact h.holdsMutation_sessionCallback huci hlt hmax

end

theorem of_snapshot (h : RowInv arith snapshot history [] v [] live q) {snapshot' : Int}
    (hlt : snapshot' < int64Max) : RowInv arith snapshot' history [] v [] live q :=
  ⟨h.history_ok, h.pend_plain, hlt, ⟨h.own.seg, h.own.tail, h.own.nodup, h.own.listTail, .nil⟩,
    h.shape, h.linked, h.stored⟩

end RowInv

end OceanBase.UpdateServer
