import OceanBase.UpdateServer.RowMerge
import OceanBase.UpdateServer.RowRun

/-!
# What a read-only session reads

A read-only session whose snapshot is behind the list head looks for a head it may see on the undo
list. Wherever it starts, it gets the fold of the mutations that were committed up to its
snapshot (`RowInv.readCompact_readOnly`).
-/

namespace OceanBase.UpdateServer

open Common Lib LinkedList List TEValue

variable {arith : Arith} {p : ReadParam} {transId : Int} {v : TEValue} {uc : List Nat}
    {history : List Committed} {n : CellInfoNode} {s : ReadSession}

theorem seen_append_of_lt {cs ds : List Committed} (h : ∃ c ∈ cs, transId < c.transId) :
    seen transId (cs ++ ds) = seen transId cs := by
  obtain ⟨c, hc, hlt⟩ := h
  induction cs with
  | nil => cases hc
  | cons d cs ih =>
    rw [cons_append, seen, seen, takeWhile_cons, takeWhile_cons]
    split
    · next hd =>
      rcases mem_cons.1 hc with rfl | hc
      · have := of_decide_eq_true hd
        omega
      · rw [← seen, ← seen, ih hc]
    · rfl

/-! ### Where a read starts -/

/-- The search through the undo list of a row whose list head the session may not see finds no head,
and then there is no mutation either, or a chain that reaches beyond the snapshot. -/
theorem findUndo_spec (hok : HistoryOk history) {k : Nat} {undoList : List (Option Nat)}
    (h : UndoOk arith v uc history k undoList) {c : Committed}
    (hc : (history.take k).getLast? = some c) (hlt : transId < c.transId) :
    (v.findUndo transId undoList = none ∧ seen transId history = []) ∨
      ∃ a as q j i n, v.findUndo transId undoList = some a ∧
        Chain arith v.heap a as q (history.take j) ((history.take i).drop j) ∧ j ≤ i ∧
        v.heap[a]? = some n ∧ n.modifyTime ≤ transId ∧
        (∀ d ∈ history.take j, d.transId ≤ transId) ∧
        ∃ d ∈ (history.take i).drop j, transId < d.transId := by
  induction undoList generalizing k c with
  | nil =>
    obtain rfl : k = 1 := h
    refine .inl ⟨rfl, ?_⟩
    rcases history with _ | ⟨d, history⟩
    · cases hc
    · cases hc
      exact seen_eq_nil hlt
  | cons head undoList ih =>
    rcases head with _ | a
    · exact h.elim
    obtain ⟨j, as, q, -, hjk, hchain, -, hundo⟩ := h
    obtain ⟨d, buf, hd, -, ⟨next, hnode⟩, -⟩ := hchain.head
    have hfind : v.findUndo transId (some a :: undoList) =
        if transId ≥ d.transId then some a else v.findUndo transId undoList := by
      simp [findUndo, node?, hnode]
    rw [hfind]
    by_cases hle : d.transId ≤ transId
    · have hvisible : ∀ e ∈ history.take j, e.transId ≤ transId := fun e he =>
        Int.le_trans ((hok.sorted.take j).le_getLast hd he) hle
      refine .inr ⟨a, as, q, j, k, _, if_pos hle, hchain, hjk, hnode, hle, hvisible, c, ?_, hlt⟩
      -- the last of the first `k` is beyond the snapshot, so it is none of the first `j`
      have hmem := mem_of_getLast? hc
      rw [← take_append_drop j (history.take k), take_take, Nat.min_eq_left hjk, mem_append] at hmem
      refine hmem.resolve_left fun hmem => ?_
      have := hvisible c hmem
      omega
    · rw [if_neg (by omega)]
      exact ih hundo hd (by omega)

/-! ### What is read -/

theorem specRead_eq (hsorted : Sorted history) (arith : Arith) (p : ReadParam) (transId : Int) :
    specRead arith p transId history =
      if seen transId history = [] then .ok [.rowDoesNotExist]
      else (p.addRaw arith .empty (rawHistory (seen transId history))).map CompactRow.output := by
  rw [specRead, hsorted.filter_eq_seen]
  rfl

/-- A read that starts at a node it may see, and goes through nodes that are read like
mutations. -/
theorem readCompact_of_scan (hun : v.readUncommitted s = false) {a : Nat}
    (hhead : (v.undoHead s).or v.listHead = some a) (hn : v.heap[a]? = some n)
    (hle : n.modifyTime ≤ s.transId) {raw : List Cell} {rest : Option Nat}
    (hscan : scan p (transEnd s.transId false) v.heap (v.heap.length + 1) (some a) =
      some (raw.flatMap p.expand, rest)) :
    v.readCompact arith s p = some (v, (p.addRaw arith .empty raw).map CompactRow.output) := by
  rw [readCompact]
  simp only [read_eq hun hhead, node?, Option.bind_some, hn, if_neg (Int.not_lt.2 hle), hscan]
  rfl

theorem readCompact_of_lt (hun : v.readUncommitted s = false) {a : Nat}
    (hhead : (v.undoHead s).or v.listHead = some a) (hn : v.heap[a]? = some n)
    (hlt : s.transId < n.modifyTime) :
    v.readCompact arith s p = some (v, .ok [.rowDoesNotExist]) := by
  rw [readCompact]
  simp only [read_eq hun hhead, node?, Option.bind_some, hn, if_pos hlt]
  rfl

namespace RowInv

variable {snapshot : Int} {pend : List (List WriteCell)} {live : List Nat} {q : Option Nat}

/-- **What a read-only session reads**: the fold of the mutations committed up to its snapshot. -/
theorem readCompact_readOnly (h : RowInv arith snapshot history pend v uc live q)
    (htransId : transId < int64Max) {d : Option Nat}
    (hun : v.readUncommitted ⟨.readOnly, transId, d⟩ = false) (p : ReadParam) :
    v.readCompact arith ⟨.readOnly, transId, d⟩ p = some (v, specRead arith p transId history) := by
  rw [specRead_eq h.history_ok.sorted]
  rcases h.read_listHead htransId with ⟨hhead, rfl⟩ | ⟨a, n, k, c, hhead, hn, hlt, hc, hnc, hundo⟩ |
    ⟨raw, rest, a, l₁, l₂, k, hf, hhead, ⟨n, hn, hle⟩, hscan, hraw⟩
  · have hundo : v.undoHead ⟨.readOnly, transId, d⟩ = none := by
      simp [undoHead, hhead, node?]
    rw [readCompact, read_eq hun (by rw [hundo, hhead]; rfl : _ = none)]
    rfl
  · -- the list head is beyond the snapshot
    have hhead' : (v.undoHead ⟨.readOnly, transId, d⟩).or v.listHead =
        (v.findUndo transId v.undoList).or (some a) := by
      simp [undoHead, hhead, node?, hn, if_pos hlt]
    rcases findUndo_spec h.history_ok hundo hc (hnc ▸ hlt) with ⟨hnone, hseen⟩ |
      ⟨b, bs, r, j, i, m, hfind, hchain, hji, hm, hle, hvisible, hbeyond⟩
    · rw [if_pos hseen]
      exact readCompact_of_lt hun (by rw [hhead', hnone]; rfl) hn hlt
    have hplain : ∀ e ∈ (history.take i).drop j, Plain false e.cells := fun e he =>
      h.history_ok.plain e (mem_of_mem_take (mem_of_mem_drop he))
    obtain ⟨raw, rest, l₁, l₂, -, -, -, -, -, hscan, hraw⟩ :=
      hchain.scan hplain hvisible (.inl hbeyond)
    have hseen : seen transId history =
        history.take j ++ seen transId ((history.take i).drop j) := by
      have htake : history.take j ++ (history.take i).drop j = history.take i := by
        conv_rhs => rw [← take_append_drop j (history.take i), take_take, Nat.min_eq_left hji]
      conv_lhs => rw [← take_append_drop i history, ← htake, append_assoc]
      rw [seen_of_le hvisible, seen_append_of_lt hbeyond]
    have hne : seen transId history ≠ [] := by
      obtain ⟨e, -, he, -⟩ := hchain.head
      rw [hseen]
      exact List.ne_nil_of_mem (mem_append_left _ (mem_of_getLast? he))
    rw [if_neg hne, hseen, ← hraw p]
    exact readCompact_of_scan hun (by rw [hhead', hfind]; rfl) hm hle (hscan p)
  · have hundo : v.undoHead ⟨.readOnly, transId, d⟩ = none := by
      simp [undoHead, hhead, node?, hn, if_neg (Int.not_lt.2 hle)]
    have hseen : seen transId history = folded transId history k := by
      conv_lhs => rw [← take_append_drop k history]
      exact seen_of_le hf.visible _
    have hne : seen transId history ≠ [] := by
      rw [hseen]
      obtain ⟨c, -, -, hc, -⟩ := hf.getLast?
      exact List.ne_nil_of_mem (mem_of_getLast? hc)
    rw [if_neg hne, hseen, ← hraw p]
    exact readCompact_of_scan hun (by rw [hundo, hhead]; rfl) hn hle (hscan p)

end RowInv

end OceanBase.UpdateServer
