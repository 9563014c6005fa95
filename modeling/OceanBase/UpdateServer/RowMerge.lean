import OceanBase.UpdateServer.RowInv

/-!
# Compaction keeps what readers see

`merge_` folds the head of the committed list and the nodes behind it up to the writer's snapshot.
The node it puts in their place stands for the same mutations, and its time is the commit id of the
last of them. The nodes that are replaced go on the undo list for the readers with an earlier
snapshot.
-/

namespace OceanBase.UpdateServer

open Common Lib LinkedList List Option TEValue ReadParam

variable {arith : Arith} {p : ReadParam} {heap : List CellInfoNode} {transId t : Int} {fuel : Nat}
    {as : List Nat} {cells : List Cell}

/-! ### The time of the compacted node -/

theorem foldl_max_of_none (h : ∀ c ∈ cells, c.modifyTime? = none)
    (ht : 0 ≤ t) : cells.foldl (fun mtime c => max mtime (c.modifyTime?.getD 0)) t = t := by
  induction cells with
  | nil => rfl
  | cons c cells ih =>
    rw [foldl_cons, h c mem_cons_self, getD_none, Int.max_eq_left ht]
    exact ih (forall_mem_cons.1 h).2

theorem modifyTime?_data {data : List (Column × Obj)} (hdata : ∀ v ∈ data, IsData v) {c : Cell}
    (hc : c ∈ data.map fun v => Cell.value v.1 v.2) : c.modifyTime? = none := by
  obtain ⟨v, hv, rfl⟩ := mem_map.1 hc
  exact modifyTime?_eq_none (hdata v hv).notTime

/-- The largest modify time among the compacted cells is the time of the row; a row that ends
deleted has none. -/
theorem maxModifyTime_output {r : CompactRow} (hr : Timed r) (ht : TimesAt t r) (hpos : 0 < t) :
    (TEValue.maxModifyTime r.output = t ∨ TEValue.maxModifyTime r.output = 0) ∧
      TimesLe t r.output := by
  cases hr with
  | none delRow =>
    have hdel : delRow = true := ht
    subst hdel
    refine ⟨.inr rfl, fun c hc t' ht' => ?_⟩
    rw [mem_singleton.1 hc] at ht'
    cases ht'
  | @some delRow m c data hdata hnodup =>
    obtain ⟨rfl, -⟩ : m = t ∧ c ≤ t := ht
    have houtput : CompactRow.output ⟨delRow, false, false,
        (.modifyTime, .modifyTime m) :: (.createTime, .createTime c) :: data⟩ =
        (if delRow then [Cell.delRow] else []) ++ mtime m ::
          .value .createTime (.createTime c) :: data.map fun v => Cell.value v.1 v.2 := by
      cases delRow <;> rfl
    have hmax : ∀ b : Bool, (if b then [Cell.delRow] else []).foldl
        (fun mtime c => max mtime (c.modifyTime?.getD 0)) (0 : Int) = 0 := by
      intro b
      cases b <;> rfl
    rw [houtput]
    constructor
    · left
      have hm : max (0 : Int) m = m := Int.max_eq_right (Int.le_of_lt hpos)
      have hm' : max m (0 : Int) = m := Int.max_eq_left (Int.le_of_lt hpos)
      rw [maxModifyTime, foldl_append, hmax, foldl_cons, foldl_cons]
      simp only [mtime, Cell.modifyTime?, getD_some, getD_none, hm, hm']
      exact foldl_max_of_none (fun d hd => modifyTime?_data hdata hd) (Int.le_of_lt hpos)
    intro d hd t' ht'
    rcases mem_append.1 hd with hd | hd
    · split at hd
      · rw [mem_singleton.1 hd] at ht'
        cases ht'
      · cases hd
    simp only [mem_cons] at hd
    rcases hd with rfl | rfl | hd
    · cases ht'
      exact Int.le_refl _
    · cases ht'
    · rw [modifyTime?_data hdata hd] at ht'
      cases ht'

/-- The loop of `merge_` for a row without times finds the last node that is replaced. -/
theorem timeBefore_seg {ptr rest : Option Nat} {a : Nat}
    (h : Seg CellInfoNode.next heap ptr (a :: as) rest) (hrest : ∀ b ∈ as, rest ≠ some b)
    (hfuel : as.length < fuel) :
    ∃ z n, (a :: as).getLast? = some z ∧ heap[z]? = some n ∧
      TEValue.timeBefore heap rest fuel ptr = some n.modifyTime := by
  induction as generalizing ptr a fuel with
  | nil =>
    obtain ⟨rfl, n, hn, hnext⟩ := h
    obtain ⟨fuel, rfl⟩ : ∃ f, fuel = f + 1 := ⟨fuel - 1, by omega⟩
    refine ⟨a, n, rfl, hn, ?_⟩
    rw [timeBefore, hn]
    exact if_pos hnext
  | cons b as ih =>
    obtain ⟨rfl, n, hn, hseg⟩ := h
    obtain ⟨fuel, rfl⟩ : ∃ f, fuel = f + 1 := ⟨fuel - 1, by omega⟩
    have hne : n.next ≠ rest := fun heq =>
      hrest b mem_cons_self (heq.symm.trans hseg.1)
    have hfuel' : as.length < fuel := by rw [length_cons] at hfuel; omega
    obtain ⟨z, m, hz, hm, htime⟩ := ih hseg (forall_mem_cons.1 hrest).2 hfuel'
    refine ⟨z, m, by rwa [getLast?_cons_cons], hm, ?_⟩
    rw [timeBefore, hn]
    exact (if_neg hne).trans htime

theorem isSome_countNodes {ptr stop : Option Nat}
    (h : Seg CellInfoNode.next heap ptr as none) (hfuel : as.length ≤ fuel)
    (acc : BitVec 16 × BitVec 16) : (TEValue.countNodes heap stop fuel ptr acc).isSome := by
  induction as generalizing ptr fuel acc with
  | nil =>
    obtain rfl : ptr = none := h
    cases fuel <;> rfl
  | cons a as ih =>
    obtain ⟨rfl, n, hn, h⟩ := h
    obtain ⟨fuel, rfl⟩ : ∃ f, fuel = f + 1 := ⟨fuel - 1, by rw [length_cons] at hfuel; omega⟩
    rw [countNodes]
    split
    · rfl
    · rw [hn]
      exact ih h (by rw [length_cons] at hfuel; omega) _

/-! ### Reading from the list head -/

theorem read_eq {v : TEValue} {s : ReadSession} {head : Option Nat}
    (hun : v.readUncommitted s = false) (hhead : (v.undoHead s).or v.listHead = head)
    (p : ReadParam) :
    v.read s p =
      match v.node? head with
      | none => some (v, [.rowDoesNotExist], none)
      | some n =>
        if s.transId < n.modifyTime then some (v, [.rowDoesNotExist], none)
        else (TEValue.scan p (TEValue.transEnd s.transId false) v.heap (v.heap.length + 1)
          head).map fun r => (v, r.1.filter p.columnExist, r.2) := by
  simp only [TEValue.read, hun, getListHead_of_not_readUncommitted hun, hhead]
  rcases v.node? head with _ | n
  · rfl
  · simp

/-- The mutations that are folded when the list head stands for the first `k`. -/
def folded (transId : Int) (history : List Committed) (k : Nat) : List Committed :=
  history.take k ++ seen transId (history.drop k)

theorem folded_eq_take (transId : Int) (history : List Committed) (k : Nat) :
    folded transId history k = history.take (k + (seen transId (history.drop k)).length) := by
  rw [folded, take_add, take_length_seen]

/-- The nodes a reader with snapshot `transId` goes through from the list head on: the head `a`,
which stands for the first `k` mutations, and `l₁`. It stops at `rest`, in front of `l₂`. -/
structure Folds (arith : Arith) (transId : Int) (history : List Committed) (v : TEValue)
    (uc live : List Nat) (q rest : Option Nat) (a : Nat) (l₁ l₂ : List Nat) (k : Nat) : Prop where
  live_eq : live = a :: (l₁ ++ l₂)
  one_le : 1 ≤ k
  le_length : k ≤ history.length
  visible : ∀ c ∈ history.take k, c.transId ≤ transId
  seg : Seg CellInfoNode.next v.heap (some a) (a :: l₁) rest
  rest_seg : Seg CellInfoNode.next v.heap rest l₂ q
  head : StandsFor arith v.heap a (history.take k)
  nodes : List.Forall₂ (HoldsMutation v.heap) l₁ (seen transId (history.drop k))
  rest_nodes : List.Forall₂ (HoldsMutation v.heap) l₂ (unseen transId (history.drop k))
  undo : UndoOk arith v uc history k v.undoList

theorem Sorted.take {hs : List Committed} (h : Sorted hs) (k : Nat) : Sorted (hs.take k) :=
  h.sublist (take_sublist k hs)

theorem forall₂_getLast? {α β : Type*} {R : α → β → Prop} {as : List α} {bs : List β}
    (h : List.Forall₂ R as bs) {z : α} (hz : as.getLast? = some z) :
    ∃ c, bs.getLast? = some c ∧ R z c := by
  induction h with
  | nil => cases hz
  | @cons a b as bs hab h ih =>
    rw [getLast?_cons] at hz ⊢
    rcases has : as.getLast? with _ | y
    · obtain rfl := getLast?_eq_none_iff.1 has
      cases h
      cases hz
      exact ⟨b, rfl, hab⟩
    rw [has] at hz
    cases hz
    obtain ⟨c, hc, hzc⟩ := ih has
    exact ⟨c, by rw [hc]; rfl, hzc⟩

variable {c : Committed} {k : Nat}

/-- What `merge_` makes of the nodes: a node that stands for the same mutations. -/
theorem HistoryOk.compact {history : List Committed} (hok : HistoryOk history) {raw : List Cell}
    (hraw : all.addRaw arith .empty raw = all.addRaw arith .empty
      (rawHistory (folded transId history k)))
    (hcells : CompactRow.compact arith
      ((raw.flatMap all.expand).filter all.columnExist) = .ok cells)
    (hc : (folded transId history k).getLast? = some c) :
    (TEValue.maxModifyTime cells = c.transId ∨ TEValue.maxModifyTime cells = 0) ∧
      TimesLe c.transId cells ∧
      ∀ p : ReadParam, p.addRaw arith .empty (mtime c.transId :: cells) =
        p.addRaw arith .empty (rawHistory (folded transId history k)) := by
  have hsub : (folded transId history k).Sublist history := by
    rw [folded_eq_take]
    exact take_sublist _ _
  obtain ⟨r, hr, rfl⟩ := except_map_eq_ok.1 hcells
  have hr' := hraw.symm.trans hr
  have hplain : ∀ d ∈ folded transId history k, Plain false d.cells :=
    fun d hd => hok.plain d (hsub.mem hd)
  have htame := tame_rawHistory hplain false
  have htimed : Timed r := (addRaw_eq_view (p := all) htame hr').1
  have hpos : ∀ d ∈ folded transId history k, 0 ≤ d.transId :=
    fun d hd => Int.le_of_lt (hok.pos d (hsub.mem hd))
  have htimes : TimesAt c.transId r := timesAt_rawHistory hplain (hok.sorted.sublist hsub) hpos
    (.none false) (fun hne => absurd rfl hne) hr' hc
  obtain ⟨hmax, hle⟩ := maxModifyTime_output htimed htimes
    (hok.pos c (hsub.mem (mem_of_getLast? hc)))
  exact ⟨hmax, hle, fun p => addRaw_compacted htame hr' htimes⟩

variable {history : List Committed} {a k : Nat}

namespace Folds

variable {v : TEValue} {uc live l₁ l₂ : List Nat} {q rest : Option Nat}

/-- The last node that is folded has the time of the last mutation that is folded. -/
theorem getLast? (h : Folds arith transId history v uc live q rest a l₁ l₂ k) :
    ∃ c z n, (folded transId history k).getLast? = some c ∧
      (a :: l₁).getLast? = some z ∧ v.heap[z]? = some n ∧ n.modifyTime = c.transId := by
  rcases hl₁ : l₁.getLast? with _ | z
  · obtain rfl := getLast?_eq_none_iff.1 hl₁
    obtain ⟨c, buf, hlast, -, ⟨next, hnode⟩, -⟩ := h.head
    rw [folded, forall₂_nil_left_iff.1 h.nodes, append_nil]
    exact ⟨c, a, _, hlast, rfl, hnode, rfl⟩
  obtain ⟨c, hc, snapshot, -, -, next, hnode⟩ := forall₂_getLast? h.nodes hl₁
  refine ⟨c, z, _, ?_, ?_, hnode, rfl⟩
  · rw [folded, getLast?_append, hc]
    rfl
  · rw [getLast?_cons, hl₁]
    rfl

end Folds

namespace RowInv

variable {snapshot : Int} {pend : List (List WriteCell)} {v v' : TEValue} {uc live : List Nat}
    {q : Option Nat}

/-- A reader from the list head finds nothing it may see, or folds the mutations up to its
snapshot. -/
theorem read_listHead (h : RowInv arith snapshot history pend v uc live q)
    (htransId : transId < int64Max) :
    (v.listHead = none ∧ history = []) ∨
    (∃ a n k c, v.listHead = some a ∧ v.heap[a]? = some n ∧ transId < n.modifyTime ∧
      (history.take k).getLast? = some c ∧ n.modifyTime = c.transId ∧
      UndoOk arith v uc history k v.undoList) ∨
    ∃ raw rest a l₁ l₂ k, Folds arith transId history v uc live q rest a l₁ l₂ k ∧
      v.listHead = some a ∧ (∃ n, v.heap[a]? = some n ∧ n.modifyTime ≤ transId) ∧
      (∀ p, TEValue.scan p (TEValue.transEnd transId false) v.heap (v.heap.length + 1) (some a) =
        some (raw.flatMap p.expand, rest)) ∧
      ∀ p : ReadParam, p.addRaw arith .empty raw = p.addRaw arith .empty
        (rawHistory (folded transId history k)) := by
  cases hstored : h.stored with
  | nil hhistory hundo => exact .inl ⟨h.listHead_eq_none, hhistory⟩
  | @cons a as k hk hkn hstands hnodes hundo =>
    have hseg := h.shape.seg
    have hhead : v.listHead = some a := hseg.1
    rw [hhead] at hseg
    obtain ⟨c, buf, hlast, hmax, ⟨next, hnode⟩, -⟩ := id hstands
    by_cases hle : c.transId ≤ transId
    · have hvisible : ∀ d ∈ history.take k, d.transId ≤ transId := fun d hd =>
        Int.le_trans ((h.history_ok.sorted.take k).le_getLast hlast hd) hle
      have hchain : Chain arith v.heap a as q (history.take k) (history.drop k) :=
        ⟨hseg, h.shape.nodup, hstands, hnodes⟩
      obtain ⟨raw, rest, l₁, l₂, rfl, hl₁, hl₂, hseen, hunseen, hscan, hraw⟩ :=
        hchain.scan (fun d hd => h.history_ok.plain d (mem_of_mem_drop hd)) hvisible
          (.inr (h.stops htransId))
      exact .inr (.inr ⟨raw, rest, a, l₁, l₂, k,
        ⟨rfl, hk, hkn, hvisible, hl₁, hl₂, hstands, hseen, hunseen, hundo⟩, hhead,
        ⟨_, hnode, hle⟩, hscan, hraw⟩)
    · exact .inr (.inl ⟨a, _, k, c, hhead, hnode, Int.not_le.1 hle, hlast, rfl, hundo⟩)

variable {rest : Option Nat} {l₁ l₂ : List Nat}

section

variable (h : RowInv arith snapshot history pend v uc live q)
include h

/-- The pointer where a reader stops is not on the way to it. -/
theorem rest_ne (hf : Folds arith transId history v uc live q rest a l₁ l₂ k) {b : Nat}
    (hb : b ∈ l₁) : rest ≠ some b := by
  rintro rfl
  have hnodup := h.shape.nodup
  have hlive : b ∈ live := by
    rw [hf.live_eq]
    exact mem_cons_of_mem _ (mem_append_left _ hb)
  have hseg := hf.rest_seg
  rcases hl₂ : l₂ with _ | ⟨c, l₂⟩
  · rw [hl₂] at hseg
    obtain rfl : some b = q := hseg
    have hq := h.linked.resolve_left (by simp)
    exact h.shape.disjoint b hlive (h.own.mem_of_ucHead hq.2.symm)
  rw [hl₂] at hseg
  obtain rfl := some.inj hseg.1
  rw [hf.live_eq, hl₂, nodup_cons, nodup_append] at hnodup
  exact hnodup.2.2.2 b hb b mem_cons_self rfl

variable {cells : List Cell}

theorem mergedTime_eq (hf : Folds arith transId history v uc live q rest a l₁ l₂ k)
    (hhead : v.listHead = some a)
    (hc : (folded transId history k).getLast? = some c) (hpos : 0 < c.transId)
    (hmax : TEValue.maxModifyTime cells = c.transId ∨ TEValue.maxModifyTime cells = 0) :
    v.mergedTime cells rest = some c.transId := by
  rw [mergedTime]
  rcases hmax with hmax | hmax
  · rw [hmax]
    exact if_neg (by omega)
  rw [hmax]
  obtain ⟨d, z, n, hd, hz, hn, hnd⟩ := hf.getLast?
  obtain rfl := some.inj (hc.symm.trans hd)
  have hnodup : (a :: l₁).Nodup := by
    have hnodup := h.shape.nodup
    rw [hf.live_eq, ← cons_append, nodup_append] at hnodup
    exact hnodup.1
  have hlength : l₁.length < v.heap.length + 1 := by
    have := hf.seg.length_le hnodup
    rw [length_cons] at this
    omega
  obtain ⟨z', n', hz', hn', htime⟩ := timeBefore_seg hf.seg (fun b hb => h.rest_ne hf hb) hlength
  obtain rfl := some.inj (hz.symm.trans hz')
  obtain rfl := some.inj (hn.symm.trans hn')
  rwa [hhead, ← hnd]

theorem isSome_replaceHead (hf : Folds arith transId history v uc live q rest a l₁ l₂ k)
    (mtime : Int) (cells : List Cell) : (v.replaceHead mtime cells rest).isSome := by
  obtain ⟨as, has, hnodup⟩ := h.path
  have hseg : Seg CellInfoNode.next v.heap rest (l₂ ++ as) none :=
    seg_append.2 ⟨q, hf.rest_seg, has⟩
  have hnodup' : (l₂ ++ as).Nodup := by
    rw [hf.live_eq, cons_append, append_assoc, nodup_cons, nodup_append] at hnodup
    exact hnodup.2.2.1
  rw [replaceHead, isSome_map]
  refine isSome_countNodes (hseg.push _) ?_ _
  have hle := hseg.length_le hnodup'
  simp only [length_append] at hle ⊢
  omega

theorem standsFor_replaceHead (hc : (folded transId history k).getLast? = some c)
    (hle : TimesLe c.transId cells)
    (hread : ∀ p : ReadParam, p.addRaw arith .empty (mtime c.transId :: cells) =
      p.addRaw arith .empty (rawHistory (folded transId history k))) (hv' :
    v.replaceHead c.transId cells rest = some v') :
    StandsFor arith v'.heap v.heap.length (folded transId history k) := by
  have hmax : c.transId < int64Max := by
    rw [folded_eq_take] at hc
    exact h.history_ok.lt c (mem_of_mem_take (mem_of_getLast? hc))
  obtain ⟨cnt, size, rfl⟩ := replaceHead_eq_some hv'
  exact ⟨c, cells, hc, hmax, nodeAt_length v.heap ⟨c.transId, rest, cells⟩, hle, hread⟩

theorem replaceHead (hf : Folds arith transId history v uc live q rest a l₁ l₂ k)
    (hhead : v.listHead = some a) {mtime : Int} (hv' : v.replaceHead mtime cells rest = some v')
    (hstands : StandsFor arith v'.heap v.heap.length (folded transId history k)) :
    RowInv arith snapshot history pend v' uc (v.heap.length :: l₂) q := by
  have hlive : live = (a :: l₁) ++ l₂ := hf.live_eq
  have hshape := h.shape.replaceHead h.linked h.own hlive hf.rest_seg hv'
  have hkept : SealedKept v uc v' uc := .replaceHead hv'
  obtain ⟨cnt, size, heq⟩ := replaceHead_eq_some hv'
  have hnodup := h.shape.nodup
  rw [hlive, nodup_append] at hnodup
  have hmem : ∀ b ∈ a :: l₁, b ∈ live := fun b hb => hlive ▸ mem_append_left _ hb
  have hheap : v'.heap = v.heap ++ [⟨mtime, rest, cells⟩] := by rw [heq]
  refine ⟨h.history_ok, h.pend_plain, h.snapshot_lt, h.own.replaceHead hv', hshape, ?_, ?_⟩
  · refine h.linked.imp id fun hq => ⟨by simp, hq.2.trans ?_⟩
    rw [heq]
    rfl
  refine .cons (k := k + (seen transId (history.drop k)).length) ?_ ?_ ?_ ?_ ?_
  · have := hf.one_le
    omega
  · have hlength := congrArg List.length (seen_append_unseen transId (history.drop k))
    have := hf.le_length
    rw [length_append, length_drop] at hlength
    omega
  · rwa [← folded_eq_take]
  · rw [← drop_drop, drop_length_seen]
    exact hf.rest_nodes.imp fun _ _ hn => hn.mono hkept.keeps
  · -- the list it replaces
    have hundo : v'.undoList = some a :: v.undoList := by rw [heq, hhead]
    have hdrop : (history.take (k + (seen transId (history.drop k)).length)).drop k =
        seen transId (history.drop k) := by
      rw [← folded_eq_take, folded]
      exact drop_left' (length_take_of_le hf.le_length)
    rw [hundo]
    refine ⟨k, l₁, rest, hf.one_le, Nat.le_add_right _ _, ?_, ?_, hf.undo.mono hkept⟩
    · rw [hdrop]
      refine ⟨?_, hnodup.1, hf.head.mono hkept.keeps,
        hf.nodes.imp fun _ _ hn => hn.mono hkept.keeps⟩
      rw [hheap]
      exact hf.seg.push _
    intro b hb
    have hlt := h.shape.seg.lt_length (hmem b hb)
    refine ⟨?_, h.shape.disjoint b (hmem b hb), fun htail => ?_⟩
    · rw [hheap, length_append]
      exact Nat.lt_succ_of_lt hlt
    rw [hshape.tail] at htail
    rcases mem_cons.1 (mem_of_getLast? htail) with heq | hl₂
    · omega
    · exact hnodup.2.2 b hb b hl₂ rfl

/-- **Compaction**: `merge_` comes to an end, and leaves the row as it is or replaces the nodes it
has folded by one with the commit id of the last of their mutations. -/
theorem merge (htransId : transId < int64Max) :
    ∃ r, v.merge arith transId = some r ∧ (r.1 = v ∨
      r.2 = .success ∧ ∃ rest a l₁ l₂ k c cells,
        Folds arith transId history v uc live q rest a l₁ l₂ k ∧ v.listHead = some a ∧
        (folded transId history k).getLast? = some c ∧
        v.replaceHead c.transId cells rest = some r.1 ∧
        StandsFor arith r.1.heap v.heap.length (folded transId history k) ∧
        RowInv arith snapshot history pend r.1 uc (v.heap.length :: l₂) q) := by
  have hun := v.readUncommitted_none transId
  have hempty : v.read ⟨.readWrite, transId, none⟩ all =
      some (v, [.rowDoesNotExist], none) → v.merge arith transId = some (v, .eAgain) := by
    intro hread
    rw [TEValue.merge, hread]
    rfl
  rcases h.read_listHead htransId with ⟨hhead, -⟩ | ⟨a, n, -, -, hhead, hn, hlt, -⟩ |
    ⟨raw, rest, a, l₁, l₂, k, hf, hhead, ⟨n, hn, hle⟩, hscan, hraw⟩
  · refine ⟨_, hempty ?_, .inl rfl⟩
    rw [read_eq hun hhead]
    rfl
  · refine ⟨_, hempty ?_, .inl rfl⟩
    simp [read_eq hun hhead, TEValue.node?, hn, if_pos hlt]
  have hread : v.read ⟨.readWrite, transId, none⟩ all = some (v,
      (raw.flatMap all.expand).filter all.columnExist, rest) := by
    simp [read_eq hun hhead, TEValue.node?, hn, if_neg (Int.not_lt.2 hle), hscan]
  obtain ⟨c, -, -, hc, -⟩ := hf.getLast?
  simp only [TEValue.merge, hread, bind_eq_bind, bind_some]
  cases hcells : CompactRow.compact arith ((raw.flatMap all.expand).filter all.columnExist) with
  | error e => exact ⟨_, rfl, .inl rfl⟩
  | ok cells =>
    obtain ⟨hmax, htimes, hsame⟩ := h.history_ok.compact (hraw all) hcells hc
    have hpos : 0 < c.transId := by
      rw [folded_eq_take] at hc
      exact h.history_ok.pos c (mem_of_mem_take (mem_of_getLast? hc))
    have hmtime := h.mergedTime_eq hf hhead hc hpos hmax
    obtain ⟨v', hv'⟩ := isSome_iff_exists.1 (h.isSome_replaceHead hf c.transId cells)
    dsimp only
    split
    · exact ⟨_, rfl, .inl rfl⟩
    split
    · exact ⟨_, rfl, .inl rfl⟩
    have hstands := h.standsFor_replaceHead hc htimes hsame hv'
    rw [hmtime, bind_some, hv', bind_some]
    exact ⟨_, rfl, .inr ⟨rfl, rest, a, l₁, l₂, k, c, cells, hf, hhead, hc, hv', hstands,
      h.replaceHead hf hhead hv' hstands⟩⟩

end

end RowInv

end OceanBase.UpdateServer
