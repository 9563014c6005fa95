import OceanBase.Lib.LinkedList
import OceanBase.UpdateServer.RowOps

/-!
# The lists of a row

While a session holds the lock of a row, the row's uncommitted list holds one node for each of
its mutations, in their order (`Own`). That is so whatever times the mutations bring with them.

The list from `list_head` to `list_tail` ends there, or goes on with the uncommitted list when the
session has read the row (`Shape`).
-/

namespace OceanBase.UpdateServer

open Common Lib LinkedList List TEValue Option CellInfoNode

/-- The node at an address has this time and these cells. -/
def NodeAt (heap : List CellInfoNode) (a : Nat) (modifyTime : Int) (buf : List Cell) : Prop :=
  ∃ next, heap[a]? = some ⟨modifyTime, next, buf⟩

variable {a : Nat} {buf : List Cell} {t : Int} {heap : List CellInfoNode} {q : Option Nat}

theorem NodeAt.lt_length (h : NodeAt heap a t buf) : a < heap.length := by
  obtain ⟨next, h⟩ := h
  exact (List.getElem?_eq_some_iff.1 h).1

theorem NodeAt.push
    (h : NodeAt heap a t buf) (n : CellInfoNode) : NodeAt (heap ++ [n]) a t buf := by
  have hlt := h.lt_length
  obtain ⟨next, h⟩ := h
  exact ⟨next, by rw [getElem?_append_left hlt, h]⟩

theorem nodeAt_length (heap : List CellInfoNode) (n : CellInfoNode) :
    NodeAt (heap ++ [n]) heap.length n.modifyTime n.buf :=
  ⟨n.next, by rw [getElem?_append_right (Nat.le_refl _), Nat.sub_self]; rfl⟩

namespace TEValue

@[simp]
theorem length_setNext (heap : List CellInfoNode) (p next : Option Nat) :
    (setNext heap p next).length = heap.length := by
  cases p <;> simp [setNext]

variable {heap : List CellInfoNode}

theorem nodeAt_setNext
    (h : NodeAt heap a t buf) (p next : Option Nat) : NodeAt (setNext heap p next) a t buf := by
  obtain ⟨link, h⟩ := h
  rcases p with _ | b
  · exact ⟨link, h⟩
  rw [NodeAt, setNext, getElem?_modify, h, Option.map_eq_map, map_some]
  split
  · exact ⟨next, rfl⟩
  · exact ⟨link, rfl⟩

variable {as : List Nat} {p : Option Nat}

theorem seg_setNext
    (h : Seg CellInfoNode.next heap p as q) {r next : Option Nat} (hr : ∀ a ∈ as, r ≠ some a) :
    Seg CellInfoNode.next (setNext heap r next) p as q := by
  rcases r with _ | b
  · exact h
  · exact h.modify_of_notMem fun hb => hr b hb rfl

theorem seg_setNext_getLast? (h : Seg CellInfoNode.next heap p as q)
    (hnodup : as.Nodup) (hne : as ≠ []) (next : Option Nat) :
    Seg CellInfoNode.next (setNext heap as.getLast? next) p as next := by
  obtain ⟨bs, b, rfl⟩ := eq_nil_or_concat' as |>.resolve_left hne
  rw [getLast?_concat]
  have hb : b ∉ bs := by
    intro hmem
    rw [nodup_append] at hnodup
    exact hnodup.2.2 b hmem b (mem_singleton_self b) rfl
  exact h.redirect hb fun _ => rfl

theorem seg_concat (h : Seg CellInfoNode.next heap p as none) (hnodup : as.Nodup)
    {n : CellInfoNode} (hn : n.next = none) :
    Seg CellInfoNode.next (setNext (heap ++ [n]) as.getLast? (some heap.length))
      (if as.getLast? = none then some heap.length else p) (as ++ [heap.length]) none := by
  have hnew : heap.length ∉ as := fun hmem => Nat.lt_irrefl _ (h.lt_length hmem)
  have hlast : Seg CellInfoNode.next (heap ++ [n]) (some heap.length) [heap.length] none := by
    refine seg_cons.2 ⟨rfl, n, ?_, hn⟩
    rw [getElem?_append_right (Nat.le_refl _), Nat.sub_self]
    rfl
  by_cases hne : as = []
  · subst hne
    exact hlast
  refine seg_append.2 ⟨some heap.length, ?_, seg_setNext hlast fun a ha hmem => hnew ?_⟩
  · rw [if_neg (by rwa [getLast?_eq_none_iff])]
    exact seg_setNext_getLast? (h.push n) hnodup hne _
  · rw [mem_singleton.1 ha] at hmem
    exact mem_of_getLast? hmem

theorem next_retime (transId : Int) (n : CellInfoNode) : (retime transId n).next = n.next := by
  rw [retime]
  split <;> rfl

@[simp]
theorem length_stamp (transId : Int) (tail : Option Nat) (fuel : Nat) (p : Option Nat)
    (heap : List CellInfoNode) : (stamp transId tail fuel p heap).length = heap.length := by
  induction fuel generalizing p heap with
  | zero => rfl
  | succ fuel ih =>
    rcases p with _ | a
    · rfl
    rw [stamp]
    split
    · rw [length_modify]
    · rw [ih, length_modify]

/-- The session callback gives commit times to the nodes of the uncommitted list. -/
theorem getElem?_stamp {transId : Int} (h : Seg next heap p as none)
    (hnodup : as.Nodup) {fuel : Nat} (hfuel : as.length ≤ fuel) (a : Nat) :
    (stamp transId as.getLast? fuel p heap)[a]? =
      if a ∈ as then heap[a]?.map (retime transId) else heap[a]? := by
  induction as generalizing p heap fuel with
  | nil =>
    obtain rfl : p = none := h
    cases fuel <;> rfl
  | cons b as ih =>
    obtain ⟨rfl, n, hn, hseg⟩ := h
    obtain ⟨hb, hnodup⟩ := nodup_cons.1 hnodup
    obtain ⟨fuel, rfl⟩ : ∃ f, fuel = f + 1 := ⟨fuel - 1, by rw [length_cons] at hfuel; omega⟩
    have hmodify : (heap.modify b (retime transId))[a]? =
        if a = b then heap[a]?.map (retime transId) else heap[a]? := by
      by_cases hab : a = b
      · rw [if_pos hab, hab, getElem?_modify_eq]
        rfl
      · have hba : b ≠ a := Ne.symm hab
        rw [if_neg hab, getElem?_modify_ne _ _ hba]
    rw [stamp, hn]
    rcases as with _ | ⟨c, as⟩
    · rw [getLast?_singleton, if_pos rfl, hmodify]
      simp
    -- the tail is another node, so the loop goes on
    rw [getLast?_cons_cons, if_neg fun htail => hb (mem_of_getLast? htail),
      bind_some, ih (hseg.modify_of_next (next_retime transId)) hnodup
        (by simp only [length_cons] at hfuel ⊢; omega), hmodify]
    by_cases hab : a = b
    · rw [if_pos hab, if_neg (hab ▸ hb), if_pos (hab ▸ mem_cons_self)]
    · simp [hab]

end TEValue

/-- Nodes with a time of their own keep it, and their cells. -/
def Keeps (heap heap' : List CellInfoNode) : Prop :=
  ∀ a t buf, t < int64Max → NodeAt heap a t buf → NodeAt heap' a t buf

namespace Keeps

variable {heap heap' heap'' : List CellInfoNode}

theorem refl (heap : List CellInfoNode) : Keeps heap heap := fun _ _ _ _ h => h

theorem trans (h : Keeps heap heap') (h' : Keeps heap' heap'') : Keeps heap heap'' :=
  fun a t buf ht hn => h' a t buf ht (h a t buf ht hn)

theorem push (heap : List CellInfoNode) (n : CellInfoNode) : Keeps heap (heap ++ [n]) :=
  fun _ _ _ _ hn => hn.push n

theorem setNext (heap : List CellInfoNode) (p next : Option Nat) :
    Keeps heap (TEValue.setNext heap p next) :=
  fun _ _ _ _ hn => nodeAt_setNext hn p next

theorem modify_retime (transId : Int) (heap : List CellInfoNode) (a : Nat) :
    Keeps heap (heap.modify a (TEValue.retime transId)) := by
  intro b t buf ht ⟨q, hn⟩
  refine ⟨q, ?_⟩
  rw [getElem?_modify, hn, Option.map_eq_map, map_some]
  split
  · rw [TEValue.retime, if_neg (Int.ne_of_lt ht)]
  · rfl

theorem stamp (transId : Int) (tail : Option Nat) (fuel : Nat) (p : Option Nat)
    (heap : List CellInfoNode) : Keeps heap (TEValue.stamp transId tail fuel p heap) := by
  induction fuel generalizing p heap with
  | zero => exact refl heap
  | succ fuel ih =>
    rcases p with _ | a
    · exact refl heap
    rw [TEValue.stamp]
    split
    · exact modify_retime transId heap a
    · exact (modify_retime transId heap a).trans (ih _ _)

end Keeps

/-! ### The uncommitted list -/

/-- The uncommitted list has the addresses `uc`, and its nodes are those of the mutations
`pend`. -/
structure Own (transId : Int) (v : TEValue) (uc : List Nat) (pend : List (List WriteCell)) :
    Prop where
  seg : Seg CellInfoNode.next v.heap v.ucHead uc none
  tail : v.ucTail = uc.getLast?
  nodup : uc.Nodup
  listTail : ∀ a, v.listTail = some a → a < v.heap.length ∧ a ∉ uc
  nodes : List.Forall₂ (fun a cells =>
    NodeAt v.heap a (written transId cells).ctime (written transId cells).cells) uc pend

variable {pend : List (List WriteCell)}

variable {transId mtime : Int} {v v' : TEValue} {rest : Option Nat} {uci : TEValueUCInfo}
    {cells : List Cell} {n : Nat}

namespace Own

variable {uc : List Nat}

variable (h : Own transId v uc pend)

section

include h

theorem congr (hheap : v'.heap = v.heap) (htail : v'.listTail = v.listTail)
    (hucHead : v'.ucHead = v.ucHead) (hucTail : v'.ucTail = v.ucTail) : Own transId v' uc pend := by
  obtain ⟨hseg, hlast, hnodup, hlistTail, hnodes⟩ := h
  constructor
  · rwa [hheap, hucHead]
  · rwa [hucTail]
  · exact hnodup
  · rwa [htail, hheap]
  · rwa [hheap]

theorem setNext (next : Option Nat) :
    Own transId { v with heap := TEValue.setNext v.heap v.listTail next } uc pend where
  seg := seg_setNext h.seg fun a ha htail => (h.listTail a htail).2 ha
  tail := h.tail
  nodup := h.nodup
  listTail a ha := by
    rw [length_setNext]
    exact h.listTail a ha
  nodes := h.nodes.imp fun _ _ hn => nodeAt_setNext hn _ _

theorem linkOwn : Own transId v.linkOwn uc pend := h.setNext _

theorem mergedTail
    (ha : v.mergedTail v.heap.length rest = some a) : a < v.heap.length + 1 ∧ a ∉ uc := by
  have hnew : some v.heap.length = some a → a < v.heap.length + 1 ∧ a ∉ uc := by
    rintro ⟨rfl⟩
    exact ⟨Nat.lt_succ_self _, fun hmem => Nat.lt_irrefl _ (h.seg.lt_length hmem)⟩
  have hold : v.listTail = some a → a < v.heap.length + 1 ∧ a ∉ uc := fun htail =>
    ⟨Nat.lt_succ_of_lt (h.listTail a htail).1, (h.listTail a htail).2⟩
  rcases v.mergedTail_cases v.heap.length rest with heq | heq
  · exact hnew (heq.symm.trans ha)
  · exact hold (heq.symm.trans ha)

theorem replaceHead (hv' : v.replaceHead mtime cells rest = some v') : Own transId v' uc pend := by
  obtain ⟨cnt, size, rfl⟩ := replaceHead_eq_some hv'
  refine ⟨h.seg.push _, h.tail, h.nodup, fun a ha => ?_, h.nodes.imp fun _ _ hn => hn.push _⟩
  rw [length_append]
  exact h.mergedTail ha

end

theorem merge {arith : Arith} {snapshot : Int} {r : TEValue × Ret} (h : Own transId v uc pend)
    (hmerge : v.merge arith snapshot = some r) : Own transId r.1 uc pend := by
  rcases merge_cases hmerge with heq | ⟨-, _, _, _, _, -, -, -, -, -, hreplace⟩
  · rwa [heq]
  · exact h.replaceHead hreplace

theorem copyCells (h : Own transId v uc pend) (huci : v.curUcInfo = some uci)
    (cells : List WriteCell) :
    Own transId (v.copyCells uci (written transId cells)) (uc ++ [v.heap.length])
      (pend ++ [cells]) := by
  have hhead : v.ucHead = uci.ucListHead := by rw [TEValue.ucHead, huci]; rfl
  have htail : uci.ucListTail = uc.getLast? := by rw [← h.tail, TEValue.ucTail, huci]; rfl
  have hnew : v.heap.length ∉ uc := fun hmem => Nat.lt_irrefl _ (h.seg.lt_length hmem)
  constructor
  · have hseg := TEValue.seg_concat h.seg h.nodup
      (n := ⟨(written transId cells).ctime, none, (written transId cells).cells⟩) rfl
    rwa [← htail, hhead] at hseg
  · rw [getLast?_concat]
    rfl
  · rw [nodup_append]
    refine ⟨h.nodup, nodup_singleton _, fun a ha b hb hab => hnew ?_⟩
    rwa [← mem_singleton.1 hb, ← hab]
  · intro a ha
    obtain ⟨hlt, hmem⟩ := h.listTail a ha
    have hne : a ∉ uc ++ [v.heap.length] := by
      rw [mem_append, mem_singleton, not_or]
      exact ⟨hmem, Nat.ne_of_lt hlt⟩
    refine ⟨?_, hne⟩
    simp only [TEValue.copyCells, TEValue.length_setNext, length_append]
    exact Nat.lt_succ_of_lt hlt
  · refine rel_append (h.nodes.imp fun _ _ hn => ?_) (.cons ?_ .nil)
    · exact TEValue.nodeAt_setNext (hn.push _) _ _
    · exact TEValue.nodeAt_setNext (nodeAt_length _ _) _ _

theorem stmtCallback_true (h : Own transId v uc pend)
    (hmark : ∀ before, v.ucBefore = some before → before = (uc.take n).getLast?)
    (hnone : v.ucBefore = none → uc.length ≤ n) :
    Own transId (v.stmtCallback true) (uc.take n) (pend.take n) := by
  have hlength : uc.length = pend.length := h.nodes.length_eq
  have hsame : v.ucBefore = none → Own transId v (uc.take n) (pend.take n) := by
    intro hbefore
    have hn := hnone hbefore
    rwa [take_of_length_le hn, take_of_length_le (hlength ▸ hn)]
  rcases v.stmtCallback_true_cases with ⟨hbefore, heq⟩ |
    ⟨before, uci, hbefore, heq, hhead, htail, -⟩
  · rw [heq]
    exact hsame hbefore
  have hlast := hmark before hbefore
  have hsub : (uc.take n).Sublist uc := take_sublist n uc
  have hnodup : (uc.take n).Nodup := h.nodup.sublist hsub
  rw [heq]
  constructor
  · change Seg _ _ uci.ucListHead _ _
    have hseg := h.seg
    rw [← take_append_drop n uc, seg_append] at hseg
    obtain ⟨q, hseg, -⟩ := hseg
    rw [hhead, hlast]
    by_cases hne : uc.take n = []
    · rw [hne]
      rfl
    · rw [if_neg (by rwa [getLast?_eq_none_iff])]
      exact seg_setNext_getLast? hseg hnodup hne none
  · exact htail.trans hlast
  · exact hnodup
  · intro a ha
    rw [length_setNext]
    exact ⟨(h.listTail a ha).1, fun hmem => (h.listTail a ha).2 (hsub.mem hmem)⟩
  · exact (forall₂_take n h.nodes).imp fun _ _ hn => nodeAt_setNext hn _ _

theorem of_curUcInfo_eq_none (h : v.curUcInfo = none)
    (htail : ∀ a, v.listTail = some a → a < v.heap.length) : Own transId v [] [] := by
  constructor
  · rw [TEValue.ucHead, h]
    rfl
  · rw [TEValue.ucTail, h]
    rfl
  · exact nodup_nil
  · exact fun a ha => ⟨htail a ha, not_mem_nil⟩
  · exact .nil

section

include h

theorem eq_nil (huci : v.curUcInfo = none) : uc = [] ∧ pend = [] := by
  have htail := h.tail
  rw [TEValue.ucTail, huci] at htail
  have huc : uc = [] := getLast?_eq_none_iff.1 htail.symm
  subst huc
  exact ⟨rfl, forall₂_nil_left_iff.1 h.nodes⟩

theorem sessionCallback (rollback : Bool) (commitId : Int) :
    Own transId (v.sessionCallback rollback commitId) [] [] := by
  rcases huci : v.curUcInfo with _ | uci
  · rw [sessionCallback_of_none huci]
    exact of_curUcInfo_eq_none huci fun a ha => (h.listTail a ha).1
  rcases rollback with _ | _
  · obtain ⟨cnt, size, heq⟩ := sessionCallback_false huci commitId
    rw [heq]
    refine of_curUcInfo_eq_none rfl fun a ha => ?_
    rw [length_setNext, length_stamp]
    change (if v.ucTail = none then v.listTail else v.ucTail) = some a at ha
    split at ha
    · exact (h.listTail a ha).1
    · rw [h.tail] at ha
      exact h.seg.lt_length (mem_of_getLast? ha)
  · rw [sessionCallback_true huci]
    refine of_curUcInfo_eq_none rfl fun a ha => ?_
    rw [length_setNext]
    exact (h.listTail a ha).1

/-- The nodes of a session that commits have its trans id, unless they brought a time. -/
theorem nodeAt_sessionCallback_false (huci : v.curUcInfo = some uci)
    (commitId : Int) (ha : a ∈ uc) (hnode : NodeAt v.heap a t buf) :
    NodeAt (v.sessionCallback false commitId).heap a (if t = int64Max then commitId else t)
      buf := by
  obtain ⟨next, hnode⟩ := hnode
  obtain ⟨cnt, size, heq⟩ := sessionCallback_false huci commitId
  rw [heq]
  refine nodeAt_setNext ⟨next, ?_⟩ _ _
  rw [h.tail, getElem?_stamp h.seg h.nodup (h.seg.length_le h.nodup), if_pos ha, hnode, map_some,
    TEValue.retime]
  split <;> rfl

theorem mem_of_ucHead (ha : v.ucHead = some a) : a ∈ uc := by
  have hseg := h.seg
  rw [ha] at hseg
  rcases uc with _ | ⟨b, uc⟩
  · cases hseg
  obtain ⟨hab, -⟩ := hseg
  rw [some.inj hab]
  exact mem_cons_self

theorem mem_of_ucTail (ha : v.ucTail = some a) : a ∈ uc :=
  mem_of_getLast? (h.tail.symm.trans ha)

theorem exists_nodeAt (ha : a ∈ uc) :
    ∃ cells ∈ pend,
      NodeAt v.heap a (written transId cells).ctime (written transId cells).cells := by
  have hnodes := h.nodes
  clear h
  induction hnodes with
  | nil => cases ha
  | cons hnode _ ih =>
    rcases mem_cons.1 ha with rfl | ha
    · exact ⟨_, mem_cons_self, hnode⟩
    · obtain ⟨cells, hcells, hnode⟩ := ih ha
      exact ⟨cells, mem_cons_of_mem _ hcells, hnode⟩

end

end Own

/-! ### The committed list -/

/-- The nodes from `list_head` to `list_tail` have the addresses `live`, and the link of the last
is `q`. None of them is uncommitted. -/
structure Shape (v : TEValue) (uc live : List Nat) (q : Option Nat) : Prop where
  seg : Seg CellInfoNode.next v.heap v.listHead live q
  tail : v.listTail = live.getLast?
  nodup : live.Nodup
  disjoint : ∀ a ∈ live, a ∉ uc

/-- Behind the committed nodes there is nothing, or the uncommitted list. -/
def Linked (v : TEValue) (live : List Nat) (q : Option Nat) : Prop :=
  q = none ∨ live ≠ [] ∧ q = v.ucHead

namespace Shape

variable {uc live : List Nat} {q : Option Nat}

theorem congr (h : Shape v uc live q) (hheap : v'.heap = v.heap)
    (hhead : v'.listHead = v.listHead) (htail : v'.listTail = v.listTail) : Shape v' uc live q := by
  obtain ⟨hseg, hlast, hnodup, hdisjoint⟩ := h
  constructor
  · rwa [hheap, hhead]
  · rwa [htail]
  · exact hnodup
  · exact hdisjoint

theorem setNext (h : Shape v uc live q) (hne : live ≠ []) (next : Option Nat) :
    Shape { v with heap := TEValue.setNext v.heap v.listTail next } uc live next := by
  refine ⟨?_, h.tail, h.nodup, h.disjoint⟩
  rw [h.tail]
  exact seg_setNext_getLast? h.seg h.nodup hne next

theorem setNext_of_nil (h : Shape v uc [] q) (next : Option Nat) :
    Shape { v with heap := TEValue.setNext v.heap v.listTail next } uc [] q := by
  refine ⟨h.seg, h.tail, h.nodup, h.disjoint⟩

section

variable (h : Shape v uc live q)
include h

theorem linkOwn (hlink : Linked v live q) :
    ∃ q', Shape v.linkOwn uc live q' ∧ Linked v.linkOwn live q' := by
  by_cases hne : live = []
  · subst hne
    exact ⟨q, h.setNext_of_nil _, hlink⟩
  · exact ⟨v.ucHead, h.setNext hne _, .inr ⟨hne, rfl⟩⟩

theorem copyCells (hlink : Linked v live q) (hown : Own transId v uc pend)
    (huci : v.curUcInfo = some uci) (w : CompactCellWriter) :
    Shape (v.copyCells uci w) (uc ++ [v.heap.length]) live q ∧
      Linked (v.copyCells uci w) live q := by
  have hhead : v.ucHead = uci.ucListHead := by rw [TEValue.ucHead, huci]; rfl
  have htail : v.ucTail = uci.ucListTail := by rw [TEValue.ucTail, huci]; rfl
  constructor
  · refine ⟨?_, h.tail, h.nodup, fun a ha hmem => ?_⟩
    · refine seg_setNext (h.seg.push _) fun a ha hlast => h.disjoint a ha ?_
      exact hown.mem_of_ucTail (htail.trans hlast)
    rcases mem_append.1 hmem with hmem | hmem
    · exact h.disjoint a ha hmem
    · exact Nat.ne_of_lt (h.seg.lt_length ha) (mem_singleton.1 hmem)
  rcases hlink with rfl | ⟨hne, hq⟩
  · exact .inl rfl
  -- a link to the uncommitted list is the null pointer as long as that list is empty
  by_cases hnil : uci.ucListTail = none
  · have huc : uc = [] := by
      rw [← getLast?_eq_none_iff, ← hown.tail, htail, hnil]
    have hseg := hown.seg
    rw [huc, ← hq] at hseg
    exact .inl hseg
  · refine .inr ⟨hne, ?_⟩
    rw [hq, hhead]
    exact (if_neg hnil).symm

theorem replaceHead (hlink : Linked v live q) (hown : Own transId v uc pend) {l₁ l₂ : List Nat}
    (hlive : live = l₁ ++ l₂) (hrest : Seg next v.heap rest l₂ q)
    (hv' : v.replaceHead mtime cells rest = some v') : Shape v' uc (v.heap.length :: l₂) q := by
  obtain ⟨cnt, size, rfl⟩ := replaceHead_eq_some hv'
  have hsub : ∀ a ∈ l₂, a ∈ live := fun a ha => hlive ▸ mem_append_right _ ha
  have hnew : v.heap.length ∉ l₂ := fun hmem =>
    Nat.lt_irrefl _ (h.seg.lt_length (hsub _ hmem))
  constructor
  · refine seg_cons.2 ⟨rfl, ⟨mtime, rest, cells⟩, ?_, hrest.push _⟩
    rw [getElem?_append_right (Nat.le_refl _), Nat.sub_self]
    rfl
  · rcases l₂ with _ | ⟨b, l₂⟩
    · obtain rfl : rest = q := hrest
      exact mergedTail_of_ucHead (hlink.imp id And.right)
    obtain ⟨rfl, -⟩ := hrest
    have hb : v.ucHead ≠ some b := fun hb =>
      h.disjoint b (hsub b mem_cons_self) (hown.mem_of_ucHead hb)
    rw [mergedTail_of_ne hb, h.tail, hlive, getLast?_append_cons, getLast?_cons_cons]
  · refine nodup_cons.2 ⟨hnew, ?_⟩
    have hnodup := h.nodup
    rw [hlive, nodup_append] at hnodup
    exact hnodup.2.1
  · intro a ha
    rcases mem_cons.1 ha with rfl | ha
    · exact fun hmem => Nat.lt_irrefl _ (hown.seg.lt_length hmem)
    · exact h.disjoint a (hsub a ha)

theorem stmtCallback_true
    (hmark : ∀ before, v.ucBefore = some before → before = (uc.take n).getLast?) :
    Shape (v.stmtCallback true) (uc.take n) live q := by
  have hdisjoint : ∀ a ∈ live, a ∉ uc.take n := fun a ha hmem =>
    h.disjoint a ha (mem_of_mem_take hmem)
  rcases v.stmtCallback_true_cases with ⟨-, heq⟩ | ⟨before, uci, hbefore, heq, -, -, -⟩
  · rw [heq]
    exact ⟨h.seg, h.tail, h.nodup, hdisjoint⟩
  have hlast := hmark before hbefore
  rw [heq]
  refine ⟨seg_setNext h.seg fun a ha hmem => ?_, h.tail, h.nodup, hdisjoint⟩
  exact hdisjoint a ha (mem_of_getLast? (hlast.symm.trans hmem))

theorem sessionCallback_true (huci : ∃ uci, v.curUcInfo = some uci)
    (hlive : live = [] → q = none) (commitId : Int) :
    Shape (v.sessionCallback true commitId) [] live none := by
  obtain ⟨uci, huci⟩ := huci
  rw [TEValue.sessionCallback_true huci]
  by_cases hne : live = []
  · subst hne
    have hshape := h.setNext_of_nil none
    rw [hlive rfl] at hshape
    exact ⟨hshape.seg, hshape.tail, hshape.nodup, fun a ha => nomatch ha⟩
  · have hshape := h.setNext hne none
    exact ⟨hshape.seg, hshape.tail, hshape.nodup, fun a _ => not_mem_nil⟩

theorem sessionCallback_false (hlive : live = [] → q = none)
    (hown : Own transId v uc pend) (huci : ∃ uci, v.curUcInfo = some uci) (commitId : Int) :
    Shape (v.sessionCallback false commitId) [] (live ++ uc) none := by
  obtain ⟨uci, huci⟩ := huci
  obtain ⟨cnt, size, heq⟩ := TEValue.sessionCallback_false huci commitId
  have hstamp : ∀ {p q : Option Nat} {as : List Nat}, Seg next v.heap p as q →
      Seg next (TEValue.stamp commitId v.ucTail v.heap.length v.ucHead v.heap) p as q := by
    intro p q as hseg
    refine hseg.congr fun a _ => ?_
    rw [hown.tail, TEValue.getElem?_stamp hown.seg hown.nodup (hown.seg.length_le hown.nodup)]
    split
    · rw [Option.map_map]
      congr 1
      exact funext (TEValue.next_retime commitId)
    · rfl
  rw [heq]
  refine ⟨?_, ?_, ?_, fun a _ => not_mem_nil⟩
  · by_cases hne : live = []
    · subst hne
      have htail : v.listTail = none := h.tail
      simp only [htail]
      exact hstamp hown.seg
    have htail : v.listTail ≠ none := by rwa [h.tail, Ne, getLast?_eq_none_iff]
    simp only [htail]
    refine seg_append.2 ⟨v.ucHead, ?_, ?_⟩
    · rw [h.tail]
      exact TEValue.seg_setNext_getLast? (hstamp h.seg) h.nodup hne _
    · exact TEValue.seg_setNext (hstamp hown.seg) fun a ha hmem => (hown.listTail a hmem).2 ha
  · simp only [h.tail, hown.tail]
    rcases uc with _ | ⟨a, uc⟩
    · rw [append_nil, if_pos getLast?_nil]
    · rw [getLast?_append_cons, if_neg (by simp)]
  · rw [nodup_append]
    exact ⟨h.nodup, hown.nodup, fun a ha b hb hab => h.disjoint a ha (hab ▸ hb)⟩

end

end Shape

/-- A statement that is rolled back leaves the link to the nodes of earlier statements. -/
theorem Linked.stmtCallback_true {v : TEValue} {uc live : List Nat}
    (h : Linked v live q) (hn : uc.take n ≠ [])
    (hmark : ∀ before, v.ucBefore = some before → before = (uc.take n).getLast?) :
    Linked (v.stmtCallback true) live q := by
  rcases v.stmtCallback_true_cases with ⟨-, heq⟩ | ⟨before, uci, hbefore, heq, hhead, -, -⟩
  · rwa [heq]
  rw [heq]
  refine h.imp id fun hq => ⟨hq.1, hq.2.trans (hhead.trans (if_neg ?_)).symm⟩
  rwa [hmark before hbefore, getLast?_eq_none_iff]

end OceanBase.UpdateServer
