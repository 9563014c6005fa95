import OceanBase.UpdateServer.Mutation
import OceanBase.UpdateServer.RowList

/-!
# Reading a chain of nodes

A reader that starts at the head of a list goes through nodes of committed mutations in commit
order. The head may be a compacted node, which stands for the mutations it was made of
(`StandsFor`); the nodes behind it hold one mutation each. `Chain.scan` says what the reader gets:
the fold of the mutations up to its snapshot.
-/

namespace OceanBase.UpdateServer

open Common Lib LinkedList List TEValue ReadParam CellInfoNode

variable {arith : Arith} {p : ReadParam} {heap heap' : List CellInfoNode} {transId t : Int}

/-! ### Where a reader stops -/

/-- The modify times among the cells are not above `t`. -/
def TimesLe (t : Int) (raw : List Cell) : Prop :=
  ∀ c ∈ raw, ∀ t', c.modifyTime? = some t' → t' ≤ t

theorem modifyTime?_extList {c : Cell} (h : c ∈ p.extList t) : c.modifyTime? = none := by
  rcases mem_cons.1 h with rfl | h
  · rfl
  rcases mem_append.1 h with h | h
  · obtain ⟨v, hv, rfl⟩ := mem_map.1 h
    have hkey := p.isKey _ (mem_keysFrom hv).1
    refine modifyTime?_eq_none ?_
    cases hobj : v.2 with
    | createTime | modifyTime =>
      rw [hobj] at hkey
      cases hkey
    | _ => rfl
  · split at h
    · rw [mem_singleton.1 h]
      rfl
    · cases h

theorem transEnd_eq_false {c : Cell} (h : ∀ t, c.modifyTime? = some t → t ≤ transId) :
    transEnd transId false c = false := by
  rw [transEnd]
  rcases hc : c.modifyTime? with _ | t
  · rfl
  · simpa using h t hc

variable {raw : List Cell} {fuel a : Nat} {n : CellInfoNode} {as : List Nat} {snapshot t' : Int}

/-- A reader does not stop in cells whose times are not above its snapshot. -/
theorem any_transEnd_eq_false (h : TimesLe transId raw) :
    (raw.flatMap p.expand).any (transEnd transId false) = false := by
  rw [any_eq_false]
  intro c hc
  rw [Bool.not_eq_true]
  obtain ⟨d, hd, hc⟩ := mem_flatMap.1 hc
  rcases mem_cons.1 hc with rfl | hc
  · exact transEnd_eq_false (h c hd)
  refine transEnd_eq_false fun t ht => ?_
  split at hc
  · rw [modifyTime?_extList hc] at ht
    cases ht
  · cases hc

theorem scan_of_le (hn : heap[a]? = some n)
    (h : TimesLe transId (mtime n.modifyTime :: n.buf)) :
    scan p (transEnd transId false) heap (fuel + 1) (some a) =
      (scan p (transEnd transId false) heap fuel n.next).map fun r =>
        ((mtime n.modifyTime :: n.buf).flatMap p.expand ++ r.1, r.2) := by
  have hany : (n.cells p).any (transEnd transId false) = false := any_transEnd_eq_false h
  rw [scan, hn]
  simp only [hany]
  rfl

theorem scan_of_lt (hn : heap[a]? = some n) (h : transId < n.modifyTime) :
    scan p (transEnd transId false) heap (fuel + 1) (some a) = some ([], some a) := by
  have hend : transEnd transId false (mtime n.modifyTime) = true := by
    rw [transEnd]
    simpa [mtime, Cell.modifyTime?] using h
  have hcells : n.cells p = mtime n.modifyTime ::
      (p.extList n.modifyTime ++ n.buf.flatMap p.expand) := rfl
  rw [scan, hn]
  simp [hcells, hend]

theorem isSome_scan {isEnd : Cell → Bool} {ptr : Option Nat}
    (h : Seg next heap ptr as none) (hfuel : as.length ≤ fuel) :
    (scan p isEnd heap fuel ptr).isSome := by
  induction as generalizing ptr fuel with
  | nil =>
    obtain rfl : ptr = none := h
    cases fuel <;> rfl
  | cons a as ih =>
    obtain ⟨rfl, n, hn, h⟩ := h
    obtain ⟨fuel, rfl⟩ : ∃ f, fuel = f + 1 := ⟨fuel - 1, by rw [length_cons] at hfuel; omega⟩
    rw [scan, hn]
    dsimp only
    split
    · rfl
    · rw [Option.isSome_map]
      exact ih h (by rw [length_cons] at hfuel; omega)

/-! ### Nodes and what they stand for -/

/-- The node of a committed mutation, written by a session with an earlier snapshot. -/
def HoldsMutation (heap : List CellInfoNode) (a : Nat) (c : Committed) : Prop :=
  ∃ snapshot, snapshot < c.transId ∧ c.transId < int64Max ∧
    NodeAt heap a c.transId (build snapshot false c.cells)

/-- A node that every reader reads like the mutations `hs`, with the time of the last of them. -/
def StandsFor (arith : Arith) (heap : List CellInfoNode) (a : Nat) (hs : List Committed) : Prop :=
  ∃ c buf, hs.getLast? = some c ∧ c.transId < int64Max ∧ NodeAt heap a c.transId buf ∧
    TimesLe c.transId buf ∧
    ∀ p : ReadParam, p.addRaw arith .empty (ReadParam.mtime c.transId :: buf) =
      p.addRaw arith .empty (rawHistory hs)

theorem timesLe_build {cells : List WriteCell} (hplain : Plain false cells)
    (hle : snapshot ≤ t) : TimesLe t (build snapshot false cells) := by
  intro c hc t' ht'
  rwa [modifyTime?_build hplain hc ht']

theorem timesLe_cons (ht : t' ≤ t) (h : TimesLe t raw) : TimesLe t (mtime t' :: raw) := by
  intro c hc t'' ht''
  rcases mem_cons.1 hc with rfl | hc
  · cases ht''
    exact ht
  · exact h c hc t'' ht''

theorem TimesLe.mono (h : TimesLe t raw) (ht : t ≤ t') :
    TimesLe t' raw := fun c hc t'' ht'' => Int.le_trans (h c hc t'' ht'') ht

variable {c : Committed}

theorem addRaw_mtime_build (hplain : Plain false c.cells) (p : ReadParam) (r : CompactRow) :
    p.addRaw arith r (mtime c.transId :: build snapshot false c.cells) =
      p.addRaw arith r c.raw := by
  rw [Committed.raw, addRaw_cons, addRaw_cons _ (rawCells c.cells)]
  congr 1
  funext r'
  exact addRaw_build hplain fun h => by cases h

theorem HoldsMutation.standsFor (h : HoldsMutation heap a c)
    (hplain : Plain false c.cells) : StandsFor arith heap a [c] := by
  obtain ⟨snapshot, hlt, hmax, hnode⟩ := h
  refine ⟨c, _, rfl, hmax, hnode, timesLe_build hplain (Int.le_of_lt hlt), fun p => ?_⟩
  rw [addRaw_mtime_build hplain, rawHistory, flatMap_singleton]

theorem HoldsMutation.mono (h : HoldsMutation heap a c)
    (hkeeps : Keeps heap heap') : HoldsMutation heap' a c := by
  obtain ⟨snapshot, hlt, hmax, hnode⟩ := h
  exact ⟨snapshot, hlt, hmax, hkeeps a _ _ hmax hnode⟩

theorem StandsFor.mono {hs : List Committed} (h : StandsFor arith heap a hs)
    (hkeeps : Keeps heap heap') : StandsFor arith heap' a hs := by
  obtain ⟨c, buf, hlast, hmax, hnode, htimes, hread⟩ := h
  exact ⟨c, buf, hlast, hmax, hkeeps a _ _ hmax hnode, htimes, hread⟩

/-- The committed mutations that a reader sees. -/
def seen (transId : Int) (cs : List Committed) : List Committed :=
  cs.takeWhile fun c => decide (c.transId ≤ transId)

/-- The committed mutations from the first on that a reader does not see. -/
def unseen (transId : Int) (cs : List Committed) : List Committed :=
  cs.dropWhile fun c => decide (c.transId ≤ transId)

/-- A reader at this pointer stops. -/
def Stops (heap : List CellInfoNode) (transId : Int) (q : Option Nat) : Prop :=
  q = none ∨ ∃ a n, q = some a ∧ heap[a]? = some n ∧ transId < n.modifyTime

theorem scan_nodes (arith : Arith) {ptr q : Option Nat} {cs : List Committed}
    (hseg : Seg next heap ptr as q) (hnodes : List.Forall₂ (HoldsMutation heap) as cs)
    (hplain : ∀ c ∈ cs, Plain false c.cells)
    (hstop : (∃ c ∈ cs, transId < c.transId) ∨ Stops heap transId q) (hfuel : as.length < fuel) :
    ∃ raw rest l₁ l₂, as = l₁ ++ l₂ ∧ Seg next heap ptr l₁ rest ∧
      Seg next heap rest l₂ q ∧
      List.Forall₂ (HoldsMutation heap) l₁ (seen transId cs) ∧
      List.Forall₂ (HoldsMutation heap) l₂ (unseen transId cs) ∧
      (∀ p, scan p (transEnd transId false) heap fuel ptr = some (raw.flatMap p.expand, rest)) ∧
      ∀ (p : ReadParam) r, p.addRaw arith r raw =
        p.addRaw arith r (rawHistory (seen transId cs)) := by
  induction hnodes generalizing ptr fuel with
  | nil =>
    obtain rfl : ptr = q := hseg
    refine ⟨[], ptr, [], [], rfl, rfl, rfl, .nil, .nil, fun p => ?_, fun _ _ => rfl⟩
    obtain ⟨fuel, rfl⟩ : ∃ f, fuel = f + 1 := ⟨fuel - 1, by omega⟩
    rcases hstop with ⟨c, hc, -⟩ | rfl | ⟨a, n, rfl, hn, hlt⟩
    · cases hc
    · rfl
    · exact scan_of_lt hn hlt
  | @cons a c as cs hac hnodes ih =>
    obtain ⟨rfl, n, hn, hseg'⟩ := hseg
    obtain ⟨snapshot, hlt, hmax, next, hnode⟩ := hac
    obtain rfl := Option.some.inj (hn.symm.trans hnode)
    obtain ⟨fuel, rfl⟩ : ∃ f, fuel = f + 1 := ⟨fuel - 1, by omega⟩
    have hfuel' : as.length < fuel := by rw [length_cons] at hfuel; omega
    have hc : Plain false c.cells := hplain c mem_cons_self
    by_cases hle : c.transId ≤ transId
    · have hstop' : (∃ c ∈ cs, transId < c.transId) ∨ Stops heap transId q := by
        refine hstop.imp_left fun ⟨d, hd, hlt⟩ => ?_
        rcases mem_cons.1 hd with rfl | hd
        · omega
        · exact ⟨d, hd, hlt⟩
      obtain ⟨raw, rest, l₁, l₂, rfl, hl₁, hl₂, hseen, hunseen, hscan, hraw⟩ :=
        ih hseg' (forall_mem_cons.1 hplain).2 hstop' hfuel'
      have hseen_cons : seen transId (c :: cs) = c :: seen transId cs := by
        rw [seen, takeWhile_cons, if_pos (decide_eq_true hle)]
        rfl
      have hunseen_cons : unseen transId (c :: cs) = unseen transId cs := by
        rw [unseen, dropWhile_cons, if_pos (decide_eq_true hle)]
        rfl
      refine ⟨(mtime c.transId :: build snapshot false c.cells) ++ raw, rest, a :: l₁, l₂,
        rfl, ⟨rfl, _, hn, hl₁⟩, hl₂, ?_, ?_, fun p => ?_, fun p r => ?_⟩
      · rw [hseen_cons]
        exact .cons ⟨snapshot, hlt, hmax, next, hnode⟩ hseen
      · rwa [hunseen_cons]
      · rw [scan_of_le hn (timesLe_cons hle (timesLe_build hc (by omega))), hscan p,
          Option.map_some, flatMap_append]
      rw [hseen_cons, rawHistory, flatMap_cons, addRaw_append, addRaw_append, addRaw_mtime_build hc]
      congr 1
      funext r'
      exact hraw p r'
    · have hseen_cons : seen transId (c :: cs) = [] := by
        rw [seen, takeWhile_cons, if_neg (by simpa using hle)]
      have hunseen_cons : unseen transId (c :: cs) = c :: cs := by
        rw [unseen, dropWhile_cons, if_neg (by simpa using hle)]
      refine ⟨[], some a, [], a :: as, rfl, rfl, ⟨rfl, _, hn, hseg'⟩, ?_, ?_, fun p => ?_, ?_⟩
      · rw [hseen_cons]
        exact .nil
      · rw [hunseen_cons]
        exact .cons ⟨snapshot, hlt, hmax, next, hnode⟩ hnodes
      · exact scan_of_lt hn (by simpa using hle)
      intro p r
      rw [hseen_cons]
      rfl

/-- A list of nodes: the first stands for `hs`, and the others hold the mutations `cs`. -/
structure Chain (arith : Arith) (heap : List CellInfoNode) (a : Nat) (as : List Nat)
    (q : Option Nat) (hs cs : List Committed) : Prop where
  seg : Seg CellInfoNode.next heap (some a) (a :: as) q
  nodup : (a :: as).Nodup
  head : StandsFor arith heap a hs
  nodes : List.Forall₂ (HoldsMutation heap) as cs

namespace Chain

variable {a : Nat} {as : List Nat} {q : Option Nat} {hs cs : List Committed}

/-- A chain in a heap that keeps committed nodes and the chain's links. -/
theorem mono (h : Chain arith heap a as q hs cs) (hkeeps : Keeps heap heap') {q' : Option Nat}
    (hseg : Seg next heap' (some a) (a :: as) q') : Chain arith heap' a as q' hs cs :=
  ⟨hseg, h.nodup, h.head.mono hkeeps, h.nodes.imp fun _ _ hn => hn.mono hkeeps⟩

/-- **What a reader gets from a chain**: the fold of the mutations up to its snapshot. -/
theorem scan (h : Chain arith heap a as q hs cs) (hplain : ∀ c ∈ cs, Plain false c.cells)
    (hle : ∀ c ∈ hs, c.transId ≤ transId)
    (hstop : (∃ c ∈ cs, transId < c.transId) ∨ Stops heap transId q) :
    ∃ raw rest l₁ l₂, as = l₁ ++ l₂ ∧ Seg next heap (some a) (a :: l₁) rest ∧
      Seg next heap rest l₂ q ∧
      List.Forall₂ (HoldsMutation heap) l₁ (seen transId cs) ∧
      List.Forall₂ (HoldsMutation heap) l₂ (unseen transId cs) ∧
      (∀ p, scan p (transEnd transId false) heap (heap.length + 1) (some a) =
        some (raw.flatMap p.expand, rest)) ∧
      ∀ p : ReadParam, p.addRaw arith .empty raw =
        p.addRaw arith .empty (rawHistory (hs ++ seen transId cs)) := by
  obtain ⟨-, n, hn, hseg⟩ := h.seg
  obtain ⟨c, buf, hlast, -, ⟨next, hnode⟩, htimes, hread⟩ := h.head
  obtain rfl := Option.some.inj (hn.symm.trans hnode)
  have hlength : as.length < heap.length := h.seg.length_le h.nodup
  obtain ⟨raw, rest, l₁, l₂, rfl, hl₁, hl₂, hseen, hunseen, hscan, hraw⟩ :=
    scan_nodes arith hseg h.nodes hplain hstop hlength
  have hc : c.transId ≤ transId := hle c (mem_of_getLast? hlast)
  refine ⟨(mtime c.transId :: buf) ++ raw, rest, l₁, l₂, rfl, ⟨rfl, _, hn, hl₁⟩, hl₂,
    hseen, hunseen, fun p => ?_, fun p => ?_⟩
  · rw [scan_of_le hn (timesLe_cons hc (htimes.mono hc)), hscan p, Option.map_some, flatMap_append]
  rw [rawHistory, flatMap_append, addRaw_append, addRaw_append, hread p]
  congr 1
  funext r
  exact hraw p r

end Chain

end OceanBase.UpdateServer
