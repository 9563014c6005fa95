import OceanBase.Sql.MultipleMerge

/-!
# What the merge operators output (`ob_multiple_scan_merge.cpp`, `ob_multiple_get_merge.cpp`)

The rows that the scan merge has not processed form a sorted list (`ScanMerge.Pending`), whose
groups of one key its loop fuses one by one: `ScanMerge.Holds` relates the assembled row to the
fuse of a key's rows so far, `ScanMerge.Fresh.fuseLoop_spec` is the outcome of one call and
`ScanMerge.Pending.yields` that of all calls. The get merge fuses one key a round
(`GetMerge.fuseRound_cons`).

Rows are compared without their action flags, which the operators set in passing.
-/

namespace OceanBase.Sql

open Common Lib List

variable {K : Type} {n : Nat}

/-! ### Fusing the rows of one key -/

/-- A key of which no row has been fused yet. -/
def absentRow : Fused n := ⟨⟨none, fun _ => .value .null⟩, true⟩

variable (arith : Arith)

/-- The cells of the rows of one key fused from left to right, unless the row is deleted or does
not exist. -/
def fusedCells (rows : List (Row n)) : Option (Fin n → RowObj) :=
  match fuseSstableRows arith rows absentRow with
  | .ok s => if s.isRowEmpty then none else some s.result.cells
  | .error _ => none

section Keys

variable [LinearOrder K]

/-- The keys of the children, increasing and each once. -/
def mergedKeys (children : List (List (KeyRow K n))) : List K :=
  (children.flatten.map KeyRow.rowkey).toFinset.sort (· ≤ ·)

/-- The rows of a key, child by child. -/
def rowsOf (children : List (List (KeyRow K n))) (k : K) : List (Row n) :=
  children.flatMap fun child => (child.filter (·.rowkey = k)).map KeyRow.row

theorem mem_mergedKeys {children : List (List (KeyRow K n))} {k : K} :
    k ∈ mergedKeys children ↔ ∃ child ∈ children, ∃ row ∈ child, row.rowkey = k := by
  simp only [mergedKeys, Finset.mem_sort, mem_toFinset, mem_map, mem_flatten]
  constructor
  · rintro ⟨row, ⟨child, hchild, hrow⟩, rfl⟩
    exact ⟨child, hchild, row, hrow, rfl⟩
  · rintro ⟨child, hchild, row, hrow, rfl⟩
    exact ⟨row, ⟨child, hchild, hrow⟩, rfl⟩

theorem pairwise_mergedKeys (children : List (List (KeyRow K n))) :
    (mergedKeys children).Pairwise (· < ·) :=
  (Finset.sortedLT_sort _).pairwise

end Keys

theorem fusedCells_eq_some {arith : Arith} {rows : List (Row n)} {cells : Fin n → RowObj} :
    fusedCells arith rows = some cells ↔
      ∃ s, fuseSstableRows arith rows absentRow = .ok s ∧ s.isRowEmpty = false ∧
        s.result.cells = cells := by
  unfold fusedCells
  split
  next s hs =>
    rw [hs]
    rcases hempty : s.isRowEmpty with _ | _
    all_goals simp [hempty]
  next ret hret => simp [hret]

/-- What is handed out for a key: nothing, or the key and its fused cells. -/
def fusedView (rows : K → List (Row n)) (k : K) :
    Option (Option K × (Fin n → RowObj)) :=
  (fusedCells arith (rows k)).map fun cells => (some k, cells)

/-- `fuse_sstable_row` knows what to do with the row. -/
def Supported (row : Row n) : Prop :=
  row.flag = none ∨ ∃ f, f ≠ ActionFlag.other ∧ row.flag = some (.ext f)

/-- Two stages of fusing that differ in the action flag at most. -/
structure Alike (s s' : Fused n) : Prop where
  cells : s.result.cells = s'.result.cells
  isRowEmpty : s.isRowEmpty = s'.isRowEmpty

/-- A row that is not there has null cells. -/
def NullIfEmpty (s : Fused n) : Prop := s.isRowEmpty = true → s.result.cells = fun _ => .value .null

/-- Fusing a row neither fails nor looks at the action flag of the result. -/
theorem fuseSstableRow_alike {row : Row n} (hrow : Supported row) {s s' : Fused n}
    (h : Alike s s') (hnull : NullIfEmpty s) :
    ∃ t t', fuseSstableRow arith row s = .ok t ∧ fuseSstableRow arith row s' = .ok t' ∧
      Alike t t' ∧ NullIfEmpty t := by
  obtain hflag | ⟨f, hf, hflag⟩ := hrow
  · exact ⟨⟨row, false⟩, ⟨row, false⟩, by simp [fuseSstableRow, hflag],
      by simp [fuseSstableRow, hflag], ⟨rfl, rfl⟩, fun h => absurd h (by simp)⟩
  cases f with
  | other => exact absurd rfl hf
  | rowDoesNotExist =>
    exact ⟨s, s', fuseSstableRow_rowDoesNotExist hflag, fuseSstableRow_rowDoesNotExist hflag, h,
      hnull⟩
  | delRow =>
    exact ⟨_, _, fuseSstableRow_delRow hflag, fuseSstableRow_delRow hflag, ⟨rfl, rfl⟩, fun _ => rfl⟩
  | newAdd =>
    exact ⟨_, _, fuseSstableRow_newAdd hflag, fuseSstableRow_newAdd hflag, ⟨rfl, rfl⟩,
      fun h => absurd h (by simp)⟩
  | valid =>
    exact ⟨_, _, fuseSstableRow_valid hflag, fuseSstableRow_valid hflag,
      ⟨by simp [h.cells], rfl⟩, fun h => absurd h (by simp)⟩

/-! ### Taking rows off the heap -/

/-- The place of a child's row in the order in which the heap gives rows up. -/
def position (a : Nat × KeyRow K n) : K ×ₗ Nat := toLex (a.2.rowkey, a.1)

/-- The place of a child's current row. -/
def ChildContext.position (c : ChildContext K n) : K ×ₗ Nat := Sql.position (c.seq, c.row)

section Heap

variable [LinearOrder K] {rest cs : List (ChildContext K n)}

theorem cmpFunc_iff {a b : ChildContext K n} : cmpFunc a b = true ↔ b.position < a.position := by
  simp only [cmpFunc, ChildContext.position, position, Prod.Lex.toLex_lt_toLex, Bool.or_eq_true,
    Bool.and_eq_true, decide_eq_true_eq]
  rw [eq_comm]

theorem popHeap_eq_none (h : popHeap cs = none) : cs = [] := by
  rcases cs with _ | ⟨c, cs⟩
  · rfl
  rw [popHeap] at h
  split at h
  · cases h
  · split at h <;> cases h

theorem popHeap_spec {least : ChildContext K n} (h : popHeap cs = some (least, rest)) :
    cs.Perm (least :: rest) ∧ ∀ c ∈ cs, least.position ≤ c.position := by
  induction cs generalizing least rest with
  | nil => cases h
  | cons c cs ih =>
    rw [popHeap] at h
    split at h
    next hpop =>
      obtain ⟨rfl, rfl⟩ := Prod.mk.inj (Option.some.inj h)
      rw [popHeap_eq_none hpop]
      exact ⟨.refl _, by simp⟩
    next least' rest' hpop =>
      obtain ⟨hperm, hleast⟩ := ih hpop
      split at h
      next hcmp =>
        obtain ⟨rfl, rfl⟩ := Prod.mk.inj (Option.some.inj h)
        exact ⟨(hperm.cons c).trans (.swap ..), forall_mem_cons.2 ⟨(cmpFunc_iff.1 hcmp).le, hleast⟩⟩
      next hcmp =>
        obtain ⟨rfl, rfl⟩ := Prod.mk.inj (Option.some.inj h)
        have hle : c.position ≤ least'.position := not_lt.1 (mt cmpFunc_iff.2 hcmp)
        exact ⟨hperm.cons c, forall_mem_cons.2 ⟨le_rfl, fun d hd => hle.trans (hleast d hd)⟩⟩

/-- The scan merge still has to process these rows, in this order. -/
structure ScanMerge.Pending (s : ScanMerge K n) (rows : List (Nat × KeyRow K n)) : Prop where
  perm : s.rows.Perm rows
  sorted : rows.Pairwise (Sql.position · < Sql.position ·)
  increasing : ∀ c ∈ s.lastChildContext.toList ++ s.contexts,
    (c.row :: c.rest).Pairwise (·.rowkey < ·.rowkey)
  parked : ∀ c ∈ s.lastChildContext, rows.head? = some (c.seq, c.row)

variable {children : List (List (KeyRow K n))} {fuel : Nat}

namespace ScanMerge

variable {s : ScanMerge K n} {row : Nat × KeyRow K n} {rows : List (Nat × KeyRow K n)}

theorem position_le_of_mem {c : ChildContext K n} {r : KeyRow K n}
    (hc : (c.row :: c.rest).Pairwise (·.rowkey < ·.rowkey)) (hr : r ∈ c.row :: c.rest) :
    c.position ≤ Sql.position (c.seq, r) := by
  obtain rfl | hr := mem_cons.1 hr
  · exact le_rfl
  · exact (Prod.Lex.toLex_lt_toLex.2 (.inl ((pairwise_cons.1 hc).1 r hr))).le

theorem Pending.nextChild_nil (h : s.Pending []) : s.nextChild = none := by
  have hnil : s.rows = [] := h.perm.eq_nil
  have hcontexts : s.lastChildContext.toList ++ s.contexts = [] := by
    refine eq_nil_iff_forall_not_mem.2 fun c hc => ?_
    have hmem : (c.seq, c.row) ∈ s.rows := mem_flatMap.2 ⟨c, hc, by simp⟩
    simp [hnil] at hmem
  obtain ⟨hlast, hcontexts⟩ := append_eq_nil_iff.1 hcontexts
  have hlast : s.lastChildContext = none := by simpa using hlast
  simp [nextChild, hlast, hcontexts, popHeap]

theorem Pending.nextChild_cons (h : s.Pending (row :: rows)) :
    ∃ child rest,
      s.nextChild = some (child, { s with contexts := rest, lastChildContext := none }) ∧
      (child.seq, child.row) = row ∧
      (s.lastChildContext.toList ++ s.contexts).Perm (child :: rest) := by
  rcases hlast : s.lastChildContext with _ | child
  · rcases hpop : popHeap s.contexts with _ | p
    · have hnil := h.perm.symm.length_eq
      simp [ScanMerge.rows, hlast, popHeap_eq_none hpop] at hnil
    obtain ⟨child, rest⟩ := p
    obtain ⟨hperm, hleast⟩ := popHeap_spec hpop
    refine ⟨child, rest, by simp [nextChild, hlast, hpop], ?_, by simpa using hperm⟩
    -- the next row belongs to a child that does not come before the least one
    have hrows : s.rows = s.contexts.flatMap fun c =>
        (c.row :: c.rest).map fun row => (c.seq, row) := by simp [ScanMerge.rows, hlast]
    have hrow : row ∈ s.rows := h.perm.symm.mem_iff.1 (by simp)
    rw [hrows] at hrow
    obtain ⟨c, hc, hmem⟩ := mem_flatMap.1 hrow
    obtain ⟨r, hr, rfl⟩ := mem_map.1 hmem
    have hle : child.position ≤ Sql.position (c.seq, r) := (hleast c hc).trans
      (position_le_of_mem (h.increasing c (by simp [hc])) hr)
    have hchild : (child.seq, child.row) ∈ (c.seq, r) :: rows := by
      refine h.perm.mem_iff.1 ?_
      rw [hrows]
      exact mem_flatMap.2 ⟨child, hperm.symm.mem_iff.1 (by simp), by simp⟩
    obtain heq | hmem := mem_cons.1 hchild
    · exact heq
    · exact absurd ((pairwise_cons.1 h.sorted).1 _ hmem) (not_lt_of_ge hle)
  · have hhead := h.parked child hlast
    exact ⟨child, s.contexts, by simp [nextChild, hlast], (Option.some.inj hhead).symm, by simp⟩

variable {child : ChildContext K n} {s' : ScanMerge K n}

omit [LinearOrder K] in
theorem rows_perm (hperm : (s.lastChildContext.toList ++ s.contexts).Perm (child :: rest))
    (hs' : s'.lastChildContext.toList ++ s'.contexts = rest) :
    s.rows.Perm ((child.seq, child.row) ::
      (child.rest.map (fun row => (child.seq, row)) ++ s'.rows)) := by
  subst hs'
  exact (hperm.flatMap_right _).trans (by simp [ScanMerge.rows])

/-- With the next row taken and its child pushed back, the other rows remain. -/
theorem Pending.pushChild (h : s.Pending (row :: rows)) (hrow : (child.seq, child.row) = row)
    (hperm : (s.lastChildContext.toList ++ s.contexts).Perm (child :: s'.contexts))
    (hlast : s'.lastChildContext = none) : (s'.pushChild child).Pending rows := by
  have hrest : (child.rest.map (fun row => (child.seq, row)) ++ s'.rows).Perm rows := by
    refine List.Perm.cons_inv (a := row) ?_
    rw [← hrow] at h ⊢
    exact (rows_perm hperm (by simp [hlast])).symm.trans h.perm
  have hincreasing := fun c hc => h.increasing c (hperm.mem_iff.2 hc)
  have hchild := hincreasing child (by simp)
  have hsorted := (pairwise_cons.1 h.sorted).2
  unfold ScanMerge.pushChild
  split
  next hnil =>
    refine ⟨by simpa [hnil] using hrest, hsorted, fun c hc => hincreasing c ?_, by simp [hlast]⟩
    simp only [hlast, Option.toList_none, nil_append] at hc
    simp [hc]
  next r rest hcons =>
    refine ⟨?_, hsorted, ?_, by simp [hlast]⟩
    · simpa [ScanMerge.rows, hlast, hcons] using hrest
    intro c hc
    simp only [hlast, Option.toList_none, nil_append, mem_cons] at hc
    obtain rfl | hc := hc
    · exact (pairwise_cons.1 (hcons ▸ hchild)).2
    · exact hincreasing c (by simp [hc])

theorem Pending.park (h : s.Pending (row :: rows)) (hrow : (child.seq, child.row) = row)
    (hperm : (s.lastChildContext.toList ++ s.contexts).Perm (child :: rest)) :
    ScanMerge.Pending { s with contexts := rest, lastChildContext := some child }
      (row :: rows) where
  perm := (hperm.flatMap_right _).symm.trans h.perm
  sorted := h.sorted
  increasing c hc := h.increasing c (hperm.mem_iff.2 hc)
  parked c hc := by
    obtain rfl := Option.some.inj hc
    exact congrArg some hrow.symm

/-! ### The loop of the scan merge -/

/-- The assembled row is the fuse, so far, of the rows of a key. -/
structure Holds (s : ScanMerge K n) (rowkey : K) (fused : Fused n) : Prop where
  valid : s.isCurRowValid = !fused.isRowEmpty
  cells : s.curRow.row.cells = fused.result.cells
  rowkey : fused.isRowEmpty = false → s.curRow.rowkey = some rowkey
  null : NullIfEmpty fused

variable {arith : Arith} {k : K} {fused : Fused n}

omit [LinearOrder K] in
theorem Holds.pushChild (hs : s.Holds k fused) (child : ChildContext K n) :
    (s.pushChild child).Holds k fused := by
  unfold ScanMerge.pushChild
  split
  · exact hs
  · exact ⟨hs.valid, hs.cells, hs.rowkey, hs.null⟩

omit [LinearOrder K] in
theorem holds_setCurRow {fused' : Fused n} (h : Alike fused fused') (hnull : NullIfEmpty fused) :
    (s.setCurRow false k fused').Holds k fused := by
  unfold setCurRow
  rcases hempty : fused.isRowEmpty with _ | _
  · have hempty' : fused'.isRowEmpty = false := h.isRowEmpty ▸ hempty
    rw [if_neg (by simp [hempty'])]
    exact ⟨by simp [hempty], h.cells.symm, fun _ => rfl, hnull⟩
  have hempty' : fused'.isRowEmpty = true := h.isRowEmpty ▸ hempty
  rw [if_pos (by simp [hempty'])]
  exact ⟨by simp [hempty], (hnull hempty).symm, fun h => by simp [hempty] at h, hnull⟩

omit [LinearOrder K] in
theorem setCurRow_contexts (s : ScanMerge K n) (isUpsRow : Bool) (k : K) (fused : Fused n) :
    (s.setCurRow isUpsRow k fused).contexts = s.contexts ∧
      (s.setCurRow isUpsRow k fused).lastChildContext = s.lastChildContext := by
  unfold setCurRow
  split <;> exact ⟨rfl, rfl⟩

theorem Holds.fuseLoop_cons (hs : s.Holds k fused) (h : s.Pending (row :: rows))
    (hkey : row.2.rowkey = k) (hrow : Supported row.2.row) (fuel : Nat) :
    ∃ s' fused', fuseLoop arith false (fuel + 1) s = fuseLoop arith false fuel s' ∧
      s'.Pending rows ∧ fuseSstableRow arith row.2.row fused = .ok fused' ∧ s'.Holds k fused' := by
  obtain ⟨child, rest, hnext, rfl, hperm⟩ := h.nextChild_cons
  obtain rfl : child.row.rowkey = k := hkey
  have hsame : (!s.isCurRowValid || decide (s.curRow.rowkey = some child.row.rowkey)) = true := by
    rcases hempty : fused.isRowEmpty with _ | _
    · simp [hs.rowkey hempty]
    · simp [hs.valid, hempty]
  have halike : Alike fused ⟨s.curRow.row, !s.isCurRowValid⟩ := ⟨hs.cells.symm, by simp [hs.valid]⟩
  obtain ⟨t, t', hfuse, hfuse', halike', hnull⟩ := fuseSstableRow_alike arith hrow halike hs.null
  obtain ⟨hcontexts, hlast⟩ := setCurRow_contexts
    { s with contexts := rest, lastChildContext := none } false child.row.rowkey t'
  refine ⟨_, t, ?_, h.pushChild rfl (hcontexts ▸ hperm) hlast, hfuse,
    (holds_setCurRow halike' hnull).pushChild child⟩
  rw [fuseLoop, hnext]
  simp [hsame, fuseRow, hfuse']

variable (arith) in
theorem Holds.fuseLoop_append {group : List (Nat × KeyRow K n)} (hs : s.Holds k fused)
    (h : s.Pending (group ++ rows)) (hkey : ∀ row ∈ group, row.2.rowkey = k)
    (hgroup : ∀ row ∈ group, Supported row.2.row) (fuel : Nat) :
    ∃ s' fused',
      fuseLoop arith false (group.length + fuel) s = fuseLoop arith false fuel s' ∧
      s'.Pending rows ∧ fuseSstableRows arith (group.map (·.2.row)) fused = .ok fused' ∧
      s'.Holds k fused' := by
  induction group generalizing s fused with
  | nil => exact ⟨s, fused, by simp, h, rfl, hs⟩
  | cons row group ih =>
    obtain ⟨s₁, fused₁, hloop₁, h₁, hfuse₁, hs₁⟩ :=
      hs.fuseLoop_cons h (hkey row (by simp)) (hgroup row (by simp)) (group.length + fuel)
    obtain ⟨s', fused', hloop, h', hfuse, hs'⟩ := ih hs₁ h₁ (fun r hr => hkey r (by simp [hr]))
      fun r hr => hgroup r (by simp [hr])
    refine ⟨s', fused', ?_, h', ?_, hs'⟩
    · rw [← hloop, ← hloop₁, length_cons, Nat.add_right_comm]
    · rwa [map_cons, fuseSstableRows_cons, hfuse₁]

variable (arith) in
theorem Holds.fuseLoop_stop (hs : s.Holds k fused) (hvalid : fused.isRowEmpty = false)
    (h : s.Pending rows) (hkey : ∀ row ∈ rows, row.2.rowkey ≠ k) (fuel : Nat) :
    ∃ s', fuseLoop arith false (fuel + 1) s = .ok s' ∧ s'.Pending rows ∧ s'.Holds k fused := by
  rcases rows with _ | ⟨row, rows⟩
  · exact ⟨s, by rw [fuseLoop, h.nextChild_nil], h, hs⟩
  obtain ⟨child, rest, hnext, rfl, hperm⟩ := h.nextChild_cons
  have hother :
      (!s.isCurRowValid || decide (s.curRow.rowkey = some child.row.rowkey)) = false := by
    have hne := hkey (child.seq, child.row) (by simp)
    simpa [hs.valid, hvalid, hs.rowkey hvalid] using hne.symm
  refine ⟨{ s with contexts := rest, lastChildContext := some child }, ?_, h.park rfl hperm,
    hs.valid, hs.cells, hs.rowkey, hs.null⟩
  rw [fuseLoop, hnext]
  simp [hother]

/-! ### The calls of the scan merge -/

/-- The rows of a key without their sequence numbers. -/
def groupRows (group : K → List (Nat × KeyRow K n)) (k : K) : List (Row n) :=
  (group k).map (·.2.row)

/-- The rows that are pending, by key. -/
structure Groups (keys : List K) (group : K → List (Nat × KeyRow K n)) : Prop where
  increasing : keys.Pairwise (· < ·)
  rowkey : ∀ k, ∀ row ∈ group k, row.2.rowkey = k
  supported : ∀ k, ∀ row ∈ group k, Supported row.2.row

variable {keys : List K} {group : K → List (Nat × KeyRow K n)}

/-- The current row is not valid, and all its cells are null. -/
structure Fresh (s : ScanMerge K n) : Prop where
  valid : s.isCurRowValid = false
  cells : s.curRow.row.cells = fun _ => .value .null

omit [LinearOrder K] in
theorem Fresh.holds (hs : s.Fresh) (k : K) : s.Holds k absentRow :=
  ⟨hs.valid, hs.cells, fun h => by simp [absentRow] at h, fun _ => rfl⟩

omit [LinearOrder K] in
theorem Holds.fresh (hs : s.Holds k fused) (hempty : fused.isRowEmpty = true) : s.Fresh :=
  ⟨by simp [hs.valid, hempty], hs.cells.trans (hs.null hempty)⟩

variable (arith) in
/-- From a state without an assembled row, the loop passes the keys without a row and stops after
the first key with one. -/
theorem Fresh.fuseLoop_spec (hs : s.Fresh) (hg : Groups keys group)
    (h : s.Pending (keys.flatMap group)) (hfuel : (keys.flatMap group).length < fuel) :
    ∃ s', fuseLoop arith false fuel s = .ok s' ∧
      ((s'.isCurRowValid = false ∧ keys.filterMap (fusedView arith (groupRows group)) = []) ∨
        s'.isCurRowValid = true ∧ ∃ rest : List K, s'.Pending (rest.flatMap group) ∧
          rest.length < keys.length ∧ Groups rest group ∧
          keys.filterMap (fusedView arith (groupRows group)) =
            s'.curRow.view :: rest.filterMap (fusedView arith (groupRows group))) := by
  induction keys generalizing s fuel with
  | nil =>
    obtain ⟨fuel, rfl⟩ := Nat.exists_eq_add_of_lt hfuel
    exact ⟨s, by rw [fuseLoop, h.nextChild_nil], .inl ⟨hs.valid, rfl⟩⟩
  | cons k keys ih =>
    have hg' : Groups keys group :=
      ⟨(pairwise_cons.1 hg.increasing).2, hg.rowkey, hg.supported⟩
    rw [flatMap_cons] at h hfuel
    rw [length_append] at hfuel
    obtain ⟨fuel, rfl⟩ := Nat.exists_eq_add_of_lt hfuel
    obtain ⟨s₁, fused, hloop, h₁, hfused, hs₁⟩ := (hs.holds k).fuseLoop_append arith h
      (hg.rowkey k) (hg.supported k) ((keys.flatMap group).length + fuel + 1)
    rw [Nat.add_assoc, Nat.add_assoc, ← Nat.add_assoc (keys.flatMap group).length, hloop]
    rcases hempty : fused.isRowEmpty with _ | _
    · have hother : ∀ row ∈ keys.flatMap group, row.2.rowkey ≠ k := by
        intro row hrow
        obtain ⟨k', hk', hrow⟩ := mem_flatMap.1 hrow
        rw [hg.rowkey k' row hrow]
        exact ((pairwise_cons.1 hg.increasing).1 k' hk').ne'
      obtain ⟨s', hstop, h', hs'⟩ := hs₁.fuseLoop_stop arith hempty h₁ hother
        ((keys.flatMap group).length + fuel)
      have hview : fusedView arith (groupRows group) k = some s'.curRow.view := by
        simp [fusedView, groupRows, fusedCells, hfused, hempty, CurRow.view, hs'.rowkey hempty,
          hs'.cells]
      exact ⟨s', hstop, .inr ⟨by simp [hs'.valid, hempty], keys, h', by simp, hg',
        filterMap_cons_some hview⟩⟩
    · have hfuel' : (keys.flatMap group).length < (keys.flatMap group).length + fuel + 1 := by omega
      obtain ⟨s', hloop', hrest⟩ := ih (hs₁.fresh hempty) hg' h₁ hfuel'
      have hview : fusedView arith (groupRows group) k = none := by
        simp [fusedView, groupRows, fusedCells, hfused, hempty]
      refine ⟨s', hloop', ?_⟩
      rw [filterMap_cons_none hview]
      obtain hend | ⟨hvalid, rest, hpending, hlength, hgroups, heq⟩ := hrest
      · exact .inl hend
      · exact .inr ⟨hvalid, rest, hpending, hlength.trans (by simp), hgroups, heq⟩

variable (arith) in
theorem Pending.getNextRow_spec (h : s.Pending (keys.flatMap group)) (hg : Groups keys group) :
    (getNextRow arith false s = .error .iterEnd ∧
        keys.filterMap (fusedView arith (groupRows group)) = []) ∨
      ∃ row s', getNextRow arith false s = .ok (row, s') ∧
        ∃ rest : List K, s'.Pending (rest.flatMap group) ∧ rest.length < keys.length ∧
          Groups rest group ∧ keys.filterMap (fusedView arith (groupRows group)) =
            row.view :: rest.filterMap (fusedView arith (groupRows group)) := by
  have hfuel : (keys.flatMap group).length < s.rows.length + 1 := by
    have := h.perm.length_eq
    omega
  have hpending : ScanMerge.Pending { s with
      isCurRowValid := false
      curRow := ⟨s.curRow.rowkey, s.curRow.row.reset (defaultObj false)⟩ } (keys.flatMap group) :=
    ⟨h.perm, h.sorted, h.increasing, h.parked⟩
  obtain ⟨s', hloop, hrest⟩ := Fresh.fuseLoop_spec arith ⟨rfl, rfl⟩ hg hpending hfuel
  simp only [ScanMerge.getNextRow, hloop]
  obtain ⟨hvalid, hnil⟩ | ⟨hvalid, hmore⟩ := hrest
  · exact .inl ⟨by simp [hvalid], hnil⟩
  · exact .inr ⟨s'.curRow, s', by simp [hvalid], hmore⟩

variable (arith) in
theorem Pending.yields (h : s.Pending (keys.flatMap group)) (hg : Groups keys group) :
    ∃ outs, Yields (getNextRow arith false) outs .iterEnd s ∧
      outs.map CurRow.view = keys.filterMap (fusedView arith (groupRows group)) := by
  induction hlen : keys.length using Nat.strong_induction_on generalizing s keys with
  | _ len ih =>
    obtain ⟨hend, hnil⟩ | ⟨row, s', hnext, rest, hpending, hlength, hgroups, heq⟩ :=
      h.getNextRow_spec arith hg
    · exact ⟨[], hend, hnil.symm⟩
    · obtain ⟨outs, hyields, houts⟩ := ih rest.length (hlen ▸ hlength) hpending hgroups rfl
      exact ⟨row :: outs, ⟨s', hnext, hyields⟩, by rw [map_cons, houts, heq]⟩

/-! ### Opening the scan merge -/

/-- The rows of a key with their child's number, in child order. -/
def seqRowsOf (children : List (List (KeyRow K n))) (k : K) : List (Nat × KeyRow K n) :=
  children.zipIdx.flatMap fun c => (c.1.filter (·.rowkey = k)).map fun row => (c.2, row)

theorem seqRowsOf_map (children : List (List (KeyRow K n))) (k : K) :
    (seqRowsOf children k).map (·.2.row) = rowsOf children k := by
  have h := congrArg (List.flatMap fun child : List (KeyRow K n) =>
    (child.filter (·.rowkey = k)).map KeyRow.row) (zipIdx_map_fst 0 children)
  rw [flatMap_map] at h
  rw [rowsOf, ← h, seqRowsOf, map_flatMap]
  simp [Function.comp_def]

theorem mem_seqRowsOf {k : K} {row : Nat × KeyRow K n} :
    row ∈ seqRowsOf children k ↔
      (∃ child, (child, row.1) ∈ children.zipIdx ∧ row.2 ∈ child) ∧ row.2.rowkey = k := by
  obtain ⟨seq, row⟩ := row
  simp only [seqRowsOf, mem_flatMap, mem_map, mem_filter, decide_eq_true_eq, Prod.exists,
    Prod.mk.injEq]
  constructor
  · rintro ⟨child, seq', hchild, row', ⟨hrow, hk⟩, rfl, rfl⟩
    exact ⟨⟨child, hchild, hrow⟩, hk⟩
  · rintro ⟨⟨child, hchild, hrow⟩, hk⟩
    exact ⟨child, seq, hchild, row, ⟨hrow, hk⟩, rfl, rfl⟩

omit [LinearOrder K] in
theorem pairwise_zipIdx (children : List (List (KeyRow K n))) :
    children.zipIdx.Pairwise fun a b => a.2 < b.2 := by
  have h : (children.zipIdx.map Prod.snd).Pairwise (· < ·) := by
    rw [zipIdx_map_snd]
    exact pairwise_lt_range'
  exact pairwise_map.1 h

omit [LinearOrder K] in
theorem mem_child_of_mem_zipIdx {a : List (KeyRow K n) × Nat} (h : a ∈ children.zipIdx) :
    a.1 ∈ children := by
  have := mem_map_of_mem (f := Prod.fst) h
  rwa [zipIdx_map_fst] at this

theorem pairwise_seqRows (hsorted : ∀ child ∈ children, child.Pairwise (·.rowkey < ·.rowkey))
    {keys : List K} (hkeys : keys.Pairwise (· < ·)) :
    (keys.flatMap (seqRowsOf children)).Pairwise (Sql.position · < Sql.position ·) := by
  refine pairwise_flatMap.2 ⟨fun k _ => ?_, hkeys.imp fun {k k'} hlt a ha b hb => ?_⟩
  · refine pairwise_flatMap.2 ⟨fun c hc => ?_, (pairwise_zipIdx children).imp ?_⟩
    · have hchild := (hsorted c.1 (mem_child_of_mem_zipIdx hc)).filter (·.rowkey = k)
      exact pairwise_map.2 (hchild.imp fun h => Prod.Lex.toLex_lt_toLex.2 (.inl h))
    intro c d hlt a ha b hb
    obtain ⟨r, hr, rfl⟩ := mem_map.1 ha
    obtain ⟨r', hr', rfl⟩ := mem_map.1 hb
    have hkey : r.rowkey = k := by simpa using (mem_filter.1 hr).2
    have hkey' : r'.rowkey = k := by simpa using (mem_filter.1 hr').2
    exact Prod.Lex.toLex_lt_toLex.2 (.inr ⟨hkey.trans hkey'.symm, hlt⟩)
  · have hkey := (mem_seqRowsOf.1 ha).2
    have hkey' := (mem_seqRowsOf.1 hb).2
    refine Prod.Lex.toLex_lt_toLex.2 (.inl ?_)
    simpa [hkey, hkey'] using hlt

omit [LinearOrder K] in
theorem flatMap_openContexts (children : List (List (KeyRow K n))) :
    (openContexts children).flatMap (fun c => (c.row :: c.rest).map fun row => (c.seq, row)) =
      children.zipIdx.flatMap fun c => c.1.map fun row => (c.2, row) := by
  unfold openContexts
  induction children.zipIdx with
  | nil => rfl
  | cons c cs ih =>
    obtain ⟨child, seq⟩ := c
    rcases child with _ | ⟨row, rest⟩
    · simpa using ih
    · simp only [filterMap_cons, flatMap_cons, ih]

theorem nodup_rows (hsorted : ∀ child ∈ children, child.Pairwise (·.rowkey < ·.rowkey)) :
    (children.zipIdx.flatMap fun c => c.1.map fun row => (c.2, row)).Nodup := by
  refine pairwise_flatMap.2 ⟨fun c hc => ?_, (pairwise_zipIdx children).imp ?_⟩
  · have hchild := hsorted c.1 (mem_child_of_mem_zipIdx hc)
    refine pairwise_map.2 (hchild.imp fun {a b} hlt heq => ?_)
    exact hlt.ne (congrArg KeyRow.rowkey (Prod.mk.inj heq).2)
  intro c d hlt a ha b hb heq
  obtain ⟨r, -, rfl⟩ := mem_map.1 ha
  obtain ⟨r', -, rfl⟩ := mem_map.1 hb
  exact hlt.ne (Prod.mk.inj heq).1

/-- The opened scan merge has to process the rows of all keys, key by key. -/
theorem pending_open (hsorted : ∀ child ∈ children, child.Pairwise (·.rowkey < ·.rowkey))
    {hasFlag : Bool} (h : ScanMerge.open children hasFlag = .ok s) :
    s.Pending ((mergedKeys children).flatMap (seqRowsOf children)) := by
  have hs : s.contexts = openContexts children ∧ s.lastChildContext = none := by
    unfold ScanMerge.open at h
    split at h
    · cases h
    · obtain rfl := Except.ok.inj h
      exact ⟨rfl, rfl⟩
  have hrows : s.rows =
      children.zipIdx.flatMap fun c => c.1.map fun row => (c.2, row) := by
    rw [ScanMerge.rows, hs.1, hs.2]
    exact flatMap_openContexts children
  have hkeys := pairwise_seqRows hsorted (pairwise_mergedKeys children)
  refine ⟨?_, hkeys, ?_, by simp [hs.2]⟩
  · rw [hrows]
    refine (perm_ext_iff_of_nodup (nodup_rows hsorted) (hkeys.imp ?_)).2 fun a => ?_
    · rintro a b hlt rfl
      exact lt_irrefl _ hlt
    constructor
    · intro ha
      obtain ⟨c, hc, hmem⟩ := mem_flatMap.1 ha
      obtain ⟨row, hrow, rfl⟩ := mem_map.1 hmem
      exact mem_flatMap.2 ⟨row.rowkey,
        mem_mergedKeys.2 ⟨c.1, mem_child_of_mem_zipIdx hc, row, hrow, rfl⟩,
        mem_seqRowsOf.2 ⟨⟨c.1, hc, hrow⟩, rfl⟩⟩
    · intro ha
      obtain ⟨k, -, hrow⟩ := mem_flatMap.1 ha
      obtain ⟨⟨child, hchild, hrow⟩, -⟩ := mem_seqRowsOf.1 hrow
      exact mem_flatMap.2 ⟨(child, a.1), hchild, mem_map.2 ⟨a.2, hrow, rfl⟩⟩
  · intro c hc
    simp only [hs.1, hs.2, Option.toList_none, nil_append, openContexts, mem_filterMap] at hc
    obtain ⟨⟨child, seq⟩, hchild, hc⟩ := hc
    rcases child with _ | ⟨row, rest⟩
    · cases hc
    · obtain rfl := Option.some.inj hc
      exact hsorted _ (mem_child_of_mem_zipIdx hchild)

end ScanMerge

/-! ### The get merge -/

/-- A child of the get merge delivers, for each key in turn, the row that the child of the scan
merge has for it, or else a row that says it does not exist. -/
def AlignedChild (keys : List K) (child aligned : List (KeyRow K n)) : Prop :=
  List.Forall₂ (fun k row => row.rowkey = k ∧ (row ∈ child ∨
    (∀ r ∈ child, r.rowkey ≠ k) ∧ row.row.flag = some (.ext .rowDoesNotExist))) keys aligned

variable {row : KeyRow K n} {child : List (KeyRow K n)}

theorem filter_rowkey_eq (hsorted : child.Pairwise (·.rowkey < ·.rowkey)) (hrow : row ∈ child) :
    child.filter (·.rowkey = row.rowkey) = [row] := by
  induction child with
  | nil => cases hrow
  | cons r child ih =>
    obtain ⟨hlt, hchild⟩ := pairwise_cons.1 hsorted
    obtain rfl | hrow := mem_cons.1 hrow
    · rw [filter_cons_of_pos (by simp)]
      refine congrArg _ (filter_eq_nil_iff.2 fun r hr => ?_)
      simpa using (hlt r hr).ne'
    · rw [filter_cons_of_neg (by simpa using (hlt row hrow).ne), ih hchild hrow]

namespace GetMerge

variable {arith : Arith} {k : K} {keys : List K}

variable (arith) in
/-- The row that an aligned child delivers for a key does what the child's own row does. -/
theorem fuse_aligned {s s' : Fused n}
    (hsorted : child.Pairwise (·.rowkey < ·.rowkey)) (hchild : ∀ r ∈ child, Supported r.row)
    (hrow : row ∈ child ∨
      (∀ r ∈ child, r.rowkey ≠ row.rowkey) ∧ row.row.flag = some (.ext .rowDoesNotExist))
    (h : Alike s s') (hnull : NullIfEmpty s) :
    ∃ t t',
      fuseSstableRows arith ((child.filter (·.rowkey = row.rowkey)).map KeyRow.row) s = .ok t ∧
      fuseSstableRow arith row.row s' = .ok t' ∧ Alike t t' ∧ NullIfEmpty t := by
  obtain hrow | ⟨hnone, hflag⟩ := hrow
  · rw [filter_rowkey_eq hsorted hrow]
    obtain ⟨t, t', hfuse, hfuse', halike, hnull⟩ :=
      fuseSstableRow_alike arith (hchild row hrow) h hnull
    exact ⟨t, t', by simp [fuseSstableRows, hfuse], hfuse', halike, hnull⟩
  have hnil : child.filter (·.rowkey = row.rowkey) = [] :=
    filter_eq_nil_iff.2 fun r hr => by simpa using hnone r hr
  rw [hnil]
  exact ⟨s, s', rfl, fuseSstableRow_rowDoesNotExist hflag, h, hnull⟩

omit [LinearOrder K] in
theorem fuseRowkey_self :
    fuseRowkey row (some row.rowkey) = some row.rowkey := by
  unfold fuseRowkey
  split <;> rfl

variable {s : GetMerge K n}

omit [LinearOrder K] in
theorem fuseRound_nil (hne : children ≠ [])
    (h : List.Forall₂ (AlignedChild []) children s.children) :
    fuseRound arith false s = .error .iterEnd := by
  unfold fuseRound
  generalize s.children = aligned at h
  rcases h with _ | ⟨hfirst, hrest⟩
  · exact absurd rfl hne
  cases hfirst
  rcases hrest with _ | ⟨hsecond, _⟩
  · rfl
  · cases hsecond
    rfl

variable (arith) (hsorted : ∀ child ∈ children, child.Pairwise (·.rowkey < ·.rowkey))
  (hsupported : ∀ child ∈ children, ∀ r ∈ child, Supported r.row)
include hsorted hsupported

theorem fuseChildren_spec {aligned : List (List (KeyRow K n))}
    (h : List.Forall₂ (AlignedChild (k :: keys)) children aligned) {s s' : Fused n}
    (halike : Alike s s') (hnull : NullIfEmpty s) :
    ∃ t t' aligned', fuseSstableRows arith (rowsOf children k) s = .ok t ∧
      fuseChildren arith false aligned (some k, s') = .ok ((some k, t'), aligned') ∧
      Alike t t' ∧ List.Forall₂ (AlignedChild keys) children aligned' := by
  induction h generalizing s s' with
  | nil => exact ⟨s, s', [], rfl, rfl, halike, .nil⟩
  | @cons child aligned children rest hfirst hrest ih =>
    cases hfirst with
    | @cons _ row _ aligned' hrow haligned =>
    obtain ⟨rfl, hrow⟩ := hrow
    obtain ⟨t, t', hfuse, hfuse', halike₁, hnull₁⟩ := fuse_aligned arith
      (hsorted child (by simp)) (hsupported child (by simp)) hrow halike hnull
    obtain ⟨u, u', aligned'', hfuses, hfuses', halike₂, hrest'⟩ :=
      ih (fun c hc => hsorted c (by simp [hc])) (fun c hc => hsupported c (by simp [hc]))
        halike₁ hnull₁
    refine ⟨u, u', aligned' :: aligned'', ?_, ?_, halike₂, .cons haligned hrest'⟩
    · rwa [rowsOf, flatMap_cons, fuseSstableRows_append, hfuse]
    · simp [fuseChildren, fuseRow, hfuse', fuseRowkey_self, hfuses']

theorem fuseRound_cons (hne : children ≠ [])
    (h : List.Forall₂ (AlignedChild (k :: keys)) children s.children) :
    ∃ t t' aligned, fuseSstableRows arith (rowsOf children k) absentRow = .ok t ∧
      fuseRound arith false s = .ok ((some k, t'), aligned) ∧ Alike t t' ∧
      List.Forall₂ (AlignedChild keys) children aligned := by
  unfold fuseRound
  generalize s.children = aligned at h
  cases h with
  | nil => exact absurd rfl hne
  | @cons child aligned children rest hfirst hrest =>
    cases hfirst with
    | @cons _ row _ aligned' hrow haligned =>
    obtain ⟨rfl, hrow⟩ := hrow
    have halike : Alike absentRow ⟨s.curRow.row.reset (defaultObj false), true⟩ := ⟨rfl, rfl⟩
    obtain ⟨t, t', hfuse, hfuse', halike₁, hnull₁⟩ := fuse_aligned arith
      (hsorted child (by simp)) (hsupported child (by simp)) hrow halike fun _ => rfl
    obtain ⟨u, u', aligned'', hfuses, hfuses', halike₂, hrest'⟩ :=
      fuseChildren_spec arith (fun c hc => hsorted c (by simp [hc]))
        (fun c hc => hsupported c (by simp [hc])) hrest halike₁ hnull₁
    refine ⟨u, u', aligned' :: aligned'', ?_, ?_, halike₂, .cons haligned hrest'⟩
    · rwa [rowsOf, flatMap_cons, fuseSstableRows_append, hfuse]
    · simp [fuseRow, hfuse', hfuses']

/-- The loop passes the keys without a row and stops after the first key with one. -/
theorem fuseLoop_spec (hne : children ≠ [])
    (h : List.Forall₂ (AlignedChild keys) children s.children) (hfuel : keys.length < fuel) :
    (fuseLoop arith false fuel s = .error .iterEnd ∧
        keys.filterMap (fusedView arith (rowsOf children)) = []) ∨
      ∃ row s', fuseLoop arith false fuel s = .ok (row, s') ∧
        ∃ rest : List K, List.Forall₂ (AlignedChild rest) children s'.children ∧
          rest.length < keys.length ∧ keys.filterMap (fusedView arith (rowsOf children)) =
            row.view :: rest.filterMap (fusedView arith (rowsOf children)) := by
  obtain ⟨fuel, rfl⟩ := Nat.exists_eq_add_of_lt hfuel
  induction keys generalizing s fuel with
  | nil => exact .inl ⟨by rw [fuseLoop, fuseRound_nil hne h], rfl⟩
  | cons k keys ih =>
    obtain ⟨t, t', aligned, hfuse, hround, halike, h'⟩ :=
      fuseRound_cons arith hsorted hsupported hne h
    rw [fuseLoop, hround, length_cons, Nat.add_right_comm]
    rcases hempty : t.isRowEmpty with _ | _
    · have hempty' : t'.isRowEmpty = false := halike.isRowEmpty ▸ hempty
      have hview : fusedView arith (rowsOf children) k = some (some k, t'.result.cells) := by
        simp [fusedView, fusedCells, hfuse, hempty, halike.cells]
      refine .inr ⟨⟨some k, t'.result⟩, ⟨aligned, ⟨some k, t'.result⟩⟩, by simp [hempty'], keys, h',
        by simp, ?_⟩
      exact filterMap_cons_some hview
    have hempty' : t'.isRowEmpty = true := halike.isRowEmpty ▸ hempty
    have hview : fusedView arith (rowsOf children) k = none := by
      simp [fusedView, fusedCells, hfuse, hempty]
    simp only [hempty', filterMap_cons_none hview]
    obtain hend | ⟨row, s', hloop, rest, hrest, hlength, heq⟩ :=
      ih (s := ⟨aligned, ⟨some k, t'.result⟩⟩) h' fuel (by omega)
    · exact .inl hend
    · exact .inr ⟨row, s', hloop, rest, hrest, hlength.trans (by simp), heq⟩

theorem yields (hne : children ≠ []) (h : List.Forall₂ (AlignedChild keys) children s.children) :
    ∃ outs, Yields (getNextRow arith false) outs .iterEnd s ∧
      outs.map CurRow.view = keys.filterMap (fusedView arith (rowsOf children)) := by
  induction hlen : keys.length using Nat.strong_induction_on generalizing s keys with
  | _ len ih =>
    have hfuel : keys.length < (s.children.headD []).length + 1 := by
      generalize s.children = aligned at h ⊢
      rcases h with _ | ⟨hfirst, _⟩
      · exact absurd rfl hne
      · exact Nat.lt_succ_of_le hfirst.length_eq.le
    obtain ⟨hend, hnil⟩ | ⟨row, s', hnext, rest, hrest, hlength, heq⟩ :=
      fuseLoop_spec arith hsorted hsupported hne h hfuel
    · exact ⟨[], hend, hnil.symm⟩
    · obtain ⟨outs, hyields, houts⟩ := ih rest.length (hlen ▸ hlength) hrest rfl
      exact ⟨row :: outs, ⟨s', hnext, hyields⟩, by rw [map_cons, houts, heq]⟩

end GetMerge

end Heap

/-- **The merge operators.** Over children in strictly increasing key order, the scan merge outputs
for each key of some child, in this order, the fuse of its rows in child order, unless that row is
deleted or does not exist. Over the same rows aligned, the get merge outputs the same. -/
theorem merge_outputs [LinearOrder K] (arith : Arith) (children : List (List (KeyRow K n)))
    (hasFlag : Bool) (s : ScanMerge K n) (hopen : ScanMerge.open children hasFlag = .ok s)
    (hsorted : ∀ child ∈ children, child.Pairwise (·.rowkey < ·.rowkey))
    (hsupported : ∀ child ∈ children, ∀ row ∈ child, Supported row.row) :
    ∃ outs, Yields (ScanMerge.getNextRow arith false) outs .iterEnd s ∧
      outs.Pairwise (fun a b => ∃ k k', a.rowkey = some k ∧ b.rowkey = some k' ∧ k < k') ∧
      (∀ k cells, (some k, cells) ∈ outs.map CurRow.view ↔
        (∃ child ∈ children, ∃ row ∈ child, row.rowkey = k) ∧
          ∃ fused, fuseSstableRows arith (rowsOf children k) absentRow = .ok fused ∧
            fused.isRowEmpty = false ∧ fused.result.cells = cells) ∧
      ∀ getMerge : GetMerge K n,
        List.Forall₂ (AlignedChild (mergedKeys children)) children getMerge.children →
        ∃ outs', Yields (GetMerge.getNextRow arith false) outs' .iterEnd getMerge ∧
          outs'.map CurRow.view = outs.map CurRow.view := by
  have hne : children ≠ [] := by
    rintro rfl
    cases hopen
  have hgroups : ScanMerge.Groups (mergedKeys children) (ScanMerge.seqRowsOf children) := by
    refine ⟨pairwise_mergedKeys children, fun k row hrow => (ScanMerge.mem_seqRowsOf.1 hrow).2,
      fun k row hrow => ?_⟩
    obtain ⟨⟨child, hchild, hrow⟩, -⟩ := ScanMerge.mem_seqRowsOf.1 hrow
    exact hsupported child (ScanMerge.mem_child_of_mem_zipIdx hchild) row.2 hrow
  have hrows : ScanMerge.groupRows (ScanMerge.seqRowsOf children) = rowsOf children :=
    funext (ScanMerge.seqRowsOf_map children)
  obtain ⟨outs, hyields, houts⟩ :=
    (ScanMerge.pending_open hsorted hopen).yields arith hgroups
  rw [hrows] at houts
  refine ⟨outs, hyields, ?_, ?_, ?_⟩
  · have hkeys : ((mergedKeys children).filterMap (fusedView arith (rowsOf children))).Pairwise
        (fun a b => ∃ k k', a.1 = some k ∧ b.1 = some k' ∧ k < k') := by
      refine pairwise_filterMap.2 ((pairwise_mergedKeys children).imp ?_)
      intro k k' hlt a ha b hb
      obtain ⟨cells, -, rfl⟩ := Option.map_eq_some_iff.1 ha
      obtain ⟨cells', -, rfl⟩ := Option.map_eq_some_iff.1 hb
      exact ⟨k, k', rfl, rfl, hlt⟩
    rw [← houts] at hkeys
    exact pairwise_map.1 hkeys
  · intro k cells
    rw [houts, mem_filterMap, ← mem_mergedKeys]
    constructor
    · rintro ⟨k', hk', hview⟩
      obtain ⟨cells', hcells, heq⟩ := Option.map_eq_some_iff.1 hview
      obtain ⟨hk, rfl⟩ := Prod.mk.inj heq
      obtain rfl := Option.some.inj hk
      exact ⟨hk', fusedCells_eq_some.1 hcells⟩
    · rintro ⟨hk, hfused⟩
      exact ⟨k, hk, by rw [fusedView, fusedCells_eq_some.2 hfused]; rfl⟩
  · intro getMerge haligned
    obtain ⟨outs', hyields', houts'⟩ :=
      GetMerge.yields arith hsorted hsupported hne haligned
    exact ⟨outs', hyields', houts'.trans houts.symm⟩

/-- Two children: rows of the static data, and an update of the first and a delete of the second
one. -/
def twoChildren : List (List (KeyRow Nat 1)) :=
  [[⟨1, ⟨none, fun _ => .value (.int 10 false)⟩⟩, ⟨2, ⟨none, fun _ => .value (.int 20 false)⟩⟩],
    [⟨1, ⟨some (.ext .valid), fun _ => .value (.int 5 true)⟩⟩,
      ⟨2, ⟨some (.ext .delRow), fun _ => .nop⟩⟩]]

theorem merge_outputs_twoChildren :
    let arith : Arith := ⟨fun a b => a + b, fun _ b => b, fun _ b => .ok b⟩
    ∃ s outs, ScanMerge.open twoChildren false = .ok s ∧
      Yields (ScanMerge.getNextRow arith false) outs .iterEnd s ∧
      (some 1, fun _ => .value (.int 15 false)) ∈ outs.map CurRow.view ∧
      ∀ cells, (some 2, cells) ∉ outs.map CurRow.view := by
  intro arith
  obtain ⟨outs, hyields, -, hmem, -⟩ := merge_outputs arith twoChildren false _ rfl
    (by simp [twoChildren]) (by simp [twoChildren, Supported])
  refine ⟨_, outs, rfl, hyields, (hmem 1 _).2 ⟨by simp [twoChildren], _, rfl, rfl, rfl⟩,
    fun cells hcells => ?_⟩
  obtain ⟨-, fused, hfused, hempty, -⟩ := (hmem 2 cells).1 hcells
  cases hfused
  cases hempty

end OceanBase.Sql
