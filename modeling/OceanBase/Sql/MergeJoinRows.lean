import OceanBase.Sql.MergeJoinRuns

/-!
# The merge join on rows of cells

On rows without nulls in the join columns, `compareEquijoinCond` is the lexicographic order of these
columns, so the run of `MergeJoinRuns` applies: without further conditions the join is that of SQL.

Two defects are settled exactly. A null in a join column is only remembered until the next column
is compared. The other join conditions only filter the rows of the join without them: a row of a
preserved side all of whose partners they rule out is not output at all.
-/

namespace OceanBase.Sql

open Lib List MergeJoin

section Cells

variable {α : Type} [LinearOrder α]

/-! ### Comparisons -/

def leftCells (cells : List (Option α × Option α)) : List (WithBot α) := cells.map Prod.fst

def rightCells (cells : List (Option α × Option α)) : List (WithBot α) := cells.map Prod.snd

variable {cells : List (Option α × Option α)}

theorem compareEquijoin_spec (h : ∀ cell ∈ cells, cell.1 ≠ none ∧ cell.2 ≠ none) :
    (compareEquijoin 0 cells = 0 ↔ leftCells cells = rightCells cells) ∧
      (compareEquijoin 0 cells < 0 ↔ leftCells cells < rightCells cells) := by
  induction cells with
  | nil =>
    exact ⟨iff_of_true rfl rfl, iff_of_false (lt_irrefl 0) (lt_irrefl (leftCells []))⟩
  | cons cell cells ih =>
    obtain ⟨⟨hfst, hsnd⟩, hcells⟩ := forall_mem_cons.1 h
    obtain ⟨x, y⟩ := cell
    obtain ⟨a, rfl⟩ := Option.ne_none_iff_exists'.1 hfst
    obtain ⟨b, rfl⟩ := Option.ne_none_iff_exists'.1 hsnd
    obtain ⟨heq, hlt⟩ := ih hcells
    have hleft : leftCells ((some a, some b) :: cells) = (a : WithBot α) :: leftCells cells := rfl
    have hright : rightCells ((some a, some b) :: cells) = (b : WithBot α) :: rightCells cells :=
      rfl
    rw [hleft, hright, cons_lt_cons_iff, List.cons.injEq, WithBot.coe_lt_coe, WithBot.coe_inj]
    obtain hab | rfl | hab := lt_trichotomy a b
    · simp [compareEquijoin, exprCompare, (cmp_eq_lt_iff a b).2 hab, hab, hab.ne]
    · simp [compareEquijoin, exprCompare, heq, hlt]
    · simp [compareEquijoin, exprCompare, (cmp_eq_gt_iff a b).2 hab, hab.not_gt, hab.ne']

/-- The two comparisons differ in the value they give a null, never in whether it is zero. -/
theorem leftRowCompareEquijoin_eq_zero_iff {x y : Int} (h : x = 0 ↔ y = 0)
    (cells : List (Option α × Option α)) :
    leftRowCompareEquijoin x cells = 0 ↔ compareEquijoin y cells = 0 := by
  induction cells generalizing x y with
  | nil => exact h
  | cons cell cells ih =>
    obtain ⟨a, b⟩ := cell
    rw [leftRowCompareEquijoin, compareEquijoin]
    rcases exprCompare a b with _ | order
    · exact ih (by split <;> simp)
    cases order with
    | lt => simp
    | eq => exact ih Iff.rfl
    | gt => simp

/-- The rows join by the cells: the last cells are equal values, and before that a null is equal
to everything. -/
def EqualUpToNulls (cells : List (Option α × Option α)) : Prop :=
  (∀ cell ∈ cells, cell.1 = none ∨ cell.2 = none ∨ cell.1 = cell.2) ∧
    ∀ cell ∈ cells.getLast?, ∃ v, cell = (some v, some v)

omit [LinearOrder α] in
theorem equalUpToNulls_cons {cell : Option α × Option α} :
    EqualUpToNulls (cell :: cells) ↔ (cell.1 = none ∨ cell.2 = none ∨ cell.1 = cell.2) ∧
      (cells = [] → ∃ v, cell = (some v, some v)) ∧ EqualUpToNulls cells := by
  unfold EqualUpToNulls
  rw [forall_mem_cons]
  rcases cells with _ | ⟨cell', cells⟩
  · simp
  · simp only [reduceCtorEq, false_implies, true_and]
    exact and_assoc

theorem compareEquijoin_eq_zero_iff {cmp : Int} :
    compareEquijoin cmp cells = 0 ↔ (cells = [] → cmp = 0) ∧ EqualUpToNulls cells := by
  induction cells generalizing cmp with
  | nil => simp [compareEquijoin, EqualUpToNulls]
  | cons cell cells ih =>
    obtain ⟨a, b⟩ := cell
    rw [equalUpToNulls_cons, compareEquijoin]
    match a, b with
    | none, b => simp [exprCompare, ih]
    | some a, none => simp [exprCompare, ih]
    | some a, some b =>
      obtain hab | rfl | hab := lt_trichotomy a b
      · simp [exprCompare, (cmp_eq_lt_iff a b).2 hab, hab.ne]
      · simp [exprCompare, ih]
      · simp [exprCompare, (cmp_eq_gt_iff a b).2 hab, hab.ne']

end Cells

/-! ### Rows -/

section Rows

variable {ι κ α : Type} [LinearOrder α] (conds : List (ι × κ))

/-- The cells of a left row that the join compares. -/
def leftKey (l : ι → Option α) : List (WithBot α) := conds.map fun c => l c.1

/-- The cells of a right row that the join compares. -/
def rightKey (r : κ → Option α) : List (WithBot α) := conds.map fun c => r c.2

variable {r : κ → Option α} {l : ι → Option α}

theorem compareEquijoinCond_spec (hl : ∀ c ∈ conds, l c.1 ≠ none) (hr : ∀ c ∈ conds, r c.2 ≠ none) :
    (compareEquijoinCond conds l r = 0 ↔ leftKey conds l = rightKey conds r) ∧
      (compareEquijoinCond conds l r < 0 ↔ leftKey conds l < rightKey conds r) := by
  have hleft : leftCells (conds.map fun c => (l c.1, r c.2)) = leftKey conds l := map_map
  have hright : rightCells (conds.map fun c => (l c.1, r c.2)) = rightKey conds r := map_map
  rw [← hleft, ← hright]
  exact compareEquijoin_spec (forall_mem_map.2 fun c hc => ⟨hl c hc, hr c hc⟩)

theorem leftRowCompareEquijoinCond_spec {l l' : ι → Option α}
    (hl : ∀ c ∈ conds, l c.1 ≠ none) (hl' : ∀ c ∈ conds, l' c.1 ≠ none) :
    leftRowCompareEquijoinCond conds l l' = 0 ↔ leftKey conds l = leftKey conds l' := by
  have hleft : leftCells (conds.map fun c => (l c.1, l' c.1)) = leftKey conds l := map_map
  have hright : rightCells (conds.map fun c => (l c.1, l' c.1)) = leftKey conds l' := map_map
  rw [← hleft, ← hright]
  refine (leftRowCompareEquijoin_eq_zero_iff Iff.rfl _).trans (compareEquijoin_spec ?_).1
  exact forall_mem_map.2 fun c hc => ⟨hl c hc, hl' c hc⟩

/-- No join column is null. -/
def LeftNullFree (l : ι → Option α) : Prop := ∀ c ∈ conds, l c.1 ≠ none

/-- No cell that the join compares is null. -/
def RightNullFree (r : κ → Option α) : Prop := ∀ c ∈ conds, r c.2 ≠ none

theorem joinOrders_nullFree : JoinOrders (compareEquijoinCond conds)
    (leftRowCompareEquijoinCond conds) (leftKey conds) (rightKey conds)
    (LeftNullFree conds : (ι → Option α) → Prop) (RightNullFree conds) where
  zero_iff hl hr := (compareEquijoinCond_spec conds hl hr).1
  neg_iff hl hr := (compareEquijoinCond_spec conds hl hr).2
  left_iff hl hl' := leftRowCompareEquijoinCond_spec conds hl hl'

/-- Left rows without a partner are output. -/
def JoinType.preserveLeft : JoinType → Bool
  | .inner | .rightOuter => false
  | .leftOuter | .fullOuter => true

/-- Right rows without a partner are output. -/
def JoinType.preserveRight : JoinType → Bool
  | .inner | .leftOuter => false
  | .rightOuter | .fullOuter => true

theorem getNextRow_eq (joinType : JoinType) (otherJoinConds : List ((ι ⊕ κ → Option α) → Bool)) :
    getNextRow joinType conds otherJoinConds = getNextRowOf conds
      otherJoinConds joinType.preserveLeft joinType.preserveRight := by
  cases joinType <;> rfl

variable {conds} {left : List (ι → Option α)} {right : List (κ → Option α)}

theorem yields_filter_sqlJoin (joinType : JoinType)
    (otherJoinConds : List ((ι ⊕ κ → Option α) → Bool)) (hconds : conds ≠ [])
    (hleft : Sorted (leftKey conds) (LeftNullFree conds) left)
    (hright : Sorted (rightKey conds) (RightNullFree conds) right) :
    ∃ s outs, MergeJoin.open conds left right = .ok s ∧
      Yields (MergeJoin.getNextRow joinType conds otherJoinConds) outs .iterEnd s ∧
      outs.Perm ((sqlJoin (leftKey conds) (rightKey conds) joinType.preserveLeft
        joinType.preserveRight left right).filter (currRowIsQualified otherJoinConds)) := by
  have hopen : MergeJoin.open conds left right = .ok (MergeJoin.ofRows left right) :=
    if_neg (by simpa using hconds)
  obtain ⟨outs, hyields, hperm⟩ := MergeJoin.yields_sqlJoin
    (joinOrders_nullFree conds) (currRowIsQualified otherJoinConds) hleft hright
  rw [getNextRow_eq]
  exact ⟨_, outs, hopen, hyields, hperm⟩

variable (otherJoinConds : List ((ι ⊕ κ → Option α) → Bool))

section Preserved

variable (conds)

/-- Every left row is in an output row, a padded one if the other join conditions hold with none of
the right rows it is equal to. -/
def PreservesLeft (left : List (ι → Option α)) (right : List (κ → Option α))
    (outs : List (JoinRow (ι → Option α) (κ → Option α))) : Prop :=
  ∀ l ∈ left, (.left l ∈ outs ∨ ∃ r, .both l r ∈ outs) ∧
    ((∀ r ∈ right, leftKey conds l = rightKey conds r →
      currRowIsQualified otherJoinConds (.both l r) = false) → .left l ∈ outs)

/-- Every right row is in an output row, a padded one if the other join conditions hold with none of
the left rows it is equal to. -/
def PreservesRight (left : List (ι → Option α)) (right : List (κ → Option α))
    (outs : List (JoinRow (ι → Option α) (κ → Option α))) : Prop :=
  ∀ r ∈ right, (.right r ∈ outs ∨ ∃ l, .both l r ∈ outs) ∧
    ((∀ l ∈ left, leftKey conds l = rightKey conds r →
      currRowIsQualified otherJoinConds (.both l r) = false) → .right r ∈ outs)

/-- The other join conditions hold with one of the right rows that a left row is equal to, or it is
equal to none and they hold of the padded row. -/
def QualifiesLeft (left : List (ι → Option α)) (right : List (κ → Option α)) : Prop :=
  ∀ l ∈ left, (∃ r ∈ right, leftKey conds l = rightKey conds r ∧
      currRowIsQualified otherJoinConds (.both l r) = true) ∨
    (∀ r ∈ right, leftKey conds l ≠ rightKey conds r) ∧
      currRowIsQualified otherJoinConds (.left l) = true

/-- The other join conditions hold with one of the left rows that a right row is equal to, or it is
equal to none and they hold of the padded row. -/
def QualifiesRight (left : List (ι → Option α)) (right : List (κ → Option α)) : Prop :=
  ∀ r ∈ right, (∃ l ∈ left, leftKey conds l = rightKey conds r ∧
      currRowIsQualified otherJoinConds (.both l r) = true) ∨
    (∀ l ∈ left, leftKey conds l ≠ rightKey conds r) ∧
      currRowIsQualified otherJoinConds (.right r) = true

end Preserved

section Preserved

variable {otherJoinConds} {preserveLeft preserveRight : Bool}
    {outs : List (JoinRow (ι → Option α) (κ → Option α))}

/-- A row is preserved exactly if one of its partners qualifies, or it has none and the padded row
qualifies. -/
theorem preserved_iff {σ : Type} {partner qualified joined : σ → Prop} {padded padQualified : Prop}
    (hjoined : ∀ x, joined x ↔ partner x ∧ qualified x)
    (hpadded : padded ↔ (∀ x, ¬partner x) ∧ padQualified) :
    ((padded ∨ ∃ x, joined x) ∧ ((∀ x, partner x → ¬qualified x) → padded)) ↔
      (∃ x, partner x ∧ qualified x) ∨ (∀ x, ¬partner x) ∧ padQualified := by
  constructor
  · rintro ⟨-, hnone⟩
    by_cases hpartner : ∃ x, partner x ∧ qualified x
    · exact .inl hpartner
    · exact .inr (hpadded.1 (hnone fun x hx hq => hpartner ⟨x, hx, hq⟩))
  · rintro (⟨x, hx, hq⟩ | hpad)
    · exact ⟨.inr ⟨x, (hjoined x).2 ⟨hx, hq⟩⟩, fun hnone => absurd hq (hnone x hx)⟩
    · exact ⟨.inl (hpadded.2 hpad), fun _ => hpadded.2 hpad⟩

section

variable (houts : outs.Perm ((sqlJoin (leftKey conds) (rightKey conds) preserveLeft preserveRight
  left right).filter (currRowIsQualified otherJoinConds)))
include houts

theorem preservesLeft_iff (hpreserve : preserveLeft = true) :
    PreservesLeft conds otherJoinConds left right outs ↔
      QualifiesLeft conds otherJoinConds left right := by
  refine forall₂_congr fun l hl => ?_
  have hboth : ∀ r, .both l r ∈ outs ↔ (r ∈ right ∧ leftKey conds l = rightKey conds r) ∧
      currRowIsQualified otherJoinConds (.both l r) = true := fun r => by
    simp [houts.mem_iff, both_mem_sqlJoin, hl]
  have hpadded : .left l ∈ outs ↔ (∀ r, ¬(r ∈ right ∧ leftKey conds l = rightKey conds r)) ∧
      currRowIsQualified otherJoinConds (.left l) = true := by
    simp [houts.mem_iff, left_mem_sqlJoin, hl, hpreserve]
  simpa [and_assoc] using preserved_iff hboth hpadded

theorem preservesRight_iff (hpreserve : preserveRight = true) :
    PreservesRight conds otherJoinConds left right outs ↔
      QualifiesRight conds otherJoinConds left right := by
  refine forall₂_congr fun r hr => ?_
  have hboth : ∀ l, .both l r ∈ outs ↔ (l ∈ left ∧ leftKey conds l = rightKey conds r) ∧
      currRowIsQualified otherJoinConds (.both l r) = true := fun l => by
    simp [houts.mem_iff, both_mem_sqlJoin, hr]
  have hpadded : .right r ∈ outs ↔ (∀ l, ¬(l ∈ left ∧ leftKey conds l = rightKey conds r)) ∧
      currRowIsQualified otherJoinConds (.right r) = true := by
    simp [houts.mem_iff, right_mem_sqlJoin, hr, hpreserve]
  simpa [and_assoc] using preserved_iff hboth hpadded

end

/-- The join outputs its rows and then ends, and the rows of the preserved sides are among them. -/
def PreservesRows (joinType : JoinType) (conds : List (ι × κ))
    (otherJoinConds : List ((ι ⊕ κ → Option α) → Bool)) (left : List (ι → Option α))
    (right : List (κ → Option α)) : Prop :=
  ∃ s outs, MergeJoin.open conds left right = .ok s ∧
    Yields (MergeJoin.getNextRow joinType conds otherJoinConds) outs .iterEnd s ∧
    (joinType.preserveLeft = true → PreservesLeft conds otherJoinConds left right outs) ∧
    (joinType.preserveRight = true → PreservesRight conds otherJoinConds left right outs)

theorem qualifies_of_preservesRows {joinType : JoinType} (hconds : conds ≠ [])
    (hleft : Sorted (leftKey conds) (LeftNullFree conds) left)
    (hright : Sorted (rightKey conds) (RightNullFree conds) right)
    (h : PreservesRows joinType conds otherJoinConds left right) :
    (joinType.preserveLeft = true → QualifiesLeft conds otherJoinConds left right) ∧
      (joinType.preserveRight = true → QualifiesRight conds otherJoinConds left right) := by
  obtain ⟨s, outs, hopen, hyields, hperm⟩ :=
    yields_filter_sqlJoin joinType otherJoinConds hconds hleft hright
  obtain ⟨s', outs', hopen', hyields', hpl, hpr⟩ := h
  obtain rfl := Except.ok.inj (hopen.symm.trans hopen')
  obtain ⟨rfl, -⟩ := hyields.unique hyields'
  exact ⟨fun h => (preservesLeft_iff hperm h).1 (hpl h),
    fun h => (preservesRight_iff hperm h).1 (hpr h)⟩

end Preserved

/-! ### Nulls in join columns -/

/-- The rows are equal in all join columns, none of which is null. -/
def JoinsOn (conds : List (ι × κ)) (l : ι → Option α) (r : κ → Option α) : Prop :=
  ∀ c ∈ conds, ∃ v, l c.1 = some v ∧ r c.2 = some v

/-- Over all sorted inputs with rows of the given kinds, the inner join outputs only pairs of rows
that join. -/
def InnerJoinsOn (conds : List (ι × κ)) (R : (ι → Option α) → Prop)
    (Q : (κ → Option α) → Prop) : Prop :=
  ∀ (otherJoinConds : List ((ι ⊕ κ → Option α) → Bool)) (left : List (ι → Option α))
    (right : List (κ → Option α)) (s s' : MergeJoin (ι → Option α) (κ → Option α))
    (outs : List (JoinRow (ι → Option α) (κ → Option α))),
    Sorted (leftKey conds) R left → Sorted (rightKey conds) Q right →
    MergeJoin.open conds left right = .ok s →
    Delivers (MergeJoin.getNextRow .inner conds otherJoinConds) s outs s' →
    ∀ l r, .both l r ∈ outs → JoinsOn conds l r

omit [LinearOrder α] in
/-- A row that joins may stand for the other one. -/
theorem JoinsOn.cells_eq {l j : ι → Option α} (h : JoinsOn conds j r) :
    (conds.map fun c => (l c.1, j c.1)) = conds.map fun c => (l c.1, r c.2) :=
  map_congr_left fun c hc => by
    obtain ⟨v, hj, hr⟩ := h c hc
    rw [hj, hr]

theorem compareEquijoinCond_eq_zero_iff :
    compareEquijoinCond conds l r = 0 ↔ EqualUpToNulls (conds.map fun c => (l c.1, r c.2)) := by
  unfold compareEquijoinCond
  rw [compareEquijoin_eq_zero_iff]
  simp

theorem delivers_pair (otherJoinConds : List ((ι ⊕ κ → Option α) → Bool))
    (heq : compareEquijoinCond conds l r = 0)
    (hq : currRowIsQualified otherJoinConds (.both l r) = true) :
    ∃ s, Delivers (getNextRow .inner conds otherJoinConds) (ofRows [l] [r]) [.both l r] s := by
  have hround : ∃ s, (rounds (compareEquijoinCond conds)
      (leftRowCompareEquijoinCond conds) false false).round (ofRows [l] [r]) =
        .row (.both l r) s := ⟨_, if_pos heq⟩
  obtain ⟨s, hround⟩ := hround
  exact ⟨s, delivers_one ((Rounds.pull_row hround).trans (if_pos hq))⟩

/-- Rows that join whenever they differ in nothing but nulls are output only when they join. -/
theorem innerJoinsOn_of_forall {R : (ι → Option α) → Prop} {Q : (κ → Option α) → Prop}
    (h : ∀ l r, R l → Q r → EqualUpToNulls (conds.map fun c => (l c.1, r c.2)) →
      JoinsOn conds l r) : InnerJoinsOn conds R Q := by
  intro otherJoinConds left right s s' outs hleft hright hopen hdelivers l r hmem
  obtain rfl : MergeJoin.ofRows left right = s := by
    unfold MergeJoin.open at hopen
    split at hopen
    · cases hopen
    · exact Except.ok.inj hopen
  have hequal := MergeJoin.equal_of_delivers (fun {l j c} _ hj hc hjc hlj => ?_) hleft.mem
    hright.mem hdelivers (.both l r) hmem
  · exact h l r hequal.1 hequal.2.1 (compareEquijoinCond_eq_zero_iff.1 hequal.2.2)
  -- the row the cache was filled for joins with `c`, so `l` is compared with the same cells
  have hjoins := h j c hj hc (compareEquijoinCond_eq_zero_iff.1 hjc)
  unfold leftRowCompareEquijoinCond at hlj
  rw [hjoins.cells_eq] at hlj
  exact (leftRowCompareEquijoin_eq_zero_iff Iff.rfl _).1 hlj

end Rows

end OceanBase.Sql
