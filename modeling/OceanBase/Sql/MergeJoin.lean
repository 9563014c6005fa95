import OceanBase.Lib.Rounds
import OceanBase.Sql.MergeSet

/-!
# Merge join (`ob_merge_join.cpp`)

Both children are sorted on the join columns. The right rows that join with the current left row
are kept in `right_cache_`; the first right row behind them waits in `last_right_row_`.

The four functions for the inner and the outer joins have one loop in common. A side is *preserved*
if a row of it that joins with nothing is output, with nulls for the other side.

The loop is cut into rounds. A round may come up with a row (`curr_row_`); it is output if the other
join conditions hold of it, and otherwise the next round begins. The left row in hand at the end
of a round is `lastLeftRow`.
-/

namespace OceanBase.Sql

open Lib WellFoundedRelation

/-! ### Comparison of rows -/

section Conditions

variable {ι κ α : Type} [LinearOrder α]

/-- The loop of `compare_equijoin_cond` over the cells of the join columns, with `cmp` so far. A
null sets `cmp`, but the loop goes on. -/
def compareEquijoin (cmp : Int) : List (Option α × Option α) → Int
  | [] => cmp
  | (a, b) :: cells =>
    match exprCompare a b with
    | none => compareEquijoin (if a.isNone then -10 else 10) cells
    | some .eq => compareEquijoin 0 cells
    | some .lt => -1
    | some .gt => 1

/-- `compare_equijoin_cond`: the conditions are pairs of a left and a right column. -/
def compareEquijoinCond (conds : List (ι × κ)) (l : ι → Option α) (r : κ → Option α) : Int :=
  compareEquijoin 0 (conds.map fun c => (l c.1, r c.2))

/-- The loop of `left_row_compare_equijoin_cond`. -/
def leftRowCompareEquijoin (cmp : Int) : List (Option α × Option α) → Int
  | [] => cmp
  | (a, b) :: cells =>
    match exprCompare a b with
    | none => leftRowCompareEquijoin (-10) cells
    | some .eq => leftRowCompareEquijoin 0 cells
    | some .lt => -1
    | some .gt => 1

def leftRowCompareEquijoinCond (conds : List (ι × κ)) (l₁ l₂ : ι → Option α) : Int :=
  leftRowCompareEquijoin 0 (conds.map fun c => (l₁ c.1, l₂ c.1))

end Conditions

/-! ### Joined rows -/

/-- What stands in `curr_row_`: `join_rows`, `left_join_rows` or `right_join_rows`. -/
inductive JoinRow (ρ τ : Type) where
  | both (l : ρ) (r : τ)
  | left (l : ρ)
  | right (r : τ)
  deriving DecidableEq

def JoinRow.cells {ι κ α : Type} : JoinRow (ι → Option α) (κ → Option α) → ι ⊕ κ → Option α
  | .both l r => Sum.elim l r
  | .left l => Sum.elim l fun _ => none
  | .right r => Sum.elim (fun _ => none) r

def currRowIsQualified {ι κ α : Type} (otherJoinConds : List ((ι ⊕ κ → Option α) → Bool))
    (row : JoinRow (ι → Option α) (κ → Option α)) : Bool :=
  otherJoinConds.all fun cond => cond row.cells

/-! ### The state -/

/-- `ObMergeJoin`, with the rows its children still deliver. `cacheRest` is what the iterator of
`right_cache_` has before it. -/
structure MergeJoin (ρ τ : Type) where
  left : List ρ
  right : List τ
  lastLeftRow : Option ρ
  lastRightRow : Option τ
  lastJoinLeftRow : Option ρ
  rightCache : List τ
  cacheRest : List τ
  rightCacheIsValid : Bool
  isRightIterEnd : Bool

namespace MergeJoin

variable {ρ τ : Type}

/-- The state `open` leaves. -/
def ofRows (left : List ρ) (right : List τ) : MergeJoin ρ τ :=
  ⟨left, right, none, none, none, [], [], false, false⟩

def takeLeft (s : MergeJoin ρ τ) : Option (ρ × MergeJoin ρ τ) :=
  match s.lastLeftRow, s.left with
  | some l, _ => some (l, { s with lastLeftRow := none })
  | none, l :: left => some (l, { s with left := left })
  | none, [] => none

def takeRight (s : MergeJoin ρ τ) : Option (τ × MergeJoin ρ τ) :=
  match s.lastRightRow, s.right with
  | some r, _ => some (r, { s with lastRightRow := none })
  | none, r :: right => some (r, { s with right := right })
  | none, [] => none

/-! ### Rounds -/

section Rounds

variable (compare : ρ → τ → Int) (leftCompare : ρ → ρ → Int) (preserveLeft preserveRight : Bool)
  (s : MergeJoin ρ τ)

def cacheRound (l : ρ) : Round (MergeJoin ρ τ) (JoinRow ρ τ) Ret :=
  match s.lastJoinLeftRow with
  -- `get_cell` fails on a row that was never stored
  | none => .stop .errUnexpected
  | some j =>
    if leftCompare l j = 0 then
      match s.cacheRest with
      | c :: rest => .row (.both l c) { s with cacheRest := rest, lastLeftRow := some l }
      -- `reset_iterator`
      | [] => .next { s with cacheRest := s.rightCache }
    else
      .next { s with rightCacheIsValid := false, rightCache := [], cacheRest := [],
                     lastLeftRow := some l }

/-- A round that has the left row `l` and the right row `r`. -/
def compareRound (l : ρ) (r : τ) :
    Round (MergeJoin ρ τ) (JoinRow ρ τ) Ret :=
  if compare l r = 0 then
    .row (.both l r)
      { s with lastJoinLeftRow := if s.rightCache.isEmpty then some l else s.lastJoinLeftRow,
               rightCache := s.rightCache ++ [r], cacheRest := s.cacheRest ++ [r],
               lastLeftRow := some l }
  else if compare l r < 0 then
    if s.rightCache.isEmpty then
      if preserveLeft then .row (.left l) { s with lastRightRow := some r }
      else .next { s with lastRightRow := some r }
    else .next { s with rightCacheIsValid := true, lastRightRow := some r }
  else if preserveRight then .row (.right r) { s with lastLeftRow := some l }
  else .next { s with lastLeftRow := some l }

def rightRound (l : ρ) : Round (MergeJoin ρ τ) (JoinRow ρ τ) Ret :=
  if s.isRightIterEnd then
    if preserveLeft then .row (.left l) s else .stop .iterEnd
  else
    match s.takeRight with
    | some (r, s) => s.compareRound compare preserveLeft preserveRight l r
    | none =>
      if s.rightCache.isEmpty then
        if preserveLeft then .next { s with isRightIterEnd := true, lastLeftRow := some l }
        else .stop .iterEnd
      else .next { s with isRightIterEnd := true, rightCacheIsValid := true }

/-- The rows of the right child behind the last left row. -/
def finishRound : Round (MergeJoin ρ τ) (JoinRow ρ τ) Ret :=
  if preserveRight && !s.isRightIterEnd then
    match s.takeRight with
    | some (r, s) => .row (.right r) s
    | none => .stop .iterEnd
  else .stop .iterEnd

def round : Round (MergeJoin ρ τ) (JoinRow ρ τ) Ret :=
  match s.takeLeft with
  | none => s.finishRound preserveRight
  | some (l, s) =>
    if s.rightCacheIsValid then s.cacheRound leftCompare l
    else s.rightRound compare preserveLeft preserveRight l

/-! ### What a round can do -/

def lefts : List ρ := s.lastLeftRow.toList ++ s.left

def rights : List τ := s.lastRightRow.toList ++ s.right

variable {s}

theorem takeLeft_of_nil (h : s.lefts = []) : s.takeLeft = none := by
  obtain ⟨hlast, hleft⟩ := List.append_eq_nil_iff.1 h
  simp [takeLeft, Option.toList_eq_nil_iff.1 hlast, hleft]

variable {ls : List ρ} {l : ρ} {rs : List τ}

theorem takeLeft_of_cons (h : s.lefts = l :: ls) :
    s.takeLeft = some (l, { s with lastLeftRow := none, left := ls }) := by
  obtain ⟨left, right, lastLeftRow⟩ := s
  cases lastLeftRow <;> simp_all [lefts, takeLeft]

theorem takeRight_of_nil (h : s.rights = []) : s.takeRight = none := by
  obtain ⟨hlast, hright⟩ := List.append_eq_nil_iff.1 h
  simp [takeRight, Option.toList_eq_nil_iff.1 hlast, hright]

theorem takeRight_of_cons {r : τ} (h : s.rights = r :: rs) :
    s.takeRight = some (r, { s with lastRightRow := none, right := rs }) := by
  obtain ⟨left, right, lastLeftRow, lastRightRow⟩ := s
  cases lastRightRow <;> simp_all [rights, takeRight]

/-- The cases of a round. -/
inductive RoundOf (s : MergeJoin ρ τ) : Round (MergeJoin ρ τ) (JoinRow ρ τ) Ret → Prop
  | cacheRow {l : ρ} {ls : List ρ} {j : ρ} {c : τ} {rest : List τ} :
      s.lefts = l :: ls → s.rightCacheIsValid = true → s.lastJoinLeftRow = some j →
      leftCompare l j = 0 → s.cacheRest = c :: rest →
      RoundOf s (.row (.both l c)
        { s with lastLeftRow := some l, left := ls, cacheRest := rest })
  | cacheEnd {l : ρ} {ls : List ρ} {j : ρ} :
      s.lefts = l :: ls → s.rightCacheIsValid = true → s.lastJoinLeftRow = some j →
      leftCompare l j = 0 → s.cacheRest = [] →
      RoundOf s (.next { s with lastLeftRow := none, left := ls, cacheRest := s.rightCache })
  | cacheClear {l : ρ} {ls : List ρ} {j : ρ} :
      s.lefts = l :: ls → s.rightCacheIsValid = true → s.lastJoinLeftRow = some j →
      leftCompare l j ≠ 0 →
      RoundOf s (.next { s with lastLeftRow := some l, left := ls, rightCacheIsValid := false,
                                rightCache := [], cacheRest := [] })
  | cacheFail {l : ρ} {ls : List ρ} :
      s.lefts = l :: ls → s.rightCacheIsValid = true → s.lastJoinLeftRow = none →
      RoundOf s (.stop .errUnexpected)
  | leftBehind {l : ρ} {ls : List ρ} :
      s.lefts = l :: ls → s.rightCacheIsValid = false → s.isRightIterEnd = true →
      preserveLeft = true → RoundOf s (.row (.left l) { s with lastLeftRow := none, left := ls })
  | stopBehind {l : ρ} {ls : List ρ} :
      s.lefts = l :: ls → s.rightCacheIsValid = false → s.isRightIterEnd = true →
      preserveLeft = false → RoundOf s (.stop .iterEnd)
  | rightEnd {l : ρ} {ls : List ρ} :
      s.lefts = l :: ls → s.rightCacheIsValid = false → s.isRightIterEnd = false →
      s.rights = [] → s.rightCache = [] → preserveLeft = true →
      RoundOf s (.next { s with lastLeftRow := some l, left := ls, isRightIterEnd := true })
  | rightEndStop {l : ρ} {ls : List ρ} :
      s.lefts = l :: ls → s.rightCacheIsValid = false → s.isRightIterEnd = false →
      s.rights = [] → s.rightCache = [] → preserveLeft = false → RoundOf s (.stop .iterEnd)
  | rightEndCache {l : ρ} {ls : List ρ} :
      s.lefts = l :: ls → s.rightCacheIsValid = false → s.isRightIterEnd = false →
      s.rights = [] → s.rightCache ≠ [] →
      RoundOf s (.next { s with lastLeftRow := none, left := ls, isRightIterEnd := true,
                                rightCacheIsValid := true })
  | join {l : ρ} {ls : List ρ} {r : τ} {rs : List τ} :
      s.lefts = l :: ls → s.rightCacheIsValid = false → s.isRightIterEnd = false →
      s.rights = r :: rs → compare l r = 0 →
      RoundOf s (.row (.both l r)
        { s with lastLeftRow := some l, left := ls, lastRightRow := none, right := rs,
                 lastJoinLeftRow := if s.rightCache.isEmpty then some l else s.lastJoinLeftRow,
                 rightCache := s.rightCache ++ [r], cacheRest := s.cacheRest ++ [r] })
  | leftLess {l : ρ} {ls : List ρ} {r : τ} {rs : List τ} :
      s.lefts = l :: ls → s.rightCacheIsValid = false → s.isRightIterEnd = false →
      s.rights = r :: rs → compare l r < 0 → s.rightCache = [] → preserveLeft = true →
      RoundOf s (.row (.left l)
        { s with lastLeftRow := none, left := ls, lastRightRow := some r, right := rs })
  | leftLessSkip {l : ρ} {ls : List ρ} {r : τ} {rs : List τ} :
      s.lefts = l :: ls → s.rightCacheIsValid = false → s.isRightIterEnd = false →
      s.rights = r :: rs → compare l r < 0 → s.rightCache = [] → preserveLeft = false →
      RoundOf s (.next
        { s with lastLeftRow := none, left := ls, lastRightRow := some r, right := rs })
  | leftLessCache {l : ρ} {ls : List ρ} {r : τ} {rs : List τ} :
      s.lefts = l :: ls → s.rightCacheIsValid = false → s.isRightIterEnd = false →
      s.rights = r :: rs → compare l r < 0 → s.rightCache ≠ [] →
      RoundOf s (.next
        { s with lastLeftRow := none, left := ls, lastRightRow := some r, right := rs,
                 rightCacheIsValid := true })
  | rightLess {l : ρ} {ls : List ρ} {r : τ} {rs : List τ} :
      s.lefts = l :: ls → s.rightCacheIsValid = false → s.isRightIterEnd = false →
      s.rights = r :: rs → 0 < compare l r → preserveRight = true →
      RoundOf s (.row (.right r)
        { s with lastLeftRow := some l, left := ls, lastRightRow := none, right := rs })
  | rightLessSkip {l : ρ} {ls : List ρ} {r : τ} {rs : List τ} :
      s.lefts = l :: ls → s.rightCacheIsValid = false → s.isRightIterEnd = false →
      s.rights = r :: rs → 0 < compare l r → preserveRight = false →
      RoundOf s (.next
        { s with lastLeftRow := some l, left := ls, lastRightRow := none, right := rs })
  | finish {r : τ} {rs : List τ} :
      s.lefts = [] → preserveRight = true → s.isRightIterEnd = false → s.rights = r :: rs →
      RoundOf s (.row (.right r) { s with lastRightRow := none, right := rs })
  | finishStop : s.lefts = [] →
      (preserveRight = false ∨ s.isRightIterEnd = true ∨ s.rights = []) →
      RoundOf s (.stop .iterEnd)

theorem roundOf_finishRound (hl : s.lefts = []) :
    RoundOf compare leftCompare preserveLeft preserveRight s (s.finishRound preserveRight) := by
  unfold finishRound
  rcases hright : preserveRight with _ | _
  · exact .finishStop hl (.inl rfl)
  rcases hend : s.isRightIterEnd with _ | _
  · rcases hr : s.rights with _ | ⟨r, rs⟩
    · rw [takeRight_of_nil hr]
      exact .finishStop hl (.inr (.inr hr))
    · rw [takeRight_of_cons hr]
      exact .finish hl rfl hend hr
  · exact .finishStop hl (.inr (.inl hend))

theorem roundOf_cacheRound (hl : s.lefts = l :: ls) (hvalid : s.rightCacheIsValid = true) :
    RoundOf compare leftCompare preserveLeft preserveRight s
      (cacheRound leftCompare { s with lastLeftRow := none, left := ls } l) := by
  rcases hj : s.lastJoinLeftRow with _ | j
  · exact .cacheFail hl hvalid hj
  by_cases heq : leftCompare l j = 0
  · rcases hrest : s.cacheRest with _ | ⟨c, rest⟩
    · simpa [cacheRound, hj, heq] using RoundOf.cacheEnd hl hvalid hj heq hrest
    · simpa [cacheRound, hj, heq] using RoundOf.cacheRow hl hvalid hj heq hrest
  · simpa [cacheRound, hj, heq] using RoundOf.cacheClear hl hvalid hj heq

theorem roundOf_compareRound {r : τ} (hl : s.lefts = l :: ls) (hvalid : s.rightCacheIsValid = false)
    (hend : s.isRightIterEnd = false) (hr : s.rights = r :: rs) :
    RoundOf compare leftCompare preserveLeft preserveRight s
      (compareRound compare preserveLeft preserveRight
        { s with lastLeftRow := none, left := ls, lastRightRow := none, right := rs } l r) := by
  unfold compareRound
  by_cases heq : compare l r = 0
  · rw [if_pos heq]
    exact .join hl hvalid hend hr heq
  rw [if_neg heq]
  by_cases hlt : compare l r < 0
  · rw [if_pos hlt]
    by_cases hcache : s.rightCache = []
    · rw [if_pos (List.isEmpty_iff.2 hcache)]
      rcases hleft : preserveLeft with _ | _
      · exact .leftLessSkip hl hvalid hend hr hlt hcache rfl
      · exact .leftLess hl hvalid hend hr hlt hcache rfl
    · rw [if_neg (mt List.isEmpty_iff.1 hcache)]
      exact .leftLessCache hl hvalid hend hr hlt hcache
  · rw [if_neg hlt]
    have hgt : 0 < compare l r := by omega
    rcases hright : preserveRight with _ | _
    · exact .rightLessSkip hl hvalid hend hr hgt rfl
    · exact .rightLess hl hvalid hend hr hgt rfl

theorem roundOf_rightRound (hl : s.lefts = l :: ls) (hvalid : s.rightCacheIsValid = false) :
    RoundOf compare leftCompare preserveLeft preserveRight s
      (rightRound compare preserveLeft preserveRight
        { s with lastLeftRow := none, left := ls } l) := by
  unfold rightRound
  by_cases hend : s.isRightIterEnd = true
  · rw [if_pos hend]
    rcases hleft : preserveLeft with _ | _
    · exact .stopBehind hl hvalid hend rfl
    · exact .leftBehind hl hvalid hend rfl
  rw [if_neg hend]
  have hend' : s.isRightIterEnd = false := Bool.eq_false_iff.2 hend
  rcases hr : s.rights with _ | ⟨r, rs⟩
  · have htake : MergeJoin.takeRight { s with lastLeftRow := none, left := ls } = none :=
      takeRight_of_nil hr
    rw [htake]
    by_cases hcache : s.rightCache = []
    · have hempty : s.rightCache.isEmpty = true := List.isEmpty_iff.2 hcache
      rcases hleft : preserveLeft with _ | _
      · exact (if_pos hempty).symm ▸ .rightEndStop hl hvalid hend' hr hcache rfl
      · exact (if_pos hempty).symm ▸ .rightEnd hl hvalid hend' hr hcache rfl
    · have hempty : ¬s.rightCache.isEmpty = true := mt List.isEmpty_iff.1 hcache
      exact (if_neg hempty).symm ▸ .rightEndCache hl hvalid hend' hr hcache
  · have htake : MergeJoin.takeRight { s with lastLeftRow := none, left := ls } =
      some (r, { s with lastLeftRow := none, left := ls, lastRightRow := none, right := rs }) :=
        takeRight_of_cons hr
    rw [htake]
    exact roundOf_compareRound compare leftCompare preserveLeft preserveRight hl hvalid hend' hr

theorem roundOf_round (s : MergeJoin ρ τ) :
    RoundOf compare leftCompare preserveLeft preserveRight s
      (s.round compare leftCompare preserveLeft preserveRight) := by
  unfold round
  rcases hl : s.lefts with _ | ⟨l, ls⟩
  · rw [takeLeft_of_nil hl]
    exact roundOf_finishRound compare leftCompare preserveLeft preserveRight hl
  rw [takeLeft_of_cons hl]
  show RoundOf _ _ _ _ s (if s.rightCacheIsValid = true then _ else _)
  by_cases hvalid : s.rightCacheIsValid = true
  · rw [if_pos hvalid]
    exact roundOf_cacheRound compare leftCompare preserveLeft preserveRight hl hvalid
  rw [if_neg hvalid]
  exact roundOf_rightRound compare leftCompare preserveLeft preserveRight hl
    (Bool.eq_false_iff.2 hvalid)

/-- Left rows come to an end, and for one of them right rows, the cache, the end of the right child
and the rows of the cache. -/
def rank (s : MergeJoin ρ τ) : Nat × Nat × Nat × Nat × Nat :=
  (s.lefts.length, s.rights.length, s.rightCacheIsValid.toNat, (!s.isRightIterEnd).toNat,
    s.cacheRest.length)

variable {s s' : MergeJoin ρ τ}

theorem rank_rel_iff : rel s'.rank s.rank ↔
    s'.lefts.length < s.lefts.length ∨ s'.lefts.length = s.lefts.length ∧
    (s'.rights.length < s.rights.length ∨ s'.rights.length = s.rights.length ∧
    (s'.rightCacheIsValid.toNat < s.rightCacheIsValid.toNat ∨
      s'.rightCacheIsValid.toNat = s.rightCacheIsValid.toNat ∧
    ((!s'.isRightIterEnd).toNat < (!s.isRightIterEnd).toNat ∨
      (!s'.isRightIterEnd).toNat = (!s.isRightIterEnd).toNat ∧
      s'.cacheRest.length < s.cacheRest.length))) := by
  simp only [rel, Prod.lex_def]
  rfl

theorem rank_row_lt {x : JoinRow ρ τ}
    (h : s.round compare leftCompare preserveLeft preserveRight = .row x s') :
    rel s'.rank s.rank := by
  have hround := roundOf_round compare leftCompare preserveLeft preserveRight s
  rw [h] at hround
  rw [rank_rel_iff]
  cases hround <;> simp_all [lefts, rights]

theorem rank_next_lt (h : s.round compare leftCompare preserveLeft preserveRight = .next s') :
    rel s'.rank s.rank := by
  have hround := roundOf_round compare leftCompare preserveLeft preserveRight s
  rw [h] at hround
  rw [rank_rel_iff]
  cases hround <;> simp_all [lefts, rights]

def rounds : Rounds (MergeJoin ρ τ) (JoinRow ρ τ) Ret (Nat × Nat × Nat × Nat × Nat) where
  round := round compare leftCompare preserveLeft preserveRight
  rank := rank
  row_lt := rank_row_lt compare leftCompare preserveLeft preserveRight
  next_lt := rank_next_lt compare leftCompare preserveLeft preserveRight

end Rounds

/-! ### The operator -/

section Operator

variable {ι κ α : Type} [LinearOrder α] (conds : List (ι × κ))
  (otherJoinConds : List ((ι ⊕ κ → Option α) → Bool))

/-- `open`: there must be an equality condition. -/
def «open» (left : List (ι → Option α)) (right : List (κ → Option α)) :
    Except Ret (MergeJoin (ι → Option α) (κ → Option α)) :=
  if conds.isEmpty then .error .notSupported else .ok (ofRows left right)

/-- What the four functions have in common. -/
def getNextRowOf (preserveLeft preserveRight : Bool)
    (s : MergeJoin (ι → Option α) (κ → Option α)) :
    Except Ret (JoinRow (ι → Option α) (κ → Option α) ×
      MergeJoin (ι → Option α) (κ → Option α)) :=
  (rounds (compareEquijoinCond conds) (leftRowCompareEquijoinCond conds) preserveLeft
    preserveRight).pull (currRowIsQualified otherJoinConds) s

def innerGetNextRow := getNextRowOf conds otherJoinConds false false

def leftOuterGetNextRow := getNextRowOf conds otherJoinConds true false

def rightOuterGetNextRow := getNextRowOf conds otherJoinConds false true

def fullOuterGetNextRow := getNextRowOf conds otherJoinConds true true

end Operator

end MergeJoin

/-- The joins of `ObJoin::JoinType` that `ob_merge_join.cpp` implements. -/
inductive JoinType where
  | inner
  | leftOuter
  | rightOuter
  | fullOuter
  deriving DecidableEq

/-- `set_join_type` and `get_next_row`. -/
def MergeJoin.getNextRow {ι κ α : Type} [LinearOrder α] (joinType : JoinType)
    (conds : List (ι × κ)) (otherJoinConds : List ((ι ⊕ κ → Option α) → Bool)) :
    MergeJoin (ι → Option α) (κ → Option α) →
      Except Ret (JoinRow (ι → Option α) (κ → Option α) ×
        MergeJoin (ι → Option α) (κ → Option α)) :=
  match joinType with
  | .inner => innerGetNextRow conds otherJoinConds
  | .leftOuter => leftOuterGetNextRow conds otherJoinConds
  | .rightOuter => rightOuterGetNextRow conds otherJoinConds
  | .fullOuter => fullOuterGetNextRow conds otherJoinConds

end OceanBase.Sql
