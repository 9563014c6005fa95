import OceanBase.Sql.MergeSetRuns

/-!
# The set operators on rows of cells

On rows without nulls `compareRows` is the lexicographic order, so the operators compute union,
difference and intersection, of sets or of multisets. A row with a null is never equal to any row
under `compareRows`, itself included, and a row that agrees with it up to its null comes before it.
So the DISTINCT forms fail where a row with a null is repeated or met by the other input, and work
where none is (`distinct_of_nullsApart`): there the operators go the way they would go with the
lexicographic order (`Agree`).
-/

namespace OceanBase.Sql

open Lib List Child

/-! ### Rows without nulls -/

section Rows

variable {α : Type} [LinearOrder α] {n : Nat} {rows : List (Fin n → Option α)}

/-- The row's cells in order, nulls first: sorted inputs are sorted by these. -/
def rowKey (row : Fin n → Option α) : List (WithBot α) := List.ofFn row

/-- The row has no null. -/
def NullFree (row : Fin n → Option α) : Prop := ∀ i, row i ≠ none

/-- The first row agrees with the second one up to a null of it. -/
def MeetsNull (row₁ row₂ : Fin n → Option α) : Prop :=
  ∃ i, row₂ i = none ∧ ∀ j < i, row₁ j = row₂ j ∧ row₂ j ≠ none

omit [LinearOrder α] in
theorem MeetsNull.succ {row₁ row₂ : Fin (n + 1) → Option α} (h₀ : row₁ 0 = row₂ 0)
    (hne : row₂ 0 ≠ none) (h : MeetsNull (fun i => row₁ i.succ) fun i => row₂ i.succ) :
    MeetsNull row₁ row₂ := by
  obtain ⟨i, hi, hbefore⟩ := h
  refine ⟨i.succ, hi, fun j hj => ?_⟩
  induction j using Fin.cases with
  | zero => exact ⟨h₀, hne⟩
  | succ j => exact hbefore j (Fin.succ_lt_succ_iff.1 hj)

omit [LinearOrder α] in
theorem meetsNull_self {row : Fin n → Option α} (h : ¬NullFree row) : MeetsNull row row := by
  induction n with
  | zero => exact absurd (fun i => i.elim0) h
  | succ n ih =>
    by_cases hzero : row 0 = none
    · exact ⟨0, hzero, fun j hj => absurd hj (Fin.not_lt_zero j)⟩
    refine MeetsNull.succ rfl hzero (ih fun hfree => h fun i => ?_)
    induction i using Fin.cases with
    | zero => exact hzero
    | succ i => exact hfree i

omit [LinearOrder α] in
theorem NullFree.not_meetsNull {row₁ row₂ : Fin n → Option α} (h : NullFree row₂) :
    ¬MeetsNull row₁ row₂ := fun ⟨i, hi, _⟩ => h i hi

omit [LinearOrder α] in
theorem rowKey_succ {row : Fin (n + 1) → Option α} {a : WithBot α} (ha : row 0 = a) :
    rowKey row = a :: rowKey fun i => row i.succ := by
  have h : List.ofFn row = row 0 :: List.ofFn fun i => row i.succ := ofFn_succ
  rwa [ha] at h

theorem compareRows_succ (row₁ row₂ : Fin (n + 1) → Option α) :
    compareRows row₁ row₂ = ((exprCompare (row₁ 0) (row₂ 0)).map
      (·.then (compareRows (fun i => row₁ i.succ) fun i => row₂ i.succ))).getD .lt := by
  simp only [compareRows, ofFn_succ, compareCells]
  rcases exprCompare (row₁ 0) (row₂ 0) with _ | _ | _ | _ <;> rfl

/-- Where no null of the second row is met, rows are compared as their keys are. -/
theorem compareRows_spec {row₁ row₂ : Fin n → Option α} (h : ¬MeetsNull row₁ row₂) :
    (compareRows row₁ row₂ = .lt ↔ rowKey row₁ < rowKey row₂) ∧
      (compareRows row₁ row₂ = .gt ↔ rowKey row₂ < rowKey row₁) ∧
      (compareRows row₁ row₂ = .eq → row₁ = row₂) := by
  induction n with
  | zero => simp [compareRows, compareCells, Subsingleton.elim row₁ row₂]
  | succ n ih =>
    have hb : row₂ 0 ≠ none := fun hb => h ⟨0, hb, fun j hj => absurd hj (Fin.not_lt_zero j)⟩
    obtain ⟨b, hb⟩ := Option.ne_none_iff_exists'.1 hb
    rw [compareRows_succ, rowKey_succ (show row₂ 0 = (b : WithBot α) from hb), hb]
    rcases ha : row₁ 0 with _ | a
    · -- a null of the first row comes first in the order of the keys too
      have hbot : (⊥ : WithBot α) < b := WithBot.bot_lt_coe b
      rw [rowKey_succ (show row₁ 0 = (⊥ : WithBot α) from ha), cons_lt_cons_iff, cons_lt_cons_iff]
      simp [exprCompare]
    rw [rowKey_succ (show row₁ 0 = (a : WithBot α) from ha), cons_lt_cons_iff, cons_lt_cons_iff,
      WithBot.coe_lt_coe, WithBot.coe_lt_coe, WithBot.coe_inj, WithBot.coe_inj]
    obtain hab | rfl | hab := lt_trichotomy a b
    · simp [exprCompare, (cmp_eq_lt_iff a b).2 hab, hab, hab.not_gt, hab.ne']
    · obtain ⟨hlt, hgt, heq⟩ := ih fun hmeets => h (hmeets.succ (ha.trans hb.symm) (by simp [hb]))
      simp only [exprCompare, cmp_self_eq_eq, lt_irrefl, true_and, false_or]
      refine ⟨hlt, hgt, fun h => funext fun i => ?_⟩
      induction i using Fin.cases with
      | zero => rw [ha, hb]
      | succ i => exact congrFun (heq h) i
    · simp [exprCompare, (cmp_eq_gt_iff a b).2 hab, hab, hab.not_gt, hab.ne']

/-- A row that meets a null of another one comes before it. -/
theorem compareRows_of_meetsNull {row₁ row₂ : Fin n → Option α} (h : MeetsNull row₁ row₂) :
    compareRows row₁ row₂ = .lt := by
  induction n with
  | zero =>
    obtain ⟨i, -⟩ := h
    exact i.elim0
  | succ n ih =>
    obtain ⟨i, hi, hbefore⟩ := h
    rw [compareRows_succ]
    induction i using Fin.cases with
    | zero => cases row₁ 0 <;> simp [exprCompare, hi]
    | succ i =>
      obtain ⟨hsame, hne⟩ := hbefore 0 (Fin.succ_pos i)
      obtain ⟨a, ha⟩ := Option.ne_none_iff_exists'.1 hne
      simp only [hsame, ha, exprCompare, cmp_self_eq_eq]
      exact ih ⟨i, hi, fun j hj => hbefore j.succ (Fin.succ_lt_succ_iff.2 hj)⟩

/-- Rows compare equal exactly if they are the same, without a null. -/
theorem compareRows_eq_iff {row₁ row₂ : Fin n → Option α} :
    compareRows row₁ row₂ = .eq ↔ row₁ = row₂ ∧ NullFree row₁ := by
  constructor
  · intro heq
    have hmeets : ¬MeetsNull row₁ row₂ := fun h => by
      rw [compareRows_of_meetsNull h] at heq
      cases heq
    obtain rfl := (compareRows_spec hmeets).2.2 heq
    exact ⟨rfl, by_contra fun hnull => hmeets (meetsNull_self hnull)⟩
  · rintro ⟨rfl, hfree⟩
    obtain ⟨hlt, hgt, -⟩ := compareRows_spec hfree.not_meetsNull
    cases hcmp : compareRows row₁ row₁ with
    | lt => exact absurd (hlt.1 hcmp) (lt_irrefl _)
    | eq => rfl
    | gt => exact absurd (hgt.1 hcmp) (lt_irrefl _)

theorem orders_compareRows : Orders compareRows rowKey (NullFree : (Fin n → Option α) → Prop) where
  lt_iff_key _ _ _ hb := (compareRows_spec hb.not_meetsNull).1
  gt_iff_key _ _ _ hb := (compareRows_spec hb.not_meetsNull).2.1
  eq_of_eq _ _ _ hb := (compareRows_spec hb.not_meetsNull).2.2

/-- Sorted by the operators' comparison. -/
def SortedRows (rows : List (Fin n → Option α)) : Prop :=
  rows.Pairwise fun a b => compareRows a b ≠ .gt

theorem SortedRows.sorted (h : SortedRows rows)
    (hnull : ∀ r ∈ rows, NullFree r) : Sorted rowKey NullFree rows := by
  refine ⟨h.imp_of_mem fun {a b} ha hb hne => ?_, hnull⟩
  exact not_lt.1 (mt (orders_compareRows.gt_iff (hnull a ha) (hnull b hb)).2 hne)

section Opened

variable {ρ β : Type} [LinearOrder β] {key : ρ → β} {S : ρ → Prop} {left right : List ρ}

theorem MergeUnion.ready_open (compare : ρ → ρ → Ordering) (hl : Sorted key S left)
    (hr : Sorted key S right) : ((MergeUnion.open left right).skipLastRow compare).Ready key S :=
  ⟨fetched_getNextRow _, fetched_getNextRow _, (rows_getNextRow _).symm ▸ hl,
    (rows_getNextRow _).symm ▸ hr⟩

theorem MergeExcept.ready_open (hl : Sorted key S left) (hr : Sorted key S right) :
    (MergeExcept.open left right).Ready key S :=
  ⟨fetched_getNextRow _, fetched_getNextRow _, (rows_getNextRow _).symm ▸ hl,
    (rows_getNextRow _).symm ▸ hr⟩

theorem MergeIntersect.ready_open (compare : ρ → ρ → Ordering) (hl : Sorted key S left)
    (hr : Sorted key S right) :
    ((MergeIntersect.open left right).skipLastRows compare).Ready key S :=
  ⟨fetched_getNextRow _, fetched_getNextRow _, (rows_getNextRow _).symm ▸ hl,
    (rows_getNextRow _).symm ▸ hr⟩

end Opened

theorem nodup_of_pairwise_rowKey (h : rows.Pairwise (rowKey · < rowKey ·)) : rows.Nodup :=
  h.imp fun {a b} (hlt : rowKey a < rowKey b) (heq : a = b) => lt_irrefl _ (heq ▸ hlt)

theorem yields_unionAll {ρ : Type} (left right : List ρ) :
    Yields MergeUnionAll.allGetNextRow (left ++ right) .iterEnd ⟨left, right⟩ := by
  induction left with
  | nil =>
    induction right with
    | nil => rfl
    | cons r right ih => exact ⟨_, rfl, ih⟩
  | cons l left ih => exact ⟨_, rfl, ih⟩

variable {left right : List (Fin n → Option α)}

section Distinct

variable {compare : (Fin n → Option α) → (Fin n → Option α) → Ordering}
  {S : (Fin n → Option α) → Prop} (H : Orders compare rowKey S)
  (hl : Sorted rowKey S left) (hr : Sorted rowKey S right)

include H hl hr

theorem unionDistinct_yields :
    ∃ outs, Yields (MergeUnion.distinctGetNextRow compare) outs .iterEnd (.open left right) ∧
      outs.Nodup ∧ ∀ r, r ∈ outs ↔ r ∈ left ∨ r ∈ right := by
  obtain ⟨outs, hyields, hsorted, houts⟩ := (MergeUnion.ready_open compare hl hr).yields H
  refine ⟨outs, hyields, nodup_of_pairwise_rowKey hsorted, fun r => ?_⟩
  simpa [MergeUnion.open, MergeUnion.skipLastRow, Child.ofRows] using houts r

theorem exceptDistinct_yields :
    ∃ outs, Yields (MergeExcept.distinctGetNextRow compare) outs .iterEnd (.open left right) ∧
      outs.Nodup ∧ ∀ r, r ∈ outs ↔ r ∈ left ∧ r ∉ right := by
  obtain ⟨outs, hyields, hsorted, houts⟩ := MergeExcept.Ready.yields_distinct
    (s := .open left right) H (MergeExcept.ready_open hl hr)
  refine ⟨outs, hyields, nodup_of_pairwise_rowKey hsorted, fun r => ?_⟩
  simpa [MergeExcept.open, MergeExcept.skipLastRow, Child.ofRows] using houts r

theorem intersectDistinct_yields :
    ∃ outs,
      Yields (MergeIntersect.distinctGetNextRow compare) outs .iterEnd (.open left right) ∧
      outs.Nodup ∧ ∀ r, r ∈ outs ↔ r ∈ left ∧ r ∈ right := by
  obtain ⟨outs, hyields, hsorted, houts⟩ :=
    (MergeIntersect.ready_open compare hl hr).yields_distinct H
  refine ⟨outs, hyields, nodup_of_pairwise_rowKey hsorted, fun r => ?_⟩
  simpa [MergeIntersect.open, MergeIntersect.skipLastRows, Child.ofRows] using houts r

end Distinct

def rowOf (a b : Nat) : Fin 2 → Option Nat := fun i => some (if i = 0 then a else b)

section CompareBy

variable {ρ β : Type} [LinearOrder β] {key : ρ → β}

/-- The comparison of the rows' keys. -/
def compareBy (key : ρ → β) (a b : ρ) : Ordering := cmp (key a) (key b)

theorem compareBy_eq_iff (hkey : Function.Injective key) {a b : ρ} :
    compareBy key a b = .eq ↔ a = b :=
  (cmp_eq_eq_iff _ _).trans hkey.eq_iff

theorem orders_compareBy (hkey : Function.Injective key) :
    Orders (compareBy key) key fun _ => True where
  lt_iff_key _ _ _ _ := cmp_eq_lt_iff _ _
  gt_iff_key _ _ _ _ := cmp_eq_gt_iff _ _
  eq_of_eq _ _ _ _ := (compareBy_eq_iff hkey).1

end CompareBy

section Agree

variable {ρ : Type} {compare compare' : ρ → ρ → Ordering}

variable (compare compare') in
/-- Two comparisons agree on what the operators compare: the rows of the left child with those of
the right one, and the rows of one child with earlier rows of it, as to whether they are equal. -/
structure Agree (left right : List ρ) : Prop where
  cross : ∀ a ∈ left, ∀ b ∈ right, compare a b = compare' a b
  eq_of_eq : ∀ a ∈ left, ∀ b ∈ right, compare' a b = .eq → a = b
  left : left.Pairwise fun a b => compare b a = .eq ↔ compare' b a = .eq
  right : right.Pairwise fun a b => compare b a = .eq ↔ compare' b a = .eq

variable {left right left' right' : List ρ} {child : Child ρ} {a l r : ρ}

theorem Agree.sublist (h : Agree compare compare' left right) (hl : left' <+ left)
    (hr : right' <+ right) : Agree compare compare' left' right' where
  cross a ha b hb := h.cross a (hl.subset ha) b (hr.subset hb)
  eq_of_eq a ha b hb := h.eq_of_eq a (hl.subset ha) b (hr.subset hb)
  left := h.left.sublist hl
  right := h.right.sublist hr

theorem dropWhile_congr {p q : ρ → Bool} {rows : List ρ} (h : ∀ r ∈ rows, p r = q r) :
    rows.dropWhile p = rows.dropWhile q := by
  induction rows with
  | nil => rfl
  | cons r rows ih =>
    rw [forall_mem_cons] at h
    rw [dropWhile_cons, dropWhile_cons, h.1, ih h.2]

/-- A child skips the same rows under both comparisons. -/
theorem doDistinct_congr (hcur : child.cur = some a)
    (h : child.rows.Pairwise fun a b => compare b a = .eq ↔ compare' b a = .eq) :
    child.doDistinct compare a = child.doDistinct compare' a := by
  rw [rows_eq_cons hcur, pairwise_cons] at h
  have hskip : child.rest.dropWhile (fun row => compare row a == .eq) =
      child.rest.dropWhile fun row => compare' row a == .eq := by
    refine dropWhile_congr fun r hr => ?_
    rw [Bool.eq_iff_iff, beq_iff_eq, beq_iff_eq]
    exact h.1 r hr
  rw [doDistinct, doDistinct, hskip]

theorem rows_doDistinct_sublist (child : Child ρ) :
    (child.doDistinct compare a).rows <+ child.rows := by
  rw [doDistinct, rows_getNextRow]
  exact (dropWhile_sublist _).trans (sublist_append_right _ _)

theorem Agree.skipLeft {s : Child ρ} (h : Agree compare compare' child.rows s.rows) (a : ρ) :
    Agree compare compare' (child.doDistinct compare' a).rows s.rows :=
  h.sublist (rows_doDistinct_sublist child) (Sublist.refl _)

theorem Agree.skipRight {s : Child ρ} (h : Agree compare compare' s.rows child.rows) (a : ρ) :
    Agree compare compare' s.rows (child.doDistinct compare' a).rows :=
  h.sublist (Sublist.refl _) (rows_doDistinct_sublist child)

theorem mem_rows_of_cur (hcur : child.cur = some a) : a ∈ child.rows := by
  simp [rows_eq_cons hcur]

namespace MergeUnion

variable {s t : MergeUnion ρ} {row : ρ}

variable (compare compare') in
/-- The comparisons agree on the rows to come, and the row output last is still the current row of
each child that had it. -/
structure Agrees (s : MergeUnion ρ) : Prop where
  agree : Agree compare compare' s.left.rows s.right.rows
  lastLeft : ∀ last ∈ s.lastRow, s.lastCmp ≠ .gt → s.left.cur = some last
  lastRight : ∀ last ∈ s.lastRow, s.lastCmp ≠ .lt → s.right.cur = some last

theorem Agrees.skipLastRow (h : s.Agrees compare compare') :
    s.skipLastRow compare = s.skipLastRow compare' ∧
      Agree compare compare' (s.skipLastRow compare').left.rows
        (s.skipLastRow compare').right.rows := by
  unfold MergeUnion.skipLastRow
  split
  · exact ⟨rfl, h.agree⟩
  · next last hlast hcmp =>
    have hcur := h.lastLeft last hlast (by rw [hcmp]; decide)
    rw [doDistinct_congr hcur h.agree.left]
    exact ⟨rfl, h.agree.skipLeft last⟩
  · next last hlast hcmp =>
    have hcur := h.lastLeft last hlast (by rw [hcmp]; decide)
    have hcur' := h.lastRight last hlast (by rw [hcmp]; decide)
    rw [doDistinct_congr hcur h.agree.left, doDistinct_congr hcur' h.agree.right]
    exact ⟨rfl, (h.agree.skipLeft last).skipRight last⟩
  · next last hlast hcmp =>
    have hcur := h.lastRight last hlast (by rw [hcmp]; decide)
    rw [doDistinct_congr hcur h.agree.right]
    exact ⟨rfl, h.agree.skipRight last⟩

theorem outputLeast_agree (h : Agree compare compare' t.left.rows t.right.rows) :
    t.outputLeast compare = t.outputLeast compare' ∧
      ∀ row s, t.outputLeast compare' = .ok (row, s) → s.Agrees compare compare' := by
  unfold outputLeast
  split
  · next l r hl hr =>
    have hlmem := mem_rows_of_cur hl
    have hrmem := mem_rows_of_cur hr
    rw [h.cross l hlmem r hrmem]
    refine ⟨rfl, fun row s hok => ?_⟩
    cases hok
    refine ⟨h, ?_, ?_⟩
    · rintro last (_ | _) hne
      exact hl.trans (congrArg some (if_neg hne).symm)
    · rintro last (_ | _) hne
      refine hr.trans (congrArg some ?_)
      cases hcmp : compare' l r with
      | lt => exact absurd hcmp hne
      | eq => exact (h.eq_of_eq l hlmem r hrmem hcmp).symm
      | gt => rfl
  · next r hl hr =>
    refine ⟨rfl, fun row s hok => ?_⟩
    cases hok
    exact ⟨h, fun _ _ hne => absurd rfl hne, fun _ hlast _ => hr.trans hlast⟩
  · next l hl hr =>
    refine ⟨rfl, fun row s hok => ?_⟩
    cases hok
    exact ⟨h, fun _ hlast _ => hl.trans hlast, fun _ _ hne => absurd rfl hne⟩
  · exact ⟨rfl, fun row s hok => by cases hok⟩

/-- UNION DISTINCT outputs the same under comparisons that agree. -/
theorem yields_of_agree (h : Agree compare compare' left right) {outs : List ρ} {ret : Ret}
    (hyields : Yields (distinctGetNextRow compare') outs ret (.open left right)) :
    Yields (distinctGetNextRow compare) outs ret (.open left right) := by
  refine hyields.of_agree (fun s (hs : s.Agrees compare compare') => ?_) (fun s row t hs hok => ?_)
    ⟨?_, fun _ hlast => (nomatch hlast), fun _ hlast => (nomatch hlast)⟩
  · obtain ⟨hskip, hagree⟩ := hs.skipLastRow
    rw [distinctGetNextRow, distinctGetNextRow, hskip, (outputLeast_agree hagree).1]
  · exact (outputLeast_agree hs.skipLastRow.2).2 row t hok
  · simpa [MergeUnion.open, Child.ofRows] using h

end MergeUnion

namespace MergeExcept

variable {s t : MergeExcept ρ}

variable (compare compare') in
/-- The comparisons agree on the rows to come, and the row output last is still the current one. -/
structure Agrees (s : MergeExcept ρ) : Prop where
  agree : Agree compare compare' s.left.rows s.right.rows
  last : s.gotFirstRow = true → ∀ last ∈ s.leftLastRow, s.left.cur = some last

theorem Agrees.skipLastRow (h : s.Agrees compare compare') :
    s.skipLastRow compare = s.skipLastRow compare' ∧
      Agree compare compare' (s.skipLastRow compare').left.rows
        (s.skipLastRow compare').right.rows := by
  unfold MergeExcept.skipLastRow
  split
  · next last hgot hlast =>
    rw [doDistinct_congr (h.last hgot last hlast) h.agree.left]
    exact ⟨rfl, h.agree.skipLeft last⟩
  · exact ⟨rfl, h.agree⟩

theorem loop_agree (fuel : Nat) (h : Agree compare compare' t.left.rows t.right.rows) :
    loop compare (doDistinct compare) fuel t = loop compare' (doDistinct compare') fuel t ∧
      ∀ row s, loop compare' (doDistinct compare') fuel t = .ok (row, s) →
        s.Agrees compare compare' := by
  induction fuel generalizing t with
  | zero => exact ⟨rfl, fun row s hok => by cases hok⟩
  | succ fuel ih =>
    unfold loop
    split
    · next l r hl hr =>
      rw [h.cross l (mem_rows_of_cur hl) r (mem_rows_of_cur hr), doDistinct_congr hl h.left,
        doDistinct_congr hr h.right]
      split
      · refine ⟨rfl, fun row s hok => ?_⟩
        cases hok
        exact ⟨h, fun _ _ hlast => hl.trans hlast⟩
      · exact ih ((h.skipLeft l).skipRight r)
      · exact ih (h.skipRight r)
    · next l hl hr =>
      refine ⟨rfl, fun row s hok => ?_⟩
      cases hok
      exact ⟨h, fun _ _ hlast => hl.trans hlast⟩
    · exact ⟨rfl, fun row s hok => by cases hok⟩

/-- EXCEPT DISTINCT outputs the same under comparisons that agree. -/
theorem yields_of_agree (h : Agree compare compare' left right) {outs : List ρ} {ret : Ret}
    (hyields : Yields (distinctGetNextRow compare') outs ret (.open left right)) :
    Yields (distinctGetNextRow compare) outs ret (.open left right) := by
  refine hyields.of_agree (fun s (hs : s.Agrees compare compare') => ?_) (fun s row t hs hok => ?_)
    ⟨?_, fun hgot => (nomatch hgot)⟩
  · obtain ⟨hskip, hagree⟩ := hs.skipLastRow
    rw [distinctGetNextRow, distinctGetNextRow, hskip, (loop_agree _ hagree).1]
  · exact (loop_agree _ hs.skipLastRow.2).2 row t hok
  · simpa [MergeExcept.open, Child.ofRows] using h

end MergeExcept

namespace MergeIntersect

variable {s t : MergeIntersect ρ}

variable (compare compare') in
/-- The comparisons agree on the rows to come, and the rows output last are still the current ones.
-/
structure Agrees (s : MergeIntersect ρ) : Prop where
  agree : Agree compare compare' s.left.rows s.right.rows
  last : ∀ last ∈ s.lastRows, s.left.cur = some last.1 ∧ s.right.cur = some last.2

theorem Agrees.skipLastRows (h : s.Agrees compare compare') :
    s.skipLastRows compare = s.skipLastRows compare' ∧
      Agree compare compare' (s.skipLastRows compare').left.rows
        (s.skipLastRows compare').right.rows := by
  unfold MergeIntersect.skipLastRows
  split
  · next l r hlast =>
    obtain ⟨hl, hr⟩ := h.last (l, r) hlast
    rw [doDistinct_congr hl h.agree.left, doDistinct_congr hr h.agree.right]
    exact ⟨rfl, (h.agree.skipLeft l).skipRight r⟩
  · refine ⟨rfl, h.agree.sublist ?_ ?_⟩
    all_goals
      rw [rows_getNextRow]
      exact sublist_append_right _ _

theorem loop_agree (fuel : Nat) (h : Agree compare compare' t.left.rows t.right.rows) :
    loop compare fuel t = loop compare' fuel t ∧
      ∀ row s, loop compare' fuel t = .ok (row, s) → s.Agrees compare compare' := by
  induction fuel generalizing t with
  | zero => exact ⟨rfl, fun row s hok => by cases hok⟩
  | succ fuel ih =>
    unfold loop
    split
    · next l r hl hr =>
      rw [h.cross l (mem_rows_of_cur hl) r (mem_rows_of_cur hr), doDistinct_congr hl h.left,
        doDistinct_congr hr h.right]
      split
      · exact ih (h.skipLeft l)
      · refine ⟨rfl, fun row s hok => ?_⟩
        cases hok
        refine ⟨h, ?_⟩
        rintro last (_ | _)
        exact ⟨hl, hr⟩
      · exact ih (h.skipRight r)
    · exact ⟨rfl, fun row s hok => by cases hok⟩

/-- INTERSECT DISTINCT outputs the same under comparisons that agree. -/
theorem yields_of_agree (h : Agree compare compare' left right) {outs : List ρ} {ret : Ret}
    (hyields : Yields (distinctGetNextRow compare') outs ret (.open left right)) :
    Yields (distinctGetNextRow compare) outs ret (.open left right) := by
  refine hyields.of_agree (fun s (hs : s.Agrees compare compare') => ?_) (fun s row t hs hok => ?_)
    ⟨?_, fun _ hlast => nomatch hlast⟩
  · obtain ⟨hskip, hagree⟩ := hs.skipLastRows
    rw [distinctGetNextRow, distinctGetNextRow, hskip, (loop_agree _ hagree).1]
  · exact (loop_agree _ hs.skipLastRows.2).2 row t hok
  · simpa [MergeIntersect.open, Child.ofRows, Child.rows] using h

end MergeIntersect

end Agree

/-! ### Rows with nulls -/

section Null

variable {ρ : Type} {compare : ρ → ρ → Ordering} {r : ρ}

/-- UNION DISTINCT of a row that comes before itself, with itself, outputs it twice. -/
theorem union_yields_twice (h : compare r r = .lt) :
    Yields (MergeUnion.distinctGetNextRow compare) [r, r] .iterEnd (.open [r] [r]) := by
  simp [Yields, MergeUnion.distinctGetNextRow, MergeUnion.outputLeast, MergeUnion.skipLastRow,
    MergeUnion.open, Child.ofRows, getNextRow, doDistinct, h]

/-- EXCEPT DISTINCT outputs a row that comes before itself as often as the left child has it. -/
theorem except_yields_twice (h : compare r r = .lt) :
    Yields (MergeExcept.distinctGetNextRow compare) [r, r] .iterEnd (.open [r, r] []) := by
  simp [Yields, MergeExcept.distinctGetNextRow, MergeExcept.loop, MergeExcept.rounds,
    MergeExcept.skipLastRow, MergeExcept.open, Child.ofRows, getNextRow, doDistinct, h]

/-- INTERSECT DISTINCT of a row that comes before itself, with itself, outputs nothing. -/
theorem intersect_yields_nil (h : compare r r = .lt) :
    Yields (MergeIntersect.distinctGetNextRow compare) [] .iterEnd (.open [r] [r]) := by
  simp [Yields, MergeIntersect.distinctGetNextRow, MergeIntersect.loop, MergeIntersect.rounds,
    MergeIntersect.skipLastRows, MergeIntersect.open, Child.ofRows, getNextRow, doDistinct, h]

end Null

/-- UNION DISTINCT outputs no two equal rows. -/
def UnionDistinct (left right : List (Fin n → Option α)) : Prop :=
  ∃ outs, Yields (MergeUnion.distinctGetNextRow compareRows) outs .iterEnd (.open left right) ∧
    outs.Nodup

/-- EXCEPT DISTINCT outputs no two equal rows. -/
def ExceptDistinct (left right : List (Fin n → Option α)) : Prop :=
  ∃ outs, Yields (MergeExcept.distinctGetNextRow compareRows) outs .iterEnd (.open left right) ∧
    outs.Nodup

/-- INTERSECT DISTINCT outputs no two equal rows, and every row that both inputs have. -/
def IntersectDistinct (left right : List (Fin n → Option α)) : Prop :=
  ∃ outs,
    Yields (MergeIntersect.distinctGetNextRow compareRows) outs .iterEnd (.open left right) ∧
      outs.Nodup ∧ ∀ r, r ∈ left → r ∈ right → r ∈ outs

/-- Rows with nulls are harmless: none is repeated in its input, and none of the right input is met
by a row of the left one. -/
structure NullsApart (left right : List (Fin n → Option α)) : Prop where
  left_once : left.Pairwise fun a b => a = b → NullFree a
  right_once : right.Pairwise fun a b => a = b → NullFree a
  apart : ∀ a ∈ left, ∀ b ∈ right, ¬MeetsNull a b

omit [LinearOrder α] in
theorem rowKey_injective :
    Function.Injective (rowKey : (Fin n → Option α) → List (WithBot α)) := fun _ _ h =>
  List.ofFn_injective h

/-- Where no row with a null is repeated or met, the operators' comparison is that of the keys. -/
theorem NullsApart.agree (h : NullsApart left right) :
    Agree compareRows (compareBy rowKey) left right where
  cross a ha b hb := by
    obtain ⟨hlt, hgt, heq⟩ := compareRows_spec (h.apart a ha b hb)
    cases hcmp : compareRows a b with
    | lt => exact ((cmp_eq_lt_iff _ _).2 (hlt.1 hcmp)).symm
    | eq => exact ((compareBy_eq_iff rowKey_injective).2 (heq hcmp)).symm
    | gt => exact ((cmp_eq_gt_iff _ _).2 (hgt.1 hcmp)).symm
  eq_of_eq _ _ _ _ := (compareBy_eq_iff rowKey_injective).1
  left := h.left_once.imp fun {a b} hfree => by
    rw [compareRows_eq_iff, (compareBy_eq_iff rowKey_injective)]
    exact and_iff_left_of_imp fun hba => hba ▸ hfree hba.symm
  right := h.right_once.imp fun {a b} hfree => by
    rw [compareRows_eq_iff, (compareBy_eq_iff rowKey_injective)]
    exact and_iff_left_of_imp fun hba => hba ▸ hfree hba.symm

/-- The row whose only cell is null. -/
def nullRow : Fin 1 → Option Nat := fun _ => none

end Rows

end OceanBase.Sql
