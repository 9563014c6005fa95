import OceanBase.Lib.Sorted
import OceanBase.Sql.MergeSet

/-!
# What the set operators output (`ob_merge_union.cpp`, `ob_merge_except.cpp`,
`ob_merge_intersect.cpp`)

Over rows on which `compare` is a linear order (`Orders`), each operator is described by the rows
that its children have from their current rows on; a step passes rows by keeping what is greater
(`above`). The whole run follows by induction on the rows left.

The DISTINCT forms are described by the set of rows they output, the ALL forms by how often they
output a row.
-/

namespace OceanBase.Sql

open Lib List Child Nat

section Orders

variable {ρ β : Type} [LinearOrder β]

/-- On rows with the property, `compare` is the comparison of their keys, and tells them apart. -/
structure Orders (compare : ρ → ρ → Ordering) (key : ρ → β) (S : ρ → Prop) : Prop where
  lt_iff_key : ∀ a b, S a → S b → (compare a b = .lt ↔ key a < key b)
  gt_iff_key : ∀ a b, S a → S b → (compare a b = .gt ↔ key b < key a)
  eq_of_eq : ∀ a b, S a → S b → compare a b = .eq → a = b

variable {compare : ρ → ρ → Ordering} {key : ρ → β} {S : ρ → Prop} {a b : ρ}

namespace Orders

section

variable (H : Orders compare key S)
include H

theorem lt_iff (ha : S a) (hb : S b) : compare a b = .lt ↔ key a < key b := H.lt_iff_key a b ha hb

theorem gt_iff (ha : S a) (hb : S b) : compare a b = .gt ↔ key b < key a := H.gt_iff_key a b ha hb

theorem inj (ha : S a) (hb : S b) (hkey : key a = key b) : a = b := by
  refine H.eq_of_eq a b ha hb ?_
  cases hcmp : compare a b with
  | lt => exact absurd ((H.lt_iff ha hb).1 hcmp) hkey.not_lt
  | eq => rfl
  | gt => exact absurd ((H.gt_iff ha hb).1 hcmp) hkey.not_gt

theorem eq_iff (ha : S a) (hb : S b) : compare a b = .eq ↔ a = b := by
  refine ⟨H.eq_of_eq a b ha hb, ?_⟩
  rintro rfl
  cases hcmp : compare a a with
  | lt => exact absurd ((H.lt_iff ha ha).1 hcmp) (lt_irrefl _)
  | eq => rfl
  | gt => exact absurd ((H.gt_iff ha ha).1 hcmp) (lt_irrefl _)

theorem eq_or_lt (ha : S a) (hb : S b) (hle : key a ≤ key b) : b = a ∨ key a < key b :=
  hle.eq_or_lt.imp (fun h => H.inj hb ha h.symm) id

end

end Orders

variable (key S) in
/-- Sorted rows that have the property. -/
structure Sorted (rows : List ρ) : Prop where
  sorted : rows.Pairwise (key · ≤ key ·)
  mem : ∀ r ∈ rows, S r

variable {xs ys : List ρ}

theorem Sorted.sublist (h : Sorted key S xs) (hsub : ys.Sublist xs) : Sorted key S ys :=
  ⟨h.sorted.sublist hsub, fun r hr => h.mem r (hsub.subset hr)⟩

variable {r l row : ρ}

theorem Sorted.head_le (h : Sorted key S (a :: xs)) (hr : r ∈ a :: xs) : key a ≤ key r := by
  obtain rfl | hr := mem_cons.1 hr
  · exact le_rfl
  · exact (pairwise_cons.1 h.sorted).1 r hr

/-- The rows with a greater key. -/
def above (key : ρ → β) (a : ρ) (xs : List ρ) : List ρ := xs.filter (key a < key ·)

@[simp]
theorem mem_above : r ∈ above key a xs ↔ r ∈ xs ∧ key a < key r := by
  simp [above]

theorem Sorted.above (h : Sorted key S xs) (a : ρ) : Sorted key S (above key a xs) :=
  h.sublist filter_sublist

theorem above_eq_self (h : ∀ r ∈ xs, key a < key r) : above key a xs = xs :=
  filter_eq_self.2 fun r hr => decide_eq_true (h r hr)

theorem length_above_le (a : ρ) (xs : List ρ) : (above key a xs).length ≤ xs.length :=
  length_filter_le ..

theorem length_above_lt (ha : a ∈ xs) : (above key a xs).length < xs.length := by
  refine length_filter_lt_length_iff_exists.2 ⟨a, ha, by simp⟩

theorem dropWhile_eq_above (H : Orders compare key S) (h : Sorted key S (a :: xs)) :
    xs.dropWhile (fun r => compare r a == .eq) = above key a (a :: xs) := by
  have hS := h.mem a (by simp)
  have hnil : above key a (a :: xs) = above key a xs := filter_cons_of_neg (by simp)
  rw [hnil]
  induction xs with
  | nil => rfl
  | cons r xs ih =>
    have hr := h.mem r (by simp)
    by_cases heq : r = a
    · subst heq
      rw [dropWhile_cons_of_pos (by simp [H.eq_iff hr hS]), above, filter_cons_of_neg (by simp)]
      exact ih (h.sublist (by simp)) (filter_cons_of_neg (by simp))
    have hlt : key a < key r :=
      lt_of_le_of_ne (h.head_le (by simp)) fun hkey => heq (H.inj hr hS hkey.symm)
    rw [dropWhile_cons_of_neg (by simp [H.eq_iff hr hS, heq])]
    refine (above_eq_self fun r' hr' => hlt.trans_le ?_).symm
    exact (h.sublist (by simp)).head_le hr'

namespace Child

variable {child : Child ρ}

/-- The rows to come, with the current one. -/
def rows (child : Child ρ) : List ρ := child.cur.toList ++ child.rest

@[simp]
theorem rows_getNextRow (child : Child ρ) : child.getNextRow.rows = child.rest := by
  cases h : child.rest <;> simp [rows, getNextRow, h]

/-- The child has been asked for a row: without one it is at its end. -/
def Fetched (child : Child ρ) : Prop := child.cur = child.rows.head?

theorem fetched_getNextRow (child : Child ρ) : child.getNextRow.Fetched := by
  rw [Fetched, rows_getNextRow]
  rfl

theorem Fetched.rows_eq_nil (h : child.Fetched) (hcur : child.cur = none) : child.rows = [] :=
  head?_eq_none_iff.1 (h.symm.trans hcur)

theorem rows_eq_cons (hcur : child.cur = some a) : child.rows = a :: child.rest := by
  simp [rows, hcur]

theorem head_spec (h : Sorted key S child.rows) (hcur : child.cur = some a) :
    a ∈ child.rows ∧ S a ∧ ∀ x ∈ child.rows, key a ≤ key x := by
  rw [rows_eq_cons hcur] at h ⊢
  exact ⟨mem_cons_self, h.mem a mem_cons_self, fun _ => h.head_le⟩

theorem rows_doDistinct (H : Orders compare key S) (hcur : child.cur = some a)
    (h : Sorted key S child.rows) : (child.doDistinct compare a).rows = above key a child.rows := by
  rw [rows_eq_cons hcur] at h ⊢
  rw [doDistinct, rows_getNextRow]
  exact dropWhile_eq_above H h

theorem fetched_doDistinct (child : Child ρ) : (child.doDistinct compare a).Fetched :=
  fetched_getNextRow _

end Child

/-! ### UNION -/

namespace MergeUnion

variable {s t : MergeUnion ρ}

variable (key S) in
/-- Both current rows are fetched, and the rows to come are sorted. -/
structure Ready (s : MergeUnion ρ) : Prop where
  leftFetched : s.left.Fetched
  rightFetched : s.right.Fetched
  left : Sorted key S s.left.rows
  right : Sorted key S s.right.rows

variable (key) in
/-- The state is over what comes after the row in another one. -/
structure After (row : ρ) (t s : MergeUnion ρ) : Prop where
  leftFetched : s.left.Fetched
  rightFetched : s.right.Fetched
  left : s.left.rows = above key row t.left.rows
  right : s.right.rows = above key row t.right.rows

theorem Ready.mem (h : t.Ready key S) (hr : r ∈ t.left.rows ∨ r ∈ t.right.rows) : S r :=
  hr.elim (h.left.mem r) (h.right.mem r)

theorem Ready.after (h : t.Ready key S) (hs : After key row t s) : s.Ready key S :=
  ⟨hs.leftFetched, hs.rightFetched, hs.left ▸ h.left.above row, hs.right ▸ h.right.above row⟩

/-- The output is the least row of both children, and the next call is over what is greater. -/
theorem Ready.outputLeast (H : Orders compare key S) (h : t.Ready key S) :
    (t.outputLeast compare = .error .iterEnd ∧ t.left.rows = [] ∧ t.right.rows = []) ∨
      ∃ row s, t.outputLeast compare = .ok (row, s) ∧
        (row ∈ t.left.rows ∨ row ∈ t.right.rows) ∧
        (∀ r, r ∈ t.left.rows ∨ r ∈ t.right.rows → key row ≤ key r) ∧
        After key row t (s.skipLastRow compare) := by
  obtain ⟨hlf, hrf, hl, hr⟩ := h
  unfold MergeUnion.outputLeast
  rcases hlc : t.left.cur with _ | l
  · have hlnil := hlf.rows_eq_nil hlc
    rcases hrc : t.right.cur with _ | r
    · exact .inl ⟨rfl, hlnil, hrf.rows_eq_nil hrc⟩
    obtain ⟨hmem, -, hrle⟩ := head_spec hr hrc
    refine .inr ⟨r, _, rfl, .inr hmem, ?_, hlf, t.right.fetched_doDistinct,
      by simp [skipLastRow, hlnil, above], rows_doDistinct H hrc hr⟩
    rintro x (hx | hx)
    · simp [hlnil] at hx
    · exact hrle x hx
  obtain ⟨hlmem, hSl, hlle⟩ := head_spec hl hlc
  rcases hrc : t.right.cur with _ | r
  · have hrnil := hrf.rows_eq_nil hrc
    refine .inr ⟨l, _, rfl, .inl hlmem, ?_, t.left.fetched_doDistinct, hrf,
      rows_doDistinct H hlc hl, by simp [skipLastRow, hrnil, above]⟩
    rintro x (hx | hx)
    · exact hlle x hx
    · simp [hrnil] at hx
  obtain ⟨hrmem, hSr, hrle⟩ := head_spec hr hrc
  right
  cases hcmp : compare l r with
  | lt =>
    have hlt := (H.lt_iff hSl hSr).1 hcmp
    have hlt' : ∀ x ∈ t.right.rows, key l < key x := fun x hx => hlt.trans_le (hrle x hx)
    refine ⟨l, { t with lastRow := some l, lastCmp := .lt }, by simp [hcmp],
      .inl hlmem, ?_, t.left.fetched_doDistinct, hrf,
      rows_doDistinct H hlc hl, (above_eq_self hlt').symm⟩
    rintro x (hx | hx)
    · exact hlle x hx
    · exact (hlt' x hx).le
  | eq =>
    obtain rfl := (H.eq_iff hSl hSr).1 hcmp
    refine ⟨l, { t with lastRow := some l, lastCmp := .eq }, by simp [hcmp],
      .inl hlmem, ?_, t.left.fetched_doDistinct, t.right.fetched_doDistinct,
      rows_doDistinct H hlc hl, rows_doDistinct H hrc hr⟩
    rintro x (hx | hx)
    · exact hlle x hx
    · exact hrle x hx
  | gt =>
    have hlt := (H.gt_iff hSl hSr).1 hcmp
    have hlt' : ∀ x ∈ t.left.rows, key r < key x := fun x hx => hlt.trans_le (hlle x hx)
    refine ⟨r, { t with lastRow := some r, lastCmp := .gt }, by simp [hcmp],
      .inr hrmem, ?_, hlf, t.right.fetched_doDistinct,
      (above_eq_self hlt').symm, rows_doDistinct H hrc hr⟩
    rintro x (hx | hx)
    · exact (hlt' x hx).le
    · exact hrle x hx

/-- UNION DISTINCT outputs the rows of both children in order, each once. -/
theorem Ready.yields (H : Orders compare key S) (h : (s.skipLastRow compare).Ready key S) :
    ∃ outs, Yields (distinctGetNextRow compare) outs .iterEnd s ∧ outs.Pairwise (key · < key ·) ∧
      ∀ r, r ∈ outs ↔
        r ∈ (s.skipLastRow compare).left.rows ∨ r ∈ (s.skipLastRow compare).right.rows := by
  induction hlen : (s.skipLastRow compare).left.rows.length +
    (s.skipLastRow compare).right.rows.length using Nat.strong_induction_on generalizing s with
  | _ len ih =>
  generalize ht : s.skipLastRow compare = t at h hlen
  obtain ⟨hend, hlnil, hrnil⟩ | ⟨row, s', hout, hmem, hle, hafter⟩ := h.outputLeast H
  · exact ⟨[], by rw [Yields, distinctGetNextRow, ht, hend], .nil, by simp [hlnil, hrnil]⟩
  have hlength : (s'.skipLastRow compare).left.rows.length +
      (s'.skipLastRow compare).right.rows.length < len := by
    rw [hafter.left, hafter.right, ← hlen]
    obtain hmem | hmem := hmem
    · exact Nat.add_lt_add_of_lt_of_le (length_above_lt hmem) (length_above_le row _)
    · exact Nat.add_lt_add_of_le_of_lt (length_above_le row _) (length_above_lt hmem)
  obtain ⟨outs, hyields, hsorted, houts⟩ := ih _ hlength (h.after hafter) rfl
  refine ⟨row :: outs, ⟨s', by rw [distinctGetNextRow, ht, hout], hyields⟩, ?_, ?_⟩
  · refine pairwise_cons.2 ⟨fun r hr => ?_, hsorted⟩
    rw [houts, hafter.left, hafter.right] at hr
    obtain hr | hr := hr <;> exact (mem_above.1 hr).2
  intro r
  rw [mem_cons, houts, hafter.left, hafter.right, mem_above, mem_above, ← or_and_right]
  constructor
  · rintro (rfl | hr)
    · exact hmem
    · exact hr.1
  · intro hr
    exact (H.eq_or_lt (h.mem hmem) (h.mem hr) (hle r hr)).imp id fun hlt => ⟨hr, hlt⟩

end MergeUnion

/-! ### EXCEPT -/

theorem above_above (hab : key a < key b) : above key b (above key a xs) = above key b xs := by
  simp only [above, filter_filter]
  refine filter_congr fun r _ => ?_
  have himp : key b < key r → key a < key r := hab.trans
  by_cases h : key b < key r <;> simp [h, himp]

namespace MergeExcept

variable {s t : MergeExcept ρ}

variable (key S) in
/-- Both current rows are fetched, and the rows to come are sorted. -/
structure Ready (s : MergeExcept ρ) : Prop where
  leftFetched : s.left.Fetched
  rightFetched : s.right.Fetched
  left : Sorted key S s.left.rows
  right : Sorted key S s.right.rows

variable (compare key S) in
/-- The loop has output the least row that only the left child of `t` has; the next call is over
what is greater. -/
structure Output (t : MergeExcept ρ) (row : ρ) (s : MergeExcept ρ) : Prop where
  mem : row ∈ t.left.rows
  notMem : row ∉ t.right.rows
  least : ∀ r ∈ t.left.rows, r ∉ t.right.rows → key row ≤ key r
  ready : (s.skipLastRow compare).Ready key S
  left : (s.skipLastRow compare).left.rows = above key row t.left.rows
  right : ∀ r, key row < key r → (r ∈ (s.skipLastRow compare).right.rows ↔ r ∈ t.right.rows)

theorem Ready.output_lt (H : Orders compare key S) (h : t.Ready key S)
    (hlc : t.left.cur = some l) (hlt : ∀ r ∈ t.right.rows, key l < key r) :
    Output compare key S t l { t with gotFirstRow := true, leftLastRow := some l } := by
  obtain ⟨hmem, -, hle⟩ := head_spec h.left hlc
  have hskip := rows_doDistinct H hlc h.left
  refine ⟨hmem, fun hmem => lt_irrefl _ (hlt l hmem), fun r hr _ => hle r hr,
    ⟨t.left.fetched_doDistinct, h.rightFetched, ?_, h.right⟩, hskip, fun _ _ => Iff.rfl⟩
  have := h.left.above l
  rwa [← hskip] at this

variable (key) in
/-- The loop has passed rows up to `c`: those of the left child that it passed, the right child
has. -/
structure Passed (c : ρ) (t t' : MergeExcept ρ) : Prop where
  right : t'.right.rows = above key c t.right.rows
  subset : ∀ r ∈ t'.left.rows, r ∈ t.left.rows ∧ key c < key r
  passed : ∀ r ∈ t.left.rows, r ∉ t'.left.rows → r ∈ t.right.rows
  left : ∀ r, key c < key r → above key r t'.left.rows = above key r t.left.rows

variable {t' : MergeExcept ρ} {c : ρ}

theorem Passed.mem_right (h : Passed key c t t') (hr : key c < key r) :
    r ∈ t'.right.rows ↔ r ∈ t.right.rows := by
  rw [h.right, mem_above, and_iff_left hr]

theorem Passed.output (h : Passed key c t t') (hout : Output compare key S t' row s) :
    Output compare key S t row s := by
  obtain ⟨hmem, hc⟩ := h.subset row hout.mem
  refine ⟨hmem, fun hr => hout.notMem ((h.mem_right hc).2 hr), fun r hr hnot => ?_, hout.ready,
    hout.left.trans (h.left row hc),
    fun r hr => (hout.right r hr).trans (h.mem_right (hc.trans hr))⟩
  have hr' : r ∈ t'.left.rows := by_contra fun hr' => hnot (h.passed r hr hr')
  exact hout.least r hr' fun hright => hnot ((h.mem_right (h.subset r hr').2).1 hright)

theorem Passed.forall_mem (h : Passed key c t t') (hall : ∀ r ∈ t'.left.rows, r ∈ t'.right.rows) :
    ∀ r ∈ t.left.rows, r ∈ t.right.rows := by
  intro r hr
  by_cases hr' : r ∈ t'.left.rows
  · exact (h.mem_right (h.subset r hr').2).1 (hall r hr')
  · exact h.passed r hr hr'

variable (compare key S) in
/-- What the loop of EXCEPT DISTINCT comes to. -/
def LoopDistinct (fuel : Nat) (t : MergeExcept ρ) : Prop :=
  (loop compare (Child.doDistinct compare) fuel t = .error .iterEnd ∧
      ∀ r ∈ t.left.rows, r ∈ t.right.rows) ∨
    ∃ row s, loop compare (Child.doDistinct compare) fuel t = .ok (row, s) ∧
      Output compare key S t row s

variable {fuel : Nat}

theorem Passed.loopDistinct (h : Passed key c t t')
    (hloop : loop compare (Child.doDistinct compare) (fuel + 1) t =
      loop compare (Child.doDistinct compare) fuel t')
    (hspec : LoopDistinct compare key S fuel t') : LoopDistinct compare key S (fuel + 1) t := by
  obtain ⟨hend, hall⟩ | ⟨row, s, hok, hout⟩ := hspec
  · exact .inl ⟨hloop.trans hend, h.forall_mem hall⟩
  · exact .inr ⟨row, s, hloop.trans hok, h.output hout⟩

theorem Ready.loopDistinct (H : Orders compare key S) (h : t.Ready key S)
    (hfuel : t.right.rows.length < fuel) : LoopDistinct compare key S fuel t := by
  induction fuel generalizing t with
  | zero => cases hfuel
  | succ fuel ih =>
    rcases hlc : t.left.cur with _ | l
    · exact .inl ⟨by simp [loop, hlc], by simp [h.leftFetched.rows_eq_nil hlc]⟩
    rcases hrc : t.right.cur with _ | r
    · exact .inr ⟨l, _, by simp [loop, hlc, hrc],
        h.output_lt H hlc (by simp [h.rightFetched.rows_eq_nil hrc])⟩
    obtain ⟨hl, hSl, hlle⟩ := head_spec h.left hlc
    obtain ⟨hr, hSr, hrle⟩ := head_spec h.right hrc
    have hright := rows_doDistinct H hrc h.right
    have hlength : (t.right.doDistinct compare r).rows.length < fuel :=
      lt_of_lt_of_le (hright ▸ length_above_lt hr) (le_of_lt_succ hfuel)
    have hsorted : Sorted key S (t.right.doDistinct compare r).rows := hright ▸ h.right.above r
    cases hcmp : compare l r with
    | lt =>
      have hlt := (H.lt_iff hSl hSr).1 hcmp
      exact .inr ⟨l, _, by simp [loop, hlc, hrc, hcmp],
        h.output_lt H hlc fun x hx => hlt.trans_le (hrle x hx)⟩
    | eq =>
      obtain rfl := (H.eq_iff hSl hSr).1 hcmp
      have hleft := rows_doDistinct H hlc h.left
      have hpassed : Passed key l t { t with
          left := t.left.doDistinct compare l, right := t.right.doDistinct compare l
          leftLastRow := some l } := by
        refine ⟨hright, fun x hx => mem_above.1 (hleft ▸ hx), fun x hx hnot => ?_, fun x hx =>
          (congrArg _ hleft).trans (above_above hx)⟩
        obtain rfl | hlt := H.eq_or_lt hSl (h.left.mem x hx) (hlle x hx)
        · exact hr
        · exact absurd (hleft ▸ mem_above.2 ⟨hx, hlt⟩) hnot
      exact hpassed.loopDistinct (by simp [loop, hlc, hrc, hcmp])
        (ih ⟨t.left.fetched_doDistinct, t.right.fetched_doDistinct, hleft ▸ h.left.above l,
          hsorted⟩ hlength)
    | gt =>
      have hlt := (H.gt_iff hSl hSr).1 hcmp
      have hpassed : Passed key r t { t with right := t.right.doDistinct compare r } :=
        ⟨hright, fun x hx => ⟨hx, hlt.trans_le (hlle x hx)⟩, fun x hx hnot => absurd hx hnot,
          fun _ _ => rfl⟩
      exact hpassed.loopDistinct (by simp [loop, hlc, hrc, hcmp])
        (ih ⟨h.leftFetched, t.right.fetched_doDistinct, h.left, hsorted⟩ hlength)

theorem skipLastRow_right : (s.skipLastRow compare).right = s.right := by
  unfold skipLastRow
  split <;> rfl

theorem length_rows_le (child : Child ρ) : child.rows.length ≤ child.rest.length + 1 := by
  cases h : child.cur <;> simp [Child.rows, h]

/-- EXCEPT DISTINCT outputs, in order and each once, the rows that only the left child has. -/
theorem Ready.yields_distinct (H : Orders compare key S) (h : (s.skipLastRow compare).Ready key S) :
    ∃ outs, Yields (distinctGetNextRow compare) outs .iterEnd s ∧ outs.Pairwise (key · < key ·) ∧
      ∀ r, r ∈ outs ↔
        r ∈ (s.skipLastRow compare).left.rows ∧ r ∉ (s.skipLastRow compare).right.rows := by
  induction hlen : (s.skipLastRow compare).left.rows.length using Nat.strong_induction_on
    generalizing s with
  | _ len ih =>
  have hfuel : (s.skipLastRow compare).right.rows.length < s.rounds := by
    have := length_rows_le s.right
    rw [skipLastRow_right, rounds]
    omega
  obtain ⟨hend, hall⟩ | ⟨row, s', hok, hout⟩ := h.loopDistinct H hfuel
  · refine ⟨[], hend, .nil, fun r => ?_⟩
    simpa using hall r
  have hlength : (s'.skipLastRow compare).left.rows.length < len :=
    hlen ▸ hout.left ▸ length_above_lt hout.mem
  obtain ⟨outs, hyields, hsorted, houts⟩ := ih _ hlength hout.ready rfl
  refine ⟨row :: outs, ⟨s', hok, hyields⟩, ?_, ?_⟩
  · refine pairwise_cons.2 ⟨fun r hr => ?_, hsorted⟩
    rw [houts, hout.left] at hr
    exact (mem_above.1 hr.1).2
  intro r
  rw [mem_cons, houts, hout.left, mem_above]
  constructor
  · rintro (rfl | ⟨⟨hr, hlt⟩, hnot⟩)
    · exact ⟨hout.mem, hout.notMem⟩
    · exact ⟨hr, fun hright => hnot ((hout.right r hlt).2 hright)⟩
  rintro ⟨hr, hnot⟩
  refine (H.eq_or_lt (h.left.mem row hout.mem) (h.left.mem r hr) (hout.least r hr hnot)).imp
    id fun hlt => ⟨⟨hr, hlt⟩, fun hright => hnot ((hout.right r hlt).1 hright)⟩

/-! EXCEPT ALL. -/

variable [DecidableEq ρ]

/-- How often EXCEPT ALL still has to output a row. -/
def owed (s : MergeExcept ρ) (r : ρ) : Nat := s.left.rows.count r - s.right.rows.count r

variable (compare key S) in
/-- What the loop of EXCEPT ALL comes to. -/
def LoopAll (fuel : Nat) (t : MergeExcept ρ) : Prop :=
  (loop compare (fun child _ => child.getNextRow) fuel t = .error .iterEnd ∧ ∀ r, t.owed r = 0) ∨
    ∃ row s, loop compare (fun child _ => child.getNextRow) fuel t = .ok (row, s) ∧
      s.passLastRow.Ready key S ∧ s.passLastRow.left.rows.length < t.left.rows.length ∧
      ∀ r, t.owed r = [row].count r + s.passLastRow.owed r

theorem LoopAll.of_owed (t' : MergeExcept ρ)
    (hloop : loop compare (fun child _ => child.getNextRow) (fuel + 1) t =
      loop compare (fun child _ => child.getNextRow) fuel t')
    (howed : ∀ r, t.owed r = t'.owed r) (hlength : t'.left.rows.length ≤ t.left.rows.length)
    (hspec : LoopAll compare key S fuel t') : LoopAll compare key S (fuel + 1) t := by
  obtain ⟨hend, hall⟩ | ⟨row, s, hok, hready, hshort, hcount⟩ := hspec
  · exact .inl ⟨hloop.trans hend, fun r => (howed r).trans (hall r)⟩
  · exact .inr ⟨row, s, hloop.trans hok, hready, hshort.trans_le hlength,
      fun r => (howed r).trans (hcount r)⟩

theorem Ready.loopAll_lt (h : t.Ready key S) (hlc : t.left.cur = some l) (hnot : l ∉ t.right.rows)
    (hloop : loop compare (fun child _ => child.getNextRow) fuel t =
      .ok (l, { t with gotFirstRow := true, leftLastRow := some l })) :
    LoopAll compare key S fuel t := by
  have hrows := rows_eq_cons hlc
  have hnext : t.left.getNextRow.rows = t.left.rest := rows_getNextRow _
  refine .inr ⟨l, _, hloop, ⟨t.left.fetched_getNextRow, h.rightFetched, ?_, h.right⟩, ?_,
    fun r => ?_⟩
  · refine h.left.sublist ?_
    simp [passLastRow, hrows]
  · simp [passLastRow, hrows]
  simp only [owed, passLastRow, hrows]
  by_cases hr : r = l
  · subst hr
    simp [count_eq_zero_of_not_mem hnot, Nat.add_comm]
  · simp [count_cons_of_ne (Ne.symm hr)]

theorem Ready.loopAll (H : Orders compare key S) (h : t.Ready key S)
    (hfuel : t.right.rows.length < fuel) : LoopAll compare key S fuel t := by
  induction fuel generalizing t with
  | zero => cases hfuel
  | succ fuel ih =>
    rcases hlc : t.left.cur with _ | l
    · exact .inl ⟨by simp [loop, hlc], by simp [owed, h.leftFetched.rows_eq_nil hlc]⟩
    rcases hrc : t.right.cur with _ | r
    · exact h.loopAll_lt hlc (by simp [h.rightFetched.rows_eq_nil hrc]) (by simp [loop, hlc, hrc])
    have hlrows := rows_eq_cons hlc
    have hrrows := rows_eq_cons hrc
    obtain ⟨-, hSl, hlle⟩ := head_spec h.left hlc
    obtain ⟨hr, hSr, hrle⟩ := head_spec h.right hrc
    cases hcmp : compare l r with
    | lt =>
      have hlt := (H.lt_iff hSl hSr).1 hcmp
      refine h.loopAll_lt hlc (fun hmem => ?_) (by simp [loop, hlc, hrc, hcmp])
      exact absurd (hrle l hmem) (not_le_of_gt hlt)
    | eq =>
      obtain rfl := (H.eq_iff hSl hSr).1 hcmp
      have hleft : t.left.getNextRow.rows = t.left.rest := rows_getNextRow _
      have hright : t.right.getNextRow.rows = t.right.rest := rows_getNextRow _
      refine LoopAll.of_owed
        { t with left := t.left.getNextRow, right := t.right.getNextRow, leftLastRow := some l }
        (by simp [loop, hlc, hrc, hcmp]) (fun x => ?_) ?_
        (ih ⟨t.left.fetched_getNextRow, t.right.fetched_getNextRow, ?_, ?_⟩ ?_)
      · simp only [owed, hleft, hright, hlrows, hrrows, count_cons]
        omega
      · simp [hlrows]
      · exact h.left.sublist (by simp [hlrows])
      · exact h.right.sublist (by simp [hrrows])
      · simpa [hrrows] using hfuel
    | gt =>
      have hlt := (H.gt_iff hSl hSr).1 hcmp
      have hright := rows_doDistinct H hrc h.right
      refine LoopAll.of_owed { t with right := t.right.doDistinct compare r }
        (by simp [loop, hlc, hrc, hcmp]) (fun x => ?_) le_rfl
        (ih ⟨h.leftFetched, t.right.fetched_doDistinct, h.left, hright ▸ h.right.above r⟩
          (lt_of_lt_of_le (hright ▸ length_above_lt hr) (le_of_lt_succ hfuel)))
      -- what is passed on the right lies below every row on the left
      by_cases hx : x ∈ t.left.rows
      · have hkey : key r < key x :=
          hlt.trans_le (hlle _ hx)
        simp only [owed, hright, above]
        rw [count_filter (by simpa using hkey)]
      · simp [owed, count_eq_zero_of_not_mem hx]

omit [DecidableEq ρ] in
theorem passLastRow_right : s.passLastRow.right = s.right := by
  unfold passLastRow
  split <;> rfl

/-- EXCEPT ALL outputs a row as often as the left child has it more than the right one. -/
theorem Ready.yields_all (H : Orders compare key S) (h : s.passLastRow.Ready key S) :
    ∃ outs, Yields (allGetNextRow compare) outs .iterEnd s ∧
      ∀ r, outs.count r = s.passLastRow.left.rows.count r - s.passLastRow.right.rows.count r := by
  induction hlen : s.passLastRow.left.rows.length using Nat.strong_induction_on generalizing s with
  | _ len ih =>
  have hfuel : s.passLastRow.right.rows.length < s.rounds := by
    have := length_rows_le s.right
    rw [passLastRow_right, rounds]
    omega
  obtain ⟨hend, hall⟩ | ⟨row, s', hok, hready, hshort, hcount⟩ := h.loopAll H hfuel
  · exact ⟨[], hend, fun r => (hall r).symm⟩
  obtain ⟨outs, hyields, houts⟩ := ih _ (hlen ▸ hshort) hready rfl
  refine ⟨row :: outs, ⟨s', hok, hyields⟩, fun r => ?_⟩
  have := hcount r
  rw [owed, owed, ← houts r] at this
  rw [this, ← count_append]
  rfl

end MergeExcept

/-! ### INTERSECT -/

namespace MergeIntersect

variable {s t t' : MergeIntersect ρ}

variable (key S) in
/-- Both current rows are fetched, and the rows to come are sorted. -/
structure Ready (s : MergeIntersect ρ) : Prop where
  leftFetched : s.left.Fetched
  rightFetched : s.right.Fetched
  left : Sorted key S s.left.rows
  right : Sorted key S s.right.rows

theorem Ready.above_left (h : t.Ready key S) (H : Orders compare key S)
    (hlc : t.left.cur = some l) : Ready key S { t with left := t.left.doDistinct compare l } :=
  ⟨t.left.fetched_doDistinct, h.rightFetched,
    rows_doDistinct H hlc h.left ▸ h.left.above l, h.right⟩

theorem Ready.above_right (h : t.Ready key S) (H : Orders compare key S)
    (hrc : t.right.cur = some r) : Ready key S { t with right := t.right.doDistinct compare r } :=
  ⟨h.leftFetched, t.right.fetched_doDistinct, h.left,
    rows_doDistinct H hrc h.right ▸ h.right.above r⟩

variable [DecidableEq ρ]

/-- How often INTERSECT ALL outputs a row. -/
def common (s : MergeIntersect ρ) (r : ρ) : Nat := min (s.left.rows.count r) (s.right.rows.count r)

theorem common_pos : 0 < s.common r ↔ r ∈ s.left.rows ∧ r ∈ s.right.rows := by
  rw [common, Nat.lt_min, count_pos_iff, count_pos_iff]

variable (compare key S) in
/-- What the loop comes to: a state in which both children are at the same row, or the end. Rows
are passed only where the other child does not have them. -/
def LoopSpec (fuel : Nat) (t : MergeIntersect ρ) : Prop :=
  (loop compare fuel t = .error .iterEnd ∧ ∀ r, t.common r = 0) ∨
    ∃ (row : ρ) (s : MergeIntersect ρ),
      loop compare fuel t = .ok (row, { s with lastRows := some (row, row) }) ∧
      s.Ready key S ∧ s.left.cur = some row ∧ s.right.cur = some row ∧
      s.left.rows.length ≤ t.left.rows.length ∧ ∀ r, t.common r = s.common r

theorem LoopSpec.of_common {fuel : Nat} (t' : MergeIntersect ρ)
    (hloop : loop compare (fuel + 1) t = loop compare fuel t')
    (hcommon : ∀ r, t.common r = t'.common r) (hlength : t'.left.rows.length ≤ t.left.rows.length)
    (hspec : LoopSpec compare key S fuel t') : LoopSpec compare key S (fuel + 1) t := by
  obtain ⟨hend, hnone⟩ | ⟨row, s, hok, hready, hl, hr, hshort, hs⟩ := hspec
  · exact .inl ⟨hloop.trans hend, fun r => (hcommon r).trans (hnone r)⟩
  · exact .inr ⟨row, s, hloop.trans hok, hready, hl, hr, hshort.trans hlength,
      fun r => (hcommon r).trans (hs r)⟩

/-- Rows of one child up to a row below all rows of the other one are not common. -/
theorem count_above_min {xs : List ρ} {a : ρ} (hlt : ∀ y ∈ ys, key a < key y) (r : ρ) :
    min (xs.count r) (ys.count r) = min ((above key a xs).count r) (ys.count r) := by
  by_cases hr : r ∈ ys
  · rw [above, count_filter (by simpa using hlt r hr)]
  · simp [count_eq_zero_of_not_mem hr]

theorem Ready.loopSpec (H : Orders compare key S) (h : t.Ready key S) {fuel : Nat}
    (hfuel : t.left.rows.length + t.right.rows.length < fuel) : LoopSpec compare key S fuel t := by
  induction fuel generalizing t with
  | zero => cases hfuel
  | succ fuel ih =>
    rcases hlc : t.left.cur with _ | l
    · exact .inl ⟨by simp [loop, hlc], by simp [common, h.leftFetched.rows_eq_nil hlc]⟩
    rcases hrc : t.right.cur with _ | r
    · exact .inl ⟨by simp [loop, hrc], by simp [common, h.rightFetched.rows_eq_nil hrc]⟩
    obtain ⟨hl, hSl, hlle⟩ := head_spec h.left hlc
    obtain ⟨hr, hSr, hrle⟩ := head_spec h.right hrc
    cases hcmp : compare l r with
    | lt =>
      have hlt := (H.lt_iff hSl hSr).1 hcmp
      have hleft := rows_doDistinct H hlc h.left
      have hshort : (t.left.doDistinct compare l).rows.length < t.left.rows.length :=
        hleft ▸ length_above_lt hl
      refine LoopSpec.of_common { t with left := t.left.doDistinct compare l }
        (by simp [loop, hlc, hrc, hcmp]) (fun x => ?_) hshort.le
        (ih (h.above_left H hlc) (by simp only; omega))
      simp only [common, hleft]
      exact count_above_min (fun y hy => hlt.trans_le (hrle y hy)) x
    | eq =>
      obtain rfl := (H.eq_iff hSl hSr).1 hcmp
      exact .inr ⟨l, t, by simp [loop, hlc, hrc, hcmp], h, hlc, hrc, le_rfl, fun _ => rfl⟩
    | gt =>
      have hlt := (H.gt_iff hSl hSr).1 hcmp
      have hright := rows_doDistinct H hrc h.right
      have hshort : (t.right.doDistinct compare r).rows.length < t.right.rows.length :=
        hright ▸ length_above_lt hr
      refine LoopSpec.of_common { t with right := t.right.doDistinct compare r }
        (by simp [loop, hlc, hrc, hcmp]) (fun x => ?_) le_rfl
        (ih (h.above_right H hrc) (by simp only; omega))
      simp only [common, hright, min_comm (t.left.rows.count x)]
      exact count_above_min (fun y hy => hlt.trans_le (hlle y hy)) x

omit [DecidableEq ρ] in
theorem length_skipLastRows_lt : (s.skipLastRows compare).left.rows.length +
    (s.skipLastRows compare).right.rows.length < s.rounds := by
  have hdrop (child : Child ρ) (a : ρ) :
      (child.doDistinct compare a).rows.length ≤ child.rest.length := by
    rw [doDistinct, rows_getNextRow]
    exact (dropWhile_sublist _).length_le
  unfold skipLastRows rounds
  split
  next l r _ => exact Nat.lt_succ_of_le (Nat.add_le_add (hdrop _ l) (hdrop _ r))
  next => simp

/-- INTERSECT DISTINCT outputs, in order and each once, the rows that both children have. -/
theorem Ready.yields_distinct (H : Orders compare key S)
    (h : (s.skipLastRows compare).Ready key S) :
    ∃ outs, Yields (distinctGetNextRow compare) outs .iterEnd s ∧ outs.Pairwise (key · < key ·) ∧
      ∀ r, r ∈ outs ↔
        r ∈ (s.skipLastRows compare).left.rows ∧ r ∈ (s.skipLastRows compare).right.rows := by
  induction hlen : (s.skipLastRows compare).left.rows.length using Nat.strong_induction_on
    generalizing s with
  | _ len ih =>
  obtain ⟨hend, hnone⟩ | ⟨row, s', hok, hready, hlc, hrc, hshort, hcommon⟩ :=
    h.loopSpec H length_skipLastRows_lt
  · refine ⟨[], hend, .nil, fun r => ?_⟩
    rw [← common_pos, hnone r]
    simp
  have hleft := rows_doDistinct H hlc hready.left
  have hright := rows_doDistinct H hrc hready.right
  obtain ⟨hlmem, hSrow, hlle⟩ := head_spec hready.left hlc
  obtain ⟨hrmem, -, -⟩ := head_spec hready.right hrc
  have hlength : (s'.left.doDistinct compare row).rows.length < len := by
    rw [hleft]
    exact (length_above_lt hlmem).trans_le (hlen ▸ hshort)
  have hnext : Ready key S (skipLastRows compare { s' with lastRows := some (row, row) }) :=
    ⟨s'.left.fetched_doDistinct, s'.right.fetched_doDistinct, hleft.symm ▸ hready.left.above row,
      hright.symm ▸ hready.right.above row⟩
  obtain ⟨outs, hyields, hsorted, houts⟩ := ih _ hlength hnext rfl
  simp only [skipLastRows, hleft, hright, mem_above] at houts
  refine ⟨row :: outs, ⟨_, hok, hyields⟩, ?_, fun r => ?_⟩
  · exact pairwise_cons.2 ⟨fun r hr => ((houts r).1 hr).1.2, hsorted⟩
  rw [← common_pos, hcommon r, common_pos, mem_cons, houts]
  constructor
  · rintro (rfl | ⟨⟨hl, -⟩, hr, -⟩)
    · exact ⟨hlmem, hrmem⟩
    · exact ⟨hl, hr⟩
  rintro ⟨hl, hr⟩
  exact (H.eq_or_lt hSrow (hready.left.mem r hl) (hlle r hl)).imp id
    fun hlt => ⟨⟨hl, hlt⟩, hr, hlt⟩

variable (key S) in
/-- The children are sorted from the next rows on. -/
structure Sorting (s : MergeIntersect ρ) : Prop where
  left : Sorted key S s.left.rest
  right : Sorted key S s.right.rest

/-- INTERSECT ALL outputs a row as often as both children have it. -/
theorem Sorting.yields_all (H : Orders compare key S) (h : s.Sorting key S) :
    ∃ outs, Yields (allGetNextRow compare) outs .iterEnd s ∧
      ∀ r, outs.count r = min (s.left.rest.count r) (s.right.rest.count r) := by
  induction hlen : s.left.rest.length using Nat.strong_induction_on generalizing s with
  | _ len ih =>
  have hl : s.left.getNextRow.rows = s.left.rest := rows_getNextRow _
  have hr : s.right.getNextRow.rows = s.right.rest := rows_getNextRow _
  have hready : Ready key S { s with left := s.left.getNextRow, right := s.right.getNextRow } :=
    ⟨s.left.fetched_getNextRow, s.right.fetched_getNextRow, hl.symm ▸ h.left, hr.symm ▸ h.right⟩
  have hfuel : s.left.getNextRow.rows.length + s.right.getNextRow.rows.length < s.rounds := by
    simp [rounds]
  obtain ⟨hend, hnone⟩ | ⟨row, s', hok, hready', hlc, hrc, hshort, hcommon⟩ :=
    hready.loopSpec H hfuel
  · refine ⟨[], hend, fun r => ?_⟩
    simpa [common] using (hnone r).symm
  have hlrows := rows_eq_cons hlc
  have hrrows := rows_eq_cons hrc
  have hsorting : Sorting key S { s' with lastRows := some (row, row) } :=
    ⟨hready'.left.sublist (by simp [hlrows]), hready'.right.sublist (by simp [hrrows])⟩
  have hlength : s'.left.rest.length < len := by
    simp only [hlrows, hl, length_cons] at hshort
    omega
  obtain ⟨outs, hyields, houts⟩ := ih _ hlength hsorting rfl
  refine ⟨row :: outs, ⟨_, hok, hyields⟩, fun r => ?_⟩
  have hcount := hcommon r
  simp only [common, hl, hr, hlrows, hrrows, count_cons] at hcount
  rw [hcount, count_cons, houts r]
  simp only
  split <;> omega

end MergeIntersect

end Orders

end OceanBase.Sql
