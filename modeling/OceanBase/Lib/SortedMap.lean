import Mathlib

/-!
# Sorted lists of pairs

A finite map as a list of pairs with strictly increasing keys. `insertEntry` writes a key. It works
inside one part of a list cut into pieces: the pieces below the key and those above it stay as
they are (`insertEntry_append_of_lt`, `insertEntry_append_of_gt`).
-/

namespace Lib

open List

/-- The keys are strictly increasing. -/
def Sorted {κ ν : Type*} [LT κ] (l : List (κ × ν)) : Prop := l.Pairwise fun a b => a.1 < b.1

section Insert

variable {κ ν : Type*} [LinearOrder κ] {key : κ} {value : ν} {l l₁ l₂ : List (κ × ν)}

/-- The list with the pair of a key replaced, or added at its place. -/
def insertEntry (key : κ) (value : ν) : List (κ × ν) → List (κ × ν)
  | [] => [(key, value)]
  | e :: l =>
    if e.1 < key then e :: insertEntry key value l
    else if e.1 = key then (key, value) :: l
    else (key, value) :: e :: l

variable {e : κ × ν} {k : κ}

theorem insertEntry_cons_of_lt (h : e.1 < key) :
    insertEntry key value (e :: l) = e :: insertEntry key value l := if_pos h

theorem insertEntry_cons_of_eq (h : e.1 = key) :
    insertEntry key value (e :: l) = (key, value) :: l := by
  rw [insertEntry, if_neg (by simp [h]), if_pos h]

theorem insertEntry_of_gt (h : ∀ e ∈ l, key < e.1) :
    insertEntry key value l = (key, value) :: l := by
  rcases l with _ | ⟨e, l⟩
  · rfl
  · have he := h e mem_cons_self
    rw [insertEntry, if_neg he.asymm, if_neg he.ne']

theorem insertEntry_append_of_lt (h : ∀ e ∈ l₁, e.1 < key) :
    insertEntry key value (l₁ ++ l₂) = l₁ ++ insertEntry key value l₂ := by
  induction l₁ with
  | nil => rfl
  | cons e l₁ ih =>
    rw [cons_append, insertEntry_cons_of_lt (h e mem_cons_self),
      ih (forall_mem_cons.1 h).2, cons_append]

theorem insertEntry_append_of_gt (h : ∀ e ∈ l₂, key < e.1) :
    insertEntry key value (l₁ ++ l₂) = insertEntry key value l₁ ++ l₂ := by
  induction l₁ with
  | nil => exact insertEntry_of_gt h
  | cons e l₁ ih =>
    simp only [cons_append, insertEntry, ih]
    split_ifs <;> rfl

theorem lookup_eq_none_of_forall_ne (h : ∀ e ∈ l, e.1 ≠ k) : l.lookup k = none :=
  lookup_eq_none_iff.2 fun e he => by simpa using (h e he).symm

theorem lookup_append_of_lt (h : ∀ e ∈ l₁, e.1 < key) : (l₁ ++ l₂).lookup key = l₂.lookup key := by
  rw [lookup_append, lookup_eq_none_of_forall_ne fun e he => (h e he).ne, Option.none_or]

theorem lookup_append_of_gt (h : ∀ e ∈ l₂, key < e.1) : (l₁ ++ l₂).lookup key = l₁.lookup key := by
  rw [lookup_append, lookup_eq_none_of_forall_ne (l := l₂) fun e he => (h e he).ne', Option.or_none]

/-- Writing a key that is not below the first key keeps the first key. -/
theorem head?_insertEntry (h : (l.head?.map Prod.fst) = some k) (hk : k ≤ key) :
    ((insertEntry key value l).head?.map Prod.fst) = some k := by
  rcases l with _ | ⟨e, l⟩
  · cases h
  obtain rfl : e.1 = k := Option.some.inj h
  obtain hlt | heq := lt_or_eq_of_le hk
  · rw [insertEntry_cons_of_lt hlt]
    rfl
  · rw [insertEntry_cons_of_eq heq]
    exact congrArg some heq.symm

theorem Sorted.first_le (h : Sorted l) (hk : l.head?.map Prod.fst = some k)
    (he : e ∈ l) : k ≤ e.1 := by
  rcases l with _ | ⟨a, l⟩
  · cases hk
  obtain rfl : a.1 = k := Option.some.inj hk
  obtain rfl | he := mem_cons.1 he
  · exact le_refl _
  · exact ((pairwise_cons.1 h).1 e he).le

theorem lookup_cons_eq_ite (k : κ) (e : κ × ν) (l : List (κ × ν)) :
    (e :: l).lookup k = if k = e.1 then some e.2 else l.lookup k := by
  obtain ⟨a, v⟩ := e
  by_cases h : k = a
  · simp [h]
  · rw [lookup_cons, beq_false_of_ne h, if_neg h]

theorem lookup_insertEntry (k : κ) :
    (insertEntry key value l).lookup k = if k = key then some value else l.lookup k := by
  induction l with
  | nil => exact lookup_cons_eq_ite k (key, value) []
  | cons e l ih =>
    rw [insertEntry]
    split_ifs with hlt heq hk <;> grind [lookup_cons_eq_ite]

theorem mem_insertEntry (h : e ∈ insertEntry key value l) : e = (key, value) ∨ e ∈ l := by
  induction l with
  | nil => exact Or.inl (mem_singleton.1 h)
  | cons a l ih =>
    rw [insertEntry] at h
    split_ifs at h <;> grind

theorem Sorted.gt_of_head (h : Sorted (e :: l)) (hgt : key < e.1) : ∀ a ∈ e :: l, key < a.1 :=
  forall_mem_cons.2 ⟨hgt, fun a ha => hgt.trans ((pairwise_cons.1 h).1 a ha)⟩

theorem Sorted.insertEntry (h : Sorted l) : Sorted (insertEntry key value l) := by
  induction l with
  | nil => exact pairwise_singleton _ _
  | cons e l ih =>
    obtain ⟨he, hl⟩ := pairwise_cons.1 h
    obtain hlt | heq | hgt := lt_trichotomy e.1 key
    · rw [insertEntry_cons_of_lt hlt]
      refine pairwise_cons.2 ⟨fun a ha => ?_, ih hl⟩
      obtain rfl | ha := mem_insertEntry ha
      · exact hlt
      · exact he a ha
    · rw [insertEntry_cons_of_eq heq]
      exact pairwise_cons.2 ⟨fun a ha => heq ▸ he a ha, hl⟩
    · rw [insertEntry_of_gt (h.gt_of_head hgt)]
      exact pairwise_cons.2 ⟨h.gt_of_head hgt, h⟩

theorem Sorted.length_insertEntry (h : Sorted l) : (Lib.insertEntry key value l).length =
    if (l.lookup key).isSome then l.length else l.length + 1 := by
  induction l with
  | nil => rfl
  | cons e l ih =>
    obtain hlt | heq | hgt := lt_trichotomy e.1 key
    · rw [insertEntry_cons_of_lt hlt, length_cons, ih (pairwise_cons.1 h).2, lookup_cons_eq_ite,
        if_neg hlt.ne']
      split_ifs <;> rfl
    · rw [insertEntry_cons_of_eq heq, lookup_cons_eq_ite, if_pos heq.symm]
      rfl
    · rw [insertEntry_of_gt (h.gt_of_head hgt),
        lookup_eq_none_of_forall_ne fun a ha => (h.gt_of_head hgt a ha).ne']
      rfl

end Insert

end Lib
