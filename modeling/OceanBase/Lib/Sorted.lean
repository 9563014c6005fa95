import Mathlib

/-!
# Increasing lists and predicates that hold up to a point

In a list that increases along a relation, a predicate that passes to smaller elements holds on a
beginning of the list, and one that passes to greater elements holds on an end of it.
-/

namespace Lib

variable {α : Type} {r : α → α → Prop} {p : α → Bool} {l : List α}

/-- What comes before the first element outside is all that is inside. -/
theorem takeWhile_eq_filter (hp : ∀ a b, r a b → p b = true → p a = true) (h : l.Pairwise r) :
    l.takeWhile p = l.filter p := by
  induction l with
  | nil => rfl
  | cons a l ih =>
    rw [List.pairwise_cons] at h
    by_cases ha : p a = true
    · rw [List.takeWhile_cons_of_pos ha, List.filter_cons_of_pos ha, ih h.2]
    · have hnone : ∀ b ∈ l, ¬ p b = true := fun b hb hpb => ha (hp a b (h.1 b hb) hpb)
      rw [List.takeWhile_cons_of_neg ha, List.filter_cons_of_neg ha, List.filter_eq_nil_iff.2 hnone]

/-- The elements before the first one outside. -/
theorem take_findIdx_not_eq_filter (hp : ∀ a b, r a b → p b = true → p a = true)
    (h : l.Pairwise r) : l.take (l.findIdx fun a => !p a) = l.filter p := by
  rw [← takeWhile_eq_filter hp h, List.takeWhile_eq_take_findIdx_not]

end Lib
