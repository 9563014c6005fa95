import Mathlib

/-!
# Association lists

A finite map as a list of pairs without a key twice. `List.lookup` reads it, `insertKey` writes a
key, and `eraseKey` removes one. The lemmas say what a lookup finds behind each.
-/

namespace Lib

open List

variable {κ ν : Type*} [DecidableEq κ] {k k' : κ} {v : ν} {l : List (κ × ν)}

/-- The list without the first pair of a key. -/
def eraseKey (k : κ) (l : List (κ × ν)) : List (κ × ν) := l.eraseP fun e => e.1 == k

theorem lookup_eq_none_iff_not_mem : l.lookup k = none ↔ k ∉ l.map Prod.fst := by
  rw [lookup_eq_none_iff]
  constructor
  · rintro h hmem
    obtain ⟨e, he, rfl⟩ := mem_map.1 hmem
    simpa using h e he
  intro h e he
  simp only [bne_iff_ne]
  rintro rfl
  exact h (mem_map_of_mem he)

theorem mem_of_lookup_eq_some (h : l.lookup k = some v) : (k, v) ∈ l := by
  obtain ⟨l₁, l₂, rfl, -⟩ := lookup_eq_some_iff.1 h
  exact mem_append_right _ mem_cons_self

theorem lookup_concat_self (h : l.lookup k = none) : (l ++ [(k, v)]).lookup k = some v := by
  rw [lookup_append, h, lookup_cons_self]
  rfl

theorem lookup_concat_of_ne (h : k' ≠ k) : (l ++ [(k, v)]).lookup k' = l.lookup k' := by
  have hne : (k' == k) = false := by simpa using h
  rw [lookup_append, lookup_cons, hne]
  simp

omit [DecidableEq κ] in
theorem nodup_concat (h : (l.map Prod.fst).Nodup) (hk : k ∉ l.map Prod.fst) :
    ((l ++ [(k, v)]).map Prod.fst).Nodup := by
  rw [map_append, map_singleton, nodup_append]
  refine ⟨h, nodup_singleton _, fun a ha b hb heq => hk ?_⟩
  have hbk : b = k := mem_singleton.1 hb
  rwa [← hbk, ← heq]

theorem eraseKey_cons_self : eraseKey k ((k, v) :: l) = l := by
  simp [eraseKey]

theorem eraseKey_cons_of_ne {e : κ × ν}
    (h : e.1 ≠ k) : eraseKey k (e :: l) = e :: eraseKey k l := by
  simp [eraseKey, h]

theorem lookup_eraseKey_of_ne (h : k' ≠ k) : (eraseKey k l).lookup k' = l.lookup k' := by
  induction l with
  | nil => rfl
  | cons e l ih =>
    obtain ⟨a, b⟩ := e
    by_cases ha : a = k
    · subst ha
      have hne : (k' == a) = false := by simpa using h
      rw [eraseKey_cons_self, lookup_cons, hne]
    · rw [eraseKey_cons_of_ne ha, lookup_cons, lookup_cons, ih]

theorem nodup_eraseKey (h : (l.map Prod.fst).Nodup) : ((eraseKey k l).map Prod.fst).Nodup :=
  h.sublist (eraseP_sublist.map _)

theorem lookup_eraseKey_self (h : (l.map Prod.fst).Nodup) : (eraseKey k l).lookup k = none := by
  induction l with
  | nil => rfl
  | cons e l ih =>
    obtain ⟨a, b⟩ := e
    obtain ⟨hnot, hnodup⟩ := nodup_cons.1 h
    by_cases ha : a = k
    · subst ha
      rw [eraseKey_cons_self]
      exact lookup_eq_none_iff_not_mem.2 hnot
    have hne : (k == a) = false := by simpa using Ne.symm ha
    rw [eraseKey_cons_of_ne ha, lookup_cons, hne]
    exact ih hnodup

theorem length_eraseKey (h : l.lookup k = some v) : (eraseKey k l).length + 1 = l.length := by
  have hmem : k ∈ l.map Prod.fst := by
    by_contra hnot
    rw [lookup_eq_none_iff_not_mem.2 hnot] at h
    cases h
  obtain ⟨e, he, rfl⟩ := mem_map.1 hmem
  rw [eraseKey, length_eraseP_of_mem he (by simp)]
  have := length_pos_of_mem he
  omega

theorem eraseKey_of_lookup_eq_none (h : l.lookup k = none) : eraseKey k l = l := by
  refine eraseP_of_forall_not fun e he hek => ?_
  rw [lookup_eq_none_iff] at h
  simpa [beq_iff_eq.1 hek] using h e he

/-- The list with the pair of a key replaced, or added. -/
def insertKey (k : κ) (v : ν) (l : List (κ × ν)) : List (κ × ν) := (k, v) :: eraseKey k l

theorem lookup_insertKey_self : (insertKey k v l).lookup k = some v := lookup_cons_self

theorem lookup_insertKey_of_ne (h : k' ≠ k) : (insertKey k v l).lookup k' = l.lookup k' := by
  have hne : (k' == k) = false := by simpa using h
  rw [insertKey, lookup_cons, hne]
  exact lookup_eraseKey_of_ne h

theorem nodup_insertKey (h : (l.map Prod.fst).Nodup) : ((insertKey k v l).map Prod.fst).Nodup :=
  nodup_cons.2 ⟨lookup_eq_none_iff_not_mem.1 (lookup_eraseKey_self h), nodup_eraseKey h⟩

theorem length_insertKey (h : l.lookup k = none) : (insertKey k v l).length = l.length + 1 := by
  rw [insertKey, eraseKey_of_lookup_eq_none h, length_cons]

end Lib
