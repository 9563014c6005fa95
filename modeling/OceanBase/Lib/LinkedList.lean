import Mathlib

/-!
# Linked lists in a heap

A heap is a list of nodes, and the address of a node is its index. Nodes carry a link `next` to
another node. `Seg next h p as q` says that the addresses `as` are the nodes met on the way from
the pointer `p` until the pointer is `q`; with `q = none` the list ends there.

What a program does to such lists is allocation (`Seg.push`), changes to nodes outside of the
segment (`Seg.modify_of_notMem`) and redirecting the link of its last node (`Seg.redirect`).
-/

namespace Lib

open List

namespace LinkedList

section Seg

variable {ν : Type*} (next : ν → Option Nat)

/-- The nodes on the way from a pointer to another. -/
def Seg (h : List ν) : Option Nat → List Nat → Option Nat → Prop
  | p, [], q => p = q
  | p, a :: as, q => p = some a ∧ ∃ n, h[a]? = some n ∧ Seg h (next n) as q

variable {next} {h : List ν} {p q r : Option Nat} {as bs : List Nat} {a : Nat} {f : ν → ν}

@[simp]
theorem seg_nil : Seg next h p [] q ↔ p = q := Iff.rfl

theorem seg_cons : Seg next h p (a :: as) q ↔
    p = some a ∧ ∃ n, h[a]? = some n ∧ Seg next h (next n) as q := Iff.rfl

theorem seg_append : Seg next h p (as ++ bs) r ↔
    ∃ q, Seg next h p as q ∧ Seg next h q bs r := by
  induction as generalizing p with
  | nil => simp
  | cons a as ih =>
    simp only [cons_append, seg_cons, ih]
    constructor
    · rintro ⟨hp, n, hn, q, has, hbs⟩
      exact ⟨q, ⟨hp, n, hn, has⟩, hbs⟩
    · rintro ⟨q, ⟨hp, n, hn, has⟩, hbs⟩
      exact ⟨hp, n, hn, q, has, hbs⟩

theorem seg_append_singleton : Seg next h p (as ++ [a]) q ↔
    Seg next h p as (some a) ∧ ∃ n, h[a]? = some n ∧ next n = q := by
  rw [seg_append]
  constructor
  · rintro ⟨r, has, rfl, n, hn, hq⟩
    exact ⟨has, n, hn, hq⟩
  · rintro ⟨has, n, hn, hq⟩
    exact ⟨some a, has, rfl, n, hn, hq⟩

/-- The nodes of a segment are allocated. -/
theorem Seg.lt_length (hs : Seg next h p as q) (ha : a ∈ as) : a < h.length := by
  induction as generalizing p with
  | nil => cases ha
  | cons b as ih =>
    obtain ⟨-, n, hn, hs⟩ := hs
    rcases mem_cons.1 ha with rfl | ha
    · exact (List.getElem?_eq_some_iff.1 hn).1
    · exact ih hs ha

/-- A segment that meets no node twice is not longer than the heap. -/
theorem Seg.length_le (hs : Seg next h p as q) (hnodup : as.Nodup) : as.length ≤ h.length := by
  have hsub : as ⊆ List.range h.length := fun a ha => mem_range.2 (hs.lt_length ha)
  have hle := (hnodup.subperm hsub).length_le
  rwa [length_range] at hle

/-- A segment stays in a heap with the same links at its nodes. -/
theorem Seg.congr {h' : List ν} (hs : Seg next h p as q)
    (hlinks : ∀ a ∈ as, h'[a]?.map next = h[a]?.map next) : Seg next h' p as q := by
  induction as generalizing p with
  | nil => exact hs
  | cons a as ih =>
    obtain ⟨hp, n, hn, hs⟩ := hs
    have hlink := hlinks a mem_cons_self
    rw [hn, Option.map_some, Option.map_eq_some_iff] at hlink
    obtain ⟨n', hn', hnext⟩ := hlink
    refine ⟨hp, n', hn', ?_⟩
    rw [hnext]
    exact ih hs (forall_mem_cons.1 hlinks).2

theorem Seg.push (hs : Seg next h p as q) (n : ν) : Seg next (h ++ [n]) p as q := by
  refine hs.congr fun a ha => ?_
  rw [getElem?_append_left (hs.lt_length ha)]

theorem Seg.modify_of_notMem (hs : Seg next h p as q) (ha : a ∉ as) :
    Seg next (h.modify a f) p as q := by
  refine hs.congr fun b hb => ?_
  have hab : a ≠ b := fun hab => ha (hab ▸ hb)
  rw [getElem?_modify_ne f h hab]

/-- A change that is not to the links keeps segments. -/
theorem Seg.modify_of_next (hs : Seg next h p as q) (hf : ∀ n, next (f n) = next n) :
    Seg next (h.modify a f) p as q := by
  refine hs.congr fun b _ => ?_
  rw [getElem?_modify]
  rcases h[b]? with _ | n
  · rfl
  simp only [Option.map_eq_map, Option.map_some]
  split
  · rw [hf]
  · rfl

/-- Redirecting the link of the last node redirects the segment. -/
theorem Seg.redirect (hs : Seg next h p (as ++ [a]) q) (ha : a ∉ as)
    (hf : ∀ n, next (f n) = r) : Seg next (h.modify a f) p (as ++ [a]) r := by
  obtain ⟨has, n, hn, -⟩ := seg_append_singleton.1 hs
  refine seg_append_singleton.2 ⟨has.modify_of_notMem ha, f n, ?_, hf n⟩
  rw [getElem?_modify_eq, hn]
  rfl

end Seg

end LinkedList

end Lib
