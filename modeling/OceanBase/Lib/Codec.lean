import Mathlib

/-!
# Writers into a bounded buffer

A writer is given the room that is left and yields what it appends. `Encodes` says that it appends
just one text whenever there is room for it, and fails otherwise; writers in sequence append the
texts in sequence. `Holds` says that a memory has a text at an offset.
-/

namespace Lib

open List

section Writers

variable {ε β : Type} {e f : Int → Except ε (List β)} {bs cs : List β} {room : Int}

/-- One writer after the other. -/
def andThen (e f : Int → Except ε (List β)) (room : Int) : Except ε (List β) :=
  (e room).bind fun bs => (f (room - bs.length)).map (bs ++ ·)

/-- There is room for the text; an empty one needs none. -/
def Fits (bs : List β) (room : Int) : Prop := bs.length ≤ room ∨ bs = []

/-- The writer appends `bs` if there is room and fails otherwise. -/
def Encodes (e : Int → Except ε (List β)) (bs : List β) : Prop :=
  ∀ room : Int, (Fits bs room → e room = .ok bs) ∧ (¬ Fits bs room → ∃ err, e room = .error err)

theorem encodes_nil {e : Int → Except ε (List β)} (he : ∀ room, e room = .ok []) : Encodes e [] :=
  fun room => ⟨fun _ => he room, fun hroom => absurd (Or.inr rfl) hroom⟩

theorem fits_append : Fits (bs ++ cs) room ↔ Fits bs room ∧ Fits cs (room - bs.length) := by
  rw [Fits, Fits, Fits, length_append, append_eq_nil_iff]
  constructor
  · rintro (hroom | ⟨rfl, rfl⟩)
    · exact ⟨Or.inl (by omega), Or.inl (by omega)⟩
    · exact ⟨Or.inr rfl, Or.inr rfl⟩
  rintro ⟨hbs | rfl, hcs | rfl⟩
  · exact Or.inl (by omega)
  · exact Or.inl (by simpa using hbs)
  · exact Or.inl (by simpa using hcs)
  · exact Or.inr ⟨rfl, rfl⟩

theorem Encodes.andThen (he : Encodes e bs) (hf : Encodes f cs) :
    Encodes (andThen e f) (bs ++ cs) := by
  intro room
  rw [fits_append]
  constructor
  · rintro ⟨hbs, hcs⟩
    rw [Lib.andThen, (he room).1 hbs, Except.bind, (hf _).1 hcs]
    rfl
  intro hroom
  by_cases hbs : Fits bs room
  · obtain ⟨err, herr⟩ := (hf (room - bs.length)).2 fun hcs => hroom ⟨hbs, hcs⟩
    rw [Lib.andThen, (he room).1 hbs, Except.bind, herr]
    exact ⟨err, rfl⟩
  obtain ⟨err, herr⟩ := (he room).2 hbs
  rw [Lib.andThen, herr]
  exact ⟨err, rfl⟩

/-- A check of the room beforehand that asks for no more than is needed. -/
theorem Encodes.guard (he : Encodes e bs) (P : Int → Prop) [DecidablePred P] (err : ε)
    (hP : ∀ room, P room → ¬ Fits bs room) :
    Encodes (fun room => if P room then .error err else e room) bs := by
  intro room
  dsimp only
  constructor
  · intro hroom
    rw [if_neg fun h => hP room h hroom, (he room).1 hroom]
  intro hroom
  by_cases h : P room
  · exact ⟨err, if_pos h⟩
  · rw [if_neg h]
    exact (he room).2 hroom

/-- What a writer appends does not depend on the room. -/
theorem Encodes.eq_of_ok (he : Encodes e bs) (h : e room = .ok cs) : cs = bs := by
  by_cases hroom : Fits bs room
  · rw [(he room).1 hroom] at h
    exact (Except.ok.inj h).symm
  obtain ⟨err, herr⟩ := (he room).2 hroom
  rw [herr] at h
  exact absurd h (by simp)

end Writers

section Memory

variable {β : Type} {mem : Int → β} {pos : Int}

/-- The memory has the text at the offset. -/
def Holds (mem : Int → β) : Int → List β → Prop
  | _, [] => True
  | pos, b :: bs => mem pos = b ∧ Holds mem (pos + 1) bs

theorem holds_append {as bs : List β} :
    Holds mem pos (as ++ bs) ↔ Holds mem pos as ∧ Holds mem (pos + as.length) bs := by
  induction as generalizing pos with
  | nil => simp [Holds]
  | cons a as ih =>
    have hpos : pos + 1 + as.length = pos + ((a :: as).length : Nat) := by
      rw [length_cons]
      omega
    rw [cons_append, Holds, Holds, ih, and_assoc, hpos]

variable {bs : List β}

theorem Holds.map_range (h : Holds mem pos bs) :
    ((List.range bs.length).map fun i : Nat => mem (pos + i)) = bs := by
  induction bs generalizing pos with
  | nil => rfl
  | cons b bs ih =>
    have htail : (fun i : Nat => mem (pos + 1 + i)) = fun i : Nat => mem (pos + (i + 1 : Nat)) := by
      funext i
      congr 1
      omega
    have hbs := ih h.2
    rw [htail] at hbs
    rw [length_cons, range_succ_eq_map, map_cons, map_map]
    refine cons_eq_cons.2 ⟨?_, hbs⟩
    simpa using h.1

theorem Holds.getElem (h : Holds mem pos bs) {i : Nat} (hi : i < bs.length) :
    mem (pos + i) = bs[i] := by
  have hi' : i < ((List.range bs.length).map fun i : Nat => mem (pos + i)).length := by simpa
  have hget := getElem_of_eq h.map_range hi'
  rw [← hget, getElem_map, getElem_range]

theorem holds_of_getElem (h : ∀ (i : Nat) (hi : i < bs.length), mem (pos + i) = bs[i]) :
    Holds mem pos bs := by
  induction bs generalizing pos with
  | nil => trivial
  | cons b bs ih =>
    have hfirst := h 0 (by simp)
    rw [Int.natCast_zero, Int.add_zero, getElem_cons_zero] at hfirst
    refine ⟨hfirst, ih fun i hi => ?_⟩
    have hnext := h (i + 1) (by simpa using hi)
    rw [getElem_cons_succ] at hnext
    rw [← hnext]
    congr 1
    omega

theorem exists_holds [Inhabited β] (pos : Int) (bs : List β) : ∃ mem, Holds mem pos bs := by
  refine ⟨fun i => bs.getD (i - pos).toNat default, holds_of_getElem fun i hi => ?_⟩
  have hoffset : (pos + i - pos).toNat = i := by omega
  rw [hoffset, getD_eq_getElem?_getD, getElem?_eq_getElem hi, Option.getD_some]

end Memory

end Lib
