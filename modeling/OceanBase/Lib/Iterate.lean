import Mathlib

/-!
# Calling an iterator until it fails

`next` hands out an element and the next state, or a reason to stop. `Delivers` is what some calls
in a row hand out; `Yields` is what the calls hand out until one fails, and why it does.
-/

namespace Lib

section Iterators

variable {σ ε ω : Type} (next : σ → Except ε (ω × σ))

/-- Calls in a row hand out the elements and lead from one state to the other. -/
def Delivers : σ → List ω → σ → Prop
  | s, [], s' => s = s'
  | s, o :: os, s' => ∃ t, next s = .ok (o, t) ∧ Delivers t os s'

/-- The calls hand out the elements, and then one fails. -/
def Yields : List ω → ε → σ → Prop
  | [], e, s => next s = .error e
  | o :: os, e, s => ∃ t, next s = .ok (o, t) ∧ Yields os e t

variable {next} {s s' s'' : σ} {os os' : List ω} {e e' : ε}

theorem Delivers.append (h : Delivers next s os s') (h' : Delivers next s' os' s'') :
    Delivers next s (os ++ os') s'' := by
  induction os generalizing s with
  | nil =>
    obtain rfl := h
    exact h'
  | cons o os ih =>
    obtain ⟨t, hnext, hrest⟩ := h
    exact ⟨t, hnext, ih hrest⟩

theorem delivers_one {o : ω} (h : next s = .ok (o, s')) : Delivers next s [o] s' := ⟨s', h, rfl⟩

theorem Delivers.yields_iff (h : Delivers next s os s') :
    Yields next (os ++ os') e s ↔ Yields next os' e s' := by
  induction os generalizing s with
  | nil =>
    obtain rfl := h
    rfl
  | cons o os ih =>
    obtain ⟨t, hnext, hrest⟩ := h
    constructor
    · rintro ⟨u, hnext', hyields⟩
      obtain ⟨-, rfl⟩ := Prod.mk.inj (Except.ok.inj (hnext.symm.trans hnext'))
      exact (ih hrest).1 hyields
    · intro hyields
      exact ⟨t, hnext, (ih hrest).2 hyields⟩

theorem Yields.congr (h : Yields next os e s') (hnext : next s = next s') : Yields next os e s := by
  rcases os with _ | ⟨o, os⟩
  · exact hnext.trans h
  · obtain ⟨t, ht, hrest⟩ := h
    exact ⟨t, hnext.trans ht, hrest⟩

/-- Two iterators that agree on the states the second one reaches yield the same. -/
theorem Yields.of_agree {next' : σ → Except ε (ω × σ)} {Inv : σ → Prop}
    (hnext : ∀ s, Inv s → next' s = next s) (hinv : ∀ s o t, Inv s → next s = .ok (o, t) → Inv t)
    (hs : Inv s) (h : Yields next os e s) : Yields next' os e s := by
  induction os generalizing s with
  | nil => exact (hnext s hs).trans h
  | cons o os ih =>
    obtain ⟨t, ht, hrest⟩ := h
    exact ⟨t, (hnext s hs).trans ht, ih (hinv s o t hs ht) hrest⟩

/-- What holds of the element of each call holds of all elements. -/
theorem Yields.forall_mem {p : ω → Prop} (h : Yields next os e s)
    (hp : ∀ s o t, next s = .ok (o, t) → p o) : ∀ o ∈ os, p o := by
  induction os generalizing s with
  | nil => simp
  | cons o os ih =>
    obtain ⟨t, hnext, hrest⟩ := h
    exact List.forall_mem_cons.2 ⟨hp _ _ _ hnext, ih hrest⟩

/-- The calls hand out one sequence and fail for one reason. -/
theorem Yields.unique (h : Yields next os e s) (h' : Yields next os' e' s) : os = os' ∧ e = e' := by
  induction os generalizing s os' with
  | nil =>
    rcases os' with _ | ⟨o', os'⟩
    · exact ⟨rfl, Except.error.inj (h.symm.trans h')⟩
    · obtain ⟨t, hnext, -⟩ := h'
      exact absurd (h.symm.trans hnext) (by simp)
  | cons o os ih =>
    obtain ⟨t, hnext, hrest⟩ := h
    rcases os' with _ | ⟨o', os'⟩
    · exact absurd (hnext.symm.trans h') (by simp)
    obtain ⟨t', hnext', hrest'⟩ := h'
    obtain ⟨rfl, rfl⟩ := Prod.mk.inj (Except.ok.inj (hnext.symm.trans hnext'))
    obtain ⟨rfl, rfl⟩ := ih hrest hrest'
    exact ⟨rfl, rfl⟩

end Iterators

end Lib
