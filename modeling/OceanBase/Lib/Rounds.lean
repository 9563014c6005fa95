import OceanBase.Lib.Iterate

/-!
# Iterators that work in rounds

A call of such an iterator works in rounds until a round comes up with an element that passes a
test, or stops. A rank that falls from round to round makes the call end. If each round takes the
element it comes up with, and nothing else, out of a multiset of elements to come, then all calls
together hand out those of them that pass the test.
-/

namespace Lib

/-- What a round comes to. -/
inductive Round (σ ω ε : Type) where
  | row (x : ω) (s : σ)
  | next (s : σ)
  | stop (e : ε)

/-- Rounds whose rank falls. -/
structure Rounds (σ ω ε κ : Type) [WellFoundedRelation κ] where
  round : σ → Round σ ω ε
  rank : σ → κ
  row_lt : ∀ {s x s'}, round s = .row x s' → WellFoundedRelation.rel (rank s') (rank s)
  next_lt : ∀ {s s'}, round s = .next s' → WellFoundedRelation.rel (rank s') (rank s)

namespace Rounds

section Calls

variable {σ ω ε κ : Type} [WellFoundedRelation κ] (m : Rounds σ ω ε κ) (q : ω → Bool)

/-- Work until an element passes the test. -/
def pull (s : σ) : Except ε (ω × σ) :=
  match _h : m.round s with
  | .row x s' => if q x then .ok (x, s') else pull s'
  | .next s' => pull s'
  | .stop e => .error e
termination_by m.rank s
decreasing_by
  · exact m.row_lt _h
  · exact m.next_lt _h

variable {m q} {s s' : σ} {x : ω} {e : ε}

theorem pull_row (h : m.round s = .row x s') :
    m.pull q s = if q x then .ok (x, s') else m.pull q s' := by
  rw [pull]
  split <;> simp_all

theorem pull_next (h : m.round s = .next s') : m.pull q s = m.pull q s' := by
  rw [pull]
  split <;> simp_all

theorem pull_stop (h : m.round s = .stop e) : m.pull q s = .error e := by
  rw [pull]
  split <;> simp_all

/-- States are handled from the least rank on. -/
theorem rank_induction {P : σ → Prop} (m : Rounds σ ω ε κ)
    (state : ∀ s, (∀ s', WellFoundedRelation.rel (m.rank s') (m.rank s) → P s') → P s) (s : σ) :
    P s :=
  (InvImage.wf m.rank WellFoundedRelation.wf).induction s state

variable {Inv : σ → Prop} {p : ω → Prop}

/-- The calls hand out what is to come and passes the test. -/
theorem yields_of_todo {todo : σ → Multiset ω}
    (hrow : ∀ {s x s'}, Inv s → m.round s = .row x s' → Inv s' ∧ todo s = x ::ₘ todo s')
    (hnext : ∀ {s s'}, Inv s → m.round s = .next s' → Inv s' ∧ todo s = todo s')
    (hstop : ∀ {s e'}, Inv s → m.round s = .stop e' → e' = e ∧ todo s = 0) (hs : Inv s) :
    ∃ outs, Yields (m.pull q) outs e s ∧ (outs : Multiset ω) = (todo s).filter (q · = true) := by
  induction s using m.rank_induction with | state s ih => ?_
  cases hround : m.round s with
  | row x s' =>
    obtain ⟨hs', htodo⟩ := hrow hs hround
    obtain ⟨outs, hyields, houts⟩ := ih s' (m.row_lt hround) hs'
    by_cases hq : q x = true
    · refine ⟨x :: outs, ⟨s', (pull_row hround).trans (if_pos hq), hyields⟩, ?_⟩
      simp [htodo, ← Multiset.cons_coe, houts, hq]
    · refine ⟨outs, hyields.congr ((pull_row hround).trans (if_neg hq)), ?_⟩
      simp [htodo, houts, hq]
  | next s' =>
    obtain ⟨hs', htodo⟩ := hnext hs hround
    obtain ⟨outs, hyields, houts⟩ := ih s' (m.next_lt hround) hs'
    exact ⟨outs, hyields.congr (pull_next hround), htodo ▸ houts⟩
  | stop e' =>
    obtain ⟨rfl, htodo⟩ := hstop hs hround
    exact ⟨[], pull_stop hround, by simp [htodo]⟩

/-- What holds of the element of each round holds of the element of each call. -/
theorem pull_ok (hrow : ∀ {s x s'}, Inv s → m.round s = .row x s' → Inv s' ∧ p x)
    (hnext : ∀ {s s'}, Inv s → m.round s = .next s' → Inv s') (hs : Inv s)
    (h : m.pull q s = .ok (x, s')) : Inv s' ∧ p x := by
  induction s using m.rank_induction with | state s ih => ?_
  cases hround : m.round s with
  | row y t =>
    rw [pull_row hround] at h
    by_cases hq : q y = true
    · rw [if_pos hq] at h
      obtain ⟨rfl, rfl⟩ := Prod.mk.inj (Except.ok.inj h)
      exact hrow hs hround
    · rw [if_neg hq] at h
      exact ih t (m.row_lt hround) (hrow hs hround).1 h
  | next t => exact ih t (m.next_lt hround) (hnext hs hround) (pull_next hround ▸ h)
  | stop e' => exact absurd ((pull_stop hround).symm.trans h) (by simp)

theorem forall_of_delivers (hrow : ∀ {s x s'}, Inv s → m.round s = .row x s' → Inv s' ∧ p x)
    (hnext : ∀ {s s'}, Inv s → m.round s = .next s' → Inv s') (hs : Inv s) {outs : List ω}
    (h : Delivers (m.pull q) s outs s') : ∀ x ∈ outs, p x := by
  induction outs generalizing s with
  | nil => simp
  | cons o outs ih =>
    obtain ⟨t, hpull, hrest⟩ := h
    obtain ⟨ht, ho⟩ := pull_ok hrow hnext hs hpull
    exact List.forall_mem_cons.2 ⟨ho, ih ht hrest⟩

end Calls

end Rounds

end Lib
