import Mathlib

/-!
# Runs of a guarded step function

A system is a step function `step : σ → α → Option σ`: an action `a` is enabled in state `s`
when `step s a` is `some`. `run` executes a list of actions, and is `none` as soon as one of them is
not enabled.

`Meets` says that every step of a run satisfies a condition on the state before it and the
action; `run_invariant_of_meets` is the invariant rule for such runs.

Where a state records what happened as a list of events, `Along` states a law of the events, each
against those before it.
-/

namespace Lib

open List

section Run

variable {σ α : Type*} (step : σ → α → Option σ) {as bs : List α} {s s' : σ}

/-- Execute a list of actions; `none` when some action is not enabled. -/
def run : σ → List α → Option σ
  | s, [] => some s
  | s, a :: as => (step s a).bind fun s' => run s' as

@[simp]
theorem run_nil (s : σ) : run step s [] = some s := rfl

theorem run_cons_eq_some {a : α} :
    run step s (a :: as) = some s' ↔ ∃ t, step s a = some t ∧ run step t as = some s' := by
  simp [run, Option.bind_eq_some_iff]

theorem run_append {t : σ} (h : run step s as = some t) :
    run step s (as ++ bs) = run step t bs := by
  induction as generalizing s with
  | nil =>
    cases h
    rfl
  | cons a as ih =>
    obtain ⟨u, hu, h⟩ := (run_cons_eq_some step).1 h
    simp [run, hu, ih h]

/-- Every step of the run satisfies `ok`, a condition on the state before it and its action. -/
def Meets (ok : σ → α → Prop) : σ → List α → Prop
  | _, [] => True
  | s, a :: as => ok s a ∧ ∀ s', step s a = some s' → Meets ok s' as

/-- On a run that can be executed, a condition that can be decided can be decided. -/
instance Meets.decidable {step : σ → α → Option σ} {ok : σ → α → Prop}
    [∀ s a, Decidable (ok s a)] : ∀ (s : σ) (as : List α), Decidable (Meets step ok s as)
  | _, [] => isTrue trivial
  | s, a :: as =>
    match h : step s a with
    | none => decidable_of_iff (ok s a)
      ⟨fun hok => ⟨hok, fun _ hs => nomatch h.symm.trans hs⟩, And.left⟩
    | some t =>
      have : Decidable (Meets step ok t as) := Meets.decidable t as
      decidable_of_iff (ok s a ∧ Meets step ok t as)
        ⟨fun hok => ⟨hok.1, fun _ hs => Option.some.inj (h.symm.trans hs) ▸ hok.2⟩,
          fun hok => ⟨hok.1, hok.2 t h⟩⟩

variable {step} {ok : σ → α → Prop} {Inv P : σ → Prop}

/-- The **invariant rule** for runs whose steps all satisfy `ok`. -/
theorem run_invariant_of_meets (hstep : ∀ s a s', Inv s → ok s a → step s a = some s' → Inv s')
    (hs : Inv s) (hok : Meets step ok s as) (hrun : run step s as = some s') : Inv s' := by
  induction as generalizing s with
  | nil =>
    cases hrun
    exact hs
  | cons a as ih =>
    obtain ⟨t, ht, hrun⟩ := (run_cons_eq_some step).1 hrun
    exact ih (hstep s a t hs hok.1 ht) (hok.2 t ht) hrun

theorem Meets.of_append (h : Meets step ok s (as ++ bs)) :
    Meets step ok s as ∧ ∀ t, run step s as = some t → Meets step ok t bs := by
  induction as generalizing s with
  | nil =>
    refine ⟨trivial, fun t hrun => ?_⟩
    cases hrun
    exact h
  | cons a as ih =>
    refine ⟨⟨h.1, fun u hu => (ih (h.2 u hu)).1⟩, fun t hrun => ?_⟩
    obtain ⟨u, hu, hrun⟩ := (run_cons_eq_some step).1 hrun
    exact (ih (h.2 u hu)).2 t hrun

theorem Meets.append (h : Meets step ok s as)
    (h' : ∀ t, run step s as = some t → Meets step ok t bs) : Meets step ok s (as ++ bs) := by
  induction as generalizing s with
  | nil => exact h' s rfl
  | cons a as ih =>
    refine ⟨h.1, fun u hu => ih (h.2 u hu) fun t ht => ?_⟩
    exact h' t ((run_cons_eq_some step).2 ⟨u, hu, ht⟩)

/-- A condition on actions alone. -/
theorem meets_of_forall (h : ∀ a ∈ as, ∀ s, ok s a) (s : σ) : Meets step ok s as := by
  induction as generalizing s with
  | nil => trivial
  | cons a as ih =>
    exact ⟨h a mem_cons_self s, fun s' _ => ih (forall_mem_cons.1 h).2 s'⟩

theorem meets_true (s : σ) (as : List α) : Meets step (fun _ _ => True) s as :=
  meets_of_forall (fun _ _ _ => trivial) s

/-- The **invariant rule**: what every step preserves, every run preserves. -/
theorem run_invariant (hstep : ∀ s a s', Inv s → step s a = some s' → Inv s') {s s' : σ}
    (hs : Inv s) (hrun : run step s as = some s') : Inv s' :=
  run_invariant_of_meets (fun s a s' h _ => hstep s a s' h) hs (meets_true s as) hrun

/-- A property that each step keeps exactly when the step satisfies `ok` holds after a run
exactly when it held before and every step satisfied `ok`. -/
theorem run_iff_meets (hstep : ∀ s a s', Inv s → step s a = some s' → Inv s')
    (hiff : ∀ s a s', Inv s → step s a = some s' → (P s' ↔ P s ∧ ok s a))
    (hs : Inv s) (hrun : run step s as = some s') : P s' ↔ P s ∧ Meets step ok s as := by
  induction as generalizing s with
  | nil =>
    cases hrun
    simp [Meets]
  | cons a as ih =>
    obtain ⟨t, ht, hrun⟩ := (run_cons_eq_some step).1 hrun
    rw [ih (hstep s a t hs ht) hrun, hiff s a t hs ht]
    simp [Meets, ht, and_assoc]

/-- A property that each step keeps exactly when the step satisfies `ok` holds in **every** state
of a run exactly when every step satisfies `ok`. -/
theorem always_iff_meets (hstep : ∀ s a s', Inv s → step s a = some s' → Inv s')
    (hiff : ∀ s a s', Inv s → P s → step s a = some s' → (P s' ↔ ok s a))
    (hs : Inv s) (hP : P s) (hrun : run step s as = some s') :
    (∀ bs t, bs <+: as → run step s bs = some t → P t) ↔ Meets step ok s as := by
  induction as generalizing s with
  | nil =>
    refine ⟨fun _ => trivial, fun _ bs t hbs ht => ?_⟩
    rw [prefix_nil] at hbs
    subst hbs
    cases ht
    exact hP
  | cons a as ih =>
    obtain ⟨u, hu, hrest⟩ := (run_cons_eq_some step).1 hrun
    constructor
    · intro h
      have hPu : P u := h [a] u (by simp) (by simp [run, hu])
      refine ⟨(hiff s a u hs hP hu).1 hPu, fun t ht => ?_⟩
      cases hu.symm.trans ht
      refine (ih (hstep s a u hs hu) hPu hrest).1 fun bs t hbs ht => ?_
      refine h (a :: bs) t (cons_prefix_cons.2 ⟨rfl, hbs⟩) ?_
      exact (run_cons_eq_some step).2 ⟨u, hu, ht⟩
    rintro ⟨hok, hmeets⟩ bs t hbs ht
    have hPu : P u := (hiff s a u hs hP hu).2 hok
    rcases bs with _ | ⟨b, bs⟩
    · cases ht
      exact hP
    obtain ⟨rfl, hpre⟩ := cons_prefix_cons.1 hbs
    obtain ⟨v, hv, ht⟩ := (run_cons_eq_some step).1 ht
    cases hu.symm.trans hv
    exact (ih (hstep s b u hs hu) hPu hrest).2 (hmeets u hu) bs t hpre ht

end Run

section Trace

variable {ε : Type*} {P Q : List ε → ε → Prop} {es : List ε} {e : ε}

/-- Every event of a trace is in relation `P` with the events before it. -/
def Along (P : List ε → ε → Prop) (es : List ε) : Prop :=
  ∀ past e future, es = past ++ e :: future → P past e

theorem along_nil : Along P [] := by
  intro past e future h
  simp at h

theorem along_concat : Along P (es ++ [e]) ↔ Along P es ∧ P es e := by
  constructor
  · intro h
    refine ⟨fun past f future hes => h past f (future ++ [e]) ?_, h es e [] rfl⟩
    rw [hes, append_assoc, cons_append]
  rintro ⟨h, he⟩ past f future hes
  rcases eq_nil_or_concat' future with rfl | ⟨future, g, rfl⟩
  · obtain ⟨rfl, hf⟩ := append_inj' hes rfl
    cases hf
    exact he
  · rw [← cons_append, ← append_assoc] at hes
    exact h past f future (append_inj' hes rfl).1

theorem Along.imp (h : Along P es) (hPQ : ∀ past, ∀ e ∈ es, P past e → Q past e) : Along Q es := by
  intro past e future hes
  refine hPQ past e ?_ (h past e future hes)
  rw [hes]
  exact mem_append_right _ mem_cons_self

end Trace

end Lib
