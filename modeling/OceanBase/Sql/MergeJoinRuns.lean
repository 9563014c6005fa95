import OceanBase.Sql.MergeJoin
import OceanBase.Sql.MergeSetRuns

/-!
# What the merge join outputs (`ob_merge_join.cpp`)

Over rows on which the comparisons are those of keys in a linear order (`JoinOrders`), the rows that
a state is still going to join are known: `todo`. Each round takes the row it comes up with out of
them, so a whole run joins what `sqlJoin` says, and outputs the part that meets the other join
conditions.
-/

namespace OceanBase.Sql

open Lib List

section Spec

variable {ρ τ β : Type} [LinearOrder β] (lkey : ρ → β) (rkey : τ → β)

/-! ### The rows of a join -/

variable (left : List ρ)

variable (right : List τ)

/-- The pairs of rows with equal keys. -/
def equalPairs : List (JoinRow ρ τ) :=
  left.flatMap fun l => (right.filter fun r => decide (lkey l = rkey r)).map (.both l)

/-- The left rows no right row is equal to. -/
def unmatchedLeft : List (JoinRow ρ τ) :=
  (left.filter fun l => right.all fun r => decide (lkey l ≠ rkey r)).map .left

/-- The right rows no left row is equal to. -/
def unmatchedRight : List (JoinRow ρ τ) :=
  (right.filter fun r => left.all fun l => decide (lkey l ≠ rkey r)).map .right

variable (preserveLeft preserveRight : Bool)

variable (left : List ρ)

variable (right : List τ)

/-- The rows SQL has for a join without further conditions. -/
def sqlJoin : List (JoinRow ρ τ) :=
  equalPairs lkey rkey left right ++
    (if preserveLeft then unmatchedLeft lkey rkey left right else []) ++
    (if preserveRight then unmatchedRight lkey rkey left right else [])

variable {lkey rkey preserveLeft preserveRight} {L : List ρ} {R : List τ} {l : ρ} {r : τ} in
theorem both_mem_sqlJoin : .both l r ∈ sqlJoin lkey rkey preserveLeft preserveRight L R ↔
    l ∈ L ∧ r ∈ R ∧ lkey l = rkey r := by
  simp [sqlJoin, equalPairs, unmatchedLeft, unmatchedRight]

variable {lkey rkey preserveLeft preserveRight} {L : List ρ} {R : List τ} {l : ρ} in
theorem left_mem_sqlJoin : .left l ∈ sqlJoin lkey rkey preserveLeft preserveRight L R ↔
    preserveLeft = true ∧ l ∈ L ∧ ∀ r ∈ R, lkey l ≠ rkey r := by
  cases preserveLeft <;> simp [sqlJoin, equalPairs, unmatchedLeft, unmatchedRight]

variable {lkey rkey preserveLeft preserveRight} {L : List ρ} {R : List τ} {r : τ} in
theorem right_mem_sqlJoin : .right r ∈ sqlJoin lkey rkey preserveLeft preserveRight L R ↔
    preserveRight = true ∧ r ∈ R ∧ ∀ l ∈ L, lkey l ≠ rkey r := by
  cases preserveRight <;> simp [sqlJoin, equalPairs, unmatchedLeft, unmatchedRight]

theorem equalPairs_nil_right : equalPairs lkey rkey left [] = [] := by
  simp [equalPairs]

/-- The left rows that are output alone. -/
def paddedLeft : Multiset (JoinRow ρ τ) :=
  if preserveLeft then (unmatchedLeft lkey rkey left right : Multiset (JoinRow ρ τ)) else 0

/-- The right rows that are output alone. -/
def paddedRight : Multiset (JoinRow ρ τ) :=
  if preserveRight then (unmatchedRight lkey rkey left right : Multiset (JoinRow ρ τ)) else 0

/-- The rows still to be joined. The first left row meets the rows the iterator of the cache has
before it, the others the whole cache, and all of them the right rows to come. -/
def todo (rest cache right : List τ) (left : List ρ) : Multiset (JoinRow ρ τ) :=
  equalPairs lkey rkey (left.take 1) rest + equalPairs lkey rkey (left.drop 1) cache +
    equalPairs lkey rkey left right + paddedLeft lkey rkey preserveLeft left (cache ++ right) +
    paddedRight lkey rkey preserveRight left right

theorem todo_ofRows :
    todo lkey rkey preserveLeft preserveRight [] [] right left =
      sqlJoin lkey rkey preserveLeft preserveRight left right := by
  simp only [todo, sqlJoin, equalPairs_nil_right, paddedLeft, paddedRight]
  cases preserveLeft <;> cases preserveRight <;> simp

variable {lkey rkey preserveLeft preserveRight} {l : ρ} {r : τ} {left : List ρ}
  {rest cache right : List τ}

theorem equalPairs_cons (l : ρ) (left : List ρ) (right : List τ) :
    equalPairs lkey rkey (l :: left) right =
      equalPairs lkey rkey [l] right ++ equalPairs lkey rkey left right := by
  simp [equalPairs]

theorem equalPairs_take_drop (left : List ρ) (right : List τ) :
    equalPairs lkey rkey (left.take 1) right ++ equalPairs lkey rkey (left.drop 1) right =
      equalPairs lkey rkey left right := by
  rcases left with _ | ⟨l, left⟩
  · rfl
  · exact (equalPairs_cons l left right).symm

theorem equalPairs_eq_nil (h : ∀ l ∈ left, ∀ r ∈ right, lkey l ≠ rkey r) :
    equalPairs lkey rkey left right = [] := by
  simpa [equalPairs] using h

theorem equalPairs_append (right' : List τ) :
    (equalPairs lkey rkey left (right ++ right') : Multiset (JoinRow ρ τ)) =
      equalPairs lkey rkey left right + equalPairs lkey rkey left right' := by
  induction left with
  | nil => rfl
  | cons l left ih =>
    have hone : equalPairs lkey rkey [l] (right ++ right') =
        equalPairs lkey rkey [l] right ++ equalPairs lkey rkey [l] right' := by
      simp [equalPairs]
    rw [equalPairs_cons l left, hone, ← Multiset.coe_add, ih, equalPairs_cons l left right,
      equalPairs_cons l left right']
    simp only [← Multiset.coe_add]
    abel

theorem paddedLeft_cons_of_matched (h : ∃ r ∈ right, lkey l = rkey r) :
    paddedLeft lkey rkey preserveLeft (l :: left) right =
      paddedLeft lkey rkey preserveLeft left right := by
  have hl : (right.all fun r => decide (lkey l ≠ rkey r)) = false := by simpa using h
  simp only [paddedLeft, unmatchedLeft, filter_cons, hl, Bool.false_eq_true, if_false]

theorem paddedLeft_cons_of_unmatched (h : ∀ r ∈ right, lkey l ≠ rkey r) :
    paddedLeft lkey rkey preserveLeft (l :: left) right =
      (if preserveLeft then {.left l} else 0) + paddedLeft lkey rkey preserveLeft left right := by
  have hl : (right.all fun r => decide (lkey l ≠ rkey r)) = true := by simpa using h
  rcases preserveLeft with _ | _
  · rfl
  · simp only [paddedLeft, unmatchedLeft, filter_cons, hl]
    rfl

theorem paddedLeft_congr {right' : List τ}
    (h : ∀ l ∈ left, (∀ r ∈ right, lkey l ≠ rkey r) ↔ ∀ r ∈ right', lkey l ≠ rkey r) :
    paddedLeft lkey rkey preserveLeft left right =
      paddedLeft lkey rkey preserveLeft left right' := by
  have hfilter : unmatchedLeft lkey rkey left right = unmatchedLeft lkey rkey left right' := by
    refine congrArg (List.map JoinRow.left) (filter_congr fun l hl => ?_)
    rw [Bool.eq_iff_iff]
    simpa using h l hl
  simp [paddedLeft, hfilter]

theorem paddedRight_cons_of_matched (h : ∃ l ∈ left, lkey l = rkey r) :
    paddedRight lkey rkey preserveRight left (r :: right) =
      paddedRight lkey rkey preserveRight left right := by
  have hr : (left.all fun l => decide (lkey l ≠ rkey r)) = false := by simpa using h
  simp only [paddedRight, unmatchedRight, filter_cons, hr, Bool.false_eq_true, if_false]

theorem paddedRight_cons_of_unmatched (h : ∀ l ∈ left, lkey l ≠ rkey r) :
    paddedRight lkey rkey preserveRight left (r :: right) =
      (if preserveRight then {.right r} else 0) +
        paddedRight lkey rkey preserveRight left right := by
  have hr : (left.all fun l => decide (lkey l ≠ rkey r)) = true := by simpa using h
  rcases preserveRight with _ | _
  · rfl
  · simp only [paddedRight, unmatchedRight, filter_cons, hr]
    rfl

theorem paddedRight_cons_left (h : ∀ r ∈ right, lkey l ≠ rkey r) :
    paddedRight lkey rkey preserveRight (l :: left) right =
      paddedRight lkey rkey preserveRight left right := by
  have hfilter : unmatchedRight lkey rkey (l :: left) right =
      unmatchedRight lkey rkey left right := by
    refine congrArg (List.map JoinRow.right) (filter_congr fun r hr => ?_)
    simp [h r hr]
  simp [paddedRight, hfilter]

/-! ### What a round takes out -/

theorem todo_cacheRow {c : τ} (h : lkey l = rkey c) :
    todo lkey rkey preserveLeft preserveRight (c :: rest) cache right (l :: left) =
      .both l c ::ₘ todo lkey rkey preserveLeft preserveRight rest cache right (l :: left) := by
  have hpairs : equalPairs lkey rkey [l] (c :: rest) =
      .both l c :: equalPairs lkey rkey [l] rest := by
    simp [equalPairs, h]
  simp [todo, hpairs, ← Multiset.cons_coe]

theorem todo_leave (hcache : ∃ c ∈ cache, lkey l = rkey c) (hright : ∀ r ∈ right, lkey l ≠ rkey r) :
    todo lkey rkey preserveLeft preserveRight [] cache right (l :: left) =
      todo lkey rkey preserveLeft preserveRight cache cache right left := by
  have hmatched : ∃ r ∈ cache ++ right, lkey l = rkey r := by
    obtain ⟨c, hc, heq⟩ := hcache
    exact ⟨c, mem_append_left _ hc, heq⟩
  have hpairs : equalPairs lkey rkey [l] right = [] := equalPairs_eq_nil (by simpa using hright)
  simp only [todo, drop_succ_cons, drop_zero, equalPairs_nil_right, equalPairs_cons l left right,
    hpairs, paddedLeft_cons_of_matched hmatched, paddedRight_cons_left hright]
  rw [← equalPairs_take_drop left cache, ← Multiset.coe_add]
  simp

theorem todo_clear (hrest : ∀ c ∈ rest, c ∈ cache)
    (hcache : ∀ l ∈ left, ∀ c ∈ cache, lkey l ≠ rkey c) :
    todo lkey rkey preserveLeft preserveRight rest cache right left =
      todo lkey rkey preserveLeft preserveRight [] [] right left := by
  have hfirst : equalPairs lkey rkey (left.take 1) rest = [] :=
    equalPairs_eq_nil fun l hl c hc => hcache l (mem_of_mem_take hl) c (hrest c hc)
  have hothers : equalPairs lkey rkey (left.drop 1) cache = [] :=
    equalPairs_eq_nil fun l hl c hc => hcache l (mem_of_mem_drop hl) c hc
  have hpadded : paddedLeft lkey rkey preserveLeft left (cache ++ right) =
      paddedLeft lkey rkey preserveLeft left right := by
    refine paddedLeft_congr fun l hl => ⟨fun h r hr => h r (mem_append_right _ hr), ?_⟩
    intro h r hr
    exact (mem_append.1 hr).elim (hcache l hl r) (h r)
  simp only [todo, hfirst, hothers, equalPairs_nil_right, hpadded, nil_append]

/-- A right row that joins with the left row in hand goes to the cache. -/
theorem todo_join (h : lkey l = rkey r) :
    todo lkey rkey preserveLeft preserveRight [] cache (r :: right) (l :: left) =
      .both l r ::ₘ
        todo lkey rkey preserveLeft preserveRight [] (cache ++ [r]) right (l :: left) := by
  have hpadded : paddedRight lkey rkey preserveRight (l :: left) (r :: right) =
      paddedRight lkey rkey preserveRight (l :: left) right :=
    paddedRight_cons_of_matched ⟨l, mem_cons_self, h⟩
  have hone : equalPairs lkey rkey [l] [r] = [.both l r] := by simp [equalPairs, h]
  have hright : (equalPairs lkey rkey (l :: left) (r :: right) : Multiset (JoinRow ρ τ)) =
      {.both l r} + equalPairs lkey rkey left [r] + equalPairs lkey rkey (l :: left) right := by
    rw [show r :: right = [r] ++ right from rfl, equalPairs_append, equalPairs_cons l left [r],
      hone, ← Multiset.coe_add]
    rfl
  simp only [todo, drop_succ_cons, drop_zero, hpadded, hright, append_assoc, singleton_append,
    equalPairs_append [r], ← Multiset.singleton_add]
  abel

section

variable (h : ∀ r ∈ right, lkey l ≠ rkey r)
include h

theorem todo_leftLess :
    todo lkey rkey preserveLeft preserveRight [] [] right (l :: left) =
      (if preserveLeft then {.left l} else 0) +
        todo lkey rkey preserveLeft preserveRight [] [] right left := by
  have hpairs : equalPairs lkey rkey [l] right = [] := equalPairs_eq_nil (by simpa using h)
  simp only [todo, equalPairs_nil_right, equalPairs_cons l left right, hpairs, nil_append,
    paddedLeft_cons_of_unmatched h, paddedRight_cons_left h]
  abel

theorem todo_padLeft (hleft : preserveLeft = true) :
    todo lkey rkey preserveLeft preserveRight [] [] right (l :: left) =
      .left l ::ₘ todo lkey rkey preserveLeft preserveRight [] [] right left := by
  rw [todo_leftLess h, if_pos hleft, Multiset.singleton_add]

theorem todo_skipLeft (hleft : preserveLeft = false) :
    todo lkey rkey preserveLeft preserveRight [] [] right (l :: left) =
      todo lkey rkey preserveLeft preserveRight [] [] right left := by
  rw [todo_leftLess h, hleft, if_neg Bool.false_ne_true, zero_add]

end

section

variable (h : ∀ l ∈ left, lkey l ≠ rkey r)
include h

theorem todo_rightLess :
    todo lkey rkey preserveLeft preserveRight rest cache (r :: right) left =
      (if preserveRight then {.right r} else 0) +
        todo lkey rkey preserveLeft preserveRight rest cache right left := by
  have hpairs : equalPairs lkey rkey left [r] = [] := equalPairs_eq_nil (by simpa using h)
  have hright : (equalPairs lkey rkey left (r :: right) : Multiset (JoinRow ρ τ)) =
      equalPairs lkey rkey left right := by
    rw [show r :: right = [r] ++ right from rfl, equalPairs_append, hpairs]
    simp
  have hpadded : paddedLeft lkey rkey preserveLeft left (cache ++ r :: right) =
      paddedLeft lkey rkey preserveLeft left (cache ++ right) := by
    refine paddedLeft_congr fun l hl => ?_
    simp only [mem_append, mem_cons]
    exact ⟨fun hall r' hr' => hall r' (hr'.imp id .inr), fun hall r' hr' =>
      hr'.elim (fun hc => hall r' (.inl hc)) fun hr' =>
        hr'.elim (fun heq => heq ▸ h l hl) fun hr' => hall r' (.inr hr')⟩
  simp only [todo, hright, hpadded, paddedRight_cons_of_unmatched h]
  abel

theorem todo_padRight (hright : preserveRight = true) :
    todo lkey rkey preserveLeft preserveRight rest cache (r :: right) left =
      .right r ::ₘ todo lkey rkey preserveLeft preserveRight rest cache right left := by
  rw [todo_rightLess h, if_pos hright, Multiset.singleton_add]

theorem todo_skipRight (hright : preserveRight = false) :
    todo lkey rkey preserveLeft preserveRight rest cache (r :: right) left =
      todo lkey rkey preserveLeft preserveRight rest cache right left := by
  rw [todo_rightLess h, hright, if_neg Bool.false_ne_true, zero_add]

end

theorem todo_right_nil (hleft : left = [] ∨ preserveLeft = false ∧ rest = [] ∧ cache = []) :
    todo lkey rkey preserveLeft preserveRight rest cache [] left = 0 := by
  obtain rfl | ⟨rfl, rfl, rfl⟩ := hleft
  · cases preserveLeft <;> cases preserveRight <;> rfl
  have hpadded : paddedRight lkey rkey preserveRight left ([] : List τ) = 0 := by
    cases preserveRight <;> rfl
  simp [todo, equalPairs_nil_right, hpadded, paddedLeft]

theorem todo_left_nil (hright : preserveRight = false ∨ right = []) :
    todo lkey rkey preserveLeft preserveRight rest cache right [] = 0 := by
  obtain rfl | rfl := hright
  · cases preserveLeft <;> rfl
  · exact todo_right_nil (.inl rfl)

end Spec

/-! ### Rounds on sorted rows -/

section Runs

variable {ρ τ β : Type} [LinearOrder β]

/-- On rows with the properties, the comparisons are those of the keys. -/
structure JoinOrders (compare : ρ → τ → Int) (leftCompare : ρ → ρ → Int) (lkey : ρ → β)
    (rkey : τ → β) (S : ρ → Prop) (T : τ → Prop) : Prop where
  zero_iff : ∀ {l r}, S l → T r → (compare l r = 0 ↔ lkey l = rkey r)
  neg_iff : ∀ {l r}, S l → T r → (compare l r < 0 ↔ lkey l < rkey r)
  left_iff : ∀ {l l'}, S l → S l' → (leftCompare l l' = 0 ↔ lkey l = lkey l')

theorem Sorted.of_cons {σ : Type} {key : σ → β} {P : σ → Prop} {a : σ} {xs : List σ}
    (h : Sorted key P (a :: xs)) : Sorted key P xs :=
  h.sublist (sublist_cons_self a xs)

variable (lkey : ρ → β) (rkey : τ → β) (S : ρ → Prop) (T : τ → Prop)

/-- What the cache holds: nothing, the rows met so far that join with the left row in hand, or, once
valid, all rows that join with the row it was filled for. -/
inductive CachePhase : Bool → Option ρ → List τ → List τ → List τ → List ρ → Prop
  | empty {j : Option ρ} {right : List τ} {left : List ρ} : CachePhase false j [] [] right left
  | filling {j l : ρ} {cache right : List τ} {left : List ρ} (nonempty : cache ≠ [])
      (keys : ∀ c ∈ cache, lkey j = rkey c) (mem : S j) (first : lkey j = lkey l)
      (right_le : ∀ r ∈ right, lkey j ≤ rkey r) :
      CachePhase false (some j) cache cache right (l :: left)
  | valid {j : ρ} {cache rest right : List τ} {left : List ρ} (nonempty : cache ≠ [])
      (keys : ∀ c ∈ cache, lkey j = rkey c) (mem : S j) (left_le : ∀ l ∈ left, lkey j ≤ lkey l)
      (right_lt : ∀ r ∈ right, lkey j < rkey r) (rest_mem : ∀ c ∈ rest, c ∈ cache) :
      CachePhase true (some j) cache rest right left

structure JoinInv (valid iterEnd : Bool) (j : Option ρ) (cache rest right : List τ)
    (left : List ρ) : Prop where
  leftSorted : Sorted lkey S left
  rightSorted : Sorted rkey T right
  atEnd : iterEnd = true → right = [] ∧ (valid = false → cache = [])
  phase : CachePhase lkey rkey S valid j cache rest right left

variable {lkey rkey S T} {valid iterEnd : Bool} {j : Option ρ} {j₀ l : ρ} {c r : τ}
  {cache rest right : List τ} {left : List ρ}

namespace JoinInv

theorem mem_join (h : JoinInv lkey rkey S T true iterEnd (some j₀) cache rest right left) :
    S j₀ := by
  cases h.phase with
  | valid _ _ mem _ _ _ => exact mem

theorem cacheRow
    (h : JoinInv lkey rkey S T true iterEnd (some j₀) cache (c :: rest) right (l :: left))
    (heq : lkey l = lkey j₀) :
    JoinInv lkey rkey S T true iterEnd (some j₀) cache rest right (l :: left) ∧
      lkey l = rkey c := by
  obtain ⟨hleft, hright, hend, hphase⟩ := h
  cases hphase with
  | valid nonempty keys mem left_le right_lt rest_mem =>
    obtain ⟨hc, hrest⟩ := forall_mem_cons.1 rest_mem
    exact ⟨⟨hleft, hright, hend, .valid nonempty keys mem left_le right_lt hrest⟩,
      heq.trans (keys c hc)⟩

theorem cacheEnd (h : JoinInv lkey rkey S T true iterEnd (some j₀) cache rest right (l :: left))
    (heq : lkey l = lkey j₀) :
    JoinInv lkey rkey S T true iterEnd (some j₀) cache cache right left ∧
      (∃ c ∈ cache, lkey l = rkey c) ∧ ∀ r ∈ right, lkey l ≠ rkey r := by
  obtain ⟨hleft, hright, hend, hphase⟩ := h
  cases hphase with
  | valid nonempty keys mem left_le right_lt rest_mem =>
    obtain ⟨c, hc⟩ := exists_mem_of_ne_nil _ nonempty
    refine ⟨⟨hleft.of_cons, hright, hend, .valid nonempty keys mem
      (forall_mem_cons.1 left_le).2 right_lt fun _ => id⟩, ⟨c, hc, heq.trans (keys c hc)⟩, ?_⟩
    exact fun r hr => heq ▸ (right_lt r hr).ne

theorem cacheClear (h : JoinInv lkey rkey S T true iterEnd (some j₀) cache rest right (l :: left))
    (hne : lkey l ≠ lkey j₀) :
    JoinInv lkey rkey S T false iterEnd (some j₀) [] [] right (l :: left) ∧
      (∀ c ∈ rest, c ∈ cache) ∧ ∀ l' ∈ l :: left, ∀ c ∈ cache, lkey l' ≠ rkey c := by
  obtain ⟨hleft, hright, hend, hphase⟩ := h
  cases hphase with
  | valid nonempty keys mem left_le right_lt rest_mem =>
    refine ⟨⟨hleft, hright, fun hiter => ⟨(hend hiter).1, fun _ => rfl⟩, .empty⟩, rest_mem,
      fun l' hl' c hc => ?_⟩
    have hlt : lkey j₀ < lkey l := lt_of_le_of_ne (left_le l mem_cons_self) hne.symm
    rw [← keys c hc]
    exact (hlt.trans_le (hleft.head_le hl')).ne'

theorem not_valid_none
    (h : JoinInv lkey rkey S T true iterEnd none cache rest right left) : False := nomatch h.phase

theorem rest_eq_nil (h : JoinInv lkey rkey S T false iterEnd j [] rest right left) : rest = [] := by
  cases h.phase with
  | empty => rfl
  | filling nonempty _ _ _ _ => exact absurd rfl nonempty

theorem dropLeft (h : JoinInv lkey rkey S T false iterEnd j [] rest right (l :: left)) :
    JoinInv lkey rkey S T false iterEnd j [] rest right left := by
  obtain rfl := h.rest_eq_nil
  exact ⟨h.leftSorted.of_cons, h.rightSorted, h.atEnd, .empty⟩

theorem fillingDone (h : JoinInv lkey rkey S T false iterEnd j cache rest right (l :: left))
    (iterEnd' : Bool) (hcache : cache ≠ [])
    (hright : ∀ r ∈ right, lkey l < rkey r) (hend : iterEnd' = true → right = []) :
    JoinInv lkey rkey S T true iterEnd' j cache cache right left ∧ rest = cache ∧
      ∃ c ∈ cache, lkey l = rkey c := by
  obtain ⟨hleft, hsorted, -, hphase⟩ := h
  cases hphase with
  | empty => exact absurd rfl hcache
  | filling nonempty keys mem first right_le =>
    obtain ⟨c, hc⟩ := exists_mem_of_ne_nil _ nonempty
    refine ⟨⟨hleft.of_cons, hsorted, fun hiter => ⟨hend hiter, by simp⟩, .valid nonempty keys mem
      (fun l' hl' => ?_) (fun r hr => first ▸ hright r hr) fun _ => id⟩, rfl, c, hc,
      first ▸ keys c hc⟩
    exact first ▸ hleft.head_le (mem_cons_of_mem _ hl')

theorem join (h : JoinInv lkey rkey S T false iterEnd j cache rest (r :: right) (l :: left))
    (heq : lkey l = rkey r) :
    JoinInv lkey rkey S T false iterEnd (if cache.isEmpty then some l else j) (cache ++ [r])
      (rest ++ [r]) right (l :: left) := by
  obtain ⟨hleft, hright, hend, hphase⟩ := h
  refine ⟨hleft, hright.of_cons, fun hiter => absurd (hend hiter).1 (by simp), ?_⟩
  have hle : ∀ r' ∈ right, lkey l ≤ rkey r' := fun r' hr' =>
    heq ▸ hright.head_le (mem_cons_of_mem _ hr')
  cases hphase with
  | empty => exact .filling (by simp) (by simp [heq]) (hleft.mem l mem_cons_self) rfl hle
  | @filling j₀ _ _ _ _ nonempty keys mem first right_le =>
    have hisEmpty : cache.isEmpty = false := by simpa using nonempty
    rw [hisEmpty]
    refine .filling (by simp) ?_ mem first fun r' hr' => first ▸ hle r' hr'
    rw [forall_mem_append]
    exact ⟨keys, by simp [first, heq]⟩

variable {leftCompare : ρ → ρ → Int} {compare : ρ → τ → Int}

theorem leftLess (h : JoinInv lkey rkey S T valid iterEnd j cache rest (r :: right) (l :: left))
    (horders : JoinOrders compare leftCompare lkey rkey S T) (hlt : compare l r < 0) :
    ∀ r' ∈ r :: right, lkey l < rkey r' := by
  have hl := h.leftSorted.mem l (by simp)
  have hr := h.rightSorted.mem r (by simp)
  have hkey := (horders.neg_iff hl hr).1 hlt
  exact fun r' hr' => hkey.trans_le (h.rightSorted.head_le hr')

theorem rightLess (h : JoinInv lkey rkey S T valid iterEnd j cache rest (r :: right) (l :: left))
    (horders : JoinOrders compare leftCompare lkey rkey S T) (hgt : 0 < compare l r) :
    ∀ l' ∈ l :: left, rkey r < lkey l' := by
  have hl := h.leftSorted.mem l (by simp)
  have hr := h.rightSorted.mem r (by simp)
  have hne : lkey l ≠ rkey r := mt (horders.zero_iff hl hr).2 (by omega)
  have hle : rkey r ≤ lkey l := not_lt.1 (mt (horders.neg_iff hl hr).2 (by omega))
  exact fun l' hl' => (lt_of_le_of_ne hle hne.symm).trans_le (h.leftSorted.head_le hl')

theorem dropRight (h : JoinInv lkey rkey S T valid iterEnd j cache rest (r :: right) left) :
    JoinInv lkey rkey S T valid iterEnd j cache rest right left := by
  obtain ⟨hleft, hright, hend, hphase⟩ := h
  refine ⟨hleft, hright.of_cons, fun hiter => absurd (hend hiter).1 (by simp), ?_⟩
  cases hphase with
  | empty => exact .empty
  | filling nonempty keys mem first right_le =>
    exact .filling nonempty keys mem first (forall_mem_cons.1 right_le).2
  | valid nonempty keys mem left_le right_lt rest_mem =>
    exact .valid nonempty keys mem left_le (forall_mem_cons.1 right_lt).2 rest_mem

theorem setIterEnd (h : JoinInv lkey rkey S T valid iterEnd j [] rest [] left) :
    JoinInv lkey rkey S T valid true j [] rest [] left :=
  ⟨h.leftSorted, h.rightSorted, fun _ => ⟨rfl, fun _ => rfl⟩, h.phase⟩

end JoinInv

namespace MergeJoin

variable (lkey rkey S T) in
/-- The invariant, read off a state of the operator. -/
def Holds (s : MergeJoin ρ τ) : Prop :=
  JoinInv lkey rkey S T s.rightCacheIsValid s.isRightIterEnd s.lastJoinLeftRow s.rightCache
    s.cacheRest s.rights s.lefts

variable (lkey rkey) in
/-- The rows the state is still going to join. -/
def todo (preserveLeft preserveRight : Bool) (s : MergeJoin ρ τ) : Multiset (JoinRow ρ τ) :=
  Sql.todo lkey rkey preserveLeft preserveRight (if s.rightCacheIsValid then s.cacheRest else [])
    s.rightCache s.rights s.lefts

variable {compare : ρ → τ → Int} {leftCompare : ρ → ρ → Int} {preserveLeft preserveRight : Bool}
    {s s' : MergeJoin ρ τ} {x : JoinRow ρ τ} {right : List τ} {left : List ρ}

theorem Holds.row (horders : JoinOrders compare leftCompare lkey rkey S T)
    (hs : s.Holds lkey rkey S T)
    (h : RoundOf compare leftCompare preserveLeft preserveRight s (.row x s')) :
    s'.Holds lkey rkey S T ∧ s.todo lkey rkey preserveLeft preserveRight =
      x ::ₘ s'.todo lkey rkey preserveLeft preserveRight := by
  unfold Holds at hs
  unfold todo
  cases h with
  | @cacheRow l ls j c rest hl hvalid hj heq hrest =>
    rw [hl, hvalid, hj, hrest] at hs
    have hkey := (horders.left_iff (hs.leftSorted.mem l (by simp)) hs.mem_join).1 heq
    obtain ⟨hs', hc⟩ := hs.cacheRow hkey
    refine ⟨by rwa [← hvalid, ← hj] at hs', ?_⟩
    rw [hl, hvalid, hrest]
    exact todo_cacheRow hc
  | @leftBehind l ls hl hvalid hend hleft =>
    rw [hl, hvalid, hend] at hs
    obtain ⟨hright, hcache⟩ := hs.atEnd rfl
    rw [hcache rfl] at hs
    have hs' := hs.dropLeft
    refine ⟨by rwa [← hvalid, ← hend, ← hcache rfl] at hs', ?_⟩
    rw [hl, hvalid, hcache rfl]
    exact todo_padLeft (by simp [hright]) hleft
  | @join l ls r rs hl hvalid hend hr heq =>
    rw [hl, hvalid, hr] at hs
    have hkey := (horders.zero_iff (hs.leftSorted.mem l (by simp))
      (hs.rightSorted.mem r (by simp))).1 heq
    have hs' := hs.join hkey
    refine ⟨by rwa [← hvalid] at hs', ?_⟩
    rw [hl, hvalid, hr]
    exact todo_join hkey
  | @leftLess l ls r rs hl hvalid hend hr hlt hcache hleft =>
    rw [hl, hvalid, hr, hcache] at hs
    have hless := hs.leftLess horders hlt
    have hs' := hs.dropLeft
    refine ⟨by rwa [← hvalid, ← hcache] at hs', ?_⟩
    rw [hl, hvalid, hr, hcache]
    exact todo_padLeft (fun r hr => (hless r hr).ne) hleft
  | @rightLess l ls r rs hl hvalid hend hr hgt hright =>
    rw [hl, hvalid, hr] at hs
    have hless := hs.rightLess horders hgt
    have hs' := hs.dropRight
    refine ⟨by rwa [← hvalid] at hs', ?_⟩
    rw [hl, hvalid, hr]
    exact todo_padRight (fun l hl => (hless l hl).ne') hright
  | @finish r rs hl hright hend hr =>
    rw [hl, hr] at hs
    have hs' := hs.dropRight
    refine ⟨by rwa [← hl] at hs', ?_⟩
    rw [hr]
    exact todo_padRight (by simp [hl]) hright

theorem Holds.next (horders : JoinOrders compare leftCompare lkey rkey S T)
    (hs : s.Holds lkey rkey S T)
    (h : RoundOf compare leftCompare preserveLeft preserveRight s (.next s')) :
    s'.Holds lkey rkey S T ∧ s.todo lkey rkey preserveLeft preserveRight =
      s'.todo lkey rkey preserveLeft preserveRight := by
  unfold Holds at hs
  unfold todo
  cases h with
  | @cacheEnd l ls j hl hvalid hj heq hrest =>
    rw [hl, hvalid, hj, hrest] at hs
    have hkey := (horders.left_iff (hs.leftSorted.mem l (by simp)) hs.mem_join).1 heq
    obtain ⟨hs', hc, hright⟩ := hs.cacheEnd hkey
    refine ⟨by rwa [← hvalid, ← hj] at hs', ?_⟩
    rw [hl, hvalid, hrest]
    exact todo_leave hc hright
  | @cacheClear l ls j hl hvalid hj hne =>
    rw [hl, hvalid, hj] at hs
    have hkey := mt (horders.left_iff (hs.leftSorted.mem l (by simp)) hs.mem_join).2 hne
    obtain ⟨hs', hrest, hcache⟩ := hs.cacheClear hkey
    refine ⟨by rwa [← hj] at hs', ?_⟩
    rw [hl, hvalid]
    exact todo_clear hrest hcache
  | @rightEnd l ls hl hvalid hend hr hcache hleft =>
    rw [hl, hvalid, hr, hcache] at hs
    refine ⟨?_, by rw [hl]; rfl⟩
    show JoinInv lkey rkey S T s.rightCacheIsValid true s.lastJoinLeftRow s.rightCache s.cacheRest
      s.rights (l :: ls)
    rw [hvalid, hr, hcache]
    exact hs.setIterEnd
  | @rightEndCache l ls hl hvalid hend hr hcache =>
    rw [hl, hvalid] at hs
    obtain ⟨hs', hrest, hc⟩ := hs.fillingDone true hcache (by simp [hr]) fun _ => hr
    refine ⟨?_, ?_⟩
    · rwa [hrest]
    rw [hl, hvalid, hrest]
    exact todo_leave hc (by simp [hr])
  | @leftLessSkip l ls r rs hl hvalid hend hr hlt hcache hleft =>
    rw [hl, hvalid, hr, hcache] at hs
    have hless := hs.leftLess horders hlt
    have hs' := hs.dropLeft
    refine ⟨by rwa [← hvalid, ← hcache] at hs', ?_⟩
    rw [hl, hvalid, hr, hcache]
    exact todo_skipLeft (fun r hr => (hless r hr).ne) hleft
  | @leftLessCache l ls r rs hl hvalid hend hr hlt hcache =>
    rw [hl, hvalid, hr] at hs
    have hless := hs.leftLess horders hlt
    obtain ⟨hs', hrest, hc⟩ := hs.fillingDone s.isRightIterEnd hcache hless fun hiter =>
      (hs.atEnd hiter).1
    refine ⟨?_, ?_⟩
    · rwa [hrest]
    rw [hl, hvalid, hr, hrest]
    exact todo_leave hc fun r hr => (hless r hr).ne
  | @rightLessSkip l ls r rs hl hvalid hend hr hgt hright =>
    rw [hl, hvalid, hr] at hs
    have hless := hs.rightLess horders hgt
    have hs' := hs.dropRight
    refine ⟨by rwa [← hvalid] at hs', ?_⟩
    rw [hl, hvalid, hr]
    exact todo_skipRight (fun l hl => (hless l hl).ne') hright

theorem Holds.stop {e : Ret} (hs : s.Holds lkey rkey S T)
    (h : RoundOf compare leftCompare preserveLeft preserveRight s (.stop e)) :
    e = .iterEnd ∧ s.todo lkey rkey preserveLeft preserveRight = 0 := by
  unfold Holds at hs
  unfold todo
  cases h with
  | cacheFail hl hvalid hj =>
    rw [hvalid, hj] at hs
    exact hs.not_valid_none.elim
  | stopBehind hl hvalid hend hleft =>
    rw [hvalid] at hs
    obtain ⟨hright, hcache⟩ := hs.atEnd hend
    rw [hvalid, hright, hcache rfl]
    exact ⟨rfl, todo_right_nil (.inr ⟨hleft, rfl, rfl⟩)⟩
  | rightEndStop hl hvalid hend hr hcache hleft =>
    rw [hvalid, hr, hcache]
    exact ⟨rfl, todo_right_nil (.inr ⟨hleft, rfl, rfl⟩)⟩
  | finishStop hl hright =>
    rw [hl]
    refine ⟨rfl, todo_left_nil (hright.imp id fun h => h.elim (fun hend => (hs.atEnd hend).1) id)⟩

theorem holds_ofRows (hleft : Sorted lkey S left)
    (hright : Sorted rkey T right) : (ofRows left right).Holds lkey rkey S T :=
  ⟨hleft, hright, fun h => absurd h Bool.false_ne_true, .empty⟩

/-- A run joins the rows SQL joins, and outputs those that pass the test. -/
theorem yields_sqlJoin (horders : JoinOrders compare leftCompare lkey rkey S T)
    (q : JoinRow ρ τ → Bool) (hleft : Sorted lkey S left) (hright : Sorted rkey T right) :
    ∃ outs, Yields ((rounds compare leftCompare preserveLeft preserveRight).pull q) outs .iterEnd
        (ofRows left right) ∧
      outs.Perm ((sqlJoin lkey rkey preserveLeft preserveRight left right).filter q) := by
  have hround := roundOf_round compare leftCompare preserveLeft preserveRight
  have hrun : ∃ outs, Yields ((rounds compare leftCompare preserveLeft preserveRight).pull q) outs
        .iterEnd (ofRows left right) ∧
      (outs : Multiset (JoinRow ρ τ)) = (todo lkey rkey preserveLeft preserveRight
        (ofRows left right)).filter (q · = true) := by
    refine Rounds.yields_of_todo (fun {s x s'} hs h => ?_) (fun {s s'} hs h => ?_)
      (fun {s e} hs h => ?_) (holds_ofRows hleft hright)
    · exact hs.row horders ((show round _ _ _ _ s = _ from h) ▸ hround s)
    · exact hs.next horders ((show round _ _ _ _ s = _ from h) ▸ hround s)
    · exact hs.stop ((show round _ _ _ _ s = _ from h) ▸ hround s)
  obtain ⟨outs, hyields, houts⟩ := hrun
  refine ⟨outs, hyields, Multiset.coe_eq_coe.1 (houts.trans ?_)⟩
  have htodo : todo lkey rkey preserveLeft preserveRight (ofRows left right) =
      sqlJoin lkey rkey preserveLeft preserveRight left right :=
    todo_ofRows lkey rkey preserveLeft preserveRight left right
  rw [htodo, Multiset.filter_coe]
  simp

end MergeJoin

end Runs

/-! ### Rounds on any rows -/

section Pairs

variable {ρ τ : Type} {compare : ρ → τ → Int} {leftCompare : ρ → ρ → Int}
  {preserveLeft preserveRight : Bool} {S : ρ → Prop} {T : τ → Prop}

/-- A joined row is of two rows that compare equal. -/
def JoinRow.Equal (compare : ρ → τ → Int) (S : ρ → Prop) (T : τ → Prop) : JoinRow ρ τ → Prop
  | .both l r => S l ∧ T r ∧ compare l r = 0
  | .left _ => True
  | .right _ => True

namespace MergeJoin

variable (compare S T) in
/-- The rows have the properties, and the cache holds rows equal to the row it was filled for, which
is still in hand while it is filled. -/
structure CacheEqual (s : MergeJoin ρ τ) : Prop where
  lefts : ∀ l ∈ s.lefts, S l
  rights : ∀ r ∈ s.rights, T r
  rest : ∀ c ∈ s.cacheRest, c ∈ s.rightCache
  cache : ∀ c ∈ s.rightCache, T c ∧ ∃ j, s.lastJoinLeftRow = some j ∧ S j ∧ compare j c = 0
  filling : s.rightCacheIsValid = false → s.rightCache ≠ [] →
    s.isRightIterEnd = false ∧ s.lefts.head? = s.lastJoinLeftRow

variable {s s' : MergeJoin ρ τ} {x : JoinRow ρ τ}

theorem CacheEqual.row
    (hequal : ∀ {l j c}, S l → S j → T c → compare j c = 0 → leftCompare l j = 0 → compare l c = 0)
    (hs : s.CacheEqual compare S T)
    (h : RoundOf compare leftCompare preserveLeft preserveRight s (.row x s')) :
    s'.CacheEqual compare S T ∧ x.Equal compare S T := by
  obtain ⟨hlefts, hrights, hrest, hcache, hfilling⟩ := hs
  cases h with
  | @cacheRow l ls j c rest hl hvalid hj heq hrest' =>
    rw [hl] at hlefts hfilling
    rw [hrest', forall_mem_cons] at hrest
    obtain ⟨hc, j', hj', hSj, heq'⟩ := hcache c hrest.1
    obtain rfl : j = j' := Option.some.inj (hj.symm.trans hj')
    have hSl := hlefts l mem_cons_self
    exact ⟨⟨hlefts, hrights, hrest.2, hcache, hfilling⟩, hSl, hc, hequal hSl hSj hc heq' heq⟩
  | @leftBehind l ls hl hvalid hend hleft =>
    rw [hl] at hlefts
    refine ⟨⟨(forall_mem_cons.1 hlefts).2, hrights, hrest, hcache, fun hfalse hne => ?_⟩, trivial⟩
    exact absurd (hend.symm.trans (hfilling hfalse hne).1) (by simp)
  | @join l ls r rs hl hvalid hend hr heq =>
    rw [hl] at hlefts hfilling
    rw [hr, forall_mem_cons] at hrights
    have hSl := hlefts l mem_cons_self
    have hj : (if s.rightCache.isEmpty then some l else s.lastJoinLeftRow) = some l := by
      by_cases hempty : s.rightCache = []
      · simp [hempty]
      · rw [if_neg (by simpa using hempty)]
        exact (hfilling hvalid hempty).2.symm
    refine ⟨⟨hlefts, hrights.2, ?_, ?_, fun _ _ => ⟨hend, hj.symm⟩⟩, hSl, hrights.1, heq⟩
    · exact fun c hc => mem_append.2 ((mem_append.1 hc).imp (hrest c) id)
    intro c hc
    obtain hc | hc := mem_append.1 hc
    · obtain ⟨hTc, j, hj', hSj, heq'⟩ := hcache c hc
      rw [← (hfilling hvalid (List.ne_nil_of_mem hc)).2] at hj'
      exact ⟨hTc, j, hj.trans hj', hSj, heq'⟩
    · obtain rfl := mem_singleton.1 hc
      exact ⟨hrights.1, l, hj, hSl, heq⟩
  | @leftLess l ls r rs hl hvalid hend hr hlt hempty hleft =>
    rw [hl] at hlefts
    rw [hr] at hrights
    exact ⟨⟨(forall_mem_cons.1 hlefts).2, hrights, hrest, hcache,
      fun _ hne => absurd hempty hne⟩, trivial⟩
  | @rightLess l ls r rs hl hvalid hend hr hgt hright =>
    rw [hl] at hlefts hfilling
    rw [hr] at hrights
    exact ⟨⟨hlefts, (forall_mem_cons.1 hrights).2, hrest, hcache, hfilling⟩, trivial⟩
  | @finish r rs hl hright hend hr =>
    rw [hr] at hrights
    exact ⟨⟨hlefts, (forall_mem_cons.1 hrights).2, hrest, hcache, hfilling⟩, trivial⟩

theorem CacheEqual.next (hs : s.CacheEqual compare S T)
    (h : RoundOf compare leftCompare preserveLeft preserveRight s (.next s')) :
    s'.CacheEqual compare S T := by
  obtain ⟨hlefts, hrights, hrest, hcache, hfilling⟩ := hs
  cases h with
  | @cacheEnd l ls j hl hvalid hj heq hrest' =>
    rw [hl] at hlefts
    exact ⟨(forall_mem_cons.1 hlefts).2, hrights, fun _ => id, hcache,
      fun hfalse => absurd (hvalid.symm.trans hfalse) (by simp)⟩
  | @cacheClear l ls j hl hvalid hj hne =>
    rw [hl] at hlefts
    exact ⟨hlefts, hrights, by simp, by simp, fun _ hne => absurd rfl hne⟩
  | @rightEnd l ls hl hvalid hend hr hempty hleft =>
    rw [hl] at hlefts
    exact ⟨hlefts, hrights, hrest, hcache, fun _ hne => absurd hempty hne⟩
  | @rightEndCache l ls hl hvalid hend hr hne =>
    rw [hl] at hlefts
    exact ⟨(forall_mem_cons.1 hlefts).2, hrights, hrest, hcache,
      fun hfalse => absurd hfalse (by simp)⟩
  | @leftLessSkip l ls r rs hl hvalid hend hr hlt hempty hleft =>
    rw [hl] at hlefts
    rw [hr] at hrights
    exact ⟨(forall_mem_cons.1 hlefts).2, hrights, hrest, hcache, fun _ hne => absurd hempty hne⟩
  | @leftLessCache l ls r rs hl hvalid hend hr hlt hne =>
    rw [hl] at hlefts
    rw [hr] at hrights
    exact ⟨(forall_mem_cons.1 hlefts).2, hrights, hrest, hcache,
      fun hfalse => absurd hfalse (by simp)⟩
  | @rightLessSkip l ls r rs hl hvalid hend hr hgt hright =>
    rw [hl] at hlefts hfilling
    rw [hr] at hrights
    exact ⟨hlefts, (forall_mem_cons.1 hrights).2, hrest, hcache, hfilling⟩

/-- Every joined pair is equal under the comparison, if what is equal to a left row with equal
partners has the same partners. -/
theorem equal_of_delivers
    (hequal : ∀ {l j c}, S l → S j → T c → compare j c = 0 → leftCompare l j = 0 → compare l c = 0)
    {q : JoinRow ρ τ → Bool} {left : List ρ} {right : List τ} (hleft : ∀ l ∈ left, S l)
    (hright : ∀ r ∈ right, T r) {outs : List (JoinRow ρ τ)}
    (h : Delivers ((rounds compare leftCompare preserveLeft preserveRight).pull q)
      (ofRows left right) outs s') : ∀ x ∈ outs, x.Equal compare S T := by
  have hround := roundOf_round compare leftCompare preserveLeft preserveRight
  have hinit : (ofRows left right).CacheEqual compare S T :=
    ⟨hleft, hright, by simp [ofRows], by simp [ofRows], by simp [ofRows]⟩
  refine Rounds.forall_of_delivers (fun {s x s'} hs h => ?_) (fun {s s'} hs h => ?_) hinit h
  · exact hs.row hequal ((show round _ _ _ _ s = _ from h) ▸ hround s)
  · exact hs.next ((show round _ _ _ _ s = _ from h) ▸ hround s)

end MergeJoin

end Pairs

end OceanBase.Sql
