import OceanBase.Common.Define

/-!
# The wait queue (`ob_wait_queue.h`)

A ring of slots in which requests are registered, marked done in any order, and popped in the order
of their registration. A slot is used again a round later, and its `wait_seq_` tells the rounds
apart: it is `seq` while the slot waits for registration `seq`, `seq + 1` when that is registered,
`seq + 2` when it is done, and `seq + len` once it was popped.

Every operation runs under the lock of the slot it looks at, and those that move `push_` or `pop_`
under the queue's lock as well, so each is one step. `Holds` relates a queue to the registrations
that are under way.
-/

namespace OceanBase.Common

open List Nat

/-! ### The code -/

/-- `ObWaitQueue::Item`. -/
structure WaitItem (δ : Type*) where
  waitSeq : Nat
  data : δ

/-- `ObWaitQueue` with its `ObFixedArray` of slots. -/
structure WaitQueue (δ : Type*) where
  items : Nat → WaitItem δ
  posMask : Nat
  push : Nat
  pop : Nat

/-- `REGISTERED`. -/
def waitRegistered : Nat := 1

/-- `DONE`. -/
def waitDone : Nat := 2

def minArrayLen : Nat := 32

namespace WaitQueue

variable {δ : Type*}

section Code

/-- `init`; a new item holds a default value. -/
def init (len : Nat) (d : δ) : Except Ret (WaitQueue δ) :=
  if len < minArrayLen ∨ (len - 1) &&& len ≠ 0 then .error .invalidArgument
  else .ok ⟨fun i => ⟨i, d⟩, len - 1, 0, 0⟩

variable (q : WaitQueue δ)

/-- `ObFixedArray::len`. -/
def len : Nat := q.posMask + 1

/-- `ObFixedArray::get`. -/
def get (seq : Nat) : WaitItem δ := q.items (seq &&& q.posMask)

def set (seq : Nat) (item : WaitItem δ) : WaitQueue δ :=
  { q with items := Function.update q.items (seq &&& q.posMask) item }

/-- `push`: the number of the registration. -/
def pushData (d : δ) : WaitQueue δ × Except Ret Nat :=
  if (q.get q.push).waitSeq ≠ q.push then (q, .error .eAgain)
  else ({ q.set q.push ⟨q.push + waitRegistered, d⟩ with push := q.push + 1 }, .ok q.push)

/-- `done`; `finish` is the data's own `done`. -/
def doneSeq (finish : δ → δ) (seq : Nat) : WaitQueue δ × Except Ret δ :=
  let item := q.get seq
  if item.waitSeq > seq + waitRegistered then (q, .error .alreadyDone)
  else if item.waitSeq < seq + waitRegistered then (q, .error .errUnexpected)
  else (q.set seq ⟨seq + waitDone, finish item.data⟩, .ok (finish item.data))

/-- `pop`: the number and the data of the registration, and whether it is given up. `finish` is
the data's own `done` with `OB_PROCESS_TIMEOUT`. -/
def popData (isTimeout : δ → Bool) (finish : δ → δ) :
    WaitQueue δ × Except Ret (Nat × δ × Bool) :=
  let item := q.get q.pop
  let next := fun d => { q.set q.pop ⟨q.pop + q.len, d⟩ with pop := q.pop + 1 }
  if q.pop + waitDone = item.waitSeq then (next item.data, .ok (q.pop, item.data, false))
  else if q.pop + waitRegistered = item.waitSeq ∧ isTimeout item.data then
    (next (finish item.data), .ok (q.pop, finish item.data, true))
  else (q, .error .eAgain)

end Code

/-! ### The registrations under way -/

theorem and_pred_eq_mod {n : Nat} (hpos : 0 < n) (hpow : (n - 1) &&& n = 0) (seq : Nat) :
    seq &&& (n - 1) = seq % n := by
  -- above a power of two, the leading bit of `n` and `n - 1` is the same
  have hlog : n = 2 ^ n.log2 := by
    by_contra hne
    have hle := Nat.log2_self_le (Nat.pos_iff_ne_zero.1 hpos)
    have hlt := Nat.lt_log2_self (n := n)
    have hbit : (n - 1).testBit n.log2 = true :=
      Nat.testBit_of_two_pow_le_and_two_pow_add_one_gt (by omega) (by omega)
    have hbit' : n.testBit n.log2 = true := Nat.testBit_log2 (Nat.pos_iff_ne_zero.1 hpos)
    have hand := Nat.testBit_and (n - 1) n n.log2
    rw [hpow, hbit, hbit'] at hand
    simp at hand
  rw [hlog]
  exact Nat.and_two_pow_sub_one_eq_mod seq n.log2

section Holds

variable {q : WaitQueue δ} {live : List (δ × Bool)} {len : Nat}

/-- The queue holds the registrations `live`, the oldest first, each with its data and whether it
is done. The slots behind them wait for the next numbers. -/
structure Holds (q : WaitQueue δ) (live : List (δ × Bool)) : Prop where
  index : ∀ seq, seq &&& q.posMask = seq % q.len
  len_ge : minArrayLen ≤ q.len
  push_eq : q.push = q.pop + live.length
  length_le : live.length ≤ q.len
  item : ∀ j r, live[j]? = some r →
    q.get (q.pop + j) = ⟨q.pop + j + (if r.2 then waitDone else waitRegistered), r.1⟩
  free : ∀ j, live.length ≤ j → j < q.len → (q.get (q.pop + j)).waitSeq = q.pop + j

theorem holds_init {d : δ} (h : init len d = .ok q) : q.Holds [] := by
  unfold init at h
  split_ifs at h with hlen
  cases h
  obtain ⟨hmin, hpow⟩ := not_or.1 hlen
  have hpos : 0 < len := by
    have : minArrayLen = 32 := rfl
    omega
  have hlen : ∀ items push pop, (⟨items, len - 1, push, pop⟩ : WaitQueue δ).len = len := by
    intro items push pop
    show len - 1 + 1 = len
    omega
  refine ⟨fun seq => ?_, ?_, rfl, zero_le _, nofun, fun j _ hj => ?_⟩
  · rw [hlen]
    exact and_pred_eq_mod hpos (not_not.1 hpow) seq
  · rw [hlen]
    omega
  rw [hlen] at hj
  show (0 + j) &&& (len - 1) = 0 + j
  rw [and_pred_eq_mod hpos (not_not.1 hpow), zero_add, mod_eq_of_lt hj]

theorem pop_init {d : δ} (h : init len d = .ok q) : q.pop = 0 := by
  unfold init at h
  split_ifs at h
  cases h
  rfl

theorem slot_inj {i j : Nat} (h : i % len = j % len) (hij : i < j + len) (hji : j < i + len) :
    i = j :=
  Nat.ModEq.eq_of_abs_lt h (abs_lt.2 ⟨by omega, by omega⟩)

theorem get_set_of_slot_eq {a b : Nat} {item : WaitItem δ}
    (h : a &&& q.posMask = b &&& q.posMask) : (q.set b item).get a = item := by
  show Function.update q.items (b &&& q.posMask) item (a &&& q.posMask) = item
  rw [h, Function.update_self]

theorem get_set_self (seq : Nat) (item : WaitItem δ) : (q.set seq item).get seq = item :=
  get_set_of_slot_eq rfl

theorem Holds.get_set_of_ne (h : q.Holds live) {a b : Nat} (hne : a ≠ b) (hab : a < b + q.len)
    (hba : b < a + q.len) (item : WaitItem δ) : (q.set b item).get a = q.get a := by
  show Function.update q.items (b &&& q.posMask) item (a &&& q.posMask) = q.items (a &&& q.posMask)
  refine Function.update_of_ne (fun heq => hne ?_) ..
  rw [h.index, h.index] at heq
  exact slot_inj heq hab hba

theorem exists_offset (q : WaitQueue δ) (seq : Nat) :
    ∃ j, j < q.len ∧ (q.pop + j) % q.len = seq % q.len := by
  have hlen : 0 < q.len := succ_pos _
  refine ⟨(seq + (q.len - q.pop % q.len)) % q.len, mod_lt _ hlen, ?_⟩
  have hlt := mod_lt q.pop hlen
  have hdiv := div_add_mod q.pop q.len
  rw [add_mod_mod]
  have hsum : q.pop + (seq + (q.len - q.pop % q.len)) = seq + q.len * (q.pop / q.len + 1) := by
    rw [mul_succ]
    omega
  rw [hsum, add_mul_mod_self_left]

section

variable (h : q.Holds live)
include h

theorem Holds.waitSeq_cases (seq : Nat) :
    (∃ j r, live[j]? = some r ∧ (q.pop + j) % q.len = seq % q.len ∧
      q.get seq = ⟨q.pop + j + (if r.2 then waitDone else waitRegistered), r.1⟩) ∨
    (q.get seq).waitSeq % q.len = seq % q.len := by
  obtain ⟨j, hj, hmod⟩ := q.exists_offset seq
  have hget : q.get seq = q.get (q.pop + j) := by
    rw [get, get, h.index, h.index, hmod]
  rw [hget]
  rcases hr : live[j]? with _ | r
  · right
    rw [h.free j (List.getElem?_eq_none_iff.1 hr) hj, hmod]
  · exact .inl ⟨j, r, hr, hmod, h.item j r hr⟩

/-- The slot behind the registrations, when the round is full, is the one of the oldest. -/
theorem Holds.get_push_of_full (hfull : live.length = q.len) :
    (q.get q.push).waitSeq ≠ q.push := by
  have hmin : minArrayLen = 32 := rfl
  have hlen := h.len_ge
  obtain ⟨r, hr⟩ : ∃ r, live[0]? = some r := ⟨_, getElem?_eq_getElem (by omega)⟩
  have hget : q.get q.push = q.get (q.pop + 0) := by
    rw [get, get, h.index, h.index, h.push_eq, hfull, add_mod_right, add_zero]
  rw [hget, h.item 0 r hr, h.push_eq, hfull]
  show q.pop + 0 + _ ≠ _
  have hdone : waitDone = 2 := rfl
  have hreg : waitRegistered = 1 := rfl
  split_ifs <;> omega

/-- **`push`** appends a registration, unless the round is full. -/
theorem Holds.push_spec (d : δ) :
    (q.pushData d = (q, .error .eAgain)) ∨
    ∃ q', q.pushData d = (q', .ok q.push) ∧ q'.Holds (live ++ [(d, false)]) ∧ q'.pop = q.pop := by
  by_cases hfull : live.length = q.len
  · left
    rw [pushData, if_pos (h.get_push_of_full hfull)]
  right
  have hlt : live.length < q.len := lt_of_le_of_ne h.length_le hfull
  have hfree : (q.get q.push).waitSeq = q.push := by
    rw [h.push_eq]
    exact h.free _ (le_refl _) hlt
  have hpush := h.push_eq
  refine ⟨{ q.set q.push ⟨q.push + waitRegistered, d⟩ with push := q.push + 1 },
    by rw [pushData, if_neg (not_not.2 hfree)], ?_, rfl⟩
  refine ⟨h.index, h.len_ge, ?_, ?_, fun j r hr => ?_, fun j hj hjlen => ?_⟩
  · show q.push + 1 = q.pop + (live ++ [(d, false)]).length
    rw [length_append, length_singleton]
    omega
  · rwa [length_append]
  · show (q.set q.push _).get (q.pop + j) = _
    by_cases hj : j = live.length
    · subst hj
      rw [getElem?_concat_length] at hr
      cases hr
      show _ = (⟨q.pop + live.length + waitRegistered, d⟩ : WaitItem δ)
      rw [← hpush]
      exact get_set_self ..
    have hjlt : j < live.length := by
      have := (List.getElem?_eq_some_iff.1 hr).1
      rw [length_append, length_singleton] at this
      omega
    rw [getElem?_append_left hjlt] at hr
    rw [h.get_set_of_ne (by omega) (by omega) (by omega)]
    exact h.item j r hr
  · rw [length_append, length_singleton] at hj
    show ((q.set q.push _).get (q.pop + j)).waitSeq = _
    replace hjlen : j < q.len := hjlen
    rw [h.get_set_of_ne (by omega) (by omega) (by omega)]
    exact h.free j (by omega) hjlen

/-- **`done`** reaches the registration of its number, if that is under way and not done, and no
other. -/
theorem Holds.done_spec (finish : δ → δ) (seq : Nat) :
    (∃ err, q.doneSeq finish seq = (q, .error err)) ∨
    ∃ q' j d, seq = q.pop + j ∧ live[j]? = some (d, false) ∧
      q.doneSeq finish seq = (q', .ok (finish d)) ∧ q'.Holds (live.set j (finish d, true)) ∧
      q'.pop = q.pop := by
  have hmin : minArrayLen = 32 := rfl
  have hdone : waitDone = 2 := rfl
  have hreg : waitRegistered = 1 := rfl
  have hlen := h.len_ge
  by_cases hseq : (q.get seq).waitSeq = seq + waitRegistered
  swap
  · left
    rw [doneSeq]
    rcases lt_or_gt_of_ne hseq with hlt | hgt
    · exact ⟨_, by rw [if_neg (by omega), if_pos hlt]⟩
    · exact ⟨_, by rw [if_pos hgt]⟩
  right
  rcases h.waitSeq_cases seq with ⟨j, ⟨d, b⟩, hr, hmod, hget⟩ | hmod
  swap
  · -- a slot that waits for its number does not have the tag of a registration
    have := slot_inj hmod (by omega) (by omega)
    omega
  -- the tag is that of the number itself
  rw [hget] at hseq
  have heq : seq = q.pop + j ∧ b = false := by
    rcases b with _ | _
    · simp only [Bool.false_eq_true, if_false] at hseq
      exact ⟨by omega, rfl⟩
    simp only [if_true] at hseq
    have := slot_inj hmod (by omega) (by omega)
    omega
  obtain ⟨rfl, rfl⟩ := heq
  have hj : j < live.length := (List.getElem?_eq_some_iff.1 hr).1
  have hle := h.length_le
  refine ⟨q.set (q.pop + j) ⟨q.pop + j + waitDone, finish d⟩, j, d, rfl, hr, ?_, ?_, rfl⟩
  · rw [doneSeq, hget]
    simp
  refine ⟨h.index, h.len_ge, ?_, ?_, fun i r hi => ?_, fun i hi hilen => ?_⟩
  · rw [length_set]
    exact h.push_eq
  · rw [length_set]
    exact h.length_le
  · show (q.set (q.pop + j) _).get (q.pop + i) = _
    by_cases hij : i = j
    · subst hij
      rw [getElem?_set_self hj] at hi
      cases hi
      exact get_set_self ..
    rw [getElem?_set_ne (Ne.symm hij)] at hi
    have hilt := (List.getElem?_eq_some_iff.1 hi).1
    rw [h.get_set_of_ne (by omega) (by omega) (by omega)]
    exact h.item i r hi
  · rw [length_set] at hi
    replace hilen : i < q.len := hilen
    show ((q.set (q.pop + j) _).get (q.pop + i)).waitSeq = _
    rw [h.get_set_of_ne (by omega) (by omega) (by omega)]
    exact h.free i hi hilen

end

theorem Holds.popped {r : δ × Bool} {rest : List (δ × Bool)} (h : q.Holds (r :: rest)) (d : δ) :
    Holds { q.set q.pop ⟨q.pop + q.len, d⟩ with pop := q.pop + 1 } rest := by
  have hlen := h.length_le
  have hpush := h.push_eq
  rw [length_cons] at hlen hpush
  refine ⟨h.index, h.len_ge, ?_, ?_, fun j r hr => ?_, fun j hj hjlen => ?_⟩
  · show q.push = q.pop + 1 + rest.length
    omega
  · show rest.length ≤ q.len
    omega
  · have hj := (List.getElem?_eq_some_iff.1 hr).1
    show (q.set q.pop _).get (q.pop + 1 + j) = ⟨q.pop + 1 + j + _, _⟩
    rw [h.get_set_of_ne (by omega) (by omega) (by omega), add_assoc, add_comm 1 j]
    exact h.item (j + 1) r hr
  replace hjlen : j < q.len := hjlen
  show ((q.set q.pop _).get (q.pop + 1 + j)).waitSeq = q.pop + 1 + j
  by_cases hlast : 1 + j = q.len
  · -- the slot that was freed, a round later
    have hslot : (q.pop + 1 + j) &&& q.posMask = q.pop &&& q.posMask := by
      rw [h.index, h.index, add_assoc, hlast, add_mod_right]
    rw [get_set_of_slot_eq hslot, add_assoc, hlast]
  · rw [h.get_set_of_ne (by omega) (by omega) (by omega), add_assoc, add_comm 1 j]
    exact h.free (j + 1) (by rw [length_cons]; omega) (by omega)

/-- **`pop`** takes the oldest registration out when it is done or given up. -/
theorem Holds.pop_spec (h : q.Holds live) (isTimeout : δ → Bool) (finish : δ → δ) :
    q.popData isTimeout finish = (q, .error .eAgain) ∨
    (∃ q' d rest, live = (d, true) :: rest ∧
      q.popData isTimeout finish = (q', .ok (q.pop, d, false)) ∧ q'.Holds rest ∧
      q'.pop = q.pop + 1) ∨
    ∃ q' d rest, live = (d, false) :: rest ∧ isTimeout d = true ∧
      q.popData isTimeout finish = (q', .ok (q.pop, finish d, true)) ∧ q'.Holds rest ∧
      q'.pop = q.pop + 1 := by
  have hdone : waitDone = 2 := rfl
  have hreg : waitRegistered = 1 := rfl
  rcases live with _ | ⟨r, rest⟩
  · left
    have hfree : (q.get q.pop).waitSeq = q.pop := h.free 0 (le_refl _) (succ_pos _)
    rw [popData, hfree, if_neg (by omega), if_neg (by omega)]
  obtain ⟨d, b⟩ := r
  have hitem : q.get q.pop = ⟨q.pop + (if b then waitDone else waitRegistered), d⟩ :=
    h.item 0 (d, b) rfl
  rcases b with _ | _
  · by_cases htimeout : isTimeout d = true
    · right; right
      refine ⟨_, d, rest, rfl, htimeout, ?_, h.popped (finish d), rfl⟩
      rw [popData, hitem]
      simp [htimeout, hdone, hreg]
    · left
      rw [popData, hitem]
      simp [htimeout, hdone, hreg]
  · right; left
    refine ⟨_, d, rest, rfl, ?_, h.popped d, rfl⟩
    rw [popData, hitem]
    simp

end Holds

end WaitQueue

end OceanBase.Common
