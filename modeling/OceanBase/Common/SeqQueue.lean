import OceanBase.Common.Define
import OceanBase.Lib.Run

/-!
# The sequence queue (`ob_seq_queue.cpp`)

Many threads add numbered items in any order, one thread takes them out in the order of their
numbers. Item `seq` lives in slot `seq % limit`. A slot's tag is `-1` when it is free, `-2` when an
`add` has claimed it, and otherwise the number of the published item. The counter `seq_` is the
number the consumer takes next.

No call holds a lock, so each access to a shared field is a step of its own. The condition variables
only put the consumer to sleep and are left out.

In every run in which no number is added successfully twice, the consumer receives `s`, `s + 1`,
… with the data added under them (`SeqQueueState.fetched_of_run`).
-/

namespace OceanBase.Common

open List

/-! ### The code -/

/-- `SeqItem`; the data is `none` while the pointer is null. -/
structure SeqItem (α : Type*) where
  seq : Int
  data : Option α

/-- `ObSeqQueue`. -/
structure SeqQueue (α : Type*) where
  seq : Int
  items : Nat → SeqItem α
  limit : Nat

namespace SeqQueue

variable {α : Type*}

def init (limit : Int) : Except Ret (SeqQueue α) :=
  if limit ≤ 0 then .error .invalidArgument
  else .ok ⟨0, fun _ => ⟨-1, none⟩, limit.toNat⟩

variable (q : SeqQueue α)

variable (seq : Int)

def update : Except Ret (SeqQueue α) :=
  if seq < q.seq then .error .discontinuousLog
  else .ok { q with seq := seq }

def start : Except Ret (SeqQueue α) :=
  if seq ≤ 0 then .error .invalidArgument
  else if q.seq > 0 then .error .initTwice
  else q.update seq

def slot : Nat := (seq % q.limit).toNat

/-- `items_ + seq % limit_`. -/
def item : SeqItem α := q.items (q.slot seq)

def setItem (it : SeqItem α) : SeqQueue α :=
  { q with items := Function.update q.items (q.slot seq) it }

end SeqQueue

open SeqQueue

/-- Where an `add` call stands: the access it makes next. -/
inductive AddPc where
  | checkStarted
  | checkLower
  | checkUpper
  | checkEntry
  | claim
  | writeData
  | publish
  deriving DecidableEq, Repr

/-- An `add` call in progress. -/
structure AddCall (α : Type*) where
  seq : Int
  data : α
  pc : AddPc

namespace AddCall

variable {α : Type*}

/-- The next access of an `add` call: how it changes the queue, and the call that remains or the
code it returns. -/
def next (c : AddCall α) (q : SeqQueue α) : SeqQueue α × (AddCall α ⊕ Ret) :=
  match c.pc with
  | .checkStarted =>
    if q.seq ≤ 0 then (q, .inr .notInit) else (q, .inl { c with pc := .checkLower })
  | .checkLower =>
    if c.seq < q.seq then (q, .inr .invalidArgument) else (q, .inl { c with pc := .checkUpper })
  | .checkUpper =>
    if q.seq + q.limit ≤ c.seq then (q, .inr .eAgain) else (q, .inl { c with pc := .checkEntry })
  | .checkEntry =>
    if c.seq ≤ (q.item c.seq).seq then (q, .inr .entryExist) else (q, .inl { c with pc := .claim })
  -- the compare-and-swap of the tag
  | .claim =>
    if (q.item c.seq).seq = -1 then
      (q.setItem c.seq { q.item c.seq with seq := -2 }, .inl { c with pc := .writeData })
    else (q, .inr .eAgain)
  | .writeData =>
    (q.setItem c.seq { q.item c.seq with data := some c.data }, .inl { c with pc := .publish })
  | .publish =>
    (q.setItem c.seq { q.item c.seq with seq := c.seq }, .inr .success)

theorem next_inl {c c' : AddCall α} {q : SeqQueue α} (h : (c.next q).2 = .inl c') :
    c' = ⟨c.seq, c.data, c'.pc⟩ := by
  unfold next at h
  split at h <;> (try split_ifs at h) <;> cases h <;> rfl

end AddCall

/-- Where a `get` call stands. -/
inductive GetCall (α : Type*) where
  /-- In the loop, before `seq != seq_`. -/
  | poll (seq : Int)
  /-- Before the tag of the slot is read. -/
  | tag (seq : Int)
  /-- The tag was right; before the compare-and-swap of `seq_`. -/
  | take (seq : Int)
  /-- Before the data is read. -/
  | copy (seq : Int)
  /-- Before the slot is freed. -/
  | free (seq : Int) (data : Option α)

namespace GetCall

variable {α : Type*}

/-- The next access of a `get` call; `timedOut` says whether the wait is over when the item is not
there. The call that remains, or the number and the data it returns. -/
def next (c : GetCall α) (timedOut : Bool) (q : SeqQueue α) :
    SeqQueue α × (GetCall α ⊕ Except Ret (Int × Option α)) :=
  match c with
  | .poll seq => if seq ≠ q.seq then (q, .inr (.error .eAgain)) else (q, .inl (.tag seq))
  | .tag seq =>
    if (q.item seq).seq ≠ seq then
      if timedOut then (q, .inr (.error .eAgain)) else (q, .inl (.poll seq))
    else (q, .inl (.take seq))
  | .take seq =>
    if q.seq = seq then ({ q with seq := seq + 1 }, .inl (.copy seq)) else (q, .inl (.poll seq))
  | .copy seq => (q, .inl (.free seq (q.item seq).data))
  | .free seq data => (q.setItem seq { q.item seq with seq := -1 }, .inr (.ok (seq, data)))

/-- The first access of a `get` call. -/
def enter (q : SeqQueue α) : GetCall α ⊕ Except Ret (Int × Option α) :=
  if q.seq < 0 then .inr (.error .errUnexpected) else .inl (.poll q.seq)

end GetCall

/-! ### Runs -/

/-- A queue in use by producers `τ` and one consumer, with the successful calls so far: the items
added, latest first, and the items received, in order. -/
structure SeqQueueState (τ α : Type*) where
  queue : SeqQueue α
  adds : τ → Option (AddCall α)
  get : Option (GetCall α)
  added : List (Int × α)
  received : List (Int × Option α)

/-- The moves of the threads: a call, or one access of a call. -/
inductive SeqQueueMove (τ α : Type*) where
  | callAdd (t : τ) (seq : Int) (data : α)
  | stepAdd (t : τ)
  | callGet
  | stepGet (timedOut : Bool)

variable {τ α : Type*}

variable {s : SeqQueueState τ α}

namespace SeqQueueState

section Step

variable [DecidableEq τ]

def ofQueue (q : SeqQueue α) : SeqQueueState τ α := ⟨q, fun _ => none, none, [], []⟩

/-- One access of the `add` call `c` of thread `t`. -/
def stepAdd (s : SeqQueueState τ α) (t : τ) (c : AddCall α) : SeqQueueState τ α :=
  let r := c.next s.queue
  match r.2 with
  | .inl c' => { s with queue := r.1, adds := Function.update s.adds t (some c') }
  | .inr ret =>
    { s with
      queue := r.1
      adds := Function.update s.adds t none
      added := if ret = .success then (c.seq, c.data) :: s.added else s.added }

/-- One access of the `get` call `c`. -/
def stepGet (s : SeqQueueState τ α) (c : GetCall α) (timedOut : Bool) : SeqQueueState τ α :=
  let r := c.next timedOut s.queue
  match r.2 with
  | .inl c' => { s with queue := r.1, get := some c' }
  | .inr (.error _) => { s with queue := r.1, get := none }
  | .inr (.ok item) =>
    { s with queue := r.1, get := none, received := s.received ++ [item] }

/-! What a step leaves alone, and what a call shows its caller. -/

variable {t u : τ} {a : AddCall α} {c : GetCall α} {timedOut : Bool} {ret : Ret}

theorem adds_stepAdd_of_ne (h : u ≠ t) : (s.stepAdd t a).adds u = s.adds u := by
  simp only [stepAdd]
  split <;> exact Function.update_of_ne h ..

@[simp]
theorem get_stepAdd : (s.stepAdd t a).get = s.get := by
  simp only [stepAdd]
  split <;> rfl

@[simp]
theorem received_stepAdd : (s.stepAdd t a).received = s.received := by
  simp only [stepAdd]
  split <;> rfl

theorem stepAdd_of_inl {a' : AddCall α} (h : (a.next s.queue).2 = .inl a') :
    (s.stepAdd t a).adds t = some a' ∧ (s.stepAdd t a).added = s.added := by
  simp [stepAdd, h]

theorem stepAdd_of_inr (h : (a.next s.queue).2 = .inr ret) :
    (s.stepAdd t a).adds t = none ∧
      (s.stepAdd t a).added = if ret = .success then (a.seq, a.data) :: s.added else s.added := by
  simp [stepAdd, h]

omit [DecidableEq τ] in
@[simp]
theorem adds_stepGet : (s.stepGet c timedOut).adds = s.adds := by
  simp only [stepGet]
  split <;> rfl

omit [DecidableEq τ] in
@[simp]
theorem added_stepGet : (s.stepGet c timedOut).added = s.added := by
  simp only [stepGet]
  split <;> rfl

omit [DecidableEq τ] in
theorem received_stepGet_of_inl {c' : GetCall α} (h : (c.next timedOut s.queue).2 = .inl c') :
    (s.stepGet c timedOut).received = s.received := by
  simp [stepGet, h]

omit [DecidableEq τ] in
theorem stepGet_of_error (h : (c.next timedOut s.queue).2 = .inr (.error ret)) :
    (s.stepGet c timedOut).get = none ∧ (s.stepGet c timedOut).received = s.received := by
  simp [stepGet, h]

omit [DecidableEq τ] in
theorem stepGet_of_ok {item : Int × Option α} (h : (c.next timedOut s.queue).2 = .inr (.ok item)) :
    (s.stepGet c timedOut).get = none ∧ (s.stepGet c timedOut).received = s.received ++ [item] := by
  simp [stepGet, h]

def step (s : SeqQueueState τ α) : SeqQueueMove τ α → Option (SeqQueueState τ α)
  | .callAdd t seq data =>
    if (s.adds t).isNone then
      some { s with adds := Function.update s.adds t (some ⟨seq, data, .checkStarted⟩) }
    else none
  | .stepAdd t => (s.adds t).map (s.stepAdd t)
  | .callGet =>
    if s.get.isNone then
      match GetCall.enter s.queue with
      | .inl c => some { s with get := some c }
      | .inr _ => some s
    else none
  | .stepGet timedOut => s.get.map fun c => s.stepGet c timedOut

/-- The move does not add a number for the second time. -/
def AddsOnce (s : SeqQueueState τ α) : SeqQueueMove τ α → Prop
  | .stepAdd t => ∀ c ∈ s.adds t, c.pc = .publish → c.seq ∉ s.added.map Prod.fst
  | _ => True

end Step

section Spec

/-- The consumer received the numbers from `first` on, each once and in order, with the data added
under them. -/
structure InOrder (first : Int) (s : SeqQueueState τ α) : Prop where
  seqs : s.received.map Prod.fst = (List.range s.received.length).map fun i : Nat => first + i
  data : ∀ r ∈ s.received, ∃ d, r.2 = some d ∧ (r.1, d) ∈ s.added

/-- What was added and not received is still in its slot. -/
def Kept (s : SeqQueueState τ α) : Prop :=
  ∀ seq d, (seq, d) ∈ s.added → (seq, some d) ∉ s.received → s.queue.item seq = ⟨seq, some d⟩

section Serve

variable [DecidableEq τ]

/-- A `get` call from its beginning to its end, when the item is there. -/
def getMoves : List (SeqQueueMove τ α) :=
  [.callGet, .stepGet true, .stepGet true, .stepGet true, .stepGet true, .stepGet true]

/-- When the next item was added, a `get` call receives it. -/
def NextServed (s : SeqQueueState τ α) : Prop :=
  ∀ d, s.get = none → (s.queue.seq, d) ∈ s.added →
    ∃ s', Lib.run step s getMoves = some s' ∧
      s'.received = s.received ++ [(s.queue.seq, some d)]

end Serve

end Spec

/-! ### The invariant -/

end SeqQueueState

namespace AddPc

variable (pc : AddPc)

/-- The call has seen that its number is not below `seq_`. -/
def PastLower : Prop := pc ≠ .checkStarted ∧ pc ≠ .checkLower

/-- The call has seen that its number is less than a round above `seq_`. -/
def PastUpper : Prop := pc.PastLower ∧ pc ≠ .checkUpper

/-- The call owns its slot. -/
def Claimed : Prop := pc = .writeData ∨ pc = .publish

instance : Decidable pc.PastLower := inferInstanceAs (Decidable (_ ∧ _))

instance : Decidable pc.PastUpper := inferInstanceAs (Decidable (_ ∧ _))

instance : Decidable pc.Claimed := inferInstanceAs (Decidable (_ ∨ _))

end AddPc

namespace SeqQueue

variable {α : Type*} (q : SeqQueue α) (seq p : Int) (it : SeqItem α)

@[simp]
theorem item_setSeq : ({ q with seq := seq } : SeqQueue α).item p = q.item p := rfl

@[simp]
theorem item_setItem_self : (q.setItem seq it).item seq = it := by
  simp [item, setItem, slot]

theorem item_setItem_of_slot_eq (h : q.slot p = q.slot seq) : (q.setItem seq it).item p = it := by
  show Function.update q.items (q.slot seq) it (q.slot p) = it
  rw [h, Function.update_self]

theorem item_setItem_of_slot_ne (h : q.slot p ≠ q.slot seq) :
    (q.setItem seq it).item p = q.item p := by
  exact Function.update_of_ne h it q.items

theorem item_setItem_of_neg (hneg : (q.item seq).seq < 0) (hp : 0 ≤ (q.item p).seq) :
    (q.setItem seq it).item p = q.item p := by
  apply item_setItem_of_slot_ne
  intro hslot
  rw [item, hslot] at hp
  rw [item] at hneg
  omega

theorem item_setItem_of_nonneg (hit : it.seq < 0) (hp : 0 ≤ ((q.setItem seq it).item p).seq) :
    (q.setItem seq it).item p = q.item p := by
  apply item_setItem_of_slot_ne
  intro hslot
  rw [item_setItem_of_slot_eq _ _ _ _ hslot] at hp
  omega

theorem item_eq_of_slot_eq {q : SeqQueue α} {seq p : Int} (h : q.slot p = q.slot seq) :
    q.item p = q.item seq := by
  rw [item, item, h]

end SeqQueue

namespace SeqQueueState

section Invariant

/-- The number whose slot is freed next. -/
def current (first : Int) (s : SeqQueueState τ α) : Int := first + s.received.length

/-- What holds of an `add` call wherever it stands. The bounds were checked against an earlier
`seq_`, which only grows. -/
structure CallOk (first : Int) (q : SeqQueue α) (seq : Int) (data : α) (pc : AddPc) : Prop where
  lower : pc.PastLower → first ≤ seq
  upper : pc.PastUpper → seq < q.seq + q.limit
  claimed : pc.Claimed → (q.item seq).seq = -2
  written : pc = .publish → (q.item seq).data = some data

/-- Where the consumer stands: `seq_` is the next number to be freed, or behind the
compare-and-swap one more; and the tag that was seen is still there. -/
def Reading (first : Int) (s : SeqQueueState τ α) : Prop :=
  match s.get with
  | none => s.queue.seq = s.current first
  | some (.poll seq) => s.queue.seq = s.current first ∧ seq = s.queue.seq
  | some (.tag seq) => s.queue.seq = s.current first ∧ seq = s.queue.seq
  | some (.take seq) =>
    s.queue.seq = s.current first ∧ seq = s.queue.seq ∧ (s.queue.item seq).seq = seq
  | some (.copy seq) =>
    s.queue.seq = s.current first + 1 ∧ seq = s.current first ∧ (s.queue.item seq).seq = seq
  | some (.free seq data) =>
    s.queue.seq = s.current first + 1 ∧ seq = s.current first ∧
      (s.queue.item seq).seq = seq ∧ (s.queue.item seq).data = data

/-- The invariant of a queue in use. -/
structure Inv (first : Int) (s : SeqQueueState τ α) : Prop where
  limit_pos : 0 < s.queue.limit
  first_nonneg : 0 ≤ first
  nodup : (s.added.map Prod.fst).Nodup
  inOrder : s.InOrder first
  reading : s.Reading first
  /-- The consumer only passes numbers that were added. -/
  passed : ∀ p, first ≤ p → p < s.queue.seq → p ∈ s.added.map Prod.fst
  /-- An item that was added is less than a round ahead, and in its slot until that is freed. -/
  kept : ∀ p d, (p, d) ∈ s.added → first ≤ p ∧ p < s.queue.seq + s.queue.limit ∧
    (p < s.current first ∨ s.queue.item p = ⟨p, some d⟩)
  /-- A slot is free, claimed or holds an item that was added. -/
  tags : ∀ p, 0 ≤ (s.queue.item p).seq →
    ∃ d, ((s.queue.item p).seq, d) ∈ s.added ∧ s.queue.slot (s.queue.item p).seq = s.queue.slot p ∧
      s.current first ≤ (s.queue.item p).seq
  calls : ∀ t a, s.adds t = some a → CallOk first s.queue a.seq a.data a.pc
  /-- A slot is claimed by one call. -/
  owner : ∀ t u a b, s.adds t = some a → s.adds u = some b → a.pc.Claimed → b.pc.Claimed →
    s.queue.slot a.seq = s.queue.slot b.seq → t = u

variable {first : Int}

theorem Inv.current_le_seq (h : Inv first s) : s.current first ≤ s.queue.seq := by
  have hreading := h.reading
  unfold Reading at hreading
  split at hreading <;> omega

theorem Inv.first_le_current (_ : Inv first s) : first ≤ s.current first := by
  unfold current
  omega

variable {seq p : Int} {d : α}

theorem Inv.reading_write (h : Inv first s) (hneg : (s.queue.item seq).seq < 0)
    (it : SeqItem α) (adds : τ → Option (AddCall α)) (added : List (Int × α)) :
    Reading first { s with queue := s.queue.setItem seq it, adds := adds, added := added } := by
  have hreading := h.reading
  have hfirst := h.first_nonneg
  unfold Reading current at *
  rcases hget : s.get with _ | _ | _ | p | p | ⟨p, data⟩ <;> simp only [hget] at hreading ⊢
  · exact hreading
  · exact hreading
  · exact hreading
  all_goals
    rwa [item_setItem_of_neg _ _ _ _ hneg (by omega)]

theorem Inv.kept_write (h : Inv first s) (hneg : (s.queue.item seq).seq < 0)
    (it : SeqItem α) (hp : (p, d) ∈ s.added) :
    first ≤ p ∧ p < s.queue.seq + s.queue.limit ∧
      (p < s.current first ∨ (s.queue.setItem seq it).item p = ⟨p, some d⟩) := by
  obtain ⟨hlower, hupper, hkept⟩ := h.kept p d hp
  refine ⟨hlower, hupper, hkept.imp_right fun hitem => ?_⟩
  rw [item_setItem_of_neg _ _ _ _ hneg, hitem]
  rw [hitem]
  exact Int.le_trans h.first_nonneg hlower

/-- The call of another thread, after a write by the thread that owns the slot or claims it. -/
theorem CallOk.write {q : SeqQueue α} {pc : AddPc} (h : CallOk first q p d pc)
    (it : SeqItem α) (hslot : pc.Claimed → q.slot p ≠ q.slot seq) :
    CallOk first (q.setItem seq it) p d pc where
  lower := h.lower
  upper := h.upper
  claimed hc := by
    rw [item_setItem_of_slot_ne _ _ _ _ (hslot hc)]
    exact h.claimed hc
  written hpc := by
    rw [item_setItem_of_slot_ne _ _ _ _ (hslot (.inr hpc))]
    exact h.written hpc

variable (h : Inv first s)

section

include h

theorem Inv.setGet {o : Option (GetCall α)}
    (ho : Reading first { s with get := o }) : Inv first { s with get := o } :=
  { h with
    inOrder := ⟨h.inOrder.seqs, h.inOrder.data⟩
    reading := ho }

variable {c : GetCall α}

theorem Inv.enter (hnone : s.get = none)
    (hc : GetCall.enter s.queue = .inl c) : Inv first { s with get := some c } := by
  have hreading := h.reading
  simp only [Reading, hnone] at hreading
  unfold GetCall.enter at hc
  split_ifs at hc
  cases hc
  exact h.setGet ⟨hreading, rfl⟩

theorem Inv.take (hget : s.get = some (.take seq)) :
    Inv first { s with queue := { s.queue with seq := seq + 1 }, get := some (.copy seq) } := by
  obtain ⟨hcurrent, hseq, htag⟩ : s.queue.seq = s.current first ∧ seq = s.queue.seq ∧
      (s.queue.item seq).seq = seq := by
    simpa [Reading, hget] using h.reading
  have hle := h.first_le_current
  have hfirst := h.first_nonneg
  obtain ⟨d, hd, -, -⟩ := h.tags seq (by omega)
  rw [htag] at hd
  exact
    { h with
      inOrder := ⟨h.inOrder.seqs, h.inOrder.data⟩
      reading := by
        show seq + 1 = s.current first + 1 ∧ seq = s.current first ∧ (s.queue.item seq).seq = seq
        exact ⟨by omega, by omega, htag⟩
      passed := fun p hp hlt => by
        by_cases hpc : p = seq
        · rw [hpc]
          exact mem_map_of_mem hd
        · exact h.passed p hp (by dsimp only at hlt; omega)
      kept := fun p e hp => by
        obtain ⟨hlower, hupper, hkept⟩ := h.kept p e hp
        exact ⟨hlower, by dsimp only; omega, hkept⟩
      calls := fun t a ha => by
        have hcall := h.calls t a ha
        refine ⟨hcall.lower, fun hpc => ?_, hcall.claimed, hcall.written⟩
        have hupper := hcall.upper hpc
        dsimp only
        omega
      owner := h.owner }

theorem Inv.free {data : Option α} (hget : s.get = some (.free seq data)) :
    Inv first { s with
      queue := s.queue.setItem seq { s.queue.item seq with seq := -1 }
      get := none
      received := s.received ++ [(seq, data)] } := by
  obtain ⟨hnext, hseq, htag, hdata⟩ : s.queue.seq = s.current first + 1 ∧
      seq = s.current first ∧ (s.queue.item seq).seq = seq ∧ (s.queue.item seq).data = data := by
    simpa [Reading, hget] using h.reading
  have hle := h.first_le_current
  have hfirst := h.first_nonneg
  have hcurrent : ∀ q, current first { s with
      queue := q, get := none, received := s.received ++ [(seq, data)] } = s.current first + 1 := by
    intro q
    simp [current]
    omega
  obtain ⟨d, hd, -, -⟩ := h.tags seq (by omega)
  rw [htag] at hd
  -- the item in the slot is the one that was added under its number
  have hitem : s.queue.item seq = ⟨seq, some d⟩ :=
    (h.kept seq d hd).2.2.resolve_left (by omega)
  refine
    { h with
      inOrder := ⟨?_, ?_⟩
      reading := ?_
      kept := ?_
      tags := ?_
      calls := ?_ }
  · simp only [map_append, h.inOrder.seqs, length_append, length_cons, length_nil, range_succ,
      map_cons, map_nil]
    rw [hseq, current]
  · exact forall_mem_append.2
      ⟨h.inOrder.data, forall_mem_singleton.2 ⟨d, by rw [← hdata, hitem], hd⟩⟩
  · show s.queue.seq = current first _
    rw [hcurrent, hnext]
  · intro p e hp
    obtain ⟨hlower, hupper, hkept⟩ := h.kept p e hp
    refine ⟨hlower, hupper, ?_⟩
    rw [hcurrent]
    rcases hkept with hlt | hitem'
    · exact .inl (by omega)
    by_cases hslot : s.queue.slot p = s.queue.slot seq
    · rw [item_eq_of_slot_eq hslot, hitem] at hitem'
      injection hitem' with hp
      exact .inl (by omega)
    · exact .inr (by rw [item_setItem_of_slot_ne _ _ _ _ hslot, hitem'])
  · intro p hp
    rw [hcurrent]
    have hsame := item_setItem_of_nonneg _ _ _ _ (show (-1 : Int) < 0 by decide) hp
    simp only [hsame] at hp ⊢
    obtain ⟨e, he, hslot, hle⟩ := h.tags p hp
    refine ⟨e, he, hslot, ?_⟩
    -- the freed number is in no slot any more
    by_contra hlt
    have hpseq : (s.queue.item p).seq = seq := by omega
    rw [hpseq] at hslot
    rw [item_setItem_of_slot_eq _ _ _ _ hslot.symm, item_eq_of_slot_eq hslot.symm, hitem] at hsame
    injection hsame with hneg
    omega
  · intro t a ha
    refine (h.calls t a ha).write _ fun hc hslot => ?_
    have hclaimed := (h.calls t a ha).claimed hc
    rw [item_eq_of_slot_eq hslot] at hclaimed
    omega

/-- **One access of a `get` call.** -/
theorem Inv.stepGet (hc : s.get = some c) (timedOut : Bool) : Inv first (s.stepGet c timedOut) := by
  have hreading := h.reading
  unfold Reading at hreading
  cases c with
  | poll seq =>
    simp only [hc] at hreading
    simp only [SeqQueueState.stepGet, GetCall.next]
    split_ifs
    · exact h.setGet hreading.1
    · exact h.setGet hreading
  | tag seq =>
    simp only [hc] at hreading
    simp only [SeqQueueState.stepGet, GetCall.next]
    split_ifs with htag
    · exact h.setGet hreading.1
    · exact h.setGet hreading
    · exact h.setGet ⟨hreading.1, hreading.2, not_not.1 htag⟩
  | take seq =>
    simp only [hc] at hreading
    simp only [SeqQueueState.stepGet, GetCall.next]
    rw [if_pos hreading.2.1.symm]
    exact h.take hc
  | copy seq =>
    simp only [hc] at hreading
    exact h.setGet ⟨hreading.1, hreading.2.1, hreading.2.2, rfl⟩
  | free seq data => exact h.free hc

theorem Inv.kept_of_not_received : s.Kept := by
  intro p d hp hnot
  obtain ⟨hlower, -, hkept⟩ := h.kept p d hp
  refine hkept.resolve_left fun hlt => hnot ?_
  -- a number below the next one was received, and with the data added under it
  have hmem : p ∈ s.received.map Prod.fst := by
    rw [h.inOrder.seqs, mem_map]
    exact ⟨(p - first).toNat, mem_range.2 (by unfold current at hlt; omega), by omega⟩
  obtain ⟨r, hr, rfl⟩ := mem_map.1 hmem
  obtain ⟨e, he, hadded⟩ := h.inOrder.data r hr
  have hde : d = e := by
    have heq := inj_on_of_nodup_map h.nodup hp hadded rfl
    injection heq
  rwa [hde, ← he]

end

theorem inv_ofQueue {limit : Int} {q q' : SeqQueue α} (hinit : init limit = .ok q)
    (hupdate : q.update first = .ok q') : Inv first (ofQueue q' : SeqQueueState τ α) := by
  unfold init at hinit
  split_ifs at hinit with hlimit
  cases hinit
  unfold update at hupdate
  split_ifs at hupdate with hfirst
  cases hupdate
  have hnonneg : 0 ≤ first := Int.not_lt.1 hfirst
  exact
    { limit_pos := by dsimp only [ofQueue]; omega
      first_nonneg := hnonneg
      nodup := nodup_nil
      inOrder := ⟨rfl, nofun⟩
      reading := by simp [Reading, current, ofQueue]
      passed := fun p hp hlt => absurd hlt (by dsimp only [ofQueue]; omega)
      kept := nofun
      tags := fun p hp => absurd hp (by simp [ofQueue, item])
      calls := nofun
      owner := nofun }

section Step

variable [DecidableEq τ]

section

include h

theorem Inv.setCall (t : τ) {o : Option (AddCall α)}
    (ho : ∀ a ∈ o, CallOk first s.queue a.seq a.data a.pc ∧ ¬ a.pc.Claimed) :
    Inv first { s with adds := Function.update s.adds t o } :=
  { h with
    inOrder := ⟨h.inOrder.seqs, h.inOrder.data⟩
    calls := fun u a hu => by
      by_cases htu : u = t
      · subst htu
        exact (ho a (by simpa using hu)).1
      · exact h.calls u a (by simpa [htu] using hu)
    owner := fun u v a b hu hv ha hb => by
      have hne : ∀ w c, Function.update s.adds t o w = some c → c.pc.Claimed → w ≠ t := by
        rintro w c hw hc rfl
        exact (ho c (by simpa using hw)).2 hc
      exact h.owner u v a b (by simpa [hne u a hu ha] using hu) (by simpa [hne v b hv hb] using hv)
        ha hb }

theorem Inv.advance (t : τ) (data : α) (pc : AddPc) (hlower : pc.PastLower → first ≤ seq)
    (hupper : pc.PastUpper → seq < s.queue.seq + s.queue.limit) (hfree : ¬ pc.Claimed) :
    Inv first { s with adds := Function.update s.adds t (some ⟨seq, data, pc⟩) } := by
  refine h.setCall t fun b hb => ?_
  cases hb
  exact ⟨⟨hlower, hupper, fun hc => absurd hc hfree, fun hpc => absurd (.inr hpc) hfree⟩, hfree⟩

/-- The owner of a slot writes to it and keeps it; or a thread claims a free slot. -/
theorem Inv.own (t : τ) {data : α} (pc : AddPc) {it : SeqItem α}
    (hit : it.seq = -2) (hneg : (s.queue.item seq).seq < 0) (hlower : first ≤ seq)
    (hupper : seq < s.queue.seq + s.queue.limit) (hwritten : pc = .publish → it.data = some data)
    (hother : ∀ u b, u ≠ t → s.adds u = some b → b.pc.Claimed →
      s.queue.slot b.seq ≠ s.queue.slot seq) :
    Inv first { s with
      queue := s.queue.setItem seq it
      adds := Function.update s.adds t (some ⟨seq, data, pc⟩) } where
  limit_pos := h.limit_pos
  first_nonneg := h.first_nonneg
  nodup := h.nodup
  inOrder := ⟨h.inOrder.seqs, h.inOrder.data⟩
  reading := h.reading_write hneg it _ _
  passed := h.passed
  kept p d hp := h.kept_write hneg it hp
  tags p hp := by
    have hsame := item_setItem_of_nonneg _ _ _ _ (by omega) hp
    simp only [hsame] at hp ⊢
    exact h.tags p hp
  calls u b hu := by
    by_cases htu : u = t
    · subst htu
      obtain rfl : ⟨seq, data, pc⟩ = b := by simpa using hu
      exact ⟨fun _ => hlower, fun _ => hupper, fun _ => by simpa using hit, by simpa using hwritten⟩
    · have hub : s.adds u = some b := by simpa [htu] using hu
      exact (h.calls u b hub).write it (hother u b htu hub)
  owner u v b c hu hv hb hc hslot := by
    by_cases htu : u = t <;> by_cases htv : v = t
    · rw [htu, htv]
    · subst htu
      obtain rfl : ⟨seq, data, pc⟩ = b := by simpa using hu
      exact absurd hslot.symm (hother v c htv (by simpa [htv] using hv) hc)
    · subst htv
      obtain rfl : ⟨seq, data, pc⟩ = c := by simpa using hv
      exact absurd hslot (hother u b htu (by simpa [htu] using hu) hb)
    · exact h.owner u v b c (by simpa [htu] using hu) (by simpa [htv] using hv) hb hc hslot

variable {a : AddCall α} {t : τ}

theorem Inv.publish (ha : s.adds t = some a)
    (hpc : a.pc = .publish) (honce : a.seq ∉ s.added.map Prod.fst) :
    Inv first { s with
      queue := s.queue.setItem a.seq { s.queue.item a.seq with seq := a.seq }
      adds := Function.update s.adds t none
      added := (a.seq, a.data) :: s.added } := by
  have hcall := h.calls t a ha
  have hclaimed : a.pc.Claimed := .inr hpc
  have htag := hcall.claimed hclaimed
  have hneg : (s.queue.item a.seq).seq < 0 := by omega
  have hlower := hcall.lower (by simp [AddPc.PastLower, hpc])
  have hupper := hcall.upper (by simp [AddPc.PastUpper, AddPc.PastLower, hpc])
  -- the consumer cannot have passed a number that was not added
  have hahead : s.queue.seq ≤ a.seq := by
    by_contra hlt
    exact honce (h.passed a.seq hlower (by omega))
  have hcurrent := h.current_le_seq
  have hnew : s.queue.setItem a.seq { s.queue.item a.seq with seq := a.seq } =
      s.queue.setItem a.seq ⟨a.seq, some a.data⟩ := by
    rw [← hcall.written hpc]
  rw [hnew]
  refine
    { h with
      nodup := nodup_cons.2 ⟨honce, h.nodup⟩
      inOrder := ⟨h.inOrder.seqs, fun r hr => ?_⟩
      reading := h.reading_write hneg _ _ _
      passed := fun p hp hlt => mem_cons_of_mem _ (h.passed p hp hlt)
      kept := ?_
      tags := ?_
      calls := ?_
      owner := ?_ }
  · obtain ⟨d, hd, hmem⟩ := h.inOrder.data r hr
    exact ⟨d, hd, mem_cons_of_mem _ hmem⟩
  · intro p d hp
    rcases mem_cons.1 hp with heq | hp
    · cases heq
      exact ⟨hlower, hupper, .inr (item_setItem_self _ _ _)⟩
    · exact h.kept_write hneg _ hp
  · intro p hp
    by_cases hslot : s.queue.slot p = s.queue.slot a.seq
    · rw [item_setItem_of_slot_eq _ _ _ _ hslot]
      exact ⟨a.data, mem_cons_self, hslot.symm, Int.le_trans hcurrent hahead⟩
    rw [item_setItem_of_slot_ne _ _ _ _ hslot] at hp ⊢
    obtain ⟨d, hd, hq, hle⟩ := h.tags p hp
    exact ⟨d, mem_cons_of_mem _ hd, hq, hle⟩
  · intro u b hu
    have htu : u ≠ t := by
      rintro rfl
      simp at hu
    have hub : s.adds u = some b := by simpa [htu] using hu
    exact (h.calls u b hub).write _ fun hb hslot => htu (h.owner u t b a hub ha hb hclaimed hslot)
  · intro u v b c hu hv
    have hne : ∀ w c, Function.update s.adds t none w = some c → w ≠ t := by
      rintro w c hw rfl
      simp at hw
    exact h.owner u v b c (by simpa [hne u b hu] using hu) (by simpa [hne v c hv] using hv)

/-- **One access of an `add` call.** -/
theorem Inv.stepAdd (ha : s.adds t = some a)
    (honce : a.pc = .publish → a.seq ∉ s.added.map Prod.fst) : Inv first (s.stepAdd t a) := by
  have hleave : Inv first { s with adds := Function.update s.adds t none } := h.setCall t nofun
  have hcurrent := h.current_le_seq
  have hfirst := h.first_le_current
  obtain ⟨seq, data, pc⟩ := a
  have hcall : CallOk first s.queue seq data pc := h.calls t _ ha
  cases pc with
  | checkStarted =>
    simp only [SeqQueueState.stepAdd, AddCall.next]
    split_ifs
    · exact hleave
    · exact h.advance t data .checkLower (fun hpc => absurd hpc (by decide))
        (fun hpc => absurd hpc (by decide)) (by decide)
  | checkLower =>
    simp only [SeqQueueState.stepAdd, AddCall.next]
    split_ifs with hlt
    · exact hleave
    · exact h.advance t data .checkUpper (fun _ => by omega) (fun hpc => absurd hpc (by decide))
        (by decide)
  | checkUpper =>
    simp only [SeqQueueState.stepAdd, AddCall.next]
    split_ifs with hle
    · exact hleave
    · exact h.advance t data .checkEntry (fun _ => hcall.lower (by decide)) (fun _ => by omega)
        (by decide)
  | checkEntry =>
    simp only [SeqQueueState.stepAdd, AddCall.next]
    split_ifs
    · exact hleave
    · exact h.advance t data .claim (fun _ => hcall.lower (by decide))
        (fun _ => hcall.upper (by decide)) (by decide)
  | claim =>
    simp only [SeqQueueState.stepAdd, AddCall.next]
    split_ifs with hfree
    · refine h.own t .writeData rfl (by omega) (hcall.lower (by decide))
        (hcall.upper (by decide)) nofun fun u b _ hu hb hslot => ?_
      -- a claimed slot is not free
      have hclaimed := (h.calls u b hu).claimed hb
      rw [item_eq_of_slot_eq hslot] at hclaimed
      omega
    · exact hleave
  | writeData =>
    have htag := hcall.claimed (by decide)
    have hneg : (s.queue.item seq).seq < 0 := by omega
    refine h.own t .publish htag hneg (hcall.lower (by decide))
      (hcall.upper (by decide)) (fun _ => rfl) fun u b hne hu hb hslot => ?_
    exact hne (h.owner u t b _ hu ha hb (.inl rfl) hslot)
  | publish => exact h.publish ha rfl (honce rfl)

end

/-- **One move.** -/
theorem Inv.step {s' : SeqQueueState τ α} {m : SeqQueueMove τ α} (h : Inv first s)
    (honce : s.AddsOnce m) (hstep : s.step m = some s') : Inv first s' := by
  cases m with
  | callAdd t seq data =>
    obtain ⟨-, rfl⟩ : _ ∧ _ = s' := by simpa [SeqQueueState.step] using hstep
    exact h.advance t data .checkStarted (fun hpc => absurd hpc (by decide))
      (fun hpc => absurd hpc (by decide)) (by decide)
  | stepAdd t =>
    obtain ⟨a, ha, rfl⟩ := Option.map_eq_some_iff.1 hstep
    exact h.stepAdd ha (honce a ha)
  | callGet =>
    simp only [SeqQueueState.step] at hstep
    split_ifs at hstep with hnone
    split at hstep <;> cases hstep
    next c hc => exact h.enter (Option.isNone_iff_eq_none.1 hnone) hc
    next => exact h
  | stepGet timedOut =>
    obtain ⟨c, hc, rfl⟩ := Option.map_eq_some_iff.1 hstep
    exact h.stepGet hc timedOut

theorem Inv.nextServed (h : Inv first s) : s.NextServed := by
  intro d hnone hd
  have hle := h.first_le_current
  have hfirst := h.first_nonneg
  have hreading : s.queue.seq = s.current first := by
    simpa [Reading, hnone] using h.reading
  have hitem := (h.kept s.queue.seq d hd).2.2.resolve_left (by omega)
  have hneg : ¬ s.queue.seq < 0 := by omega
  refine ⟨{ s with
    queue := setItem { s.queue with seq := s.queue.seq + 1 } s.queue.seq ⟨-1, some d⟩
    get := none
    received := s.received ++ [(s.queue.seq, some d)] }, ?_, rfl⟩
  simp [getMoves, Lib.run, SeqQueueState.step, SeqQueueState.stepGet, GetCall.enter, GetCall.next,
    hnone, hneg, hitem]

end Step

end Invariant

/-! ### The result -/

section Result

variable [DecidableEq τ]

/-- **The queue is a sequencer.** In every run in which no number is added successfully twice: the
consumer has received `first`, `first + 1`, …, each once and with the data added under it; what was
not received is still in its slot; and when the next number was added, a `get` call receives it. -/
theorem fetched_of_run {limit first : Int} {q q' : SeqQueue α} {moves : List (SeqQueueMove τ α)}
    {s : SeqQueueState τ α} (hinit : SeqQueue.init limit = .ok q) (hstart : q.start first = .ok q')
    (honce : Lib.Meets step AddsOnce (ofQueue q') moves)
    (hrun : Lib.run step (ofQueue q') moves = some s) :
    s.InOrder first ∧ s.Kept ∧ s.NextServed := by
  have hupdate : q.update first = .ok q' := by
    unfold start at hstart
    split_ifs at hstart
    exact hstart
  have hinv : Inv first s :=
    Lib.run_invariant_of_meets (fun _ _ _ h hok hstep => h.step hok hstep)
      (inv_ofQueue hinit hupdate) honce hrun
  exact ⟨hinv.inOrder, hinv.kept_of_not_received, hinv.nextServed⟩

instance (s : SeqQueueState τ α) : DecidablePred s.AddsOnce
  | .callAdd _ _ _ => isTrue trivial
  | .stepAdd t =>
    inferInstanceAs (Decidable (∀ c ∈ s.adds t, c.pc = .publish → c.seq ∉ s.added.map Prod.fst))
  | .callGet => isTrue trivial
  | .stepGet _ => isTrue trivial

/-- One slot and two threads a round apart: the second is sent away until the slot is freed, then
comes back. -/
def oneSlot : List (SeqQueueMove Bool Nat) :=
  [.callAdd false 1 10, .callAdd true 2 20] ++
  List.replicate 7 (.stepAdd false) ++ List.replicate 3 (.stepAdd true) ++ getMoves ++
  [.callAdd true 2 20] ++ List.replicate 7 (.stepAdd true) ++ getMoves

theorem fetched_of_run_oneSlot :
    ∃ q q' s, SeqQueue.init 1 = .ok q ∧ q.start 1 = .ok q' ∧
      Lib.Meets step AddsOnce (ofQueue q' : SeqQueueState Bool Nat) oneSlot ∧
      Lib.run step (ofQueue q') oneSlot = some s ∧ s.received = [(1, some 10), (2, some 20)] ∧
      s.InOrder 1 ∧ s.Kept ∧ s.NextServed := by
  have honce : Lib.Meets step AddsOnce
      (ofQueue ⟨1, fun _ => ⟨-1, none⟩, 1⟩ : SeqQueueState Bool Nat) oneSlot := by
    decide +kernel
  obtain ⟨s, hs, hreceived⟩ :
      ∃ s, Lib.run step (ofQueue ⟨1, fun _ => ⟨-1, none⟩, 1⟩) oneSlot = some s ∧
        s.received = [(1, some 10), (2, some 20)] :=
    Option.map_eq_some_iff.1 (show (Lib.run step (ofQueue ⟨1, fun _ => ⟨-1, none⟩, 1⟩) oneSlot).map
      received = some [(1, some 10), (2, some 20)] by decide +kernel)
  have hinit : init 1 = .ok (⟨0, fun _ => ⟨-1, none⟩, 1⟩ : SeqQueue Nat) := rfl
  exact ⟨_, _, s, hinit, rfl, honce, hs, hreceived, fetched_of_run hinit rfl honce hs⟩

end Result

end SeqQueueState

end OceanBase.Common
