import OceanBase.Lib.Iterate
import OceanBase.RootServer.FindRange

/-!
# Iterating over the tablets of a range (`ob_tablet_location_range_iterator.cpp`,
`ob_range2.cpp`, `ob_range2.h`)

A call looks up the tablet that holds the first keys of what is left of the range (backward: the
last ones), hands out what they have in common and trims it off. Both borders of a range are cuts
right before or right behind a key, and all comparisons are those of the cuts. Forward, what is
handed out goes from one cut to the next (`yields_forward`). Backward, the call hands out what is
left after trimming and ends, so the keys of the last tablet are lost.
-/

namespace OceanBase.RootServer

open Lib List

variable {α : Type} [LinearOrder α]

def emptyRange : Ret := .other (-63)

namespace Range

variable (r r' : Range α)

def compareWithStartkey2 : Ordering :=
  if r.startKey = ⊥ then if r'.startKey = ⊥ then .eq else .lt
  else if r'.startKey = ⊥ then .gt
  else (cmp r.startKey r'.startKey).then (cmp r'.inclusiveStart r.inclusiveStart)

def compareWithEndkey2 : Ordering :=
  if r.endKey = ⊤ then if r'.endKey = ⊤ then .eq else .gt
  else if r'.endKey = ⊤ then .lt
  else (cmp r.endKey r'.endKey).then (cmp r.inclusiveEnd r'.inclusiveEnd)

/-- `empty`. -/
def isEmpty : Bool :=
  if r.startKey = ⊥ ∨ r.endKey = ⊤ then false
  else r.endKey < r.startKey ∨ (r.endKey = r.startKey ∧ ¬(r.inclusiveEnd ∧ r.inclusiveStart))

def isWholeRange : Bool := r.startKey = ⊥ ∧ r.endKey = ⊤

/-- The second range starts before the first one ends. -/
def reaches : Bool :=
  r'.startKey = ⊥ ∨ r'.startKey < r.endKey ∨
    (r.endKey = r'.startKey ∧ r.inclusiveEnd ∧ r'.inclusiveStart)

def intersect : Bool :=
  if r.tableId ≠ r'.tableId then false
  else if r.isEmpty || r'.isEmpty then false
  else if r.isWholeRange || r'.isWholeRange then true
  else match cmp r.endPos r'.endPos with
    | .lt => r.reaches r'
    | .gt => r'.reaches r
    | .eq => true

/-- `range_intersect`, where `r₃` is what stands in the result before. -/
def rangeIntersect (r₃ : Range α) : Except Ret (Range α) :=
  if r.tableId ≠ r'.tableId then .error .error
  else if r.isEmpty || r'.isEmpty then .error emptyRange
  else if r.intersect r' then
    let first := if r.compareWithStartkey2 r' = .lt then r' else r
    let last := if r.compareWithEndkey2 r' = .gt then r' else r
    .ok ⟨r.tableId, first.startKey, last.endKey, first.inclusiveStart, last.inclusiveEnd⟩
  else .ok r₃

def trim : Except Ret (Range α) :=
  if r'.tableId ≠ r.tableId then .error .error
  else match r.compareWithStartkey2 r', r.compareWithEndkey2 r' with
    | .eq, .eq => .error emptyRange
    | .eq, .gt => .ok { r with startKey := r'.endKey, inclusiveStart := !r'.inclusiveEnd }
    | .lt, .eq => .ok { r with endKey := r'.startKey, inclusiveEnd := !r'.inclusiveStart }
    | _, _ => .error .error

end Range

/-- `ScanFlag::Direction`. -/
inductive Direction where
  | forward
  | backward

/-- `ObTabletLocationRangeIterator`. -/
structure LocationIterator (α : Type) where
  nextRange : Range α
  isIterEnd : Bool

/-- The iterator after `out` is trimmed off. -/
def LocationIterator.trimmed (n out : Range α) : Except Ret (LocationIterator α) :=
  match n.trim out with
  | .ok left => .ok ⟨left, false⟩
  | .error ret => if ret = emptyRange then .ok ⟨n, true⟩ else .error ret

/-- `next`, with what is looked up for the range that is left; `out` is what stands in the result
before. -/
def LocationIterator.next (direction : Direction) (lookup : Range α → Range α) (out : Range α)
    (s : LocationIterator α) : Except Ret (Range α × LocationIterator α) :=
  if s.isIterEnd ∨ s.nextRange.isEmpty then .error .iterEnd
  else
    let tablet := lookup s.nextRange
    match tablet.rangeIntersect s.nextRange out with
    | .error ret => .error ret
    | .ok out => (trimmed s.nextRange out).map fun s' =>
      match direction with
      | .forward =>
        -- with the greatest key as its end nothing can follow the range
        (out, if out.compareWithEndkey2 tablet = .eq ∧ s'.nextRange.endKey = ⊤ ∧ out.endKey = ⊤ then
          { s' with isIterEnd := true } else s')
      | .backward => (s'.nextRange, { s' with isIterEnd := true })

/-! ### Cuts -/

namespace Range

section

variable (r r' : Range α)

/-- Where the range starts: right before or right behind its start key. -/
def startCut : Key α ×ₗ Bool := toLex (r.startKey, !r.inclusiveStart || r.startKey = ⊥)

def endCut : Key α ×ₗ Bool := toLex (r.endKey, r.inclusiveEnd || r.endKey = ⊤)

theorem cmp_toLex {a b : Key α} {p q : Bool} :
    cmp (toLex (a, p)) (toLex (b, q)) = (cmp a b).then (cmp p q) := by
  rcases lt_trichotomy a b with h | rfl | h
  · rw [(cmp_eq_lt_iff a b).2 h, (cmp_eq_lt_iff _ _).2 (Prod.Lex.toLex_lt_toLex.2 (.inl h))]
    rfl
  · cases p <;> cases q <;> simp [cmp, cmpUsing, Prod.Lex.toLex_lt_toLex]
  · rw [(cmp_eq_gt_iff a b).2 h, (cmp_eq_gt_iff _ _).2 (Prod.Lex.toLex_lt_toLex.2 (.inl h))]
    rfl

theorem compareWithStartkey2_eq : r.compareWithStartkey2 r' = cmp r.startCut r'.startCut := by
  unfold compareWithStartkey2 startCut
  rw [cmp_toLex]
  split_ifs with h h' h'
  · simp [h, h']
  · simp [h, (cmp_eq_lt_iff _ _).2 (bot_lt_iff_ne_bot.2 h')]
  · simp [h', (cmp_eq_gt_iff _ _).2 (bot_lt_iff_ne_bot.2 h)]
  · simp only [h, h']
    cases r.inclusiveStart <;> cases r'.inclusiveStart <;> rfl

theorem compareWithEndkey2_eq : r.compareWithEndkey2 r' = cmp r.endCut r'.endCut := by
  unfold compareWithEndkey2 endCut
  rw [cmp_toLex]
  split_ifs with h h' h'
  · simp [h, h']
  · simp [h, (cmp_eq_gt_iff _ _).2 (lt_top_iff_ne_top.2 h')]
  · simp [h', (cmp_eq_lt_iff _ _).2 (lt_top_iff_ne_top.2 h)]
  · simp [h, h']

theorem succ_le_iff {k : α} {c : Key α ×ₗ Bool} :
    toLex (key k, true) ≤ c ↔ ¬c ≤ toLex (key k, false) := by
  change _ ≤ toLex ((ofLex c).1, (ofLex c).2) ↔ ¬toLex ((ofLex c).1, (ofLex c).2) ≤ _
  rw [Prod.Lex.toLex_le_toLex, Prod.Lex.toLex_le_toLex]
  rcases lt_trichotomy (key k) (ofLex c).1 with h | h | h
  · simp [h, h.not_gt, h.ne']
  · cases (ofLex c).2 <;> simp [h]
  · simp [h, h.not_gt, h.ne']

theorem bot_le_startCut : toLex (⊥, true) ≤ r.startCut := by
  rw [startCut, Prod.Lex.toLex_le_toLex]
  by_cases h : r.startKey = ⊥
  · simp [h]
  · exact .inl (bot_lt_iff_ne_bot.2 h)

theorem endCut_le_top : r.endCut ≤ toLex (⊤, true) := by
  rw [endCut, Prod.Lex.toLex_le_toLex]
  by_cases h : r.endKey = ⊤
  · simp [h]
  · exact .inl (lt_top_iff_ne_top.2 h)

theorem has_iff_cut (k : α) :
    r.Has k ↔ r.startCut ≤ toLex (key k, false) ∧ toLex (key k, true) ≤ r.endCut := by
  have hbot : key k ≠ ⊥ := WithBot.coe_ne_bot
  have htop : key k ≠ ⊤ := fun h => WithTop.coe_ne_top (WithBot.coe_injective h)
  simp only [startCut, endCut, Prod.Lex.toLex_le_toLex]
  refine and_congr (or_congr Iff.rfl ?_) (or_congr Iff.rfl ?_)
  · rw [and_comm]
    refine and_congr_right fun h => ?_
    cases r.inclusiveStart <;> simp [h, hbot]
  rw [and_comm]
  refine and_congr_right fun h => ?_
  cases r.inclusiveEnd <;> simp [← h, htop]

end

variable {r r' out : Range α}

theorem isEmpty_eq_false (h : r.startCut < r.endCut) : r.isEmpty = false := by
  unfold isEmpty
  split
  · rfl
  · next hproper =>
    simp only [startCut, endCut, Prod.Lex.toLex_lt_toLex] at h
    rcases h with h | ⟨heq, hflags⟩
    · simp [h.not_gt, h.ne']
    · simp_all [Bool.lt_iff]

theorem endKey_ne_bot (h : r.startCut < r.endCut) : r.endKey ≠ ⊥ := by
  intro hbot
  simp only [startCut, endCut, Prod.Lex.toLex_lt_toLex, hbot, not_lt_bot, false_or] at h
  simp [h.1, Bool.lt_iff] at h

theorem reaches_of_lt (h : r'.startCut < r.endCut) (htop : r.endKey ≠ ⊤) : r.reaches r' := by
  simp only [startCut, endCut, Prod.Lex.toLex_lt_toLex] at h
  unfold reaches
  rcases h with h | ⟨heq, hflags⟩
  · simp [h]
  · simp_all [Bool.lt_iff]

theorem intersect_of_lt (hid : r.tableId = r'.tableId) (hr : r.startCut < r.endCut)
    (hr' : r'.startCut < r'.endCut) (h : r.startCut < r'.endCut) (h' : r'.startCut < r.endCut) :
    r.intersect r' = true := by
  have hlt : ∀ {a b : Range α}, a.tableId = b.tableId → a.endPos < b.endPos → a.endKey ≠ ⊤ := by
    intro a b hab hpos htop
    rw [endPos, endPos, hab, pos_lt_iff, htop] at hpos
    exact not_top_lt hpos
  simp only [intersect, hid, ne_eq, not_true, if_false, isEmpty_eq_false hr, isEmpty_eq_false hr',
    Bool.or_self, Bool.false_eq_true]
  split
  · rfl
  split
  · next hcmp => exact reaches_of_lt h' (hlt hid ((cmp_eq_lt_iff _ _).1 hcmp))
  · next hcmp => exact reaches_of_lt h (hlt hid.symm ((cmp_eq_gt_iff _ _).1 hcmp))
  · rfl

theorem rangeIntersect_spec (hid : r.tableId = r'.tableId) (hr : r.startCut < r.endCut)
    (hr' : r'.startCut < r'.endCut) (h : r.startCut < r'.endCut) (h' : r'.startCut < r.endCut)
    (r₃ : Range α) : ∃ out, r.rangeIntersect r' r₃ = .ok out ∧ out.tableId = r.tableId ∧
      out.startCut = max r.startCut r'.startCut ∧ out.endCut = min r.endCut r'.endCut := by
  let first := if r.compareWithStartkey2 r' = .lt then r' else r
  let last := if r.compareWithEndkey2 r' = .gt then r' else r
  refine ⟨⟨r.tableId, first.startKey, last.endKey, first.inclusiveStart, last.inclusiveEnd⟩,
    ?_, rfl, ?_, ?_⟩
  · rw [rangeIntersect, if_neg (by simp [hid]),
      if_neg (by simp [isEmpty_eq_false hr, isEmpty_eq_false hr']),
      if_pos (intersect_of_lt hid hr hr' h h')]
  · simp only [first, compareWithStartkey2_eq, cmp_eq_lt_iff]
    split
    · next hlt => exact (max_eq_right hlt.le).symm
    · next hlt => exact (max_eq_left (not_lt.1 hlt)).symm
  simp only [last, compareWithEndkey2_eq, cmp_eq_gt_iff]
  split
  · next hlt => exact (min_eq_right hlt.le).symm
  · next hlt => exact (min_eq_left (not_lt.1 hlt)).symm

theorem trim_self (hid : r'.tableId = r.tableId) (hstart : r'.startCut = r.startCut)
    (hend : r'.endCut = r.endCut) : r.trim r' = .error emptyRange := by
  simp [trim, hid, compareWithStartkey2_eq, compareWithEndkey2_eq, hstart, hend]

theorem trim_start (hid : r'.tableId = r.tableId) (hr' : r'.startCut < r'.endCut)
    (hstart : r'.startCut = r.startCut) (hend : r'.endCut < r.endCut) :
    ∃ left, r.trim r' = .ok left ∧ left.tableId = r.tableId ∧ left.startCut = r'.endCut ∧
      left.endCut = r.endCut ∧ r'.endKey ≠ ⊤ := by
  have htop : r'.endKey ≠ ⊤ := by
    intro htop
    have hmax : r'.endCut = toLex (⊤, true) := by simp [endCut, htop]
    exact (hmax ▸ hend).not_ge r.endCut_le_top
  refine ⟨{ r with startKey := r'.endKey, inclusiveStart := !r'.inclusiveEnd }, ?_, rfl, ?_, rfl,
    htop⟩
  · simp [trim, hid, compareWithStartkey2_eq, compareWithEndkey2_eq, hstart,
      (cmp_eq_gt_iff _ _).2 hend]
  · simp [startCut, endCut, htop, endKey_ne_bot hr']

theorem trim_end (hid : r'.tableId = r.tableId) (hproper : r'.startKey ≠ ⊤)
    (hstart : r.startCut < r'.startCut) (hend : r'.endCut = r.endCut) :
    ∃ left, r.trim r' = .ok left ∧ left.startCut = r.startCut ∧ left.endCut = r'.startCut := by
  have hbot : r'.startKey ≠ ⊥ := by
    intro hbot
    simp only [startCut, Prod.Lex.toLex_lt_toLex, hbot, not_lt_bot, false_or] at hstart
    simp [hstart.1] at hstart
  refine ⟨{ r with endKey := r'.startKey, inclusiveEnd := !r'.inclusiveStart }, ?_, rfl, ?_⟩
  · simp [trim, hid, compareWithStartkey2_eq, compareWithEndkey2_eq, hend,
      (cmp_eq_lt_iff _ _).2 hstart]
  · simp [startCut, endCut, hproper, hbot]

end Range

/-! ### Forward -/

namespace LocationIterator

open Range

variable {lookup : Range α → Range α} {n r : Range α}

/-- The tablet has the first keys of the range. -/
def HoldsFirst (t n : Range α) : Prop :=
  t.tableId = n.tableId ∧ t.startCut ≤ n.startCut ∧ n.startCut < t.endCut

section Step

variable (hn : n.startCut < n.endCut) (ht : HoldsFirst (lookup n) n)
include hn ht

theorem next_forward_end (hend : n.endCut ≤ (lookup n).endCut) (out : Range α) :
    ∃ o, next .forward lookup out ⟨n, false⟩ = .ok (o, ⟨n, true⟩) ∧ o.tableId = n.tableId ∧
      o.startCut = n.startCut ∧ o.endCut = n.endCut := by
  obtain ⟨hid, hle, hlt⟩ := ht
  obtain ⟨o, ho, hoid, hostart, hoend⟩ := rangeIntersect_spec hid (hle.trans_lt hlt) hn
    (hle.trans_lt hn) hlt out
  rw [max_eq_right hle] at hostart
  rw [min_eq_right hend] at hoend
  refine ⟨o, ?_, hoid.trans hid, hostart, hoend⟩
  simp [next, trimmed, isEmpty_eq_false hn, ho, trim_self (hoid.trans hid) hostart hoend,
    Except.map]

theorem next_forward_left (hend : (lookup n).endCut < n.endCut) (out : Range α) :
    ∃ o left, next .forward lookup out ⟨n, false⟩ = .ok (o, ⟨left, false⟩) ∧
      o.tableId = n.tableId ∧ o.startCut = n.startCut ∧ o.endCut = (lookup n).endCut ∧
      left.tableId = n.tableId ∧ left.startCut = (lookup n).endCut ∧ left.endCut = n.endCut := by
  obtain ⟨hid, hle, hlt⟩ := ht
  obtain ⟨o, ho, hoid, hostart, hoend⟩ := rangeIntersect_spec hid (hle.trans_lt hlt) hn
    (hle.trans_lt hn) hlt out
  rw [max_eq_right hle] at hostart
  rw [min_eq_left hend.le] at hoend
  obtain ⟨left, htrim, hleft, hlstart, hlend, htop⟩ := trim_start (hoid.trans hid)
    (by rwa [hostart, hoend]) hostart (by rwa [hoend])
  refine ⟨o, left, ?_, hoid.trans hid, hostart, hoend, hleft, hlstart.trans hoend, hlend⟩
  simp [next, trimmed, isEmpty_eq_false hn, ho, htrim, htop, Except.map]

end Step

/-- The ranges go from one cut to the other. -/
def Chain : Key α ×ₗ Bool → List (Range α) → Key α ×ₗ Bool → Prop
  | a, [], b => a = b
  | a, o :: os, b => o.startCut = a ∧ a < o.endCut ∧ Chain o.endCut os b

variable {a b : Key α ×ₗ Bool} {os : List (Range α)}

theorem Chain.le (h : Chain a os b) : a ≤ b := by
  induction os generalizing a with
  | nil => exact le_of_eq h
  | cons o os ih => exact h.2.1.le.trans (ih h.2.2)

theorem Chain.startCut_le (h : Chain a os b) : ∀ o ∈ os, a ≤ o.startCut := by
  induction os generalizing a with
  | nil => simp
  | cons o os ih =>
    exact forall_mem_cons.2 ⟨h.1.ge, fun o' ho' => h.2.1.le.trans (ih h.2.2 o' ho')⟩

theorem Chain.pairwise (h : Chain a os b) :
    os.Pairwise fun o o' => ∀ k k', o.Has k → o'.Has k' → k < k' := by
  induction os generalizing a with
  | nil => exact .nil
  | cons o os ih =>
    refine .cons (fun o' ho' k k' hk hk' => ?_) (ih h.2.2)
    have hcut := ((o.has_iff_cut k).1 hk).2.trans
      ((h.2.2.startCut_le o' ho').trans ((o'.has_iff_cut k').1 hk').1)
    have hflag : ¬true ≤ false := by decide
    simpa [Prod.Lex.toLex_le_toLex, key, hflag] using hcut

theorem Chain.has_iff (h : Chain a os b) (k : α) :
    (∃ o ∈ os, o.Has k) ↔ a ≤ toLex (key k, false) ∧ toLex (key k, true) ≤ b := by
  induction os generalizing a with
  | nil =>
    obtain rfl := h
    simp [succ_le_iff]
  | cons o os ih =>
    obtain ⟨rfl, hlt, hrest⟩ := h
    have hle := hrest.le
    refine (exists_mem_cons_iff ..).trans ((or_congr (o.has_iff_cut k) (ih hrest)).trans ?_)
    rw [succ_le_iff, succ_le_iff]
    constructor
    · rintro (⟨hk, hk'⟩ | ⟨hk, hk'⟩)
      · exact ⟨hk, fun h => hk' (hle.trans h)⟩
      · exact ⟨hlt.le.trans hk, hk'⟩
    rintro ⟨hk, hk'⟩
    by_cases ho : o.endCut ≤ toLex (key k, false)
    · exact .inr ⟨ho, hk'⟩
    · exact .inl ⟨hk, ho⟩

/-- The ranges that the calls hand out lie in tablets and go from the start of the range to its
end. -/
theorem yields_chain {ts : List (Range α)} {id : Nat}
    (hlookup : ∀ n : Range α, n.tableId = id → n.startCut < n.endCut →
      lookup n ∈ ts ∧ HoldsFirst (lookup n) n)
    (hid : r.tableId = id) (hr : r.startCut < r.endCut) (out : Range α) :
    ∃ outs, Yields (next .forward lookup out) outs .iterEnd ⟨r, false⟩ ∧
      Chain r.startCut outs r.endCut ∧ ∀ o ∈ outs, o.tableId = id ∧
        ∃ t ∈ ts, t.startCut ≤ o.startCut ∧ o.endCut ≤ t.endCut := by
  -- the number of tablets that end behind the start of what is left falls
  induction hcount : (ts.filter fun t => r.startCut < t.endCut).length using Nat.strongRecOn
    generalizing r with
  | _ count ih =>
    obtain ⟨hmem, hfirst⟩ := hlookup r hid hr
    rcases le_or_gt r.endCut (lookup r).endCut with hend | hend
    · obtain ⟨o, hnext, hoid, hostart, hoend⟩ := next_forward_end hr hfirst hend out
      refine ⟨[o], ⟨_, hnext, by simp [Yields, next]⟩, ⟨hostart, by rwa [hoend], hoend⟩, ?_⟩
      rw [forall_mem_singleton, hostart, hoend]
      exact ⟨hoid.trans hid, _, hmem, hfirst.2.1, hend⟩
    obtain ⟨o, left, hnext, hoid, hostart, hoend, hlid, hlstart, hlend⟩ :=
      next_forward_left hr hfirst hend out
    have hsub : (ts.filter fun t => left.startCut < t.endCut) =
        (ts.filter fun t => r.startCut < t.endCut).filter fun t => left.startCut < t.endCut := by
      rw [filter_filter]
      refine filter_congr fun t _ => ?_
      have : left.startCut < t.endCut → r.startCut < t.endCut := (hlstart ▸ hfirst.2.2).trans
      by_cases h : left.startCut < t.endCut <;> simp [h, this]
    have hless : (ts.filter fun t => left.startCut < t.endCut).length < count := by
      rw [hsub, ← hcount, length_filter_lt_length_iff_exists]
      exact ⟨lookup r, mem_filter.2 ⟨hmem, by simpa using hfirst.2.2⟩, by simp [hlstart]⟩
    obtain ⟨outs, hyields, hchain, htablets⟩ := ih _ hless (hlid.trans hid)
      (by rwa [hlstart, hlend]) rfl
    refine ⟨o :: outs, ⟨_, hnext, hyields⟩,
      ⟨hostart, by rw [hoend]; exact hfirst.2.2, by rwa [hoend, ← hlstart, ← hlend]⟩, ?_⟩
    refine forall_mem_cons.2 ⟨?_, htablets⟩
    rw [hostart, hoend]
    exact ⟨hoid.trans hid, _, hmem, hfirst.2.1, le_rfl⟩

/-- **Forward iteration.** If every lookup gives a tablet that holds the first keys of what is left,
the calls hand out finitely many ranges, one after another, each in one tablet, that together have
the keys of the range, and then report the end. -/
theorem yields_forward {ts : List (Range α)}
    (hlookup : ∀ n : Range α, n.tableId = r.tableId → n.startCut < n.endCut →
      lookup n ∈ ts ∧ HoldsFirst (lookup n) n) (hr : r.startCut < r.endCut) (out : Range α) :
    ∃ outs, Yields (next .forward lookup out) outs .iterEnd ⟨r, false⟩ ∧
      (outs.Pairwise fun o o' => ∀ k k', o.Has k → o'.Has k' → k < k') ∧
      (∀ o ∈ outs, o.tableId = r.tableId ∧ ∃ t ∈ ts, ∀ k, o.Has k → t.Has k) ∧
      ∀ k, (∃ o ∈ outs, o.Has k) ↔ r.Has k := by
  obtain ⟨outs, hyields, hchain, htablets⟩ := yields_chain hlookup rfl hr out
  refine ⟨outs, hyields, hchain.pairwise, fun o ho => ?_, fun k => ?_⟩
  · obtain ⟨hid, t, ht, hstart, hend⟩ := htablets o ho
    refine ⟨hid, t, ht, fun k hk => (t.has_iff_cut k).2 ?_⟩
    have hcuts := (o.has_iff_cut k).1 hk
    exact ⟨hstart.trans hcuts.1, hcuts.2.trans hend⟩
  · rw [hchain.has_iff, ← r.has_iff_cut]

/-- The tablets `(MIN, 4]` and `(4, MAX]`. -/
def lowTablet : Range Nat := ⟨1, ⊥, key 4, false, true⟩

def highTablet : Range Nat := ⟨1, key 4, ⊤, false, true⟩

/-- The range `[1, 9]`. -/
def oneToNine : Range Nat := ⟨1, key 1, key 9, true, true⟩

def lookupFirst (n : Range Nat) : Range Nat :=
  if n.startCut < lowTablet.endCut then lowTablet else highTablet

theorem lookupFirst_holds {n : Range Nat} (hid : n.tableId = 1) (hn : n.startCut < n.endCut) :
    lookupFirst n ∈ [lowTablet, highTablet] ∧ HoldsFirst (lookupFirst n) n := by
  unfold lookupFirst
  split
  · next hlow => exact ⟨by simp, hid.symm, n.bot_le_startCut, hlow⟩
  · next hhigh => exact ⟨by simp, hid.symm, not_lt.1 hhigh, hn.trans_le n.endCut_le_top⟩

theorem yields_forward_oneToNine : ∃ outs,
    Yields (next .forward lookupFirst oneToNine) outs .iterEnd ⟨oneToNine, false⟩ ∧
      ∀ k, (∃ o ∈ outs, o.Has k) ↔ oneToNine.Has k := by
  obtain ⟨outs, hyields, -, -, hhas⟩ := yields_forward (r := oneToNine)
    (fun n hid hn => lookupFirst_holds hid hn) (by decide) oneToNine
  exact ⟨outs, hyields, hhas⟩

/-! ### Backward -/

/-- The tablet has the last keys of the range. -/
def HoldsLast (t n : Range α) : Prop :=
  t.tableId = n.tableId ∧ t.startCut < n.endCut ∧ n.endCut ≤ t.endCut

/-- Backward the first call hands out what is left after trimming, and ends. -/
theorem yields_backward (hr : r.startCut < r.endCut) (ht : HoldsLast (lookup r) r)
    (htablet : (lookup r).IsTablet) (out : Range α) :
    ∃ o, Yields (next .backward lookup out) [o] .iterEnd ⟨r, false⟩ ∧ o.startCut = r.startCut ∧
      o.endCut = if (lookup r).startCut ≤ r.startCut then r.endCut else (lookup r).startCut := by
  obtain ⟨hid, hlt, hle⟩ := ht
  obtain ⟨o, ho, hoid, hostart, hoend⟩ := rangeIntersect_spec hid (hlt.trans_le hle) hr hlt
    (hr.trans_le hle) out
  rw [min_eq_right hle] at hoend
  split
  · next hin =>
    rw [max_eq_right hin] at hostart
    refine ⟨r, ⟨⟨r, true⟩, ?_, by simp [Yields, next]⟩, rfl, rfl⟩
    simp [next, trimmed, isEmpty_eq_false hr, ho, trim_self (hoid.trans hid) hostart hoend,
      Except.map]
  · next hout =>
    rw [max_eq_left (le_of_not_ge hout)] at hostart
    have hproper : o.startKey ≠ ⊤ := by
      have hkey : o.startKey = (lookup r).startKey := congrArg (fun c => (ofLex c).1) hostart
      rw [hkey]
      exact (htablet.2.2.trans_le le_top).ne
    obtain ⟨left, htrim, hlstart, hlend⟩ := trim_end (hoid.trans hid) hproper
      (by rw [hostart]; exact not_le.1 hout) hoend
    refine ⟨left, ⟨⟨left, true⟩, ?_, by simp [Yields, next]⟩, hlstart, hlend.trans hostart⟩
    simp [next, trimmed, isEmpty_eq_false hr, ho, htrim, Except.map]

/-- **Backward iteration** covers the range exactly if the tablet that holds its last keys holds all
of them, or none. -/
theorem covers_backward_iff (hr : r.startCut < r.endCut) (ht : HoldsLast (lookup r) r)
    (htablet : (lookup r).IsTablet) (out : Range α) :
    (∃ outs, Yields (next .backward lookup out) outs .iterEnd ⟨r, false⟩ ∧
      ∀ k, r.Has k → ∃ o ∈ outs, o.Has k) ↔
      (∀ k, r.Has k → (lookup r).Has k) ∨ ∀ k, r.Has k → ¬(lookup r).Has k := by
  obtain ⟨o, hyields, hostart, hoend⟩ := yields_backward hr ht htablet out
  have hcovers : (∃ outs, Yields (next .backward lookup out) outs .iterEnd ⟨r, false⟩ ∧
      ∀ k, r.Has k → ∃ o ∈ outs, o.Has k) ↔ ∀ k, r.Has k → o.Has k := by
    constructor
    · rintro ⟨outs, hyields', hall⟩
      obtain ⟨rfl, -⟩ := hyields.unique hyields'
      simpa using hall
    · intro hall
      exact ⟨[o], hyields, by simpa using hall⟩
  rw [hcovers]
  obtain ⟨-, hlt, hle⟩ := ht
  by_cases hin : (lookup r).startCut ≤ r.startCut
  · rw [if_pos hin] at hoend
    simp only [has_iff_cut, hostart, hoend]
    exact iff_of_true (fun k hk => hk) (.inl fun k hk => ⟨hin.trans hk.1, hk.2.trans hle⟩)
  rw [if_neg hin] at hoend
  simp only [has_iff_cut, hostart, hoend]
  constructor
  · exact fun hall => .inr fun k hk hk' => succ_le_iff.1 (hall k hk).2 hk'.1
  rintro (hall | hnone)
  · -- the start key of the tablet is in the range but not in the tablet
    have hbot : ⊥ < (lookup r).startKey := by
      rw [bot_lt_iff_ne_bot]
      intro hbot
      exact hin (by simpa [startCut, hbot] using r.bot_le_startCut)
    obtain ⟨k, hk⟩ := exists_key hbot htablet.2.2
    have hcut : (lookup r).startCut = toLex (key k, true) := by
      simp [startCut, hk, htablet.1]
    have hstart : r.startCut ≤ toLex (key k, false) := by
      rwa [← not_not (a := r.startCut ≤ _), ← succ_le_iff, ← hcut]
    have htab := hall k ⟨hstart, hcut ▸ hlt.le⟩
    exact absurd htab.1 (succ_le_iff.1 hcut.ge)
  · intro k hk
    refine ⟨hk.1, succ_le_iff.2 fun hstart => ?_⟩
    exact hnone k hk ⟨hstart, hk.2.trans hle⟩

/-- The tablet `(4, MAX]` holds the last keys of both ranges. -/
def lookupLast (_ : Range Nat) : Range Nat := highTablet

def fiveToNine : Range Nat := ⟨1, key 5, key 9, true, true⟩

theorem highTablet_isTablet : highTablet.IsTablet := ⟨rfl, rfl, by decide⟩

theorem covers_backward_fiveToNine : ∃ outs,
    Yields (next .backward lookupLast fiveToNine) outs .iterEnd ⟨fiveToNine, false⟩ ∧
      ∀ k, fiveToNine.Has k → ∃ o ∈ outs, o.Has k := by
  have ht : HoldsLast (lookupLast fiveToNine) fiveToNine := ⟨rfl, by decide, by decide⟩
  refine (covers_backward_iff (by decide) ht highTablet_isTablet _).2 (.inl fun k hk => ?_)
  rw [has_iff_cut] at hk ⊢
  exact ⟨le_trans (by decide) hk.1, hk.2.trans (by decide)⟩

/-- Of the range `[1, 9]` only the keys up to `4` are handed out. -/
theorem not_covers_backward : Complete [lowTablet, highTablet] ∧
    HoldsLast (lookupLast oneToNine) oneToNine ∧
    ¬∃ outs, Yields (next .backward lookupLast oneToNine) outs .iterEnd ⟨oneToNine, false⟩ ∧
      ∀ k, oneToNine.Has k → ∃ o ∈ outs, o.Has k := by
  refine ⟨⟨?_, by simp [Range.Follows, lowTablet, highTablet], ?_, ?_⟩,
    ⟨rfl, by decide, by decide⟩, ?_⟩
  · simp only [forall_mem_cons, not_mem_nil, false_imp_iff, implies_true, and_true]
    exact ⟨⟨rfl, rfl, by decide⟩, highTablet_isTablet⟩
  · rintro _ ⟨⟩
    rfl
  · rintro _ ⟨⟩
    rfl
  rintro ⟨outs, hyields, hall⟩
  have hone : Yields (next .backward lookupLast oneToNine) [⟨1, key 1, key 4, true, true⟩]
      .iterEnd ⟨oneToNine, false⟩ := ⟨_, rfl, rfl⟩
  obtain ⟨rfl, -⟩ := hone.unique hyields
  have hnine := hall 9 ((has_iff_cut ..).2 (by decide))
  simp only [has_iff_cut] at hnine
  exact absurd hnine (by decide)

end LocationIterator

/-! ### Ranges with a common key -/

namespace Range

variable {r r' : Range α} {k : α}

theorem key_lt_top (k : α) : key k < ⊤ := WithBot.coe_lt_coe.2 (WithTop.coe_lt_top k)

theorem startCut_lt_endCut (h : r.Has k) (h' : r'.Has k) : r.startCut < r'.endCut :=
  lt_of_not_ge fun hle => succ_le_iff.1 ((r'.has_iff_cut k).1 h').2
    (hle.trans ((r.has_iff_cut k).1 h).1)

/-- Over a dense order, ranges with keys have one in common when each starts before the other
ends. -/
theorem exists_has_of_lt [DenselyOrdered α] (hr : ∃ k, r.Has k) (hr' : ∃ k, r'.Has k)
    (h : r.startCut < r'.endCut) (h' : r'.startCut < r.endCut) : ∃ k, r.Has k ∧ r'.Has k := by
  wlog hle : r'.startCut ≤ r.startCut generalizing r r'
  · obtain ⟨k, hk', hk⟩ := this hr' hr h' h (le_of_not_ge hle)
    exact ⟨k, hk, hk'⟩
  simp only [has_iff_cut] at hr hr' ⊢
  obtain ⟨k, hk, hkend⟩ := hr
  obtain ⟨k', -, hk'⟩ := hr'
  by_cases hend : r.endCut ≤ r'.endCut
  · exact ⟨k, ⟨hk, hkend⟩, hle.trans hk, hkend.trans hend⟩
  -- The keys in common are those from the start of `r` to the end of `r'`.
  suffices ∃ l, r.startCut ≤ toLex (key l, false) ∧ toLex (key l, true) ≤ r'.endCut by
    obtain ⟨l, hl, hl'⟩ := this
    exact ⟨l, ⟨hl, hl'.trans (le_of_not_ge hend)⟩, hle.trans hl, hl'⟩
  simp only [startCut, endCut, Prod.Lex.toLex_lt_toLex, Prod.Lex.toLex_le_toLex] at h hk hk' ⊢
  obtain hbot | hbot := eq_bot_or_bot_lt r.startKey
  · exact ⟨k', .inl (hbot ▸ WithBot.bot_lt_coe _), hk'⟩
  obtain htop | htop := eq_top_or_lt_top r'.endKey
  · exact ⟨k, hk, .inl (htop ▸ key_lt_top k)⟩
  have hkeys : r.startKey ≤ r'.endKey := h.elim le_of_lt fun h => h.1.le
  obtain ⟨a, ha⟩ := exists_key hbot (hkeys.trans_lt htop)
  obtain ⟨b, hb⟩ := exists_key (hbot.trans_le hkeys) htop
  rw [ha, hb] at h ⊢
  -- Between two keys there is a third one; a single key is included by both borders.
  obtain h | h := h
  · obtain ⟨l, hal, hlb⟩ := exists_between (WithTop.coe_lt_coe.1 (WithBot.coe_lt_coe.1 h))
    exact ⟨l, .inl (by simpa [key] using hal), .inl (by simpa [key] using hlb)⟩
  · exact ⟨a, .inr ⟨rfl, (Bool.lt_iff.1 h.2).1.le⟩, .inr ⟨h.1, (Bool.lt_iff.1 h.2).2.ge⟩⟩

theorem intersect_comm (r r' : Range α) : r.intersect r' = r'.intersect r := by
  simp only [intersect, ne_comm (a := r.tableId), Bool.or_comm r.isEmpty,
    Bool.or_comm r.isWholeRange, ← cmp_swap r'.endPos]
  cases cmp r'.endPos r.endPos <;> rfl

theorem startCut_lt_of_reaches (hr : r.startCut < r.endCut) (h : r.reaches r' = true) :
    r'.startCut < r.endCut := by
  simp only [reaches, decide_eq_true_eq] at h
  obtain hbot | hlt | ⟨heq, hend, hstart⟩ := h
  · simpa [startCut, hbot] using r.bot_le_startCut.trans_lt hr
  · exact Prod.Lex.toLex_lt_toLex.2 (.inl hlt)
  · exact Prod.Lex.toLex_lt_toLex.2
      (.inr ⟨heq.symm, by simp [hend, hstart, ← heq, endKey_ne_bot hr]⟩)

theorem lt_of_intersect (hid : r.tableId = r'.tableId) (hr : r.startCut < r.endCut)
    (hr' : r'.startCut < r'.endCut) (hne : r.endKey ≠ r'.endKey) (h : r.intersect r' = true) :
    r.startCut < r'.endCut ∧ r'.startCut < r.endCut := by
  wlog hlt : r.endKey < r'.endKey generalizing r r'
  · exact (this hid.symm hr' hr hne.symm (intersect_comm r r' ▸ h)
      (lt_of_le_of_ne (le_of_not_gt hlt) hne.symm)).symm
  refine ⟨hr.trans (Prod.Lex.toLex_lt_toLex.2 (.inl hlt)), startCut_lt_of_reaches hr ?_⟩
  have hpos : cmp r.endPos r'.endPos = .lt := by
    rw [cmp_eq_lt_iff, endPos, endPos, hid, pos_lt_iff]
    exact hlt
  simp only [intersect, hid, isEmpty_eq_false hr, isEmpty_eq_false hr', hpos, isWholeRange,
    hlt.ne_top] at h
  by_cases hbot : r'.startKey = ⊥
  · simp [reaches, hbot]
  · simpa [hbot] using h

/-- With the same end key, a range starts before the other one ends unless that is its only key
and the other one excludes it. -/
theorem startCut_lt_iff (hr : ∃ k, r.Has k) (hend : r.endKey = r'.endKey) :
    r.startCut < r'.endCut ↔ (r.startKey = r.endKey → r'.inclusiveEnd = true) := by
  obtain ⟨k, hk⟩ := hr
  have hcut := startCut_lt_endCut hk hk
  simp only [startCut, endCut, Prod.Lex.toLex_lt_toLex, ← hend] at hcut ⊢
  obtain hlt | ⟨heq, hflags⟩ := hcut
  · simp [hlt, hlt.ne]
  · have htop : r.endKey ≠ ⊤ := by
      rw [← heq]
      exact (hk.le.1.trans_lt (key_lt_top k)).ne
    rw [(Bool.lt_iff.1 hflags).1]
    simp [heq, htop, Bool.lt_iff]

/-- **Ranges that meet.** Two ranges of a table, each with a key in it, are found to meet exactly if
they do, in either order, except where they have the same end key: then they are always found to
meet, though one may have only that key and the other one exclude it. -/
theorem intersect_iff_meets_iff [DenselyOrdered α] (hid : r.tableId = r'.tableId)
    (hr : ∃ k, r.Has k) (hr' : ∃ k, r'.Has k) :
    (r.intersect r' = true ↔ r.Meets r') ∧ r.intersect r' = r'.intersect r ↔
      (r.endKey = r'.endKey → (r.startKey = r.endKey → r'.inclusiveEnd = true) ∧
        (r'.startKey = r'.endKey → r.inclusiveEnd = true)) := by
  have hcut {r : Range α} : (∃ k, r.Has k) → r.startCut < r.endCut := fun ⟨_, hk⟩ =>
    startCut_lt_endCut hk hk
  have hmeets : r.Meets r' ↔ r.startCut < r'.endCut ∧ r'.startCut < r.endCut :=
    ⟨fun ⟨_, _, hk, hk'⟩ => ⟨startCut_lt_endCut hk hk', startCut_lt_endCut hk' hk⟩,
      fun h => ⟨hid, exists_has_of_lt hr hr' h.1 h.2⟩⟩
  rw [and_iff_left (intersect_comm r r'), hmeets]
  by_cases hend : r.endKey = r'.endKey
  · have hint : r.intersect r' = true := by
      simp [intersect, hid, isEmpty_eq_false (hcut hr), isEmpty_eq_false (hcut hr'), endPos, hend]
    rw [startCut_lt_iff hr hend, startCut_lt_iff hr' hend.symm]
    simp [hint, hend]
  · refine iff_of_true ⟨lt_of_intersect hid (hcut hr) (hcut hr') hend, fun h => ?_⟩
      fun h => absurd h hend
    exact intersect_of_lt hid (hcut hr) (hcut hr') h.1 h.2

/-- The ranges `[5, 5]` and `(3, 7]`, and `(3, 5)`, over the rational numbers. -/
def onlyFive : Range ℚ := ⟨1, key 5, key 5, true, true⟩

def threeToSeven : Range ℚ := ⟨1, key 3, key 7, false, true⟩

def belowFive : Range ℚ := ⟨1, key 3, key 5, false, false⟩

theorem intersect_iff_meets_onlyFive :
    (onlyFive.intersect threeToSeven = true ↔ onlyFive.Meets threeToSeven) ∧
      onlyFive.intersect threeToSeven = threeToSeven.intersect onlyFive :=
  Iff.mpr (intersect_iff_meets_iff rfl ⟨5, .inr ⟨rfl, rfl⟩, .inr ⟨rfl, rfl⟩⟩
    ⟨5, .inl (by decide), .inl (by decide)⟩) fun h => absurd h (by decide)

/-- The ranges `[5, 5]` and `(3, 5)` are found to meet. -/
theorem intersect_belowFive : (∃ k, belowFive.Has k) ∧ onlyFive.intersect belowFive = true ∧
    ¬onlyFive.Meets belowFive := by
  refine ⟨⟨4, .inl (by decide), .inl (by decide)⟩, by decide, ?_⟩
  rintro ⟨-, k, hk, -, hk' | hk'⟩
  · exact hk.le.1.not_gt hk'
  · exact absurd hk'.1 (by decide)

end Range

end OceanBase.RootServer
