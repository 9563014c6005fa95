import OceanBase.CompactSSTable.BlockScanner
import OceanBase.Lib.Except

/-!
# The index of the blocks (`ob_sstable_block_index_mgr.cpp`)

The index has the offset and the last key of each block. A scan asks it for a batch of blocks: first
for those of a range, then for those behind or before the offset of a block it has.

The search for the blocks before an offset goes one block too far: the case of the smaller offsets
steps back and falls into the case of the smaller or equal ones, which steps back again
(`searchByOffset_lessThan`).
-/

namespace OceanBase.CompactSSTable

open Lib List Option

variable {κ ρ : Type}

/-- A block of an sstable, which has rows. -/
structure Block (κ ρ : Type) where
  offset : Int
  rows : List (Row κ ρ)
  rows_ne : rows ≠ []

/-- The end key of a block in the index. -/
def Block.endKey (b : Block κ ρ) : κ := (b.rows.getLast b.rows_ne).key

/-- `SearchMode`. -/
inductive SearchMode
  | minValue
  | equal
  | greaterEqual
  | greaterThan
  | lessThan
  | lessEqual
  | maxValue
  deriving DecidableEq

/-- `is_looking_forward_mode`. -/
def SearchMode.isLookingForward : SearchMode → Bool
  | .minValue | .equal | .greaterEqual | .greaterThan => true
  | _ => false

def checkBorder (count find : Int) (mode : SearchMode) : Except Ret Int :=
  if count ≤ find then
    if mode.isLookingForward then .error .beyondTheRange
    else if count - 1 < 0 then .error .beyondTheRange
    else .ok (count - 1)
  else .ok find

variable [LinearOrder κ]

/-- `find_by_key`; a key is there in the modes that compare with one. -/
def findByKey (blocks : List (Block κ ρ)) (key : Option κ) (mode : SearchMode) : Except Ret Int :=
  match mode, key with
  | .minValue, _ => .ok 0
  | .maxValue, _ => .ok (blocks.length - 1)
  | _, none => .error .invalidArgument
  | mode, some key => do
    let find ← checkBorder blocks.length (lowerBound (fun b => b.endKey < key) blocks) mode
    if mode = .greaterThan then
      let find :=
        if blocks[find.toNat]?.any fun b => b.endKey == key then find + 1 else find
      if blocks.length ≤ find then .error .beyondTheRange else .ok find
    else .ok find

/-- The loop of `store_block_position_info` that goes forward: it stops behind the block with the
key. -/
def storeForward (key : Option κ) : Nat → List (Block κ ρ) → List (Block κ ρ)
  | 0, _ => []
  | _, [] => []
  | count + 1, b :: blocks =>
    b :: if key.any fun key => key ≤ b.endKey then [] else storeForward key count blocks

/-- The blocks the other loop goes over, which end with the one that was found. -/
def window (blocks : List (Block κ ρ)) (find needBlockCount : Nat) : List (Block κ ρ) :=
  let maxCount := min (find + 1) needBlockCount
  (blocks.drop (find + 1 - maxCount)).take maxCount

/-- `store_block_position_info`. An element of the array stands for the block it is the position
of. -/
def storeBlockPositionInfo (blocks : List (Block κ ρ)) (find : Int) (mode : SearchMode)
    (key : Option κ) (needBlockCount : Nat) : Except Ret (List (Block κ ρ)) :=
  if find < 0 ∨ blocks.length ≤ find then .error .error
  else
    let stored :=
      if mode.isLookingForward then storeForward key needBlockCount (blocks.drop find.toNat)
      else (window blocks find.toNat needBlockCount).filter fun b =>
        !key.any fun key => b.endKey < key
    if stored = [] then .error .beyondTheRange else .ok stored

def transRangeToSearchKey (range : ObNewRange κ) (isReverseScan : Bool) :
    SearchMode × Option κ :=
  if isReverseScan then
    (if range.endKey.isNone then .maxValue
      else if range.inclusiveEnd then .lessEqual else .lessThan, range.endKey)
  else
    (if range.startKey.isNone then .minValue
      else if range.inclusiveStart then .greaterEqual else .greaterThan, range.startKey)

/-- `search_batch_blocks_by_range`. -/
def searchByRange (blocks : List (Block κ ρ)) (range : ObNewRange κ) (isReverseScan : Bool)
    (needBlockCount : Nat) : Except Ret (List (Block κ ρ)) := do
  let (mode, key) := transRangeToSearchKey range isReverseScan
  let find ← findByKey blocks key mode
  storeBlockPositionInfo blocks find mode (if isReverseScan then range.startKey else range.endKey)
    needBlockCount

/-- The switch of `search_batch_blocks_by_offset`: the block found, and how many are wanted. What
stands before the first block has no offset of interest. -/
def offsetSwitch (blocks : List (Block κ ρ)) (offset find : Int) (mode : SearchMode)
    (needBlockCount : Nat) : Except Ret (Int × Nat) :=
  let isItem (find : Int) : Bool :=
    decide (0 ≤ find) && blocks[find.toNat]?.any fun b => b.offset == offset
  let lessEqual (find : Int) : Except Ret (Int × Nat) :=
    let find := if isItem find then find else find - 1
    if find < 0 then .error .beyondTheRange else .ok (find, needBlockCount)
  match mode with
  | .greaterThan =>
    let find := if isItem find then find + 1 else find
    if blocks.length ≤ find then .error .beyondTheRange else .ok (find, needBlockCount)
  | .equal => if isItem find then .ok (find, 1) else .error .beyondTheRange
  | .greaterEqual => .ok (find, needBlockCount)
  | .lessThan => lessEqual (find - 1)
  | .lessEqual => lessEqual find
  | _ => .error (.other (-1015))

/-- `search_batch_blocks_by_offset`. -/
def searchByOffset (blocks : List (Block κ ρ)) (offset : Int) (mode : SearchMode)
    (needBlockCount : Nat) : Except Ret (List (Block κ ρ)) :=
  if offset < 0 then .error .invalidArgument
  else do
    let find ← checkBorder blocks.length (lowerBound (fun b => b.offset < offset) blocks) mode
    let (find, count) ← offsetSwitch blocks offset find mode needBlockCount
    storeBlockPositionInfo blocks find mode none count

/-! ### What the searches find -/

theorem lowerBound_append {β : Type} {less : β → Bool} {pre post : List β} {b : β}
    (hpre : ∀ a ∈ pre, less a = true) (hb : less b = false) :
    lowerBound less (pre ++ b :: post) = pre.length := by
  induction pre with
  | nil => simp [lowerBound, findIdx_cons, hb]
  | cons a pre ih =>
    have ha := hpre a mem_cons_self
    have htail := ih (forall_mem_cons.1 hpre).2
    rw [lowerBound] at htail ⊢
    rw [cons_append, findIdx_cons, ha, htail]
    rfl

section Searches

variable {blocks before batch after : List (Block κ ρ)} {b : Block κ ρ} {range : ObNewRange κ}
    {needBlockCount find : Nat}

theorem storeForward_none (l : List (Block κ ρ)) :
    storeForward none needBlockCount l = l.take needBlockCount := by
  induction needBlockCount generalizing l with
  | zero => rfl
  | succ count ih =>
    rcases l with _ | ⟨b, l⟩
    · rfl
    · simp [storeForward, ih]

theorem storeForward_append (key : Option κ) (needBlockCount : Nat) (l : List (Block κ ρ)) :
    ∃ rest, l = storeForward key needBlockCount l ++ rest := by
  induction needBlockCount generalizing l with
  | zero => exact ⟨l, rfl⟩
  | succ count ih =>
    rcases l with _ | ⟨b, l⟩
    · exact ⟨[], rfl⟩
    rw [storeForward]
    split_ifs
    · exact ⟨l, rfl⟩
    · obtain ⟨rest, hrest⟩ := ih l
      exact ⟨rest, by rw [cons_append, ← hrest]⟩

theorem storeForward_ne_nil (key : Option κ) {l : List (Block κ ρ)} (hl : l ≠ [])
    (hneed : 1 ≤ needBlockCount) : storeForward key needBlockCount l ≠ [] := by
  obtain ⟨count, rfl⟩ : ∃ count, needBlockCount = count + 1 := ⟨needBlockCount - 1, by omega⟩
  rcases l with _ | ⟨b, l⟩
  · exact absurd rfl hl
  · exact cons_ne_nil _ _

theorem storeBlockPositionInfo_forward {mode : SearchMode}
    (hmode : mode.isLookingForward = true) (hfind : find < blocks.length) (key : Option κ)
    (hneed : 1 ≤ needBlockCount) :
    storeBlockPositionInfo blocks find mode key needBlockCount =
      .ok (storeForward key needBlockCount (blocks.drop find)) := by
  have hne : storeForward key needBlockCount (blocks.drop find) ≠ [] := by
    refine storeForward_ne_nil key (fun hnil => ?_) hneed
    rw [drop_eq_nil_iff] at hnil
    omega
  rw [storeBlockPositionInfo, if_neg (by omega), Int.toNat_natCast, if_pos hmode]
  exact if_neg hne

omit [LinearOrder κ] in
theorem lowerBound_offset (hoffsets : blocks.Pairwise fun a b => a.offset < b.offset)
    (hblocks : blocks = before ++ b :: after) :
    lowerBound (fun other => other.offset < b.offset) blocks = before.length := by
  rw [hblocks] at hoffsets ⊢
  refine lowerBound_append (fun other hother => ?_) (by simp)
  simpa using (pairwise_append.1 hoffsets).2.2 other hother b mem_cons_self

theorem searchByOffset_greaterThan (hoffsets : blocks.Pairwise fun a b => a.offset < b.offset)
    (hnonneg : ∀ b ∈ blocks, 0 ≤ b.offset) (hblocks : blocks = before ++ b :: after)
    (hneed : 1 ≤ needBlockCount) :
    searchByOffset blocks b.offset .greaterThan needBlockCount =
      if after = [] then .error .beyondTheRange else .ok (after.take needBlockCount) := by
  have hfind := lowerBound_offset hoffsets hblocks
  have hoffset : ¬ b.offset < 0 := Int.not_lt.2 (hnonneg b (by simp [hblocks]))
  have hlength : blocks.length = before.length + (after.length + 1) := by simp [hblocks]
  have hitem : blocks[before.length]? = some b := by simp [hblocks]
  have hborder : checkBorder blocks.length before.length .greaterThan =
      .ok (before.length : Int) := by
    rw [checkBorder, if_neg (by omega)]
  rw [searchByOffset, if_neg hoffset, hfind, hborder]
  simp only [except_ok_bind, offsetSwitch, Int.toNat_natCast, hitem, any_some, BEq.rfl,
    Bool.and_true, Int.natCast_nonneg, decide_true, if_true]
  by_cases hafter : after = []
  · rw [if_pos hafter, if_pos (by simp [hlength, hafter])]
    rfl
  have hpos := length_pos_iff.2 hafter
  rw [if_neg hafter, if_neg (by omega)]
  have hcast : (before.length : Int) + 1 = ((before.length + 1 : Nat) : Int) := by push_cast; rfl
  simp only [except_ok_bind]
  rw [hcast, storeBlockPositionInfo_forward rfl (by omega) none hneed, storeForward_none]
  have hdrop : blocks.drop (before.length + 1) = after := by
    rw [hblocks, ← drop_drop]
    simp
  rw [hdrop]

theorem searchByRange_forward (range : ObNewRange κ) (hne : blocks ≠ [])
    (hkeys : IncreasingBy Block.endKey blocks) (hneed : 1 ≤ needBlockCount) :
    (searchByRange blocks range false needBlockCount = .error .beyondTheRange ∧
        ∀ b ∈ blocks, range.aboveStart b.endKey = false) ∨
      ∃ before batch after, blocks = before ++ batch ++ after ∧ batch ≠ [] ∧
        (∀ b ∈ before, range.aboveStart b.endKey = false) ∧
        (∀ b ∈ batch ++ after, range.aboveStart b.endKey = true) ∧
        searchByRange blocks range false needBlockCount = .ok batch := by
  have hstore : ∀ find < blocks.length, ∀ mode : SearchMode, mode.isLookingForward = true →
      (∀ b ∈ blocks.take find, range.aboveStart b.endKey = false) →
      (∀ b ∈ blocks.drop find, range.aboveStart b.endKey = true) →
      ∃ before batch after, blocks = before ++ batch ++ after ∧ batch ≠ [] ∧
        (∀ b ∈ before, range.aboveStart b.endKey = false) ∧
        (∀ b ∈ batch ++ after, range.aboveStart b.endKey = true) ∧
        storeBlockPositionInfo blocks find mode range.endKey needBlockCount = .ok batch := by
    intro find hfind mode hmode hbefore hbehind
    obtain ⟨after, hafter⟩ := storeForward_append range.endKey needBlockCount (blocks.drop find)
    refine ⟨blocks.take find, _, after, ?_, ?_, hbefore, hafter ▸ hbehind,
      storeBlockPositionInfo_forward hmode hfind range.endKey hneed⟩
    · rw [append_assoc, ← hafter, take_append_drop]
    refine storeForward_ne_nil _ (fun hnil => ?_) hneed
    rw [drop_eq_nil_iff] at hnil
    omega
  have hpos := length_pos_iff.2 hne
  rcases hstart : range.startKey with _ | start
  · obtain ⟨before, batch, after, hblocks, hbatch, hbefore, hbehind, hok⟩ :=
      hstore 0 hpos .minValue rfl (by simp) fun b _ => by rw [ObNewRange.aboveStart, hstart]
    refine .inr ⟨before, batch, after, hblocks, hbatch, hbefore, hbehind, ?_⟩
    simp only [searchByRange, transRangeToSearchKey, hstart, Bool.false_eq_true, if_false,
      isNone_none, if_true, findByKey, except_ok_bind]
    exact hok
  obtain ⟨it, hit⟩ : ∃ it, it = lowerBound (fun b => b.endKey < start) blocks := ⟨_, rfl⟩
  have hsearch : searchByRange blocks range false needBlockCount =
      (findByKey blocks (some start)
          (if range.inclusiveStart then .greaterEqual else .greaterThan) >>= fun find =>
        storeBlockPositionInfo blocks find
          (if range.inclusiveStart then .greaterEqual else .greaterThan) range.endKey
          needBlockCount) := by
    simp [searchByRange, transRangeToSearchKey, hstart, Bool.false_eq_true, isNone_some]
  rw [hsearch]
  obtain ⟨hbelow, habove, hequal⟩ := aboveStart_some hstart
  rcases hrow : blocks[it]? with _ | b
  · have hlen := List.getElem?_eq_none_iff.1 hrow
    refine .inl ⟨?_, fun b hmem => ?_⟩
    · rcases range.inclusiveStart with _ | _
      · simp only [Bool.false_eq_true, if_false, findByKey, ← hit, checkBorder]
        rw [if_pos (by exact_mod_cast hlen)]
        rfl
      simp only [if_true, findByKey, ← hit, checkBorder]
      rw [if_pos (by exact_mod_cast hlen)]
      rfl
    · rw [← take_of_length_le hlen] at hmem
      exact hbelow (lt_of_mem_take hkeys hit hmem)
  · obtain ⟨hlt, hle, hdrop, hless, hgreater⟩ := split_lowerBound hkeys hit hrow
    have hbefore : ∀ b ∈ blocks.take it, range.aboveStart b.endKey = false :=
      fun b hb => hbelow (hless b hb)
    have hbehind : ∀ c ∈ blocks.drop (it + 1), range.aboveStart c.endKey = true :=
      fun c hc => habove (hle.trans_lt (hgreater c hc))
    have hdrop_behind : range.aboveStart b.endKey = true →
        ∀ c ∈ blocks.drop it, range.aboveStart c.endKey = true := by
      intro hb
      rw [hdrop]
      exact forall_mem_cons.2 ⟨hb, hbehind⟩
    have hborder : ∀ mode, checkBorder blocks.length (it : Int) mode = .ok (it : Int) := by
      intro mode
      rw [checkBorder, if_neg (by omega)]
    rcases hincl : range.inclusiveStart with _ | _
    · simp only [Bool.false_eq_true, if_false, findByKey, ← hit, hborder, except_ok_bind, if_true,
        Int.toNat_natCast, hrow, any_some, beq_iff_eq]
      by_cases heq : b.endKey = start
      · -- the block ends with the key that is left out
        have hbefore' : ∀ b ∈ blocks.take (it + 1), range.aboveStart b.endKey = false := by
          rw [take_add, hdrop, take_succ_cons, take_zero]
          refine forall_mem_append.2 ⟨hbefore, forall_mem_singleton.2 ?_⟩
          rw [hequal heq, hincl]
        rw [if_pos heq]
        by_cases hlast : it + 1 = blocks.length
        · rw [if_pos (by omega)]
          rw [hlast, take_length] at hbefore'
          exact .inl ⟨rfl, hbefore'⟩
        · rw [if_neg (by omega)]
          exact .inr (hstore (it + 1) (by omega) .greaterThan rfl hbefore' hbehind)
      · rw [if_neg heq, if_neg (by omega)]
        refine .inr (hstore it hlt .greaterThan rfl hbefore (hdrop_behind ?_))
        exact habove (lt_of_le_of_ne hle (Ne.symm heq))
    · simp only [if_true, findByKey, ← hit, hborder]
      refine .inr (hstore it hlt .greaterEqual rfl hbefore (hdrop_behind ?_))
      obtain heq | hgt := hle.eq_or_lt
      · rw [hequal heq.symm, hincl]
      · exact habove hgt

omit [LinearOrder κ] in
theorem window_eq (hfind : find < blocks.length) :
    window blocks find needBlockCount =
      ((blocks.take (find + 1)).reverse.take needBlockCount).reverse := by
  have hlength : (blocks.take (find + 1)).length = find + 1 := by
    rw [length_take]
    omega
  rw [window, take_reverse, reverse_reverse, hlength, drop_take]
  have hdrop : find + 1 - min (find + 1) needBlockCount = find + 1 - needBlockCount := by omega
  have htake : min (find + 1) needBlockCount = find + 1 - (find + 1 - needBlockCount) := by omega
  rw [hdrop, ← htake]

/-- Of the blocks before a batch the nearest is left out. -/
theorem searchByOffset_lessThan (hoffsets : blocks.Pairwise fun a b => a.offset < b.offset)
    (hnonneg : ∀ b ∈ blocks, 0 ≤ b.offset) (hblocks : blocks = before ++ b :: after)
    (hneed : 1 ≤ needBlockCount) :
    searchByOffset blocks b.offset .lessThan needBlockCount =
      if before.reverse.drop 1 = [] then .error .beyondTheRange
      else .ok ((before.reverse.drop 1).take needBlockCount).reverse := by
  have hfind := lowerBound_offset hoffsets hblocks
  have hoffset : ¬ b.offset < 0 := Int.not_lt.2 (hnonneg b (by simp [hblocks]))
  have hlength : blocks.length = before.length + (after.length + 1) := by simp [hblocks]
  have hborder : checkBorder blocks.length before.length .lessThan = .ok (before.length : Int) := by
    rw [checkBorder, if_neg (by omega)]
  -- the block before has a smaller offset, so the search steps back twice
  have hitem : (decide ((0 : Int) ≤ (before.length : Int) - 1) &&
      blocks[((before.length : Int) - 1).toNat]?.any fun other => other.offset == b.offset) =
        false := by
    rw [Bool.and_eq_false_iff]
    by_cases hbefore : before.length = 0
    · left
      simp [hbefore]
    right
    have hpred : ((before.length : Int) - 1).toNat = before.length - 1 := by omega
    have hlt : before.length - 1 < before.length := by omega
    have hget : blocks[before.length - 1]? = some before[before.length - 1] := by
      rw [hblocks, getElem?_append_left hlt, getElem?_eq_getElem hlt]
    rw [hpred, hget, any_some, beq_eq_false_iff_ne]
    rw [hblocks] at hoffsets
    have hsmaller := (pairwise_append.1 hoffsets).2.2 _ (getElem_mem hlt) b mem_cons_self
    omega
  rw [searchByOffset, if_neg hoffset, hfind, hborder]
  simp only [except_ok_bind, offsetSwitch, hitem, Bool.false_eq_true, if_false]
  have hnil : before.reverse.drop 1 = [] ↔ before.length < 2 := by
    rw [drop_eq_nil_iff, length_reverse]
    omega
  by_cases hfew : before.length < 2
  · rw [if_pos (hnil.2 hfew), if_pos (by omega)]
    rfl
  rw [if_neg (mt hnil.1 hfew), if_neg (by omega)]
  have hcast : (before.length : Int) - 1 - 1 = ((before.length - 2 : Nat) : Int) := by omega
  have htake : blocks.take (before.length - 2 + 1) = before.take (before.length - 1) := by
    rw [hblocks, take_append_of_le_length (by omega)]
    congr 1
    omega
  have hwindow : window blocks (before.length - 2) needBlockCount =
      ((before.reverse.drop 1).take needBlockCount).reverse := by
    rw [window_eq (by omega), htake, drop_reverse]
  have hne : ((before.reverse.drop 1).take needBlockCount).reverse ≠ [] := by
    rw [Ne, reverse_eq_nil_iff, take_eq_nil_iff, hnil]
    omega
  simp only [except_ok_bind]
  rw [hcast, storeBlockPositionInfo, if_neg (by omega)]
  simp only [Int.toNat_natCast, any_none, Bool.not_false, filter_true, hwindow]
  exact if_neg hne

/-- The block a reverse scan starts with: the first one that does not end before the end key, or
the last one. -/
def reversePos (blocks : List (Block κ ρ)) (range : ObNewRange κ) : Nat :=
  match range.endKey with
  | none => blocks.length - 1
  | some last => min (lowerBound (fun b => b.endKey < last) blocks) (blocks.length - 1)

/-- The blocks of the first batch of a reverse scan: those of the window that do not end before the
start key. -/
def reverseBatch (blocks : List (Block κ ρ)) (range : ObNewRange κ) (needBlockCount : Nat) :
    List (Block κ ρ) :=
  (window blocks (reversePos blocks range) needBlockCount).filter fun b =>
    !range.startKey.any fun start => b.endKey < start

theorem reversePos_lt (hne : blocks ≠ []) : reversePos blocks range < blocks.length := by
  have hpos := length_pos_iff.2 hne
  rw [reversePos]
  split <;> omega

theorem searchByRange_reverse (hne : blocks ≠ []) :
    searchByRange blocks range true needBlockCount =
      if reverseBatch blocks range needBlockCount = [] then .error .beyondTheRange
      else .ok (reverseBatch blocks range needBlockCount) := by
  have hlt : reversePos blocks range < blocks.length := reversePos_lt hne
  have hstore : ∀ mode : SearchMode, mode.isLookingForward = false →
      storeBlockPositionInfo blocks (reversePos blocks range : Nat) mode range.startKey
          needBlockCount =
        if reverseBatch blocks range needBlockCount = [] then .error .beyondTheRange
        else .ok (reverseBatch blocks range needBlockCount) := by
    intro mode hmode
    rw [storeBlockPositionInfo, if_neg (by omega), Int.toNat_natCast]
    simp only [hmode, Bool.false_eq_true, if_false]
    rfl
  rcases hend : range.endKey with _ | last
  · have hfind : ((blocks.length : Int) - 1) = (reversePos blocks range : Nat) := by
      simp only [reversePos, hend]
      omega
    simp only [searchByRange, transRangeToSearchKey, hend, if_true, isNone_none, findByKey,
      except_ok_bind, hfind]
    exact hstore .maxValue rfl
  have hborder : ∀ mode : SearchMode, mode.isLookingForward = false →
      checkBorder blocks.length (lowerBound (fun b => b.endKey < last) blocks : Nat) mode =
        .ok ((reversePos blocks range : Nat) : Int) := by
    intro mode hmode
    simp only [checkBorder, hmode, reversePos, hend]
    split_ifs
    · omega
    · omega
    all_goals exact congrArg Except.ok (by omega)
  rcases hincl : range.inclusiveEnd with _ | _
  · simp only [searchByRange, transRangeToSearchKey, hend, hincl, if_true, isNone_some,
      Bool.false_eq_true, if_false, findByKey, hborder .lessThan rfl]
    exact hstore .lessThan rfl
  simp only [searchByRange, transRangeToSearchKey, hend, hincl, if_true, isNone_some,
    Bool.false_eq_true, if_false, findByKey, hborder .lessEqual rfl]
  exact hstore .lessEqual rfl

end Searches

end OceanBase.CompactSSTable
