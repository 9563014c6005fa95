import OceanBase.Common.Define

/-!
# Ranges of the dumped tables (`ob_table_mgr.cpp`)

`get_sstable_range_list` cuts a table at the end keys of the dumped tables of a major version. It
does not look at whether a range is stored, and stores the whole range twice where it has no end
key (`getSstableRangeList_iff`).
-/

namespace OceanBase.UpdateServer

open List

variable {κ : Type} {start last : κ} {keys : List κ} {ranges : List (κ × κ)}

/-- `OB_MAX_TABLET_LIST_NUMBER`. -/
def maxTabletListNumber : Nat := 1 <<< 10

/-- `add_tablet` of a left-open and right-closed range; a full list stays as it is. -/
def addTablet (ranges : List (κ × κ)) (ti : κ × κ) : List (κ × κ) :=
  if ranges.length < maxTabletListNumber then ranges ++ [ti] else ranges

theorem foldl_addTablet (more : List (κ × κ)) (hlen : ranges.length ≤ maxTabletListNumber) :
    more.foldl addTablet ranges = (ranges ++ more).take maxTabletListNumber := by
  induction more generalizing ranges with
  | nil => rw [foldl_nil, append_nil, take_of_length_le hlen]
  | cons ti more ih =>
    rw [foldl_cons, addTablet]
    split_ifs with h
    · rw [ih (by rw [length_append]; exact h), append_assoc]
      rfl
    · have hfull := not_lt.1 h
      rw [ih hlen, take_append_of_le_length hfull, take_append_of_le_length hfull]

variable [LinearOrder κ]

/-- Each range begins where the one before ends, from a key to another. -/
def Covers (last : κ) : κ → List (κ × κ) → Prop
  | start, [] => start = last
  | start, range :: ranges => range.1 = start ∧ start < range.2 ∧ Covers last range.2 ranges

theorem Covers.isChain (h : Covers last start ranges) :
    (start :: ranges.map Prod.snd).IsChain (· < ·) := by
  induction ranges generalizing start with
  | nil => exact .singleton _
  | cons range ranges ih => exact .cons_cons h.2.1 (ih h.2.2)

variable [BoundedOrder κ]

/-- The ranges between the end keys from a key on, but for the empty ones. -/
def rangesFrom (start : κ) : List κ → List (κ × κ)
  | [] => if start ≠ ⊤ then [(start, ⊤)] else []
  | key :: keys => (if start ≠ key then [(start, key)] else []) ++ rangesFrom key keys

/-- `get_sstable_range_list`, with the end key of each table, if it has one for the table id. What
`add_tablet` returns in the loop is not looked at. -/
def getSstableRangeList (tables : List (Option κ)) : Option (List (κ × κ)) :=
  if tables = [] then none
  else
    let endkeys := (tables.filterMap id).insertionSort (· ≤ ·)
    let ranges := (rangesFrom ⊥ endkeys).foldl addTablet []
    some (if endkeys.length = 0 then addTablet ranges (⊥, ⊤) else ranges)

/-- A partition of the whole table, which is cut exactly at the keys. -/
def Partitions (keys : List κ) (ranges : List (κ × κ)) : Prop :=
  Covers ⊤ ⊥ ranges ∧ ∀ key, key ∈ ranges.map Prod.snd ↔ key ∈ insert ⊤ (keys.toFinset.erase ⊥)

theorem Partitions.length_eq (h : Partitions keys ranges) :
    ranges.length = (insert ⊤ (keys.toFinset.erase ⊥)).card := by
  have hends : (ranges.map Prod.snd).toFinset = insert ⊤ (keys.toFinset.erase ⊥) := by
    ext key
    rw [mem_toFinset, h.2]
  have hnodup : (ranges.map Prod.snd).Nodup :=
    (pairwise_cons.1 h.1.isChain.pairwise).2.imp ne_of_lt
  rw [← hends, toFinset_card_of_nodup hnodup, length_map]

theorem covers_rangesFrom (hkeys : (start :: keys).Pairwise (· ≤ ·)) :
    Covers ⊤ start (rangesFrom start keys) ∧
      ∀ key, key ∈ (rangesFrom start keys).map Prod.snd ↔ key ≠ start ∧ (key = ⊤ ∨ key ∈ keys) := by
  induction keys generalizing start with
  | nil =>
    by_cases htop : start = ⊤
    · simp [rangesFrom, Covers, htop]
    · simp only [rangesFrom, if_pos htop, Covers, map_cons, map_nil, mem_singleton, not_mem_nil,
        or_false, true_and, and_true]
      exact ⟨lt_top_iff_ne_top.2 htop, fun key => by grind⟩
  | cons next keys ih =>
    obtain ⟨hstart, hkeys⟩ := pairwise_cons.1 hkeys
    obtain ⟨hcovers, hends⟩ := ih hkeys
    obtain rfl | hlt := (hstart next mem_cons_self).eq_or_lt
    · rw [rangesFrom, if_neg (not_not_intro rfl), nil_append]
      exact ⟨hcovers, fun key => by rw [hends, mem_cons]; tauto⟩
    · rw [rangesFrom, if_pos hlt.ne]
      refine ⟨⟨rfl, hlt, hcovers⟩, fun key => ?_⟩
      have hne : key = next ∨ key = ⊤ ∨ key ∈ keys → key ≠ start := by
        rintro (rfl | rfl | hkey)
        · exact hlt.ne'
        · exact (hlt.trans_le le_top).ne'
        · exact (hlt.trans_le (rel_of_pairwise_cons hkeys hkey)).ne'
      rw [singleton_append, map_cons, mem_cons, hends, mem_cons]
      tauto

/-- **The ranges** are a partition exactly if there are end keys, and all the ranges fit. -/
theorem getSstableRangeList_iff [Nontrivial κ] (tables : List (Option κ)) :
    (∀ ranges ∈ getSstableRangeList tables, Partitions (tables.filterMap id) ranges) ↔
      tables = [] ∨ tables.filterMap id ≠ [] ∧
        (insert ⊤ ((tables.filterMap id).toFinset.erase ⊥)).card ≤ maxTabletListNumber := by
  rcases tables with _ | ⟨table, tables⟩
  · simp [getSstableRangeList]
  generalize hkeys : (table :: tables).filterMap id = keys
  have hsorted : (⊥ :: keys.insertionSort (· ≤ ·)).Pairwise (· ≤ ·) :=
    pairwise_cons.2 ⟨fun key _ => bot_le, pairwise_insertionSort (· ≤ ·) keys⟩
  obtain ⟨hcovers, hends⟩ := covers_rangesFrom hsorted
  have hpart : Partitions keys (rangesFrom ⊥ (keys.insertionSort (· ≤ ·))) := by
    refine ⟨hcovers, fun key => ?_⟩
    rw [hends, Finset.mem_insert, Finset.mem_erase, mem_toFinset, mem_insertionSort]
    have hbot : key = ⊤ → key ≠ ⊥ := by
      rintro rfl
      exact top_ne_bot
    tauto
  have hadd (more : List (κ × κ)) : more.foldl addTablet [] = more.take maxTabletListNumber :=
    foldl_addTablet more (Nat.zero_le _)
  rw [getSstableRangeList, if_neg (cons_ne_nil _ _), or_iff_right (cons_ne_nil _ _), hkeys]
  simp only [hadd, length_insertionSort, Option.mem_some_iff, forall_eq', length_eq_zero_iff]
  by_cases hnil : keys = []
  · -- the range is added again, although the loop has stored it
    rw [if_pos hnil]
    subst hnil
    refine iff_of_false (fun h => ?_) fun h => h.1 rfl
    have hcovers := h.1
    simp [addTablet, rangesFrom, Covers, maxTabletListNumber] at hcovers
  rw [if_neg hnil, and_iff_right hnil, ← hpart.length_eq]
  refine ⟨fun h => ?_, fun hle => (take_of_length_le hle).symm ▸ hpart⟩
  have hlen := h.length_eq
  rw [← hpart.length_eq, length_take] at hlen
  omega

/-- The table is cut at one of the end keys, which two tables have. -/
theorem getSstableRangeList_one :
    getSstableRangeList [some (1 : Fin 3), none, some 1] = some [(0, 1), (1, 2)] ∧
      Partitions [1, 1] [((0 : Fin 3), 1), (1, 2)] := by
  have heq : getSstableRangeList [some (1 : Fin 3), none, some 1] = some [(0, 1), (1, 2)] := by
    decide
  exact ⟨heq, (getSstableRangeList_iff [some 1, none, some 1]).2 (by decide) _ heq⟩

/-- A table without an end key. -/
theorem getSstableRangeList_none :
    getSstableRangeList [(none : Option (Fin 3))] = some [(0, 2), (0, 2)] ∧
      ¬Partitions [] [((0 : Fin 3), 2), (0, 2)] :=
  ⟨by decide, fun h => absurd h.1.2.2.1 (by decide)⟩

end OceanBase.UpdateServer
