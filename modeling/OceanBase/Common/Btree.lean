import OceanBase.Lib.Except
import OceanBase.Lib.SortedMap

/-!
# The copy-on-write B+tree (`btree_node.h`, `btree_base.h`)

A put copies the nodes on its path, splits those that are full and publishes a new root. After any
puts the tree is a finite map (`finiteMap_of_puts`).
-/

namespace OceanBase.Common

open Lib List Option

/-! ### The code -/

/-- The answers of the tree other than `ERROR_CODE_OK` that a single thread with memory gets. -/
inductive BtreeError
  | keyRepeat
  | notFound
  | notExpected
  deriving DecidableEq

def constNodeObjectCount : Nat := 31

/-- `BtreeInterNode`: `keys_` and `ptrs_`, of which there is one more. -/
structure BtreeInterNode (κ : Type) (α : Type) where
  keys : List κ
  ptrs : List α

/-- `BtreeBaseNode` by its height: a leaf has pairs, an inter node has nodes one level below. -/
@[reducible]
def BtreeNode (κ : Type) (ν : Type) : Nat → Type
  | 0 => List (κ × ν)
  | d + 1 => BtreeInterNode κ (BtreeNode κ ν d)

variable {κ : Type}

section Search

variable [LinearOrder κ]

/-- The loop of `find_pos`, from `start`, `end`, `mid` and `flag`; it is over within as many rounds
as there are keys. -/
def findLoop (keys : List κ) (key : κ) :
    Nat → Nat → Nat → Nat → Ordering → Nat × Nat × Ordering
  | 0, start, _, mid, flag => (start, mid, flag)
  | rounds + 1, start, stop, mid, flag =>
    if start = stop then (start, mid, flag)
    else
      match keys[(start + stop) / 2]?.map (compare · key) with
      | some .gt => findLoop keys key rounds start ((start + stop) / 2) ((start + stop) / 2) .gt
      | some .lt => findLoop keys key rounds ((start + stop) / 2 + 1) stop ((start + stop) / 2) .lt
      | some .eq => ((start + stop) / 2, (start + stop) / 2, .eq)
      | none => (start, mid, flag)

/-- The sign of the key at `start` against `key` when the loop of `find_pos` is over; it is the sign
of the last round if that round looked there. -/
def findFlag (keys : List κ) (key : κ) (start mid : Nat) (flag : Ordering) : Option Ordering :=
  if flag ≠ .eq ∧ mid ≠ start then keys[start]?.map (compare · key) else some flag

/-- `find_pos`: the position of the last key that is not above `key`, or `-1`, and whether it is
`key`. -/
def findPos (keys : List κ) (key : κ) : Except BtreeError (Int × Bool) :=
  if keys.length = 0 ∨ constNodeObjectCount < keys.length then .error .notExpected
  else
    match findLoop keys key keys.length 0 (keys.length - 1) 1 .lt with
    | (start, mid, flag) =>
      match findFlag keys key start mid flag with
      | some .gt => .ok ((start : Int) - 1, false)
      | some .lt => .ok ((start : Int), false)
      | some .eq => .ok ((start : Int), true)
      | none => .error .notExpected

end Search

/-- `get_key` and `get_ptr`, which check the position. -/
def getAt {α : Type*} (l : List α) (pos : Int) : Except BtreeError α :=
  if pos < 0 then .error .notExpected
  else
    match l[pos.toNat]? with
    | some a => .ok a
    | none => .error .notExpected

/-- `clone_range_and_add_key_` on the keys of an inter node, or on the pairs of a leaf
(`clone_range_and_add_pair_`). -/
def cloneRangeAndAddKey {α : Type} (keys : List α) (rangeStart rangeEnd pos : Nat) (key : α) :
    List α :=
  ((keys.take rangeEnd).drop rangeStart).take pos ++ key ::
    ((keys.take rangeEnd).drop rangeStart).drop pos

variable {ν : Type}

namespace BtreeLeafNode

def getLeftPartLength (pairs : List (κ × ν)) (pos : Nat) : Nat :=
  if pos < (pairs.length + 1) / 2 then (pairs.length + 1) / 2 - 1 else (pairs.length + 1) / 2

def getRightPartLength (pairs : List (κ × ν)) (pos : Nat) : Nat :=
  if pos < (pairs.length + 1) / 2 then pairs.length - (pairs.length + 1) / 2 + 1
  else pairs.length - (pairs.length + 1) / 2

def copyLeftPartAndAddPair (pairs : List (κ × ν)) (pos : Nat) (pair : κ × ν) : List (κ × ν) :=
  if pos < getLeftPartLength pairs pos then
    cloneRangeAndAddKey pairs 0 (getLeftPartLength pairs pos) pos pair
  else pairs.take (getLeftPartLength pairs pos)

def copyRightPartAndAddPair (pairs : List (κ × ν)) (pos : Nat) (pair : κ × ν) : List (κ × ν) :=
  if pos < pairs.length - getRightPartLength pairs pos then
    pairs.drop (pairs.length - getRightPartLength pairs pos)
  else
    cloneRangeAndAddKey pairs (pairs.length - getRightPartLength pairs pos) pairs.length
      (pos - (pairs.length - getRightPartLength pairs pos)) pair

end BtreeLeafNode

open BtreeLeafNode

variable {α : Type} {m : Nat}

namespace BtreeInterNode

variable (n : BtreeInterNode κ α)

variable (pos : Nat)

def setPtr (ptr : α) : BtreeInterNode κ α :=
  ⟨n.keys, n.ptrs.set pos ptr⟩

def cloneRange (rangeStart rangeEnd : Nat) : BtreeInterNode κ α :=
  ⟨(n.keys.take rangeEnd).drop rangeStart, (n.ptrs.take (rangeEnd + 1)).drop rangeStart⟩

/-- `clone_range_and_add_tri_`: the pointer at `pos` becomes two, with `key` between them. -/
def cloneRangeAndAddTri (rangeStart rangeEnd pos : Nat) (key : κ)
    (ptr1 ptr2 : α) : BtreeInterNode κ α :=
  ⟨cloneRangeAndAddKey n.keys rangeStart rangeEnd pos key,
    ((n.ptrs.take (rangeEnd + 1)).drop rangeStart).take pos ++ ptr1 :: ptr2 ::
      ((n.ptrs.take (rangeEnd + 1)).drop rangeStart).drop (pos + 1)⟩

variable (key : κ)

def cloneAndAddTri (ptr1 ptr2 : α) :
    BtreeInterNode κ α :=
  n.cloneRangeAndAddTri 0 n.keys.length pos key ptr1 ptr2

def copyLeftPartAndAddTri (ptr1 ptr2 : α) :
    BtreeInterNode κ α :=
  if pos < n.keys.length / 2 then
    n.cloneRangeAndAddTri 0 (n.keys.length / 2 - 1) pos key ptr1 ptr2
  else if pos = n.keys.length / 2 then (n.cloneRange 0 (n.keys.length / 2)).setPtr pos ptr1
  else n.cloneRange 0 (n.keys.length / 2)

def copyRightPartAndAddTri (ptr1 ptr2 : α) :
    BtreeInterNode κ α :=
  if pos ≤ n.keys.length / 2 then
    if pos = n.keys.length / 2 then
      (n.cloneRange (n.keys.length / 2) n.keys.length).setPtr 0 ptr2
    else n.cloneRange (n.keys.length / 2) n.keys.length
  else
    n.cloneRangeAndAddTri (n.keys.length / 2 + 1) n.keys.length (pos - n.keys.length / 2 - 1) key
      ptr1 ptr2

def getMiddleKeyAfterAdding : Option κ :=
  if pos < n.keys.length / 2 then n.keys[n.keys.length / 2 - 1]?
  else if pos = n.keys.length / 2 then some key
  else n.keys[n.keys.length / 2]?

end BtreeInterNode

open BtreeInterNode

/-- What takes the place of a node: one node, or two with a key between them. -/
inductive PutResult (κ : Type) (α : Type)
  | one (node : α)
  | two (node1 : α) (key : κ) (node2 : α)

section Put

variable [LinearOrder κ]

/-- `put_pair_into_leaf_node_`; a leaf is split only when a pair is added to it. -/
def putPairIntoLeafNode (pairs : List (κ × ν)) (pos : Nat) (found : Bool) (pair : κ × ν) :
    Except BtreeError (PutResult κ (List (κ × ν))) :=
  if found then .ok (.one (pairs.set pos pair))
  else if constNodeObjectCount ≤ pairs.length then
    match (BtreeLeafNode.copyRightPartAndAddPair pairs pos pair).head? with
    | some first =>
      .ok (.two (BtreeLeafNode.copyLeftPartAndAddPair pairs pos pair) first.1
        (BtreeLeafNode.copyRightPartAndAddPair pairs pos pair))
    | none => .error .notExpected
  else .ok (.one (cloneRangeAndAddKey pairs 0 pairs.length pos pair))

/-- `add_tri_into_inter_node_` and `set_ptr_into_inter_node_`: the node with what takes the place of
its pointer at `pos`. -/
def putIntoInterNode {α : Type} (n : BtreeInterNode κ α) (pos : Nat) :
    PutResult κ α → Except BtreeError (PutResult κ (BtreeInterNode κ α))
  | .one ptr => .ok (.one (n.setPtr pos ptr))
  | .two ptr1 key ptr2 =>
    if constNodeObjectCount ≤ n.keys.length then
      match n.getMiddleKeyAfterAdding pos key with
      | some newKey =>
        .ok (.two (n.copyLeftPartAndAddTri pos key ptr1 ptr2) newKey
          (n.copyRightPartAndAddTri pos key ptr1 ptr2))
      | none => .error .notExpected
    else .ok (.one (n.cloneAndAddTri pos key ptr1 ptr2))

/-- `put_pair_` below the root, with whether the key was there. -/
def putPairIntoNode (key : κ) (value : ν) (overwrite : Bool) :
    (d : Nat) → BtreeNode κ ν d → Except BtreeError (Bool × PutResult κ (BtreeNode κ ν d))
  | 0, (pairs : List (κ × ν)) => do
    let (pos, found) ← findPos (pairs.map Prod.fst) key
    if found && !overwrite then .error .keyRepeat
    else
      let node ← putPairIntoLeafNode pairs (if found then pos else pos + 1).toNat found (key, value)
      .ok (found, node)
  | d + 1, (n : BtreeInterNode κ (BtreeNode κ ν d)) => do
    let (pos, _) ← findPos n.keys key
    let ptr ← getAt n.ptrs (pos + 1)
    let (found, ptr) ← putPairIntoNode key value overwrite d ptr
    let node ← putIntoInterNode n (pos + 1).toNat ptr
    .ok (found, node)

/-- `get` below the root. -/
def getFromNode (key : κ) : (d : Nat) → BtreeNode κ ν d → Except BtreeError ν
  | 0, (pairs : List (κ × ν)) => do
    let (pos, found) ← findPos (pairs.map Prod.fst) key
    if found then Prod.snd <$> getAt pairs pos else .error .notFound
  | d + 1, (n : BtreeInterNode κ (BtreeNode κ ν d)) => do
    let (pos, _) ← findPos n.keys key
    let ptr ← getAt n.ptrs (pos + 1)
    getFromNode key d ptr

end Put

/-- `BtreeBase`. -/
structure BtreeBase (κ : Type) (ν : Type) where
  root : Option ((d : Nat) × BtreeNode κ ν d)
  objectCounter : Nat

namespace BtreeBase

/-- The tree after `init`. -/
def empty : BtreeBase κ ν := ⟨none, 0⟩

variable [LinearOrder κ]

def put (t : BtreeBase κ ν) (key : κ) (value : ν) (overwrite : Bool) :
    Except BtreeError (BtreeBase κ ν) :=
  match t.root with
  | none => .ok ⟨some ⟨0, [(key, value)]⟩, t.objectCounter + 1⟩
  | some ⟨d, node⟩ => do
    let (found, node) ← putPairIntoNode key value overwrite d node
    let objectCounter := if found then t.objectCounter else t.objectCounter + 1
    match node with
    | .one node => .ok ⟨some ⟨d, node⟩, objectCounter⟩
    | .two node1 newKey node2 =>
      .ok ⟨some ⟨d + 1, (⟨[newKey], [node1, node2]⟩ : BtreeInterNode κ (BtreeNode κ ν d))⟩,
        objectCounter⟩

def get (t : BtreeBase κ ν) (key : κ) : Except BtreeError ν :=
  match t.root with
  | none => .error .notFound
  | some ⟨d, node⟩ => getFromNode key d node

end BtreeBase

/-! ### Search in a node -/

section Search

variable [LinearOrder κ] {keys : List κ} {key : κ}

/-- The first `n` keys are not above `key`, the others are. -/
structure IsPos (keys : List κ) (key : κ) (n : Nat) (found : Bool) : Prop where
  le_length : n ≤ keys.length
  le_iff : ∀ i k, keys[i]? = some k → (k ≤ key ↔ i < n)
  of_found : found = true → ∃ m, n = m + 1 ∧ keys[m]? = some key
  of_not_found : found = false → key ∉ keys

theorem le_iff_of_pairwise {i j : Nat} {a b : κ} (hs : keys.Pairwise (· < ·))
    (hi : keys[i]? = some a) (hj : keys[j]? = some b) : a ≤ b ↔ i ≤ j := by
  obtain ⟨hil, rfl⟩ := List.getElem?_eq_some_iff.1 hi
  obtain ⟨hjl, rfl⟩ := List.getElem?_eq_some_iff.1 hj
  rw [pairwise_iff_getElem] at hs
  obtain hlt | rfl | hgt := Nat.lt_trichotomy i j
  · exact iff_of_true (hs i j hil hjl hlt).le hlt.le
  · simp
  · exact iff_of_false (hs j i hjl hil hgt).not_ge hgt.not_ge

theorem IsPos.of_eq {s : Nat} (hs : keys.Pairwise (· < ·)) (h : keys[s]? = some key) :
    IsPos keys key (s + 1) true where
  le_length := (List.getElem?_eq_some_iff.1 h).1
  le_iff _ _ hk := (le_iff_of_pairwise hs hk h).trans Nat.lt_succ_iff.symm
  of_found _ := ⟨s, rfl, h⟩
  of_not_found hfound := Bool.noConfusion hfound

theorem IsPos.of_lt_gt {n : Nat} (hs : keys.Pairwise (· < ·)) (hn : n ≤ keys.length)
    (hlt : ∀ i < n, ∀ k, keys[i]? = some k → k < key)
    (hgt : ∀ k, keys[n]? = some k → key < k) : IsPos keys key n false := by
  have hge : ∀ i k, keys[i]? = some k → n ≤ i → key < k := by
    intro i k hk hi
    have hnl : n < keys.length := hi.trans_lt (List.getElem?_eq_some_iff.1 hk).1
    have hnext := getElem?_eq_getElem hnl
    exact (hgt _ hnext).trans_le ((le_iff_of_pairwise hs hnext hk).2 hi)
  refine ⟨hn, fun i k hk => ?_, fun hfound => Bool.noConfusion hfound, fun _ hmem => ?_⟩
  · by_cases hi : i < n
    · exact iff_of_true (hlt i hi k hk).le hi
    · exact iff_of_false (hge i k hk (not_lt.1 hi)).not_ge hi
  obtain ⟨i, hi⟩ := getElem?_of_mem hmem
  by_cases hin : i < n
  · exact lt_irrefl key (hlt i hin key hi)
  · exact lt_irrefl key (hge i key hi (not_lt.1 hin))

/-- What holds between two rounds of the loop of `find_pos`. -/
structure Searching (keys : List κ) (key : κ) (start stop mid : Nat) (flag : Ordering) : Prop where
  le : start ≤ stop
  lt_length : stop < keys.length
  below : ∀ i < start, ∀ k, keys[i]? = some k → k < key
  above : stop + 1 = keys.length ∨ ∀ k, keys[stop]? = some k → key < k
  flag_ne : flag ≠ .eq
  known : mid = start → flag = .gt ∧ ∀ k, keys[start]? = some k → key < k

/-- The loop meets the key, or ends at the only place that is left for it. -/
theorem findLoop_spec (hs : keys.Pairwise (· < ·)) (rounds : Nat) {start stop mid : Nat}
    {flag : Ordering} (h : Searching keys key start stop mid flag)
    (hrounds : stop ≤ start + rounds) :
    ∃ s m f, findLoop keys key rounds start stop mid flag = (s, m, f) ∧
      (f = .eq ∧ keys[s]? = some key ∨ Searching keys key s s m f) := by
  induction rounds generalizing start stop mid flag with
  | zero =>
    obtain rfl : start = stop := by have := h.le; omega
    exact ⟨start, mid, flag, rfl, Or.inr h⟩
  | succ rounds ih =>
    by_cases heq : start = stop
    · subst heq
      exact ⟨start, mid, flag, by rw [findLoop, if_pos rfl], Or.inr h⟩
    have hle := h.le
    have hlen := h.lt_length
    have hmid : (start + stop) / 2 < keys.length := by omega
    have hget := getElem?_eq_getElem hmid
    rw [findLoop, if_neg heq, hget, map_some]
    cases hc : compare keys[(start + stop) / 2] key with
    | lt =>
      have hlt := compare_lt_iff_lt.1 hc
      refine ih ⟨by omega, hlen, fun i hi k hk => ?_, h.above, by simp, by omega⟩ (by omega)
      obtain ⟨hil, rfl⟩ := List.getElem?_eq_some_iff.1 hk
      obtain hi | hi := Nat.lt_succ_iff_lt_or_eq.1 hi
      · exact (pairwise_iff_getElem.1 hs i _ hil hmid hi).trans hlt
      · subst hi
        exact hlt
    | eq =>
      refine ⟨_, _, _, rfl, Or.inl ⟨rfl, ?_⟩⟩
      rw [hget, compare_eq_iff_eq.1 hc]
    | gt =>
      have hgt : ∀ k, keys[(start + stop) / 2]? = some k → key < k := by
        intro k hk
        rw [hget] at hk
        exact some.inj hk ▸ compare_gt_iff_gt.1 hc
      refine ih ⟨by omega, hmid, h.below, Or.inr hgt, by simp, fun hm => ⟨rfl, ?_⟩⟩ (by omega)
      exact hm ▸ hgt

theorem findFlag_eq {s : Nat} {f : Ordering} (hsl : s < keys.length)
    (h : f = .eq ∧ keys[s]? = some key ∨ Searching keys key s s m f) :
    findFlag keys key s m f = some (compare (keys.get ⟨s, hsl⟩) key) := by
  have hget : keys[s]? = some (keys.get ⟨s, hsl⟩) := getElem?_eq_getElem hsl
  rw [findFlag]
  obtain ⟨rfl, hs'⟩ | hsearch := h
  · obtain hkey := some.inj (hget.symm.trans hs')
    rw [if_neg (by simp), hkey, compare_eq_iff_eq.2 rfl]
  split_ifs with hm
  · rw [hget, map_some]
  have hms : m = s := by
    by_contra hne
    exact hm ⟨hsearch.flag_ne, hne⟩
  obtain ⟨rfl, hgt⟩ := hsearch.known hms
  rw [compare_gt_iff_gt.2 (hgt _ hget)]

theorem findPos_spec (hs : keys.Pairwise (· < ·)) (hpos : keys ≠ [])
    (hlen : keys.length ≤ constNodeObjectCount) :
    ∃ (n : Nat) (found : Bool), findPos keys key = .ok ((n : Int) - 1, found) ∧
      IsPos keys key n found := by
  have hlen0 := length_pos_iff.2 hpos
  have hstart : Searching keys key 0 (keys.length - 1) 1 .lt :=
    ⟨by omega, by omega, by omega, by omega, by simp, by omega⟩
  obtain ⟨s, m, f, hloop, hend⟩ := findLoop_spec hs keys.length hstart (by omega)
  have hsl : s < keys.length := by
    obtain ⟨-, hs'⟩ | hsearch := hend
    · exact (List.getElem?_eq_some_iff.1 hs').1
    · exact hsearch.lt_length
  have hget : keys[s]? = some (keys.get ⟨s, hsl⟩) := getElem?_eq_getElem hsl
  simp only [findPos,
    if_neg (show ¬ (keys.length = 0 ∨ constNodeObjectCount < keys.length) by omega), hloop,
    findFlag_eq hsl hend]
  cases hc : compare (keys.get ⟨s, hsl⟩) key with
  | eq =>
    refine ⟨s + 1, true, by simp, IsPos.of_eq hs ?_⟩
    rw [hget, compare_eq_iff_eq.1 hc]
  | gt =>
    -- the keys from `s` on are above, and the loop has left those before it behind
    obtain ⟨-, hs'⟩ | hsearch := hend
    · rw [some.inj (hget.symm.trans hs'), compare_eq_iff_eq.2 rfl] at hc
      cases hc
    refine ⟨s, false, rfl, IsPos.of_lt_gt hs (Nat.le_of_lt hsl) hsearch.below fun k hk => ?_⟩
    rw [hget] at hk
    exact some.inj hk ▸ compare_gt_iff_gt.1 hc
  | lt =>
    -- only the last key can be below at the end
    have hlt := compare_lt_iff_lt.1 hc
    obtain ⟨-, hs'⟩ | hsearch := hend
    · rw [some.inj (hget.symm.trans hs'), compare_eq_iff_eq.2 rfl] at hc
      cases hc
    have hlast : s + 1 = keys.length :=
      hsearch.above.resolve_right fun h => lt_asymm hlt (h _ hget)
    refine ⟨s + 1, false, by simp, IsPos.of_lt_gt hs hsl (fun i hi k hk => ?_) fun k hk => ?_⟩
    · obtain hi | rfl := Nat.lt_succ_iff_lt_or_eq.1 hi
      · exact hsearch.below i hi k hk
      · rw [hget] at hk
        exact some.inj hk ▸ hlt
    · rw [getElem?_eq_none (by omega)] at hk
      cases hk

end Search

/-! ### What a node holds -/

section Shape

variable {κ ν : Type}

/-- The pairs of the leaves below a node, from left to right. -/
def contents : (d : Nat) → BtreeNode κ ν d → List (κ × ν)
  | 0, (pairs : List (κ × ν)) => pairs
  | d + 1, (n : BtreeInterNode κ (BtreeNode κ ν d)) => n.ptrs.flatMap (contents d)

/-- The first key of a list of pairs. -/
def firstKey (l : List (κ × ν)) : Option κ := l.head?.map Prod.fst

/-- Each key of an inter node is the first key that the pointer to its right leads to. -/
def Separated (d : Nat) (keys : List κ) (ptrs : List (BtreeNode κ ν d)) : Prop :=
  ptrs.tail.map (fun ptr => firstKey (contents d ptr)) = keys.map some

/-- The sizes of the nodes, and the keys of the inter nodes. -/
def Shaped : (d : Nat) → BtreeNode κ ν d → Prop
  | 0, (pairs : List (κ × ν)) => pairs ≠ [] ∧ pairs.length ≤ constNodeObjectCount
  | d + 1, (n : BtreeInterNode κ (BtreeNode κ ν d)) =>
    n.keys ≠ [] ∧ n.keys.length ≤ constNodeObjectCount ∧ (∀ ptr ∈ n.ptrs, Shaped d ptr) ∧
      Separated d n.keys n.ptrs

variable {d : Nat}

theorem contents_ne_nil {n : BtreeNode κ ν d} (h : Shaped d n) : contents d n ≠ [] := by
  induction d with
  | zero => exact h.1
  | succ d ih =>
    obtain ⟨hkeys, -, hptrs, hsep⟩ := h
    obtain ⟨keys, ptrs⟩ := n
    rcases ptrs with _ | ⟨ptr, ptrs⟩
    · exact absurd (map_eq_nil_iff.1 hsep.symm) hkeys
    · intro hnil
      exact ih (hptrs ptr mem_cons_self) (append_eq_nil_iff.1 hnil).1

theorem mem_of_firstKey {l : List (κ × ν)} {k : κ} (h : firstKey l = some k) : ∃ v, (k, v) ∈ l := by
  obtain ⟨e, he, rfl⟩ := map_eq_some_iff.1 h
  exact ⟨e.2, mem_of_mem_head? he⟩

variable [LinearOrder κ] {ptrs : List (BtreeNode κ ν d)} {ptr : BtreeNode κ ν d}

theorem sorted_of_mem_ptrs
    (hs : Sorted (ptrs.flatMap (contents d))) (h : ptr ∈ ptrs) : Sorted (contents d ptr) :=
  (pairwise_flatMap.1 hs).1 ptr h

variable {n : BtreeInterNode κ (BtreeNode κ ν d)}

omit [LinearOrder κ] in
theorem sep_of_getElem? (h : Shaped (d + 1) n) {i : Nat} (hi : n.ptrs[i + 1]? = some ptr) :
    ∃ k, n.keys[i]? = some k ∧ firstKey (contents d ptr) = some k := by
  have hsep := congrArg (fun l => l[i]?) h.2.2.2
  simp only [getElem?_map, getElem?_tail, hi] at hsep
  obtain ⟨k, hk, heq⟩ := map_eq_some_iff.1 hsep.symm
  exact ⟨k, hk, heq.symm⟩

omit [LinearOrder κ] in
theorem length_ptrs (h : Shaped (d + 1) n) :
    n.ptrs.length = n.keys.length + 1 := by
  obtain ⟨hne, -, -, hsep⟩ := h
  have htail := congrArg List.length (show _ = _ from hsep)
  rw [length_map, length_map, length_tail] at htail
  have := length_pos_iff.2 hne
  omega

theorem keys_pairwise (h : Shaped (d + 1) n)
    (hs : Sorted (contents (d + 1) n)) : n.keys.Pairwise (· < ·) := by
  obtain ⟨-, -, -, hsep⟩ := h
  have htail := (pairwise_flatMap.1 hs).2.sublist (tail_sublist n.ptrs)
  have hfirst : (n.ptrs.tail.map fun ptr => firstKey (contents d ptr)).Pairwise
      fun a b => ∀ x, a = some x → ∀ y, b = some y → x < y := by
    refine pairwise_map.2 (htail.imp fun hlt x hx y hy => ?_)
    obtain ⟨_, hx⟩ := mem_of_firstKey hx
    obtain ⟨_, hy⟩ := mem_of_firstKey hy
    exact hlt _ hx _ hy
  rw [hsep, pairwise_map] at hfirst
  exact hfirst.imp fun hlt => hlt _ rfl _ rfl

/-- Where `find_pos` leads in an inter node: what is left of the pointer is below the key, and what
is right of it is above. -/
theorem descend_spec (h : Shaped (d + 1) n)
    (hs : Sorted (contents (d + 1) n)) (key : κ) :
    ∃ left ptr right found, n.ptrs = left ++ ptr :: right ∧
      findPos n.keys key = .ok ((left.length : Int) - 1, found) ∧
      (∀ e ∈ left.flatMap (contents d), e.1 < key) ∧
      (∀ e ∈ right.flatMap (contents d), key < e.1) ∧
      (left ≠ [] → ∃ k, firstKey (contents d ptr) = some k ∧ k ≤ key) := by
  obtain ⟨m, found, hfind, hpos⟩ : ∃ (m : Nat) (found : Bool),
      findPos n.keys key = .ok ((m : Int) - 1, found) ∧ IsPos n.keys key m found :=
    findPos_spec (keys_pairwise h hs) h.1 h.2.1
  have hm : m < n.ptrs.length := by
    have := hpos.le_length
    rw [length_ptrs h]
    omega
  have hsplit : n.ptrs = n.ptrs.take m ++ n.ptrs.get ⟨m, hm⟩ :: n.ptrs.drop (m + 1) := by
    rw [get_eq_getElem, getElem_cons_drop, take_append_drop]
  have hfirst : n.ptrs.take m ≠ [] →
      ∃ k, firstKey (contents d (n.ptrs.get ⟨m, hm⟩)) = some k ∧ k ≤ key := by
    intro hne
    obtain ⟨j, rfl⟩ := Nat.exists_eq_succ_of_ne_zero (n := m) (by rintro rfl; exact hne rfl)
    obtain ⟨k, hk, hfirst⟩ := sep_of_getElem? h (getElem?_eq_getElem hm)
    exact ⟨k, hfirst, (hpos.le_iff j k hk).2 (Nat.lt_succ_self j)⟩
  refine ⟨n.ptrs.take m, n.ptrs.get ⟨m, hm⟩, n.ptrs.drop (m + 1), found, hsplit, ?_, ?_, ?_, hfirst⟩
  · rw [hfind, length_take, Nat.min_eq_left (Nat.le_of_lt hm)]
  · intro e he
    obtain ⟨ptr, hptr, hmem⟩ := mem_flatMap.1 he
    obtain ⟨k, hk, hle⟩ := hfirst (List.ne_nil_of_mem hptr)
    obtain ⟨v, hv⟩ := mem_of_firstKey hk
    have hsorted := hs
    rw [contents, hsplit, flatMap_append, Sorted, pairwise_append] at hsorted
    exact (hsorted.2.2 e he (k, v) (mem_append_left _ hv)).trans_le hle
  intro e he
  obtain ⟨ptr, hptr, he⟩ := mem_flatMap.1 he
  obtain ⟨i, hi⟩ := getElem?_of_mem hptr
  rw [getElem?_drop, Nat.add_right_comm] at hi
  obtain ⟨k, hk, hfirst⟩ := sep_of_getElem? h hi
  have hgt : key < k := not_le.1 fun hle => by have := (hpos.le_iff _ k hk).1 hle; omega
  exact hgt.trans_le ((sorted_of_mem_ptrs hs (mem_of_mem_drop hptr)).first_le hfirst he)

variable {pairs : List (κ × ν)} {α : Type}

theorem leaf_spec (h : Shaped 0 pairs) (hs : Sorted pairs) (key : κ) :
    (∃ left value right, pairs = left ++ (key, value) :: right ∧
      findPos (pairs.map Prod.fst) key = .ok ((left.length : Int), true) ∧
      (∀ e ∈ left, e.1 < key) ∧ ∀ e ∈ right, key < e.1) ∨
    ∃ left right, pairs = left ++ right ∧
      findPos (pairs.map Prod.fst) key = .ok ((left.length : Int) - 1, false) ∧
      (∀ e ∈ left, e.1 < key) ∧ ∀ e ∈ right, key < e.1 := by
  have hkeys : (pairs.map Prod.fst).Pairwise (· < ·) := pairwise_map.2 hs
  obtain ⟨n, found, hfind, hpos⟩ : ∃ (n : Nat) (found : Bool),
      findPos (pairs.map Prod.fst) key = .ok ((n : Int) - 1, found) ∧
        IsPos (pairs.map Prod.fst) key n found :=
    findPos_spec hkeys (by simpa using h.1) (by simpa using h.2)
  have hle : ∀ i e, pairs[i]? = some e → (e.1 ≤ key ↔ i < n) := by
    intro i e he
    exact hpos.le_iff i e.1 (by rw [getElem?_map, he, map_some])
  have hgt : ∀ e ∈ pairs.drop n, key < e.1 := by
    intro e he
    obtain ⟨i, hi⟩ := getElem?_of_mem he
    rw [getElem?_drop] at hi
    exact not_le.1 fun h => by have := (hle _ e hi).1 h; omega
  rcases found with _ | _
  · right
    have hn : n ≤ pairs.length := by simpa using hpos.le_length
    refine ⟨pairs.take n, pairs.drop n, (take_append_drop n pairs).symm, ?_, fun e he => ?_, hgt⟩
    · rw [hfind, length_take, Nat.min_eq_left hn]
    obtain ⟨i, hi, rfl⟩ := mem_take_iff_getElem.1 he
    refine lt_of_le_of_ne ((hle i _ (getElem?_eq_getElem (by omega))).2 (by omega)) fun heq => ?_
    exact hpos.of_not_found rfl (heq ▸ mem_map_of_mem (getElem_mem _))
  left
  obtain ⟨m, rfl, hkey⟩ := hpos.of_found rfl
  rw [getElem?_map] at hkey
  obtain ⟨⟨k, value⟩, hget, rfl⟩ := map_eq_some_iff.1 hkey
  obtain ⟨hm, hget⟩ := List.getElem?_eq_some_iff.1 hget
  have hsplit : pairs = pairs.take m ++ (k, value) :: pairs.drop (m + 1) := by
    rw [← hget, getElem_cons_drop, take_append_drop]
  refine ⟨pairs.take m, value, pairs.drop (m + 1), hsplit, ?_, fun e he => ?_, hgt⟩
  · rw [hfind, length_take, Nat.min_eq_left (by omega)]
    simp
  · rw [hsplit, Sorted, pairwise_append] at hs
    exact hs.2.2 e he _ mem_cons_self

theorem getAt_append (left : List α) (a : α) (right : List α) :
    getAt (left ++ a :: right) left.length = .ok a := by
  simp [getAt]

/-- What `get` answers for a list of pairs. -/
def lookupRet (l : List (κ × ν)) (key : κ) : Except BtreeError ν :=
  match l.lookup key with
  | some value => .ok value
  | none => .error .notFound

theorem getFromLeaf_spec (h : Shaped 0 pairs) (hs : Sorted pairs) (key : κ) :
    getFromNode key 0 pairs = lookupRet pairs key := by
  obtain ⟨left, value, right, rfl, hfind, hleft, -⟩ | ⟨left, right, rfl, hfind, hleft, hright⟩ :=
    leaf_spec h hs key
  · rw [lookupRet, lookup_append_of_lt hleft, lookup_cons_self]
    simp only [getFromNode, hfind, except_ok_bind, getAt_append]
    rfl
  rw [lookupRet, lookup_append_of_lt hleft,
    lookup_eq_none_of_forall_ne fun e he => (hright e he).ne']
  simp only [getFromNode, hfind]
  rfl

theorem getFromNode_spec {n : BtreeNode κ ν d} (h : Shaped d n)
    (hs : Sorted (contents d n)) (key : κ) :
    getFromNode key d n = lookupRet (contents d n) key := by
  induction d with
  | zero => exact getFromLeaf_spec h hs key
  | succ d ih =>
    obtain ⟨left, ptr, right, found, hn, hfind, hleft, hright, -⟩ := descend_spec h hs key
    have hmem : ptr ∈ n.ptrs := by simp [hn]
    have hlookup : lookupRet (contents (d + 1) n) key = lookupRet (contents d ptr) key := by
      rw [lookupRet, contents, hn, flatMap_append, lookup_append_of_lt hleft, flatMap_cons,
        lookup_append_of_gt hright, lookupRet]
    rw [hlookup, ← ih (h.2.2.1 ptr hmem) (sorted_of_mem_ptrs hs hmem), getFromNode, hfind]
    simp [except_ok_bind, hn, getAt_append]

/-! ### Writing a key -/

section Separated

variable {keys : List κ} {ptrs left right : List (BtreeNode κ ν d)} {ptr ptr' : BtreeNode κ ν d}

omit [LinearOrder κ] in
theorem Separated.take (h : Separated d keys ptrs) (m : Nat) :
    Separated d (keys.take m) (ptrs.take (m + 1)) := by
  rcases ptrs with _ | ⟨p, ptrs⟩
  · obtain rfl : keys = [] := map_eq_nil_iff.1 (show _ = _ from h).symm
    rwa [take_nil, take_nil]
  · exact (map_take.trans (congrArg (List.take m) h)).trans map_take.symm

omit [LinearOrder κ] in
theorem Separated.drop (h : Separated d keys ptrs) (m : Nat) :
    Separated d (keys.drop m) (ptrs.drop m) := by
  rw [Separated, tail_drop, ← drop_tail, map_drop, map_drop]
  exact congrArg (List.drop m) h

omit [LinearOrder κ] in
theorem Separated.replace (h : Separated d keys (left ++ ptr :: right))
    (hfirst : left ≠ [] → firstKey (contents d ptr') = firstKey (contents d ptr)) :
    Separated d keys (left ++ ptr' :: right) := by
  rcases left with _ | ⟨p, left⟩
  · exact h
  · simp only [Separated, cons_append, tail_cons, map_append, map_cons] at h ⊢
    rwa [hfirst (by simp)]

omit [LinearOrder κ] in
theorem Separated.insert {key : κ} (h : Separated d keys (left ++ ptr :: right))
    (hfirst : firstKey (contents d ptr') = some key) :
    Separated d (keys.take left.length ++ key :: keys.drop left.length)
      (left ++ ptr :: ptr' :: right) := by
  rcases left with _ | ⟨p, left⟩
  · simp only [Separated, nil_append, tail_cons] at h ⊢
    simp [h, hfirst]
  simp only [Separated, cons_append, tail_cons, map_append, map_cons, map_take, map_drop,
    hfirst] at h ⊢
  rw [← h, take_append, drop_append, take_of_length_le (by simp), drop_of_length_le (by simp)]
  simp

end Separated

/-- What is below the result of a put. -/
def PutResult.contents {d : Nat} : PutResult κ (BtreeNode κ ν d) → List (κ × ν)
  | .one node => Common.contents d node
  | .two node1 _ node2 => Common.contents d node1 ++ Common.contents d node2

/-- The nodes of the result are shaped, and the key between two of them is the first of the
second. -/
def PutResult.Shaped {d : Nat} : PutResult κ (BtreeNode κ ν d) → Prop
  | .one node => Common.Shaped d node
  | .two node1 key node2 => Common.Shaped d node1 ∧ Common.Shaped d node2 ∧
      firstKey (Common.contents d node2) = some key

section Leaf

variable {left right : List (κ × ν)} {key : κ} {value : ν}

theorem cloneRangeAndAddKey_take (left right : List α) (a : α) (h : left.length < m) :
    cloneRangeAndAddKey (left ++ right) 0 (m - 1) left.length a = (left ++ a :: right).take m := by
  have htake : (left ++ right).take (m - 1) = left ++ right.take (m - 1 - left.length) := by
    rw [take_append, take_of_length_le (by omega)]
  have hrest : m - left.length = m - 1 - left.length + 1 := by omega
  rw [cloneRangeAndAddKey, drop_zero, htake, take_left, drop_left, take_append,
    take_of_length_le h.le, hrest, take_succ_cons]

theorem cloneRangeAndAddKey_drop (left right : List α) (a : α) (h : m ≤ left.length) :
    cloneRangeAndAddKey (left ++ right) m (left ++ right).length (left.length - m) a =
      (left ++ a :: right).drop m := by
  have hlength : left.length - m = (left.drop m).length := length_drop.symm
  rw [cloneRangeAndAddKey, take_length, drop_append_of_le_length h, drop_append_of_le_length h,
    hlength, take_left, drop_left]

omit [LinearOrder κ] in
/-- The two parts of a leaf are the leaf with the pair added, cut in the middle, or before the pair
if that is there. -/
theorem copyParts_eq (left right : List (κ × ν)) (pair : κ × ν)
    (hlen : 3 ≤ (left ++ right).length) :
    ∃ m, 0 < m ∧ m < (left ++ right).length ∧
      copyLeftPartAndAddPair (left ++ right) left.length pair = (left ++ pair :: right).take m ∧
      copyRightPartAndAddPair (left ++ right) left.length pair =
        (left ++ pair :: right).drop m := by
  rw [copyLeftPartAndAddPair, copyRightPartAndAddPair, getLeftPartLength, getRightPartLength]
  generalize hhalf : ((left ++ right).length + 1) / 2 = half
  obtain hlt | heq | hge :
      left.length + 1 < half ∨ left.length + 1 = half ∨ half ≤ left.length := by
    omega
  · refine ⟨half, by omega, by omega, ?_, ?_⟩
    · rw [if_pos (by omega : left.length < half), if_pos (by omega),
        cloneRangeAndAddKey_take left right pair (by omega)]
    apply ext_getElem?
    intro i
    grind
  · have hnum : (left ++ right).length - ((left ++ right).length - half + 1) = left.length := by
      omega
    refine ⟨left.length, by omega, by omega, ?_, ?_⟩
    · rw [if_pos (by omega : left.length < half), if_neg (by omega), ← heq]
      simp
    · rw [if_pos (by omega : left.length < half), hnum, if_neg (by omega),
        cloneRangeAndAddKey_drop left right pair (le_refl _)]
  · have hnum : (left ++ right).length - ((left ++ right).length - half) = half := by omega
    refine ⟨half, by omega, by omega, ?_, ?_⟩
    · rw [if_neg (by omega : ¬ left.length < half), if_neg (by omega), take_append_of_le_length hge,
        take_append_of_le_length hge]
    · rw [if_neg (by omega : ¬ left.length < half), hnum, if_neg (by omega),
        cloneRangeAndAddKey_drop left right pair hge]

theorem putPairIntoLeafNode_found (h : Shaped 0 (left ++ (key, value) :: right))
    (hleft : ∀ e ∈ left, e.1 < key) (value' : ν) :
    ∃ node : PutResult κ (BtreeNode κ ν 0),
      putPairIntoLeafNode (left ++ (key, value) :: right) left.length true (key, value') =
        .ok node ∧
      node.Shaped ∧ node.contents = insertEntry key value' (left ++ (key, value) :: right) := by
  have hset : (left ++ (key, value) :: right).set left.length (key, value') =
      left ++ (key, value') :: right := by simp
  refine ⟨.one (left ++ (key, value') :: right), by rw [putPairIntoLeafNode, if_pos rfl, hset],
    ?_, ?_⟩
  · exact ⟨by simp, by simpa using h.2⟩
  have hkey : (key, value).1 = key := rfl
  rw [insertEntry_append_of_lt hleft, insertEntry_cons_of_eq hkey]
  rfl

theorem putPairIntoLeafNode_added (h : Shaped 0 (left ++ right)) (hleft : ∀ e ∈ left, e.1 < key)
    (hright : ∀ e ∈ right, key < e.1) (value : ν) :
    ∃ node : PutResult κ (BtreeNode κ ν 0),
      putPairIntoLeafNode (left ++ right) left.length false (key, value) = .ok node ∧
      node.Shaped ∧ node.contents = insertEntry key value (left ++ right) := by
  have hcount : constNodeObjectCount = 31 := rfl
  obtain ⟨hne, hlen⟩ := h
  have hext : (left ++ (key, value) :: right).length = (left ++ right).length + 1 := by
    simp [Nat.add_assoc]
  rw [insertEntry_append_of_lt hleft, insertEntry_of_gt hright, putPairIntoLeafNode,
    if_neg Bool.false_ne_true]
  by_cases hfull : constNodeObjectCount ≤ (left ++ right).length
  · rw [if_pos hfull]
    obtain ⟨m, hm, hml, hcopy1, hcopy2⟩ := copyParts_eq left right (key, value) (by omega)
    rw [hcopy1, hcopy2]
    have hne1 : (left ++ (key, value) :: right).take m ≠ [] := by
      rw [← length_pos_iff, length_take]
      omega
    have hne2 : (left ++ (key, value) :: right).drop m ≠ [] := by
      rw [← length_pos_iff, length_drop]
      omega
    rw [head?_eq_some_head hne2]
    refine ⟨_, rfl, ⟨⟨hne1, ?_⟩, ⟨hne2, ?_⟩, ?_⟩, take_append_drop m _⟩
    · rw [length_take]
      omega
    · rw [length_drop]
      omega
    · exact congrArg (Option.map Prod.fst) (head?_eq_some_head hne2)
  · have hclone := cloneRangeAndAddKey_drop left right (key, value) (Nat.zero_le _)
    rw [Nat.sub_zero, drop_zero] at hclone
    rw [if_neg hfull, hclone]
    exact ⟨_, rfl, ⟨by simp, by omega⟩, rfl⟩

end Leaf

variable {left right : List (BtreeNode κ ν d)}

variable {ptr ptr1 ptr2 : BtreeNode κ ν d}

section Inter

variable {key : κ}

omit [LinearOrder κ] in
theorem putIntoInterNode_one (h : Shaped (d + 1) n) (hn : n.ptrs = left ++ ptr :: right)
    (hptr : Shaped d ptr1)
    (hfirst : left ≠ [] → firstKey (contents d ptr1) = firstKey (contents d ptr)) :
    Shaped (d + 1) (n.setPtr left.length ptr1) ∧
      contents (d + 1) (n.setPtr left.length ptr1) =
        left.flatMap (contents d) ++ (contents d ptr1 ++ right.flatMap (contents d)) := by
  obtain ⟨hne, hlen, hptrs, hsep⟩ := h
  have hset : n.ptrs.set left.length ptr1 = left ++ ptr1 :: right := by simp [hn]
  constructor
  · refine ⟨hne, hlen, fun p hp => ?_, ?_⟩
    · rw [setPtr, hset] at hp
      rw [hn] at hptrs
      grind
    · rw [hn] at hsep
      rw [setPtr, hset]
      exact hsep.replace hfirst
  · rw [contents, setPtr, hset, flatMap_append, flatMap_cons]

end Inter

section Tri

variable {keys1 keys2 : List κ} {left right : List α} {m : Nat} (ptr ptr1 ptr2 : α) (key : κ)

omit [LinearOrder κ] in
theorem cloneRangeAndAddTri_take (h1 : keys1.length = left.length) (hm : left.length < m) :
    (⟨keys1 ++ keys2, left ++ ptr :: right⟩ : BtreeInterNode κ α).cloneRangeAndAddTri 0 (m - 1)
        left.length key ptr1 ptr2 =
      ⟨(keys1 ++ key :: keys2).take m, (left ++ ptr1 :: ptr2 :: right).take (m + 1)⟩ := by
  obtain ⟨j, rfl⟩ : ∃ j, m = left.length + (j + 1) := ⟨m - left.length - 1, by omega⟩
  have hkeys := cloneRangeAndAddKey_take keys1 keys2 key (h1 ▸ hm)
  rw [h1] at hkeys
  rw [cloneRangeAndAddTri, hkeys, Nat.sub_add_cancel (by omega), drop_zero,
    take_length_add_append, Nat.add_assoc, take_length_add_append]
  simp

omit [LinearOrder κ] in
theorem cloneRangeAndAddTri_drop (h1 : keys1.length = left.length)
    (h2 : keys2.length = right.length) (hm : m ≤ left.length) :
    (⟨keys1 ++ keys2, left ++ ptr :: right⟩ : BtreeInterNode κ α).cloneRangeAndAddTri m
        (keys1 ++ keys2).length (left.length - m) key ptr1 ptr2 =
      ⟨(keys1 ++ key :: keys2).drop m, (left ++ ptr1 :: ptr2 :: right).drop m⟩ := by
  have hkeys := cloneRangeAndAddKey_drop keys1 keys2 key (h1 ▸ hm)
  rw [h1] at hkeys
  have hlen : (left ++ ptr :: right).length = (keys1 ++ keys2).length + 1 := by
    simp [h1, h2, Nat.add_assoc]
  rw [cloneRangeAndAddTri, hkeys, ← hlen, take_length]
  obtain ⟨a, b, rfl, rfl⟩ : ∃ a b, left = a ++ b ∧ a.length = m :=
    ⟨left.take m, left.drop m, (take_append_drop m left).symm, by simp [hm]⟩
  simp

omit [LinearOrder κ] in
/-- The two parts of an inter node and the key between them are the node with one pointer become
two, cut in the middle. -/
theorem copyTri_eq (h1 : keys1.length = left.length) (h2 : keys2.length = right.length)
    (hm : (keys1 ++ keys2).length / 2 = m) (hpos : 0 < m) :
    (⟨keys1 ++ keys2, left ++ ptr :: right⟩ : BtreeInterNode κ α).copyLeftPartAndAddTri left.length
        key ptr1 ptr2 =
      ⟨(keys1 ++ key :: keys2).take m, (left ++ ptr1 :: ptr2 :: right).take (m + 1)⟩ ∧
    (⟨keys1 ++ keys2, left ++ ptr :: right⟩ : BtreeInterNode κ α).getMiddleKeyAfterAdding
        left.length key = (keys1 ++ key :: keys2)[m]? ∧
    (⟨keys1 ++ keys2, left ++ ptr :: right⟩ : BtreeInterNode κ α).copyRightPartAndAddTri left.length
        key ptr1 ptr2 =
      ⟨(keys1 ++ key :: keys2).drop (m + 1), (left ++ ptr1 :: ptr2 :: right).drop (m + 1)⟩ := by
  have hlen : (left ++ ptr :: right).length = (keys1 ++ keys2).length + 1 := by
    simp [h1, h2, Nat.add_assoc]
  simp only [copyLeftPartAndAddTri, getMiddleKeyAfterAdding, copyRightPartAndAddTri, hm]
  obtain hlt | heq | hgt := Nat.lt_trichotomy left.length m
  · rw [if_pos hlt, if_pos hlt, if_pos (Nat.le_of_lt hlt), if_neg (Nat.ne_of_lt hlt)]
    refine ⟨cloneRangeAndAddTri_take ptr ptr1 ptr2 key h1 hlt, ?_, ?_⟩
    · rw [getElem?_append_right (by omega), getElem?_append_right (by omega), getElem?_cons,
        if_neg (by omega), Nat.sub_right_comm]
    obtain ⟨j, rfl⟩ : ∃ j, m = left.length + (j + 1) := ⟨m - left.length - 1, by omega⟩
    rw [cloneRange, take_length, ← hlen, take_length]
    simp [← h1, drop_append, Nat.add_assoc]
  · subst heq
    refine ⟨?_, ?_, ?_⟩
    · simp [cloneRange, setPtr, ← h1, take_append]
    · simp [← h1]
    · rw [cloneRange, take_length, ← hlen, take_length]
      simp [setPtr, ← h1, drop_append]
  rw [if_neg (by omega : ¬ left.length < m), if_neg (by omega : ¬ left.length < m),
    if_neg (by omega : ¬ left.length = m), if_neg (by omega : ¬ left.length = m),
    if_neg (by omega : ¬ left.length ≤ m), Nat.sub_sub]
  refine ⟨?_, ?_, cloneRangeAndAddTri_drop ptr ptr1 ptr2 key h1 h2 hgt⟩
  · rw [cloneRange, drop_zero, drop_zero, take_append_of_le_length (by omega),
      take_append_of_le_length (by omega), take_append_of_le_length (by omega),
      take_append_of_le_length (by omega)]
  · rw [getElem?_append_left (by omega), getElem?_append_left (by omega)]

end Tri

section Inter

variable {key : κ}

omit [LinearOrder κ] in
theorem firstKey_append {l₁ l₂ : List (κ × ν)} (h : l₁ ≠ []) :
    firstKey (l₁ ++ l₂) = firstKey l₁ := by
  rw [firstKey, head?_append_of_ne_nil _ h, firstKey]

omit [LinearOrder κ] in
theorem split_shaped {keys : List κ} (hptrs : ∀ p ∈ ptrs, Shaped d p) (hsep : Separated d keys ptrs)
    (hlen : ptrs.length = keys.length + 1) (hm : 0 < m) (hmk : m + 1 < keys.length)
    (hcount : keys.length ≤ constNodeObjectCount + 1) {k : κ} (hk : keys[m]? = some k) :
    PutResult.Shaped (d := d + 1) (.two ⟨keys.take m, ptrs.take (m + 1)⟩ k
      ⟨keys.drop (m + 1), ptrs.drop (m + 1)⟩) := by
  refine ⟨⟨?_, ?_, fun p hp => hptrs p (mem_of_mem_take hp), hsep.take m⟩,
    ⟨?_, ?_, fun p hp => hptrs p (mem_of_mem_drop hp), hsep.drop (m + 1)⟩, ?_⟩
  · rw [← length_pos_iff, length_take]
    omega
  · rw [length_take]
    omega
  · rw [← length_pos_iff, length_drop]
    omega
  · rw [length_drop]
    omega
  · have hm' : m + 1 < ptrs.length := by omega
    rw [contents, drop_eq_getElem_cons hm', flatMap_cons,
      firstKey_append (contents_ne_nil (hptrs _ (getElem_mem hm')))]
    have hsep' := congrArg (fun l => l[m]?) (show _ = _ from hsep)
    simp only [getElem?_map, getElem?_tail, getElem?_eq_getElem hm', hk] at hsep'
    exact some.inj hsep'

omit [LinearOrder κ] in
theorem putIntoInterNode_two (h : Shaped (d + 1) n) (hn : n.ptrs = left ++ ptr :: right)
    (hptr1 : Shaped d ptr1) (hptr2 : Shaped d ptr2)
    (hfirst : left ≠ [] → firstKey (contents d ptr1) = firstKey (contents d ptr))
    (hkey : firstKey (contents d ptr2) = some key) :
    ∃ node : PutResult κ (BtreeNode κ ν (d + 1)),
      putIntoInterNode n left.length (.two ptr1 key ptr2) = .ok node ∧ node.Shaped ∧
      node.contents = left.flatMap (contents d) ++
        ((contents d ptr1 ++ contents d ptr2) ++ right.flatMap (contents d)) := by
  have hcount : constNodeObjectCount = 31 := rfl
  have hlen := length_ptrs h
  obtain ⟨keys, ptrs⟩ := n
  obtain rfl : ptrs = left ++ ptr :: right := hn
  obtain ⟨hne, hmax, hptrs, hsep⟩ := h
  change (left ++ ptr :: right).length = keys.length + 1 at hlen
  change keys.length ≤ constNodeObjectCount at hmax
  -- the keys on the two sides of the pointer
  obtain ⟨keys1, keys2, hkeys, h1⟩ : ∃ keys1 keys2, keys = keys1 ++ keys2 ∧
      keys1.length = left.length := by
    refine ⟨keys.take left.length, keys.drop left.length, (take_append_drop _ _).symm, ?_⟩
    rw [length_append, length_cons] at hlen
    rw [length_take]
    omega
  subst hkeys
  have h2 : keys2.length = right.length := by
    simp only [length_append, length_cons] at hlen
    omega
  have hsep' : Separated d (keys1 ++ key :: keys2) (left ++ ptr1 :: ptr2 :: right) := by
    have := (hsep.replace hfirst).insert hkey
    rwa [← h1, take_left, drop_left] at this
  have hptrs' : ∀ p ∈ left ++ ptr1 :: ptr2 :: right, Shaped d p := by
    grind
  have hlen' : (left ++ ptr1 :: ptr2 :: right).length = (keys1 ++ key :: keys2).length + 1 := by
    simp only [length_append, length_cons]
    omega
  have hklen : (keys1 ++ key :: keys2).length = (keys1 ++ keys2).length + 1 := by
    simp only [length_append, length_cons]
    omega
  have hcontents : (left ++ ptr1 :: ptr2 :: right).flatMap (contents d) =
      left.flatMap (contents d) ++
        ((contents d ptr1 ++ contents d ptr2) ++ right.flatMap (contents d)) := by
    simp
  rw [putIntoInterNode, ← hcontents]
  by_cases hfull : constNodeObjectCount ≤ (keys1 ++ keys2).length
  · obtain ⟨hleft, hmid, hright⟩ := copyTri_eq ptr ptr1 ptr2 key h1 h2 rfl (by omega)
    have hm : (keys1 ++ keys2).length / 2 < (keys1 ++ key :: keys2).length := by omega
    rw [getElem?_eq_getElem hm] at hmid
    rw [if_pos hfull, hmid, hleft, hright]
    refine ⟨_, rfl, split_shaped hptrs' hsep' hlen' (by omega) (by omega) (by omega)
      (getElem?_eq_getElem hm), ?_⟩
    rw [PutResult.contents, contents, contents, ← flatMap_append, take_append_drop]
  · have hclone := cloneRangeAndAddTri_drop ptr ptr1 ptr2 key h1 h2 (Nat.zero_le _)
    rw [Nat.sub_zero, drop_zero, drop_zero] at hclone
    rw [if_neg hfull, cloneAndAddTri, hclone]
    refine ⟨_, rfl, ⟨by simp, ?_, hptrs', hsep'⟩, rfl⟩
    change (keys1 ++ key :: keys2).length ≤ constNodeObjectCount
    omega

omit [LinearOrder κ] in
theorem putIntoInterNode_spec (h : Shaped (d + 1) n) (hn : n.ptrs = left ++ ptr :: right)
    {node : PutResult κ (BtreeNode κ ν d)} (hnode : node.Shaped)
    (hfirst : left ≠ [] → firstKey node.contents = firstKey (contents d ptr)) :
    ∃ node' : PutResult κ (BtreeNode κ ν (d + 1)),
      putIntoInterNode n left.length node = .ok node' ∧ node'.Shaped ∧
      node'.contents =
        left.flatMap (contents d) ++ (node.contents ++ right.flatMap (contents d)) := by
  cases node with
  | one ptr1 =>
    obtain ⟨hshaped, hcontents⟩ := putIntoInterNode_one h hn hnode hfirst
    exact ⟨_, rfl, hshaped, hcontents⟩
  | two ptr1 key ptr2 =>
    obtain ⟨hptr1, hptr2, hkey⟩ := hnode
    refine putIntoInterNode_two h hn hptr1 hptr2 (fun hleft => ?_) hkey
    rw [← hfirst hleft]
    exact (firstKey_append (contents_ne_nil hptr1)).symm

end Inter

section Node

variable {n : BtreeNode κ ν d}

/-- The answer of a put: the key is there and may not be overwritten, or `node` is in the place. -/
def putRet {α : Type} (l : List (κ × ν)) (key : κ) (overwrite : Bool) (node : α) :
    Except BtreeError (Bool × α) :=
  if (l.lookup key).isSome && !overwrite then .error .keyRepeat
  else .ok ((l.lookup key).isSome, node)

theorem putPairIntoLeaf_spec (h : Shaped 0 pairs) (hs : Sorted pairs)
    (key : κ) (value : ν) (overwrite : Bool) :
    ∃ node : PutResult κ (BtreeNode κ ν 0), node.Shaped ∧
      node.contents = insertEntry key value pairs ∧
      putPairIntoNode key value overwrite 0 pairs = putRet pairs key overwrite node := by
  obtain ⟨left, old, right, rfl, hfind, hleft, -⟩ | ⟨left, right, rfl, hfind, hleft, hright⟩ :=
    leaf_spec h hs key
  · obtain ⟨node, hput, hshaped, hcontents⟩ := putPairIntoLeafNode_found h hleft value
    refine ⟨node, hshaped, hcontents, ?_⟩
    rw [putRet, lookup_append_of_lt hleft, lookup_cons_self, putPairIntoNode, hfind, except_ok_bind]
    simp [hput, except_ok_bind]
  obtain ⟨node, hput, hshaped, hcontents⟩ := putPairIntoLeafNode_added h hleft hright value
  refine ⟨node, hshaped, hcontents, ?_⟩
  rw [putRet, lookup_append_of_lt hleft,
    lookup_eq_none_of_forall_ne fun e he => (hright e he).ne', putPairIntoNode, hfind,
    except_ok_bind]
  simp [hput, except_ok_bind]

theorem putPairIntoNode_spec (h : Shaped d n) (hs : Sorted (contents d n)) (key : κ) (value : ν)
    (overwrite : Bool) :
    ∃ node : PutResult κ (BtreeNode κ ν d), node.Shaped ∧
      node.contents = insertEntry key value (contents d n) ∧
      putPairIntoNode key value overwrite d n = putRet (contents d n) key overwrite node := by
  induction d with
  | zero => exact putPairIntoLeaf_spec h hs key value overwrite
  | succ d ih =>
    obtain ⟨left, ptr, right, found, hn, hfind, hleft, hright, hfirst⟩ := descend_spec h hs key
    have hmem : ptr ∈ n.ptrs := by simp [hn]
    have hsplit : contents (d + 1) n = left.flatMap (contents d) ++
        (contents d ptr ++ right.flatMap (contents d)) := by
      rw [contents, hn, flatMap_append, flatMap_cons]
    obtain ⟨node, hshaped, hcontents, hput⟩ := ih (h.2.2.1 ptr hmem) (sorted_of_mem_ptrs hs hmem)
    -- behind other pointers the key is not below the first key of the subtree, which stays
    obtain ⟨node', hput', hshaped', hcontents'⟩ := putIntoInterNode_spec h hn hshaped (by
      intro hne
      obtain ⟨k, hk, hle⟩ := hfirst hne
      rw [hcontents, hk]
      exact head?_insertEntry hk hle)
    refine ⟨node', hshaped', ?_, ?_⟩
    · rw [hcontents', hcontents, hsplit, insertEntry_append_of_lt hleft,
        insertEntry_append_of_gt hright]
    have hlookup : (contents (d + 1) n).lookup key = (contents d ptr).lookup key := by
      rw [hsplit, lookup_append_of_lt hleft, lookup_append_of_gt hright]
    rw [putPairIntoNode, hfind, except_ok_bind]
    simp only [Int.sub_add_cancel, hn, getAt_append, except_ok_bind, hput, putRet, hlookup,
      Int.toNat_natCast]
    split_ifs with hrep
    · rfl
    · rw [except_ok_bind, hput', except_ok_bind]

end Node

end Shape

/-! ### The tree -/

section Tree

variable [LinearOrder κ]

/-- A call of `put`. -/
structure BtreePut (κ : Type) (ν : Type) where
  key : κ
  value : ν
  overwrite : Bool

/-- What a put does to the finite map that a tree stands for. -/
def BtreePut.write (f : κ → Option ν) (p : BtreePut κ ν) : κ → Option ν :=
  if (f p.key).isSome && !p.overwrite then f else Function.update f p.key (some p.value)

namespace BtreeBase

/-- The tree after a put. One that fails has not changed it. -/
def afterPut (t : BtreeBase κ ν) (p : BtreePut κ ν) : BtreeBase κ ν :=
  match t.put p.key p.value p.overwrite with
  | .ok t => t
  | .error _ => t

/-- The pairs of the leaves. -/
def pairs (t : BtreeBase κ ν) : List (κ × ν) := t.root.elim [] fun n => contents n.1 n.2

/-- The pairs are sorted and counted, and the nodes are shaped. -/
structure WellFormed (t : BtreeBase κ ν) : Prop where
  sorted : Sorted t.pairs
  objectCounter : t.objectCounter = t.pairs.length
  shaped : ∀ n ∈ t.root, Shaped n.1 n.2

variable {t : BtreeBase κ ν}

theorem WellFormed.get (h : t.WellFormed) (key : κ) : t.get key = lookupRet t.pairs key := by
  obtain ⟨_ | ⟨d, n⟩, c⟩ := t
  · rfl
  · exact getFromNode_spec (h.shaped ⟨d, n⟩ rfl) h.sorted key

theorem WellFormed.put (h : t.WellFormed) (key : κ) (value : ν) (overwrite : Bool) :
    ∃ t' : BtreeBase κ ν, t'.WellFormed ∧ t'.pairs = insertEntry key value t.pairs ∧
      t.put key value overwrite =
        if (t.pairs.lookup key).isSome && !overwrite then .error .keyRepeat else .ok t' := by
  have hcount : (insertEntry key value t.pairs).length =
      if (t.pairs.lookup key).isSome then t.objectCounter else t.objectCounter + 1 :=
    h.objectCounter ▸ h.sorted.length_insertEntry
  obtain ⟨root, hshaped, hcontents, hput⟩ : ∃ root : (d : Nat) × BtreeNode κ ν d,
      Shaped root.1 root.2 ∧ contents root.1 root.2 = insertEntry key value t.pairs ∧
      t.put key value overwrite =
        if (t.pairs.lookup key).isSome && !overwrite then .error .keyRepeat
        else .ok ⟨some root, (insertEntry key value t.pairs).length⟩ := by
    rw [hcount]
    obtain ⟨_ | ⟨d, n⟩, c⟩ := t
    · exact ⟨⟨0, [(key, value)]⟩, ⟨cons_ne_nil _ _, by simp [constNodeObjectCount]⟩, rfl, rfl⟩
    have hn : Shaped d n := h.shaped ⟨d, n⟩ rfl
    obtain ⟨node, hnode, hcontents, hput⟩ :=
      putPairIntoNode_spec hn h.sorted key value overwrite
    simp only [BtreeBase.put, hput, putRet, pairs, elim_some]
    cases node with
    | one n' =>
      refine ⟨⟨d, n'⟩, hnode, hcontents, ?_⟩
      split_ifs with hr
      exacts [(if_pos hr).symm, (if_neg hr).symm]
    | two n₁ k n₂ =>
      -- the root is split below a new one
      obtain ⟨h₁, h₂, hk⟩ := hnode
      refine ⟨⟨d + 1, (⟨[k], [n₁, n₂]⟩ : BtreeInterNode κ (BtreeNode κ ν d))⟩, ⟨cons_ne_nil _ _,
        by simp [constNodeObjectCount], by simp [h₁, h₂], by simp [Separated, hk]⟩, ?_, ?_⟩
      · rw [← hcontents]
        simp [contents, PutResult.contents]
      · split_ifs with hr
        exacts [(if_pos hr).symm, (if_neg hr).symm]
  refine ⟨⟨some root, _⟩, ⟨?_, congrArg List.length hcontents.symm, ?_⟩, hcontents, hput⟩
  · exact hcontents.symm ▸ h.sorted.insertEntry
  · exact fun n hn => mem_some.1 hn ▸ hshaped

theorem wellFormed_of_puts (puts : List (BtreePut κ ν)) :
    (puts.foldl afterPut empty).WellFormed ∧ ∀ key, (puts.foldl afterPut empty).pairs.lookup key =
      puts.foldl BtreePut.write (fun _ => none) key := by
  induction puts using List.reverseRecOn with
  | nil => exact ⟨⟨Pairwise.nil, rfl, by simp [empty]⟩, fun _ => rfl⟩
  | append_singleton puts p ih =>
    obtain ⟨hwf, hlookup⟩ := ih
    obtain ⟨t, ht, hpairs, hput⟩ := hwf.put p.key p.value p.overwrite
    rw [foldl_concat, foldl_concat, afterPut, hput, BtreePut.write, ← hlookup p.key]
    split_ifs with hrepeat
    · exact ⟨hwf, hlookup⟩
    · refine ⟨ht, fun key => ?_⟩
      rw [hpairs, lookup_insertEntry, hlookup, Function.update_apply]

/-- **The tree is a finite map** after any puts: it is well formed, `get` finds the value of a key
or that there is none, and a put fails only for a key that is there and may not be overwritten. -/
theorem finiteMap_of_puts (puts : List (BtreePut κ ν)) :
    (puts.foldl afterPut empty).WellFormed ∧ ∀ key,
      (puts.foldl afterPut empty).get key =
        (puts.foldl BtreePut.write (fun _ => none) key).elim (.error .notFound) .ok ∧
      ∀ value overwrite err, (puts.foldl afterPut empty).put key value overwrite = .error err ↔
        err = .keyRepeat ∧ (puts.foldl BtreePut.write (fun _ => none) key).isSome ∧
          overwrite = false := by
  obtain ⟨hwf, hlookup⟩ := wellFormed_of_puts puts
  refine ⟨hwf, fun key => ⟨?_, fun value overwrite err => ?_⟩⟩
  · rw [hwf.get, lookupRet, hlookup]
    cases puts.foldl BtreePut.write (fun _ => none) key with
    | none | some value => rfl
  · obtain ⟨t, -, -, hput⟩ := hwf.put key value overwrite
    rw [hput, hlookup]
    split_ifs with h <;> grind

end BtreeBase

end Tree

end OceanBase.Common
