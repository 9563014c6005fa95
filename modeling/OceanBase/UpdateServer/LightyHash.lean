import OceanBase.Common.Define
import OceanBase.Lib.Assoc
import OceanBase.Lib.Run

/-!
# The hash map of the memory table (`ob_lighty_hash.h`)

The first node of a bucket lives in the bucket array itself, the others in a chain behind it. A
bucket is marked empty in the place of its next pointer. The array is not initialised at once:
its buckets are grouped in units, and a unit is marked empty as a whole before its first use.

`erase` of a bucket's first node marks the bucket empty and forgets the chain
(`LightyHashMap.erase_spec`), and it never counts down `size_`. `clear` zeroes as many nodes as
there are units in the array of the units' bytes, and so writes behind it (`overrun_clear`).
-/

namespace OceanBase.UpdateServer

open Lib List

/-! ### The code -/

/-- `LightyHashMap`. A bucket is empty, or has a first node and the nodes chained behind it. -/
structure LightyHashMap (κ ν : Type*) where
  bucketNum : Nat
  /-- The buckets of a unit, `INIT_UNIT_SIZE / sizeof(Node)`. -/
  unitBuckets : Nat
  buckets : Nat → Option ((κ × ν) × List (κ × ν))
  initUnits : Nat → Bool
  uninitUnitNum : Nat
  bucketUsing : Nat
  size : Nat
  /-- `sizeof(Node)`; a node has a key, a value and a pointer. -/
  nodeSize : Nat
  one_lt_nodeSize : 1 < nodeSize
  /-- How many bytes were written behind the end of `init_units_`. -/
  overrun : Nat

variable {unitBuckets nodeSize : Nat} {hnode : 1 < nodeSize} {bucketNum : Int}

namespace LightyHashMap

section Code

variable {κ ν : Type*}

/-- The number of units, which is also the number of bytes of `init_units_`. -/
def unitNum (bucketNum unitBuckets : Nat) : Nat :=
  bucketNum / unitBuckets + if bucketNum % unitBuckets = 0 then 0 else 1

/-- `create`; `memory` is what the array is allocated with. -/
def create (unitBuckets : Nat) {nodeSize : Nat} (hnode : 1 < nodeSize)
    (memory : Nat → Option ((κ × ν) × List (κ × ν))) (bucketNum : Int) :
    Except Ret (LightyHashMap κ ν) :=
  if bucketNum ≤ 0 then .error .invalidArgument
  else .ok ⟨bucketNum.toNat, unitBuckets, memory, fun _ => false,
    unitNum bucketNum.toNat unitBuckets, 0, 0, nodeSize, hnode, 0⟩

variable (m : LightyHashMap κ ν)

/-- `clear`. The chains of the units that were not used are not there to be freed. `memset` is given
the size of a node for each unit, where a unit has one byte. -/
def clear : LightyHashMap κ ν :=
  { m with
    buckets := fun i =>
      if i < m.bucketNum ∧ m.initUnits (i / m.unitBuckets) then none else m.buckets i
    initUnits := fun _ => false
    uninitUnitNum := unitNum m.bucketNum m.unitBuckets
    bucketUsing := 0
    size := 0
    overrun := m.overrun +
      (unitNum m.bucketNum m.unitBuckets * m.nodeSize - unitNum m.bucketNum m.unitBuckets) }

/-- `init_bucket_unit_`: the unit of a bucket is marked empty before its first use. -/
def initBucketUnit (pos : Nat) : LightyHashMap κ ν :=
  if 0 < m.uninitUnitNum ∧ m.initUnits (pos / m.unitBuckets) = false then
    { m with
      buckets := fun i =>
        if i / m.unitBuckets = pos / m.unitBuckets then none else m.buckets i
      initUnits := Function.update m.initUnits (pos / m.unitBuckets) true
      uninitUnitNum := m.uninitUnitNum - 1 }
  else m

/-- Write one bucket of the array. -/
def setBucket (pos : Nat) (b : Option ((κ × ν) × List (κ × ν))) :
    LightyHashMap κ ν :=
  { m with buckets := Function.update m.buckets pos b }

variable (hash : κ → Nat)

/-- `hash_func_(key) % bucket_num_`. -/
def bucketPos (m : LightyHashMap κ ν) (k : κ) : Nat := hash k % m.bucketNum

variable [DecidableEq κ]

variable (m : LightyHashMap κ ν)

/-- `insert`; `alloc` says whether a node can be allocated. -/
def insert (k : κ) (v : ν) (alloc : Bool) : LightyHashMap κ ν × Ret :=
  let pos := m.bucketPos hash k
  let m := m.initBucketUnit pos
  match m.buckets pos with
  | none =>
    ({ m.setBucket pos (some ((k, v), [])) with
      bucketUsing := m.bucketUsing + 1, size := m.size + 1 }, .success)
  | some (head, chain) =>
    -- the loop ends at the key or at the last node
    if ((head :: chain).lookup k).isSome then (m, .entryExist)
    else if !alloc then (m, .memOverflow)
    else ({ m.setBucket pos (some (head, chain ++ [(k, v)])) with size := m.size + 1 }, .success)

/-- `get`, which initialises the unit of the key's bucket. -/
def get (k : κ) : LightyHashMap κ ν × Except Ret ν :=
  let pos := m.bucketPos hash k
  let m := m.initBucketUnit pos
  match m.buckets pos with
  | none => (m, .error .entryNotExist)
  | some (head, chain) =>
    match (head :: chain).lookup k with
    | some v => (m, .ok v)
    | none => (m, .error .entryNotExist)

/-- `erase`, with the value of the erased node. -/
def erase (k : κ) : LightyHashMap κ ν × Except Ret ν :=
  let pos := m.bucketPos hash k
  let m := m.initBucketUnit pos
  match m.buckets pos with
  | none => (m, .error .entryNotExist)
  | some (head, chain) =>
    -- the first node has no node before it: the flag is written over its next pointer
    if head.1 = k then (m.setBucket pos none, .ok head.2)
    else
      match chain.lookup k with
      | some v => (m.setBucket pos (some (head, eraseKey k chain)), .ok v)
      | none => (m, .error .entryNotExist)

end Code

/-! ### What is stored -/

section Entries

variable {κ ν : Type*}

/-- The nodes of a bucket. -/
def nodes : Option ((κ × ν) × List (κ × ν)) → List (κ × ν)
  | none => []
  | some (head, chain) => head :: chain

/-- The nodes of a bucket of the map; a unit that was not initialised has none. -/
def entries (m : LightyHashMap κ ν) (pos : Nat) : List (κ × ν) :=
  if m.initUnits (pos / m.unitBuckets) then nodes (m.buckets pos) else []

/-- The value that the nodes of a key's bucket have for it. -/
def lookup [DecidableEq κ] (hash : κ → Nat) (m : LightyHashMap κ ν) (k : κ) : Option ν :=
  (m.entries (m.bucketPos hash k)).lookup k

/-- What every operation relies on: units are counted, nodes are where their hash says, and no
bucket has a key twice. -/
structure Valid (hash : κ → Nat) (m : LightyHashMap κ ν) : Prop where
  bucketNum_pos : 0 < m.bucketNum
  unitBuckets_pos : 0 < m.unitBuckets
  uninit : m.uninitUnitNum = ((Finset.range (unitNum m.bucketNum m.unitBuckets)).filter
    fun u => m.initUnits u = false).card
  placed : ∀ pos, ∀ e ∈ m.entries pos, m.bucketPos hash e.1 = pos
  nodup : ∀ pos, ((m.entries pos).map Prod.fst).Nodup

/-- A map that was just created is valid, whatever its memory holds. -/
theorem valid_create {hash : κ → Nat} (hunit : 0 < unitBuckets)
    {memory : Nat → Option ((κ × ν) × List (κ × ν))} {m : LightyHashMap κ ν}
    (h : create unitBuckets hnode memory bucketNum = .ok m) : m.Valid hash := by
  unfold create at h
  split_ifs at h
  cases h
  exact ⟨by dsimp only; omega, hunit, by simp, by simp [entries], by simp [entries]⟩

variable {hash : κ → Nat} {m : LightyHashMap κ ν}

variable {pos : Nat}

theorem Valid.unit_lt (h : m.Valid hash) (hpos : pos < m.bucketNum) :
    pos / m.unitBuckets < unitNum m.bucketNum m.unitBuckets := by
  have hunit := h.unitBuckets_pos
  have hmod := Nat.div_add_mod m.bucketNum m.unitBuckets
  unfold unitNum
  rw [Nat.div_lt_iff_lt_mul hunit, Nat.add_mul]
  split_ifs with hzero
  · rw [Nat.mul_comm (m.bucketNum / m.unitBuckets)]
    omega
  rw [Nat.mul_comm (m.bucketNum / m.unitBuckets), Nat.one_mul]
  have := Nat.mod_lt m.bucketNum hunit
  omega

theorem Valid.bucketPos_lt (h : m.Valid hash) (k : κ) : m.bucketPos hash k < m.bucketNum :=
  Nat.mod_lt _ h.bucketNum_pos

/-- The maps have the same buckets, as far as an operation can tell. -/
structure Same (m m' : LightyHashMap κ ν) : Prop where
  bucketNum_eq : m'.bucketNum = m.bucketNum
  size_eq : m'.size = m.size
  entries_eq : ∀ pos, m'.entries pos = m.entries pos

variable {m' : LightyHashMap κ ν}

theorem Same.bucketPos_eq (h : Same m m') (k : κ) : m'.bucketPos hash k = m.bucketPos hash k := by
  rw [bucketPos, bucketPos, h.bucketNum_eq]

theorem same_initBucketUnit (m : LightyHashMap κ ν)
    (pos : Nat) : Same m (m.initBucketUnit pos) := by
  unfold initBucketUnit
  split_ifs with hcond
  · refine ⟨rfl, rfl, fun p => ?_⟩
    simp only [entries]
    by_cases hunit : p / m.unitBuckets = pos / m.unitBuckets
    · rw [if_pos hunit, hunit, Function.update_self, hcond.2]
      rfl
    · rw [Function.update_of_ne hunit, if_neg hunit]
  · exact ⟨rfl, rfl, fun _ => rfl⟩

/-- Behind `init_bucket_unit_` the bucket is in use, because the counter tells the truth. -/
theorem Valid.initUnits_initBucketUnit (h : m.Valid hash) (hpos : pos < m.bucketNum) :
    (m.initBucketUnit pos).initUnits (pos / (m.initBucketUnit pos).unitBuckets) = true := by
  unfold initBucketUnit
  split_ifs with hcond
  · exact Function.update_self ..
  by_contra hunit
  rw [Bool.not_eq_true] at hunit
  refine hcond ⟨?_, hunit⟩
  rw [h.uninit, Finset.card_pos]
  exact ⟨_, Finset.mem_filter.2 ⟨Finset.mem_range.2 (h.unit_lt hpos), hunit⟩⟩

theorem Valid.initBucketUnit (h : m.Valid hash) (hpos : pos < m.bucketNum) :
    (m.initBucketUnit pos).Valid hash := by
  have hsame := same_initBucketUnit m pos
  refine ⟨?_, ?_, ?_, fun p e he => ?_, fun p => ?_⟩
  · rw [hsame.bucketNum_eq]
    exact h.bucketNum_pos
  · unfold LightyHashMap.initBucketUnit
    split_ifs <;> exact h.unitBuckets_pos
  · unfold LightyHashMap.initBucketUnit
    split_ifs with hcond
    · -- the unit leaves the set of those that are not initialised
      have herase : ((Finset.range (unitNum m.bucketNum m.unitBuckets)).filter fun u =>
          Function.update m.initUnits (pos / m.unitBuckets) true u = false) =
          ((Finset.range (unitNum m.bucketNum m.unitBuckets)).filter
            fun u => m.initUnits u = false).erase (pos / m.unitBuckets) := by
        ext u
        by_cases hu : u = pos / m.unitBuckets <;> simp [hu]
      rw [herase, Finset.card_erase_of_mem, h.uninit]
      exact Finset.mem_filter.2 ⟨Finset.mem_range.2 (h.unit_lt hpos), hcond.2⟩
    · exact h.uninit
  · rw [hsame.bucketPos_eq]
    rw [hsame.entries_eq] at he
    exact h.placed p e he
  · rw [hsame.entries_eq]
    exact h.nodup p

theorem entries_setBucket (hunit : m.initUnits (pos / m.unitBuckets) = true)
    (b : Option ((κ × ν) × List (κ × ν))) (p : Nat) :
    (m.setBucket pos b).entries p = if p = pos then nodes b else m.entries p := by
  by_cases hp : p = pos
  · subst hp
    simp [entries, LightyHashMap.setBucket, hunit]
  · simp [entries, LightyHashMap.setBucket, Function.update_of_ne hp, if_neg hp]

section

variable (h : m.Valid hash) {b : Option ((κ × ν) × List (κ × ν))}
include h

theorem Valid.setBucket (hunit : m.initUnits (pos / m.unitBuckets) = true)
    (hplaced : ∀ e ∈ nodes b, m.bucketPos hash e.1 = pos)
    (hnodup : ((nodes b).map Prod.fst).Nodup) : (m.setBucket pos b).Valid hash := by
  refine ⟨h.bucketNum_pos, h.unitBuckets_pos, h.uninit, fun p e he => ?_, fun p => ?_⟩
  · rw [entries_setBucket hunit] at he
    split_ifs at he with hp
    · rw [hp]
      exact hplaced e he
    · exact h.placed p e he
  · rw [entries_setBucket hunit]
    split_ifs
    · exact hnodup
    · exact h.nodup p

theorem Valid.setCounters (bucketUsing size : Nat) :
    Valid hash { m with bucketUsing := bucketUsing, size := size } :=
  ⟨h.bucketNum_pos, h.unitBuckets_pos, h.uninit, h.placed, h.nodup⟩

/-- The map an operation on `k` works on: the unit of its bucket is in use. -/
theorem Valid.opened (k : κ) :
    ∃ m₁, m.initBucketUnit (m.bucketPos hash k) = m₁ ∧ m₁.Valid hash ∧ Same m m₁ ∧
      m₁.initUnits (m.bucketPos hash k / m₁.unitBuckets) = true ∧
      m.entries (m.bucketPos hash k) = nodes (m₁.buckets (m.bucketPos hash k)) := by
  have hpos := h.bucketPos_lt k
  have hsame := same_initBucketUnit m (m.bucketPos hash k)
  have hunit := h.initUnits_initBucketUnit hpos
  refine ⟨_, rfl, h.initBucketUnit hpos, hsame, hunit, ?_⟩
  rw [← hsame.entries_eq, entries, if_pos hunit]

/-- What a write to the bucket of `k` does, of nodes that were there or have the key `k`. -/
theorem Valid.write {k : κ} (hplaced : ∀ e ∈ nodes b, e ∈ m.entries (m.bucketPos hash k) ∨ e.1 = k)
    (hnodup : ((nodes b).map Prod.fst).Nodup) :
    ((m.initBucketUnit (m.bucketPos hash k)).setBucket (m.bucketPos hash k) b).Valid hash ∧
      ∀ p, ((m.initBucketUnit (m.bucketPos hash k)).setBucket (m.bucketPos hash k) b).entries p =
        if p = m.bucketPos hash k then nodes b else m.entries p := by
  obtain ⟨m₁, rfl, hvalid, hsame, hunit, -⟩ := h.opened k
  refine ⟨hvalid.setBucket hunit (fun e he => ?_) hnodup, fun p => ?_⟩
  · rw [hsame.bucketPos_eq]
    obtain he | rfl := hplaced e he
    · exact h.placed _ e he
    · rfl
  · rw [entries_setBucket hunit, hsame.entries_eq]

theorem Valid.clear : m.clear.Valid hash := by
  refine ⟨h.bucketNum_pos, h.unitBuckets_pos, ?_, ?_, ?_⟩
  · simp [LightyHashMap.clear]
  all_goals simp [LightyHashMap.clear, entries]

end

variable [DecidableEq κ]

theorem Same.lookup_eq (h : Same m m') (k : κ) : m'.lookup hash k = m.lookup hash k := by
  rw [lookup, lookup, h.entries_eq, h.bucketPos_eq]

theorem Valid.get_spec (h : m.Valid hash) (k : κ) :
    ∃ m', m'.Valid hash ∧ Same m m' ∧ m.get hash k = (m', match m.lookup hash k with
      | some v => .ok v
      | none => .error .entryNotExist) := by
  obtain ⟨m₁, hm₁, hvalid, hsame, -, hentries⟩ := h.opened k
  refine ⟨m₁, hvalid, hsame, ?_⟩
  rw [lookup, hentries]
  simp only [get, hm₁]
  rcases m₁.buckets (m.bucketPos hash k) with _ | ⟨head, chain⟩
  · rfl
  · simp only [nodes]
    cases (head :: chain).lookup k <;> rfl

/-- **`insert`** stores a key that is not stored yet behind the other nodes of its bucket, unless
there is no memory for a node. -/
theorem Valid.insert_spec (h : m.Valid hash) (k : κ) (v : ν) (alloc : Bool) :
    (∃ m' ret, m.insert hash k v alloc = (m', ret) ∧ m'.Valid hash ∧ Same m m' ∧
      (ret = .entryExist ∧ (m.lookup hash k).isSome ∨
        ret = .memOverflow ∧ m.lookup hash k = none ∧ alloc = false)) ∨
    ∃ m', m.insert hash k v alloc = (m', .success) ∧ m'.Valid hash ∧
      m.lookup hash k = none ∧ m'.bucketNum = m.bucketNum ∧ m'.size = m.size + 1 ∧
      ∀ p, m'.entries p =
        if p = m.bucketPos hash k then m.entries p ++ [(k, v)] else m.entries p := by
  obtain ⟨m₁, hm₁, hvalid, hsame, -, hentries⟩ := h.opened k
  have hlookup : m.lookup hash k = (nodes (m₁.buckets (m.bucketPos hash k))).lookup k := by
    rw [lookup, hentries]
  -- a write of the nodes with the new one behind them
  have hwrite : ∀ b, nodes b = m.entries (m.bucketPos hash k) ++ [(k, v)] →
      m.lookup hash k = none → (m₁.setBucket (m.bucketPos hash k) b).Valid hash ∧
        ∀ p, (m₁.setBucket (m.bucketPos hash k) b).entries p =
          if p = m.bucketPos hash k then m.entries p ++ [(k, v)] else m.entries p := by
    intro b hb hnone
    have hspec := h.write (k := k) (b := b) (by simp +contextual [hb, or_imp]) (by
      rw [hb]
      exact nodup_concat (h.nodup _) (lookup_eq_none_iff_not_mem.1 hnone))
    rw [hm₁] at hspec
    refine ⟨hspec.1, fun p => (hspec.2 p).trans ?_⟩
    split_ifs with hp
    · rw [hb, hp]
    · rfl
  simp only [insert, hm₁]
  rcases hb : m₁.buckets (m.bucketPos hash k) with _ | ⟨head, chain⟩
  · right
    rw [hb] at hlookup hentries
    obtain ⟨hset, hnodes⟩ := hwrite (some ((k, v), [])) (by rw [hentries]; rfl) hlookup
    exact ⟨_, rfl, hset.setCounters _ _, hlookup, hsame.bucketNum_eq,
      congrArg (· + 1) hsame.size_eq, hnodes⟩
  rw [hb] at hlookup hentries
  simp only [nodes] at hlookup hentries
  rcases hfound : (head :: chain).lookup k with _ | v'
  · rw [hfound] at hlookup
    rcases alloc with _ | _
    · left
      exact ⟨m₁, .memOverflow, by simp only [hfound]; rfl, hvalid, hsame, .inr ⟨rfl, hlookup, rfl⟩⟩
    right
    obtain ⟨hset, hnodes⟩ :=
      hwrite (some (head, chain ++ [(k, v)])) (by rw [hentries]; rfl) hlookup
    exact ⟨{ m₁.setBucket (m.bucketPos hash k) (some (head, chain ++ [(k, v)])) with
      size := m₁.size + 1 }, by simp only [hfound]; rfl, hset.setCounters _ _, hlookup,
      hsame.bucketNum_eq, congrArg (· + 1) hsame.size_eq, hnodes⟩
  · left
    exact ⟨m₁, .entryExist, by simp only [hfound]; rfl, hvalid, hsame,
      .inl ⟨rfl, by rw [hlookup, hfound]; rfl⟩⟩

/-- What `erase` leaves of the nodes of a bucket. -/
def eraseNodes (k : κ) : List (κ × ν) → List (κ × ν)
  | [] => []
  | head :: chain => if head.1 = k then [] else head :: eraseKey k chain

theorem eraseNodes_sublist (k : κ) (l : List (κ × ν)) : (eraseNodes k l).Sublist l := by
  rcases l with _ | ⟨head, chain⟩
  · exact .slnil
  rw [eraseNodes]
  split_ifs
  · exact nil_sublist _
  · exact eraseP_sublist.cons_cons _

/-- **`erase`** removes the key; with the first node of a bucket it removes them all. -/
theorem Valid.erase_spec (h : m.Valid hash) (k : κ) :
    (∃ m', m.erase hash k = (m', .error .entryNotExist) ∧ m'.Valid hash ∧ Same m m' ∧
      m.lookup hash k = none) ∨
    ∃ m' v, m.erase hash k = (m', .ok v) ∧ m'.Valid hash ∧ m.lookup hash k = some v ∧
      m'.bucketNum = m.bucketNum ∧ m'.size = m.size ∧
      ∀ p, m'.entries p =
        if p = m.bucketPos hash k then eraseNodes k (m.entries p) else m.entries p := by
  obtain ⟨m₁, hm₁, hvalid, hsame, -, hentries⟩ := h.opened k
  have hlookup : m.lookup hash k = (nodes (m₁.buckets (m.bucketPos hash k))).lookup k := by
    rw [lookup, hentries]
  -- a write of what `erase` leaves
  suffices hwrite : (m.erase hash k = (m₁, .error .entryNotExist) ∧ m.lookup hash k = none) ∨
      ∃ b v, nodes b = eraseNodes k (nodes (m₁.buckets (m.bucketPos hash k))) ∧
        m.lookup hash k = some v ∧
        m.erase hash k = (m₁.setBucket (m.bucketPos hash k) b, .ok v) by
    obtain ⟨herase, hnone⟩ | ⟨b, v, hnodes, hv, herase⟩ := hwrite
    · exact .inl ⟨m₁, herase, hvalid, hsame, hnone⟩
    rw [← hentries] at hnodes
    have hsub := eraseNodes_sublist k (m.entries (m.bucketPos hash k))
    have hspec := h.write (k := k) (b := b) (fun e he => .inl (hsub.subset (hnodes ▸ he)))
      (hnodes ▸ (h.nodup _).sublist (hsub.map _))
    rw [hm₁] at hspec
    refine .inr ⟨_, v, herase, hspec.1, hv, hsame.bucketNum_eq, hsame.size_eq,
      fun p => (hspec.2 p).trans ?_⟩
    split_ifs with hp
    · rw [hnodes, hp]
    · rfl
  rcases hb : m₁.buckets (m.bucketPos hash k) with _ | ⟨head, chain⟩
  · refine .inl ⟨by simp [erase, hm₁, hb], ?_⟩
    rw [hlookup, hb]
    rfl
  rw [hb] at hlookup
  simp only [nodes] at hlookup ⊢
  obtain ⟨hk, hv⟩ := head
  by_cases hhead : hk = k
  · subst hhead
    refine .inr ⟨none, hv, ?_, ?_, ?_⟩
    · simp [eraseNodes]
    · rw [hlookup, lookup_cons_self]
    · simp [erase, hm₁, hb]
  have hne : (k == hk) = false := by simpa using Ne.symm hhead
  rw [lookup_cons, hne] at hlookup
  rcases hfound : chain.lookup k with _ | v
  · refine .inl ⟨?_, hlookup.trans hfound⟩
    simp [erase, hm₁, hb, if_neg hhead, hfound]
  refine .inr ⟨some ((hk, hv), eraseKey k chain), v, ?_, hlookup.trans hfound, ?_⟩
  · simp [eraseNodes, hhead]
  · simp [erase, hm₁, hb, if_neg hhead, hfound]

/-- The key is the first node of its bucket and others are chained behind it. -/
def isHeadOfChain (hash : κ → Nat) (m : LightyHashMap κ ν) (k : κ) : Bool :=
  match m.entries (m.bucketPos hash k) with
  | head :: _ :: _ => head.1 == k
  | _ => false

variable {k : κ} {v : ν}

theorem isHeadOfChain_of_lookup_eq_none (h : m.lookup hash k = none) :
    m.isHeadOfChain hash k = false := by
  rw [lookup, lookup_eq_none_iff_not_mem] at h
  unfold isHeadOfChain
  split
  · next head next chain hb =>
    rw [hb] at h
    exact beq_false_of_ne fun hhead => h (hhead ▸ mem_cons_self)
  · rfl

theorem lookup_of_entries {f : List (κ × ν) → List (κ × ν)}
    (h : m'.bucketNum = m.bucketNum)
    (hentries : ∀ p, m'.entries p = if p = m.bucketPos hash k then f (m.entries p) else m.entries p)
    {k' : κ} (hf : m.bucketPos hash k' = m.bucketPos hash k →
      (f (m.entries (m.bucketPos hash k))).lookup k' =
        (m.entries (m.bucketPos hash k)).lookup k') : m'.lookup hash k' = m.lookup hash k' := by
  have hpos : m'.bucketPos hash k' = m.bucketPos hash k' := by rw [bucketPos, bucketPos, h]
  rw [lookup, hpos, hentries, lookup]
  split_ifs with hp
  · rw [hp, hf hp]
  · rfl

theorem lookup_of_insert (hnone : m.lookup hash k = none) (h : m'.bucketNum = m.bucketNum)
    (hentries : ∀ p, m'.entries p =
      if p = m.bucketPos hash k then m.entries p ++ [(k, v)] else m.entries p) :
    m'.lookup hash k = some v ∧ ∀ k', k' ≠ k → m'.lookup hash k' = m.lookup hash k' := by
  constructor
  · have hpos : m'.bucketPos hash k = m.bucketPos hash k := by rw [bucketPos, bucketPos, h]
    rw [lookup, hpos, hentries, if_pos rfl]
    exact lookup_concat_self hnone
  · intro k' hk'
    exact lookup_of_entries (f := fun l => l ++ [(k, v)]) h hentries
      fun _ => lookup_concat_of_ne hk'

section

variable (h : m.Valid hash) (hnum : m'.bucketNum = m.bucketNum)
    (hentries : ∀ p, m'.entries p =
      if p = m.bucketPos hash k then eraseNodes k (m.entries p) else m.entries p)
include h hnum hentries

theorem Valid.lookup_eraseNodes_self : m'.lookup hash k = none := by
  have hpos : m'.bucketPos hash k = m.bucketPos hash k := by rw [bucketPos, bucketPos, hnum]
  have hnodup := h.nodup (m.bucketPos hash k)
  rw [lookup, hpos, hentries, if_pos rfl]
  rcases hb : m.entries (m.bucketPos hash k) with _ | ⟨head, chain⟩
  · rfl
  rw [hb] at hnodup
  rw [eraseNodes]
  split_ifs with hhead
  · rfl
  · rw [← eraseKey_cons_of_ne hhead]
    exact lookup_eraseKey_self hnodup

/-- Behind a successful `erase` the other keys are as before exactly when the key was not the first
of a chain. -/
theorem Valid.lookup_eraseNodes_iff :
    (∀ k', k' ≠ k → m'.lookup hash k' = m.lookup hash k') ↔ m.isHeadOfChain hash k = false := by
  have hplaced := h.placed (m.bucketPos hash k)
  have hnodup := h.nodup (m.bucketPos hash k)
  have hsame : ∀ k', _ → m'.lookup hash k' = m.lookup hash k' :=
    fun k' => lookup_of_entries hnum hentries
  unfold isHeadOfChain
  rcases hb : m.entries (m.bucketPos hash k) with _ | ⟨head, _ | ⟨next, chain⟩⟩
  · refine iff_of_true (fun k' _ => hsame k' fun _ => ?_) rfl
    rw [hb]
    rfl
  · refine iff_of_true (fun k' hk' => hsame k' fun _ => ?_) rfl
    rw [hb, eraseNodes]
    split_ifs with hhead
    · have hne : (k' == head.1) = false := by simpa [hhead] using hk'
      rw [lookup_cons, hne]
    · rfl
  rw [hb] at hplaced hnodup
  by_cases hhead : head.1 = k
  · -- the second key of the chain is lost
    refine iff_of_false (fun hall => ?_) (by simp [hhead])
    have hne : next.1 ≠ k := by
      rintro hnext
      simp [hhead, hnext] at hnodup
    have hpos : m.bucketPos hash next.1 = m.bucketPos hash k :=
      hplaced next (mem_cons_of_mem _ mem_cons_self)
    have hlost : m'.lookup hash next.1 = none := by
      have hpos' : m'.bucketPos hash next.1 = m.bucketPos hash next.1 := by
        rw [bucketPos, bucketPos, hnum]
      rw [lookup, hpos', hpos, hentries, if_pos rfl, hb, eraseNodes, if_pos hhead]
      rfl
    have hthere : m.lookup hash next.1 = some next.2 := by
      have hbeq : (next.1 == head.1) = false := by simpa [hhead] using hne
      rw [lookup, hpos, hb, lookup_cons, hbeq]
      exact lookup_cons_self
    rw [hall next.1 hne, hthere] at hlost
    cases hlost
  · refine iff_of_true (fun k' hk' => hsame k' fun _ => ?_) (by simpa using hhead)
    rw [hb, eraseNodes, if_neg hhead, ← eraseKey_cons_of_ne hhead]
    exact lookup_eraseKey_of_ne hk'

end

omit [DecidableEq κ] in
theorem overrun_initBucketUnit (m : LightyHashMap κ ν) (pos : Nat) :
    (m.initBucketUnit pos).overrun = m.overrun := by
  unfold initBucketUnit
  split_ifs <;> rfl

/-- No operation but `clear` writes outside the arrays. -/
theorem overrun_insert (m : LightyHashMap κ ν) (k : κ) (v : ν) (alloc : Bool) :
    (m.insert hash k v alloc).1.overrun = m.overrun := by
  unfold insert
  dsimp only
  split
  · exact overrun_initBucketUnit ..
  · split_ifs <;> exact overrun_initBucketUnit ..

theorem overrun_get (m : LightyHashMap κ ν) (k : κ) :
    (m.get hash k).1.overrun = m.overrun := by
  unfold get
  dsimp only
  split
  · exact overrun_initBucketUnit ..
  · split <;> exact overrun_initBucketUnit ..

theorem overrun_erase (m : LightyHashMap κ ν) (k : κ) :
    (m.erase hash k).1.overrun = m.overrun := by
  unfold erase
  dsimp only
  split
  · exact overrun_initBucketUnit ..
  · split_ifs
    · exact overrun_initBucketUnit ..
    · split <;> exact overrun_initBucketUnit ..

omit [DecidableEq κ] in
/-- `clear` always writes behind the bytes of the units. -/
theorem Valid.overrun_clear (h : m.Valid hash) : 0 < m.clear.overrun := by
  have hunits : 0 < unitNum m.bucketNum m.unitBuckets :=
    Nat.zero_lt_of_lt (h.unit_lt h.bucketNum_pos)
  have hmore : unitNum m.bucketNum m.unitBuckets * 1 <
      unitNum m.bucketNum m.unitBuckets * m.nodeSize :=
    Nat.mul_lt_mul_of_pos_left m.one_lt_nodeSize hunits
  simp only [LightyHashMap.clear]
  omega

/-- An `erase` right behind a successful `insert` of the key undoes it: the key is the only one of
its bucket, or the last of its chain. -/
theorem Valid.erase_insert (h : m.Valid hash)
    {alloc : Bool} (hins : m.insert hash k v alloc = (m', .success)) :
    (m'.erase hash k).1.Valid hash ∧
      ∀ k', (m'.erase hash k).1.lookup hash k' = m.lookup hash k' := by
  rcases h.insert_spec k v alloc with ⟨m₁, ret, hins₁, -, -, hret⟩ | hspec
  · rw [hins] at hins₁
    cases hins₁
    rcases hret with ⟨hret, -⟩ | ⟨hret, -⟩ <;> cases hret
  obtain ⟨m₁, hins₁, hvalid, hnone, hnum, -, hentries⟩ := hspec
  rw [hins] at hins₁
  cases hins₁
  obtain ⟨hself, hother⟩ := lookup_of_insert hnone hnum hentries
  rcases hvalid.erase_spec k with
    ⟨m₂, -, -, -, hgone⟩ | ⟨m₂, w, her, hvalid₂, -, hnum₂, -, hentries₂⟩
  · rw [hself] at hgone
    cases hgone
  have hhead : m'.isHeadOfChain hash k = false := by
    have hpos : m'.bucketPos hash k = m.bucketPos hash k := by rw [bucketPos, bucketPos, hnum]
    rw [isHeadOfChain, hpos, hentries, if_pos rfl]
    rw [lookup, lookup_eq_none_iff_not_mem] at hnone
    rcases hb : m.entries (m.bucketPos hash k) with _ | ⟨head, chain⟩
    · rfl
    rw [hb] at hnone
    have hne : head.1 ≠ k := fun hk => hnone (hk ▸ mem_cons_self)
    cases chain <;> exact beq_false_of_ne hne
  rw [her]
  refine ⟨hvalid₂, fun k' => ?_⟩
  by_cases hk : k' = k
  · rw [hk, hnone]
    exact hvalid.lookup_eraseNodes_self hnum₂ hentries₂
  · rw [(hvalid.lookup_eraseNodes_iff hnum₂ hentries₂).2 hhead k' hk, hother k' hk]

end Entries

end LightyHashMap

open LightyHashMap

/-! ### Runs -/

/-- An operation of the map's user. -/
inductive MapOp (κ ν : Type*)
  | insert (k : κ) (v : ν) (alloc : Bool)
  | get (k : κ)
  | erase (k : κ)
  | clear

/-- The map, and what was inserted and not erased since. -/
structure MapState (κ ν : Type*) where
  map : LightyHashMap κ ν
  stored : List (κ × ν)

namespace MapState

variable {κ ν : Type*} [DecidableEq κ] (hash : κ → Nat)

variable (s : MapState κ ν)

/-- One operation. An insertion counts when it returns `OB_SUCCESS`. -/
def step : MapOp κ ν → Option (MapState κ ν)
  | .insert k v alloc => some ⟨(s.map.insert hash k v alloc).1,
      if (s.map.insert hash k v alloc).2 = .success then insertKey k v s.stored else s.stored⟩
  | .get k => some ⟨(s.map.get hash k).1, s.stored⟩
  | .erase k => some ⟨(s.map.erase hash k).1, eraseKey k s.stored⟩
  | .clear => some ⟨s.map.clear, []⟩

/-- `get` of every key returns the value of its last insertion that is not followed by its
erasure. -/
def Finds : Prop :=
  ∀ k, (s.map.get hash k).2 = match s.stored.lookup k with
    | some v => .ok v
    | none => .error .entryNotExist

/-- Nothing was written outside the map's arrays. -/
def Inside : Prop := s.map.overrun = 0

/-- The map behaves as a finite map. -/
structure FiniteMap (s : MapState κ ν) : Prop where
  finds : s.Finds hash
  size_eq : s.map.size = s.stored.length
  inside : s.Inside

/-- The operation does not erase the first key of a chain, and does not clear the map. -/
def KeepsChain : MapOp κ ν → Prop
  | .erase k => s.map.isHeadOfChain hash k = false
  | .clear => False
  | _ => True

/-- The operation does not erase a stored key, and does not clear the map. -/
def NoErase : MapOp κ ν → Prop
  | .erase k => s.stored.lookup k = none
  | .clear => False
  | _ => True

/-- What holds in every state of every run. -/
structure Inv (s : MapState κ ν) : Prop where
  valid : s.map.Valid hash
  nodup : (s.stored.map Prod.fst).Nodup

variable {hash} {s s' : MapState κ ν} {op : MapOp κ ν}

theorem Inv.finds_iff (h : s.Inv hash) :
    s.Finds hash ↔ ∀ k, s.map.lookup hash k = s.stored.lookup k := by
  refine forall_congr' fun k => ?_
  obtain ⟨m', -, -, hget⟩ := h.valid.get_spec k
  rw [hget]
  cases s.map.lookup hash k <;> cases s.stored.lookup k <;> simp

omit [DecidableEq κ] in
theorem inv_create (hunit : 0 < unitBuckets)
    {memory : Nat → Option ((κ × ν) × List (κ × ν))} {m : LightyHashMap κ ν}
    (h : create unitBuckets hnode memory bucketNum = .ok m) : Inv hash ⟨m, []⟩ :=
  ⟨valid_create hunit h, nodup_nil⟩

theorem Inv.step (h : s.Inv hash) (hstep : s.step hash op = some s') : s'.Inv hash := by
  cases op with
  | insert k v alloc =>
    cases hstep
    refine ⟨?_, ?_⟩
    · rcases h.valid.insert_spec k v alloc with
        ⟨m', ret, hins, hvalid, -⟩ | ⟨m', hins, hvalid, -⟩ <;>
      · rwa [hins]
    split_ifs
    · exact nodup_insertKey h.nodup
    · exact h.nodup
  | get k =>
    cases hstep
    obtain ⟨m', hvalid, -, hget⟩ := h.valid.get_spec k
    refine ⟨?_, h.nodup⟩
    rwa [hget]
  | erase k =>
    cases hstep
    refine ⟨?_, nodup_eraseKey h.nodup⟩
    rcases h.valid.erase_spec k with ⟨m', her, hvalid, -⟩ | ⟨m', v, her, hvalid, -⟩ <;>
    · rwa [her]
  | clear =>
    cases hstep
    exact ⟨h.valid.clear, nodup_nil⟩

/-- An operation that does not clear the map writes inside its arrays. -/
theorem inside_step (hstep : s.step hash op = some s') (hop : op ≠ .clear) :
    s'.Inside ↔ s.Inside := by
  cases op with
  | insert k v alloc =>
    cases hstep
    rw [Inside, Inside, overrun_insert]
  | get k =>
    cases hstep
    rw [Inside, Inside, overrun_get]
  | erase k =>
    cases hstep
    rw [Inside, Inside, overrun_erase]
  | clear => exact absurd rfl hop

theorem Inv.not_inside_clear (h : s.Inv hash) (hstep : s.step hash .clear = some s') :
    ¬ s'.Inside := by
  cases hstep
  exact h.valid.overrun_clear.ne'

/-- One operation from a state where every key is found: the lookups stay right exactly when no
chain is forgotten. -/
theorem Inv.finds_step (h : s.Inv hash) (hfinds : s.Finds hash)
    (hstep : s.step hash op = some s') (hop : op ≠ .clear) :
    s'.Finds hash ↔ s.KeepsChain hash op := by
  rw [(h.step hstep).finds_iff]
  rw [h.finds_iff] at hfinds
  cases op with
  | insert k v alloc =>
    cases hstep
    refine iff_of_true (fun k' => ?_) trivial
    rcases h.valid.insert_spec k v alloc with
      ⟨m', ret, hins, -, hsame, hret⟩ | ⟨m', hins, -, hnone, hnum, -, hentries⟩
    · have hne : ret ≠ .success := by rcases hret with ⟨rfl, -⟩ | ⟨rfl, -⟩ <;> decide
      rw [hins, if_neg hne, hsame.lookup_eq, hfinds]
    obtain ⟨hself, hother⟩ := LightyHashMap.lookup_of_insert hnone hnum hentries
    rw [hins, if_pos rfl]
    by_cases hk : k' = k
    · rw [hk, lookup_insertKey_self, hself]
    · rw [lookup_insertKey_of_ne hk, hother k' hk, hfinds]
  | get k =>
    cases hstep
    refine iff_of_true (fun k' => ?_) trivial
    obtain ⟨m', -, hsame, hget⟩ := h.valid.get_spec k
    rw [hget, hsame.lookup_eq, hfinds]
  | erase k =>
    cases hstep
    rcases h.valid.erase_spec k with
      ⟨m', her, -, hsame, hnone⟩ | ⟨m', v, her, -, -, hnum, -, hentries⟩
    · refine iff_of_true (fun k' => ?_) (LightyHashMap.isHeadOfChain_of_lookup_eq_none hnone)
      rw [her, hsame.lookup_eq, eraseKey_of_lookup_eq_none (by rw [← hfinds, hnone]), hfinds]
    rw [KeepsChain, ← h.valid.lookup_eraseNodes_iff hnum hentries, her]
    constructor
    · intro hall k' hk'
      rw [hall, lookup_eraseKey_of_ne hk', hfinds]
    intro hother k'
    by_cases hk : k' = k
    · rw [hk, lookup_eraseKey_self h.nodup]
      exact h.valid.lookup_eraseNodes_self hnum hentries
    · rw [lookup_eraseKey_of_ne hk, hother k' hk, hfinds]
  | clear => exact absurd rfl hop

/-- The lookups stay right, and nothing is written outside, exactly when no chain is forgotten and
the map is not cleared. -/
theorem Inv.finds_inside_step (h : s.Inv hash) (hfinds : s.Finds hash ∧ s.Inside)
    (hstep : s.step hash op = some s') :
    s'.Finds hash ∧ s'.Inside ↔ s.KeepsChain hash op := by
  by_cases hop : op = .clear
  · subst hop
    exact iff_of_false (fun hafter => h.not_inside_clear hstep hafter.2) id
  · rw [inside_step hstep hop, and_iff_left hfinds.2]
    exact h.finds_step hfinds.1 hstep hop

/-- Of a finite map an operation makes a finite map exactly when it erases no stored key. -/
theorem Inv.finiteMap_step (h : s.Inv hash) (hmap : s.FiniteMap hash)
    (hstep : s.step hash op = some s') : s'.FiniteMap hash ↔ s.NoErase op := by
  by_cases hop : op = .clear
  · subst hop
    exact iff_of_false (fun hafter => h.not_inside_clear hstep hafter.inside) id
  have hfinds := h.finds_iff.1 hmap.finds
  have hiff := h.finds_step hmap.finds hstep hop
  have hinside := (inside_step hstep hop).2 hmap.inside
  cases op with
  | insert k v alloc =>
    refine iff_of_true ⟨hiff.2 trivial, ?_, hinside⟩ trivial
    cases hstep
    rcases h.valid.insert_spec k v alloc with
      ⟨m', ret, hins, -, hsame, hret⟩ | ⟨m', hins, -, hnone, -, hsize, -⟩
    · have hne : ret ≠ .success := by rcases hret with ⟨rfl, -⟩ | ⟨rfl, -⟩ <;> decide
      rw [hins, if_neg hne, hsame.size_eq, hmap.size_eq]
    · rw [hins, if_pos rfl, length_insertKey (by rw [← hfinds, hnone]), hsize, hmap.size_eq]
  | get k =>
    refine iff_of_true ⟨hiff.2 trivial, ?_, hinside⟩ trivial
    cases hstep
    obtain ⟨m', -, hsame, hget⟩ := h.valid.get_spec k
    rw [hget, hsame.size_eq, hmap.size_eq]
  | erase k =>
    rcases h.valid.erase_spec k with
      ⟨m', her, -, hsame, hnone⟩ | ⟨m', v, her, -, hsome, -, hsize, -⟩
    · have hstored : s.stored.lookup k = none := by rw [← hfinds, hnone]
      have hkeeps := isHeadOfChain_of_lookup_eq_none hnone
      refine iff_of_true ⟨hiff.2 hkeeps, ?_, hinside⟩ hstored
      cases hstep
      rw [her, hsame.size_eq, eraseKey_of_lookup_eq_none hstored, hmap.size_eq]
    -- the key is gone, and still counted
    have hstored : s.stored.lookup k = some v := by rw [← hfinds, hsome]
    refine iff_of_false (fun hafter => ?_) (by simp [NoErase, hstored])
    cases hstep
    have hcount : (s.map.erase hash k).1.size = (eraseKey k s.stored).length := hafter.size_eq
    have hlength := length_eraseKey hstored
    rw [her, hsize, hmap.size_eq] at hcount
    omega
  | clear => exact absurd rfl hop

theorem exists_run (hash : κ → Nat) (s : MapState κ ν) (ops : List (MapOp κ ν)) :
    ∃ s', run (MapState.step hash) s ops = some s' := by
  induction ops generalizing s with
  | nil => exact ⟨s, rfl⟩
  | cons op ops ih =>
    obtain ⟨t, ht⟩ : ∃ t, s.step hash op = some t := by
      cases op <;> exact ⟨_, rfl⟩
    obtain ⟨s', hrun⟩ := ih t
    exact ⟨s', (run_cons_eq_some _).2 ⟨t, ht, hrun⟩⟩

section Create

variable {unitBuckets nodeSize : Nat} (hunit : 0 < unitBuckets) {hnode : 1 < nodeSize}
  {memory : Nat → Option ((κ × ν) × List (κ × ν))} {bucketNum : Int} {m : LightyHashMap κ ν}
  (hcreate : LightyHashMap.create unitBuckets hnode memory bucketNum = .ok m)

include hunit hcreate

theorem finiteMap_create : FiniteMap hash ⟨m, []⟩ := by
  have hinv : Inv hash ⟨m, []⟩ := inv_create hunit hcreate
  unfold LightyHashMap.create at hcreate
  split_ifs at hcreate
  cases hcreate
  refine ⟨hinv.finds_iff.2 fun k => ?_, rfl, rfl⟩
  simp [LightyHashMap.lookup, LightyHashMap.entries]

/-- A run finds every key in every state, and writes nothing outside the arrays, exactly when it
erases no first key of a chain and does not clear the map. -/
theorem finds_run_iff (ops : List (MapOp κ ν)) :
    (∀ past s, past <+: ops → run (MapState.step hash) ⟨m, []⟩ past = some s →
      s.Finds hash ∧ s.Inside) ↔ Meets (MapState.step hash) (KeepsChain hash) ⟨m, []⟩ ops := by
  obtain ⟨s', hrun⟩ := exists_run hash ⟨m, []⟩ ops
  have hmap : FiniteMap hash ⟨m, []⟩ := finiteMap_create hunit hcreate
  exact always_iff_meets (fun _ _ _ h => h.step) (fun _ _ _ h => h.finds_inside_step)
    (inv_create hunit hcreate) ⟨hmap.finds, hmap.inside⟩ hrun

/-- A run is one of a finite map exactly when it erases no stored key and does not clear the map. -/
theorem finiteMap_run_iff (ops : List (MapOp κ ν)) :
    (∀ past s, past <+: ops → run (MapState.step hash) ⟨m, []⟩ past = some s →
      s.FiniteMap hash) ↔ Meets (MapState.step hash) NoErase ⟨m, []⟩ ops := by
  obtain ⟨s', hrun⟩ := exists_run hash ⟨m, []⟩ ops
  exact always_iff_meets (fun _ _ _ h => h.step) (fun _ _ _ h => h.finiteMap_step)
    (inv_create hunit hcreate) (finiteMap_create hunit hcreate) hrun

end Create

end MapState

end OceanBase.UpdateServer
