import OceanBase.UpdateServer.LightyHash

/-!
# The indexes of the memory table (`ob_query_engine.cpp`)

A row of the memory table is in two indexes, the hash map of `LightyHash` and a B+tree. `set` puts
it in the hash map, then in the tree, and takes it out of the hash map again when the tree has no
memory for it. Made one after another, these calls never erase the first key of a chain: the key
was put at the end of its bucket just before (`QueryEngine.Inv.set_failed`).
-/

namespace OceanBase.UpdateServer

open Lib MapState

/-! ### The code -/

/-- `TEKey`. -/
structure TEKey (ρ : Type*) where
  tableId : Nat
  rowKey : ρ
  deriving DecidableEq

/-- `TEHashKey`, whose table id has 32 bits. -/
structure TEHashKey (ρ : Type*) where
  tableId : Nat
  rowKey : ρ
  deriving DecidableEq

/-- The key of a row in the hash map. -/
def TEKey.hashKey {ρ : Type*} (key : TEKey ρ) : TEHashKey ρ := ⟨key.tableId % 2 ^ 32, key.rowKey⟩

/-- The bits of `index_stat`: `IST_HASH_INDEX` and `IST_BTREE_INDEX`. -/
structure IndexStat where
  hash : Bool
  btree : Bool
  deriving DecidableEq

/-- What `keybtree_.put` answers. -/
inductive BtreeRet
  | ok
  | allocFail
  | fail
  deriving DecidableEq

/-- `QueryEngine`. A value is its address, and `indexStat` is the field `index_stat` of what is
stored there. -/
structure QueryEngine (ρ α : Type*) where
  inited : Bool
  keyhash : LightyHashMap (TEHashKey ρ) α
  keybtree : List (TEKey ρ × α)
  indexStat : α → IndexStat

namespace QueryEngine

variable {ρ α : Type*}

/-- `init`; the number of buckets is the prime chosen for the configured size. -/
def init (unitBuckets : Nat) {nodeSize : Nat} (hnode : 1 < nodeSize)
    (memory : Nat → Option ((TEHashKey ρ × α) × List (TEHashKey ρ × α)))
    (indexStat : α → IndexStat) (bucketNum : Int) : Except Ret (QueryEngine ρ α) :=
  match LightyHashMap.create unitBuckets hnode memory bucketNum with
  | .error ret => .error ret
  | .ok keyhash => .ok ⟨true, keyhash, [], indexStat⟩

/-- `clear`, of both indexes. -/
def clear (q : QueryEngine ρ α) : QueryEngine ρ α :=
  if q.inited then { q with keybtree := [], keyhash := q.keyhash.clear } else q

variable [DecidableEq ρ] [DecidableEq α] (hash : TEHashKey ρ → Nat)

/-- `set`; `alloc` says whether the hash map can allocate a node, `put` what the tree answers. A
tree that fails is the tree it was. -/
def set (q : QueryEngine ρ α) (key : TEKey ρ) (value : Option α) (alloc : Bool) (put : BtreeRet) :
    QueryEngine ρ α × Ret :=
  if !q.inited then (q, .error)
  else
    match value with
    | none => (q, .error)
    | some v =>
      match q.keyhash.insert hash key.hashKey v alloc with
      | (keyhash, .success) =>
        match put with
        | .ok =>
          ({ q with
            keyhash := keyhash
            keybtree := insertKey key v q.keybtree
            indexStat := Function.update q.indexStat v
              { q.indexStat v with hash := true, btree := true } }, .success)
        | put =>
          ({ q with
            keyhash := (keyhash.erase hash key.hashKey).1
            indexStat := Function.update q.indexStat v ⟨false, false⟩ },
            if put = .allocFail then .memOverflow else .error)
      | (keyhash, ret) => ({ q with keyhash := keyhash }, ret)

/-- `get`. It is `none` when the loop goes round for ever, which it does on a value that is not in
both indexes. -/
def get (usingHashIndex : Bool) (q : QueryEngine ρ α) (key : TEKey ρ) :
    QueryEngine ρ α × Option (Option α) :=
  if !q.inited then (q, some none)
  else if usingHashIndex then
    match q.keyhash.get hash key.hashKey with
    | (keyhash, .error _) => ({ q with keyhash := keyhash }, some none)
    | (keyhash, .ok v) =>
      ({ q with keyhash := keyhash },
        if (q.indexStat v).hash && (q.indexStat v).btree then some (some v) else none)
  else (q, some (q.keybtree.lookup key))

end QueryEngine

/-- A call of the engine's user. -/
inductive QueryOp (ρ α : Type*)
  | set (key : TEKey ρ) (value : Option α) (alloc : Bool) (put : BtreeRet)
  | get (usingHashIndex : Bool) (key : TEKey ρ)
  | clear

namespace QueryEngine

section Calls

variable {ρ α : Type*} [DecidableEq ρ] [DecidableEq α] (hash : TEHashKey ρ → Nat)

variable (q : QueryEngine ρ α)

/-- One call. -/
def step : QueryOp ρ α → Option (QueryEngine ρ α)
  | .set key value alloc put => some (q.set hash key value alloc put).1
  | .get usingHashIndex key => some (q.get hash usingHashIndex key).1
  | .clear => some q.clear

/-- `get_cur_value_` hands `set` a value it has just allocated: it is not the value of a row. The
indexes are not cleared, which would write behind an array of the hash map. -/
def Fresh : QueryOp ρ α → Prop
  | .set _ (some v) _ _ => v ∉ q.keybtree.map Prod.snd
  | .clear => False
  | _ => True

instance : (op : QueryOp ρ α) → Decidable (q.Fresh op)
  | .set _ (some v) _ _ => inferInstanceAs (Decidable (v ∉ q.keybtree.map Prod.snd))
  | .set _ none _ _ | .get .. => isTrue trivial
  | .clear => isFalse id

end Calls

/-! ### What holds in every run -/

variable {ρ α : Type*} [DecidableEq ρ] (hash : TEHashKey ρ → Nat)

/-- The rows of the hash map are those of the tree, and each is marked to be in both. -/
structure Inv (q : QueryEngine ρ α) : Prop where
  valid : q.keyhash.Valid hash
  rows : ∀ hk v, q.keyhash.lookup hash hk = some v ↔
    ∃ key : TEKey ρ, key.hashKey = hk ∧ q.keybtree.lookup key = some v
  stat : ∀ hk v, q.keyhash.lookup hash hk = some v → q.indexStat v = ⟨true, true⟩

variable {hash} {q q' : QueryEngine ρ α}

theorem inv_init {unitBuckets nodeSize : Nat} (hunit : 0 < unitBuckets) {hnode : 1 < nodeSize}
    {memory : Nat → Option ((TEHashKey ρ × α) × List (TEHashKey ρ × α))} {indexStat : α → IndexStat}
    {bucketNum : Int} (h : init unitBuckets hnode memory indexStat bucketNum = .ok q) :
    q.Inv hash := by
  unfold init at h
  split at h
  · cases h
  · next keyhash hcreate =>
    cases h
    have hfinds : MapState.Finds hash ⟨keyhash, []⟩ :=
      (finiteMap_create hunit hcreate).finds
    rw [(inv_create hunit hcreate).finds_iff] at hfinds
    have hnone : ∀ hk, keyhash.lookup hash hk = none := hfinds
    exact ⟨LightyHashMap.valid_create hunit hcreate, fun hk v => by simp [hnone],
      fun hk v hv => by simp [hnone] at hv⟩

theorem Inv.of_lookup (h : q.Inv hash) {keyhash : LightyHashMap (TEHashKey ρ) α}
    (hvalid : keyhash.Valid hash)
    (hlookup : ∀ hk, keyhash.lookup hash hk = q.keyhash.lookup hash hk) :
    Inv hash { q with keyhash := keyhash } := by
  refine ⟨hvalid, fun hk v => ?_, fun hk v hv => ?_⟩
  · rw [hlookup]
    exact h.rows hk v
  · rw [hlookup] at hv
    exact h.stat hk v hv

theorem Inv.get_spec (h : q.Inv hash) (usingHashIndex : Bool) (key : TEKey ρ) :
    ∃ keyhash, keyhash.Valid hash ∧
      (∀ hk, keyhash.lookup hash hk = q.keyhash.lookup hash hk) ∧
      q.get hash usingHashIndex key = ({ q with keyhash := keyhash }, some
        (if !q.inited then none
        else if usingHashIndex then q.keyhash.lookup hash key.hashKey
        else q.keybtree.lookup key)) := by
  unfold get
  by_cases hinited : (!q.inited) = true
  · rw [if_pos hinited, if_pos hinited]
    exact ⟨q.keyhash, h.valid, fun _ => rfl, rfl⟩
  rw [if_neg hinited, if_neg hinited]
  rcases usingHashIndex with _ | _
  · exact ⟨q.keyhash, h.valid, fun _ => rfl, rfl⟩
  obtain ⟨keyhash, hvalid, hsame, hget⟩ := h.valid.get_spec key.hashKey
  refine ⟨keyhash, hvalid, hsame.lookup_eq, ?_⟩
  simp only [hget]
  rcases hfound : q.keyhash.lookup hash key.hashKey with _ | v
  · rfl
  · simp [h.stat _ v hfound]

variable {put : BtreeRet} {key : TEKey ρ} {alloc : Bool}

theorem Inv.ne_of_fresh (h : q.Inv hash) {v : α} (hfresh : q.Fresh (.set key (some v) alloc put))
    {hk : TEHashKey ρ} {w : α} (hw : q.keyhash.lookup hash hk = some w) : w ≠ v := by
  rintro rfl
  obtain ⟨key', -, hkey'⟩ := (h.rows hk w).1 hw
  exact hfresh (List.mem_map_of_mem (mem_of_lookup_eq_some hkey'))

variable [DecidableEq α] {value : Option α}

/-- What `set` can do: fail and leave the rows, or add one. -/
theorem Inv.set_cases (h : q.Inv hash) (key : TEKey ρ) (value : Option α) (alloc : Bool)
    (put : BtreeRet) :
    (∃ keyhash ret, q.set hash key value alloc put = ({ q with keyhash := keyhash }, ret) ∧
      ret ≠ .success ∧ keyhash.Valid hash ∧
      ∀ hk, keyhash.lookup hash hk = q.keyhash.lookup hash hk) ∨
    (∃ v keyhash ret, value = some v ∧ q.set hash key value alloc put =
        ({ q with
          keyhash := keyhash
          indexStat := Function.update q.indexStat v ⟨false, false⟩ }, ret) ∧
      ret ≠ .success ∧ keyhash.Valid hash ∧
      ∀ hk, keyhash.lookup hash hk = q.keyhash.lookup hash hk) ∨
    ∃ v keyhash, value = some v ∧ q.set hash key value alloc put =
        ({ q with
          keyhash := keyhash
          keybtree := insertKey key v q.keybtree
          indexStat := Function.update q.indexStat v ⟨true, true⟩ }, .success) ∧
      keyhash.Valid hash ∧ q.keyhash.lookup hash key.hashKey = none ∧
      keyhash.lookup hash key.hashKey = some v ∧
      ∀ hk, hk ≠ key.hashKey → keyhash.lookup hash hk = q.keyhash.lookup hash hk := by
  unfold set
  by_cases hinited : (!q.inited) = true
  · rw [if_pos hinited]
    exact .inl ⟨q.keyhash, .error, rfl, by decide, h.valid, fun _ => rfl⟩
  rw [if_neg hinited]
  cases value with
  | none => exact .inl ⟨q.keyhash, .error, rfl, by decide, h.valid, fun _ => rfl⟩
  | some v =>
  rcases h.valid.insert_spec key.hashKey v alloc with
    ⟨keyhash, ret, hins, hvalid, hsame, hret⟩ | ⟨keyhash, hins, hvalid, hnone, hnum, -, hentries⟩
  · left
    refine ⟨keyhash, ret, ?_, ?_, hvalid, hsame.lookup_eq⟩
    · rcases hret with ⟨rfl, -⟩ | ⟨rfl, -⟩ <;> simp [hins]
    · rcases hret with ⟨rfl, -⟩ | ⟨rfl, -⟩ <;> decide
  right
  obtain ⟨hself, hother⟩ := LightyHashMap.lookup_of_insert hnone hnum hentries
  obtain ⟨hundone, hsame⟩ := h.valid.erase_insert hins
  cases put with
  | ok =>
    right
    exact ⟨v, keyhash, rfl, by simp [hins], hvalid, hnone, hself, hother⟩
  | allocFail =>
    left
    exact ⟨v, _, .memOverflow, rfl, by simp only [hins]; rfl, by decide, hundone, hsame⟩
  | fail =>
    left
    exact ⟨v, _, .error, rfl, by simp only [hins]; rfl, by decide, hundone, hsame⟩

theorem Inv.set (h : q.Inv hash) (hfresh : q.Fresh (.set key value alloc put)) :
    (q.set hash key value alloc put).1.Inv hash := by
  rcases h.set_cases key value alloc put with
    ⟨keyhash, ret, hset, -, hvalid, hlookup⟩ | ⟨v, keyhash, ret, rfl, hset, -, hvalid, hlookup⟩ |
      ⟨v, keyhash, rfl, hset, hvalid, hnone, hself, hother⟩
  · rw [hset]
    exact h.of_lookup hvalid hlookup
  · rw [hset]
    have hinv := h.of_lookup hvalid hlookup
    refine ⟨hvalid, hinv.rows, fun hk w hw => ?_⟩
    have hne : w ≠ v := h.ne_of_fresh hfresh (by rw [← hlookup hk]; exact hw)
    exact (Function.update_of_ne hne ..).trans (hinv.stat hk w hw)
  rw [hset]
  refine ⟨hvalid, fun hk w => ?_, fun hk w hw => ?_⟩
  · by_cases hhk : hk = key.hashKey
    · subst hhk
      rw [hself]
      constructor
      · rintro ⟨⟩
        exact ⟨key, rfl, lookup_insertKey_self⟩
      rintro ⟨key', hkey', hw⟩
      by_cases heq : key' = key
      · rwa [heq, lookup_insertKey_self] at hw
      -- a row of the tree with this hash key would be in the hash map
      rw [lookup_insertKey_of_ne heq] at hw
      rw [(h.rows _ w).2 ⟨key', hkey', hw⟩] at hnone
      cases hnone
    · rw [hother hk hhk, h.rows]
      refine exists_congr fun key' => and_congr_right fun hkey' => ?_
      have hne : key' ≠ key := fun heq => hhk (by rw [← hkey', heq])
      rw [lookup_insertKey_of_ne hne]
  · by_cases hhk : hk = key.hashKey
    · have hwv : w = v := by
        rw [hhk] at hw
        exact Option.some.inj (hw.symm.trans hself)
      rw [hwv]
      exact Function.update_self ..
    · have hold : q.keyhash.lookup hash hk = some w := by rw [← hother hk hhk]; exact hw
      exact (Function.update_of_ne (h.ne_of_fresh hfresh hold) ..).trans (h.stat hk w hold)

theorem Inv.step {op : QueryOp ρ α} (h : q.Inv hash) (hfresh : q.Fresh op)
    (hstep : q.step hash op = some q') : q'.Inv hash := by
  cases op with
  | set key value alloc put =>
    cases hstep
    exact h.set hfresh
  | get usingHashIndex key =>
    cases hstep
    obtain ⟨keyhash, hvalid, hlookup, hget⟩ := h.get_spec usingHashIndex key
    rw [hget]
    exact h.of_lookup hvalid hlookup
  | clear => exact absurd hfresh id

/-- **A `set` that fails** changes the answer of no `get`. -/
theorem Inv.set_failed (h : q.Inv hash) (hfresh : q.Fresh (.set key value alloc put))
    (hfail : (q.set hash key value alloc put).2 ≠ .success) (usingHashIndex : Bool)
    (key' : TEKey ρ) :
    ∃ found, (q.get hash usingHashIndex key').2 = some found ∧
      ((q.set hash key value alloc put).1.get hash usingHashIndex key').2 = some found := by
  have hafter := h.set hfresh
  obtain ⟨_, -, -, hget⟩ := h.get_spec usingHashIndex key'
  obtain ⟨_, -, -, hget'⟩ := hafter.get_spec usingHashIndex key'
  rw [hget, hget']
  refine ⟨_, rfl, ?_⟩
  rcases h.set_cases key value alloc put with
    ⟨keyhash, ret, hset, -, -, hlookup⟩ | ⟨v, keyhash, ret, -, hset, -, -, hlookup⟩ |
      ⟨v, keyhash, -, hset, -⟩
  · rw [hset, hlookup]
  · rw [hset, hlookup]
  · rw [hset] at hfail
    exact absurd rfl hfail

end QueryEngine

/-! ### The laws -/

/-- A run of the hash map is a run of a **finite map** exactly when it erases no stored key and does
not clear the map; `get` alone stays right exactly when no first key of a chain is erased and the
map is not cleared. A call of `QueryEngine::set` that fails leaves what `get` returns. -/
theorem hash_map_of_run {κ ν ρ α : Type*} [DecidableEq κ] [DecidableEq ρ] [DecidableEq α]
    {unitBuckets nodeSize : Nat} (hunit : 0 < unitBuckets) (hnode : 1 < nodeSize) (hash : κ → Nat)
    (hashKey : TEHashKey ρ → Nat) :
    (∀ (memory : Nat → Option ((κ × ν) × List (κ × ν))) bucketNum m,
      LightyHashMap.create unitBuckets hnode memory bucketNum = .ok m → ∀ ops : List (MapOp κ ν),
        ((∀ past s, past <+: ops → run (MapState.step hash) ⟨m, []⟩ past = some s →
            s.FiniteMap hash) ↔
          Meets (MapState.step hash) MapState.NoErase ⟨m, []⟩ ops) ∧
        ((∀ past s, past <+: ops → run (MapState.step hash) ⟨m, []⟩ past = some s →
            s.Finds hash ∧ s.Inside) ↔
          Meets (MapState.step hash) (MapState.KeepsChain hash) ⟨m, []⟩ ops)) ∧
    ∀ (memory : Nat → Option ((TEHashKey ρ × α) × List (TEHashKey ρ × α))) indexStat bucketNum q,
      QueryEngine.init unitBuckets hnode memory indexStat bucketNum = .ok q → ∀ ops q',
        Meets (QueryEngine.step hashKey) QueryEngine.Fresh q ops →
        run (QueryEngine.step hashKey) q ops = some q' → ∀ key value alloc put,
          q'.Fresh (.set key value alloc put) →
          (q'.set hashKey key value alloc put).2 ≠ .success → ∀ usingHashIndex key',
            ∃ found, (q'.get hashKey usingHashIndex key').2 = some found ∧
              ((q'.set hashKey key value alloc put).1.get hashKey usingHashIndex key').2 =
                some found := by
  constructor
  · intro memory bucketNum m hcreate ops
    exact ⟨finiteMap_run_iff hunit hcreate ops, finds_run_iff hunit hcreate ops⟩
  intro memory indexStat bucketNum q hinit ops q' hmeets hrun key value alloc put hfresh hfail
  have hinv : q'.Inv hashKey :=
    run_invariant_of_meets (fun _ _ _ h => h.step) (QueryEngine.inv_init hunit hinit) hmeets hrun
  exact hinv.set_failed hfresh hfail

/-- An empty map of one bucket, with nodes of 24 bytes. -/
def oneBucket {κ : Type} : LightyHashMap κ Nat :=
  ⟨1, 1, fun _ => none, fun _ => false, 1, 0, 0, 24, by decide, 0⟩

/-- Two keys of one bucket, the second erased again: every `get` stays right. In the engine the
second of two such rows fails to enter the tree, and the first is still found. -/
theorem hash_map_of_run_collision :
    (∀ past s, past <+: [MapOp.insert 0 10 true, .insert 1 11 true, .erase 1] →
      run (MapState.step fun k : Nat => k) ⟨oneBucket, []⟩ past = some s →
      (s.Finds fun k => k) ∧ s.Inside) ∧
    ∃ q : QueryEngine Nat Nat,
      run (QueryEngine.step fun k => k.rowKey) ⟨true, oneBucket, [], fun _ => ⟨false, false⟩⟩
        [.set ⟨1, 0⟩ (some 10) true .ok] = some q ∧
      ((q.set (fun k => k.rowKey) ⟨1, 1⟩ (some 11) true .allocFail).1.get (fun k => k.rowKey) true
        ⟨1, 0⟩).2 = some (some 10) := by
  have hlaws := @hash_map_of_run Nat Nat Nat Nat _ _ _ 1 24 (by decide) (by decide) (fun k => k)
    (fun k => k.rowKey)
  refine ⟨((hlaws.1 (fun _ => none) 1 _ rfl _).2).2 ?_, _, rfl, ?_⟩
  · exact ⟨trivial, fun _ h => by
      cases h
      exact ⟨trivial, fun _ h => by
        cases h
        exact ⟨rfl, fun _ _ => trivial⟩⟩⟩
  obtain ⟨found, hget, hafter⟩ := hlaws.2 (fun _ => none) (fun _ => ⟨false, false⟩) 1 _ rfl
    [.set ⟨1, 0⟩ (some 10) true .ok] _ (by decide) rfl ⟨1, 1⟩ (some 11) true .allocFail (by decide)
    (by decide) true ⟨1, 0⟩
  cases hget
  exact hafter

/-- Two keys of one bucket, the first erased: the second is lost, and the size is that of both. The
empty map cleared: of 24 bytes that are zeroed, 23 are behind the one byte of its unit. -/
theorem finiteMap_fails_erase_head :
    (∃ s : MapState Nat Nat,
      run (MapState.step fun k : Nat => k) ⟨oneBucket, []⟩
        [.insert 0 10 true, .insert 1 11 true, .erase 0] = some s ∧
      s.stored = [(1, 11)] ∧ (s.map.get (fun k => k) 1).2 = .error .entryNotExist ∧
      s.map.size = 2 ∧ ¬ s.Finds (fun k => k) ∧ ¬ s.FiniteMap fun k => k) ∧
    ∃ s : MapState Nat Nat, run (MapState.step fun k : Nat => k) ⟨oneBucket, []⟩ [.clear] = some s ∧
      s.map.overrun = 23 ∧ ¬ s.FiniteMap fun k => k := by
  refine ⟨⟨_, rfl, rfl, rfl, rfl, ?_, ?_⟩, _, rfl, rfl, ?_⟩
  · intro h
    exact absurd (h 1) (by intro hlost; cases hlost)
  · intro h
    exact absurd (h.finds 1) (by intro hlost; cases hlost)
  · intro h
    exact absurd h.inside (show (23 : Nat) ≠ 0 by decide)

end OceanBase.UpdateServer
