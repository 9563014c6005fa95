import OceanBase.UpdateServer.MemTable

/-!
# Folding the nodes of a row

Readers differ in the columns they ask for, and `merge_` reads all columns without the row key. As
long as the values of a row stand behind a modify time (`Tame`), what any reader collects is what
`merge_` collects, with the reader's key columns put in and the columns it did not ask for left out
(`addRaw_eq_view`). So a node with the cells that `merge_` has collected is read like the nodes it
stands for (`addRaw_compacted`).
-/

namespace OceanBase.UpdateServer

open Common Lib List ReadParam CompactRow Prod

variable {arith : Arith} {p : ReadParam}

/-! ### Readers -/

variable {r : CompactRow}

namespace ReadParam

/-- The compaction of a row with stored cells added to it. -/
def addRaw (arith : Arith) (p : ReadParam) (r : CompactRow) (raw : List Cell) :
    Except Ret CompactRow :=
  r.addCells arith ((raw.flatMap p.expand).filter p.columnExist)

@[simp]
theorem addRaw_nil : p.addRaw arith r [] = .ok r := rfl

theorem addRaw_append (raw raw' : List Cell) :
    p.addRaw arith r (raw ++ raw') =
      (p.addRaw arith r raw).bind fun r => p.addRaw arith r raw' := by
  rw [addRaw, flatMap_append, filter_append, addCells_append]
  rfl

theorem addRaw_cons (c : Cell) (raw : List Cell) :
    p.addRaw arith r (c :: raw) = (p.addRaw arith r [c]).bind fun r => p.addRaw arith r raw :=
  addRaw_append [c] raw

theorem addRaw_all (raw : List Cell) :
    all.addRaw arith r raw = r.addCells arith (raw.flatMap all.expand) := by
  have hall : ∀ c ∈ raw.flatMap all.expand, all.columnExist c = true := by
    intro c _
    cases c <;> rfl
  rw [addRaw, filter_eq_self.2 hall]

theorem addRaw_delRow (raw : List Cell) :
    p.addRaw arith r (.delRow :: raw) = p.addRaw arith ⟨true, false, false, []⟩ raw := by
  rfl

/-- The modify time of a node or of a row that is written again. -/
def mtime (t : Int) : Cell := .value .modifyTime (.modifyTime t)

/-- The row key, column by column. -/
def keys (p : ReadParam) : List (Column × Obj) := keysFrom 0 p.rowKey

theorem mem_keysFrom {i : Nat} {os : List Obj} {v : Column × Obj} (h : v ∈ keysFrom i os) :
    v.2 ∈ os ∧ ∃ j, i ≤ j ∧ v.1 = .key j := by
  induction os generalizing i with
  | nil => cases h
  | cons o os ih =>
    rcases mem_cons.1 h with rfl | h
    · exact ⟨mem_cons_self, i, Nat.le_refl i, rfl⟩
    · obtain ⟨hmem, j, hj, heq⟩ := ih h
      exact ⟨mem_cons_of_mem _ hmem, j, by omega, heq⟩

theorem nodup_keysFrom (i : Nat) (os : List Obj) : ((keysFrom i os).map fst).Nodup := by
  induction os generalizing i with
  | nil => exact nodup_nil
  | cons o os ih =>
    refine nodup_cons.2 ⟨fun h => ?_, ih (i + 1)⟩
    obtain ⟨v, hv, heq⟩ := mem_map.1 h
    obtain ⟨-, j, hj, hkey⟩ := mem_keysFrom hv
    rw [hkey] at heq
    cases heq
    omega

variable {vs : List (Column × Obj)}

theorem addCells_fresh
    (hnode : ∀ v ∈ vs, CompactRow.hasNode v.1) (hnodup : ((r.list ++ vs).map fst).Nodup) :
    r.addCells arith (vs.map fun v => Cell.value v.1 v.2) =
      .ok { r with list := r.list ++ vs } := by
  induction vs generalizing r with
  | nil => simp
  | cons v vs ih =>
    have hnew : v.1 ∉ r.list.map fst := by
      intro hmem
      rw [map_append, nodup_append] at hnodup
      exact hnodup.2.2 _ hmem _ mem_cons_self rfl
    have hrest := ih (r := { r with list := r.list ++ [v] })
      (forall_mem_cons.1 hnode).2 (by simpa using hnodup)
    rw [map_cons, addCells_cons, addCell_value_eq_ok r
      (hnode v mem_cons_self) (addValue_of_notMem hnew)]
    simp [Except.bind, hrest]

theorem addCells_of_mem
    (hmem : ∀ v ∈ vs, v ∈ r.list) (hkey : ∀ v ∈ vs, v.2.isKey = true ∧ CompactRow.hasNode v.1)
    (hnodup : (r.list.map fst).Nodup) :
    r.addCells arith (vs.map fun v => Cell.value v.1 v.2) = .ok r := by
  induction vs with
  | nil => rfl
  | cons v vs ih =>
    obtain ⟨hisKey, hnode⟩ := hkey v mem_cons_self
    rw [map_cons, addCells_cons, addCell_value_eq_ok r hnode
      (addValue_of_mem_self (hmem v mem_cons_self) hnodup (Obj.apply_self_of_isKey arith hisKey))]
    exact ih (forall_mem_cons.1 hmem).2 (forall_mem_cons.1 hkey).2

end ReadParam

/-! ### One fold determines the others -/

/-- A value of a data column, which is no time of the row. -/
structure IsData (v : Column × Obj) : Prop where
  column : ∃ id, v.1 = .data id
  hasNode : CompactRow.hasNode v.1 = true
  notTime : v.2.isTime = false

/-- What `merge_` collects from values that stand behind a modify time: nothing since the row was
deleted, or the two times of the row and then its data columns. -/
inductive Timed : CompactRow → Prop
  | none (delRow : Bool) : Timed ⟨delRow, false, false, []⟩
  | some (delRow : Bool) (mtime ctime : Int) {data : List (Column × Obj)}
      (hdata : ∀ v ∈ data, IsData v) (hnodup : (data.map Prod.fst).Nodup) :
      Timed ⟨delRow, false, false,
        (.modifyTime, .modifyTime mtime) :: (.createTime, .createTime ctime) :: data⟩

/-- The times of a row whose last node has modify time `t`; a row without times is deleted. -/
def TimesAt (t : Int) (r : CompactRow) : Prop :=
  match r.list with
  | (_, .modifyTime m) :: (_, .createTime c) :: _ => m = t ∧ c ≤ t
  | _ => r.delRow = true

/-- Values only behind a modify time of the row, which `timed` says there is. -/
def Tame : Bool → List Cell → Prop
  | _, [] => True
  | _, .delRow :: raw => Tame false raw
  | _, .value .modifyTime (.modifyTime _) :: raw => Tame true raw
  | true, .value .createTime (.createTime _) :: raw => Tame true raw
  | true, .value (.data _) obj :: raw => obj.isTime = false ∧ Tame true raw
  | _, _ => False

/-- What a reader has collected where `merge_` has collected `r`, but for its column filter. -/
def withKeys (p : ReadParam) (r : CompactRow) : CompactRow :=
  match r.list with
  | m :: c :: data =>
    { r with
        nop := p.columnFilter.isSome
        list := m :: c :: (p.keys ++ data) }
  | _ => r

/-- What a reader has collected where `merge_` has collected `r`. -/
def view (p : ReadParam) (r : CompactRow) : CompactRow :=
  match p.columnFilter with
  | none => withKeys p r
  | some exist => (withKeys p r).restrict exist

theorem withKeys_cons (delRow nop rne : Bool) (m c : Column × Obj) (data : List (Column × Obj)) :
    withKeys p ⟨delRow, nop, rne, m :: c :: data⟩ =
      ⟨delRow, p.columnFilter.isSome, rne, m :: c :: (p.keys ++ data)⟩ := rfl

theorem addCells_nop (r : CompactRow) (b : Bool) :
    r.addCells arith (if b then [Cell.nop] else []) = .ok { r with nop := r.nop || b } := by
  rcases b with _ | _
  · simp
  · simp [addCells_cons, CompactRow.addCell, Except.bind]

theorem fst_keys {c : Column} (h : c ∈ p.keys.map fst) : ∃ j, c = .key j := by
  obtain ⟨v, hv, rfl⟩ := mem_map.1 h
  obtain ⟨-, j, -, hj⟩ := mem_keysFrom hv
  exact ⟨j, hj⟩

variable {data : List (Column × Obj)}

theorem nodup_keys_append {m c : Int}
    (hdata : ∀ v ∈ data, IsData v) (hnodup : (data.map fst).Nodup) :
    (((.modifyTime, .modifyTime m) :: (.createTime, .createTime c) ::
      (p.keys ++ data)).map fst).Nodup := by
  have hids : ∀ c ∈ data.map fst, ∃ id, c = .data id :=
    forall_mem_map.2 fun v hv => (hdata v hv).column
  have hrest : ((p.keys ++ data).map fst).Nodup := by
    rw [map_append, nodup_append]
    refine ⟨nodup_keysFrom 0 p.rowKey, hnodup, fun a ha b hb hab => ?_⟩
    obtain ⟨j, hj⟩ := fst_keys ha
    obtain ⟨id, hid⟩ := hids b hb
    rw [hj, hid] at hab
    cases hab
  have hnot : ∀ c ∈ (p.keys ++ data).map fst, c ≠ .modifyTime ∧ c ≠ .createTime := by
    intro c hc
    rw [map_append, mem_append] at hc
    rcases hc with hc | hc
    · obtain ⟨j, rfl⟩ := fst_keys hc
      simp
    · obtain ⟨id, rfl⟩ := hids c hc
      simp
  rw [map_cons, map_cons, nodup_cons, nodup_cons]
  refine ⟨fun hmem => ?_, fun hmem => (hnot _ hmem).2 rfl, hrest⟩
  rcases mem_cons.1 hmem with heq | hmem
  · cases heq
  · exact (hnot _ hmem).1 rfl

/-- A modify time, with the cells that follow it in every reader's view. -/
theorem addCells_expand_mtime (arith : Arith) (p : ReadParam) (hr : Timed r) (t : Int) :
    ∃ r', r.addCells arith (ReadParam.all.expand (ReadParam.mtime t)) = .ok r' ∧ Timed r' ∧
      r'.list ≠ [] ∧
      (withKeys p r).addCells arith (p.expand (ReadParam.mtime t)) = .ok (withKeys p r') := by
  have hexpand : p.expand (ReadParam.mtime t) =
      [ReadParam.mtime t, .value .createTime (.createTime t)] ++
        (p.rowKeyCells ++ if p.columnFilter.isSome then [.nop] else []) := rfl
  cases hr with
  | none delRow =>
    refine ⟨_, rfl, .some delRow t t (by simp) (by simp), by simp, ?_⟩
    have htimes : CompactRow.addCells arith (withKeys p ⟨delRow, false, false, []⟩)
        [ReadParam.mtime t, .value .createTime (.createTime t)] = .ok ⟨delRow, false, false,
          [(.modifyTime, .modifyTime t), (.createTime, .createTime t)]⟩ := rfl
    rw [hexpand, addCells_append, htimes, Except.bind, addCells_append, rowKeyCells, addCells_fresh,
      Except.bind, addCells_nop, withKeys_cons]
    · simp [ReadParam.keys]
    · intro v hv
      obtain ⟨-, j, -, hj⟩ := mem_keysFrom hv
      rw [hj]
      rfl
    · have hnodup : (((.modifyTime, .modifyTime t) :: (.createTime, .createTime t) ::
          (p.keys ++ [])).map fst).Nodup := nodup_keys_append (by simp) (by simp)
      rwa [append_nil] at hnodup
  | @some delRow m c data hdata hnodup =>
    refine ⟨_, rfl, .some delRow (max m t) (min c t) hdata hnodup, by simp, ?_⟩
    rw [withKeys_cons, withKeys_cons]
    have htimes : CompactRow.addCells arith ⟨delRow, p.columnFilter.isSome, false,
        (.modifyTime, .modifyTime m) :: (.createTime, .createTime c) :: (p.keys ++ data)⟩
        [ReadParam.mtime t, .value .createTime (.createTime t)] =
          .ok ⟨delRow, p.columnFilter.isSome, false, (.modifyTime, .modifyTime (max m t)) ::
            (.createTime, .createTime (min c t)) :: (p.keys ++ data)⟩ := rfl
    rw [hexpand, addCells_append, htimes, Except.bind, addCells_append, rowKeyCells,
      addCells_of_mem, Except.bind, addCells_nop, Bool.or_self]
    · intro v hv
      exact mem_cons_of_mem _ (mem_cons_of_mem _ (mem_append_left _ hv))
    · intro v hv
      obtain ⟨hmem, j, -, hj⟩ := mem_keysFrom hv
      exact ⟨p.isKey _ hmem, by rw [hj]; rfl⟩
    · exact nodup_keys_append hdata hnodup

variable {r r' : CompactRow} {obj : Obj} {t : Int} {column : Column}

/-- A create time, which only a compacted node holds as a cell. -/
theorem addCells_createTime (hr : Timed r) (hne : r.list ≠ [])
    (h : r.addCells arith [.value .createTime (.createTime t)] = .ok r') :
    Timed r' ∧ r'.list ≠ [] ∧
      (withKeys p r).addCells arith [.value .createTime (.createTime t)] = .ok (withKeys p r') := by
  cases hr with
  | none => exact absurd rfl hne
  | some delRow m c hdata hnodup =>
    cases h
    exact ⟨.some delRow m (min c t) hdata hnodup, by simp, rfl⟩

theorem addValue_data {data data' : List (Column × Obj)}
    (hdata : ∀ v ∈ data, IsData v) (hnodup : (data.map fst).Nodup)
    (hobj : IsData (column, obj)) (h : CompactRow.addValue arith column obj data = .ok data') :
    (∀ v ∈ data', IsData v) ∧ (data'.map fst).Nodup := by
  constructor
  · exact forall_addValue hdata hobj
      (fun o o' _ ho => ⟨hobj.column, hobj.hasNode, Obj.isTime_apply hobj.notTime ho⟩) h
  rw [map_fst_addValue h]
  split
  · exact hnodup
  · next hnew =>
    rw [nodup_append]
    refine ⟨hnodup, nodup_singleton _, fun a ha b hb hab => hnew ?_⟩
    rwa [← mem_singleton.1 hb, ← hab]

theorem addCells_data (hr : Timed r) (hne : r.list ≠ []) {id : Nat}
    (hobj : obj.isTime = false) (h : r.addCells arith [.value (.data id) obj] = .ok r') :
    Timed r' ∧ r'.list ≠ [] ∧ (∀ t, TimesAt t r → TimesAt t r') ∧
      (withKeys p r).addCells arith [.value (.data id) obj] = .ok (withKeys p r') := by
  cases hr with
  | none => exact absurd rfl hne
  | @some delRow m c data hdata hnodup =>
    rw [addCells_cons, CompactRow.addCell] at h
    split at h
    · next hnode =>
      obtain ⟨r₁, hr₁, h⟩ := except_bind_eq_ok.1 h
      obtain ⟨list, hlist, rfl⟩ := except_map_eq_ok.1 hr₁
      cases h
      -- the value passes over the times, and in the reader's list over the key columns too
      have hpass : ∀ front, (∀ c ∈ front.map fst, ∃ j, c = .key j) → ∀ data,
          CompactRow.addValue arith (.data id) obj ((.modifyTime, .modifyTime m) ::
            (.createTime, .createTime c) :: (front ++ data)) =
          (CompactRow.addValue arith (.data id) obj data).map fun data =>
            (.modifyTime, .modifyTime m) :: (.createTime, .createTime c) :: (front ++ data) := by
        intro front hfront data
        refine addValue_append ((.modifyTime, .modifyTime m) ::
          (.createTime, .createTime c) :: front) fun hmem => ?_
        simp only [map_cons, mem_cons, reduceCtorEq, false_or] at hmem
        obtain ⟨j, hj⟩ := hfront _ hmem
        cases hj
      have hall := hpass [] (by simp) data
      rw [nil_append] at hall
      rw [hall] at hlist
      obtain ⟨data', hdata', rfl⟩ := except_map_eq_ok.1 hlist
      obtain ⟨hids, hnodup'⟩ := addValue_data hdata hnodup ⟨⟨id, rfl⟩, hnode, hobj⟩ hdata'
      refine ⟨.some delRow m c hids hnodup', by simp, fun _ h => h, ?_⟩
      rw [withKeys_cons, addCells_cons, addCell_value_eq_ok _ hnode
        ((hpass p.keys (fun c hc => fst_keys hc) data).trans (congrArg _ hdata'))]
      rfl
    · cases h

theorem expand_of_modifyTime?_eq_none {c : Cell} (h : c.modifyTime? = none) : p.expand c = [c] := by
  rw [ReadParam.expand, h]

theorem modifyTime?_eq_none (h : obj.isTime = false) :
    (Cell.value column obj).modifyTime? = none := by
  cases obj with
  | modifyTime t => cases h
  | _ => rfl

variable {raw : List Cell} {timed : Bool}

/-- A reader that asks for all columns collects what `merge_` collects, and its key columns. -/
theorem addCells_withKeys (ht : Tame timed raw) (hr : Timed r) (htimed : timed = true → r.list ≠ [])
    (h : r.addCells arith (raw.flatMap ReadParam.all.expand) = .ok r') :
    Timed r' ∧ (withKeys p r).addCells arith (raw.flatMap p.expand) = .ok (withKeys p r') := by
  induction raw generalizing timed r with
  | nil =>
    cases h
    exact ⟨hr, rfl⟩
  | cons c raw ih =>
    rw [flatMap_cons, addCells_append] at h ⊢
    obtain ⟨r₁, hr₁, hrest⟩ := except_bind_eq_ok.1 h
    match timed, c, ht with
    | _, .delRow, ht =>
      cases hr₁
      exact ih ht (.none true) (fun h => nomatch h) hrest
    | _, .value .modifyTime (.modifyTime t), ht =>
      obtain ⟨r₂, hr₂, htimed₂, hne₂, hview⟩ := addCells_expand_mtime arith p hr t
      obtain rfl := Except.ok.inj (hr₁.symm.trans hr₂)
      rw [show p.expand (.value .modifyTime (.modifyTime t)) =
        p.expand (ReadParam.mtime t) from rfl, hview]
      exact ih ht htimed₂ (fun _ => hne₂) hrest
    | true, .value .createTime (.createTime t), ht =>
      rw [expand_of_modifyTime?_eq_none rfl] at hr₁ ⊢
      obtain ⟨htimed₂, hne₂, hview⟩ := addCells_createTime (p := p) hr (htimed rfl) hr₁
      rw [hview]
      exact ih ht htimed₂ (fun _ => hne₂) hrest
    | true, .value (.data id) obj, ht =>
      rw [expand_of_modifyTime?_eq_none (modifyTime?_eq_none ht.1)] at hr₁ ⊢
      obtain ⟨htimed₂, hne₂, -, hview⟩ := addCells_data (p := p) hr (htimed rfl) ht.1 hr₁
      rw [hview]
      exact ih ht.2 htimed₂ (fun _ => hne₂) hrest

theorem view_of_list_eq_nil (h : r.list = []) : view p r = r := by
  have hkeys : withKeys p r = r := by
    rw [withKeys, h]
  rw [view, hkeys]
  rcases p.columnFilter with _ | exist
  · rfl
  have hlist : r.list.filter (fun v => exist v.1) = r.list := by
    rw [h, filter_nil]
  simp [CompactRow.restrict, hlist]

/-- **What any reader collects** is determined by what `merge_` collects. -/
theorem addRaw_view (ht : Tame timed raw) (hr : Timed r)
    (htimed : timed = true → r.list ≠ []) (h : ReadParam.all.addRaw arith r raw = .ok r') :
    Timed r' ∧ p.addRaw arith (view p r) raw = .ok (view p r') := by
  rw [addRaw_all] at h
  obtain ⟨htimed, hkeys⟩ := addCells_withKeys (p := p) ht hr htimed h
  refine ⟨htimed, ?_⟩
  rw [ReadParam.addRaw, view, view]
  rcases hfilter : p.columnFilter with _ | exist
  · have hall : ∀ c ∈ raw.flatMap p.expand, p.columnExist c = true := by
      intro c _
      cases c <;> simp [columnExist, hfilter]
    rwa [filter_eq_self.2 hall]
  refine addCells_restrict exist p.columnExist ?_ ?_ hkeys
  · intro c o
    rw [columnExist, hfilter]
  intro c hc
  cases c with
  | value d o => exact absurd rfl (hc d o)
  | _ => rfl

theorem addRaw_eq_view (ht : Tame false raw) {r' : CompactRow}
    (h : ReadParam.all.addRaw arith .empty raw = .ok r') :
    Timed r' ∧ p.addRaw arith .empty raw = .ok (view p r') := by
  have hview := addRaw_view (p := p) ht (.none false) (fun h => nomatch h) h
  rwa [view_of_list_eq_nil rfl] at hview

/-! ### Compacted nodes -/

theorem tame_data (hdata : ∀ v ∈ data, IsData v) :
    Tame true (data.map fun v => Cell.value v.1 v.2) := by
  induction data with
  | nil => trivial
  | cons v data ih =>
    obtain ⟨⟨id, hid⟩, -, htime⟩ := hdata v mem_cons_self
    rw [map_cons, hid]
    exact ⟨htime, ih (forall_mem_cons.1 hdata).2⟩

theorem flatMap_expand_data (hdata : ∀ v ∈ data, IsData v) :
    (data.map fun v => Cell.value v.1 v.2).flatMap p.expand =
      data.map fun v => Cell.value v.1 v.2 := by
  induction data with
  | nil => rfl
  | cons v data ih =>
    rw [map_cons, flatMap_cons, expand_of_modifyTime?_eq_none
      (modifyTime?_eq_none (hdata v mem_cons_self).notTime),
      ih fun w hw => hdata w (mem_cons_of_mem _ hw)]
    rfl

/-- `merge_` reads a node with the cells it has collected like the nodes it collected them from. -/
theorem addRaw_all_output (arith : Arith) (hr : Timed r) (ht : TimesAt t r) :
    ReadParam.all.addRaw arith .empty (ReadParam.mtime t :: r.output) = .ok r ∧
      Tame false (ReadParam.mtime t :: r.output) := by
  cases hr with
  | none delRow =>
    have hdel : delRow = true := ht
    subst hdel
    exact ⟨rfl, trivial⟩
  | @some delRow m c data hdata hnodup =>
    obtain ⟨rfl, hc⟩ : m = t ∧ c ≤ t := ht
    have hnodup' := nodup_keys_append (p := ReadParam.all) (m := m) (c := c) hdata hnodup
    -- the times in front of the data: the node's own, and those that were collected
    have htimes : ∃ front, CompactRow.output ⟨delRow, false, false,
          (.modifyTime, .modifyTime m) :: (.createTime, .createTime c) :: data⟩ =
        front ++ (data.map fun v => Cell.value v.1 v.2) ∧
        ReadParam.all.addRaw arith .empty (ReadParam.mtime m :: front) =
          .ok ⟨delRow, false, false, [(.modifyTime, .modifyTime m), (.createTime, .createTime c)]⟩ ∧
        (Tame true (data.map fun v => Cell.value v.1 v.2) →
          Tame false (ReadParam.mtime m :: (front ++ data.map fun v => Cell.value v.1 v.2))) := by
      have hmin : min m c = c := Int.min_eq_right hc
      rcases delRow with _ | _
      · have hcells : ReadParam.all.addRaw arith .empty [ReadParam.mtime m,
            .value .modifyTime (.modifyTime m), .value .createTime (.createTime c)] =
          .ok ⟨false, false, false, [(.modifyTime, .modifyTime (max m m)),
            (.createTime, .createTime (min (min m m) c))]⟩ := rfl
        rw [Int.max_eq_left (Int.le_refl m), Int.min_eq_left (Int.le_refl m), hmin] at hcells
        exact ⟨[.value .modifyTime (.modifyTime m), .value .createTime (.createTime c)],
          rfl, hcells, id⟩
      have hcells : ReadParam.all.addRaw arith .empty [ReadParam.mtime m, .delRow,
          .value .modifyTime (.modifyTime m), .value .createTime (.createTime c)] =
        .ok ⟨true, false, false, [(.modifyTime, .modifyTime m),
          (.createTime, .createTime (min m c))]⟩ := rfl
      rw [hmin] at hcells
      exact ⟨[.delRow, .value .modifyTime (.modifyTime m), .value .createTime (.createTime c)],
        rfl, hcells, id⟩
    obtain ⟨front, hfront, hcells, htame⟩ := htimes
    rw [hfront]
    refine ⟨?_, htame (tame_data hdata)⟩
    rw [← cons_append, addRaw_append, hcells, Except.bind, addRaw_all, flatMap_expand_data hdata]
    exact addCells_fresh (fun v hv => (hdata v hv).hasNode) hnodup'

/-- A node with the cells that `merge_` has collected is **read like the nodes it stands for**, by
every reader. -/
theorem addRaw_compacted (hraw : Tame false raw)
    (h : ReadParam.all.addRaw arith .empty raw = .ok r) (ht : TimesAt t r) :
    p.addRaw arith .empty (ReadParam.mtime t :: r.output) = p.addRaw arith .empty raw := by
  obtain ⟨hr, hview⟩ := addRaw_eq_view (p := p) hraw h
  obtain ⟨hall, htame⟩ := addRaw_all_output arith hr ht
  rw [hview, (addRaw_eq_view (p := p) htame hall).2]

end OceanBase.UpdateServer
