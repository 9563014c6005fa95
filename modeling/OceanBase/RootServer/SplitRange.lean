import OceanBase.RootServer.FindRange

/-!
# Splitting a tablet of a complete root table (`ob_root_table2.cpp`)

`split_range` puts two or three entries in the place of one. If `find_range` has found this entry
only, they are its tablet, cut at the ends of the reported one: the table stays complete and has the
same keys. The parts beside the reported tablet keep the servers of the entry and their versions,
but not its checksums, which are those of the whole tablet.
-/

namespace OceanBase.RootServer

open List Option Range

variable {α : Type}

/-! ### Cutting a tablet -/

section Cut

open RootTable

variable [LinearOrder α] {l₁ l₂ : List (Range α)} {r : Range α} {k : Key α}

/-- The part of a range up to a key. -/
def Range.upTo (r : Range α) (k : Key α) : Range α := { r with endKey := k, inclusiveEnd := true }

/-- The part of a range behind a key. -/
def Range.behind (r : Range α) (k : Key α) : Range α :=
  { r with startKey := k, inclusiveEnd := true }

/-- The ranges tile the key spaces of the tables that others tile. -/
def Retiles (rs rs' : List (Range α)) : Prop :=
  Complete rs' ∧ ∀ n, (∃ r ∈ rs', r.tableId = n) ↔ ∃ r ∈ rs, r.tableId = n

/-- What the split leaves of the tablet before the range. -/
def RootTable.SplitType.before (range tablet : Range α) : SplitType → List (Range α)
  | .topHalf => []
  | _ => [tablet.upTo range.startKey]

/-- What the split leaves of the tablet behind the range. -/
def RootTable.SplitType.after (range tablet : Range α) : SplitType → List (Range α)
  | .bottomHalf => []
  | _ => [tablet.behind range.endKey]

/-- The part that is the range. -/
def RootTable.SplitType.part (range tablet : Range α) : SplitType → Range α
  | .topHalf => tablet.upTo range.endKey
  | .bottomHalf => tablet.behind range.startKey
  | .middleHalf => { range with inclusiveEnd := true }

theorem Complete.cut (h : Complete (l₁ ++ r :: l₂)) (hstart : r.startKey < k)
    (hend : k < r.endKey) : Retiles (l₁ ++ r :: l₂) (l₁ ++ r.upTo k :: r.behind k :: l₂) := by
  have hr := h.isTablet r (by simp)
  obtain ⟨hfront, hrest, hfollows⟩ := isChain_append.1 h.follows
  refine ⟨⟨?_, ?_, ?_, ?_⟩, ?_⟩
  · intro r' hr'
    simp only [mem_append, mem_cons] at hr'
    rcases hr' with hr' | rfl | rfl | hr'
    · exact h.isTablet r' (by simp [hr'])
    · exact ⟨hr.1, rfl, hstart⟩
    · exact ⟨hr.1, rfl, hend⟩
    · exact h.isTablet r' (by simp [hr'])
  · refine isChain_append.2 ⟨hfront, isChain_cons_cons.2 ⟨Or.inl ⟨rfl, rfl⟩, ?_⟩, ?_⟩
    · rcases l₂ with _ | ⟨b, l₂⟩
      · exact .singleton _
      · obtain ⟨hfollows, hrest⟩ := isChain_cons_cons.1 hrest
        exact isChain_cons_cons.2 ⟨hfollows, hrest⟩
    · intro a ha b hb
      cases hb
      exact hfollows a ha r rfl
  · rcases l₁ with _ | ⟨a, l₁⟩
    · intro r' hr'
      cases hr'
      exact h.head r rfl
    · exact h.head
  · have hlast := h.last
    rw [getLast?_append, getLast?_cons] at hlast
    rw [getLast?_append, getLast?_cons, getLast?_cons]
    rcases hl : l₂.getLast? with _ | b
    · intro r' hr'
      cases hr'
      exact hlast r (by simp [hl])
    · rwa [hl] at hlast
  · intro n
    simp only [mem_append, mem_cons, or_and_right, exists_or, exists_eq_left]
    rw [← or_assoc (a := (r.upTo k).tableId = n)]
    exact or_congr_right (or_congr_left or_self_iff)

/-- A tablet inside another and the parts beside it take the place of the other. -/
theorem Complete.split {range : Range α} {type : SplitType} (h : Complete (l₁ ++ r :: l₂))
    (hrange : range.IsTablet) (hstart : r.startPos ≤ range.startPos)
    (hend : range.endPos ≤ r.endPos)
    (hne : ¬(range.startPos = r.startPos ∧ range.endPos = r.endPos))
    (htype : splitType range r = some type) :
    type.part range r = range ∧
      Retiles (l₁ ++ r :: l₂)
        (l₁ ++ (type.before range r ++ range :: type.after range r) ++ l₂) := by
  have hr := h.isTablet r (by simp)
  obtain ⟨n, s, e, i, j⟩ := range
  obtain ⟨n', s', e', i', j'⟩ := r
  obtain ⟨rfl, rfl, hlt⟩ : i = false ∧ j = true ∧ s < e := hrange
  obtain ⟨rfl, rfl, -⟩ : i' = false ∧ j' = true ∧ s' < e' := hr
  obtain rfl : n = n' := by
    simp only [startPos, endPos, Prod.Lex.toLex_le_toLex] at hstart hend
    omega
  simp only [startPos, endPos, pos_le_iff, pos_lt_iff, EmbeddingLike.apply_eq_iff_eq,
    Prod.mk.injEq, true_and, splitType] at hstart hend hne htype
  split_ifs at htype with htop hs hbottom he <;> cases htype
  · subst htop
    have hcut := h.cut hlt (lt_of_le_of_ne hend fun heq => hne ⟨rfl, heq⟩)
    exact ⟨rfl, by simpa [SplitType.before, SplitType.after, upTo] using hcut⟩
  · subst hbottom
    exact ⟨rfl, by simpa [SplitType.before, SplitType.after, behind] using h.cut hs hlt⟩
  -- one cut at the start of the range, another one behind it
  have hfirst := h.cut hs (hlt.trans he)
  have hcomplete := hfirst.1
  rw [append_cons] at hcomplete
  have hsecond := hcomplete.cut hlt he
  refine ⟨rfl, ?_, fun n => Iff.trans ?_ (hfirst.2 n)⟩
  · simpa [SplitType.before, SplitType.after, upTo, behind] using hsecond.1
  · simpa [SplitType.before, SplitType.after, upTo, behind] using hsecond.2 n

end Cut

/-! ### The entries -/

/-- The servers of a tablet with their versions, its info and its checksums. -/
structure Entry (α : Type) where
  slots : Fin safeCopyCount → Slot
  info : TabletInfo α
  crc : CrcHistory

namespace RootTable

variable {t t' : RootTable α} {es : List (Entry α)} {pos : Nat}

/-- The replicas, tablet info and checksums of a meta. -/
def entryOf (t : RootTable α) (m : RootMeta) : Option (Entry α) :=
  m.tabletInfoIndex.bind fun i => (t.infos[i]?).map fun p => ⟨m.slots, p.1, p.2⟩

/-- The entries of the table, each of which has a tablet info. -/
def Shows (t : RootTable α) (es : List (Entry α)) : Prop := t.metas.map t.entryOf = es.map some

theorem infoOf_eq_entryOf (m : RootMeta) : t.infoOf m = (t.entryOf m).map (·.info) := by
  rw [infoOf, entryOf]
  rcases m.tabletInfoIndex with _ | i
  · rfl
  · simp only [bind_some, Option.map_map]
    rfl

variable {added : List (TabletInfo α × CrcHistory)}

/-- Entries keep what they have when tablet infos are added. -/
theorem Shows.map_entryOf (h : t.Shows es)
    (hinfos : t'.infos = t.infos ++ added) : t.metas.map t'.entryOf = es.map some := by
  rw [← h]
  refine map_congr_left fun m hm => ?_
  have hmem : t.entryOf m ∈ es.map some := h ▸ mem_map_of_mem hm
  obtain ⟨e, -, he⟩ := mem_map.1 hmem
  rw [← he]
  obtain ⟨i, hi, he⟩ := bind_eq_some_iff.1 he.symm
  obtain ⟨p, hp, rfl⟩ := map_eq_some_iff.1 he
  rw [entryOf, hi, hinfos, bind_some, getElem?_append_left (List.getElem?_eq_some_iff.1 hp).1, hp,
    map_some]

theorem entryOf_added
    (hinfos : t'.infos = t.infos ++ added) (m : RootMeta) {i : Nat} {p : TabletInfo α × CrcHistory}
    (hm : m.tabletInfoIndex = some (t.infos.length + i)) (hp : added[i]? = some p) :
    ∃ e, t'.entryOf m = some e ∧ e.slots = m.slots ∧ e.info = p.1 ∧ e.crc = p.2 := by
  refine ⟨⟨m.slots, p.1, p.2⟩, ?_, rfl, rfl, rfl⟩
  rw [entryOf, hm, hinfos, bind_some, getElem?_append_right (Nat.le_add_right _ _),
    Nat.add_sub_cancel_left, hp, map_some]

theorem Shows.splice (h : t.Shows es) (hinfos : t'.infos = t.infos ++ added) {ms : List RootMeta}
    {parts : List (Entry α)} (hmetas : t'.metas = t.metas.take pos ++ ms ++ t.metas.drop (pos + 1))
    (hparts : ms.map t'.entryOf = parts.map some) :
    t'.Shows (es.take pos ++ parts ++ es.drop (pos + 1)) := by
  rw [Shows, hmetas]
  simp [hparts, h.map_entryOf hinfos]

variable [LinearOrder α] {room : Room} {reported : TabletInfo α} {server : Nat} {version : Int}

theorem tabletInfoIndex_place (m : RootMeta) :
    (place m server version).tabletInfoIndex = m.tabletInfoIndex := by
  rw [place]
  split <;> rfl

theorem splitRange_success (h : t.splitRange room reported pos version server = (.success, t')) :
    ∃ m tablet type, t.metas[pos]? = some m ∧ t.infoOf m = some tablet ∧
      splitType reported.range tablet.range = some type ∧
      t'.metas = t.metas.take pos ++ splitMetas m t.infos.length server version type ++
        t.metas.drop (pos + 1) ∧
      t'.infos = t.infos ++ splitInfos reported tablet.range version type := by
  by_cases hmove : ∃ type, t.splitTypeAt reported.range pos = some type ∧ t.CanMove pos type.step
  · obtain ⟨type, htype, hmove⟩ := hmove
    obtain ⟨m, tablet, hm, hinfo, htype, hsplit⟩ :=
      splitRange_of_canMove room htype hmove version server
    rw [hsplit] at h
    split_ifs at h with hok
    · cases h
      exact ⟨m, tablet, type, hm, hinfo, htype, rfl, (addInfos_spec ..).2.2.2 hok⟩
    · simp at h
  · rw [splitRange_of_not_canMove fun type htype hc => hmove ⟨type, htype, hc⟩] at h
    simp at h

/-- The one entry that is found for a range, and is to be split, has the range inside. -/
theorem inside_of_splitRange {tablet : TabletInfo α} (hinfo : t.tabletInfo pos = some tablet)
    (hfind : t.findRange reported.range = (.success, pos, pos))
    (hpos : t.getRangePosType reported.range pos pos = .splitRange) :
    tablet.range.startPos ≤ reported.range.startPos ∧
      reported.range.endPos ≤ tablet.range.endPos ∧
      ¬(reported.range.startPos = tablet.range.startPos ∧
        reported.range.endPos = tablet.range.endPos) := by
  have hsuccess : (t.findRange reported.range).1 = .success := by rw [hfind]
  obtain ⟨-, hlt, hlast⟩ := findRange_success hsuccess
  rw [hfind] at hlt hlast
  rw [getRangePosType, hinfo] at hpos
  dsimp only at hlt hlast hpos
  rw [if_neg hlt.ne, if_pos rfl] at hpos
  split_ifs at hpos with hbefore hsame
  · rw [posTypeBefore] at hpos
    split_ifs at hpos
    split at hpos
    · cases hpos
    · split_ifs at hpos
  refine ⟨not_lt.1 hbefore, ?_, hsame⟩
  obtain ⟨m, hm, hinfo⟩ := bind_eq_some_iff.1 hinfo
  rw [hlast, lowerBound] at hm
  have hnot := findIdx_of_getElem?_eq_some hm
  rw [hinfo] at hnot
  simpa using hnot

/-- **`split_range` keeps a complete table complete**, over the same keys. -/
theorem splitRange_keeps (hshows : t.Shows es) (h : Complete (es.map (·.info.range)))
    (htablet : reported.range.IsTablet) (hfind : t.findRange reported.range = (.success, pos, pos))
    (hpos : t.getRangePosType reported.range pos pos = .splitRange)
    (hsplit : t.splitRange room reported pos version server = (.success, t')) :
    ∃ old before new after es', es[pos]? = some old ∧
      es' = es.take pos ++ (before ++ new :: after) ++ es.drop (pos + 1) ∧ t'.Shows es' ∧
      Retiles (es.map (·.info.range)) (es'.map (·.info.range)) ∧
      new.info.range = reported.range ∧
      ∀ e ∈ before ++ after, e.slots = old.slots ∧ e.crc = .reset := by
  obtain ⟨m, tablet, type, hm, hinfo, htype, hmetas, hinfos⟩ := splitRange_success hsplit
  obtain ⟨hstart, hend, hne⟩ :=
    inside_of_splitRange (by rw [tabletInfo, hm]; exact hinfo) hfind hpos
  obtain ⟨old, hold, hentry⟩ : ∃ old, es[pos]? = some old ∧ some old = t.entryOf m := by
    have hi := congrArg (·[pos]?) hshows
    simp only [getElem?_map, hm, map_some] at hi
    exact map_eq_some_iff.1 hi.symm
  obtain ⟨slots, info, crc⟩ := old
  obtain rfl : info = tablet := by
    rw [infoOf_eq_entryOf, ← hentry] at hinfo
    exact some.inj hinfo
  obtain rfl : slots = m.slots := by
    obtain ⟨i, -, he⟩ := bind_eq_some_iff.1 hentry.symm
    obtain ⟨p, -, he⟩ := map_eq_some_iff.1 he
    exact (congrArg Entry.slots he).symm
  have hes : es.map (·.info.range) = (es.take pos).map (·.info.range) ++
      info.range :: (es.drop (pos + 1)).map (·.info.range) := by
    obtain ⟨hlt, hget⟩ := List.getElem?_eq_some_iff.1 hold
    conv_lhs =>
      rw [← take_append_drop pos es, drop_eq_getElem_cons hlt, hget, map_append]
    rfl
  obtain ⟨hpart, hretiles⟩ := Complete.split (hes ▸ h) htablet hstart hend hne htype
  have hreported (i : Nat) (p : TabletInfo α × CrcHistory) := entryOf_added (i := i) (p := p) hinfos
    (place { m with tabletInfoIndex := some (t.infos.length + i) } server version)
    (tabletInfoIndex_place _)
  have hbeside (i : Nat) (p : TabletInfo α × CrcHistory) := entryOf_added (i := i) (p := p) hinfos
    { m with tabletInfoIndex := some (t.infos.length + i) } rfl
  rw [hes]
  cases type with
  | topHalf =>
    obtain ⟨new, hnew, -, hrange, -⟩ := hreported 0 _ rfl
    obtain ⟨after, hafter, hkept, hrange', hcrc⟩ := hbeside 1 _ rfl
    have hrange : new.info.range = reported.range := by rw [hrange]; exact hpart
    refine ⟨_, [], new, [after], _, hold, rfl, hshows.splice hinfos hmetas ?_, ?_, hrange, ?_⟩
    · simp [splitMetas, ← hnew, ← hafter]
    · simpa [hrange, hrange', SplitType.before, SplitType.after, behind] using hretiles
    · simpa using ⟨hkept, hcrc⟩
  | bottomHalf =>
    obtain ⟨before, hbefore, hkept, hrange', hcrc⟩ := hbeside 0 _ rfl
    obtain ⟨new, hnew, -, hrange, -⟩ := hreported 1 _ rfl
    have hrange : new.info.range = reported.range := by rw [hrange]; exact hpart
    refine ⟨_, [before], new, [], _, hold, rfl, hshows.splice hinfos hmetas ?_, ?_, hrange, ?_⟩
    · simp [splitMetas, ← hnew, ← hbefore]
    · simpa [hrange, hrange', SplitType.before, SplitType.after, upTo] using hretiles
    · simpa using ⟨hkept, hcrc⟩
  | middleHalf =>
    obtain ⟨new, hnew, -, hrange, -⟩ := hreported 0 _ rfl
    obtain ⟨before, hbefore, hkept₁, hrange₁, hcrc₁⟩ := hbeside 1 _ rfl
    obtain ⟨after, hafter, hkept₂, hrange₂, hcrc₂⟩ := hbeside 2 _ rfl
    have hrange : new.info.range = reported.range := by rw [hrange]; exact hpart
    refine ⟨_, [before], new, [after], _, hold, rfl, hshows.splice hinfos hmetas ?_, ?_, hrange, ?_⟩
    · simp [splitMetas, ← hnew, ← hbefore, ← hafter]
    · simpa [hrange, hrange₁, hrange₂, SplitType.before, SplitType.after, upTo,
        behind] using hretiles
    · simpa using ⟨⟨hkept₁, hcrc₁⟩, hkept₂, hcrc₂⟩

/-- The tablet `(MIN, MAX]` with the checksum 5. -/
def wholeEntry : Entry Nat :=
  ⟨(newMeta 0 [7] 1).slots, ⟨⟨1, ⊥, ⊤, false, true⟩, 5, 0⟩, fun _ => ⟨1, 5, 0⟩⟩

def wholeTable : RootTable Nat := ⟨[newMeta 0 [7] 1], 1, [(wholeEntry.info, wholeEntry.crc)]⟩

/-- The report of `(4, MAX]`. -/
def upperHalf : TabletInfo Nat := ⟨⟨1, key 4, ⊤, false, true⟩, 6, 0⟩

def freeRoom : Room := ⟨fun _ => true, newMeta 0 [] 0, newMeta 0 [] 0⟩

theorem wholeTable_complete : Complete ([wholeEntry].map (·.info.range)) where
  isTablet r hr := by
    obtain rfl := mem_singleton.1 hr
    exact ⟨rfl, rfl, WithBot.bot_lt_coe _⟩
  follows := .singleton _
  head r hr := by cases hr; rfl
  last r hr := by cases hr; rfl

theorem upperHalf_isTablet : upperHalf.range.IsTablet :=
  ⟨rfl, rfl, WithBot.coe_lt_coe.2 (WithTop.coe_lt_top 4)⟩

theorem splitRange_keeps_upperHalf : ∃ t' es',
    wholeTable.splitRange freeRoom upperHalf 0 2 7 = (.success, t') ∧ t'.Shows es' ∧
      Complete (es'.map (·.info.range)) := by
  obtain ⟨t', ht'⟩ : ∃ t', wholeTable.splitRange freeRoom upperHalf 0 2 7 = (.success, t') :=
    ⟨_, rfl⟩
  have hshows : wholeTable.Shows [wholeEntry] := rfl
  obtain ⟨_, _, _, _, es', -, -, hshows', hretiles, -⟩ :=
    splitRange_keeps hshows wholeTable_complete upperHalf_isTablet (by decide) (by decide) ht'
  exact ⟨t', es', ht', hshows', hretiles.1⟩

/-- The part `(MIN, 4]`, which is not reported, has lost the checksum. -/
theorem splitRange_loses_checksum :
    (wholeTable.Shows [wholeEntry] ∧ Complete ([wholeEntry].map (·.info.range)) ∧
      upperHalf.range.IsTablet ∧ wholeTable.findRange upperHalf.range = (.success, 0, 0) ∧
      wholeTable.getRangePosType upperHalf.range 0 0 = .splitRange) ∧
    ∃ t' e, wholeTable.splitRange freeRoom upperHalf 0 2 7 = (.success, t') ∧
      (t'.metas[0]?).bind t'.entryOf = some e ∧ e.info.range = ⟨1, ⊥, key 4, false, true⟩ ∧
      e.crc ≠ wholeEntry.crc :=
  ⟨⟨rfl, wholeTable_complete, upperHalf_isTablet, by decide, by decide⟩, _, _, rfl, rfl, rfl,
    fun hcrc => absurd (congrFun hcrc 0) (by decide)⟩

end RootTable

end OceanBase.RootServer
