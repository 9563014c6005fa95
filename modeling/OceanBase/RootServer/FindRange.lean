import OceanBase.RootServer.RootTable

/-!
# Searching a complete root table (`ob_root_table2.cpp`, `ob_root_meta2.cpp`)

In a complete root table the tablets of a table follow one another without gaps, as ranges `(s, e]`
from the least to the greatest key, so both searches of `find_range` are searches in a sorted list.
The first one gives the first tablet that has a key in common with the range; the second one
compares the end keys only, and so may go one tablet too far: for `[4, 5)` it also gives `(4, 9]`.
-/

namespace OceanBase.RootServer

open List Range

variable {α : Type}

/-- A key that is neither `MIN` nor `MAX`. -/
def key (k : α) : Key α := ((k : WithTop α) : WithBot (WithTop α))

/-! ### Complete tables -/

section Complete

variable [LinearOrder α]

/-- The key is in the range. -/
def Range.Has (r : Range α) (k : α) : Prop :=
  (r.startKey < key k ∨ (r.inclusiveStart ∧ r.startKey = key k)) ∧
    (key k < r.endKey ∨ (r.inclusiveEnd ∧ key k = r.endKey))

/-- The ranges are of one table and have a key in common. -/
def Range.Meets (r range : Range α) : Prop :=
  r.tableId = range.tableId ∧ ∃ k, r.Has k ∧ range.Has k

/-- The range `(s, e]`. -/
def Range.IsTablet (r : Range α) : Prop :=
  r.inclusiveStart = false ∧ r.inclusiveEnd = true ∧ r.startKey < r.endKey

/-- The next tablet of the same table, or the first one of a later table after the last one of its
own. -/
def Range.Follows (r r' : Range α) : Prop :=
  (r.tableId = r'.tableId ∧ r.endKey = r'.startKey) ∨
    (r.tableId < r'.tableId ∧ r.endKey = ⊤ ∧ r'.startKey = ⊥)

/-- The ranges tile the key space of each of their tables. -/
structure Complete (rs : List (Range α)) : Prop where
  isTablet : ∀ r ∈ rs, r.IsTablet
  follows : rs.IsChain Range.Follows
  head : ∀ r ∈ rs.head?, r.startKey = ⊥
  last : ∀ r ∈ rs.getLast?, r.endKey = ⊤

/-- The ranges of the entries, each of which has a tablet info. -/
def RootTable.Lists (t : RootTable α) (rs : List (Range α)) : Prop :=
  t.metas.map (fun m => (t.infoOf m).map (·.range)) = rs.map some

variable {r : Range α} {i n : Nat}

omit [LinearOrder α] in
theorem RootTable.Lists.tabletInfo {t : RootTable α} {rs : List (Range α)} (h : t.Lists rs)
    (hr : rs[i]? = some r) : ∃ info, t.tabletInfo i = some info ∧ info.range = r := by
  have hi := congrArg (·[i]?) h
  simp only [getElem?_map, hr] at hi
  obtain ⟨m, hm, hinfo⟩ := Option.map_eq_some_iff.1 hi
  obtain ⟨info, hinfo, hrange⟩ := Option.map_eq_some_iff.1 hinfo
  exact ⟨info, by rw [RootTable.tabletInfo, hm]; exact hinfo, hrange⟩

theorem Range.IsTablet.has_iff (h : r.IsTablet) (k : α) :
    r.Has k ↔ r.startKey < key k ∧ key k ≤ r.endKey := by
  simp [Range.Has, h.1, h.2.1, le_iff_lt_or_eq]

theorem Range.Has.le {k : α} (h : r.Has k) : r.startKey ≤ key k ∧ key k ≤ r.endKey :=
  ⟨h.1.elim le_of_lt fun hc => hc.2.le, h.2.elim le_of_lt fun hc => hc.2.le⟩

theorem pos_le_iff {a b : Key α} : toLex (n, a) ≤ toLex (n, b) ↔ a ≤ b := by
  simp [Prod.Lex.toLex_le_toLex]

theorem pos_lt_iff {a b : Key α} : toLex (n, a) < toLex (n, b) ↔ a < b := by
  simp [Prod.Lex.toLex_lt_toLex]

theorem exists_key {a b c : Key α} (hab : a < b) (hbc : b < c) : ∃ k, b = key k := by
  induction b using WithBot.recBotCoe with
  | bot => exact absurd hab not_lt_bot
  | coe b =>
    induction b using WithTop.recTopCoe with
    | top => exact absurd hbc not_top_lt
    | coe k => exact ⟨k, rfl⟩

namespace Complete

variable {rs : List (Range α)}

section

variable (h : Complete rs)
include h

theorem pairwise :
    rs.Pairwise fun r r' => r.endPos ≤ r'.startPos ∧ r'.startPos < r'.endPos := by
  have htrans : IsTrans (Range α) fun r r' =>
      r.endPos ≤ r'.startPos ∧ r'.startPos < r'.endPos :=
    ⟨fun a b c hab hbc => ⟨hab.1.trans (hab.2.le.trans hbc.1), hbc.2⟩⟩
  refine isChain_iff_pairwise.1 ?_
  refine List.IsChain.imp_of_mem_imp (fun r r' _ hr' hf => ?_) h.follows
  refine ⟨?_, pos_lt_iff.2 (h.isTablet r' hr').2.2⟩
  rcases hf with ⟨hid, hkey⟩ | ⟨hid, -⟩
  · rw [endPos, startPos, hid, hkey]
  · exact (Prod.Lex.toLex_lt_toLex.2 (Or.inl hid)).le

theorem exists_end (hr : r ∈ rs) :
    ∃ r' ∈ rs, r'.endPos = toLex (r.tableId, ⊤) := by
  have hchain := h.follows
  have hlast := h.last
  clear h
  induction rs generalizing r with
  | nil => simp at hr
  | cons a rs ih =>
    rcases rs with _ | ⟨b, rs⟩
    · obtain rfl := mem_singleton.1 hr
      exact ⟨r, hr, by rw [endPos, hlast r rfl]⟩
    obtain ⟨hfollows, hchain⟩ := isChain_cons_cons.1 hchain
    have hrest : ∀ {r}, r ∈ b :: rs → ∃ r' ∈ a :: b :: rs, r'.endPos = toLex (r.tableId, ⊤) := by
      intro r hr
      obtain ⟨r', hr', hend⟩ := ih hr hchain hlast
      exact ⟨r', mem_cons_of_mem a hr', hend⟩
    rcases mem_cons.1 hr with rfl | hr
    · rcases hfollows with ⟨hid, -⟩ | ⟨-, htop, -⟩
      · rw [hid]
        exact hrest (mem_cons_self ..)
      · exact ⟨r, hr, by rw [endPos, htop]⟩
    · exact hrest hr

theorem endPos_le_startPos {j : Nat} {r' : Range α} (hr : rs[i]? = some r)
    (hr' : rs[j]? = some r') (hij : i < j) : r.endPos ≤ r'.startPos := by
  obtain ⟨hi, rfl⟩ := List.getElem?_eq_some_iff.1 hr
  obtain ⟨hj, rfl⟩ := List.getElem?_eq_some_iff.1 hr'
  exact (pairwise_iff_getElem.1 h.pairwise i j hi hj hij).1

theorem startPos_lt (hr : rs[i]? = some r) : r.startPos < r.endPos :=
  pos_lt_iff.2 (h.isTablet r (mem_of_getElem? hr)).2.2

theorem start_cases (hr : rs[i]? = some r) :
    r.startKey = ⊥ ∨ ∃ j < i, ∃ r', rs[j]? = some r' ∧ r'.endPos = r.startPos := by
  rcases i with _ | j
  · exact Or.inl (h.head r (by rwa [head?_eq_getElem?]))
  obtain ⟨hj, rfl⟩ := List.getElem?_eq_some_iff.1 hr
  rcases isChain_iff_getElem.1 h.follows j hj with ⟨hid, hkey⟩ | ⟨-, -, hbot⟩
  · refine Or.inr ⟨j, by omega, rs[j], getElem?_eq_getElem _, ?_⟩
    rw [endPos, startPos, hid, hkey]
  · exact Or.inl hbot

end

end Complete

/-! ### The search -/

namespace RootTable

variable {t : RootTable α} {rs : List (Range α)}

theorem Lists.lowerBound_eq (h : t.Lists rs) (p : ℕ ×ₗ Key α) :
    t.lowerBound p = rs.findIdx fun r => ¬r.endPos < p := by
  have hmap := congrArg (List.findIdx fun o : Option (Range α) => match o with
    | none => false
    | some r => decide ¬r.endPos < p) h
  rw [findIdx_map, findIdx_map] at hmap
  refine Eq.trans ?_ hmap
  rw [lowerBound]
  congr 1
  funext m
  rw [Function.comp_apply]
  rcases t.infoOf m with _ | info <;> rfl

/-- The search for a key of a table finds the first tablet that does not end before it. -/
theorem Lists.lowerBound_spec (hlist : t.Lists rs) (h : Complete rs)
    (htable : ∃ r ∈ rs, r.tableId = n) (k : Key α) :
    ∃ r, rs[t.lowerBound (toLex (n, k))]? = some r ∧ r.tableId = n ∧ k ≤ r.endKey ∧
      ∀ j < t.lowerBound (toLex (n, k)), ∀ r', rs[j]? = some r' → r'.endPos < toLex (n, k) := by
  rw [hlist.lowerBound_eq]
  obtain ⟨r₀, hr₀, rfl⟩ := htable
  obtain ⟨e, he, hend⟩ := h.exists_end hr₀
  obtain ⟨j, hj, rfl⟩ := mem_iff_getElem.1 he
  have hp : decide (¬rs[j].endPos < toLex (r₀.tableId, k)) = true := by
    rw [hend, decide_eq_true_eq, not_lt, pos_le_iff]
    exact le_top
  have hlt := findIdx_lt_length_of_exists (p := fun r : Range α =>
    decide ¬r.endPos < toLex (r₀.tableId, k)) ⟨_, he, hp⟩
  have hfound := findIdx_getElem (w := hlt)
  have hbefore : ∀ i < rs.findIdx fun r => ¬r.endPos < toLex (r₀.tableId, k), ∀ r',
      rs[i]? = some r' → r'.endPos < toLex (r₀.tableId, k) := by
    intro i hi r' hr'
    have := not_of_lt_findIdx hi
    obtain ⟨_, rfl⟩ := List.getElem?_eq_some_iff.1 hr'
    simpa using this
  generalize rs.findIdx (fun r => ¬r.endPos < toLex (r₀.tableId, k)) = i at *
  refine ⟨rs[i], getElem?_eq_getElem hlt, ?_⟩
  rw [decide_eq_true_eq, not_lt, endPos, Prod.Lex.toLex_le_toLex] at hfound
  -- it is not behind the last tablet of the table
  have hle : rs[i].endPos ≤ rs[j].endPos := by
    rcases lt_trichotomy i j with hij | rfl | hij
    · have := h.endPos_le_startPos (getElem?_eq_getElem hlt) (getElem?_eq_getElem hj) hij
      exact this.trans (h.startPos_lt (getElem?_eq_getElem hj)).le
    · exact le_rfl
    · have := hbefore j hij _ (getElem?_eq_getElem hj)
      simp [this] at hp
  rw [hend, endPos, Prod.Lex.toLex_le_toLex] at hle
  have hid : r₀.tableId = rs[i].tableId := by
    omega
  refine ⟨hid.symm, ?_, hbefore⟩
  rcases hfound with hlt | ⟨-, hk⟩
  · exact absurd hlt (by dsimp only; omega)
  · exact hk

end RootTable

/-- The tablet ends before the range starts. -/
def Range.Before (r range : Range α) : Prop :=
  r.endKey < range.startKey ∨ (r.endKey = range.startKey ∧ range.inclusiveStart = false)

theorem Range.Before.endKey_lt {range : Range α} (h : r.Before range) {k : α}
    (hk : range.Has k) : r.endKey < key k := by
  rcases h with hlt | ⟨heq, hincl⟩
  · exact hlt.trans_le hk.le.1
  rcases hk.1 with hlt | ⟨hc, -⟩
  · exact heq.trans_lt hlt
  · rw [hincl] at hc
    exact absurd hc (by simp)

namespace RootTable

variable {t : RootTable α} {rs : List (Range α)} {range : Range α}

theorem skips_iff (hr : r.IsTablet) (hle : range.startKey ≤ r.endKey)
    (hkey : ∃ k, range.Has k) : skips range r = true ↔ r.Before range := by
  obtain ⟨k, hk⟩ := hkey
  rw [skips, decide_eq_true_eq, Range.Before, or_iff_right hle.not_gt]
  constructor
  · rintro ⟨-, -, heq, hincl⟩
    exact ⟨heq.symm, by simpa using hincl⟩
  rintro ⟨heq, hincl⟩
  have htop : range.startKey < ⊤ := hk.le.1.trans_lt (WithBot.coe_lt_coe.2 (WithTop.coe_lt_top k))
  refine ⟨?_, ?_, heq.symm, by simp [hincl]⟩
  · rw [← heq]
    exact (bot_le.trans_lt hr.2.2).ne'
  · rw [heq]
    exact htop.ne

/-- What `find_range` returns: the first tablet of the table that does not end before the range, and
the first one that does not end before the end of the range. -/
theorem Lists.findRange_eq (hlist : t.Lists rs) (h : Complete rs)
    (htable : ∃ r ∈ rs, r.tableId = range.tableId) (hkey : ∃ k, range.Has k) :
    ∃ first last b, t.findRange range = (.success, first, last) ∧ first ≤ last ∧
      rs[last]? = some b ∧ b.tableId = range.tableId ∧ range.endKey ≤ b.endKey ∧
      (∀ i < last, ∀ r, rs[i]? = some r → r.endPos < range.endPos) ∧
      (∀ i < first, ∀ r, rs[i]? = some r → r.tableId = range.tableId → r.Before range) ∧
      (∀ i ≥ first, ∀ r, rs[i]? = some r → range.startPos ≤ r.endPos ∧
        (r.tableId = range.tableId → ¬r.Before range)) := by
  obtain ⟨a, ha, haid, hale, habefore⟩ := hlist.lowerBound_spec h htable range.startKey
  obtain ⟨b, hb, hbid, hble, hbbefore⟩ := hlist.lowerBound_spec h htable range.endKey
  obtain ⟨info, hinfo, hrange⟩ := hlist.tabletInfo ha
  have hskips := skips_iff (h.isTablet a (mem_of_getElem? ha)) hale hkey
  generalize hstart : t.lowerBound (toLex (range.tableId, range.startKey)) = i at *
  generalize hlast : t.lowerBound (toLex (range.tableId, range.endKey)) = last at *
  obtain ⟨k, hk⟩ := hkey
  have hlength : rs.length = t.metas.length := by simpa using (congrArg List.length hlist).symm
  have hi : i < t.metas.length := hlength ▸ (List.getElem?_eq_some_iff.1 ha).1
  have hl : last < t.metas.length := hlength ▸ (List.getElem?_eq_some_iff.1 hb).1
  have hapos : range.startPos ≤ a.endPos := by
    rw [startPos, endPos, haid]
    exact pos_le_iff.2 hale
  have hbpos : range.endPos ≤ b.endPos := by
    rw [endPos, endPos, hbid]
    exact pos_le_iff.2 hble
  have hile : i ≤ last := by
    by_contra hlt
    have := pos_lt_iff.1 (hbpos.trans_lt (habefore last (by omega) b hb))
    exact absurd (hk.le.1.trans hk.le.2) this.not_ge
  have hlt : a.Before range → i < last := by
    refine fun hbefore => lt_of_le_of_ne hile ?_
    rintro rfl
    obtain rfl := Option.some.inj (ha.symm.trans hb)
    exact absurd ((hbefore.endKey_lt hk).trans_le hk.le.2) hble.not_gt
  have hfindLast : ∀ first ≤ last, t.findLast range first = (.success, first, last) := by
    intro first hle
    rw [RootTable.findLast, endPos, hlast, if_neg hl.ne, if_neg (by omega)]
  have hbehind : ∀ j > i, ∀ r, rs[j]? = some r → range.startPos ≤ r.endPos ∧
      (r.tableId = range.tableId → ¬r.Before range) := by
    intro j hj r hr
    have hpos : range.startPos < r.endPos :=
      (hapos.trans (h.endPos_le_startPos ha hr hj)).trans_lt (h.startPos_lt hr)
    refine ⟨hpos.le, fun hid hbefore => ?_⟩
    rw [startPos, endPos, hid] at hpos
    have hle : r.endKey ≤ range.startKey := hbefore.elim le_of_lt fun hc => hc.1.le
    exact absurd (pos_lt_iff.1 hpos) hle.not_gt
  have hfront : ∀ j < i, ∀ r, rs[j]? = some r → r.tableId = range.tableId → r.Before range := by
    intro j hj r hr hid
    have hpos := habefore j hj r hr
    rw [endPos, hid] at hpos
    exact Or.inl (pos_lt_iff.1 hpos)
  have hfind : t.findRange range = if skips range a then t.findLast range (i + 1)
      else t.findLast range i := by
    rw [RootTable.findRange, if_neg (by omega), startPos, hstart]
    rw [if_neg hi.ne, hinfo]
    dsimp only
    rw [hrange]
    by_cases hs : skips range a
    · have hlt := hlt (hskips.1 hs)
      obtain ⟨next, hnext, -⟩ := hlist.tabletInfo
        (getElem?_eq_getElem (l := rs) (i := i + 1) (by omega))
      rw [if_pos hs, if_pos hs, if_neg (by omega), if_neg (by simp [hnext])]
    · rw [if_neg hs, if_neg hs]
  by_cases hs : skips range a
  · rw [if_pos hs, hfindLast _ (hlt (hskips.1 hs))] at hfind
    refine ⟨i + 1, last, b, hfind, hlt (hskips.1 hs), hb, hbid, hble, hbbefore, ?_, ?_⟩
    · intro j hj r hr hid
      rcases Nat.lt_succ_iff_lt_or_eq.1 hj with hj | rfl
      · exact hfront j hj r hr hid
      · obtain rfl := Option.some.inj (ha.symm.trans hr)
        exact hskips.1 hs
    · exact fun j hj => hbehind j (by omega)
  · rw [if_neg hs, hfindLast _ hile] at hfind
    refine ⟨i, last, b, hfind, hile, hb, hbid, hble, hbbefore, hfront, ?_⟩
    intro j hj r hr
    rcases Nat.eq_or_lt_of_le hj with rfl | hj
    · obtain rfl := Option.some.inj (ha.symm.trans hr)
      exact ⟨hapos, fun _ hbefore => hs (hskips.2 hbefore)⟩
    · exact hbehind j hj r hr

/-- **The tablets `find_range` gives.** The first one is the first that has a key in common with the
range, so have all up to the last one, and none outside has. The last one has if the range has a key
behind the start of it. -/
theorem findRange_run (hlist : t.Lists rs) (h : Complete rs)
    (htable : ∃ r ∈ rs, r.tableId = range.tableId) (hkey : ∃ k, range.Has k) :
    ∃ first last a b, t.findRange range = (.success, first, last) ∧ first ≤ last ∧
      rs[first]? = some a ∧ a.Meets range ∧
      (∀ i r, rs[i]? = some r → first ≤ i → i < last → r.Meets range) ∧
      (∀ i r, rs[i]? = some r → r.Meets range → first ≤ i ∧ i ≤ last) ∧
      rs[last]? = some b ∧ b.tableId = range.tableId ∧ b.startKey < range.endKey ∧
      range.endKey ≤ b.endKey ∧
      (b.Meets range ↔ ∃ k, range.Has k ∧ b.startKey < key k) := by
  obtain ⟨first, last, b, hfind, hle, hb, hbid, hble, hinside, hfront, hbehind⟩ :=
    hlist.findRange_eq h htable hkey
  have htablet {i : Nat} {r : Range α} (hr : rs[i]? = some r) : r.IsTablet :=
    h.isTablet r (mem_of_getElem? hr)
  -- the tablets before the last one have their end key in common with the range
  have hmeets : ∀ i r, rs[i]? = some r → first ≤ i → i < last → r.Meets range := by
    intro i r hr hfi hil
    have hlt := hinside i hil r hr
    obtain ⟨hge, hnot⟩ := hbehind i hfi r hr
    have hid : r.tableId = range.tableId := by
      rw [startPos, endPos, Prod.Lex.toLex_le_toLex] at hge
      rw [endPos, endPos, Prod.Lex.toLex_lt_toLex] at hlt
      omega
    rw [endPos, endPos, hid, pos_lt_iff] at hlt
    obtain ⟨k, hend⟩ := exists_key (htablet hr).2.2 hlt
    refine ⟨hid, k, ((htablet hr).has_iff k).2 ⟨hend ▸ (htablet hr).2.2, hend.ge⟩, ?_,
      Or.inl (hend ▸ hlt)⟩
    have hnot := hnot hid
    rw [Range.Before, not_or, not_lt, not_and, Bool.not_eq_false] at hnot
    rw [← hend]
    exact (lt_or_eq_of_le hnot.1).imp_right fun heq => ⟨hnot.2 heq.symm, heq⟩
  have hbmeets : ∀ k, range.Has k → b.startKey < key k → b.Meets range := by
    intro k hk hlt
    exact ⟨hbid, k, ((htablet hb).has_iff k).2 ⟨hlt, hk.le.2.trans hble⟩, hk⟩
  obtain ⟨k, hk⟩ := hkey
  have hlast : b.startKey < range.endKey := by
    rcases h.start_cases hb with hbot | ⟨j, hj, r, hr, hend⟩
    · rw [hbot]
      exact (WithBot.bot_lt_coe _).trans_le hk.le.2
    have := hinside j hj r hr
    rw [hend, startPos, endPos, hbid] at this
    exact pos_lt_iff.1 this
  have hfirst : ∃ a, rs[first]? = some a ∧ a.Meets range := by
    rcases Nat.lt_or_eq_of_le hle with hlt | rfl
    · have hlen : first < rs.length := hlt.trans (List.getElem?_eq_some_iff.1 hb).1
      exact ⟨rs[first], getElem?_eq_getElem hlen,
        hmeets first _ (getElem?_eq_getElem hlen) le_rfl hlt⟩
    refine ⟨b, hb, hbmeets k hk ?_⟩
    rcases h.start_cases hb with hbot | ⟨j, hj, r, hr, hend⟩
    · rw [hbot]
      exact WithBot.bot_lt_coe _
    obtain ⟨hid, hend⟩ := Prod.ext_iff.1 (toLex.injective hend)
    have hlt := (hfront j hj r hr (hid.trans hbid)).endKey_lt hk
    exact lt_of_eq_of_lt hend.symm hlt
  obtain ⟨a, ha, hameets⟩ := hfirst
  refine ⟨first, last, a, b, hfind, hle, ha, hameets, hmeets, ?_, hb, hbid, hlast, hble, ?_⟩
  · rintro i r hr ⟨hid, k', hrk, hk'⟩
    have hrk := ((htablet hr).has_iff k').1 hrk
    constructor
    · by_contra hlt
      exact absurd hrk.2 ((hfront i (by omega) r hr hid).endKey_lt hk').not_ge
    by_contra hlt
    have := h.endPos_le_startPos hb hr (by omega)
    rw [endPos, startPos, hid, hbid] at this
    exact absurd (hk'.le.2.trans (hble.trans (pos_le_iff.1 this))) hrk.1.not_ge
  · constructor
    · rintro ⟨-, k', hbk, hk'⟩
      exact ⟨k', hk', (((htablet hb).has_iff k').1 hbk).1⟩
    · rintro ⟨k', hk', hlt⟩
      exact hbmeets k' hk' hlt

end RootTable

end Complete

namespace RootTable

/-- The tablets `(MIN, 4]` and `(4, MAX]`. -/
def twoRanges : List (Range Nat) := [⟨1, ⊥, key 4, false, true⟩, ⟨1, key 4, ⊤, false, true⟩]

def twoTablets : RootTable Nat :=
  ⟨[newMeta 0 [7] 1, newMeta 1 [7] 1], 2, twoRanges.map fun r => (⟨r, 0, 0⟩, .reset)⟩

theorem twoTablets_lists : twoTablets.Lists twoRanges := rfl

theorem twoRanges_complete : Complete twoRanges where
  isTablet r hr := by
    rcases mem_pair.1 hr with rfl | rfl
    · exact ⟨rfl, rfl, WithBot.bot_lt_coe _⟩
    · exact ⟨rfl, rfl, WithBot.coe_lt_coe.2 (WithTop.coe_lt_top 4)⟩
  follows := isChain_pair.2 (Or.inl ⟨rfl, rfl⟩)
  head r hr := by cases hr; rfl
  last r hr := by cases hr; rfl

def fourToFive : Range Nat := ⟨1, key 4, key 5, true, false⟩

theorem fourToFive_has : fourToFive.Has 4 := ⟨Or.inr ⟨rfl, rfl⟩, Or.inl (by decide)⟩

theorem findRange_run_fourToFive : ∃ first last a,
    twoTablets.findRange fourToFive = (.success, first, last) ∧ twoRanges[first]? = some a ∧
      a.Meets fourToFive := by
  have htable : ∃ r ∈ twoRanges, r.tableId = fourToFive.tableId := ⟨_, mem_cons_self .., rfl⟩
  obtain ⟨first, last, a, _, hfind, -, ha, hmeets, -⟩ :=
    findRange_run twoTablets_lists twoRanges_complete htable ⟨4, fourToFive_has⟩
  exact ⟨first, last, a, hfind, ha, hmeets⟩

/-- The last tablet found starts behind 4, and no key lies between 4 and 5. -/
theorem findRange_too_far :
    (twoTablets.Lists twoRanges ∧ Complete twoRanges ∧ ∃ k, fourToFive.Has k) ∧
    twoTablets.findRange fourToFive = (.success, 0, 1) ∧
    ∀ r, twoRanges[1]? = some r → ¬r.Meets fourToFive := by
  refine ⟨⟨twoTablets_lists, twoRanges_complete, 4, fourToFive_has⟩, by decide, ?_⟩
  rintro r hr ⟨-, k, hrk, hk⟩
  cases hr
  have hlt : ∀ {a b : Nat}, key a < key b → a < b := by simp [key]
  rcases hrk.1 with hrk | ⟨hc, -⟩
  · rcases hk.2 with hk | ⟨hc, -⟩
    · have := hlt hrk
      have := hlt hk
      omega
    · exact absurd hc (by decide)
  · exact absurd hc (by decide)

end RootTable

end OceanBase.RootServer
