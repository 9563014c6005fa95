import OceanBase.Common.Object

/-!
# Fusing rows (`ob_row_fuse.cpp`, `ob_object.cpp`, `ob_row.cpp`)

A row of one key is assembled from the static data and increments, oldest first. `fuseSstableRow`
merges an increment into a row of values, `fuseUpsRow` an increment into an increment.

The cells of an increment act on the cells of a row by `RowObj.applied`. For columns of one type
this action is associative (`RowObj.applied_assoc`), so it does not matter how increments are
grouped before they meet the row (`fuseSstableRows_groups`).

A row here is its action flag, if it has that column, with the cells outside the row key.
-/

namespace OceanBase.Common

open Lib Function Except

/-! ### Cells -/

/-- `ObObj::apply` with a nop as the original: a zero that keeps the mutation's add flag. -/
def Obj.applyToNop (arith : Arith) : Obj → Except Ret Obj
  | .seq => .error .invalidArgument
  | .null => .ok .null
  | .varchar s => .ok (.varchar s)
  | .bool b => .ok (.bool b)
  | .int m isAdd => .ok (Function.uncurry .int (applyNumber (· + ·) 0 true m isAdd))
  | .float m isAdd => .ok (Function.uncurry .float (applyNumber arith.addFloat 0 true m isAdd))
  | .double m isAdd => .ok (Function.uncurry .double (applyNumber arith.addDouble 0 true m isAdd))
  | .dateTime m isAdd => .ok (Function.uncurry .dateTime (applyNumber (· + ·) 0 true m isAdd))
  | .preciseDateTime m isAdd =>
    .ok (Function.uncurry .preciseDateTime (applyNumber (· + ·) 0 true m isAdd))
  | .createTime m => .ok (.createTime m)
  | .modifyTime m => .ok (.modifyTime m)
  | .decimal m isAdd => applyDecimal arith ⟨0, 0, []⟩ true m isAdd

/-- The object in a row's cell: a value, or the extended object nop. -/
inductive RowObj where
  | nop
  | value (obj : Obj)
  deriving DecidableEq, Repr

namespace RowObj

/-- `ObObj::apply`, nops included. -/
def apply (arith : Arith) : RowObj → RowObj → Except Ret RowObj
  | org, nop => .ok org
  | nop, value mutation => (mutation.applyToNop arith).map value
  | value org, value mutation => (org.apply arith mutation).map value

/-- What `apply` leaves in the cell; a failed one leaves it as it was. -/
def applied (arith : Arith) (org mutation : RowObj) : RowObj :=
  match apply arith org mutation with
  | .ok obj => obj
  | .error _ => org

end RowObj

/-- The types to which increments can be added. -/
inductive NumType where
  | int
  | dateTime
  | preciseDateTime
  deriving DecidableEq, Repr

/-- The object of a number and its add flag. -/
def NumType.obj : NumType → BitVec 64 → Bool → Obj
  | int => .int
  | dateTime => .dateTime
  | preciseDateTime => .preciseDateTime

/-- The types of columns whose values compose exactly. -/
inductive ColType where
  | number (type : NumType)
  | varchar
  | bool
  deriving DecidableEq, Repr

/-- The objects a cell of a column of the type may hold. -/
inductive RowObj.OfType : ColType → RowObj → Prop
  | nop (t : ColType) : OfType t .nop
  | null (t : ColType) : OfType t (.value .null)
  | number (k : NumType) (v : BitVec 64) (isAdd : Bool) :
    OfType (.number k) (.value (k.obj v isAdd))
  | varchar (s : List UInt8) : OfType .varchar (.value (.varchar s))
  | bool (b : Bool) : OfType .bool (.value (.bool b))

namespace RowObj

variable {arith : Arith} {t : ColType} {x a b : RowObj}

@[simp]
theorem applied_nop : x.applied arith nop = x := by
  cases x <;> rfl

@[simp]
theorem applied_null : x.applied arith (value .null) = value .null := by
  cases x with
  | nop => rfl
  | value obj => cases obj <;> rfl

/-- Numbers are added when the increment has the add flag. -/
theorem applied_number (k : NumType) (u v : BitVec 64) (e f : Bool) :
    (value (k.obj u e)).applied arith (value (k.obj v f)) =
      value (Function.uncurry k.obj (Obj.applyNumber (· + ·) u e v f)) := by
  cases k <;> rfl

theorem null_applied_number (k : NumType) (v : BitVec 64) (f : Bool) :
    (value .null).applied arith (value (k.obj v f)) = value (k.obj v false) := by
  cases k <;> cases f <;> simp [applied, apply, Obj.apply, NumType.obj, Obj.applyNumber, Except.map]

/-- An increment to an absent cell stays as it is. -/
theorem nop_applied (ha : a.OfType t) : nop.applied arith a = a := by
  cases ha with
  | nop | null | varchar | bool => rfl
  | number k v f =>
    cases k <;> cases f <;> simp [applied, apply, Obj.applyToNop, NumType.obj, Obj.applyNumber,
      Except.map]

/-- Increments keep the type of the column. -/
theorem OfType.applied (hx : x.OfType t) (ha : a.OfType t) : (x.applied arith a).OfType t := by
  cases ha with
  | nop => exact applied_nop.symm ▸ hx
  | null => exact applied_null.symm ▸ .null t
  | varchar s => cases hx <;> exact .varchar s
  | bool b => cases hx <;> exact .bool b
  | number k v f =>
    cases hx with
    | nop => exact (nop_applied (.number k v f)).symm ▸ .number k v f
    | null => exact (null_applied_number k v f).symm ▸ .number k v false
    | number _ u e => exact (applied_number k u v e f).symm ▸ .number k _ _

/-- Increments can be put together before they are applied. -/
theorem applied_number_assoc (k : NumType) (u v m : BitVec 64) (e f g : Bool) :
    ((value (k.obj u e)).applied arith (value (k.obj v f))).applied arith (value (k.obj m g)) =
      (value (k.obj u e)).applied arith
        ((value (k.obj v f)).applied arith (value (k.obj m g))) := by
  cases f <;> cases g <;> simp [applied_number, Obj.applyNumber, BitVec.add_assoc]

variable (arith) in
/-- Mutations of one column compose: to apply one after the other is to apply their merge. -/
theorem applied_assoc (hx : x.OfType t) (ha : a.OfType t) (hb : b.OfType t) :
    (x.applied arith a).applied arith b = x.applied arith (a.applied arith b) := by
  cases hb with
  | nop | null => simp
  | varchar | bool => cases ha <;> cases hx <;> rfl
  | number k m g =>
    cases ha with
    | nop => rw [nop_applied (.number k m g), applied_nop]
    | null =>
      -- what is merged into a null overwrites
      rw [applied_null, null_applied_number]
      cases hx with
      | nop => rw [nop_applied (.number k m false)]
      | null => rw [null_applied_number]
      | number _ u e => simp [applied_number, Obj.applyNumber]
    | number _ v f =>
      cases hx with
      | nop =>
        rw [nop_applied (.number k v f),
          nop_applied ((OfType.number k v f).applied (.number k m g))]
      | null =>
        cases f <;> cases g <;> simp [null_applied_number, applied_number, Obj.applyNumber]
      | number _ u e => exact applied_number_assoc k u v m e f g

end RowObj

/-! ### Rows -/

/-- The values of `ObActionFlag` that a row's action flag column holds. -/
inductive ActionFlag where
  | rowDoesNotExist
  | delRow
  | newAdd
  | valid
  | other
  deriving DecidableEq, Repr

/-- The object in the action flag column: an action flag, or an object of another type. -/
inductive FlagCell where
  | ext (flag : ActionFlag)
  | notExt
  deriving DecidableEq, Repr

/-- A row (`ObRow`) outside its row key: the action flag, if the row description has that column,
and the cells of the other columns. -/
structure Row (n : Nat) where
  flag : Option FlagCell
  cells : Fin n → RowObj

variable {n : Nat}

/-- `reset`: the action flag says that there is no row, the cells hold the default. -/
def Row.reset (row : Row n) (default : RowObj) : Row n :=
  ⟨row.flag.map fun _ => .ext .rowDoesNotExist, fun _ => default⟩

/-- Set the action flag, where there is one. -/
def Row.setFlag (row : Row n) (flag : ActionFlag) : Row n :=
  { row with flag := row.flag.map fun _ => .ext flag }

variable (arith : Arith)

/-- `apply_row`: copy or apply every cell of the row; what an `apply` returns is not looked at. -/
def applyRow (row result : Row n) (copy : Bool) : Row n :=
  { result with
    cells := fun i => if copy then row.cells i else (result.cells i).applied arith (row.cells i) }

/-- A result row and `is_row_empty`. -/
structure Fused (n : Nat) where
  result : Row n
  isRowEmpty : Bool

def fuseSstableRow (row : Row n) (s : Fused n) : Except Ret (Fused n) :=
  match row.flag with
  | none => .ok ⟨row, false⟩
  | some .notExt => .error .errUnexpected
  | some (.ext .rowDoesNotExist) => .ok s
  | some (.ext .delRow) =>
    .ok ⟨(s.result.reset (.value .null)).setFlag .rowDoesNotExist, true⟩
  | some (.ext .newAdd) =>
    .ok ⟨(applyRow arith row (s.result.reset (.value .null)) false).setFlag .valid, false⟩
  | some (.ext .valid) => .ok ⟨(applyRow arith row s.result false).setFlag .valid, false⟩
  | some (.ext .other) => .error .notSupported

/-- The end of `fuse_ups_row`: an increment is empty iff its action flag says so. -/
def Fused.ofIncrement (result : Row n) : Fused n :=
  ⟨result, result.flag == some (.ext .rowDoesNotExist)⟩

def fuseUpsRow (row : Row n) (s : Fused n) : Except Ret (Fused n) :=
  match row.flag, s.result.flag with
  | none, _ => .error .invalidArgument
  | _, none => .error .invalidArgument
  | some .notExt, _ => .error .errUnexpected
  | _, some .notExt => .error .errUnexpected
  | some (.ext .newAdd), some (.ext _) =>
    .ok (.ofIncrement (applyRow arith row (s.result.setFlag .newAdd) true))
  | some (.ext .delRow), some (.ext _) => .ok (.ofIncrement (s.result.setFlag .delRow))
  | some (.ext .valid), some (.ext resultFlag) =>
    -- only over an increment that touched nothing does the row stay a mere update
    let flag := if resultFlag = .valid ∨ resultFlag = .rowDoesNotExist then .valid else .newAdd
    let copy := resultFlag = .delRow ∨ resultFlag = .rowDoesNotExist
    .ok (.ofIncrement (applyRow arith row (s.result.setFlag flag) copy))
  | some (.ext .rowDoesNotExist), some (.ext _) => .ok (.ofIncrement s.result)
  | some (.ext .other), some (.ext _) => .error .notSupported

def fuseRow (row : Row n) (s : Fused n) (isUpsRow : Bool) :
    Except Ret (Fused n) :=
  if isUpsRow then fuseUpsRow arith row s else fuseSstableRow arith row s

/-! ### Increments as an action on rows -/

/-- An increment over columns of the given types. -/
structure Row.Increment (types : Fin n → ColType) (row : Row n) : Prop where
  flag : ∃ f, f ≠ .other ∧ row.flag = some (.ext f)
  typed : ∀ i, (row.cells i).OfType (types i)

/-- No increment has been fused yet. -/
def noIncrement : Fused n := ⟨⟨some (.ext .rowDoesNotExist), fun _ => .nop⟩, true⟩

section Action

variable {arith : Arith} {types : Fin n → ColType} {row : Row n} {s base : Fused n}
    {rows : List (Row n)}

/-- Applying an increment to one gives an increment. -/
theorem Row.Increment.applyRow {result : Row n} {copy : Bool} (hrow : row.Increment types)
    (hresult : result.Increment types) : (applyRow arith row result copy).Increment types where
  flag := hresult.flag
  typed i := by
    rcases copy with _ | _
    · exact (hresult.typed i).applied (hrow.typed i)
    · exact hrow.typed i

theorem Row.Increment.setFlag {flag : ActionFlag} (hrow : row.Increment types)
    (hflag : flag ≠ .other) : (row.setFlag flag).Increment types := by
  obtain ⟨f, -, hf⟩ := hrow.flag
  exact ⟨⟨flag, hflag, by simp [Row.setFlag, hf]⟩, hrow.typed⟩

/-! What `fuse_sstable_row` does for each action flag. -/

theorem fuseSstableRow_rowDoesNotExist (h : row.flag = some (.ext .rowDoesNotExist)) :
    fuseSstableRow arith row s = .ok s := by
  simp [fuseSstableRow, h]

theorem fuseSstableRow_delRow (h : row.flag = some (.ext .delRow)) :
    fuseSstableRow arith row s =
      .ok ⟨⟨s.result.flag.map fun _ => .ext .rowDoesNotExist, fun _ => .value .null⟩, true⟩ := by
  simp [fuseSstableRow, h, Row.setFlag, Row.reset, comp_def]

theorem fuseSstableRow_newAdd (h : row.flag = some (.ext .newAdd)) :
    fuseSstableRow arith row s =
      .ok ⟨⟨s.result.flag.map fun _ => .ext .valid,
        fun i => (RowObj.value .null).applied arith (row.cells i)⟩, false⟩ := by
  simp [fuseSstableRow, h, Row.setFlag, Row.reset, applyRow, comp_def]

theorem fuseSstableRow_valid (h : row.flag = some (.ext .valid)) :
    fuseSstableRow arith row s =
      .ok ⟨⟨s.result.flag.map fun _ => .ext .valid,
        fun i => (s.result.cells i).applied arith (row.cells i)⟩, false⟩ := by
  simp [fuseSstableRow, h, Row.setFlag, applyRow]

variable (arith) in
/-- An increment can be merged into every row of values; an action flag column stays one. -/
theorem Row.Increment.fuseSstableRow_ok (hrow : row.Increment types) (s : Fused n) :
    ∃ s', fuseSstableRow arith row s = .ok s' ∧
      ∀ flag : FlagCell, s'.result.flag.map (fun _ => flag) = s.result.flag.map fun _ => flag := by
  obtain ⟨f, hf, hflag⟩ := hrow.flag
  cases f with
  | other => exact absurd rfl hf
  | rowDoesNotExist => exact ⟨s, fuseSstableRow_rowDoesNotExist hflag, fun _ => rfl⟩
  | delRow => exact ⟨_, fuseSstableRow_delRow hflag, fun _ => by simp [comp_def]⟩
  | newAdd => exact ⟨_, fuseSstableRow_newAdd hflag, fun _ => by simp [comp_def]⟩
  | valid => exact ⟨_, fuseSstableRow_valid hflag, fun _ => by simp [comp_def]⟩

variable (arith) in
/-- To merge an increment into an increment and apply the outcome is to apply one after the
other. -/
theorem fuseUpsRow_action (hrow : row.Increment types) (hs : s.result.Increment types)
    (hbase : ∀ i, (base.result.cells i).OfType (types i)) :
    ∃ s', fuseUpsRow arith row s = .ok s' ∧ s'.result.Increment types ∧
      fuseSstableRow arith s'.result base =
        fuseSstableRow arith s.result base >>= fuseSstableRow arith row := by
  obtain ⟨f, hf, hflag⟩ := hrow.flag
  obtain ⟨g, hg, hsflag⟩ := hs.flag
  have hset {f : ActionFlag} {reset : Bool} :
      (Fused.ofIncrement (applyRow arith row (s.result.setFlag f) reset)).result.flag =
        some (.ext f) := by
    simp [Fused.ofIncrement, applyRow, Row.setFlag, hsflag]
  cases f with
  | other => exact absurd rfl hf
  | rowDoesNotExist =>
    refine ⟨.ofIncrement s.result, by simp [fuseUpsRow, hflag, hsflag], hs, ?_⟩
    have hid : fuseSstableRow arith row = ok := by
      funext s
      exact fuseSstableRow_rowDoesNotExist hflag
    rw [hid]
    exact (bind_pure _).symm
  | delRow =>
    -- the cells that stay in the increment are dropped when it is applied
    refine ⟨.ofIncrement (s.result.setFlag .delRow), by simp [fuseUpsRow, hflag, hsflag],
      hs.setFlag (by decide), ?_⟩
    obtain ⟨t, ht, htflag⟩ := hs.fuseSstableRow_ok arith base
    rw [ht, fuseSstableRow_delRow (by simp [Fused.ofIncrement, Row.setFlag, hsflag]), ← htflag]
    exact (fuseSstableRow_delRow hflag).symm
  | newAdd =>
    refine ⟨.ofIncrement (applyRow arith row (s.result.setFlag .newAdd) true),
      by simp [fuseUpsRow, hflag, hsflag], hrow.applyRow (hs.setFlag (by decide)), ?_⟩
    obtain ⟨t, ht, htflag⟩ := hs.fuseSstableRow_ok arith base
    rw [ht, fuseSstableRow_newAdd hset, ← htflag]
    exact (fuseSstableRow_newAdd hflag).symm
  | valid =>
    cases g with
    | other => exact absurd rfl hg
    | rowDoesNotExist =>
      refine ⟨.ofIncrement (applyRow arith row (s.result.setFlag .valid) true),
        by simp [fuseUpsRow, hflag, hsflag], hrow.applyRow (hs.setFlag (by decide)), ?_⟩
      rw [fuseSstableRow_valid hset, fuseSstableRow_rowDoesNotExist hsflag]
      exact (fuseSstableRow_valid hflag).symm
    | delRow =>
      refine ⟨.ofIncrement (applyRow arith row (s.result.setFlag .newAdd) true),
        by simp [fuseUpsRow, hflag, hsflag], hrow.applyRow (hs.setFlag (by decide)), ?_⟩
      rw [fuseSstableRow_newAdd hset, fuseSstableRow_delRow hsflag]
      refine Eq.trans ?_ (fuseSstableRow_valid hflag).symm
      simp [comp_def, Fused.ofIncrement, applyRow]
    | newAdd =>
      refine ⟨.ofIncrement (applyRow arith row (s.result.setFlag .newAdd) false),
        by simp [fuseUpsRow, hflag, hsflag], hrow.applyRow (hs.setFlag (by decide)), ?_⟩
      rw [fuseSstableRow_newAdd hset, fuseSstableRow_newAdd hsflag]
      have hcells i := RowObj.applied_assoc arith (.null (types i)) (hs.typed i) (hrow.typed i)
      refine Eq.trans ?_ (fuseSstableRow_valid hflag).symm
      simp [comp_def, Fused.ofIncrement, applyRow, Row.setFlag, hcells]
    | valid =>
      refine ⟨.ofIncrement (applyRow arith row (s.result.setFlag .valid) false),
        by simp [fuseUpsRow, hflag, hsflag], hrow.applyRow (hs.setFlag (by decide)), ?_⟩
      rw [fuseSstableRow_valid hset, fuseSstableRow_valid hsflag]
      have hcells i := RowObj.applied_assoc arith (hbase i) (hs.typed i) (hrow.typed i)
      refine Eq.trans ?_ (fuseSstableRow_valid hflag).symm
      simp [comp_def, Fused.ofIncrement, applyRow, Row.setFlag, hcells]

variable (arith) in
/-- Merge increments, oldest first, into an increment that touches nothing. -/
def fuseUpsRows (rows : List (Row n)) : Except Ret (Fused n) :=
  rows.foldlM (fun s row => fuseUpsRow arith row s) noIncrement

variable (arith) in
/-- Merge increments, oldest first, into a row of values. -/
def fuseSstableRows (rows : List (Row n)) (base : Fused n) : Except Ret (Fused n) :=
  rows.foldlM (fun s row => fuseSstableRow arith row s) base

theorem fuseSstableRows_cons (row : Row n) (rows : List (Row n)) (base : Fused n) :
    fuseSstableRows arith (row :: rows) base =
      fuseSstableRow arith row base >>= fuseSstableRows arith rows :=
  List.foldlM_cons

theorem fuseSstableRows_append (rows rows' : List (Row n)) (base : Fused n) :
    fuseSstableRows arith (rows ++ rows') base =
      fuseSstableRows arith rows base >>= fuseSstableRows arith rows' :=
  List.foldlM_append

theorem noIncrement_increment : (noIncrement : Fused n).result.Increment types :=
  ⟨⟨.rowDoesNotExist, by decide, rfl⟩, fun i => .nop (types i)⟩

variable (arith) in
/-- A fused list of increments acts as its rows do one after the other. -/
theorem foldlM_fuseUpsRow_action (hrows : ∀ row ∈ rows, row.Increment types)
    (hs : s.result.Increment types) (hbase : ∀ i, (base.result.cells i).OfType (types i)) :
    ∃ s', rows.foldlM (fun s row => fuseUpsRow arith row s) s = .ok s' ∧
      s'.result.Increment types ∧
      fuseSstableRow arith s'.result base =
        fuseSstableRow arith s.result base >>= fuseSstableRows arith rows := by
  induction rows generalizing s with
  | nil => exact ⟨s, rfl, hs, (bind_pure _).symm⟩
  | cons row rows ih =>
    obtain ⟨s₁, hfuse, hs₁, haction⟩ :=
      fuseUpsRow_action arith (hrows row (by simp)) hs hbase
    obtain ⟨s', hrun, hs', hact⟩ := ih (fun r hr => hrows r (by simp [hr])) hs₁
    refine ⟨s', by simp [hfuse, hrun, bind, Except.bind], hs', ?_⟩
    rw [hact, haction, bind_assoc]
    exact congrArg _ (funext fun s => (fuseSstableRows_cons row rows s).symm)

variable (arith) in
/-- Increments fused among themselves act on a base row as they do one by one. -/
theorem fuseUpsRows_action (hrows : ∀ row ∈ rows, row.Increment types)
    (hbase : ∀ i, (base.result.cells i).OfType (types i)) :
    ∃ inc, fuseUpsRows arith rows = .ok inc ∧ inc.result.Increment types ∧
      fuseSstableRow arith inc.result base = fuseSstableRows arith rows base :=
  foldlM_fuseUpsRow_action arith hrows noIncrement_increment hbase

/-- Fusing an increment keeps the column types. -/
theorem Row.Increment.fuseSstableRow_typed {s' : Fused n} (hrow : row.Increment types)
    (hs : ∀ i, (s.result.cells i).OfType (types i)) (h : fuseSstableRow arith row s = .ok s') :
    ∀ i, (s'.result.cells i).OfType (types i) := by
  obtain ⟨f, hf, hflag⟩ := hrow.flag
  cases f with
  | other => exact absurd rfl hf
  | rowDoesNotExist =>
    obtain rfl := ok.inj ((fuseSstableRow_rowDoesNotExist hflag).symm.trans h)
    exact hs
  | delRow =>
    obtain rfl := ok.inj ((fuseSstableRow_delRow hflag).symm.trans h)
    exact fun i => .null (types i)
  | newAdd =>
    obtain rfl := ok.inj ((fuseSstableRow_newAdd hflag).symm.trans h)
    exact fun i => (RowObj.OfType.null (types i)).applied (hrow.typed i)
  | valid =>
    obtain rfl := ok.inj ((fuseSstableRow_valid hflag).symm.trans h)
    exact fun i => (hs i).applied (hrow.typed i)

variable (arith) in
/-- Groups of increments, each merged into one, act as all the increments do. -/
theorem fuseSstableRows_groups {groups : List (List (Row n))}
    (hgroups : ∀ rows ∈ groups, ∀ row ∈ rows, row.Increment types)
    (hbase : ∀ i, (base.result.cells i).OfType (types i)) :
    ∃ incs, groups.mapM (fuseUpsRows arith) = .ok incs ∧
      (∀ inc ∈ incs, inc.result.Increment types) ∧
      fuseSstableRows arith (incs.map Fused.result) base =
        fuseSstableRows arith groups.flatten base := by
  induction groups generalizing base with
  | nil => exact ⟨[], rfl, by simp, rfl⟩
  | cons rows groups ih =>
    obtain ⟨inc, hmerge, hinc, haction⟩ := fuseUpsRows_action arith (hgroups rows (by simp)) hbase
    obtain ⟨s, hs, -⟩ := hinc.fuseSstableRow_ok arith base
    obtain ⟨incs, hmap, hincs, hrest⟩ := ih (fun g hg => hgroups g (by simp [hg]))
      (hinc.fuseSstableRow_typed hbase hs)
    refine ⟨inc :: incs, ?_, by simpa using ⟨hinc, hincs⟩, ?_⟩
    · simp [hmerge, hmap, bind, Except.bind, pure, Except.pure]
    have hfirst : fuseSstableRows arith rows base = .ok s := haction.symm.trans hs
    calc fuseSstableRows arith ((inc :: incs).map Fused.result) base
        = fuseSstableRow arith inc.result base >>=
            fuseSstableRows arith (incs.map Fused.result) := fuseSstableRows_cons _ _ base
      _ = fuseSstableRows arith rows base >>= fuseSstableRows arith groups.flatten := by
          rwa [hs, hfirst]
      _ = fuseSstableRows arith (rows :: groups).flatten base := by
          rw [List.flatten_cons, fuseSstableRows_append]

/-- **Increments compose.** However increments are grouped, whether the groups are applied to the
base row one after another or merged once more, they give the same row. The base row may be absent.
-/
theorem fuseUpsRows_grouping (arith : Arith) (types : Fin n → ColType) (base : Fused n)
    (rows : List (Row n)) (hbase : ∀ i, (base.result.cells i).OfType (types i))
    (hrows : ∀ row ∈ rows, row.Increment types) :
    ∃ s, fuseSstableRows arith rows base = .ok s ∧
      (∃ inc, fuseUpsRows arith rows = .ok inc ∧ fuseSstableRow arith inc.result base = .ok s) ∧
      ∀ groups : List (List (Row n)), groups.flatten = rows →
        ∃ incs inc, groups.mapM (fuseUpsRows arith) = .ok incs ∧
          fuseSstableRows arith (incs.map Fused.result) base = .ok s ∧
          fuseUpsRows arith (incs.map Fused.result) = .ok inc ∧
          fuseSstableRow arith inc.result base = .ok s := by
  obtain ⟨inc, hmerge, hinc, haction⟩ := fuseUpsRows_action arith hrows hbase
  obtain ⟨s, hs, -⟩ := hinc.fuseSstableRow_ok arith base
  have hrun : fuseSstableRows arith rows base = .ok s := haction.symm.trans hs
  refine ⟨s, hrun, ⟨inc, hmerge, hs⟩, ?_⟩
  rintro groups rfl
  have hgroups : ∀ g ∈ groups, ∀ row ∈ g, row.Increment types := fun g hg row hrow =>
    hrows row (List.mem_flatten.2 ⟨g, hg, hrow⟩)
  obtain ⟨incs, hmap, hincs, hacts⟩ := fuseSstableRows_groups arith hgroups hbase
  have hmem : ∀ row ∈ incs.map Fused.result, row.Increment types := by
    intro row hrow
    obtain ⟨inc, hmem, rfl⟩ := List.mem_map.1 hrow
    exact hincs inc hmem
  obtain ⟨inc', hmerge', -, haction'⟩ := fuseUpsRows_action arith hmem hbase
  exact ⟨incs, inc', hmap, hacts.trans hrun, hmerge', (haction'.trans hacts).trans hrun⟩

/-- Three increments to a row of one number: an update that adds, a delete, an insert. -/
def threeIncrements : List (Row 1) :=
  [⟨some (.ext .valid), fun _ => .value (.int 5 true)⟩, ⟨some (.ext .delRow), fun _ => .nop⟩,
    ⟨some (.ext .newAdd), fun _ => .value (.int 2 true)⟩]

theorem threeIncrements_increment (row : Row 1) (hrow : row ∈ threeIncrements) :
    row.Increment fun _ => .number .int := by
  simp only [threeIncrements, List.mem_cons, List.not_mem_nil, or_false] at hrow
  obtain rfl | rfl | rfl := hrow
  · exact ⟨⟨.valid, by decide, rfl⟩, fun _ => .number .int 5 true⟩
  · exact ⟨⟨.delRow, by decide, rfl⟩, fun _ => .nop _⟩
  · exact ⟨⟨.newAdd, by decide, rfl⟩, fun _ => .number .int 2 true⟩

theorem fuseUpsRows_grouping_threeIncrements :
    ∃ s, fuseSstableRows ⟨fun _ b => b, fun _ b => b, fun _ b => .ok b⟩ threeIncrements
        ⟨⟨none, fun _ => .value (.int 1 false)⟩, false⟩ = .ok s ∧
      ∃ inc, fuseUpsRows ⟨fun _ b => b, fun _ b => b, fun _ b => .ok b⟩ threeIncrements = .ok inc ∧
        fuseSstableRow ⟨fun _ b => b, fun _ b => b, fun _ b => .ok b⟩ inc.result
          ⟨⟨none, fun _ => .value (.int 1 false)⟩, false⟩ = .ok s := by
  obtain ⟨s, hrun, hmerge, -⟩ := fuseUpsRows_grouping _ (fun _ => .number .int)
    ⟨⟨none, fun _ => .value (.int 1 false)⟩, false⟩ threeIncrements
    (fun _ => .number .int 1 false) threeIncrements_increment
  exact ⟨s, hrun, hmerge⟩

end Action

end OceanBase.Common
