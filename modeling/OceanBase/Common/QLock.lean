import OceanBase.Common.Define
import OceanBase.Lib.Run

/-!
# The row lock (`qlock.h`)

A `QLock` is two 32-bit words: `n_ref_` counts the shared references, and `uid_` holds the
session that has, or is waiting for, the lock exclusively. A session that wants the lock exclusively
first marks `uid_` and then waits for `n_ref_` to drain, and one that wants it shared first counts
itself and then looks at `uid_` again.

The model interleaves the atomic steps of any number of sessions. What a session **holds** is what
it has in the two words when the unfinished part of a call is left out. Deadlines are free.
-/

namespace OceanBase.Common

namespace QLock

open Lib Function Option BitVec Multiset

def exclusiveBit : BitVec 32 := 1 <<< 31

def uidMask : BitVec 32 := ~~~exclusiveBit

/-- The two words of the lock. -/
structure Words where
  nRef : BitVec 32
  uid : BitVec 32
  deriving DecidableEq, Repr

namespace Words

def addSharedRef (w : Words) : Words := { w with nRef := w.nRef + 1 }

def delSharedRef (w : Words) : Words := { w with nRef := w.nRef - 1 }

end Words

inductive Call where
  | sharedLock
  | sharedUnlock
  | tryExclusiveLock
  | exclusiveLock
  | exclusiveUnlock
  | share2exclusiveLock
  | exclusive2sharedLock
  deriving DecidableEq, Repr

/-- Where a session stands inside a call, named after the next atomic step of the source. -/
inductive Pc where
  | idle
  -- `shared_lock`, through `try_shared_lock`
  | sharedTest
  | sharedAdd
  | sharedTestAgain
  | sharedDel
  | sharedPause
  -- `shared_unlock`
  | unshareDel
  -- `try_exclusive_lock`
  | tryTestRef
  | trySwap
  | tryTestRefAgain
  | tryClear
  -- `exclusive_lock`, with the wait for the shared references
  | exclSwap
  | exclPause
  | exclWaitUid
  | exclWaitRef
  | exclWaitPause
  | exclClear (err : Ret)
  -- `exclusive_unlock`
  | unlockTest
  | unlockClear
  -- `share2exclusive_lock`, with the value of `uid_` it read
  | upRead
  | upSwap (curUid : BitVec 32)
  | upPause
  | upDel (curUid : BitVec 32)
  | upWaitUid (curUid : BitVec 32)
  | upWaitRef (curUid : BitVec 32)
  | upWaitPause (curUid : BitVec 32)
  | upAdd (curUid : BitVec 32) (err : Ret)
  | upRestore (curUid : BitVec 32) (err : Ret)
  -- `exclusive2shared_lock`
  | downAdd
  | downTest
  | downClear
  | downDel
  deriving DecidableEq, Repr

/-- A session of the lock: where it stands, the references it has in `n_ref_`, whether its mark
is in `uid_`, both of these as they were when its last call began, and what its last call
returned. -/
structure Session where
  pc : Pc
  refs : Nat
  mark : Bool
  entry : Nat × Bool
  last : Option Ret
  deriving DecidableEq, Repr

namespace Session

def init : Session := ⟨.idle, 0, false, (0, false), none⟩

/-- Go on at `pc`. -/
def goto (σ : Session) (pc : Pc) : Session := { σ with pc := pc }

def done (σ : Session) (ret : Ret) : Session := { σ with pc := .idle, last := some ret }

def addRef (σ : Session) : Session := { σ with refs := σ.refs + 1 }

def delRef (σ : Session) : Session := { σ with refs := σ.refs - 1 }

/-- The session's mark is in `uid_`, or is not. -/
def setMark (σ : Session) (mark : Bool) : Session := { σ with mark := mark }

end Session

/-- The next atomic step of a session with user id `uid`; `timeout` is what `is_timeout` answers
if this step asks it. -/
def advance (uid : BitVec 32) (timeout : Bool) (w : Words) (σ : Session) : Words × Session :=
  match σ.pc with
  | .idle => (w, σ)
  | .sharedTest =>
    if w.uid &&& exclusiveBit ≠ 0 then (w, σ.goto .sharedPause) else (w, σ.goto .sharedAdd)
  | .sharedAdd => (w.addSharedRef, σ.addRef.goto .sharedTestAgain)
  | .sharedTestAgain =>
    if w.uid &&& exclusiveBit ≠ 0 then (w, σ.goto .sharedDel) else (w, σ.done .success)
  | .sharedDel => (w.delSharedRef, σ.delRef.goto .sharedPause)
  | .sharedPause => if timeout then (w, σ.done .eAgain) else (w, σ.goto .sharedTest)
  | .unshareDel => (w.delSharedRef, σ.delRef.done .success)
  | .tryTestRef => if w.nRef ≠ 0 then (w, σ.done .eAgain) else (w, σ.goto .trySwap)
  | .trySwap =>
    if w.uid = 0 then
      ({ w with uid := uid ||| exclusiveBit }, (σ.setMark true).goto .tryTestRefAgain)
    else (w, σ.done .eAgain)
  | .tryTestRefAgain => if w.nRef ≠ 0 then (w, σ.goto .tryClear) else (w, σ.done .success)
  | .tryClear => ({ w with uid := 0 }, (σ.setMark false).done .eAgain)
  | .exclSwap =>
    if w.uid = 0 then
      ({ w with uid := uid ||| exclusiveBit }, (σ.setMark true).goto .exclWaitUid)
    else (w, σ.goto .exclPause)
  | .exclPause => if timeout then (w, σ.done .eAgain) else (w, σ.goto .exclSwap)
  | .exclWaitUid =>
    if w.uid &&& uidMask ≠ uid then (w, σ.goto (.exclClear .lockNotMatch))
    else (w, σ.goto .exclWaitRef)
  | .exclWaitRef => if w.nRef ≠ 0 then (w, σ.goto .exclWaitPause) else (w, σ.done .success)
  | .exclWaitPause =>
    if timeout then (w, σ.goto (.exclClear .eAgain)) else (w, σ.goto .exclWaitUid)
  | .exclClear err => ({ w with uid := 0 }, (σ.setMark false).done err)
  | .unlockTest =>
    if w.uid &&& ~~~uidMask = 0 ∨ w.uid &&& uidMask ≠ uid then (w, σ.done .lockNotMatch)
    else (w, σ.goto .unlockClear)
  | .unlockClear => ({ w with uid := 0 }, (σ.setMark false).done .success)
  | .upRead =>
    if w.uid ≠ 0 ∧ w.uid ≠ uid then (w, σ.done .deadLock) else (w, σ.goto (.upSwap w.uid))
  | .upSwap curUid =>
    if w.uid = curUid then
      ({ w with uid := uid ||| exclusiveBit }, (σ.setMark true).goto (.upDel curUid))
    else (w, σ.goto .upPause)
  | .upPause => if timeout then (w, σ.done .eAgain) else (w, σ.goto .upRead)
  | .upDel curUid => (w.delSharedRef, σ.delRef.goto (.upWaitUid curUid))
  | .upWaitUid curUid =>
    if w.uid &&& uidMask ≠ uid then (w, σ.goto (.upAdd curUid .lockNotMatch))
    else (w, σ.goto (.upWaitRef curUid))
  | .upWaitRef curUid =>
    if w.nRef ≠ 0 then (w, σ.goto (.upWaitPause curUid)) else (w, σ.done .success)
  | .upWaitPause curUid =>
    if timeout then (w, σ.goto (.upAdd curUid .eAgain)) else (w, σ.goto (.upWaitUid curUid))
  | .upAdd curUid err => (w.addSharedRef, σ.addRef.goto (.upRestore curUid err))
  | .upRestore curUid err => ({ w with uid := curUid }, (σ.setMark false).done err)
  | .downAdd => (w.addSharedRef, σ.addRef.goto .downTest)
  | .downTest =>
    if w.uid &&& ~~~uidMask = 0 ∨ w.uid &&& uidMask ≠ uid then (w, σ.goto .downDel)
    else (w, σ.goto .downClear)
  | .downClear => ({ w with uid := 0 }, (σ.setMark false).done .success)
  | .downDel => (w.delSharedRef, σ.delRef.done .lockNotMatch)

/-- A session enters a call. A session only releases what it holds; a user id that does not fit
under `UID_MASK` is refused before the lock is touched. -/
def enter (uid : BitVec 32) (σ : Session) (call : Call) : Option Session :=
  if σ.pc ≠ .idle then none
  else
    let σ := { σ with entry := (σ.refs, σ.mark), last := none }
    match call with
    | .sharedLock => some (σ.goto .sharedTest)
    | .sharedUnlock => if 0 < σ.refs then some (σ.goto .unshareDel) else none
    | .tryExclusiveLock =>
      if uid &&& ~~~uidMask ≠ 0 then some (σ.done .invalidArgument)
      else some (σ.goto .tryTestRef)
    | .exclusiveLock =>
      if uid &&& ~~~uidMask ≠ 0 ∨ uid = 0 then some (σ.done .invalidArgument)
      else some (σ.goto .exclSwap)
    | .exclusiveUnlock => if σ.mark then some (σ.goto .unlockTest) else none
    | .share2exclusiveLock =>
      if 0 < σ.refs then
        if uid &&& ~~~uidMask ≠ 0 ∨ uid = 0 then some (σ.done .invalidArgument)
        else some (σ.goto .upRead)
      else none
    | .exclusive2sharedLock => if σ.mark then some (σ.goto .downAdd) else none

structure State (θ : Type*) where
  words : Words
  session : θ → Session

/-- A session enters a call or executes its next atomic step. -/
inductive Action (θ : Type*) where
  | enter (t : θ) (call : Call)
  | advance (t : θ) (timeout : Bool)

def Action.actor {θ : Type*} : Action θ → θ
  | .enter t _ => t
  | .advance t _ => t

variable {θ : Type*} [DecidableEq θ] (uid : θ → BitVec 32) {w : Words} {σ : Session} {s : State θ}
    {t : θ} {call : Call}

section Step

def State.init : State θ := ⟨⟨0, 0⟩, fun _ => Session.init⟩

def step (s : State θ) : Action θ → Option (State θ)
  | .enter t call =>
    (enter (uid t) (s.session t) call).map fun σ =>
      { s with session := update s.session t σ }
  | .advance t timeout =>
    let r := advance (uid t) timeout s.words (s.session t)
    some ⟨r.1, update s.session t r.2⟩

end Step

/-! ### What a session holds -/

/-- The call is between setting its mark and returning: it is waiting for the lock, or giving
up. -/
def Pc.acquiring : Pc → Bool
  | .tryTestRefAgain | .tryClear | .exclWaitUid | .exclWaitRef | .exclWaitPause | .exclClear _
  | .upDel _ | .upWaitUid _ | .upWaitRef _ | .upWaitPause _ | .upAdd _ _ | .upRestore _ _ => true
  | _ => false

/-- The session holds the lock **exclusively**: its mark is in `uid_` and it does not wait. -/
def Session.holdsExclusive (σ : Session) : Bool := σ.mark && !σ.pc.acquiring

/-- How many times the session holds the lock **shared**: its references, without the one that
`try_shared_lock` has added but not confirmed. -/
def Session.heldShared (σ : Session) : Nat :=
  match σ.pc with
  | .sharedTestAgain | .sharedDel => σ.refs - 1
  | _ => σ.refs

/-! ### One session -/

/-- What a session's own record says at each point of a call, compared with the record when the
call began. -/
def Local (uid : BitVec 32) (σ : Session) : Prop :=
  match σ.pc with
  | .idle => ∀ ret, σ.last = some ret → ret ≠ .success →
      σ.refs = σ.entry.1 ∧ σ.mark = σ.entry.2
  | .sharedTest | .sharedAdd | .sharedPause => σ.refs = σ.entry.1 ∧ σ.mark = σ.entry.2
  | .sharedTestAgain | .sharedDel => σ.refs = σ.entry.1 + 1 ∧ σ.mark = σ.entry.2
  | .unshareDel => (σ.refs = σ.entry.1 ∧ σ.mark = σ.entry.2) ∧ 0 < σ.refs
  | .tryTestRef | .trySwap | .exclSwap | .exclPause =>
    (σ.refs = σ.entry.1 ∧ σ.mark = σ.entry.2) ∧ uid &&& exclusiveBit = 0
  | .tryTestRefAgain | .tryClear | .exclWaitUid | .exclWaitRef | .exclWaitPause | .exclClear _ =>
    σ.refs = σ.entry.1 ∧ σ.mark = true ∧ σ.entry.2 = false
  | .unlockTest | .unlockClear | .downAdd =>
    (σ.refs = σ.entry.1 ∧ σ.mark = σ.entry.2) ∧ σ.mark = true
  | .upRead | .upPause =>
    (σ.refs = σ.entry.1 ∧ σ.mark = σ.entry.2) ∧ 0 < σ.refs ∧ uid &&& exclusiveBit = 0
  | .upSwap curUid =>
    (σ.refs = σ.entry.1 ∧ σ.mark = σ.entry.2) ∧ 0 < σ.refs ∧ uid &&& exclusiveBit = 0 ∧ curUid = 0
  | .upDel curUid =>
    σ.refs = σ.entry.1 ∧ 0 < σ.refs ∧ σ.mark = true ∧ σ.entry.2 = false ∧ curUid = 0
  | .upWaitUid curUid | .upWaitRef curUid | .upWaitPause curUid | .upAdd curUid _ =>
    σ.refs + 1 = σ.entry.1 ∧ σ.mark = true ∧ σ.entry.2 = false ∧ curUid = 0
  | .upRestore curUid _ =>
    σ.refs = σ.entry.1 ∧ σ.mark = true ∧ σ.entry.2 = false ∧ curUid = 0
  | .downTest | .downClear | .downDel =>
    (σ.refs = σ.entry.1 + 1 ∧ σ.mark = σ.entry.2) ∧ σ.mark = true

/-- All a step of a session does to the two words and to the session's share in them. -/
inductive Effect (uid : BitVec 32) (w : Words) (σ : Session) : Words → Session → Prop
  | quiet {σ'} : σ'.refs = σ.refs → σ'.mark = σ.mark → Effect uid w σ w σ'
  | add {σ'} : σ'.refs = σ.refs + 1 → σ'.mark = σ.mark → Effect uid w σ w.addSharedRef σ'
  | del {σ'} : σ.refs = σ'.refs + 1 → σ'.mark = σ.mark → Effect uid w σ w.delSharedRef σ'
  | set {σ'} : w.uid = 0 → σ'.refs = σ.refs → σ'.mark = true →
      Effect uid w σ { w with uid := uid ||| exclusiveBit } σ'
  | clear {σ'} : σ.mark = true → σ'.refs = σ.refs → σ'.mark = false →
      Effect uid w σ { w with uid := 0 } σ'

theorem not_uidMask : ~~~uidMask = exclusiveBit := by decide

section Advance

variable {uid : BitVec 32}

variable (timeout : Bool)

theorem advance_effect (hl : Local uid σ) :
    Effect uid w σ (advance uid timeout w σ).1 (advance uid timeout w σ).2 := by
  unfold Local at hl
  cases hpc : σ.pc <;> simp only [hpc] at hl <;> simp [advance, hpc]
  case sharedAdd | upAdd | downAdd => exact .add rfl rfl
  case sharedDel | unshareDel | upDel | downDel =>
    exact .del (by simp only [Session.delRef, Session.goto, Session.done]; omega) rfl
  case trySwap | exclSwap =>
    split
    · next hfree => exact .set hfree rfl rfl
    · exact .quiet rfl rfl
  case upSwap =>
    obtain ⟨-, -, -, rfl⟩ := hl
    split
    · next hfree => exact .set hfree rfl rfl
    · exact .quiet rfl rfl
  case tryClear | exclClear => exact .clear hl.2.1 rfl rfl
  case unlockClear | downClear => exact .clear hl.2 rfl rfl
  case upRestore =>
    obtain ⟨-, hmark, -, rfl⟩ := hl
    exact .clear hmark rfl rfl
  case idle => exact .quiet rfl rfl
  all_goals split <;> exact .quiet rfl rfl

theorem local_done_success : Local uid (σ.done .success) :=
  fun _ hlast hne => absurd (some.inj hlast).symm hne

theorem local_done {ret : Ret} (h : σ.refs = σ.entry.1 ∧ σ.mark = σ.entry.2) :
    Local uid (σ.done ret) :=
  fun _ _ _ => h

/-- A call that has not returned keeps to `Local`, and a call that returns an error has put
back what it found. The word `uid_` is free or carries the exclusive bit, and is not free while
the session's mark is in it. -/
theorem advance_local (hl : Local uid σ)
    (hword : w.uid = 0 ∨ w.uid &&& exclusiveBit ≠ 0) (hmark : σ.mark = true → w.uid ≠ 0) :
    Local uid (advance uid timeout w σ).2 := by
  have hfresh : w.uid = 0 → σ.mark = false := fun h => by simpa [h] using hmark
  unfold Local at hl
  cases hpc : σ.pc <;> simp only [hpc] at hl <;> simp only [advance, hpc]
  case idle => simpa [Local, hpc] using hl
  case sharedTest | exclWaitUid | exclWaitPause | upWaitUid | upWaitPause | downTest =>
    split <;> exact hl
  case sharedPause =>
    split
    · exact local_done hl
    · exact hl
  case tryTestRef | exclPause | unlockTest | upPause =>
    split
    · exact local_done hl.1
    · exact hl
  case sharedTestAgain | tryTestRefAgain | exclWaitRef | upWaitRef =>
    split
    · exact hl
    · exact local_done_success
  case unshareDel | unlockClear | downClear => exact local_done_success
  case sharedAdd => exact ⟨congrArg (· + 1) hl.1, hl.2⟩
  case downAdd => exact ⟨⟨congrArg (· + 1) hl.1.1, hl.1.2⟩, hl.2⟩
  case upAdd => exact hl
  case sharedDel => exact ⟨by simp only [Session.delRef, Session.goto]; omega, hl.2⟩
  case upDel => exact ⟨by simp only [Session.delRef, Session.goto]; omega, hl.2.2⟩
  case downDel => exact local_done ⟨by simp only [Session.delRef]; omega, hl.1.2⟩
  case tryClear | exclClear => exact local_done ⟨hl.1, hl.2.2.symm⟩
  case upRestore => exact local_done ⟨hl.1, hl.2.2.1.symm⟩
  case trySwap =>
    split
    · next hfree => exact ⟨hl.1.1, rfl, hl.1.2.symm.trans (hfresh hfree)⟩
    · exact local_done hl.1
  case exclSwap =>
    split
    · next hfree => exact ⟨hl.1.1, rfl, hl.1.2.symm.trans (hfresh hfree)⟩
    · exact hl
  case upRead =>
    split
    · exact local_done hl.1
    · next hfree =>
      have hzero : w.uid = 0 := by
        by_contra hne
        have heq : w.uid = uid := by_contra fun h => hfree ⟨hne, h⟩
        exact hword.elim hne fun h => h (heq ▸ hl.2.2)
      exact ⟨hl.1, hl.2.1, hl.2.2, hzero⟩
  case upSwap =>
    obtain ⟨hsame, hpos, huid, rfl⟩ := hl
    split
    · next hfree => exact ⟨hsame.1, hpos, rfl, hsame.2.symm.trans (hfresh hfree), rfl⟩
    · exact ⟨hsame, hpos, huid⟩

/-- A session becomes the exclusive holder only by finding no reference. -/
theorem advance_holdsExclusive
    (h : (advance uid timeout w σ).2.holdsExclusive = true) :
    σ.holdsExclusive = true ∨ w.nRef = 0 := by
  cases hpc : σ.pc <;> simp only [advance, hpc] at h
  case idle => exact .inl h
  case tryTestRefAgain | exclWaitRef | upWaitRef =>
    split at h
    · simp [Session.holdsExclusive, Session.goto, Pc.acquiring] at h
    · next hnone => exact .inr (not_not.1 hnone)
  all_goals
    try split at h
    all_goals
      simp only [Session.holdsExclusive, Session.goto, Session.done, Session.setMark,
        Session.addRef, Session.delRef, Pc.acquiring, hpc, Bool.not_true, Bool.not_false,
        Bool.and_true, Bool.and_false, Bool.false_eq_true] at h ⊢
      try exact .inl h

/-- A session becomes a shared holder only by finding no mark, or while its own mark is set. -/
theorem advance_heldShared (hl : Local uid σ) :
    (advance uid timeout w σ).2.heldShared ≤ σ.heldShared ∨ w.uid &&& exclusiveBit = 0 ∨
      σ.mark = true := by
  unfold Local at hl
  cases hpc : σ.pc <;> simp only [hpc] at hl <;> simp only [advance, hpc]
  case idle => exact .inl le_rfl
  case sharedTestAgain =>
    split
    · exact .inl (by simp [Session.heldShared, Session.goto, hpc])
    · next hfree => exact .inr (.inl (not_not.1 hfree))
  case upAdd => exact .inr (.inr hl.2.1)
  case downAdd => exact .inr (.inr hl.2)
  all_goals
    try split
    all_goals
      exact .inl (by simp [Session.heldShared, Session.goto, Session.done, Session.setMark,
        Session.addRef, Session.delRef, hpc])

end Advance

theorem enter_spec {uid : BitVec 32} {σ' : Session} (h : enter uid σ call = some σ') :
    σ'.refs = σ.refs ∧ σ'.mark = σ.mark ∧ Local uid σ' ∧
      (σ'.holdsExclusive = true → σ.holdsExclusive = true) ∧ σ'.heldShared ≤ σ.heldShared := by
  unfold enter at h
  split at h
  · cases h
  · next hidle =>
    cases call <;> simp only at h
    all_goals
      repeat' split at h
    all_goals first
    | cases h; done
    | cases h
      simp_all [Local, Session.goto, Session.done, Session.holdsExclusive, Session.heldShared,
        Pc.acquiring, not_uidMask]

/-! ### All sessions -/

variable {uid}

section Invariant

/-- `m` lists every session as often as it has references in `n_ref_`. -/
def Counts (s : State θ) (m : Multiset θ) : Prop := ∀ t, m.count t = (s.session t).refs

variable (uid s) in
/-- The two words say what the records of the sessions say. -/
structure Consistent : Prop where
  nRef_eq : ∃ m : Multiset θ, Counts s m ∧ s.words.nRef = BitVec.ofNat 32 m.card
  uid_eq : ∃ owner : Option θ, (∀ t, (s.session t).mark = true ↔ owner = some t) ∧
    s.words.uid = owner.elim 0 fun t => uid t ||| exclusiveBit

theorem or_and_exclusiveBit (u : BitVec 32) : (u ||| exclusiveBit) &&& exclusiveBit ≠ 0 := by
  intro h
  have hbit := congrArg (fun v => v.getLsbD 31) h
  have hexcl : exclusiveBit.getLsbD 31 = true := by decide
  simp only [getLsbD_and, getLsbD_or, hexcl, Bool.or_true, Bool.and_true] at hbit
  exact absurd hbit (by decide)

theorem Consistent.word (hc : Consistent uid s) :
    s.words.uid = 0 ∨ s.words.uid &&& exclusiveBit ≠ 0 := by
  obtain ⟨owner, -, hword⟩ := hc.uid_eq
  rw [hword]
  rcases owner with _ | t
  · exact .inl rfl
  · exact .inr (or_and_exclusiveBit _)

theorem Consistent.exclusiveBit_ne_zero (hc : Consistent uid s) (h : (s.session t).mark = true) :
    s.words.uid &&& exclusiveBit ≠ 0 := by
  obtain ⟨owner, howner, hword⟩ := hc.uid_eq
  rw [hword, (howner t).1 h]
  exact or_and_exclusiveBit _

theorem Consistent.one_mark (hc : Consistent uid s) {u : θ} (ht : (s.session t).mark = true)
    (hu : (s.session u).mark = true) : t = u := by
  obtain ⟨owner, howner, -⟩ := hc.uid_eq
  exact some.inj (((howner t).1 ht).symm.trans ((howner u).1 hu))

variable {m : Multiset θ}

theorem counts_update {m' : Multiset θ} (hm : Counts s m)
    (hother : ∀ u, u ≠ t → m'.count u = m.count u) (hself : m'.count t = σ.refs) :
    Counts ⟨w, update s.session t σ⟩ m' := by
  intro u
  by_cases hut : u = t
  · subst hut
    simpa using hself
  · simpa [hut, ← hm u] using hother u hut

/-- The reference count follows the sessions through every step, one reference at a time. -/
theorem counts_effect (hm : Counts s m) (he : Effect (uid t) s.words (s.session t) w σ) :
    ∃ m' : Multiset θ, Counts ⟨w, update s.session t σ⟩ m' ∧ m'.card ≤ m.card + 1 ∧
      (s.words.nRef = BitVec.ofNat 32 m.card → w.nRef = BitVec.ofNat 32 m'.card) := by
  have hsame : σ.refs = (s.session t).refs → Counts ⟨w, update s.session t σ⟩ m :=
    fun hrefs => counts_update hm (fun _ _ => rfl) ((hm t).trans hrefs.symm)
  cases he with
  | quiet hrefs _ | set _ hrefs _ | clear _ hrefs _ => exact ⟨m, hsame hrefs, Nat.le_succ _, id⟩
  | add hrefs _ =>
    refine ⟨t ::ₘ m, counts_update hm (fun u hu => ?_) ?_, ?_, fun hn => ?_⟩
    · exact count_cons_of_ne hu m
    · rw [count_cons_self, hm t, hrefs]
    · rw [card_cons]
    · rw [card_cons, ofNat_add, ← hn]
      rfl
  | del hrefs _ =>
    have hmem : t ∈ m := by
      rw [← one_le_count_iff_mem, hm t]
      omega
    have hcard : m.card = (m.erase t).card + 1 := by
      rw [← card_cons t, cons_erase hmem]
    refine ⟨m.erase t, counts_update hm (fun u hu => ?_) ?_, by omega, fun hn => ?_⟩
    · exact count_erase_of_ne hu m
    · rw [count_erase_self, hm t, hrefs, Nat.add_sub_cancel]
    have hback : s.words.nRef = BitVec.ofNat 32 (m.erase t).card + 1 := by
      rw [hn, hcard, ofNat_add]
      rfl
    rw [Words.delSharedRef, hback]
    exact BitVec.add_sub_cancel _ _

theorem Consistent.uid_effect (hc : Consistent uid s)
    (he : Effect (uid t) s.words (s.session t) w σ) :
    ∃ owner : Option θ, (∀ u, (update s.session t σ u).mark = true ↔ owner = some u) ∧
      w.uid = owner.elim 0 fun t => uid t ||| exclusiveBit := by
  obtain ⟨owner, howner, hword⟩ := hc.uid_eq
  have hsame : σ.mark = (s.session t).mark →
      ∀ u, (update s.session t σ u).mark = true ↔ owner = some u := by
    intro hmark
    exact (forall_update_iff s.session fun u σ => σ.mark = true ↔ owner = some u).2
      ⟨hmark ▸ howner t, fun u _ => howner u⟩
  cases he with
  | quiet _ hmark | add _ hmark | del _ hmark => exact ⟨owner, hsame hmark, hword⟩
  | set hfree _ hmark =>
    have hnone : ∀ u, ¬ (s.session u).mark = true := fun u hu =>
      hc.exclusiveBit_ne_zero hu (by rw [hfree]; exact zero_and)
    refine ⟨some t, fun u => ?_, rfl⟩
    by_cases hut : u = t
    · subst hut
      simpa using hmark
    · simp [hut, hnone u, Ne.symm hut]
  | clear hwas _ hmark =>
    refine ⟨none, fun u => ?_, rfl⟩
    by_cases hut : u = t
    · subst hut
      simpa using hmark
    · have hnot : ¬ (s.session u).mark = true := fun hu => hut (hc.one_mark hu hwas)
      simp [hut, hnot]

theorem Consistent.effect (hc : Consistent uid s) (he : Effect (uid t) s.words (s.session t) w σ) :
    Consistent uid ⟨w, update s.session t σ⟩ := by
  obtain ⟨m, hm, hn⟩ := hc.nRef_eq
  obtain ⟨m', hm', -, hn'⟩ := counts_effect hm he
  exact ⟨⟨m', hm', hn' hn⟩, hc.uid_effect he⟩

variable (uid s) in
/-- The invariant: the words are `Consistent`, every session is `Local`, and an exclusive
holder is alone. -/
structure Inv : Prop where
  consistent : Consistent uid s
  sessions : ∀ t, Local (uid t) (s.session t)
  alone : ∀ t u, (s.session t).holdsExclusive = true → u ≠ t → (s.session u).heldShared = 0

variable (s) in
/-- Fewer than `2 ^ 32` references are outstanding. -/
def FewRefs : Prop := ∀ m : Multiset θ, Counts s m → m.card < 2 ^ 32

theorem Session.heldShared_le (σ : Session) : σ.heldShared ≤ σ.refs := by
  unfold Session.heldShared
  split <;> omega

/-- While fewer than `2 ^ 32` references are outstanding, a zero count means that nobody has
one. -/
theorem Consistent.refs_eq_zero (hc : Consistent uid s) (hfew : FewRefs s)
    (h : s.words.nRef = 0) (u : θ) : (s.session u).refs = 0 := by
  obtain ⟨m, hm, hn⟩ := hc.nRef_eq
  have hcard : m.card = 0 := by
    have hmod := congrArg BitVec.toNat (hn.symm.trans h)
    rwa [toNat_ofNat, Nat.mod_eq_of_lt (hfew m hm)] at hmod
  rw [← hm u, card_eq_zero.1 hcard, count_zero]

theorem inv_init : Inv uid (State.init : State θ) := by
  refine ⟨⟨⟨0, fun t => rfl, rfl⟩, ⟨none, fun t => by simp [State.init, Session.init], rfl⟩⟩,
    fun t => ?_, fun t u h => ?_⟩
  · simp [Local, State.init, Session.init]
  · simp [State.init, Session.init, Session.holdsExclusive] at h

/-- A step of session `t` keeps an exclusive holder alone: `t` becomes the holder only when no
reference is left, and a shared holder only when there is no holder but itself. -/
theorem Inv.alone_update (hi : Inv uid s)
    (hexcl : σ.holdsExclusive = true →
      (s.session t).holdsExclusive = true ∨ ∀ u, (s.session u).refs = 0)
    (hshared : σ.heldShared ≤ (s.session t).heldShared ∨ s.words.uid &&& exclusiveBit = 0 ∨
      (s.session t).mark = true) (v u : θ)
    (hv : (update s.session t σ v).holdsExclusive = true) (huv : u ≠ v) :
    (update s.session t σ u).heldShared = 0 := by
  by_cases hvt : v = t
  · subst hvt
    rw [update_self] at hv
    rw [update_of_ne huv]
    rcases hexcl hv with hheld | hnone
    · exact hi.alone v u hheld huv
    have := (s.session u).heldShared_le
    have := hnone u
    omega
  rw [update_of_ne hvt] at hv
  have hmark : (s.session v).mark = true := by
    simp only [Session.holdsExclusive, Bool.and_eq_true] at hv
    exact hv.1
  by_cases hut : u = t
  · subst hut
    rw [update_self]
    rcases hshared with hle | hfree | hown
    · have := hi.alone v u hv huv
      omega
    · exact absurd hfree (hi.consistent.exclusiveBit_ne_zero hmark)
    · exact absurd (hi.consistent.one_mark hown hmark) huv
  · rw [update_of_ne hut]
    exact hi.alone v u hv huv

theorem Inv.sessions_update (hi : Inv uid s) (hσ : Local (uid t) σ) :
    ∀ u, Local (uid u) (update s.session t σ u) :=
  (forall_update_iff s.session fun u => Local (uid u)).2 ⟨hσ, fun u _ => hi.sessions u⟩

variable {s' : State θ} {a : Action θ}

theorem step_effect (hi : Inv uid s)
    (h : step uid s a = some s') : ∃ w σ, Effect (uid a.actor) s.words (s.session a.actor) w σ ∧
      s' = ⟨w, update s.session a.actor σ⟩ := by
  cases a with
  | enter t call =>
    simp only [step, map_eq_some_iff] at h
    obtain ⟨σ, hσ, rfl⟩ := h
    obtain ⟨hrefs, hmark, -⟩ := enter_spec hσ
    exact ⟨_, σ, .quiet hrefs hmark, rfl⟩
  | advance t timeout =>
    simp only [step, some.injEq] at h
    exact ⟨_, _, advance_effect timeout (hi.sessions t), h.symm⟩

theorem inv_step (hi : Inv uid s) (hfew : FewRefs s) (h : step uid s a = some s') : Inv uid s' := by
  cases a with
  | enter t call =>
    simp only [step, map_eq_some_iff] at h
    obtain ⟨σ, hσ, rfl⟩ := h
    obtain ⟨hrefs, hmark, hlocal, hexcl, hshared⟩ := enter_spec hσ
    exact ⟨hi.consistent.effect (.quiet hrefs hmark), hi.sessions_update hlocal,
      hi.alone_update (fun h => .inl (hexcl h)) (.inl hshared)⟩
  | advance t timeout =>
    simp only [step, some.injEq] at h
    subst h
    have hlocal := hi.sessions t
    have hword : (s.session t).mark = true → s.words.uid ≠ 0 := by
      intro hmark hzero
      exact hi.consistent.exclusiveBit_ne_zero hmark (by rw [hzero]; exact zero_and)
    refine ⟨hi.consistent.effect (advance_effect timeout hlocal),
      hi.sessions_update (advance_local timeout hlocal hi.consistent.word hword),
      hi.alone_update (fun h => ?_) (advance_heldShared timeout hlocal)⟩
    exact (advance_holdsExclusive timeout h).imp_right (hi.consistent.refs_eq_zero hfew)

variable (uid s) in
/-- What the lock promises in state `s`. -/
structure Safe : Prop where
  /-- At most one session holds the lock exclusively. -/
  one_exclusive : ∀ t u, (s.session t).holdsExclusive = true →
    (s.session u).holdsExclusive = true → t = u
  /-- While a session does, no other session holds it shared. -/
  exclusive_alone : ∀ t u, (s.session t).holdsExclusive = true → u ≠ t →
    (s.session u).heldShared = 0
  /-- A session whose call has failed has the references and the mark it had when the call
  began. -/
  failure_restores : ∀ t ret, (s.session t).pc = .idle → (s.session t).last = some ret →
    ret ≠ .success → (s.session t).refs = (s.session t).entry.1 ∧
      (s.session t).mark = (s.session t).entry.2
  /-- The words of the lock are what the references and marks of the sessions amount to. -/
  consistent : Consistent uid s
  /-- No step of one session changes the references or the mark of another. -/
  others_kept : ∀ a s', step uid s a = some s' → ∀ u, u ≠ a.actor →
    s'.session u = s.session u

theorem step_other (h : step uid s a = some s') {u : θ}
    (hu : u ≠ a.actor) : s'.session u = s.session u := by
  cases a with
  | enter t call =>
    simp only [step, map_eq_some_iff] at h
    obtain ⟨σ, -, rfl⟩ := h
    exact update_of_ne hu _ _
  | advance t timeout =>
    simp only [step, some.injEq] at h
    subst h
    exact update_of_ne hu _ _

theorem Inv.safe (hi : Inv uid s) : Safe uid s where
  one_exclusive t u ht hu := by
    simp only [Session.holdsExclusive, Bool.and_eq_true] at ht hu
    exact hi.consistent.one_mark ht.1 hu.1
  exclusive_alone := hi.alone
  failure_restores t ret hidle hlast hne := by
    have hlocal := hi.sessions t
    simp only [Local, hidle] at hlocal
    exact hlocal ret hlast hne
  consistent := hi.consistent
  others_kept _ _ h _ hu := step_other h hu

/-- **In every interleaving in which fewer than `2 ^ 32` shared references are outstanding
before each step, the lock keeps its promises**: one exclusive holder, alone, and failed calls
without a trace. -/
theorem mutualExclusion_of_run {as : List (Action θ)} (hrun : run (step uid) State.init as = some s)
    (hfew : Meets (step uid) (fun s _ => FewRefs s) State.init as) : Safe uid s :=
  (run_invariant_of_meets (fun _ _ _ => inv_step) inv_init hfew hrun).safe

/-- A run of fewer than `2 ^ 32` steps never has `2 ^ 32` references outstanding: every step adds
at most one. -/
theorem meets_fewRefs {as : List (Action θ)} (hi : Inv uid s)
    (hm : Counts s m) (hlen : m.card + as.length < 2 ^ 32) :
    Meets (step uid) (fun s _ => FewRefs s) s as := by
  induction as generalizing s m with
  | nil => trivial
  | cons a as ih =>
    rw [List.length_cons] at hlen
    have hfew : FewRefs s := by
      intro m' hm'
      have heq : m' = m := ext.2 fun t => (hm' t).trans (hm t).symm
      rw [heq]
      omega
    refine ⟨hfew, fun s' h => ?_⟩
    obtain ⟨w, σ, heffect, rfl⟩ := step_effect hi h
    obtain ⟨m', hm', hle, -⟩ := counts_effect hm heffect
    exact ih (inv_step hi hfew h) hm' (by omega)

/-- A session that takes the lock shared and one that then waits for it in vain. -/
def sharedThenTimeout : List (Action Bool) :=
  [.enter false .sharedLock, .advance false false, .advance false false, .advance false false,
    .enter true .exclusiveLock, .advance true false, .advance true false, .advance true false,
    .advance true true, .advance true false]

theorem mutualExclusion_of_run_sharedThenTimeout :
    ∃ s, run (step fun _ => 1) State.init sharedThenTimeout = some s ∧
      Meets (step fun _ => 1) (fun s _ => FewRefs s) State.init sharedThenTimeout ∧
      (s.session true).last = some .eAgain ∧ (s.session false).heldShared = 1 ∧
      Safe (fun _ => 1) s :=
  have hfew : Meets (step fun _ => 1) (fun s _ => FewRefs s) State.init sharedThenTimeout :=
    meets_fewRefs (m := 0) inv_init (fun _ => rfl) (by decide)
  ⟨_, rfl, hfew, rfl, rfl, mutualExclusion_of_run rfl hfew⟩

end Invariant

/-! ### The count wraps -/

section Wrap

theorem run_enter (h : enter (uid t) (s.session t) call = some σ) (as : List (Action θ)) :
    run (step uid) s (.enter t call :: as) =
      run (step uid) ⟨s.words, update s.session t σ⟩ as := by
  simp [run, step, h, map_some, bind_some]

theorem run_advance {w w' : Words} {σ' : Session} {timeout : Bool}
    (h : advance (uid t) timeout w σ = (w', σ')) (f : θ → Session) (as : List (Action θ)) :
    run (step uid) ⟨w, update f t σ⟩ (.advance t timeout :: as) =
      run (step uid) ⟨w', update f t σ'⟩ as := by
  simp [run, step, update_self, update_idem, bind_some, h]

theorem run_sharedLock (hinit : s.session t = Session.init) (hfree : s.words.uid = 0) :
    run (step uid) s
        [.enter t .sharedLock, .advance t false, .advance t false, .advance t false] =
      some ⟨s.words.addSharedRef,
        update s.session t ⟨.idle, 1, false, (0, false), some .success⟩⟩ := by
  have henter : enter (uid t) (s.session t) .sharedLock =
      some ⟨.sharedTest, 0, false, (0, false), none⟩ := by
    rw [hinit]
    rfl
  have hunmarked : ¬ s.words.uid &&& exclusiveBit ≠ 0 := by simp [hfree]
  have htest : advance (uid t) false s.words ⟨.sharedTest, 0, false, (0, false), none⟩ =
      (s.words, ⟨.sharedAdd, 0, false, (0, false), none⟩) := if_neg hunmarked
  have hadd : advance (uid t) false s.words ⟨.sharedAdd, 0, false, (0, false), none⟩ =
      (s.words.addSharedRef, ⟨.sharedTestAgain, 1, false, (0, false), none⟩) := rfl
  have htestAgain : advance (uid t) false s.words.addSharedRef
        ⟨.sharedTestAgain, 1, false, (0, false), none⟩ =
      (s.words.addSharedRef, ⟨.idle, 1, false, (0, false), some .success⟩) := if_neg hunmarked
  rw [run_enter henter, run_advance htest, run_advance hadd, run_advance htestAgain]
  rfl

theorem run_exclusiveLock (hinit : s.session t = Session.init) (hwords : s.words = ⟨0, 0⟩)
    (huid : uid t = 1) :
    run (step uid) s
        [.enter t .exclusiveLock, .advance t false, .advance t false, .advance t false] =
      some ⟨⟨0, 1 ||| exclusiveBit⟩,
        update s.session t ⟨.idle, 0, true, (0, false), some .success⟩⟩ := by
  have henter : enter (uid t) (s.session t) .exclusiveLock =
      some ⟨.exclSwap, 0, false, (0, false), none⟩ := by
    rw [hinit, huid]
    rfl
  have hswap : advance (uid t) false ⟨0, 0⟩ ⟨.exclSwap, 0, false, (0, false), none⟩ =
      (⟨0, 1 ||| exclusiveBit⟩, ⟨.exclWaitUid, 0, true, (0, false), none⟩) := by
    rw [huid]
    rfl
  have hwaitUid : advance (uid t) false ⟨0, 1 ||| exclusiveBit⟩
        ⟨.exclWaitUid, 0, true, (0, false), none⟩ =
      (⟨0, 1 ||| exclusiveBit⟩, ⟨.exclWaitRef, 0, true, (0, false), none⟩) := by
    rw [huid]
    rfl
  have hwaitRef : advance (uid t) false ⟨0, 1 ||| exclusiveBit⟩
        ⟨.exclWaitRef, 0, true, (0, false), none⟩ =
      (⟨0, 1 ||| exclusiveBit⟩, ⟨.idle, 0, true, (0, false), some .success⟩) := rfl
  rw [run_enter henter, hwords, run_advance hswap, run_advance hwaitUid, run_advance hwaitRef]
  rfl

end Wrap

/-- The actions of `n` sessions that take the lock shared one after the other. -/
def shareAll (n : Nat) : List (Action Nat) :=
  (List.range n).flatMap fun t =>
    [.enter t .sharedLock, .advance t false, .advance t false, .advance t false]

/-- The lock held shared by the sessions below `n`. -/
def sharedBelow (n : Nat) : State Nat where
  words := ⟨BitVec.ofNat 32 n, 0⟩
  session t := if t < n then ⟨.idle, 1, false, (0, false), some .success⟩ else Session.init

theorem run_shareAll (uid : Nat → BitVec 32) (n : Nat) :
    run (step uid) State.init (shareAll n) = some (sharedBelow n) := by
  induction n with
  | zero => simp [shareAll, sharedBelow, State.init]
  | succ n ih =>
    rw [shareAll, List.range_succ, List.flatMap_append, ← shareAll, run_append _ ih]
    have hinit : (sharedBelow n).session n = Session.init := by simp [sharedBelow]
    rw [List.flatMap_singleton, run_sharedLock hinit rfl]
    have hsession : update (sharedBelow n).session n
        ⟨.idle, 1, false, (0, false), some .success⟩ = (sharedBelow (n + 1)).session := by
      funext t
      by_cases htn : t = n
      · subst htn
        simp [sharedBelow]
      · have hlt : (t < n + 1) = (t < n) := propext (by omega)
        simp only [sharedBelow, update_of_ne htn, hlt]
    rw [hsession]
    simp [sharedBelow, Words.addSharedRef, ofNat_add]

/-- Once `2 ^ 32` sessions hold the lock shared, `n_ref_` is zero again and one more session
gets it exclusively. -/
theorem exclusive_among_shared :
    ∃ as s, run (step fun _ => 1) State.init as = some s ∧
      (s.session (2 ^ 32)).holdsExclusive = true ∧
      (∀ t < 2 ^ 32, (s.session t).heldShared = 1) ∧ ¬ Safe (fun _ => 1) s := by
  have hinit : (sharedBelow (2 ^ 32)).session (2 ^ 32) = Session.init := by simp [sharedBelow]
  have hwords : (sharedBelow (2 ^ 32)).words = ⟨0, 0⟩ := by
    have hwrap : BitVec.ofNat 32 (2 ^ 32) = 0 := by decide
    simp only [sharedBelow, hwrap]
  refine ⟨shareAll (2 ^ 32) ++ _, ⟨_, update (sharedBelow (2 ^ 32)).session (2 ^ 32) _⟩,
    (run_append _ (run_shareAll _ _)).trans (run_exclusiveLock hinit hwords rfl), ?_⟩
  have hexcl : (update (sharedBelow (2 ^ 32)).session (2 ^ 32)
      ⟨.idle, 0, true, (0, false), some .success⟩ (2 ^ 32)).holdsExclusive = true := by
    rfl
  have hshared : ∀ t < 2 ^ 32, (update (sharedBelow (2 ^ 32)).session (2 ^ 32)
      ⟨.idle, 0, true, (0, false), some .success⟩ t).heldShared = 1 := by
    intro t ht
    rw [update_of_ne (Nat.ne_of_lt ht)]
    simp only [sharedBelow, if_pos ht]
    rfl
  refine ⟨hexcl, hshared, fun hsafe => ?_⟩
  have hzero := hsafe.exclusive_alone (2 ^ 32) 0 hexcl (by decide)
  cases hzero

end QLock

end OceanBase.Common
