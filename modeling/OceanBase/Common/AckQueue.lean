import OceanBase.Common.LogGenerator
import OceanBase.Common.WaitQueue
import OceanBase.Lib.Except
import OceanBase.Lib.Run

/-!
# The queue of acknowledgements (`ob_ack_queue.cpp`)

A batch of logs is posted to every slave. Each post is registered in the wait queue, and after them
the end of the batch, which is done at once. `get_next_acked_seq` pops what is done or has waited
too long, and remembers the start of the last registration popped.

The queue relies on its caller to post the batches in the order of the log
(`not_monotone_backwards`); then the acknowledged number never goes back and never passes a batch
that is still waited for.
-/

namespace OceanBase.Common

open Lib List

/-! ### The code -/

def timeoutDelta : Int := 10000

/-- `WaitNode`. -/
structure WaitNode where
  startSeq : Int
  endSeq : Int
  err : Ret
  server : Server
  sendTimeUs : Int
  timeoutUs : Int
  receiveTimeUs : Int
  deriving DecidableEq, Repr

namespace WaitNode

def isTimeout (now : Int) (n : WaitNode) : Bool :=
  decide (n.timeoutUs > 0) && decide (n.sendTimeUs + n.timeoutUs < now)

def done (err : Ret) (now : Int) (n : WaitNode) : WaitNode :=
  { n with err := err, receiveTimeUs := now }

/-- `WaitNode()`. -/
def empty : WaitNode := ⟨-1, -1, .success, .ipv4 0 0, 0, 0, 0⟩

end WaitNode

/-- The arguments of `post`, without the packet. -/
structure Post where
  server : Server
  startSeq : Int
  endSeq : Int
  sendTimeUs : Int
  timeoutUs : Int
  idx : Int
  deriving DecidableEq, Repr

namespace Post

/-- The check of the arguments. -/
def IsValid (p : Post) : Prop := ¬ (p.startSeq < 0 ∨ p.endSeq < 0 ∨ p.timeoutUs ≤ timeoutDelta)

instance (p : Post) : Decidable p.IsValid := inferInstanceAs (Decidable (¬ _))

/-- The registration. -/
def waitNode (p : Post) : WaitNode :=
  { WaitNode.empty with
    startSeq := p.startSeq
    endSeq := p.endSeq
    server := p.server
    sendTimeUs := p.sendTimeUs
    timeoutUs := p.timeoutUs }

end Post

/-- The posts of `many_post`: one for every slave, and a fake one for the end of the batch. -/
def manyPost (servers : List Server) (startSeq endSeq timeoutUs idx now : Int) :
    Except Ret (List Post) :=
  if startSeq < 0 ∨ endSeq < startSeq ∨ timeoutUs ≤ timeoutDelta then .error .invalidArgument
  else
    .ok (servers.map (fun server =>
        ⟨server, startSeq, endSeq, now, timeoutUs - timeoutDelta, idx⟩) ++
      [⟨.ipv4 0 0, endSeq, endSeq, now, timeoutUs - timeoutDelta, -1⟩])

/-- Where a posting thread stands. -/
inductive PostPc where
  | idle
  /-- Before `wait_queue_.push`, with the posts that are left. -/
  | push (posts : List Post)
  /-- Registered under `seq`; before the request is sent. -/
  | send (seq : Nat) (post : Post) (rest : List Post)
  /-- Before `wait_queue_.done`: the post is a fake one or could not be sent. -/
  | finish (seq : Nat) (post : Post) (err : Ret) (rest : List Post)

/-- What happens to a registration: it is made, completed by `wait_queue_.done` under a number, or
given up. The node is the one handed out. -/
inductive AckEvent where
  | registered (seq : Nat) (node : WaitNode)
  | completed (seq : Nat) (node : WaitNode)
  | expired (seq : Nat) (node : WaitNode)
  deriving DecidableEq, Repr

/-- The post that is registered next. -/
def PostPc.first? : PostPc → Option Post
  | .push (post :: _) => some post
  | _ => none

/-- The start that is registered. -/
def AckEvent.startSeq? : AckEvent → Option Int
  | .registered _ node => some node.startSeq
  | _ => none

/-- `ObAckQueue` with its posting threads `τ`, and the events so far. -/
structure AckState (τ : Type*) where
  waitQueue : WaitQueue WaitNode
  nextAckedSeq : Int
  posters : τ → PostPc
  events : List AckEvent

/-- The moves. `callback` is an answer, with the number the request was sent with; the answer may
come at any time and more than once. `popAcked` is one round of the loop of `get_next_acked_seq`,
in whatever thread. -/
inductive AckMove (τ : Type*) where
  | manyPost (t : τ) (servers : List Server) (startSeq endSeq timeoutUs idx now : Int)
  | post (t : τ) (post : Post)
  | stepPost (t : τ) (ret : Ret) (now : Int)
  | callback (userData : Nat) (err : Ret) (now : Int)
  | popAcked (now : Int)

namespace AckState

section Code

variable {τ : Type*}

def init (queueLen : Nat) : Except Ret (AckState τ) :=
  (WaitQueue.init queueLen WaitNode.empty).map fun q => ⟨q, 0, fun _ => .idle, []⟩

/-- `wait_queue_.done`. -/
def doneSeq (s : AckState τ) (seq : Nat) (err : Ret) (now : Int) : AckState τ :=
  match s.waitQueue.doneSeq (WaitNode.done err now) seq with
  | (q, .ok node) => { s with waitQueue := q, events := s.events ++ [.completed seq node] }
  | (q, .error _) => { s with waitQueue := q }

/-- `callback`; the number travels as a pointer, and zero is taken for none. -/
def callback (s : AckState τ) (userData : Nat) (err : Ret) (now : Int) : AckState τ :=
  if userData = 0 then s else s.doneSeq userData err now

/-- One round of `get_next_acked_seq`. The counter is only touched under the lock of the queue. -/
def popAcked (s : AckState τ) (now : Int) : AckState τ :=
  match s.waitQueue.popData (WaitNode.isTimeout now) (WaitNode.done .processTimeout now) with
  | (q, .ok (seq, node, timedOut)) =>
    { s with
      waitQueue := q
      nextAckedSeq := node.startSeq
      events := if timedOut then s.events ++ [.expired seq node] else s.events }
  | (q, .error _) => { s with waitQueue := q }

variable [DecidableEq τ]

variable (s : AckState τ)

/-- A posting thread goes on to `pc`. -/
def setPc (t : τ) (pc : PostPc) : AckState τ :=
  { s with posters := Function.update s.posters t pc }

/-- `wait_queue_.push` for the first of `posts`. When the queue is full the thread pops and tries
again; the rounds of popping are moves of their own. -/
def pushPost (t : τ) (post : Post) (rest : List Post) : AckState τ :=
  match s.waitQueue.pushData post.waitNode with
  | (q, .error _) => { s with waitQueue := q }
  | (q, .ok seq) =>
    setPc { s with waitQueue := q, events := s.events ++ [.registered seq post.waitNode] } t
      (if post.idx < 0 then .finish seq post .success rest else .send seq post rest)

/-- The next access of a posting thread; `ret` is what sending returns. -/
def stepPost (t : τ) (ret : Ret) (now : Int) : Option (AckState τ) :=
  match s.posters t with
  | .idle => none
  | .push [] => some (s.setPc t .idle)
  | .push (post :: rest) =>
    some (if post.IsValid then s.pushPost t post rest else s.setPc t .idle)
  | .send seq post rest =>
    some (if ret = .success then s.setPc t (.push rest) else s.setPc t (.finish seq post ret rest))
  | .finish seq _ err rest =>
    some ((s.doneSeq seq err now).setPc t (if err = .success then .push rest else .idle))

/-- One move. -/
def step : AckMove τ → Option (AckState τ)
  | .manyPost t servers startSeq endSeq timeoutUs idx now =>
    match s.posters t, manyPost servers startSeq endSeq timeoutUs idx now with
    | .idle, .ok posts => some (s.setPc t (.push posts))
    | .idle, .error _ => some s
    | _, _ => none
  | .post t post =>
    match s.posters t with
    | .idle => some (s.setPc t (.push [post]))
    | _ => none
  | .stepPost t ret now => s.stepPost t ret now
  | .callback userData err now => some (s.callback userData err now)
  | .popAcked now => some (s.popAcked now)

end Code

/-! ### What is claimed -/

section Spec

variable {τ : Type*}

/-- The registration was completed or given up. -/
def Ended (events : List AckEvent) (seq : Nat) : Prop :=
  ∃ node, .completed seq node ∈ events ∨ .expired seq node ∈ events

/-- The acknowledged number does not pass a registration that is still waited for. -/
def Behind (s : AckState τ) : Prop :=
  ∀ seq node, .registered seq node ∈ s.events → ¬ Ended s.events seq →
    s.nextAckedSeq ≤ node.startSeq

end Spec

end AckState

/-- An answer completes the registration it was sent for, and only while that is waited for. -/
def AckEvent.OwnAnswer (past : List AckEvent) : AckEvent → Prop
  | .completed seq node =>
    ¬ AckState.Ended past seq ∧
      ∃ registered err now, .registered seq registered ∈ past ∧ node = registered.done err now
  | _ => True

namespace AckState

/-- The move does not register a start below that of an earlier registration. -/
def PostsInOrder {τ : Type*} (s : AckState τ) : AckMove τ → Prop
  | .stepPost t _ _ =>
    ∀ post ∈ (s.posters t).first?, ∀ e ∈ s.events, ∀ start ∈ e.startSeq?, start ≤ post.startSeq
  | _ => True

instance {τ : Type*} (s : AckState τ) : DecidablePred s.PostsInOrder
  | .stepPost t _ _ =>
    inferInstanceAs (Decidable (∀ post ∈ (s.posters t).first?, ∀ e ∈ s.events,
      ∀ start ∈ e.startSeq?, start ≤ post.startSeq))
  | .manyPost .. => isTrue trivial
  | .post .. => isTrue trivial
  | .callback .. => isTrue trivial
  | .popAcked .. => isTrue trivial

/-! ### The invariant -/

section Invariant

variable {τ : Type*}

/-- What is known of the registration `seq`, of which the queue has `r`. -/
structure RegOk (events : List AckEvent) (seq : Nat) (r : WaitNode × Bool) : Prop where
  waiting : r.2 = false → .registered seq r.1 ∈ events ∧ ¬ Ended events seq
  done : r.2 = true → ∃ node, .registered seq node ∈ events ∧ node.startSeq = r.1.startSeq ∧
    Ended events seq

/-- The invariant. `ordered` says whether the starts of a run are registered in order; everything
but the order of the acknowledged number and the starts in the queue holds without that. -/
structure Inv (ordered : Prop) (s : AckState τ) (live : List (WaitNode × Bool)) : Prop where
  holds : s.waitQueue.Holds live
  regs : ∀ j r, live[j]? = some r → RegOk s.events (s.waitQueue.pop + j) r
  registered_lt : ∀ seq node, .registered seq node ∈ s.events → seq < s.waitQueue.push
  unique : ∀ seq node node', .registered seq node ∈ s.events → .registered seq node' ∈ s.events →
    node = node'
  popped : ∀ seq, seq < s.waitQueue.pop → Ended s.events seq
  ended_lt : ∀ seq, Ended s.events seq → seq < s.waitQueue.push
  acked : s.nextAckedSeq = 0 ∨
    ∃ seq node, .registered seq node ∈ s.events ∧ node.startSeq = s.nextAckedSeq
  sorted : ordered → (s.nextAckedSeq :: live.map fun r => r.1.startSeq).Pairwise (· ≤ ·)
  own : Along AckEvent.OwnAnswer s.events

variable {ordered : Prop} {s : AckState τ} {live : List (WaitNode × Bool)} {seq : Nat}

theorem Ended.mono {events events' : List AckEvent} (h : Ended events seq)
    (hsub : events ⊆ events') : Ended events' seq := by
  obtain ⟨node, h⟩ := h
  exact ⟨node, h.imp (fun h => hsub h) fun h => hsub h⟩

variable {events : List AckEvent} {e : AckEvent}

theorem ended_concat (h : Ended (events ++ [e]) seq) :
    Ended events seq ∨ ∃ node, e = .completed seq node ∨ e = .expired seq node := by
  obtain ⟨node, h⟩ := h
  simp only [mem_append, mem_singleton] at h
  rcases h with (h | h) | (h | h)
  · exact .inl ⟨node, .inl h⟩
  · exact .inr ⟨node, .inl h.symm⟩
  · exact .inl ⟨node, .inr h⟩
  · exact .inr ⟨node, .inr h.symm⟩

variable {r : WaitNode × Bool} {s' : AckState τ} {q : WaitQueue WaitNode}

theorem RegOk.concat
    (h : RegOk events seq r) (he : ∀ node, e ≠ .completed seq node ∧ e ≠ .expired seq node) :
    RegOk (events ++ [e]) seq r where
  waiting hr := by
    obtain ⟨hreg, hnot⟩ := h.waiting hr
    refine ⟨mem_append_left _ hreg, fun hended => ?_⟩
    rcases ended_concat hended with hended | ⟨node, heq | heq⟩
    · exact hnot hended
    · exact (he node).1 heq
    · exact (he node).2 heq
  done hr := by
    obtain ⟨node, hreg, hstart, hended⟩ := h.done hr
    exact ⟨node, mem_append_left _ hreg, hstart, hended.mono (subset_append_left _ _)⟩

theorem RegOk.exists_registered (h : RegOk events seq r) : ∃ node, .registered seq node ∈ events ∧
      node.startSeq = r.1.startSeq := by
  rcases hr : r.2 with _ | _
  · exact ⟨r.1, (h.waiting hr).1, rfl⟩
  · obtain ⟨node, hreg, hstart, -⟩ := h.done hr
    exact ⟨node, hreg, hstart⟩

/-- **The acknowledged number stays behind.** -/
theorem Inv.behind (h : Inv ordered s live) (hordered : ordered) : s.Behind := by
  intro seq node hreg hnot
  have hpush := h.holds.push_eq
  have hlt := h.registered_lt seq node hreg
  have hge : s.waitQueue.pop ≤ seq := by
    by_contra hlt
    exact hnot (h.popped seq (by omega))
  -- it is in the queue, and waiting
  obtain ⟨j, rfl⟩ : ∃ j, seq = s.waitQueue.pop + j := ⟨seq - s.waitQueue.pop, by omega⟩
  obtain ⟨r, hr⟩ : ∃ r, live[j]? = some r := ⟨_, getElem?_eq_getElem (by omega)⟩
  have hreg' := h.regs j r hr
  rcases hdone : r.2 with _ | _
  · rw [h.unique _ _ _ hreg (hreg'.waiting hdone).1]
    exact (pairwise_cons.1 (h.sorted hordered)).1 _ (mem_map.2 ⟨r, mem_of_getElem? hr, rfl⟩)
  · obtain ⟨-, -, -, hended⟩ := hreg'.done hdone
    exact absurd hended hnot

/-- A registration keeps the invariant. -/
theorem Inv.register (h : Inv ordered s live) {node : WaitNode}
    (hq : q.Holds (live ++ [(node, false)])) (hpop : q.pop = s.waitQueue.pop)
    (hstart : 0 ≤ node.startSeq)
    (horder : ordered →
      ∀ seq n, .registered seq n ∈ s.events → n.startSeq ≤ node.startSeq) :
    Inv ordered { s with
      waitQueue := q, events := s.events ++ [.registered s.waitQueue.push node] }
      (live ++ [(node, false)]) := by
  have hpush : q.push = s.waitQueue.push + 1 := by
    rw [hq.push_eq, h.holds.push_eq, hpop, length_append, length_singleton, Nat.add_assoc]
  have hended : ∀ seq, Ended (s.events ++ [.registered s.waitQueue.push node]) seq →
      Ended s.events seq := by
    intro seq hended
    rcases ended_concat hended with hended | ⟨node, heq | heq⟩
    · exact hended
    all_goals cases heq
  have hcases : ∀ seq n, .registered seq n ∈ s.events ++ [.registered s.waitQueue.push node] →
      .registered seq n ∈ s.events ∨ seq = s.waitQueue.push ∧ n = node := by
    intro seq n hmem
    rcases mem_append.1 hmem with hmem | hmem
    · exact .inl hmem
    · cases mem_singleton.1 hmem
      exact .inr ⟨rfl, rfl⟩
  have hacked (hordered : ordered) : s.nextAckedSeq ≤ node.startSeq := by
    rcases h.acked with hzero | ⟨seq, n, hreg, hn⟩
    · rwa [hzero]
    · rw [← hn]
      exact horder hordered seq n hreg
  refine
    { holds := hq
      regs := fun j r hr => ?_
      registered_lt := fun seq n hmem => ?_
      unique := fun seq n n' hn hn' => ?_
      popped := fun seq hlt => ?_
      ended_lt := fun seq he => ?_
      acked := ?_
      sorted := fun hordered => ?_
      own := along_concat.2 ⟨h.own, trivial⟩ }
  · rw [hpop]
    by_cases hj : j < live.length
    · rw [getElem?_append_left hj] at hr
      exact (h.regs j r hr).concat fun n => ⟨nofun, nofun⟩
    obtain rfl : j = live.length := by
      have := (List.getElem?_eq_some_iff.1 hr).1
      rw [length_append, length_singleton] at this
      omega
    rw [getElem?_concat_length] at hr
    cases hr
    rw [← h.holds.push_eq]
    refine ⟨fun _ => ⟨mem_append_right _ (mem_singleton_self _), fun he => ?_⟩, nofun⟩
    exact Nat.lt_irrefl _ (h.ended_lt _ (hended _ he))
  · dsimp only
    rcases hcases seq n hmem with hmem | ⟨rfl, -⟩
    · have := h.registered_lt seq n hmem
      omega
    · omega
  · rcases hcases seq n hn with hold | ⟨heq, hnode⟩ <;>
      rcases hcases seq n' hn' with hold' | ⟨heq', hnode'⟩
    · exact h.unique seq n n' hold hold'
    · exact absurd (h.registered_lt seq n hold) (by omega)
    · exact absurd (h.registered_lt seq n' hold') (by omega)
    · rw [hnode, hnode']
  · rw [hpop] at hlt
    exact (h.popped seq hlt).mono (subset_append_left _ _)
  · have := h.ended_lt seq (hended seq he)
    dsimp only
    omega
  · exact h.acked.imp_right fun ⟨seq, n, hreg, hn⟩ => ⟨seq, n, mem_append_left _ hreg, hn⟩
  · rw [map_append, ← cons_append, pairwise_append]
    refine ⟨h.sorted hordered, pairwise_singleton _ _, fun a ha b hb => ?_⟩
    obtain rfl : b = node.startSeq := by simpa using hb
    rcases mem_cons.1 ha with rfl | ha
    · exact hacked hordered
    obtain ⟨r, hr, rfl⟩ := mem_map.1 ha
    obtain ⟨j, hj⟩ := mem_iff_getElem?.1 hr
    obtain ⟨n, hreg, hn⟩ := (h.regs j r hj).exists_registered
    rw [← hn]
    exact horder hordered _ n hreg

theorem nextAckedSeq_doneSeq (s : AckState τ) (seq : Nat) (err : Ret) (now : Int) :
    (s.doneSeq seq err now).nextAckedSeq = s.nextAckedSeq := by
  unfold AckState.doneSeq
  split <;> rfl

/-- An answer keeps the invariant: it finds the registration it was sent for waiting, or nothing. -/
theorem Inv.doneSeq (h : Inv ordered s live) (seq : Nat) (err : Ret) (now : Int) :
    ∃ live, Inv ordered (s.doneSeq seq err now) live := by
  rcases h.holds.done_spec (WaitNode.done err now) seq with
    ⟨ret, hret⟩ | ⟨q, j, d, rfl, hj, hret, hq, hpop⟩
  · rw [AckState.doneSeq, hret]
    exact ⟨live, h⟩
  have hwaiting := (h.regs j _ hj).waiting rfl
  have hjlt := (List.getElem?_eq_some_iff.1 hj).1
  have hpush : q.push = s.waitQueue.push := by
    rw [hq.push_eq, h.holds.push_eq, hpop, length_set]
  rw [AckState.doneSeq, hret]
  refine ⟨live.set j (d.done err now, true), ?_⟩
  refine
    { holds := hq
      regs := fun i r hr => ?_
      registered_lt := fun seq n hmem => ?_
      unique := fun seq n n' hn hn' => ?_
      popped := fun seq hlt => ?_
      ended_lt := fun seq he => ?_
      acked := ?_
      sorted := ?_
      own := along_concat.2 ⟨h.own, hwaiting.2, d, err, now, hwaiting.1, rfl⟩ }
  · rw [hpop]
    by_cases hij : i = j
    · subst hij
      rw [getElem?_set_self hjlt] at hr
      cases hr
      refine ⟨nofun, fun _ => ⟨d, mem_append_left _ hwaiting.1, rfl, d.done err now, .inl ?_⟩⟩
      exact mem_append_right _ (mem_singleton_self _)
    · rw [getElem?_set_ne (Ne.symm hij)] at hr
      refine (h.regs i r hr).concat fun n => ⟨fun heq => hij ?_, nofun⟩
      injection heq with heq
      omega
  · rw [hpush]
    refine h.registered_lt seq n ?_
    simpa using hmem
  · exact h.unique seq n n' (by simpa using hn) (by simpa using hn')
  · rw [hpop] at hlt
    exact (h.popped seq hlt).mono (subset_append_left _ _)
  · rw [hpush]
    rcases ended_concat he with he | ⟨n, heq | heq⟩
    · exact h.ended_lt seq he
    · injection heq with heq
      have := h.holds.push_eq
      omega
    · cases heq
  · exact h.acked.imp_right fun ⟨seq, n, hreg, hn⟩ => ⟨seq, n, mem_append_left _ hreg, hn⟩
  · have hmap : (live.set j (d.done err now, true)).map (fun r => r.1.startSeq) =
        live.map fun r => r.1.startSeq := by
      have hget : (live.map fun r => r.1.startSeq)[j]? = some d.startSeq := by
        rw [getElem?_map, hj]
        rfl
      obtain ⟨hlt, heq⟩ := List.getElem?_eq_some_iff.1 hget
      rw [map_set]
      show (live.map fun r => r.1.startSeq).set j d.startSeq = _
      rw [← heq, set_getElem_self]
    rw [hmap]
    exact h.sorted

/-- Taking the oldest registration out of the queue keeps the invariant. -/
theorem Inv.popDone {rest : List (WaitNode × Bool)} (h : Inv ordered s (r :: rest))
    (hq : q.Holds rest)
    (hpop : q.pop = s.waitQueue.pop + 1)
    (hevents : events = s.events ∧ r.2 = true ∨
      ∃ node, events = s.events ++ [.expired s.waitQueue.pop node] ∧ r.2 = false) :
    Inv ordered { s with waitQueue := q, nextAckedSeq := r.1.startSeq, events := events } rest := by
  have hpush : q.push = s.waitQueue.push := by
    rw [hq.push_eq, h.holds.push_eq, hpop, length_cons]
    omega
  have hhead := h.regs 0 r rfl
  have hsub : s.events ⊆ events := by
    rcases hevents with ⟨rfl, -⟩ | ⟨node, rfl, -⟩
    · exact List.Subset.refl _
    · exact subset_append_left _ _
  have hreg : ∀ seq node, .registered seq node ∈ events → .registered seq node ∈ s.events := by
    intro seq node hmem
    rcases hevents with ⟨rfl, -⟩ | ⟨n, rfl, -⟩
    · exact hmem
    · simpa using hmem
  have hended : ∀ seq, Ended events seq → Ended s.events seq ∨ seq = s.waitQueue.pop := by
    intro seq he
    rcases hevents with ⟨rfl, -⟩ | ⟨n, rfl, -⟩
    · exact .inl he
    rcases ended_concat he with he | ⟨node, heq | heq⟩
    · exact .inl he
    · cases heq
    · injection heq with heq
      exact .inr heq.symm
  have hends : Ended events s.waitQueue.pop := by
    rcases hevents with ⟨rfl, hr⟩ | ⟨n, rfl, -⟩
    · obtain ⟨-, -, -, he⟩ := hhead.done hr
      exact he
    · exact ⟨n, .inr (mem_append_right _ (mem_singleton_self _))⟩
  have hregs : ∀ j r', rest[j]? = some r' → RegOk events (s.waitQueue.pop + 1 + j) r' := by
    intro j r' hr'
    have hok := h.regs (j + 1) r' hr'
    rw [Nat.add_comm j 1, ← Nat.add_assoc] at hok
    rcases hevents with ⟨rfl, -⟩ | ⟨n, rfl, -⟩
    · exact hok
    refine hok.concat fun node => ⟨nofun, fun heq => ?_⟩
    injection heq with heq
    omega
  obtain ⟨node, hnode, hstart⟩ := hhead.exists_registered
  exact
    { holds := hq
      regs := fun j r' hr' => by
        rw [hpop]
        exact hregs j r' hr'
      registered_lt := fun seq n hmem => hpush ▸ h.registered_lt seq n (hreg seq n hmem)
      unique := fun seq n n' hn hn' => h.unique seq n n' (hreg seq n hn) (hreg seq n' hn')
      popped := fun seq hlt => by
        rcases Nat.lt_or_eq_of_le (Nat.le_of_lt_succ (hpop ▸ hlt)) with hlt | rfl
        · exact (h.popped seq hlt).mono hsub
        · exact hends
      ended_lt := fun seq he => by
        rw [hpush]
        rcases hended seq he with he | rfl
        · exact h.ended_lt seq he
        have := h.holds.push_eq
        rw [length_cons] at this
        omega
      acked := .inr ⟨_, node, hsub hnode, hstart⟩
      sorted := fun hordered => (h.sorted hordered).of_cons
      own := by
        rcases hevents with ⟨rfl, -⟩ | ⟨n, rfl, -⟩
        · exact h.own
        · exact along_concat.2 ⟨h.own, trivial⟩ }

/-- One round of `get_next_acked_seq`: it keeps the invariant, and the number does not go back. -/
theorem Inv.popAcked (h : Inv ordered s live) (now : Int) :
    (∃ live, Inv ordered (s.popAcked now) live) ∧
      (ordered → s.nextAckedSeq ≤ (s.popAcked now).nextAckedSeq) := by
  rcases h.holds.pop_spec (WaitNode.isTimeout now) (WaitNode.done .processTimeout now) with
    hret | ⟨q, d, rest, rfl, hret, hq, hpop⟩ | ⟨q, d, rest, rfl, -, hret, hq, hpop⟩
  · rw [AckState.popAcked, hret]
    exact ⟨⟨live, h⟩, fun _ => Int.le_refl _⟩
  · rw [AckState.popAcked, hret]
    exact ⟨⟨rest, h.popDone hq hpop (.inl ⟨rfl, rfl⟩)⟩,
      fun hordered => (pairwise_cons.1 (h.sorted hordered)).1 _ mem_cons_self⟩
  rw [AckState.popAcked, hret]
  exact ⟨⟨rest, h.popDone hq hpop (.inr ⟨_, rfl, rfl⟩)⟩,
    fun hordered => (pairwise_cons.1 (h.sorted hordered)).1 _ mem_cons_self⟩

theorem Inv.setPosters (h : Inv ordered s live) (posters : τ → PostPc) :
    Inv ordered { s with posters := posters } live :=
  { h with }

section Step

variable [DecidableEq τ]

/-- An access of a posting thread keeps the invariant and the acknowledged number. -/
theorem Inv.stepPost (h : Inv ordered s live) {t : τ} {ret : Ret} {now : Int}
    (horder : ordered → s.PostsInOrder (.stepPost t ret now))
    (hstep : s.stepPost t ret now = some s') :
    (∃ live, Inv ordered s' live) ∧ s'.nextAckedSeq = s.nextAckedSeq := by
  unfold AckState.stepPost at hstep
  split at hstep
  next => cases hstep
  next =>
    cases hstep
    exact ⟨⟨live, h.setPosters _⟩, rfl⟩
  next post rest hpc =>
    cases hstep
    split_ifs with hvalid
    · rw [pushPost]
      rcases h.holds.push_spec post.waitNode with hret | ⟨q, hret, hq, hpop⟩
      · rw [hret]
        exact ⟨⟨live, h⟩, rfl⟩
      rw [hret]
      have hstart : 0 ≤ post.waitNode.startSeq := Int.not_lt.1 (not_or.1 hvalid).1
      have hbelow : ordered →
          ∀ seq n, .registered seq n ∈ s.events → n.startSeq ≤ post.waitNode.startSeq :=
        fun hordered seq n hn => horder hordered post (by rw [hpc]; rfl) _ hn n.startSeq rfl
      exact ⟨⟨_, (h.register hq hpop hstart hbelow).setPosters _⟩, rfl⟩
    · exact ⟨⟨live, h.setPosters _⟩, rfl⟩
  next =>
    cases hstep
    split_ifs
    all_goals exact ⟨⟨live, h.setPosters _⟩, rfl⟩
  next seq post err rest hpc =>
    cases hstep
    obtain ⟨live', h'⟩ := h.doneSeq seq err now
    refine ⟨⟨live', h'.setPosters _⟩, ?_⟩
    exact nextAckedSeq_doneSeq ..

/-- **One move** keeps the invariant, and in order the acknowledged number does not go back. -/
theorem Inv.step (h : Inv ordered s live) {m : AckMove τ} (horder : ordered → s.PostsInOrder m)
    (hstep : s.step m = some s') :
    (∃ live, Inv ordered s' live) ∧ (ordered → s.nextAckedSeq ≤ s'.nextAckedSeq) := by
  cases m with
  | manyPost t servers startSeq endSeq timeoutUs idx now =>
    simp only [AckState.step] at hstep
    split at hstep <;> cases hstep
    · exact ⟨⟨live, h.setPosters _⟩, fun _ => Int.le_refl _⟩
    · exact ⟨⟨live, h⟩, fun _ => Int.le_refl _⟩
  | post t post =>
    simp only [AckState.step] at hstep
    split at hstep <;> cases hstep
    exact ⟨⟨live, h.setPosters _⟩, fun _ => Int.le_refl _⟩
  | stepPost t ret now =>
    obtain ⟨hinv, heq⟩ := h.stepPost horder hstep
    exact ⟨hinv, fun _ => Int.le_of_eq heq.symm⟩
  | callback userData err now =>
    cases hstep
    unfold callback
    split_ifs
    · exact ⟨⟨live, h⟩, fun _ => Int.le_refl _⟩
    · exact ⟨h.doneSeq userData err now, fun _ => Int.le_of_eq (nextAckedSeq_doneSeq ..).symm⟩
  | popAcked now =>
    cases hstep
    exact h.popAcked now

end Step

theorem inv_init {queueLen : Nat} (hinit : init queueLen = .ok s) : Inv ordered s [] := by
  obtain ⟨q, hq, rfl⟩ := except_map_eq_ok.1 hinit
  exact
    { holds := WaitQueue.holds_init hq
      regs := fun _ _ h => nomatch h
      registered_lt := fun _ _ h => absurd h not_mem_nil
      unique := fun _ _ _ h _ => absurd h not_mem_nil
      popped := fun seq hlt => by
        rw [WaitQueue.pop_init hq] at hlt
        exact absurd hlt (Nat.not_lt_zero _)
      ended_lt := fun _ ⟨_, h⟩ => by simp at h
      acked := .inl rfl
      sorted := fun _ => pairwise_singleton _ _
      own := along_nil }

/-- The invariant of every run: all that needs no order. -/
theorem exists_inv_run [DecidableEq τ] {moves : List (AckMove τ)} (h : ∃ live, Inv False s live)
    (hrun : Lib.run step s moves = some s') : ∃ live, Inv False s' live := by
  refine run_invariant (fun s m s' (h : ∃ live, Inv False s live) hstep => ?_) h hrun
  obtain ⟨live, hlive⟩ := h
  exact (hlive.step False.elim hstep).1

/-- The invariant of a run in order holds, and the acknowledged number is at least `c`. -/
def AtLeast (c : Int) (s : AckState τ) : Prop := (∃ live, Inv True s live) ∧ c ≤ s.nextAckedSeq

theorem AtLeast.run [DecidableEq τ] {c : Int} {moves : List (AckMove τ)}
    (h : AtLeast c s) (horder : Meets step PostsInOrder s moves)
    (hrun : Lib.run step s moves = some s') : AtLeast c s' := by
  refine run_invariant_of_meets (fun s m s' (h : AtLeast c s) hok hstep => ?_) h horder hrun
  obtain ⟨⟨live, hlive⟩, hle⟩ := h
  obtain ⟨hnext, hle'⟩ := hlive.step (fun _ => hok) hstep
  exact ⟨hnext, Int.le_trans hle (hle' trivial)⟩

end Invariant

/-! ### The result -/

section Result

variable {τ : Type*} [DecidableEq τ]

/-- **What is acknowledged.** In every run an answer only completes the registration it was sent
for. If no start is registered below an earlier one, the acknowledged number never goes back and
never passes a registration that is neither completed nor given up. -/
theorem acked_of_run {queueLen : Nat} {s₀ s : AckState τ} {moves : List (AckMove τ)}
    (hinit : init queueLen = .ok s₀) (hrun : run step s₀ moves = some s) :
    Along AckEvent.OwnAnswer s.events ∧
    (Meets step PostsInOrder s₀ moves →
      (∀ ms ms' s₁, moves = ms ++ ms' → run step s₀ ms = some s₁ →
        s₁.nextAckedSeq ≤ s.nextAckedSeq) ∧ s.Behind) := by
  refine ⟨?_, fun horder => ?_⟩
  · obtain ⟨live, hlive⟩ := exists_inv_run ⟨[], inv_init hinit⟩ hrun
    exact hlive.own
  have hstart : ∃ live, Inv True s₀ live := ⟨[], inv_init hinit⟩
  obtain ⟨⟨live, hlive⟩, -⟩ := AtLeast.run ⟨hstart, Int.le_refl _⟩ horder hrun
  refine ⟨fun ms ms' s₁ hmoves hms => ?_, hlive.behind trivial⟩
  subst hmoves
  obtain ⟨hmeets, hmeets'⟩ := horder.of_append
  -- from the state in between, its own number is a bound
  obtain ⟨hmid, -⟩ := AtLeast.run ⟨hstart, Int.le_refl _⟩ hmeets hms
  rw [run_append step hms] at hrun
  exact (AtLeast.run ⟨hmid, Int.le_refl _⟩ (hmeets' s₁ hms) hrun).2

/-- A batch to two slaves, of which one is given up and one answers, and then answers again. -/
def lateAnswer : List (AckMove Unit) :=
  [.manyPost () [.ipv4 1 1, .ipv4 2 2] 7 9 30000 0 100] ++
  List.replicate 6 (.stepPost () .success 100) ++
  [.callback 1 .success 200, .popAcked 200, .popAcked 90000, .callback 1 .success 90000,
    .popAcked 90000, .popAcked 90000]

theorem acked_of_run_lateAnswer :
    ∃ s₀ s : AckState Unit, init 32 = .ok s₀ ∧ Meets step PostsInOrder s₀ lateAnswer ∧
      run step s₀ lateAnswer = some s ∧ s.nextAckedSeq = 9 ∧ s.events.length = 6 ∧
      Along AckEvent.OwnAnswer s.events ∧
      (∀ ms ms' s₁, lateAnswer = ms ++ ms' → run step s₀ ms = some s₁ →
        s₁.nextAckedSeq ≤ s.nextAckedSeq) ∧ s.Behind := by
  obtain ⟨s₀, hs₀⟩ : ∃ s₀ : AckState Unit, init 32 = .ok s₀ := ⟨_, rfl⟩
  have hmeets : Meets step PostsInOrder s₀ lateAnswer := by
    cases hs₀
    decide +kernel
  have hrun : (run step s₀ lateAnswer).map (fun s => (s.nextAckedSeq, s.events.length)) =
      some (9, 6) := by
    cases hs₀
    decide +kernel
  obtain ⟨s, hs, hend⟩ := Option.map_eq_some_iff.1 hrun
  obtain ⟨hown, hordered⟩ := acked_of_run hs₀ hs
  exact ⟨s₀, s, hs₀, hmeets, hs, congrArg Prod.fst hend, congrArg Prod.snd hend, hown,
    hordered hmeets⟩

/-- Two batches without slaves, the second one before the first. -/
def backwards : List (AckMove Unit) :=
  [.manyPost () [] 10 10 30000 0 100] ++ List.replicate 3 (.stepPost () .success 100) ++
  [.popAcked 100, .manyPost () [] 5 5 30000 0 100] ++
  List.replicate 3 (.stepPost () .success 100) ++ [.popAcked 100]

/-- The queue does not order what it is given: behind `backwards` the acknowledged number has gone
from 10 back to 5. -/
theorem not_monotone_backwards :
    ∃ s₀ s₁ s : AckState Unit, init 32 = .ok s₀ ∧ run step s₀ (backwards.take 5) = some s₁ ∧
      run step s₀ backwards = some s ∧ s.nextAckedSeq < s₁.nextAckedSeq := by
  obtain ⟨s₀, hs₀⟩ : ∃ s₀ : AckState Unit, init 32 = .ok s₀ := ⟨_, rfl⟩
  have hmid : (run step s₀ (backwards.take 5)).map nextAckedSeq = some 10 := by
    cases hs₀
    decide +kernel
  have hend : (run step s₀ backwards).map nextAckedSeq = some 5 := by
    cases hs₀
    decide +kernel
  obtain ⟨s₁, hs₁, hten⟩ := Option.map_eq_some_iff.1 hmid
  obtain ⟨s, hs, hfive⟩ := Option.map_eq_some_iff.1 hend
  refine ⟨s₀, s₁, s, hs₀, hs₁, hs, ?_⟩
  rw [hten, hfive]
  decide

end Result

end AckState

end OceanBase.Common
