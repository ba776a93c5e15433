import Dtact.Util.BroadcastSend
import Dtact.Util.WaitQueue

/-!
# `sync::broadcast`, one access at a time

Tasks send, clone and drop `Sender`s; receivers are polled, cloned and dropped. Every load and store
is a step, and so is each access to a value; `register`, `cancel` and `wake_all` are one step each.

Results:
1. `Look.run_does`, `Receiver.run_receives`: all one step of a receiver can do.
2. `step_takes`: all one step can do.
-/

namespace Dtact.Broadcast.Atomic

open Transition WaitQueue

variable {σ ρ T ω : Type}

/-! ## The waiters -/

/-- The wait queue, whether its ring is allocated, and how many entries were ever popped from the
ring. -/
structure Waiters (ω : Type) where
  queue : WaitQueue ω
  allocated : Bool
  popped : Nat

namespace Waiters

def new : Waiters ω := ⟨.new, false, 0⟩

/-- How many entries were ever pushed to the ring. -/
def pushed (q : Waiters ω) : Nat := q.popped + q.queue.ready.length

/-- What `enqueue_pos.load` returns. -/
def enqueuePos (q : Waiters ω) : Nat := q.pushed % usizeMod

/-- What `dequeue_pos.load` returns. -/
def dequeuePos (q : Waiters ω) : Nat := q.popped % usizeMod

def register (q : Waiters ω) (waker : ω) : RegistrationToken ω × Waiters ω :=
  ((q.queue.register waker).1, ⟨(q.queue.register waker).2, true, q.popped⟩)

def cancel [DecidableEq ω] (q : Waiters ω) (token : RegistrationToken ω) : Waiters ω :=
  { q with queue := q.queue.cancel token }

/-- `wake_all`, with the wakers it invokes. -/
def wakeAll (q : Waiters ω) : List ω × Waiters ω :=
  (q.queue.wakeAll.1, ⟨q.queue.wakeAll.2, q.allocated, q.pushed⟩)

end Waiters

structure Shared (T ω : Type) where
  ring : Broadcast.Shared T
  wait : Waiters ω

/-! ## Receivers -/

/-- Where a receiver is in `try_recv_one`. -/
inductive Look (T : Type)
  | load
  | clone (slotSeq : Nat)
  | reload (slotSeq : Nat) (value : Option T)

/-- What one access of `try_recv_one` leads to. -/
inductive Looked (T : Type)
  | goOn (at' : Look T)
  | done (result : Option (RecvResult T)) (nextSeq : Nat)

/-- The next access of `try_recv_one` from the cursor `nextSeq`. -/
def Look.run (c : Nat) (slots : Nat → Slot T) (nextSeq : Nat) : Look T → Looked T
  | .load =>
    let slotSeq := (slots (nextSeq % c)).seq
    if slotSeq = unwritten ∨ slotSeq = transient then .done none nextSeq
    else if nextSeq = slotSeq then .goOn (.clone slotSeq)
    else if nextSeq < slotSeq then .done (some (.lagged (slotSeq - nextSeq))) slotSeq
    else .done none nextSeq
  | .clone slotSeq => .goOn (.reload slotSeq (slots (nextSeq % c)).value)
  | .reload slotSeq value =>
    if (slots (nextSeq % c)).seq ≠ slotSeq then .done (some (.lagged 1)) nextSeq
    else .done (some (.ok value)) (wrappingAdd nextSeq 1)

/-- The four calls of `try_recv_one` in `poll_recv`. -/
inductive Site (ω : Type)
  | first (waker : ω)
  | closing
  | again (token : RegistrationToken ω)
  | closingAgain (token : RegistrationToken ω)

/-- Where a receiver is in `poll_recv`. -/
inductive RecvPc (T ω : Type)
  | idle
  | look (site : Site ω) (at' : Look T)
  | isClosed (waker : ω)
  | register (waker : ω)
  | isClosedAgain (token : RegistrationToken ω)
  | cancel (token : RegistrationToken ω) (result : RecvResult T)

/-- What the latest `poll_recv` has returned. -/
inductive Last (T ω : Type)
  | unpolled
  | pending (token : RegistrationToken ω)
  | ready (result : RecvResult T)
deriving DecidableEq

structure Receiver (T ω : Type) where
  alive : Bool
  pc : RecvPc T ω
  nextSeq : Nat
  last : Last T ω
  /-- For reference: the waker of the latest poll. -/
  waker : Option ω
  /-- For reference: it has been invoked since that poll began. -/
  woken : Bool

namespace Receiver

/-- `channel` and `Clone` -/
def new (nextSeq : Nat) : Receiver T ω := ⟨true, .idle, nextSeq, .unpolled, none, false⟩

def absent : Receiver T ω := { new 0 with alive := false }

def ret (r : Receiver T ω) (result : RecvResult T) : Receiver T ω :=
  { r with pc := .idle, last := .ready result }

/-- `try_recv_one` has returned. -/
def tried (r : Receiver T ω) (site : Site ω) (result : Option (RecvResult T)) : Receiver T ω :=
  match site, result with
  | .first _, some result => r.ret result
  | .first waker, none => { r with pc := .isClosed waker }
  | .closing, result => r.ret (result.getD .closed)
  | .again token, some result => { r with pc := .cancel token result }
  | .again token, none => { r with pc := .isClosedAgain token }
  | .closingAgain token, result => { r with pc := .cancel token (result.getD .closed) }

/-- One step of `poll_recv`. -/
def run [DecidableEq ω] (c : Nat) (sh : Shared T ω) (r : Receiver T ω) :
    Option (Receiver T ω × Waiters ω) :=
  match r.pc with
  | .idle => none
  | .look site at' =>
    match at'.run c sh.ring.slots r.nextSeq with
    | .goOn at' => some ({ r with pc := .look site at' }, sh.wait)
    | .done result nextSeq => some ({ r with nextSeq }.tried site result, sh.wait)
  | .isClosed waker =>
    if sh.ring.senderCount = 0 then some ({ r with pc := .look .closing .load }, sh.wait)
    else some ({ r with pc := .register waker }, sh.wait)
  | .register waker =>
    some ({ r with pc := .look (.again (sh.wait.register waker).1) .load },
      (sh.wait.register waker).2)
  | .isClosedAgain token =>
    if sh.ring.senderCount = 0 then
      some ({ r with pc := .look (.closingAgain token) .load }, sh.wait)
    else some ({ r with pc := .idle, last := .pending token }, sh.wait)
  | .cancel token result => some (r.ret result, sh.wait.cancel token)

def wake [DecidableEq ω] (wakers : List ω) (r : Receiver T ω) : Receiver T ω :=
  { r with woken := r.woken || r.waker.any fun waker => waker ∈ wakers }

end Receiver

/-! ## Tasks -/

/-- Where a task is in `send`, or in the clone or the drop of a `Sender`. `readyGet` to
`overflowHead` are the loads of `has_waiters`. -/
inductive TaskPc (T : Type)
  | idle
  | send (pc : SendPc T)
  | readyGet
  | loadEnqueue
  | loadDequeue (enq : Nat)
  | overflowHead
  | wakeAll
  | cloneArc
  | dropWake
  | dropArc

def TaskPc.isIdle : TaskPc T → Bool
  | .idle => true
  | _ => false

/-- Where a task is when its send has gone from `pc` to `pc'`. -/
def TaskPc.ofSend (pc pc' : SendPc T) : TaskPc T :=
  match pc, pc' with
  | .publish _ _, _ => .readyGet
  | _, .idle => .idle
  | _, pc' => .send pc'

/-- Tasks `σ` and receivers `ρ`. -/
structure St (σ ρ T ω : Type) where
  shared : Shared T ω
  task : σ → TaskPc T
  receiver : ρ → Receiver T ω

namespace St

/-- A new channel, with the receiver `k`. -/
def new [DecidableEq ρ] (k : ρ) : St σ ρ T ω :=
  ⟨⟨(Broadcast.St.init : Broadcast.St T).shared, .new⟩, fun _ => .idle,
    Function.update (fun _ => .absent) k (.new 0)⟩

def setTask [DecidableEq σ] (s : St σ ρ T ω) (j : σ) (pc : TaskPc T) : St σ ρ T ω :=
  { s with task := Function.update s.task j pc }

def setReceiver [DecidableEq ρ] (s : St σ ρ T ω) (k : ρ) (r : Receiver T ω) : St σ ρ T ω :=
  { s with receiver := Function.update s.receiver k r }

def setRing (s : St σ ρ T ω) (ring : Broadcast.Shared T) : St σ ρ T ω :=
  { s with shared := { s.shared with ring } }

def setWait (s : St σ ρ T ω) (wait : Waiters ω) : St σ ρ T ω :=
  { s with shared := { s.shared with wait } }

def setCounts (s : St σ ρ T ω) (senderCount strongCount : Nat) : St σ ρ T ω :=
  s.setRing { s.shared.ring with senderCount, strongCount }

def wakeAll [DecidableEq ω] (s : St σ ρ T ω) : St σ ρ T ω :=
  { s.setWait s.shared.wait.wakeAll.2 with
    receiver := fun k => (s.receiver k).wake s.shared.wait.wakeAll.1 }

theorem setTask_self [DecidableEq σ] (s : St σ ρ T ω) (j : σ) (pc : TaskPc T) :
    (s.setTask j pc).task j = pc :=
  Function.update_self _ _ _

theorem setReceiver_self [DecidableEq ρ] (s : St σ ρ T ω) (k : ρ) (r : Receiver T ω) :
    (s.setReceiver k r).receiver k = r :=
  Function.update_self _ _ _

section

variable [DecidableEq σ] [DecidableEq ω]

/-- One step of `send`, and of the clone and the drop of a `Sender` after the first one. -/
def runTask (c : Nat) (s : St σ ρ T ω) (j : σ) : Option (St σ ρ T ω) :=
  match s.task j with
  | .idle => none
  | .send pc =>
    (pc.run c s.shared.ring).map fun (ring, pc') => (s.setRing ring).setTask j (.ofSend pc pc')
  | .readyGet =>
    some (s.setTask j (if s.shared.wait.allocated then .loadEnqueue else .overflowHead))
  | .loadEnqueue => some (s.setTask j (.loadDequeue s.shared.wait.enqueuePos))
  | .loadDequeue enq =>
    -- `len` subtracts without going below zero
    some (s.setTask j (if enq - s.shared.wait.dequeuePos = 0 then .overflowHead else .wakeAll))
  | .overflowHead =>
    some (s.setTask j (if s.shared.wait.queue.overflow.isEmpty then .idle else .wakeAll))
  | .wakeAll => some (s.wakeAll.setTask j .idle)
  | .cloneArc =>
    some ((s.setCounts s.shared.ring.senderCount (s.shared.ring.strongCount + 1)).setTask j .idle)
  | .dropWake => some (s.wakeAll.setTask j .dropArc)
  | .dropArc =>
    some ((s.setCounts s.shared.ring.senderCount (s.shared.ring.strongCount - 1)).setTask j .idle)

end

def free (s : St σ ρ T ω) (k : ρ) : Bool :=
  (s.receiver k).alive && match (s.receiver k).pc with
    | .idle => true
    | _ => false

end St

/-! ## Steps -/

inductive Act (σ ρ T ω : Type)
  | send (j : σ) (value : T)
  | cloneSender (j : σ)
  | dropSender (j : σ)
  | task (j : σ)
  | cloneReceiver (k k' : ρ)
  | dropReceiver (k : ρ)
  | pollRecv (k : ρ) (waker : ω)
  | receiver (k : ρ)

/-- A task that is in no call may use a `Sender`. -/
def St.mayUse (s : St σ ρ T ω) (j : σ) : Bool :=
  (s.task j).isIdle && decide (0 < s.shared.ring.senderCount)

/-- Each `Sender` is an `Arc`, whose references are fewer than words, so the counts are numbers. -/
def step [DecidableEq σ] [DecidableEq ρ] [DecidableEq ω] (c : Nat) (a : Act σ ρ T ω)
    (s : St σ ρ T ω) : Option (St σ ρ T ω) :=
  let ring := s.shared.ring
  match a with
  | .send j value => if s.mayUse j then some (s.setTask j (.send (.loadStrong value))) else none
  | .cloneSender j =>
    if s.mayUse j then
      some ((s.setCounts (ring.senderCount + 1) ring.strongCount).setTask j .cloneArc)
    else none
  | .dropSender j =>
    if s.mayUse j then
      some ((s.setCounts (ring.senderCount - 1) ring.strongCount).setTask j
        (if ring.senderCount = 1 then .dropWake else .dropArc))
    else none
  | .task j => s.runTask c j
  | .cloneReceiver k k' =>
    if s.free k && !(s.receiver k').alive then
      some ((s.setCounts ring.senderCount (ring.strongCount + 1)).setReceiver k'
        (.new (s.receiver k).nextSeq))
    else none
  | .dropReceiver k =>
    if s.free k then
      some ((s.setCounts ring.senderCount (ring.strongCount - 1)).setReceiver k
        { s.receiver k with alive := false })
    else none
  | .pollRecv k waker =>
    if s.free k then
      some (s.setReceiver k { s.receiver k with
        pc := .look (.first waker) .load, waker := some waker, woken := false })
    else none
  | .receiver k =>
    ((s.receiver k).run c s.shared).map fun (r, wait) => (s.setWait wait).setReceiver k r

def Initial [DecidableEq ρ] (s : St σ ρ T ω) : Prop := ∃ k, s = St.new k

/-! ## What a step does -/

/-- What the first load of `try_recv_one` finds. -/
inductive Look.Finds (c : Nat) (slots : Nat → Slot T) (nextSeq : Nat) : Looked T → Prop
  | nothing : ¬ ((slots (nextSeq % c)).seq ≠ unwritten ∧ (slots (nextSeq % c)).seq ≠ transient ∧
      nextSeq ≤ (slots (nextSeq % c)).seq) → Finds c slots nextSeq (.done none nextSeq)
  | value : nextSeq ≠ unwritten → nextSeq ≠ transient → (slots (nextSeq % c)).seq = nextSeq →
      Finds c slots nextSeq (.goOn (.clone nextSeq))
  | overtaken {m : Nat} : m ≠ unwritten → m ≠ transient → (slots (nextSeq % c)).seq = m →
      nextSeq < m → Finds c slots nextSeq (.done (some (.lagged (m - nextSeq))) m)

theorem Look.load_finds (c : Nat) (slots : Nat → Slot T) (nextSeq : Nat) :
    Look.Finds c slots nextSeq (Look.load.run c slots nextSeq) := by
  simp only [Look.run]
  split
  · next hsent =>
    refine .nothing fun h => ?_
    rcases hsent with hsent | hsent
    · exact h.1 hsent
    · exact h.2.1 hsent
  · next hreal =>
    rw [not_or] at hreal
    split
    · next heq =>
      rw [← heq] at hreal ⊢
      exact .value hreal.1 hreal.2 heq.symm
    · next hne =>
      split
      · next hlt => exact .overtaken hreal.1 hreal.2 rfl hlt
      · next hge => exact .nothing fun h => hge (Nat.lt_of_le_of_ne h.2.2 hne)

namespace Receiver

/-- All one step of a receiver can do. -/
inductive Receives (c : Nat) (sh : Shared T ω) [DecidableEq ω] (r : Receiver T ω) :
    Receiver T ω → Waiters ω → Prop
  | goOn (site : Site ω) {at' at'' : Look T} : r.pc = .look site at' →
      at'.run c sh.ring.slots r.nextSeq = .goOn at'' →
      Receives c sh r { r with pc := .look site at'' } sh.wait
  | done (site : Site ω) {at' : Look T} {result : Option (RecvResult T)} {nextSeq : Nat} :
      r.pc = .look site at' → at'.run c sh.ring.slots r.nextSeq = .done result nextSeq →
      Receives c sh r ({ r with nextSeq }.tried site result) sh.wait
  | closed (waker : ω) : r.pc = .isClosed waker → sh.ring.senderCount = 0 →
      Receives c sh r { r with pc := .look .closing .load } sh.wait
  | waits (waker : ω) : r.pc = .isClosed waker →
      Receives c sh r { r with pc := .register waker } sh.wait
  | register (waker : ω) : r.pc = .register waker →
      Receives c sh r { r with pc := .look (.again (sh.wait.register waker).1) .load }
        (sh.wait.register waker).2
  | closedAgain (token : RegistrationToken ω) : r.pc = .isClosedAgain token →
      sh.ring.senderCount = 0 →
      Receives c sh r { r with pc := .look (.closingAgain token) .load } sh.wait
  | pend (token : RegistrationToken ω) : r.pc = .isClosedAgain token → sh.ring.senderCount ≠ 0 →
      Receives c sh r { r with pc := .idle, last := .pending token } sh.wait
  | cancel (token : RegistrationToken ω) (result : RecvResult T) : r.pc = .cancel token result →
      Receives c sh r (r.ret result) (sh.wait.cancel token)

theorem run_receives [DecidableEq ω] {c : Nat} {sh : Shared T ω} {r r' : Receiver T ω}
    {wait : Waiters ω} (h : r.run c sh = some (r', wait)) : Receives c sh r r' wait := by
  unfold run at h
  split at h
  · cases h
  · next site at' hpc =>
    split at h
    · next at'' hrun =>
      cases h
      exact .goOn site hpc hrun
    · next result nextSeq hrun =>
      cases h
      exact .done site hpc hrun
  · next waker hpc =>
    split at h
    · next hcount =>
      cases h
      exact .closed waker hpc hcount
    · cases h
      exact .waits waker hpc
  · next waker hpc =>
    cases h
    exact .register waker hpc
  · next token hpc =>
    split at h
    · next hcount =>
      cases h
      exact .closedAgain token hpc hcount
    · next hcount =>
      cases h
      exact .pend token hpc hcount
  · next token result hpc =>
    cases h
    exact .cancel token result hpc

end Receiver

section

variable [DecidableEq σ] [DecidableEq ρ] [DecidableEq ω] {c : Nat} {s s' : St σ ρ T ω}

/-- All one step can do. -/
inductive Takes (c : Nat) (s : St σ ρ T ω) : Act σ ρ T ω → St σ ρ T ω → Prop
  | send {j : σ} (value : T) : s.task j = .idle →
      Takes c s (.send j value) (s.setTask j (.send (.loadStrong value)))
  | cloneSender {j : σ} : s.task j = .idle → 0 < s.shared.ring.senderCount →
      Takes c s (.cloneSender j)
        ((s.setCounts (s.shared.ring.senderCount + 1) s.shared.ring.strongCount).setTask j
          .cloneArc)
  | dropSender {j : σ} : s.task j = .idle → 0 < s.shared.ring.senderCount →
      Takes c s (.dropSender j)
        ((s.setCounts (s.shared.ring.senderCount - 1) s.shared.ring.strongCount).setTask j
          (if s.shared.ring.senderCount = 1 then .dropWake else .dropArc))
  | access {j : σ} {pc pc' : SendPc T} {ring : Broadcast.Shared T} : s.task j = .send pc →
      pc.run c s.shared.ring = some (ring, pc') →
      Takes c s (.task j) ((s.setRing ring).setTask j (.ofSend pc pc'))
  | readyGet {j : σ} : s.task j = .readyGet →
      Takes c s (.task j)
        (s.setTask j (if s.shared.wait.allocated then .loadEnqueue else .overflowHead))
  | loadEnqueue {j : σ} : s.task j = .loadEnqueue →
      Takes c s (.task j) (s.setTask j (.loadDequeue s.shared.wait.enqueuePos))
  | loadDequeue {j : σ} {enq : Nat} : s.task j = .loadDequeue enq →
      Takes c s (.task j)
        (s.setTask j (if enq - s.shared.wait.dequeuePos = 0 then .overflowHead else .wakeAll))
  | overflowHead {j : σ} : s.task j = .overflowHead →
      Takes c s (.task j)
        (s.setTask j (if s.shared.wait.queue.overflow.isEmpty then .idle else .wakeAll))
  | wakeAll {j : σ} {pc : TaskPc T} : s.task j = .wakeAll ∧ pc = .idle ∨
        s.task j = .dropWake ∧ pc = .dropArc →
      Takes c s (.task j) (s.wakeAll.setTask j pc)
  | arc {j : σ} {strongCount : Nat} : s.task j = .cloneArc ∨ s.task j = .dropArc →
      Takes c s (.task j)
        ((s.setCounts s.shared.ring.senderCount strongCount).setTask j .idle)
  | cloneReceiver {k k' : ρ} {strongCount : Nat} : (s.receiver k).alive = true →
      (s.receiver k').alive = false →
      Takes c s (.cloneReceiver k k')
        ((s.setCounts s.shared.ring.senderCount strongCount).setReceiver k'
          (.new (s.receiver k).nextSeq))
  | dropReceiver {k : ρ} {strongCount : Nat} : (s.receiver k).pc = .idle →
      Takes c s (.dropReceiver k)
        ((s.setCounts s.shared.ring.senderCount strongCount).setReceiver k
          { s.receiver k with alive := false })
  | pollRecv {k : ρ} (waker : ω) : (s.receiver k).pc = .idle →
      Takes c s (.pollRecv k waker)
        (s.setReceiver k { s.receiver k with
          pc := .look (.first waker) .load, waker := some waker, woken := false })
  | receiver {k : ρ} {r : Receiver T ω} {wait : Waiters ω} :
      (s.receiver k).Receives c s.shared r wait →
      Takes c s (.receiver k) ((s.setWait wait).setReceiver k r)

omit [DecidableEq σ] [DecidableEq ρ] [DecidableEq ω] in
theorem St.mayUse_iff {j : σ} :
    s.mayUse j = true ↔ s.task j = .idle ∧ 0 < s.shared.ring.senderCount := by
  unfold St.mayUse
  cases s.task j <;> simp [TaskPc.isIdle]

omit [DecidableEq σ] [DecidableEq ρ] [DecidableEq ω] in
theorem St.free_iff {k : ρ} :
    s.free k = true ↔ (s.receiver k).alive = true ∧ (s.receiver k).pc = .idle := by
  unfold St.free
  cases (s.receiver k).pc <;> simp

theorem runTask_takes {j : σ} (h : s.runTask c j = some s') : Takes c s (.task j) s' := by
  unfold St.runTask at h
  split at h
  · cases h
  · next pc hpc =>
    obtain ⟨⟨ring, pc'⟩, hrun, rfl⟩ := Option.map_eq_some_iff.mp h
    exact .access hpc hrun
  all_goals
    next hpc =>
    cases h
    first
      | exact .readyGet hpc
      | exact .loadEnqueue hpc
      | exact .loadDequeue hpc
      | exact .overflowHead hpc
      | exact .wakeAll (.inl ⟨hpc, rfl⟩)
      | exact .wakeAll (.inr ⟨hpc, rfl⟩)
      | exact .arc (.inl hpc)
      | exact .arc (.inr hpc)

theorem step_takes {a : Act σ ρ T ω} (h : step c a s = some s') : Takes c s a s' := by
  cases a with
  | send j value =>
    obtain ⟨hmay, rfl⟩ := Option.ite_none_right_eq_some.mp h |>.imp_right Option.some.inj
    exact .send value (St.mayUse_iff.mp hmay).1
  | cloneSender j =>
    obtain ⟨hmay, rfl⟩ := Option.ite_none_right_eq_some.mp h |>.imp_right Option.some.inj
    obtain ⟨hidle, hcount⟩ := St.mayUse_iff.mp hmay
    exact .cloneSender hidle hcount
  | dropSender j =>
    obtain ⟨hmay, rfl⟩ := Option.ite_none_right_eq_some.mp h |>.imp_right Option.some.inj
    obtain ⟨hidle, hcount⟩ := St.mayUse_iff.mp hmay
    exact .dropSender hidle hcount
  | task j => exact runTask_takes h
  | cloneReceiver k k' =>
    obtain ⟨hfree, rfl⟩ := Option.ite_none_right_eq_some.mp h |>.imp_right Option.some.inj
    rw [Bool.and_eq_true, Bool.not_eq_true'] at hfree
    exact .cloneReceiver (St.free_iff.mp hfree.1).1 hfree.2
  | dropReceiver k =>
    obtain ⟨hfree, rfl⟩ := Option.ite_none_right_eq_some.mp h |>.imp_right Option.some.inj
    exact .dropReceiver (St.free_iff.mp hfree).2
  | pollRecv k waker =>
    obtain ⟨hfree, rfl⟩ := Option.ite_none_right_eq_some.mp h |>.imp_right Option.some.inj
    exact .pollRecv waker (St.free_iff.mp hfree).2
  | receiver k =>
    obtain ⟨⟨r, wait⟩, hrun, rfl⟩ := Option.map_eq_some_iff.mp h
    exact .receiver (Receiver.run_receives hrun)

end

end Dtact.Broadcast.Atomic
