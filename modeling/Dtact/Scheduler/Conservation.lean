import Dtact.Lib.Transition
import Dtact.Scheduler.Receive

/-!
# Runs of the scheduler and conservation of tasks

A `System` is a scheduler with a record of the tasks it has accepted and of those its workers have
taken for dispatch. A run is any sequence of operations, by any caller, from a new scheduler.
-/

namespace Dtact.Scheduler

open Circular Bags Transition

inductive Op (n : Nat)
  | enqueuePinned (current : Caller n) (targetCore task : Nat)
  | enqueueDeflect (current : Caller n) (sourceCore flowId task : Nat) (affinity : Affinity)
  | pollMailboxes (w : Fin n)
  | drainWarehouse (w : Fin n)
  | popLocal (w : Fin n)

inductive Outcome
  | flag (b : Bool)
  | popped (task : Option Nat)

namespace Op

variable {n : Nat}

def task? : Op n → Option Nat
  | .enqueuePinned _ _ task => some task
  | .enqueueDeflect _ _ _ task _ => some task
  | _ => none

def run [NeZero n] (s : DtaScheduler n) : Op n → Except Fault (Outcome × DtaScheduler n)
  | .enqueuePinned current targetCore task =>
    .ok ((s.enqueuePinned current targetCore task).map .flag id)
  | .enqueueDeflect current sourceCore flowId task affinity =>
    (s.enqueueDeflect current sourceCore flowId task affinity).map (·.map .flag id)
  | .pollMailboxes w => (s.pollMailboxes w).map (·.map .flag id)
  | .drainWarehouse w => (s.drainWarehouse w).map (·.map .flag id)
  | .popLocal w => .ok ((s.popLocal w).map .popped id)

end Op

structure System (n : Nat) where
  sched : DtaScheduler n
  accepted : List Nat
  dispatched : List (Fin n × Nat)

namespace System

variable {n : Nat}

def popped (σ : System n) : Multiset Nat := (σ.dispatched.map Prod.snd : List Nat)

/-- The system after `op` has returned `out`. -/
def record (σ : System n) (op : Op n) (out : Outcome) (s' : DtaScheduler n) : System n where
  sched := s'
  accepted :=
    match out, op.task? with
    | .flag true, some task => task :: σ.accepted
    | _, _ => σ.accepted
  dispatched :=
    match out, op with
    | .popped (some task), .popLocal w => (w, task) :: σ.dispatched
    | _, _ => σ.dispatched

variable [NeZero n]

def Initial (σ : System n) : Prop := ∃ topology, σ = ⟨DtaScheduler.new n topology, [], []⟩

def step (op : Op n) (σ : System n) : Option (System n) :=
  match op.run σ.sched with
  | .ok (out, s') => some (σ.record op out s')
  | .error _ => none

end System

/-! ## The single operations -/

namespace DtaScheduler

variable {n : Nat}

theorem tasksAt_new [NeZero n] (topology : TopologyMode) (p : Place n) :
    (new n topology).tasksAt p = [] := by
  have hm : Mailbox.new.contents = [] := Buffer.contents_empty _ _
  cases p with
  | queue w => exact Buffer.contents_empty _ _
  | mailbox i j | external j => simp only [tasksAt, new, hm, tasksOf_nil]
  | warehouse => rfl

theorem held_new [NeZero n] (topology : TopologyMode) : (new n topology).held = 0 :=
  Finset.sum_eq_zero fun p _ => by rw [tasksAt_new, Multiset.coe_nil]

theorem Polls.held {core : Fin n} {srcs : List (Inlet n)} {s s' : DtaScheduler n}
    (h : Polls core srcs s s') : s'.held = s.held := by
  induction h with
  | done hq => exact hq.held
  | move hr _ ih => rw [ih, hr.held]
  | next _ _ ih => exact ih

theorem Drains.held {core : Fin n} {s s' : DtaScheduler n} (h : Drains core s s') :
    s'.held = s.held := by
  induction h with
  | done => rfl
  | move hd _ ih => rw [ih, hd.held]

theorem Effect.held_dispatched {s s' : DtaScheduler n} {w : Fin n} {task : Nat} {l : List Nat}
    {P : Place n → Prop} (h : Effect s s' (Function.update s.tasksAt (.queue w) l) P)
    (hq : s.tasksAt (.queue w) = task :: l) : s.held = s'.held + {task} := by
  rw [DtaScheduler.held, DtaScheduler.held, h.tasks, ← total_take [task] hq]
  rfl

end DtaScheduler

/-! ## Runs -/

namespace Op

open DtaScheduler

variable {n : Nat} [NeZero n]

/-- What an operation can do and return. -/
inductive Ran (s : DtaScheduler n) : Op n → Except Fault (Outcome × DtaScheduler n) → Prop
  | overflow {op : Op n} : Ran s op (.error .overflow)
  | refused {op : Op n} {task : Nat} : op.task? = some task → Ran s op (.ok (.flag false, s))
  | pinned {current : Caller n} {targetCore task : Nat} {s' : DtaScheduler n} :
      Deposit s (pinnedPlace current (Fin.ofNat n targetCore)) [task] s' →
      Ran s (.enqueuePinned current targetCore task) (.ok (.flag true, s'))
  | deflected {current : Caller n} {sourceCore flowId task : Nat} {affinity : Affinity}
      {p : Place n} {s' : DtaScheduler n} : Deposit s p [task] s' →
      (∀ w, p = .mailbox w w → s.NoPeer current) →
      Ran s (.enqueueDeflect current sourceCore flowId task affinity) (.ok (.flag true, s'))
  | polled {w : Fin n} {b : Bool} {s' : DtaScheduler n} : Polls w (s.inlets w) s s' →
      Ran s (.pollMailboxes w) (.ok (.flag b, s'))
  | drained {w : Fin n} {b : Bool} {s' : DtaScheduler n} : Drains w s s' →
      Ran s (.drainWarehouse w) (.ok (.flag b, s'))
  | dispatched {w : Fin n} {task : Nat} {l : List Nat} {s' : DtaScheduler n} :
      s.tasksAt (.queue w) = task :: l →
      Effect s s' (Function.update s.tasksAt (.queue w) l) (fun _ => False) →
      Ran s (.popLocal w) (.ok (.popped (some task), s'))
  | idle {w : Fin n} : Ran s (.popLocal w) (.ok (.popped none, s))

theorem run_ran (s : DtaScheduler n) (op : Op n) : Ran s op (op.run s) := by
  cases op with
  | enqueuePinned current targetCore task =>
    rcases s.enqueuePinned_spec current targetCore task with he | ⟨s', hs', hd⟩
    · rw [run, he]
      exact .refused rfl
    · rw [run, hs']
      exact .pinned hd
  | enqueueDeflect current sourceCore flowId task affinity =>
    rcases s.enqueueDeflect_spec current sourceCore flowId task affinity with
      he | ⟨p, s', hs', hd, hp⟩
    · rw [run, he]
      exact .overflow
    · rw [run, hs']
      exact .deflected hd hp
  | pollMailboxes w =>
    rcases s.pollMailboxes_spec w with he | ⟨b, s', hs', hp⟩
    · rw [run, he]
      exact .overflow
    · rw [run, hs']
      exact .polled hp
  | drainWarehouse w =>
    obtain ⟨b, s', hs', hd⟩ := s.drainWarehouse_spec w
    rw [run, hs']
    exact .drained hd
  | popLocal w =>
    rcases s.popLocal_spec w with he | ⟨task, l, s', hs', hq, he⟩
    · rw [run, he]
      exact .idle
    · rw [run, hs']
      exact .dispatched hq he

end Op

namespace System

variable {n : Nat}

/-- The accepted tasks are those dispatched and those held. -/
def Balanced (σ : System n) : Prop := (σ.accepted : Multiset Nat) = σ.popped + σ.sched.held

theorem Balanced.deposit {σ σ' : System n} {task : Nat} (h : σ.Balanced)
    (ha : σ'.accepted = task :: σ.accepted) (hp : σ'.popped = σ.popped)
    (hh : σ'.sched.held = σ.sched.held + {task}) : σ'.Balanced := by
  rw [Balanced, ha, ← Multiset.cons_coe, h, hp, hh, ← Multiset.singleton_add]
  abel

variable [NeZero n]

theorem step_ran {σ σ' : System n} {op : Op n} (h : step op σ = some σ') :
    ∃ out s', op.Ran σ.sched (.ok (out, s')) ∧ σ' = σ.record op out s' := by
  have hran := op.run_ran σ.sched
  unfold step at h
  split at h
  · next out s' hrun =>
    rw [hrun] at hran
    exact ⟨out, s', hran, by simpa using h.symm⟩
  · cases h

theorem step_balanced {σ σ' : System n} {op : Op n} (h : σ.Balanced) (hst : step op σ = some σ') :
    σ'.Balanced := by
  obtain ⟨out, s', hran, rfl⟩ := step_ran hst
  cases hran with
  | refused ht => exact h
  | pinned hd | deflected hd _ => exact h.deposit rfl rfl hd.held
  | @polled w b _ hp => cases b <;> exact h.trans (congrArg _ hp.held.symm)
  | @drained w b _ hd => cases b <;> exact h.trans (congrArg _ hd.held.symm)
  | @dispatched w task l _ hq he =>
    show (σ.accepted : Multiset Nat) = {task} + σ.popped + s'.held
    rw [h, he.held_dispatched hq]
    abel
  | idle => exact h

theorem step_pushLocal {σ : System n} {w : Fin n} {task : Nat}
    (h : (σ.sched.workers w).localQueueLen < localQueueCapacity - 1) :
    step (.enqueuePinned (.worker w) w task) σ =
      some ⟨σ.sched.setQueue w ((σ.sched.workers w).localQueue.push task), task :: σ.accepted,
        σ.dispatched⟩ := by
  have hw : Fin.ofNat n w = w := Fin.ofNat_val_eq_self w
  have he : σ.sched.enqueuePinned (.worker w) w task =
      (true, σ.sched.setQueue w ((σ.sched.workers w).localQueue.push task)) := by
    rw [DtaScheduler.enqueuePinned, hw, if_pos rfl, DtaScheduler.pushLocal_room (by omega)]
  rw [step, Op.run, he]
  rfl

/-- A worker can fill its local queue up to any level. -/
theorem run_filled {ok : System n → Op n → Prop} (topology : TopologyMode) (w : Fin n) (task : Nat)
    (hok : ∀ σ, ok σ (.enqueuePinned (.worker w) w task)) {k : Nat}
    (hk : k ≤ localQueueCapacity - 1) :
    ∃ tr q acc, Run Initial step ok tr ⟨(DtaScheduler.new n topology).setQueue w q, acc, []⟩ ∧
      q.len = k := by
  induction k with
  | zero =>
    refine ⟨[], ((DtaScheduler.new n topology).workers w).localQueue, [], .start ⟨topology, ?_⟩, ?_⟩
    · rw [DtaScheduler.setQueue_self]
    · rw [← Buffer.length_contents]
      exact congrArg List.length (Buffer.contents_empty _ _)
  | succ k ih =>
    obtain ⟨tr, q, acc, hrun, hlen⟩ := ih (by omega)
    have hroom : q.len < localQueueCapacity - 1 := by omega
    refine ⟨_, q.push task, task :: acc, hrun.next (hok _) ?_, ?_⟩
    · rw [step_pushLocal (by rwa [Worker.localQueueLen, DtaScheduler.localQueue_setQueue]),
        DtaScheduler.localQueue_setQueue, DtaScheduler.setQueue_setQueue]
    · rw [q.len_push task (by omega), hlen]

/-- **Conservation.** For every number of workers, every topology and every
sequence of operations: what has been accepted is what has been dispatched and
what is held. Every operation returns (or panics on a full warehouse), and an
enqueue that returns `false` leaves the scheduler as it is. -/
theorem tasks_conserved {tr : List (Op n)} {σ : System n} (h : Run Initial step Free tr σ) :
    (σ.accepted : Multiset Nat) = σ.popped + σ.sched.held ∧
    (∀ op : Op n, op.run σ.sched = .error .overflow ∨ ∃ out s', op.run σ.sched = .ok (out, s')) ∧
    ∀ (op : Op n) s', op.task?.isSome → op.run σ.sched = .ok (.flag false, s') → s' = σ.sched := by
  refine ⟨?_, fun op => ?_, fun op s' ht hrun => ?_⟩
  · refine Run.invariant (I := fun _ σ => σ.Balanced) ?_ ?_ h
    · rintro _ ⟨topology, rfl⟩
      show (0 : Multiset Nat) = 0 + (DtaScheduler.new n topology).held
      rw [DtaScheduler.held_new, add_zero]
    · intro _ _ _ _ hI _ hst
      exact step_balanced hI hst
  · have hran := op.run_ran σ.sched
    generalize op.run σ.sched = r at hran
    cases hran with
    | overflow => exact Or.inl rfl
    | _ => exact Or.inr ⟨_, _, rfl⟩
  · have hran := op.run_ran σ.sched
    rw [hrun] at hran
    cases hran with
    | refused _ => rfl
    | _ => simp [Op.task?] at ht

/-- A pinned task that worker 1 polls and dispatches, and one that is deflected. -/
def deflectAndDispatch : List (Op 2) :=
  [.enqueuePinned .host 3 7, .enqueueDeflect (.worker 0) 0 9 8 .any, .pollMailboxes 1, .popLocal 1]

theorem tasks_conserved_two : ∃ σ : System 2,
    Run Initial step Free deflectAndDispatch.reverse σ ∧
      (σ.accepted : Multiset Nat) = σ.popped + σ.sched.held := by
  have hsome : (exec step deflectAndDispatch ⟨DtaScheduler.new 2 .global, [], []⟩).isSome := by
    decide +kernel
  obtain ⟨σ, hσ⟩ := Option.isSome_iff_exists.mp hsome
  have h : Run Initial step Free deflectAndDispatch.reverse σ := Run.of_exec _ ⟨.global, rfl⟩ hσ
  exact ⟨σ, h, (tasks_conserved h).1⟩

end System

end Dtact.Scheduler
