import Dtact.Lib.Gate
import Dtact.Lib.Transition
import Dtact.Util.WaitQueue
import Dtact.Words

/-!
# `Mutex` and `Semaphore`

A word says how many permits are free, and a `WaitQueue` holds the tasks that wait for one. A
`PermitWord` is the part in which the two differ. Every operation on the word and on the queue is
one step. Each poll that does not get a permit at once registers anew; a wake that is spent on a
stale registration is lost.
-/

namespace Dtact.Permits

open Transition

/-! ## The words -/

/-- What one atomic operation of an attempt to take a permit comes to. -/
inductive Attempt (Word Try : Type)
  | goto (t : Try)
  | taken (word : Word)
  | failed

/-- The word behind the permits. `Try` is where a thread is in an attempt to take one. -/
structure PermitWord (Word Try : Type) where
  start : Try
  /-- A weak CAS may fail for no reason. -/
  attempt (spurious : Bool) : Try → Word → Attempt Word Try
  release : Word → Word
  add : Option (Nat → Word → Word)
  free : Word → Nat
  free_taken : ∀ {spurious t w w'}, attempt spurious t w = .taken w' →
    0 < free w ∧ free w' = free w - 1
  free_failed : ∀ {spurious t w}, attempt spurious t w = .failed → free w = 0
  free_release : ∀ w, free (release w) ≤ free w + 1

namespace Mutex

/-- `try_lock`: one strong CAS. -/
def tryLock (locked : Bool) : Attempt Bool Unit := if locked then .failed else .taken true

def free (locked : Bool) : Nat := if locked then 0 else 1

def word : PermitWord Bool Unit where
  start := ()
  attempt _ _ := tryLock
  release _ := false
  add := none
  free := free
  free_taken {_ _ w w'} h := by
    cases w with
    | true => cases h
    | false =>
      cases h
      decide
  free_failed {_ _ w} h := by
    cases w with
    | true => rfl
    | false => cases h
  free_release w := Nat.le_add_left 1 (free w)

end Mutex

namespace Semaphore

/-- Where a thread is in `try_acquire_one`: before the load, or before the CAS with the
value seen last, which is not zero. -/
inductive Try
  | load
  | cas (current : Nat) (h : 0 < current)

/-- The loop goes on with the value seen. -/
def observe (current : Nat) : Attempt Nat Try :=
  if h : 0 < current then .goto (.cas current h) else .failed

def tryAcquireOne (spurious : Bool) : Try → Nat → Attempt Nat Try
  | .load, permits => observe permits
  | .cas current _, permits =>
    if permits = current ∧ !spurious then .taken (current - 1) else observe permits

theorem observe_ne_taken (current w : Nat) : observe current ≠ .taken w := by
  unfold observe
  split <;> nofun

theorem zero_of_observe {current : Nat} (h : observe current = .failed) : current = 0 := by
  unfold observe at h
  split at h
  · cases h
  · omega

def word : PermitWord Nat Try where
  start := .load
  attempt := tryAcquireOne
  release permits := wrappingAdd permits 1
  add := some fun n permits => wrappingAdd permits n
  free := id
  free_taken {_ t w w'} h := by
    cases t with
    | load => exact absurd h (observe_ne_taken w w')
    | cas current hpos =>
      simp only [tryAcquireOne] at h
      split at h
      case isTrue heq =>
        cases h
        rw [heq.1]
        exact ⟨hpos, rfl⟩
      case isFalse => exact absurd h (observe_ne_taken w w')
  free_failed {_ t w} h := by
    cases t with
    | load => exact zero_of_observe h
    | cas current hpos =>
      simp only [tryAcquireOne] at h
      split at h
      · cases h
      · exact zero_of_observe h
  free_release w := Nat.mod_le (w + 1) usizeMod

end Semaphore

/-! ## The tasks -/

variable {Word Try : Type} {m : Nat}

/-- Where a task is in `poll_lock` or `poll_acquire`. -/
inductive PollPc (Try : Type)
  | check
  | fast (t : Try)
  | register
  | slow (token : Nat) (t : Try)
  | cancel (token : Nat)

/-- The future of `lock()` or `acquire()`; `pending` when its latest poll has returned so. -/
inductive Future (Try : Type)
  | none
  | polling (pc : PollPc Try)
  | pending

/-- The other calls: `try_lock` and `try_acquire`, the drop of a guard or a permit, and
`add_permits`. -/
inductive Call (Try : Type)
  | idle
  | trying (t : Try)
  | release
  | wakeOne
  | add (n : Nat)
  | wakeAll

structure Task (Try : Type) where
  future : Future Try
  /-- The waker has been invoked since the latest poll began. -/
  woken : Bool
  /-- The future and the calls run on threads of their own. -/
  call : Call Try

structure St (Word Try : Type) (m : Nat) where
  word : Word
  wait : WaitQueue (Fin m)
  /-- The guards or permits that are alive. -/
  held : Nat
  task : Fin m → Task Try

/-- `new`, and no task has done anything. -/
def St.new (word : Word) : St Word Try m := ⟨word, .new, 0, fun _ => ⟨.none, false, .idle⟩⟩

namespace St

def modify (s : St Word Try m) (j : Fin m) (f : Task Try → Task Try) : St Word Try m :=
  { s with task := Function.update s.task j (f (s.task j)) }

def setFuture (s : St Word Try m) (j : Fin m) (future : Future Try) : St Word Try m :=
  s.modify j fun t => { t with future }

def setCall (s : St Word Try m) (k : Fin m) (call : Call Try) : St Word Try m :=
  s.modify k fun t => { t with call }

end St

/-- One step of `poll_lock` or `poll_acquire`. -/
def pollStep (W : PermitWord Word Try) (j : Fin m) (spurious : Bool) (s : St Word Try m) :
    PollPc Try → St Word Try m
  | .check =>
    if s.wait.hasWaiters then s.setFuture j (.polling .register)
    else s.setFuture j (.polling (.fast W.start))
  | .fast t =>
    match W.attempt spurious t s.word with
    | .goto t => s.setFuture j (.polling (.fast t))
    | .taken word => { s.setFuture j .none with word, held := s.held + 1 }
    | .failed => s.setFuture j (.polling .register)
  | .register =>
    let (token, wait) := s.wait.register j
    { s.setFuture j (.polling (.slow token.number W.start)) with wait }
  | .slow token t =>
    match W.attempt spurious t s.word with
    | .goto t => s.setFuture j (.polling (.slow token t))
    | .taken word => { s.setFuture j (.polling (.cancel token)) with word }
    | .failed => s.setFuture j .pending
  | .cancel token =>
    { s.setFuture j .none with wait := s.wait.cancel ⟨token, j⟩, held := s.held + 1 }

def callStep (W : PermitWord Word Try) (k : Fin m) (spurious : Bool) (s : St Word Try m) :
    Call Try → Option (St Word Try m)
  | .idle => none
  | .trying t =>
    match W.attempt spurious t s.word with
    | .goto t => some (s.setCall k (.trying t))
    | .taken word => some { s.setCall k .idle with word, held := s.held + 1 }
    | .failed => some (s.setCall k .idle)
  | .release => some { s.setCall k .wakeOne with word := W.release s.word }
  | .wakeOne =>
    match s.wait.wakeOne with
    | (some g, wait) =>
      some { (s.setCall k .idle).modify g fun t => { t with woken := true } with wait }
    | (none, wait) => some { s.setCall k .idle with wait }
  | .add n => W.add.map fun add => { s.setCall k .wakeAll with word := add n s.word }
  | .wakeAll =>
    let (wakers, wait) := s.wait.wakeAll
    let s := s.setCall k .idle
    some { s with
      wait
      task := WaitQueue.invoke wakers (fun t => { t with woken := true }) s.task }

inductive Act (m : Nat)
  | poll (j : Fin m)
  | dropFuture (j : Fin m)
  | tryTake (k : Fin m)
  | dropPermit (k : Fin m)
  | addPermits (k : Fin m) (n : Nat)
  | runPoll (j : Fin m) (spurious : Bool)
  | runCall (k : Fin m) (spurious : Bool)

def St.beginCall (s : St Word Try m) (k : Fin m) (call : Call Try) : Option (St Word Try m) :=
  match (s.task k).call with
  | .idle => some (s.setCall k call)
  | _ => none

/-- `poll` begins a poll of the future of a task, a new one if it has none. -/
def step (W : PermitWord Word Try) : Act m → St Word Try m → Option (St Word Try m)
  | .poll j, s =>
    match (s.task j).future with
    | .polling _ => none
    | .none | .pending =>
      some (s.modify j fun t => { t with future := .polling .check, woken := false })
  | .dropFuture j, s =>
    match (s.task j).future with
    | .pending => some (s.setFuture j .none)
    | .none | .polling _ => none
  | .tryTake k, s => s.beginCall k (.trying W.start)
  | .dropPermit k, s =>
    if 0 < s.held then { s with held := s.held - 1 }.beginCall k .release else none
  | .addPermits k n, s => if W.add.isSome then s.beginCall k (.add n) else none
  | .runPoll j spurious, s =>
    match (s.task j).future with
    | .polling pc => some (pollStep W j spurious s pc)
    | .none | .pending => none
  | .runCall k spurious, s => callStep W k spurious s (s.task k).call

/-! ## The gate -/

def PollPc.phase : PollPc Try → Gate.Phase
  | .check | .fast _ | .register => .asking false
  | .slow _ _ => .asking true
  | .cancel _ => .leaving

def Future.phase : Future Try → Gate.Phase
  | .none => .away
  | .polling pc => pc.phase
  | .pending => .waiting

def Call.waking : Call Try → Bool
  | .wakeOne => true
  | _ => false

def Call.wakingAll : Call Try → Bool
  | .wakeAll => true
  | _ => false

def Task.gate (t : Task Try) : Gate.Task :=
  ⟨t.future.phase, t.woken, t.call.waking, t.call.wakingAll⟩

def gate (W : PermitWord Word Try) (s : St Word Try m) : Gate.St (Fin m) :=
  ⟨W.free s.word, s.wait.owners, fun j => (s.task j).gate, false⟩

/-- The wake a step spends, or may lose. -/
def label : Act m → St Word Try m → Gate.Label (Fin m)
  | .dropFuture j, _ => .drop j
  | .runCall k _, s =>
    match (s.task k).call with
    | .wakeOne =>
      match s.wait.next with
      | some g => .wake g
      | none => .plain
    | _ => .plain
  | _, _ => .plain

section

variable {W : PermitWord Word Try} {s s' : St Word Try m}

theorem gate_modify (s : St Word Try m) (j : Fin m) {f : Task Try → Task Try}
    {f' : Gate.Task → Gate.Task} (hf : (f (s.task j)).gate = f' (s.task j).gate) :
    gate W (s.modify j f) = (gate W s).modify j f' := by
  have htask : (fun i => ((s.modify j f).task i).gate) =
      Function.update (fun i => (s.task i).gate) j (f' (s.task j).gate) := by
    rw [← hf]
    exact Function.comp_update Task.gate s.task j (f (s.task j))
  simp only [gate, htask]
  rfl

theorem gate_setFuture (s : St Word Try m) (j : Fin m) (future : Future Try) :
    gate W (s.setFuture j future) = (gate W s).setPhase j future.phase :=
  gate_modify s j rfl

theorem gate_modify_same (s : St Word Try m) (j : Fin m) {f : Task Try → Task Try}
    (hf : (f (s.task j)).gate = (s.task j).gate) : gate W (s.modify j f) = gate W s := by
  have hid : gate W (s.modify j f) = (gate W s).modify j id := gate_modify s j hf
  rw [hid, Gate.St.modify_eq_self rfl]

theorem gate_setFuture_same (j : Fin m) {future : Future Try}
    (h : future.phase = (s.task j).future.phase) : gate W (s.setFuture j future) = gate W s :=
  gate_modify_same s j (by simp only [Task.gate, h])

theorem gate_setCall_same (k : Fin m) {call : Call Try}
    (h : call.waking = (s.task k).call.waking ∧ call.wakingAll = (s.task k).call.wakingAll) :
    gate W (s.setCall k call) = gate W s :=
  gate_modify_same s k (by simp only [Task.gate, h])

theorem gate_update (s : St Word Try m) (j : Fin m) (future : Future Try) (word : Word)
    (wait : WaitQueue (Fin m)) (held : Nat) :
    gate W { s.setFuture j future with word, wait, held } =
      { (gate W s).setPhase j future.phase with free := W.free word, owners := wait.owners } :=
  congrArg (fun g => { g with free := W.free word, owners := wait.owners })
    (gate_setFuture s j future)

theorem pollStep_gate {j : Fin m} {pc : PollPc Try} (hpc : (s.task j).future = .polling pc)
    (spurious : Bool) : Gate.Step (gate W s) .plain (gate W (pollStep W j spurious s pc)) := by
  have hphase : ((gate W s).task j).phase = pc.phase := congrArg Future.phase hpc
  have hsame {pc' : PollPc Try} (h : pc'.phase = pc.phase) :
      Gate.Step (gate W s) .plain (gate W (s.setFuture j (.polling pc'))) := by
    have hfuture : (Future.polling pc').phase = (s.task j).future.phase := h.trans hphase.symm
    rw [gate_setFuture_same j hfuture]
    exact .stay
  cases pc with
  | check =>
    simp only [pollStep]
    split
    · exact hsame rfl
    · exact hsame rfl
  | fast t =>
    simp only [pollStep]
    cases hattempt : W.attempt spurious t s.word with
    | goto t => exact hsame rfl
    | taken word =>
      obtain ⟨hpos, hfree⟩ := W.free_taken hattempt
      simp only [gate_update, hfree]
      exact .take j hphase (.inr rfl) hpos
    | failed => exact hsame rfl
  | register =>
    simp only [pollStep, gate_update, WaitQueue.owners_register]
    exact .register j hphase
  | slow token t =>
    simp only [pollStep]
    cases hattempt : W.attempt spurious t s.word with
    | goto t => exact hsame rfl
    | taken word =>
      obtain ⟨hpos, hfree⟩ := W.free_taken hattempt
      simp only [gate_update, hfree]
      exact .take j hphase (.inl rfl) hpos
    | failed =>
      simp only [gate_setFuture]
      exact .sleep j hphase (W.free_failed hattempt)
  | cancel token =>
    simp only [pollStep, gate_update]
    exact .leave j hphase (.inr rfl) fun i hne hi => WaitQueue.mem_owners_cancel hne hi

section

variable {k : Fin m} {spurious : Bool}

theorem trying_gate {t : Try} (hcall : (s.task k).call = .trying t)
    (hst : callStep W k spurious s (.trying t) = some s') :
    Gate.Step (gate W s) .plain (gate W s') := by
  have hsame {call : Call Try} (h : call.waking = false ∧ call.wakingAll = false) :
      gate W (s.setCall k call) = gate W s :=
    gate_setCall_same k (by rwa [hcall])
  simp only [callStep] at hst
  cases hattempt : W.attempt spurious t s.word with
  | goto t' | failed =>
    simp only [hattempt, Option.some.injEq] at hst
    rw [← hst, hsame ⟨rfl, rfl⟩]
    exact .stay
  | taken word =>
    obtain ⟨hpos, hfree⟩ := W.free_taken hattempt
    simp only [hattempt, Option.some.injEq] at hst
    have hidle : gate W (s.setCall k .idle) = gate W s := hsame ⟨rfl, rfl⟩
    have hgate : gate W s' = { gate W s with free := (gate W s).free - 1 } := by
      rw [← hst, ← hidle]
      simp only [gate, hfree]
      rfl
    rw [hgate]
    exact .takeAside hpos

theorem release_gate (hcall : (s.task k).call = .release)
    (hst : callStep W k spurious s .release = some s') :
    Gate.Step (gate W s) .plain (gate W s') := by
  have hwaking : ((gate W s).task k).waking = false := congrArg Call.waking hcall
  have hnext : gate W (s.setCall k .wakeOne) =
      (gate W s).modify k fun t => { t with waking := true } :=
    gate_modify s k (by simp only [Task.gate, hcall, Call.waking, Call.wakingAll])
  simp only [callStep, Option.some.injEq] at hst
  have hgate : gate W s' = { (gate W s).modify k fun t => { t with waking := true } with
      free := W.free (W.release s.word) } := by
    rw [← hst, ← hnext]
    rfl
  rw [hgate]
  exact .release k hwaking (W.free_release s.word)

theorem wakeOne_gate (hcall : (s.task k).call = .wakeOne)
    (hst : callStep W k spurious s .wakeOne = some s') :
    Gate.Step (gate W s) (label (.runCall k spurious) s) (gate W s') := by
  have hwaking : ((gate W s).task k).waking := congrArg Call.waking hcall
  have hidle : gate W (s.setCall k .idle) =
      (gate W s).modify k fun t => { t with waking := false } :=
    gate_modify s k (by simp only [Task.gate, hcall, Call.waking, Call.wakingAll])
  simp only [callStep] at hst
  simp only [label, hcall, ← WaitQueue.wakeOne_fst]
  rcases hwake : s.wait.wakeOne with ⟨waker, wait⟩
  cases waker with
  | none =>
    obtain ⟨hnone, hafter⟩ := WaitQueue.owners_of_wakeOne_none (congrArg Prod.fst hwake)
    simp only [hwake, Option.some.injEq] at hst hafter
    have hgate : gate W s' = (gate W s).modify k fun t => { t with waking := false } := by
      rw [← hst, ← hidle]
      simp only [gate, hafter]
      rw [← hnone]
      rfl
    rw [hgate]
    exact .noWake k hwaking hnone
  | some g =>
    have howners := WaitQueue.owners_wakeOne (congrArg Prod.fst hwake)
    simp only [hwake, Option.some.injEq] at hst howners
    have hgate : gate W s' =
        { ((gate W s).modify k fun t => { t with waking := false }).modify g
            fun t => { t with woken := true } with
          owners := (gate W s).owners.erase g } := by
      rw [← hst, ← hidle, ← gate_modify (f := fun t => { t with woken := true }) _ g rfl]
      simp only [gate, howners, Multiset.erase_cons_head]
    have hmem : g ∈ (gate W s).owners := by
      show g ∈ s.wait.owners
      rw [howners]
      exact Multiset.mem_cons_self g _
    rw [hgate]
    exact .wake k g hwaking hmem

theorem add_gate {n : Nat} (hcall : (s.task k).call = .add n)
    (hst : callStep W k spurious s (.add n) = some s') :
    Gate.Step (gate W s) .plain (gate W s') := by
  have hnext : gate W (s.setCall k .wakeAll) =
      (gate W s).modify k fun t => { t with wakingAll := true } :=
    gate_modify s k (by simp only [Task.gate, hcall, Call.waking, Call.wakingAll])
  simp only [callStep, Option.map_eq_some_iff] at hst
  obtain ⟨add, -, hst⟩ := hst
  have hgate : gate W s' = { (gate W s).modify k fun t => { t with wakingAll := true } with
      free := W.free (add n s.word) } := by
    rw [← hst, ← hnext]
    rfl
  rw [hgate]
  exact .add k

theorem wakeAll_gate (hcall : (s.task k).call = .wakeAll)
    (hst : callStep W k spurious s .wakeAll = some s') :
    Gate.Step (gate W s) .plain (gate W s') := by
  have hidle : gate W (s.setCall k .idle) =
      (gate W s).modify k fun t => { t with wakingAll := false } :=
    gate_modify s k (by simp only [Task.gate, hcall, Call.waking, Call.wakingAll])
  simp only [callStep, Option.some.injEq] at hst
  have hgate : gate W s' =
      ((gate W s).modify k fun t => { t with wakingAll := false }).wakeOwners := by
    rw [← hst, ← hidle]
    simp only [gate, Gate.St.wakeOwners, WaitQueue.invoke, WaitQueue.mem_wakeAll]
    congr 1
    funext j
    exact apply_ite Task.gate _ _ _
  rw [hgate]
  exact .wakeAll k

theorem callStep_gate (hst : callStep W k spurious s (s.task k).call = some s') :
    Gate.Step (gate W s) (label (.runCall k spurious) s) (gate W s') := by
  cases hcall : (s.task k).call with
  | wakeOne => exact wakeOne_gate hcall (hcall ▸ hst)
  | idle =>
    rw [hcall] at hst
    cases hst
  | trying t =>
    simp only [label, hcall]
    exact trying_gate hcall (hcall ▸ hst)
  | release =>
    simp only [label, hcall]
    exact release_gate hcall (hcall ▸ hst)
  | add n =>
    simp only [label, hcall]
    exact add_gate hcall (hcall ▸ hst)
  | wakeAll =>
    simp only [label, hcall]
    exact wakeAll_gate hcall (hcall ▸ hst)

theorem beginCall_gate {call : Call Try} (h : call.waking = false ∧ call.wakingAll = false)
    (hst : s.beginCall k call = some s') : gate W s' = gate W s := by
  unfold St.beginCall at hst
  split at hst
  case h_1 hcall =>
    cases hst
    refine gate_setCall_same k ?_
    rw [hcall]
    exact h
  case h_2 => cases hst

end

/-- The steps are steps of a gate. -/
theorem step_gate {a : Act m} (hst : step W a s = some s') :
    Gate.Step (gate W s) (label a s) (gate W s') := by
  cases a with
  | poll j =>
    simp only [step] at hst
    have hbegin :
        gate W (s.modify j fun t => { t with future := .polling .check, woken := false }) =
        (gate W s).modify j fun t => { t with phase := .asking false, woken := false } :=
      gate_modify s j rfl
    split at hst
    case h_1 => cases hst
    case h_2 hfuture =>
      cases hst
      rw [hbegin]
      exact .begin j (.inl (congrArg Future.phase hfuture))
    case h_3 hfuture =>
      cases hst
      rw [hbegin]
      exact .begin j (.inr (congrArg Future.phase hfuture))
  | dropFuture j =>
    simp only [step] at hst
    split at hst
    case h_1 hfuture =>
      cases hst
      rw [gate_setFuture]
      exact .drop j (congrArg Future.phase hfuture)
    case h_2 => cases hst
    case h_3 => cases hst
  | tryTake k =>
    rw [beginCall_gate ⟨rfl, rfl⟩ hst]
    exact .stay
  | dropPermit k | addPermits k n =>
    simp only [step] at hst
    split at hst
    case isTrue =>
      rw [beginCall_gate ⟨rfl, rfl⟩ hst]
      exact .stay
    case isFalse => cases hst
  | runPoll j spurious =>
    simp only [step] at hst
    split at hst
    case h_1 pc hpc =>
      cases hst
      exact pollStep_gate hpc spurious
    case h_2 => cases hst
    case h_3 => cases hst
  | runCall k spurious => exact callStep_gate hst

end

/-! ## No waiter is stranded -/

def Task.busy (t : Task Try) : Bool :=
  match t.future, t.call with
  | .none, .idle | .pending, .idle => false
  | _, _ => true

/-- The task has a live future whose latest poll returned `Pending`. -/
def Task.waits (t : Task Try) : Bool :=
  match t.future with
  | .pending => true
  | .none | .polling _ => false

/-- No waiter is stranded: one of them will be polled again and get the permit. -/
def NotStranded (available : Prop) (s : St Word Try m) : Prop :=
  (∀ j, (s.task j).busy = false) → available →
    (∃ j, (s.task j).waits) → ∃ j, (s.task j).waits ∧ (s.task j).woken

instance (available : Prop) [Decidable available] (s : St Word Try m) :
    Decidable (NotStranded available s) :=
  inferInstanceAs (Decidable (_ → _ → _ → ∃ j, (s.task j).waits ∧ (s.task j).woken))

/-- No wake is lost that is needed. A wake is lost when `wake_one` spends it on a
registration of a task that does not sleep, or when a future that has been woken is dropped.
Either is harmless when nobody sleeps, or when there are more wakes on their way than free
permits: releases that have not woken anybody yet, polls before their last attempt, and
futures that have been woken and not been polled since. -/
def NoWakeLost (W : PermitWord Word Try) (s : St Word Try m) (a : Act m) : Prop :=
  Gate.Spares (gate W s) (label a s)

instance (W : PermitWord Word Try) (s : St Word Try m) (a : Act m) :
    Decidable (NoWakeLost W s a) :=
  inferInstanceAs (Decidable (Gate.Spares (gate W s) (label a s)))

/-- A run from `new` in which no wake is lost that is needed. -/
abbrev PermitRun (W : PermitWord Word Try) (word : Word) : List (Act m) → St Word Try m → Prop :=
  Run (· = St.new word) (step W) (NoWakeLost W)

theorem gate_new (W : PermitWord Word Try) (word : Word) :
    Gate.Inv (gate W (St.new word : St Word Try m)) := by
  refine ⟨fun j hj => ?_, fun ⟨j, hj⟩ => ?_⟩
  · cases hj
  · cases hj

variable {W : PermitWord Word Try} {word : Word}

theorem gate_run {tr : List (Act m)} {s : St Word Try m} (h : PermitRun W word tr s) :
    Gate.Inv (gate W s) := by
  refine h.invariant (I := fun _ s => Gate.Inv (gate W s)) ?_ ?_
  · rintro s rfl
    exact gate_new W word
  · intro tr s a s' hinv hok hst
    exact hinv.step (step_gate hst) hok

theorem Task.gate_waiting {t : Task Try} : t.gate.phase = .waiting ↔ t.waits := by
  unfold gate waits
  cases t.future with
  | none => exact ⟨nofun, nofun⟩
  | pending => exact ⟨fun _ => rfl, fun _ => rfl⟩
  | polling pc => cases pc <;> exact ⟨nofun, nofun⟩

theorem Task.gate_inProgress {t : Task Try} (h : t.busy = false) : t.gate.inProgress = false := by
  obtain ⟨future, woken, call⟩ := t
  cases future with
  | polling pc => cases h
  | none | pending =>
    cases call with
    | idle => rfl
    | _ => cases h

theorem notStranded_of_run {tr : List (Act m)} {s : St Word Try m} (h : PermitRun W word tr s) :
    NotStranded (0 < W.free s.word) s := by
  rintro hquiet hfree ⟨i, hi⟩
  obtain ⟨j, hj, hwoken⟩ := (gate_run h).someone_awake (fun j => Task.gate_inProgress (hquiet j))
    rfl hfree ⟨i, Task.gate_waiting.mpr hi⟩
  exact ⟨j, Task.gate_waiting.mp hj, hwoken⟩

/-- In every run of a mutex and of a semaphore in which no wake is lost that is needed, no
waiter is stranded. -/
theorem waiters_not_stranded (m : Nat) :
    (∀ (tr : List (Act m)) (s : St Bool Unit m), PermitRun Mutex.word false tr s →
      NotStranded (s.word = false) s) ∧
    (∀ (permits : Nat) (tr : List (Act m)) (s : St Nat Semaphore.Try m),
      PermitRun Semaphore.word permits tr s → NotStranded (0 < s.word) s) := by
  refine ⟨fun tr s h hquiet hfree hwaits => ?_, fun permits tr s h => notStranded_of_run h⟩
  have hone : 0 < Mutex.word.free s.word := by
    rw [hfree]
    decide
  exact notStranded_of_run h hquiet hone hwaits

/-- Task 0 has the permit, tasks 1 and 2 wait for it, task 1 after two polls, and task 0 gives
it back. An attempt that takes a permit has `n` atomic operations. -/
def polledTwice (n : Nat) : List (Act 3) :=
  [[.poll 0], .replicate (n + 1) (.runPoll 0 false),
    [.poll 1], .replicate 4 (.runPoll 1 false),
    [.poll 1], .replicate 3 (.runPoll 1 false),
    [.poll 2], .replicate 3 (.runPoll 2 false),
    [.dropPermit 0, .runCall 0 false, .runCall 0 false]].flatten

theorem waiters_not_stranded_polledTwice :
    (∃ (tr : List (Act 3)) (s : St Bool Unit 3), PermitRun Mutex.word false tr s ∧
      s.word = false ∧ (s.task 2).waits ∧ ∃ j, (s.task j).waits ∧ (s.task j).woken) ∧
    (∃ (tr : List (Act 3)) (s : St Nat Semaphore.Try 3), PermitRun Semaphore.word 1 tr s ∧
      0 < s.word ∧ (s.task 2).waits ∧ ∃ j, (s.task j).waits ∧ (s.task j).woken) := by
  constructor
  · obtain ⟨s, hrun, hfree, hwaits, hquiet⟩ : ∃ s, PermitRun Mutex.word false
        (polledTwice 1).reverse s ∧ s.word = false ∧ (s.task 2).waits ∧
        ∀ j, (s.task j).busy = false :=
      Run.exists_of_guarded (polledTwice 1) (St.new false) rfl (by decide +kernel)
    exact ⟨_, s, hrun, hfree, hwaits,
      (waiters_not_stranded 3).1 _ s hrun hquiet hfree ⟨2, hwaits⟩⟩
  · obtain ⟨s, hrun, hfree, hwaits, hquiet⟩ : ∃ s, PermitRun Semaphore.word 1
        (polledTwice 2).reverse s ∧ s.word = 1 ∧ (s.task 2).waits ∧
        ∀ j, (s.task j).busy = false :=
      Run.exists_of_guarded (polledTwice 2) (St.new 1) rfl (by decide +kernel)
    have hfree : 0 < s.word := hfree ▸ Nat.one_pos
    exact ⟨_, s, hrun, hfree, hwaits,
      (waiters_not_stranded 3).2 1 _ s hrun hquiet hfree ⟨2, hwaits⟩⟩

theorem stranded_of_exec (acts : List (Act m)) (available : Word → Prop) [DecidablePred available]
    (h : (exec (step W) acts (St.new word)).map
      (fun s => decide (NotStranded (available s.word) s)) = some false) :
    ∃ (tr : List (Act m)) (s : St Word Try m), Run (· = St.new word) (step W) Free tr s ∧
      ¬ NotStranded (available s.word) s := by
  obtain ⟨s, hexec, hfalse⟩ := Option.map_eq_some_iff.mp h
  exact ⟨_, s, Run.of_exec acts rfl hexec, of_decide_eq_false hfalse⟩

/-- After `polledTwice`, task 1 gets the permit and gives it back. -/
def takenAgain (n : Nat) : List (Act 3) :=
  [polledTwice n, [.poll 1], .replicate (n + 3) (.runPoll 1 false),
    [.dropPermit 1, .runCall 1 false, .runCall 1 false]].flatten

/-- The wake of the second release is spent on the other registration task 1 has left behind,
and task 2 sleeps on with the permit free. -/
theorem stale_registration_strands_waiter :
    (∃ (tr : List (Act 3)) (s : St Bool Unit 3),
      Run (· = St.new false) (step Mutex.word) Free tr s ∧ ¬ NotStranded (s.word = false) s) ∧
    (∃ (tr : List (Act 3)) (s : St Nat Semaphore.Try 3),
      Run (· = St.new 1) (step Semaphore.word) Free tr s ∧ ¬ NotStranded (0 < s.word) s) := by
  constructor
  · refine stranded_of_exec (takenAgain 1) (· = false) ?_
    decide +kernel
  · refine stranded_of_exec (takenAgain 2) (0 < ·) ?_
    decide +kernel

/-- Two permits come back between the failed attempt of task 1 and its registration; task 1
takes one and leaves an entry in the queue. Task 2 therefore registers, takes the other and has
not retracted its registration when task 0 begins to wait and task 1 gives a permit back. -/
def retractedLate : List (Act 3) :=
  [[.tryTake 0, .runCall 0 false, .runCall 0 false, .tryTake 0, .runCall 0 false, .runCall 0 false],
    [.poll 1, .runPoll 1 false, .runPoll 1 false],
    [.dropPermit 0, .runCall 0 false, .runCall 0 false],
    [.dropPermit 0, .runCall 0 false, .runCall 0 false],
    .replicate 4 (.runPoll 1 false),
    [.poll 2], .replicate 4 (.runPoll 2 false),
    [.poll 0], .replicate 3 (.runPoll 0 false),
    [.dropPermit 1, .runCall 1 false, .runCall 1 false],
    [.runPoll 2 false]].flatten

/-- The wake goes to task 2, which has its permit. A semaphore strands a waiter also when no
future is polled before it is woken and none is dropped. -/
theorem late_retraction_strands_waiter :
    ∃ (tr : List (Act 3)) (s : St Nat Semaphore.Try 3),
      Run (· = St.new 2) (step Semaphore.word) Free tr s ∧ ¬ NotStranded (0 < s.word) s := by
  refine stranded_of_exec retractedLate (0 < ·) ?_
  decide +kernel

/-! ## Permits are conserved -/

def Future.carries : Future Try → Nat
  | .polling (.cancel _) => 1
  | _ => 0

def Call.carries : Call Try → Nat
  | .release => 1
  | .add n => n
  | _ => 0

/-- The permits that a task has on the way: one that a poll has taken and not returned yet, and
those that a call is about to put into the word. -/
def Task.carries (t : Task Try) : Nat := t.future.carries + t.call.carries

/-- The permits in the word, those that are held and those on the way. -/
def St.permits (W : PermitWord Word Try) (s : St Word Try m) : Nat :=
  W.free s.word + s.held + ∑ j, (s.task j).carries

def Act.adds : Act m → Nat
  | .addPermits _ n => n
  | _ => 0

/-- What all calls of `add_permits` in a run add. -/
def added (tr : List (Act m)) : Nat := (tr.map Act.adds).sum

/-- The word does not overflow when the call puts its permits into it. -/
def Call.Fits (W : PermitWord Word Try) (word : Word) : Call Try → Prop
  | .release => W.free (W.release word) = W.free word + 1
  | .add n => ∀ add ∈ W.add, W.free (add n word) = W.free word + n
  | _ => True

abbrev FreeRun (W : PermitWord Word Try) (word : Word) : List (Act m) → St Word Try m → Prop :=
  Run (· = St.new word) (step W) Free

section

variable {s s' : St Word Try m}

theorem permits_modify (n : Nat) (j : Fin m) (f : Task Try → Task Try) {word : Word}
    {wait : WaitQueue (Fin m)} {held : Nat}
    (h : W.free word + held + (f (s.task j)).carries =
      W.free s.word + s.held + (s.task j).carries + n) :
    St.permits W ⟨word, wait, held, (s.modify j f).task⟩ = s.permits W + n := by
  have hsum := Bags.sum_update s.task Task.carries (Finset.mem_univ j) (f (s.task j))
  show W.free word + held + ∑ i, (Function.update s.task j _ i).carries = _
  unfold St.permits
  omega

theorem permits_modify_same {j : Fin m} {f : Task Try → Task Try}
    (hf : (f (s.task j)).carries = (s.task j).carries) :
    (s.modify j f).permits W = s.permits W :=
  permits_modify 0 j f (congrArg _ hf)

theorem pollStep_permits {j : Fin m} {pc : PollPc Try} (hpc : (s.task j).future = .polling pc)
    (spurious : Bool) : (pollStep W j spurious s pc).permits W = s.permits W := by
  have hset (future : Future Try) {word : Word} {wait : WaitQueue (Fin m)} {held : Nat}
      (h : W.free word + held + future.carries =
        W.free s.word + s.held + (Future.polling pc).carries) :
      St.permits W ⟨word, wait, held, (s.setFuture j future).task⟩ = s.permits W := by
    refine permits_modify 0 j (fun t => { t with future }) ?_
    rw [← hpc] at h
    dsimp only [Task.carries]
    omega
  cases pc with
  | check =>
    simp only [pollStep]
    split
    · exact hset _ rfl
    · exact hset _ rfl
  | register => exact hset _ rfl
  | cancel token => exact hset .none rfl
  | fast t | slow token t =>
    simp only [pollStep]
    cases hattempt : W.attempt spurious t s.word with
    | goto t | failed => exact hset _ rfl
    | taken word =>
      have htaken := W.free_taken hattempt
      refine hset _ ?_
      dsimp only [Future.carries, St.setFuture, St.modify]
      omega

theorem callStep_permits {k : Fin m} {spurious : Bool}
    (hfits : (s.task k).call.Fits W s.word)
    (hst : callStep W k spurious s (s.task k).call = some s') :
    s'.permits W = s.permits W := by
  have hset (call : Call Try) {word : Word} {wait : WaitQueue (Fin m)} {held : Nat}
      (h : W.free word + held + call.carries =
        W.free s.word + s.held + (s.task k).call.carries) :
      St.permits W ⟨word, wait, held, (s.setCall k call).task⟩ = s.permits W := by
    refine permits_modify 0 k (fun t => { t with call }) ?_
    dsimp only [Task.carries]
    omega
  generalize (s.task k).call = call at hst hset hfits
  cases call with
  | idle => cases hst
  | trying t =>
    simp only [callStep] at hst
    cases hattempt : W.attempt spurious t s.word with
    | goto t | failed =>
      rw [hattempt] at hst
      cases hst
      exact hset _ rfl
    | taken word =>
      rw [hattempt] at hst
      cases hst
      have htaken := W.free_taken hattempt
      refine hset _ ?_
      dsimp only [Call.carries]
      omega
  | release =>
    cases hst
    refine hset _ ?_
    rw [show W.free _ = _ from hfits]
    exact Nat.add_right_comm _ 1 s.held
  | add n =>
    obtain ⟨add, hsome, rfl⟩ := Option.map_eq_some_iff.mp hst
    refine hset _ ?_
    rw [hfits add hsome]
    exact Nat.add_right_comm _ n s.held
  | wakeOne =>
    have hidle : (s.setCall k .idle).permits W = s.permits W := hset .idle rfl
    simp only [callStep] at hst
    split at hst
    · next g _ _ =>
      cases hst
      have hwoken := permits_modify_same (W := W) (s := s.setCall k .idle) (j := g)
        (f := fun t => { t with woken := true }) rfl
      exact hwoken.trans hidle
    · cases hst
      exact hidle
  | wakeAll =>
    have hidle : (s.setCall k .idle).permits W = s.permits W := hset .idle rfl
    cases hst
    rw [← hidle]
    refine congrArg (W.free s.word + s.held + ·) (Finset.sum_congr rfl fun j _ => ?_)
    simp only [WaitQueue.invoke]
    split <;> rfl

theorem beginCall_permits {k : Fin m} {call : Call Try} (hst : s.beginCall k call = some s') :
    s'.permits W = s.permits W + call.carries := by
  unfold St.beginCall at hst
  split at hst
  · next hidle =>
    cases hst
    refine permits_modify call.carries k (fun t => { t with call }) ?_
    dsimp only [Task.carries]
    rw [hidle]
    exact (Nat.add_assoc ..).symm
  · cases hst

theorem step_permits (hfits : ∀ k, (s.task k).call.Fits W s.word) {a : Act m}
    (hst : step W a s = some s') : s'.permits W = s.permits W + a.adds := by
  cases a with
  | poll j | dropFuture j =>
    simp only [step] at hst
    split at hst
    all_goals cases hst
    all_goals
      next hfuture =>
        refine permits_modify_same ?_
        simp only [Task.carries, hfuture, Future.carries]
  | tryTake k => exact beginCall_permits hst
  | addPermits k n =>
    obtain ⟨-, hst⟩ := Option.ite_none_right_eq_some.mp hst
    exact beginCall_permits hst
  | dropPermit k =>
    obtain ⟨hheld, hst⟩ := Option.ite_none_right_eq_some.mp hst
    rw [beginCall_permits hst]
    unfold St.permits
    dsimp only [Call.carries, Act.adds]
    omega
  | runPoll j spurious =>
    simp only [step] at hst
    split at hst
    · next hpc =>
      cases hst
      exact pollStep_permits hpc spurious
    · cases hst
    · cases hst
  | runCall k spurious => exact callStep_permits (hfits k) hst

theorem permits_new (W : PermitWord Word Try) (word : Word) :
    (St.new word : St Word Try m).permits W = W.free word := by
  unfold St.permits
  exact congrArg _ (Finset.sum_eq_zero fun _ _ => rfl)

/-- What a call is about to put into the word is not in it. -/
theorem free_add_carries_le (W : PermitWord Word Try) (s : St Word Try m) (k : Fin m) :
    W.free s.word + (s.task k).call.carries ≤ s.permits W := by
  have hk : (s.task k).carries ≤ ∑ j, (s.task j).carries :=
    Finset.single_le_sum (f := fun j => (s.task j).carries) (fun _ _ => Nat.zero_le _)
      (Finset.mem_univ k)
  have hcall : (s.task k).call.carries ≤ (s.task k).carries := Nat.le_add_left ..
  unfold St.permits
  omega

end

theorem mutex_fits {locked : Bool} {call : Call Unit}
    (h : Mutex.free locked + call.carries ≤ 1) : call.Fits Mutex.word locked := by
  cases call with
  | release =>
    cases locked with
    | true => rfl
    | false => exact absurd h (by decide)
  | add n => nofun
  | _ => trivial

theorem semaphore_fits {permits : Nat} {call : Call Semaphore.Try}
    (h : permits + call.carries < usizeMod) : call.Fits Semaphore.word permits := by
  cases call with
  | release => exact Nat.mod_eq_of_lt h
  | add n =>
    rintro add ⟨rfl⟩
    exact Nat.mod_eq_of_lt h
  | _ => trivial

/-- **Mutual exclusion.** In every run of a mutex at most one guard is alive, and the mutex is
locked exactly while one is alive or on the way. -/
theorem mutex_exclusive {tr : List (Act m)} {s : St Bool Unit m}
    (h : FreeRun Mutex.word false tr s) :
    s.held ≤ 1 ∧ s.held + ∑ j, (s.task j).carries = if s.word then 1 else 0 := by
  have hone : s.permits Mutex.word = 1 := by
    refine h.invariant (I := fun _ s => s.permits Mutex.word = 1) ?_ ?_
    · rintro s rfl
      exact permits_new Mutex.word false
    · intro _ s a s' hone _ hst
      have hfits (k : Fin m) : (s.task k).call.Fits Mutex.word s.word :=
        mutex_fits ((free_add_carries_le Mutex.word s k).trans hone.le)
      rw [step_permits hfits hst, hone]
      cases a with
      | addPermits k n => cases hst
      | _ => rfl
  change Mutex.free s.word + s.held + ∑ j, (s.task j).carries = 1 at hone
  unfold Mutex.free at hone
  split at hone
  · next hlocked =>
    rw [if_pos hlocked]
    omega
  · next hfree =>
    rw [if_neg hfree]
    omega

/-- Task 0 has the guard and the others wait for it. -/
theorem mutex_exclusive_locked : ∃ (tr : List (Act 3)) (s : St Bool Unit 3),
    FreeRun Mutex.word false tr s ∧ s.word = true ∧ s.held = 1 ∧
      s.held + ∑ j, (s.task j).carries = if s.word then 1 else 0 := by
  obtain ⟨s, hrun, hword, hheld⟩ : ∃ s, FreeRun Mutex.word false
      ((polledTwice 1).take 16).reverse s ∧ s.word = true ∧ s.held = 1 :=
    Run.exists_of_exec ((polledTwice 1).take 16) (St.new false) rfl (by decide +kernel)
  exact ⟨_, s, hrun, hword, hheld, (mutex_exclusive hrun).2⟩

/-- **Permits are conserved.** In every run of a semaphore whose word does not overflow, the permits
that are free, held and on the way are those of `new` and those that were added. -/
theorem semaphore_conserves {permits : Nat} {tr : List (Act m)} {s : St Nat Semaphore.Try m}
    (h : FreeRun Semaphore.word permits tr s)
    (hlt : permits + added tr < usizeMod) :
    s.word + s.held + ∑ j, (s.task j).carries = permits + added tr := by
  refine h.invariant (I := fun tr s => permits + added tr < usizeMod →
    s.permits Semaphore.word = permits + added tr) ?_ ?_ hlt
  · rintro s rfl _
    exact permits_new Semaphore.word permits
  · intro tr s a s' ih _ hst hlt
    have hadded : added (a :: tr) = a.adds + added tr := rfl
    have hs := ih (by omega)
    have hfits (k : Fin m) : (s.task k).call.Fits Semaphore.word s.word :=
      semaphore_fits ((free_add_carries_le Semaphore.word s k).trans_lt (by omega))
    rw [step_permits hfits hst, hs]
    omega

/-- Task 0 takes the only permit, and task 1 adds two. -/
def takeAndAdd : List (Act 2) :=
  .poll 0 :: .replicate 3 (.runPoll 0 false) ++ [.addPermits 1 2, .runCall 1 false]

theorem semaphore_conserves_takeAndAdd : ∃ s : St Nat Semaphore.Try 2,
    FreeRun Semaphore.word 1 takeAndAdd.reverse s ∧ s.word = 2 ∧ s.held = 1 ∧
      s.word + s.held + ∑ j, (s.task j).carries = 1 + 2 := by
  obtain ⟨s, hrun, hword, hheld⟩ : ∃ s, FreeRun Semaphore.word 1 takeAndAdd.reverse s ∧
      s.word = 2 ∧ s.held = 1 :=
    Run.exists_of_exec takeAndAdd (St.new 1) rfl (by decide +kernel)
  exact ⟨s, hrun, hword, hheld, semaphore_conserves hrun (by decide)⟩

end Dtact.Permits
