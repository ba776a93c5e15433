import Mathlib.Data.Fintype.Option
import Dtact.Lib.Gate
import Dtact.Lib.Transition
import Dtact.Util.WaitQueue
import Dtact.Words

/-!
# The bounded `mpsc` channel

`poll_send` and `poll_recv`, one operation on the shared state at a time. The buffer is a list
bounded by the capacity, as `BoundedMpmcQueue` is from capacity two on. A sender that finds it full
registers in `send_wait`, anew with every poll, and the receiver wakes one registration for each
message.
-/

namespace Dtact.Mpsc

open Transition

variable {T : Type} {m : Nat}

/-! ## The two ends -/

/-- Where a sender is in `poll_send`. -/
inductive SendPc (T : Type)
  | closed (value : T)
  | check (value : T)
  | fastPush (value : T)
  | register (value : T)
  | closedAgain (token : Nat) (value : T)
  | cancelFailed (token : Nat) (value : T)
  | slowPush (token : Nat) (value : T)
  | cancelSent (token : Nat)
  | recvCheck
  | recvWake

/-- The future of `send`. `sent` and `failed` are its results. -/
inductive SendFuture (T : Type)
  | none
  | polling (pc : SendPc T)
  | pending (value : T)
  | sent
  | failed (value : T)

structure SendTask (T : Type) where
  future : SendFuture T
  /-- The waker has been invoked since the latest poll began. -/
  woken : Bool

/-- The calls of `try_pop` in `poll_recv`, in their order; the last two are made by a receiver
that is registered. -/
inductive PopSite
  | first
  | last
  | second (token : Nat)
  | lastRegistered (token : Nat)

/-- Where the receiver is in `poll_recv`; `popCheck` and `popWake` are the end of `try_pop`. -/
inductive RecvPc (T : Type)
  | pop (site : PopSite)
  | popCheck (site : PopSite) (value : T)
  | popWake (site : PopSite) (value : T)
  | closed
  | register
  | closedAgain (token : Nat)
  | cancel (token : Nat) (result : Option T)

/-- The receiver, with the future of `recv`, and its drop. -/
inductive Receiver (T : Type)
  | idle
  | polling (pc : RecvPc T)
  | pending
  | ready (result : Option T)
  | dropping
  | dropWake
  | dropped

structure St (T : Type) (m : Nat) where
  queue : List T
  senderCount : Nat
  receiverDropped : Bool
  recvWait : WaitQueue Unit
  sendWait : WaitQueue (Fin m)
  sender : Fin m → SendTask T
  receiver : Receiver T
  receiverWoken : Bool
  /-- The drop of the last `Sender` has the `wake_all` ahead. -/
  lastDrop : Bool

/-- `channel`, and no task has done anything. -/
def St.new : St T m :=
  ⟨[], 1, false, .new, .new, fun _ => ⟨.none, false⟩, .idle, false, false⟩

def St.modify (s : St T m) (j : Fin m) (f : SendTask T → SendTask T) : St T m :=
  { s with sender := Function.update s.sender j (f (s.sender j)) }

def St.setFuture (s : St T m) (j : Fin m) (future : SendFuture T) : St T m :=
  s.modify j fun t => { t with future }

/-! ## Steps -/

/-- One step of `poll_send`. -/
def sendStep (c : Nat) (j : Fin m) (s : St T m) : SendPc T → St T m
  | .closed value =>
    if s.receiverDropped then s.setFuture j (.failed value)
    else s.setFuture j (.polling (.check value))
  | .check value =>
    if s.sendWait.hasWaiters then s.setFuture j (.polling (.register value))
    else s.setFuture j (.polling (.fastPush value))
  | .fastPush value =>
    if s.queue.length < c then
      { s.setFuture j (.polling .recvCheck) with queue := s.queue ++ [value] }
    else s.setFuture j (.polling (.register value))
  | .register value =>
    let (token, sendWait) := s.sendWait.register j
    { s.setFuture j (.polling (.closedAgain token.number value)) with sendWait }
  | .closedAgain token value =>
    if s.receiverDropped then s.setFuture j (.polling (.cancelFailed token value))
    else s.setFuture j (.polling (.slowPush token value))
  | .cancelFailed token value =>
    { s.setFuture j (.failed value) with sendWait := s.sendWait.cancel ⟨token, j⟩ }
  | .slowPush token value =>
    if s.queue.length < c then
      { s.setFuture j (.polling (.cancelSent token)) with queue := s.queue ++ [value] }
    else s.setFuture j (.pending value)
  | .cancelSent token =>
    { s.setFuture j (.polling .recvCheck) with sendWait := s.sendWait.cancel ⟨token, j⟩ }
  | .recvCheck =>
    if s.recvWait.hasWaiters then s.setFuture j (.polling .recvWake) else s.setFuture j .sent
  | .recvWake =>
    let (waker, recvWait) := s.recvWait.wakeOne
    { s.setFuture j .sent with
      recvWait
      receiverWoken := s.receiverWoken || waker.isSome }

/-- What `poll_recv` does with the result of `try_pop`. -/
def afterPop : PopSite → Option T → Receiver T
  | .first, none => .polling .closed
  | .first, some value => .ready (some value)
  | .last, result => .ready result
  | .second token, none => .polling (.closedAgain token)
  | .second token, some value => .polling (.cancel token (some value))
  | .lastRegistered token, result => .polling (.cancel token result)

/-- One step of `poll_recv`. -/
def recvStep (s : St T m) : RecvPc T → St T m
  | .pop site =>
    match s.queue with
    | [] => { s with receiver := afterPop site none }
    | value :: queue => { s with queue, receiver := .polling (.popCheck site value) }
  | .popCheck site value =>
    if s.sendWait.hasWaiters then { s with receiver := .polling (.popWake site value) }
    else { s with receiver := afterPop site (some value) }
  | .popWake site value =>
    match s.sendWait.wakeOne with
    | (some j, sendWait) =>
      { s.modify j fun t => { t with woken := true } with
        sendWait
        receiver := afterPop site (some value) }
    | (none, sendWait) => { s with sendWait, receiver := afterPop site (some value) }
  | .closed =>
    if s.senderCount = 0 then { s with receiver := .polling (.pop .last) }
    else { s with receiver := .polling .register }
  | .register =>
    let (token, recvWait) := s.recvWait.register ()
    { s with recvWait, receiver := .polling (.pop (.second token.number)) }
  | .closedAgain token =>
    if s.senderCount = 0 then { s with receiver := .polling (.pop (.lastRegistered token)) }
    else { s with receiver := .pending }
  | .cancel token result =>
    { s with recvWait := s.recvWait.cancel ⟨token, ()⟩, receiver := .ready result }

/-- The next step of the receiver, in `poll_recv` or in its drop. -/
def receiverStep (s : St T m) : Receiver T → Option (St T m)
  | .polling pc => some (recvStep s pc)
  | .dropping => some { s with receiverDropped := true, receiver := .dropWake }
  | .dropWake =>
    let (wakers, sendWait) := s.sendWait.wakeAll
    some { s with
      sendWait
      sender := WaitQueue.invoke wakers (fun t => { t with woken := true }) s.sender
      receiver := .dropped }
  | .idle | .pending | .ready _ | .dropped => none

inductive Act (T : Type) (m : Nat)
  | send (j : Fin m) (value : T)
  | pollSend (j : Fin m)
  | dropSend (j : Fin m)
  | runSend (j : Fin m)
  | pollRecv
  | dropRecv
  | dropReceiver
  | runRecv
  | cloneSender
  | dropSender
  | lastDropWake

/-- A live future borrows its `Sender`. -/
def SendFuture.live : SendFuture T → Bool
  | .polling _ | .pending _ => true
  | .none | .sent | .failed _ => false

def St.beginRecv (s : St T m) : St T m :=
  { s with receiver := .polling (.pop .first), receiverWoken := false }

/-- The channel with a ring of `c` places. `send` begins a send with its first poll, `pollSend`
polls a pending one again. The last `Sender` is not dropped while a future borrows it, nor the
receiver. -/
def step (c : Nat) : Act T m → St T m → Option (St T m)
  | .send j value, s =>
    if (s.sender j).future.live ∨ s.senderCount = 0 then none
    else some (s.modify j fun _ => ⟨.polling (.closed value), false⟩)
  | .pollSend j, s =>
    match (s.sender j).future with
    | .pending value => some (s.modify j fun _ => ⟨.polling (.closed value), false⟩)
    | _ => none
  | .dropSend j, s =>
    match (s.sender j).future with
    | .pending _ => some (s.setFuture j .none)
    | _ => none
  | .runSend j, s =>
    match (s.sender j).future with
    | .polling pc => some (sendStep c j s pc)
    | _ => none
  | .pollRecv, s =>
    match s.receiver with
    | .idle | .pending | .ready _ => some s.beginRecv
    | _ => none
  | .dropRecv, s =>
    match s.receiver with
    | .pending => some { s with receiver := .idle }
    | _ => none
  | .dropReceiver, s =>
    match s.receiver with
    | .idle | .ready _ => some { s with receiver := .dropping }
    | _ => none
  | .runRecv, s => receiverStep s s.receiver
  | .cloneSender, s =>
    if 0 < s.senderCount then some { s with senderCount := wrappingAdd s.senderCount 1 } else none
  | .dropSender, s =>
    if s.senderCount = 1 ∧ ∀ j, (s.sender j).future.live = false then
      some { s with senderCount := 0, lastDrop := true }
    else if 1 < s.senderCount then some { s with senderCount := s.senderCount - 1 }
    else none
  | .lastDropWake, s =>
    if s.lastDrop then
      some { s with
        recvWait := s.recvWait.wakeAll.2
        receiverWoken := s.receiverWoken || s.recvWait.wakeAll.1 ≠ []
        lastDrop := false }
    else none

/-! ## The gate -/

/-- A sender holds no registration any more when it looks at the receiver. -/
def SendPc.phase : SendPc T → Gate.Phase
  | .closed _ | .check _ | .fastPush _ | .register _ => .asking false
  | .closedAgain _ _ | .slowPush _ _ => .asking true
  | .cancelFailed _ _ | .cancelSent _ | .recvCheck | .recvWake => .leaving

def SendFuture.phase : SendFuture T → Gate.Phase
  | .none | .sent | .failed _ => .away
  | .polling pc => pc.phase
  | .pending _ => .waiting

/-- The receiver has taken a message and has not seen to the senders. -/
def Receiver.waking : Receiver T → Bool
  | .polling (.popCheck _ _) | .polling (.popWake _ _) => true
  | _ => false

def SendTask.gate (t : SendTask T) : Gate.Task := ⟨t.future.phase, t.woken, false, false⟩

def Receiver.gate (r : Receiver T) : Gate.Task := ⟨.away, false, r.waking, false⟩

/-- The tasks of the gate are the senders and, as `none`, the receiver. -/
def gateTask (s : St T m) : Option (Fin m) → Gate.Task
  | none => s.receiver.gate
  | some j => (s.sender j).gate

def gate (c : Nat) (s : St T m) : Gate.St (Option (Fin m)) :=
  ⟨c - s.queue.length, s.sendWait.owners.map some, gateTask s, s.receiverDropped⟩

/-- The wake a step spends, or may lose. -/
def label : Act T m → St T m → Gate.Label (Option (Fin m))
  | .dropSend j, _ => .drop (some j)
  | .runRecv, s =>
    match s.receiver with
    | .polling (.popWake _ _) =>
      match s.sendWait.next with
      | some j => .wake (some j)
      | none => .plain
    | _ => .plain
  | _, _ => .plain

section

variable {c : Nat} {s s' : St T m}

theorem gate_modify (s : St T m) (j : Fin m) {f : SendTask T → SendTask T}
    {f' : Gate.Task → Gate.Task} (hf : (f (s.sender j)).gate = f' (s.sender j).gate) :
    gate c (s.modify j f) = (gate c s).modify (some j) f' := by
  have htask : gateTask (s.modify j f) =
      Function.update (gateTask s) (some j) (f' (s.sender j).gate) := by
    funext i
    cases i with
    | none => rfl
    | some i =>
      rcases eq_or_ne i j with rfl | hne
      · rw [Function.update_self, ← hf]
        exact congrArg SendTask.gate (Function.update_self ..)
      · rw [Function.update_of_ne fun h => hne (Option.some.inj h)]
        exact congrArg SendTask.gate (Function.update_of_ne hne ..)
  exact congrArg (fun task => { gate c s with task }) htask

theorem gate_setFuture (s : St T m) (j : Fin m) (future : SendFuture T) :
    gate c (s.setFuture j future) = (gate c s).setPhase (some j) future.phase :=
  gate_modify s j rfl

theorem gate_update (s : St T m) (j : Fin m) (future : SendFuture T) (queue : List T)
    (recvWait : WaitQueue Unit) (sendWait : WaitQueue (Fin m)) (receiverWoken : Bool) :
    gate c { s.setFuture j future with queue, recvWait, sendWait, receiverWoken } =
      { (gate c s).setPhase (some j) future.phase with
        free := c - queue.length, owners := sendWait.owners.map some } :=
  congrArg (fun g => { g with free := c - queue.length, owners := sendWait.owners.map some })
    (gate_setFuture (c := c) s j future)

theorem gate_setFuture_same (j : Fin m) {future : SendFuture T}
    (h : future.phase = (s.sender j).future.phase) : gate c (s.setFuture j future) = gate c s := by
  have hid : gate c (s.setFuture j future) = (gate c s).modify (some j) id :=
    gate_modify s j (by simp only [SendTask.gate, h, id])
  rw [hid, Gate.St.modify_eq_self rfl]

theorem sendStep_gate {j : Fin m} {pc : SendPc T} (hpc : (s.sender j).future = .polling pc) :
    Gate.Step (gate c s) .plain (gate c (sendStep c j s pc)) := by
  have hphase : ((gate c s).task (some j)).phase = pc.phase := congrArg SendFuture.phase hpc
  have hsame {pc' : SendPc T} (h : pc'.phase = pc.phase) :
      Gate.Step (gate c s) .plain (gate c (s.setFuture j (.polling pc'))) := by
    have hfuture : (SendFuture.polling pc').phase = (s.sender j).future.phase :=
      h.trans hphase.symm
    rw [gate_setFuture_same j hfuture]
    exact .stay
  have hfull (h : ¬ s.queue.length < c) : (gate c s).free = 0 :=
    Nat.sub_eq_zero_of_le (Nat.le_of_not_lt h)
  have hplace (h : s.queue.length < c) : 0 < (gate c s).free := Nat.sub_pos_of_lt h
  have hpush (value : T) : c - (s.queue ++ [value]).length = (gate c s).free - 1 := by
    rw [List.length_append, List.length_singleton]
    exact Nat.sub_add_eq c _ 1
  have hcancel (token : Nat) (i : Option (Fin m)) (hne : i ≠ some j) (hi : i ∈ (gate c s).owners) :
      i ∈ (s.sendWait.cancel ⟨token, j⟩).owners.map some := by
    have hi : i ∈ s.sendWait.owners.map some := hi
    obtain ⟨i, hmem, rfl⟩ := Multiset.mem_map.mp hi
    exact Multiset.mem_map_of_mem some
      (WaitQueue.mem_owners_cancel (fun h => hne (congrArg some h)) hmem)
  cases pc with
  | closed value =>
    simp only [sendStep]
    split
    case isTrue hdropped =>
      rw [gate_setFuture]
      exact .giveUp (some j) hdropped hphase (.inr rfl)
    case isFalse => exact hsame rfl
  | check value =>
    simp only [sendStep]
    split
    · exact hsame rfl
    · exact hsame rfl
  | fastPush value =>
    simp only [sendStep]
    split
    case isTrue hlt =>
      simp only [gate_update, hpush]
      exact .take (some j) hphase (.inl rfl) (hplace hlt)
    case isFalse => exact hsame rfl
  | register value =>
    simp only [sendStep, gate_update, WaitQueue.owners_register, Multiset.map_cons]
    exact .register (some j) hphase
  | closedAgain token value =>
    simp only [sendStep]
    split
    case isTrue hdropped =>
      rw [gate_setFuture]
      exact .giveUp (some j) hdropped hphase (.inl rfl)
    case isFalse => exact hsame rfl
  | cancelFailed token value =>
    simp only [sendStep, gate_update]
    exact .leave (some j) hphase (.inr rfl) (hcancel token)
  | slowPush token value =>
    simp only [sendStep]
    split
    case isTrue hlt =>
      simp only [gate_update, hpush]
      exact .take (some j) hphase (.inl rfl) (hplace hlt)
    case isFalse hge =>
      rw [gate_setFuture]
      exact .sleep (some j) hphase (hfull hge)
  | cancelSent token =>
    simp only [sendStep, gate_update]
    exact .leave (some j) hphase (.inl rfl) (hcancel token)
  | recvCheck =>
    simp only [sendStep]
    split
    · exact hsame rfl
    · rw [gate_setFuture]
      exact .leave (some j) hphase (.inr rfl) fun _ _ hi => hi
  | recvWake =>
    simp only [sendStep, gate_update]
    exact .leave (some j) hphase (.inr rfl) fun _ _ hi => hi

theorem gate_receiver (s : St T m) (receiver : Receiver T) :
    gate c { s with receiver } =
      (gate c s).modify none fun t => { t with waking := receiver.waking } := by
  have htask : gateTask { s with receiver } =
      Function.update (gateTask s) none receiver.gate := by
    funext i
    cases i with
    | none =>
      rw [Function.update_self]
      rfl
    | some i =>
      rw [Function.update_of_ne (Option.some_ne_none i)]
      rfl
  exact congrArg (fun task => { gate c s with task }) htask

theorem gate_receiver_same {receiver : Receiver T} (h : receiver.waking = s.receiver.waking) :
    gate c { s with receiver } = gate c s := by
  have htask : { (gate c s).task none with waking := receiver.waking } = (gate c s).task none := by
    rw [h]
    rfl
  rw [gate_receiver, Gate.St.modify_eq_self htask]

theorem waking_afterPop (site : PopSite) (result : Option T) :
    (afterPop site result).waking = false := by
  cases site <;> cases result <;> rfl

theorem gate_afterPop (s : St T m) (site : PopSite) (result : Option T) :
    gate c { s with receiver := afterPop site result } =
      (gate c s).modify none fun t => { t with waking := false } := by
  rw [gate_receiver s (afterPop site result), waking_afterPop]

theorem popWake_gate {site : PopSite} {value : T}
    (hr : s.receiver = .polling (.popWake site value)) :
    Gate.Step (gate c s) (label (.runRecv : Act T m) s)
      (gate c (recvStep s (.popWake site value))) := by
  have hwaking : ((gate c s).task none).waking := congrArg Receiver.waking hr
  simp only [label, hr, recvStep, ← WaitQueue.wakeOne_fst]
  rcases hwake : s.sendWait.wakeOne with ⟨waker, sendWait⟩
  cases waker with
  | none =>
    obtain ⟨hnone, hafter⟩ := WaitQueue.owners_of_wakeOne_none (congrArg Prod.fst hwake)
    rw [hwake] at hafter
    have hgate : gate c { s with sendWait, receiver := afterPop site (some value) } =
        (gate c s).modify none fun t => { t with waking := false } := by
      rw [← gate_afterPop s site (some value)]
      simp only [gate, hafter, hnone]
      rfl
    have howners : (gate c s).owners = 0 := congrArg (Multiset.map some) hnone
    simp only [hgate]
    exact .noWake none hwaking howners
  | some j =>
    have howners := WaitQueue.owners_wakeOne (congrArg Prod.fst hwake)
    rw [hwake] at howners
    have hwoken : gate c ({ s with receiver := afterPop site (some value) }.modify j
          fun t => { t with woken := true }) =
        ((gate c s).modify none fun t => { t with waking := false }).modify (some j)
          fun t => { t with woken := true } := by
      rw [← gate_afterPop s site (some value)]
      exact gate_modify _ j rfl
    have hgate : gate c { s.modify j fun t => { t with woken := true } with
          sendWait, receiver := afterPop site (some value) } =
        { ((gate c s).modify none fun t => { t with waking := false }).modify (some j)
            fun t => { t with woken := true } with
          owners := (gate c s).owners.erase (some j) } := by
      rw [← hwoken]
      simp only [gate, howners, Multiset.map_cons, Multiset.erase_cons_head]
      rfl
    have hmem : some j ∈ (gate c s).owners := by
      show some j ∈ s.sendWait.owners.map some
      rw [howners]
      exact Multiset.mem_map_of_mem some (Multiset.mem_cons_self j _)
    simp only [hgate]
    exact .wake none (some j) hwaking hmem

theorem recvStep_gate {pc : RecvPc T} (hr : s.receiver = .polling pc) :
    Gate.Step (gate c s) (label (.runRecv : Act T m) s) (gate c (recvStep s pc)) := by
  have hwaking : ((gate c s).task none).waking = (Receiver.polling pc).waking :=
    congrArg Receiver.waking hr
  have hsame {receiver : Receiver T} (h : receiver.waking = (Receiver.polling pc).waking) :
      Gate.Step (gate c s) .plain (gate c { s with receiver }) := by
    rw [gate_receiver_same (h.trans (congrArg Receiver.waking hr).symm)]
    exact .stay
  cases pc with
  | popWake site value => exact popWake_gate hr
  | pop site =>
    simp only [label, hr, recvStep]
    split
    case h_1 => exact hsame (waking_afterPop site none)
    case h_2 value queue hqueue =>
      have hgate : gate c { s with queue, receiver := .polling (.popCheck site value) } =
          { (gate c s).modify none fun t => { t with waking := true } with
            free := c - queue.length } :=
        congrArg (fun g => { g with free := c - queue.length })
          (gate_receiver (c := c) s (.polling (.popCheck site value)))
      have hfree : c - queue.length ≤ (gate c s).free + 1 := by
        simp only [gate, hqueue, List.length_cons]
        omega
      rw [hgate]
      exact .release none hwaking hfree
  | popCheck site value =>
    simp only [label, hr, recvStep]
    split
    case isTrue => exact hsame rfl
    case isFalse hnone =>
      have hnone := WaitQueue.owners_of_not_hasWaiters (Bool.eq_false_iff.mpr hnone)
      rw [gate_afterPop]
      exact .noWake none hwaking (congrArg (Multiset.map some) hnone)
  | closed | closedAgain token =>
    simp only [label, hr, recvStep]
    split
    · exact hsame rfl
    · exact hsame rfl
  | register | cancel token result =>
    simp only [label, hr, recvStep]
    exact hsame rfl

theorem dropWake_gate (hr : s.receiver = .dropWake) (hst : receiverStep s .dropWake = some s') :
    Gate.Step (gate c s) .plain (gate c s') := by
  simp only [receiverStep, Option.some.injEq] at hst
  have htask : gateTask s' = (gate c s).wakeOwners.task := by
    rw [← hst]
    funext i
    cases i with
    | none =>
      have hnone : none ∉ (gate c s).owners := by
        show none ∉ s.sendWait.owners.map some
        simp
      have hsame : (gate c s).wakeOwners.task none = s.receiver.gate := if_neg hnone
      rw [hsame, hr]
      rfl
    | some j =>
      have hmem : some j ∈ (gate c s).owners ↔ j ∈ s.sendWait.wakeAll.1 := by
        rw [WaitQueue.mem_wakeAll]
        show some j ∈ s.sendWait.owners.map some ↔ _
        exact Multiset.mem_map_of_injective (Option.some_injective _)
      simp only [gateTask, Gate.St.wakeOwners, hmem, WaitQueue.invoke]
      exact apply_ite SendTask.gate _ _ _
  have hgate : gate c s' =
      ((gate c s).modify none fun t => { t with wakingAll := false }).wakeOwners := by
    rw [Gate.St.modify_eq_self rfl, gate, htask, ← hst]
    rfl
  rw [hgate]
  exact .wakeAll none

theorem receiverStep_gate (hst : receiverStep s s.receiver = some s') :
    Gate.Step (gate c s) (label (.runRecv : Act T m) s) (gate c s') := by
  generalize hr : s.receiver = pc at hst
  cases pc with
  | polling pc =>
    cases hst
    exact recvStep_gate hr
  | dropping =>
    cases hst
    simp only [label, hr]
    have hsame : gate c { s with receiver := .dropWake } = gate c s :=
      gate_receiver_same (congrArg Receiver.waking hr).symm
    have hgate : gate c { s with receiverDropped := true, receiver := .dropWake } =
        { gate c s with closed := true } :=
      congrArg (fun g => { g with closed := true }) hsame
    rw [hgate]
    exact .close
  | dropWake =>
    simp only [label, hr]
    exact dropWake_gate hr hst
  | idle | pending | ready _ | dropped =>
    cases hst

/-- The channel is a gate whose permits are the free places. -/
theorem step_gate {a : Act T m} (hst : step c a s = some s') :
    Gate.Step (gate c s) (label a s) (gate c s') := by
  have hbegin (j : Fin m) (value : T) :
      gate c (s.modify j fun _ => ⟨.polling (.closed value), false⟩) =
        (gate c s).modify (some j) fun t => { t with phase := .asking false, woken := false } :=
    gate_modify s j rfl
  have hquiet {r r' : Receiver T} (hr : s.receiver = r) (h : r.waking = false)
      (h' : r'.waking = false) :
      Gate.Step (gate c s) .plain (gate c { s with receiver := r' }) := by
    rw [gate_receiver_same (h'.trans (hr ▸ h.symm))]
    exact .stay
  cases a with
  | send j value =>
    simp only [step] at hst
    split at hst
    case isTrue => cases hst
    case isFalse hidle =>
      cases hst
      have haway : ((gate c s).task (some j)).phase = .away := by
        show (s.sender j).future.phase = .away
        cases hfuture : (s.sender j).future with
        | none | sent | failed _ => rfl
        | polling pc | pending value => simp [hfuture, SendFuture.live] at hidle
      rw [hbegin]
      exact .begin (some j) (.inl haway)
  | pollSend j =>
    simp only [step] at hst
    split at hst
    case h_1 value hfuture =>
      cases hst
      rw [hbegin]
      exact .begin (some j) (.inr (congrArg SendFuture.phase hfuture))
    case h_2 => cases hst
  | dropSend j =>
    simp only [step] at hst
    split at hst
    case h_1 value hfuture =>
      cases hst
      rw [gate_setFuture]
      exact .drop (some j) (congrArg SendFuture.phase hfuture)
    case h_2 => cases hst
  | runSend j =>
    simp only [step] at hst
    split at hst
    case h_1 pc hpc =>
      cases hst
      exact sendStep_gate hpc
    case h_2 => cases hst
  | pollRecv =>
    simp only [step] at hst
    split at hst
    case h_1 hr =>
      cases hst
      exact hquiet hr rfl rfl
    case h_2 hr =>
      cases hst
      exact hquiet hr rfl rfl
    case h_3 hr =>
      cases hst
      exact hquiet hr rfl rfl
    case h_4 => cases hst
  | dropRecv =>
    simp only [step] at hst
    split at hst
    case h_1 hr =>
      cases hst
      exact hquiet hr rfl rfl
    case h_2 => cases hst
  | dropReceiver =>
    simp only [step] at hst
    split at hst
    case h_1 hr =>
      cases hst
      exact hquiet hr rfl rfl
    case h_2 hr =>
      cases hst
      exact hquiet hr rfl rfl
    case h_3 => cases hst
  | runRecv => exact receiverStep_gate hst
  | cloneSender | lastDropWake =>
    simp only [step] at hst
    split at hst
    case isTrue =>
      cases hst
      exact .stay
    case isFalse => cases hst
  | dropSender =>
    simp only [step] at hst
    split at hst
    case isTrue =>
      cases hst
      exact .stay
    case isFalse =>
      split at hst
      case isTrue =>
        cases hst
        exact .stay
      case isFalse => cases hst

end

/-! ## No sender is stranded -/

def SendTask.busy (t : SendTask T) : Bool :=
  match t.future with
  | .polling _ => true
  | _ => false

def Receiver.busy : Receiver T → Bool
  | .polling _ | .dropping | .dropWake => true
  | .idle | .pending | .ready _ | .dropped => false

/-- The task has a live send whose latest poll returned `Pending`. -/
def SendTask.waits (t : SendTask T) : Bool :=
  match t.future with
  | .pending _ => true
  | _ => false

def St.quiet (s : St T m) : Prop :=
  (∀ j, (s.sender j).busy = false) ∧ s.receiver.busy = false ∧ s.lastDrop = false

instance (s : St T m) : Decidable s.quiet :=
  inferInstanceAs (Decidable ((∀ j, (s.sender j).busy = false) ∧ _))

/-- No sender is stranded: one of them will be polled again and find a place. -/
def NotStranded (c : Nat) (s : St T m) : Prop :=
  s.quiet → s.queue.length < c → s.receiverDropped = false → (∃ j, (s.sender j).waits) →
    ∃ j, (s.sender j).waits ∧ (s.sender j).woken

instance (c : Nat) (s : St T m) : Decidable (NotStranded c s) :=
  inferInstanceAs (Decidable (_ → _ → _ → _ → ∃ j, (s.sender j).waits ∧ (s.sender j).woken))

/-- No wake is lost that is needed. A wake is lost when `try_pop` spends it on a registration of
a sender that does not sleep, or when a send that has been woken is dropped. Either is harmless
when nobody sleeps, or when there are more wakes on their way than free places: a message taken
for which nobody has been woken yet, polls before their last attempt, and sends that have been
woken and not been polled since. -/
def NoWakeLost (c : Nat) (s : St T m) (a : Act T m) : Prop := Gate.Spares (gate c s) (label a s)

instance (c : Nat) (s : St T m) (a : Act T m) : Decidable (NoWakeLost c s a) :=
  inferInstanceAs (Decidable (Gate.Spares (gate c s) (label a s)))

/-- A run from `channel` in which no wake is lost that is needed. -/
abbrev ChannelRun (c : Nat) : List (Act T m) → St T m → Prop :=
  Run (· = St.new) (step c) (NoWakeLost c)

theorem gate_new (c : Nat) : Gate.Inv (gate c (St.new : St T m)) := by
  refine ⟨fun j hj => ?_, fun ⟨j, hj⟩ => ?_⟩
  · cases j <;> cases hj
  · cases j <;> cases hj

theorem gate_run {c : Nat} {tr : List (Act T m)} {s : St T m} (h : ChannelRun c tr s) :
    Gate.Inv (gate c s) := by
  refine h.invariant (I := fun _ s => Gate.Inv (gate c s)) ?_ ?_
  · rintro s rfl
    exact gate_new c
  · intro tr s a s' hinv hok hst
    exact hinv.step (step_gate hst) hok

theorem SendTask.gate_waiting {t : SendTask T} : t.gate.phase = .waiting ↔ t.waits := by
  unfold gate waits
  cases t.future with
  | pending value => exact ⟨fun _ => rfl, fun _ => rfl⟩
  | polling pc => cases pc <;> exact ⟨nofun, nofun⟩
  | _ => exact ⟨nofun, nofun⟩

theorem gate_inProgress {s : St T m} (h : s.quiet) (i : Option (Fin m)) :
    (gateTask s i).inProgress = false := by
  obtain ⟨hsender, hreceiver, -⟩ := h
  cases i with
  | none =>
    unfold gateTask
    cases hr : s.receiver with
    | polling pc =>
      rw [hr] at hreceiver
      cases hreceiver
    | _ => rfl
  | some j =>
    have hj := hsender j
    unfold SendTask.busy at hj
    unfold gateTask
    cases hfuture : (s.sender j).future with
    | polling pc =>
      rw [hfuture] at hj
      cases hj
    | _ =>
      simp only [SendTask.gate, hfuture]
      rfl

/-- In every run of a channel in which no wake is lost that is needed, no sender is
stranded. -/
theorem senders_not_stranded (c : Nat) (tr : List (Act T m)) (s : St T m)
    (h : ChannelRun c tr s) : NotStranded c s := by
  rintro hquiet hlt halive ⟨i, hi⟩
  have hfree : 0 < (gate c s).free := Nat.sub_pos_of_lt hlt
  obtain ⟨j, hj, hwoken⟩ := (gate_run h).someone_awake (gate_inProgress hquiet) halive hfree
    ⟨some i, SendTask.gate_waiting.mpr hi⟩
  cases j with
  | none => cases hj
  | some j => exact ⟨j, SendTask.gate_waiting.mp hj, hwoken⟩

/-- Sender 0 fills the buffer; senders 1 and 2 wait, sender 1 after three polls, and the receiver
takes a message. -/
def polledThrice : List (Act Nat 3) :=
  [[.send 0 10], .replicate 4 (.runSend 0), [.send 0 20], .replicate 4 (.runSend 0),
    [.send 1 30], .replicate 6 (.runSend 1),
    [.pollSend 1], .replicate 5 (.runSend 1), [.pollSend 1], .replicate 5 (.runSend 1),
    [.send 2 40], .replicate 5 (.runSend 2),
    [.pollRecv], .replicate 3 .runRecv].flatten

theorem senders_not_stranded_polledThrice :
    ∃ (tr : List (Act Nat 3)) (s : St Nat 3), ChannelRun 2 tr s ∧ s.queue = [20] ∧
      (s.sender 2).waits ∧ ∃ j, (s.sender j).waits ∧ (s.sender j).woken := by
  obtain ⟨s, hrun, hqueue, halive, hwaits, hquiet⟩ : ∃ s, ChannelRun 2 polledThrice.reverse s ∧
      s.queue = [20] ∧ s.receiverDropped = false ∧ (s.sender 2).waits ∧ s.quiet :=
    Run.exists_of_guarded polledThrice (St.new : St Nat 3) rfl (by decide +kernel)
  have hlt : s.queue.length < 2 := by
    rw [hqueue]
    decide
  exact ⟨_, s, hrun, hqueue, hwaits,
    senders_not_stranded 2 _ s hrun hquiet hlt halive ⟨2, hwaits⟩⟩

/-- After `polledThrice`, sender 1 gets its message in, and the receiver takes the two messages
and begins to wait. -/
def drained : List (Act Nat 3) :=
  [polledThrice, [.pollSend 1], .replicate 7 (.runSend 1),
    [.pollRecv], .replicate 3 .runRecv, [.pollRecv], .replicate 3 .runRecv,
    [.pollRecv], .replicate 5 .runRecv].flatten

def Receiver.waits : Receiver T → Bool
  | .pending => true
  | _ => false

/-- The two wakes are spent on the registrations sender 1 has left behind. Sender 2 and the
receiver wait for each other, with nothing in the buffer. -/
theorem stale_registrations_strand_sender :
    ∃ (tr : List (Act Nat 3)) (s : St Nat 3), Run (· = St.new) (step 2) Free tr s ∧
      ¬ NotStranded 2 s ∧ s.queue = [] ∧ s.receiver.waits ∧ s.receiverWoken = false := by
  obtain ⟨s, hrun, heq⟩ : ∃ s, Run (· = St.new) (step 2) Free drained.reverse s ∧
      ¬ NotStranded 2 s ∧ s.queue = [] ∧ s.receiver.waits = true ∧ s.receiverWoken = false :=
    Run.exists_of_exec drained (St.new : St Nat 3) rfl (by decide +kernel)
  exact ⟨_, s, hrun, heq⟩

end Dtact.Mpsc
