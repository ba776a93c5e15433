import Mathlib.Data.Fintype.Sigma
import Mathlib.Data.Fintype.Sum
import Mathlib.Tactic.DeriveFintype
import Dtact.Lib.Bags
import Dtact.Scheduler.Basic

/-!
# What the operations do to the containers

The scheduler seen from outside is a family of lists of tasks, indexed by the `Place`s a task can be
in. An `Effect` says which lists the places hold afterwards and which mailboxes may have changed.
-/

namespace Dtact.Scheduler

open Circular Bags

/-- Where a task can be. `mailbox i j` is filled by `i` and emptied by `j`. -/
inductive Place (n : Nat)
  | queue (w : Fin n)
  | mailbox (i j : Fin n)
  | external (j : Fin n)
  | warehouse
deriving DecidableEq, Fintype

namespace Place

variable {n : Nat}

/-- Where a producer leaves a chunk for `target`. -/
def inbox (producer : Caller n) (target : Fin n) : Place n :=
  match producer with
  | .worker i => .mailbox i target
  | .host => .external target

/-- The place of an inlet of `w`. -/
def ofInlet (w : Fin n) : Inlet n → Place n
  | .peer i => .mailbox i w
  | .external => .external w

end Place

namespace DtaScheduler

variable {n : Nat} {s s' s₁ : DtaScheduler n}

def tasksAt (s : DtaScheduler n) : Place n → List Nat
  | .queue w => (s.workers w).localQueue.contents
  | .mailbox i j => tasksOf (s.mailboxes i j).contents
  | .external j => tasksOf (s.externalMailboxes j).contents
  | .warehouse => tasksOf s.warehouse.contents

def held (s : DtaScheduler n) : Multiset Nat := total s.tasksAt

/-- From `s` to `s'` the places come to hold `m`, and the mailboxes that are not
in `P` stay as they are. -/
structure Effect (s s' : DtaScheduler n) (m : Place n → List Nat) (P : Place n → Prop) : Prop where
  tasks : s'.tasksAt = m
  mail : ∀ i j, ¬ P (.mailbox i j) → s'.mailboxes i j = s.mailboxes i j
  ext : ∀ j, ¬ P (.external j) → s'.externalMailboxes j = s.externalMailboxes j
  order : ∀ w, (s'.workers w).pollingOrder = (s.workers w).pollingOrder

/-- Only counters change. -/
abbrev Quiet (s s' : DtaScheduler n) : Prop := Effect s s' s.tasksAt fun _ => False

/-- The tasks `ts` are appended at `p`. -/
abbrev Deposit (s : DtaScheduler n) (p : Place n) (ts : List Nat) (s' : DtaScheduler n) : Prop :=
  Effect s s' (put s.tasksAt p ts) (· = p)

theorem Effect.weaken {m : Place n → List Nat} {P : Place n → Prop}
    (h : Effect s s' m fun _ => False) : Effect s s' m P where
  tasks := h.tasks
  mail i j _ := h.mail i j not_false
  ext j _ := h.ext j not_false
  order := h.order

theorem Deposit.quiet {p : Place n} {ts : List Nat} (h : Deposit s p ts s₁) (hq : Quiet s₁ s') :
    Deposit s p ts s' where
  tasks := by rw [hq.tasks, h.tasks]
  mail i j hp := by rw [hq.mail i j not_false, h.mail i j hp]
  ext j hp := by rw [hq.ext j not_false, h.ext j hp]
  order w := by rw [hq.order, h.order]

theorem Deposit.held {p : Place n} {ts : List Nat} (h : Deposit s p ts s') :
    s'.held = s.held + ts := by
  rw [DtaScheduler.held, h.tasks, total_put]
  rfl

theorem Quiet.held (h : Quiet s s') : s'.held = s.held := by
  rw [DtaScheduler.held, h.tasks]
  rfl

/-! ## The setters -/

variable {w : Fin n} {c : TaskChunk}

section

variable (s)

theorem localQueueLen_eq (w : Fin n) :
    (s.workers w).localQueueLen = (s.tasksAt (.queue w)).length :=
  (Buffer.length_contents _).symm

theorem tasksAt_setWorker (w : Fin n) (x : Worker n) :
    (s.setWorker w x).tasksAt = Function.update s.tasksAt (.queue w) x.localQueue.contents := by
  funext p
  cases p with
  | queue v =>
    by_cases h : v = w
    · subst h
      simp [tasksAt, setWorker]
    · simp [tasksAt, setWorker, h]
  | _ => simp [tasksAt, setWorker]

theorem tasksAt_setMailbox (i j : Fin n) (m : Mailbox) :
    (s.setMailbox i j m).tasksAt =
      Function.update s.tasksAt (.mailbox i j) (tasksOf m.contents) := by
  funext p
  cases p with
  | mailbox i' j' =>
    by_cases hi : i' = i
    · subst hi
      by_cases hj : j' = j
      · subst hj
        simp [tasksAt, setMailbox]
      · simp [tasksAt, setMailbox, hj]
    · simp [tasksAt, setMailbox, hi]
  | _ => simp [tasksAt, setMailbox]

theorem tasksAt_setExternal (j : Fin n) (m : Mailbox) :
    (s.setExternal j m).tasksAt = Function.update s.tasksAt (.external j) (tasksOf m.contents) := by
  funext p
  cases p with
  | external j' =>
    by_cases h : j' = j
    · subst h
      simp [tasksAt, setExternal]
    · simp [tasksAt, setExternal, h]
  | _ => simp [tasksAt, setExternal]

theorem tasksAt_setWarehouse (warehouse : Warehouse) :
    { s with warehouse }.tasksAt =
      Function.update s.tasksAt .warehouse (tasksOf warehouse.contents) := by
  funext p
  cases p <;> simp [tasksAt]

theorem setWorker_effect {x : Worker n} (h : x.pollingOrder = (s.workers w).pollingOrder) :
    Effect s (s.setWorker w x)
      (Function.update s.tasksAt (.queue w) x.localQueue.contents) fun _ => False where
  tasks := s.tasksAt_setWorker w x
  mail _ _ _ := rfl
  ext _ _ := rfl
  order v := by
    by_cases hv : v = w
    · subst hv
      simp [setWorker, h]
    · simp [setWorker, hv]

@[simp]
theorem localQueue_setQueue (w : Fin n) (q : Buffer Nat localQueueCapacity) :
    ((s.setQueue w q).workers w).localQueue = q := by
  simp [setQueue, setWorker]

@[simp]
theorem setQueue_self (w : Fin n) : s.setQueue w (s.workers w).localQueue = s := by
  simp [setQueue, setWorker]

@[simp]
theorem setQueue_setQueue (w : Fin n) (q q' : Buffer Nat localQueueCapacity) :
    (s.setQueue w q).setQueue w q' = s.setQueue w q' := by
  simp [setQueue, setWorker]

theorem setQueue_effect (w : Fin n) (q : Buffer Nat localQueueCapacity) :
    Effect s (s.setQueue w q) (Function.update s.tasksAt (.queue w) q.contents) fun _ => False :=
  s.setWorker_effect rfl

theorem setMailbox_effect (i j : Fin n) (m : Mailbox) :
    Effect s (s.setMailbox i j m)
      (Function.update s.tasksAt (.mailbox i j) (tasksOf m.contents)) (· = .mailbox i j) where
  tasks := s.tasksAt_setMailbox i j m
  mail i' j' h := by
    by_cases hi : i' = i
    · subst hi
      have hj : j' ≠ j := fun hj => h (by rw [hj])
      simp [setMailbox, hj]
    · simp [setMailbox, hi]
  ext _ _ := rfl
  order _ := rfl

theorem setWarehouse_effect (warehouse : Warehouse) :
    Effect s { s with warehouse }
      (Function.update s.tasksAt .warehouse (tasksOf warehouse.contents)) fun _ => False where
  tasks := s.tasksAt_setWarehouse warehouse
  mail _ _ _ := rfl
  ext _ _ := rfl
  order _ := rfl

theorem setExternal_effect (j : Fin n) (m : Mailbox) :
    Effect s (s.setExternal j m)
      (Function.update s.tasksAt (.external j) (tasksOf m.contents)) (· = .external j) where
  tasks := s.tasksAt_setExternal j m
  mail _ _ _ := rfl
  ext j' h := by
    have hj : j' ≠ j := fun hj => h (by rw [hj])
    simp [setExternal, hj]
  order _ := rfl

theorem setWorker_quiet {x : Worker n} (hq : x.localQueue = (s.workers w).localQueue)
    (h : x.pollingOrder = (s.workers w).pollingOrder) : Quiet s (s.setWorker w x) := by
  have he := s.setWorker_effect h
  have hm : Function.update s.tasksAt (.queue w) x.localQueue.contents = s.tasksAt := by
    rw [hq]
    exact Function.update_eq_self _ _
  rwa [hm] at he

theorem signalWorker_quiet (w : Fin n) : Quiet s (s.signalWorker w) :=
  s.setWorker_quiet rfl rfl

end

/-! ## Pushing -/

theorem pushLocal_full {task : Nat} (h : (s.workers w).localQueueLen ≥ localQueueCapacity - 1) :
    s.pushLocal w task = (false, s) := by
  simp only [pushLocal, Worker.pushLocal, if_pos h]
  simp [setWorker]

theorem pushLocal_room {t : Nat} (h : ¬ (s.workers w).localQueueLen ≥ localQueueCapacity - 1) :
    s.pushLocal w t = (true, s.setQueue w ((s.workers w).localQueue.push t)) := by
  simp only [pushLocal, Worker.pushLocal, if_neg h, setQueue]

theorem pushLocal_ok {t : Nat} (h : ¬ (s.workers w).localQueueLen ≥ localQueueCapacity - 1) :
    ∃ s', s.pushLocal w t = (true, s') ∧ Deposit s (.queue w) [t] s' := by
  have hlt : (s.workers w).localQueue.len + 1 < localQueueCapacity := by
    simp only [Worker.localQueueLen] at h
    omega
  refine ⟨_, pushLocal_room h, ?_⟩
  have he := s.setQueue_effect w ((s.workers w).localQueue.push t)
  rw [Buffer.contents_push _ _ hlt] at he
  exact he.weaken

theorem setMailbox_deposit {i j : Fin n} {m : Mailbox}
    (h : m.contents = (s.mailboxes i j).contents ++ [c]) :
    Deposit s (.mailbox i j) c.tasks (s.setMailbox i j m) := by
  have he := s.setMailbox_effect i j m
  have hm : tasksOf m.contents = s.tasksAt (.mailbox i j) ++ c.tasks := by
    simp [h, tasksAt]
  rwa [hm] at he

theorem setExternal_deposit {j : Fin n} {m : Mailbox}
    (h : m.contents = (s.externalMailboxes j).contents ++ [c]) :
    Deposit s (.external j) c.tasks (s.setExternal j m) := by
  have he := s.setExternal_effect j m
  have hm : tasksOf m.contents = s.tasksAt (.external j) ++ c.tasks := by
    simp [h, tasksAt]
  rwa [hm] at he

theorem pushMailbox_spec (s : DtaScheduler n) (producer : Caller n) (target : Fin n)
    (c : TaskChunk) :
    s.pushMailbox producer target c = .error c ∨
      ∃ s', s.pushMailbox producer target c = .ok s' ∧
        Deposit s (.inbox producer target) c.tasks s' := by
  cases producer with
  | worker i =>
    cases hp : (s.mailboxes i target).push c with
    | error c' =>
      rw [Mailbox.push_error hp] at hp
      exact Or.inl (by simp [pushMailbox, hp, Except.map])
    | ok m =>
      exact Or.inr ⟨_, by simp [pushMailbox, hp, Except.map],
        setMailbox_deposit (Mailbox.push_ok hp)⟩
  | host =>
    cases hp : (s.externalMailboxes target).push c with
    | error c' =>
      rw [Mailbox.push_error hp] at hp
      exact Or.inl (by simp [pushMailbox, hp, Except.map])
    | ok m =>
      exact Or.inr ⟨_, by simp [pushMailbox, hp, Except.map],
        setExternal_deposit (Mailbox.push_ok hp)⟩

theorem parkInWarehouse_ok (h : s.warehouse.contents.length ≠ warehouseCapacity) :
    ∃ s', s.parkInWarehouse c = .ok (true, s') ∧ Deposit s .warehouse c.tasks s' := by
  rcases s.warehouse.push_spec c with ⟨w, hw, hc⟩ | ⟨_, hfull⟩
  · refine ⟨{ s with warehouse := w }, by simp [parkInWarehouse, hw], ?_⟩
    have he := s.setWarehouse_effect w
    have hm : tasksOf w.contents = s.tasksAt .warehouse ++ c.tasks := by
      simp [hc, tasksAt]
    rw [hm] at he
    exact he.weaken
  · exact absurd hfull h

theorem parkInWarehouse_spec (s : DtaScheduler n) (c : TaskChunk) :
    s.parkInWarehouse c = .error .overflow ∨
      ∃ s', s.parkInWarehouse c = .ok (true, s') ∧ Deposit s .warehouse c.tasks s' := by
  rcases s.warehouse.push_spec c with ⟨w, hw, hc⟩ | ⟨hw, _⟩
  · refine Or.inr (parkInWarehouse_ok fun hfull => ?_)
    have hlen := congrArg List.length hc
    have hle := w.length_le
    simp only [List.length_append, List.length_singleton] at hlen
    omega
  · exact Or.inl (by simp [parkInWarehouse, hw])

/-! ## Enqueueing -/

/-- Where `enqueue_pinned` leaves the task. -/
def pinnedPlace (current : Caller n) (target : Fin n) : Place n :=
  if current = .worker target then .queue target else .inbox current target

theorem pinnedPlace_ne_self (current : Caller n) (target w : Fin n) :
    pinnedPlace current target ≠ .mailbox w w := by
  unfold pinnedPlace
  split
  · simp
  · next hne =>
    cases current with
    | worker i =>
      rintro ⟨⟩
      exact hne rfl
    | host => simp [Place.inbox]

variable [NeZero n]

/-- The task is deposited for the target, or the call returns `false` and nothing changes. -/
theorem enqueuePinned_spec (s : DtaScheduler n) (current : Caller n) (targetCore task : Nat) :
    s.enqueuePinned current targetCore task = (false, s) ∨
      ∃ s', s.enqueuePinned current targetCore task = (true, s') ∧
        Deposit s (pinnedPlace current (Fin.ofNat n targetCore)) [task] s' := by
  simp only [enqueuePinned, pinnedPlace]
  split
  · by_cases hfull : (s.workers (Fin.ofNat n targetCore)).localQueueLen ≥ localQueueCapacity - 1
    · exact Or.inl (pushLocal_full hfull)
    · exact Or.inr (pushLocal_ok hfull)
  · rcases s.pushMailbox_spec current (Fin.ofNat n targetCore) (.single task) with
      he | ⟨s', hs', hd⟩
    · exact Or.inl (by rw [he])
    · exact Or.inr ⟨_, by rw [hs'], hd.quiet (signalWorker_quiet _ _)⟩

theorem avoidSelf_ne {producer : Caller n} {t target : Fin n} (h : avoidSelf producer t = target)
    (hp : producer = .worker target) : n ≤ 1 := by
  unfold avoidSelf at h
  by_contra hn
  split at h
  · next hc =>
    obtain rfl : t = target := by simpa using hc.1.symm.trans hp
    have hv := congrArg Fin.val h
    simp only [Fin.ofNat, Fin.val_mk] at hv
    have hlt := t.isLt
    by_cases hw : t.val + 1 < n
    · rw [Nat.mod_eq_of_lt hw] at hv
      omega
    · rw [show t.val + 1 = n by omega, Nat.mod_self] at hv
      omega
  · next hc =>
    subst h
    exact hc ⟨hp, by omega⟩

/-- A chunk in the mesh goes to the warehouse or into the inbox of a worker that
is not the producer itself, where there is another one. -/
def Sent (producer : Caller n) (p : Place n) : Prop :=
  p = .warehouse ∨ ∃ target, p = .inbox producer target ∧ (producer = .worker target → n ≤ 1)

theorem hopLoop_spec (s : DtaScheduler n) (producer : Caller n) {fuel : Nat} {target : Fin n}
    (hf : 255 < fuel + c.hopCount) (hfuel : 0 < fuel) (ht : producer = .worker target → n ≤ 1) :
    s.hopLoop producer fuel target c = .error .overflow ∨
      ∃ p s', s.hopLoop producer fuel target c = .ok (true, s') ∧ Deposit s p c.tasks s' ∧
        Sent producer p := by
  induction fuel generalizing target c with
  | zero => omega
  | succ fuel ih =>
    simp only [hopLoop]
    rcases s.pushMailbox_spec producer target c with he | ⟨s', hs', hd⟩
    · rw [he]
      simp only
      split
      · rcases s.parkInWarehouse_spec c with hp | ⟨s', hs', hd⟩
        · exact Or.inl hp
        · exact Or.inr ⟨_, s', hs', hd, Or.inl rfl⟩
      · next hlt =>
        -- the hop count is below `max_hops`, so the next round has one more
        have hle : s.maxHops ≤ 255 := by
          rw [s.maxHops_eq]
          exact Nat.min_le_right _ _
        have hhop : c.hop.hopCount = c.hopCount + 1 := by
          simp only [TaskChunk.hop]
          omega
        exact ih (by omega) (by omega) fun hp => avoidSelf_ne rfl hp
    · rw [hs']
      exact Or.inr ⟨_, _, rfl, hd.quiet (signalWorker_quiet _ _), Or.inr ⟨target, rfl, ht⟩⟩

theorem pushChunkWithHop_spec (s : DtaScheduler n) (producer : Caller n) (target : Fin n)
    (c : TaskChunk) :
    s.pushChunkWithHop producer target c = .error .overflow ∨
      ∃ p s', s.pushChunkWithHop producer target c = .ok (true, s') ∧ Deposit s p c.tasks s' ∧
        Sent producer p :=
  s.hopLoop_spec producer (by omega) (by omega) fun hp => avoidSelf_ne rfl hp

/-- The worker that calls `enqueue_deflect` has no other one to send to, and its
own queue is full. -/
def NoPeer (s : DtaScheduler n) (current : Caller n) : Prop :=
  n = 1 ∧ s.warehouse.isBusy = false ∧
    ∃ w, current = .worker w ∧ (s.workers w).localQueueLen ≥ localQueueCapacity - 1

/-- A deflectable task goes to the own queue, to the warehouse or into the inbox
of another worker, unless there is no peer. -/
theorem enqueueDeflect_spec (s : DtaScheduler n) (current : Caller n) (sourceCore flowId task : Nat)
    (affinity : Affinity) :
    s.enqueueDeflect current sourceCore flowId task affinity = .error .overflow ∨
      ∃ p s', s.enqueueDeflect current sourceCore flowId task affinity = .ok (true, s') ∧
        Deposit s p [task] s' ∧ ∀ w, p = .mailbox w w → s.NoPeer current := by
  simp only [enqueueDeflect]
  by_cases hb : s.warehouse.isBusy = true
  · rw [if_pos hb]
    rcases s.parkInWarehouse_spec { TaskChunk.single task with hopCount := 255 } with
      he | ⟨s', hs', hd⟩
    · exact Or.inl he
    · exact Or.inr ⟨_, s', hs', hd, fun w hw => by cases hw⟩
  rw [if_neg hb]
  have hb : s.warehouse.isBusy = false := by simpa using hb
  generalize s.deflectTarget sourceCore flowId affinity = target
  -- what the mesh does with the chunk, when the worker could not take it itself
  have hmesh (hfull : ∀ w, current = .worker w → n ≤ 1 →
      (s.workers w).localQueueLen ≥ localQueueCapacity - 1) :
      s.pushChunkWithHop current target (.single task) = .error .overflow ∨
        ∃ p s', s.pushChunkWithHop current target (.single task) = .ok (true, s') ∧
          Deposit s p [task] s' ∧ ∀ w, p = .mailbox w w → s.NoPeer current := by
    rcases s.pushChunkWithHop_spec current target (.single task) with he | ⟨p, s', hs', hd, hp⟩
    · exact Or.inl he
    · refine Or.inr ⟨p, s', hs', hd, fun w hw => ?_⟩
      have hpos : n ≠ 0 := NeZero.ne n
      rcases hp with hp | ⟨t, hp, hn⟩
      · rw [hp] at hw
        cases hw
      · cases current with
        | host =>
          rw [hp] at hw
          cases hw
        | worker i =>
          rw [hp] at hw
          obtain ⟨rfl, rfl⟩ : i = w ∧ t = w := by simpa [Place.inbox] using hw
          exact ⟨by have := hn rfl; omega, hb, t, rfl, hfull t rfl (hn rfl)⟩
  split
  · next hc =>
    by_cases hfull : (s.workers target).localQueueLen ≥ localQueueCapacity - 1
    · rw [pushLocal_full hfull]
      refine hmesh fun w hw _ => ?_
      obtain rfl : target = w := by simpa using hc.symm.trans hw
      exact hfull
    · obtain ⟨s', hs', hd⟩ := pushLocal_ok (t := task) hfull
      rw [hs']
      exact Or.inr ⟨_, s', rfl, hd, fun w hw => by cases hw⟩
  · next hc =>
    refine hmesh fun w hw hn => ?_
    have : Subsingleton (Fin n) := Fin.subsingleton_iff_le_one.mpr hn
    exact absurd (hw.trans (congrArg _ (Subsingleton.elim w target))) hc

end DtaScheduler

end Dtact.Scheduler
