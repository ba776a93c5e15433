import Dtact.Scheduler.Flow

/-!
# Receiving: routing, polling, draining and dispatch

`poll_mailboxes` and `drain_warehouse` are loops that move one chunk at a time. A single move is
described by `Received` and `Drained`, a whole call by `Polls` and `Drains`.

Results: `routeChunk_spec`, `pollMailboxes_spec`, `drainWarehouse_spec`, `popLocal_spec`. Each
operation returns, polling unless the warehouse overflows, and is a sequence of moves.
-/

namespace Dtact.Scheduler

open Circular Bags

namespace DtaScheduler

variable {n : Nat} {s s' : DtaScheduler n}

/-! ## Routing -/

/-- Where `route_chunk` on `core` sends a chunk. -/
def Routed (s : DtaScheduler n) (core : Fin n) (c : TaskChunk) (p : Place n) : Prop :=
  ((s.workers core).localQueueLen + c.count ≤ localQueueHighWatermark ∧ p = .queue core) ∨
  (localQueueHighWatermark < (s.workers core).localQueueLen + c.count ∧
    (p = .warehouse ∨ ∃ target, target ≠ core ∧ p = .mailbox core target))

variable {core : Fin n} {c : TaskChunk} {src : Inlet n} {b : Bool}

theorem pushBatch_deposit (h : (s.workers core).localQueueLen + c.count ≤ localQueueHighWatermark) :
    Deposit s (.queue core) c.tasks (s.setWorker core ((s.workers core).pushBatch c)) := by
  have hfit : (s.workers core).localQueue.len + c.tasks.length < localQueueCapacity := by
    simp only [Worker.localQueueLen, TaskChunk.count, localQueueHighWatermark,
      localQueueCapacity] at h ⊢
    omega
  have he := s.setWorker_effect (w := core) (x := (s.workers core).pushBatch c) rfl
  rw [show ((s.workers core).pushBatch c).localQueue.contents = _ from
    Buffer.contents_pushBatch _ _ hfit] at he
  exact he.weaken

theorem routePark_spec (s : DtaScheduler n) (core : Fin n) (c : TaskChunk) :
    s.routePark core c = .error .overflow ∨
      ∃ s', s.routePark core c = .ok s' ∧ Deposit s .warehouse c.tasks s' := by
  rcases s.parkInWarehouse_spec c with he | ⟨s', hs', hd⟩
  · exact Or.inl (by rw [routePark, he]; rfl)
  · exact Or.inr ⟨s', by rw [routePark, hs']; rfl, hd⟩

theorem routeDeflect_spec [NeZero n] (s : DtaScheduler n) (core : Fin n) (c : TaskChunk)
    (hn : 1 < n) :
    s.routeDeflect core c = .error .overflow ∨
      ∃ p s', s.routeDeflect core c = .ok s' ∧ Deposit s p c.tasks s' ∧
        (p = .warehouse ∨ ∃ target, target ≠ core ∧ p = .mailbox core target) := by
  simp only [routeDeflect]
  rcases s.pushMailbox_spec (.worker core) (hopTarget (.worker core) c.hop.hopCount) c.hop with
    he | ⟨s', hs', hd⟩
  · rw [he]
    rcases s.routePark_spec core c.hop with hp | ⟨s', hs', hd⟩
    · exact Or.inl hp
    · exact Or.inr ⟨_, s', hs', hd, Or.inl rfl⟩
  · rw [hs']
    refine Or.inr ⟨_, _, rfl, hd.quiet (signalWorker_quiet _ _), Or.inr ⟨_, fun ht => ?_, rfl⟩⟩
    have hle := avoidSelf_ne ht rfl
    omega

theorem routeChunk_spec [NeZero n] (s : DtaScheduler n) (core : Fin n) (c : TaskChunk) :
    s.routeChunk core c = .error .overflow ∨
      ∃ p s', s.routeChunk core c = .ok s' ∧ Deposit s p c.tasks s' ∧ s.Routed core c p := by
  simp only [routeChunk, Routed]
  by_cases hspace : (s.workers core).localQueueLen + c.count ≤ localQueueHighWatermark
  · refine Or.inr ⟨_, _, ?_, pushBatch_deposit hspace, Or.inl ⟨hspace, rfl⟩⟩
    cases decide (c.hopCount < s.maxHops) <;> simp only [hspace, decide_true, routeLocal]
  · have hlt : localQueueHighWatermark < (s.workers core).localQueueLen + c.count := by omega
    simp only [hspace, decide_false]
    by_cases hhops : c.hopCount < s.maxHops
    · simp only [hhops, decide_true]
      -- hops are left only if there are two workers
      have hn : 1 < n := by
        have := s.maxHops_eq
        omega
      rcases s.routeDeflect_spec core c hn with he | ⟨p, s', hs', hd, hp⟩
      · exact Or.inl he
      · exact Or.inr ⟨p, s', hs', hd, Or.inr ⟨hlt, hp⟩⟩
    · simp only [hhops, decide_false]
      rcases s.routePark_spec core c with he | ⟨s', hs', hd⟩
      · exact Or.inl he
      · exact Or.inr ⟨_, s', hs', hd, Or.inr ⟨hlt, Or.inl rfl⟩⟩

/-! ## Polling -/

theorem setInlet_effect (s : DtaScheduler n) (core : Fin n) (src : Inlet n) (m : Mailbox) :
    Effect s (s.setInlet core src m)
      (Function.update s.tasksAt (.ofInlet core src) (tasksOf m.contents))
      (· = .ofInlet core src) := by
  cases src with
  | peer i => exact s.setMailbox_effect i core m
  | external => exact s.setExternal_effect core m

theorem inlet_setInlet (s : DtaScheduler n) (core : Fin n) (src : Inlet n) (m : Mailbox) :
    (s.setInlet core src m).inlet core src = m := by
  cases src <;> simp [inlet, setInlet, setMailbox, setExternal]

theorem workers_setInlet (s : DtaScheduler n) (core : Fin n) (src : Inlet n) (m : Mailbox) :
    (s.setInlet core src m).workers = s.workers := by
  cases src <;> rfl

theorem tasksAt_ofInlet (s : DtaScheduler n) (core : Fin n) (src : Inlet n) :
    s.tasksAt (.ofInlet core src) = tasksOf (s.inlet core src).contents := by
  cases src <;> rfl

theorem Effect.inlet {m : Place n → List Nat} {P : Place n → Prop} (h : Effect s s' m P)
    (hp : ¬ P (.ofInlet core src)) : s'.inlet core src = s.inlet core src := by
  cases src with
  | peer i => exact h.mail i core hp
  | external => exact h.ext core hp

theorem Routed.ne_ofInlet {p : Place n} (h : s.Routed core c p) (src : Inlet n) :
    p ≠ .ofInlet core src := by
  rcases h with ⟨_, rfl⟩ | ⟨_, rfl | ⟨target, hne, rfl⟩⟩
  · cases src <;> simp [Place.ofInlet]
  · cases src <;> simp [Place.ofInlet]
  · cases src <;> simp [Place.ofInlet, hne]

theorem Routed.ne_self {p : Place n} (h : s.Routed core c p) (w : Fin n) : p ≠ .mailbox w w := by
  rcases h with ⟨_, rfl⟩ | ⟨_, rfl | ⟨target, hne, rfl⟩⟩
  · simp
  · simp
  · rintro ⟨⟩
    exact hne rfl

/-- One round of the polling loop: the front chunk `c` of the inlet is taken,
which leaves `m`, and is deposited at `p`. -/
structure Received (core : Fin n) (src : Inlet n) (s : DtaScheduler n) (c : TaskChunk)
    (m : Mailbox) (p : Place n) (s' : DtaScheduler n) : Prop where
  room : (s.workers core).localQueueLen + chunkSize < localQueueCapacity
  front : (s.inlet core src).contents = c :: m.contents
  moved : Deposit (s.setInlet core src m) p c.tasks s'
  routed : s.Routed core c p

namespace Received

variable {core : Fin n} {src : Inlet n} {c : TaskChunk} {m : Mailbox} {p : Place n}

section

variable (h : Received core src s c m p s')

include h

theorem tasks :
    s'.tasksAt =
      put (Function.update s.tasksAt (.ofInlet core src) (tasksOf m.contents)) p c.tasks := by
  rw [h.moved.tasks, (s.setInlet_effect core src m).tasks]

theorem tasks_front : s.tasksAt (.ofInlet core src) = c.tasks ++ tasksOf m.contents := by
  rw [tasksAt_ofInlet, h.front, tasksOf_cons]

theorem held : s'.held = s.held := by
  rw [h.moved.held, DtaScheduler.held, (s.setInlet_effect core src m).tasks,
    total_take _ h.tasks_front]
  rfl

theorem inlet_self : s'.inlet core src = m := by
  rw [h.moved.inlet (h.routed.ne_ofInlet src).symm, inlet_setInlet]

theorem inlet_ne {src' : Inlet n} (hne : src' ≠ src) : s'.inlet core src' = s.inlet core src' := by
  rw [h.moved.inlet (h.routed.ne_ofInlet src').symm, (s.setInlet_effect core src m).inlet]
  cases src <;> cases src' <;> simp_all [Place.ofInlet]

end

end Received

/-- The polling loop over `src` has nothing left to do. -/
def Polled (core : Fin n) (src : Inlet n) (s : DtaScheduler n) : Prop :=
  (s.workers core).localQueueLen + chunkSize ≥ localQueueCapacity ∨
    (s.inlet core src).contents = []

/-- What a poll does, move by move. The list holds the inlets still to be
polled. -/
inductive Polls (core : Fin n) : List (Inlet n) → DtaScheduler n → DtaScheduler n → Prop
  | done {s s' : DtaScheduler n} : Quiet s s' → Polls core [] s s'
  | move {src : Inlet n} {rest : List (Inlet n)} {s s₁ s' : DtaScheduler n} {c : TaskChunk}
      {m : Mailbox} {p : Place n} : Received core src s c m p s₁ →
      Polls core (src :: rest) s₁ s' → Polls core (src :: rest) s s'
  | next {src : Inlet n} {rest : List (Inlet n)} {s s' : DtaScheduler n} : Polled core src s →
      Polls core rest s s' → Polls core (src :: rest) s s'

theorem pollInlet_spec [NeZero n] {fuel : Nat} {s : DtaScheduler n}
    (hfuel : (s.inlet core src).contents.length < fuel) :
    pollInlet core src fuel b s = .error .overflow ∨
      ∃ b' s₁, pollInlet core src fuel b s = .ok (b', s₁) ∧
        ∀ rest s', Polls core rest s₁ s' → Polls core (src :: rest) s s' := by
  -- every round takes one chunk off the inlet, and routing puts none back
  induction fuel generalizing b s with
  | zero => omega
  | succ fuel ih =>
    simp only [pollInlet]
    split
    · next hfull => exact Or.inr ⟨_, s, rfl, fun _ _ => .next (Or.inl hfull)⟩
    next hroom =>
    rcases (s.inlet core src).contents_pop with ⟨hpop, hnil⟩ | ⟨c, m, hpop, hcons⟩
    · rw [hpop]
      exact Or.inr ⟨_, s, rfl, fun _ _ => .next (Or.inr hnil)⟩
    · rw [hpop]
      simp only
      rcases (s.setInlet core src m).routeChunk_spec core c with he | ⟨p, s₁, hs₁, hd, hr⟩
      · exact Or.inl (by rw [he])
      · rw [hs₁]
        have hrec : Received core src s c m p s₁ := by
          refine ⟨by omega, hcons, hd, ?_⟩
          rwa [Routed, workers_setInlet] at hr
        rw [hcons, List.length_cons] at hfuel
        have hfuel₁ : (s₁.inlet core src).contents.length < fuel := by
          rw [hrec.inlet_self]
          omega
        rcases ih hfuel₁ (b := true) with he | ⟨b', s₂, hs₂, hp⟩
        · exact Or.inl he
        · exact Or.inr ⟨b', s₂, hs₂, fun rest s' h => .move hrec (hp rest s' h)⟩

/-- Polling an inlet that holds a single chunk. -/
theorem pollInlet_single [NeZero n] {m : Mailbox} {s₁ : DtaScheduler n} {fuel : Nat}
    (hroom : (s.workers core).localQueueLen + chunkSize < localQueueCapacity)
    (hpop : (s.inlet core src).pop = some (c, m))
    (hroute : (s.setInlet core src m).routeChunk core c = .ok s₁)
    (hnil : (s₁.inlet core src).contents = []) :
    pollInlet core src (fuel + 2) b s = .ok (true, s₁) := by
  rw [pollInlet, if_neg (by omega), hpop]
  simp only [hroute]
  rw [pollInlet]
  split
  · rfl
  · rcases (s₁.inlet core src).contents_pop with ⟨hpop₁, _⟩ | ⟨c', m', _, hcons⟩
    · rw [hpop₁]
    · rw [hnil] at hcons
      cases hcons

theorem pollInlets_spec [NeZero n] {srcs : List (Inlet n)} {s : DtaScheduler n} :
    pollInlets core srcs b s = .error .overflow ∨
      ∃ b' s₁, pollInlets core srcs b s = .ok (b', s₁) ∧
        ∀ s', Quiet s₁ s' → Polls core srcs s s' := by
  induction srcs generalizing b s with
  | nil => exact Or.inr ⟨_, s, rfl, fun _ => .done⟩
  | cons src rest ih =>
    simp only [pollInlets]
    rcases pollInlet_spec (b := b) (Mailbox.length_lt (s.inlet core src)) with
      he | ⟨b₁, s₁, hs₁, hp₁⟩
    · exact Or.inl (by rw [he]; rfl)
    · rw [hs₁]
      rcases ih (b := b₁) (s := s₁) with he | ⟨b₂, s₂, hs₂, hp₂⟩
      · exact Or.inl he
      · exact Or.inr ⟨b₂, s₂, hs₂, fun s' hq => hp₁ rest s' (hp₂ s' hq)⟩

/-- The bookkeeping at the end of a poll touches three counters only. -/
theorem tick_updateLoad (w : Worker n) : ∃ loadLevel ticks deflectionThreshold,
    w.updateLoad.tick = { w with loadLevel, ticks, deflectionThreshold } := by
  obtain ⟨load, hload⟩ : ∃ load, w.updateLoad = { w with loadLevel := load } := ⟨_, rfl⟩
  rw [hload, Worker.tick]
  simp only
  split
  · exact ⟨load, _, _, rfl⟩
  · exact ⟨load, _, _, rfl⟩

theorem bookkeeping_quiet (s : DtaScheduler n) (core : Fin n) :
    Quiet s (s.setWorker core (s.workers core).updateLoad.tick) := by
  obtain ⟨load, ticks, threshold, hw⟩ := tick_updateLoad (s.workers core)
  rw [hw]
  exact s.setWorker_quiet rfl rfl

theorem pollMailboxes_spec [NeZero n] (s : DtaScheduler n) (core : Fin n) :
    s.pollMailboxes core = .error .overflow ∨
      ∃ b s', s.pollMailboxes core = .ok (b, s') ∧ Polls core (s.inlets core) s s' := by
  simp only [pollMailboxes]
  rcases pollInlets_spec (b := false) (s := s) with he | ⟨b, s₁, hs₁, hp⟩
  · exact Or.inl (by rw [he]; rfl)
  · rw [hs₁]
    exact Or.inr ⟨b, _, rfl, hp _ (s₁.bookkeeping_quiet core)⟩

/-! ## Draining -/

/-- One round of the draining loop: the front chunk of the warehouse moves to the
local queue. -/
structure Drained (core : Fin n) (s : DtaScheduler n) (c : TaskChunk) (warehouse : Warehouse)
    (s' : DtaScheduler n) : Prop where
  front : s.warehouse.contents = c :: warehouse.contents
  moved : Deposit { s with warehouse } (.queue core) c.tasks s'

namespace Drained

variable {core : Fin n} {c : TaskChunk} {warehouse : Warehouse}

theorem tasks_front (h : Drained core s c warehouse s') :
    s.tasksAt .warehouse = c.tasks ++ tasksOf warehouse.contents := by
  rw [← tasksOf_cons, ← h.front]
  rfl

theorem held (h : Drained core s c warehouse s') : s'.held = s.held := by
  rw [h.moved.held, DtaScheduler.held, tasksAt_setWarehouse, total_take _ h.tasks_front]
  rfl

end Drained

/-- What a call of `drain_warehouse` does, move by move. -/
inductive Drains (core : Fin n) : DtaScheduler n → DtaScheduler n → Prop
  | done {s : DtaScheduler n} : Drains core s s
  | move {s s₁ s' : DtaScheduler n} {c : TaskChunk} {warehouse : Warehouse} :
      Drained core s c warehouse s₁ → Drains core s₁ s' → Drains core s s'

theorem drainLoop_spec {rounds : Nat} {s : DtaScheduler n} :
    ∃ b' s', drainLoop core rounds b s = .ok (b', s') ∧ Drains core s s' := by
  induction rounds generalizing b s with
  | zero => exact ⟨b, s, rfl, .done⟩
  | succ rounds ih =>
    simp only [drainLoop]
    split
    · exact ⟨b, s, rfl, .done⟩
    next hroom =>
    rcases s.warehouse.pop_spec with ⟨hpop, _⟩ | ⟨c, warehouse, hpop, hcons⟩
    · rw [hpop]
      exact ⟨b, s, rfl, .done⟩
    · rw [hpop]
      obtain ⟨b', s', hs', hd⟩ := ih (b := true)
        (s := { s with warehouse }.setWorker core ((s.workers core).pushBatch c))
      refine ⟨b', s', hs', .move ⟨hcons, pushBatch_deposit ?_⟩ hd⟩
      have hle : c.count ≤ chunkSize := c.count_le
      have hlen : ({ s with warehouse }.workers core).localQueueLen =
        (s.workers core).localQueueLen := rfl
      omega

theorem drainWarehouse_spec (s : DtaScheduler n) (core : Fin n) :
    ∃ b s', s.drainWarehouse core = .ok (b, s') ∧ Drains core s s' :=
  drainLoop_spec

/-! ## Dispatch -/

theorem popLocal_spec (s : DtaScheduler n) (w : Fin n) :
    s.popLocal w = (none, s) ∨
      ∃ task l s', s.popLocal w = (some task, s') ∧ s.tasksAt (.queue w) = task :: l ∧
        Effect s s' (Function.update s.tasksAt (.queue w) l) fun _ => False := by
  simp only [popLocal]
  rcases (s.workers w).localQueue.contents_pop with ⟨hpop, _⟩ | ⟨task, q, hpop, hcons⟩
  · rw [hpop]
    exact Or.inl rfl
  · rw [hpop]
    exact Or.inr ⟨task, q.contents, _, rfl, hcons, s.setQueue_effect w q⟩

end DtaScheduler

end Dtact.Scheduler
