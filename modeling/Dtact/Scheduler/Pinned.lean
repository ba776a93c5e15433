import Dtact.Scheduler.SelfColumn

/-!
# Where pinned tasks go

`enqueue_pinned` leaves a task in the local queue of its target or in a mailbox that only the target
empties. On the receiving side pinned chunks are routed like all others.
-/

namespace Dtact.Scheduler

open Circular Bags Transition

/-- The worker that takes tasks out of a place. Any worker drains the warehouse. -/
def Place.consumer {n : Nat} : Place n → Option (Fin n)
  | .queue w => some w
  | .mailbox _ j => some j
  | .external j => some j
  | .warehouse => none

theorem Place.consumer_ofInlet {n : Nat} (w : Fin n) (src : Inlet n) :
    (Place.ofInlet w src).consumer = some w := by
  cases src <;> rfl

namespace DtaScheduler

variable {n : Nat} {s s' : DtaScheduler n}

theorem consumer_pinnedPlace (current : Caller n) (target : Fin n) :
    (pinnedPlace current target).consumer = some target := by
  unfold pinnedPlace
  split
  · rfl
  · cases current <;> rfl

/-- The chunks in some inlets of a worker, in the order they are polled. -/
def chunksIn (s : DtaScheduler n) (w : Fin n) (srcs : List (Inlet n)) : List TaskChunk :=
  srcs.flatMap fun src => (s.inlet w src).contents

/-- If the worker polls at all, every chunk with the task still fits under the
high watermark after the chunks before it. -/
def Fits (s : DtaScheduler n) (task : Nat) (w : Fin n) (srcs : List (Inlet n)) : Prop :=
  (s.workers w).localQueueLen + chunkSize < localQueueCapacity →
    ∀ pre c post, s.chunksIn w srcs = pre ++ c :: post → task ∈ c.tasks →
      (s.workers w).localQueueLen + (tasksOf pre).length + c.count ≤ localQueueHighWatermark

theorem Fits.of_le {task : Nat} {w : Fin n} {srcs : List (Inlet n)}
    (h : (s.workers w).localQueueLen + (tasksOf (s.chunksIn w srcs)).length ≤
      localQueueHighWatermark) : s.Fits task w srcs := by
  intro _ pre c post hsplit _
  rw [hsplit] at h
  simp only [tasksOf_append, tasksOf_cons, List.length_append, TaskChunk.count] at h ⊢
  omega

/-- The task is with worker `t`. -/
structure AtHome (t : Fin n) (task : Nat) (s : DtaScheduler n) : Prop where
  home : ∀ p, task ∈ s.tasksAt p → p.consumer = some t
  nodup : ∀ w, (s.workers w).pollingOrder.Nodup

namespace AtHome

variable {t : Fin n} {task : Nat}

theorem effect {m : Place n → List Nat} {P : Place n → Prop} (h : AtHome t task s)
    (he : Effect s s' m P) (hm : ∀ p, task ∈ m p → p.consumer = some t) : AtHome t task s' where
  home p hp := hm p (by rwa [he.tasks] at hp)
  nodup w := by
    rw [he.order]
    exact h.nodup w

theorem deposit {p : Place n} {ts : List Nat} (h : AtHome t task s) (hd : Deposit s p ts s')
    (hp : task ∈ ts → p.consumer = some t) : AtHome t task s' := by
  refine h.effect hd fun q hq => ?_
  by_cases hqp : q = p
  · subst hqp
    rw [put, Function.update_self, List.mem_append] at hq
    exact hq.elim (h.home q) hp
  · rw [put, Function.update_of_ne hqp] at hq
    exact h.home q hq

theorem shrink {p : Place n} {l : List Nat} {P : Place n → Prop} (h : AtHome t task s)
    (he : Effect s s' (Function.update s.tasksAt p l) P) (hl : l ⊆ s.tasksAt p) :
    AtHome t task s' := by
  refine h.effect he fun q hq => ?_
  by_cases hqp : q = p
  · subst hqp
    rw [Function.update_self] at hq
    exact h.home q (hl hq)
  · rw [Function.update_of_ne hqp] at hq
    exact h.home q hq

end AtHome

/-! ## Polling -/

section Polling

variable {core : Fin n} {src : Inlet n} {rest : List (Inlet n)} {c : TaskChunk} {m : Mailbox}
  {p : Place n} {t : Fin n} {task : Nat}

theorem Received.chunksIn (h : Received core src s c m p s') (hsrc : src ∉ rest) :
    s.chunksIn core (src :: rest) = c :: s'.chunksIn core (src :: rest) := by
  have hrest : s'.chunksIn core rest = s.chunksIn core rest := by
    refine List.flatMap_congr fun src' hmem => ?_
    rw [h.inlet_ne (ne_of_mem_of_not_mem hmem hsrc)]
  simp only [DtaScheduler.chunksIn, List.flatMap_cons] at hrest ⊢
  rw [hrest, h.front, h.inlet_self, List.cons_append]

theorem Received.localQueueLen_le (h : Received core src s c m p s') :
    (s'.workers core).localQueueLen ≤ (s.workers core).localQueueLen + c.count := by
  have hne : Place.queue core ≠ .ofInlet core src := by
    cases src <;> simp [Place.ofInlet]
  rw [localQueueLen_eq, localQueueLen_eq, h.tasks, put]
  by_cases hp : Place.queue core = p
  · subst hp
    rw [Function.update_self, Function.update_of_ne hne, List.length_append]
    exact Nat.le_refl _
  · rw [Function.update_of_ne hp, Function.update_of_ne hne]
    exact Nat.le_add_right _ _

theorem Fits.received (h : s.Fits task core (src :: rest)) (hr : Received core src s c m p s')
    (hsrc : src ∉ rest) : s'.Fits task core (src :: rest) := by
  intro _ pre c' post hsplit hmem
  have hchunks : s.chunksIn core (src :: rest) = (c :: pre) ++ c' :: post := by
    rw [hr.chunksIn hsrc, hsplit, List.cons_append]
  have hfit := h hr.room _ _ _ hchunks hmem
  have hlen := hr.localQueueLen_le
  simp only [tasksOf_cons, List.length_append, TaskChunk.count] at hfit hlen ⊢
  omega

theorem Fits.polled (h : s.Fits task core (src :: rest)) (hp : Polled core src s) :
    s.Fits task core rest := by
  intro hroom
  rcases hp with hfull | hnil
  · omega
  · have := h hroom
    simpa [DtaScheduler.chunksIn, hnil] using this

theorem AtHome.received (h : AtHome t task s) (hfits : s.Fits task core (src :: rest))
    (hr : Received core src s c m p s') (hsrc : src ∉ rest) : AtHome t task s' := by
  have htail : tasksOf m.contents ⊆ s.tasksAt (.ofInlet core src) := by
    rw [hr.tasks_front]
    exact List.subset_append_right _ _
  refine (h.shrink (s.setInlet_effect core src m) htail).deposit hr.moved fun hmem => ?_
  have hcore : some core = some t := by
    rw [← Place.consumer_ofInlet core src]
    refine h.home _ ?_
    rw [hr.tasks_front]
    exact List.mem_append_left _ hmem
  have hfit := hfits hr.room [] c _ (hr.chunksIn hsrc) hmem
  rcases hr.routed with ⟨_, rfl⟩ | ⟨hlt, _⟩
  · exact hcore
  · simp only [tasksOf_nil, List.length_nil] at hfit
    omega

theorem Polls.atHome {srcs : List (Inlet n)} (hp : Polls core srcs s s') (h : AtHome t task s)
    (hfits : s.Fits task core srcs) (hnodup : srcs.Nodup) : AtHome t task s' := by
  induction hp with
  | done hq => exact h.effect hq h.home
  | move hr _ ih =>
    have hsrc := (List.nodup_cons.mp hnodup).1
    exact ih (h.received hfits hr hsrc) (hfits.received hr hsrc) hnodup
  | next hp _ ih => exact ih h (hfits.polled hp) (List.nodup_cons.mp hnodup).2

theorem Drains.atHome (hd : Drains core s s') (h : AtHome t task s) : AtHome t task s' := by
  induction hd with
  | done => exact h
  | @move s _ _ c warehouse hd _ ih =>
    have hfront := hd.tasks_front
    have htail : tasksOf warehouse.contents ⊆ s.tasksAt .warehouse := by
      rw [hfront]
      exact List.subset_append_right _ _
    refine ih ((h.shrink (s.setWarehouse_effect warehouse) htail).deposit hd.moved fun hmem => ?_)
    -- the task is not in the warehouse
    refine absurd (h.home .warehouse ?_) (by simp [Place.consumer])
    rw [hfront]
    exact List.mem_append_left _ hmem

end Polling

theorem AtHome.new [NeZero n] (t : Fin n) (task : Nat) (topology : TopologyMode) :
    AtHome t task (new n topology) where
  home p hp := by simp [tasksAt_new] at hp
  nodup _ := (pollingOrder_perm _).nodup_iff.mpr ((List.nodup_finRange n).filter _)

end DtaScheduler

/-! ## Runs -/

namespace System

open DtaScheduler

variable {n : Nat} [NeZero n]

/-- The task is enqueued as pinned to core `t` only. -/
def PinnedTo (t task : Nat) (_ : System n) : Op n → Prop
  | .enqueuePinned _ targetCore task' => task' = task → targetCore % n = t % n
  | .enqueueDeflect _ _ _ task' _ => task' ≠ task
  | _ => True

/-- A poll finds room for every chunk with the task. -/
def PollFits (task : Nat) (σ : System n) : Op n → Prop
  | .pollMailboxes w => σ.sched.Fits task w (σ.sched.inlets w)
  | _ => True

/-- The task is with worker `t`, and only worker `t` has dispatched it. -/
structure Stays (t : Fin n) (task : Nat) (σ : System n) : Prop where
  atHome : AtHome t task σ.sched
  dispatched : ∀ w, (w, task) ∈ σ.dispatched → w = t

theorem step_stays {σ σ' : System n} {op : Op n} {t task : Nat}
    (h : Stays (Fin.ofNat n t) task σ) (hpin : PinnedTo t task σ op) (hfit : PollFits task σ op)
    (hst : step op σ = some σ') : Stays (Fin.ofNat n t) task σ' := by
  obtain ⟨out, s', hran, rfl⟩ := step_ran hst
  cases hran with
  | refused _ => exact ⟨h.atHome, h.dispatched⟩
  | pinned hd =>
    refine ⟨h.atHome.deposit hd fun hmem => ?_, h.dispatched⟩
    rw [consumer_pinnedPlace]
    exact congrArg some (Fin.ext (hpin (List.mem_singleton.mp hmem).symm))
  | deflected hd _ =>
    exact ⟨h.atHome.deposit hd fun hmem => absurd (List.mem_singleton.mp hmem).symm hpin,
      h.dispatched⟩
  | @polled w b _ hp =>
    refine ⟨hp.atHome h.atHome hfit ?_, h.dispatched⟩
    have hpeers := (h.atHome.nodup w).map (f := Inlet.peer) fun i j hij => by simpa using hij
    exact List.Nodup.append hpeers (List.nodup_singleton _) (by simp)
  | drained hd => exact ⟨hd.atHome h.atHome, h.dispatched⟩
  | @dispatched w task' l _ hq he =>
    have hsub : l ⊆ σ.sched.tasksAt (.queue w) := by
      rw [hq]
      exact List.subset_cons_self _ _
    refine ⟨h.atHome.shrink he hsub, fun w' hw' => ?_⟩
    rcases List.mem_cons.mp hw' with heq | hmem
    · obtain ⟨rfl, rfl⟩ := Prod.mk.inj heq
      have hcons := h.atHome.home (.queue w') (by rw [hq]; exact List.mem_cons_self)
      exact Option.some.inj hcons
    · exact h.dispatched w' hmem
  | idle => exact ⟨h.atHome, h.dispatched⟩

/-- **Pinned tasks stay.** In every run in which the task is only enqueued as
pinned to `t` and every poll finds room for it, the task is only in places that
worker `t mod n` empties, and only this worker dispatches it. -/
theorem pinned_stays {t task : Nat} {tr : List (Op n)} {σ : System n}
    (h : Run Initial step (fun σ op => PinnedTo t task σ op ∧ PollFits task σ op) tr σ) :
    (∀ p, task ∈ σ.sched.tasksAt p → p.consumer = some (Fin.ofNat n t)) ∧
    ∀ w, (w, task) ∈ σ.dispatched → w = Fin.ofNat n t := by
  have hstays : Stays (Fin.ofNat n t) task σ := by
    refine Run.invariant (I := fun _ σ => Stays (Fin.ofNat n t) task σ) ?_ ?_ h
    · rintro _ ⟨topology, rfl⟩
      exact ⟨.new _ task topology, fun w hw => by cases hw⟩
    · intro _ _ _ _ hI hok hst
      exact step_stays hI hok.1 hok.2 hst
  exact ⟨hstays.atHome.home, hstays.dispatched⟩

theorem pinned_stays_two : ∃ σ : System 2,
    Run Initial step (fun σ op => PinnedTo 3 7 σ op ∧ PollFits 7 σ op)
      [.pollMailboxes 1, .enqueuePinned .host 3 7] σ ∧
    7 ∈ σ.sched.tasksAt (.queue 1) ∧ ∀ p, 7 ∈ σ.sched.tasksAt p → p.consumer = some 1 := by
  have h₀ : Run Initial step (fun σ op => PinnedTo 3 7 σ op ∧ PollFits 7 σ op) []
      ⟨DtaScheduler.new 2 .global, [], []⟩ := .start ⟨.global, rfl⟩
  have h₁ := h₀.next_get (.enqueuePinned .host 3 7) ⟨fun _ => rfl, trivial⟩ (by decide +kernel)
  have h₂ := h₁.next_get (.pollMailboxes 1)
    ⟨trivial, Fits.of_le (by decide +kernel)⟩ (by decide +kernel)
  exact ⟨_, h₂, by decide +kernel, (pinned_stays h₂).1⟩

/-- A worker without peers and above the watermark parks what it receives. -/
theorem step_park {σ : System 1} {c : TaskChunk} (hpos : 0 < c.count)
    (hlen : (σ.sched.workers 0).localQueueLen = localQueueHighWatermark)
    (hext : (σ.sched.externalMailboxes 0).contents = [c])
    (horder : (σ.sched.workers 0).pollingOrder = [])
    (hroom : σ.sched.warehouse.contents.length ≠ warehouseCapacity) :
    ∃ σ', step (.pollMailboxes 0) σ = some σ' ∧
      σ'.sched.tasksAt .warehouse = σ.sched.tasksAt .warehouse ++ c.tasks := by
  obtain ⟨m, hpop, hnil⟩ : ∃ m, (σ.sched.externalMailboxes 0).pop = some (c, m) ∧
      m.contents = [] := by
    rcases (σ.sched.externalMailboxes 0).contents_pop with ⟨_, h⟩ | ⟨c', m, hpop, hcons⟩
    · rw [hext] at h
      cases h
    · rw [hext] at hcons
      obtain ⟨rfl, hm⟩ := List.cons.inj hcons
      exact ⟨m, hpop, hm.symm⟩
  obtain ⟨s₁, hroute, hd⟩ : ∃ s₁, (σ.sched.setExternal 0 m).routeChunk 0 c = .ok s₁ ∧
      Deposit (σ.sched.setExternal 0 m) .warehouse c.tasks s₁ := by
    obtain ⟨s₁, hs₁, hd⟩ := parkInWarehouse_ok (s := σ.sched.setExternal 0 m) (c := c) hroom
    refine ⟨s₁, ?_, hd⟩
    have hspace : ¬ ((σ.sched.setExternal 0 m).workers 0).localQueueLen + c.count ≤
        localQueueHighWatermark := by
      show ¬ (σ.sched.workers 0).localQueueLen + c.count ≤ localQueueHighWatermark
      omega
    have hhops : ¬ c.hopCount < (σ.sched.setExternal 0 m).maxHops := by
      rw [(σ.sched.setExternal 0 m).maxHops_eq]
      omega
    simp only [routeChunk, hspace, hhops, decide_false, routePark, hs₁]
    rfl
  have hpoll : pollInlet 0 .external mailboxCapacity false σ.sched = .ok (true, s₁) := by
    refine pollInlet_single ?_ hpop hroute ?_
    · rw [hlen]
      decide
    · have hkeep : s₁.inlet 0 .external = m :=
        (hd.inlet (by simp [Place.ofInlet])).trans (inlet_setInlet σ.sched 0 .external m)
      rw [hkeep, hnil]
  have hcall : σ.sched.pollMailboxes 0 =
      .ok (true, s₁.setWorker 0 (s₁.workers 0).updateLoad.tick) := by
    have hinlets : σ.sched.inlets 0 = [.external] := by
      rw [inlets, horder]
      rfl
    rw [pollMailboxes, hinlets, pollInlets, hpoll]
    rfl
  refine ⟨_, by rw [step, Op.run, hcall]; rfl, ?_⟩
  show (s₁.setWorker 0 (s₁.workers 0).updateLoad.tick).tasksAt .warehouse = _
  rw [(s₁.bookkeeping_quiet 0).tasks, hd.tasks, put, Function.update_self]
  rfl

/-- The watermark condition of `pinned_stays` is needed: a single worker whose
queue has reached the watermark parks a pinned task in the warehouse. -/
theorem pinned_parked : ∃ tr, ∃ σ : System 1, Run Initial step (PinnedTo 0 7) tr σ ∧
    7 ∈ σ.sched.tasksAt .warehouse := by
  obtain ⟨tr, q, acc, hrun, hlen⟩ : ∃ tr q acc,
      Run Initial step (PinnedTo 0 7) tr ⟨(DtaScheduler.new 1 .p2pMesh).setQueue 0 q, acc, []⟩ ∧
        q.len = localQueueHighWatermark :=
    run_filled .p2pMesh 0 8 (fun _ h => absurd h (by decide)) (by decide)
  -- a host thread sends the task to the external mailbox
  obtain ⟨σ₁, hσ₁⟩ : ∃ σ₁ : System 1, σ₁ =
      ⟨(((DtaScheduler.new 1 .p2pMesh).setQueue 0 q).setExternal 0
        (Buffer.push Mailbox.new (.single 7))).signalWorker 0, 7 :: acc, []⟩ := ⟨_, rfl⟩
  have hsent : Run Initial step (PinnedTo 0 7) (.enqueuePinned .host 0 7 :: tr) σ₁ := by
    have hpin : PinnedTo 0 7 ⟨(DtaScheduler.new 1 .p2pMesh).setQueue 0 q, acc, []⟩
      (.enqueuePinned .host 0 7) := fun _ => rfl
    rw [hσ₁]
    exact hrun.next hpin rfl
  have hfull : (σ₁.sched.workers 0).localQueueLen = localQueueHighWatermark := by
    rw [hσ₁]
    exact hlen
  have hext : (σ₁.sched.externalMailboxes 0).contents = [.single 7] := by
    have hpush : (Buffer.push Mailbox.new (.single 7)).contents = [.single 7] := by
      rw [Buffer.contents_push _ _ (by decide), Mailbox.new, Buffer.contents_empty]
      rfl
    rw [hσ₁]
    exact hpush
  have hempty : σ₁.sched.warehouse.contents = [] := by
    rw [hσ₁]
    exact Warehouse.contents_new
  have horder : (σ₁.sched.workers 0).pollingOrder = [] := by
    rw [hσ₁]
    rfl
  have hroom : σ₁.sched.warehouse.contents.length ≠ warehouseCapacity := by
    simp [hempty, warehouseCapacity]
  obtain ⟨σ, hst, hparked⟩ := step_park (by decide) hfull hext horder hroom
  have hpoll : PinnedTo 0 7 σ₁ (.pollMailboxes 0) := trivial
  refine ⟨_, σ, hsent.next hpoll hst, ?_⟩
  rw [hparked]
  exact List.mem_append_right _ List.mem_cons_self

end System

end Dtact.Scheduler
