import Dtact.Scheduler.Conservation

/-!
# How often a task is moved

A worker that polls a mailbox moves a chunk on: to its local queue, to a mailbox of another worker
with one hop more, or to the warehouse. The `Event`s of an operation are these moves, and `replay`
keeps, for every place, the chunks that are there with the number of their moves.
-/

namespace Dtact.Scheduler

open Circular Bags Transition

/-- A new chunk is put at `dst`, or the front chunk `chunk` of `src` is moved to the end of `dst`
and is `chunk'` there. -/
inductive Event (n : Nat)
  | placed (dst : Place n) (chunk : TaskChunk)
  | moved (src dst : Place n) (chunk chunk' : TaskChunk)

namespace Place

variable {n : Nat}

def IsQueue : Place n → Prop
  | .queue _ => True
  | _ => False

def IsMailbox : Place n → Prop
  | .mailbox _ _ => True
  | .external _ => True
  | _ => False

theorem ofInlet_isMailbox (core : Fin n) (src : Inlet n) : (ofInlet core src).IsMailbox := by
  cases src <;> trivial

theorem IsMailbox.not_isQueue {p : Place n} (h : p.IsMailbox) : ¬ p.IsQueue := by
  cases p <;> first | exact id | exact absurd h id

end Place

/-! ## The events of an operation -/

namespace DtaScheduler

variable {n : Nat} [NeZero n]

/-- Where the loop of `push_chunk_with_hop` leaves the chunk, and with which hop count. -/
def hopDest (s : DtaScheduler n) (producer : Caller n) :
    Nat → Fin n → TaskChunk → Place n × TaskChunk
  | 0, target, chunk => (.inbox producer target, chunk)
  | fuel + 1, target, chunk =>
    match s.pushMailbox producer target chunk with
    | .ok _ => (.inbox producer target, chunk)
    | .error chunk =>
      if chunk.hopCount ≥ s.maxHops then (.warehouse, chunk)
      else hopDest s producer fuel (hopTarget producer chunk.hop.hopCount) chunk.hop

/-- Where `enqueue_deflect` leaves the task. -/
def deflectDest (s : DtaScheduler n) (current : Caller n) (sourceCore flowId task : Nat)
    (affinity : Affinity) : Place n × TaskChunk :=
  if s.warehouse.isBusy then (.warehouse, { TaskChunk.single task with hopCount := 255 })
  else
    let target := s.deflectTarget sourceCore flowId affinity
    if current = .worker target ∧ (s.pushLocal target task).1 then (.queue target, .single task)
    else s.hopDest current 256 (avoidSelf current target) (.single task)

/-- Where `route_chunk` leaves the chunk. -/
def routeDest (s : DtaScheduler n) (core : Fin n) (chunk : TaskChunk) : Place n × TaskChunk :=
  if (s.workers core).localQueueLen + chunk.count ≤ localQueueHighWatermark then
    (.queue core, chunk)
  else if chunk.hopCount < s.maxHops then
    let target := hopTarget (.worker core) chunk.hop.hopCount
    match s.pushMailbox (.worker core) target chunk.hop with
    | .ok _ => (.mailbox core target, chunk.hop)
    | .error _ => (.warehouse, chunk.hop)
  else (.warehouse, chunk)

/-- The moves of `pollInlet`. -/
def pollInletEvents (core : Fin n) (src : Inlet n) : Nat → DtaScheduler n → List (Event n)
  | 0, _ => []
  | fuel + 1, s =>
    if (s.workers core).localQueueLen + chunkSize ≥ localQueueCapacity then []
    else
      match (s.inlet core src).pop with
      | none => []
      | some (chunk, m) =>
        let s₁ := s.setInlet core src m
        let dest := s₁.routeDest core chunk
        match s₁.routeChunk core chunk with
        | .error _ => []
        | .ok s₂ =>
          .moved (.ofInlet core src) dest.1 chunk dest.2 :: pollInletEvents core src fuel s₂

/-- The moves of `pollInlets`. -/
def pollInletsEvents (core : Fin n) : List (Inlet n) → DtaScheduler n → List (Event n)
  | [], _ => []
  | src :: rest, s =>
    pollInletEvents core src mailboxCapacity s ++
      match pollInlet core src mailboxCapacity false s with
      | .error _ => []
      | .ok (_, s) => pollInletsEvents core rest s

/-- The moves of `drainLoop`. -/
def drainEvents (core : Fin n) : Nat → DtaScheduler n → List (Event n)
  | 0, _ => []
  | rounds + 1, s =>
    let worker := s.workers core
    if worker.localQueueLen + chunkSize > localQueueHighWatermark then []
    else
      match s.warehouse.pop with
      | .error _ => []
      | .ok none => []
      | .ok (some (chunk, warehouse)) =>
        .moved .warehouse (.queue core) chunk chunk ::
          drainEvents core rounds ({ s with warehouse }.setWorker core (worker.pushBatch chunk))

end DtaScheduler

/-- The events of an operation that returns. A dispatch moves nothing between containers. -/
def Op.events {n : Nat} [NeZero n] (s : DtaScheduler n) : Op n → List (Event n)
  | .enqueuePinned current targetCore task =>
    if (s.enqueuePinned current targetCore task).1 then
      [.placed (DtaScheduler.pinnedPlace current (Fin.ofNat n targetCore)) (.single task)]
    else []
  | .enqueueDeflect current sourceCore flowId task affinity =>
    let dest := s.deflectDest current sourceCore flowId task affinity
    [.placed dest.1 dest.2]
  | .pollMailboxes w => DtaScheduler.pollInletsEvents w (s.inlets w) s
  | .drainWarehouse w => DtaScheduler.drainEvents w 64 s
  | .popLocal _ => []

/-! ## What an event does -/

namespace DtaScheduler

variable {n : Nat} {s s' s₁ : DtaScheduler n}

/-- The chunks in a mailbox or in the warehouse. A local queue holds tasks. -/
def chunksAt (s : DtaScheduler n) : Place n → List TaskChunk
  | .queue _ => []
  | .mailbox i j => (s.mailboxes i j).contents
  | .external j => (s.externalMailboxes j).contents
  | .warehouse => s.warehouse.contents

/-- From `s` to `s'` the chunk `c` is added at the end of `p`. -/
structure Delivered (s : DtaScheduler n) (p : Place n) (c : TaskChunk) (s' : DtaScheduler n) :
    Prop where
  queues : ∀ w, s'.tasksAt (.queue w) = put s.tasksAt p c.tasks (.queue w)
  chunks : ∀ q, ¬ q.IsQueue → s'.chunksAt q = put s.chunksAt p [c] q

/-- From `s` to `s'` the front chunk `c` of `p` is taken. -/
structure Taken (s : DtaScheduler n) (p : Place n) (c : TaskChunk) (s' : DtaScheduler n) :
    Prop where
  queues : ∀ w, s'.tasksAt (.queue w) = s.tasksAt (.queue w)
  front : s.chunksAt p = c :: s'.chunksAt p
  chunks : ∀ q, q ≠ p → s'.chunksAt q = s.chunksAt q

/-- From `s` to `s'` no chunk is moved; a task may be taken for dispatch. -/
structure Rests (s s' : DtaScheduler n) : Prop where
  queues : ∀ w, s'.tasksAt (.queue w) <:+ s.tasksAt (.queue w)
  chunks : s'.chunksAt = s.chunksAt

end DtaScheduler

/-- The moves that deflection allows. -/
def Event.Legal {n : Nat} (maxHops : Nat) : Event n → Prop
  | .placed dst c => dst.IsMailbox → c.hopCount ≤ maxHops
  | .moved src dst c c' =>
    c'.tasks = c.tasks ∧
      ((src.IsMailbox ∧ (dst.IsMailbox → c.hopCount < c'.hopCount ∧ c'.hopCount ≤ maxHops)) ∨
        (src = .warehouse ∧ dst.IsQueue))

/-- The events lead from one scheduler to the other. -/
inductive Carries {n : Nat} : List (Event n) → DtaScheduler n → DtaScheduler n → Prop
  | done {s : DtaScheduler n} : Carries [] s s
  | rest {es : List (Event n)} {s s₁ s' : DtaScheduler n} : s.Rests s₁ → Carries es s₁ s' →
      Carries es s s'
  | placed {es : List (Event n)} {s s₁ s' : DtaScheduler n} {p : Place n} {c : TaskChunk} :
      s.Delivered p c s₁ → (Event.placed p c).Legal s.maxHops → Carries es s₁ s' →
      Carries (.placed p c :: es) s s'
  | moved {es : List (Event n)} {s s₁ s₂ s' : DtaScheduler n} {src dst : Place n}
      {c c' : TaskChunk} :
      s.Taken src c s₁ → s₁.Delivered dst c' s₂ → (Event.moved src dst c c').Legal s.maxHops →
      Carries es s₂ s' → Carries (.moved src dst c c' :: es) s s'

theorem Carries.append {n : Nat} {es es' : List (Event n)} {s s₁ s' : DtaScheduler n}
    (h : Carries es s s₁) (h' : Carries es' s₁ s') : Carries (es ++ es') s s' := by
  induction h with
  | done => exact h'
  | rest hr _ ih => exact .rest hr (ih h')
  | placed hd hl _ ih => exact .placed hd hl (ih h')
  | moved ht hd hl _ ih => exact .moved ht hd hl (ih h')

namespace DtaScheduler

variable {n : Nat} {s s' s₁ : DtaScheduler n}

/-! ## The containers -/

theorem chunksAt_setMailbox (s : DtaScheduler n) (i j : Fin n) (m : Mailbox) :
    (s.setMailbox i j m).chunksAt = Function.update s.chunksAt (.mailbox i j) m.contents := by
  funext p
  cases p with
  | mailbox i' j' =>
    by_cases hi : i' = i
    · subst hi
      by_cases hj : j' = j
      · subst hj
        simp [chunksAt, setMailbox]
      · simp [chunksAt, setMailbox, hj]
    · simp [chunksAt, setMailbox, hi]
  | _ => simp [chunksAt, setMailbox]

theorem chunksAt_setExternal (s : DtaScheduler n) (j : Fin n) (m : Mailbox) :
    (s.setExternal j m).chunksAt = Function.update s.chunksAt (.external j) m.contents := by
  funext p
  cases p with
  | external j' =>
    by_cases h : j' = j
    · subst h
      simp [chunksAt, setExternal]
    · simp [chunksAt, setExternal, h]
  | _ => simp [chunksAt, setExternal]

theorem chunksAt_setWarehouse (s : DtaScheduler n) (warehouse : Warehouse) :
    { s with warehouse }.chunksAt = Function.update s.chunksAt .warehouse warehouse.contents := by
  funext p
  cases p <;> simp [chunksAt]

theorem chunksAt_setWorker (s : DtaScheduler n) (w : Fin n) (x : Worker n) :
    (s.setWorker w x).chunksAt = s.chunksAt := by
  funext p
  cases p <;> rfl

variable {c : TaskChunk} {producer : Caller n} {target w core : Fin n} {b b' : Bool}
  {task fuel : Nat} {src : Inlet n}

theorem Deposit.delivered {p : Place n} (h : Deposit s p c.tasks s')
    (hc : s'.chunksAt = put s.chunksAt p [c]) : s.Delivered p c s' :=
  ⟨fun _ => congrFun h.tasks _, fun q _ => congrFun hc q⟩

theorem Delivered.signal {p : Place n} (h : s.Delivered p c s') (w : Fin n) :
    s.Delivered p c (s'.signalWorker w) where
  queues v := by rw [(signalWorker_quiet s' w).tasks, h.queues]
  chunks q hq := by rw [signalWorker, chunksAt_setWorker, h.chunks q hq]

theorem pushMailbox_error {c' : TaskChunk} (h : s.pushMailbox producer target c = .error c') :
    c' = c := by
  rcases s.pushMailbox_spec producer target c with he | ⟨s', hs', -⟩
  · rw [he] at h
    exact (Except.error.inj h).symm
  · rw [hs'] at h
    cases h

theorem pushMailbox_delivered (h : s.pushMailbox producer target c = .ok s') :
    s.Delivered (.inbox producer target) c s' := by
  have hd : Deposit s (.inbox producer target) c.tasks s' := by
    rcases s.pushMailbox_spec producer target c with he | ⟨s₁, hs₁, hd⟩
    · rw [he] at h
      cases h
    · rw [hs₁] at h
      exact Except.ok.inj h ▸ hd
  refine hd.delivered ?_
  cases producer with
  | worker i =>
    cases hp : (s.mailboxes i target).push c with
    | error c' => simp [pushMailbox, hp, Except.map] at h
    | ok m =>
      obtain rfl : s.setMailbox i target m = s' := by simpa [pushMailbox, hp, Except.map] using h
      rw [chunksAt_setMailbox, Mailbox.push_ok hp]
      rfl
  | host =>
    cases hp : (s.externalMailboxes target).push c with
    | error c' => simp [pushMailbox, hp, Except.map] at h
    | ok m =>
      obtain rfl : s.setExternal target m = s' := by simpa [pushMailbox, hp, Except.map] using h
      rw [chunksAt_setExternal, Mailbox.push_ok hp]
      rfl

theorem parkInWarehouse_delivered (h : s.parkInWarehouse c = .ok (b, s')) :
    s.Delivered .warehouse c s' := by
  rcases s.warehouse.push_spec c with ⟨w, hw, hc⟩ | ⟨hw, -⟩
  · obtain ⟨-, rfl⟩ : true = b ∧ { s with warehouse := w } = s' := by
      simpa [parkInWarehouse, hw] using h
    refine ⟨fun v => rfl, fun q _ => ?_⟩
    rw [chunksAt_setWarehouse, hc]
    rfl
  · simp [parkInWarehouse, hw] at h

theorem routePark_delivered (h : s.routePark w c = .ok s') : s.Delivered .warehouse c s' := by
  unfold routePark at h
  cases hpark : s.parkInWarehouse c with
  | error f => simp [hpark, Except.map] at h
  | ok r =>
    obtain rfl : r.2 = s' := by simpa [hpark, Except.map] using h
    exact parkInWarehouse_delivered hpark

theorem pushLocal_false (h : s.pushLocal w task = (false, s')) : s' = s := by
  by_cases hfull : (s.workers w).localQueueLen ≥ localQueueCapacity - 1
  · rw [pushLocal_full hfull] at h
    exact (Prod.mk.inj h).2.symm
  · rw [pushLocal_room hfull] at h
    cases h

theorem setWorker_delivered {x : Worker n} (h : Deposit s (.queue w) c.tasks (s.setWorker w x)) :
    s.Delivered (.queue w) c (s.setWorker w x) := by
  refine ⟨fun _ => congrFun h.tasks _, fun q hq => ?_⟩
  have hne : q ≠ .queue w := by
    rintro rfl
    exact hq trivial
  rw [chunksAt_setWorker, put, Function.update_of_ne hne]

theorem pushLocal_delivered (h : s.pushLocal w task = (true, s')) :
    s.Delivered (.queue w) (.single task) s' := by
  by_cases hfull : (s.workers w).localQueueLen ≥ localQueueCapacity - 1
  · rw [pushLocal_full hfull] at h
    cases h
  · obtain ⟨s₁, hs₁, hd⟩ := pushLocal_ok (t := task) hfull
    rw [hs₁] at h
    obtain rfl : s₁ = s' := (Prod.mk.inj h).2
    rw [pushLocal_room hfull] at hs₁
    obtain rfl := (Prod.mk.inj hs₁).2
    exact setWorker_delivered hd

theorem Quiet.rests (h : Quiet s s') (hc : s'.chunksAt = s.chunksAt) : s.Rests s' :=
  ⟨fun w => by rw [h.tasks], hc⟩

theorem chunksAt_ofInlet (s : DtaScheduler n) (core : Fin n) (src : Inlet n) :
    s.chunksAt (.ofInlet core src) = (s.inlet core src).contents := by
  cases src <;> rfl

theorem chunksAt_setInlet (s : DtaScheduler n) (core : Fin n) (src : Inlet n) (m : Mailbox) :
    (s.setInlet core src m).chunksAt =
      Function.update s.chunksAt (.ofInlet core src) m.contents := by
  cases src with
  | peer i => exact s.chunksAt_setMailbox i core m
  | external => exact s.chunksAt_setExternal core m

theorem setInlet_taken {m : Mailbox} (h : (s.inlet core src).contents = c :: m.contents) :
    s.Taken (.ofInlet core src) c (s.setInlet core src m) where
  queues w := by
    rw [(s.setInlet_effect core src m).tasks, Function.update_of_ne]
    intro heq
    exact (Place.ofInlet_isMailbox core src).not_isQueue (heq ▸ trivial)
  front := by rw [chunksAt_ofInlet, h, chunksAt_ofInlet, inlet_setInlet]
  chunks q hq := by rw [chunksAt_setInlet, Function.update_of_ne hq]

theorem setWarehouse_taken {warehouse : Warehouse}
    (h : s.warehouse.contents = c :: warehouse.contents) :
    s.Taken .warehouse c { s with warehouse } where
  queues w := rfl
  front := h
  chunks q hq := by rw [chunksAt_setWarehouse, Function.update_of_ne hq]

theorem drainLoop_carries {rounds : Nat} (h : drainLoop core rounds b s = .ok (b', s')) :
    Carries (drainEvents core rounds s) s s' := by
  induction rounds generalizing b s with
  | zero =>
    obtain ⟨-, rfl⟩ := Prod.mk.inj (Except.ok.inj h)
    exact .done
  | succ rounds ih =>
    simp only [drainLoop, drainEvents] at h ⊢
    split at h
    · next hfull =>
      obtain ⟨-, rfl⟩ := Prod.mk.inj (Except.ok.inj h)
      rw [if_pos hfull]
      exact .done
    next hroom =>
    rw [if_neg hroom]
    rcases s.warehouse.pop_spec with ⟨hpop, -⟩ | ⟨c, w, hpop, hcons⟩
    · rw [hpop] at h
      obtain ⟨-, rfl⟩ := Prod.mk.inj (Except.ok.inj h)
      rw [hpop]
      exact .done
    · rw [hpop] at h
      rw [hpop]
      have hle : (s.workers core).localQueueLen + c.count ≤ localQueueHighWatermark := by
        have hcount : c.count ≤ chunkSize := c.count_le
        omega
      have hd : Deposit { s with warehouse := w } (.queue core) c.tasks
          ({ s with warehouse := w }.setWorker core ((s.workers core).pushBatch c)) :=
        pushBatch_deposit (s := { s with warehouse := w }) hle
      exact .moved (setWarehouse_taken hcons) (setWorker_delivered hd)
        ⟨rfl, .inr ⟨rfl, trivial⟩⟩ (ih h)

theorem popLocal_rests (s : DtaScheduler n) (w : Fin n) : s.Rests (s.popLocal w).2 := by
  unfold popLocal
  rcases (s.workers w).localQueue.contents_pop with ⟨hpop, -⟩ | ⟨task, q, hpop, hcons⟩
  · rw [hpop]
    exact ⟨fun _ => List.suffix_rfl, rfl⟩
  · rw [hpop]
    refine ⟨fun v => ?_, chunksAt_setWorker _ _ _⟩
    show (s.setQueue w q).tasksAt (.queue v) <:+ s.tasksAt (.queue v)
    rw [(s.setQueue_effect w q).tasks]
    by_cases hv : v = w
    · subst hv
      rw [Function.update_self]
      exact ⟨[task], hcons.symm⟩
    · rw [Function.update_of_ne (by simpa using hv)]

/-! ## Where chunks go -/

theorem maxHops_le (s : DtaScheduler n) : s.maxHops ≤ 255 := by
  rw [s.maxHops_eq]
  exact Nat.min_le_right _ _

/-- All schedulers with the same workers have the same limit. -/
theorem maxHops_congr (s s' : DtaScheduler n) : s'.maxHops = s.maxHops := by
  rw [s'.maxHops_eq, s.maxHops_eq]

/-- Below the limit the byte does not saturate. -/
theorem hop_eq (h : c.hopCount < s.maxHops) : c.hop.hopCount = c.hopCount + 1 := by
  have hle := s.maxHops_le
  show min (c.hopCount + 1) 255 = c.hopCount + 1
  omega

variable [NeZero n]

/-- An enqueued chunk keeps its tasks, and its hop count stays within the limit. -/
theorem hopLoop_delivered (h : s.hopLoop producer fuel target c = .ok (b, s'))
    (hc : c.hopCount ≤ s.maxHops) :
    let dest := s.hopDest producer fuel target c
    s.Delivered dest.1 dest.2 s' ∧ dest.2.hopCount ≤ s.maxHops := by
  induction fuel generalizing target c with
  | zero => cases h
  | succ fuel ih =>
    simp only [hopLoop, hopDest] at h ⊢
    cases hp : s.pushMailbox producer target c with
    | ok s₁ =>
      simp only [hp, Except.ok.injEq, Prod.mk.injEq] at h ⊢
      obtain ⟨-, rfl⟩ := h
      exact ⟨(pushMailbox_delivered hp).signal target, hc⟩
    | error c' =>
      obtain rfl := pushMailbox_error hp
      simp only [hp] at h ⊢
      split at h
      · next hmax =>
        rw [if_pos hmax]
        exact ⟨parkInWarehouse_delivered h, hc⟩
      · next hlt =>
        rw [if_neg hlt]
        refine ih h ?_
        rw [hop_eq (Nat.lt_of_not_ge hlt)]
        omega

/-- A polled chunk goes to a mailbox only with one hop more. -/
theorem routeChunk_delivered (h : s.routeChunk core c = .ok s') :
    let dest := s.routeDest core c
    s.Delivered dest.1 dest.2 s' ∧ dest.2.tasks = c.tasks ∧
      (dest.1.IsMailbox → c.hopCount < dest.2.hopCount ∧ dest.2.hopCount ≤ s.maxHops) := by
  simp only [routeChunk, routeDest] at h ⊢
  by_cases hspace : (s.workers core).localQueueLen + c.count ≤ localQueueHighWatermark
  · have hs' : s.routeLocal core c = .ok s' := by
      cases hd : decide (c.hopCount < s.maxHops) <;>
        simpa only [hd, decide_eq_true hspace] using h
    rw [if_pos hspace]
    obtain rfl : s.setWorker core ((s.workers core).pushBatch c) = s' := Except.ok.inj hs'
    exact ⟨setWorker_delivered (pushBatch_deposit hspace), rfl, False.elim⟩
  · rw [if_neg hspace]
    by_cases hhops : c.hopCount < s.maxHops
    · have hs' : s.routeDeflect core c = .ok s' := by
        simpa only [decide_eq_true hhops, decide_eq_false hspace] using h
      rw [if_pos hhops]
      simp only [routeDeflect] at hs'
      cases hp : s.pushMailbox (.worker core) (hopTarget (.worker core) c.hop.hopCount) c.hop with
      | ok s₁ =>
        simp only [hp, Except.ok.injEq] at hs' ⊢
        subst hs'
        refine ⟨(pushMailbox_delivered hp).signal _, rfl, fun _ => ?_⟩
        rw [hop_eq hhops]
        omega
      | error c' =>
        obtain rfl := pushMailbox_error hp
        simp only [hp] at hs' ⊢
        exact ⟨routePark_delivered (w := core) hs', rfl, False.elim⟩
    · have hs' : s.routePark core c = .ok s' := by
        simpa only [decide_eq_false hhops, decide_eq_false hspace] using h
      rw [if_neg hhops]
      exact ⟨routePark_delivered hs', rfl, False.elim⟩

/-! ## The operations -/

theorem pollInlet_carries (h : pollInlet core src fuel b s = .ok (b', s')) :
    Carries (pollInletEvents core src fuel s) s s' := by
  induction fuel generalizing b s with
  | zero => cases h
  | succ fuel ih =>
    simp only [pollInlet, pollInletEvents] at h ⊢
    split at h
    · next hfull =>
      obtain ⟨-, rfl⟩ := Prod.mk.inj (Except.ok.inj h)
      rw [if_pos hfull]
      exact .done
    next hroom =>
    rw [if_neg hroom]
    rcases (s.inlet core src).contents_pop with ⟨hpop, -⟩ | ⟨c, m, hpop, hcons⟩
    · rw [hpop] at h
      obtain ⟨-, rfl⟩ := Prod.mk.inj (Except.ok.inj h)
      rw [hpop]
      exact .done
    · rw [hpop] at h
      rw [hpop]
      simp only at h ⊢
      cases hroute : (s.setInlet core src m).routeChunk core c with
      | error f =>
        rw [hroute] at h
        cases h
      | ok s₁ =>
        rw [hroute] at h
        obtain ⟨hd, htasks, hhops⟩ := routeChunk_delivered hroute
        rw [maxHops_congr s] at hhops
        exact .moved (setInlet_taken hcons) hd
          ⟨htasks, .inl ⟨Place.ofInlet_isMailbox core src, hhops⟩⟩ (ih h)

/-- What a poll does with the chunks does not depend on the flag it returns. -/
theorem pollInlet_flag {b₁ : Bool} (h : pollInlet core src fuel b s = .ok (b₁, s')) (b' : Bool) :
    ∃ b₂, pollInlet core src fuel b' s = .ok (b₂, s') := by
  cases fuel with
  | zero => cases h
  | succ fuel =>
    simp only [pollInlet] at h ⊢
    split at h
    · next hfull =>
      obtain ⟨-, rfl⟩ := Prod.mk.inj (Except.ok.inj h)
      exact ⟨b', if_pos hfull⟩
    next hroom =>
    rw [if_neg hroom]
    cases hpop : (s.inlet core src).pop with
    | none =>
      rw [hpop] at h
      obtain ⟨-, rfl⟩ := Prod.mk.inj (Except.ok.inj h)
      exact ⟨b', rfl⟩
    | some r =>
      rw [hpop] at h
      exact ⟨b₁, h⟩

theorem pollInlets_ok_cons {rest : List (Inlet n)}
    (h : pollInlets core (src :: rest) b s = .ok (b', s')) :
    ∃ r, pollInlet core src mailboxCapacity b s = .ok r ∧
      pollInlets core rest r.1 r.2 = .ok (b', s') := by
  rw [pollInlets] at h
  cases hpoll : pollInlet core src mailboxCapacity b s with
  | error f =>
    rw [hpoll] at h
    cases h
  | ok r =>
    rw [hpoll] at h
    exact ⟨r, rfl, h⟩

theorem pollInletsEvents_cons {rest : List (Inlet n)} {r : Bool × DtaScheduler n}
    (h : pollInlet core src mailboxCapacity b s = .ok r) :
    pollInletsEvents core (src :: rest) s =
      pollInletEvents core src mailboxCapacity s ++ pollInletsEvents core rest r.2 := by
  obtain ⟨b₂, hflag⟩ := pollInlet_flag h false
  rw [pollInletsEvents, hflag]

theorem pollInlets_carries {srcs : List (Inlet n)} (h : pollInlets core srcs b s = .ok (b', s')) :
    Carries (pollInletsEvents core srcs s) s s' := by
  induction srcs generalizing b s with
  | nil =>
    obtain ⟨-, rfl⟩ := Prod.mk.inj (Except.ok.inj h)
    exact .done
  | cons src rest ih =>
    obtain ⟨r, hpoll, hrest⟩ := pollInlets_ok_cons h
    rw [pollInletsEvents_cons hpoll]
    exact (pollInlet_carries hpoll).append (ih hrest)

theorem pollMailboxes_carries (h : s.pollMailboxes core = .ok (b, s')) :
    Carries (pollInletsEvents core (s.inlets core) s) s s' := by
  simp only [pollMailboxes] at h
  cases hpoll : pollInlets core (s.inlets core) false s with
  | error f =>
    rw [hpoll] at h
    cases h
  | ok r =>
    rw [hpoll] at h
    obtain ⟨-, rfl⟩ := Prod.mk.inj (Except.ok.inj h)
    have hrest : Carries [] r.2 (r.2.setWorker core (r.2.workers core).updateLoad.tick) :=
      .rest ((r.2.bookkeeping_quiet core).rests (chunksAt_setWorker _ _ _)) .done
    simpa using (pollInlets_carries hpoll).append hrest

theorem enqueuePinned_delivered {current : Caller n} {targetCore : Nat}
    (h : s.enqueuePinned current targetCore task = (true, s')) :
    s.Delivered (pinnedPlace current (Fin.ofNat n targetCore)) (.single task) s' := by
  simp only [enqueuePinned, pinnedPlace] at h ⊢
  split at h
  · next hcur =>
    rw [if_pos hcur]
    exact pushLocal_delivered h
  · next hcur =>
    rw [if_neg hcur]
    cases hp : s.pushMailbox current (Fin.ofNat n targetCore) (.single task) with
    | ok s₁ =>
      rw [hp] at h
      obtain ⟨-, rfl⟩ := Prod.mk.inj h
      exact (pushMailbox_delivered hp).signal _
    | error c =>
      rw [hp] at h
      cases (Prod.mk.inj h).1

theorem enqueueDeflect_delivered {current : Caller n} {sourceCore flowId : Nat}
    {affinity : Affinity}
    (h : s.enqueueDeflect current sourceCore flowId task affinity = .ok (b, s')) :
    let dest := s.deflectDest current sourceCore flowId task affinity
    s.Delivered dest.1 dest.2 s' ∧ (dest.1.IsMailbox → dest.2.hopCount ≤ s.maxHops) := by
  simp only [enqueueDeflect, deflectDest] at h ⊢
  split at h
  · next hbusy =>
    rw [if_pos hbusy]
    exact ⟨parkInWarehouse_delivered h, False.elim⟩
  next hbusy =>
  rw [if_neg hbusy]
  generalize s.deflectTarget sourceCore flowId affinity = target at h ⊢
  -- the mesh gets the chunk with no hop behind it
  have hmesh (h : s.pushChunkWithHop current target (.single task) = .ok (b, s')) :=
    hopLoop_delivered h (Nat.zero_le s.maxHops)
  split at h
  · next hcur =>
    cases hpush : s.pushLocal target task with
    | mk ok s₁ =>
      rw [hpush] at h
      cases ok with
      | true =>
        rw [if_pos ⟨hcur, rfl⟩]
        obtain ⟨-, rfl⟩ := Prod.mk.inj (Except.ok.inj h)
        exact ⟨pushLocal_delivered hpush, False.elim⟩
      | false =>
        have hsame : s₁ = s := pushLocal_false hpush
        subst hsame
        rw [if_neg (by simp)]
        exact (hmesh h).imp_right fun hle _ => hle
  · next hcur =>
    rw [if_neg fun hc => hcur hc.1]
    exact (hmesh h).imp_right fun hle _ => hle

end DtaScheduler

namespace Op

open DtaScheduler

variable {n : Nat} [NeZero n]

omit [NeZero n] in
theorem of_map_flag {s' : DtaScheduler n} {r : Except Fault (Bool × DtaScheduler n)} {out : Outcome}
    (h : r.map (·.map Outcome.flag id) = .ok (out, s')) : ∃ b, r = .ok (b, s') := by
  cases r with
  | error f => cases h
  | ok r =>
    obtain ⟨-, rfl⟩ := Prod.mk.inj (Except.ok.inj h)
    exact ⟨r.1, rfl⟩

/-- The events of an operation account for all it does. -/
theorem run_carries {s s' : DtaScheduler n} {op : Op n} {out : Outcome}
    (h : op.run s = .ok (out, s')) : Carries (op.events s) s s' := by
  cases op with
  | enqueuePinned current targetCore task =>
    simp only [run, events] at h ⊢
    rcases s.enqueuePinned_spec current targetCore task with he | ⟨s₁, hs₁, -⟩
    · rw [he] at h ⊢
      obtain ⟨-, rfl⟩ := Prod.mk.inj (Except.ok.inj h)
      exact .done
    · rw [hs₁] at h ⊢
      obtain ⟨-, rfl⟩ := Prod.mk.inj (Except.ok.inj h)
      exact .placed (enqueuePinned_delivered hs₁) (fun _ => Nat.zero_le s.maxHops) .done
  | enqueueDeflect current sourceCore flowId task affinity =>
    obtain ⟨b, hb⟩ := of_map_flag h
    obtain ⟨hd, hhops⟩ := enqueueDeflect_delivered hb
    exact .placed hd hhops .done
  | pollMailboxes w =>
    obtain ⟨b, hb⟩ := of_map_flag h
    exact pollMailboxes_carries hb
  | drainWarehouse w =>
    obtain ⟨b, hb⟩ := of_map_flag h
    exact drainLoop_carries hb
  | popLocal w =>
    obtain ⟨-, rfl⟩ := Prod.mk.inj (Except.ok.inj h)
    exact .rest (popLocal_rests s w) .done

end Op

/-! ## Counting the moves -/

structure Parcel where
  chunk : TaskChunk
  moves : Nat

/-- The chunks at every place. A local queue keeps all that have arrived there. -/
abbrev Track (n : Nat) := Place n → List Parcel

namespace Track

variable {n : Nat}

def record (t : Track n) : Event n → Track n
  | .placed dst chunk => put t dst [⟨chunk, 0⟩]
  | .moved src dst _ chunk' =>
    match t src with
    | [] => t
    | x :: rest => put (Function.update t src rest) dst [⟨chunk', x.moves + 1⟩]

/-- What the events make of an empty scheduler. -/
def replay (log : List (Event n)) : Track n := log.foldl record fun _ => []

/-- The track is that of the scheduler: the mailboxes and the warehouse hold its chunks, and the
local queues hold tasks that have arrived, those that came last. -/
structure Tracks (s : DtaScheduler n) (t : Track n) : Prop where
  chunks : ∀ p, ¬ p.IsQueue → (t p).map Parcel.chunk = s.chunksAt p
  queues : ∀ w, s.tasksAt (.queue w) <:+ tasksOf ((t (.queue w)).map Parcel.chunk)

end Track

/-- How many moves a chunk may have behind it at a place. -/
def Parcel.Within {n : Nat} (maxHops : Nat) (x : Parcel) : Place n → Prop
  | .queue _ => x.moves ≤ maxHops + 2
  | .warehouse => x.moves ≤ maxHops + 1
  | _ => x.chunk.hopCount ≤ maxHops ∧ x.moves ≤ x.chunk.hopCount

structure Track.Bounded {n : Nat} (s : DtaScheduler n) (t : Track n) : Prop where
  tracks : t.Tracks s
  within : ∀ p, ∀ x ∈ t p, x.Within s.maxHops p

namespace Track

open DtaScheduler

variable {n : Nat} {s s' : DtaScheduler n} {t : Track n}

theorem map_put (t : Track n) (p q : Place n) (x : Parcel) :
    (put t p [x] q).map Parcel.chunk = put (fun q => (t q).map Parcel.chunk) p [x.chunk] q := by
  unfold put
  by_cases h : q = p
  · subst h
    simp
  · simp [h]

variable {p : Place n} {x : Parcel} {c : TaskChunk}

/-- A new parcel at `p` stands for a chunk that is delivered there. -/
theorem Tracks.delivered (h : t.Tracks s) (hd : s.Delivered p x.chunk s') :
    Tracks s' (put t p [x]) where
  chunks q hq := by
    rw [map_put, hd.chunks q hq]
    unfold put
    by_cases hqp : q = p
    · subst hqp
      simp [h.chunks q hq]
    · simp [hqp, h.chunks q hq]
  queues w := by
    rw [map_put, hd.queues w]
    unfold put
    by_cases hwp : .queue w = p
    · subst hwp
      obtain ⟨l, hl⟩ := h.queues w
      exact ⟨l, by simp [← hl]⟩
    · simp [hwp, h.queues w]

theorem Tracks.rests (h : t.Tracks s) (hr : s.Rests s') : t.Tracks s' where
  chunks q hq := by rw [hr.chunks, h.chunks q hq]
  queues w := (hr.queues w).trans (h.queues w)

/-- The parcel at the front of `p` stands for the chunk that is taken. -/
theorem Tracks.taken (h : t.Tracks s) (hp : ¬ p.IsQueue) (ht : s.Taken p c s') :
    ∃ x rest, t p = x :: rest ∧ x.chunk = c ∧ Tracks s' (Function.update t p rest) := by
  have hmap := h.chunks p hp
  rw [ht.front] at hmap
  obtain ⟨x, rest, heq, hx, hrest⟩ := List.map_eq_cons_iff.mp hmap
  refine ⟨x, rest, heq, hx, fun q hq => ?_, fun w => ?_⟩
  · by_cases hqp : q = p
    · subst hqp
      rw [Function.update_self, hrest]
    · rw [Function.update_of_ne hqp, ht.chunks q hqp, h.chunks q hq]
  · have hne : Place.queue w ≠ p := by
      rintro rfl
      exact hp trivial
    rw [Function.update_of_ne hne, ht.queues w]
    exact h.queues w

theorem within_put {maxHops : Nat} (h : ∀ q, ∀ y ∈ t q, y.Within maxHops q)
    (hx : x.Within maxHops p) : ∀ q, ∀ y ∈ put t p [x] q, y.Within maxHops q := by
  intro q y hy
  unfold put at hy
  by_cases hq : q = p
  · subst hq
    rw [Function.update_self, List.mem_append, List.mem_singleton] at hy
    rcases hy with hy | rfl
    · exact h q y hy
    · exact hx
  · rw [Function.update_of_ne hq] at hy
    exact h q y hy

/-- A move leaves the parcel within the bound of the place it comes to. -/
theorem within_move {maxHops : Nat} {src dst : Place n} {c' : TaskChunk} (hx : x.Within maxHops src)
    (hl : (Event.moved src dst x.chunk c').Legal maxHops) :
    Parcel.Within maxHops ⟨c', x.moves + 1⟩ dst := by
  obtain ⟨-, ⟨hsrc, hdst⟩ | ⟨rfl, hdst⟩⟩ := hl
  · have hx : x.chunk.hopCount ≤ maxHops ∧ x.moves ≤ x.chunk.hopCount := by
      cases src <;> first | exact hx | exact absurd hsrc id
    cases dst with
    | queue w =>
      show x.moves + 1 ≤ maxHops + 2
      omega
    | warehouse =>
      show x.moves + 1 ≤ maxHops + 1
      omega
    | mailbox i j | external j =>
      have := hdst trivial
      show c'.hopCount ≤ maxHops ∧ x.moves + 1 ≤ c'.hopCount
      omega
  · cases dst with
    | queue w => exact Nat.succ_le_succ hx
    | _ => exact absurd hdst id

theorem Bounded.placed (h : t.Bounded s) (hd : s.Delivered p c s')
    (hl : (Event.placed p c).Legal s.maxHops) : Bounded s' (t.record (.placed p c)) where
  tracks := h.tracks.delivered (x := ⟨c, 0⟩) hd
  within := by
    rw [maxHops_congr s]
    refine within_put h.within ?_
    cases p with
    | queue w | warehouse => exact Nat.zero_le _
    | mailbox i j | external j => exact ⟨hl trivial, Nat.zero_le _⟩

theorem Bounded.moved {s₁ : DtaScheduler n} {src dst : Place n} {c' : TaskChunk} (h : t.Bounded s)
    (ht : s.Taken src c s₁) (hd : s₁.Delivered dst c' s')
    (hl : (Event.moved src dst c c').Legal s.maxHops) :
    Bounded s' (t.record (.moved src dst c c')) := by
  have hsrc : ¬ src.IsQueue := by
    obtain ⟨-, ⟨hsrc, -⟩ | ⟨rfl, -⟩⟩ := hl
    · exact hsrc.not_isQueue
    · exact id
  obtain ⟨x, rest, heq, rfl, htracks⟩ := h.tracks.taken hsrc ht
  have hx : x.Within s.maxHops src := h.within src x (heq ▸ List.mem_cons_self)
  have hrest : ∀ q, ∀ y ∈ Function.update t src rest q, y.Within s.maxHops q := by
    intro q y hy
    by_cases hq : q = src
    · subst hq
      rw [Function.update_self] at hy
      exact h.within q y (heq ▸ List.mem_cons_of_mem _ hy)
    · rw [Function.update_of_ne hq] at hy
      exact h.within q y hy
  simp only [record, heq]
  refine ⟨htracks.delivered (x := ⟨c', x.moves + 1⟩) hd, ?_⟩
  rw [maxHops_congr s]
  exact within_put hrest (within_move hx hl)

/-- The run lemma for the events of one operation. -/
theorem Bounded.carries {es : List (Event n)} (h : t.Bounded s) (hc : Carries es s s') :
    Bounded s' (es.foldl record t) := by
  induction hc generalizing t with
  | done => exact h
  | @rest es s s₁ s' hr _ ih =>
    refine ih ⟨h.tracks.rests hr, ?_⟩
    rw [maxHops_congr s]
    exact h.within
  | placed hd hl _ ih => exact ih (h.placed hd hl)
  | moved ht hd hl _ ih => exact ih (h.moved ht hd hl)

end Track

theorem Carries.legal {n : Nat} {es : List (Event n)} {s s' : DtaScheduler n}
    (h : Carries es s s') : ∀ e ∈ es, e.Legal s.maxHops := by
  induction h with
  | done => intro e he; cases he
  | @rest es s s₁ s' _ _ ih => rwa [DtaScheduler.maxHops_congr s] at ih
  | @placed es s s₁ s' p c _ hl _ ih | @moved es s s₁ s₂ s' src dst c c' _ _ hl _ ih =>
    rw [DtaScheduler.maxHops_congr s] at ih
    exact List.forall_mem_cons.mpr ⟨hl, ih⟩

/-! ## Runs -/

namespace System

variable {n : Nat} [NeZero n]

def logEvents (op : Op n) (σ : System n) (log : List (Event n)) : List (Event n) :=
  log ++ op.events σ.sched

theorem step_run {σ σ' : System n} {op : Op n} (h : step op σ = some σ') :
    ∃ out, op.run σ.sched = .ok (out, σ'.sched) := by
  unfold step at h
  split at h
  · next out s' hrun =>
    obtain rfl := Option.some.inj h
    exact ⟨out, hrun⟩
  · cases h

structure Deflects (σ : System n) (log : List (Event n)) : Prop where
  /-- The log accounts for the contents of all containers. -/
  tracks : (Track.replay log).Tracks σ.sched
  hops : ∀ p : Place n, p.IsMailbox → ∀ c ∈ σ.sched.chunksAt p, c.hopCount ≤ σ.sched.maxHops
  deflected : ∀ src dst c c', .moved src dst c c' ∈ log → src.IsMailbox → dst.IsMailbox →
    c.hopCount < c'.hopCount
  drained : ∀ dst c c', .moved .warehouse dst c c' ∈ log → dst.IsQueue
  settled : ∀ src dst c c', .moved src dst c c' ∈ log → ¬ src.IsQueue ∧ c'.tasks = c.tasks
  moves : ∀ p, ∀ x ∈ Track.replay log p, x.moves ≤ σ.sched.maxHops + 2

structure Hopping (σ : System n) (log : List (Event n)) : Prop where
  bounded : (Track.replay log).Bounded σ.sched
  legal : ∀ e ∈ log, e.Legal σ.sched.maxHops

theorem hopping_initial {σ : System n} (h : σ.Initial) : Hopping σ [] := by
  obtain ⟨topology, rfl⟩ := h
  have hm : Mailbox.new.contents = [] := Buffer.contents_empty _ _
  refine ⟨⟨⟨fun p hp => ?_, fun w => ?_⟩, fun p x hx => ?_⟩, fun e he => ?_⟩
  · cases p with
    | queue w => exact absurd trivial hp
    | mailbox i j | external j => exact hm.symm
    | warehouse => exact Warehouse.contents_new.symm
  · rw [DtaScheduler.tasksAt_new]
    exact List.nil_suffix
  · cases hx
  · cases he

theorem Hopping.step {σ σ' : System n} {op : Op n} {log : List (Event n)} (h : Hopping σ log)
    (hst : System.step op σ = some σ') : Hopping σ' (logEvents op σ log) := by
  obtain ⟨out, hrun⟩ := step_run hst
  have hc := Op.run_carries hrun
  unfold logEvents
  refine ⟨?_, fun e he => ?_⟩
  · rw [Track.replay, List.foldl_append]
    exact h.bounded.carries hc
  · rw [DtaScheduler.maxHops_congr σ.sched]
    rcases List.mem_append.mp he with he | he
    · exact h.legal e he
    · exact hc.legal e he

omit [NeZero n] in
theorem Hopping.deflects {σ : System n} {log : List (Event n)} (h : Hopping σ log) :
    Deflects σ log where
  tracks := h.bounded.tracks
  hops p hp c hc := by
    rw [← h.bounded.tracks.chunks p hp.not_isQueue] at hc
    obtain ⟨x, hx, rfl⟩ := List.mem_map.mp hc
    have hwithin := h.bounded.within p x hx
    cases p <;> first | exact hwithin.1 | exact absurd hp id
  deflected src dst c c' he hsrc hdst := by
    obtain ⟨-, ⟨-, hhops⟩ | ⟨rfl, -⟩⟩ := h.legal _ he
    · exact (hhops hdst).1
    · exact absurd hsrc id
  drained dst c c' he := by
    obtain ⟨-, ⟨hsrc, -⟩ | ⟨-, hdst⟩⟩ := h.legal _ he
    · exact absurd hsrc id
    · exact hdst
  settled src dst c c' he := by
    obtain ⟨htasks, ⟨hsrc, -⟩ | ⟨rfl, -⟩⟩ := h.legal _ he
    · exact ⟨hsrc.not_isQueue, htasks⟩
    · exact ⟨id, htasks⟩
  moves p x hx := by
    have hwithin := h.bounded.within p x hx
    cases p with
    | queue w => exact hwithin
    | warehouse => exact Nat.le_succ_of_le hwithin
    | mailbox i j | external j => exact (hwithin.2.trans hwithin.1).trans (Nat.le_add_right _ 2)

/-- **Deflection is bounded.** For every number of workers and every run: a chunk in a mailbox has
at most `max_hops` hops, a move from mailbox to mailbox raises its hop count, a chunk in the
warehouse is moved to a local queue only and a task in a local queue not at all, and no chunk is
moved more than `max_hops + 2` times. -/
theorem deflection_bounded {tr : List (Op n)} {σ : System n} {log : List (Event n)}
    (h : Run (initHist Initial []) (withHist step logEvents) Free tr (σ, log)) :
    Deflects σ log := by
  have hinv : Hopping σ log :=
    h.hist_invariant (I := Hopping) (fun _ => hopping_initial)
      (fun _ _ _ _ hI _ hst => hI.step hst)
  exact hinv.deflects

theorem deflection_bounded_two : ∃ (σ : System 2) (log : List (Event 2)),
    Run (initHist Initial []) (withHist step logEvents) Free deflectAndDispatch.reverse (σ, log) ∧
      log.length = 3 ∧ Deflects σ log := by
  obtain ⟨⟨σ, log⟩, hrun, hlen⟩ : ∃ p, Run (initHist Initial []) (withHist step logEvents) Free
      deflectAndDispatch.reverse p ∧ p.2.length = 3 :=
    Run.exists_of_exec deflectAndDispatch (⟨DtaScheduler.new 2 .global, [], []⟩, [])
      ⟨⟨.global, rfl⟩, rfl⟩ (by decide +kernel)
  exact ⟨σ, log, hrun, hlen, deflection_bounded hrun⟩

end System

end Dtact.Scheduler
