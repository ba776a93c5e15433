import Dtact.Lib.Transition
import Dtact.Scheduler.Basic

/-!
# The local run queue

`push_local` looks at the length first. `push_batch` looks at nothing: its callers compare the
length with the high watermark, and it copies the tasks of a chunk in two pieces if they reach the
end of the array.
-/

namespace Dtact.Scheduler

open Circular Transition

variable {n : Nat}

namespace Worker

/-- `push_batch` as `route_chunk` calls it. -/
def routeBatch (w : Worker n) (chunk : TaskChunk) : Option (Worker n) :=
  if w.localQueueLen + chunk.count ≤ localQueueHighWatermark then some (w.pushBatch chunk)
  else none

/-- `push_batch` as `drain_warehouse` calls it. -/
def drainBatch (w : Worker n) (chunk : TaskChunk) : Option (Worker n) :=
  if w.localQueueLen + chunkSize > localQueueHighWatermark then none
  else some (w.pushBatch chunk)

/-- The pop of `dispatch_loop`. -/
def popLocal (w : Worker n) : Option (Nat × Worker n) :=
  w.localQueue.pop.map fun p => (p.1, { w with localQueue := p.2 })

/-- `push_local` for each task; the flag says whether all were accepted. -/
def pushEach (w : Worker n) : List Nat → Bool × Worker n
  | [] => (true, w)
  | task :: tasks =>
    let first := w.pushLocal task
    let rest := first.2.pushEach tasks
    (first.1 && rest.1, rest.2)

theorem routeBatch_room {w : Worker n} {chunk : TaskChunk}
    (h : w.localQueueLen + chunk.count ≤ localQueueHighWatermark) :
    w.routeBatch chunk = some (w.pushBatch chunk) := if_pos h

theorem routeBatch_full {w : Worker n} {chunk : TaskChunk}
    (h : ¬ w.localQueueLen + chunk.count ≤ localQueueHighWatermark) :
    w.routeBatch chunk = none := if_neg h

theorem drainBatch_room {w : Worker n} (chunk : TaskChunk)
    (h : ¬ w.localQueueLen + chunkSize > localQueueHighWatermark) :
    w.drainBatch chunk = some (w.pushBatch chunk) := if_neg h

theorem drainBatch_full {w : Worker n} (chunk : TaskChunk)
    (h : w.localQueueLen + chunkSize > localQueueHighWatermark) :
    w.drainBatch chunk = none := if_pos h

end Worker

/-! ## The callers of `push_batch` -/

/-- `route_chunk` pushes the chunk or hands it on. -/
theorem routeChunk_eq [NeZero n] (s : DtaScheduler n) (core : Fin n) (chunk : TaskChunk) :
    s.routeChunk core chunk =
      match (s.workers core).routeBatch chunk with
      | some w => .ok (s.setWorker core w)
      | none =>
        if chunk.hopCount < s.maxHops then s.routeDeflect core chunk
        else s.routePark core chunk := by
  unfold DtaScheduler.routeChunk
  dsimp only
  by_cases hspace : (s.workers core).localQueueLen + chunk.count ≤ localQueueHighWatermark
  · rw [Worker.routeBatch_room hspace, decide_eq_true hspace]
    cases decide (chunk.hopCount < s.maxHops) with
    | false | true => rfl
  · rw [Worker.routeBatch_full hspace, decide_eq_false hspace]
    by_cases hhops : chunk.hopCount < s.maxHops
    · rw [if_pos hhops, decide_eq_true hhops]
    · rw [if_neg hhops, decide_eq_false hhops]

/-- A round of `drain_warehouse`: whether a chunk fits does not depend on the chunk. -/
theorem drainLoop_eq (s : DtaScheduler n) (core : Fin n) (rounds : Nat) (drained : Bool)
    {chunk : TaskChunk} {warehouse : Warehouse}
    (hpop : s.warehouse.pop = .ok (some (chunk, warehouse))) :
    DtaScheduler.drainLoop core (rounds + 1) drained s =
      match (s.workers core).drainBatch chunk with
      | some w => DtaScheduler.drainLoop core rounds true ({ s with warehouse }.setWorker core w)
      | none => .ok (drained, s) := by
  by_cases hfull : (s.workers core).localQueueLen + chunkSize > localQueueHighWatermark
  · rw [Worker.drainBatch_full chunk hfull]
    exact if_pos hfull
  · rw [Worker.drainBatch_room chunk hfull]
    refine (if_neg hfull).trans ?_
    rw [hpop]

/-! ## What the operations do to the contents -/

namespace Worker

variable {w w' : Worker n}

theorem pushLocal_room {task : Nat} (h : w.localQueueLen < localQueueCapacity - 1) :
    w.pushLocal task = (true, { w with localQueue := w.localQueue.push task }) :=
  if_neg (Nat.not_le_of_lt h)

theorem pushLocal_full {task : Nat} (h : localQueueCapacity - 1 ≤ w.localQueueLen) :
    w.pushLocal task = (false, w) := if_pos h

theorem refused_iff (w : Worker n) (task : Nat) :
    (w.pushLocal task).1 = false ↔ w.localQueueLen = localQueueCapacity - 1 := by
  have hlt : w.localQueueLen < localQueueCapacity := w.localQueue.len_lt
  constructor
  · intro h
    by_contra hne
    rw [pushLocal_room (by omega)] at h
    cases h
  · intro h
    rw [pushLocal_full h.ge]

/-- Both tests of the callers leave room for the batch. -/
theorem room_of_routeBatch {chunk : TaskChunk} (h : w.routeBatch chunk = some w') :
    w.localQueueLen + chunk.tasks.length < localQueueCapacity ∧ w' = w.pushBatch chunk := by
  by_cases hspace : w.localQueueLen + chunk.count ≤ localQueueHighWatermark
  · rw [routeBatch_room hspace] at h
    exact ⟨hspace.trans_lt (by decide), (Option.some.inj h).symm⟩
  · rw [routeBatch_full hspace] at h
    cases h

theorem room_of_drainBatch {chunk : TaskChunk} (h : w.drainBatch chunk = some w') :
    w.localQueueLen + chunk.tasks.length < localQueueCapacity ∧ w' = w.pushBatch chunk := by
  by_cases hfull : w.localQueueLen + chunkSize > localQueueHighWatermark
  · rw [drainBatch_full chunk hfull] at h
    cases h
  · rw [drainBatch_room chunk hfull] at h
    have hcount := chunk.count_le
    have hmark : localQueueHighWatermark < localQueueCapacity := by decide
    exact ⟨by omega, (Option.some.inj h).symm⟩

/-- A batch that fits is a sequence of accepted `push_local`, down to the cells of the array. -/
theorem pushBatch_eq_pushEach (w : Worker n) {tasks : List Nat}
    (h : w.localQueueLen + tasks.length < localQueueCapacity) :
    w.pushEach tasks = (true, { w with localQueue := w.localQueue.pushBatch tasks }) := by
  induction tasks generalizing w with
  | nil => rw [pushEach, Buffer.pushBatch_nil]
  | cons task tasks ih =>
    rw [List.length_cons] at h
    have hone : w.localQueueLen < localQueueCapacity - 1 := by omega
    have hlen : ({ w with localQueue := w.localQueue.push task } : Worker n).localQueueLen =
        w.localQueueLen + 1 := w.localQueue.len_push task (by show w.localQueueLen + 1 < _; omega)
    have hrest := ih { w with localQueue := w.localQueue.push task } (by rw [hlen]; omega)
    simp only [pushEach, pushLocal_room hone, hrest, Bool.and_self]
    rw [w.localQueue.pushBatch_cons (by omega)]

end Worker

/-! ## Runs -/

inductive LocalOp
  | pushLocal (task : Nat)
  | route (chunk : TaskChunk)
  | drain (chunk : TaskChunk)
  | pop

/-- An operation on the run queue. A batch that a caller does not push, and a pop of an empty
queue, are no steps. -/
def localStep : LocalOp → Worker n → Option (Worker n)
  | .pushLocal task, w => some (w.pushLocal task).2
  | .route chunk, w => w.routeBatch chunk
  | .drain chunk, w => w.drainBatch chunk
  | .pop, w => w.popLocal.map Prod.snd

structure LocalHist where
  accepted : List Nat
  popped : List Nat

def LocalHist.empty : LocalHist := ⟨[], []⟩

def localUpd (op : LocalOp) (w : Worker n) (h : LocalHist) : LocalHist :=
  match op with
  | .pushLocal task =>
    if (w.pushLocal task).1 then { h with accepted := h.accepted ++ [task] } else h
  | .route chunk => { h with accepted := h.accepted ++ chunk.tasks }
  | .drain chunk => { h with accepted := h.accepted ++ chunk.tasks }
  | .pop => { h with popped := h.popped ++ (w.popLocal.map Prod.fst).toList }

/-- Runs from an empty queue with its head at any position and anything in its cells. -/
abbrev LocalRun : List LocalOp → Worker n × LocalHist → Prop :=
  Run (initHist (fun w : Worker n => w.localQueue.head = w.localQueue.tail) .empty)
    (withHist localStep localUpd) Free

/-- The tasks that were accepted and not popped. -/
def LocalHist.queued (h : LocalHist) : List Nat := h.accepted.drop h.popped.length

structure RunQueue (w : Worker n) (h : LocalHist) : Prop where
  /-- What is popped is what was accepted, in order. -/
  popped : h.popped <+: h.accepted
  /-- The cells from the head on still hold what was written to them. -/
  cells : ∀ k (hk : k < h.queued.length),
    w.localQueue.buf ((w.localQueue.head + k) % localQueueCapacity) = h.queued[k]
  next : w.popLocal.map Prod.fst = h.queued.head?
  len : w.localQueueLen = h.queued.length
  refused : ∀ task, (w.pushLocal task).1 = false ↔ h.queued.length = 131071
  route : ∀ chunk w', w.routeBatch chunk = some w' → w.pushEach chunk.tasks = (true, w')
  drain : ∀ chunk w', w.drainBatch chunk = some w' → w.pushEach chunk.tasks = (true, w')

theorem accepted_step {op : LocalOp} {w w' : Worker n} {h : LocalHist}
    (hi : h.accepted = h.popped ++ w.localQueue.contents) (hstep : localStep op w = some w') :
    (localUpd op w h).accepted = (localUpd op w h).popped ++ w'.localQueue.contents := by
  have hbatch {chunk : TaskChunk}
      (hroom : w.localQueueLen + chunk.tasks.length < localQueueCapacity) :
      h.accepted ++ chunk.tasks = h.popped ++ (w.pushBatch chunk).localQueue.contents := by
    show _ = h.popped ++ (w.localQueue.pushBatch chunk.tasks).contents
    rw [w.localQueue.contents_pushBatch _ hroom, hi, List.append_assoc]
  cases op with
  | pushLocal task =>
    cases hstep
    rcases Nat.lt_or_ge w.localQueueLen (localQueueCapacity - 1) with hlt | hge
    · have hroom : w.localQueue.len + 1 < localQueueCapacity := by
        unfold Worker.localQueueLen at hlt
        omega
      simp only [localUpd, Worker.pushLocal_room hlt, if_true]
      rw [w.localQueue.contents_push task hroom, hi, List.append_assoc]
    · simp only [localUpd, Worker.pushLocal_full hge]
      exact hi
  | route chunk =>
    obtain ⟨hroom, rfl⟩ := Worker.room_of_routeBatch hstep
    exact hbatch hroom
  | drain chunk =>
    obtain ⟨hroom, rfl⟩ := Worker.room_of_drainBatch hstep
    exact hbatch hroom
  | pop =>
    obtain ⟨p, hpop, rfl⟩ := Option.map_eq_some_iff.mp hstep
    obtain ⟨q, hq, rfl⟩ := Option.map_eq_some_iff.mp hpop
    rcases w.localQueue.contents_pop with ⟨hnone, -⟩ | ⟨x, b, hsome, hcontents⟩
    · rw [hnone] at hq
      cases hq
    · rw [hsome] at hq
      cases hq
      simp only [localUpd, hpop, Option.map_some, Option.toList_some]
      rw [hi, hcontents, List.append_assoc, List.singleton_append]

theorem RunQueue.of_accepted {w : Worker n} {h : LocalHist}
    (hi : h.accepted = h.popped ++ w.localQueue.contents) : RunQueue w h := by
  have hqueued : h.queued = w.localQueue.contents := by
    rw [LocalHist.queued, hi, List.drop_left]
  have hlen : w.localQueueLen = h.queued.length := by
    rw [hqueued, Buffer.length_contents]
    rfl
  refine ⟨⟨_, hi.symm⟩, fun k hk => ?_, ?_, hlen, fun task => ?_, fun chunk w' hw => ?_,
    fun chunk w' hw => ?_⟩
  · simp only [hqueued, Buffer.contents, List.getElem_map, List.getElem_range]
  · rw [hqueued, Worker.popLocal, Option.map_map]
    rcases w.localQueue.contents_pop with ⟨hnone, hnil⟩ | ⟨x, b, hsome, hcontents⟩
    · rw [hnone, hnil]
      rfl
    · rw [hsome, hcontents]
      rfl
  · rw [w.refused_iff, hlen]
    rfl
  · obtain ⟨hroom, rfl⟩ := Worker.room_of_routeBatch hw
    exact w.pushBatch_eq_pushEach hroom
  · obtain ⟨hroom, rfl⟩ := Worker.room_of_drainBatch hw
    exact w.pushBatch_eq_pushEach hroom

/-- **The run queue is a FIFO.** In every run of `push_local`, of batches pushed by the two callers
and of pops, from any position of the head on. -/
theorem run_queue_fifo {ops : List LocalOp} {w : Worker n} {h : LocalHist}
    (hrun : LocalRun ops (w, h)) : RunQueue w h := by
  have hinv : h.accepted = h.popped ++ w.localQueue.contents := by
    refine hrun.hist_invariant (I := fun w h => h.accepted = h.popped ++ w.localQueue.contents) ?_
      (fun _ _ _ _ hi _ hst => accepted_step hi hst)
    intro w hempty
    have hlen := w.localQueue.head_eq_tail_iff.mp hempty
    show [] = [] ++ w.localQueue.contents
    rw [List.nil_append, Buffer.contents, hlen]
    rfl
  exact .of_accepted hinv

/-- A queue with its head two cells before the end of the array. -/
def nearTheEnd : Worker 1 :=
  { (Worker.new ⟨0, 0⟩ : Worker 1) with
    localQueue := ⟨fun _ => 0, 131070, 131070, by decide, by decide⟩ }

/-- A chunk that is copied in two pieces. -/
def wrappingOps : List LocalOp :=
  [.pushLocal 7, .route ⟨[8, 9, 10], 0, by decide⟩, .pop, .drain ⟨[11], 0, by decide⟩]

theorem run_queue_fifo_wrapping : ∃ (w : Worker 1) (h : LocalHist),
    LocalRun wrappingOps.reverse (w, h) ∧ h.accepted = [7, 8, 9, 10, 11] ∧ h.popped = [7] ∧
      w.localQueue.tail = 3 ∧ RunQueue w h := by
  obtain ⟨⟨w, h⟩, hrun, heq⟩ : ∃ p, LocalRun wrappingOps.reverse p ∧
      p.2.accepted = [7, 8, 9, 10, 11] ∧ p.2.popped = [7] ∧ p.1.localQueue.tail = 3 :=
    Run.exists_of_exec wrappingOps (nearTheEnd, .empty) ⟨rfl, rfl⟩ (by decide +kernel)
  exact ⟨w, h, hrun, heq.1, heq.2.1, heq.2.2, run_queue_fifo hrun⟩

end Dtact.Scheduler
