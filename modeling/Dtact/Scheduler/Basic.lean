import Mathlib.Data.Fin.Basic
import Mathlib.Data.List.FinRange
import Dtact.Context
import Dtact.Scheduler.Containers

/-!
# The mesh scheduler

`mailboxes i j` is filled by worker `i` and emptied by worker `j`; `externalMailboxes j` is filled
by the threads that are not workers. An operation runs to its end without interference. Loops of the
source carry a bound, and running out of it is the fault `diverges`; the panic of
`park_in_warehouse` is the fault `overflow`.
-/

namespace Dtact.Scheduler

open Circular

/-! ## Workers -/

/-- `CpuLevel`. Both fields are `u16`. -/
structure CpuLevel where
  coreId : Nat
  ccxId : Nat

/-- The value of an expression cast to `u16`. -/
def asU16 (x : Nat) : Nat := x % 65536

/-- `Worker`. The local queue and its two indices are one buffer. -/
structure Worker (n : Nat) where
  cpu : CpuLevel
  loadLevel : Nat
  deflectionThreshold : Nat
  localQueue : Buffer Nat localQueueCapacity
  ticks : Nat
  eventSignal : Nat
  pollingOrder : List (Fin n)

section Worker

variable {n : Nat}

/-- The peers of the own CCX, in index order. -/
def ccxPeers (cpu : CpuLevel) : List (Fin n) :=
  (List.finRange n).filter fun i => i.val ≠ cpu.coreId ∧ asU16 (i.val / 8) = cpu.ccxId

/-- The other peers, from the own core on and around. -/
def farPeers [NeZero n] (cpu : CpuLevel) : List (Fin n) :=
  ((List.range n).map fun offset => Fin.ofNat n (cpu.coreId + offset)).filter fun i =>
    i.val ≠ cpu.coreId ∧ asU16 (i.val / 8) ≠ cpu.ccxId

/-- `Worker::new` -/
def Worker.new [NeZero n] (cpu : CpuLevel) : Worker n where
  cpu := cpu
  loadLevel := 0
  deflectionThreshold := 80
  localQueue := Buffer.empty 0 (by decide)
  ticks := 0
  eventSignal := 0
  pollingOrder := ccxPeers cpu ++ farPeers cpu

namespace Worker

def localQueueLen (w : Worker n) : Nat := w.localQueue.len

def updateLoad (w : Worker n) : Worker n :=
  { w with loadLevel := min ((w.localQueueLen * 100) >>> 13) 100 }

/-- `Worker::tick`. `trailing_zeros() >= 10` is divisibility by 1024. -/
def tick (w : Worker n) : Worker n :=
  let ticks := (w.ticks + 1) % 2 ^ 64
  if ticks % 1024 = 0 then
    let load := w.loadLevel
    let currentThresh := w.deflectionThreshold
    let newThresh :=
      if load > 90 then max (currentThresh - 5) 40
      else if load < 30 then min (min (currentThresh + 5) 255) 95
      else currentThresh
    { w with ticks, deflectionThreshold := newThresh }
  else { w with ticks }

def pushLocal (w : Worker n) (task : Nat) : Bool × Worker n :=
  if w.localQueueLen ≥ localQueueCapacity - 1 then (false, w)
  else (true, { w with localQueue := w.localQueue.push task })

def pushBatch (w : Worker n) (chunk : TaskChunk) : Worker n :=
  { w with localQueue := w.localQueue.pushBatch chunk.tasks }

end Worker

end Worker

/-! ## The scheduler -/

/-- `DtaScheduler`. The locks of the external mailboxes are held only inside one
operation and are left out. The number of hops is fixed by `DtaScheduler::new`. -/
structure DtaScheduler (n : Nat) where
  workers : Fin n → Worker n
  mailboxes : Fin n → Fin n → Mailbox
  externalMailboxes : Fin n → Mailbox
  topology : TopologyMode
  maxHops : Nat
  warehouse : Warehouse
  maxHops_eq : maxHops = min (n / 2) 255

/-- The value of `CURRENT_WORKER_ID`: a worker, or `usize::MAX` on a thread that
is none. -/
inductive Caller (n : Nat)
  | worker (w : Fin n)
  | host
deriving DecidableEq

def Caller.id {n : Nat} : Caller n → Nat
  | .worker w => w
  | .host => 2 ^ 64 - 1

/-- The mailboxes a worker polls. -/
inductive Inlet (n : Nat)
  | peer (i : Fin n)
  | external
deriving DecidableEq

namespace DtaScheduler

variable {n : Nat} [NeZero n]

/-- `DtaScheduler::new` -/
def new (n : Nat) [NeZero n] (topology : TopologyMode) : DtaScheduler n where
  workers i := Worker.new { coreId := asU16 i, ccxId := asU16 (i / 8) }
  mailboxes _ _ := Mailbox.new
  externalMailboxes _ := Mailbox.new
  topology := topology
  maxHops := min (n / 2) 255
  warehouse := Warehouse.new
  maxHops_eq := rfl

def setWorker (s : DtaScheduler n) (i : Fin n) (w : Worker n) : DtaScheduler n :=
  { s with workers := Function.update s.workers i w }

def setQueue (s : DtaScheduler n) (i : Fin n) (localQueue : Buffer Nat localQueueCapacity) :
    DtaScheduler n :=
  s.setWorker i { s.workers i with localQueue }

def setMailbox (s : DtaScheduler n) (i j : Fin n) (m : Mailbox) : DtaScheduler n :=
  { s with mailboxes := Function.update s.mailboxes i (Function.update (s.mailboxes i) j m) }

def setExternal (s : DtaScheduler n) (j : Fin n) (m : Mailbox) : DtaScheduler n :=
  { s with externalMailboxes := Function.update s.externalMailboxes j m }

def signalWorker (s : DtaScheduler n) (targetCore : Fin n) : DtaScheduler n :=
  let worker := s.workers targetCore
  s.setWorker targetCore { worker with eventSignal := (worker.eventSignal + 1) % 2 ^ 32 }

/-- `push_local` on the worker `w`. -/
def pushLocal (s : DtaScheduler n) (w : Fin n) (task : Nat) : Bool × DtaScheduler n :=
  let r := (s.workers w).pushLocal task
  (r.1, s.setWorker w r.2)

/-- Push a chunk for `target`: into the matrix if the producer is a worker, into
the external mailbox otherwise. -/
def pushMailbox (s : DtaScheduler n) (producer : Caller n) (target : Fin n) (chunk : TaskChunk) :
    Except TaskChunk (DtaScheduler n) :=
  match producer with
  | .worker i => ((s.mailboxes i target).push chunk).map (s.setMailbox i target)
  | .host => ((s.externalMailboxes target).push chunk).map (s.setExternal target)

/-! ## Enqueueing -/

/-- `DtaScheduler::enqueue_pinned` -/
def enqueuePinned (s : DtaScheduler n) (current : Caller n) (targetCore task : Nat) :
    Bool × DtaScheduler n :=
  let target := Fin.ofNat n targetCore
  if current = .worker target then s.pushLocal target task
  else
    match s.pushMailbox current target (.single task) with
    | .ok s => (true, s.signalWorker target)
    | .error _ => (false, s)

/-- `DtaScheduler::park_in_warehouse` -/
def parkInWarehouse (s : DtaScheduler n) (chunk : TaskChunk) :
    Except Fault (Bool × DtaScheduler n) :=
  match s.warehouse.push chunk with
  | .error f => .error f
  | .ok (.error _) => .error .overflow
  | .ok (.ok warehouse) => .ok (true, { s with warehouse })

/-- `DtaScheduler::divert_to_warehouse` -/
def divertToWarehouse (s : DtaScheduler n) (task : Nat) : Except Fault (Bool × DtaScheduler n) :=
  s.parkInWarehouse { TaskChunk.single task with hopCount := 255 }

/-- `if producer < n && n > 1 && target == producer { target = (target + 1) % n }` -/
def avoidSelf (producer : Caller n) (target : Fin n) : Fin n :=
  if producer = .worker target ∧ n > 1 then Fin.ofNat n (target + 1) else target

/-- The target after `hopCount` hops. -/
def hopTarget (producer : Caller n) (hopCount : Nat) : Fin n :=
  avoidSelf producer (Fin.ofNat n (wrappingAdd producer.id (1 + hopCount * 7)))

/-- The loop of `push_chunk_with_hop`. -/
def hopLoop (s : DtaScheduler n) (producer : Caller n) :
    Nat → Fin n → TaskChunk → Except Fault (Bool × DtaScheduler n)
  | 0, _, _ => .error .diverges
  | fuel + 1, target, chunk =>
    match s.pushMailbox producer target chunk with
    | .ok s => .ok (true, s.signalWorker target)
    | .error chunk =>
      if chunk.hopCount ≥ s.maxHops then s.parkInWarehouse chunk
      else hopLoop s producer fuel (hopTarget producer chunk.hop.hopCount) chunk.hop

/-- `DtaScheduler::push_chunk_with_hop`. The hop count is a `u8`, so 256 rounds
are enough. -/
def pushChunkWithHop (s : DtaScheduler n) (producer : Caller n) (initialTarget : Fin n)
    (chunk : TaskChunk) : Except Fault (Bool × DtaScheduler n) :=
  s.hopLoop producer 256 (avoidSelf producer initialTarget) chunk

/-- The target `enqueue_deflect` computes. -/
def deflectTarget (s : DtaScheduler n) (sourceCore flowId : Nat) (affinity : Affinity) : Fin n :=
  let source := Fin.ofNat n sourceCore
  let threshold := (s.workers source).deflectionThreshold
  let load := (s.workers source).loadLevel
  let deflectMask := if load > threshold then 2 ^ 64 - 1 else 0
  let h1 := flowId &&& 7
  let h2 := (flowId >>> 3) &&& 7 ||| 1
  if s.topology = .global ∧ affinity = .any then Fin.ofNat n (source + h1 + h2)
  else if affinity = .sameNUMA then
    let numaBase := source.val &&& (2 ^ 64 - 1 - 63)
    let localIdx := source.val &&& 63
    let deflectTarget := (localIdx + h1 + h2) % 64
    let targetIdx := localIdx ^^^ ((localIdx ^^^ deflectTarget) &&& deflectMask)
    Fin.ofNat n (numaBase ||| targetIdx)
  else
    let ccxBase := source.val &&& (2 ^ 64 - 1 - 7)
    let localIdx := source.val &&& 7
    let deflectTarget := (localIdx + h1 + h2) &&& 7
    let targetIdx := localIdx ^^^ ((localIdx ^^^ deflectTarget) &&& deflectMask)
    Fin.ofNat n (ccxBase ||| targetIdx)

/-- `DtaScheduler::enqueue_deflect` -/
def enqueueDeflect (s : DtaScheduler n) (current : Caller n) (sourceCore flowId task : Nat)
    (affinity : Affinity) : Except Fault (Bool × DtaScheduler n) :=
  if s.warehouse.isBusy then s.divertToWarehouse task
  else
    let target := s.deflectTarget sourceCore flowId affinity
    if current = .worker target then
      match s.pushLocal target task with
      | (true, s) => .ok (true, s)
      -- local queue full: fall through to chunk routing
      | (false, s) => s.pushChunkWithHop current target (.single task)
    else s.pushChunkWithHop current target (.single task)

/-! ## Receiving -/

/-- `DtaScheduler::route_local` -/
def routeLocal (s : DtaScheduler n) (core : Fin n) (chunk : TaskChunk) :
    Except Fault (DtaScheduler n) :=
  .ok (s.setWorker core ((s.workers core).pushBatch chunk))

/-- `DtaScheduler::route_park` -/
def routePark (s : DtaScheduler n) (_core : Fin n) (chunk : TaskChunk) :
    Except Fault (DtaScheduler n) :=
  (s.parkInWarehouse chunk).map Prod.snd

/-- `DtaScheduler::route_deflect` -/
def routeDeflect (s : DtaScheduler n) (currentCore : Fin n) (chunk : TaskChunk) :
    Except Fault (DtaScheduler n) :=
  let chunk := chunk.hop
  let target := hopTarget (.worker currentCore) chunk.hopCount
  match s.pushMailbox (.worker currentCore) target chunk with
  | .ok s => .ok (s.signalWorker target)
  | .error chunk => (s.parkInWarehouse chunk).map Prod.snd

/-- `DtaScheduler::route_chunk` -/
def routeChunk (s : DtaScheduler n) (currentCore : Fin n) (chunk : TaskChunk) :
    Except Fault (DtaScheduler n) :=
  let localLen := (s.workers currentCore).localQueueLen
  let spaceOk := localLen + chunk.count ≤ localQueueHighWatermark
  let hopsOk := chunk.hopCount < s.maxHops
  match decide hopsOk, decide spaceOk with
  | false, false => s.routePark currentCore chunk
  | false, true => s.routeLocal currentCore chunk
  | true, false => s.routeDeflect currentCore chunk
  | true, true => s.routeLocal currentCore chunk

/-- The mailbox of an inlet of `currentCore`. -/
def inlet (s : DtaScheduler n) (currentCore : Fin n) : Inlet n → Mailbox
  | .peer i => s.mailboxes i currentCore
  | .external => s.externalMailboxes currentCore

def setInlet (s : DtaScheduler n) (currentCore : Fin n) (src : Inlet n) (m : Mailbox) :
    DtaScheduler n :=
  match src with
  | .peer i => s.setMailbox i currentCore m
  | .external => s.setExternal currentCore m

/-- The inner loop of `poll_mailboxes`, the same for a peer and for the external
mailbox. -/
def pollInlet (currentCore : Fin n) (src : Inlet n) :
    Nat → Bool → DtaScheduler n → Except Fault (Bool × DtaScheduler n)
  | 0, _, _ => .error .diverges
  | fuel + 1, receivedAny, s =>
    if (s.workers currentCore).localQueueLen + chunkSize ≥ localQueueCapacity then
      .ok (receivedAny, s)
    else
      match (s.inlet currentCore src).pop with
      | none => .ok (receivedAny, s)
      | some (chunk, m) =>
        match (s.setInlet currentCore src m).routeChunk currentCore chunk with
        | .error f => .error f
        | .ok s => pollInlet currentCore src fuel true s

def pollInlets (currentCore : Fin n) :
    List (Inlet n) → Bool → DtaScheduler n → Except Fault (Bool × DtaScheduler n)
  | [], receivedAny, s => .ok (receivedAny, s)
  | src :: rest, receivedAny, s => do
    let (receivedAny, s) ← pollInlet currentCore src mailboxCapacity receivedAny s
    pollInlets currentCore rest receivedAny s

/-- The peers in polling order, then the external mailbox. -/
def inlets (s : DtaScheduler n) (currentCore : Fin n) : List (Inlet n) :=
  (s.workers currentCore).pollingOrder.map .peer ++ [.external]

/-- `DtaScheduler::poll_mailboxes` -/
def pollMailboxes (s : DtaScheduler n) (currentCore : Fin n) :
    Except Fault (Bool × DtaScheduler n) := do
  let (receivedAny, s) ← pollInlets currentCore (s.inlets currentCore) false s
  return (receivedAny, s.setWorker currentCore (s.workers currentCore).updateLoad.tick)

/-- The loop of `drain_warehouse`, with the number of rounds left. -/
def drainLoop (currentCore : Fin n) :
    Nat → Bool → DtaScheduler n → Except Fault (Bool × DtaScheduler n)
  | 0, drained, s => .ok (drained, s)
  | rounds + 1, drained, s =>
    let worker := s.workers currentCore
    if worker.localQueueLen + chunkSize > localQueueHighWatermark then .ok (drained, s)
    else
      match s.warehouse.pop with
      | .error f => .error f
      | .ok none => .ok (drained, s)
      | .ok (some (chunk, warehouse)) =>
        drainLoop currentCore rounds true
          ({ s with warehouse }.setWorker currentCore (worker.pushBatch chunk))

/-- `DtaScheduler::drain_warehouse` -/
def drainWarehouse (s : DtaScheduler n) (currentCore : Fin n) :
    Except Fault (Bool × DtaScheduler n) :=
  drainLoop currentCore 64 false s

/-- The part of `dispatch_loop` that takes the next task off the local queue. -/
def popLocal (s : DtaScheduler n) (w : Fin n) : Option Nat × DtaScheduler n :=
  match (s.workers w).localQueue.pop with
  | none => (none, s)
  | some (task, localQueue) => (some task, s.setQueue w localQueue)

end DtaScheduler

end Dtact.Scheduler
