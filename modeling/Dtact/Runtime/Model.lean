import Dtact.Context
import Dtact.Scheduler.Basic

/-!
# The fiber runtime

Fibers, the workers that run them and the threads outside, at the granularity of single atomic
operations on a `FiberContext`. An operation of the scheduler and of the pool is one step.

A fiber has a call stack, the innermost call first. Between calls, and inside a poll, user code is
in control and may do anything: call the runtime, use any waker or handle, also of a fiber that is
gone, return or panic. What it decides is the choice of the action. A call that overflows the
warehouse panics; for a worker that receives this is the end, so it is not a step.
-/

namespace Dtact.Runtime

open Scheduler

/-! ## Calls -/

/-- `common_types::WorkloadKind` -/
inductive WorkloadKind
  | compute
  | io
  | memory
  | system
deriving DecidableEq, Repr

def WorkloadKind.spinCount : WorkloadKind → Nat
  | .compute => 1000
  | .io => 100
  | .memory => 500
  | .system => 200

/-- The entry points that create a fiber, with what they are given. -/
inductive Launch
  /-- `SpawnBuilder::spawn` -/
  | builder (allowDeflection : Bool) (mode : TopologyMode) (affinity : Affinity)
      (kind : WorkloadKind)
  /-- `fiber::spawn_with_stack` -/
  | withStack
  /-- `dtact_fiber_launch` and `dtact_fiber_launch_with_cleanup` -/
  | fiberLaunch
  /-- `dtact_fiber_launch_ext` and `dtact_fiber_launch_with_cleanup_ext` -/
  | fiberLaunchExt (switcher affinity kind : Nat)
deriving DecidableEq, Repr

/-- Where a fiber is in `wait_pinned`. `cs` and `fc` are the values of
`current_spin` and `failure_count`. -/
inductive WaitPc
  | load
  | store
  | callPoll
  | polling
  | reward
  | pending
  | spin (i cs fc : Nat)
  | spinPolling (i cs fc : Nat)
  | spinReward (cs fc : Nat)
  | penalize (cs fc : Nat)
  | cas
  | switch
deriving DecidableEq, Repr

/-- Where a thread is in the loop of `wake_fiber`; `store` and `switch` are the
two steps of `backpressure_yield` on a fiber. -/
inductive EnqueuePc
  | enqueue
  | store
  | switch
deriving DecidableEq, Repr

inductive YieldPc
  | store
  | switch
deriving DecidableEq, Repr

/-- Where a fiber is in `dtact_await`. -/
inductive AwaitPc
  | swap
  | loadGen
  | loadState (g : Nat)
  | register
  | recheckGen
  | recheckState (g : Nat)
  | unregister
  | cas
  | switch
deriving DecidableEq, Repr

/-- Where a thread is in an entry point; `init i` owns the context `i`. -/
inductive SpawnPc
  | alloc
  | spin (i cs fc : Nat)
  | penalize (cs fc : Nat)
  | store
  | switch
  | init (i : Nat)
deriving DecidableEq, Repr

/-- A call of the runtime in progress. -/
inductive Call
  | wait (pc : WaitPc)
  /-- The swap of `wake_by_ref_impl` (no route) or of `awaken_fiber_by_index`. -/
  | wake (i : Nat) (route : Option Nat)
  /-- The loop of `wake_fiber`, with what it has read from the context. -/
  | wakeFiber (origin i : Nat) (pinned : Bool) (affinity : Affinity) (pc : EnqueuePc)
  | yieldTo (pc : YieldPc)
  | await (target gen : Nat) (pc : AwaitPc)
  | spawn (l : Launch) (core : Nat) (pc : SpawnPc)
deriving DecidableEq, Repr

/-! ## State -/

/-- The steps of `fiber_entry_point` after the closure and its cleanup. -/
inductive EpiloguePc
  | finish
  | waiter
  | switch
  | returned
deriving DecidableEq, Repr

inductive Control
  | none
  | body (calls : List Call)
  | epilogue (pc : EpiloguePc) (calls : List Call)
deriving DecidableEq, Repr

def Control.calls : Control → List Call
  | .none => []
  | .body calls => calls
  | .epilogue _ calls => calls

structure Shared (n : Nat) where
  sched : DtaScheduler n
  ctx : Nat → FiberContext
  fibers : Nat → Control
  free : List Nat

/-- Where a worker is with a task: it runs it, inspects its state word after the
switch, replaces `Suspending`, pushes it again, or is in one of the three steps
of `free_context`. -/
inductive Stage
  | running
  | inspect
  | parkCas
  | requeue
  | freeState
  | freeGen
  | freePush
deriving DecidableEq, Repr

/-- Where a worker is in `dispatch_loop`. -/
inductive WorkerPc (cap : Nat)
  | idle
  | on (stage : Stage) (i : Fin cap)
deriving DecidableEq, Repr

def WorkerPc.task? {cap : Nat} : WorkerPc cap → Option Nat
  | .idle => none
  | .on _ i => some i

/-- `n` workers, `cap` contexts and `hosts` other threads. -/
structure Machine (n cap hosts : Nat) where
  shared : Shared n
  workers : Fin n → WorkerPc cap
  hosts : Fin hosts → List Call
  aborted : Bool

/-! ## Calls run -/

namespace Shared

variable {n : Nat}

def setCtx (sh : Shared n) (i : Nat) (c : FiberContext) : Shared n :=
  { sh with ctx := Function.update sh.ctx i c }

def setState (sh : Shared n) (i : Nat) (state : FiberStatus) : Shared n :=
  sh.setCtx i { sh.ctx i with state }

/-- The two statistics that steer the spinning. -/
def setSpin (sh : Shared n) (i : Nat) (adaptiveSpinCount spinFailureCount : Nat) : Shared n :=
  sh.setCtx i { sh.ctx i with adaptiveSpinCount, spinFailureCount }

def setFiber (sh : Shared n) (i : Nat) (c : Control) : Shared n :=
  { sh with fibers := Function.update sh.fibers i c }

/-- The call `wake_fiber(origin, i)`. -/
def wakeFiber (sh : Shared n) (origin i : Nat) : Call :=
  .wakeFiber origin i ((sh.ctx i).mode = .pinned ∨ (sh.ctx i).affinity = .sameCore)
    (sh.ctx i).affinity .enqueue

end Shared

/-- The context a new fiber starts with. -/
def Launch.init (l : Launch) (topology : TopologyMode) (core : Nat) (c : FiberContext) :
    FiberContext :=
  match l with
  | .builder allowDeflection mode affinity kind =>
    { c with
      state := .running
      mode := if allowDeflection then mode else .pinned
      affinity := affinity
      originCore := asU16 core
      adaptiveSpinCount := kind.spinCount }
  | .withStack => { c with state := .running, originCore := asU16 core }
  | .fiberLaunch =>
    { c with state := .running, originCore := asU16 core, mode := .p2pMesh, affinity := .sameCore }
  | .fiberLaunchExt switcher affinity kind =>
    { c with
      state := .running
      originCore := asU16 core
      mode :=
        if switcher = 0 ∨ switcher = 1 then
          if topology = .global then .global else .p2pMesh
        else .pinned
      affinity :=
        match affinity with
        | 1 => .sameCCX
        | 2 => .sameNUMA
        | 3 => .any
        | _ => .sameCore
      adaptiveSpinCount :=
        match kind with
        | 1 => WorkloadKind.io.spinCount
        | 2 => WorkloadKind.memory.spinCount
        | 3 => WorkloadKind.system.spinCount
        | _ => WorkloadKind.compute.spinCount }

/-- The thread that runs a call: the fiber, if any, and `CURRENT_WORKER_ID`. -/
structure Who (n : Nat) where
  fiber : Option Nat
  current : Caller n

/-- What one step of a call leads to: the calls that take its place, after a
switch to the worker or not, or a panic. -/
inductive Next (n : Nat)
  | goto (calls : List Call) (sh : Shared n)
  | switch (calls : List Call) (sh : Shared n)
  | panic (sh : Shared n)

def satSucc (x : Nat) : Nat := min (x + 1) u32Max

/-- The handle under which `dtact_await` registers the fiber `self`. -/
def waiterHandle {n : Nat} (self : Nat) (current : Caller n) : Nat :=
  self ||| (current.id <<< 32) % 2 ^ 64 ||| 2 ^ 63

def generation15 (c : FiberContext) : Nat := c.generation % 2 ^ 15

/-- The target of `dtact_await` is gone. -/
def targetGone (gen g : Nat) (state : FiberStatus) : Bool :=
  g ≠ gen || state = .finished || state = .initial

section

variable {n : Nat}

/-- One step of `wait_pinned` on the fiber `self`. There is none in a poll. -/
def WaitPc.run (self : Nat) (sh : Shared n) : WaitPc → Option (Next n)
  | .load =>
    if (sh.ctx self).state = .running then some (.goto [.wait .callPoll] sh)
    else some (.goto [.wait .store] sh)
  | .store => some (.goto [.wait .callPoll] (sh.setState self .running))
  | .callPoll => some (.goto [.wait .polling] sh)
  | .polling => none
  | .reward =>
    let c := sh.ctx self
    some (.goto [] (sh.setSpin self (min (c.adaptiveSpinCount + 1) 200) (c.spinFailureCount - 1)))
  | .pending =>
    let cs := (sh.ctx self).adaptiveSpinCount
    let fc := (sh.ctx self).spinFailureCount
    some (.goto [.wait (if fc < 10 then .spin 0 cs fc else .penalize cs fc)] sh)
  | .spin i cs fc =>
    if i < cs then
      -- at least three trailing zeros: a multiple of 8
      if i % 8 = 0 ∨ i = cs - 1 then some (.goto [.wait (.spinPolling i cs fc)] sh)
      else some (.goto [.wait (.spin (i + 1) cs fc)] sh)
    else some (.goto [.wait (.penalize cs fc)] sh)
  | .spinPolling _ _ _ => none
  | .spinReward cs fc => some (.goto [] (sh.setSpin self (min (cs + 2) 200) (fc - 1)))
  | .penalize cs fc => some (.goto [.wait .cas] (sh.setSpin self (max (cs - 5) 5) (satSucc fc)))
  | .cas =>
    if (sh.ctx self).state = .running then
      some (.goto [.wait .switch] (sh.setState self .suspending))
    else some (.goto [.wait .load] sh)
  | .switch => some (.switch [.wait .load] sh)

/-- One step of the fiber path of `dtact_await`. -/
def AwaitPc.run (self : Nat) (current : Caller n) (target gen : Nat) (sh : Shared n) :
    AwaitPc → Next n
  | .swap => .goto [.await target gen .loadGen] (sh.setState self .running)
  | .loadGen => .goto [.await target gen (.loadState (generation15 (sh.ctx target)))] sh
  | .loadState g =>
    if targetGone gen g (sh.ctx target).state then .goto [] sh
    else .goto [.await target gen .register] sh
  | .register =>
    .goto [.await target gen .recheckGen]
      (sh.setCtx target { sh.ctx target with waiterHandle := waiterHandle self current })
  | .recheckGen => .goto [.await target gen (.recheckState (generation15 (sh.ctx target)))] sh
  | .recheckState g =>
    if targetGone gen g (sh.ctx target).state then .goto [.await target gen .unregister] sh
    else .goto [.await target gen .cas] sh
  | .unregister =>
    if (sh.ctx target).waiterHandle = waiterHandle self current then
      .goto [] (sh.setCtx target { sh.ctx target with waiterHandle := 0 })
    else .goto [] sh
  | .cas =>
    if (sh.ctx self).state = .running then
      .goto [.await target gen .switch] (sh.setState self .suspending)
    else .goto [.await target gen .swap] sh
  | .switch => .switch [.await target gen .swap] sh

/-- The core a new fiber is launched from; `core` is what `topology::current()`
says. -/
def Launch.core (l : Launch) (current : Caller n) (core : Nat) : Nat :=
  match l, current with
  | .builder _ _ _ _, .worker w => w
  | .builder _ _ _ _, .host => core % n
  | _, _ => core

/-- A new fiber in the context `i`. -/
def Launch.start (l : Launch) (core i : Nat) (sh : Shared n) : Shared n :=
  (sh.setCtx i (l.init sh.sched.topology core (sh.ctx i))).setFiber i (.body [])

/-- One step of the entry points. Only `SpawnBuilder::spawn` waits for a free
context, the others panic. -/
def SpawnPc.run (who : Who n) (l : Launch) (core : Nat) (sh : Shared n) : SpawnPc → Option (Next n)
  | .alloc =>
    match sh.free, l, who.fiber with
    | i :: free, .builder _ _ _ _, some self =>
      let c := sh.ctx self
      let sh := sh.setSpin self (min (c.adaptiveSpinCount + 1) 2000) (c.spinFailureCount - 1)
      some (.goto [.spawn l core (.init i)] { sh with free })
    | i :: free, _, _ => some (.goto [.spawn l core (.init i)] { sh with free })
    | [], .builder _ _ _ _, some self =>
      let cs := (sh.ctx self).adaptiveSpinCount
      let fc := (sh.ctx self).spinFailureCount
      some (.goto [.spawn l core (if fc < 20 then .spin 0 cs fc else .penalize cs fc)] sh)
    | [], .builder _ _ _ _, none => some (.goto [.spawn l core .alloc] sh)
    | [], _, _ => some (.panic sh)
  | .spin k cs fc =>
    who.fiber.map fun self =>
      if k < cs then
        match decide (k % 8 = 0), sh.free with
        | true, i :: free =>
          let sh := sh.setSpin self (min (cs + 2) 2000) (fc - 1)
          .goto [.spawn l core (.init i)] { sh with free }
        | _, _ => .goto [.spawn l core (.spin (k + 1) cs fc)] sh
      else .goto [.spawn l core (.penalize cs fc)] sh
  | .penalize cs fc =>
    who.fiber.map fun self =>
      .goto [.spawn l core .store] (sh.setSpin self (max (cs - 100) 200) (satSucc fc))
  | .store => who.fiber.map fun self => .goto [.spawn l core .switch] (sh.setState self .notified)
  | .switch => some (.switch [.spawn l core .alloc] sh)
  | .init i =>
    let core := l.core who.current core
    let sh := l.start core i sh
    some (.goto [sh.wakeFiber core i] sh)

variable [NeZero n]

/-- The enqueue `wake_fiber` has selected. -/
def Shared.enqueue (sh : Shared n) (current : Caller n) (origin i : Nat) (pinned : Bool)
    (affinity : Affinity) : Except Fault (Bool × DtaScheduler n) :=
  if pinned then .ok (sh.sched.enqueuePinned current origin i)
  else sh.sched.enqueueDeflect current origin i i affinity

/-- One step of `wake_fiber`; after a failed enqueue it goes on in
`backpressure_yield`. -/
def EnqueuePc.run (who : Who n) (origin i : Nat) (pinned : Bool) (affinity : Affinity)
    (sh : Shared n) : EnqueuePc → Option (Next n)
  | .enqueue =>
    match sh.enqueue who.current origin i pinned affinity with
    | .ok (true, sched) => some (.goto [] { sh with sched })
    | .ok (false, sched) =>
      let pc := if who.fiber.isSome then .store else .enqueue
      some (.goto [.wakeFiber origin i pinned affinity pc] { sh with sched })
    | .error _ => some (.panic sh)
  | .store =>
    who.fiber.map fun self =>
      .goto [.wakeFiber origin i pinned affinity .switch] (sh.setState self .notified)
  | .switch => some (.switch [.wakeFiber origin i pinned affinity .enqueue] sh)

/-- One step of a call. There is none while user code is in control. -/
def Call.run (who : Who n) (sh : Shared n) : Call → Option (Next n)
  | .wait pc => who.fiber.bind fun self => pc.run self sh
  | .wake i route =>
    let prev := (sh.ctx i).state
    let sh := sh.setState i .notified
    if prev = .yielded then
      some (.goto [sh.wakeFiber (route.getD (sh.ctx i).originCore) i] sh)
    else some (.goto [] sh)
  | .wakeFiber origin i pinned affinity pc => pc.run who origin i pinned affinity sh
  | .yieldTo .store =>
    who.fiber.map fun self => .goto [.yieldTo .switch] (sh.setState self .suspending)
  | .yieldTo .switch => some (.switch [] sh)
  | .await target gen pc => who.fiber.map fun self => pc.run self who.current target gen sh
  | .spawn l core pc => pc.run who l core sh

end

/-! ## User code -/

inductive UserAct
  | wake (i : Nat) (route : Option Nat)
  | spawn (l : Launch) (core : Nat)
  | wait
  | yieldTo (target core : Nat)
  | await (target gen : Nat)
  | pollReady
  | pollPending
  | finish
  | panic
deriving DecidableEq, Repr

/-- The call is a poll in progress: user code is in control. -/
def Call.isPoll : Call → Bool
  | .wait .polling => true
  | .wait (.spinPolling _ _ _) => true
  | _ => false

/-- User code is in control. -/
def inUser : List Call → Bool
  | [] => true
  | c :: _ => c.isPoll

/-- A panic leaves the calls of the runtime up to the next user code. -/
def unwind (calls : List Call) : List Call := calls.dropWhile fun c => !c.isPoll

/-- User code starts a call that any thread can make. -/
def UserAct.call (calls : List Call) : UserAct → Option (List Call)
  | .wake i route => some (.wake i route :: calls)
  | .spawn l core => some (.spawn l core .alloc :: calls)
  | _ => none

/-- User code on a fiber. A panic that leaves a poll may be caught further out;
one that leaves the closure is caught by `fiber_entry_point`. -/
def UserAct.onFiber (calls : List Call) : UserAct → Option Control
  | .wait => some (.body (.wait .load :: calls))
  | .yieldTo target core => some (.body (.wake target (some core) :: .yieldTo .store :: calls))
  | .await target gen => some (.body (.await target gen .swap :: calls))
  | .pollReady =>
    match calls with
    | .wait .polling :: rest => some (.body (.wait .reward :: rest))
    | .wait (.spinPolling _ cs fc) :: rest => some (.body (.wait (.spinReward cs fc) :: rest))
    | _ => none
  | .pollPending =>
    match calls with
    | .wait .polling :: rest => some (.body (.wait .pending :: rest))
    | .wait (.spinPolling i cs fc) :: rest => some (.body (.wait (.spin (i + 1) cs fc) :: rest))
    | _ => none
  | .finish => if calls = [] then some (.epilogue .finish []) else none
  | .panic =>
    match calls with
    | [] => some (.epilogue .finish [])
    | _ :: rest => some (.body (unwind rest))
  | u => (u.call calls).map .body

/-! ## Steps -/

/-- The fiber on a worker, or a thread outside. -/
inductive Thread (n hosts : Nat)
  | fiber (w : Fin n)
  | host (h : Fin hosts)
deriving DecidableEq

inductive Act (n hosts : Nat)
  /-- User code of a thread decides. -/
  | user (t : Thread n hosts) (u : UserAct)
  | run (t : Thread n hosts)
  /-- An idle worker takes the next task and switches to it. -/
  | dispatch (w : Fin n)
  /-- A worker goes on after the switch back. -/
  | settle (w : Fin n)
  | poll (w : Fin n)
  | drain (w : Fin n)
deriving DecidableEq

namespace Next

variable {n : Nat}

def shared : Next n → Shared n
  | .goto _ sh => sh
  | .switch _ sh => sh
  | .panic sh => sh

def calls (rest : List Call) : Next n → List Call
  | .goto calls _ => calls ++ rest
  | .switch calls _ => calls ++ rest
  | .panic _ => unwind rest

/-- Where the step leaves the worker under the fiber. -/
def stage : Next n → Stage
  | .switch _ _ => .inspect
  | _ => .running

def isPanic : Next n → Bool
  | .panic _ => true
  | _ => false

end Next

namespace Machine

variable {n cap hosts : Nat}

def setWorker (rt : Machine n cap hosts) (w : Fin n) (pc : WorkerPc cap) : Machine n cap hosts :=
  { rt with workers := Function.update rt.workers w pc }

def setHost (rt : Machine n cap hosts) (h : Fin hosts) (calls : List Call) : Machine n cap hosts :=
  { rt with hosts := Function.update rt.hosts h calls }

def new (n cap hosts : Nat) [NeZero n] (topology : TopologyMode) : Machine n cap hosts where
  shared :=
    { sched := .new n topology
      ctx := fun _ => .new
      fibers := fun _ => .none
      free := List.range cap }
  workers _ := .idle
  hosts _ := []
  aborted := false

/-- What `dispatch_loop` does with a task whose final state is known. -/
def afterSwitch (i : Fin cap) (finalState : FiberStatus) : WorkerPc cap :=
  if finalState = .finished ∨ finalState = .panicked then .on .freeState i
  else if finalState = .notified then .on .requeue i
  else .idle

/-- The worker `w` goes on with the task `i` after the switch. -/
def settle (rt : Machine n cap hosts) (w : Fin n) (i : Fin cap) :
    Stage → Option (Machine n cap hosts)
  | .running => none
  | .inspect =>
    let postState := (rt.shared.ctx i).state
    if postState = .suspending then some (rt.setWorker w (.on .parkCas i))
    else some (rt.setWorker w (afterSwitch i postState))
  | .parkCas =>
    let actual := (rt.shared.ctx i).state
    if actual = .suspending then
      some ({ rt with shared := rt.shared.setState i .yielded }.setWorker w .idle)
    else some (rt.setWorker w (afterSwitch i actual))
  | .requeue =>
    -- a push that fails is an error in a debug build only
    let sched := (rt.shared.sched.pushLocal w i).2
    some ({ rt with shared := { rt.shared with sched } }.setWorker w .idle)
  | .freeState =>
    some ({ rt with shared := rt.shared.setState i .initial }.setWorker w (.on .freeGen i))
  | .freeGen =>
    let c := rt.shared.ctx i
    let shared := rt.shared.setCtx i { c with generation := (c.generation + 1) % u32Mod }
    some ({ rt with shared }.setWorker w (.on .freePush i))
  | .freePush =>
    let shared := { rt.shared with free := i.val :: rt.shared.free }
    some ({ rt with shared }.setWorker w .idle)

def dispatch (rt : Machine n cap hosts) (w : Fin n) : Option (Machine n cap hosts) :=
  match rt.workers w, rt.shared.sched.popLocal w with
  | .idle, (some task, sched) =>
    if h : task < cap then
      some ({ rt with shared := { rt.shared with sched } }.setWorker w (.on .running ⟨task, h⟩))
    else none
  | _, _ => none

/-- An idle worker receives from the mesh. -/
def receive (rt : Machine n cap hosts) (w : Fin n)
    (received : Except Fault (Bool × DtaScheduler n)) : Option (Machine n cap hosts) :=
  match rt.workers w, received with
  | .idle, .ok (_, sched) => some { rt with shared := { rt.shared with sched } }
  | _, _ => none

def userStep (rt : Machine n cap hosts) (t : Thread n hosts) (u : UserAct) :
    Option (Machine n cap hosts) :=
  match t with
  | .host h => if inUser (rt.hosts h) then (u.call (rt.hosts h)).map (rt.setHost h) else none
  | .fiber w =>
    match rt.workers w with
    | .on .running i =>
      match rt.shared.fibers i with
      | .body calls =>
        if inUser calls then
          (u.onFiber calls).map fun c => { rt with shared := rt.shared.setFiber i c }
        else none
      | _ => none
    | _ => none

/-- The calls `wake_waiter_handle` makes for the value swapped out. -/
def waiterCalls (packed : Nat) : List Call :=
  let waiter := packed % 2 ^ 63
  if packed = 0 then [] else [.wake (waiter % 2 ^ 32) (some (waiter / 2 ^ 32))]

/-- One step of `fiber_entry_point` after the closure. -/
def epilogue (rt : Machine n cap hosts) (w : Fin n) (i : Fin cap) :
    EpiloguePc → Machine n cap hosts
  | .finish =>
    let shared := (rt.shared.setState i .finished).setFiber i (.epilogue .waiter [])
    { rt with shared }
  | .waiter =>
    let c := rt.shared.ctx i
    let shared := rt.shared.setCtx i { c with waiterHandle := 0 }
    { rt with shared := shared.setFiber i (.epilogue .switch (waiterCalls c.waiterHandle)) }
  | .switch =>
    { rt with shared := rt.shared.setFiber i (.epilogue .returned []) }.setWorker w (.on .inspect i)
  -- the return address of a fiber is `dtact_abort`
  | .returned => { rt with aborted := true }

variable [NeZero n]

/-- The fiber `i` on worker `w` goes on. -/
def runFiber (rt : Machine n cap hosts) (w : Fin n) (i : Fin cap) : Option (Machine n cap hosts) :=
  match rt.shared.fibers i with
  | .none => none
  | .body [] => none
  | .body (c :: rest) =>
    (c.run ⟨some i, .worker w⟩ rt.shared).map fun next =>
      { rt with shared := next.shared.setFiber i (.body (next.calls rest)) }.setWorker w
        (.on next.stage i)
  | .epilogue pc [] => some (rt.epilogue w i pc)
  | .epilogue pc (c :: rest) =>
    (c.run ⟨some i, .worker w⟩ rt.shared).map fun next =>
      -- a panic cannot leave an `extern "C"` function
      if next.isPanic then { rt with aborted := true }
      else
        { rt with shared := next.shared.setFiber i (.epilogue pc (next.calls rest)) }.setWorker w
          (.on next.stage i)

/-- The host thread `h` goes on. -/
def runHost (rt : Machine n cap hosts) (h : Fin hosts) : Option (Machine n cap hosts) :=
  match rt.hosts h with
  | [] => none
  | c :: rest =>
    (c.run ⟨none, .host⟩ rt.shared).map fun next =>
      { rt with shared := next.shared }.setHost h (next.calls rest)

def step (a : Act n hosts) (rt : Machine n cap hosts) : Option (Machine n cap hosts) :=
  if rt.aborted then none
  else
    match a with
    | .user t u => rt.userStep t u
    | .run (.host h) => rt.runHost h
    | .run (.fiber w) =>
      match rt.workers w with
      | .on .running i => rt.runFiber w i
      | _ => none
    | .settle w =>
      match rt.workers w with
      | .on stage i => rt.settle w i stage
      | _ => none
    | .dispatch w => rt.dispatch w
    | .poll w => rt.receive w (rt.shared.sched.pollMailboxes w)
    | .drain w => rt.receive w (rt.shared.sched.drainWarehouse w)

def Initial (rt : Machine n cap hosts) : Prop := ∃ topology, rt = new n cap hosts topology

end Machine

end Dtact.Runtime
