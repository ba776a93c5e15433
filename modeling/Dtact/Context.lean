import Dtact.Words

/-!
# Fiber contexts

The fields of `FiberContext` that the scheduler, the pool and the wake paths
read and write. Register sets, stack pointers and callbacks are left out.
-/

namespace Dtact

/-- `FiberStatus`, the values of `FiberContext::state`. -/
inductive FiberStatus
  | initial
  | running
  | yielded
  | finished
  | panicked
  | notified
  | suspending
deriving DecidableEq, Repr

/-- `common_types::TopologyMode` -/
inductive TopologyMode
  | p2pMesh
  | global
  | pinned
deriving DecidableEq, Repr

/-- `topology::Affinity` -/
inductive Affinity
  | sameCore
  | sameCCX
  | sameNUMA
  | any
deriving DecidableEq, Repr

/-- `FiberContext`. `waiterHandle`, `generation` and `nextFree` hold machine
words. -/
structure FiberContext where
  state : FiberStatus
  mode : TopologyMode
  affinity : Affinity
  originCore : Nat
  adaptiveSpinCount : Nat
  spinFailureCount : Nat
  waiterHandle : Nat
  generation : Nat
  nextFree : Nat
deriving DecidableEq, Repr

def u32Mod : Nat := 2 ^ 32
def u32Max : Nat := 2 ^ 32 - 1

/-- `FiberContext::new` -/
def FiberContext.new : FiberContext where
  state := .initial
  mode := .p2pMesh
  affinity := .sameCore
  originCore := 0
  adaptiveSpinCount := 50
  spinFailureCount := 0
  waiterHandle := 0
  generation := 0
  nextFree := u32Max

end Dtact
