import Dtact.Lib.Chain
import Dtact.Words

/-!
# `MpmcStack`: `push` and `drain_into_vec_deque`

A Treiber stack of heap nodes. `push` links a node to the head it has loaded and swings the head to
it with a CAS. `drain_into_vec_deque` takes the whole chain with one swap and reverses it in place.
An address comes back after its node has been freed; as a node is linked to the very address its CAS
compares with, the chain is right whatever has happened to that address meanwhile.
-/

namespace Dtact.MpmcStack

open LinkedHeap

variable {T : Type}

/-! ## The stack -/

structure Stack (T : Type) where
  heap : Heap Nat T
  head : Option Nat
  len : Nat

def Stack.new : Stack T := ⟨fun _ => none, none, 0⟩

/-- Where a thread is in `push`, named after the operation it performs next. It is at `fault` if
the node was not in use. -/
inductive PushPc
  | idle
  | load (node : Nat)
  | link (node : Nat) (head : Option Nat)
  | cas (node : Nat) (head : Option Nat)
  | len
  | fault

/-- `Box::new` in `push`, at a free address. -/
def Stack.alloc (s : Stack T) (a : Nat) (value : T) : Option (PushPc × Stack T) :=
  if (s.heap a).isNone then
    some (.load a, { s with heap := Function.update s.heap a (some ⟨value, none⟩) })
  else none

/-- One step of `push`. `spurious` makes the `compare_exchange_weak` fail. -/
def pushStep (spurious : Bool) (s : Stack T) : PushPc → Option (PushPc × Stack T)
  | .idle | .fault => none
  | .load node => some (.link node s.head, s)
  | .link node head =>
    match s.heap node with
    | some n =>
      some (.cas node head, { s with heap := Function.update s.heap node (some ⟨n.value, head⟩) })
    | none => some (.fault, s)
  | .cas node head =>
    if s.head = head ∧ spurious = false then some (.len, { s with head := some node })
    else some (.link node s.head, s)
  | .len => some (.idle, { s with len := wrappingAdd s.len 1 })

/-- Where the consumer is in `drain_into_vec_deque`: at the swap of `head`, or in one of the two
loops. -/
inductive DrainPc
  | idle
  | swap
  | reverse (prev current : Option Nat)
  | move (node : Option Nat)
  | fault

/-- One step of `drain_into_vec_deque`. An iteration of a loop is one step. -/
def drainStep (s : Stack T) (target : List T) : DrainPc → Option (DrainPc × Stack T × List T)
  | .idle | .fault => none
  | .swap => some (.reverse none s.head, { s with head := none }, target)
  | .reverse prev none => some (.move prev, s, target)
  | .reverse prev (some a) =>
    match s.heap a with
    | some n =>
      some (.reverse (some a) n.next,
        { s with heap := Function.update s.heap a (some ⟨n.value, prev⟩) }, target)
    | none => some (.fault, s, target)
  | .move none => some (.idle, s, target)
  | .move (some a) =>
    match s.heap a with
    | some n =>
      some (.move n.next, { s with heap := Function.update s.heap a none }, target ++ [n.value])
    | none => some (.fault, s, target)

end Dtact.MpmcStack
