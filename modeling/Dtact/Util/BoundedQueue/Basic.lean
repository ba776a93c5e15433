import Mathlib.Logic.Function.Basic
import Dtact.Words

/-!
# `BoundedMpmcQueue`: the ring

`try_push` and `try_pop` claim a position with a CAS on a counter, access the cell and republish its
sequence number. Every atomic operation and every access to a cell is one step of `pcStep`. The
counters wrap around; `diff` is the signed difference the code compares with zero.
-/

namespace Dtact.BoundedQueue

/-- `Vec::with_capacity` panics on a buffer of more than `isize::MAX` bytes, and
a cell is aligned to 64 bytes. -/
def Allocatable (c : Nat) : Prop := 64 * c < 2 ^ 63

/-- The shared part: `seq i` and `data i` are the cell `buffer[i]`, `none` being
uninitialised data. The capacity is a parameter. -/
structure Queue (T : Type) where
  seq : Nat → Nat
  data : Nat → Option T
  enqueuePos : Nat
  dequeuePos : Nat

/-- The effective capacity of `BoundedMpmcQueue::new`. -/
def effectiveCapacity (capacity : Nat) : Nat := max capacity 1

/-- `BoundedMpmcQueue::new`. Cells beyond the capacity are never accessed. -/
def Queue.new (T : Type) : Queue T := ⟨id, fun _ => none, 0, 0⟩

/-- What `push` and `pop` return. `uninit` is `Some` of a cell that was never written. -/
inductive Ret (T : Type)
  | ok
  | full (v : T)
  | value (v : T)
  | empty
  | uninit
deriving DecidableEq, Repr

/-- Where a thread is, named after the operation it performs next: on the position, or on the
sequence word or the data of the cell. -/
inductive Pc (T : Type)
  | idle
  | pushLoad (v : T)
  | pushSeq (v : T) (pos : Nat)
  | pushCas (v : T) (pos : Nat)
  | pushWrite (v : T) (pos : Nat)
  | pushStore (pos : Nat)
  | popLoad
  | popSeq (pos : Nat)
  | popCas (pos : Nat)
  | popRead (pos : Nat)
  | popStore (pos : Nat) (value : Option T)
  | done (r : Ret T)

variable {T : Type}

def Ret.ofRead : Option T → Ret T
  | some v => .value v
  | none => .uninit

/-- One step of a call, for a queue of capacity `c`. `spurious` makes a
`compare_exchange_weak` fail. -/
def pcStep (c : Nat) (spurious : Bool) (q : Queue T) : Pc T → Option (Pc T × Queue T)
  | .idle => none
  | .pushLoad v => some (.pushSeq v q.enqueuePos, q)
  | .pushSeq v pos =>
    let d := diff (q.seq (pos % c)) pos
    if d = 0 then some (.pushCas v pos, q)
    else if d < 0 then some (.done (.full v), q)
    else some (.pushLoad v, q)
  | .pushCas v pos =>
    if q.enqueuePos = pos ∧ spurious = false then
      some (.pushWrite v pos, { q with enqueuePos := wrappingAdd pos 1 })
    else some (.pushSeq v q.enqueuePos, q)
  | .pushWrite v pos =>
    some (.pushStore pos, { q with data := Function.update q.data (pos % c) (some v) })
  | .pushStore pos =>
    some (.done .ok, { q with seq := Function.update q.seq (pos % c) (wrappingAdd pos 1) })
  | .popLoad => some (.popSeq q.dequeuePos, q)
  | .popSeq pos =>
    let d := diff (q.seq (pos % c)) (wrappingAdd pos 1)
    if d = 0 then some (.popCas pos, q)
    else if d < 0 then some (.done .empty, q)
    else some (.popLoad, q)
  | .popCas pos =>
    if q.dequeuePos = pos ∧ spurious = false then
      some (.popRead pos, { q with dequeuePos := wrappingAdd pos 1 })
    else some (.popSeq q.dequeuePos, q)
  | .popRead pos => some (.popStore pos (q.data (pos % c)), q)
  | .popStore pos value =>
    some (.done (.ofRead value),
      { q with seq := Function.update q.seq (pos % c) (wrappingAdd pos c) })
  | .done _ => none

end Dtact.BoundedQueue
