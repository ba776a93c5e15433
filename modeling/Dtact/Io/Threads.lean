import Dtact.Words

/-!
# Threads and their local allocators

A thread gets a number when `THREAD_ID` is first read. The first 512 get a local allocator with that
index; an io-worker thread has one with its worker index, and reads no number.
-/

namespace Dtact.Io.Threads

structure LocalAllocator where
  threadIdx : Nat
  /-- The chunk that was pushed last comes first. -/
  localChunks : List Nat
deriving DecidableEq

/-- The thread-local variables: `THREAD_ID`, once it has been read, and `LOCAL_ALLOCATOR`. -/
structure Thread where
  id : Option Nat
  localAllocator : Option LocalAllocator
deriving DecidableEq

inductive Life
  | unborn
  | running (thread : Thread)
  | exited
deriving DecidableEq

def Thread.new : Thread := ⟨none, none⟩

def Thread.ioWorker (workerIdx : Nat) : Thread := ⟨none, some ⟨workerIdx, []⟩⟩

/-- The number of a thread. `nextId` counts the numbers that have been given out; `NEXT_ID` is a
`usize`. -/
def Thread.getLocalThreadId (thread : Thread) (nextId : Nat) : Nat :=
  thread.id.getD (nextId % usizeMod)

/-- The thread has read its number. -/
def Thread.numbered (thread : Thread) (nextId : Nat) : Thread :=
  { thread with id := some (thread.getLocalThreadId nextId) }

def Thread.nextId (thread : Thread) (nextId : Nat) : Nat :=
  match thread.id with
  | some _ => nextId
  | none => nextId + 1

/-- The thread and the counter after `get_or_init_local_allocator`. -/
def Thread.getOrInitLocalAllocator (thread : Thread) (nextId : Nat) : Thread × Nat :=
  match thread.localAllocator with
  | some _ => (thread, nextId)
  | none =>
    if thread.getLocalThreadId nextId < 512 then
      ({ thread.numbered nextId with
        localAllocator := some ⟨thread.getLocalThreadId nextId, []⟩ }, thread.nextId nextId)
    else (thread.numbered nextId, thread.nextId nextId)

/-- The index that `get_or_init_local_allocator` returns. -/
def Thread.index (thread : Thread) : Option Nat := thread.localAllocator.map (·.threadIdx)

def Thread.chunks (thread : Thread) : List Nat :=
  match thread.localAllocator with
  | some alloc => alloc.localChunks
  | none => []

def Thread.setChunks (thread : Thread) (localChunks : List Nat) : Thread :=
  { thread with localAllocator := thread.localAllocator.map ({ · with localChunks }) }

/-- The chunks in the local cache of a running thread. -/
def Life.chunks : Life → List Nat
  | .running thread => thread.chunks
  | .unborn | .exited => []

theorem chunks_getOrInit (thread : Thread) (nextId : Nat) :
    (thread.getOrInitLocalAllocator nextId).1.chunks = thread.chunks := by
  unfold Thread.getOrInitLocalAllocator
  split
  · rfl
  · next halloc => split <;> simp [Thread.chunks, Thread.numbered, halloc]

theorem chunks_setChunks {thread : Thread} {alloc : LocalAllocator}
    (halloc : thread.localAllocator = some alloc) (localChunks : List Nat) :
    (thread.setChunks localChunks).chunks = localChunks := by
  simp [Thread.setChunks, Thread.chunks, halloc]

end Dtact.Io.Threads
