import Mathlib.Data.List.Perm.Basic
import Dtact.Lib.Transition
import Dtact.Lib.Places
import Dtact.Context
import Dtact.Io.Threads

/-!
# Buffer chunks

`allocate_buffer` takes a chunk from the thread's cache, from the stack of chunks returned to it, or
from the pool. `free_buffer` gives it to the cache of the owner, to the returned stack of another
owner, or to the pool. The returned stacks have room for no index, so a push to one panics. Each
call is one step.

Results:
1. `chunks_conserved`: when chunks are freed by their owners and no thread exits with chunks in its
   cache, every chunk is in exactly one place and can be obtained again.
2. `chunk_lost`: three ways to lose one.
-/

namespace Dtact.Io.Buffers

open Transition Threads Places

variable {θ : Type}

/-- A `TreiberStack` with room for the indices below `size`. -/
structure TreiberStack where
  size : Nat
  items : List Nat

def TreiberStack.new (size : Nat) : TreiberStack := ⟨size, []⟩

/-- `none` is the panic of an index out of bounds. -/
def TreiberStack.push (stack : TreiberStack) (idx : Nat) : Option TreiberStack :=
  if idx < stack.size then some { stack with items := idx :: stack.items } else none

structure St (θ : Type) where
  /-- The free chunks of `GLOBAL_BUFFER_POOL`. -/
  pool : List Nat
  /-- `CHUNK_OWNERS` -/
  owners : List Nat
  /-- `THREAD_RETURNED_STACKS`, of which there are 512. -/
  returned : Nat → TreiberStack
  nextId : Nat
  thread : θ → Life
  held : List Nat
  panicked : Bool

/-- After `init_runtime`. `BufferPool::new` makes at least one chunk; its links are `u32`, and end
at `u32::MAX`. -/
def St.new (bufferPoolSize : Nat) : St θ where
  pool := List.range (min (max 1 bufferPoolSize) u32Max)
  owners := List.replicate bufferPoolSize u32Max
  returned := fun _ => .new 0
  nextId := 0
  thread := fun _ => .unborn
  held := []
  panicked := false

/-- `start` is the start of a thread, `startWorker` that of an io-worker thread. -/
inductive Act (θ : Type)
  | start (t : θ)
  | startWorker (t : θ) (workerIdx : Nat)
  | exit (t : θ)
  | allocate (t : θ)
  | free (t : θ) (idx : Nat)

/-- `pool.acquire` and the store of the owner. -/
def St.acquire (s : St θ) (owner : Nat) : St θ :=
  match s.pool with
  | [] => s
  | i :: pool =>
    if i < s.owners.length then
      { s with pool, owners := s.owners.set i owner, held := i :: s.held }
    else { s with pool, panicked := true }

def St.release (s : St θ) (idx : Nat) : St θ := { s with pool := idx :: s.pool }

/-- What `stacks.get` and the pops that follow find. -/
def St.returnedTo (s : St θ) (threadIdx : Nat) : List Nat :=
  if threadIdx < 512 then (s.returned threadIdx).items else []

section

variable [DecidableEq θ]

def St.setThread (s : St θ) (t : θ) (thread : Thread) (nextId : Nat) : St θ :=
  { s with thread := Function.update s.thread t (.running thread), nextId }

def St.setChunks (s : St θ) (t : θ) (thread : Thread) (localChunks : List Nat) : St θ :=
  s.setThread t (thread.setChunks localChunks) s.nextId

/-- `allocate_buffer`, after `get_or_init_local_allocator`. The chunks that were returned move to
the local cache. -/
def allocateBuffer (t : θ) (thread : Thread) (s : St θ) : St θ :=
  match thread.localAllocator with
  | some alloc =>
    match alloc.localChunks with
    | i :: rest => { s.setChunks t thread rest with held := i :: s.held }
    | [] =>
      match (s.returnedTo alloc.threadIdx).reverse with
      | i :: rest =>
        { s.setChunks t thread rest with
          returned := Function.update s.returned alloc.threadIdx
            { s.returned alloc.threadIdx with items := [] }
          held := i :: s.held }
      | [] => s.acquire (alloc.threadIdx % u32Mod)
  | none => s.acquire u32Max

/-- `free_buffer` for a chunk with an owner, after `get_or_init_local_allocator`. -/
def freeOwned (t : θ) (thread : Thread) (owner idx : Nat) (s : St θ) : St θ :=
  if thread.index = some owner then s.setChunks t thread (idx :: thread.chunks)
  else if owner < 512 then
    match (s.returned owner).push idx with
    | some stack => { s with returned := Function.update s.returned owner stack }
    | none => { s with panicked := true }
  else s.release idx

def freeBuffer (t : θ) (thread : Thread) (idx : Nat) (s : St θ) : St θ :=
  match s.owners[idx]? with
  | none => { s with panicked := true }
  | some owner =>
    if owner = u32Max then s.release idx
    else
      let (thread, nextId) := thread.getOrInitLocalAllocator s.nextId
      freeOwned t thread owner idx (s.setThread t thread nextId)

def step : Act θ → St θ → Option (St θ)
  | .start t, s =>
    if s.thread t = .unborn then some (s.setThread t .new s.nextId) else none
  | .startWorker t workerIdx, s =>
    if s.thread t = .unborn then some (s.setThread t (.ioWorker workerIdx) s.nextId) else none
  | .exit t, s =>
    match s.thread t with
    | .running _ => some { s with thread := Function.update s.thread t .exited }
    | .unborn | .exited => none
  | .allocate t, s =>
    match s.thread t with
    | .running thread =>
      let (thread, nextId) := thread.getOrInitLocalAllocator s.nextId
      some (allocateBuffer t thread (s.setThread t thread nextId))
    | .unborn | .exited => none
  | .free t idx, s =>
    match s.thread t with
    | .running thread =>
      if idx ∈ s.held then
        some (freeBuffer t thread idx { s with held := s.held.erase idx })
      else none
    | .unborn | .exited => none

end

/-! ## The property -/

inductive Place (θ : Type)
  | held
  | pool
  | cache (t : θ)
  | returned (k : Nat)
deriving DecidableEq

def St.containers (s : St θ) : Place θ → List Nat
  | .held => s.held
  | .pool => s.pool
  | .cache t => (s.thread t).chunks
  | .returned k => (s.returned k).items

def St.Running (s : St θ) (t : θ) : Prop := ∃ thread, s.thread t = .running thread

/-- Some running thread obtains the chunk if it calls `allocate_buffer` often enough. -/
def Obtainable [DecidableEq θ] (s : St θ) (idx : Nat) : Prop :=
  ∃ t n s', s.Running t ∧ exec step (List.replicate n (.allocate t)) s = some s' ∧ idx ∈ s'.held

/-- Every one of the `n` chunks is in one place, and can be obtained unless it is held. -/
structure Conserved [DecidableEq θ] (n : Nat) (s : St θ) : Prop where
  panicked : s.panicked = false
  place : Distributed s.containers (· < n)
  again : ∀ idx < n, idx ∉ s.held → (∃ t, s.Running t) → Obtainable s idx

/-! ## The condition -/

/-- The thread has the index of the owner, or the owner has no stack. -/
def Life.OwnerIs (life : Life) (nextId owner : Nat) : Prop :=
  match life with
  | .running thread =>
    512 ≤ owner ∨ (thread.getOrInitLocalAllocator nextId).1.index = some owner
  | .unborn | .exited => True

def OwnerFrees (s : St θ) : Act θ → Prop
  | .free t idx => ∀ owner ∈ s.owners[idx]?, Life.OwnerIs (s.thread t) s.nextId owner
  | .exit t => (s.thread t).chunks = []
  | .start _ | .startWorker _ _ | .allocate _ => True

abbrev BufRun [DecidableEq θ] (bufferPoolSize : Nat) (ok : St θ → Act θ → Prop) :
    List (Act θ) → St θ → Prop :=
  Run (· = St.new bufferPoolSize) step ok

/-! ## The invariant -/

structure Inv (n : Nat) (s : St θ) : Prop where
  panicked : s.panicked = false
  owners : s.owners.length = n
  returned : ∀ k, s.returned k = .new 0
  place : Distributed s.containers (· < n)

section

variable [DecidableEq θ] {s s' : St θ} {n : Nat} {t : θ} {thread : Thread}

/-! ## Containers -/

theorem containers_setThread (hchunks : thread.chunks = (s.thread t).chunks) (nextId : Nat) :
    (s.setThread t thread nextId).containers = s.containers := by
  funext k
  cases k with
  | held | pool | returned => rfl
  | cache u =>
    rcases eq_or_ne u t with rfl | hne
    · simpa [St.containers, St.setThread, Life.chunks] using hchunks
    · simp [St.containers, St.setThread, hne]

theorem containers_setChunks {alloc : LocalAllocator}
    (halloc : thread.localAllocator = some alloc) (localChunks : List Nat) :
    (s.setChunks t thread localChunks).containers =
      Function.update s.containers (.cache t) localChunks := by
  funext k
  cases k with
  | held | pool | returned => rfl
  | cache u =>
    rcases eq_or_ne u t with rfl | hne
    · simp [St.containers, St.setChunks, St.setThread, Life.chunks, chunks_setChunks halloc]
    · simp [St.containers, St.setChunks, St.setThread, hne]

theorem Inv.setThread (hinv : Inv n s) (hchunks : thread.chunks = (s.thread t).chunks)
    (nextId : Nat) : Inv n (s.setThread t thread nextId) where
  panicked := hinv.panicked
  owners := hinv.owners
  returned := hinv.returned
  place := by
    rw [containers_setThread hchunks]
    exact hinv.place

theorem Inv.acquire (hinv : Inv n s) (owner : Nat) : Inv n (s.acquire owner) := by
  cases hpool : s.pool with
  | nil => simpa only [St.acquire, hpool] using hinv
  | cons i pool =>
    have hi : i < s.owners.length := by
      rw [hinv.owners]
      exact hinv.place.item .pool i (by simp [St.containers, hpool])
    simp only [St.acquire, hpool, if_pos hi]
    refine ⟨hinv.panicked, by simpa using hinv.owners, hinv.returned, ?_⟩
    have hperm : (s.containers .pool).Perm (i :: pool) := by simp [St.containers, hpool]
    have hne : (Place.held : Place θ) ≠ .pool := by simp
    have hmove := hinv.place.move hperm hne
    convert hmove using 1
    funext k
    cases k <;> simp [St.containers]

omit [DecidableEq θ] in
theorem Inv.returnedTo (hinv : Inv n s) (threadIdx : Nat) : s.returnedTo threadIdx = [] := by
  simp [St.returnedTo, hinv.returned, TreiberStack.new]

theorem Inv.allocate (hinv : Inv n s) (hrunning : s.thread t = .running thread) :
    Inv n (allocateBuffer t thread s) := by
  unfold allocateBuffer
  split
  · next alloc halloc =>
    split
    · next i rest hchunks =>
      have hcache : s.containers (.cache t) = i :: rest := by
        simp [St.containers, hrunning, Life.chunks, Thread.chunks, halloc, hchunks]
      have hperm : (s.containers (.cache t)).Perm (i :: rest) := by rw [hcache]
      have hne : Place.held ≠ .cache t := by simp
      have hmove := hinv.place.move hperm hne
      refine ⟨hinv.panicked, hinv.owners, hinv.returned, ?_⟩
      rw [← containers_setChunks halloc rest] at hmove
      convert hmove using 1
      funext k
      cases k <;> simp [St.containers]
    · rw [hinv.returnedTo]
      exact hinv.acquire _
  · exact hinv.acquire _

theorem Inv.release (hinv : Inv n s) {idx : Nat} (hidx : idx ∈ s.held) :
    Inv n (({ s with held := s.held.erase idx } : St θ).release idx) := by
  have hperm : (s.containers .held).Perm (idx :: s.held.erase idx) := List.perm_cons_erase hidx
  have hne : (Place.pool : Place θ) ≠ .held := by simp
  have hmove := hinv.place.move hperm hne
  refine ⟨hinv.panicked, hinv.owners, hinv.returned, ?_⟩
  convert hmove using 1
  funext k
  cases k <;> simp [St.containers, St.release]

theorem Inv.keep (hinv : Inv n s) {idx : Nat} (hidx : idx ∈ s.held) {alloc : LocalAllocator}
    (halloc : thread.localAllocator = some alloc) (hrunning : s.thread t = .running thread) :
    Inv n (({ s with held := s.held.erase idx } : St θ).setChunks t thread
      (idx :: thread.chunks)) := by
  have hperm : (s.containers .held).Perm (idx :: s.held.erase idx) := List.perm_cons_erase hidx
  have hne : Place.cache t ≠ .held := by simp
  have hmove := hinv.place.move hperm hne
  refine ⟨hinv.panicked, hinv.owners, hinv.returned, ?_⟩
  rw [containers_setChunks halloc]
  have hcache : s.containers (.cache t) = thread.chunks := by
    simp [St.containers, hrunning, Life.chunks]
  rw [hcache] at hmove
  convert hmove using 2
  funext k
  cases k <;> simp [St.containers]

theorem Inv.free (hinv : Inv n s) (hrunning : s.thread t = .running thread) {idx : Nat}
    (hidx : idx ∈ s.held)
    (hok : ∀ owner ∈ s.owners[idx]?, Life.OwnerIs (s.thread t) s.nextId owner) :
    Inv n (freeBuffer t thread idx { s with held := s.held.erase idx }) := by
  have hlt : idx < s.owners.length := by
    rw [hinv.owners]
    exact hinv.place.item .held idx hidx
  have howner : s.owners[idx]? = some s.owners[idx] := List.getElem?_eq_getElem hlt
  have hok' := hok s.owners[idx] howner
  rw [hrunning] at hok'
  simp only [freeBuffer, howner]
  split_ifs with hmax
  · exact hinv.release hidx
  · have hinit : Inv n (s.setThread t (thread.getOrInitLocalAllocator s.nextId).1
        (thread.getOrInitLocalAllocator s.nextId).2) :=
      hinv.setThread (by rw [chunks_getOrInit, hrunning]; rfl) _
    unfold freeOwned
    split_ifs with hindex hstack
    · obtain ⟨alloc, halloc, -⟩ := Option.map_eq_some_iff.mp hindex
      exact hinit.keep hidx halloc (Function.update_self _ _ _)
    · rcases hok' with hok' | hok'
      · omega
      · exact absurd hok' hindex
    · exact hinit.release hidx

theorem Inv.step (hinv : Inv n s) {a : Act θ} (hok : OwnerFrees s a)
    (hst : Buffers.step a s = some s') : Inv n s' := by
  cases a with
  | start t | startWorker t workerIdx =>
    simp only [Buffers.step] at hst
    split_ifs at hst with hunborn
    cases hst
    exact hinv.setThread (by rw [hunborn]; rfl) _
  | exit t =>
    simp only [Buffers.step] at hst
    split at hst
    · cases hst
      refine ⟨hinv.panicked, hinv.owners, hinv.returned, ?_⟩
      convert hinv.place using 1
      funext k
      cases k with
      | held | pool | returned => rfl
      | cache u =>
        rcases eq_or_ne u t with rfl | hne
        · have hempty : (s.thread u).chunks = [] := hok
          simp only [St.containers, Function.update_self]
          exact hempty.symm
        · simp [St.containers, hne]
    · cases hst
    · cases hst
  | allocate t =>
    simp only [Buffers.step] at hst
    split at hst
    · next thread hrunning =>
      cases hst
      have hinit : Inv n (s.setThread t (thread.getOrInitLocalAllocator s.nextId).1
          (thread.getOrInitLocalAllocator s.nextId).2) :=
        hinv.setThread (by rw [chunks_getOrInit, hrunning]; rfl) _
      exact hinit.allocate (Function.update_self _ _ _)
    · cases hst
    · cases hst
  | free t idx =>
    simp only [Buffers.step] at hst
    split at hst
    · next thread hrunning =>
      split_ifs at hst with hidx
      cases hst
      exact hinv.free hrunning hidx hok
    · cases hst
    · cases hst

/-! ## Obtaining a chunk -/

/-- What the thread can take: its cache, then the pool. -/
def St.available (s : St θ) (t : θ) : List Nat := (s.thread t).chunks ++ s.pool

omit [DecidableEq θ] in
theorem Inv.acquire_available (hinv : Inv n s) {i : Nat} {rest : List Nat}
    (hpool : s.pool = i :: rest) (owner : Nat) :
    (s.acquire owner).held = i :: s.held ∧ (s.acquire owner).pool = rest ∧
      (s.acquire owner).thread = s.thread := by
  have hi : i < s.owners.length := by
    rw [hinv.owners]
    exact hinv.place.item .pool i (by simp [St.containers, hpool])
  simp only [St.acquire, hpool, if_pos hi, and_self]

/-- A call of `allocate_buffer` takes the first of these. -/
theorem Inv.allocate_available (hinv : Inv n s) (hrunning : s.thread t = .running thread)
    {i : Nat} {rest : List Nat} (havail : s.available t = i :: rest) :
    (allocateBuffer t thread s).held = i :: s.held ∧
      (allocateBuffer t thread s).available t = rest ∧ (allocateBuffer t thread s).Running t := by
  have hacquire (owner : Nat) (hchunks : thread.chunks = []) :
      (s.acquire owner).held = i :: s.held ∧ (s.acquire owner).available t = rest ∧
        (s.acquire owner).Running t := by
    have hpool : s.pool = i :: rest := by
      simpa only [St.available, hrunning, Life.chunks, hchunks, List.nil_append] using havail
    obtain ⟨hheld, hrest, hthread⟩ := hinv.acquire_available hpool owner
    refine ⟨hheld, ?_, thread, by rw [hthread, hrunning]⟩
    simp only [St.available, hthread, hrest, hrunning, Life.chunks, hchunks, List.nil_append]
  unfold allocateBuffer
  split
  · next alloc halloc =>
    split
    · next j chunks hchunks =>
      simp only [St.available, hrunning, Life.chunks, Thread.chunks, halloc, hchunks,
        List.cons_append, List.cons.injEq] at havail
      obtain ⟨rfl, hrest⟩ := havail
      refine ⟨rfl, ?_, thread.setChunks chunks, Function.update_self _ _ _⟩
      simp only [St.available, St.setChunks, St.setThread, Function.update_self, Life.chunks,
        chunks_setChunks halloc]
      exact hrest
    · next hchunks =>
      rw [hinv.returnedTo]
      exact hacquire _ (by simp [Thread.chunks, halloc, hchunks])
  · next halloc => exact hacquire _ (by simp [Thread.chunks, halloc])

/-- A thread obtains each of them after enough calls. -/
theorem Inv.obtainable (hinv : Inv n s) (hrunning : s.Running t) {idx : Nat}
    (hidx : idx ∈ s.available t) : Obtainable s idx := by
  suffices hex : ∃ k s', exec Buffers.step (List.replicate k (.allocate t)) s = some s' ∧
      idx ∈ s'.held by
    obtain ⟨k, s', hexec, hheld⟩ := hex
    exact ⟨t, k, s', hrunning, hexec, hheld⟩
  -- Each call takes one of the available chunks.
  generalize havail : s.available t = l at hidx
  induction l generalizing s with
  | nil => cases hidx
  | cons i rest ih =>
    obtain ⟨thread, hthread⟩ := hrunning
    have hst : Buffers.step (.allocate t) s = some (allocateBuffer t
        (thread.getOrInitLocalAllocator s.nextId).1
        (s.setThread t (thread.getOrInitLocalAllocator s.nextId).1
          (thread.getOrInitLocalAllocator s.nextId).2)) := by
      simp only [Buffers.step, hthread]
    have hchunks : (thread.getOrInitLocalAllocator s.nextId).1.chunks = (s.thread t).chunks := by
      rw [chunks_getOrInit, hthread]
      rfl
    have hinit := hinv.setThread hchunks (thread.getOrInitLocalAllocator s.nextId).2
    have havail' : (s.setThread t (thread.getOrInitLocalAllocator s.nextId).1
        (thread.getOrInitLocalAllocator s.nextId).2).available t = i :: rest := by
      rw [← havail]
      simp only [St.available, St.setThread, Function.update_self, Life.chunks, hchunks]
    obtain ⟨hheld, hrest, hrun⟩ :=
      hinit.allocate_available (Function.update_self _ _ _) havail'
    rcases List.mem_cons.mp hidx with rfl | hmem
    · refine ⟨1, _, ?_, hheld ▸ List.mem_cons_self⟩
      simp only [List.replicate_one, exec, hst, Option.bind_some]
    · obtain ⟨k, s', hexec, hheld'⟩ :=
        ih (hinv.step (a := .allocate t) trivial hst) hrun hrest hmem
      refine ⟨k + 1, s', ?_, hheld'⟩
      simp only [List.replicate_succ, exec, hst, Option.bind_some]
      exact hexec

theorem Inv.conserved (hinv : Inv n s) : Conserved n s := by
  refine ⟨hinv.panicked, hinv.place, fun idx hidx hheld ⟨t, hrunning⟩ => ?_⟩
  obtain ⟨k, hk, -⟩ := hinv.place.place idx hidx
  cases k with
  | held => exact absurd hk hheld
  | pool => exact hinv.obtainable hrunning (List.mem_append_right _ hk)
  | cache u =>
    have hk' : idx ∈ (s.thread u).chunks := hk
    refine hinv.obtainable (t := u) ?_ (List.mem_append_left _ hk')
    cases hu : s.thread u with
    | running thread => exact ⟨thread, hu⟩
    | unborn | exited =>
      rw [hu] at hk'
      cases hk'
  | returned j =>
    have hk' : idx ∈ (s.returned j).items := hk
    rw [hinv.returned] at hk'
    cases hk'

theorem inv_new (hsize : 0 < n) (hmax : n ≤ u32Max) : Inv n (St.new n : St θ) := by
  have hmin : min (max 1 n) u32Max = n := by omega
  refine ⟨rfl, List.length_replicate, fun _ => rfl, ?_⟩
  have hsingle := distributed_single (p := (· < n)) List.nodup_range
    (fun a => List.mem_range) (Place.pool : Place θ)
  convert hsingle using 1
  funext k
  cases k with
  | pool => simp [St.containers, St.new, hmin]
  | held | cache | returned => rfl

/-- No call panics, no chunk is lost, and every chunk can be obtained again. -/
theorem chunks_conserved (bufferPoolSize : Nat) (hsize : 0 < bufferPoolSize)
    (hmax : bufferPoolSize ≤ u32Max) (tr : List (Act θ)) (s : St θ)
    (hrun : BufRun bufferPoolSize OwnerFrees tr s) : Conserved (max 1 bufferPoolSize) s := by
  rw [Nat.max_eq_right hsize]
  have hinv : Inv bufferPoolSize s :=
    hrun.invariant (I := fun _ s => Inv bufferPoolSize s)
      (by
        rintro s rfl
        exact inv_new hsize hmax)
      (fun _ _ _ _ hinv hok hst => hinv.step hok hst)
  exact hinv.conserved

/-! ## Lost chunks -/

omit [DecidableEq θ] in
theorem returned_acquire (owner : Nat) : (s.acquire owner).returned = s.returned := by
  unfold St.acquire
  split
  · rfl
  · split <;> rfl

theorem returned_freeOwned (hempty : ∀ k, s.returned k = .new 0) {owner idx : Nat} (k : Nat) :
    (freeOwned t thread owner idx s).returned k = .new 0 := by
  unfold freeOwned
  split_ifs
  · exact hempty k
  · split
    · next hpush => simp [hempty, TreiberStack.push, TreiberStack.new] at hpush
    · exact hempty k
  · exact hempty k

/-- Nothing is ever pushed to a returned stack, in any run. -/
theorem returned_step (hempty : ∀ k, s.returned k = .new 0) {a : Act θ}
    (hst : step a s = some s') : ∀ k, s'.returned k = .new 0 := by
  cases a with
  | start t | startWorker t workerIdx =>
    simp only [step] at hst
    split_ifs at hst
    cases hst
    exact hempty
  | exit t =>
    simp only [step] at hst
    split at hst <;> cases hst
    exact hempty
  | allocate t =>
    simp only [step] at hst
    split at hst <;> cases hst
    unfold allocateBuffer
    split
    · split
      · exact hempty
      · split
        · next hreturned =>
          simp [St.returnedTo, St.setThread, hempty, TreiberStack.new] at hreturned
        · rw [returned_acquire]
          exact hempty
    · rw [returned_acquire]
      exact hempty
  | free t idx =>
    simp only [step] at hst
    split at hst
    · split_ifs at hst
      cases hst
      unfold freeBuffer
      split
      · exact hempty
      · split_ifs
        · exact hempty
        · refine returned_freeOwned ?_
          exact hempty
    · cases hst
    · cases hst

theorem returned_empty {bufferPoolSize : Nat} {tr : List (Act θ)}
    (hrun : BufRun bufferPoolSize (fun _ _ => True) tr s) (k : Nat) : s.returned k = .new 0 :=
  hrun.invariant (I := fun _ s => ∀ k, s.returned k = .new 0)
    (by
      rintro s rfl
      exact fun _ => rfl)
    (fun _ _ _ _ hempty _ hst => returned_step hempty hst) k

end

instance (nextId owner : Nat) : (life : Life) → Decidable (Life.OwnerIs life nextId owner)
  | .running _ => inferInstanceAs (Decidable (_ ∨ _))
  | .unborn | .exited => inferInstanceAs (Decidable True)

instance (s : St θ) : (a : Act θ) → Decidable (OwnerFrees s a)
  | .free _ _ => inferInstanceAs (Decidable (∀ owner ∈ _, Life.OwnerIs _ _ owner))
  | .exit _ => inferInstanceAs (Decidable (_ = _))
  | .start _ | .startWorker _ _ | .allocate _ => inferInstanceAs (Decidable True)

/-- Two threads take a chunk each, and the first one gives its chunk back. -/
def ownFree : List (Act (Fin 2)) := [.start 0, .start 1, .allocate 0, .allocate 1, .free 0 0]

theorem chunks_conserved_ownFree : ∃ s : St (Fin 2), BufRun 2 OwnerFrees ownFree.reverse s ∧
    (s.thread 0).chunks = [0] ∧ s.held = [1] ∧ Conserved (max 1 2) s := by
  obtain ⟨s, hrun, heq⟩ : ∃ s, BufRun 2 OwnerFrees ownFree.reverse s ∧ (s.thread 0).chunks = [0] ∧
      s.held = [1] :=
    Run.exists_of_guarded ownFree (St.new 2) rfl (by decide +kernel)
  exact ⟨s, hrun, heq.1, heq.2, chunks_conserved 2 (by decide) (by decide) _ s hrun⟩

/-- A pool of size 0 has a chunk and no entry for its owner. -/
def emptyPool : List (Act (Fin 2)) := [.start 0, .allocate 0]

/-- A chunk is freed by another thread than the one that allocated it. -/
def freeByOther : List (Act (Fin 2)) := [.start 0, .start 1, .allocate 0, .free 1 0]

def exitWithChunk : List (Act (Fin 2)) := [.start 0, .allocate 0, .free 0 0, .exit 0]

theorem not_conserved_of_panic {bufferPoolSize : Nat} {tr : List (Act (Fin 2))}
    (hexec : (exec step tr (St.new bufferPoolSize)).map St.panicked = some true) :
    ∃ s : St (Fin 2), BufRun bufferPoolSize Free tr.reverse s ∧
      ¬ Conserved (max 1 bufferPoolSize) s := by
  obtain ⟨s, hexec, heq⟩ := Option.map_eq_some_iff.mp hexec
  refine ⟨s, Run.of_exec _ rfl hexec, fun hconserved => ?_⟩
  cases heq.symm.trans hconserved.panicked

theorem chunk_lost :
    (∃ s : St (Fin 2), BufRun 0 Free emptyPool.reverse s ∧ ¬ Conserved (max 1 0) s) ∧
      (∃ s : St (Fin 2), BufRun 1 Free freeByOther.reverse s ∧ ¬ Conserved (max 1 1) s) ∧
      ∃ s : St (Fin 2), BufRun 1 Free exitWithChunk.reverse s ∧ ¬ Conserved (max 1 1) s := by
  refine ⟨not_conserved_of_panic (by decide +kernel),
    not_conserved_of_panic (by decide +kernel), ?_⟩
  obtain ⟨s, hrun, hpool, hheld, hchunks⟩ : ∃ s : St (Fin 2),
      BufRun 1 Free exitWithChunk.reverse s ∧ s.pool = [] ∧ s.held = [] ∧
        ∀ t, (s.thread t).chunks = [] :=
    Run.exists_of_exec exitWithChunk (St.new 1) rfl (by decide +kernel)
  refine ⟨s, hrun, fun hconserved => ?_⟩
  obtain ⟨k, hk, -⟩ := hconserved.place.place 0 (by decide)
  cases k with
  | held | pool | cache => simp [St.containers, hpool, hheld, hchunks] at hk
  | returned k => simp [St.containers, returned_empty hrun, TreiberStack.new] at hk

end Dtact.Io.Buffers
