import Mathlib.Logic.Function.Basic
import Dtact.Pool.FreeList

/-!
# `BufferPool`

One arena is cut into chunks of equal size, and a `TreiberStack` holds the indices of the free ones.
In the release profile the size of the arena is the product of the number and the size of the chunks
modulo `2 ^ 64`. `St.view` reads a state as one of the free list of `ContextPool`, whose results
carry over.
-/

namespace Dtact.ChunkPool

open Transition IndexStack
open Pool (headIndex newHead Hist)

/-! ## The arena -/

/-- `BufferPool`, with the number of its chunks, which is the length of `free.next`. -/
structure BufferPool where
  arenaPtr : Nat
  layoutSize : Nat
  chunkSize : Nat
  totalChunks : Nat
deriving DecidableEq

/-- `a * b`, which panics or wraps around. -/
def mul (overflowChecks : Bool) (a b : Nat) : Option Nat :=
  if overflowChecks ∧ usizeMod ≤ a * b then none else some (a * b % usizeMod)

/-- `Layout::from_size_align(size, 4096)` accepts the size. -/
def layoutAccepts (size : Nat) : Bool := size ≤ 2 ^ 63 - 4096

/-- `BufferPool::new`, for a global allocator that returns `alloc size`. -/
def new (overflowChecks : Bool) (alloc : Nat → Option Nat) (totalChunks chunkSize : Nat) :
    Option BufferPool := do
  let totalChunksBounded := max totalChunks 1
  let chunkSizeBounded := max chunkSize 1
  let size ← mul overflowChecks totalChunksBounded chunkSizeBounded
  if layoutAccepts size then
    let arenaPtr ← alloc size
    return ⟨arenaPtr, size, chunkSizeBounded, totalChunksBounded⟩
  else none

/-- `get_ptr`. In a pool whose chunks fit into the arena the product does not overflow. -/
def BufferPool.getPtr (pool : BufferPool) (idx : Nat) : Nat :=
  pool.arenaPtr + idx * pool.chunkSize % usizeMod

/-- The byte ranges of distinct chunks are disjoint and inside the arena. -/
structure BufferPool.Apart (pool : BufferPool) : Prop where
  inside : ∀ i < pool.totalChunks, pool.arenaPtr ≤ pool.getPtr i ∧
    pool.getPtr i + pool.chunkSize ≤ pool.arenaPtr + pool.layoutSize
  disjoint : ∀ i < pool.totalChunks, ∀ j < pool.totalChunks, i ≠ j →
    pool.getPtr i + pool.chunkSize ≤ pool.getPtr j ∨ pool.getPtr j + pool.chunkSize ≤ pool.getPtr i

/-! ## The free list -/

/-- Where a thread is, named after the operation it performs next on `head` or `next`. It has
`panicked` if an index of `next` was out of bounds. -/
inductive Pc
  | idle
  | popLoad
  | popNext (head : Nat)
  | popCas (head next : Nat)
  | acquired (r : Option Nat)
  | pushLoad (i : Nat)
  | pushStore (i head : Nat)
  | pushCas (i head : Nat)
  | released
  | panicked
deriving DecidableEq

/-- `owner i` is the thread that holds index `i`. -/
structure St where
  head : Nat
  next : Nat → Nat
  threads : Nat → Pc
  owner : Nat → Option Nat

/-- The links that `BufferPool::new` writes. -/
def initialNext (total i : Nat) : Nat := if i = total - 1 then u32Max else (i + 1) % u32Mod

def St.new (total : Nat) : St := ⟨0, initialNext total, fun _ => .idle, fun _ => none⟩

/-- A held index may be handed over to another thread. -/
inductive Act
  | acquire (t : Nat)
  | release (t i : Nat)
  | give (t t' i : Nat)
  | run (t : Nat) (spurious : Bool)

def Pc.ready : Pc → Bool
  | .idle | .acquired _ | .released => true
  | _ => false

def St.goto (s : St) (t : Nat) (pc : Pc) : St :=
  { s with threads := Function.update s.threads t pc }

/-- The loop head of `pop`, with `head` just read. -/
def popFrom (head : Nat) : Pc :=
  if headIndex head = u32Max then .acquired none else .popNext head

/-- One step of thread `t`. `spurious` makes a `compare_exchange_weak` fail. -/
def runStep (total t : Nat) (spurious : Bool) (s : St) : Option St :=
  match s.threads t with
  | .idle | .acquired _ | .released | .panicked => none
  | .popLoad => some (s.goto t (popFrom s.head))
  | .popNext head =>
    if headIndex head < total then some (s.goto t (.popCas head (s.next (headIndex head))))
    else some (s.goto t .panicked)
  | .popCas head next =>
    if s.head = head ∧ spurious = false then
      some { s with
        head := newHead head next
        threads := Function.update s.threads t (.acquired (some (headIndex head)))
        owner := Function.update s.owner (headIndex head) (some t) }
    else some (s.goto t (popFrom s.head))
  | .pushLoad i => some (s.goto t (.pushStore i s.head))
  | .pushStore i head =>
    if i < total then
      some { s with
        next := Function.update s.next i (headIndex head)
        threads := Function.update s.threads t (.pushCas i head) }
    else some (s.goto t .panicked)
  | .pushCas i head =>
    if s.head = head ∧ spurious = false then
      some { s with
        head := newHead head i
        threads := Function.update s.threads t .released
        owner := Function.update s.owner i none }
    else some (s.goto t (.pushStore i s.head))

def step (total : Nat) : Act → St → Option St
  | .acquire t, s => if (s.threads t).ready then some (s.goto t .popLoad) else none
  | .release t i, s =>
    if (s.threads t).ready ∧ s.owner i = some t then some (s.goto t (.pushLoad i)) else none
  | .give t t' i, s =>
    if (s.threads t).ready ∧ s.owner i = some t then
      some { s with owner := Function.update s.owner i (some t') }
    else none
  | .run t spurious, s => runStep total t spurious s

/-! ## The view onto the free list of `ContextPool` -/

def Pc.view : Pc → Pool.Pc
  | .idle | .panicked => .idle
  | .popLoad => .allocLoad
  | .popNext head => .allocNext head
  | .popCas head next => .allocCas head next
  | .acquired r => .allocated r
  | .pushLoad i => .freeLoad i
  | .pushStore i head => .freeStore i head
  | .pushCas i head => .freeCas i head
  | .released => .freed

def St.view (s : St) : Pool.St where
  freeHead := s.head
  ctx := fun i => { FiberContext.new with nextFree := s.next i }
  threads := fun t => (s.threads t).view
  owner := s.owner

def Act.view : Act → Pool.Act
  | .acquire t => .alloc t
  | .release t i => .free t i
  | .give t t' i => .give t t' i
  | .run t spurious => .run t spurious

/-! ## The property -/

/-- The history counts the updates of the head, keeps the abstract stack and every index given out
with its holder at that moment, and notes the calls during which every index was held. -/
def upd (total : Nat) (a : Act) (s : St) (h : Hist) : Hist := Pool.upd total a.view s.view h

structure Sound (pool : BufferPool) (s : St) (h : Hist) : Prop where
  apart : pool.Apart
  /-- The indices reached from the head are those of the abstract stack, each of them once. -/
  chain : Chain s.next u32Max (headIndex s.head) h.stack
  nodup : h.stack.Nodup
  below : ∀ i ∈ h.stack, i < pool.totalChunks
  /-- An index is either held or on the stack. -/
  split : ∀ i < pool.totalChunks, i ∈ h.stack ↔ s.owner i = none
  /-- An index was given out when nobody held it. -/
  granted : ∀ g ∈ h.grants, g.index < pool.totalChunks ∧ g.holder = none
  /-- A call that returned `None` saw a moment at which every index was held. -/
  failed : ∀ t, s.threads t = .acquired none → h.noneFree t = true
  inBounds : ∀ t, s.threads t ≠ .panicked

/-- Fewer than `2 ^ 32` updates of the head between a load of it and the CAS. -/
def WindowBounded (p : St × Hist) (a : Act) : Prop := Pool.WindowBounded (p.1.view, p.2) a.view

abbrev PoolRun (total : Nat) : List Act → St × Hist → Prop :=
  Run (initHist (· = St.new total) (Hist.init total)) (withHist (step total) (upd total))
    WindowBounded

/-! ## The layout -/

variable {pool : BufferPool} {t : Nat}

theorem new_eq_some {overflowChecks : Bool} {alloc : Nat → Option Nat} {totalChunks chunkSize : Nat}
    (hnew : new overflowChecks alloc totalChunks chunkSize = some pool) :
    pool.totalChunks = max totalChunks 1 ∧ pool.chunkSize = max chunkSize 1 ∧
      pool.layoutSize = max totalChunks 1 * max chunkSize 1 % usizeMod := by
  simp only [new, Option.bind_eq_bind, Option.bind_eq_some_iff] at hnew
  obtain ⟨size, hsize, hnew⟩ := hnew
  split at hnew
  case isFalse => cases hnew
  case isTrue =>
    obtain ⟨ptr, -, hpool⟩ := Option.bind_eq_some_iff.mp hnew
    cases hpool
    unfold mul at hsize
    split at hsize
    · cases hsize
    · cases hsize
      exact ⟨rfl, rfl, rfl⟩

/-- Chunks of a pool whose size has not wrapped around follow one another in the arena. -/
theorem apart_of_fits (hsize : pool.layoutSize = pool.totalChunks * pool.chunkSize)
    (hfits : pool.totalChunks * pool.chunkSize < usizeMod) : pool.Apart := by
  have hend : ∀ i j, i < j → i * pool.chunkSize + pool.chunkSize ≤ j * pool.chunkSize := by
    intro i j hij
    rw [← Nat.succ_mul]
    exact Nat.mul_le_mul_right _ hij
  have hptr : ∀ i < pool.totalChunks, pool.getPtr i = pool.arenaPtr + i * pool.chunkSize := by
    intro i hi
    have hle := hend i _ hi
    rw [BufferPool.getPtr, Nat.mod_eq_of_lt (by omega)]
  refine ⟨fun i hi => ?_, fun i hi j hj hij => ?_⟩
  · have hle := hend i _ hi
    rw [hptr i hi, hsize]
    omega
  · rw [hptr i hi, hptr j hj]
    rcases Nat.lt_or_gt_of_ne hij with hlt | hlt
    · have hle := hend i j hlt
      omega
    · have hle := hend j i hlt
      omega

/-- The last chunk that begins inside the arena must end there. -/
theorem fits_of_apart (hpos : 0 < pool.chunkSize) (hlt : pool.layoutSize < usizeMod)
    (hapart : pool.Apart) : pool.totalChunks * pool.chunkSize ≤ pool.layoutSize := by
  by_contra hover
  have hk : pool.layoutSize / pool.chunkSize < pool.totalChunks := by
    rw [Nat.div_lt_iff_lt_mul hpos]
    omega
  have hbegin := Nat.div_mul_le_self pool.layoutSize pool.chunkSize
  have hinside := (hapart.inside _ hk).2
  rw [BufferPool.getPtr, Nat.mod_eq_of_lt (by omega)] at hinside
  have hmod := Nat.div_add_mod' pool.layoutSize pool.chunkSize
  have hrem := Nat.mod_lt pool.layoutSize hpos
  omega

/-! ## The view of a step -/

theorem view_moved (s : St) (t : Nat) (pc : Pc) (head : Nat) (next : Nat → Nat)
    (owner : Nat → Option Nat) :
    St.view ⟨head, next, Function.update s.threads t pc, owner⟩ =
      ⟨head, fun i => { FiberContext.new with nextFree := next i },
        Function.update s.view.threads t pc.view, owner⟩ := by
  simp only [St.view, Pool.St.mk.injEq, true_and, and_true]
  exact funext fun u => by rw [Function.apply_update fun _ => Pc.view]

theorem view_goto (s : St) (t : Nat) (pc : Pc) : (s.goto t pc).view = s.view.goto t pc.view :=
  view_moved s t pc _ _ _

theorem view_popFrom (head : Nat) : (popFrom head).view = Pool.allocFrom head := by
  unfold popFrom Pool.allocFrom
  split <;> rfl

theorem view_ready {pc : Pc} (hready : pc.ready = true) : pc.view.ready = true := by
  cases pc <;> first | rfl | cases hready

/-- The indices that the thread uses next are in bounds. -/
def Pc.Bounded (total : Nat) : Pc → Prop
  | .popNext head => headIndex head < total
  | .pushStore i _ => i < total
  | .panicked => False
  | _ => True

variable {total : Nat} {s s' : St} {h : Hist}

theorem view_store (s : St) (i x : Nat) :
    (fun j => { FiberContext.new with nextFree := Function.update s.next i x j }) =
      Function.update s.view.ctx i { s.view.ctx i with nextFree := x } := by
  funext j
  by_cases hj : j = i
  · subst hj
    simp [St.view]
  · simp [St.view, Function.update_of_ne hj]

/-! ## The invariant -/

structure Inv (total : Nat) (s : St) (h : Hist) : Prop where
  list : Pool.Inv total s.view h
  bounded : ∀ t, (s.threads t).Bounded total

theorem bounded_goto (hbounded : ∀ t, (s.threads t).Bounded total) {pc : Pc}
    (hpc : pc.Bounded total) : ∀ u, (Function.update s.threads t pc u).Bounded total :=
  (Function.forall_update_iff s.threads fun _ pc => pc.Bounded total).mpr
    ⟨hpc, fun u _ => hbounded u⟩

/-- An index that was just loaded is on the stack. -/
theorem Inv.popFrom (hinv : Inv total s h) : (ChunkPool.popFrom s.head).Bounded total := by
  unfold ChunkPool.popFrom
  split
  · trivial
  · next hne =>
    obtain ⟨l, hstack, -⟩ := chain_head hinv.list.chain hne
    exact hinv.list.below _ (by simp [hstack, St.view])

/-- A step of a thread is a step of the free list, and the thread stays within the bounds. -/
theorem Inv.run (hinv : Inv total s h) {spurious : Bool}
    (hstep : runStep total t spurious s = some s') :
    Pool.runStep t spurious s.view = some s'.view ∧
      ∃ pc : Pc, s'.threads = Function.update s.threads t pc ∧ pc.Bounded total := by
  have hbound := hinv.bounded t
  have hpcOk := hinv.list.pc t
  have hview : s.view.threads t = (s.threads t).view := rfl
  unfold runStep at hstep
  unfold Pool.runStep
  rw [hview] at hpcOk ⊢
  cases hpc : s.threads t with
  | idle | acquired _ | released | panicked => simp [hpc] at hstep
  | popLoad =>
    rw [hpc] at hstep
    cases hstep
    rw [view_goto, view_popFrom]
    exact ⟨rfl, _, rfl, hinv.popFrom⟩
  | popNext head =>
    rw [hpc] at hbound
    have hlt : headIndex head < total := hbound
    simp only [hpc, hlt, if_true, Option.some.injEq] at hstep
    subst hstep
    rw [view_goto]
    exact ⟨rfl, _, rfl, trivial⟩
  | popCas head next =>
    simp only [hpc] at hstep
    split at hstep
    case isTrue hcas =>
      cases hstep
      rw [view_moved]
      exact ⟨if_pos hcas, _, rfl, trivial⟩
    case isFalse hcas =>
      cases hstep
      rw [view_goto, view_popFrom]
      exact ⟨if_neg hcas, _, rfl, hinv.popFrom⟩
  | pushLoad i =>
    rw [hpc] at hstep hpcOk
    cases hstep
    rw [view_goto]
    exact ⟨rfl, _, rfl, hinv.list.ownerBelow i t hpcOk⟩
  | pushStore i head =>
    rw [hpc] at hbound
    have hlt : i < total := hbound
    simp only [hpc, hlt, if_true, Option.some.injEq] at hstep
    subst hstep
    rw [view_moved, view_store]
    exact ⟨rfl, _, rfl, trivial⟩
  | pushCas i head =>
    rw [hpc] at hpcOk
    simp only [hpc] at hstep
    split at hstep
    case isTrue hcas =>
      cases hstep
      rw [view_moved]
      exact ⟨if_pos hcas, _, rfl, trivial⟩
    case isFalse hcas =>
      cases hstep
      rw [view_goto]
      exact ⟨if_neg hcas, _, rfl, hinv.list.ownerBelow i t hpcOk.1⟩

theorem Inv.step (hinv : Inv total s h) (htotal : total ≤ u32Max) {a : Act}
    (hwindow : WindowBounded (s, h) a) (hstep : ChunkPool.step total a s = some s') :
    Inv total s' (upd total a s h) := by
  cases a with
  | acquire t =>
    simp only [ChunkPool.step] at hstep
    split at hstep
    case isFalse => cases hstep
    case isTrue hready =>
      cases hstep
      refine ⟨?_, bounded_goto hinv.bounded trivial⟩
      have hview : Pool.step (.alloc t) s.view = some (s.goto t .popLoad).view := by
        rw [view_goto]
        exact if_pos (view_ready hready)
      exact Pool.FreeListLemmas.inv_step hinv.list htotal hwindow hview
  | release t i =>
    simp only [ChunkPool.step] at hstep
    split at hstep
    case isFalse => cases hstep
    case isTrue hready =>
      cases hstep
      refine ⟨?_, bounded_goto hinv.bounded trivial⟩
      -- `free_context` has two more steps before its load, which do not concern the list.
      rw [view_goto]
      refine Pool.FreeListLemmas.inv_local hinv.list rfl rfl rfl (fun _ _ => rfl)
        (fun u _ hnone => ?_) hready.2 (by simp [Pc.view])
      simp [upd, Pool.upd, Act.view, Pool.observeNone, hnone]
  | give t t' i =>
    simp only [ChunkPool.step] at hstep
    split at hstep
    case isFalse => cases hstep
    case isTrue hready =>
      cases hstep
      refine ⟨?_, hinv.bounded⟩
      have hview : Pool.step (.give t t' i) s.view =
          some (St.view { s with owner := Function.update s.owner i (some t') }) := by
        exact if_pos ⟨view_ready hready.1, hready.2⟩
      exact Pool.FreeListLemmas.inv_step hinv.list htotal hwindow hview
  | run t spurious =>
    obtain ⟨hview, pc, hthreads, hpc⟩ := hinv.run hstep
    refine ⟨Pool.FreeListLemmas.inv_step hinv.list htotal hwindow hview, ?_⟩
    rw [hthreads]
    exact bounded_goto hinv.bounded hpc

theorem inv_new (hpos : 0 < total) (htotal : total ≤ u32Max) :
    Inv total (St.new total) (Hist.init total) := by
  have hlt : ∀ i < total, (i + 1) % u32Mod = i + 1 := fun i hi => by
    simp only [u32Mod, u32Max] at htotal ⊢
    omega
  refine ⟨⟨⟨?_, List.nodup_range, fun i hi => List.mem_range.mp hi, fun i hi => ?_, ?_, ?_⟩,
    ?_, ?_, fun i hi => ?_, fun _ => trivial⟩, fun _ => trivial⟩
  · have hz : headIndex (St.new total).view.freeHead = 0 := rfl
    rw [hz, Hist.init, List.range_eq_range']
    refine chain_range' (fun i _ hi => ?_) (fun k hk => ?_) (by simpa using htotal) hpos
    · simp only [St.view, St.new, initialNext]
      rw [if_neg (by omega), hlt i (by omega)]
    · simp [St.view, St.new, initialNext, hk]
  · simp [Hist.init, St.view, St.new, hi]
  · simp [Hist.init]
  · simp [St.view, St.new, Pc.view]
  · simp [St.view, St.new, Hist.init, Pool.headGen]
  · simp [St.view, St.new]
  · simp only [St.view, St.new, initialNext, u32Max, u32Mod]
    split <;> omega

theorem inv_of_run (hpos : 0 < total) (htotal : total ≤ u32Max) {tr : List Act} {p : St × Hist}
    (hrun : PoolRun total tr p) : Inv total p.1 p.2 := by
  refine hrun.hist_invariant (I := Inv total) ?_
    (fun _ _ _ _ hinv hwindow hst => hinv.step htotal hwindow hst)
  rintro s rfl
  exact inv_new hpos htotal

theorem Inv.sound (hinv : Inv pool.totalChunks s h) (hapart : pool.Apart) : Sound pool s h where
  apart := hapart
  chain := hinv.list.chain
  nodup := hinv.list.nodup
  below := hinv.list.below
  split := hinv.list.split
  granted := fun g hg => ⟨(hinv.list.granted g hg).1, (hinv.list.granted g hg).2.1⟩
  failed := fun t hnone => hinv.list.failed t (by simp [St.view, hnone, Pc.view])
  inBounds := fun t hpanic => by
    have hbound := hinv.bounded t
    rw [hpanic] at hbound
    exact hbound

/-! ## The result -/

/-- The pool is sound in every run exactly if the size of its arena has not wrapped around. -/
theorem chunks_disjoint_iff {overflowChecks : Bool} {alloc : Nat → Option Nat}
    {totalChunks chunkSize : Nat} {pool : BufferPool} (htotal : totalChunks < 2 ^ 32 - 1)
    (hnew : new overflowChecks alloc totalChunks chunkSize = some pool) :
    (∀ tr s h, PoolRun pool.totalChunks tr (s, h) → Sound pool s h) ↔
      max totalChunks 1 * max chunkSize 1 < 2 ^ 64 := by
  obtain ⟨hchunks, hchunk, hsize⟩ := new_eq_some hnew
  have hpos : 0 < pool.totalChunks := by omega
  have hmax : pool.totalChunks ≤ u32Max := by
    simp only [u32Max]
    omega
  rw [← hchunks, ← hchunk] at hsize ⊢
  constructor
  · intro hsound
    have hstart : PoolRun pool.totalChunks [] (St.new _, Hist.init _) := .start ⟨rfl, rfl⟩
    have hlt : pool.layoutSize < usizeMod := hsize ▸ Nat.mod_lt _ (by decide)
    have hle := fits_of_apart (by omega) hlt (hsound _ _ _ hstart).apart
    exact Nat.lt_of_le_of_lt hle hlt
  · intro hfits tr s h hrun
    have hwhole : pool.layoutSize = pool.totalChunks * pool.chunkSize :=
      hsize.trans (Nat.mod_eq_of_lt hfits)
    exact (inv_of_run hpos hmax hrun).sound (apart_of_fits hwhole hfits)

instance decidableWindowBounded (p : St × Hist) (a : Act) : Decidable (WindowBounded p a) :=
  inferInstanceAs (Decidable (Pool.WindowBounded (p.1.view, p.2) a.view))

/-- An allocator that has one arena to give. -/
def oneArena (_ : Nat) : Option Nat := some 4096

/-- Thread 0 acquires a chunk. Thread 1 acquires the other one after a spurious failure of its
CAS, and thread 2 finds none. Then thread 0 releases its chunk. -/
def acquireRelease : List Act :=
  [.acquire 0, .run 0 false, .run 0 false, .run 0 false, .acquire 1, .run 1 false, .run 1 false,
    .run 1 true, .run 1 false, .run 1 false, .acquire 2, .run 2 false, .release 0 0, .run 0 false,
    .run 0 false, .run 0 false]

theorem chunks_disjoint_iff_acquireRelease :
    ∃ s h, PoolRun 2 acquireRelease.reverse (s, h) ∧ s.threads 2 = .acquired none ∧
      h.stack = [0] ∧ s.owner 1 = some 1 ∧ Sound ⟨4096, 1024, 512, 2⟩ s h := by
  obtain ⟨⟨s, h⟩, hrun, heq⟩ : ∃ p, PoolRun 2 acquireRelease.reverse p ∧
      p.1.threads 2 = .acquired none ∧ p.2.stack = [0] ∧ p.1.owner 1 = some 1 :=
    Run.exists_of_guarded acquireRelease (St.new 2, Hist.init 2) ⟨rfl, rfl⟩ (by decide +kernel)
  have hnew : new false oneArena 2 512 = some ⟨4096, 1024, 512, 2⟩ := by decide
  have hsound := (chunks_disjoint_iff (by decide) hnew).mpr (by decide) _ s h hrun
  exact ⟨s, h, hrun, heq.1, heq.2.1, heq.2.2, hsound⟩

/-- Four chunks of `2 ^ 62 + 1` bytes are accepted with an arena of four bytes, and the chunk that
thread 0 acquires does not fit into it. -/
theorem chunk_outside_arena :
    ∃ pool, new false oneArena 4 (2 ^ 62 + 1) = some pool ∧ pool.layoutSize = 4 ∧
      ∃ tr s h, PoolRun pool.totalChunks tr (s, h) ∧ s.threads 0 = .acquired (some 0) ∧
        pool.arenaPtr + pool.layoutSize < pool.getPtr 0 + pool.chunkSize ∧ ¬ Sound pool s h := by
  obtain ⟨⟨s, h⟩, hrun, hacquired⟩ : ∃ p, PoolRun 4
      [.run 0 false, .run 0 false, .run 0 false, .acquire 0] p ∧
      p.1.threads 0 = .acquired (some 0) :=
    Run.exists_of_guarded [Act.acquire 0, .run 0 false, .run 0 false, .run 0 false]
      (St.new 4, Hist.init 4) ⟨rfl, rfl⟩ (by decide +kernel)
  have houtside : 4096 + 4 < BufferPool.getPtr ⟨4096, 4, 2 ^ 62 + 1, 4⟩ 0 + (2 ^ 62 + 1) := by
    decide +kernel
  refine ⟨⟨4096, 4, 2 ^ 62 + 1, 4⟩, by decide +kernel, rfl, _, s, h, hrun, hacquired, houtside,
    fun hsound => ?_⟩
  have hinside : BufferPool.getPtr ⟨4096, 4, 2 ^ 62 + 1, 4⟩ 0 + (2 ^ 62 + 1) ≤ 4096 + 4 :=
    (hsound.apart.inside 0 (by decide)).2
  omega

end Dtact.ChunkPool
