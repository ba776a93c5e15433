import Dtact.Context
import Dtact.Lib.IndexStack
import Dtact.Lib.Transition

/-!
# `ContextPool`: the free list

`alloc_context` and `free_context` pop and push an intrusive stack: `free_head` packs a 32-bit
update counter with the index on top, and `next_free` links the contexts. Every atomic operation is
one step. The history keeps the abstract stack, which the successful CASes pop and push, and counts
them.

Result: `pool_linearizable`. When fewer than `2 ^ 32` updates happen between a load of `free_head`
and its CAS, the links spell out the abstract stack, an index is on it exactly when nobody holds it,
and every allocation returns its top or fails because it was empty.
-/

namespace Dtact.Pool

open Transition IndexStack

/-! ## The pool -/

/-- `head as u32` -/
def headIndex (head : Nat) : Nat := head % u32Mod

/-- `(head >> 32) as u32` -/
def headGen (head : Nat) : Nat := (head >>> 32) % u32Mod

/-- `(u64::from(gen.wrapping_add(1)) << 32) | u64::from(index)` -/
def newHead (head index : Nat) : Nat := (((headGen head + 1) % u32Mod) <<< 32) ||| index

/-- Where a thread is, named after the operation it performs next: on `free_head`, on `next_free`
(`allocNext`, `freeStore`) or on another word of the context (`freeState`, `freeGen`). -/
inductive Pc
  | idle
  | allocLoad
  | allocNext (head : Nat)
  | allocCas (head next : Nat)
  | allocated (r : Option Nat)
  | freeState (i : Nat)
  | freeGen (i : Nat)
  | freeLoad (i : Nat)
  | freeStore (i head : Nat)
  | freeCas (i head : Nat)
  | freed
deriving DecidableEq, Repr

/-- The pool with the threads that use it. `owner i` is the thread that was given
index `i` and has not freed it. -/
structure St where
  freeHead : Nat
  ctx : Nat → FiberContext
  threads : Nat → Pc
  owner : Nat → Option Nat

/-- `ContextPool::new` -/
def St.new (capacity : Nat) : St where
  freeHead := 0
  ctx := fun i =>
    { FiberContext.new with nextFree := if i = capacity - 1 then u32Max else i + 1 }
  threads := fun _ => .idle
  owner := fun _ => none

inductive Act
  | alloc (t : Nat)
  | free (t i : Nat)
  | give (t t' i : Nat)
  | run (t : Nat) (spurious : Bool)

def Pc.ready : Pc → Bool
  | .idle | .allocated _ | .freed => true
  | _ => false

def Pc.isCas : Pc → Bool
  | .allocCas _ _ | .freeCas _ _ => true
  | _ => false

/-- The loop head of `alloc_context`, with `head` just read. -/
def allocFrom (head : Nat) : Pc :=
  if headIndex head = u32Max then .allocated none else .allocNext head

def St.goto (s : St) (t : Nat) (pc : Pc) : St :=
  { s with threads := Function.update s.threads t pc }

def St.setCtx (s : St) (i : Nat) (c : FiberContext) : St :=
  { s with ctx := Function.update s.ctx i c }

/-- One step of thread `t`. `spurious` makes a `compare_exchange_weak` fail. -/
def runStep (t : Nat) (spurious : Bool) (s : St) : Option St :=
  match s.threads t with
  | .idle | .allocated _ | .freed => none
  | .allocLoad => some (s.goto t (allocFrom s.freeHead))
  | .allocNext head => some (s.goto t (.allocCas head (s.ctx (headIndex head)).nextFree))
  | .allocCas head next =>
    if s.freeHead = head ∧ spurious = false then
      some { s with
        freeHead := newHead head next
        threads := Function.update s.threads t (.allocated (some (headIndex head)))
        owner := Function.update s.owner (headIndex head) (some t) }
    else some (s.goto t (allocFrom s.freeHead))
  | .freeState i => some ((s.setCtx i { s.ctx i with state := .initial }).goto t (.freeGen i))
  | .freeGen i =>
    some ((s.setCtx i { s.ctx i with
      generation := ((s.ctx i).generation + 1) % u32Mod }).goto t (.freeLoad i))
  | .freeLoad i => some (s.goto t (.freeStore i s.freeHead))
  | .freeStore i head =>
    some ((s.setCtx i { s.ctx i with nextFree := headIndex head }).goto t (.freeCas i head))
  | .freeCas i head =>
    if s.freeHead = head ∧ spurious = false then
      some { s with
        freeHead := newHead head i
        threads := Function.update s.threads t .freed
        owner := Function.update s.owner i none }
    else some (s.goto t (.freeStore i s.freeHead))

def step : Act → St → Option St
  | .alloc t, s => if (s.threads t).ready then some (s.goto t .allocLoad) else none
  | .free t i, s =>
    if (s.threads t).ready ∧ s.owner i = some t then some (s.goto t (.freeState i)) else none
  | .give t t' i, s =>
    if (s.threads t).ready ∧ s.owner i = some t then
      some { s with owner := Function.update s.owner i (some t') }
    else none
  | .run t spurious, s => runStep t spurious s

/-! ## The history -/

/-- One successful `alloc_context`: the index it returned, the top of the
abstract stack and the holder of the index at that moment. -/
structure Grant where
  index : Nat
  top : Option Nat
  holder : Option Nat
deriving DecidableEq, Repr

structure Hist where
  /-- The successful CASes on `free_head`. -/
  updates : Nat
  /-- Their number when a thread last read `free_head`. -/
  loadedAt : Nat → Nat
  stack : List Nat
  grants : List Grant
  /-- At some moment of the thread's call in progress every index was held. -/
  noneFree : Nat → Bool

def Hist.init (capacity : Nat) : Hist := ⟨0, fun _ => 0, List.range capacity, [], fun _ => false⟩

/-- Every index below `capacity` is held. -/
def allHeld (capacity : Nat) (s : St) : Bool :=
  (List.range capacity).all fun i => (s.owner i).isSome

/-- The moments of the calls in progress: a new call starts afresh. -/
def observeNone (capacity : Nat) (a : Act) (s : St) (noneFree : Nat → Bool) (u : Nat) : Bool :=
  match a with
  | .alloc t => if u = t then false else noneFree u || allHeld capacity s
  | _ => noneFree u || allHeld capacity s

def updRun (t : Nat) (spurious : Bool) (s : St) (h : Hist) : Hist :=
  let reload : Hist := { h with loadedAt := Function.update h.loadedAt t h.updates }
  match s.threads t with
  | .allocLoad | .freeLoad _ => reload
  | .allocCas head _ =>
    if s.freeHead = head ∧ spurious = false then
      { h with
        updates := h.updates + 1
        stack := h.stack.tail
        grants := ⟨headIndex head, h.stack.head?, s.owner (headIndex head)⟩ :: h.grants }
    else reload
  | .freeCas i head =>
    if s.freeHead = head ∧ spurious = false then
      { h with updates := h.updates + 1, stack := i :: h.stack }
    else reload
  | _ => h

def upd (capacity : Nat) (a : Act) (s : St) (h : Hist) : Hist :=
  let h' := match a with
    | .run t spurious => updRun t spurious s h
    | _ => h
  { h' with noneFree := observeNone capacity a s h.noneFree }

/-! ## The properties -/

structure PoolOk (capacity : Nat) (s : St) (h : Hist) : Prop where
  chain : Chain (fun i => (s.ctx i).nextFree) u32Max (headIndex s.freeHead) h.stack
  nodup : h.stack.Nodup
  below : ∀ i ∈ h.stack, i < capacity
  /-- An index is either held or on the stack. -/
  split : ∀ i < capacity, i ∈ h.stack ↔ s.owner i = none
  granted : ∀ g ∈ h.grants, g.index < capacity ∧ g.holder = none ∧ g.top = some g.index
  failed : ∀ t, s.threads t = .allocated none → h.noneFree t = true

/-- Fewer than `2 ^ 32` updates between a load of `free_head` and its CAS. -/
def WindowBounded (p : St × Hist) : Act → Prop
  | .run t _ => (p.1.threads t).isCas = true → p.2.updates - p.2.loadedAt t < 2 ^ 32
  | _ => True

/-! ## The invariant -/

/-- `head` is what thread `t` read when it last read `free_head`. -/
structure Loaded (s : St) (h : Hist) (t head : Nat) : Prop where
  le : h.loadedAt t ≤ h.updates
  gen : headGen head = h.loadedAt t % u32Mod
  current : h.updates = h.loadedAt t → s.freeHead = head

def PcOk (s : St) (h : Hist) (t : Nat) : Pc → Prop
  | .idle | .allocLoad | .freed | .allocated _ => True
  | .allocNext head => Loaded s h t head ∧ headIndex head ≠ u32Max
  | .allocCas head next => Loaded s h t head ∧ headIndex head ≠ u32Max ∧
      (h.updates = h.loadedAt t → next = (s.ctx (headIndex head)).nextFree)
  | .freeState i | .freeGen i | .freeLoad i => s.owner i = some t
  | .freeStore i head => s.owner i = some t ∧ Loaded s h t head
  | .freeCas i head => s.owner i = some t ∧ Loaded s h t head ∧
      (s.ctx i).nextFree = headIndex head

structure Inv (capacity : Nat) (s : St) (h : Hist) : Prop extends PoolOk capacity s h where
  gen : headGen s.freeHead = h.updates % u32Mod
  ownerBelow : ∀ i t, s.owner i = some t → i < capacity
  links : ∀ i < capacity, (s.ctx i).nextFree < u32Mod
  pc : ∀ t, PcOk s h t (s.threads t)

namespace FreeListLemmas

variable {capacity t : Nat} {s s' : St} {h h' : Hist}

/-! ## The packed head -/

variable {head i : Nat} {pc : Pc}

theorem newHead_eq (hi : i < u32Mod) :
    newHead head i = ((headGen head + 1) % u32Mod) * 2 ^ 32 + i := by
  rw [newHead, ← Nat.shiftLeft_add_eq_or_of_lt hi, Nat.shiftLeft_eq]

theorem headIndex_newHead (hi : i < u32Mod) : headIndex (newHead head i) = i := by
  rw [newHead_eq hi]
  simp only [headIndex, u32Mod] at hi ⊢
  omega

theorem headGen_newHead (hi : i < u32Mod) :
    headGen (newHead head i) = (headGen head + 1) % u32Mod := by
  rw [newHead_eq hi, headGen, Nat.shiftRight_eq_div_pow]
  simp only [u32Mod] at hi ⊢
  omega

/-- Within the window an equal head means that nobody has updated it. -/
theorem updates_eq_of_loaded (hi : Inv capacity s h) (hl : Loaded s h t head)
    (hw : h.updates - h.loadedAt t < 2 ^ 32) (heq : s.freeHead = head) :
    h.updates = h.loadedAt t := by
  have hle := hl.le
  have hgen : h.updates % u32Mod = h.loadedAt t % u32Mod := by
    rw [← hi.gen, heq, hl.gen]
  simp only [u32Mod] at hgen
  omega

/-! ## Frames -/

theorem pcOk_of_ready (hr : pc.ready = true) : PcOk s h t pc := by
  cases pc <;> trivial

/-- What a thread knows survives the steps of the others: they leave its links
and its indices alone, and an update of the head voids what it knows of it. -/
theorem pcOk_frame (hpc : PcOk s h t pc) (hload : ∀ head, Loaded s h t head → Loaded s' h' t head)
    (hown : ∀ i, s.owner i = some t →
      s'.owner i = some t ∧ (s'.ctx i).nextFree = (s.ctx i).nextFree)
    (htop : ∀ head, Loaded s h t head → headIndex head ≠ u32Max → h'.updates = h'.loadedAt t →
      h.updates = h.loadedAt t ∧
        (s'.ctx (headIndex head)).nextFree = (s.ctx (headIndex head)).nextFree) :
    PcOk s' h' t pc := by
  cases pc with
  | idle | allocLoad | freed | allocated r => trivial
  | allocNext head => exact ⟨hload head hpc.1, hpc.2⟩
  | allocCas head next =>
    refine ⟨hload head hpc.1, hpc.2.1, fun heq => ?_⟩
    obtain ⟨heq', hnext⟩ := htop head hpc.1 hpc.2.1 heq
    rw [hnext]
    exact hpc.2.2 heq'
  | freeState i | freeGen i | freeLoad i => exact (hown i hpc).1
  | freeStore i head => exact ⟨(hown i hpc.1).1, hload head hpc.2⟩
  | freeCas i head =>
    obtain ⟨hown', hnext⟩ := hown i hpc.1
    exact ⟨hown', hload head hpc.2.1, hnext.trans hpc.2.2⟩

/-- The head index of a current load is on the stack. -/
theorem mem_stack_of_current (hi : Inv capacity s h) (hl : Loaded s h t head)
    (hne : headIndex head ≠ u32Max) (hcur : h.updates = h.loadedAt t) :
    ∃ l, h.stack = headIndex head :: l ∧
      Chain (fun i => (s.ctx i).nextFree) u32Max (s.ctx (headIndex head)).nextFree l := by
  have hchain := hi.chain
  rw [hl.current hcur] at hchain
  exact chain_head hchain hne

theorem not_mem_of_owned (hi : Inv capacity s h) (ho : s.owner i = some t) : i ∉ h.stack := by
  intro hmem
  have := (hi.split i (hi.below i hmem)).mp hmem
  rw [ho] at this
  cases this

/-- What a thread has read stays true while the head and its history stand still. -/
theorem loaded_same (hl : Loaded s h t head) (hf : s'.freeHead = s.freeHead)
    (hu : h'.updates = h.updates) (hld : h'.loadedAt t = h.loadedAt t) : Loaded s' h' t head :=
  ⟨by rw [hld, hu]; exact hl.le, by rw [hld]; exact hl.gen,
    by rw [hld, hu, hf]; exact hl.current⟩

theorem failed_goto {threads : Nat → Pc}
    (hi : ∀ u, threads u = .allocated none → h.noneFree u = true)
    (hn : ∀ u ≠ t, h.noneFree u = true → h'.noneFree u = true)
    (hf : pc = .allocated none → h'.noneFree t = true) :
    ∀ u, Function.update threads t pc u = .allocated none → h'.noneFree u = true :=
  (Function.forall_update_iff threads fun u pc => pc = .allocated none → h'.noneFree u = true).mpr
    ⟨hf, fun u hut hfail => hn u hut (hi u hfail)⟩

section Owner

variable {x : Option Nat}

theorem split_update (hi : Inv capacity s h) (hself : i ∈ h'.stack ↔ x = none)
    (hother : ∀ j ≠ i, j ∈ h'.stack ↔ j ∈ h.stack) :
    ∀ j < capacity, j ∈ h'.stack ↔ Function.update s.owner i x j = none := by
  intro j hj
  by_cases hji : j = i
  · subst hji
    simpa using hself
  · rw [hother j hji, Function.update_of_ne hji]
    exact hi.split j hj

theorem ownerBelow_update (hi : Inv capacity s h) (hb : i < capacity) :
    ∀ j u, Function.update s.owner i x j = some u → j < capacity :=
  (Function.forall_update_iff s.owner fun j o => ∀ u, o = some u → j < capacity).mpr
    ⟨fun _ _ => hb, fun j _ => hi.ownerBelow j⟩

theorem owner_update {j u : Nat} (hne : s.owner i ≠ some u) (hj : s.owner j = some u) :
    Function.update s.owner i x j = some u := by
  rw [Function.update_of_ne, hj]
  rintro rfl
  exact hne hj

end Owner

/-- A step that changes nothing but where the thread is and what it has read. -/
theorem inv_local (hi : Inv capacity s h) (hu : h'.updates = h.updates) (hs : h'.stack = h.stack)
    (hg : h'.grants = h.grants) (hl : ∀ u ≠ t, h'.loadedAt u = h.loadedAt u)
    (hn : ∀ u ≠ t, h.noneFree u = true → h'.noneFree u = true) (hpc : PcOk (s.goto t pc) h' t pc)
    (hf : pc = .allocated none → h'.noneFree t = true) : Inv capacity (s.goto t pc) h' where
  chain := hs ▸ hi.chain
  nodup := hs ▸ hi.nodup
  below := hs ▸ hi.below
  split := hs ▸ hi.split
  granted := hg ▸ hi.granted
  gen := hu ▸ hi.gen
  ownerBelow := hi.ownerBelow
  links := hi.links
  failed := failed_goto hi.failed hn hf
  pc := by
    refine (Function.forall_update_iff s.threads (PcOk (s.goto t pc) h')).mpr
      ⟨hpc, fun u hut => ?_⟩
    refine pcOk_frame (hi.pc u) (fun _ hload => loaded_same hload rfl hu (hl u hut))
      (fun i ho => ⟨ho, rfl⟩) (fun head _ _ heq => ⟨?_, rfl⟩)
    rwa [hl u hut, hu] at heq

theorem inv_setCtx (hi : Inv capacity s h) {c : FiberContext} (ho : s.owner i = some t)
    (hc : c.nextFree < u32Mod) (hu : h'.updates = h.updates) (hs : h'.stack = h.stack)
    (hg : h'.grants = h.grants) (hl : h'.loadedAt = h.loadedAt)
    (hn : ∀ u, h.noneFree u = true → h'.noneFree u = true)
    (hpc : PcOk ((s.setCtx i c).goto t pc) h' t pc) (hf : pc ≠ .allocated none) :
    Inv capacity ((s.setCtx i c).goto t pc) h' where
  chain := by
    have hlinks : (fun j => (((s.setCtx i c).goto t pc).ctx j).nextFree) =
        Function.update (fun j => (s.ctx j).nextFree) i c.nextFree := by
      funext j
      by_cases hj : j = i
      · subst hj
        simp [St.goto, St.setCtx]
      · simp [St.goto, St.setCtx, Function.update_of_ne hj]
    rw [hlinks, hs, chain_update (not_mem_of_owned hi ho)]
    exact hi.chain
  nodup := hs ▸ hi.nodup
  below := hs ▸ hi.below
  split := hs ▸ hi.split
  granted := hg ▸ hi.granted
  gen := hu ▸ hi.gen
  ownerBelow := hi.ownerBelow
  links := by
    intro j hj
    by_cases hji : j = i
    · subst hji
      simpa [St.goto, St.setCtx] using hc
    · simpa [St.goto, St.setCtx, Function.update_of_ne hji] using hi.links j hj
  failed := failed_goto hi.failed (fun u _ => hn u) (fun he => absurd he hf)
  pc := by
    refine (Function.forall_update_iff s.threads (PcOk ((s.setCtx i c).goto t pc) h')).mpr
      ⟨hpc, fun u hut => ?_⟩
    have hother : ∀ j, j ≠ i → (((s.setCtx i c).goto t pc).ctx j).nextFree =
        (s.ctx j).nextFree := fun j hj => by simp [St.goto, St.setCtx, Function.update_of_ne hj]
    refine pcOk_frame (hi.pc u) (fun _ hload => loaded_same hload rfl hu (congrFun hl u))
      (fun j hj => ⟨hj, hother j ?_⟩) (fun head hload hne heq => ?_)
    · rintro rfl
      rw [ho] at hj
      exact hut (by simpa using hj.symm)
    · rw [hl, hu] at heq
      refine ⟨heq, hother _ ?_⟩
      rintro rfl
      obtain ⟨l, hstack, _⟩ := mem_stack_of_current hi hload hne heq
      exact not_mem_of_owned hi ho (by simp [hstack])

/-! ## The steps -/

/-- An update of the head voids what the other threads have read. -/
theorem loaded_of_update (hl : Loaded s h t head) (hu : h'.updates = h.updates + 1)
    (hld : h'.loadedAt = h.loadedAt) : Loaded s' h' t head := by
  have hle := hl.le
  refine ⟨?_, hld ▸ hl.gen, fun heq => ?_⟩
  · rw [hu, hld]
    omega
  · rw [hu, hld] at heq
    omega

section

variable (hi : Inv capacity s h)

include hi

theorem inv_allocCas {next : Nat} (ht : s.threads t = .allocCas head next)
    (hw : h.updates - h.loadedAt t < 2 ^ 32) (heq : s.freeHead = head)
    (hu : h'.updates = h.updates + 1) (hs : h'.stack = h.stack.tail)
    (hg : h'.grants = ⟨headIndex head, h.stack.head?, s.owner (headIndex head)⟩ :: h.grants)
    (hl : h'.loadedAt = h.loadedAt) (hn : ∀ u, h.noneFree u = true → h'.noneFree u = true) :
    Inv capacity { s with
      freeHead := newHead head next
      threads := Function.update s.threads t (.allocated (some (headIndex head)))
      owner := Function.update s.owner (headIndex head) (some t) } h' := by
  have hpc := hi.pc t
  rw [ht] at hpc
  obtain ⟨hload, hne, hnext⟩ := hpc
  have hcur := updates_eq_of_loaded hi hload hw heq
  obtain ⟨l, hstack, hchain⟩ := mem_stack_of_current hi hload hne hcur
  generalize hi₀ : headIndex head = i at *
  have hbelow : i < capacity := hi.below i (by simp [hstack])
  have hfree : s.owner i = none := (hi.split i hbelow).mp (by simp [hstack])
  obtain ⟨hil, hnodup⟩ := List.nodup_cons.mp (hstack ▸ hi.nodup)
  have hlt : next < u32Mod := by
    rw [hnext hcur]
    exact hi.links i hbelow
  have htail : h'.stack = l := by rw [hs, hstack, List.tail_cons]
  have hmem : ∀ j ∈ l, j ∈ h.stack := fun j hj => by simp [hstack, hj]
  refine ⟨⟨?_, htail ▸ hnodup, fun j hj => hi.below j (hmem j (htail ▸ hj)),
    split_update hi (by simp [htail, hil]) (fun j hji => by simp [htail, hstack, hji]), ?_,
    failed_goto hi.failed (fun u _ => hn u) nofun⟩, ?_, ownerBelow_update hi hbelow, hi.links,
    (Function.forall_update_iff s.threads (PcOk _ h')).mpr ⟨trivial, fun u hut => ?_⟩⟩
  · rw [htail, headIndex_newHead hlt, hnext hcur]
    exact hchain
  · rw [hg]
    rintro g hgm
    rcases List.mem_cons.mp hgm with rfl | hgm
    · exact ⟨hbelow, hfree, by simp [hstack]⟩
    · exact hi.granted g hgm
  · rw [headGen_newHead hlt, ← heq, hi.gen, hu]
    simp [Nat.add_mod]
  · refine pcOk_frame (hi.pc u) (fun _ hl' => loaded_of_update hl' hu hl)
      (fun j hj => ⟨owner_update (by simp [hfree]) hj, rfl⟩) (fun _ hl' _ heq' => ?_)
    have := hl'.le
    rw [hu, hl] at heq'
    omega

theorem inv_freeCas (hcap : capacity ≤ u32Max) (ht : s.threads t = .freeCas i head)
    (heq : s.freeHead = head) (hu : h'.updates = h.updates + 1) (hs : h'.stack = i :: h.stack)
    (hg : h'.grants = h.grants) (hl : h'.loadedAt = h.loadedAt)
    (hn : ∀ u, h.noneFree u = true → h'.noneFree u = true) :
    Inv capacity { s with
      freeHead := newHead head i
      threads := Function.update s.threads t .freed
      owner := Function.update s.owner i none } h' := by
  have hpc := hi.pc t
  rw [ht] at hpc
  obtain ⟨ho, -, hlink⟩ := hpc
  have hbelow := hi.ownerBelow i t ho
  have hne : i ≠ u32Max := by omega
  have hlt : i < u32Mod := by
    simp only [u32Max, u32Mod] at hcap ⊢
    omega
  have hout := not_mem_of_owned hi ho
  refine ⟨⟨?_, hs ▸ List.nodup_cons.mpr ⟨hout, hi.nodup⟩, ?_,
    split_update hi (by simp [hs]) (fun j hji => by simp [hs, hji]), hg ▸ hi.granted,
    failed_goto hi.failed (fun u _ => hn u) nofun⟩, ?_, ownerBelow_update hi hbelow, hi.links,
    (Function.forall_update_iff s.threads (PcOk _ h')).mpr ⟨trivial, fun u hut => ?_⟩⟩
  · rw [hs, headIndex_newHead hlt]
    exact chain_push (heq ▸ hi.chain) hne hlink
  · rw [hs]
    rintro j hj
    rcases List.mem_cons.mp hj with rfl | hj
    · exact hbelow
    · exact hi.below j hj
  · rw [headGen_newHead hlt, ← heq, hi.gen, hu]
    simp [Nat.add_mod]
  · refine pcOk_frame (hi.pc u) (fun _ hl' => loaded_of_update hl' hu hl)
      (fun j hj => ⟨owner_update (by simp [ho, hut.symm]) hj, rfl⟩) (fun _ hl' _ heq' => ?_)
    have := hl'.le
    rw [hu, hl] at heq'
    omega

theorem inv_give {t' : Nat} (hr : (s.threads t).ready = true) (ho : s.owner i = some t)
    (hu : h'.updates = h.updates) (hs : h'.stack = h.stack) (hg : h'.grants = h.grants)
    (hl : h'.loadedAt = h.loadedAt) (hn : ∀ u, h.noneFree u = true → h'.noneFree u = true) :
    Inv capacity { s with owner := Function.update s.owner i (some t') } h' := by
  have hbelow := hi.ownerBelow i t ho
  refine ⟨⟨hs ▸ hi.chain, hs ▸ hi.nodup, hs ▸ hi.below,
    split_update hi (by simpa [hs] using not_mem_of_owned hi ho) (fun j _ => by rw [hs]),
    hg ▸ hi.granted, fun u hfail => hn u (hi.failed u hfail)⟩, hu ▸ hi.gen,
    ownerBelow_update hi hbelow, hi.links, fun u => ?_⟩
  by_cases hut : u = t
  · subst hut
    exact pcOk_of_ready hr
  · refine pcOk_frame (hi.pc u) (fun _ hload => loaded_same hload rfl hu (congrFun hl u))
      (fun j hj => ⟨owner_update (by simp [ho, Ne.symm hut]) hj, rfl⟩) (fun _ _ _ heq => ⟨?_, rfl⟩)
    rwa [hl, hu] at heq

/-- When the head is the sentinel, every index is held. -/
theorem allHeld_of_sentinel (hmax : headIndex s.freeHead = u32Max) : allHeld capacity s = true := by
  have hempty : h.stack = [] := chain_eq_nil (hmax ▸ hi.chain)
  simp only [allHeld, List.all_eq_true, List.mem_range]
  intro i hlt
  have := hi.split i hlt
  rw [hempty] at this
  exact Option.isSome_iff_ne_none.mpr fun hnone => by simpa using this.mpr hnone

theorem loaded_now (hu : h'.updates = h.updates) (hl : h'.loadedAt t = h.updates) :
    Loaded (s.goto t pc) h' t s.freeHead :=
  ⟨Nat.le_of_eq (by rw [hu, hl]), by rw [hl]; exact hi.gen, fun _ => rfl⟩

/-- Reading `free_head` in `alloc_context`, by the load or by a failed CAS. -/
theorem inv_allocFrom (hu : h'.updates = h.updates) (hs : h'.stack = h.stack)
    (hg : h'.grants = h.grants) (hl : h'.loadedAt = Function.update h.loadedAt t h.updates)
    (hn : ∀ u, h'.noneFree u = (h.noneFree u || allHeld capacity s)) :
    Inv capacity (s.goto t (allocFrom s.freeHead)) h' := by
  refine inv_local hi hu hs hg (fun u hut => by rw [hl, Function.update_of_ne hut])
    (fun u _ hnone => by simp [hn, hnone]) ?_ ?_
  · unfold allocFrom
    split
    · trivial
    · next hne => exact ⟨loaded_now hi hu (by simp [hl]), hne⟩
  · unfold allocFrom
    split
    · next hmax => exact fun _ => by simp [hn, allHeld_of_sentinel hi hmax]
    · exact nofun

theorem inv_freeFrom (ho : s.owner i = some t) (hu : h'.updates = h.updates)
    (hs : h'.stack = h.stack) (hg : h'.grants = h.grants)
    (hl : h'.loadedAt = Function.update h.loadedAt t h.updates)
    (hn : ∀ u, h'.noneFree u = (h.noneFree u || allHeld capacity s)) :
    Inv capacity (s.goto t (.freeStore i s.freeHead)) h' :=
  inv_local hi hu hs hg (fun u hut => by rw [hl, Function.update_of_ne hut])
    (fun u _ hnone => by simp [hn, hnone]) ⟨ho, loaded_now hi hu (by simp [hl])⟩ nofun

theorem inv_run (hcap : capacity ≤ u32Max) {sp : Bool} (hw : WindowBounded (s, h) (.run t sp))
    (hs : runStep t sp s = some s') : Inv capacity s' (upd capacity (.run t sp) s h) := by
  have hn : ∀ u, (upd capacity (.run t sp) s h).noneFree u =
      (h.noneFree u || allHeld capacity s) := fun _ => rfl
  have hn' : ∀ u, h.noneFree u = true → (upd capacity (.run t sp) s h).noneFree u = true :=
    fun u hnone => by rw [hn, hnone, Bool.true_or]
  have hpc := hi.pc t
  generalize ht : s.threads t = pc at hpc
  cases pc with
  | idle | allocated r | freed => simp [runStep, ht] at hs
  | allocLoad =>
    simp only [runStep, ht, Option.some.injEq] at hs
    subst hs
    exact inv_allocFrom hi (by simp [upd, updRun, ht]) (by simp [upd, updRun, ht])
      (by simp [upd, updRun, ht]) (by simp [upd, updRun, ht]) hn
  | allocNext head =>
    simp only [runStep, ht, Option.some.injEq] at hs
    subst hs
    refine inv_local hi (by simp [upd, updRun, ht]) (by simp [upd, updRun, ht])
      (by simp [upd, updRun, ht]) (by simp [upd, updRun, ht]) (fun u _ => hn' u) ?_ nofun
    exact ⟨loaded_same hpc.1 rfl (by simp [upd, updRun, ht]) (by simp [upd, updRun, ht]), hpc.2,
      fun _ => rfl⟩
  | allocCas head next =>
    simp only [runStep, ht] at hs
    split at hs
    · next hwin =>
      cases hs
      exact inv_allocCas hi ht (hw (by simp [ht, Pc.isCas])) hwin.1
        (by simp [upd, updRun, ht, hwin]) (by simp [upd, updRun, ht, hwin])
        (by simp [upd, updRun, ht, hwin]) (by simp [upd, updRun, ht, hwin]) hn'
    · next hlose =>
      cases hs
      exact inv_allocFrom hi (by simp [upd, updRun, ht, hlose]) (by simp [upd, updRun, ht, hlose])
        (by simp [upd, updRun, ht, hlose]) (by simp [upd, updRun, ht, hlose]) hn
  | freeState i | freeGen i =>
    simp only [runStep, ht, Option.some.injEq] at hs
    subst hs
    exact inv_setCtx hi hpc (hi.links i (hi.ownerBelow i t hpc)) (by simp [upd, updRun, ht])
      (by simp [upd, updRun, ht]) (by simp [upd, updRun, ht]) (by simp [upd, updRun, ht]) hn' hpc
      nofun
  | freeLoad i =>
    simp only [runStep, ht, Option.some.injEq] at hs
    subst hs
    exact inv_freeFrom hi hpc (by simp [upd, updRun, ht]) (by simp [upd, updRun, ht])
      (by simp [upd, updRun, ht]) (by simp [upd, updRun, ht]) hn
  | freeStore i head =>
    simp only [runStep, ht, Option.some.injEq] at hs
    subst hs
    refine inv_setCtx hi hpc.1 (Nat.mod_lt _ (by decide)) (by simp [upd, updRun, ht])
      (by simp [upd, updRun, ht]) (by simp [upd, updRun, ht]) (by simp [upd, updRun, ht]) hn' ?_
      nofun
    exact ⟨hpc.1, loaded_same hpc.2 rfl (by simp [upd, updRun, ht]) (by simp [upd, updRun, ht]),
      by simp [St.goto, St.setCtx]⟩
  | freeCas i head =>
    simp only [runStep, ht] at hs
    split at hs
    · next hwin =>
      cases hs
      exact inv_freeCas hi hcap ht hwin.1 (by simp [upd, updRun, ht, hwin])
        (by simp [upd, updRun, ht, hwin]) (by simp [upd, updRun, ht, hwin])
        (by simp [upd, updRun, ht, hwin]) hn'
    · next hlose =>
      cases hs
      exact inv_freeFrom hi hpc.1 (by simp [upd, updRun, ht, hlose])
        (by simp [upd, updRun, ht, hlose]) (by simp [upd, updRun, ht, hlose])
        (by simp [upd, updRun, ht, hlose]) hn

theorem inv_step (hcap : capacity ≤ u32Max) {a : Act} (hw : WindowBounded (s, h) a)
    (hs : step a s = some s') : Inv capacity s' (upd capacity a s h) := by
  cases a with
  | alloc t =>
    simp only [step] at hs
    split at hs <;> cases hs
    refine inv_local hi rfl rfl rfl (fun _ _ => rfl) (fun u hut hnone => ?_) trivial nofun
    simp [upd, observeNone, hut, hnone]
  | free t i =>
    simp only [step] at hs
    split at hs
    · next hr =>
      cases hs
      exact inv_local hi rfl rfl rfl (fun _ _ => rfl)
        (fun u _ hnone => by simp [upd, observeNone, hnone]) hr.2 nofun
    · cases hs
  | give t t' i =>
    simp only [step] at hs
    split at hs
    · next hr =>
      cases hs
      exact inv_give hi hr.1 hr.2 rfl rfl rfl rfl
        (fun u hnone => by simp [upd, observeNone, hnone])
    · cases hs
  | run t sp => exact inv_run hi hcap hw hs

end

theorem inv_new (hpos : 0 < capacity) (hcap : capacity ≤ u32Max) :
    Inv capacity (St.new capacity) (Hist.init capacity) where
  chain := by
    have hz : headIndex (St.new capacity).freeHead = 0 := rfl
    rw [hz, Hist.init, List.range_eq_range']
    refine chain_range' (fun i _ hlt => ?_) (fun k hk => ?_) (by simpa using hcap) hpos
    · simp only [St.new]
      rw [if_neg (by omega)]
    · simp [St.new, hk]
  nodup := List.nodup_range
  below := fun i hi => List.mem_range.mp hi
  split := fun i hi => by simp [Hist.init, St.new, hi]
  granted := by simp [Hist.init]
  failed := by simp [St.new]
  gen := by simp [St.new, Hist.init, headGen]
  ownerBelow := by simp [St.new]
  links := by
    intro i hi
    simp only [St.new, u32Max, u32Mod] at hcap ⊢
    split <;> omega
  pc := fun t => trivial

end FreeListLemmas

open FreeListLemmas

/-! ## The result -/

abbrev PoolRun (capacity : Nat) (tr : List Act) (p : St × Hist) : Prop :=
  Run (initHist (· = St.new capacity) (Hist.init capacity)) (withHist step (upd capacity))
    WindowBounded tr p

/-- The free list of a pool of any capacity behaves as a stack in every run. -/
theorem pool_linearizable (capacity : Nat) (hpos : 0 < capacity) (hcap : capacity ≤ u32Max)
    (tr : List Act) (p : St × Hist) (h : PoolRun capacity tr p) : PoolOk capacity p.1 p.2 := by
  suffices hi : Inv capacity p.1 p.2 from hi.toPoolOk
  refine h.hist_invariant (I := Inv capacity) ?_
    (fun _ _ _ _ hi hw hst => inv_step hi hcap hw hst)
  rintro s rfl
  exact inv_new hpos hcap

instance (p : St × Hist) : (a : Act) → Decidable (WindowBounded p a)
  | .run t _ => inferInstanceAs (Decidable ((p.1.threads t).isCas = true → _ < _))
  | .alloc _ | .free _ _ | .give _ _ _ => isTrue trivial

/-- Two contexts: two allocations succeed, a third one fails, one is freed. -/
theorem pool_linearizable_two : ∃ tr p, PoolRun 2 tr p ∧
    p.2.grants.map Grant.index = [1, 0] ∧ p.1.threads 2 = .allocated none ∧
    p.2.noneFree 2 = true ∧ p.2.stack = [0] ∧ PoolOk 2 p.1 p.2 := by
  obtain ⟨tr, p, hrun, hgrants, hfailed, hnone, hstack⟩ : ∃ tr p, PoolRun 2 tr p ∧
      p.2.grants.map Grant.index = [1, 0] ∧ p.1.threads 2 = .allocated none ∧
      p.2.noneFree 2 = true ∧ p.2.stack = [0] := by
    exact ⟨_, _, Run.of_exec_guarded ([.alloc 0, .run 0 false, .run 0 false, .run 0 false,
      .alloc 1, .run 1 false, .run 1 false, .run 1 true, .run 1 false, .run 1 false, .alloc 2,
      .run 2 false, .free 0 0, .run 0 false, .run 0 false, .run 0 false, .run 0 false,
      .run 0 false]) (s := (St.new 2, Hist.init 2)) ⟨rfl, rfl⟩ rfl, rfl, rfl, rfl, rfl⟩
  exact ⟨tr, p, hrun, hgrants, hfailed, hnone, hstack,
    pool_linearizable 2 (by decide) (by decide) tr p hrun⟩

end Dtact.Pool
