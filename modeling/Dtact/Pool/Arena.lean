import Dtact.Lib.Align
import Dtact.Words

/-!
# The arena of `ContextPool`

One mapping holds the slots of all contexts: the stack, the read buffer of 8 KiB and the
`FiberContext`, rounded up to whole pages. With `Safety1` there is a guard page below every group of
32 slots, with `Safety2` one below every slot. `ContextPool::new` and `get_context_ptr` compute with
words that wrap around; `Params.Fits` says that the arena has room below `2 ^ 64`.

Result: `arena_geometry`. Slots and guard pages are apart and inside the arena, the parts of a slot
are aligned and in their order, and the guard pages are where they should be.
-/

namespace Dtact.Arena

open Align

inductive SafetyLevel
  | safety0
  | safety1
  | safety2
deriving DecidableEq, Repr

/-- What the layout depends on: the arguments of `ContextPool::new`, the page size of the system and
the size of a `FiberContext`. -/
structure Params where
  capacity : Nat
  stackSize : Nat
  safety : SafetyLevel
  pageSize : Nat
  contextBytes : Nat
deriving DecidableEq, Repr

def readBufferSize : Nat := 8192

/-- `capacity.div_ceil(32)` -/
def Params.numGroups (p : Params) : Nat := (p.capacity + 31) / 32

/-- `context_sz` -/
def Params.contextSz (p : Params) : Nat := up 64 p.contextBytes 64

/-- `slot_size` -/
def Params.slotSize (p : Params) : Nat :=
  up 64 (p.stackSize + p.contextSz + readBufferSize) p.pageSize

/-- `total_size`, for slots of the size `slotSize` and without a bound. -/
def Params.total (p : Params) (slotSize : Nat) : Nat :=
  match p.safety with
  | .safety0 => p.capacity * slotSize
  | .safety1 => p.capacity * slotSize + p.numGroups * p.pageSize
  | .safety2 => p.capacity * (slotSize + p.pageSize)

/-- `ContextPool`, without the free list. -/
structure ContextPool where
  basePtr : Nat
  totalSize : Nat
  slotSize : Nat
  pageSize : Nat
  capacity : Nat
  safety : SafetyLevel
  contextEndOffset : Nat

/-- `ContextPool::new`, with a mapping of `total_size` and 4 KiB at `base`. -/
def ContextPool.new (p : Params) (base : Nat) : ContextPool where
  basePtr := base
  totalSize := (p.total p.slotSize + 4096) % usizeMod
  slotSize := p.slotSize
  pageSize := p.pageSize
  capacity := p.capacity
  safety := p.safety
  contextEndOffset := wrappingSub p.slotSize p.contextSz

/-- The pages that `ContextPool::new` protects, by their addresses. -/
def guardPtrs (p : Params) (base : Nat) : List Nat :=
  match p.safety with
  | .safety0 => []
  | .safety1 => (List.range p.numGroups).map fun i =>
      (base + i * (p.slotSize * 32 + p.pageSize)) % usizeMod
  | .safety2 => (List.range p.capacity).map fun i =>
      (base + i * (p.slotSize + p.pageSize)) % usizeMod

namespace ContextPool

/-- `guard_offset` of `get_context_ptr`. -/
def guardOffset (pool : ContextPool) (index : Nat) : Nat :=
  match pool.safety with
  | .safety0 => 0
  | .safety1 => ((index >>> 5) + 1) * pool.pageSize
  | .safety2 => (index + 1) * pool.pageSize

/-- `get_context_ptr` -/
def getContextPtr (pool : ContextPool) (index : Nat) : Nat :=
  (pool.basePtr + (index * pool.slotSize + pool.guardOffset index + pool.contextEndOffset)) %
    usizeMod

/-- `read_buffer_ptr` of the context. -/
def readBufferPtr (pool : ContextPool) (index : Nat) : Nat :=
  down 64 (wrappingSub (pool.getContextPtr index) readBufferSize) 64

/-- Where the slot begins; its context ends at its end. -/
def slotBase (pool : ContextPool) (p : Params) (index : Nat) : Nat :=
  pool.getContextPtr index + p.contextSz - pool.slotSize

def slot (pool : ContextPool) (p : Params) (index : Nat) : Set Nat :=
  block (pool.slotBase p index) pool.slotSize

/-- The bytes of a `FiberContext`. -/
def context (pool : ContextPool) (p : Params) (index : Nat) : Set Nat :=
  block (pool.getContextPtr index) p.contextBytes

def readBuffer (pool : ContextPool) (index : Nat) : Set Nat :=
  block (pool.readBufferPtr index) readBufferSize

end ContextPool

/-! ## The layout without a bound -/

def Params.idealContext (p : Params) : Nat := ceil p.contextBytes 64

def Params.idealSlot (p : Params) : Nat :=
  ceil (p.stackSize + p.idealContext + readBufferSize) p.pageSize

/-- There is a context, the pages have a size that a system may have, and the arena at `base` ends
within the address space. -/
structure Params.Fits (p : Params) (base : Nat) : Prop where
  capacity_pos : 1 ≤ p.capacity
  page : ∃ k, p.pageSize = 2 ^ k
  page_le : 64 ≤ p.pageSize
  aligned : p.pageSize ∣ base
  total_lt : p.total p.idealSlot + 4096 < 2 ^ 64
  fits : base + (p.total p.idealSlot + 4096) ≤ 2 ^ 64

/-- The guard pages below the slots up to `i`. -/
def Params.guards (p : Params) (i : Nat) : Nat :=
  match p.safety with
  | .safety0 => 0
  | .safety1 => i / 32 + 1
  | .safety2 => i + 1

/-- Where a slot begins, from the base of the arena on. -/
def Params.offset (p : Params) (i : Nat) : Nat := i * p.idealSlot + p.guards i * p.pageSize

section

variable {p : Params} {base : Nat}

variable {i j : Nat}

theorem guards_mono (p : Params) (h : i ≤ j) : p.guards i ≤ p.guards j := by
  unfold Params.guards
  cases p.safety with
  | safety0 => exact le_rfl
  | safety1 => exact Nat.succ_le_succ (Nat.div_le_div_right h)
  | safety2 => exact Nat.succ_le_succ h

theorem offset_lt (p : Params) (h : i < j) : p.offset i + p.idealSlot ≤ p.offset j := by
  have hslots : (i + 1) * p.idealSlot ≤ j * p.idealSlot := Nat.mul_le_mul_right _ h
  have hguards := Nat.mul_le_mul_right p.pageSize (guards_mono p h.le)
  rw [Nat.add_mul, Nat.one_mul] at hslots
  unfold Params.offset
  omega

/-- All slots end within the arena. -/
theorem offset_le (p : Params) (h : i < p.capacity) :
    p.offset i + p.idealSlot ≤ p.total p.idealSlot := by
  have hslots : (i + 1) * p.idealSlot ≤ p.capacity * p.idealSlot := Nat.mul_le_mul_right _ h
  rw [Nat.add_mul, Nat.one_mul] at hslots
  unfold Params.offset Params.total Params.guards
  cases p.safety with
  | safety0 =>
    show i * p.idealSlot + 0 * p.pageSize + p.idealSlot ≤ p.capacity * p.idealSlot
    omega
  | safety1 =>
    have hgroups : i / 32 + 1 ≤ p.numGroups := by
      unfold Params.numGroups
      omega
    have hguards := Nat.mul_le_mul_right p.pageSize hgroups
    show i * p.idealSlot + (i / 32 + 1) * p.pageSize + p.idealSlot ≤
      p.capacity * p.idealSlot + p.numGroups * p.pageSize
    omega
  | safety2 =>
    have hguards : (i + 1) * p.pageSize ≤ p.capacity * p.pageSize := Nat.mul_le_mul_right _ h
    show i * p.idealSlot + (i + 1) * p.pageSize + p.idealSlot ≤
      p.capacity * (p.idealSlot + p.pageSize)
    rw [Nat.mul_add]
    omega

namespace Params.Fits

theorem page_pos (h : p.Fits base) : 0 < p.pageSize := by
  have := h.page_le
  omega

theorem dvd_slot (p : Params) : p.pageSize ∣ p.idealSlot := dvd_ceil _ _

section

variable (h : p.Fits base)

include h

theorem parts_le : p.stackSize + p.idealContext + readBufferSize ≤ p.idealSlot := le_ceil h.page_pos

theorem dvd_page : 64 ∣ p.pageSize := by
  obtain ⟨k, hk⟩ := h.page
  have hle : 2 ^ 6 ≤ 2 ^ k := by
    rw [← hk]
    exact h.page_le
  have hdvd : 2 ^ 6 ∣ 2 ^ k :=
    Nat.pow_dvd_pow 2 ((Nat.pow_le_pow_iff_right (by decide : 1 < 2)).mp hle)
  rwa [← hk] at hdvd

theorem offset_lt_two_pow {i : Nat} (hi : i < p.capacity) :
    base + p.offset i + p.idealSlot + 4096 ≤ 2 ^ 64 := by
  calc base + p.offset i + p.idealSlot + 4096
      = base + (p.offset i + p.idealSlot + 4096) := by simp only [Nat.add_assoc]
    _ ≤ base + (p.total p.idealSlot + 4096) :=
      Nat.add_le_add_left (Nat.add_le_add_right (offset_le p hi) 4096) base
    _ ≤ 2 ^ 64 := h.fits

theorem slot_lt : p.idealSlot < 2 ^ 64 := by
  have hle := h.offset_lt_two_pow h.capacity_pos
  omega

theorem page_exponent : ∃ k, p.pageSize = 2 ^ k ∧ k ≤ 64 := by
  obtain ⟨k, hk⟩ := h.page
  refine ⟨k, hk, ?_⟩
  have hparts := h.parts_le
  have hle : p.pageSize ≤ p.idealSlot :=
    Nat.le_of_dvd (by unfold readBufferSize at hparts; omega) (dvd_slot p)
  have hlt := hle.trans_lt h.slot_lt
  rw [hk] at hlt
  exact ((Nat.pow_lt_pow_iff_right (by decide : 1 < 2)).mp hlt).le

theorem contextSz_eq : p.contextSz = p.idealContext := by
  have hparts := h.parts_le
  have hlt := h.slot_lt
  exact up_eq_ceil (k := 6) (by decide) (show p.idealContext < 2 ^ 64 by omega)

theorem slotSize_eq : p.slotSize = p.idealSlot := by
  obtain ⟨k, hk, hle⟩ := h.page_exponent
  have hlt := h.slot_lt
  unfold Params.slotSize
  unfold Params.idealSlot at hlt ⊢
  rw [h.contextSz_eq]
  rw [hk] at hlt ⊢
  exact up_eq_ceil hle hlt

end

theorem contextBytes_le (p : Params) : p.contextBytes ≤ p.idealContext := le_ceil (by decide)

theorem guardOffset_eq (p : Params) (base i : Nat) :
    (ContextPool.new p base).guardOffset i = p.guards i * p.pageSize := by
  unfold ContextPool.guardOffset Params.guards
  show (match p.safety with | .safety0 => _ | .safety1 => _ | .safety2 => _) = _
  cases p.safety with
  | safety0 => exact (Nat.zero_mul _).symm
  | safety1 =>
    show ((i >>> 5) + 1) * p.pageSize = _
    rw [Nat.shiftRight_eq_div_pow]
  | safety2 => rfl

theorem contextEndOffset_eq (h : p.Fits base) :
    (ContextPool.new p base).contextEndOffset = p.idealSlot - p.idealContext := by
  have hparts := h.parts_le
  have hlt := h.slot_lt
  show wrappingSub p.slotSize p.contextSz = _
  rw [h.slotSize_eq, h.contextSz_eq, wrappingSub_eq (by omega) hlt]

end Params.Fits

theorem contextPtr_eq (h : p.Fits base) (hi : i < p.capacity) :
    (ContextPool.new p base).getContextPtr i =
      base + p.offset i + (p.idealSlot - p.idealContext) := by
  have hle := h.offset_lt_two_pow hi
  have hparts := h.parts_le
  unfold ContextPool.getContextPtr
  rw [Params.Fits.guardOffset_eq, h.contextEndOffset_eq]
  show (base + (i * p.slotSize + p.guards i * p.pageSize + _)) % usizeMod = _
  rw [h.slotSize_eq]
  unfold Params.offset at hle ⊢
  rw [Nat.mod_eq_of_lt (by unfold usizeMod; omega)]
  omega

theorem slotBase_eq (h : p.Fits base) (hi : i < p.capacity) :
    (ContextPool.new p base).slotBase p i = base + p.offset i := by
  have hparts := h.parts_le
  unfold ContextPool.slotBase
  rw [contextPtr_eq h hi, h.contextSz_eq]
  show _ - p.slotSize = _
  rw [h.slotSize_eq]
  omega

theorem slot_eq (h : p.Fits base) (hi : i < p.capacity) :
    (ContextPool.new p base).slot p i = block (base + p.offset i) p.idealSlot := by
  unfold ContextPool.slot
  rw [slotBase_eq h hi]
  show block _ p.slotSize = _
  rw [h.slotSize_eq]

theorem dvd_offset (p : Params) (i : Nat) : p.pageSize ∣ p.offset i :=
  Nat.dvd_add (Dvd.dvd.mul_left (Params.Fits.dvd_slot p) i) (Nat.dvd_mul_left _ _)

theorem dvd_contextPtr (h : p.Fits base) (hi : i < p.capacity) :
    64 ∣ (ContextPool.new p base).getContextPtr i := by
  have hpage := h.dvd_page
  have hcontext : 64 ∣ p.idealContext := dvd_ceil _ _
  rw [contextPtr_eq h hi]
  refine Nat.dvd_add (Nat.dvd_add (hpage.trans h.aligned) (hpage.trans (dvd_offset p i))) ?_
  exact Nat.dvd_sub (hpage.trans (Params.Fits.dvd_slot p)) hcontext

/-- The read buffer ends where the context begins: the mask has nothing to clear. -/
theorem readBufferPtr_eq (h : p.Fits base) (hi : i < p.capacity) :
    (ContextPool.new p base).readBufferPtr i + readBufferSize =
      (ContextPool.new p base).getContextPtr i := by
  have hparts := h.parts_le
  have hle := h.offset_lt_two_pow hi
  have hdvd := dvd_contextPtr h hi
  have hptr := contextPtr_eq h hi
  have hsub : wrappingSub ((ContextPool.new p base).getContextPtr i) readBufferSize =
      (ContextPool.new p base).getContextPtr i - readBufferSize := by
    refine wrappingSub_eq (by omega) ?_
    unfold usizeMod
    omega
  have hdown : (ContextPool.new p base).readBufferPtr i =
      (ContextPool.new p base).getContextPtr i - readBufferSize := by
    unfold ContextPool.readBufferPtr
    rw [hsub]
    refine down_of_dvd (k := 6) (by omega) (by decide) (Nat.dvd_sub hdvd (by decide))
  omega

/-- The parts of a slot from its base to its end, which is below the end of the arena. -/
theorem slot_order (h : p.Fits base) (hi : i < p.capacity) :
    (ContextPool.new p base).slotBase p i + p.stackSize ≤
      (ContextPool.new p base).readBufferPtr i ∧
    (ContextPool.new p base).getContextPtr i + p.contextBytes ≤
      (ContextPool.new p base).slotBase p i + (ContextPool.new p base).slotSize ∧
    (ContextPool.new p base).slotBase p i + (ContextPool.new p base).slotSize + 4096 ≤ 2 ^ 64 := by
  have hparts := h.parts_le
  have hbytes := Params.Fits.contextBytes_le p
  have hbuffer := readBufferPtr_eq h hi
  have hend := h.offset_lt_two_pow hi
  have hsize : (ContextPool.new p base).slotSize = p.idealSlot := h.slotSize_eq
  rw [contextPtr_eq h hi] at hbuffer
  rw [slotBase_eq h hi, contextPtr_eq h hi, hsize]
  exact ⟨by omega, by omega, hend⟩

theorem slotBase_lt (h : p.Fits base) (hij : i < j) (hj : j < p.capacity) :
    (ContextPool.new p base).slotBase p i + (ContextPool.new p base).slotSize ≤
      (ContextPool.new p base).slotBase p j := by
  have hsize : (ContextPool.new p base).slotSize = p.idealSlot := h.slotSize_eq
  rw [slotBase_eq h (hij.trans hj), slotBase_eq h hj, hsize, Nat.add_assoc]
  exact Nat.add_le_add_left (offset_lt p hij) base

theorem slots_disjoint (h : p.Fits base) (hi : i < p.capacity) (hj : j < p.capacity) (hne : i ≠ j) :
    Disjoint ((ContextPool.new p base).slot p i) ((ContextPool.new p base).slot p j) := by
  rcases Nat.lt_or_gt_of_ne hne with hlt | hgt
  · exact disjoint_of_le (slotBase_lt h hlt hj)
  · exact (disjoint_of_le (slotBase_lt h hgt hi)).symm

/-! ## The guard pages -/

/-- The guard page number `g`, from the base of the arena on. -/
def Params.guardOffset (p : Params) (g : Nat) : Nat :=
  match p.safety with
  | .safety0 | .safety1 => g * (p.idealSlot * 32 + p.pageSize)
  | .safety2 => g * (p.idealSlot + p.pageSize)

def Params.numGuards (p : Params) : Nat :=
  match p.safety with
  | .safety0 => 0
  | .safety1 => p.numGroups
  | .safety2 => p.capacity

theorem guardOffset_le (p : Params) {g : Nat} (hg : g < p.numGuards) :
    p.guardOffset g ≤ p.total p.idealSlot := by
  unfold Params.numGuards at hg
  unfold Params.guardOffset Params.total
  cases hs : p.safety with
  | safety0 =>
    rw [hs] at hg
    cases hg
  | safety1 =>
    rw [hs] at hg
    have hg : g < p.numGroups := hg
    have hslots : g * 32 ≤ p.capacity := by
      unfold Params.numGroups at hg
      omega
    have h₁ := Nat.mul_le_mul_right p.idealSlot hslots
    have h₂ := Nat.mul_le_mul_right p.pageSize hg.le
    show g * (p.idealSlot * 32 + p.pageSize) ≤ p.capacity * p.idealSlot + p.numGroups * p.pageSize
    rw [Nat.mul_add, Nat.mul_comm p.idealSlot 32, ← Nat.mul_assoc]
    omega
  | safety2 =>
    rw [hs] at hg
    exact Nat.mul_le_mul_right _ (Nat.le_of_lt hg)

theorem mem_guardPtrs (h : p.Fits base) {a : Nat} :
    a ∈ guardPtrs p base ↔ ∃ g < p.numGuards, a = base + p.guardOffset g := by
  have hfits := h.fits
  have hlt {g : Nat} (hg : g < p.numGuards) :
      (base + p.guardOffset g) % usizeMod = base + p.guardOffset g := by
    have hle := guardOffset_le p hg
    refine Nat.mod_eq_of_lt ?_
    unfold usizeMod
    omega
  unfold guardPtrs Params.numGuards at *
  unfold Params.guardOffset at *
  rw [h.slotSize_eq]
  cases hs : p.safety with
  | safety0 => simp
  | safety1 | safety2 =>
    simp only [hs] at hlt
    simp only [List.mem_map, List.mem_range]
    exact ⟨fun ⟨g, hg, ha⟩ => ⟨g, hg, by rw [← ha, hlt hg]⟩,
      fun ⟨g, hg, ha⟩ => ⟨g, hg, by rw [ha, hlt hg]⟩⟩

/-- A guard page ends before the slots above it begin, and the slots below it end before it
begins. -/
theorem guard_apart (p : Params) {g : Nat} (hg : g < p.numGuards) (i : Nat) :
    p.guardOffset g + p.pageSize ≤ p.offset i ∨
      p.offset i + p.idealSlot ≤ p.guardOffset g := by
  unfold Params.numGuards at hg
  unfold Params.guardOffset Params.offset Params.guards
  cases hs : p.safety with
  | safety0 =>
    rw [hs] at hg
    cases hg
  | safety1 =>
    show g * (p.idealSlot * 32 + p.pageSize) + p.pageSize ≤
        i * p.idealSlot + (i / 32 + 1) * p.pageSize ∨
      i * p.idealSlot + (i / 32 + 1) * p.pageSize + p.idealSlot ≤
        g * (p.idealSlot * 32 + p.pageSize)
    rw [Nat.mul_add, Nat.mul_comm p.idealSlot 32, ← Nat.mul_assoc, Nat.add_mul, Nat.one_mul]
    -- the groups up to the own one are below, the next one is above
    rcases Nat.lt_or_ge (i / 32) g with hlt | hge
    · right
      have h₁ := Nat.mul_le_mul_right p.idealSlot (show i + 1 ≤ g * 32 by omega)
      have h₂ := Nat.mul_le_mul_right p.pageSize (show i / 32 + 1 ≤ g from hlt)
      rw [Nat.add_mul, Nat.one_mul] at h₁ h₂
      omega
    · left
      have h₁ := Nat.mul_le_mul_right p.idealSlot (show g * 32 ≤ i by omega)
      have h₂ := Nat.mul_le_mul_right p.pageSize hge
      omega
  | safety2 =>
    show g * (p.idealSlot + p.pageSize) + p.pageSize ≤ i * p.idealSlot + (i + 1) * p.pageSize ∨
      i * p.idealSlot + (i + 1) * p.pageSize + p.idealSlot ≤ g * (p.idealSlot + p.pageSize)
    rw [Nat.mul_add, Nat.add_mul i 1, Nat.one_mul]
    rcases Nat.lt_or_ge i g with hlt | hge
    · right
      have h₁ := Nat.mul_le_mul_right p.idealSlot (show i + 1 ≤ g from hlt)
      have h₂ := Nat.mul_le_mul_right p.pageSize (show i + 1 ≤ g from hlt)
      rw [Nat.add_mul, Nat.one_mul] at h₁ h₂
      omega
    · left
      have h₁ := Nat.mul_le_mul_right p.idealSlot hge
      have h₂ := Nat.mul_le_mul_right p.pageSize hge
      omega

/-- The slots that are meant to have a guard page below them. -/
def Params.guarded (p : Params) (i : Nat) : Prop :=
  p.safety = .safety2 ∨ p.safety = .safety1 ∧ i % 32 = 0

theorem guard_below (p : Params) (hi : i < p.capacity) (hg : p.guarded i) :
    ∃ g < p.numGuards, p.guardOffset g + p.pageSize = p.offset i := by
  unfold Params.numGuards Params.guardOffset Params.offset Params.guards
  rcases hg with hs | ⟨hs, hzero⟩
  · rw [hs]
    refine ⟨i, hi, ?_⟩
    show i * (p.idealSlot + p.pageSize) + p.pageSize = i * p.idealSlot + (i + 1) * p.pageSize
    rw [Nat.mul_add, Nat.add_mul i 1, Nat.one_mul, Nat.add_assoc]
  · rw [hs]
    refine ⟨i / 32, show i / 32 < (p.capacity + 31) / 32 by omega, ?_⟩
    have hi32 : i / 32 * 32 = i := by omega
    show i / 32 * (p.idealSlot * 32 + p.pageSize) + p.pageSize =
      i * p.idealSlot + (i / 32 + 1) * p.pageSize
    rw [Nat.mul_add, Nat.mul_comm p.idealSlot 32, ← Nat.mul_assoc, hi32, Nat.add_mul (i / 32) 1,
      Nat.one_mul, Nat.add_assoc]

end

/-! ## The geometry -/

structure Geometry (p : Params) (base : Nat) (pool : ContextPool) : Prop where
  slots_apart : ∀ i < p.capacity, ∀ j < p.capacity, i ≠ j →
    Disjoint (pool.slot p i) (pool.slot p j)
  guards_apart : ∀ i < p.capacity, ∀ a ∈ guardPtrs p base,
    Disjoint (pool.slot p i) (block a p.pageSize)
  mapped : ∀ i < p.capacity, pool.slot p i ⊆ block base pool.totalSize
  context_aligned : ∀ i < p.capacity, 64 ∣ pool.getContextPtr i
  context_inside : ∀ i < p.capacity, pool.context p i ⊆ pool.slot p i
  buffer_ends : ∀ i < p.capacity, pool.readBufferPtr i + readBufferSize = pool.getContextPtr i
  stack_fits : ∀ i < p.capacity, pool.slotBase p i + p.stackSize ≤ pool.readBufferPtr i
  guarded : ∀ i < p.capacity, p.guarded i →
    ∃ a ∈ guardPtrs p base, a + p.pageSize = pool.slotBase p i

/-- **Arena geometry.** For every capacity, stack size, safety level, page size, size of a
`FiberContext` and page-aligned base for which the arena fits into the address space. -/
theorem arena_geometry {p : Params} {base : Nat} (h : p.Fits base) :
    Geometry p base (.new p base) where
  slots_apart i hi j hj hne := slots_disjoint h hi hj hne
  guards_apart i hi a ha := by
    obtain ⟨g, hg, rfl⟩ := (mem_guardPtrs h).mp ha
    rw [slot_eq h hi]
    rcases guard_apart p hg i with hle | hle
    · exact (disjoint_of_le (by omega)).symm
    · exact disjoint_of_le (by omega)
  mapped i hi := by
    have hle := offset_le p hi
    have htotal : (ContextPool.new p base).totalSize = (p.total p.idealSlot + 4096) % usizeMod := by
      show (p.total p.slotSize + 4096) % usizeMod = _
      rw [h.slotSize_eq]
    have hmod : (p.total p.idealSlot + 4096) % usizeMod = _ := Nat.mod_eq_of_lt h.total_lt
    rw [slot_eq h hi, htotal, hmod]
    exact block_subset (by omega) (by omega)
  context_aligned i hi := dvd_contextPtr h hi
  context_inside i hi := by
    obtain ⟨hstack, hcontext, -⟩ := slot_order h hi
    have hbuffer := readBufferPtr_eq h hi
    exact block_subset (by omega) hcontext
  buffer_ends i hi := readBufferPtr_eq h hi
  stack_fits i hi := (slot_order h hi).1
  guarded i hi hg := by
    obtain ⟨g, hlt, heq⟩ := guard_below p hi hg
    refine ⟨base + p.guardOffset g, (mem_guardPtrs h).mpr ⟨g, hlt, rfl⟩, ?_⟩
    rw [slotBase_eq h hi, ← heq, Nat.add_assoc]

/-- Two groups, the second one with a single slot. -/
def partialGroup : Params := ⟨33, 65536, .safety1, 4096, 1472⟩

theorem partialGroup_fits : partialGroup.Fits 1048576 :=
  ⟨by decide, ⟨12, rfl⟩, by decide, by decide, by decide, by decide⟩

theorem arena_geometry_partialGroup : Geometry partialGroup 1048576 (.new partialGroup 1048576) :=
  arena_geometry partialGroup_fits

end Dtact.Arena
