import Dtact.Pool.Placement

/-!
# The stack bounds of a new fiber on Windows

The initial registers of a fiber also hold the base, the limit and the deallocation stack of the
thread information block. The Rust entry points compute the lower end of the slot from the end of
the context; the entry points for C subtract the size of the slot from its beginning, and get an
address below the slot.
-/

namespace Dtact.Arena

open Align

inductive Arch
  | x86_64
  | aarch64
deriving DecidableEq, Repr

/-- The initial stack pointer and the bounds in the initial registers: `gprs` 0, 10, 11 and 12 on
x86-64, and 12 to 15 on aarch64. -/
structure StackBounds where
  stackPtr : Nat
  stackBase : Nat
  stackLimit : Nat
  deallocationStack : Nat
deriving DecidableEq, Repr

/-- The functions that start a fiber. A future has a size and an alignment. -/
inductive EntryPoint
  | spawn (futSize align : Nat)
  | spawnWithStack
  | dtactFiberLaunch
  | dtactFiberLaunchExt
  | dtactFiberLaunchWithCleanup
  | dtactFiberLaunchWithCleanupExt
deriving DecidableEq, Repr

namespace ContextPool

/-- `slot_base` of `SpawnBuilder::spawn` and `fiber::spawn_with_stack`. -/
def slotBottom (pool : ContextPool) (p : Params) (index : Nat) : Nat :=
  wrappingAdd (pool.getContextPtr index) p.contextSz - pool.slotSize

/-- `stack_limit` of `SpawnBuilder::spawn`: the future, or the end of the buffer. -/
def futureLimit (pool : ContextPool) (index futSize align : Nat) : Nat :=
  if (pool.spawn index futSize align).isInline then (pool.spawn index futSize align).futAddr
  else wrappingAdd (pool.readBufferPtr index) readBufferSize

/-- The bounds of `SpawnBuilder::spawn`. -/
def spawnBounds (pool : ContextPool) (p : Params) (arch : Arch) (index futSize align : Nat) :
    StackBounds where
  stackPtr :=
    match arch with
    | .x86_64 => (pool.spawn index futSize align).stackTop
    | .aarch64 => down 64 (pool.futureLimit index futSize align) 16
  stackBase := pool.futureLimit index futSize align
  stackLimit := pool.slotBottom p index
  deallocationStack := pool.slotBottom p index

/-- The bounds of `fiber::spawn_with_stack`, which has one formula for both. -/
def closureBounds (pool : ContextPool) (p : Params) (index : Nat) : StackBounds where
  stackPtr := pool.closureStackTop index
  stackBase := pool.readBufferPtr index
  stackLimit := pool.slotBottom p index
  deallocationStack := pool.slotBottom p index

/-- The bounds of the entry points for C. -/
def launchBounds (pool : ContextPool) (arch : Arch) (index : Nat) : StackBounds where
  stackPtr :=
    match arch with
    | .x86_64 => wrappingSub (down 64 (pool.getContextPtr index) 16) 72
    | .aarch64 => wrappingSub (down 64 (pool.getContextPtr index) 16) 80
  stackBase := pool.getContextPtr index
  stackLimit := pool.getContextPtr index - pool.slotSize
  deallocationStack := pool.getContextPtr index - pool.slotSize

def bounds (pool : ContextPool) (p : Params) (arch : Arch) (index : Nat) :
    EntryPoint → StackBounds
  | .spawn futSize align => pool.spawnBounds p arch index futSize align
  | .spawnWithStack => pool.closureBounds p index
  | .dtactFiberLaunch => pool.launchBounds arch index
  | .dtactFiberLaunchExt => pool.launchBounds arch index
  | .dtactFiberLaunchWithCleanup => pool.launchBounds arch index
  | .dtactFiberLaunchWithCleanupExt => pool.launchBounds arch index

end ContextPool

/-- The recorded stack is inside the slot, below the context, and the stack pointer in it. -/
structure InSlot (p : Params) (pool : ContextPool) (index : Nat) (b : StackBounds) : Prop where
  limit : pool.slotBase p index ≤ b.stackLimit
  deallocation : pool.slotBase p index ≤ b.deallocationStack
  base : b.stackBase ≤ pool.getContextPtr index
  limit_le : b.stackLimit ≤ b.stackPtr
  deallocation_le : b.deallocationStack ≤ b.stackPtr
  le_base : b.stackPtr ≤ b.stackBase

/-- The bytes of a slot below its read buffer. -/
def Params.stackRoom (p : Params) : Nat := p.slotSize - p.contextSz - readBufferSize

section

variable {p : Params} {base i : Nat}

theorem slotBottom_eq (h : p.Fits base) (hi : i < p.capacity) :
    (ContextPool.new p base).slotBottom p i = (ContextPool.new p base).slotBase p i := by
  have hparts := h.parts_le
  have hend := h.offset_lt_two_pow hi
  have hsum : (ContextPool.new p base).getContextPtr i + p.contextSz < 2 ^ 64 := by
    rw [contextPtr_eq h hi, h.contextSz_eq]
    omega
  unfold ContextPool.slotBottom
  rw [wrappingAdd_eq hsum]
  rfl

/-- The slot begins with the stack, and the read buffer follows. -/
theorem readBufferPtr_eq_add (h : p.Fits base) (hi : i < p.capacity) :
    (ContextPool.new p base).readBufferPtr i =
      (ContextPool.new p base).slotBase p i + p.stackRoom := by
  have hparts := h.parts_le
  have hbuffer := readBufferPtr_eq h hi
  rw [contextPtr_eq h hi] at hbuffer
  rw [slotBase_eq h hi, Params.stackRoom, h.slotSize_eq, h.contextSz_eq]
  omega

theorem slotBase_pos (h : p.Fits base) (hbase : 0 < base) (hi : i < p.capacity) :
    0 < (ContextPool.new p base).slotBase p i := by
  rw [slotBase_eq h hi]
  exact Nat.add_pos_left hbase _

theorem dvd_slotBase (h : p.Fits base) (hi : i < p.capacity) :
    64 ∣ (ContextPool.new p base).slotBase p i := by
  have hpage := h.dvd_page
  rw [slotBase_eq h hi]
  exact Nat.dvd_add (hpage.trans h.aligned) (hpage.trans (dvd_offset p i))

/-- The room for the stack is a multiple of 64, as both ends are. -/
theorem dvd_stackRoom (h : p.Fits base) (hi : i < p.capacity) : 64 ∣ p.stackRoom := by
  have hbuffer := dvd_readBufferPtr h hi
  rw [readBufferPtr_eq_add h hi] at hbuffer
  exact (Nat.dvd_add_right (dvd_slotBase h hi)).mp hbuffer

/-- With the base of the slot as the lower end, it is the stack pointer that matters. -/
theorem inSlot_iff {pool : ContextPool} {b : StackBounds}
    (hlimit : b.stackLimit = pool.slotBase p i) (hdealloc : b.deallocationStack = b.stackLimit)
    (hbase : b.stackBase ≤ pool.getContextPtr i) :
    InSlot p pool i b ↔ pool.slotBase p i ≤ b.stackPtr ∧ b.stackPtr ≤ b.stackBase := by
  constructor
  · intro h
    exact ⟨hlimit ▸ h.limit_le, h.le_base⟩
  · rintro ⟨hlo, hhi⟩
    rw [← hlimit] at hlo
    exact ⟨hlimit.ge, (hdealloc.trans hlimit).ge, hbase, hlo, hdealloc ▸ hlo, hhi⟩

/-! ## `SpawnBuilder::spawn` -/

/-- The stack of a future begins in the buffer, at the future or at the end. -/
theorem futureLimit_spec (h : p.Fits base) (hi : i < p.capacity) {k size : Nat} (hk : k < 64)
    (hsize : size ≤ (ContextPool.new p base).readBufferPtr i + readBufferSize) :
    (ContextPool.new p base).readBufferPtr i ≤
      (ContextPool.new p base).futureLimit i size (2 ^ k) ∧
    (ContextPool.new p base).futureLimit i size (2 ^ k) ≤
      (ContextPool.new p base).getContextPtr i ∧
    (((ContextPool.new p base).spawn i size (2 ^ k)).isInline = false →
      (ContextPool.new p base).futureLimit i size (2 ^ k) =
        (ContextPool.new p base).getContextPtr i) := by
  have hlt := readBufferPtr_lt h hi
  have hbuffer := readBufferPtr_eq h hi
  obtain ⟨limit, hlo, hhi, -, hinline⟩ := placeFuture_spec hlt hk hsize
  unfold ContextPool.futureLimit
  rw [wrappingAdd_eq hlt, hbuffer]
  cases hin : ((ContextPool.new p base).spawn i size (2 ^ k)).isInline with
  | false => exact ⟨by simp; omega, by simp, by simp⟩
  | true =>
    obtain ⟨heq, -, -⟩ := hinline hin
    have hfut : ((ContextPool.new p base).spawn i size (2 ^ k)).futAddr = limit := heq.symm
    simp only [hfut, if_true]
    exact ⟨hlo, by omega, fun hfalse => by cases hfalse⟩

/-- There is room for the return address below the future. -/
def FutureRoom (p : Params) (pool : ContextPool) (index : Nat) (arch : Arch)
    (futSize align : Nat) : Prop :=
  arch = .aarch64 ∨ 0 < p.stackRoom ∨
    ((pool.spawn index futSize align).isInline = true →
      pool.readBufferPtr index + 16 ≤ (pool.spawn index futSize align).futAddr)

/-- The stack limit, rounded down, is in the buffer as well. -/
theorem down_futureLimit (h : p.Fits base) (hi : i < p.capacity) {limit : Nat}
    (hlo : (ContextPool.new p base).readBufferPtr i ≤ limit)
    (hhi : limit ≤ (ContextPool.new p base).getContextPtr i) :
    16 ∣ down 64 limit 16 ∧ down 64 limit 16 ≤ limit ∧
      (ContextPool.new p base).readBufferPtr i ≤ down 64 limit 16 ∧
      ((ContextPool.new p base).readBufferPtr i + 16 ≤ limit →
        (ContextPool.new p base).readBufferPtr i + 16 ≤ down 64 limit 16) := by
  have hctx := readBufferPtr_lt h hi
  rw [readBufferPtr_eq h hi] at hctx
  have hlt : limit < 2 ^ 64 := hhi.trans_lt hctx
  have h16 : 2 ^ 4 ∣ (ContextPool.new p base).readBufferPtr i :=
    (by decide : 2 ^ 4 ∣ 64).trans (dvd_readBufferPtr h hi)
  exact ⟨dvd_down (k := 4) hlt (by decide), down_le (k := 4) hlt (by decide),
    le_down (k := 4) hlt (by decide) h16 hlo,
    le_down (k := 4) hlt (by decide) (Nat.dvd_add h16 (by decide))⟩

theorem spawnBounds_inSlot_iff (h : p.Fits base) (hbase : 0 < base) (hi : i < p.capacity)
    {k size : Nat} (hk : k < 64)
    (hsize : size ≤ (ContextPool.new p base).readBufferPtr i + readBufferSize) (arch : Arch) :
    InSlot p (.new p base) i ((ContextPool.new p base).spawnBounds p arch i size (2 ^ k)) ↔
      FutureRoom p (.new p base) i arch size (2 ^ k) := by
  obtain ⟨hlo, hhi, hheap⟩ := futureLimit_spec h hi hk hsize
  obtain ⟨⟨q, hq⟩, hdown, hge, hnext⟩ := down_futureLimit h hi hlo hhi
  have hpos := slotBase_pos h hbase hi
  have hroom := readBufferPtr_eq_add h hi
  rw [inSlot_iff (slotBottom_eq h hi) rfl hhi]
  unfold FutureRoom
  cases arch with
  | aarch64 => exact ⟨fun _ => .inl rfl, fun _ => ⟨(hroom ▸ Nat.le_add_right ..).trans hge, hdown⟩⟩
  | x86_64 =>
    have hlt : down 64 ((ContextPool.new p base).futureLimit i size (2 ^ k)) 16 < usizeMod := by
      have hctx := readBufferPtr_lt h hi
      rw [readBufferPtr_eq h hi] at hctx
      exact (hdown.trans hhi).trans_lt hctx
    have h8 : 8 ≤ down 64 ((ContextPool.new p base).futureLimit i size (2 ^ k)) 16 := by omega
    have htop : ((ContextPool.new p base).spawnBounds p .x86_64 i size (2 ^ k)).stackPtr =
        down 64 ((ContextPool.new p base).futureLimit i size (2 ^ k)) 16 - 8 :=
      wrappingSub_eq h8 hlt
    have hfut : ((ContextPool.new p base).spawn i size (2 ^ k)).isInline = true →
        (ContextPool.new p base).futureLimit i size (2 ^ k) =
          ((ContextPool.new p base).spawn i size (2 ^ k)).futAddr := fun hin => if_pos hin
    obtain ⟨r, hr⟩ := dvd_stackRoom h hi
    obtain ⟨b, hb⟩ := dvd_slotBase h hi
    have hctx := readBufferPtr_eq h hi
    unfold readBufferSize at hctx
    rw [htop]
    constructor
    · rintro ⟨hle, -⟩
      refine .inr (or_iff_not_imp_left.mpr fun hnone hin => ?_)
      rw [← hfut hin]
      omega
    · intro hcond
      refine ⟨?_, (Nat.sub_le ..).trans hdown⟩
      rcases hcond with hcond | hcond | hcond
      · cases hcond
      · omega
      · -- the limit is 16 bytes into the buffer
        have hroomy := hnext (by
          cases hin : ((ContextPool.new p base).spawn i size (2 ^ k)).isInline with
          | true => exact (hcond hin).trans (hfut hin).ge
          | false =>
            rw [hheap hin]
            omega)
        omega

/-! ## The other entry points -/

theorem closureBounds_inSlot_iff (h : p.Fits base) (hi : i < p.capacity) :
    InSlot p (.new p base) i ((ContextPool.new p base).closureBounds p i) ↔
      72 ≤ p.stackRoom := by
  have hlt := readBufferPtr_lt h hi
  have hroom := readBufferPtr_eq_add h hi
  have hle : (ContextPool.new p base).readBufferPtr i ≤ (ContextPool.new p base).getContextPtr i :=
    (Nat.le_add_right ..).trans (readBufferPtr_eq h hi).le
  rw [inSlot_iff (slotBottom_eq h hi) rfl hle]
  show _ ≤ (ContextPool.new p base).closureStackTop i ∧
    (ContextPool.new p base).closureStackTop i ≤ (ContextPool.new p base).readBufferPtr i ↔ _
  rcases closureStackTop_cases h hi with ⟨hge, htop⟩ | ⟨hsmall, htop⟩
  · constructor
    · rintro ⟨hlo, -⟩
      omega
    · intro h72
      exact ⟨by omega, by omega⟩
  · -- no memory below the buffer: the stack pointer has wrapped around
    constructor
    · rintro ⟨-, hhi⟩
      unfold readBufferSize at hlt
      omega
    · intro h72
      omega

/-- The lower end that is recorded for C functions is below the slot. -/
theorem launchBounds_not_inSlot (h : p.Fits base) (hbase : 0 < base)
    (hcontext : 0 < p.contextBytes) (hi : i < p.capacity) (arch : Arch) :
    ¬ InSlot p (.new p base) i ((ContextPool.new p base).launchBounds arch i) := by
  intro hin
  have hlimit : (ContextPool.new p base).slotBase p i ≤
      (ContextPool.new p base).getContextPtr i - (ContextPool.new p base).slotSize := hin.limit
  have hpos := slotBase_pos h hbase hi
  have hbytes : 0 < p.contextSz := by
    rw [h.contextSz_eq]
    exact hcontext.trans_le (Params.Fits.contextBytes_le p)
  unfold ContextPool.slotBase at hlimit hpos
  omega

/-! ## All entry points -/

/-- A future has the size and the alignment of a type. -/
def EntryPoint.Sized (pool : ContextPool) (index : Nat) : EntryPoint → Prop
  | .spawn futSize align =>
    futSize ≤ pool.readBufferPtr index + readBufferSize ∧ ∃ k < 64, align = 2 ^ k
  | _ => True

/-- The entry point is not one for C, and there is room for what it puts on the stack. -/
def EntryPoint.HasRoom (p : Params) (pool : ContextPool) (index : Nat) (arch : Arch) :
    EntryPoint → Prop
  | .spawn futSize align => FutureRoom p pool index arch futSize align
  | .spawnWithStack => 72 ≤ p.stackRoom
  | .dtactFiberLaunch | .dtactFiberLaunchExt | .dtactFiberLaunchWithCleanup
  | .dtactFiberLaunchWithCleanupExt => False

/-- **Stack bounds.** For every geometry, context and entry point, on both architectures: the
recorded bounds are inside the slot, with the stack pointer between them, if and only if the entry
point is not one for C and there is room for what it puts on the stack. -/
theorem windows_bounds_iff (h : p.Fits base) (hbase : 0 < base) (hcontext : 0 < p.contextBytes)
    (hi : i < p.capacity) (arch : Arch) {entry : EntryPoint}
    (hsized : entry.Sized (.new p base) i) :
    InSlot p (.new p base) i ((ContextPool.new p base).bounds p arch i entry) ↔
      entry.HasRoom p (.new p base) i arch := by
  cases entry with
  | spawn futSize align =>
    obtain ⟨hsize, k, hk, rfl⟩ := hsized
    exact spawnBounds_inSlot_iff h hbase hi hk hsize arch
  | spawnWithStack => exact closureBounds_inSlot_iff h hi
  | dtactFiberLaunch | dtactFiberLaunchExt | dtactFiberLaunchWithCleanup
  | dtactFiberLaunchWithCleanupExt =>
    exact iff_of_false (launchBounds_not_inSlot h hbase hcontext hi arch) id

end

theorem windows_bounds_iff_partialGroup :
    InSlot partialGroup (.new partialGroup 1048576) 32
      ((ContextPool.new partialGroup 1048576).bounds partialGroup .x86_64 32 (.spawn 100 (2 ^ 7))) ∧
    InSlot partialGroup (.new partialGroup 1048576) 32
      ((ContextPool.new partialGroup 1048576).bounds partialGroup .aarch64 32 .spawnWithStack) := by
  have hsized : (EntryPoint.spawn 100 (2 ^ 7)).Sized (.new partialGroup 1048576) 32 :=
    ⟨by decide, 7, by decide, rfl⟩
  have hroom : 72 ≤ partialGroup.stackRoom := by decide
  constructor
  · refine (windows_bounds_iff partialGroup_fits (by decide) (by decide) (by decide) _
      hsized).mpr ?_
    exact .inr (.inl (Nat.zero_lt_of_lt hroom))
  · refine (windows_bounds_iff partialGroup_fits (by decide) (by decide) (by decide) _
      ?_).mpr hroom
    trivial

/-- `dtact_fiber_launch` in the second slot of the arena: the recorded stack begins in the first
one, 1472 bytes below its own. -/
theorem launch_limit_in_other_slot :
    ((ContextPool.new partialGroup 1048576).bounds partialGroup .x86_64 1
      .dtactFiberLaunch).stackLimit + 1472 =
      (ContextPool.new partialGroup 1048576).slotBase partialGroup 1 ∧
    ((ContextPool.new partialGroup 1048576).bounds partialGroup .x86_64 1
      .dtactFiberLaunch).stackLimit ∈
        (ContextPool.new partialGroup 1048576).slot partialGroup 0 ∧
    ¬ InSlot partialGroup (.new partialGroup 1048576) 1
      ((ContextPool.new partialGroup 1048576).bounds partialGroup .x86_64 1 .dtactFiberLaunch) :=
  ⟨by decide, ⟨by decide, by decide⟩,
    launchBounds_not_inSlot partialGroup_fits (by decide) (by decide) (by decide) .x86_64⟩

end Dtact.Arena
