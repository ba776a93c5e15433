import Dtact.Pool.Arena

/-!
# Where a new fiber is put

`SpawnBuilder::spawn` puts the future at the upper end of the read buffer, or on the heap if it does
not fit, and starts the stack below it. `fiber::spawn_with_stack` puts its closure at the lower end
of the buffer, whatever its size and alignment. The addresses are those for x86-64.
-/

namespace Dtact.Arena

open Align

/-! ## `SpawnBuilder::spawn` -/

/-- What `SpawnBuilder::spawn` computes. -/
structure Placement where
  isInline : Bool
  futAddr : Nat
  stackTop : Nat

/-- The placement of a future of the given size and alignment, for the buffer at `bufferStart`. -/
def placeFuture (bufferStart futSize align : Nat) : Placement :=
  let bufferEnd := wrappingAdd bufferStart readBufferSize
  let alignedFutAddr := down 64 (wrappingSub bufferEnd futSize) align
  let isInline :=
    !decide (alignedFutAddr < bufferStart ∨ wrappingAdd alignedFutAddr futSize > bufferEnd)
  let stackLimit := if isInline then alignedFutAddr else bufferEnd
  ⟨isInline, alignedFutAddr, wrappingSub (down 64 stackLimit 16) 8⟩

def ContextPool.spawn (pool : ContextPool) (index futSize align : Nat) : Placement :=
  placeFuture (pool.readBufferPtr index) futSize align

/-- The future and the stack of a new fiber are where they belong. -/
structure PlacedSafely (p : Params) (pool : ContextPool) (index futSize align : Nat)
    (placed : Placement) : Prop where
  future_aligned : placed.isInline → align ∣ placed.futAddr
  future_inside : placed.isInline → block placed.futAddr futSize ⊆ pool.readBuffer index
  future_apart : placed.isInline → Disjoint (block placed.futAddr futSize) (pool.context p index)
  stack_aligned : placed.stackTop % 16 = 8
  poison_inside : block placed.stackTop 8 ⊆ pool.slot p index
  below_future : placed.isInline → placed.stackTop + 8 ≤ placed.futAddr
  below_context : placed.stackTop + 8 ≤ pool.getContextPtr index
  room : pool.slotBase p index + (p.stackSize - 16) ≤ placed.stackTop

section

variable {p : Params} {base i : Nat}

/-- The read buffer is as aligned as the context above it. -/
theorem dvd_readBufferPtr (h : p.Fits base) (hi : i < p.capacity) :
    64 ∣ (ContextPool.new p base).readBufferPtr i := by
  have hdvd := dvd_contextPtr h hi
  rw [← readBufferPtr_eq h hi] at hdvd
  exact (Nat.dvd_add_left (by decide)).mp hdvd

/-- The buffer ends below the end of the arena. -/
theorem readBufferPtr_lt (h : p.Fits base) (hi : i < p.capacity) :
    (ContextPool.new p base).readBufferPtr i + readBufferSize < 2 ^ 64 := by
  obtain ⟨-, hcontext, hend⟩ := slot_order h hi
  have hbuffer := readBufferPtr_eq h hi
  omega

/-- The future is put as high in the buffer as it can be, and the stack begins below it or, if it
is not there, at the end of the buffer. -/
theorem placeFuture_spec {b k size : Nat} (hb : b + readBufferSize < 2 ^ 64) (hk : k < 64)
    (hsize : size ≤ b + readBufferSize) :
    ∃ limit, b ≤ limit ∧ limit ≤ b + readBufferSize ∧
      (placeFuture b size (2 ^ k)).stackTop = wrappingSub (down 64 limit 16) 8 ∧
      ((placeFuture b size (2 ^ k)).isInline → limit = (placeFuture b size (2 ^ k)).futAddr ∧
        2 ^ k ∣ limit ∧ limit + size ≤ b + readBufferSize) := by
  have hlt : b + readBufferSize - size < 2 ^ 64 := by omega
  have hdown := down_le hlt hk.le
  have hdvd := dvd_down hlt hk.le
  have hadd : wrappingAdd b readBufferSize = b + readBufferSize := wrappingAdd_eq hb
  have hsub : wrappingSub (b + readBufferSize) size = b + readBufferSize - size :=
    wrappingSub_eq hsize hb
  unfold placeFuture
  simp only [hadd, hsub]
  generalize down 64 (b + readBufferSize - size) (2 ^ k) = fut at hdown hdvd ⊢
  have hsum : wrappingAdd fut size = fut + size := wrappingAdd_eq (by omega)
  rw [hsum]
  by_cases hin : fut < b ∨ fut + size > b + readBufferSize
  · exact ⟨b + readBufferSize, by omega, le_rfl, by simp [hin], by simp [hin]⟩
  · refine ⟨fut, by omega, by omega, by simp [hin], fun _ => ⟨rfl, hdvd, by omega⟩⟩

/-- **Futures are placed safely.** For every future size and alignment and every slot of an arena
with stacks of at least 16 bytes. -/
theorem future_placed_safely (h : p.Fits base) (hstack : 16 ≤ p.stackSize) (hi : i < p.capacity)
    {k size : Nat} (hk : k < 64)
    (hsize : size ≤ (ContextPool.new p base).readBufferPtr i + readBufferSize) :
    PlacedSafely p (.new p base) i size (2 ^ k)
      ((ContextPool.new p base).spawn i size (2 ^ k)) := by
  obtain ⟨limit, hlo, hhi, htop, hinline⟩ :=
    placeFuture_spec (readBufferPtr_lt h hi) hk hsize
  obtain ⟨hstackFits, hcontext, -⟩ := slot_order h hi
  have hbuffer := readBufferPtr_eq h hi
  have hlimit : limit < 2 ^ 64 := hhi.trans_lt (readBufferPtr_lt h hi)
  -- rounding the limit down stays above the stack, as the buffer is aligned
  have h16 : 2 ^ 4 ∣ (ContextPool.new p base).readBufferPtr i :=
    (by decide : 2 ^ 4 ∣ 64).trans (dvd_readBufferPtr h hi)
  have hle : down 64 limit 16 ≤ limit := down_le (k := 4) hlimit (by decide)
  have hge : (ContextPool.new p base).readBufferPtr i ≤ down 64 limit 16 :=
    le_down (k := 4) hlimit (by decide) h16 hlo
  obtain ⟨q, hq⟩ : 16 ∣ down 64 limit 16 := dvd_down (k := 4) hlimit (by decide)
  have hsub : wrappingSub (down 64 limit 16) 8 = down 64 limit 16 - 8 :=
    wrappingSub_eq (by omega) (hle.trans_lt hlimit)
  rw [hsub] at htop
  generalize down 64 limit 16 = top at hle hge hq htop
  unfold ContextPool.spawn
  refine ⟨fun hin => ?_, fun hin => ?_, fun hin => ?_, by omega, ?_, fun hin => ?_, by omega,
    by omega⟩
  · obtain ⟨heq, hdvd, -⟩ := hinline hin
    rwa [← heq]
  · obtain ⟨heq, -, hfits⟩ := hinline hin
    rw [← heq]
    exact block_subset hlo hfits
  · obtain ⟨heq, -, hfits⟩ := hinline hin
    rw [← heq]
    exact disjoint_of_le (hfits.trans hbuffer.le)
  · exact block_subset (by omega) (by omega)
  · rw [← (hinline hin).1]
    omega

end

/-- A future of 100 bytes with alignment 128, and one that does not fit. -/
theorem future_placed_safely_partialGroup :
    ((ContextPool.new partialGroup 1048576).spawn 32 100 128).isInline ∧
    PlacedSafely partialGroup (.new partialGroup 1048576) 32 100 (2 ^ 7)
      ((ContextPool.new partialGroup 1048576).spawn 32 100 (2 ^ 7)) ∧
    ¬ ((ContextPool.new partialGroup 1048576).spawn 32 9000 1).isInline ∧
    PlacedSafely partialGroup (.new partialGroup 1048576) 32 9000 (2 ^ 0)
      ((ContextPool.new partialGroup 1048576).spawn 32 9000 (2 ^ 0)) :=
  ⟨by decide,
    future_placed_safely partialGroup_fits (by decide) (by decide) (by decide) (by decide),
    by decide,
    future_placed_safely partialGroup_fits (by decide) (by decide) (by decide) (by decide)⟩

/-! ## `fiber::spawn_with_stack` -/

namespace ContextPool

/-- Where `spawn_with_stack` writes the closure. -/
def closurePtr (pool : ContextPool) (index : Nat) : Nat := pool.readBufferPtr index

/-- Where it writes the return address. -/
def closureStackTop (pool : ContextPool) (index : Nat) : Nat :=
  let bufferStart := pool.readBufferPtr index
  wrappingSub (down 64 bufferStart 16) 72

def closure (pool : ContextPool) (index size : Nat) : Set Nat := block (pool.closurePtr index) size

def poison (pool : ContextPool) (index : Nat) : Set Nat := block (pool.closureStackTop index) 8

end ContextPool

/-- The closure is stored in the read buffer, or outside the slot, and the call overwrites nothing
of a context or of another slot. -/
structure ClosureSafe (p : Params) (pool : ContextPool) (index size align : Nat) : Prop where
  stored :
    (align ∣ pool.closurePtr index ∧ pool.closure index size ⊆ pool.readBuffer index ∧
      Disjoint (pool.closure index size) (pool.context p index) ∧
      Disjoint (pool.closure index size) (pool.poison index)) ∨
    pool.closurePtr index ∉ pool.slot p index
  context_kept : Disjoint (pool.closure index size ∪ pool.poison index) (pool.context p index)
  others_kept : ∀ j < p.capacity, j ≠ index →
    Disjoint (pool.closure index size ∪ pool.poison index) (pool.slot p j)

section

variable {p : Params} {base i : Nat}

/-- The return address is 72 bytes below the buffer, or, if there is no memory there, at the end of
the address space. -/
theorem closureStackTop_cases (h : p.Fits base) (hi : i < p.capacity) :
    72 ≤ (ContextPool.new p base).readBufferPtr i ∧
      (ContextPool.new p base).closureStackTop i + 72 = (ContextPool.new p base).readBufferPtr i ∨
    (ContextPool.new p base).readBufferPtr i < 72 ∧
      2 ^ 64 - 72 ≤ (ContextPool.new p base).closureStackTop i := by
  have hlt := readBufferPtr_lt h hi
  have hdown : down 64 ((ContextPool.new p base).readBufferPtr i) 16 =
      (ContextPool.new p base).readBufferPtr i :=
    down_of_dvd (k := 4) (by omega) (by decide)
      ((by decide : 2 ^ 4 ∣ 64).trans (dvd_readBufferPtr h hi))
  unfold ContextPool.closureStackTop
  simp only [hdown]
  generalize (ContextPool.new p base).readBufferPtr i = b at hlt ⊢
  unfold wrappingSub usizeMod
  omega

/-- The slots below leave room for the return address. -/
def PoisonRoom (p : Params) (pool : ContextPool) (index : Nat) : Prop :=
  ∀ j < index, pool.slotBase p j + pool.slotSize + 72 ≤ pool.readBufferPtr index

/-- A stack of 72 bytes is room enough. -/
theorem poisonRoom_of_stackSize (h : p.Fits base) (hi : i < p.capacity)
    (hstack : 72 ≤ p.stackSize) : PoisonRoom p (.new p base) i := by
  intro j hj
  have hbelow := slotBase_lt h hj hi
  have horder := (slot_order h hi).1
  omega

theorem size_le_of_subset {a size n : Nat} (h : block a size ⊆ block a n) : size ≤ n := by
  by_contra hlt
  have hmem : a + n ∈ block a size := ⟨Nat.le_add_right .., by omega⟩
  exact absurd (h hmem).2 (lt_irrefl _)

/-- **Closures.** For every closure size and alignment and every slot: the closure is placed safely
if and only if it fits into the read buffer, the address of the buffer has its alignment, and the
slots below leave room for the return address. -/
theorem closure_placed_iff (h : p.Fits base) (hi : i < p.capacity) (size k : Nat) :
    ClosureSafe p (.new p base) i size (2 ^ k) ↔
      size ≤ readBufferSize ∧ 2 ^ k ∣ (ContextPool.new p base).readBufferPtr i ∧
        PoisonRoom p (.new p base) i := by
  obtain ⟨hstack, hcontext, hend⟩ := slot_order h hi
  have hbuffer := readBufferPtr_eq h hi
  have htop := closureStackTop_cases h hi
  have hptr : (ContextPool.new p base).closurePtr i =
      (ContextPool.new p base).readBufferPtr i := rfl
  have hpos : 0 < readBufferSize := by decide
  constructor
  · intro hsafe
    have hin : (ContextPool.new p base).closurePtr i ∈ (ContextPool.new p base).slot p i :=
      ⟨by omega, by omega⟩
    obtain ⟨hdvd, hsub, -, -⟩ := hsafe.stored.resolve_right (not_not_intro hin)
    refine ⟨size_le_of_subset hsub, hdvd, fun j hj => ?_⟩
    -- otherwise the first byte of the return address belongs to a slot below
    by_contra hroom
    have hbelow := slotBase_lt h hj hi
    obtain ⟨hstack', hcontext', -⟩ := slot_order h (hj.trans hi)
    have hbuffer' := readBufferPtr_eq h (hj.trans hi)
    unfold readBufferSize at hbuffer'
    have hpoison : (ContextPool.new p base).closureStackTop i ∈
        (ContextPool.new p base).poison i := ⟨le_rfl, by omega⟩
    have hslot : (ContextPool.new p base).closureStackTop i ∈
        (ContextPool.new p base).slot p j := ⟨by omega, by omega⟩
    exact Set.disjoint_left.mp (hsafe.others_kept j (hj.trans hi) hj.ne) (.inr hpoison) hslot
  · rintro ⟨hsize, hdvd, hroom⟩
    have hclosure : (ContextPool.new p base).closure i size ⊆
        (ContextPool.new p base).readBuffer i := block_subset le_rfl (by omega)
    have hslot : (ContextPool.new p base).closure i size ⊆ (ContextPool.new p base).slot p i :=
      block_subset (by omega) (by omega)
    have hapart : Disjoint ((ContextPool.new p base).closure i size)
        ((ContextPool.new p base).context p i) :=
      disjoint_of_le (by omega)
    have hpoison : Disjoint ((ContextPool.new p base).poison i)
        ((ContextPool.new p base).context p i) := by
      rcases htop with ⟨-, htop⟩ | ⟨-, htop⟩
      · exact disjoint_of_le (by omega)
      · exact (disjoint_of_le (by omega)).symm
    refine ⟨.inl ⟨hdvd, hclosure, hapart, ?_⟩, ?_, fun j hj hne => ?_⟩
    · rcases htop with ⟨-, htop⟩ | ⟨-, htop⟩
      · exact (disjoint_of_le (by omega)).symm
      · exact disjoint_of_le (by omega)
    · exact Set.disjoint_union_left.mpr ⟨hapart, hpoison⟩
    · refine Set.disjoint_union_left.mpr
        ⟨(slots_disjoint h hi hj hne.symm).mono_left hslot, ?_⟩
      obtain ⟨-, -, hend'⟩ := slot_order h hj
      rcases htop with ⟨-, htop⟩ | ⟨-, htop⟩
      · rcases Nat.lt_or_gt_of_ne hne with hlt | hgt
        · have hbelow := hroom j hlt
          exact (disjoint_of_le (by omega)).symm
        · have habove := slotBase_lt h hgt hj
          exact disjoint_of_le (by omega)
      · exact (disjoint_of_le (by omega)).symm

end

theorem closure_placed_iff_small :
    ClosureSafe partialGroup (.new partialGroup 1048576) 1 64 (2 ^ 3) :=
  (closure_placed_iff partialGroup_fits (by decide) 64 3).mpr
    ⟨by decide, by decide, poisonRoom_of_stackSize partialGroup_fits (by decide) (by decide)⟩

/-- A closure of 8193 bytes overwrites the first byte of the context of its fiber. -/
theorem large_closure_overwrites_context :
    (ContextPool.new partialGroup 1048576).getContextPtr 0 ∈
      (ContextPool.new partialGroup 1048576).closure 0 8193 ∩
        (ContextPool.new partialGroup 1048576).context partialGroup 0 ∧
    ¬ ClosureSafe partialGroup (.new partialGroup 1048576) 0 8193 1 := by
  have hmem : (ContextPool.new partialGroup 1048576).getContextPtr 0 ∈
      (ContextPool.new partialGroup 1048576).closure 0 8193 ∩
        (ContextPool.new partialGroup 1048576).context partialGroup 0 :=
    ⟨⟨by decide, by decide⟩, by decide, by decide⟩
  exact ⟨hmem, fun hsafe =>
    Set.disjoint_left.mp hsafe.context_kept (.inl hmem.1) hmem.2⟩

/-- A closure with alignment 128 is written to an address that is a multiple of 64 only. -/
theorem overaligned_closure_misplaced :
    ¬ ClosureSafe partialGroup (.new partialGroup 1048576) 0 128 128 := by
  intro hsafe
  have hin : (ContextPool.new partialGroup 1048576).closurePtr 0 ∈
      (ContextPool.new partialGroup 1048576).slot partialGroup 0 := ⟨by decide, by decide⟩
  have hdvd := (hsafe.stored.resolve_right (not_not_intro hin)).1
  revert hdvd
  decide

end Dtact.Arena
