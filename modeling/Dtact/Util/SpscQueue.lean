import Mathlib.Data.Nat.Bitwise
import Dtact.Lib.Circular
import Dtact.Words

/-!
# `SpscQueue`

The ring between one producer and one consumer. `head` and `tail` are counters that wrap around at
`2 ^ 64`. `push_slice` and `pop_slice` load the two counters, copy a run of elements, in two pieces
when it crosses the end of the array, and publish it with one store. The functions here are what
happens between the atomic operations; `Ring` connects the words with the positions they stand for
and with the elements between them.
-/

namespace Dtact

structure SpscQueue (T : Type) where
  head : Nat
  tail : Nat
  buffer : Nat → T
  capacity : Nat

namespace SpscQueue

open Circular

variable {T : Type}

/-- The cells of a new queue hold whatever is in memory. -/
def new (capacity : Nat) (uninit : Nat → T) : SpscQueue T := ⟨0, 0, uninit, capacity⟩

def mask (q : SpscQueue T) : Nat := q.capacity - 1

/-- `to_push` in `push_slice`, for a source of length `len`. -/
def toPush (q : SpscQueue T) (tail len : Nat) : Nat :=
  min (wrappingSub q.capacity (wrappingSub tail q.head)) len

/-- The copies of `push_slice`. -/
def copyIn (q : SpscQueue T) (tail : Nat) (src : List T) : SpscQueue T :=
  { q with buffer := Circular.copyIn q.capacity q.buffer (tail &&& q.mask) src }

/-- `to_pop` in `pop_slice`, for a destination of length `len`. -/
def toPop (q : SpscQueue T) (head len : Nat) : Nat := min (wrappingSub q.tail head) len

/-- The copies of `pop_slice`. -/
def copyOut (q : SpscQueue T) (head n : Nat) : List T :=
  Circular.copyOut q.capacity q.buffer (head &&& q.mask) n

/-- The queue holds `contents`, the first of them at position `pos`. -/
structure Ring (q : SpscQueue T) (pos : Nat) (contents : List T) : Prop where
  powerOfTwo : ∃ k ≤ 63, q.capacity = 2 ^ k
  head : q.head = pos % usizeMod
  tail : q.tail = (pos + contents.length) % usizeMod
  bounded : contents.length ≤ q.capacity
  holds : Holds q.capacity q.buffer pos contents

variable {q : SpscQueue T} {pos n : Nat} {contents : List T}

theorem Ring.capacity_lt (h : Ring q pos contents) : q.capacity < usizeMod := by
  obtain ⟨k, hk, hcap⟩ := h.powerOfTwo
  rw [hcap]
  exact Nat.pow_lt_pow_right (by decide) (by omega)

/-- The lower bits of a counter are the cell of its position, also after it has wrapped around. -/
theorem Ring.and_mask (h : Ring q pos contents) (p : Nat) :
    (p % usizeMod) &&& q.mask = p % q.capacity := by
  obtain ⟨k, hk, hcap⟩ := h.powerOfTwo
  rw [mask, hcap, Nat.and_two_pow_sub_one_eq_mod]
  exact Nat.mod_mod_of_dvd p (pow_dvd_pow 2 (by omega))

theorem Ring.new {capacity k : Nat} (hk : k ≤ 63) (hcap : capacity = 2 ^ k) (uninit : Nat → T) :
    Ring (SpscQueue.new capacity uninit) 0 [] where
  powerOfTwo := ⟨k, hk, hcap⟩
  head := rfl
  tail := rfl
  bounded := Nat.zero_le _
  holds := fun _ hk => absurd hk (Nat.not_lt_zero _)

section

variable (h : Ring q pos contents)

include h

theorem Ring.avail : wrappingSub q.tail (pos % usizeMod) = contents.length := by
  have hcap := h.capacity_lt
  have hlen := h.bounded
  rw [h.tail, wrappingSub_mod (Nat.le_add_right _ _) (by omega), Nat.add_sub_cancel_left]

theorem Ring.free :
    wrappingSub q.capacity (wrappingSub ((pos + contents.length) % usizeMod) q.head) =
      q.capacity - contents.length := by
  have hcap := h.capacity_lt
  rw [← h.tail, h.head, h.avail, wrappingSub_eq h.bounded hcap]

theorem Ring.copyIn (src : List T) (hfree : contents.length + src.length ≤ q.capacity) :
    Ring (q.copyIn ((pos + contents.length) % usizeMod) src) pos contents ∧
      Holds q.capacity (q.copyIn ((pos + contents.length) % usizeMod) src).buffer
        (pos + contents.length) src := by
  simp only [SpscQueue.copyIn, h.and_mask]
  exact ⟨{ h with holds := h.holds.copyIn_other le_rfl (by omega) }, Holds.copyIn (by omega)⟩

theorem Ring.publish {src : List T} (hfree : contents.length + src.length ≤ q.capacity)
    (hsrc : Holds q.capacity q.buffer (pos + contents.length) src) :
    Ring { q with tail := wrappingAdd ((pos + contents.length) % usizeMod) src.length } pos
      (contents ++ src) where
  powerOfTwo := h.powerOfTwo
  head := h.head
  tail := by rw [wrappingAdd_mod, List.length_append, Nat.add_assoc]
  bounded := List.length_append ▸ hfree
  holds := h.holds.append hsrc

theorem Ring.copyOut (hn : n ≤ contents.length) :
    q.copyOut (pos % usizeMod) n = contents.take n := by
  rw [SpscQueue.copyOut, h.and_mask]
  exact h.holds.copyOut hn (hn.trans h.bounded)

theorem Ring.consume (hn : n ≤ contents.length) :
    Ring { q with head := wrappingAdd (pos % usizeMod) n } (pos + n) (contents.drop n) where
  powerOfTwo := h.powerOfTwo
  head := wrappingAdd_mod pos n
  tail := by
    rw [h.tail, List.length_drop]
    congr 1
    omega
  bounded := List.length_drop ▸ (Nat.sub_le _ _).trans h.bounded
  holds := h.holds.drop n

end

end SpscQueue

end Dtact
