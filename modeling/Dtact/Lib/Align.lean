import Mathlib.Data.Nat.Bitwise
import Mathlib.Data.Set.Lattice
import Mathlib.Order.CompletePartialOrder
import Mathlib.Order.Interval.Set.Disjoint

/-!
# Alignment by masks

On words of `w` bits an address is rounded down to a multiple of a power of two by clearing its
low bits, `x & !(a - 1)`, and rounded up by adding `a - 1` first. The results say which numbers
the masks compute: `down_eq` and `up_eq`.

A block of memory is the half-open interval of its addresses.
-/

namespace Align

/-- `!x` on words of `w` bits. -/
def complement (w x : Nat) : Nat := 2 ^ w - 1 - x

/-- `x & !(a - 1)` -/
def down (w x a : Nat) : Nat := x &&& complement w (a - 1)

/-- `(x + a - 1) & !(a - 1)`, with operations that wrap around. -/
def up (w x a : Nat) : Nat := down w ((x + a + 2 ^ w - 1) % 2 ^ w) a

section

variable {w x k : Nat}

/-- The mask clears the low bits. -/
theorem down_eq (hx : x < 2 ^ w) (hk : k ≤ w) : down w x (2 ^ k) = x / 2 ^ k * 2 ^ k := by
  have hlt : 2 ^ k - 1 < 2 ^ w :=
    Nat.lt_of_lt_of_le (Nat.sub_lt (Nat.two_pow_pos k) Nat.one_pos)
      (Nat.pow_le_pow_right (by decide) hk)
  have hmask : complement w (2 ^ k - 1) = 2 ^ w - (2 ^ k - 1 + 1) := by
    unfold complement
    omega
  rw [← Nat.shiftRight_eq_div_pow, ← Nat.shiftLeft_eq, down, hmask]
  refine Nat.eq_of_testBit_eq fun i => ?_
  rw [Nat.testBit_and, Nat.testBit_two_pow_sub_succ hlt, Nat.testBit_two_pow_sub_one,
    Nat.testBit_shiftLeft, Nat.testBit_shiftRight]
  by_cases hi : k ≤ i
  · -- a bit that is kept; beyond the width there is none
    rw [Nat.add_sub_cancel' hi]
    by_cases hw : i < w
    · simp [hi, hw]
    · have hzero : x.testBit i = false :=
        Nat.testBit_lt_two_pow (hx.trans_le (Nat.pow_le_pow_right (by decide) (by omega)))
      simp [hzero]
  · simp [hi, Nat.lt_of_not_le hi]

theorem down_le (hx : x < 2 ^ w) (hk : k ≤ w) : down w x (2 ^ k) ≤ x := by
  rw [down_eq hx hk]
  exact Nat.div_mul_le_self ..

theorem dvd_down (hx : x < 2 ^ w) (hk : k ≤ w) : 2 ^ k ∣ down w x (2 ^ k) := by
  rw [down_eq hx hk]
  exact Nat.dvd_mul_left ..

/-- Nothing aligned fits between the address and the rounded one. -/
theorem le_down {y : Nat} (hx : x < 2 ^ w) (hk : k ≤ w) (hy : 2 ^ k ∣ y) (hle : y ≤ x) :
    y ≤ down w x (2 ^ k) := by
  obtain ⟨q, rfl⟩ := hy
  rw [down_eq hx hk, Nat.mul_comm]
  refine Nat.mul_le_mul_right _ ((Nat.le_div_iff_mul_le (Nat.two_pow_pos k)).mpr ?_)
  rwa [Nat.mul_comm]

theorem down_of_dvd (hx : x < 2 ^ w) (hk : k ≤ w) (hdvd : 2 ^ k ∣ x) : down w x (2 ^ k) = x :=
  Nat.le_antisymm (down_le hx hk) (le_down hx hk hdvd le_rfl)

theorem up_eq (hx : x + 2 ^ k ≤ 2 ^ w) (hk : k ≤ w) :
    up w x (2 ^ k) = (x + 2 ^ k - 1) / 2 ^ k * 2 ^ k := by
  have hpos := Nat.two_pow_pos k
  have hsum : (x + 2 ^ k + 2 ^ w - 1) % 2 ^ w = x + 2 ^ k - 1 := by
    rw [show x + 2 ^ k + 2 ^ w - 1 = x + 2 ^ k - 1 + 2 ^ w by omega, Nat.add_mod_right,
      Nat.mod_eq_of_lt (by omega)]
  rw [up, hsum, down_eq (by omega) hk]

end

/-- Rounding up, without a bound on the numbers. -/
def ceil (x a : Nat) : Nat := (x + a - 1) / a * a

theorem le_ceil {x a : Nat} (ha : 0 < a) : x ≤ ceil x a := by
  have hmod := Nat.mod_add_div (x + a - 1) a
  have hlt := Nat.mod_lt (x + a - 1) ha
  rw [ceil, Nat.mul_comm]
  omega

theorem dvd_ceil (x a : Nat) : a ∣ ceil x a := Nat.dvd_mul_left ..

/-- What rounds up to a number within the range does not overflow on the way. -/
theorem up_eq_ceil {w x k : Nat} (hk : k ≤ w) (h : ceil x (2 ^ k) < 2 ^ w) :
    up w x (2 ^ k) = ceil x (2 ^ k) := by
  refine up_eq ?_ hk
  have hpos := Nat.two_pow_pos k
  have hmod := Nat.mod_add_div (x + 2 ^ k - 1) (2 ^ k)
  have hlt := Nat.mod_lt (x + 2 ^ k - 1) hpos
  rw [ceil, Nat.mul_comm] at h
  -- the rounded number and the bound are multiples of the alignment
  obtain ⟨m, hm⟩ : 2 ^ k ∣ 2 ^ w := Nat.pow_dvd_pow 2 hk
  rw [hm] at h ⊢
  have hq : (x + 2 ^ k - 1) / 2 ^ k + 1 ≤ m := Nat.lt_of_mul_lt_mul_left h
  have hle := Nat.mul_le_mul_left (2 ^ k) hq
  rw [Nat.mul_add, Nat.mul_one] at hle
  omega

/-! ## Blocks -/

/-- The `size` bytes from `a` on. -/
def block (a size : Nat) : Set Nat := Set.Ico a (a + size)

theorem block_subset {a m b n : Nat} (hlo : b ≤ a) (hhi : a + m ≤ b + n) :
    block a m ⊆ block b n := Set.Ico_subset_Ico hlo hhi

theorem disjoint_of_le {a m b n : Nat} (h : a + m ≤ b) : Disjoint (block a m) (block b n) := by
  refine Set.disjoint_left.mpr fun x hx hx' => ?_
  exact absurd (hx.2.trans_le (h.trans hx'.1)) (lt_irrefl x)

end Align
