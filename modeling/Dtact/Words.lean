import Mathlib.Data.Int.ModEq

/-!
# Machine words

`usize` arithmetic wraps around at `2 ^ 64`. A position counter is compared with a sequence number
by their signed difference `diff`, which is the true one as long as the two are less than `2 ^ 63`
apart.
-/

namespace Dtact

def usizeMod : Nat := 2 ^ 64

/-- `usize::wrapping_add` -/
def wrappingAdd (a b : Nat) : Nat := (a + b) % usizeMod

/-- `usize::wrapping_sub` -/
def wrappingSub (a b : Nat) : Nat := (a + usizeMod - b) % usizeMod

/-- `seq as isize - pos as isize`, in two's complement. -/
def diff (seq pos : Nat) : Int := ((seq : Int) - (pos : Int)).bmod usizeMod

/-- The value of an `isize` operation whose exact result is `i`. -/
def isizeWrap (i : Int) : Int := i.bmod usizeMod

theorem wrappingAdd_eq {a b : Nat} (h : a + b < 2 ^ 64) : wrappingAdd a b = a + b :=
  Nat.mod_eq_of_lt h

theorem wrappingAdd_mod (a b : Nat) : wrappingAdd (a % usizeMod) b = (a + b) % usizeMod :=
  Nat.mod_add_mod a usizeMod b

theorem wrappingSub_eq {a b : Nat} (h : b ≤ a) (ha : a < usizeMod) : wrappingSub a b = a - b := by
  rw [wrappingSub, Nat.sub_add_comm h, Nat.add_mod_right, Nat.mod_eq_of_lt (by omega)]

/-- The difference of two counters is the true one, also after they have wrapped around. -/
theorem wrappingSub_mod {a b : Nat} (h : b ≤ a) (hlt : a - b < usizeMod) :
    wrappingSub (a % usizeMod) (b % usizeMod) = a - b := by
  simp only [wrappingSub, usizeMod] at hlt ⊢
  omega

theorem isizeWrap_eq {i : Int} (h₁ : -2 ^ 63 ≤ i) (h₂ : i < 2 ^ 63) : isizeWrap i = i := by
  unfold isizeWrap
  apply Int.bmod_eq_of_le <;> simp only [usizeMod] <;> omega

theorem diff_eq {a b : Nat} (h₁ : a < b + 2 ^ 63) (h₂ : b < a + 2 ^ 63) :
    diff a b = (a : Int) - b := by
  unfold diff
  apply Int.bmod_eq_of_le <;> simp only [usizeMod] <;> omega

theorem diff_mod_eq {a b : Nat} (h₁ : a < b + 2 ^ 63) (h₂ : b < a + 2 ^ 63) :
    diff (a % usizeMod) (b % usizeMod) = (a : Int) - b := by
  rw [← diff_eq h₁ h₂]
  unfold diff
  have heq : ((a % usizeMod : Nat) : Int) - ((b % usizeMod : Nat) : Int) =
      ((a : Int) - b) + usizeMod * ((b / usizeMod : Nat) - (a / usizeMod : Nat) : Int) := by
    simp only [usizeMod]
    omega
  rw [heq, Int.add_mul_bmod_self_left]

theorem diff_self (a : Nat) : diff a a = 0 := by
  simp [diff]

theorem diff_eq_zero {a b : Nat} (ha : a < 2 ^ 64) (hb : b < 2 ^ 64) (h : diff a b = 0) :
    a = b := by
  have hd : (usizeMod : Int) ∣ (a : Int) - b := Int.dvd_of_bmod_eq_zero h
  simp only [usizeMod] at hd
  omega

end Dtact
