import Mathlib.Data.List.Nodup
import Mathlib.Logic.Function.Basic

/-!
# Stacks linked through an index array

An intrusive stack over the indices of an array: a head index and, for every
index, the index below it. `Chain next nil h l` says that the list reached from
`h` is `l`. The update lemmas say when writing a link leaves the list alone and
what pushing and popping do to it.
-/

namespace IndexStack

/-- `l` is the list of indices reached from `h`. -/
def Chain (next : Nat → Nat) (nil : Nat) : Nat → List Nat → Prop
  | h, [] => h = nil
  | h, i :: l => h = i ∧ i ≠ nil ∧ Chain next nil (next i) l

variable {next : Nat → Nat} {nil h i : Nat} {l : List Nat}

@[simp]
theorem chain_nil : Chain next nil h [] ↔ h = nil := Iff.rfl

@[simp]
theorem chain_cons : Chain next nil h (i :: l) ↔ h = i ∧ i ≠ nil ∧ Chain next nil (next i) l :=
  Iff.rfl

/-- The link of an index outside the list does not matter. -/
theorem chain_update (hi : i ∉ l) (x : Nat) :
    Chain (Function.update next i x) nil h l ↔ Chain next nil h l := by
  induction l generalizing h with
  | nil => rfl
  | cons j l ih =>
    rw [List.mem_cons, not_or] at hi
    obtain ⟨hij, hil⟩ := hi
    simp only [chain_cons, ih hil, Function.update_of_ne (Ne.symm hij)]

/-- An index linked to the head is a new head. -/
theorem chain_push (hl : Chain next nil h l) (hi : i ≠ nil) (hlink : next i = h) :
    Chain next nil i (i :: l) :=
  ⟨rfl, hi, hlink ▸ hl⟩

/-- A head other than `nil` is the first of the list. -/
theorem chain_head (hl : Chain next nil h l) (hh : h ≠ nil) :
    ∃ l', l = h :: l' ∧ Chain next nil (next h) l' := by
  cases l with
  | nil => exact absurd hl hh
  | cons j l =>
    obtain ⟨rfl, _, hl⟩ := hl
    exact ⟨l, rfl, hl⟩

theorem chain_eq_nil (hl : Chain next nil nil l) : l = [] := by
  cases l with
  | nil => rfl
  | cons j l => exact absurd hl.1.symm hl.2.1

/-- Indices linked to their successors up to the last one. -/
theorem chain_range' {n a : Nat} (hlink : ∀ i, a ≤ i → i + 1 < a + n → next i = i + 1)
    (hlast : ∀ k, n = k + 1 → next (a + k) = nil) (hnil : a + n ≤ nil) (hn : 0 < n) :
    Chain next nil a (List.range' a n) := by
  induction n generalizing a with
  | zero => omega
  | succ n ih =>
    rw [List.range'_succ]
    refine ⟨rfl, by omega, ?_⟩
    cases n with
    | zero => simpa using hlast 0 rfl
    | succ n =>
      rw [hlink a (Nat.le_refl _) (by omega)]
      refine ih (fun i hi hlt => hlink i (by omega) (by omega)) (fun k hk => ?_) (by omega)
        (by omega)
      have := hlast (k + 1) (by omega)
      rwa [Nat.add_comm k 1, ← Nat.add_assoc] at this

end IndexStack
