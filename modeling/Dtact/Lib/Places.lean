import Mathlib.Data.List.Nodup
import Mathlib.Logic.Function.Basic
import Mathlib.Logic.ExistsUnique

/-!
# Items in containers

A family of containers `m : κ → List α` among which the items of a set are distributed: every
item is in exactly one of them, and there once. `Distributed.move` is the rule for operations that
take an item from one container to another.
-/

namespace Places

variable {κ α : Type}

structure Distributed (m : κ → List α) (p : α → Prop) : Prop where
  nodup : ∀ k, (m k).Nodup
  item : ∀ k a, a ∈ m k → p a
  place : ∀ a, p a → ∃! k, a ∈ m k

variable {m : κ → List α} {p : α → Prop} {a : α} {k k' : κ}

theorem Distributed.eq (h : Distributed m p) (hk : a ∈ m k) (hk' : a ∈ m k') : k = k' :=
  (h.place a (h.item k a hk)).unique hk hk'

theorem distributed_single [DecidableEq κ] {l : List α} (hl : l.Nodup) (hp : ∀ a, a ∈ l ↔ p a)
    (k : κ) : Distributed (Function.update (fun _ => []) k l) p := by
  have hmem {i : κ} {a : α} (ha : a ∈ Function.update (fun _ => []) k l i) : i = k ∧ a ∈ l := by
    rcases eq_or_ne i k with rfl | hne
    · exact ⟨rfl, by simpa using ha⟩
    · simp [hne] at ha
  refine ⟨fun i => ?_, fun i a ha => (hp a).mp (hmem ha).2, fun a ha => ⟨k, ?_, fun i hi => ?_⟩⟩
  · rcases eq_or_ne i k with rfl | hne
    · simpa using hl
    · simp [hne]
  · simpa using (hp a).mpr ha
  · exact (hmem hi).1

theorem Distributed.move [DecidableEq κ] (h : Distributed m p) {l : List α}
    (hl : (m k).Perm (a :: l)) (hne : k' ≠ k) :
    Distributed (Function.update (Function.update m k l) k' (a :: m k')) p := by
  have hmem : a ∈ m k := hl.mem_iff.mpr List.mem_cons_self
  have hnodup := List.nodup_cons.mp (hl.nodup_iff.mp (h.nodup k))
  have hnot {i : κ} (hi : i ≠ k) : a ∉ m i := fun ha => hi (h.eq ha hmem)
  -- Where an item is afterwards: the one that was taken, or where it was.
  have hafter {i : κ} {b : α} :
      b ∈ Function.update (Function.update m k l) k' (a :: m k') i ↔
        (b = a ∧ i = k') ∨ (b ≠ a ∧ b ∈ m i) := by
    rcases eq_or_ne i k' with rfl | hi
    · simp only [Function.update_self, List.mem_cons, and_true]
      by_cases hb : b = a
      · simp [hb]
      · simp [hb]
    · rw [Function.update_of_ne hi]
      rcases eq_or_ne i k with rfl | hik
      · rw [Function.update_self, hl.mem_iff, List.mem_cons]
        by_cases hb : b = a
        · simp [hb, hi, hnodup.1]
        · simp [hb]
      · rw [Function.update_of_ne hik]
        by_cases hb : b = a
        · simp [hb, hi, hnot hik]
        · simp [hb]
  refine ⟨fun i => ?_, fun i b hb => ?_, fun b hb => ?_⟩
  · rcases eq_or_ne i k' with rfl | hi
    · rw [Function.update_self]
      exact List.nodup_cons.mpr ⟨hnot hne, h.nodup i⟩
    · rw [Function.update_of_ne hi]
      rcases eq_or_ne i k with rfl | hik
      · rw [Function.update_self]
        exact hnodup.2
      · rw [Function.update_of_ne hik]
        exact h.nodup i
  · rcases hafter.mp hb with ⟨rfl, -⟩ | ⟨-, hb⟩
    · exact h.item k b hmem
    · exact h.item i b hb
  · by_cases heq : b = a
    · exact ⟨k', hafter.mpr (.inl ⟨heq, rfl⟩), fun i hi =>
        (hafter.mp hi).elim And.right fun hi => absurd heq hi.1⟩
    · obtain ⟨i, hi, huniq⟩ := h.place b hb
      refine ⟨i, hafter.mpr (.inr ⟨heq, hi⟩), fun j hj => huniq j ?_⟩
      exact (hafter.mp hj).elim (fun hj => absurd hj.1 heq) And.right

end Places
