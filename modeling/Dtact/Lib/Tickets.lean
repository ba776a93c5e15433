import Mathlib.Data.Finset.Card
import Mathlib.Data.List.Nodup
import Mathlib.Logic.Function.Basic

/-!
# Tickets

A counter hands out the tickets `0, 1, …`. A thread that has taken a ticket holds
it until it hands it in. `Tickets n done hold` says that of the first `n` tickets
each one is handed in or held by exactly one thread.
-/

/-- The tickets below `n` are taken; `done` are handed in, `hold t` is with `t`. -/
structure Tickets (n : Nat) (done : List Nat) (hold : Nat → Option Nat) : Prop where
  nodup : done.Nodup
  done_lt : ∀ k ∈ done, k < n
  held : ∀ t k, hold t = some k → k < n ∧ k ∉ done
  unique : ∀ t t' k, hold t = some k → hold t' = some k → t = t'
  complete : ∀ k < n, k ∈ done ∨ ∃ t, hold t = some k

namespace Tickets

variable {n t k : Nat} {done : List Nat} {hold : Nat → Option Nat}

theorem empty : Tickets 0 [] fun _ => none :=
  ⟨List.nodup_nil, by simp, by simp, by simp, by simp⟩

theorem take (h : Tickets n done hold) (ht : hold t = none) :
    Tickets (n + 1) done (Function.update hold t (some n)) := by
  refine ⟨h.nodup, fun k hk => Nat.lt_succ_of_lt (h.done_lt k hk), fun u k hu => ?_,
    fun u u' k hu hu' => ?_, fun k hk => ?_⟩
  · rw [Function.update_apply] at hu
    split at hu
    · cases hu
      exact ⟨Nat.lt_succ_self n, fun hn => Nat.lt_irrefl _ (h.done_lt n hn)⟩
    · exact ⟨Nat.lt_succ_of_lt (h.held u k hu).1, (h.held u k hu).2⟩
  · rw [Function.update_apply] at hu hu'
    split at hu <;> split at hu'
    · simp_all
    · cases hu
      exact absurd (h.held u' n hu').1 (Nat.lt_irrefl n)
    · cases hu'
      exact absurd (h.held u n hu).1 (Nat.lt_irrefl n)
    · exact h.unique u u' k hu hu'
  · rcases Nat.lt_succ_iff_lt_or_eq.mp hk with hk | rfl
    · refine (h.complete k hk).imp_right fun ⟨u, hu⟩ => ⟨u, ?_⟩
      rw [Function.update_of_ne, hu]
      rintro rfl
      simp [ht] at hu
    · exact .inr ⟨t, Function.update_self ..⟩

theorem finish (h : Tickets n done hold) (ht : hold t = some k) :
    Tickets n (k :: done) (Function.update hold t none) := by
  obtain ⟨hlt, hnew⟩ := h.held t k ht
  have hne {u j : Nat} (hu : Function.update hold t none u = some j) :
      hold u = some j ∧ u ≠ t := by
    rw [Function.update_apply] at hu
    split at hu
    · cases hu
    · next hne => exact ⟨hu, hne⟩
  refine ⟨List.nodup_cons.mpr ⟨hnew, h.nodup⟩, ?_, fun u j hu => ?_, fun u u' j hu hu' => ?_,
    fun j hj => ?_⟩
  · rintro j (_ | ⟨_, hj⟩)
    · exact hlt
    · exact h.done_lt j hj
  · obtain ⟨hu, hut⟩ := hne hu
    refine ⟨(h.held u j hu).1, ?_⟩
    rintro (_ | ⟨_, hj⟩)
    · exact hut (h.unique u t k hu ht)
    · exact (h.held u j hu).2 hj
  · exact h.unique u u' j (hne hu).1 (hne hu').1
  · rcases h.complete j hj with hd | ⟨u, hu⟩
    · exact .inl (.tail _ hd)
    · rcases eq_or_ne u t with rfl | hut
      · rw [ht] at hu
        cases hu
        exact .inl (.head _)
      · exact .inr ⟨u, by rw [Function.update_of_ne hut, hu]⟩

/-- When nobody holds a ticket, all of them are handed in. -/
theorem length_done (h : Tickets n done hold) (hnone : ∀ t, hold t = none) :
    done.length = n := by
  have hset : done.toFinset = Finset.range n := by
    ext k
    rw [List.mem_toFinset, Finset.mem_range]
    refine ⟨h.done_lt k, fun hk => (h.complete k hk).resolve_right ?_⟩
    rintro ⟨t, ht⟩
    simp [hnone t] at ht
  rw [← List.toFinset_card_of_nodup h.nodup, hset, Finset.card_range]

end Tickets
