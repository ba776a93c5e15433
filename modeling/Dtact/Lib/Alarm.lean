import Mathlib.Logic.Basic

/-!
# Alarms

A waiter registers, looks at its condition once more and then relies on being woken. Who makes the
condition true rings in a later step and wakes everybody who is registered by then. The waiter is
seen alone, with one condition.
-/

namespace Alarm

inductive Phase
  /-- Not registered, or it does not count on its registration. -/
  | out
  /-- Registered, with the look ahead. -/
  | registered
  /-- It has looked after it had registered, and the condition did not hold. -/
  | looked
deriving DecidableEq

/-- A waiter, its condition and those who ring. -/
structure St (κ : Type) where
  phase : Phase
  /-- The registration is there to be woken. -/
  listed : Prop
  /-- The waiter has been woken since its round began. -/
  woken : Prop
  holds : Prop
  /-- About to ring, such that the waiter is reached. -/
  ringing : κ → Prop

variable {κ : Type} {s s' : St κ}

/-- The waiter stays where it is, and its registration is there or has done its work. -/
structure Kept (s s' : St κ) : Prop where
  phase : s'.phase = s.phase
  woken : s.phase ≠ .out → s.woken → s'.woken
  listed : s.phase ≠ .out → s.listed → s'.listed ∨ s'.woken

/-- What a step of the system is to the waiter. -/
inductive Step (s s' : St κ) : Prop
  /-- It begins a round, or leaves it. -/
  | out : s'.phase = .out → Step s s'
  | register : s'.phase = .registered → s'.listed → Step s s'
  | look : s.phase = .registered → s'.phase = .looked → ¬ s'.holds → (s.woken → s'.woken) →
      (s.listed → s'.listed) → Step s s'
  /-- Somebody makes the condition true, if it was not. -/
  | announce (k : κ) : Kept s s' → s'.ringing k → Step s s'
  | ring : Kept s s' → (s.phase ≠ .out → s.listed → s'.woken) → Step s s'
  /-- The condition is not made true, and who is about to ring still is. -/
  | other : Kept s s' → (s.phase = .looked → s'.holds → s.holds) →
      (∀ k, s.phase = .looked → s.ringing k → s'.ringing k ∨ s'.woken) → Step s s'

structure Inv (s : St κ) : Prop where
  listed : s.phase ≠ .out → s.listed ∨ s.woken
  covered : s.phase = .looked → s.holds → s.woken ∨ ∃ k, s.ringing k

theorem Inv.of_out (h : s.phase = .out) : Inv s :=
  ⟨fun hphase => absurd h hphase, fun hphase => by rw [h] at hphase; cases hphase⟩

theorem Phase.ne_out_of_looked {p : Phase} (h : p = .looked) : p ≠ .out := by
  rw [h]
  nofun

theorem Inv.kept_listed (h : Inv s) (hk : Kept s s') :
    s'.phase ≠ .out → s'.listed ∨ s'.woken := by
  intro hphase
  rw [hk.phase] at hphase
  rcases h.listed hphase with hlisted | hwoken
  · exact hk.listed hphase hlisted
  · exact .inr (hk.woken hphase hwoken)

theorem Inv.step (h : Inv s) (hst : Step s s') : Inv s' := by
  cases hst with
  | out hphase => exact .of_out hphase
  | register hphase hlisted =>
    refine ⟨fun _ => .inl hlisted, fun hlooked => ?_⟩
    rw [hphase] at hlooked
    cases hlooked
  | look hreg hphase hnot hwoken hlisted =>
    refine ⟨fun _ => ?_, fun _ hholds => absurd hholds hnot⟩
    have hold : s.listed ∨ s.woken := h.listed (by rw [hreg]; nofun)
    exact hold.imp hlisted hwoken
  | announce k hk hring => exact ⟨h.kept_listed hk, fun _ _ => .inr ⟨k, hring⟩⟩
  | ring hk hwake =>
    refine ⟨h.kept_listed hk, fun hlooked _ => .inl ?_⟩
    rw [hk.phase] at hlooked
    have hphase := Phase.ne_out_of_looked hlooked
    rcases h.listed hphase with hlisted | hwoken
    · exact hwake hphase hlisted
    · exact hk.woken hphase hwoken
  | other hk hholds hringing =>
    refine ⟨h.kept_listed hk, fun hlooked hnow => ?_⟩
    rw [hk.phase] at hlooked
    rcases h.covered hlooked (hholds hlooked hnow) with hwoken | ⟨k, hring⟩
    · exact .inl (hk.woken (Phase.ne_out_of_looked hlooked) hwoken)
    · rcases hringing k hlooked hring with hring' | hwoken
      · exact .inr ⟨k, hring'⟩
      · exact .inl hwoken

/-- When nobody is about to ring and the condition holds, the waiter has been woken. -/
theorem Inv.awake (h : Inv s) (hquiet : ∀ k, ¬ s.ringing k) (hlooked : s.phase = .looked)
    (hholds : s.holds) : s.woken := by
  rcases h.covered hlooked hholds with hwoken | ⟨k, hring⟩
  · exact hwoken
  · exact absurd hring (hquiet k)

end Alarm
