import Mathlib.Data.Multiset.AddSub
import Mathlib.Logic.Function.Basic

/-!
# Bells

A task that finds a door shut registers, looks once more and sleeps. Who opens the door rings the
bell in a second step and wakes every task that is registered by then; a stale registration takes a
wake from nobody.
-/

namespace Bell

inductive Phase
  | away
  /-- In a round, not registered yet. -/
  | asking
  /-- In a round, with the last look at the door ahead. -/
  | registered
  | waiting
  /-- It has opened the door and is about to ring. -/
  | ringing
deriving DecidableEq

structure Task where
  phase : Phase
  /-- It has been woken since its latest round began. -/
  woken : Bool

namespace Task

def sleeps (t : Task) : Prop := t.phase = .waiting ∧ t.woken = false

/-- The task counts on its registration. -/
def relies (t : Task) : Prop := (t.phase = .registered ∨ t.phase = .waiting) ∧ t.woken = false

theorem sleeps.relies {t : Task} (h : t.sleeps) : t.relies := ⟨.inr h.1, h.2⟩

theorem not_relies {t : Task} (h : t.phase = .away ∨ t.phase = .asking) : ¬ t.relies := by
  rintro ⟨hphase, -⟩
  rcases h with h | h <;> simp [h] at hphase

end Task

structure St (ι : Type) where
  isOpen : Bool
  /-- The tasks of the registrations that can be woken. -/
  owners : Multiset ι
  task : ι → Task

variable {ι : Type} [DecidableEq ι]

namespace St

def set (s : St ι) (j : ι) (t : Task) : St ι := { s with task := Function.update s.task j t }

def setPhase (s : St ι) (j : ι) (phase : Phase) : St ι := s.set j ⟨phase, (s.task j).woken⟩

/-- Wake all tasks that are registered. -/
def wakeOwners (s : St ι) : St ι :=
  { s with
    owners := 0
    task := fun j => if j ∈ s.owners then { s.task j with woken := true } else s.task j }

end St

/-! ## Steps -/

inductive Step (s : St ι) : St ι → Prop
  /-- The door is left as it is, or shut. -/
  | shut {isOpen : Bool} : (isOpen → s.isOpen) → Step s { s with isOpen }
  /-- The task begins a round, goes through the door, which it may shut, or gives up. -/
  | turn (j : ι) {t : Task} {isOpen : Bool} : (s.task j).phase ≠ .ringing →
      t.phase = .away ∨ t.phase = .asking → (isOpen → s.isOpen) → Step s { s.set j t with isOpen }
  | register (j : ι) : (s.task j).phase = .asking →
      Step s { s.setPhase j .registered with owners := j ::ₘ s.owners }
  | sleep (j : ι) : (s.task j).phase = .registered → s.isOpen = false →
      Step s (s.setPhase j .waiting)
  /-- Registrations of the task may be retracted. -/
  | retract (j : ι) {t : Task} {owners : Multiset ι} : (s.task j).phase ≠ .ringing →
      t.phase = .away ∨ t.phase = .asking → (∀ i ≠ j, i ∈ s.owners → i ∈ owners) →
      Step s { s.set j t with owners }
  | unlock (k : ι) : (s.task k).phase = .away →
      Step s { s.setPhase k .ringing with isOpen := true }
  | ring (k : ι) : (s.task k).phase = .ringing → Step s (s.setPhase k .away).wakeOwners

/-! ## The invariant -/

structure Inv (s : St ι) : Prop where
  /-- A task that counts on its registration has one. -/
  listed : ∀ j, (s.task j).relies → j ∈ s.owners
  /-- While a task sleeps before the open door, the bell is about to be rung. -/
  covered : s.isOpen → ∀ j, (s.task j).sleeps → ∃ k, (s.task k).phase = .ringing

section

variable {s s' : St ι}

/-- One task changes, and it was not about to ring. -/
theorem Inv.set (h : Inv s) {j : ι} {t : Task} {isOpen : Bool} {owners : Multiset ι}
    (hring : (s.task j).phase ≠ .ringing) (hopen : isOpen → s.isOpen)
    (howners : ∀ i ≠ j, i ∈ s.owners → i ∈ owners) (hrelies : t.relies → j ∈ owners)
    (hsleeps : t.sleeps → isOpen = false) : Inv { s.set j t with isOpen, owners } := by
  refine ⟨fun i hi => ?_, fun hisOpen i hi => ?_⟩
  · rcases eq_or_ne i j with rfl | hne
    · simp only [St.set, Function.update_self] at hi
      exact hrelies hi
    · simp only [St.set, Function.update_of_ne hne] at hi
      exact howners i hne (h.listed i hi)
  · rcases eq_or_ne i j with rfl | hne
    · simp only [St.set, Function.update_self] at hi
      cases (hsleeps hi).symm.trans hisOpen
    · simp only [St.set, Function.update_of_ne hne] at hi
      obtain ⟨k, hk⟩ := h.covered (hopen hisOpen) i hi
      have hkj : k ≠ j := fun heq => hring (heq ▸ hk)
      exact ⟨k, by simpa only [St.set, Function.update_of_ne hkj] using hk⟩

/-- Nobody counts on a registration after the bell. -/
theorem Inv.not_relies_ring (h : Inv s) {k : ι} (i : ι) :
    ¬ (((s.setPhase k .away).wakeOwners).task i).relies := by
  intro hrelies
  by_cases hi : i ∈ s.owners
  · have htask : ((s.setPhase k .away).wakeOwners).task i = _ := if_pos hi
    rw [htask] at hrelies
    cases hrelies.2
  · have htask : ((s.setPhase k .away).wakeOwners).task i = _ := if_neg hi
    rw [htask] at hrelies
    rcases eq_or_ne i k with rfl | hne
    · simp [St.setPhase, St.set, Task.relies] at hrelies
    · simp only [St.setPhase, St.set, Function.update_of_ne hne] at hrelies
      exact hi (h.listed i hrelies)

theorem Inv.step (h : Inv s) (hst : Step s s') : Inv s' := by
  cases hst with
  | shut hopen => exact ⟨h.listed, fun hisOpen => h.covered (hopen hisOpen)⟩
  | turn j hring hphase hopen =>
    exact h.set hring hopen (fun _ _ hi => hi) (fun hr => absurd hr (Task.not_relies hphase))
      (fun hs => absurd hs.relies (Task.not_relies hphase))
  | register j hj =>
    exact h.set (by simp [hj]) id (fun _ _ hi => Multiset.mem_cons_of_mem hi)
      (fun _ => Multiset.mem_cons_self j _) (fun hs => by simp [Task.sleeps] at hs)
  | sleep j hj hshut =>
    exact h.set (by simp [hj]) id (fun _ _ hi => hi)
      (fun hr => h.listed j ⟨.inl hj, hr.2⟩) (fun _ => hshut)
  | retract j hring hphase howners =>
    exact h.set hring id howners (fun hr => absurd hr (Task.not_relies hphase))
      (fun hs => absurd hs.relies (Task.not_relies hphase))
  | unlock k hk =>
    refine ⟨fun i hi => ?_, fun _ _ _ => ⟨k, by simp [St.setPhase, St.set]⟩⟩
    rcases eq_or_ne i k with rfl | hne
    · simp [St.setPhase, St.set, Task.relies] at hi
    · simp only [St.setPhase, St.set, Function.update_of_ne hne] at hi
      exact h.listed i hi
  | ring k hk =>
    exact ⟨fun i hi => absurd hi (h.not_relies_ring i),
      fun _ i hi => absurd hi.relies (h.not_relies_ring i)⟩

omit [DecidableEq ι] in
/-- When nobody is about to ring and the door is open, every waiting task is awake. -/
theorem Inv.all_awake (h : Inv s) (hquiet : ∀ k, (s.task k).phase ≠ .ringing) (hopen : s.isOpen)
    {j : ι} (hj : (s.task j).phase = .waiting) : (s.task j).woken := by
  by_contra hwoken
  obtain ⟨k, hk⟩ := h.covered hopen j ⟨hj, by simpa using hwoken⟩
  exact hquiet k hk

end

end Bell
