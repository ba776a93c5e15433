import Mathlib.Algebra.Ring.Nat

/-!
# Labelled transition systems and their runs

`step a s` is the state after action `a` in state `s`, and `none` when `a` is not enabled there. A
`Run` is a sequence of enabled steps from an initial state, all of which meet the guard `ok`; its
index is the list of the actions, the latest one first.

Results:
1. `Run.invariant`: what holds initially and is kept by every step holds in every reachable state.
2. `Run.of_exec`, `Run.exists_of_exec` and their guarded forms: a list of actions that executes is a
   run, so that a concrete run is checked by evaluation.
3. `withHist`: a history variable. It never restricts the system (`Run.withHist_fst`), and
   `Run.hist_invariant` is the invariant rule for it.
-/

namespace Transition

variable {σ α η : Type}

/-! The participants of a concrete run are numerals of `Fin 1`, `Fin 2` and `Fin 3`. -/

instance neZero_one : NeZero 1 := ⟨Nat.one_ne_zero⟩

instance neZero_two : NeZero 2 := ⟨Nat.succ_ne_zero 1⟩

instance neZero_three : NeZero 3 := ⟨Nat.succ_ne_zero 2⟩

/-- The guard of an unrestricted run. -/
def Free (_ : σ) (_ : α) : Prop := True

/-- Runs from an initial state, every step of which meets `ok`. -/
inductive Run (init : σ → Prop) (step : α → σ → Option σ) (ok : σ → α → Prop) :
    List α → σ → Prop
  | start {s : σ} : init s → Run init step ok [] s
  | next {tr : List α} {s s' : σ} {a : α} :
      Run init step ok tr s → ok s a → step a s = some s' → Run init step ok (a :: tr) s'

/-- Execute a list of actions, the first one first. -/
def exec (step : α → σ → Option σ) : List α → σ → Option σ
  | [], s => some s
  | a :: as, s => (step a s).bind (exec step as)

/-- The step function with a history variable beside the state. -/
def withHist (step : α → σ → Option σ) (upd : α → σ → η → η) (a : α) (p : σ × η) :
    Option (σ × η) :=
  (step a p.1).map fun s' => (s', upd a p.1 p.2)

/-- Initial states with a history variable. -/
def initHist (init : σ → Prop) (h₀ : η) (p : σ × η) : Prop := init p.1 ∧ p.2 = h₀

variable {init : σ → Prop} {step : α → σ → Option σ} {ok : σ → α → Prop}

variable {tr : List α} {s s' : σ}

/-- The invariant rule. The invariant may speak of the actions taken so far. -/
theorem Run.invariant {I : List α → σ → Prop} (h₀ : ∀ s, init s → I [] s)
    (hstep : ∀ tr s a s', I tr s → ok s a → step a s = some s' → I (a :: tr) s')
    (h : Run init step ok tr s) : I tr s := by
  induction h with
  | start hs => exact h₀ _ hs
  | next _ hok hst ih => exact hstep _ _ _ _ ih hok hst

/-- A weaker guard admits more runs. -/
theorem Run.mono {ok' : σ → α → Prop} (hle : ∀ s a, ok s a → ok' s a) (h : Run init step ok tr s) :
    Run init step ok' tr s := by
  induction h with
  | start hs => exact .start hs
  | next _ hok hst ih => exact .next ih (hle _ _ hok) hst

/-- Executing actions after a run gives a run, when the guard is met on the way. -/
theorem Run.append_exec (hok : ∀ s a, ok s a) {as : List α} (h : Run init step ok tr s)
    (he : exec step as s = some s') : Run init step ok (as.reverse ++ tr) s' := by
  induction as generalizing tr s with
  | nil =>
    simp only [exec, Option.some.injEq] at he
    subst he
    exact h
  | cons a as ih =>
    simp only [exec, Option.bind_eq_some_iff] at he
    obtain ⟨s₁, hs₁, he⟩ := he
    have hr := ih (h.next (hok _ _) hs₁) he
    simpa using hr

theorem exec_append (step : α → σ → Option σ) (as bs : List α) (s : σ) :
    exec step (as ++ bs) s = (exec step as s).bind (exec step bs) := by
  induction as generalizing s with
  | nil => rfl
  | cons a as ih =>
    simp only [List.cons_append, exec, Option.bind_assoc]
    exact congrArg (Option.bind (step a s)) (funext ih)

/-- A list of actions that executes from an initial state is a run. -/
theorem Run.of_exec (as : List α) (hs : init s) (he : exec step as s = some s') :
    Run init step Free as.reverse s' := by
  have h : Run init step Free (as.reverse ++ []) s' :=
    (Run.start hs).append_exec (fun _ _ => trivial) he
  rwa [List.append_nil] at h

/-- A list of actions that executes to a state with `P` is a run to such a state. -/
theorem Run.exists_of_exec {P : σ → Prop} [DecidablePred P] (as : List α) (s : σ) (hs : init s)
    (he : (exec step as s).any (fun s' => P s') = true) :
    ∃ s', Run init step Free as.reverse s' ∧ P s' := by
  obtain ⟨s', hexec, hs'⟩ := (Option.any_eq_true _ _).mp he
  exact ⟨s', Run.of_exec as hs hexec, of_decide_eq_true hs'⟩

/-- Extend a run by a step that is checked to be enabled. -/
theorem Run.next_get (h : Run init step ok tr s) (a : α) (hok : ok s a) (he : (step a s).isSome) :
    Run init step ok (a :: tr) ((step a s).get he) :=
  h.next hok (Option.some_get he).symm

/-- The step function cut down to the steps that meet the guard. -/
def guarded (ok : σ → α → Prop) [∀ s a, Decidable (ok s a)] (step : α → σ → Option σ) (a : α)
    (s : σ) : Option σ :=
  if ok s a then step a s else none

/-- Executing actions under the guard after a run gives a run. -/
theorem Run.append_guarded [∀ s a, Decidable (ok s a)] {as : List α} (h : Run init step ok tr s)
    (he : exec (guarded ok step) as s = some s') : Run init step ok (as.reverse ++ tr) s' := by
  induction as generalizing tr s with
  | nil =>
    simp only [exec, Option.some.injEq] at he
    subst he
    exact h
  | cons a as ih =>
    simp only [exec, Option.bind_eq_some_iff, guarded] at he
    obtain ⟨s₁, hs₁, he⟩ := he
    split at hs₁
    · next hok =>
      have hr := ih (h.next hok hs₁) he
      simpa using hr
    · cases hs₁

/-- A list of actions that executes under the guard is a guarded run. -/
theorem Run.of_exec_guarded [∀ s a, Decidable (ok s a)] (as : List α) (hs : init s)
    (he : exec (guarded ok step) as s = some s') : Run init step ok as.reverse s' := by
  have h : Run init step ok (as.reverse ++ []) s' := (Run.start hs).append_guarded he
  rwa [List.append_nil] at h

/-- A list of actions that executes under the guard to a state with `P` is a guarded run to one. -/
theorem Run.exists_of_guarded {P : σ → Prop} [DecidablePred P] [∀ s a, Decidable (ok s a)]
    (as : List α) (s : σ) (hs : init s)
    (he : (exec (guarded ok step) as s).any (fun s' => P s') = true) :
    ∃ s', Run init step ok as.reverse s' ∧ P s' := by
  obtain ⟨s', hexec, hs'⟩ := (Option.any_eq_true _ _).mp he
  exact ⟨s', Run.of_exec_guarded as hs hexec, of_decide_eq_true hs'⟩

/-- Forgetting the history variable gives a run of the system itself. -/
theorem Run.withHist_fst {upd : α → σ → η → η} {h₀ : η} {p : σ × η}
    (h : Run (initHist init h₀) (withHist step upd) (fun q a => ok q.1 a) tr p) :
    Run init step ok tr p.1 := by
  induction h with
  | start hs => exact .start hs.1
  | next _ hok hst ih =>
    simp only [withHist, Option.map_eq_some_iff] at hst
    obtain ⟨s', hs', rfl⟩ := hst
    exact .next ih hok hs'

/-- The invariant rule for a system with a history variable. -/
theorem Run.hist_invariant {upd : α → σ → η → η} {h₀ : η} {ok : σ × η → α → Prop}
    {I : σ → η → Prop} {p : σ × η} (hrun : Run (initHist init h₀) (withHist step upd) ok tr p)
    (hinit : ∀ s, init s → I s h₀)
    (hstep : ∀ s h a s', I s h → ok (s, h) a → step a s = some s' → I s' (upd a s h)) :
    I p.1 p.2 := by
  refine hrun.invariant (I := fun _ p => I p.1 p.2) ?_ ?_
  · rintro ⟨s, h⟩ ⟨hs, rfl⟩
    exact hinit s hs
  · rintro _ ⟨s, h⟩ a p hI hok hst
    obtain ⟨s', hst', rfl⟩ := Option.map_eq_some_iff.mp hst
    exact hstep s h a s' hI hok hst'

end Transition
