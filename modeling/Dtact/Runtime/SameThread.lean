import Dtact.Runtime.Lifecycle

/-!
# Same-thread fibers are pinned

A fiber with a `SameThread` switch routine is to stay on its worker. `wake_fiber` knows nothing of
the routine; it enqueues a fiber pinned when its context has the mode `Pinned` or the affinity
`SameCore`. `spawn_with_stack` leaves the two fields as the last fiber of the context had them.
-/

namespace Dtact.Runtime

open Scheduler Transition

/-- The implementations of `ContextSwitcher`. -/
inductive Switcher
  | crossThreadFloat
  | crossThreadNoFloat
  | sameThreadFloat
  | sameThreadNoFloat
deriving DecidableEq, Repr

/-- `ContextSwitcher::ALLOW_DEFLECTION` -/
def Switcher.allowDeflection : Switcher → Bool
  | .crossThreadFloat => true
  | .crossThreadNoFloat => true
  | .sameThreadFloat => false
  | .sameThreadNoFloat => false

/-- `ContextSwitcher::SWITCH_FN` is a `switch_context_same_thread_*` routine. -/
def Switcher.sameThread : Switcher → Bool
  | .crossThreadFloat => false
  | .crossThreadNoFloat => false
  | .sameThreadFloat => true
  | .sameThreadNoFloat => true

/-- The `switcher` field of the options of `dtact_fiber_launch_ext`. -/
def Switcher.ofOption : Nat → Switcher
  | 1 => .crossThreadNoFloat
  | 2 => .sameThreadFloat
  | 3 => .sameThreadNoFloat
  | _ => .crossThreadFloat

/-- The entry point sets `switch_fn` to a `switch_context_same_thread_*` routine. Of the
switcher of a `SpawnBuilder` the launch has `ALLOW_DEFLECTION`, which decides it. -/
def Launch.sameThread : Launch → Bool
  | .builder allowDeflection _ _ _ => !allowDeflection
  | .withStack => Switcher.sameThreadNoFloat.sameThread
  | .fiberLaunch => Switcher.crossThreadFloat.sameThread
  | .fiberLaunchExt switcher _ _ => (Switcher.ofOption switcher).sameThread

/-- `wake_fiber` chooses `enqueue_pinned`. -/
def Pinned (c : FiberContext) : Prop := c.mode = .pinned ∨ c.affinity = .sameCore

instance (c : FiberContext) : Decidable (Pinned c) := inferInstanceAs (Decidable (_ ∨ _))

/-- Every entry point but `spawn_with_stack` classifies its fiber itself. -/
theorem Launch.init_pinned {l : Launch} (h : l.sameThread) (hl : l ≠ .withStack)
    (topology : TopologyMode) (core : Nat) (c : FiberContext) :
    Pinned (l.init topology core c) := by
  cases l with
  | builder allowDeflection mode affinity kind =>
    obtain rfl : allowDeflection = false := by simpa [Launch.sameThread] using h
    exact .inl rfl
  | withStack => exact absurd rfl hl
  | fiberLaunch => cases h
  | fiberLaunchExt switcher affinity kind =>
    refine .inl (if_neg ?_)
    rintro (rfl | rfl) <;> cases h

theorem SameOccupant.pinned {c c' : FiberContext} (h : SameOccupant c c') (hp : Pinned c) :
    Pinned c' := by
  unfold Pinned
  rw [h.mode, h.affinity]
  exact hp

namespace Machine

variable {n cap hosts : Nat} {rt rt' : Machine n cap hosts} {a : Act n hosts}

/-- Whether the `switch_fn` of each context is a `SameThread` routine. -/
abbrev Routines := Nat → Bool

/-- The launch of which the action starts the fiber, and its context. -/
def launches (rt : Machine n cap hosts) : Act n hosts → Option (Launch × Nat)
  | .run t =>
    match rt.nextCall t with
    | some (.spawn l _ (.init i)) => some (l, i)
    | _ => none
  | _ => none

def noteRoutine (a : Act n hosts) (rt : Machine n cap hosts) (routines : Routines) : Routines :=
  match rt.launches a with
  | some (l, i) => Function.update routines i l.sameThread
  | none => routines

/-- Every live fiber with a `SameThread` routine is enqueued pinned. -/
def Classified (rt : Machine n cap hosts) (routines : Routines) : Prop :=
  ∀ i : Fin cap, (rt.shared.fibers i).gone = false → routines i = true →
    ∀ origin, rt.shared.wakeFiber origin i =
      .wakeFiber origin i true (rt.shared.ctx i).affinity .enqueue

/-- `spawn_with_stack` gets a context that is classified as pinned. -/
def PinnedReuse (rt : Machine n cap hosts) (a : Act n hosts) : Prop :=
  ∀ p ∈ rt.launches a, p.1 = .withStack → Pinned (rt.shared.ctx p.2)

instance (rt : Machine n cap hosts) (a : Act n hosts) : Decidable (rt.PinnedReuse a) :=
  inferInstanceAs (Decidable (∀ p ∈ rt.launches a, _))

theorem launches_eq {l : Launch} {i : Nat} :
    rt.launches a = some (l, i) ↔
      ∃ t core, a = .run t ∧ rt.nextCall t = some (.spawn l core (.init i)) := by
  constructor
  · intro h
    unfold launches at h
    split at h
    · next t =>
      split at h
      · next core _ hc =>
        cases h
        exact ⟨t, core, rfl, hc⟩
      · cases h
    · cases h
  · rintro ⟨t, core, rfl, hc⟩
    simp only [launches, hc]

/-- A context keeps its routine as long as no fiber is started in it. -/
theorem noteRoutine_of_not_starts {j : Nat} (h : ¬ rt.Starts a j) (routines : Routines) :
    noteRoutine a rt routines j = routines j := by
  cases hl : rt.launches a with
  | none => simp only [noteRoutine, hl]
  | some p =>
    obtain ⟨t, core, rfl, hc⟩ := launches_eq.mp hl
    have hne : j ≠ p.2 := by
      rintro rfl
      exact h ⟨t, _, rfl, hc, by simp [Call.spawns]⟩
    simp [noteRoutine, hl, hne]

theorem Launch.withStack_pinned {topology : TopologyMode} {core : Nat} {c : FiberContext}
    (h : Pinned c) : Pinned (Launch.withStack.init topology core c) := h

theorem noteRoutine_step [NeZero n] {routines : Routines}
    (hi : ∀ j, routines j = true → Pinned (rt.shared.ctx j)) (hok : rt.PinnedReuse a)
    (h : step a rt = some rt') (j : Nat) (hj : noteRoutine a rt routines j = true) :
    Pinned (rt'.shared.ctx j) := by
  have hctx := step_context h j
  generalize rt'.shared.ctx j = x at hctx ⊢
  cases hctx with
  | keep hns hk =>
    rw [noteRoutine_of_not_starts hns] at hj
    exact hk.pinned (hi j hj)
  | @handle t c _ hc hr hs =>
    have hns : ¬ rt.Starts (.run t) j := by
      intro hs
      obtain ⟨l, core, rfl⟩ := Call.mem_spawns (hs.mem_spawns hc)
      cases hr
    rw [noteRoutine_of_not_starts hns] at hj
    exact hs.pinned (hi j hj)
  | @start t l core hc =>
    have hl : rt.launches (.run t) = some (l, j) := launches_eq.mpr ⟨t, core, rfl, hc⟩
    have hsame : l.sameThread = true := by simpa [noteRoutine, hl] using hj
    by_cases hw : l = .withStack
    · subst hw
      exact Launch.withStack_pinned (hok _ hl rfl)
    · exact Launch.init_pinned hsame hw _ _ _
  | @waiter w i hw hij hc =>
    have hns : ¬ rt.Starts (.run (.fiber w)) j := by
      rintro ⟨_, _, ⟨⟩, hcall, _⟩
      simp [nextCall, hw, hc, Control.calls] at hcall
    rw [noteRoutine_of_not_starts hns] at hj
    exact SameOccupant.pinned ⟨rfl, rfl, rfl⟩ (hi j hj)
  | @freeGen w i hw hij =>
    have hns : ¬ rt.Starts (.settle w) j := by
      rintro ⟨_, _, ⟨⟩, _⟩
    rw [noteRoutine_of_not_starts hns] at hj
    exact hi j hj

/-- **Same-thread fibers are pinned.** In every run in which `spawn_with_stack` gets
only contexts classified as pinned, a live fiber whose `switch_fn` is a `SameThread`
routine is always enqueued pinned. -/
theorem same_thread_pinned [NeZero n] {tr : List (Act n hosts)} {routines : Routines}
    (h : Run (initHist Initial fun _ => false) (withHist step noteRoutine)
      (fun p a => PinnedReuse p.1 a) tr (rt, routines)) : rt.Classified routines := by
  have hinv : ∀ j, routines j = true → Pinned (rt.shared.ctx j) := by
    refine h.hist_invariant
      (I := fun rt routines => ∀ j, routines j = true → Pinned (rt.shared.ctx j)) ?_
      (fun _ _ _ _ hi hok hst => noteRoutine_step hi hok hst)
    intro _ _ j hj
    cases hj
  intro i _ hi origin
  have hp : Pinned (rt.shared.ctx i) := hinv i hi
  unfold Pinned at hp
  simp [Shared.wakeFiber, hp]

/-- A fiber runs to its end and its context is freed. -/
def runToEnd : List (Act 1 1) :=
  [.run (.host 0), .run (.host 0), .run (.host 0), .poll 0, .dispatch 0, .user (.fiber 0) .finish,
    .run (.fiber 0), .run (.fiber 0), .run (.fiber 0), .settle 0, .settle 0, .settle 0, .settle 0]

def freshTwice : List (Act 1 1) :=
  .user (.host 0) (.spawn .withStack 0) ::
    (runToEnd ++ [.user (.host 0) (.spawn .withStack 0), .run (.host 0), .run (.host 0)])

/-- `spawn_with_stack` twice in a new context. -/
theorem same_thread_pinned_twice : ∃ (rt : Machine 1 1 1) (routines : Routines),
    Run (initHist Initial fun _ => false) (withHist step noteRoutine)
      (fun p a => PinnedReuse p.1 a) (freshTwice.reverse) (rt, routines) ∧ routines 0 = true ∧
        rt.shared.fibers 0 = .body [] ∧ rt.Classified routines := by
  obtain ⟨⟨rt, routines⟩, hrun, heq⟩ : ∃ p, Run (initHist Initial fun _ => false)
      (withHist step noteRoutine) (fun p a => PinnedReuse p.1 a) freshTwice.reverse p ∧
      p.2 0 = true ∧ p.1.shared.fibers 0 = .body [] :=
    Run.exists_of_guarded freshTwice (new 1 1 1 .p2pMesh, fun _ => false) ⟨⟨.p2pMesh, rfl⟩, rfl⟩
      (by decide +kernel)
  exact ⟨rt, routines, hrun, heq.1, heq.2, same_thread_pinned hrun⟩

/-- After a fiber with the affinity `Any` its context goes to `spawn_with_stack`. -/
def recycledContext : List (Act 1 1) :=
  .user (.host 0) (.spawn (.builder true .p2pMesh .any .compute) 0) ::
    (runToEnd ++ [.user (.host 0) (.spawn .withStack 0), .run (.host 0), .run (.host 0)])

/-- The fiber is not enqueued pinned. -/
theorem recycled_context_deflects : ∃ (rt : Machine 1 1 1) (routines : Routines),
    Run (initHist Initial fun _ => false) (withHist step noteRoutine) Free
      recycledContext.reverse (rt, routines) ∧ ¬ rt.Classified routines := by
  obtain ⟨⟨rt, routines⟩, hrun, hsame, hfiber, hwake⟩ : ∃ p, Run (initHist Initial fun _ => false)
      (withHist step noteRoutine) Free recycledContext.reverse p ∧ p.2 0 = true ∧
      p.1.shared.fibers 0 = .body [] ∧
      p.1.shared.wakeFiber 0 0 = .wakeFiber 0 0 false .any .enqueue :=
    Run.exists_of_exec recycledContext (new 1 1 1 .p2pMesh, fun _ => false) ⟨⟨.p2pMesh, rfl⟩, rfl⟩
      (by decide +kernel)
  refine ⟨rt, routines, hrun, fun hc => ?_⟩
  have hgone : (rt.shared.fibers (0 : Fin 1)).gone = false := by
    rw [show ((0 : Fin 1) : Nat) = 0 from rfl, hfiber]
    rfl
  have hpinned := hc 0 hgone hsame 0
  rw [show ((0 : Fin 1) : Nat) = 0 from rfl, hwake] at hpinned
  cases hpinned

end Machine

end Dtact.Runtime
