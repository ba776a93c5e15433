import Dtact.Runtime.Await

/-!
# The end of a fiber releases its waiter

A fiber in `dtact_await` registers itself as the waiter of its target, checks once more that the
target is not gone, and suspends. The target stores `Finished`, swaps the waiter out and wakes it.
-/

namespace Dtact.Runtime

open Scheduler Transition

/-! ## Waiters -/

/-- `wake_waiter_handle` wakes the fiber `j` for this word. -/
def NamesWaiter (packed j : Nat) : Prop := packed ≠ 0 ∧ packed % 2 ^ 63 % 2 ^ 32 = j

instance (packed j : Nat) : Decidable (NamesWaiter packed j) :=
  inferInstanceAs (Decidable (_ ∧ _))

theorem waiterHandle_names {n self j : Nat} {current : Caller n} (hself : self < 2 ^ 32) :
    NamesWaiter (waiterHandle self current) j ↔ self = j := by
  have hlow : waiterHandle self current % 2 ^ 63 % 2 ^ 32 = self := by
    have hshift : current.id <<< 32 % 2 ^ 64 % 2 ^ 32 = 0 := by
      rw [Nat.shiftLeft_eq]
      omega
    rw [Nat.mod_mod_of_dvd _ (by decide), waiterHandle, Nat.or_mod_two_pow, Nat.or_mod_two_pow,
      hshift, Nat.or_zero, Nat.mod_eq_of_lt hself]
    exact Nat.or_zero _
  have hne : waiterHandle self current ≠ 0 := by
    intro h
    rw [waiterHandle, Nat.or_eq_zero_iff] at h
    exact absurd h.2 (by decide)
  exact ⟨fun h => hlow.symm.trans h.2, fun h => ⟨hne, hlow.trans h⟩⟩

theorem waiterCalls_of_names {packed j : Nat} (h : NamesWaiter packed j) :
    ∃ route, Machine.waiterCalls packed = [.wake j route] := by
  refine ⟨some (packed % 2 ^ 63 / 2 ^ 32), ?_⟩
  rw [Machine.waiterCalls, if_neg h.1, h.2]

/-- The fiber is suspended, and no wake has reached it. -/
def suspended : FiberStatus → Bool
  | .suspending | .yielded => true
  | _ => false

/-- The fiber has registered and waits for its wake, or is about to. A suspended fiber
will go on with the swap. -/
def AwaitPc.registered (word : FiberStatus) : AwaitPc → Bool
  | .recheckGen | .recheckState _ | .cas | .switch => word ≠ .notified
  | .swap => suspended word
  | _ => false

/-- The fiber has also found its target not gone. -/
def AwaitPc.committed (word : FiberStatus) : AwaitPc → Bool
  | .cas | .switch => word ≠ .notified
  | .swap => suspended word
  | _ => false

/-- The fiber has not swapped out its waiter. -/
def Control.unswapped : Control → Bool
  | .body _ | .epilogue .finish _ | .epilogue .waiter _ => true
  | _ => false

/-- `fiber_entry_point` has stored `Finished` and is through with the waiter. -/
def Control.released : Control → Bool
  | .body _ | .epilogue .finish _ | .epilogue .waiter _ => false
  | .epilogue .switch calls => calls.isEmpty
  | _ => true

section

variable {n : Nat} {who : Who n} {sh : Shared n} {c : Call} {next : Next n}

/-- How the step of a call changes the waiter of the context `i`. -/
inductive Call.Waiter (who : Who n) (packed i : Nat) : Call → Nat → Prop
  | keep {c : Call} : Waiter who packed i c packed
  | register {gen self : Nat} : who.fiber = some self →
      Waiter who packed i (.await i gen .register) (waiterHandle self who.current)
  | unregister {gen self : Nat} : who.fiber = some self →
      packed = waiterHandle self who.current → Waiter who packed i (.await i gen .unregister) 0

theorem Launch.init_waiterHandle (l : Launch) (topology : TopologyMode) (core : Nat)
    (c : FiberContext) : (l.init topology core c).waiterHandle = c.waiterHandle := by
  cases l <;> rfl

theorem Call.run_waiter [NeZero n] (h : c.run who sh = some next) (i : Nat) :
    c.Waiter who (sh.ctx i).waiterHandle i (next.shared.ctx i).waiterHandle := by
  have hleaves := Call.run_leaves h i
  generalize hx : next.shared.ctx i = x at hleaves ⊢
  cases hleaves with
  | keep _ hk =>
    rw [hk.waiterHandle]
    exact .keep
  | start =>
    rw [Launch.init_waiterHandle]
    exact .keep
  | handle hc _ =>
    subst hx
    cases Call.run_runs h with
    | register hself =>
      obtain rfl := of_decide_eq_true hc
      simp only [Next.shared, Shared.setCtx_self]
      exact .register hself
    | unregister hself heq =>
      obtain rfl := of_decide_eq_true hc
      simp only [Next.shared, Shared.setCtx_self]
      exact .unregister hself heq
    | quiet | switch => exact .keep
    | spin =>
      rw [Next.shared, (sh.setSpin_keeps _ i _ _).waiterHandle]
      exact .keep
    | store =>
      rw [Next.shared, (sh.setState_keeps _ i _).waiterHandle]
      exact .keep
    | _ => cases hc

end

namespace Machine

variable {n cap hosts : Nat} {rt rt' : Machine n cap hosts} {a : Act n hosts} {i j : Fin cap}

/-- How a step changes the waiter of the context `i`. -/
inductive WaiterStep (rt : Machine n cap hosts) (i : Fin cap) : Act n hosts → Nat → Prop
  | keep {a : Act n hosts} : WaiterStep rt i a (rt.shared.ctx i).waiterHandle
  | register {w : Fin n} {j : Fin cap} {gen : Nat} : rt.workers w = .on .running j →
      rt.Awaits j i gen .register → WaiterStep rt i (.run (.fiber w)) (waiterHandle j (.worker w))
  | unregister {w : Fin n} {j : Fin cap} {gen : Nat} : rt.workers w = .on .running j →
      rt.Awaits j i gen .unregister →
      (rt.shared.ctx i).waiterHandle = waiterHandle j (.worker w) →
      WaiterStep rt i (.run (.fiber w)) 0
  | take {w : Fin n} : rt.workers w = .on .running i →
      rt.shared.fibers i = .epilogue .waiter [] → WaiterStep rt i (.run (.fiber w)) 0

theorem WaiterStep.of_call {w : Fin n} {c : Call} {rest : List Call} {packed : Nat}
    (hw : rt.workers w = .on .running j) (hc : (rt.shared.fibers j).calls = c :: rest)
    (h : c.Waiter ⟨some j, .worker w⟩ (rt.shared.ctx i).waiterHandle i packed) :
    rt.WaiterStep i (.run (.fiber w)) packed := by
  have hhead : (rt.shared.fibers j).calls.head? = some c := by rw [hc, List.head?_cons]
  cases h with
  | keep => exact .keep
  | register hself =>
    cases hself
    exact .register hw hhead
  | unregister hself heq =>
    cases hself
    exact .unregister hw hhead heq

theorem Settles.waiter {sh sh' : Shared n} {w : Fin n} {k : Fin cap} {stage : Stage}
    {pc : WorkerPc cap} (h : Settles sh w k stage sh' pc) (i : Nat) :
    (sh'.ctx i).waiterHandle = (sh.ctx i).waiterHandle := by
  cases h with
  | after | inspect | requeue | freePush => rfl
  | park | freeState => exact (sh.setState_keeps k i _).waiterHandle
  | freeGen =>
    rcases eq_or_ne i k.val with rfl | hne
    · rw [sh.setCtx_self]
    · rw [sh.setCtx_ne hne]

theorem step_waiter [NeZero n] (hst : step a rt = some rt') (i : Fin cap) :
    rt.WaiterStep i a (rt'.shared.ctx i).waiterHandle := by
  cases step_takes hst with
  | @hostRun k c rest next hc hr =>
    have hwaiter := Call.run_waiter hr i
    show rt.WaiterStep i _ (next.shared.ctx i).waiterHandle
    generalize (next.shared.ctx i).waiterHandle = packed at hwaiter
    cases hwaiter with
    | keep => exact .keep
    | register hself | unregister hself _ => cases hself
  | body hw hc hr | late hw hc hr _ => exact .of_call hw (by rw [hc]; rfl) (Call.run_waiter hr i)
  | @epilogue w k pc hw hc =>
    cases pc with
    | finish =>
      have hkeep : ((rt.shared.setState k .finished).ctx i).waiterHandle = _ :=
        (rt.shared.setState_keeps k i .finished).waiterHandle
      simp only [Machine.epilogue, Shared.setFiber, hkeep]
      exact .keep
    | waiter =>
      simp only [Machine.epilogue, Shared.setFiber]
      rcases eq_or_ne i k with rfl | hne
      · rw [Shared.setCtx_self]
        exact .take hw hc
      · rw [Shared.setCtx_ne _ (fun heq => hne (Fin.ext heq))]
        exact .keep
    | switch | returned => exact .keep
  | settle _ hs =>
    simp only [setWorker, hs.waiter]
    exact .keep
  | _ => exact .keep

/-! ## The end of the target -/

/-- The epilogue of the fiber `i` is about to wake the fiber `j`. -/
def Waking (rt : Machine n cap hosts) (i j : Nat) : Prop :=
  ∃ route, rt.shared.fibers i = .epilogue .switch [.wake j route]

theorem Sound.step_waking [NeZero n] (hs : rt.Sound) (hst : Machine.step a rt = some rt')
    (h : rt.Waking i j) : rt'.Waking i j ∨ (rt'.shared.ctx j).state = .notified := by
  obtain ⟨route, hi⟩ := h
  by_cases hother : rt.Elsewhere a i
  · rcases step_fibers hst hother with hf | ⟨hstart, _⟩
    · exact .inl ⟨route, hf.trans hi⟩
    · have hgone := hs.start_gone hstart
      rw [hi] at hgone
      cases hgone
  · cases step_own hst hother with
    | user _ hc _ _ | body _ hc _ | epilogue _ hc =>
      rw [hi] at hc
      cases hc
    | late _ hc hr _ =>
      rw [hi] at hc
      cases hc
      have hwake : (Call.wake j route).wakeEvent j = some .wake := if_pos rfl
      refine .inr ?_
      simp only [proceed, setWorker, Shared.setFiber]
      rw [(Call.run_wake hwake hr).2, rt.shared.setState_self]
    | abort _ hc hr hp =>
      rw [hi] at hc
      cases hc
      simp only [Call.run] at hr
      split at hr <;> (cases hr; cases hp)

/-- A fiber stays before the swap of its waiter until it makes it. -/
theorem step_unswapped [NeZero n] (hst : step a rt = some rt')
    (h : (rt.shared.fibers i).unswapped) :
    (rt'.shared.fibers i).unswapped ∨
      rt'.shared.fibers i = .epilogue .switch (waiterCalls (rt.shared.ctx i).waiterHandle) := by
  by_cases hother : rt.Elsewhere a i
  · rcases step_fibers hst hother with hf | ⟨_, hf⟩
    · exact .inl (by rwa [hf])
    · exact .inl (by rw [hf]; rfl)
  · cases step_own hst hother with
    | user _ _ _ huser =>
      refine .inl ?_
      rw [rt.shared.setFiber_self]
      rcases UserAct.onFiber_control huser with ⟨_, rfl⟩ | rfl <;> rfl
    | body => exact .inl (by simp [proceed, setWorker, Control.unswapped])
    | @late _ pc _ _ _ _ hc _ _ =>
      rw [hc] at h
      refine .inl ?_
      simp only [proceed, setWorker, Shared.setFiber_self]
      cases pc <;> first | rfl | cases h
    | @epilogue _ pc _ hc =>
      rw [hc] at h
      cases pc with
      | finish => exact .inl (by simp [Machine.epilogue, Control.unswapped])
      | waiter => exact .inr (by simp [Machine.epilogue])
      | switch | returned => cases h
    | abort => exact .inl h

theorem step_swap [NeZero n] {w : Fin n} (hst : step (.run (.fiber w)) rt = some rt')
    (hw : rt.workers w = .on .running i) (hc : rt.shared.fibers i = .epilogue .waiter []) :
    rt'.shared.fibers i = .epilogue .switch (waiterCalls (rt.shared.ctx i).waiterHandle) := by
  cases step_own hst fun hother => (hother w i hw rfl).1 rfl with
  | body _ hc' _ | late _ hc' _ _ | abort _ hc' _ _ =>
    rw [hc] at hc'
    cases hc'
  | epilogue _ hc' =>
    rw [hc] at hc'
    cases hc'
    simp [Machine.epilogue]

/-! ## Calls and their targets -/

/-- The fiber `j` is registered with the context `i` and waits for its wake. -/
def waitsFor (rt : Machine n cap hosts) (i j : Nat) : Bool :=
  match (rt.shared.fibers j).calls.head? with
  | some (.await target _ pc) => target = i && pc.registered (rt.shared.ctx j).state
  | _ => false

/-- The step of `dtact_await` on the context `i` that the action is. -/
def awaitRuns (rt : Machine n cap hosts) (i : Nat) : Act n hosts → Option (Fin cap × Nat × AwaitPc)
  | .run (.fiber w) =>
    match rt.workers w with
    | .on .running j =>
      match (rt.shared.fibers j).calls.head? with
      | some (.await target gen pc) => if target = i then some (j, gen, pc) else none
      | _ => none
    | _ => none
  | _ => none

theorem Awaits.waitsFor {gen : Nat} {pc : AwaitPc} (h : rt.Awaits j i gen pc) :
    rt.waitsFor i j = pc.registered (rt.shared.ctx j).state := by
  rw [Awaits] at h
  simp [Machine.waitsFor, h]

theorem Awaits.runs {w : Fin n} {gen : Nat} {pc : AwaitPc} (h : rt.Awaits j i gen pc)
    (hw : rt.workers w = .on .running j) :
    rt.awaitRuns i (.run (.fiber w)) = some (j, gen, pc) := by
  rw [Awaits] at h
  simp [awaitRuns, hw, h]

end Machine

/-- The fibers of one context, counted by their start, and which of them the calls of
`dtact_await` on it were made for. -/
structure ReleaseHist where
  started : Nat
  /-- By the fiber that is in the call; none if there was no live fiber. -/
  target : Nat → Option Nat

section

variable {n cap hosts : Nat}

def releaseUpd (i : Fin cap) (a : Act n hosts) (rt : Machine n cap hosts) (h : ReleaseHist) :
    ReleaseHist where
  started := if (rt.spawnedIn i a).isSome then h.started + 1 else h.started
  target :=
    match rt.awaitCalled a with
    | some j =>
      Function.update h.target j
        (if (rt.shared.fibers i).unfinished then some h.started else none)
    | none => h.target

/-- The fiber `k` of the context `i` has stored `Finished`, and the wake of its waiter
is completed. -/
def ReleaseHist.Done (h : ReleaseHist) (rt : Machine n cap hosts) (i k : Nat) : Prop :=
  h.started ≠ k ∨ (rt.shared.fibers i).released

/-- No fiber is left parked in a call that was made for a fiber that is done. -/
def Released (i : Fin cap) (rt : Machine n cap hosts) (h : ReleaseHist) : Prop :=
  ∀ (j : Fin cap) (gen : Nat) (pc : AwaitPc) (k : Nat), rt.Awaits j i gen pc →
    h.target j = some k → h.Done rt i k → suspended (rt.shared.ctx j).state = false

/-- What the next step of the fiber `j` in `dtact_await` on the context `i` must find. A
fiber does not register where another one waits for its wake, and a second check that
passes finds the fiber that the call was made for, before the swap of its waiter. -/
def AwaitPc.Undisturbed (i j : Fin cap) (gen : Nat) (p : Machine n cap hosts × ReleaseHist) :
    AwaitPc → Prop
  | .register =>
    ∀ m : Fin cap, m ≠ j → NamesWaiter (p.1.shared.ctx i).waiterHandle m → p.1.waitsFor i m = false
  | .recheckState g =>
    targetGone gen g (p.1.shared.ctx i).state = false →
      ∀ k ∈ p.2.target j, p.2.started = k ∧ (p.1.shared.fibers i).unswapped
  | _ => True

instance (i j : Fin cap) (gen : Nat) (p : Machine n cap hosts × ReleaseHist) :
    (pc : AwaitPc) → Decidable (pc.Undisturbed i j gen p)
  | .register => inferInstanceAs (Decidable (∀ m : Fin cap, m ≠ j → _ → _))
  | .recheckState _ => inferInstanceAs (Decidable (_ = false → _))
  | .swap | .loadGen | .loadState _ | .recheckGen | .unregister | .cas | .switch =>
    inferInstanceAs (Decidable True)

def Undisturbed (i : Fin cap) (p : Machine n cap hosts × ReleaseHist) (a : Act n hosts) : Prop :=
  ∀ x ∈ p.1.awaitRuns i a, x.2.2.Undisturbed i x.1 x.2.1 p

instance (i : Fin cap) (p : Machine n cap hosts × ReleaseHist) (a : Act n hosts) :
    Decidable (Undisturbed i p a) :=
  inferInstanceAs (Decidable (∀ x ∈ p.1.awaitRuns i a, x.2.2.Undisturbed i x.1 x.2.1 p))

abbrev ReleaseRun [NeZero n] (i : Fin cap) :
    List (Act n hosts) → Machine n cap hosts × ReleaseHist → Prop :=
  Run (initHist Machine.Initial ⟨0, fun _ => none⟩) (withHist Machine.step (releaseUpd i))
    (Undisturbed i)

/-! ## The invariant -/

structure ReleaseInv (i : Fin cap) (rt : Machine n cap hosts) (h : ReleaseHist) : Prop where
  sound : rt.Sound
  nested : ∀ j : Fin cap, Nested (rt.shared.fibers j).calls
  /-- A fiber suspends at the end of the loop only. -/
  suspends : ∀ (j : Fin cap) (gen : Nat) (pc : AwaitPc), rt.Awaits j i gen pc →
    suspended (rt.shared.ctx j).state → pc = .switch ∨ pc = .swap
  /-- A registration lasts until the wake. -/
  registered : ∀ (j : Fin cap) (gen : Nat) (pc : AwaitPc), rt.Awaits j i gen pc →
    pc.registered (rt.shared.ctx j).state →
    NamesWaiter (rt.shared.ctx i).waiterHandle j ∨ rt.Waking i j
  /-- A fiber that has made its second check awaits a fiber that will wake it. -/
  committed : ∀ (j : Fin cap) (gen : Nat) (pc : AwaitPc) (k : Nat), rt.Awaits j i gen pc →
    pc.committed (rt.shared.ctx j).state → h.target j = some k →
    h.started = k ∧ ((rt.shared.fibers i).unswapped ∨ rt.Waking i j)

variable {i j : Fin cap} {rt rt' : Machine n cap hosts} {h : ReleaseHist} {a : Act n hosts}
  {gen k : Nat} {pc pc' : AwaitPc}

theorem Machine.Waking.not_released (h : rt.Waking i j) :
    (rt.shared.fibers i).released = false := by
  obtain ⟨route, hi⟩ := h
  rw [hi]
  rfl

theorem Control.not_released {c : Control} (h : c.unswapped) : c.released = false := by
  cases c with
  | epilogue pc calls => cases pc <;> first | rfl | cases h
  | none => cases h
  | body calls => rfl

theorem Control.not_gone_of_unswapped {c : Control} (h : c.unswapped) : c.gone = false := by
  cases c with
  | epilogue pc calls => cases pc <;> first | rfl | cases h
  | none => cases h
  | body calls => rfl

theorem ReleaseInv.released (hi : ReleaseInv i rt h) : Released i rt h := by
  intro j gen pc k ha htarget hdone
  by_contra hsus
  have hsus : suspended (rt.shared.ctx j).state = true := by simpa using hsus
  have hne : (rt.shared.ctx j).state ≠ .notified := by
    intro heq
    rw [heq] at hsus
    cases hsus
  have hcommitted : pc.committed (rt.shared.ctx j).state := by
    rcases hi.suspends j gen pc ha hsus with rfl | rfl
    · exact decide_eq_true hne
    · exact hsus
  obtain ⟨hstarted, htarget⟩ := hi.committed j gen pc k ha hcommitted htarget
  have hrel : (rt.shared.fibers i).released = false := by
    rcases htarget with hu | hw
    · exact Control.not_released hu
    · exact hw.not_released
  rcases hdone with hne | hrel'
  · exact hne hstarted
  · cases hrel.symm.trans hrel'

/-! ### A step of another thread -/

variable {word word' : FiberStatus} {target : Nat} {w : Fin n}

theorem suspended_of_step (h : Machine.WordStep word word') (hs : suspended word') :
    suspended word := by
  cases h with
  | keep => exact hs
  | wake => cases hs
  | park => rfl

theorem AwaitPc.registered_of_step (h : Machine.WordStep word word') (hr : pc.registered word') :
    pc.registered word := by
  cases h with
  | keep => exact hr
  | wake => cases pc <;> cases hr
  | park => cases pc <;> first | rfl | cases hr

theorem AwaitPc.committed_of_step (h : Machine.WordStep word word') (hc : pc.committed word') :
    pc.committed word := by
  cases h with
  | keep => exact hc
  | wake => cases pc <;> cases hc
  | park => cases pc <;> first | rfl | cases hc

theorem AwaitPc.registered_of_committed (h : pc.committed word) : pc.registered word := by
  cases pc <;> first | exact h | cases h

theorem AwaitPc.ne_notified (h : pc.registered word) : word ≠ .notified := by
  rintro rfl
  cases pc <;> cases h

/-- The epilogue does not call `dtact_await`. -/
theorem Machine.Sound.awaits_body (hs : rt.Sound) (ha : rt.Awaits j target gen pc) :
    ∃ rest, rt.shared.fibers j = .body (.await target gen pc :: rest) := by
  obtain ⟨_, _, hd, -⟩ := hs.fiber j
  have hlate := hd.late
  simp only [Machine.view] at hlate
  unfold Machine.Awaits at ha
  cases hc : rt.shared.fibers j with
  | none =>
    rw [hc] at ha
    cases ha
  | body calls =>
    rw [hc] at ha
    obtain ⟨rest, hrest⟩ := List.head?_eq_some_iff.mp ha
    exact ⟨rest, congrArg _ hrest⟩
  | epilogue epc calls =>
    rw [hc] at ha
    have hbrief := hlate epc calls hc _ (List.mem_of_mem_head? ha)
    cases hbrief

/-! ### A step of the fiber -/

/-- The steps of the loop of `dtact_await`, with the state word of the fiber before
and after. -/
inductive AwaitPc.Leads (gen : Nat) (status word : FiberStatus) :
    AwaitPc → AwaitPc → FiberStatus → Prop
  | swap : Leads gen status word .swap .loadGen .running
  | loadGen (g : Nat) : Leads gen status word .loadGen (.loadState g) word
  | loadState (g : Nat) : Leads gen status word (.loadState g) .register word
  | register : Leads gen status word .register .recheckGen word
  | recheckGen (g : Nat) : Leads gen status word .recheckGen (.recheckState g) word
  | gone (g : Nat) : Leads gen status word (.recheckState g) .unregister word
  | recheck {g : Nat} : targetGone gen g status = false →
      Leads gen status word (.recheckState g) .cas word
  | cas : word = .running → Leads gen status word .cas .switch .suspending
  | retry : Leads gen status word .cas .swap word
  | switch : Leads gen status word .switch .swap word

/-- A running fiber is suspended only right before it switches. -/
theorem Machine.Sound.awake (hs : rt.Sound) (hw : rt.workers w = .on .running j)
    (ha : rt.Awaits j target gen pc) (hpc : pc ≠ .switch) :
    suspended (rt.shared.ctx j).state = false := by
  obtain ⟨rest, hc⟩ := hs.awaits_body ha
  have hd := (hs.on_worker hw).1
  simp only [Machine.view, hc] at hd
  have hsw : (Control.body (.await target gen pc :: rest)).atSwitch = false := by
    cases pc <;> first | rfl | exact absurd rfl hpc
  obtain ⟨hy, hsus⟩ := hd.running hsw
  generalize (rt.shared.ctx j).state = word at hy hsus
  cases word <;> first | rfl | exact absurd rfl hy | exact absurd rfl hsus

theorem AwaitPc.run_leads {self : Nat} {current : Caller n} {sh : Shared n}
    (hown : (pc.run self current target gen sh).own = [.await target gen pc']) :
    Leads gen (sh.ctx target).state (sh.ctx self).state pc pc'
      ((pc.run self current target gen sh).shared.ctx self).state := by
  cases pc with
  | swap =>
    cases hown
    simp only [AwaitPc.run, Next.shared, sh.setState_self]
    exact .swap
  | loadGen | recheckGen =>
    cases hown
    constructor
  | loadState g =>
    simp only [AwaitPc.run] at hown ⊢
    split at hown <;> cases hown
    next hgone =>
    rw [if_neg hgone]
    exact .loadState g
  | register =>
    cases hown
    simp only [AwaitPc.run, Next.shared]
    rw [sh.setCtx_state (by rfl)]
    exact .register
  | recheckState g =>
    simp only [AwaitPc.run] at hown ⊢
    split at hown <;> cases hown
    · next hgone =>
      rw [if_pos hgone]
      exact .gone g
    · next hgone =>
      rw [if_neg hgone]
      exact .recheck (by simpa using hgone)
  | unregister =>
    simp only [AwaitPc.run] at hown
    split at hown <;> cases hown
  | cas =>
    simp only [AwaitPc.run] at hown ⊢
    split at hown <;> cases hown
    · next hrun =>
      rw [if_pos hrun]
      simp only [Next.shared, sh.setState_self]
      exact .cas hrun
    · next hrun =>
      rw [if_neg hrun]
      exact .retry
  | switch =>
    cases hown
    exact .switch

theorem Machine.Awaits.pc_eq {gen' : Nat} (ha : rt.Awaits j target gen pc)
    (ha' : rt.Awaits j target gen' pc') : pc = pc' := by
  unfold Machine.Awaits at ha ha'
  rw [ha] at ha'
  cases ha'
  rfl

theorem releaseUpd_started (hns : ¬ rt.Starts a i) : (releaseUpd i a rt h).started = h.started := by
  simp [releaseUpd, Machine.spawnedIn_none hns]

theorem releaseUpd_target (hj : rt.awaitCalled a ≠ some j) :
    (releaseUpd i a rt h).target j = h.target j := by
  simp only [releaseUpd]
  cases hk : rt.awaitCalled a with
  | none => rfl
  | some k =>
    refine Function.update_of_ne (fun heq => hj ?_) _ _
    rw [hk, Fin.ext heq]

variable [NeZero n]

theorem Machine.run_awaits (hs : rt.Sound) (hst : Machine.step (.run (.fiber w)) rt = some rt')
    (hw : rt.workers w = .on .running j) (ha : rt.Awaits j target gen pc) :
    rt'.shared.ctx = (pc.run j (.worker w) target gen rt.shared).shared.ctx := by
  obtain ⟨rest, hc⟩ := hs.awaits_body ha
  have hown : ¬ rt.Elsewhere (.run (.fiber w)) j := fun hother => (hother w j hw rfl).1 rfl
  cases Machine.step_own hst hown with
  | body _ hc' hr =>
    rw [hc] at hc'
    cases hc'
    cases hr
    rfl
  | late _ hc' _ _ | epilogue _ hc' | abort _ hc' _ _ =>
    rw [hc] at hc'
    cases hc'

namespace AwaitPc.Leads

variable {status word word' : FiberStatus}

theorem registered (h : Leads gen status word pc pc' word')
    (hawake : pc ≠ .switch → suspended word = false) (hr : pc'.registered word') :
    pc = .register ∨ pc.registered word := by
  cases h with
  | register => exact .inl rfl
  | recheckGen _ | recheck _ => exact .inr hr
  | cas hrun => exact .inr (by rw [hrun]; rfl)
  | retry => cases (hawake nofun).symm.trans hr
  | switch => exact .inr (decide_eq_true (AwaitPc.ne_notified hr))
  | _ => cases hr

theorem committed (h : Leads gen status word pc pc' word')
    (hawake : pc ≠ .switch → suspended word = false) (hc : pc'.committed word') :
    (∃ g, pc = .recheckState g ∧ targetGone gen g status = false) ∨ pc.committed word := by
  cases h with
  | recheck hgone => exact .inl ⟨_, rfl, hgone⟩
  | cas hrun => exact .inr (by rw [hrun]; rfl)
  | retry => cases (hawake nofun).symm.trans hc
  | switch => exact .inr (decide_eq_true (AwaitPc.ne_notified (registered_of_committed hc)))
  | _ => cases hc

theorem suspends (h : Leads gen status word pc pc' word')
    (hawake : pc ≠ .switch → suspended word = false) (hs : suspended word') :
    pc' = .switch ∨ pc' = .swap := by
  cases h with
  | cas _ => exact .inl rfl
  | retry | switch => exact .inr rfl
  | swap => cases hs
  | _ => cases (hawake nofun).symm.trans hs

end AwaitPc.Leads

/-! ### All steps -/

/-- The registration of a fiber lasts until its wake, unless it registers or
unregisters itself. -/
theorem ReleaseInv.registration_step (hcap : cap ≤ 2 ^ 32) (hi : ReleaseInv i rt h)
    (hok : Undisturbed i (rt, h) a) (hst : Machine.step a rt = some rt')
    (hself : ∀ w gen, a = .run (.fiber w) → rt.workers w = .on .running j →
      ¬ rt.Awaits j i gen .register ∧ ¬ rt.Awaits j i gen .unregister)
    (hwaits : rt.waitsFor i j)
    (hreg : NamesWaiter (rt.shared.ctx i).waiterHandle j ∨ rt.Waking i j)
    (hne : (rt'.shared.ctx j).state ≠ .notified) :
    NamesWaiter (rt'.shared.ctx i).waiterHandle j ∨ rt'.Waking i j := by
  rcases hreg with hnames | hwaking
  · have hwaiter := Machine.step_waiter hst i
    generalize (rt'.shared.ctx i).waiterHandle = packed at hwaiter
    cases hwaiter with
    | keep => exact .inl hnames
    | @register w m gen hw ha =>
      rcases eq_or_ne m j with rfl | hmj
      · exact absurd ha (hself w gen rfl hw).1
      · have hundisturbed := hok _ (ha.runs hw) j hmj.symm hnames
        cases hundisturbed.symm.trans hwaits
    | @unregister w m gen hw ha hpacked =>
      rw [hpacked, waiterHandle_names (m.isLt.trans_le hcap)] at hnames
      obtain rfl : m = j := Fin.ext hnames
      exact absurd ha (hself w gen rfl hw).2
    | take hw hc =>
      obtain ⟨route, hcalls⟩ := waiterCalls_of_names hnames
      refine .inr ⟨route, ?_⟩
      rw [← hcalls]
      exact Machine.step_swap hst hw hc
  · exact .inr ((hi.sound.step_waking hst hwaking).resolve_right hne)

/-- The target of a registered fiber stays, and it wakes the fiber when it swaps out its
waiter. -/
theorem ReleaseInv.target_step (hi : ReleaseInv i rt h) (hst : Machine.step a rt = some rt')
    (hreg : NamesWaiter (rt.shared.ctx i).waiterHandle j ∨ rt.Waking i j)
    (htarget : (rt.shared.fibers i).unswapped ∨ rt.Waking i j)
    (hne : (rt'.shared.ctx j).state ≠ .notified) :
    (releaseUpd i a rt h).started = h.started ∧
      ((rt'.shared.fibers i).unswapped ∨ rt'.Waking i j) := by
  refine ⟨releaseUpd_started fun hs => ?_, ?_⟩
  · have hgone := hi.sound.start_gone hs
    rcases htarget with hu | ⟨route, hf⟩
    · cases (Control.not_gone_of_unswapped hu).symm.trans hgone
    · rw [hf] at hgone
      cases hgone
  · rcases htarget with hu | hwaking
    · rcases Machine.step_unswapped hst hu with hu' | hf
      · exact .inl hu'
      · have hnames := hreg.resolve_right fun ⟨route, hc⟩ => by
          rw [hc] at hu
          cases hu
        obtain ⟨route, hcalls⟩ := waiterCalls_of_names hnames
        exact .inr ⟨route, by rw [hf, hcalls]⟩
    · exact .inr ((hi.sound.step_waking hst hwaking).resolve_right hne)

/-- A fiber enters `dtact_await` awake. -/
theorem Machine.Sound.enters_awake (hs : rt.Sound) {u : UserAct}
    (hst : Machine.step (.user (.fiber w) u) rt = some rt') (hw : rt.workers w = .on .running j) :
    suspended (rt'.shared.ctx j).state = false := by
  cases Machine.step_own hst fun hother => (hother w j hw rfl).2 u rfl with
  | user _ hc hu _ =>
    have hd := (hs.on_worker hw).1
    simp only [Machine.view, hc] at hd
    obtain ⟨hy, hsus⟩ := hd.running (Discipline.not_atSwitch hu)
    simp only [Shared.setFiber]
    generalize (rt.shared.ctx j).state = word at hy hsus
    cases word <;> first | rfl | exact absurd rfl hy | exact absurd rfl hsus

theorem ReleaseInv.step (hcap : cap ≤ 2 ^ 32) (hi : ReleaseInv i rt h)
    (hok : Undisturbed i (rt, h) a) (hst : Machine.step a rt = some rt') :
    ReleaseInv i rt' (releaseUpd i a rt h) := by
  have hawake {w : Fin n} {j : Fin cap} {gen : Nat} {pc : AwaitPc}
      (hw : rt.workers w = .on .running j) (ha : rt.Awaits j i gen pc) (hpc : pc ≠ .switch) :
      suspended (rt.shared.ctx j).state = false := hi.sound.awake hw ha hpc
  have hword {j : Fin cap} {gen : Nat} {pc : AwaitPc} (ha : rt.Awaits j i gen pc)
      (hother : rt.Elsewhere a j) :
      Machine.WordStep (rt.shared.ctx j).state (rt'.shared.ctx j).state := by
    obtain ⟨rest, hc⟩ := hi.sound.awaits_body ha
    exact hi.sound.step_word hst hother (by rw [hc]; rfl)
  have hcalled {j : Fin cap} (hother : rt.Elsewhere a j) : rt.awaitCalled a ≠ some j := by
    intro hcalled
    obtain ⟨w, target, gen, rfl, hw⟩ := Machine.awaitCalled_eq hcalled
    exact (hother w j hw rfl).2 _ rfl
  refine ⟨hi.sound.step hst, fun j => hi.sound.nested_step hst (hi.nested j),
    fun j gen pc ha hsus => ?_, fun j gen pc ha hreg => ?_, fun j gen pc k ha hcom htarget => ?_⟩
  · cases Machine.step_awaits hst (hi.nested j) ha with
    | stay ha₀ hother => exact hi.suspends j gen pc ha₀ (suspended_of_step (hword ha₀ hother) hsus)
    | enter => exact .inr rfl
    | run hw hrun ha₀ hown =>
      subst hrun
      rw [Machine.run_awaits hi.sound hst hw ha₀] at hsus
      exact (AwaitPc.run_leads hown).suspends (hawake hw ha₀) hsus
  · cases Machine.step_awaits hst (hi.nested j) ha with
    | stay ha₀ hother =>
      have hreg₀ := AwaitPc.registered_of_step (hword ha₀ hother) hreg
      refine hi.registration_step hcap hok hst (fun w _ hrun hw => ?_) (ha₀.waitsFor.trans hreg₀)
        (hi.registered j gen pc ha₀ hreg₀) (AwaitPc.ne_notified hreg)
      exact absurd hrun (hother w j hw rfl).1
    | @enter w hw hcall =>
      subst hcall
      cases (hi.sound.enters_awake hst hw).symm.trans hreg
    | @run w pc₀ _ hw hrun ha₀ hown =>
      subst hrun
      have hne := AwaitPc.ne_notified hreg
      have hctx := Machine.run_awaits hi.sound hst hw ha₀
      rw [hctx] at hreg
      rcases (AwaitPc.run_leads hown).registered (hawake hw ha₀) hreg with rfl | hreg₀
      · refine .inl ?_
        rw [hctx]
        simp only [AwaitPc.run, Next.shared, Shared.setCtx_self]
        exact (waiterHandle_names (j.isLt.trans_le hcap)).mpr rfl
      · refine hi.registration_step hcap hok hst (fun w' gen' _ _ => ⟨fun ha' => ?_, fun ha' => ?_⟩)
          (ha₀.waitsFor.trans hreg₀) (hi.registered j gen pc₀ ha₀ hreg₀) hne
        · obtain rfl := ha₀.pc_eq ha'
          cases hreg₀
        · obtain rfl := ha₀.pc_eq ha'
          cases hreg₀
  · have hne := AwaitPc.ne_notified (AwaitPc.registered_of_committed hcom)
    cases Machine.step_awaits hst (hi.nested j) ha with
    | stay ha₀ hother =>
      have hcom₀ := AwaitPc.committed_of_step (hword ha₀ hother) hcom
      rw [releaseUpd_target (hcalled hother)] at htarget
      obtain ⟨rfl, hheld⟩ := hi.committed j gen pc k ha₀ hcom₀ htarget
      exact hi.target_step hst
        (hi.registered j gen pc ha₀ (AwaitPc.registered_of_committed hcom₀)) hheld hne
    | @enter w hw hcall =>
      subst hcall
      cases (hi.sound.enters_awake hst hw).symm.trans hcom
    | @run w pc₀ _ hw hrun ha₀ hown =>
      subst hrun
      rw [Machine.run_awaits hi.sound hst hw ha₀] at hcom
      rw [releaseUpd_target (fun hcall => by cases hcall)] at htarget
      have hleads := AwaitPc.run_leads hown
      rcases hleads.committed (hawake hw ha₀) hcom with ⟨g, rfl, hgone⟩ | hcom₀
      · -- The second check finds the target in time.
        obtain ⟨rfl, hu⟩ := hok _ (ha₀.runs hw) hgone k htarget
        have hreg₀ := (hleads.registered (hawake hw ha₀)
          (AwaitPc.registered_of_committed hcom)).resolve_left (by rintro ⟨⟩)
        exact hi.target_step hst (hi.registered j gen _ ha₀ hreg₀) (.inl hu) hne
      · obtain ⟨rfl, hheld⟩ := hi.committed j gen pc₀ k ha₀ hcom₀ htarget
        exact hi.target_step hst
          (hi.registered j gen pc₀ ha₀ (AwaitPc.registered_of_committed hcom₀)) hheld hne

theorem releaseInv_init (hs : rt.Initial) : ReleaseInv i rt ⟨0, fun _ => none⟩ := by
  obtain ⟨topology, rfl⟩ := hs
  have hnone {j : Fin cap} {gen : Nat} {pc : AwaitPc}
      (ha : (Machine.new n cap hosts topology).Awaits j i gen pc) : False := by cases ha
  exact ⟨Machine.sound_new topology, fun _ => Nested.nil, fun _ _ _ ha => (hnone ha).elim,
    fun _ _ _ ha => (hnone ha).elim, fun _ _ _ _ ha => (hnone ha).elim⟩

/-! ## Fibers are released -/

/-- In every run in which no fiber registers where another one waits for its wake, and
no second check passes that the end of the target has overtaken: once a fiber has stored
`Finished` and the wake of its waiter is completed, no fiber is left parked in a
`dtact_await` that was called for it. -/
theorem awaiters_released (hcap : cap ≤ 2 ^ 32) {tr : List (Act n hosts)}
    (hrun : ReleaseRun i tr (rt, h)) : Released i rt h := by
  have hinv : ReleaseInv i rt h :=
    hrun.hist_invariant (I := ReleaseInv i) (fun _ => releaseInv_init)
      (fun _ _ _ _ hi hok hst => hi.step hcap hok hst)
  exact hinv.released

end

/-- A host thread spawns `k` fibers, and the worker receives them. -/
def spawnFibers (k : Nat) : List (Act 1 1) :=
  (List.replicate k
    (.user (.host 0) (.spawn builderAny 0) :: .replicate 3 (.run (.host 0)))).flatten ++ [.poll 0]

/-- The next fiber awaits the fiber `target` and is parked. -/
def awaitAndPark (target : Nat) : List (Act 1 1) :=
  [[.dispatch 0, .user (.fiber 0) (.await target 0)], .replicate 8 (.run (.fiber 0)),
    .replicate 2 (.settle 0)].flatten

/-- The next fiber finishes and wakes its waiter. -/
def finishAndWake : List (Act 1 1) :=
  .dispatch 0 :: .user (.fiber 0) .finish :: .replicate 4 (.run (.fiber 0))

theorem awaiters_released_one : ∃ (tr : List (Act 1 1)) (rt : Machine 1 2 1) (h : ReleaseHist),
    ReleaseRun (1 : Fin 2) tr (rt, h) ∧ rt.Awaits 0 1 0 .swap ∧ h.target 0 = some 1 ∧
      h.Done rt 1 1 ∧ suspended (rt.shared.ctx 0).state = false := by
  obtain ⟨⟨rt, h⟩, hrun, hwaiter, hfinished, htarget⟩ : ∃ p, ReleaseRun (1 : Fin 2)
      (spawnFibers 2 ++ awaitAndPark 1 ++ finishAndWake).reverse p ∧
      p.1.shared.fibers 0 = .body [.await 1 0 .swap] ∧ p.1.shared.fibers 1 = .epilogue .switch [] ∧
      p.2.target 0 = some 1 :=
    Run.exists_of_guarded (spawnFibers 2 ++ awaitAndPark 1 ++ finishAndWake)
      (.new 1 2 1 .p2pMesh, ⟨0, fun _ => none⟩) ⟨⟨.p2pMesh, rfl⟩, rfl⟩ (by decide +kernel)
  have hawaits : rt.Awaits 0 1 0 .swap := by
    rw [Machine.Awaits]
    exact congrArg (·.calls.head?) hwaiter
  have hdone : h.Done rt 1 1 := .inr (by rw [hfinished]; rfl)
  exact ⟨_, rt, h, hrun, hawaits, htarget, hdone,
    awaiters_released (by decide) hrun 0 0 .swap 1 hawaits htarget hdone⟩

theorem not_released {n cap hosts : Nat} {i j : Fin cap} {rt : Machine n cap hosts}
    {h : ReleaseHist} {gen k : Nat} {rest : List Call}
    (hwaiter : rt.shared.fibers j = .body (.await i gen .swap :: rest))
    (htarget : h.target j = some k) (hdone : h.Done rt i k)
    (hparked : (rt.shared.ctx j).state = .yielded) : ¬ Released i rt h := by
  intro hreleased
  have hawaits : rt.Awaits j i gen .swap := by
    rw [Machine.Awaits, hwaiter]
    rfl
  have hawake := hreleased j gen .swap k hawaits htarget hdone
  rw [hparked] at hawake
  cases hawake

/-- Two fibers await a third one. Its end wakes the one that registered last, and the
other stays parked. -/
theorem second_waiter_overwrites :
    ∃ (tr : List (Act 1 1)) (rt : Machine 1 3 1) (h : ReleaseHist),
      Run (initHist Machine.Initial ⟨0, fun _ => none⟩) (withHist Machine.step (releaseUpd 2)) Free
        tr (rt, h) ∧
      rt.shared.fibers 2 = .epilogue .switch [] ∧ (rt.shared.ctx 0).state = .yielded ∧
      (rt.shared.ctx 1).state = .notified ∧ ¬ Released 2 rt h := by
  obtain ⟨⟨rt, h⟩, hrun, hwaiter, hfinished, hparked, hwoken, htarget⟩ :
      ∃ p, Run (initHist Machine.Initial ⟨0, fun _ => none⟩)
          (withHist Machine.step (releaseUpd (2 : Fin 3))) Free _ p ∧
        p.1.shared.fibers 0 = .body [.await 2 0 .swap] ∧
        p.1.shared.fibers 2 = .epilogue .switch [] ∧ (p.1.shared.ctx 0).state = .yielded ∧
        (p.1.shared.ctx 1).state = .notified ∧ p.2.target 0 = some 1 :=
    Run.exists_of_exec (spawnFibers 3 ++ awaitAndPark 2 ++ awaitAndPark 2 ++ finishAndWake)
      (.new 1 3 1 .p2pMesh, ⟨0, fun _ => none⟩) ⟨⟨.p2pMesh, rfl⟩, rfl⟩ (by decide +kernel)
  refine ⟨_, rt, h, hrun, hfinished, hparked, hwoken, ?_⟩
  have hdone : h.Done rt (2 : Fin 3) 1 := .inr (congrArg Control.released hfinished)
  exact not_released (j := 0) hwaiter htarget hdone hparked

/-- The fiber on worker 0 awaits the one on worker 1, which ends between the two checks.
Between the two loads of the second check its context is freed and started again. -/
def overtakeRecheck : List (Act 2 1) :=
  [[.user (.host 0) (.spawn .fiberLaunch 0)], .replicate 3 (.run (.host 0)),
    [.user (.host 0) (.spawn .fiberLaunch 1)], .replicate 3 (.run (.host 0)),
    [.poll 0, .poll 1, .dispatch 0, .dispatch 1, .user (.fiber 0) (.await 1 0)],
    .replicate 3 (.run (.fiber 0)), [.user (.fiber 1) .finish], .replicate 2 (.run (.fiber 1)),
    .replicate 2 (.run (.fiber 0)), [.run (.fiber 1)], .replicate 4 (.settle 1),
    [.user (.host 0) (.spawn .fiberLaunch 1)], .replicate 3 (.run (.host 0)),
    .replicate 3 (.run (.fiber 0)), .replicate 2 (.settle 0)].flatten

/-- One waiter is enough for a fiber to be parked after its target is gone. -/
theorem recheck_overtaken :
    ∃ (tr : List (Act 2 1)) (rt : Machine 2 2 1) (h : ReleaseHist),
      Run (initHist Machine.Initial ⟨0, fun _ => none⟩) (withHist Machine.step (releaseUpd 1))
        (fun p a => ∀ x ∈ p.1.awaitRuns 1 a, x.2.2 = .register → x.2.2.Undisturbed 1 x.1 x.2.1 p)
        tr (rt, h) ∧
      h.started = 2 ∧ h.target 0 = some 1 ∧ (rt.shared.ctx 0).state = .yielded ∧
      ¬ Released 1 rt h := by
  obtain ⟨⟨rt, h⟩, hrun, hwaiter, hparked, hstarted, htarget⟩ :
      ∃ p, Run (initHist Machine.Initial ⟨0, fun _ => none⟩)
          (withHist Machine.step (releaseUpd (1 : Fin 2))) (fun p a => ∀ x ∈ p.1.awaitRuns 1 a,
            x.2.2 = .register → x.2.2.Undisturbed 1 x.1 x.2.1 p) _ p ∧
        p.1.shared.fibers 0 = .body [.await 1 0 .swap] ∧ (p.1.shared.ctx 0).state = .yielded ∧
        p.2.started = 2 ∧ p.2.target 0 = some 1 :=
    Run.exists_of_guarded overtakeRecheck (.new 2 2 1 .p2pMesh, ⟨0, fun _ => none⟩)
      ⟨⟨.p2pMesh, rfl⟩, rfl⟩ (by decide +kernel)
  refine ⟨_, rt, h, hrun, hstarted, htarget, hparked, ?_⟩
  have hdone : h.Done rt (1 : Fin 2) 1 := .inl (by rw [hstarted]; decide)
  exact not_released (j := 0) hwaiter htarget hdone hparked

end Dtact.Runtime
