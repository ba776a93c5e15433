import Dtact.Runtime.Model
import Dtact.Scheduler.Conservation

/-!
# What one step does

Most steps of a call touch nothing but the state word and the statistics of the fiber that makes it.
The others hand a context on.

Results:
1. `Call.run_runs`: the steps of a call, with what each of them writes.
2. `Call.run_does`: all one step of a call can do to the contexts.
3. `Machine.step_takes`: all one step of the runtime can do.
-/

namespace Dtact.Runtime

open Scheduler

/-- The context a call is about to enqueue. -/
def Call.wakes : Call → List Nat
  | .wakeFiber _ i _ _ _ => [i]
  | _ => []

/-- The context a call has allocated and not yet started. -/
def Call.spawns : Call → List Nat
  | .spawn _ _ (.init i) => [i]
  | _ => []

/-- What a decision of user code on a fiber leads to. -/
inductive UserAct.Leads : List Call → UserAct → Control → Prop
  | wake (i : Nat) (route : Option Nat) (calls : List Call) :
      Leads calls (.wake i route) (.body (.wake i route :: calls))
  | spawn (l : Launch) (core : Nat) (calls : List Call) :
      Leads calls (.spawn l core) (.body (.spawn l core .alloc :: calls))
  | wait (calls : List Call) : Leads calls .wait (.body (.wait .load :: calls))
  | yieldTo (target core : Nat) (calls : List Call) :
      Leads calls (.yieldTo target core)
        (.body (.wake target (some core) :: .yieldTo .store :: calls))
  | await (target gen : Nat) (calls : List Call) :
      Leads calls (.await target gen) (.body (.await target gen .swap :: calls))
  | poll (u : UserAct) (pc pc' : WaitPc) (rest : List Call) :
      Leads (.wait pc :: rest) u (.body (.wait pc' :: rest))
  | done (u : UserAct) : Leads [] u (.epilogue .finish [])
  | unwind (c : Call) (rest : List Call) : Leads (c :: rest) .panic (.body (unwind rest))

theorem UserAct.onFiber_leads {u : UserAct} {calls : List Call} {c : Control}
    (h : u.onFiber calls = some c) : Leads calls u c := by
  cases u with
  | pollReady | pollPending =>
    simp only [onFiber] at h
    split at h <;> cases h <;> exact .poll ..
  | finish =>
    obtain ⟨rfl, heq⟩ := Option.ite_none_right_eq_some.mp h
    cases heq
    exact .done _
  | panic =>
    simp only [onFiber] at h
    split at h <;> cases h
    · exact .done _
    · exact .unwind ..
  | _ =>
    cases h
    constructor

variable {n : Nat}

/-- The calls a step puts in the place of the one that was made. -/
def Next.own : Next n → List Call
  | .goto calls _ => calls
  | .switch calls _ => calls
  | .panic _ => []

/-- What a fiber stores in its own state word while it is in a call. -/
def Active (state : FiberStatus) : Prop :=
  state = .running ∨ state = .notified ∨ state = .suspending

/-- From `sh` to `sh'` at most the own state word changes, apart from data that no
transition depends on. -/
structure Still (who : Who n) (sh sh' : Shared n) : Prop where
  sched : sh'.sched = sh.sched
  free : sh'.free = sh.free
  fibers : sh'.fibers = sh.fibers
  state : ∀ j, (sh'.ctx j).state = (sh.ctx j).state ∨
    who.fiber = some j ∧ Active (sh'.ctx j).state

namespace Shared

@[simp]
theorem setCtx_self (sh : Shared n) (i : Nat) (c : FiberContext) : (sh.setCtx i c).ctx i = c := by
  simp [setCtx]

theorem setCtx_ne (sh : Shared n) {i j : Nat} (h : j ≠ i) (c : FiberContext) :
    (sh.setCtx i c).ctx j = sh.ctx j := by
  simp [setCtx, h]

@[simp]
theorem setState_self (sh : Shared n) (i : Nat) (state : FiberStatus) :
    ((sh.setState i state).ctx i).state = state := by
  simp [setState]

theorem setState_ne (sh : Shared n) {i j : Nat} (h : j ≠ i) (state : FiberStatus) :
    (sh.setState i state).ctx j = sh.ctx j :=
  sh.setCtx_ne h _

@[simp]
theorem setFiber_self (sh : Shared n) (i : Nat) (c : Control) : (sh.setFiber i c).fibers i = c := by
  simp [setFiber]

theorem setFiber_ne (sh : Shared n) {i j : Nat} (h : j ≠ i) (c : Control) :
    (sh.setFiber i c).fibers j = sh.fibers j := by
  simp [setFiber, h]

end Shared

namespace Still

variable {who : Who n} {sh : Shared n}

theorem refl : Still who sh sh := ⟨rfl, rfl, rfl, fun _ => Or.inl rfl⟩

theorem setCtx {i : Nat} {c : FiberContext} (h : c.state = (sh.ctx i).state) :
    Still who sh (sh.setCtx i c) where
  sched := rfl
  free := rfl
  fibers := rfl
  state j := by
    by_cases hj : j = i
    · subst hj
      exact Or.inl (by rw [sh.setCtx_self, h])
    · exact Or.inl (by rw [sh.setCtx_ne hj])

theorem setState {self : Nat} {state : FiberStatus} (hself : who.fiber = some self)
    (h : Active state) : Still who sh (sh.setState self state) where
  sched := rfl
  free := rfl
  fibers := rfl
  state j := by
    by_cases hj : j = self
    · subst hj
      exact Or.inr ⟨hself, by rwa [sh.setState_self]⟩
    · exact Or.inl (by rw [sh.setState_ne hj])

end Still

/-- All one step of a call can do. -/
inductive Call.Does (who : Who n) (sh : Shared n) : Call → Next n → Prop
  | still {c : Call} {next : Next n} : Still who sh next.shared →
      next.own.flatMap Call.wakes = c.wakes → next.own.flatMap Call.spawns = c.spawns →
      Does who sh c next
  | panic {c : Call} : Does who sh c (.panic sh)
  | wake {i : Nat} {route : Option Nat} {calls : List Call} :
      calls.flatMap Call.wakes = (if (sh.ctx i).state = .yielded then [i] else []) →
      calls.flatMap Call.spawns = [] →
      Does who sh (.wake i route) (.goto calls (sh.setState i .notified))
  | enqueue {origin i : Nat} {pinned : Bool} {affinity : Affinity} {sched : DtaScheduler n} :
      sched.held = sh.sched.held + {i} →
      Does who sh (.wakeFiber origin i pinned affinity .enqueue) (.goto [] { sh with sched })
  | alloc {l : Launch} {core i : Nat} {pc : SpawnPc} {sh₁ : Shared n} {free : List Nat} :
      Still who sh sh₁ → sh.free = i :: free →
      Does who sh (.spawn l core pc) (.goto [.spawn l core (.init i)] { sh₁ with free })
  | start {l : Launch} {core core' i : Nat} :
      Does who sh (.spawn l core (.init i))
        (.goto [(l.start core' i sh).wakeFiber core' i] (l.start core' i sh))

/-! ## Steps of a call -/

/-- The call is about to switch to the worker. -/
def Call.switches : Call → Bool
  | .wait .switch | .yieldTo .switch | .await _ _ .switch => true
  | .wakeFiber _ _ _ _ .switch | .spawn _ _ .switch => true
  | _ => false

/-- The call goes on, or returns, after a step that neither stores a state word nor hands a
context on. -/
inductive Call.Goes : Call → List Call → Prop
  | wait {pc pc' : WaitPc} : (Call.wait pc).switches = false → (Call.wait pc').switches = false →
      Goes (.wait pc) [.wait pc']
  | polled {pc : WaitPc} : (Call.wait pc).switches = false → Goes (.wait pc) []
  | wakeFiber {origin i : Nat} {pinned : Bool} {affinity : Affinity} {pc : EnqueuePc} :
      (Call.wakeFiber origin i pinned affinity pc).switches = false →
      Goes (.wakeFiber origin i pinned affinity .enqueue) [.wakeFiber origin i pinned affinity pc]
  | await {target gen : Nat} {pc pc' : AwaitPc} : (Call.await target gen pc).switches = false →
      (Call.await target gen pc').switches = false →
      Goes (.await target gen pc) [.await target gen pc']
  | awaited {target gen : Nat} {pc : AwaitPc} : (Call.await target gen pc).switches = false →
      Goes (.await target gen pc) []
  | spawn {l : Launch} {core : Nat} {pc pc' : SpawnPc} :
      (Call.spawn l core pc).switches = false → (Call.spawn l core pc').switches = false →
      (Call.spawn l core pc).spawns = [] → (Call.spawn l core pc').spawns = [] →
      Goes (.spawn l core pc) [.spawn l core pc']

/-- The switch, and where the call goes on after it. -/
inductive Call.Switches : Call → List Call → Prop
  | wait : Switches (.wait .switch) [.wait .load]
  | yieldTo : Switches (.yieldTo .switch) []
  | await {target gen : Nat} : Switches (.await target gen .switch) [.await target gen .swap]
  | wakeFiber {origin i : Nat} {pinned : Bool} {affinity : Affinity} :
      Switches (.wakeFiber origin i pinned affinity .switch)
        [.wakeFiber origin i pinned affinity .enqueue]
  | spawn {l : Launch} {core : Nat} : Switches (.spawn l core .switch) [.spawn l core .alloc]

/-- What a fiber stores in its own state word. -/
inductive Call.Stores : Call → FiberStatus → Call → Prop
  | wait : Stores (.wait .store) .running (.wait .callPoll)
  | waitCas : Stores (.wait .cas) .suspending (.wait .switch)
  | yieldTo : Stores (.yieldTo .store) .suspending (.yieldTo .switch)
  | await {target gen : Nat} :
      Stores (.await target gen .swap) .running (.await target gen .loadGen)
  | awaitCas {target gen : Nat} :
      Stores (.await target gen .cas) .suspending (.await target gen .switch)
  | wakeFiber {origin i : Nat} {pinned : Bool} {affinity : Affinity} :
      Stores (.wakeFiber origin i pinned affinity .store) .notified
        (.wakeFiber origin i pinned affinity .switch)
  | spawn {l : Launch} {core : Nat} :
      Stores (.spawn l core .store) .notified (.spawn l core .switch)

/-- A step of a call can be followed by the other one in its place. -/
inductive Call.Follows : Call → Call → Prop
  | wait (pc pc' : WaitPc) : Follows (.wait pc) (.wait pc')
  | wake (i : Nat) (route : Option Nat) (origin : Nat) (pinned : Bool) (affinity : Affinity) :
      Follows (.wake i route) (.wakeFiber origin i pinned affinity .enqueue)
  | wakeFiber (origin i : Nat) (pinned : Bool) (affinity : Affinity) (pc pc' : EnqueuePc) :
      Follows (.wakeFiber origin i pinned affinity pc) (.wakeFiber origin i pinned affinity pc')
  | yieldTo (pc pc' : YieldPc) : Follows (.yieldTo pc) (.yieldTo pc')
  | await (target gen : Nat) (pc pc' : AwaitPc) :
      Follows (.await target gen pc) (.await target gen pc')
  | spawn (l : Launch) (core : Nat) (pc pc' : SpawnPc) :
      Follows (.spawn l core pc) (.spawn l core pc')
  | start (l : Launch) (core i origin : Nat) (pinned : Bool) (affinity : Affinity) :
      Follows (.spawn l core (.init i)) (.wakeFiber origin i pinned affinity .enqueue)

/-- At most one call takes the place of the one that made a step. -/
def Next.Replaces (next : Next n) (c : Call) : Prop :=
  next.own = [] ∨ ∃ c', next.own = [c'] ∧ c.Follows c'

theorem Next.Replaces.follows {next : Next n} {c c' : Call} (h : next.Replaces c)
    (hmem : c' ∈ next.own) : c.Follows c' := by
  rcases h with hown | ⟨c₁, hown, hf⟩
  · rw [hown] at hmem
    cases hmem
  · rw [hown] at hmem
    obtain rfl := List.mem_singleton.mp hmem
    exact hf

/-- The steps of a call, by what they do to the state that the threads share. -/
inductive Call.Runs (who : Who n) (sh : Shared n) : Call → Next n → Prop
  | quiet {c : Call} {own : List Call} : c.Goes own → Runs who sh c (.goto own sh)
  | spin {c : Call} {own : List Call} {self cs fc : Nat} : c.Goes own → who.fiber = some self →
      Runs who sh c (.goto own (sh.setSpin self cs fc))
  | switch {c : Call} {own : List Call} : c.Switches own → Runs who sh c (.switch own sh)
  | store {c c' : Call} {self : Nat} {state : FiberStatus} : c.Stores state c' →
      who.fiber = some self →
      (state = .suspending → c = .yieldTo .store ∨ (sh.ctx self).state = .running) →
      Runs who sh c (.goto [c'] (sh.setState self state))
  | register {target gen self : Nat} : who.fiber = some self →
      Runs who sh (.await target gen .register) (.goto [.await target gen .recheckGen]
        (sh.setCtx target { sh.ctx target with waiterHandle := waiterHandle self who.current }))
  | unregister {target gen self : Nat} : who.fiber = some self →
      (sh.ctx target).waiterHandle = waiterHandle self who.current →
      Runs who sh (.await target gen .unregister)
        (.goto [] (sh.setCtx target { sh.ctx target with waiterHandle := 0 }))
  | wake {i : Nat} {route : Option Nat} (origin : Nat) :
      Runs who sh (.wake i route) (.goto
        (if (sh.ctx i).state = .yielded then [(sh.setState i .notified).wakeFiber origin i] else [])
        (sh.setState i .notified))
  | enqueue {origin i : Nat} {pinned : Bool} {affinity : Affinity} {sched : DtaScheduler n} :
      sched.held = sh.sched.held + {i} →
      Runs who sh (.wakeFiber origin i pinned affinity .enqueue) (.goto [] { sh with sched })
  | overflow {origin i : Nat} {pinned : Bool} {affinity : Affinity} :
      Runs who sh (.wakeFiber origin i pinned affinity .enqueue) (.panic sh)
  | exhausted {l : Launch} {core : Nat} : Runs who sh (.spawn l core .alloc) (.panic sh)
  | alloc {l : Launch} {core i : Nat} {pc : SpawnPc} {sh₁ : Shared n} {free : List Nat} :
      sh₁ = sh ∨ (∃ self cs fc, sh₁ = sh.setSpin self cs fc) →
      (Call.spawn l core pc).spawns = [] → sh.free = i :: free →
      Runs who sh (.spawn l core pc) (.goto [.spawn l core (.init i)] { sh₁ with free })
  | start {l : Launch} {core i : Nat} :
      Runs who sh (.spawn l core (.init i))
        (.goto [(l.start (l.core who.current core) i sh).wakeFiber (l.core who.current core) i]
          (l.start (l.core who.current core) i sh))

namespace Call.Goes

variable {c : Call} {own : List Call}

theorem switches (h : c.Goes own) : c.switches = false ∧ ∀ c' ∈ own, c'.switches = false := by
  cases h with
  | wait h h' | await h h' | spawn h h' => exact ⟨h, List.forall_mem_singleton.mpr h'⟩
  | wakeFiber h => exact ⟨rfl, List.forall_mem_singleton.mpr h⟩
  | polled h | awaited h => exact ⟨h, fun _ hc => absurd hc List.not_mem_nil⟩

theorem wakes (h : c.Goes own) : own.flatMap Call.wakes = c.wakes := by
  cases h <;> rfl

theorem spawns (h : c.Goes own) : c.spawns = [] ∧ own.flatMap Call.spawns = [] := by
  cases h with
  | spawn _ _ h h' => exact ⟨h, by simpa using h'⟩
  | _ => exact ⟨rfl, rfl⟩

theorem follows (h : c.Goes own) : own = [] ∨ ∃ c', own = [c'] ∧ c.Follows c' := by
  cases h with
  | polled _ | awaited _ => exact .inl rfl
  | _ => exact .inr ⟨_, rfl, by constructor⟩

end Call.Goes

section

variable {who : Who n} {sh : Shared n} {next : Next n} {self : Nat}

theorem WaitPc.run_runs {pc : WaitPc} (hself : who.fiber = some self)
    (h : pc.run self sh = some next) : (Call.wait pc).Runs who sh next := by
  cases pc with
  | load =>
    simp only [WaitPc.run] at h
    split at h <;> (cases h; exact .quiet (.wait rfl rfl))
  | store =>
    cases h
    exact .store .wait hself (by simp)
  | polling | spinPolling i cs fc => cases h
  | reward | spinReward cs fc =>
    cases h
    exact .spin (.polled rfl) hself
  | pending =>
    cases h
    exact .quiet (.wait rfl (by split <;> rfl))
  | spin i cs fc =>
    simp only [WaitPc.run] at h
    split_ifs at h <;> (cases h; exact .quiet (.wait rfl rfl))
  | penalize cs fc =>
    cases h
    exact .spin (.wait rfl rfl) hself
  | cas =>
    simp only [WaitPc.run] at h
    split at h
    · next hrun =>
      cases h
      exact .store .waitCas hself fun _ => .inr hrun
    · cases h
      exact .quiet (.wait rfl rfl)
  | switch =>
    cases h
    exact .switch .wait
  | callPoll =>
    cases h
    exact .quiet (.wait rfl rfl)

theorem AwaitPc.run_runs (pc : AwaitPc) (hself : who.fiber = some self) (target gen : Nat) :
    (Call.await target gen pc).Runs who sh (pc.run self who.current target gen sh) := by
  cases pc with
  | swap => exact .store .await hself (by simp)
  | loadGen | recheckGen => exact .quiet (.await rfl rfl)
  | loadState g =>
    simp only [AwaitPc.run]
    split
    · exact .quiet (.awaited rfl)
    · exact .quiet (.await rfl rfl)
  | recheckState g =>
    simp only [AwaitPc.run]
    split <;> exact .quiet (.await rfl rfl)
  | register => exact .register hself
  | unregister =>
    simp only [AwaitPc.run]
    split
    · next heq => exact .unregister hself heq
    · exact .quiet (.awaited rfl)
  | cas =>
    simp only [AwaitPc.run]
    split
    · next hrun => exact .store .awaitCas hself fun _ => .inr hrun
    · exact .quiet (.await rfl rfl)
  | switch => exact .switch .await

theorem SpawnPc.run_runs {pc : SpawnPc} {l : Launch} {core : Nat}
    (h : pc.run who l core sh = some next) : (Call.spawn l core pc).Runs who sh next := by
  cases pc with
  | alloc =>
    simp only [SpawnPc.run] at h
    split at h
    · next hfree _ =>
      cases h
      exact .alloc (.inr ⟨_, _, _, rfl⟩) rfl hfree
    · next hfree _ =>
      cases h
      exact .alloc (.inl rfl) rfl hfree
    · cases h
      exact .quiet (.spawn rfl (by split <;> rfl) rfl (by split <;> rfl))
    · cases h
      exact .quiet (.spawn rfl rfl rfl rfl)
    · cases h
      exact .exhausted
  | spin k cs fc =>
    obtain ⟨self, _, rfl⟩ := Option.map_eq_some_iff.mp h
    split
    · split
      · next hfree => exact .alloc (.inr ⟨_, _, _, rfl⟩) rfl hfree
      · exact .quiet (.spawn rfl rfl rfl rfl)
    · exact .quiet (.spawn rfl rfl rfl rfl)
  | penalize cs fc =>
    obtain ⟨self, hself, rfl⟩ := Option.map_eq_some_iff.mp h
    exact .spin (.spawn rfl rfl rfl rfl) hself
  | store =>
    obtain ⟨self, hself, rfl⟩ := Option.map_eq_some_iff.mp h
    exact .store .spawn hself (by simp)
  | switch =>
    cases h
    exact .switch .spawn
  | init i =>
    cases h
    exact .start

variable [NeZero n]

/-- `wake_fiber`'s enqueue takes the task, leaves the scheduler as it is, or
overflows the warehouse. -/
theorem Shared.enqueue_spec (sh : Shared n) (current : Caller n) (origin i : Nat) (pinned : Bool)
    (affinity : Affinity) :
    sh.enqueue current origin i pinned affinity = .ok (false, sh.sched) ∨
      (∃ sched, sh.enqueue current origin i pinned affinity = .ok (true, sched) ∧
        sched.held = sh.sched.held + {i}) ∨
      sh.enqueue current origin i pinned affinity = .error .overflow := by
  cases pinned with
  | true =>
    rcases sh.sched.enqueuePinned_spec current origin i with he | ⟨sched, he, hd⟩
    · exact Or.inl (congrArg Except.ok he)
    · exact Or.inr (Or.inl ⟨sched, congrArg Except.ok he, hd.held⟩)
  | false =>
    rcases sh.sched.enqueueDeflect_spec current origin i i affinity with he | ⟨_, sched, he, hd, _⟩
    · exact Or.inr (Or.inr he)
    · exact Or.inr (Or.inl ⟨sched, he, hd.held⟩)

theorem EnqueuePc.run_runs {pc : EnqueuePc} {origin i : Nat} {pinned : Bool} {affinity : Affinity}
    (h : pc.run who origin i pinned affinity sh = some next) :
    (Call.wakeFiber origin i pinned affinity pc).Runs who sh next := by
  cases pc with
  | enqueue =>
    simp only [EnqueuePc.run] at h
    rcases sh.enqueue_spec who.current origin i pinned affinity with he | ⟨sched, he, hd⟩ | he
    · rw [he] at h
      cases h
      exact .quiet (.wakeFiber (by split <;> rfl))
    · rw [he] at h
      cases h
      exact .enqueue hd
    · rw [he] at h
      cases h
      exact .overflow
  | store =>
    obtain ⟨self, hself, rfl⟩ := Option.map_eq_some_iff.mp h
    exact .store .wakeFiber hself (by simp)
  | switch =>
    cases h
    exact .switch .wakeFiber

theorem Call.run_runs {c : Call} (h : c.run who sh = some next) : c.Runs who sh next := by
  cases c with
  | wait pc =>
    obtain ⟨self, hself, h⟩ := Option.bind_eq_some_iff.mp h
    exact WaitPc.run_runs hself h
  | wake i route =>
    have hwake : Runs who sh (.wake i route) _ :=
      .wake (route.getD ((sh.setState i .notified).ctx i).originCore)
    simp only [Call.run] at h
    split at h
    · next hy =>
      cases h
      rwa [if_pos hy] at hwake
    · next hy =>
      cases h
      rwa [if_neg hy] at hwake
  | wakeFiber origin i pinned affinity pc => exact EnqueuePc.run_runs h
  | yieldTo pc =>
    cases pc with
    | store =>
      obtain ⟨self, hself, rfl⟩ := Option.map_eq_some_iff.mp h
      exact .store .yieldTo hself fun _ => .inl rfl
    | switch =>
      cases h
      exact .switch .yieldTo
  | await target gen pc =>
    obtain ⟨self, hself, rfl⟩ := Option.map_eq_some_iff.mp h
    exact pc.run_runs hself target gen
  | spawn l core pc => exact SpawnPc.run_runs h

theorem Call.run_follows {c : Call} (h : c.run who sh = some next) : next.Replaces c := by
  cases Call.run_runs h with
  | quiet hm | spin hm _ => exact hm.follows
  | switch hs =>
    cases hs with
    | yieldTo => exact .inl rfl
    | _ => exact .inr ⟨_, rfl, by constructor⟩
  | store hs => cases hs <;> exact .inr ⟨_, rfl, by constructor⟩
  | wake =>
    simp only [Next.Replaces, Next.own]
    split
    · exact .inr ⟨_, rfl, .wake ..⟩
    · exact .inl rfl
  | register _ | alloc _ _ _ | start => exact .inr ⟨_, rfl, by constructor⟩
  | unregister _ _ | enqueue _ | overflow | exhausted => exact .inl rfl

theorem Call.run_does {c : Call} (h : c.run who sh = some next) : c.Does who sh next := by
  cases Call.run_runs h with
  | quiet hm => exact .still .refl hm.wakes (hm.spawns.2.trans hm.spawns.1.symm)
  | spin hm _ => exact .still (.setCtx rfl) hm.wakes (hm.spawns.2.trans hm.spawns.1.symm)
  | switch hs => cases hs <;> exact .still .refl rfl rfl
  | store hs hself _ =>
    cases hs with
    | wait | await => exact .still (.setState hself (.inl rfl)) rfl rfl
    | wakeFiber | spawn => exact .still (.setState hself (.inr (.inl rfl))) rfl rfl
    | waitCas | yieldTo | awaitCas => exact .still (.setState hself (.inr (.inr rfl))) rfl rfl
  | register _ | unregister _ _ => exact .still (.setCtx rfl) rfl rfl
  | wake => exact .wake (by split <;> rfl) (by split <;> rfl)
  | enqueue hheld => exact .enqueue hheld
  | overflow | exhausted => exact .panic
  | alloc hsh _ hfree =>
    rcases hsh with rfl | ⟨_, _, _, rfl⟩
    · exact .alloc .refl hfree
    · exact .alloc (.setCtx rfl) hfree
  | start => exact .start

end

/-! ## Steps of the runtime -/

namespace Machine

variable {cap hosts : Nat} [NeZero n] {rt rt' : Machine n cap hosts} {a : Act n hosts}

/-- The runtime after a step of the topmost call of the fiber `i`. -/
def proceed (rt : Machine n cap hosts) (w : Fin n) (i : Fin cap) (c : Control) (next : Next n) :
    Machine n cap hosts :=
  { rt with shared := next.shared.setFiber i c }.setWorker w (.on next.stage i)

/-- All the worker `w` can do after the switch back from the fiber `i`: the shared state and the
worker that follow. -/
inductive Settles (sh : Shared n) (w : Fin n) (i : Fin cap) :
    Stage → Shared n → WorkerPc cap → Prop
  | after {stage : Stage} : stage = .inspect ∨ stage = .parkCas → (sh.ctx i).state ≠ .suspending →
      Settles sh w i stage sh (afterSwitch i (sh.ctx i).state)
  | inspect : (sh.ctx i).state = .suspending → Settles sh w i .inspect sh (.on .parkCas i)
  | park : (sh.ctx i).state = .suspending →
      Settles sh w i .parkCas (sh.setState i .yielded) .idle
  | requeue : Settles sh w i .requeue { sh with sched := (sh.sched.pushLocal w i).2 } .idle
  | freeState : Settles sh w i .freeState (sh.setState i .initial) (.on .freeGen i)
  | freeGen : Settles sh w i .freeGen
      (sh.setCtx i { sh.ctx i with generation := ((sh.ctx i).generation + 1) % u32Mod })
      (.on .freePush i)
  | freePush : Settles sh w i .freePush { sh with free := i.val :: sh.free } .idle

/-- All one step of the runtime can do. -/
inductive Takes (rt : Machine n cap hosts) : Act n hosts → Machine n cap hosts → Prop
  | hostUser {h : Fin hosts} {u : UserAct} {calls : List Call} :
      u.call (rt.hosts h) = some calls → Takes rt (.user (.host h) u) (rt.setHost h calls)
  | fiberUser {w : Fin n} {i : Fin cap} {u : UserAct} {calls : List Call} {c : Control} :
      rt.workers w = .on .running i → rt.shared.fibers i = .body calls → inUser calls →
      u.onFiber calls = some c →
      Takes rt (.user (.fiber w) u) { rt with shared := rt.shared.setFiber i c }
  | hostRun {h : Fin hosts} {c : Call} {rest : List Call} {next : Next n} :
      rt.hosts h = c :: rest → c.run ⟨none, .host⟩ rt.shared = some next →
      Takes rt (.run (.host h)) ({ rt with shared := next.shared }.setHost h (next.calls rest))
  | body {w : Fin n} {i : Fin cap} {c : Call} {rest : List Call} {next : Next n} :
      rt.workers w = .on .running i → rt.shared.fibers i = .body (c :: rest) →
      c.run ⟨some i, .worker w⟩ rt.shared = some next →
      Takes rt (.run (.fiber w)) (rt.proceed w i (.body (next.calls rest)) next)
  | late {w : Fin n} {i : Fin cap} {pc : EpiloguePc} {c : Call} {rest : List Call} {next : Next n} :
      rt.workers w = .on .running i → rt.shared.fibers i = .epilogue pc (c :: rest) →
      c.run ⟨some i, .worker w⟩ rt.shared = some next → ¬ next.isPanic →
      Takes rt (.run (.fiber w)) (rt.proceed w i (.epilogue pc (next.calls rest)) next)
  | epilogue {w : Fin n} {i : Fin cap} {pc : EpiloguePc} :
      rt.workers w = .on .running i → rt.shared.fibers i = .epilogue pc [] →
      Takes rt (.run (.fiber w)) (rt.epilogue w i pc)
  | abort {w : Fin n} {i : Fin cap} {pc : EpiloguePc} {c : Call} {rest : List Call}
      {next : Next n} :
      rt.workers w = .on .running i → rt.shared.fibers i = .epilogue pc (c :: rest) →
      c.run ⟨some i, .worker w⟩ rt.shared = some next → next.isPanic →
      Takes rt (.run (.fiber w)) { rt with aborted := true }
  | settle {w : Fin n} {i : Fin cap} {stage : Stage} {shared : Shared n} {pc : WorkerPc cap} :
      rt.workers w = .on stage i → Settles rt.shared w i stage shared pc →
      Takes rt (.settle w) ({ rt with shared }.setWorker w pc)
  | dispatch {w : Fin n} {i : Fin cap} {sched : DtaScheduler n} :
      rt.workers w = .idle → rt.shared.sched.held = sched.held + {i.val} →
      Takes rt (.dispatch w)
        ({ rt with shared := { rt.shared with sched } }.setWorker w (.on .running i))
  | receive {a : Act n hosts} {w : Fin n} {sched : DtaScheduler n} : a = .poll w ∨ a = .drain w →
      sched.held = rt.shared.sched.held →
      Takes rt a { rt with shared := { rt.shared with sched } }

theorem userStep_takes {t : Thread n hosts} {u : UserAct} (h : rt.userStep t u = some rt') :
    rt.Takes (.user t u) rt' := by
  cases t with
  | host k =>
    simp only [userStep] at h
    split at h
    · simp only [Option.map_eq_some_iff] at h
      obtain ⟨calls, hcalls, rfl⟩ := h
      exact .hostUser hcalls
    · cases h
  | fiber w =>
    simp only [userStep] at h
    split at h
    · next i hw =>
      split at h
      · next calls hc =>
        split at h
        · next hu =>
          simp only [Option.map_eq_some_iff] at h
          obtain ⟨c, hcalls, rfl⟩ := h
          exact .fiberUser hw hc hu hcalls
        · cases h
      · cases h
    · cases h

theorem runFiber_takes {w : Fin n} {i : Fin cap} (hw : rt.workers w = .on .running i)
    (h : rt.runFiber w i = some rt') : rt.Takes (.run (.fiber w)) rt' := by
  simp only [runFiber] at h
  split at h
  · cases h
  · cases h
  · next c rest hc =>
    simp only [Option.map_eq_some_iff] at h
    obtain ⟨next, hnext, rfl⟩ := h
    exact .body hw hc hnext
  · next pc hc =>
    cases h
    exact .epilogue hw hc
  · next pc c rest hc =>
    simp only [Option.map_eq_some_iff] at h
    obtain ⟨next, hnext, rfl⟩ := h
    split
    · next hp => exact .abort hw hc hnext hp
    · next hp => exact .late hw hc hnext hp

theorem runHost_takes {k : Fin hosts} (h : rt.runHost k = some rt') :
    rt.Takes (.run (.host k)) rt' := by
  simp only [runHost] at h
  split at h
  · cases h
  · next c rest hc =>
    simp only [Option.map_eq_some_iff] at h
    obtain ⟨next, hnext, rfl⟩ := h
    exact .hostRun hc hnext

omit [NeZero n] in
theorem dispatch_eq {w : Fin n} (h : rt.dispatch w = some rt') :
    ∃ (i : Fin cap) (sched : DtaScheduler n), rt.workers w = .idle ∧
      rt.shared.sched.popLocal w = (some i.val, sched) ∧
      rt' = { rt with shared := { rt.shared with sched } }.setWorker w (.on .running i) := by
  unfold Machine.dispatch at h
  split at h
  · next task sched hw hpop =>
    split at h
    · next htask =>
      cases h
      exact ⟨⟨task, htask⟩, sched, hw, hpop, rfl⟩
    · cases h
  · cases h

theorem dispatch_takes {w : Fin n} (h : rt.dispatch w = some rt') :
    rt.Takes (.dispatch w) rt' := by
  obtain ⟨i, sched, hw, hpop, rfl⟩ := dispatch_eq h
  rcases rt.shared.sched.popLocal_spec w with he | ⟨task, l, sched', he, hq, heff⟩
  · rw [he] at hpop
    cases hpop
  · rw [he] at hpop
    cases hpop
    exact .dispatch hw (heff.held_dispatched hq)

theorem settle_takes {w : Fin n} {i : Fin cap} {stage : Stage} (hw : rt.workers w = .on stage i)
    (h : rt.settle w i stage = some rt') : rt.Takes (.settle w) rt' := by
  cases stage with
  | running => cases h
  | inspect =>
    simp only [Machine.settle] at h
    split at h <;> cases h
    · next hsus => exact .settle hw (.inspect hsus)
    · next hsus => exact .settle hw (.after (.inl rfl) hsus)
  | parkCas =>
    simp only [Machine.settle] at h
    split at h <;> cases h
    · next hsus => exact .settle hw (.park hsus)
    · next hsus => exact .settle hw (.after (.inr rfl) hsus)
  | requeue =>
    cases h
    exact .settle hw .requeue
  | freeState =>
    cases h
    exact .settle hw .freeState
  | freeGen =>
    cases h
    exact .settle hw .freeGen
  | freePush =>
    cases h
    exact .settle hw .freePush

omit [NeZero n] in
/-- The worker keeps its task or has none any more. -/
theorem Settles.task {sh sh' : Shared n} {w : Fin n} {i : Fin cap} {stage : Stage}
    {pc : WorkerPc cap} (h : Settles sh w i stage sh' pc) :
    pc.task? = some i.val ∨ pc = .idle := by
  cases h with
  | after =>
    unfold afterSwitch
    split_ifs
    · exact .inl rfl
    · exact .inl rfl
    · exact .inr rfl
  | inspect | freeState | freeGen => exact .inl rfl
  | park | requeue | freePush => exact .inr rfl

theorem receive_takes {w : Fin n} {received : Except Fault (Bool × DtaScheduler n)}
    (ha : a = .poll w ∨ a = .drain w)
    (hr : ∀ b sched, received = .ok (b, sched) → sched.held = rt.shared.sched.held)
    (h : rt.receive w received = some rt') : rt.Takes a rt' := by
  unfold Machine.receive at h
  split at h
  · cases h
    exact .receive ha (hr _ _ rfl)
  · cases h

theorem step_takes (h : step a rt = some rt') : rt.Takes a rt' := by
  unfold step at h
  split at h
  · cases h
  · cases a with
    | user t u => exact userStep_takes h
    | run t =>
      cases t with
      | host k => exact runHost_takes h
      | fiber w =>
        simp only at h
        split at h
        · next hw => exact runFiber_takes hw h
        · cases h
    | settle w =>
      simp only at h
      split at h
      · next hw => exact settle_takes hw h
      · cases h
    | dispatch w => exact dispatch_takes h
    | poll w =>
      refine receive_takes (Or.inl rfl) (fun b sched hb => ?_) h
      rcases rt.shared.sched.pollMailboxes_spec w with he | ⟨b', sched', he, hp⟩
      · rw [he] at hb
        cases hb
      · rw [he] at hb
        cases hb
        exact hp.held
    | drain w =>
      refine receive_takes (Or.inr rfl) (fun b sched hb => ?_) h
      obtain ⟨b', sched', he, hd⟩ := rt.shared.sched.drainWarehouse_spec w
      rw [he] at hb
      cases hb
      exact hd.held

/-! ### Steps that can be taken -/

section

variable {w : Fin n} {i : Fin cap} {k : Fin hosts} {u : UserAct} {c : Call}
  {calls rest : List Call} {next : Next n} (hlive : rt.aborted = false)
include hlive

theorem step_fiberUser {control : Control} (hw : rt.workers w = .on .running i)
    (hc : rt.shared.fibers i = .body calls) (hin : inUser calls)
    (hu : u.onFiber calls = some control) :
    step (.user (.fiber w) u) rt = some { rt with shared := rt.shared.setFiber i control } := by
  simp [step, hlive, userStep, hw, hc, hin, hu]

theorem step_body (hw : rt.workers w = .on .running i)
    (hc : rt.shared.fibers i = .body (c :: rest))
    (hr : c.run ⟨some i, .worker w⟩ rt.shared = some next) :
    step (.run (.fiber w)) rt = some (rt.proceed w i (.body (next.calls rest)) next) := by
  simp [step, hlive, hw, runFiber, hc, hr, proceed]

theorem step_hostUser (hin : inUser (rt.hosts k)) (hu : u.call (rt.hosts k) = some calls) :
    step (.user (.host k) u) rt = some (rt.setHost k calls) := by
  simp [step, hlive, userStep, hin, hu]

theorem step_hostRun (hc : rt.hosts k = c :: rest)
    (hr : c.run ⟨none, .host⟩ rt.shared = some next) :
    step (.run (.host k)) rt =
      some ({ rt with shared := next.shared }.setHost k (next.calls rest)) := by
  simp [step, hlive, runHost, hc, hr]

theorem step_settle {stage : Stage} (hw : rt.workers w = .on stage i) :
    step (.settle w) rt = rt.settle w i stage := by
  simp [step, hlive, hw]

theorem step_poll {b : Bool} {sched : DtaScheduler n} (hw : rt.workers w = .idle)
    (hpoll : rt.shared.sched.pollMailboxes w = .ok (b, sched)) :
    step (.poll w) rt = some { rt with shared := { rt.shared with sched } } := by
  simp [step, hlive, receive, hw, hpoll]

theorem step_dispatch {sched : DtaScheduler n} (hw : rt.workers w = .idle)
    (hpop : rt.shared.sched.popLocal w = (some i.val, sched)) :
    step (.dispatch w) rt =
      some ({ rt with shared := { rt.shared with sched } }.setWorker w (.on .running i)) := by
  simp [step, hlive, dispatch, hw, hpop]

end

end Machine

end Dtact.Runtime
