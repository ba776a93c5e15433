import Dtact.Runtime.SameThread

/-!
# The migration guard of `wait`

`wait` keeps in `last_os_thread_id` the thread it was called on, and panics when a later call is on
another one. The field outlives the call, and the fiber: only `SpawnBuilder::spawn` resets it. Each
worker is one thread, with the id `tid w`; the field is a history variable.
-/

namespace Dtact.Runtime

open Scheduler Transition

namespace Machine

/-- `last_os_thread_id` of each context, whether its fiber was started by `SpawnBuilder::spawn`,
whether `wait` was called since `SpawnBuilder::spawn` last started a fiber there, and the worker
that dispatched it last. -/
structure Guard (n : Nat) where
  lastOsThreadId : Nat → Nat
  built : Nat → Bool
  waited : Nat → Bool
  turn : Nat → Option (Fin n)

def Guard.new (n : Nat) : Guard n :=
  ⟨fun _ => 0, fun _ => false, fun _ => false, fun _ => none⟩

variable {n cap hosts : Nat}

/-- The worker and the context of a call of `wait`. What a fiber of `SpawnBuilder::spawn` calls
outside of a poll is `wait_pinned`, which has no guard. -/
def waits (rt : Machine n cap hosts) (g : Guard n) : Act n hosts → Option (Fin n × Nat)
  | .user (.fiber w) .wait =>
    match rt.workers w with
    | .on .running i =>
      if g.built i = true ∧ rt.shared.fibers i = .body [] then none else some (w, i)
    | _ => none
  | _ => none

/-- The worker and the context of a dispatch. -/
def dispatches (rt : Machine n cap hosts) : Act n hosts → Option (Fin n × Nat)
  | .dispatch w => (rt.shared.sched.popLocal w).1.map fun i => (w, i)
  | _ => none

/-- The guard at the beginning of `wait` on the thread `tid`; `none` is the panic. -/
def migrationGuard (lastOsThreadId tid : Nat) : Option Nat :=
  if lastOsThreadId = 0 then some tid
  else if lastOsThreadId ≠ tid then none
  else some lastOsThreadId

/-- A call of `wait` passes the guard. -/
def NoAlarm (tid : Fin n → Nat) (rt : Machine n cap hosts) (g : Guard n) (a : Act n hosts) : Prop :=
  ∀ p ∈ rt.waits g a, migrationGuard (g.lastOsThreadId p.2) (tid p.1) ≠ none

/-- A context in which `wait` was called since `SpawnBuilder::spawn` last started a fiber there is
dispatched by the worker that dispatched it last. -/
def OneWorker (rt : Machine n cap hosts) (g : Guard n) (a : Act n hosts) : Prop :=
  ∀ p ∈ rt.dispatches a, g.waited p.2 = true → g.turn p.2 = some p.1

instance (tid : Fin n → Nat) (rt : Machine n cap hosts) (g : Guard n) (a : Act n hosts) :
    Decidable (rt.NoAlarm tid g a) :=
  inferInstanceAs (Decidable (∀ p ∈ rt.waits g a, _))

instance (rt : Machine n cap hosts) (g : Guard n) (a : Act n hosts) :
    Decidable (rt.OneWorker g a) :=
  inferInstanceAs (Decidable (∀ p ∈ rt.dispatches a, _))

/-- The reset in `SpawnBuilder::spawn`. The other entry points leave the field as it is. -/
def Guard.launch (g : Guard n) (i : Nat) : Launch → Guard n
  | .builder _ _ _ _ =>
    { g with
      lastOsThreadId := Function.update g.lastOsThreadId i 0
      built := Function.update g.built i true
      waited := Function.update g.waited i false }
  | _ => { g with built := Function.update g.built i false }

/-- A call of `wait` on the worker `w`. -/
def Guard.wait (g : Guard n) (tid : Fin n → Nat) (w : Fin n) (i : Nat) : Guard n :=
  let last := g.lastOsThreadId i
  { g with
    lastOsThreadId := Function.update g.lastOsThreadId i ((migrationGuard last (tid w)).getD last)
    waited := Function.update g.waited i true }

/-- The worker `w` dispatches the context. -/
def Guard.dispatch (g : Guard n) (w : Fin n) (i : Nat) : Guard n :=
  { g with turn := Function.update g.turn i (some w) }

def noteGuard (tid : Fin n → Nat) (a : Act n hosts) (rt : Machine n cap hosts) (g : Guard n) :
    Guard n :=
  match rt.launches a, rt.waits g a, rt.dispatches a with
  | some (l, i), _, _ => g.launch i l
  | none, some (w, i), _ => g.wait tid w i
  | none, none, some (w, i) => g.dispatch w i
  | none, none, none => g

/-! ## Workers and turns -/

section

variable {tid : Fin n → Nat} {rt rt' : Machine n cap hosts} {g : Guard n} {a : Act n hosts}
  {w : Fin n} {i : Fin cap} {stage : Stage}

theorem update_on {w₀ : Fin n} {i₀ : Fin cap} {stage₀ : Stage} {pc : WorkerPc cap}
    (hw₀ : rt.workers w₀ = .on stage₀ i₀) (hpc : pc.task? = some i₀.val ∨ pc = .idle)
    (hw : Function.update rt.workers w₀ pc w = .on stage i) :
    ∃ stage', rt.workers w = .on stage' i := by
  by_cases h : w = w₀
  · subst h
    rw [Function.update_self] at hw
    subst hw
    rcases hpc with hpc | ⟨⟨⟩⟩
    obtain rfl : i = i₀ := Fin.ext (Option.some.inj hpc)
    exact ⟨stage₀, hw₀⟩
  · rw [Function.update_of_ne h] at hw
    exact ⟨stage, hw⟩

/-- Only a dispatch gives a worker a context. -/
theorem step_workers [NeZero n] (h : step a rt = some rt') (ha : ∀ w, a ≠ .dispatch w)
    (hw : rt'.workers w = .on stage i) : ∃ stage', rt.workers w = .on stage' i := by
  cases step_takes h with
  | hostUser | fiberUser | hostRun | abort | receive => exact ⟨stage, hw⟩
  | body hw₀ _ _ | late hw₀ _ _ _ => exact update_on hw₀ (.inl rfl) hw
  | @epilogue w₀ i₀ pc hw₀ _ =>
    cases pc with
    | switch => exact update_on hw₀ (.inl rfl) hw
    | finish | waiter | returned => exact ⟨stage, hw⟩
  | settle hw₀ hs => exact update_on hw₀ hs.task hw
  | dispatch => exact absurd rfl (ha _)

/-! ## The field and the turns -/

theorem migrationGuard_ne_none_iff {last tid : Nat} :
    migrationGuard last tid ≠ none ↔ last = 0 ∨ last = tid := by
  unfold migrationGuard
  split
  · simp [*]
  · split <;> simp_all

/-- Where `wait` was called, the field is the thread of the worker that dispatched the context
last; elsewhere it is 0. -/
structure Guard.Tracks (tid : Fin n → Nat) (g : Guard n) : Prop where
  waited : ∀ i, g.waited i = true → ∃ w, g.turn i = some w ∧ g.lastOsThreadId i = tid w
  fresh : ∀ i, g.waited i = false → g.lastOsThreadId i = 0

theorem Guard.Tracks.launch (hg : g.Tracks tid) (i : Nat) (l : Launch) :
    (g.launch i l).Tracks tid := by
  cases l with
  | builder allowDeflection mode affinity kind =>
    constructor
    all_goals
      intro j hj
      by_cases hij : j = i
      · simp_all [Guard.launch]
      · simp only [Guard.launch, Function.update_of_ne hij] at hj ⊢
        first | exact hg.waited j hj | exact hg.fresh j hj
  | withStack | fiberLaunch | fiberLaunchExt => exact ⟨hg.waited, hg.fresh⟩

theorem Guard.Tracks.passes (hg : g.Tracks tid) {i : Nat} (hturn : g.turn i = some w) :
    g.lastOsThreadId i = 0 ∨ g.lastOsThreadId i = tid w := by
  cases hwaited : g.waited i with
  | false => exact .inl (hg.fresh i hwaited)
  | true =>
    obtain ⟨w', hw', hlast⟩ := hg.waited i hwaited
    rw [hturn] at hw'
    cases hw'
    exact .inr hlast

/-- A call on the worker that dispatched the context leaves its thread in the field. -/
theorem Guard.Tracks.wait (hg : g.Tracks tid) {i : Nat} (hturn : g.turn i = some w) :
    (g.wait tid w i).Tracks tid := by
  have hlast : (migrationGuard (g.lastOsThreadId i) (tid w)).getD (g.lastOsThreadId i) = tid w := by
    rcases hg.passes hturn with h | h
    · simp [migrationGuard, h]
    · by_cases hzero : tid w = 0 <;> simp [migrationGuard, h, hzero]
  constructor
  · intro j hj
    by_cases hij : j = i
    · subst hij
      exact ⟨w, hturn, by simp [Guard.wait, hlast]⟩
    · simp only [Guard.wait, Function.update_of_ne hij] at hj ⊢
      exact hg.waited j hj
  · intro j hj
    by_cases hij : j = i
    · simp [Guard.wait, hij] at hj
    · simp only [Guard.wait, Function.update_of_ne hij] at hj ⊢
      exact hg.fresh j hj

theorem Guard.Tracks.dispatch (hg : g.Tracks tid) {i : Nat}
    (hone : g.waited i = true → g.turn i = some w) :
    (g.dispatch w i).Tracks tid := by
  refine ⟨fun j hj => ?_, hg.fresh⟩
  obtain ⟨w', hw', hlast⟩ := hg.waited j hj
  by_cases hij : j = i
  · subst hij
    rw [hone hj] at hw'
    cases hw'
    exact ⟨w, Function.update_self _ _ _, hlast⟩
  · exact ⟨w', by simp only [Guard.dispatch, Function.update_of_ne hij, hw'], hlast⟩

/-! ## Runs on one worker -/

structure GuardInv (tid : Fin n → Nat) (rt : Machine n cap hosts) (g : Guard n) : Prop where
  claims : ∀ i, rt.live i + rt.idle i ≤ 1
  turn : ∀ w stage (i : Fin cap), rt.workers w = .on stage i → g.turn i = some w
  tracks : g.Tracks tid

theorem GuardInv.claims_step [NeZero n] (hi : GuardInv tid rt g) (hst : step a rt = some rt')
    (i : Nat) : rt'.live i + rt'.idle i ≤ 1 :=
  (step_spends hst i).total.trans (hi.claims i)

theorem waits_eq {p : Fin n × Nat} (h : rt.waits g a = some p) :
    ∃ i : Fin cap, a = .user (.fiber p.1) .wait ∧ rt.workers p.1 = .on .running i ∧
      p.2 = i := by
  unfold waits at h
  split at h
  · split at h
    · next i hw =>
      split at h
      · cases h
      · cases h
        exact ⟨i, rfl, hw, rfl⟩
    · cases h
  · cases h

theorem GuardInv.waits (hi : GuardInv tid rt g) {p : Fin n × Nat} (h : rt.waits g a = some p) :
    g.turn p.2 = some p.1 := by
  obtain ⟨i, -, hw, hp⟩ := waits_eq h
  rw [hp]
  exact hi.turn _ _ i hw

theorem GuardInv.noAlarm (hi : GuardInv tid rt g) (a : Act n hosts) : rt.NoAlarm tid g a :=
  fun _ hp => migrationGuard_ne_none_iff.mpr (hi.tracks.passes (hi.waits hp))

theorem dispatch_of_step [NeZero n] (h : step (.dispatch w) rt = some rt') :
    rt.dispatch w = some rt' := by
  unfold step at h
  split at h
  · cases h
  · exact h

/-- A dispatch, as the history sees it. -/
theorem noteGuard_dispatch [NeZero n] (tid : Fin n → Nat) (g : Guard n)
    (h : step (.dispatch w) rt = some rt') :
    ∃ i : Fin cap, rt.dispatches (.dispatch w) = some (w, i.val) ∧
      rt'.workers = Function.update rt.workers w (.on .running i) ∧
      noteGuard tid (.dispatch w) rt g = g.dispatch w i := by
  obtain ⟨i, sched, -, hpop, rfl⟩ := dispatch_eq (dispatch_of_step h)
  have hd : rt.dispatches (.dispatch w) = some (w, i.val) := by
    simp [dispatches, hpop]
  refine ⟨i, hd, rfl, ?_⟩
  simp only [noteGuard, hd]
  rfl

theorem GuardInv.dispatch [NeZero n] (hi : GuardInv tid rt g) (hok : rt.OneWorker g (.dispatch w))
    (hst : step (.dispatch w) rt = some rt') :
    GuardInv tid rt' (noteGuard tid (.dispatch w) rt g) := by
  obtain ⟨i, hd, hworkers, hnote⟩ := noteGuard_dispatch tid g hst
  rw [hnote]
  refine ⟨hi.claims_step hst, fun w' stage j hw' => ?_, hi.tracks.dispatch (hok _ hd)⟩
  have hw : rt'.workers w = .on .running i := by
    rw [hworkers, Function.update_self]
  by_cases hj : j = i
  · -- nobody else has the context in hand
    subst hj
    have hle : rt'.live j ≤ 1 := (Nat.le_add_right _ _).trans (hi.claims_step hst j)
    simp only [worker_unique hle hw hw', Guard.dispatch, Function.update_self]
  · rw [hworkers] at hw'
    have hne : w' ≠ w := by
      rintro rfl
      rw [Function.update_self] at hw'
      cases hw'
      exact hj rfl
    rw [Function.update_of_ne hne] at hw'
    simp only [Guard.dispatch, Function.update_of_ne fun h => hj (Fin.ext h)]
    exact hi.turn w' stage j hw'

theorem GuardInv.step [NeZero n] (hi : GuardInv tid rt g) (hok : rt.OneWorker g a)
    (hst : Machine.step a rt = some rt') : GuardInv tid rt' (noteGuard tid a rt g) := by
  by_cases ha : ∃ w, a = .dispatch w
  · obtain ⟨w, rfl⟩ := ha
    exact hi.dispatch hok hst
  have hd : rt.dispatches a = none := by
    unfold dispatches
    split
    · exact absurd ⟨_, rfl⟩ ha
    · rfl
  have hturn (w stage) (i : Fin cap) (hw : rt'.workers w = .on stage i) : g.turn i = some w := by
    obtain ⟨stage', hw'⟩ := step_workers hst (fun w h => ha ⟨w, h⟩) hw
    exact hi.turn w stage' i hw'
  have hclaims := hi.claims_step hst
  unfold noteGuard
  rw [hd]
  split
  · next l i _ =>
    have hlaunch : (g.launch i l).turn = g.turn := by cases l <;> rfl
    exact ⟨hclaims, by rwa [hlaunch], hi.tracks.launch i l⟩
  · next hw => exact ⟨hclaims, hturn, hi.tracks.wait (hi.waits hw)⟩
  · next h => cases h
  · exact ⟨hclaims, hturn, hi.tracks⟩

abbrev GuardRun [NeZero n] (tid : Fin n → Nat)
    (ok : Machine n cap hosts → Guard n → Act n hosts → Prop) :
    List (Act n hosts) → Machine n cap hosts × Guard n → Prop :=
  Run (initHist Initial (.new n)) (withHist step (noteGuard tid)) fun p a => ok p.1 p.2 a

/-- **When the guard gives no false alarm.** In every run in which a context is dispatched by one
worker only, from the first call of `wait` there to the next `SpawnBuilder::spawn`, every call of
`wait` passes the guard. A dispatch by another worker breaks this: if the fiber then calls `wait`,
the guard panics. -/
theorem no_false_alarm [NeZero n] (tid : Fin n → Nat) (hne : ∀ w, tid w ≠ 0)
    (hinj : Function.Injective tid) {tr : List (Act n hosts)} {rt : Machine n cap hosts}
    {g : Guard n} (hrun : GuardRun tid OneWorker tr (rt, g)) :
    (∀ a, rt.NoAlarm tid g a) ∧
    ∀ w rt', step (.dispatch w) rt = some rt' → ¬ rt.OneWorker g (.dispatch w) →
      rt'.waits (noteGuard tid (.dispatch w) rt g) (.user (.fiber w) .wait) ≠ none →
      ¬ rt'.NoAlarm tid (noteGuard tid (.dispatch w) rt g) (.user (.fiber w) .wait) := by
  have hi : GuardInv tid rt g := by
    refine hrun.hist_invariant (I := GuardInv tid) ?_ (fun _ _ _ _ hi hok hst => hi.step hok hst)
    rintro rt ⟨topology, rfl⟩
    exact ⟨claims_new_le_one topology, by rintro w stage i ⟨⟩, ⟨by rintro i ⟨⟩, fun _ _ => rfl⟩⟩
  refine ⟨hi.noAlarm, fun w rt' hst hmoved hwaits hquiet => ?_⟩
  obtain ⟨i, hd, hworkers, hnote⟩ := noteGuard_dispatch tid g hst
  obtain ⟨p, hp⟩ := Option.ne_none_iff_exists'.mp hwaits
  obtain ⟨j, ha, hw, hj⟩ := waits_eq hp
  -- the call is one of the context that was dispatched
  obtain rfl : w = p.1 := by
    cases ha
    rfl
  obtain rfl : i = j := by
    rw [hworkers, Function.update_self] at hw
    cases hw
    rfl
  refine hmoved fun q hq hwaited => ?_
  obtain rfl : (p.1, i.val) = q := Option.some.inj (hd.symm.trans hq)
  obtain ⟨w₀, hw₀, hlast⟩ := hi.tracks.waited i hwaited
  have hpass := migrationGuard_ne_none_iff.mp (hquiet p hp)
  rw [hnote, hj] at hpass
  rcases hpass with h | h
  · exact absurd (hlast.symm.trans h) (hne w₀)
  · rw [hw₀, hinj (hlast.symm.trans h)]

end

/-! ## False alarms -/

def threadId (w : Fin 2) : Nat := w + 1

theorem threadId_injective : Function.Injective threadId := fun _ _ h =>
  Fin.ext (Nat.add_right_cancel h)

/-- A fiber is started in the context 0 and dispatched by the worker `w`. -/
def startOn (w : Fin 2) (l : Launch) : List (Act 2 1) :=
  [.user (.host 0) (.spawn l w), .run (.host 0), .run (.host 0), .run (.host 0), .poll w,
    .dispatch w]

/-- A call of `wait` or `wait_pinned` on the worker 0, up to its first poll. -/
def beginWait : List (Act 2 1) :=
  [.user (.fiber 0) .wait, .run (.fiber 0), .run (.fiber 0)]

def endWait : List (Act 2 1) := [.user (.fiber 0) .pollReady, .run (.fiber 0)]

/-- The fiber yields and is parked. -/
def park : List (Act 2 1) :=
  [.user (.fiber 0) (.yieldTo 0 0), .run (.fiber 0), .run (.fiber 0), .run (.fiber 0), .settle 0,
    .settle 0]

/-- The fiber is woken for the core `w`, which receives it. -/
def wakeFor (w : Fin 2) : List (Act 2 1) :=
  [.user (.host 0) (.wake 0 (some w)), .run (.host 0), .run (.host 0), .poll w]

/-- A fiber of `SpawnBuilder::spawn` calls `wait` in its poll. -/
def waitInPoll (allowDeflection : Bool) : List (Act 2 1) :=
  startOn 0 (.builder allowDeflection .p2pMesh .any .io) ++ beginWait ++ beginWait ++ endWait

/-- A fiber ends after its last poll, and its context is freed. -/
def endFiber : List (Act 2 1) :=
  endWait ++ [.user (.fiber 0) .finish, .run (.fiber 0), .run (.fiber 0), .run (.fiber 0),
    .settle 0, .settle 0, .settle 0, .settle 0]

theorem guardRun_of_exec {P : Machine 2 1 1 × Guard 2 → Prop} [DecidablePred P]
    (ok : Machine 2 1 1 → Guard 2 → Act 2 1 → Prop) [∀ rt g a, Decidable (ok rt g a)]
    (acts : List (Act 2 1))
    (h : (exec (guarded (fun p a => ok p.1 p.2 a) (withHist step (noteGuard threadId))) acts
      (new 2 1 1 .p2pMesh, .new 2)).any (fun p => P p) = true) :
    ∃ p, GuardRun threadId ok acts.reverse p ∧ P p :=
  Run.exists_of_guarded acts _ ⟨⟨.p2pMesh, rfl⟩, rfl⟩ h

/-- A pinned fiber that called `wait` is parked, and calls it again. One that is not pinned comes to
another worker instead, where the guard panics. -/
theorem no_false_alarm_parked :
    (∃ (tr : List (Act 2 1)) (rt : Machine 2 1 1) (g : Guard 2),
      GuardRun threadId OneWorker tr (rt, g) ∧ Pinned (rt.shared.ctx 0) ∧
        rt.waits g (.user (.fiber 0) .wait) = some (0, 0) ∧ g.lastOsThreadId 0 = 1 ∧
        rt.NoAlarm threadId g (.user (.fiber 0) .wait)) ∧
    ∃ (tr : List (Act 2 1)) (rt rt' : Machine 2 1 1) (g : Guard 2),
      GuardRun threadId OneWorker tr (rt, g) ∧ step (.dispatch 1) rt = some rt' ∧
        ¬ rt.OneWorker g (.dispatch 1) ∧
        ¬ rt'.NoAlarm threadId (noteGuard threadId (.dispatch 1) rt g)
          (.user (.fiber 1) .wait) := by
  constructor
  · obtain ⟨⟨rt, g⟩, hrun, hpinned, hwaits, hlast⟩ :=
      guardRun_of_exec OneWorker (P := fun p => Pinned (p.1.shared.ctx 0) ∧
          p.1.waits p.2 (.user (.fiber 0) .wait) = some (0, 0) ∧ p.2.lastOsThreadId 0 = 1)
        (waitInPoll false ++ park ++ wakeFor 0 ++ [.dispatch 0]) (by decide +kernel)
    exact ⟨_, rt, g, hrun, hpinned, hwaits, hlast,
      (no_false_alarm threadId (by decide) threadId_injective hrun).1 _⟩
  · obtain ⟨⟨rt, g⟩, hrun, hmoved, hwaits⟩ :=
      guardRun_of_exec OneWorker (P := fun p => ¬ p.1.OneWorker p.2 (.dispatch 1) ∧
          (step (.dispatch 1) p.1).any fun rt' =>
            (rt'.waits (noteGuard threadId (.dispatch 1) p.1 p.2) (.user (.fiber 1) .wait)).isSome)
        (waitInPoll true ++ park ++ wakeFor 1) (by decide +kernel)
    obtain ⟨rt', hst, hwaits⟩ := (Option.any_eq_true _ _).mp hwaits
    exact ⟨_, rt, rt', g, hrun, hst, hmoved,
      (no_false_alarm threadId (by decide) threadId_injective hrun).2 1 rt' hst hmoved
        (Option.isSome_iff_ne_none.mp hwaits)⟩

/-- The fiber on the worker 1 calls `wait` and the guard panics. -/
def Alarm (rt : Machine 2 1 1) (g : Guard 2) : Prop :=
  (step (.user (.fiber 1) .wait) rt).isSome ∧ ¬ rt.NoAlarm threadId g (.user (.fiber 1) .wait)

instance (rt : Machine 2 1 1) (g : Guard 2) : Decidable (Alarm rt g) :=
  inferInstanceAs (Decidable (_ ∧ _))

/-- A fiber that is not pinned comes to another worker between two calls of `wait`; and a context
in which `wait` was called on one worker is given to a fiber of `dtact_fiber_launch` on another one,
which calls `wait` for the first time. -/
theorem migration_guard_false_alarm :
    (∃ (tr : List (Act 2 1)) (rt : Machine 2 1 1) (g : Guard 2),
      GuardRun threadId (NoAlarm threadId) tr (rt, g) ∧ ¬ Pinned (rt.shared.ctx 0) ∧
        Alarm rt g) ∧
    ∃ (tr : List (Act 2 1)) (rt : Machine 2 1 1) (g : Guard 2),
      GuardRun threadId (NoAlarm threadId) tr (rt, g) ∧ Pinned (rt.shared.ctx 0) ∧
        (rt.shared.ctx 0).originCore = 1 ∧ Alarm rt g := by
  constructor
  · obtain ⟨⟨rt, g⟩, hrun, heq⟩ :=
      guardRun_of_exec (NoAlarm threadId)
        (P := fun p => ¬ Pinned (p.1.shared.ctx 0) ∧ Alarm p.1 p.2)
        (waitInPoll true ++ park ++ wakeFor 1 ++ [.dispatch 1]) (by decide +kernel)
    exact ⟨_, rt, g, hrun, heq⟩
  · obtain ⟨⟨rt, g⟩, hrun, heq⟩ :=
      guardRun_of_exec (NoAlarm threadId) (P := fun p => Pinned (p.1.shared.ctx 0) ∧
          (p.1.shared.ctx 0).originCore = 1 ∧ Alarm p.1 p.2)
        (waitInPoll false ++ endFiber ++ startOn 1 .fiberLaunch) (by decide +kernel)
    exact ⟨_, rt, g, hrun, heq⟩

end Machine

end Dtact.Runtime
