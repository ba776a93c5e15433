import Dtact.Runtime.NoDoubleDispatch

/-!
# The runtime as one fiber sees it

A fiber is its state word, its stack and its seat: out (it has no claim to its context), ready (on
the way to a worker), or with a worker at some stage of `dispatch_loop`. `Moves` is the protocol of
a single fiber in an environment that may wake it at any time.

Results:
1. `step_simulated`: every step of the runtime is a move of every fiber, with its event.
2. `recording_invariant`: so an invariant of the moves is one of all runs.
-/

namespace Dtact.Runtime

open Scheduler Transition

/-- What a step can mean to a fiber. -/
inductive Event
  | wake
  | poll
  /-- Code inside a poll calls `wait`, `dtact_await` or `yield_to`. -/
  | nest
  /-- `fiber_entry_point` stores `Finished`. -/
  | finish
  /-- The epilogue of `fiber_entry_point` goes into `backpressure_yield`. -/
  | stall
  /-- `free_context` is through. -/
  | free
deriving DecidableEq, Repr

inductive Seat
  | out
  | ready
  | on (stage : Stage)
deriving DecidableEq, Repr

structure View where
  word : FiberStatus
  control : Control
  seat : Seat

/-! ## Events -/

/-- The call may suspend its fiber for a wake of its own. -/
def UserAct.suspends : UserAct → Bool
  | .wait => true
  | .yieldTo _ _ => true
  | .await _ _ => true
  | _ => false

def UserAct.event (calls : List Call) (u : UserAct) : Option Event :=
  if calls ≠ [] ∧ u.suspends then some .nest else none

/-- The call is the swap that wakes `i`. -/
def Call.wakeEvent (i : Nat) : Call → Option Event
  | .wake j _ => if j = i then some .wake else none
  | _ => none

/-- What the step of a call means to the fiber that makes it. -/
def Call.ownEvent : Call → Option Event
  | .wait .callPoll => some .poll
  | .wait (.spin k cs _) => if k < cs ∧ (k % 8 = 0 ∨ k = cs - 1) then some .poll else none
  | _ => none

def Control.ownEvent : Control → Option Event
  | .body (c :: _) => c.ownEvent
  | .epilogue .finish [] => some .finish
  | .epilogue _ (.wakeFiber _ _ _ _ .store :: _) => some .stall
  | _ => Option.none

namespace Machine

variable {n cap hosts : Nat}

/-- The thread is the fiber `i`. -/
def runs (rt : Machine n cap hosts) (i : Fin cap) : Thread n hosts → Bool
  | .host _ => false
  | .fiber w => rt.workers w = .on .running i

/-- What the action means to the fiber `i`. -/
def event (rt : Machine n cap hosts) (i : Fin cap) : Act n hosts → Option Event
  | .user (.fiber w) u =>
    if rt.workers w = .on .running i then u.event (rt.shared.fibers i).calls else none
  | .run t =>
    ((rt.nextCall t).bind (Call.wakeEvent i)).or
      (if rt.runs i t then (rt.shared.fibers i).ownEvent else none)
  | .settle w => if rt.workers w = .on .freePush i then some .free else none
  | _ => none

end Machine

/-! ## Moves -/

/-- Where the worker leaves a fiber whose final state is known. -/
def Seat.after (finalState : FiberStatus) : Seat :=
  if finalState = .finished ∨ finalState = .panicked then .on .freeState
  else if finalState = .notified then .on .requeue
  else .ready

/-- The protocol of one fiber. -/
inductive Moves (n i : Nat) [NeZero n] : View → Option Event → View → Prop
  | other {v : View} : Moves n i v none v
  | wake {word : FiberStatus} {control : Control} {seat : Seat} :
      Moves n i ⟨word, control, seat⟩ (some .wake) ⟨.notified, control, seat⟩
  | start {word : FiberStatus} {control : Control} {seat : Seat} : seat = .out ∨ seat = .ready →
      Moves n i ⟨word, control, seat⟩ none ⟨.running, .body [], .ready⟩
  | dispatch {word : FiberStatus} {control : Control} : word ≠ .yielded →
      Moves n i ⟨word, control, .ready⟩ none ⟨word, control, .on .running⟩
  | user {word : FiberStatus} {u : UserAct} {calls : List Call} {c : Control} : inUser calls →
      u.onFiber calls = some c →
      Moves n i ⟨word, .body calls, .on .running⟩ (u.event calls) ⟨word, c, .on .running⟩
  | body {word : FiberStatus} {c : Call} {rest : List Call} {who : Who n} {sh : Shared n}
      {next : Next n} : who.fiber = some i → word = (sh.ctx i).state → i ∉ c.spawns →
      c.run who sh = some next →
      Moves n i ⟨word, .body (c :: rest), .on .running⟩ ((c.wakeEvent i).or c.ownEvent)
        ⟨(next.shared.ctx i).state, .body (next.calls rest), .on next.stage⟩
  | late {word : FiberStatus} {pc : EpiloguePc} {c : Call} {rest : List Call} {who : Who n}
      {sh : Shared n} {next : Next n} : who.fiber = some i → word = (sh.ctx i).state →
      i ∉ c.spawns → c.run who sh = some next → ¬ next.isPanic →
      Moves n i ⟨word, .epilogue pc (c :: rest), .on .running⟩
        ((c.wakeEvent i).or (Control.epilogue pc (c :: rest)).ownEvent)
        ⟨(next.shared.ctx i).state, .epilogue pc (next.calls rest), .on next.stage⟩
  | finish {word : FiberStatus} :
      Moves n i ⟨word, .epilogue .finish [], .on .running⟩ (some .finish)
        ⟨.finished, .epilogue .waiter [], .on .running⟩
  | waiter {word : FiberStatus} (packed : Nat) :
      Moves n i ⟨word, .epilogue .waiter [], .on .running⟩ none
        ⟨word, .epilogue .switch (Machine.waiterCalls packed), .on .running⟩
  | leave {word : FiberStatus} :
      Moves n i ⟨word, .epilogue .switch [], .on .running⟩ none
        ⟨word, .epilogue .returned [], .on .inspect⟩
  | inspect {control : Control} :
      Moves n i ⟨.suspending, control, .on .inspect⟩ none ⟨.suspending, control, .on .parkCas⟩
  | after {word : FiberStatus} {control : Control} {stage : Stage} :
      stage = .inspect ∨ stage = .parkCas → word ≠ .suspending →
      Moves n i ⟨word, control, .on stage⟩ none ⟨word, control, .after word⟩
  | park {control : Control} :
      Moves n i ⟨.suspending, control, .on .parkCas⟩ none ⟨.yielded, control, .ready⟩
  | requeue {word : FiberStatus} {control : Control} :
      Moves n i ⟨word, control, .on .requeue⟩ none ⟨word, control, .ready⟩
  | freeState {word : FiberStatus} {control : Control} :
      Moves n i ⟨word, control, .on .freeState⟩ none ⟨.initial, control, .on .freeGen⟩
  | freeGen {word : FiberStatus} {control : Control} :
      Moves n i ⟨word, control, .on .freeGen⟩ none ⟨word, control, .on .freePush⟩
  | freePush {word : FiberStatus} {control : Control} :
      Moves n i ⟨word, control, .on .freePush⟩ (some .free) ⟨word, control, .out⟩

/-! ## What user code and calls do to a fiber -/

/-- User code goes on in the closure, or it is done. -/
theorem UserAct.onFiber_control {u : UserAct} {calls : List Call} {c : Control}
    (h : u.onFiber calls = some c) : (∃ calls', c = .body calls') ∨ c = .epilogue .finish [] := by
  cases onFiber_leads h with
  | done => exact Or.inr rfl
  | _ => exact Or.inl ⟨_, rfl⟩

section

variable {n : Nat} {who : Who n} {sh : Shared n} {c : Call} {next : Next n} {i : Nat}

theorem Call.mem_spawns (h : i ∈ c.spawns) : ∃ l core, c = .spawn l core (.init i) := by
  cases c with
  | spawn l core pc =>
    cases pc with
    | init j =>
      obtain rfl : i = j := by simpa [Call.spawns] using h
      exact ⟨l, core, rfl⟩
    | _ => simp [Call.spawns] at h
  | _ => simp [Call.spawns] at h

/-- What the own calls of a fiber leave in its state word. -/
theorem Call.Does.own_state (hd : c.Does who sh next) (hspawn : i ∉ c.spawns) :
    (next.shared.ctx i).state = (sh.ctx i).state ∨ Active (next.shared.ctx i).state := by
  cases hd with
  | still hs _ _ => exact (hs.state i).imp_right And.right
  | panic => exact Or.inl rfl
  | @wake j _ _ _ _ =>
    by_cases hj : i = j
    · subst hj
      exact Or.inr (Or.inr (Or.inl (sh.setState_self i _)))
    · exact Or.inl (by rw [Next.shared, sh.setState_ne hj])
  | enqueue _ => exact Or.inl rfl
  | alloc hs _ => exact (hs.state i).imp_right And.right
  | @start l core core' j =>
    have hne : i ≠ j := by
      rintro rfl
      simp [Call.spawns] at hspawn
    refine Or.inl ?_
    show ((sh.setCtx j _).ctx i).state = _
    rw [sh.setCtx_ne hne]

/-- A call of another thread that neither wakes nor starts the fiber. -/
theorem Call.Does.elsewhere (hd : c.Does who sh next) (hself : who.fiber ≠ some i)
    (hwake : c.wakeEvent i = none) (hspawn : i ∉ c.spawns) :
    (next.shared.ctx i).state = (sh.ctx i).state ∧ next.shared.fibers i = sh.fibers i := by
  have hstill {sh' : Shared n} (hs : Still who sh sh') :
      (sh'.ctx i).state = (sh.ctx i).state ∧ sh'.fibers i = sh.fibers i :=
    ⟨(hs.state i).resolve_right fun h => hself h.1, by rw [hs.fibers]⟩
  cases hd with
  | still hs _ _ => exact hstill hs
  | panic => exact ⟨rfl, rfl⟩
  | @wake j route calls _ _ =>
    have hne : i ≠ j := by
      rintro rfl
      simp [Call.wakeEvent] at hwake
    exact ⟨by rw [Next.shared, sh.setState_ne hne], rfl⟩
  | enqueue _ => exact ⟨rfl, rfl⟩
  | alloc hs _ =>
    have h := hstill hs
    exact h
  | @start l core core' j =>
    have hne : i ≠ j := by
      rintro rfl
      simp [Call.spawns] at hspawn
    refine ⟨?_, Shared.setFiber_ne _ hne _⟩
    show ((sh.setCtx j _).ctx i).state = _
    rw [sh.setCtx_ne hne]

variable [NeZero n]

theorem Call.run_wake {e : Event} (hwake : c.wakeEvent i = some e) (h : c.run who sh = some next) :
    e = .wake ∧ next.shared = sh.setState i .notified := by
  cases c with
  | wake j route =>
    simp only [Call.wakeEvent] at hwake
    split at hwake
    · next hj =>
      subst hj
      cases hwake
      simp only [Call.run] at h
      split at h <;> (cases h; exact ⟨rfl, rfl⟩)
    · cases hwake
  | _ => simp [Call.wakeEvent] at hwake

theorem Call.run_wake_goto {e : Event} (hwake : c.wakeEvent i = some e)
    (h : c.run who sh = some next) : next.isPanic = false := by
  cases c with
  | wake j route =>
    simp only [Call.run] at h
    split at h <;> (cases h; rfl)
  | _ => simp [Call.wakeEvent] at hwake

/-- A step of a call of another thread, as the fiber sees it. -/
theorem Call.run_moves (h : c.run who sh = some next) (hself : who.fiber ≠ some i) {seat : Seat}
    (hseat : i ∈ c.spawns → seat = .out ∨ seat = .ready) :
    Moves n i ⟨(sh.ctx i).state, sh.fibers i, seat⟩ (c.wakeEvent i)
      ⟨(next.shared.ctx i).state, next.shared.fibers i, if i ∈ c.spawns then .ready else seat⟩ := by
  by_cases hspawn : i ∈ c.spawns
  · obtain ⟨l, core, rfl⟩ := Call.mem_spawns hspawn
    cases h
    have hstate : (((l.start (l.core who.current core) i sh)).ctx i).state = .running := by
      simp [Launch.start, Shared.setFiber, Launch.init_state]
    have hfiber : (l.start (l.core who.current core) i sh).fibers i = .body [] :=
      Shared.setFiber_self _ _ _
    simp only [Next.shared, hstate, hfiber, if_pos hspawn]
    exact .start (hseat hspawn)
  · rw [if_neg hspawn]
    cases hwake : c.wakeEvent i with
    | none =>
      obtain ⟨hstate, hfiber⟩ := (Call.run_does h).elsewhere hself hwake hspawn
      rw [hstate, hfiber]
      exact .other
    | some e =>
      obtain ⟨rfl, hshared⟩ := Call.run_wake hwake h
      rw [hshared, sh.setState_self]
      exact .wake

end

/-! ## Views of the runtime -/

namespace Machine

variable {n cap hosts : Nat}

/-- The fiber `i` has the seat. -/
def SeatAt (rt : Machine n cap hosts) (i : Fin cap) : Seat → Prop
  | .out => rt.live i = 0
  | .ready => ∀ w stage, rt.workers w ≠ .on stage i
  | .on stage => ∃ w, rt.workers w = .on stage i

/-- The fiber `i` on its seat. -/
def view (rt : Machine n cap hosts) (i : Fin cap) (seat : Seat) : View :=
  ⟨(rt.shared.ctx i).state, rt.shared.fibers i, seat⟩

section

variable {rt rt' : Machine n cap hosts} {i : Fin cap} {w : Fin n} {stage : Stage} {seat : Seat}

theorem executing_le_live (rt : Machine n cap hosts) (i : Nat) :
    executing rt.workers i ≤ rt.live i := by
  simp only [live]
  omega

theorem executing_pos {workers : Fin n → WorkerPc cap} (hw : workers w = .on stage i) :
    0 < executing workers i := by
  have hone : (if (workers w).task? = some i.val then 1 else 0) ≤ executing workers i :=
    Finset.single_le_sum (f := fun w => if (workers w).task? = some i.val then 1 else 0)
      (fun _ _ => Nat.zero_le _) (Finset.mem_univ w)
  have htask : (workers w).task? = some i.val := by
    rw [hw]
    rfl
  rwa [if_pos htask] at hone

theorem worker_unique (hle : rt.live i ≤ 1) {w' : Fin n} {stage' : Stage}
    (hw : rt.workers w = .on stage i) (hw' : rt.workers w' = .on stage' i) : w' = w := by
  by_contra hne
  -- without `w` there would still be `w'`
  have hrel := executing_release hw i
  have hpos : 0 < executing (Function.update rt.workers w .idle) i :=
    executing_pos (w := w') (by rw [Function.update_of_ne hne, hw'])
  have hlive := executing_le_live rt i
  rw [List.count_singleton_self] at hrel
  omega

theorem SeatAt.eq_on (h : rt.SeatAt i seat) (hle : rt.live i ≤ 1)
    (hw : rt.workers w = .on stage i) : seat = .on stage := by
  cases seat with
  | out =>
    have hpos := executing_pos hw
    have hex := executing_le_live rt i
    simp only [SeatAt] at h
    omega
  | ready => exact absurd hw (h w stage)
  | on stage' =>
    obtain ⟨w', hw'⟩ := h
    rw [worker_unique hle hw hw', hw] at hw'
    cases hw'
    rfl

theorem SeatAt.congr (h : rt.SeatAt i seat)
    (hworkers : ∀ w stage, rt'.workers w = .on stage i ↔ rt.workers w = .on stage i)
    (hlive : rt.live i = 0 → rt'.live i = 0) : rt'.SeatAt i seat := by
  cases seat with
  | out => exact hlive h
  | ready => exact fun w stage hw => h w stage ((hworkers w stage).mp hw)
  | on stage =>
    obtain ⟨w, hw⟩ := h
    exact ⟨w, (hworkers w stage).mpr hw⟩

/-- A worker that has another task, or none, goes on without this one. -/
theorem setWorker_other (rt : Machine n cap hosts) {pc : WorkerPc cap}
    (hw : ∀ stage, rt.workers w ≠ .on stage i)
    (hpc : ∀ stage, pc ≠ .on stage i) (w' : Fin n) (stage : Stage) :
    (rt.setWorker w pc).workers w' = .on stage i ↔ rt.workers w' = .on stage i := by
  by_cases hw' : w' = w
  · subst hw'
    simp [setWorker, hw, hpc]
  · simp [setWorker, hw']

theorem seatAt_set (rt : Machine n cap hosts) (w : Fin n) (stage : Stage) (i : Fin cap) :
    (rt.setWorker w (.on stage i)).SeatAt i (.on stage) :=
  ⟨w, by simp [setWorker]⟩

theorem seatAt_release (hle : rt.live i ≤ 1) (hw : rt.workers w = .on stage i)
    (hworkers : rt'.workers = Function.update rt.workers w .idle) : rt'.SeatAt i .ready := by
  intro w' stage' hw'
  rw [hworkers] at hw'
  by_cases h : w' = w
  · subst h
    simp at hw'
  · rw [Function.update_of_ne h] at hw'
    exact h (worker_unique hle hw hw')

theorem seatAt_after (hle : rt.live i ≤ 1) (hw : rt.workers w = .on stage i) (state : FiberStatus) :
    (rt.setWorker w (afterSwitch i state)).SeatAt i (.after state) := by
  unfold afterSwitch Seat.after
  split
  · exact rt.seatAt_set w _ i
  · split
    · exact rt.seatAt_set w _ i
    · exact seatAt_release hle hw rfl

end

/-! ## The simulation -/

section

variable {rt rt' : Machine n cap hosts} {a : Act n hosts} {i k : Fin cap} {seat : Seat}
  {w : Fin n} {c : Call}

structure Quiet (rt : Machine n cap hosts) (i : Fin cap) (rt' : Machine n cap hosts) : Prop where
  state : (rt'.shared.ctx i).state = (rt.shared.ctx i).state
  fiber : rt'.shared.fibers i = rt.shared.fibers i
  workers : ∀ w stage, rt'.workers w = .on stage i ↔ rt.workers w = .on stage i

def Simulated (rt : Machine n cap hosts) [NeZero n] (i : Fin cap) (seat : Seat) (e : Option Event)
    (rt' : Machine n cap hosts) : Prop :=
  ∃ seat', Moves n i (rt.view i seat) e (rt'.view i seat') ∧ rt'.SeatAt i seat'

theorem Quiet.simulated [NeZero n] (h : rt.Quiet i rt') (hseat : rt.SeatAt i seat)
    (hlive : rt'.live i ≤ rt.live i) : rt.Simulated i seat none rt' := by
  refine ⟨seat, ?_, hseat.congr h.workers fun h₀ => Nat.eq_zero_of_le_zero (hlive.trans h₀.le)⟩
  simp only [view, h.state, h.fiber]
  exact .other

variable {t : Thread n hosts} {next : Next n} {stage : Stage}

/-- A thread that is about to start a fiber has the only claim to the context. -/
theorem idle_pos (hc : rt.nextCall t = some c) {i : Nat} (hi : i ∈ c.spawns) : 0 < rt.idle i := by
  have hpos := List.count_pos_iff.mpr hi
  have hown {calls : List Call} (h : calls.head? = some c) :
      c.spawns.count i ≤ owned Call.spawns i calls := by
    cases calls with
    | nil => cases h
    | cons c' rest =>
      cases h
      rw [owned_cons]
      exact Nat.le_add_right _ _
  cases t with
  | host k =>
    have hsum : owned Call.spawns i (rt.hosts k) ≤ hostsOwn Call.spawns rt.hosts i :=
      Finset.single_le_sum (f := fun k => owned Call.spawns i (rt.hosts k))
        (fun _ _ => Nat.zero_le _) (Finset.mem_univ k)
    have hle := hown hc
    simp only [idle]
    omega
  | fiber w =>
    simp only [nextCall] at hc
    split at hc
    · next k _ =>
      have hsum : owned Call.spawns i (rt.shared.fibers k).calls ≤
          fibersOwn cap Call.spawns rt.shared.fibers i :=
        Finset.single_le_sum (f := fun k => owned Call.spawns i (rt.shared.fibers k).calls)
          (fun _ _ => Nat.zero_le _) (Finset.mem_range.mpr k.isLt)
      have hle := hown hc
      simp only [idle]
      omega
    · cases hc

theorem not_executing (hle : rt.live i + rt.idle i ≤ 1) (hc : rt.nextCall t = some c)
    (hi : i.val ∈ c.spawns) (w : Fin n) (stage : Stage) : rt.workers w ≠ .on stage i := by
  intro hw
  have hpos := executing_pos hw
  have hlive := executing_le_live rt i
  have hidle := idle_pos hc hi
  omega

theorem event_run (hc : rt.nextCall t = some c) :
    rt.event i (.run t) = (c.wakeEvent i).or
      (if rt.runs i t then (rt.shared.fibers i).ownEvent else none) := by
  simp only [event, hc, Option.bind_some]

/-! ### Steps of others -/

theorem run_simulated [NeZero n] {who : Who n} (hseat : rt.SeatAt i seat)
    (hle : rt.live i + rt.idle i ≤ 1) (hc : rt.nextCall t = some c)
    (hr : c.run who rt.shared = some next) (hself : who.fiber ≠ some i.val)
    (hruns : rt.runs i t = false) (hsp : Spends rt (.run t) i rt')
    (hctx : rt'.shared.ctx = next.shared.ctx) (hfiber : rt'.shared.fibers i = next.shared.fibers i)
    (hworkers : ∀ w stage, rt'.workers w = .on stage i ↔ rt.workers w = .on stage i) :
    rt.Simulated i seat (rt.event i (.run t)) rt' := by
  have hev : rt.event i (.run t) = c.wakeEvent i := by
    simp only [event_run hc, hruns, Bool.false_eq_true, if_false, Option.or_none]
  rw [hev]
  refine ⟨if i.val ∈ c.spawns then .ready else seat, ?_, ?_⟩
  · rw [view, view, hctx, hfiber]
    refine Call.run_moves hr hself fun hi => ?_
    cases seat with
    | out => exact Or.inl rfl
    | ready => exact Or.inr rfl
    | on stage =>
      obtain ⟨w, hw⟩ := hseat
      exact absurd hw (not_executing hle hc hi w stage)
  · split
    · next hi => exact fun w stage hw => not_executing hle hc hi w stage ((hworkers w stage).mp hw)
    · next hi =>
      refine hseat.congr hworkers fun h₀ => ?_
      rcases hsp.live with ⟨t', c', ht, hc', hi'⟩ | hlive
      · cases ht
        rw [hc] at hc'
        cases hc'
        exact absurd hi' hi
      · omega

theorem on_ne {stage' : Stage} (hne : i ≠ k) : WorkerPc.on stage k ≠ .on stage' i := by
  rintro ⟨⟩
  exact hne rfl

theorem val_ne (hne : i ≠ k) : i.val ≠ k.val := fun h => hne (Fin.ext h)

theorem settle_quiet {shared : Shared n} {pc : WorkerPc cap} (hne : i ≠ k)
    (hw : rt.workers w = .on stage k) (h : Settles rt.shared w k stage shared pc) :
    rt.Quiet i ({ rt with shared }.setWorker w pc) := by
  have hpc (stage : Stage) : pc ≠ .on stage i := by
    rintro rfl
    rcases h.task with heq | ⟨⟨⟩⟩
    exact hne (Fin.ext (Option.some.inj heq))
  refine ⟨?_, by cases h <;> rfl,
    rt.setWorker_other (fun stage' => by rw [hw]; exact on_ne hne) hpc⟩
  cases h with
  | after | inspect | requeue | freePush => rfl
  | park | freeState => simp only [setWorker, rt.shared.setState_ne (val_ne hne)]
  | freeGen => simp only [setWorker, rt.shared.setCtx_ne (val_ne hne)]

theorem epilogue_quiet (hne : i ≠ k) (hw : rt.workers w = .on .running k) (pc : EpiloguePc) :
    rt.Quiet i (rt.epilogue w k pc) := by
  cases pc with
  | finish =>
    refine ⟨?_, Shared.setFiber_ne _ (val_ne hne) _, fun _ _ => Iff.rfl⟩
    show ((rt.shared.setState k .finished).ctx i).state = _
    rw [rt.shared.setState_ne (val_ne hne)]
  | waiter =>
    refine ⟨?_, Shared.setFiber_ne _ (val_ne hne) _, fun _ _ => Iff.rfl⟩
    show ((rt.shared.setCtx k _).ctx i).state = _
    rw [rt.shared.setCtx_ne (val_ne hne)]
  | switch =>
    exact ⟨rfl, Shared.setFiber_ne _ (val_ne hne) _,
      setWorker_other { rt with shared := rt.shared.setFiber k (.epilogue .returned []) }
        (fun stage => by simp only [hw]; exact on_ne hne) fun _ => on_ne hne⟩
  | returned => exact ⟨rfl, rfl, fun _ _ => Iff.rfl⟩

variable [NeZero n]

/-- A call that panics is neither a wake nor a backpressure store. -/
theorem event_panic {who : Who n} {sh : Shared n} (h : c.run who sh = some next) (hp : next.isPanic)
    (i : Nat) (pc : EpiloguePc) (rest : List Call) :
    c.wakeEvent i = none ∧ (Control.epilogue pc (c :: rest)).ownEvent = none := by
  cases c with
  | wake j route =>
    simp only [Call.run] at h
    split at h <;> (cases h; cases hp)
  | wakeFiber origin j pinned affinity epc =>
    refine ⟨rfl, ?_⟩
    cases epc with
    | store =>
      simp only [Call.run, EnqueuePc.run, Option.map_eq_some_iff] at h
      obtain ⟨_, _, rfl⟩ := h
      cases hp
    | _ => cases pc <;> rfl
  | _ => exact ⟨rfl, by cases pc <;> rfl⟩

/-! ### Steps of the fiber itself -/

theorem settle_simulated {shared : Shared n} {pc : WorkerPc cap} (hle : rt.live i ≤ 1)
    (hle' : ({ rt with shared }.setWorker w pc).live i +
      ({ rt with shared }.setWorker w pc).idle i ≤ 1)
    (hw : rt.workers w = .on stage i) (h : Settles rt.shared w i stage shared pc) :
    rt.Simulated i (.on stage) (rt.event i (.settle w)) ({ rt with shared }.setWorker w pc) := by
  have hnone (hne : stage ≠ .freePush) : rt.event i (.settle w) = none := by
    simp [event, hw, hne]
  have hstate (state : FiberStatus) : ((rt.shared.setState i state).ctx i).state = state :=
    rt.shared.setState_self i state
  cases h with
  | after hs hword =>
    rw [hnone (by rcases hs with rfl | rfl <;> simp)]
    exact ⟨_, .after hs hword, seatAt_after hle hw _⟩
  | inspect hword =>
    rw [hnone (by simp), Simulated, view, hword]
    refine ⟨_, ?_, rt.seatAt_set w _ i⟩
    rw [view, show ((rt.setWorker w _).shared.ctx i).state = _ from hword]
    exact .inspect
  | park hword =>
    rw [hnone (by simp), Simulated, view, hword]
    refine ⟨_, ?_, seatAt_release hle hw rfl⟩
    simp only [view, setWorker, hstate]
    exact .park
  | requeue =>
    rw [hnone (by simp)]
    exact ⟨_, .requeue, seatAt_release hle hw rfl⟩
  | freeState =>
    rw [hnone (by simp)]
    refine ⟨_, ?_, seatAt_set _ w _ i⟩
    simp only [view, setWorker, hstate]
    exact .freeState
  | freeGen =>
    rw [hnone (by simp)]
    refine ⟨_, ?_, seatAt_set _ w _ i⟩
    simp only [view, setWorker, rt.shared.setCtx_self]
    exact .freeGen
  | freePush =>
    have hev : rt.event i (.settle w) = some .free := by
      simp [event, hw]
    rw [hev]
    refine ⟨_, .freePush, ?_⟩
    -- the only claim is now the one of the free list
    have hpos : 0 < List.count i.val (i.val :: rt.shared.free) := by simp
    simp only [SeatAt, live, idle, setWorker] at hle' ⊢
    omega

theorem epilogue_simulated {pc : EpiloguePc} (hw : rt.workers w = .on .running i)
    (hc : rt.shared.fibers i = .epilogue pc []) :
    rt.Simulated i (.on .running) (rt.event i (.run (.fiber w))) (rt.epilogue w i pc) := by
  have hev : rt.event i (.run (.fiber w)) = (Control.epilogue pc []).ownEvent := by
    simp [event, nextCall, runs, hw, hc, Control.calls]
  rw [hev, Simulated]
  simp only [view, hc]
  cases pc with
  | finish =>
    refine ⟨.on .running, ?_, ⟨w, hw⟩⟩
    simp only [Machine.epilogue, Shared.setFiber_self]
    rw [show (((rt.shared.setState i .finished).setFiber i _).ctx i).state = _ from
      rt.shared.setState_self i _]
    exact .finish
  | waiter =>
    refine ⟨.on .running, ?_, ⟨w, hw⟩⟩
    simp only [Machine.epilogue, Shared.setFiber_self]
    rw [show (((rt.shared.setCtx i _).setFiber i _).ctx i).state = _ from
      congrArg FiberContext.state (rt.shared.setCtx_self i _)]
    exact .waiter _
  | switch =>
    refine ⟨_, ?_, seatAt_set _ w _ i⟩
    simp only [Machine.epilogue, setWorker, Shared.setFiber_self]
    exact .leave
  | returned =>
    refine ⟨.on .running, ?_, ⟨w, hw⟩⟩
    simp only [Machine.epilogue, hc]
    exact .other

theorem proceed_simulated {rest : List Call} {control : Control} (hseat : rt.SeatAt i seat)
    (hle : rt.live i + rt.idle i ≤ 1) (hw : rt.workers w = .on .running k)
    (hc : (rt.shared.fibers k).calls = c :: rest)
    (hr : c.run ⟨some k, .worker w⟩ rt.shared = some next)
    (hsp : Spends rt (.run (.fiber w)) i (rt.proceed w k control next))
    (hown : i = k → i.val ∉ c.spawns →
      Moves n i (rt.view i (.on .running)) ((c.wakeEvent i).or (rt.shared.fibers i).ownEvent)
        ⟨(next.shared.ctx i).state, control, .on next.stage⟩) :
    rt.Simulated i seat (rt.event i (.run (.fiber w))) (rt.proceed w k control next) := by
  have hcall : rt.nextCall (.fiber w) = some c := by simp [nextCall, hw, hc]
  by_cases hk : i = k
  · subst hk
    have hruns : rt.runs i (.fiber w) = true := by simp [runs, hw]
    obtain rfl := hseat.eq_on ((Nat.le_add_right _ _).trans hle) hw
    rw [event_run hcall, if_pos hruns]
    refine ⟨_, ?_, seatAt_set _ w next.stage i⟩
    simp only [proceed, setWorker, view, Shared.setFiber_self]
    exact hown rfl fun hi => not_executing hle hcall hi w _ hw
  · have hruns : rt.runs i (.fiber w) = false := by simp [runs, hw, Ne.symm hk]
    refine run_simulated hseat hle hcall hr ?_ hruns hsp rfl (Shared.setFiber_ne _ (val_ne hk) _) ?_
    · simpa using (val_ne hk).symm
    · exact setWorker_other { rt with shared := next.shared.setFiber k control }
        (fun stage => by simp only [hw]; exact on_ne hk) fun _ => on_ne hk

/-- A task that was in a queue is not parked and no worker has it. -/
theorem dispatch_simulated {sched : DtaScheduler n} (hseat : rt.SeatAt i seat)
    (hle : rt.live i ≤ 1) (hheld : rt.shared.sched.held = sched.held + {i.val}) :
    rt.Simulated i seat none
      ({ rt with shared := { rt.shared with sched } }.setWorker w (.on .running i)) := by
  have hcount : 0 < rt.shared.sched.held.count i.val := by
    rw [hheld, Multiset.count_add, Multiset.count_singleton_self]
    omega
  have hexec : executing rt.workers i = 0 := by
    simp only [live] at hle
    omega
  have hpark : parked (rt.shared.ctx i) = 0 := by
    simp only [live] at hle
    omega
  have hword : (rt.shared.ctx i).state ≠ .yielded := by
    intro hy
    simp [parked, hy] at hpark
  obtain rfl : seat = .ready := by
    cases seat with
    | out =>
      simp only [SeatAt, live] at hseat
      omega
    | ready => rfl
    | on stage =>
      obtain ⟨w', hw'⟩ := hseat
      have hpos := executing_pos hw'
      omega
  exact ⟨_, .dispatch hword, seatAt_set _ w _ i⟩

/-! ### Any step -/

theorem step_simulated (hseat : rt.SeatAt i seat) (hle : rt.live i + rt.idle i ≤ 1)
    (h : step a rt = some rt') : rt.Simulated i seat (rt.event i a) rt' := by
  have hsp := step_spends h i
  have hle₁ : rt.live i ≤ 1 := (Nat.le_add_right _ _).trans hle
  have hkeep (hns : ¬ rt.Starts a i) : rt'.live i ≤ rt.live i := hsp.live.resolve_left hns
  cases step_takes h with
  | hostUser _ =>
    exact Quiet.simulated ⟨rfl, rfl, fun _ _ => Iff.rfl⟩ hseat (hkeep (by rintro ⟨_, _, ⟨⟩, _⟩))
  | @fiberUser w k u calls c hw hc hu hcall =>
    by_cases hk : i = k
    · subst hk
      obtain rfl := hseat.eq_on hle₁ hw
      have hev : rt.event i (.user (.fiber w) u) = u.event calls := by
        simp [event, hw, hc, Control.calls]
      rw [hev]
      refine ⟨.on .running, ?_, ⟨w, hw⟩⟩
      simp only [view, hc, Shared.setFiber_self]
      exact .user hu hcall
    · have hev : rt.event i (.user (.fiber w) u) = none := by
        simp [event, hw, Ne.symm hk]
      rw [hev]
      exact Quiet.simulated ⟨rfl, Shared.setFiber_ne _ (val_ne hk) _, fun _ _ => Iff.rfl⟩ hseat
        (hkeep (by rintro ⟨_, _, ⟨⟩, _⟩))
  | @hostRun k c rest next hc hr =>
    exact run_simulated hseat hle (by simp [nextCall, hc]) hr (by rintro ⟨⟩) rfl hsp rfl rfl
      fun _ _ => Iff.rfl
  | @body w k c rest next hw hc hr =>
    refine proceed_simulated hseat hle hw (by rw [hc]; rfl) hr hsp ?_
    rintro rfl hspawn
    rw [view, hc]
    exact .body rfl rfl hspawn hr
  | @late w k pc c rest next hw hc hr hp =>
    refine proceed_simulated hseat hle hw (by rw [hc]; rfl) hr hsp ?_
    rintro rfl hspawn
    rw [view, hc]
    exact .late rfl rfl hspawn hr hp
  | @epilogue w k pc hw hc =>
    by_cases hk : i = k
    · subst hk
      obtain rfl := hseat.eq_on hle₁ hw
      exact epilogue_simulated hw hc
    · have hcall : rt.nextCall (.fiber w) = none := by simp [nextCall, hw, hc, Control.calls]
      have hev : rt.event i (.run (.fiber w)) = none := by
        simp [event, hcall, runs, hw, Ne.symm hk]
      rw [hev]
      refine (epilogue_quiet hk hw pc).simulated hseat (hkeep ?_)
      rintro ⟨_, _, ⟨⟩, hc', _⟩
      rw [hcall] at hc'
      cases hc'
  | @abort w k pc c rest next hw hc hr hp =>
    have hcall : rt.nextCall (.fiber w) = some c := by simp [nextCall, hw, hc, Control.calls]
    obtain ⟨hwake, hown⟩ := event_panic hr hp i pc rest
    have hev : rt.event i (.run (.fiber w)) = none := by
      rw [event_run hcall, hwake, Option.none_or]
      split
      · next hruns =>
        obtain rfl : k = i := by simpa [runs, hw] using hruns
        rw [hc, hown]
      · rfl
    rw [hev]
    exact Quiet.simulated ⟨rfl, rfl, fun _ _ => Iff.rfl⟩ hseat le_rfl
  | @settle w k stage _ _ hw hs =>
    by_cases hk : i = k
    · subst hk
      obtain rfl := hseat.eq_on hle₁ hw
      exact settle_simulated hle₁ (hsp.total.trans hle) hw hs
    · have hev : rt.event i (.settle w) = none := by
        simp [event, hw, Ne.symm hk]
      rw [hev]
      exact (settle_quiet hk hw hs).simulated hseat (hkeep (by rintro ⟨_, _, ⟨⟩, _⟩))
  | @dispatch w k sched hw hheld =>
    by_cases hk : i = k
    · subst hk
      exact dispatch_simulated hseat hle₁ hheld
    · exact Quiet.simulated ⟨rfl, rfl, rt.setWorker_other (by simp [hw]) fun _ => on_ne hk⟩ hseat
        (hkeep (by rintro ⟨_, _, ⟨⟩, _⟩))
  | receive ha _ =>
    have hev : rt.event i a = none := by
      rcases ha with rfl | rfl <;> rfl
    rw [hev]
    exact Quiet.simulated ⟨rfl, rfl, fun _ _ => Iff.rfl⟩ hseat
      (hkeep (by rcases ha with rfl | rfl <;> rintro ⟨_, _, ⟨⟩, _⟩))

/-! ### Runs -/

theorem seatAt_new (topology : TopologyMode) (i : Fin cap) :
    (new n cap hosts topology).SeatAt i .out := by
  have hclaims : (new n cap hosts topology).live i + (new n cap hosts topology).idle i = _ :=
    claims_new topology i
  have hidle : (List.range cap).count i.val ≤ (new n cap hosts topology).idle i := by
    simp only [idle, new]
    omega
  simp only [SeatAt]
  omega

/-- A history of what the steps mean to the fiber `i`. -/
def recording {η : Type} (i : Fin cap) (upd : Option Event → η → η) :
    Act n hosts → Machine n cap hosts × η → Option (Machine n cap hosts × η) :=
  withHist step fun a rt => upd (rt.event i a)

/-- An invariant of the moves of a fiber and of a history of its events holds in
all runs. -/
theorem recording_invariant {η : Type} {upd : Option Event → η → η} {h₀ : η}
    (ok : Machine n cap hosts → Act n hosts → Prop) {J : View → η → Prop}
    (hinit : J ⟨.initial, .none, .out⟩ h₀)
    (hstep : ∀ rt a seat v' x, rt.live i ≤ 1 → rt.SeatAt i seat → ok rt a → J (rt.view i seat) x →
      Moves n i (rt.view i seat) (rt.event i a) v' → J v' (upd (rt.event i a) x))
    {tr : List (Act n hosts)} {p : Machine n cap hosts × η}
    (h : Run (initHist Initial h₀) (recording i upd) (fun q a => ok q.1 a) tr p) :
    p.1.live i + p.1.idle i ≤ 1 ∧ ∃ seat, p.1.SeatAt i seat ∧ J (p.1.view i seat) p.2 := by
  refine h.hist_invariant
    (I := fun rt x => rt.live i + rt.idle i ≤ 1 ∧
      ∃ seat, rt.SeatAt i seat ∧ J (rt.view i seat) x) ?_ ?_
  · rintro rt ⟨topology, rfl⟩
    exact ⟨claims_new_le_one topology i, .out, seatAt_new topology i, hinit⟩
  · rintro rt x a rt' ⟨hle, seat, hseat, hJ⟩ hok hst
    obtain ⟨seat', hmove, hseat'⟩ := step_simulated hseat hle hst
    exact ⟨(step_spends hst i).total.trans hle, seat', hseat',
      hstep rt a seat _ x ((Nat.le_add_right _ _).trans hle) hseat hok hJ hmove⟩

end

end Machine

end Dtact.Runtime
