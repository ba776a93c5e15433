import Dtact.Lib.Transition
import Dtact.Runtime.Effects

/-!
# No double dispatch

A context is free or being launched (`idle`), or with a worker, in a container of the scheduler,
parked, or in the hands of a thread that is about to enqueue it (`live`). A step hands a context on
or drops it, and never makes a second claim to it.
-/

namespace Dtact.Runtime

open Scheduler Transition

/-- How often the calls claim `i`. -/
def owned (f : Call → List Nat) (i : Nat) (calls : List Call) : Nat := (calls.flatMap f).count i

/-- The claim of a parked fiber to its own context. -/
def parked (c : FiberContext) : Nat := if c.state = .yielded then 1 else 0

section

variable {n cap hosts : Nat}

/-- The number of workers that have the task `i` in hand. -/
def executing (workers : Fin n → WorkerPc cap) (i : Nat) : Nat :=
  ∑ w, if (workers w).task? = some i then 1 else 0

def fibersOwn (cap : Nat) (f : Call → List Nat) (fibers : Nat → Control) (i : Nat) : Nat :=
  ∑ j ∈ Finset.range cap, owned f i (fibers j).calls

def hostsOwn (f : Call → List Nat) (hs : Fin hosts → List Call) (i : Nat) : Nat :=
  ∑ h, owned f i (hs h)

end

namespace Machine

variable {n cap hosts : Nat}

/-- The claims to `i` as a fiber. -/
def live (rt : Machine n cap hosts) (i : Nat) : Nat :=
  rt.shared.sched.held.count i + parked (rt.shared.ctx i) + executing rt.workers i +
    fibersOwn cap Call.wakes rt.shared.fibers i + hostsOwn Call.wakes rt.hosts i

/-- The claims to `i` as a free context. -/
def idle (rt : Machine n cap hosts) (i : Nat) : Nat :=
  rt.shared.free.count i + fibersOwn cap Call.spawns rt.shared.fibers i +
    hostsOwn Call.spawns rt.hosts i

/-- The call a thread is to go on with. -/
def nextCall (rt : Machine n cap hosts) : Thread n hosts → Option Call
  | .host h => (rt.hosts h).head?
  | .fiber w =>
    match rt.workers w with
    | .on .running i => (rt.shared.fibers i).calls.head?
    | _ => none

/-- The action starts a new fiber in `i`. -/
def Starts (rt : Machine n cap hosts) (a : Act n hosts) (i : Nat) : Prop :=
  ∃ t c, a = .run t ∧ rt.nextCall t = some c ∧ i ∈ c.spawns

/-- A step that adds no claim to `i`. -/
structure Spends (rt : Machine n cap hosts) (a : Act n hosts) (i : Nat)
    (rt' : Machine n cap hosts) : Prop where
  total : rt'.live i + rt'.idle i ≤ rt.live i + rt.idle i
  live : rt.Starts a i ∨ rt'.live i ≤ rt.live i

end Machine

/-! ## Calls -/

section

variable {f : Call → List Nat} {i : Nat}

@[simp]
theorem owned_nil : owned f i [] = 0 := rfl

@[simp]
theorem owned_cons (c : Call) (calls : List Call) :
    owned f i (c :: calls) = (f c).count i + owned f i calls := by
  simp [owned]

@[simp]
theorem owned_append (calls calls' : List Call) :
    owned f i (calls ++ calls') = owned f i calls + owned f i calls' := by
  simp [owned]

theorem owned_unwind_le (calls : List Call) : owned f i (unwind calls) ≤ owned f i calls := by
  have h := List.takeWhile_append_dropWhile (p := fun c : Call => !c.isPoll) (l := calls)
  calc owned f i (unwind calls)
      ≤ owned f i (calls.takeWhile fun c => !c.isPoll) + owned f i (unwind calls) :=
        Nat.le_add_left _ _
    _ = owned f i calls := by rw [← owned_append, unwind, h]

theorem owned_calls_le {n : Nat} (next : Next n) (rest : List Call) :
    owned f i (next.calls rest) ≤ owned f i next.own + owned f i rest := by
  cases next with
  | goto calls sh | switch calls sh => exact (owned_append calls rest).le
  | panic sh => simpa [Next.own, Next.calls] using owned_unwind_le rest

/-- User code claims no context: what it calls has still to find one. -/
theorem UserAct.call_owned {u : UserAct} {calls calls' : List Call}
    (h : u.call calls = some calls') :
    owned Call.wakes i calls' = owned Call.wakes i calls ∧
      owned Call.spawns i calls' = owned Call.spawns i calls := by
  cases u <;> cases h <;> simp [Call.wakes, Call.spawns]

theorem UserAct.onFiber_owned {u : UserAct} {calls : List Call} {c : Control}
    (h : u.onFiber calls = some c) :
    owned Call.wakes i c.calls ≤ owned Call.wakes i calls ∧
      owned Call.spawns i c.calls ≤ owned Call.spawns i calls := by
  cases onFiber_leads h with
  | unwind c rest =>
    have hw := owned_unwind_le (f := Call.wakes) (i := i) rest
    have hs := owned_unwind_le (f := Call.spawns) (i := i) rest
    simp only [Control.calls, owned_cons]
    omega
  | _ => simp [Control.calls, Call.wakes, Call.spawns]

end

theorem parked_le {c c' : FiberContext} (h : c'.state = .yielded → c.state = .yielded) :
    parked c' ≤ parked c := by
  unfold parked
  split
  · next hy => rw [if_pos (h hy)]
  · exact Nat.zero_le _

theorem parked_eq_zero {c : FiberContext} (h : c.state ≠ .yielded) : parked c = 0 := if_neg h

theorem Active.ne_yielded {state : FiberStatus} (h : Active state) : state ≠ .yielded := by
  rcases h with rfl | rfl | rfl <;> simp

theorem Launch.init_state (l : Launch) (topology : TopologyMode) (core : Nat) (c : FiberContext) :
    (l.init topology core c).state = .running := by
  cases l <;> rfl

section

variable {n : Nat} {who : Who n} {sh sh' : Shared n} {next : Next n} {c : Call}

theorem Still.parked_le (h : Still who sh sh') (i : Nat) :
    parked (sh'.ctx i) ≤ parked (sh.ctx i) := by
  refine Runtime.parked_le fun hy => ?_
  rcases h.state i with he | ⟨_, ha⟩
  · exact he.symm.trans hy
  · exact absurd hy ha.ne_yielded

/-- A step of a call adds no claim. -/
theorem Call.Does.claims_le (h : c.Does who sh next) (i : Nat) :
    next.shared.sched.held.count i + parked (next.shared.ctx i) + owned Call.wakes i next.own +
        (next.shared.free.count i + owned Call.spawns i next.own) ≤
      sh.sched.held.count i + parked (sh.ctx i) + c.wakes.count i +
        (sh.free.count i + c.spawns.count i) ∧
    (i ∈ c.spawns ∨
      next.shared.sched.held.count i + parked (next.shared.ctx i) + owned Call.wakes i next.own ≤
        sh.sched.held.count i + parked (sh.ctx i) + c.wakes.count i) := by
  cases h with
  | still hs hw hp =>
    have hle := hs.parked_le i
    rw [hs.sched, hs.free, owned, owned, hw, hp]
    omega
  | panic =>
    simp only [Next.own, Next.shared, owned_nil]
    omega
  | @wake j route calls hw hp =>
    -- the claim of the parked fiber passes to the waker
    have hle : parked ((sh.setState j .notified).ctx i) +
        (if (sh.ctx j).state = .yielded then [j] else []).count i ≤ parked (sh.ctx i) := by
      by_cases hj : i = j
      · subst hj
        rw [parked_eq_zero (by simp), parked]
        split <;> simp
      · rw [sh.setState_ne hj]
        split <;> simp [Ne.symm hj]
    simp only [Next.own, Next.shared, owned, hw, hp, Call.wakes, Call.spawns, Shared.setState,
      Shared.setCtx, List.count_nil] at hle ⊢
    omega
  | @enqueue origin j pinned affinity sched hheld =>
    have hcount : sched.held.count i = sh.sched.held.count i + [j].count i := by
      rw [hheld, Multiset.count_add, ← Multiset.coe_singleton, Multiset.coe_count]
    simp only [Next.own, Next.shared, owned_nil, Call.wakes, Call.spawns, hcount]
    omega
  | @alloc l core j pc sh₁ free hs hfree =>
    have hle := hs.parked_le i
    simp only [Next.own, Next.shared, owned_cons, owned_nil, hfree, hs.sched, Call.wakes,
      Call.spawns, List.count_nil, List.count_cons]
    omega
  | @start l core core' j =>
    have hle : parked ((l.start core' j sh).ctx i) ≤ parked (sh.ctx i) := by
      refine parked_le fun hy => ?_
      by_cases hj : i = j
      · subst hj
        simp [Launch.start, Shared.setFiber, Launch.init_state] at hy
      · rwa [Launch.start, Shared.setFiber, sh.setCtx_ne hj] at hy
    have hsched : (l.start core' j sh).sched = sh.sched := rfl
    have hfree : (l.start core' j sh).free = sh.free := rfl
    have hmem : i ∈ [j] ∨ [j].count i = 0 := by
      rw [List.count_eq_zero]
      exact Classical.em _
    simp only [Next.own, Next.shared, owned_cons, owned_nil, Call.wakes, Call.spawns,
      Shared.wakeFiber, hsched, hfree, List.count_nil]
    exact ⟨by omega, hmem.imp_right fun h₀ => by omega⟩

/-- A step of a call leaves the other fibers alone, or starts them anew. -/
theorem Call.Does.fibers (h : c.Does who sh next) (k : Nat) :
    next.shared.fibers k = sh.fibers k ∨ next.shared.fibers k = .body [] ∧ k ∈ c.spawns := by
  cases h with
  | still hs _ _ => exact Or.inl (by rw [hs.fibers])
  | panic | wake _ _ | enqueue _ => exact Or.inl rfl
  | alloc hs _ => exact Or.inl (by simp only [Next.shared, hs.fibers])
  | @start l core core' j =>
    by_cases hk : k = j
    · subst hk
      exact Or.inr ⟨Shared.setFiber_self _ _ _, by simp [Call.spawns]⟩
    · exact Or.inl (by simp only [Next.shared, Launch.start, Shared.setFiber_ne _ hk]; rfl)

theorem Call.Does.fibers_owned_le (h : c.Does who sh next) (f : Call → List Nat) (i k : Nat) :
    owned f i (next.shared.fibers k).calls ≤ owned f i (sh.fibers k).calls := by
  rcases h.fibers k with he | ⟨he, _⟩
  · rw [he]
  · rw [he]
    exact Nat.zero_le _

end

/-! ## Workers, fibers and hosts -/

section

variable {n cap hosts : Nat}

theorem executing_update (workers : Fin n → WorkerPc cap) (w : Fin n) (pc : WorkerPc cap)
    (i : Nat) :
    executing (Function.update workers w pc) i +
        (if (workers w).task? = some i then 1 else 0) =
      executing workers i + if pc.task? = some i then 1 else 0 :=
  Bags.sum_update workers (fun pc => if pc.task? = some i then 1 else 0) (Finset.mem_univ w) pc

variable {workers : Fin n → WorkerPc cap} {w : Fin n} {i : Fin cap} {stage : Stage}

theorem executing_keep (hw : workers w = .on stage i) (stage' : Stage) (j : Nat) :
    executing (Function.update workers w (.on stage' i)) j = executing workers j := by
  have he := executing_update workers w (.on stage' i) j
  rw [hw] at he
  exact Nat.add_right_cancel he

theorem executing_release (hw : workers w = .on stage i) (j : Nat) :
    executing (Function.update workers w .idle) j + [i.val].count j = executing workers j := by
  have he := executing_update workers w .idle j
  simpa [hw, WorkerPc.task?, List.count_singleton] using he

theorem executing_take (hw : workers w = .idle) (i : Fin cap) (stage : Stage) (j : Nat) :
    executing (Function.update workers w (.on stage i)) j =
      executing workers j + [i.val].count j := by
  have he := executing_update workers w (.on stage i) j
  simpa [hw, WorkerPc.task?, List.count_singleton] using he

theorem executing_afterSwitch (hw : workers w = .on stage i) (state : FiberStatus) (j : Nat) :
    executing (Function.update workers w (Machine.afterSwitch i state)) j ≤
      executing workers j := by
  unfold Machine.afterSwitch
  split
  · exact (executing_keep hw _ j).le
  · split
    · exact (executing_keep hw _ j).le
    · have he := executing_release hw j
      omega

theorem fibersOwn_update (f : Call → List Nat) (j : Nat) {fibers fibers' : Nat → Control}
    (hle : ∀ k, owned f j (fibers' k).calls ≤ owned f j (fibers k).calls) (i : Fin cap)
    (c : Control) :
    fibersOwn cap f (Function.update fibers' i c) j + owned f j (fibers i).calls ≤
      fibersOwn cap f fibers j + owned f j c.calls :=
  Bags.sum_update_le (F := fun c : Control => owned f j c.calls) (Finset.mem_range.mpr i.isLt) hle c

theorem fibersOwn_set (f : Call → List Nat) (j : Nat) (fibers : Nat → Control) (i : Fin cap)
    (c : Control) :
    fibersOwn cap f (Function.update fibers i c) j + owned f j (fibers i).calls ≤
      fibersOwn cap f fibers j + owned f j c.calls :=
  fibersOwn_update f j (fun _ => le_rfl) i c

theorem fibersOwn_le (cap : Nat) (f : Call → List Nat) (j : Nat) {fibers fibers' : Nat → Control}
    (hle : ∀ k, owned f j (fibers' k).calls ≤ owned f j (fibers k).calls) :
    fibersOwn cap f fibers' j ≤ fibersOwn cap f fibers j :=
  Finset.sum_le_sum fun k _ => hle k

theorem hostsOwn_update (f : Call → List Nat) (hs : Fin hosts → List Call) (k : Fin hosts)
    (calls : List Call) (j : Nat) :
    hostsOwn f (Function.update hs k calls) j + owned f j (hs k) =
      hostsOwn f hs j + owned f j calls :=
  Bags.sum_update hs (owned f j) (Finset.mem_univ k) calls

end

theorem parked_setCtx_le {n : Nat} (sh : Shared n) (i : Nat) {c : FiberContext}
    (h : c.state = .yielded → (sh.ctx i).state = .yielded) (j : Nat) :
    parked ((sh.setCtx i c).ctx j) ≤ parked (sh.ctx j) := by
  refine parked_le fun hy => ?_
  by_cases hj : j = i
  · subst hj
    rw [sh.setCtx_self] at hy
    exact h hy
  · rwa [sh.setCtx_ne hj] at hy

/-! ## Steps -/

namespace Machine

variable {n cap hosts : Nat} {rt rt' : Machine n cap hosts} {a : Act n hosts}

/-- A step that makes no context live and hands on what it takes. -/
theorem Spends.of_le {j : Nat} (hlive : rt'.live j ≤ rt.live j) (hidle : rt'.idle j ≤ rt.idle j) :
    Spends rt a j rt' :=
  ⟨Nat.add_le_add hlive hidle, Or.inr hlive⟩

theorem hostUser_spends {k : Fin hosts} {u : UserAct} {calls : List Call}
    (h : u.call (rt.hosts k) = some calls) (j : Nat) : Spends rt a j (rt.setHost k calls) := by
  obtain ⟨hw, hs⟩ := UserAct.call_owned (i := j) h
  have hwake := hostsOwn_update Call.wakes rt.hosts k calls j
  have hspawn := hostsOwn_update Call.spawns rt.hosts k calls j
  refine .of_le ?_ ?_
  · simp only [live, setHost]
    omega
  · simp only [idle, setHost]
    omega

theorem hostRun_spends {who : Who n} {k : Fin hosts} {c : Call} {rest : List Call} {next : Next n}
    (hc : rt.hosts k = c :: rest) (hd : c.Does who rt.shared next) (j : Nat) :
    Spends rt (.run (.host k)) j
      ({ rt with shared := next.shared }.setHost k (next.calls rest)) := by
  have hwake := hostsOwn_update Call.wakes rt.hosts k (next.calls rest) j
  have hspawn := hostsOwn_update Call.spawns rt.hosts k (next.calls rest) j
  have hwf := fibersOwn_le cap Call.wakes j (hd.fibers_owned_le Call.wakes j)
  have hsf := fibersOwn_le cap Call.spawns j (hd.fibers_owned_le Call.spawns j)
  have hwle := owned_calls_le (f := Call.wakes) (i := j) next rest
  have hsle := owned_calls_le (f := Call.spawns) (i := j) next rest
  obtain ⟨htotal, hlive⟩ := hd.claims_le j
  rw [hc, owned_cons] at hwake hspawn
  refine ⟨?_, hlive.imp (fun hj => ⟨.host k, c, rfl, by simp [nextCall, hc], hj⟩) fun hle => ?_⟩
  · simp only [live, idle, setHost]
    omega
  · simp only [live, setHost]
    omega

variable {w : Fin n} {i : Fin cap}

theorem proceed_spends {who : Who n} {c : Call} {rest : List Call} {control : Control}
    {next : Next n} (hw : rt.workers w = .on .running i)
    (hc : (rt.shared.fibers i).calls = c :: rest) (hd : c.Does who rt.shared next)
    (hcalls : control.calls = next.calls rest) (j : Nat) :
    Spends rt (.run (.fiber w)) j (rt.proceed w i control next) := by
  have hwake := fibersOwn_update Call.wakes j (hd.fibers_owned_le Call.wakes j) i control
  have hspawn := fibersOwn_update Call.spawns j (hd.fibers_owned_le Call.spawns j) i control
  have hwle := owned_calls_le (f := Call.wakes) (i := j) next rest
  have hsle := owned_calls_le (f := Call.spawns) (i := j) next rest
  obtain ⟨htotal, hlive⟩ := hd.claims_le j
  rw [hc, hcalls, owned_cons] at hwake hspawn
  refine ⟨?_, hlive.imp (fun hj => ⟨.fiber w, c, rfl, by simp [nextCall, hw, hc], hj⟩)
    fun hle => ?_⟩
  · simp only [live, idle, proceed, setWorker, Shared.setFiber, executing_keep hw]
    omega
  · simp only [live, proceed, setWorker, Shared.setFiber, executing_keep hw]
    omega

/-- The running fiber changes its own words and its calls, and owns no more than
before. -/
theorem setFiber_spends {c : FiberContext} {control : Control} (j : Nat)
    (hstate : c.state = .yielded → (rt.shared.ctx i).state = .yielded)
    (hw : owned Call.wakes j control.calls ≤ owned Call.wakes j (rt.shared.fibers i).calls)
    (hs : owned Call.spawns j control.calls ≤ owned Call.spawns j (rt.shared.fibers i).calls) :
    Spends rt a j { rt with shared := (rt.shared.setCtx i c).setFiber i control } := by
  have hwake := fibersOwn_set Call.wakes j rt.shared.fibers i control
  have hspawn := fibersOwn_set Call.spawns j rt.shared.fibers i control
  have hp := parked_setCtx_le _ _ hstate j
  refine .of_le ?_ ?_
  · simp only [live, Shared.setFiber, Shared.setCtx] at hp ⊢
    omega
  · simp only [idle, Shared.setFiber, Shared.setCtx]
    omega

theorem fiberUser_spends {u : UserAct} {calls : List Call} {c : Control}
    (hc : rt.shared.fibers i = .body calls) (h : u.onFiber calls = some c) (j : Nat) :
    Spends rt a j { rt with shared := rt.shared.setFiber i c } := by
  obtain ⟨hw, hs⟩ := UserAct.onFiber_owned (i := j) h
  have hctx : rt.shared.setCtx i (rt.shared.ctx i) = rt.shared := by
    simp [Shared.setCtx]
  have hsp : Spends rt a j
      { rt with shared := (rt.shared.setCtx i (rt.shared.ctx i)).setFiber i c } :=
    setFiber_spends j id (by rwa [hc]) (by rwa [hc])
  rwa [hctx] at hsp

theorem epilogue_spends {pc : EpiloguePc} (hw : rt.workers w = .on .running i) (j : Nat) :
    Spends rt a j (rt.epilogue w i pc) := by
  cases pc with
  | finish => exact setFiber_spends j nofun (Nat.zero_le _) (Nat.zero_le _)
  | waiter =>
    refine setFiber_spends j id ?_ ?_
    all_goals
      simp only [waiterCalls, Control.calls]
      split <;> simp [Call.wakes, Call.spawns]
  | switch =>
    have hwake := fibersOwn_set Call.wakes j rt.shared.fibers i (.epilogue .returned [])
    have hspawn := fibersOwn_set Call.spawns j rt.shared.fibers i (.epilogue .returned [])
    simp only [Control.calls, owned_nil] at hwake hspawn
    refine .of_le ?_ ?_
    · simp only [live, Machine.epilogue, setWorker, Shared.setFiber, executing_keep hw]
      omega
    · simp only [idle, Machine.epilogue, setWorker, Shared.setFiber]
      omega
  | returned => exact .of_le le_rfl le_rfl

theorem settle_spends {stage : Stage} {shared : Shared n} {pc : WorkerPc cap}
    (hw : rt.workers w = .on stage i) (h : Settles rt.shared w i stage shared pc) (j : Nat) :
    Spends rt a j ({ rt with shared }.setWorker w pc) := by
  have hrel := executing_release hw j
  cases h with
  | after =>
    have he := executing_afterSwitch hw (rt.shared.ctx i).state j
    refine .of_le ?_ le_rfl
    simp only [live, setWorker]
    omega
  | inspect =>
    refine .of_le ?_ le_rfl
    simp only [live, setWorker, executing_keep hw]
    exact le_rfl
  | park =>
    -- the worker's claim passes to the parked fiber
    have hp : parked ((rt.shared.setState i .yielded).ctx j) ≤
        parked (rt.shared.ctx j) + [i.val].count j := by
      by_cases hj : j = i
      · subst hj
        simp [parked]
      · rw [Shared.setState_ne _ hj]
        omega
    refine .of_le ?_ le_rfl
    simp only [live, setWorker, Shared.setState, Shared.setCtx] at hp ⊢
    omega
  | requeue =>
    have hp : (rt.shared.sched.pushLocal w i).2.held.count j ≤
        rt.shared.sched.held.count j + [i.val].count j := by
      by_cases hfull : (rt.shared.sched.workers w).localQueueLen ≥ localQueueCapacity - 1
      · rw [DtaScheduler.pushLocal_full hfull]
        exact Nat.le_add_right _ _
      · obtain ⟨s', hs', hd⟩ := DtaScheduler.pushLocal_ok (t := i.val) hfull
        rw [hs', hd.held, Multiset.count_add, Multiset.coe_count]
    refine .of_le ?_ le_rfl
    simp only [live, setWorker]
    omega
  | freeState =>
    have hp := parked_setCtx_le rt.shared i
      (c := { rt.shared.ctx i with state := .initial }) (by rintro ⟨⟩) j
    refine .of_le ?_ le_rfl
    simp only [live, setWorker, executing_keep hw, Shared.setState, Shared.setCtx] at hp ⊢
    omega
  | freeGen =>
    have hp := parked_setCtx_le rt.shared i
      (c := { rt.shared.ctx i with
        generation := ((rt.shared.ctx i).generation + 1) % u32Mod }) id j
    refine .of_le ?_ le_rfl
    simp only [live, setWorker, executing_keep hw, Shared.setCtx] at hp ⊢
    omega
  | freePush =>
    -- the worker's claim passes to the free list
    refine ⟨?_, Or.inr ?_⟩
    · simp only [live, idle, setWorker, List.count_cons] at hrel ⊢
      omega
    · simp only [live, setWorker]
      omega

theorem dispatch_spends {sched : DtaScheduler n} (hw : rt.workers w = .idle)
    (hheld : rt.shared.sched.held = sched.held + {i.val}) (j : Nat) :
    Spends rt a j
      ({ rt with shared := { rt.shared with sched } }.setWorker w (.on .running i)) := by
  have hcount : rt.shared.sched.held.count j = sched.held.count j + [i.val].count j := by
    rw [hheld, Multiset.count_add, ← Multiset.coe_singleton, Multiset.coe_count]
  refine .of_le ?_ le_rfl
  simp only [live, setWorker, executing_take hw]
  omega

variable [NeZero n]

/-- No step adds a claim to a context. -/
theorem step_spends (h : step a rt = some rt') (j : Nat) : Spends rt a j rt' := by
  cases step_takes h with
  | hostUser hu => exact hostUser_spends hu j
  | fiberUser _ hc _ hu => exact fiberUser_spends hc hu j
  | hostRun hc hr => exact hostRun_spends hc (Call.run_does hr) j
  | body hw hc hr
  | late hw hc hr _ => exact proceed_spends hw (by rw [hc]; rfl) (Call.run_does hr) rfl j
  | epilogue hw _ => exact epilogue_spends hw j
  | abort _ _ _ _ => exact .of_le le_rfl le_rfl
  | settle hw hs => exact settle_spends hw hs j
  | dispatch hw hheld => exact dispatch_spends hw hheld j
  | receive _ hheld =>
    refine .of_le (le_of_eq ?_) le_rfl
    simp only [live, hheld]

/-! ## Runs -/

theorem claims_new (topology : TopologyMode) (i : Nat) :
    (new n cap hosts topology).live i + (new n cap hosts topology).idle i =
      (List.range cap).count i := by
  have hfibers (f) : fibersOwn cap f (fun _ => Control.none) i = 0 :=
    Finset.sum_eq_zero fun _ _ => rfl
  have hhosts (f) : hostsOwn f (fun _ : Fin hosts => []) i = 0 := Finset.sum_eq_zero fun _ _ => rfl
  have hexec : executing (fun _ : Fin n => (WorkerPc.idle : WorkerPc cap)) i = 0 :=
    Finset.sum_eq_zero fun _ _ => rfl
  have hparked : parked FiberContext.new = 0 := rfl
  simp only [live, idle, new, DtaScheduler.held_new, hfibers, hhosts, hexec, hparked,
    Multiset.count_zero, Nat.zero_add, Nat.add_zero]

/-- Nothing but the contexts of the pool is ever claimed, and none of them twice. -/
theorem claims_le {ok : Machine n cap hosts → Act n hosts → Prop} {tr : List (Act n hosts)}
    (h : Run Initial step ok tr rt) (i : Nat) :
    rt.live i + rt.idle i ≤ (List.range cap).count i := by
  refine Run.invariant (I := fun _ rt => rt.live i + rt.idle i ≤ (List.range cap).count i) ?_ ?_ h
  · rintro _ ⟨topology, rfl⟩
    exact (claims_new topology i).le
  · intro _ _ _ _ hI _ hst
    exact (step_spends hst i).total.trans hI

theorem count_range_le_one (cap i : Nat) : (List.range cap).count i ≤ 1 :=
  List.nodup_iff_count_le_one.mp List.nodup_range i

theorem claims_new_le_one (topology : TopologyMode) (i : Nat) :
    (new n cap hosts topology).live i + (new n cap hosts topology).idle i ≤ 1 :=
  (claims_new topology i).le.trans (count_range_le_one cap i)

theorem claims_le_one {ok : Machine n cap hosts → Act n hosts → Prop} {tr : List (Act n hosts)}
    (h : Run Initial step ok tr rt) (i : Nat) : rt.live i + rt.idle i ≤ 1 :=
  (claims_le h i).trans (count_range_le_one cap i)

/-- **No double dispatch.** For every number of workers, contexts and other
threads and every interleaving of spawns, dispatches, polls, suspensions and
wakes, by whatever wakers there are: a context is in at most one container or in
the hands of one worker, and in none while it is on the free list. -/
theorem no_double_dispatch {tr : List (Act n hosts)} (h : Run Initial step Free tr rt) (i : Nat) :
    rt.shared.sched.held.count i + executing rt.workers i ≤ 1 ∧
    (i ∈ rt.shared.free → rt.shared.sched.held.count i + executing rt.workers i = 0) := by
  have hle := claims_le_one h i
  simp only [live, idle] at hle
  refine ⟨by omega, fun hfree => ?_⟩
  have hpos := List.count_pos_iff.mpr hfree
  omega

/-- A host spawns a fiber, the fiber parks in `yield_to`, the host wakes it and
worker 0 dispatches it again. -/
def parkAndWake : List (Act 2 1) :=
  [.user (.host 0) (.spawn .withStack 0), .run (.host 0), .run (.host 0),
    .run (.host 0), .poll 0, .dispatch 0, .user (.fiber 0) (.yieldTo 1 0), .run (.fiber 0),
    .run (.fiber 0), .run (.fiber 0), .settle 0, .settle 0, .user (.host 0) (.wake 0 none),
    .run (.host 0), .run (.host 0), .poll 0, .dispatch 0]

theorem no_double_dispatch_two : ∃ rt : Machine 2 2 1,
    Run Initial step Free parkAndWake.reverse rt ∧
      rt.shared.sched.held.count 0 + executing rt.workers 0 ≤ 1 := by
  have hsome : (exec step parkAndWake (new 2 2 1 .p2pMesh)).isSome := by decide +kernel
  obtain ⟨rt, hrt⟩ := Option.isSome_iff_exists.mp hsome
  have h : Run Initial step Free parkAndWake.reverse rt := Run.of_exec _ ⟨.p2pMesh, rfl⟩ hrt
  exact ⟨rt, h, (no_double_dispatch h 0).1⟩

end Machine

end Dtact.Runtime
