import Dtact.Runtime.Stacks

/-!
# A fiber that yields to another one

`fiber::yield_to` wakes the fiber it is given, stores `Suspending` in the state word of its caller
and switches to the worker. Nobody has been told to wake the caller, and the store covers a wake
that came before it.
-/

namespace Dtact.Runtime

open Scheduler Transition

/-- What has happened to a fiber in `yield_to`. -/
structure YieldNote where
  /-- A wake has landed since the latest call of `yield_to`. -/
  landed : Bool
  /-- The latest step of the fiber was the switch out of `yield_to`. -/
  out : Bool
deriving DecidableEq

namespace Machine

variable {n cap hosts : Nat} {rt rt' : Machine n cap hosts} {a : Act n hosts} {i : Fin cap}

def noteYield (i : Fin cap) (a : Act n hosts) (rt : Machine n cap hosts) (y : YieldNote) :
    YieldNote :=
  match a with
  | .user (.fiber w) u =>
    if rt.workers w = .on .running i then
      match u with
      | .yieldTo _ _ => ⟨false, false⟩
      | _ => { y with out := false }
    else y
  | .run t =>
    { landed := y.landed || rt.event i a = some .wake
      out :=
        if rt.runs i t then (rt.shared.fibers i).calls.head? = some (.yieldTo .switch) else y.out }
  | _ => y

/-- The fiber has called `yield_to` and not stored `Suspending` yet. -/
def BeforeStore (rt : Machine n cap hosts) (i : Fin cap) : Prop :=
  .yieldTo .store ∈ (rt.shared.fibers i).calls

/-- The fiber has stored `Suspending` in `yield_to` and not switched yet. -/
def BeforeSwitch (rt : Machine n cap hosts) (i : Fin cap) : Prop :=
  (rt.shared.fibers i).calls.head? = some (.yieldTo .switch)

/-- No wake lands before the store of `yield_to`, and one has landed when the worker is about to
park a fiber that switched out of it. -/
def YieldWoken (i : Fin cap) (p : Machine n cap hosts × YieldNote) : Act n hosts → Prop
  | .run t => p.1.event i (.run t) = some .wake → ¬ p.1.BeforeStore i
  | .settle w => p.1.workers w = .on .parkCas i → p.2.out = true →
      (p.1.shared.ctx i).state ≠ .suspending
  | _ => True

instance (i : Fin cap) (p : Machine n cap hosts × YieldNote) (a : Act n hosts) :
    Decidable (YieldWoken i p a) :=
  match a with
  | .run t => inferInstanceAs (Decidable (p.1.event i (.run t) = some .wake →
      ¬ .yieldTo .store ∈ (p.1.shared.fibers i).calls))
  | .settle w => inferInstanceAs (Decidable (p.1.workers w = .on .parkCas i → p.2.out = true →
      (p.1.shared.ctx i).state ≠ .suspending))
  | .user _ _ => .isTrue trivial
  | .dispatch _ => .isTrue trivial
  | .poll _ => .isTrue trivial
  | .drain _ => .isTrue trivial

/-- A wake is in the state word, or there was none and the fiber is suspended. -/
def Standing (word : FiberStatus) (landed : Bool) : Prop :=
  word = .notified ∨ word = .suspending ∧ landed = false

structure Yields (rt : Machine n cap hosts) (i : Fin cap) (y : YieldNote) : Prop where
  /-- There is nothing to cover when `yield_to` stores `Suspending`. -/
  store : rt.BeforeStore i → y.landed = false
  switch : rt.BeforeSwitch i → Standing (rt.shared.ctx i).state y.landed
  running : rt.BeforeSwitch i → ∃ w, rt.workers w = .on .running i
  out : y.out = true →
    (rt.shared.fibers i).isBody ∧ Standing (rt.shared.ctx i).state y.landed

end Machine

/-! ## Calls and user code -/

section

variable {n : Nat} {who : Who n} {sh : Shared n} {c : Call} {next : Next n} {rest : List Call}

theorem Nested.switch_not_mem (h : Nested (c :: rest)) : .yieldTo .switch ∉ rest :=
  fun hmem => Bool.false_ne_true (h _ hmem)

/-- Only the store of `yield_to` leads on in `yield_to`. -/
theorem Call.run_yield [NeZero n] (hc : c ≠ .yieldTo .store) (hr : c.run who sh = some next)
    (pc : YieldPc) : .yieldTo pc ∉ next.own := by
  intro hmem
  cases (Call.run_follows hr).follows hmem with
  | yieldTo pc₀ _ =>
    cases pc₀ with
    | store => exact hc rfl
    | switch =>
      cases hr
      cases hmem

/-- User code comes into `yield_to` by calling it. -/
theorem UserAct.onFiber_store {u : UserAct} {calls : List Call} {control : Control}
    (hu : ∀ target core, u ≠ .yieldTo target core) (h : u.onFiber calls = some control)
    (hmem : .yieldTo .store ∈ control.calls) : .yieldTo .store ∈ calls := by
  cases onFiber_leads h with
  | yieldTo target core => exact absurd rfl (hu target core)
  | poll =>
    rcases List.mem_cons.mp hmem with heq | hmem
    · cases heq
    · exact .tail _ hmem
  | done => cases hmem
  | unwind => exact .tail _ ((List.dropWhile_sublist _).subset hmem)
  | _ =>
    rcases List.mem_cons.mp hmem with heq | hmem
    · cases heq
    · exact hmem

/-- User code does not come to the switch of `yield_to`. -/
theorem UserAct.onFiber_switch {u : UserAct} {calls : List Call} {control : Control}
    (hn : Nested calls) (hu : inUser calls) (h : u.onFiber calls = some control) :
    control.calls.head? ≠ some (.yieldTo .switch) := by
  have hall := hn.all_under hu
  have hnot : .yieldTo .switch ∉ calls := fun hmem => Bool.false_ne_true (hall _ hmem)
  cases onFiber_leads h with
  | unwind =>
    intro hhead
    have hmem := (List.dropWhile_sublist _).subset (List.mem_of_head? hhead)
    exact hnot (.tail _ hmem)
  | _ => simp [Control.calls]

end

/-! ## Steps -/

theorem Control.unfinished_of_isBody {c : Control} (h : c.isBody) : c.unfinished := by
  cases c with
  | body calls => rfl
  | _ => cases h

/-- A fiber that is about to switch out of `yield_to` is running. -/
theorem Moves.yield_running {n i : Nat} [NeZero n] {v v' : View} {e : Option Event}
    (hn : Nested v.control.calls) (hd : Discipline v)
    (h : v.control.calls.head? = some (.yieldTo .switch) → v.seat = .on .running)
    (hm : Moves n i v e v') (hhead : v'.control.calls.head? = some (.yieldTo .switch)) :
    v'.seat = .on .running := by
  cases hm with
  | other | wake => exact h hhead
  | start _ => cases hhead
  | dispatch _ => rfl
  | user hu hcall => exact absurd hhead (UserAct.onFiber_switch hn hu hcall)
  | @body _ c rest _ _ next _ _ _ hr =>
    by_cases hc : c = .yieldTo .store
    · subst hc
      simp only [Call.run, Option.map_eq_some_iff] at hr
      obtain ⟨_, _, rfl⟩ := hr
      rfl
    · -- the call under this one is not about to switch
      rcases Next.mem_calls (List.mem_of_head? hhead) with hmem | hmem
      · exact absurd hmem (Call.run_yield hc hr .switch)
      · exact absurd hmem hn.switch_not_mem
  | @late _ pc c rest _ _ _ _ _ hspawn hr _ =>
    have hbrief := hd.late pc (c :: rest) rfl
    rcases Next.mem_calls (List.mem_of_head? hhead) with hmem | hmem
    · cases (Call.run_brief (hbrief c List.mem_cons_self) hspawn hr).2 _ hmem
    · cases hbrief _ (.tail _ hmem)
  | finish => cases hhead
  | waiter packed =>
    have hmem := List.mem_of_head? hhead
    simp only [Control.calls, Machine.waiterCalls] at hmem
    split at hmem
    · cases hmem
    · cases List.mem_singleton.mp hmem
  | leave => cases hhead
  | after hstage _ => rcases hstage with rfl | rfl <;> cases h hhead
  | _ => cases h hhead

namespace Machine

variable {n cap hosts : Nat} {rt rt' : Machine n cap hosts} {a : Act n hosts} {i : Fin cap}
  {y : YieldNote}

theorem noteYield_elsewhere (hother : rt.Elsewhere a i) :
    noteYield i a rt y = ⟨y.landed || rt.event i a = some .wake, y.out⟩ := by
  cases a with
  | user t u =>
    cases t with
    | host k => simp [noteYield, event]
    | fiber w =>
      have hw : rt.workers w ≠ .on .running i := fun hw => (hother w i hw rfl).2 u rfl
      simp [noteYield, event, hw]
  | run t => simp [noteYield, hother.runs_eq_false]
  | settle w =>
    simp only [noteYield, event]
    split <;> simp
  | _ => simp [noteYield, event]

theorem noteYield_run {w : Fin n} (hw : rt.workers w = .on .running i) :
    noteYield i (.run (.fiber w)) rt y =
      ⟨y.landed || rt.event i (.run (.fiber w)) = some .wake,
        (rt.shared.fibers i).calls.head? = some (.yieldTo .switch)⟩ := by
  simp [noteYield, runs, hw]

theorem noteYield_user {w : Fin n} (hw : rt.workers w = .on .running i) (u : UserAct) :
    (noteYield i (.user (.fiber w) u) rt y).out = false ∧
      ((∃ target core, u = .yieldTo target core) ∧
          (noteYield i (.user (.fiber w) u) rt y).landed = false ∨
        (∀ target core, u ≠ .yieldTo target core) ∧
          (noteYield i (.user (.fiber w) u) rt y).landed = y.landed) := by
  simp only [noteYield, if_pos hw]
  cases u <;> simp

/-- Only a step in the runtime wakes a fiber. -/
theorem event_wake (h : rt.event i a = some .wake) : ∃ t, a = .run t := by
  cases a with
  | run t => exact ⟨t, rfl⟩
  | user t u =>
    cases t with
    | host k => cases h
    | fiber w =>
      simp only [event, UserAct.event] at h
      split at h
      · split at h <;> cases h
      · cases h
  | settle w =>
    simp only [event] at h
    split at h <;> cases h
  | _ => cases h

/-- The epilogue does not call `yield_to`. -/
theorem Sound.isBody_of_yield (hs : rt.Sound) {pc : YieldPc}
    (h : .yieldTo pc ∈ (rt.shared.fibers i).calls) : (rt.shared.fibers i).isBody := by
  obtain ⟨seat, -, hd, -⟩ := hs.fiber i
  cases hc : rt.shared.fibers i with
  | none =>
    rw [hc] at h
    cases h
  | body calls => rfl
  | epilogue epc calls =>
    rw [hc] at h
    cases hd.late epc calls hc _ h

theorem BeforeSwitch.mem (h : rt.BeforeSwitch i) :
    .yieldTo .switch ∈ (rt.shared.fibers i).calls := List.mem_of_head? h

variable [NeZero n]

theorem Yields.running_step (hs : rt.Sound) (hn : Nested (rt.shared.fibers i).calls)
    (hy : rt.Yields i y) (hst : Machine.step a rt = some rt') (h : rt'.BeforeSwitch i) :
    ∃ w, rt'.workers w = .on .running i := by
  obtain ⟨seat, hseat, hd, -⟩ := hs.fiber i
  obtain ⟨seat', hmove, hseat'⟩ := step_simulated hseat (hs.claims i) hst
  have hrun : seat' = .on .running := by
    refine Moves.yield_running hn hd (fun hhead => ?_) hmove h
    obtain ⟨w, hw⟩ := hy.running hhead
    exact hseat.eq_on (hs.live_le i) hw
  subst hrun
  exact hseat'

theorem Yields.elsewhere (hs : rt.Sound) (hn : Nested (rt.shared.fibers i).calls)
    (hy : rt.Yields i y) (hok : YieldWoken i (rt, y) a) (hst : Machine.step a rt = some rt')
    (hother : rt.Elsewhere a i) : rt'.Yields i (noteYield i a rt y) := by
  have hrunning := fun h => hy.running_step hs hn hst h
  rw [noteYield_elsewhere hother]
  rcases step_fibers hst hother with hf | ⟨hstart, hf⟩
  · have hstore : rt'.BeforeStore i → rt.BeforeStore i := by
      unfold BeforeStore
      rw [hf]
      exact id
    have hswitch : rt'.BeforeSwitch i → rt.BeforeSwitch i := by
      unfold BeforeSwitch
      rw [hf]
      exact id
    -- what happens to the word while the fiber is there
    have hword (hbody : (rt.shared.fibers i).isBody) :
        rt.WordAct a i (rt.shared.ctx i).state (rt'.shared.ctx i).state :=
      hs.step_wordAct hst hother (Control.unfinished_of_isBody hbody)
    have hstanding (hbody : (rt.shared.fibers i).isBody)
        (h : Standing (rt.shared.ctx i).state y.landed)
        (hpark : ∀ w, a = .settle w → rt.workers w = .on .parkCas i →
          (rt.shared.ctx i).state ≠ .suspending) :
        Standing (rt'.shared.ctx i).state (y.landed || rt.event i a = some .wake) := by
      have hact := hword hbody
      generalize hw : (rt.shared.ctx i).state = word at hact h hpark
      generalize (rt'.shared.ctx i).state = word' at hact ⊢
      cases hact with
      | keep hne => simpa [hne] using h
      | wake _ => exact .inl rfl
      | park ha hworker => exact absurd rfl (hpark _ ha hworker)
    refine ⟨fun h => ?_, fun h => ?_, hrunning, fun h => ?_⟩
    · have hlanded := hy.store (hstore h)
      have hne : rt.event i a ≠ some .wake := by
        intro he
        obtain ⟨t, rfl⟩ := event_wake he
        exact hok he (hstore h)
      simp [hlanded, hne]
    · have hbefore := hswitch h
      refine hstanding (hs.isBody_of_yield hbefore.mem) (hy.switch hbefore) fun w _ hpark => ?_
      -- the worker has not got the fiber back yet
      obtain ⟨w', hw'⟩ := hy.running hbefore
      obtain rfl := worker_unique (hs.live_le i) hpark hw'
      cases hpark.symm.trans hw'
    · obtain ⟨hbody, hst⟩ := hy.out h
      refine ⟨by rw [hf]; exact hbody, hstanding hbody hst fun w ha hpark => ?_⟩
      subst ha
      exact hok hpark h
  · -- a new fiber, so the last one has left
    refine ⟨fun h => ?_, fun h => ?_, hrunning, fun h => ?_⟩
    · unfold BeforeStore at h
      rw [hf] at h
      cases h
    · unfold BeforeSwitch at h
      rw [hf] at h
      cases h
    · have hgone := hs.start_gone hstart
      rw [Control.not_gone (Control.unfinished_of_isBody (hy.out h).1)] at hgone
      cases hgone

omit [NeZero n] in
theorem Yields.epilogue_step (hs : rt.Sound) (hs' : rt'.Sound) {w : Fin n}
    (hw : rt.workers w = .on .running i) (hc : (rt.shared.fibers i).isBody = false)
    (hc' : (rt'.shared.fibers i).isBody = false) :
    rt'.Yields i (noteYield i (.run (.fiber w)) rt y) := by
  refine ⟨fun h => ?_, fun h => ?_, fun h => ?_, fun h => ?_⟩
  · cases hc'.symm.trans (hs'.isBody_of_yield h)
  · cases hc'.symm.trans (hs'.isBody_of_yield h.mem)
  · cases hc'.symm.trans (hs'.isBody_of_yield h.mem)
  · rw [noteYield_run hw, decide_eq_true_iff] at h
    cases hc.symm.trans (hs.isBody_of_yield (List.mem_of_head? h))

omit [NeZero n] in
theorem Yields.user_step (hn : Nested (rt.shared.fibers i).calls) (hy : rt.Yields i y) {w : Fin n}
    {u : UserAct} {calls : List Call} {c : Control} (hw : rt.workers w = .on .running i)
    (hc : rt.shared.fibers i = .body calls) (hu : inUser calls) (huser : u.onFiber calls = some c) :
    Yields { rt with shared := rt.shared.setFiber i c } i
      (noteYield i (.user (.fiber w) u) rt y) := by
  have hcalls : (rt.shared.setFiber i c).fibers i = c := Shared.setFiber_self _ _ _
  obtain ⟨hout, hlanded⟩ := noteYield_user (y := y) hw u
  have hswitch : ¬ BeforeSwitch { rt with shared := rt.shared.setFiber i c } i := by
    rw [hc] at hn
    unfold BeforeSwitch
    rw [hcalls]
    exact UserAct.onFiber_switch hn hu huser
  refine ⟨fun h => ?_, fun h => absurd h hswitch, fun h => absurd h hswitch, fun h => ?_⟩
  · rcases hlanded with ⟨-, hlanded⟩ | ⟨hne, hlanded⟩
    · exact hlanded
    · rw [hlanded]
      refine hy.store ?_
      unfold BeforeStore at h ⊢
      rw [hcalls] at h
      rw [hc]
      exact UserAct.onFiber_store hne huser h
  · cases hout.symm.trans h

theorem Yields.body_step (hs : rt.Sound) (hn : Nested (rt.shared.fibers i).calls)
    (hy : rt.Yields i y) {w : Fin n} {c : Call} {rest : List Call} {next : Next n}
    (hok : YieldWoken i (rt, y) (.run (.fiber w)))
    (hst : Machine.step (.run (.fiber w)) rt = some (rt.proceed w i (.body (next.calls rest)) next))
    (hw : rt.workers w = .on .running i) (hc : rt.shared.fibers i = .body (c :: rest))
    (hr : c.run ⟨some i, .worker w⟩ rt.shared = some next) :
    (rt.proceed w i (.body (next.calls rest)) next).Yields i
      (noteYield i (.run (.fiber w)) rt y) := by
  have hfiber : (rt.proceed w i (.body (next.calls rest)) next).shared.fibers i =
      .body (next.calls rest) := Shared.setFiber_self _ _ _
  have hword : ((rt.proceed w i (.body (next.calls rest)) next).shared.ctx i).state =
      (next.shared.ctx i).state := rfl
  have hrunning := fun h => hy.running_step hs hn hst h
  have hstore : .yieldTo .store ∈ c :: rest → rt.BeforeStore i := by
    unfold BeforeStore
    rw [hc]
    exact id
  rw [hc] at hn
  rw [noteYield_run hw, hc]
  refine ⟨fun h => ?_, fun h => ?_, hrunning, fun h => ?_⟩
  · -- the store is still to come, so it is under this call
    unfold BeforeStore at h
    rw [hfiber] at h
    have hbefore : rt.BeforeStore i := by
      rcases Next.mem_calls h with hmem | hmem
      · refine hstore (List.mem_cons.mpr (.inl ?_))
        by_contra hne
        exact Call.run_yield (Ne.symm hne) hr .store hmem
      · exact hstore (.tail _ hmem)
    have hevent : rt.event i (.run (.fiber w)) ≠ some .wake := fun he => hok he hbefore
    simp [hy.store hbefore, hevent]
  · -- the call is the store of `yield_to`
    have hmem := h.mem
    rw [hfiber] at hmem
    have hcall : c = .yieldTo .store := by
      by_contra hne
      rcases Next.mem_calls hmem with hmem | hmem
      · exact Call.run_yield hne hr .switch hmem
      · exact hn.switch_not_mem hmem
    subst hcall
    have hlanded := hy.store (hstore List.mem_cons_self)
    have hevent : rt.event i (.run (.fiber w)) ≠ some .wake :=
      fun he => hok he (hstore List.mem_cons_self)
    cases hr
    rw [hword]
    refine .inr ⟨Shared.setState_self _ _ _, ?_⟩
    simp [hlanded, hevent]
  · -- the call is the switch of `yield_to`
    obtain rfl : c = .yieldTo .switch := by simpa [Control.calls] using h
    have hbefore : rt.BeforeSwitch i := by
      unfold BeforeSwitch
      rw [hc]
      rfl
    have hevent : rt.event i (.run (.fiber w)) ≠ some .wake := by
      simp [event, nextCall, hw, hc, Control.calls, runs, Call.wakeEvent, Control.ownEvent,
        Call.ownEvent]
    cases hr
    rw [hfiber, hword]
    refine ⟨rfl, ?_⟩
    have hsame : (y.landed || decide (rt.event i (.run (.fiber w)) = some .wake)) = y.landed := by
      simp [hevent]
    rw [hsame]
    exact hy.switch hbefore

theorem Yields.step (hs : rt.Sound) (hn : Nested (rt.shared.fibers i).calls) (hy : rt.Yields i y)
    (hok : YieldWoken i (rt, y) a) (hst : Machine.step a rt = some rt') :
    rt'.Yields i (noteYield i a rt y) := by
  by_cases hother : rt.Elsewhere a i
  · exact hy.elsewhere hs hn hok hst hother
  · cases step_own hst hother with
    | user hw hc hu huser => exact hy.user_step hn hw hc hu huser
    | body hw hc hr => exact hy.body_step hs hn hok hst hw hc hr
    | late hw hc _ _ =>
      exact Yields.epilogue_step hs (hs.step hst) hw (by rw [hc]; rfl)
        (by simp [proceed, setWorker, Control.isBody])
    | @epilogue w pc hw hc =>
      refine Yields.epilogue_step hs (hs.step hst) hw (by rw [hc]; rfl) ?_
      cases pc with
      | returned =>
        show (rt.shared.fibers i).isBody = false
        rw [hc]
        rfl
      | _ => simp [Machine.epilogue, setWorker, Control.isBody]
    | abort hw hc _ _ =>
      exact Yields.epilogue_step hs (hs.step hst) hw (by rw [hc]; rfl)
        (by simp [hc, Control.isBody])

/-! ## Runs -/

/-- **`yield_to`.** For every fiber and every interleaving of its calls of `yield_to` with wakes,
with the worker and with everything else, in which no wake lands before the store of `Suspending`
and one has landed whenever the worker is about to park a fiber that switched out of `yield_to`:
the fiber is never parked in `yield_to`, and a wake that has landed since the call stays in the
state word, until the fiber goes on. -/
theorem yield_to_kept {tr : List (Act n hosts)}
    (h : Run (initHist Initial ⟨false, false⟩) (withHist step (noteYield i)) (YieldWoken i) tr
      (rt, y)) :
    (y.out = true → (rt.shared.ctx i).state ≠ .yielded) ∧
      (y.landed = true → y.out = true ∨ rt.BeforeStore i ∨ rt.BeforeSwitch i →
        (rt.shared.ctx i).state = .notified) := by
  have hinv : rt.Sound ∧ Nested (rt.shared.fibers i).calls ∧ rt.Yields i y := by
    refine h.hist_invariant
      (I := fun rt y => rt.Sound ∧ Nested (rt.shared.fibers i).calls ∧ rt.Yields i y) ?_ ?_
    · rintro rt ⟨topology, rfl⟩
      exact ⟨sound_new topology, Nested.nil, nofun, nofun, nofun, nofun⟩
    · rintro rt y a rt' ⟨hs, hn, hy⟩ hok hstep
      exact ⟨hs.step hstep, hs.nested_step hstep hn, hy.step hs hn hok hstep⟩
  obtain ⟨-, -, hy⟩ := hinv
  have hnotified (hlanded : y.landed = true) (hst : Standing (rt.shared.ctx i).state y.landed) :
      (rt.shared.ctx i).state = .notified :=
    hst.resolve_right fun h => Bool.false_ne_true (h.2.symm.trans hlanded)
  refine ⟨fun hout hyielded => ?_, fun hlanded hin => ?_⟩
  · obtain ⟨-, hst | ⟨hst, -⟩⟩ := hy.out hout <;> cases hst.symm.trans hyielded
  · rcases hin with hout | hstore | hswitch
    · exact hnotified hlanded (hy.out hout).2
    · cases (hy.store hstore).symm.trans hlanded
    · exact hnotified hlanded (hy.switch hswitch)

/-- A host spawns a fiber, which yields to a fiber that does not exist. A wake lands after the
store, so that the worker queues the fiber again. -/
def yieldAndWake : List (Act 1 1) :=
  [.user (.host 0) (.spawn .withStack 0), .run (.host 0), .run (.host 0), .run (.host 0), .poll 0,
    .dispatch 0, .user (.fiber 0) (.yieldTo 1 0), .run (.fiber 0), .run (.fiber 0),
    .user (.host 0) (.wake 0 none), .run (.host 0), .run (.fiber 0), .settle 0, .settle 0]

theorem yield_to_kept_woken : ∃ rt : Machine 1 2 1,
    Run (initHist Initial ⟨false, false⟩) (withHist step (noteYield 0)) (YieldWoken 0)
      yieldAndWake.reverse (rt, ⟨true, true⟩) ∧
    (rt.shared.ctx (0 : Fin 2)).state ≠ .yielded ∧
    (rt.shared.ctx (0 : Fin 2)).state = .notified := by
  obtain ⟨⟨rt, y⟩, hrun, rfl⟩ : ∃ p, Run (initHist Initial ⟨false, false⟩)
      (withHist step (noteYield 0)) (YieldWoken 0) yieldAndWake.reverse p ∧ p.2 = ⟨true, true⟩ :=
    Run.exists_of_guarded yieldAndWake (new 1 2 1 .p2pMesh, ⟨false, false⟩) ⟨⟨.p2pMesh, rfl⟩, rfl⟩
      (by decide +kernel)
  obtain ⟨hparked, hnotified⟩ := yield_to_kept hrun
  exact ⟨rt, hrun, hparked rfl, hnotified rfl (.inl rfl)⟩

/-- A fiber yields to itself: it wakes itself, covers the wake with `Suspending` and switches. -/
def yieldToSelf : List (Act 1 1) :=
  [.user (.host 0) (.spawn .withStack 0), .run (.host 0), .run (.host 0), .run (.host 0), .poll 0,
    .dispatch 0, .user (.fiber 0) (.yieldTo 0 0), .run (.fiber 0), .run (.fiber 0),
    .run (.fiber 0), .settle 0, .settle 0]

/-- A wake has landed since the call of `yield_to`, and yet the fiber is parked in it. No queue
holds it, and no other thread is in a call. -/
theorem yield_to_parks_for_good : ∃ rt : Machine 1 1 1,
    Run (initHist Initial ⟨false, false⟩) (withHist step (noteYield 0)) Free yieldToSelf.reverse
      (rt, ⟨true, true⟩) ∧
    (rt.shared.ctx 0).state = .yielded ∧ 0 ∉ rt.shared.sched.held ∧ rt.workers 0 = .idle ∧
    rt.hosts 0 = [] := by
  obtain ⟨⟨rt, y⟩, hrun, rfl, hstate, hworker, hhost⟩ : ∃ p, Run (initHist Initial ⟨false, false⟩)
      (withHist step (noteYield 0)) Free yieldToSelf.reverse p ∧ p.2 = ⟨true, true⟩ ∧
      (p.1.shared.ctx 0).state = .yielded ∧ p.1.workers 0 = .idle ∧ p.1.hosts 0 = [] :=
    Run.exists_of_exec yieldToSelf (new 1 1 1 .p2pMesh, ⟨false, false⟩) ⟨⟨.p2pMesh, rfl⟩, rfl⟩
      (by decide +kernel)
  refine ⟨rt, hrun, hstate, ?_, hworker, hhost⟩
  -- the parked fiber has the only claim to its context
  have hbase : Run Initial step Free yieldToSelf.reverse rt :=
    Run.withHist_fst (p := (rt, YieldNote.mk true true)) hrun
  have hle := claims_le_one hbase 0
  have hparked : parked (rt.shared.ctx 0) = 1 := if_pos hstate
  simp only [live] at hle
  rw [← Multiset.count_eq_zero]
  omega

end Machine

end Dtact.Runtime
