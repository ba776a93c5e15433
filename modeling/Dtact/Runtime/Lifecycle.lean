import Dtact.Runtime.Wakeup

/-!
# The occupants of a context

The mode, affinity and generation of a context are written when a fiber is started in it and when
`free_context` counts the generation up. Between the two the context belongs to one fiber.

Results:
1. `Machine.step_context`: all one step can do to a context.
2. `Lives`, `Sound.idle`: the state word of a fiber that has not stored `Finished` says that it is
   alive, and a context that is freed or about to be started belongs to a fiber that has left.
3. `Sound.occupancy`, `Sound.step_word`: how the occupants of a context come and go.
-/

namespace Dtact.Runtime

open Scheduler Transition

/-! ## Contexts -/

/-- The occupant of the context stays. -/
structure SameOccupant (c c' : FiberContext) : Prop where
  mode : c'.mode = c.mode
  affinity : c'.affinity = c.affinity
  generation : c'.generation = c.generation

/-- The occupant of the context and its waiter stay. -/
structure Keeps (c c' : FiberContext) : Prop extends SameOccupant c c' where
  waiterHandle : c'.waiterHandle = c.waiterHandle

/-- The call writes the waiter of `j`. -/
def Call.registers (j : Nat) : Call → Bool
  | .await target _ .register => target = j
  | .await target _ .unregister => target = j
  | _ => false

/-- What the step of a call leaves in the context `j`. -/
inductive Call.Leaves {n : Nat} (who : Who n) (sh : Shared n) (j : Nat) : Call → FiberContext → Prop
  | keep {c : Call} {x : FiberContext} : j ∉ c.spawns → Keeps (sh.ctx j) x → Leaves who sh j c x
  | handle {c : Call} {x : FiberContext} : c.registers j → SameOccupant (sh.ctx j) x →
      Leaves who sh j c x
  | start {l : Launch} {core : Nat} :
      Leaves who sh j (.spawn l core (.init j))
        (l.init sh.sched.topology (l.core who.current core) (sh.ctx j))

theorem Keeps.refl (c : FiberContext) : Keeps c c := ⟨⟨rfl, rfl, rfl⟩, rfl⟩

section

variable {n : Nat} {who : Who n} {sh : Shared n} {c : Call} {next : Next n}

theorem Shared.setCtx_keeps {i : Nat} {x : FiberContext} (h : Keeps (sh.ctx i) x) (j : Nat) :
    Keeps (sh.ctx j) ((sh.setCtx i x).ctx j) := by
  rcases eq_or_ne j i with rfl | hj
  · rwa [sh.setCtx_self]
  · rw [sh.setCtx_ne hj]
    exact .refl _

theorem Shared.setState_keeps (i j : Nat) (state : FiberStatus) :
    Keeps (sh.ctx j) ((sh.setState i state).ctx j) :=
  sh.setCtx_keeps (by exact ⟨⟨rfl, rfl, rfl⟩, rfl⟩) j

theorem Shared.setSpin_keeps (i j cs fc : Nat) :
    Keeps (sh.ctx j) ((sh.setSpin i cs fc).ctx j) :=
  sh.setCtx_keeps (by exact ⟨⟨rfl, rfl, rfl⟩, rfl⟩) j

theorem Shared.setWaiter_leaves {target handle : Nat} (hc : c.registers target)
    (hspawns : c.spawns = []) (j : Nat) :
    c.Leaves who sh j ((sh.setCtx target { sh.ctx target with waiterHandle := handle }).ctx j) := by
  rcases eq_or_ne j target with rfl | hj
  · rw [sh.setCtx_self]
    exact .handle hc ⟨rfl, rfl, rfl⟩
  · rw [sh.setCtx_ne hj]
    exact .keep (by simp [hspawns]) (.refl _)

theorem Call.run_leaves [NeZero n] (h : c.run who sh = some next) (j : Nat) :
    c.Leaves who sh j (next.shared.ctx j) := by
  have hnone (hc : c.spawns = []) : j ∉ c.spawns := by simp [hc]
  cases Call.run_runs h with
  | quiet hg => exact .keep (hnone hg.spawns.1) (.refl _)
  | spin hg _ => exact .keep (hnone hg.spawns.1) (sh.setSpin_keeps _ _ _ _)
  | switch hs => cases hs <;> exact .keep List.not_mem_nil (.refl _)
  | store hs => cases hs <;> exact .keep List.not_mem_nil (sh.setState_keeps _ _ _)
  | register _ => exact sh.setWaiter_leaves (by simp [registers]) rfl j
  | unregister _ _ => exact sh.setWaiter_leaves (by simp [registers]) rfl j
  | wake => exact .keep List.not_mem_nil (sh.setState_keeps _ _ _)
  | enqueue | overflow | exhausted => exact .keep List.not_mem_nil (.refl _)
  | alloc hsh hspawns =>
    rcases hsh with rfl | ⟨_, _, _, rfl⟩
    · exact .keep (hnone hspawns) (.refl _)
    · exact .keep (hnone hspawns) (sh.setSpin_keeps _ _ _ _)
  | @start l core i =>
    show Call.Leaves who sh j _ ((sh.setCtx i _).ctx j)
    rcases eq_or_ne j i with rfl | hj
    · rw [sh.setCtx_self]
      exact .start
    · rw [sh.setCtx_ne hj]
      exact .keep (by simpa [Call.spawns] using hj) (.refl _)

end

namespace Machine

variable {n cap hosts : Nat} {rt rt' : Machine n cap hosts} {a : Act n hosts}

/-- `CURRENT_WORKER_ID` of a thread. -/
def current : Thread n hosts → Caller n
  | .host _ => .host
  | .fiber w => .worker w

/-- All one step can do to the context `j`. -/
inductive Context (rt : Machine n cap hosts) (j : Nat) : Act n hosts → FiberContext → Prop
  | keep {a : Act n hosts} {x : FiberContext} : ¬ rt.Starts a j → Keeps (rt.shared.ctx j) x →
      Context rt j a x
  | handle {t : Thread n hosts} {c : Call} {x : FiberContext} : rt.nextCall t = some c →
      c.registers j → SameOccupant (rt.shared.ctx j) x → Context rt j (.run t) x
  | start {t : Thread n hosts} {l : Launch} {core : Nat} :
      rt.nextCall t = some (.spawn l core (.init j)) →
      Context rt j (.run t)
        (l.init rt.shared.sched.topology (l.core (current t) core) (rt.shared.ctx j))
  | waiter {w : Fin n} {i : Fin cap} : rt.workers w = .on .running i → i = j →
      rt.shared.fibers i = .epilogue .waiter [] →
      Context rt j (.run (.fiber w)) { rt.shared.ctx j with waiterHandle := 0 }
  | freeGen {w : Fin n} {i : Fin cap} : rt.workers w = .on .freeGen i → i = j →
      Context rt j (.settle w)
        { rt.shared.ctx j with generation := ((rt.shared.ctx j).generation + 1) % u32Mod }

theorem Starts.mem_spawns {t : Thread n hosts} {c : Call} {j : Nat} (h : rt.Starts (.run t) j)
    (hc : rt.nextCall t = some c) : j ∈ c.spawns := by
  obtain ⟨t', c', ht, hc', hj⟩ := h
  cases ht
  rw [hc] at hc'
  cases hc'
  exact hj

theorem Context.of_leaves {t : Thread n hosts} {who : Who n} {c : Call} {j : Nat} {x : FiberContext}
    (hwho : who.current = current t) (hc : rt.nextCall t = some c)
    (h : c.Leaves who rt.shared j x) : rt.Context j (.run t) x := by
  cases h with
  | keep hj hk => exact .keep (fun hs => hj (hs.mem_spawns hc)) hk
  | handle hr hs => exact .handle hc hr hs
  | start =>
    rw [hwho]
    exact .start hc

theorem settle_context {w : Fin n} {i : Fin cap} {stage : Stage} {shared : Shared n}
    {pc : WorkerPc cap} (hw : rt.workers w = .on stage i)
    (h : Settles rt.shared w i stage shared pc) (j : Nat) :
    rt.Context j (.settle w) (shared.ctx j) := by
  have hns : ¬ rt.Starts (.settle w) j := by
    rintro ⟨_, _, ⟨⟩, _⟩
  cases h with
  | after | inspect | requeue | freePush => exact .keep hns (.refl _)
  | park | freeState => exact .keep hns (rt.shared.setState_keeps _ _ _)
  | freeGen =>
    rcases eq_or_ne j i.val with rfl | hj
    · rw [rt.shared.setCtx_self]
      exact .freeGen hw rfl
    · rw [rt.shared.setCtx_ne hj]
      exact .keep hns (.refl _)

theorem epilogue_context {w : Fin n} {i : Fin cap} {pc : EpiloguePc}
    (hw : rt.workers w = .on .running i) (hc : rt.shared.fibers i = .epilogue pc []) (j : Nat) :
    rt.Context j (.run (.fiber w)) ((rt.epilogue w i pc).shared.ctx j) := by
  have hns : ¬ rt.Starts (.run (.fiber w)) j := by
    rintro ⟨_, _, ⟨⟩, hcall, _⟩
    simp [nextCall, hw, hc, Control.calls] at hcall
  cases pc with
  | finish => exact .keep hns (rt.shared.setState_keeps _ _ _)
  | waiter =>
    show rt.Context j _ ((rt.shared.setCtx i _).ctx j)
    rcases eq_or_ne j i.val with rfl | hj
    · rw [rt.shared.setCtx_self]
      exact .waiter hw rfl hc
    · rw [rt.shared.setCtx_ne hj]
      exact .keep hns (.refl _)
  | switch | returned => exact .keep hns (.refl _)

variable [NeZero n]

theorem step_context (h : step a rt = some rt') (j : Nat) : rt.Context j a (rt'.shared.ctx j) := by
  cases step_takes h with
  | hostRun hc hr => exact .of_leaves rfl (by simp [nextCall, hc]) (Call.run_leaves hr j)
  | body hw hc hr | late hw hc hr _ =>
    exact .of_leaves rfl (by simp [nextCall, hw, hc, Control.calls]) (Call.run_leaves hr j)
  | epilogue hw hc => exact epilogue_context hw hc j
  | settle hw hs => exact settle_context hw hs j
  | @abort w i pc c rest next hw hc hr hp =>
    refine .keep (fun hs => ?_) (.refl _)
    -- a start does not panic
    obtain ⟨l, core, rfl⟩ := Call.mem_spawns (hs.mem_spawns (c := c)
      (by simp [nextCall, hw, hc, Control.calls]))
    cases hr
    cases hp
  | receive ha =>
    exact .keep (by rcases ha with rfl | rfl <;> rintro ⟨_, _, ⟨⟩, _⟩) (.refl _)
  | _ => exact .keep (by rintro ⟨_, _, ⟨⟩, _⟩) (.refl _)

end Machine

/-! ## The end of a fiber -/

/-- The fiber has not stored `Finished`. -/
def Control.unfinished : Control → Bool
  | .body _ => true
  | .epilogue .finish _ => true
  | _ => false

/-- There is no fiber, or it has switched away for the last time. -/
def Control.gone : Control → Bool
  | .none => true
  | .epilogue .returned _ => true
  | _ => false

/-- The state word of a fiber that goes on. -/
def Alive (state : FiberStatus) : Prop := Active state ∨ state = .yielded

/-- The call has stored `Notified` in `backpressure_yield` and is about to switch. -/
def Call.stalled : Call → Bool
  | .wakeFiber _ _ _ _ .switch => true
  | .spawn _ _ .switch => true
  | _ => false

/-- What the state word and the seat say about the end of a fiber. -/
structure Lives (v : View) : Prop where
  alive : v.control.unfinished → Alive v.word
  /-- Only a running fiber goes on after it has stored `Finished`. -/
  leaving : v.control.gone = false → Alive v.word ∨ v.seat = .on .running
  stalled : v.control.gone = false → ∀ c ∈ v.control.calls, c.stalled → Alive v.word
  freeing : ∀ stage, v.seat = .on stage →
    stage = .freeState ∨ stage = .freeGen ∨ stage = .freePush → v.control.gone

theorem Control.not_gone {c : Control} (h : c.unfinished) : c.gone = false := by
  cases c with
  | epilogue pc calls => cases pc <;> first | rfl | cases h
  | _ => first | rfl | cases h

section

variable {n i : Nat} {who : Who n} {sh : Shared n} {c : Call} {next : Next n}

variable [NeZero n]

/-- A brief call switches only when it is stalled, and it is stalled only after it
has stored `Notified`. -/
theorem Call.run_stalled (hc : c.brief) (hself : who.fiber = some i)
    (hr : c.run who sh = some next) :
    (next.stage = .inspect → c.stalled) ∧
      ∀ c' ∈ next.own, c'.stalled → (next.shared.ctx i).state = .notified := by
  have hmoves {own : List Call} (hg : c.Goes own) : ∀ c' ∈ own, ¬ c'.stalled := by
    intro c' hc' hst
    have hswitches := hg.switches.2 c' hc'
    unfold stalled at hst
    split at hst <;> first | cases hswitches | cases hst
  cases Call.run_runs hr with
  | quiet hg | spin hg _ =>
    exact ⟨by rintro ⟨⟩, fun c' hc' hst => absurd hst (hmoves hg c' hc')⟩
  | switch hs =>
    cases hs with
    | wakeFiber | spawn => exact ⟨fun _ => rfl, by simp [Next.own, Call.stalled]⟩
    | _ => cases hc
  | store hs hself' =>
    obtain rfl := Option.some.inj (hself.symm.trans hself')
    cases hs with
    | wakeFiber | spawn => exact ⟨by rintro ⟨⟩, fun _ _ _ => sh.setState_self i _⟩
    | _ => cases hc
  | register | unregister => cases hc
  | wake => exact ⟨by rintro ⟨⟩, by simp [Next.own, Shared.wakeFiber, Call.stalled]⟩
  | enqueue | overflow | exhausted => exact ⟨by rintro ⟨⟩, by simp [Next.own]⟩
  | alloc => exact ⟨by rintro ⟨⟩, by simp [Next.own, Call.stalled]⟩
  | start => exact ⟨by rintro ⟨⟩, by simp [Next.own, Shared.wakeFiber, Call.stalled]⟩

end

namespace Lives

variable {n i : Nat} [NeZero n] {v v' : View} {e : Option Event}

theorem late_step {word : FiberStatus} {pc : EpiloguePc} {c : Call} {rest : List Call} {who : Who n}
    {sh : Shared n} {next : Next n} (h : Lives ⟨word, .epilogue pc (c :: rest), .on .running⟩)
    (hc : c.brief) (hself : who.fiber = some i) (hw : word = (sh.ctx i).state)
    (hspawn : i ∉ c.spawns) (hr : c.run who sh = some next) :
    Lives ⟨(next.shared.ctx i).state, .epilogue pc (next.calls rest), .on next.stage⟩ := by
  have hstate := (Call.run_does hr).own_state hspawn
  rw [← hw] at hstate
  obtain ⟨hstage, hown⟩ := Call.run_stalled hc hself hr
  have halive (ha : Alive word) : Alive (next.shared.ctx i).state := by
    rcases hstate with he | he
    · rwa [he]
    · exact .inl he
  -- the stack above does not matter
  have hgone {calls : List Call} (hg : (Control.epilogue pc calls).gone = false) :
      (Control.epilogue pc (c :: rest)).gone = false := by
    cases pc <;> first | rfl | cases hg
  refine ⟨fun hu => halive (h.alive ?_), fun hg => ?_, fun hg c' hc' hst => ?_, ?_⟩
  · cases pc <;> first | rfl | cases hu
  · cases hs : next.stage with
    | running => exact .inr rfl
    | inspect =>
      exact .inl (halive (h.stalled (hgone hg) c (by simp [Control.calls]) (hstage hs)))
    | _ => cases next <;> cases hs
  · rcases Next.mem_calls hc' with hc' | hc'
    · exact .inl (.inr (.inl (hown c' hc' hst)))
    · exact halive (h.stalled (hgone hg) c' (by simp [Control.calls, hc']) hst)
  · intro stage hs hf
    cases next <;> cases hs <;> simp [Next.stage] at hf

theorem step (hd : Discipline v) (h : Lives v) (hm : Moves n i v e v') : Lives v' := by
  have hnot : Alive .notified := .inl (.inr (.inl rfl))
  have hrun : Alive .running := .inl (.inl rfl)
  cases hm with
  | other => exact h
  | wake => exact ⟨fun _ => hnot, fun _ => .inl hnot, fun _ _ _ _ => hnot, h.freeing⟩
  | start _ => exact ⟨fun _ => hrun, fun _ => .inl hrun, fun _ _ _ _ => hrun, by rintro _ ⟨⟩⟩
  | dispatch _ => exact ⟨h.alive, fun _ => .inr rfl, h.stalled, by rintro _ ⟨⟩; simp⟩
  | user _ hcall =>
    have halive := h.alive rfl
    exact ⟨fun _ => halive, fun _ => .inl halive, fun _ _ _ _ => halive, by rintro _ ⟨⟩; simp⟩
  | @body _ c rest who sh next hself hw hspawn hr =>
    have halive : Alive (next.shared.ctx i).state := by
      rcases (Call.run_does hr).own_state hspawn with he | he
      · rw [he, ← hw]
        exact h.alive rfl
      · exact .inl he
    refine ⟨fun _ => halive, fun _ => .inl halive, fun _ _ _ _ => halive, fun stage hs hf => ?_⟩
    cases next <;> cases hs <;> simp [Next.stage] at hf
  | late hself hw hspawn hr _ =>
    exact h.late_step (hd.late _ _ rfl _ (by simp)) hself hw hspawn hr
  | finish => exact ⟨by rintro ⟨⟩, fun _ => .inr rfl, by simp [Control.calls], by rintro _ ⟨⟩; simp⟩
  | waiter packed =>
    refine ⟨by rintro ⟨⟩, fun _ => .inr rfl, fun _ c hc => ?_, by rintro _ ⟨⟩; simp⟩
    simp only [Control.calls, Machine.waiterCalls] at hc
    split at hc
    · simp at hc
    · rw [List.mem_singleton.mp hc]
      rintro ⟨⟩
  | leave => exact ⟨by rintro ⟨⟩, by rintro ⟨⟩, by rintro ⟨⟩, fun _ _ _ => rfl⟩
  | inspect =>
    exact ⟨h.alive, fun hg => (h.leaving hg).imp_right (by rintro ⟨⟩), h.stalled,
      by rintro _ ⟨⟩; simp⟩
  | @after word control stage hs _ =>
    have hleft (hg : control.gone = false) : Alive word := by
      rcases h.leaving hg with ha | hr
      · exact ha
      · rcases hs with rfl | rfl <;> cases hr
    refine ⟨h.alive, fun hg => .inl (hleft hg), h.stalled, fun stage' hs' hf => ?_⟩
    -- only `Finished` and `Panicked` lead to `free_context`
    by_contra hg
    have ha := hleft (by simpa using hg)
    simp only [Seat.after] at hs'
    split at hs'
    · next hdone =>
      rcases hdone with rfl | rfl <;> rcases ha with (ha | ha | ha) | ha <;> cases ha
    · split at hs' <;> cases hs'
      simp at hf
  | park =>
    have hy : Alive .yielded := .inr rfl
    exact ⟨fun _ => hy, fun _ => .inl hy, fun _ _ _ _ => hy, by rintro _ ⟨⟩⟩
  | requeue =>
    exact ⟨h.alive, fun hg => (h.leaving hg).imp_right (by rintro ⟨⟩), h.stalled, by rintro _ ⟨⟩⟩
  | @freeState _ control =>
    have hg : control.gone := h.freeing _ rfl (.inl rfl)
    refine ⟨fun hu => ?_, fun hg' => ?_, fun hg' => ?_, fun _ _ _ => hg⟩
    · cases hg.symm.trans (Control.not_gone hu)
    · cases hg.symm.trans hg'
    · cases hg.symm.trans hg'
  | @freeGen _ control =>
    have hg : control.gone := h.freeing _ rfl (.inr (.inl rfl))
    exact ⟨h.alive, fun hg' => (by cases hg.symm.trans hg'), h.stalled, fun _ _ _ => hg⟩
  | @freePush _ control =>
    have hg : control.gone := h.freeing _ rfl (.inr (.inr rfl))
    exact ⟨h.alive, fun hg' => (by cases hg.symm.trans hg'), h.stalled, by rintro _ ⟨⟩⟩

end Lives

/-! ## Idle contexts -/

section

variable {n : Nat} [NeZero n] {who : Who n} {sh : Shared n} {c : Call} {next : Next n}

/-- A step of a call makes no context idle, and a start ends it. -/
theorem Call.run_idle (h : c.run who sh = some next) (i : Nat) :
    next.shared.free.count i + owned Call.spawns i next.own ≤ sh.free.count i + c.spawns.count i ∧
      (i ∈ c.spawns → next.shared.free.count i + owned Call.spawns i next.own <
        sh.free.count i + c.spawns.count i) := by
  by_cases hi : i ∈ c.spawns
  · obtain ⟨l, core, rfl⟩ := Call.mem_spawns hi
    cases h
    have hfree : (l.start (l.core who.current core) i sh).free = sh.free := rfl
    simp [Next.shared, Next.own, Shared.wakeFiber, Call.spawns, hfree]
  · refine ⟨?_, fun h => absurd h hi⟩
    cases Call.run_does h with
    | still hs _ hp => rw [hs.free, owned, hp]
    | panic => simp [Next.shared, Next.own]
    | wake _ hp => simp [Next.shared, Next.own, owned, hp, Shared.setState, Shared.setCtx]
    | enqueue _ => simp [Next.shared, Next.own]
    | @alloc l core j pc sh₁ free hs hfree =>
      simp only [Next.shared, Next.own, owned_cons, owned_nil, Call.spawns, hfree, List.count_cons,
        List.count_nil]
      omega
    | @start l core core' j =>
      have hfree : (l.start core' j sh).free = sh.free := rfl
      simp [Next.shared, Next.own, Shared.wakeFiber, Call.spawns, hfree]

end

namespace Machine

variable {n cap hosts : Nat} {rt rt' : Machine n cap hosts} {a : Act n hosts}

variable {i j : Fin cap}

theorem epilogue_idle {w : Fin n} {pc : EpiloguePc} (j : Nat) :
    (rt.epilogue w i pc).idle j ≤ rt.idle j := by
  have hset (c : Control) (hc : owned Call.spawns j c.calls = 0) :
      fibersOwn cap Call.spawns (Function.update rt.shared.fibers i c) j ≤
        fibersOwn cap Call.spawns rt.shared.fibers j := by
    have := fibersOwn_set Call.spawns j rt.shared.fibers i c
    omega
  cases pc with
  | finish =>
    have := hset (.epilogue .waiter []) rfl
    simp only [idle, Machine.epilogue, Shared.setFiber, Shared.setState, Shared.setCtx]
    omega
  | waiter =>
    have := hset (.epilogue .switch (waiterCalls (rt.shared.ctx i).waiterHandle)) (by
      simp only [waiterCalls, Control.calls]
      split <;> simp [Call.spawns])
    simp only [idle, Machine.epilogue, Shared.setFiber, Shared.setCtx]
    omega
  | switch =>
    have := hset (.epilogue .returned []) rfl
    simp only [idle, Machine.epilogue, setWorker, Shared.setFiber]
    omega
  | returned => exact le_rfl

section

variable [NeZero n]

theorem proceed_idle {who : Who n} {w : Fin n} {i : Fin cap} {c : Call} {rest : List Call}
    {control : Control} {next : Next n} (hw : rt.workers w = .on .running i)
    (hc : (rt.shared.fibers i).calls = c :: rest) (hr : c.run who rt.shared = some next)
    (hcalls : control.calls = next.calls rest) (j : Nat) :
    (rt.proceed w i control next).idle j ≤ rt.idle j ∧
      (rt.Starts (.run (.fiber w)) j → (rt.proceed w i control next).idle j < rt.idle j) := by
  have hupdate := fibersOwn_update Call.spawns j
    ((Call.run_does hr).fibers_owned_le Call.spawns j) i control
  have hle' := owned_calls_le (f := Call.spawns) (i := j) next rest
  obtain ⟨hle, hlt⟩ := Call.run_idle hr j
  rw [hc, hcalls, owned_cons] at hupdate
  refine ⟨?_, fun hs => ?_⟩
  · simp only [idle, proceed, setWorker, Shared.setFiber]
    omega
  · have := hlt (hs.mem_spawns (by simp [nextCall, hw, hc]))
    simp only [idle, proceed, setWorker, Shared.setFiber]
    omega

/-- Only the end of `free_context` makes a context idle, and a start ends it. -/
theorem step_idle (h : step a rt = some rt') (j : Nat) :
    (∃ w i, a = .settle w ∧ rt.workers w = .on .freePush i ∧ i.val = j) ∨
      rt'.idle j ≤ rt.idle j ∧ (rt.Starts a j → rt'.idle j < rt.idle j) := by
  -- the cases without a call
  have hquiet (hle : rt'.idle j ≤ rt.idle j) (hns : ¬ rt.Starts a j) :
      rt'.idle j ≤ rt.idle j ∧ (rt.Starts a j → rt'.idle j < rt.idle j) :=
    ⟨hle, fun hs => absurd hs hns⟩
  cases step_takes h with
  | @hostUser k u calls hu =>
    refine .inr (hquiet ?_ (by rintro ⟨_, _, ⟨⟩, _⟩))
    obtain ⟨_, hs⟩ := UserAct.call_owned (i := j) hu
    have := hostsOwn_update Call.spawns rt.hosts k calls j
    simp only [idle, setHost]
    omega
  | @fiberUser w i u calls c _ hc _ hu =>
    refine .inr (hquiet ?_ (by rintro ⟨_, _, ⟨⟩, _⟩))
    obtain ⟨_, hs⟩ := UserAct.onFiber_owned (i := j) hu
    have := fibersOwn_set Call.spawns j rt.shared.fibers i c
    rw [hc, Control.calls] at this
    simp only [idle, Shared.setFiber]
    omega
  | @hostRun k c rest next hc hr =>
    have hupdate := hostsOwn_update Call.spawns rt.hosts k (next.calls rest) j
    have hfibers :=
      fibersOwn_le cap Call.spawns j ((Call.run_does hr).fibers_owned_le Call.spawns j)
    have hcalls := owned_calls_le (f := Call.spawns) (i := j) next rest
    obtain ⟨hle, hlt⟩ := Call.run_idle hr j
    rw [hc, owned_cons] at hupdate
    refine .inr ⟨?_, fun hs => ?_⟩
    · simp only [idle, setHost]
      omega
    · have := hlt (hs.mem_spawns (by simp [nextCall, hc]))
      simp only [idle, setHost]
      omega
  | body hw hc hr | late hw hc hr _ => exact .inr (proceed_idle hw (by rw [hc]; rfl) hr rfl j)
  | @epilogue w i pc hw hc =>
    refine .inr (hquiet (epilogue_idle j) ?_)
    rintro ⟨_, _, ⟨⟩, hcall, _⟩
    simp [nextCall, hw, hc, Control.calls] at hcall
  | @abort w i pc c rest next hw hc hr hp =>
    have hcall : rt.nextCall (.fiber w) = some c := by simp [nextCall, hw, hc, Control.calls]
    refine .inr (hquiet le_rfl fun hs => ?_)
    -- a start does not panic
    obtain ⟨l, core, rfl⟩ := Call.mem_spawns (hs.mem_spawns hcall)
    cases hr
    cases hp
  | @settle w i stage _ _ hw hs =>
    cases hs with
    | freePush =>
      rcases eq_or_ne i.val j with hj | hj
      · exact .inl ⟨w, i, rfl, hw, hj⟩
      · refine .inr (hquiet ?_ (by rintro ⟨_, _, ⟨⟩, _⟩))
        simp [idle, setWorker, hj]
    | _ => exact .inr (hquiet le_rfl (by rintro ⟨_, _, ⟨⟩, _⟩))
  | dispatch => exact .inr (hquiet le_rfl (by rintro ⟨_, _, ⟨⟩, _⟩))
  | receive ha =>
    exact .inr (hquiet le_rfl (by rcases ha with rfl | rfl <;> rintro ⟨_, _, ⟨⟩, _⟩))

/-- The action is not one of the fiber `j`. -/
def Elsewhere (rt : Machine n cap hosts) (a : Act n hosts) (j : Nat) : Prop :=
  ∀ w (i : Fin cap), rt.workers w = .on .running i → i.val = j →
    a ≠ .run (.fiber w) ∧ ∀ u, a ≠ .user (.fiber w) u

/-- A step touches the stack of the fiber that makes it, and of the one it starts. -/
theorem step_fibers (h : step a rt = some rt') {j : Nat} (hj : rt.Elsewhere a j) :
    rt'.shared.fibers j = rt.shared.fibers j ∨
      rt.Starts a j ∧ rt'.shared.fibers j = .body [] := by
  have hset (sh : Shared n) {i : Fin cap} (hi : i.val ≠ j) (c : Control) :
      (sh.setFiber i c).fibers j = sh.fibers j :=
    sh.setFiber_ne hi.symm c
  have hcall {who : Who n} {t : Thread n hosts} {c : Call} {next : Next n}
      (hc : rt.nextCall t = some c) (hr : c.run who rt.shared = some next) :
      next.shared.fibers j = rt.shared.fibers j ∨
        rt.Starts (.run t) j ∧ next.shared.fibers j = .body [] :=
    ((Call.run_does hr).fibers j).imp_right fun h => ⟨⟨t, c, rfl, hc, h.2⟩, h.1⟩
  cases step_takes h with
  | @fiberUser w i u _ _ hw _ _ _ => exact .inl (hset _ (fun hi => (hj w i hw hi).2 u rfl) _)
  | hostRun hc hr => exact hcall (by simp [nextCall, hc]) hr
  | @body w i _ _ _ hw hc hr | @late w i _ _ _ _ hw hc hr _ =>
    rw [proceed, setWorker, hset _ fun hi => (hj w i hw hi).1 rfl]
    exact hcall (by simp [nextCall, hw, hc, Control.calls]) hr
  | @epilogue w i pc hw _ =>
    have hi : i.val ≠ j := fun hi => (hj w i hw hi).1 rfl
    cases pc <;> first | exact .inl (hset _ hi _) | exact .inl rfl
  | settle _ hs => cases hs <;> exact .inl rfl
  | _ => exact .inl rfl

end

/-! ## Reachable states -/

/-- What holds of the fibers in every run. -/
structure Sound (rt : Machine n cap hosts) : Prop where
  claims : ∀ i, rt.live i + rt.idle i ≤ 1
  fiber : ∀ i : Fin cap, ∃ seat, rt.SeatAt i seat ∧ Discipline (rt.view i seat) ∧
    Lives (rt.view i seat)
  idle : ∀ i, 0 < rt.idle i → (rt.shared.fibers i).gone

namespace Sound

variable {i : Fin cap} {w : Fin n} {stage : Stage}

theorem alive (h : rt.Sound) (hu : (rt.shared.fibers i).unfinished) :
    Alive (rt.shared.ctx i).state := by
  obtain ⟨seat, _, _, hl⟩ := h.fiber i
  exact hl.alive hu

theorem live_le (h : rt.Sound) (i : Nat) : rt.live i ≤ 1 :=
  (Nat.le_add_right _ _).trans (h.claims i)

theorem on_worker (h : rt.Sound) (hw : rt.workers w = .on stage i) :
    Discipline (rt.view i (.on stage)) ∧ Lives (rt.view i (.on stage)) := by
  obtain ⟨seat, hseat, hd, hl⟩ := h.fiber i
  obtain rfl := hseat.eq_on (h.live_le i) hw
  exact ⟨hd, hl⟩

theorem freeing (h : rt.Sound) (hw : rt.workers w = .on stage i)
    (hs : stage = .freeState ∨ stage = .freeGen ∨ stage = .freePush) :
    (rt.shared.fibers i).gone :=
  (h.on_worker hw).2.freeing stage rfl hs

theorem idle_of_starts {j : Nat} (h : rt.Starts a j) : 0 < rt.idle j := by
  obtain ⟨t, c, rfl, hc, hj⟩ := h
  exact idle_pos hc hj

/-- A fiber is started in a context whose last fiber has left. -/
theorem start_gone (h : rt.Sound) {j : Nat} (hs : rt.Starts a j) : (rt.shared.fibers j).gone :=
  h.idle j (idle_of_starts hs)

theorem step [NeZero n] (h : rt.Sound) (hst : Machine.step a rt = some rt') : rt'.Sound where
  claims i := (step_spends hst i).total.trans (h.claims i)
  fiber i := by
    obtain ⟨seat, hseat, hd, hl⟩ := h.fiber i
    obtain ⟨seat', hmove, hseat'⟩ := step_simulated hseat (h.claims i) hst
    exact ⟨seat', hseat', hd.step hmove, hl.step hd hmove⟩
  idle j hj := by
    rcases step_idle hst j with ⟨w, i, rfl, hw, rfl⟩ | ⟨hle, hlt⟩
    · -- the worker that pushes the context to the free list
      have hg := h.freeing hw (.inr (.inr rfl))
      rcases step_fibers hst (fun _ _ _ _ => ⟨nofun, nofun⟩) with hf | ⟨⟨_, _, ⟨⟩, _⟩, _⟩
      rwa [hf]
    · have hidle : 0 < rt.idle j := Nat.lt_of_lt_of_le hj hle
      have hle := h.claims j
      have hrun : rt.Elsewhere a j := by
        rintro w i hw rfl
        have hpos := executing_pos hw
        have hexec := executing_le_live rt i
        omega
      rcases step_fibers hst hrun with hf | ⟨hs, _⟩
      · rw [hf]
        exact h.idle j hidle
      · have := hlt hs
        omega

end Sound

variable [NeZero n]

theorem sound_new (topology : TopologyMode) : (new n cap hosts topology).Sound where
  claims := claims_new_le_one topology
  fiber i := ⟨.out, seatAt_new topology i, ⟨nofun, nofun, nofun, nofun, nofun⟩,
    ⟨nofun, nofun, nofun, nofun⟩⟩
  idle _ _ := rfl

/-! ## Occupants come and go -/

/-- Whether there is a fiber that has not stored `Finished`, before and after a step. -/
inductive Occupancy (rt : Machine n cap hosts) (a : Act n hosts) (i : Fin cap) : Bool → Bool → Prop
  | start : rt.Starts a i → rt.event i a = none → Occupancy rt a i false true
  | finish : ¬ rt.Starts a i → rt.event i a = some .finish → Occupancy rt a i true false
  | same {b : Bool} : ¬ rt.Starts a i → rt.event i a ≠ some .finish → Occupancy rt a i b b

theorem Control.unfinished_of_gone {c : Control} (h : c.gone) : c.unfinished = false := by
  cases hu : c.unfinished with
  | false => rfl
  | true => cases (Control.not_gone hu).symm.trans h

theorem Sound.started (h : rt.Sound) (hst : Machine.step a rt = some rt') (hs : rt.Starts a i) :
    rt'.shared.fibers i = .body [] ∧ rt.event i a = none := by
  obtain ⟨t, c, rfl, hc, hi⟩ := hs
  have hnot := not_executing (h.claims i) hc hi
  obtain ⟨l, core, rfl⟩ := Call.mem_spawns hi
  have hstart {who : Who n} {next : Next n}
      (hr : Call.run who rt.shared (.spawn l core (.init i)) = some next) :
      next.shared.fibers i = .body [] := by
    cases hr
    exact Shared.setFiber_self _ _ _
  have hruns : rt.runs i t = false := by
    cases t with
    | host k => rfl
    | fiber w => simpa [runs] using hnot w .running
  refine ⟨?_, by simp [event_run hc, hruns, Call.wakeEvent]⟩
  have hset {w : Fin n} {j : Fin cap} (hw : rt.workers w = .on .running j) (sh : Shared n)
      (control : Control) : (sh.setFiber j control).fibers i = sh.fibers i := by
    refine sh.setFiber_ne (fun heq => hnot w .running ?_) control
    rw [hw, Fin.ext heq]
  cases step_takes hst with
  | hostRun hcalls hr =>
    simp only [nextCall, hcalls, List.head?_cons, Option.some.injEq] at hc
    subst hc
    exact hstart hr
  | body hw hcalls hr | late hw hcalls hr _ =>
    simp only [nextCall, hw, hcalls, Control.calls, List.head?_cons, Option.some.injEq] at hc
    subst hc
    rw [proceed, setWorker, hset hw]
    exact hstart hr
  | epilogue hw hcalls => simp [nextCall, hw, hcalls, Control.calls] at hc
  | abort hw hcalls hr hp =>
    simp only [nextCall, hw, hcalls, Control.calls, List.head?_cons, Option.some.injEq] at hc
    subst hc
    cases hr
    cases hp
  | receive ha _ => rcases ha with ha | ha <;> cases ha

omit [NeZero n] in
theorem not_elsewhere (h : ¬ rt.Elsewhere a j) :
    ∃ w, rt.workers w = .on .running j ∧ (a = .run (.fiber w) ∨ ∃ u, a = .user (.fiber w) u) := by
  simp only [Elsewhere, not_forall] at h
  obtain ⟨w, i, hw, hi, hact⟩ := h
  obtain rfl : i = j := Fin.ext hi
  refine ⟨w, hw, ?_⟩
  by_contra hno
  rw [not_or, not_exists] at hno
  exact hact hno

/-- A step of the fiber `i`. -/
inductive Own (rt : Machine n cap hosts) (i : Fin cap) : Act n hosts → Machine n cap hosts → Prop
  | user {w : Fin n} {u : UserAct} {calls : List Call} {c : Control} :
      rt.workers w = .on .running i → rt.shared.fibers i = .body calls → inUser calls →
      u.onFiber calls = some c →
      Own rt i (.user (.fiber w) u) { rt with shared := rt.shared.setFiber i c }
  | body {w : Fin n} {c : Call} {rest : List Call} {next : Next n} :
      rt.workers w = .on .running i → rt.shared.fibers i = .body (c :: rest) →
      c.run ⟨some i, .worker w⟩ rt.shared = some next →
      Own rt i (.run (.fiber w)) (rt.proceed w i (.body (next.calls rest)) next)
  | late {w : Fin n} {pc : EpiloguePc} {c : Call} {rest : List Call} {next : Next n} :
      rt.workers w = .on .running i → rt.shared.fibers i = .epilogue pc (c :: rest) →
      c.run ⟨some i, .worker w⟩ rt.shared = some next → ¬ next.isPanic →
      Own rt i (.run (.fiber w)) (rt.proceed w i (.epilogue pc (next.calls rest)) next)
  | epilogue {w : Fin n} {pc : EpiloguePc} : rt.workers w = .on .running i →
      rt.shared.fibers i = .epilogue pc [] → Own rt i (.run (.fiber w)) (rt.epilogue w i pc)
  | abort {w : Fin n} {pc : EpiloguePc} {c : Call} {rest : List Call} {next : Next n} :
      rt.workers w = .on .running i → rt.shared.fibers i = .epilogue pc (c :: rest) →
      c.run ⟨some i, .worker w⟩ rt.shared = some next → next.isPanic →
      Own rt i (.run (.fiber w)) { rt with aborted := true }

theorem step_own (hst : step a rt = some rt') (h : ¬ rt.Elsewhere a i) : rt.Own i a rt' := by
  obtain ⟨w, hw, hact⟩ := not_elsewhere h
  have hi {k : Fin cap} {stage : Stage} (hk : rt.workers w = .on stage k) : k = i := by
    rw [hw] at hk
    cases hk
    rfl
  rcases hact with rfl | ⟨u, rfl⟩
  · cases step_takes hst with
    | body hk hc hr =>
      obtain rfl := hi hk
      exact .body hk hc hr
    | late hk hc hr hp =>
      obtain rfl := hi hk
      exact .late hk hc hr hp
    | epilogue hk hc =>
      obtain rfl := hi hk
      exact .epilogue hk hc
    | abort hk hc hr hp =>
      obtain rfl := hi hk
      exact .abort hk hc hr hp
    | receive ha _ => rcases ha with ha | ha <;> cases ha
  · cases step_takes hst with
    | fiberUser hk hc hu huser =>
      obtain rfl := hi hk
      exact .user hk hc hu huser
    | receive ha _ => rcases ha with ha | ha <;> cases ha

omit [NeZero n] in
/-- Only the fiber itself stores `Finished`. -/
theorem event_finish (h : rt.event i a = some .finish) :
    ∃ w, a = .run (.fiber w) ∧ rt.workers w = .on .running i ∧
      rt.shared.fibers i = .epilogue .finish [] := by
  cases a with
  | user t u =>
    cases t with
    | host k => cases h
    | fiber w =>
      simp only [event, UserAct.event] at h
      split at h
      · split at h <;> cases h
      · cases h
  | run t =>
    simp only [event, Option.or_eq_some_iff] at h
    rcases h with h | ⟨-, h⟩
    · obtain ⟨c, -, hc⟩ := Option.bind_eq_some_iff.mp h
      unfold Call.wakeEvent at hc
      split at hc
      · split at hc <;> cases hc
      · cases hc
    · rw [Option.ite_none_right_eq_some] at h
      obtain ⟨hruns, hev⟩ := h
      cases t with
      | host k => cases hruns
      | fiber w =>
        refine ⟨w, rfl, by simpa [runs] using hruns, ?_⟩
        unfold Control.ownEvent at hev
        split at hev
        · unfold Call.ownEvent at hev
          split at hev
          · cases hev
          · split at hev <;> cases hev
          · cases hev
        · assumption
        · cases hev
        · cases hev
  | settle w =>
    simp only [event] at h
    split at h <;> cases h
  | _ => cases h

/-- The other moves of a running fiber neither start nor finish it. -/
theorem Moves.unfinished {i : Nat} {word word' : FiberStatus} {control control' : Control}
    {seat' : Seat} {e : Option Event}
    (h : Moves n i ⟨word, control, .on .running⟩ e ⟨word', control', seat'⟩)
    (he : e ≠ some .finish) : control'.unfinished = control.unfinished := by
  cases h with
  | start hseat => rcases hseat with hseat | hseat <;> cases hseat
  | user _ hcall => rcases UserAct.onFiber_control hcall with ⟨_, rfl⟩ | rfl <;> rfl
  | @late _ pc _ _ _ _ _ _ _ _ _ _ => cases pc <;> rfl
  | finish => exact absurd rfl he
  | after hs _ => rcases hs with hs | hs <;> cases hs
  | _ => rfl

theorem Moves.finished {i : Nat} {word word' : FiberStatus} {control' : Control} {seat' : Seat}
    (h : Moves n i ⟨word, .epilogue .finish [], .on .running⟩ (some .finish)
      ⟨word', control', seat'⟩) : control' = .epilogue .waiter [] := by
  cases h
  rfl

theorem Sound.occupancy (h : rt.Sound) (hst : Machine.step a rt = some rt') (i : Fin cap) :
    rt.Occupancy a i (rt.shared.fibers i).unfinished (rt'.shared.fibers i).unfinished := by
  by_cases hs : rt.Starts a i
  · obtain ⟨hbody, hev⟩ := h.started hst hs
    rw [hbody, Control.unfinished_of_gone (h.start_gone hs)]
    exact .start hs hev
  · by_cases hother : rt.Elsewhere a i
    · have hf := (step_fibers hst hother).resolve_right fun h => hs h.1
      rw [hf]
      refine .same hs fun hev => ?_
      obtain ⟨w, rfl, hw, -⟩ := event_finish hev
      exact (hother w i hw rfl).1 rfl
    · obtain ⟨w, hw, -⟩ := not_elsewhere hother
      obtain ⟨seat, hseat, -⟩ := h.fiber i
      obtain rfl := hseat.eq_on (h.live_le i) hw
      obtain ⟨seat', hmove, -⟩ := step_simulated hseat (h.claims i) hst
      by_cases hev : rt.event i a = some .finish
      · obtain ⟨_, -, -, hc⟩ := event_finish hev
        rw [hev, view, view, hc] at hmove
        rw [hc, Moves.finished hmove]
        exact .finish hs hev
      · have hsame : (rt'.shared.fibers i).unfinished = (rt.shared.fibers i).unfinished :=
          Moves.unfinished hmove hev
        rw [hsame]
        exact .same hs hev

/-! ## State words of other fibers -/

/-- What other threads do to the state word of a fiber that has not finished. -/
inductive WordStep : FiberStatus → FiberStatus → Prop
  | keep {word : FiberStatus} : WordStep word word
  | wake {word : FiberStatus} : WordStep word .notified
  | park : WordStep .suspending .yielded

/-- The same with the action: a wake is the event of that name, and the worker that is about to
park the fiber does it. -/
inductive WordAct (rt : Machine n cap hosts) (a : Act n hosts) (j : Fin cap) :
    FiberStatus → FiberStatus → Prop
  | keep {word : FiberStatus} : rt.event j a ≠ some .wake → WordAct rt a j word word
  | wake {word : FiberStatus} : rt.event j a = some .wake → WordAct rt a j word .notified
  | park {w : Fin n} : a = .settle w → rt.workers w = .on .parkCas j →
      WordAct rt a j .suspending .yielded

omit [NeZero n] in
theorem Elsewhere.runs_eq_false {t : Thread n hosts} (h : rt.Elsewhere (.run t) j) :
    rt.runs j t = false := by
  cases t with
  | host k => rfl
  | fiber w => simpa [runs] using fun hw => (h w j hw rfl).1 rfl

theorem Sound.step_wordAct (hs : rt.Sound) (hst : Machine.step a rt = some rt')
    (hother : rt.Elsewhere a j) (hu : (rt.shared.fibers j).unfinished) :
    rt.WordAct a j (rt.shared.ctx j).state (rt'.shared.ctx j).state := by
  have hgone {b : Bool} (hg : (rt.shared.fibers j).gone = b) : b = false :=
    hg.symm.trans (Control.not_gone hu)
  have hcall {t : Thread n hosts} {who : Who n} {c : Call} {next : Next n} (ha : a = .run t)
      (hself : who.fiber ≠ some j.val) (hc : rt.nextCall t = some c)
      (hr : c.run who rt.shared = some next) :
      rt.WordAct a j (rt.shared.ctx j).state (next.shared.ctx j).state := by
    subst ha
    have hevent : rt.event j (.run t) = c.wakeEvent j := by
      simp [event_run hc, hother.runs_eq_false]
    cases hwake : c.wakeEvent j with
    | some e =>
      obtain ⟨rfl, hshared⟩ := Call.run_wake hwake hr
      rw [hshared, rt.shared.setState_self]
      exact .wake (hevent.trans hwake)
    | none =>
      have hspawn : j.val ∉ c.spawns := fun hspawn => by
        cases hgone (hs.start_gone ⟨t, c, rfl, hc, hspawn⟩)
      rw [((Call.run_does hr).elsewhere hself hwake hspawn).1]
      refine .keep ?_
      rw [hevent, hwake]
      rintro ⟨⟩
  have hfiber {w : Fin n} {k : Fin cap} (hw : rt.workers w = .on .running k)
      (ha : a = .run (.fiber w)) : (some k.val : Option Nat) ≠ some j.val := by
    intro heq
    exact (hother w k hw (Option.some.inj heq)).1 ha
  cases step_takes hst with
  | hostRun hc hr => exact hcall rfl (by simp) (by simp [nextCall, hc]) hr
  | body hw hc hr | late hw hc hr _ =>
    exact hcall rfl (hfiber hw rfl) (by simp [nextCall, hw, hc, Control.calls]) hr
  | @epilogue w k pc hw hc =>
    have hne : j.val ≠ k.val := fun heq => hfiber hw rfl (congrArg some heq.symm)
    have hevent : rt.event j (.run (.fiber w)) ≠ some .wake := by
      simp [event, nextCall, hw, hc, Control.calls, hother.runs_eq_false]
    cases pc with
    | finish =>
      simp only [Machine.epilogue, Shared.setFiber, Shared.setState_ne _ hne]
      exact .keep hevent
    | waiter =>
      simp only [Machine.epilogue, Shared.setFiber, Shared.setCtx_ne _ hne]
      exact .keep hevent
    | switch | returned => exact .keep hevent
  | @abort w k pc c rest next hw hc hr hp =>
    refine .keep fun hevent => ?_
    -- the swap of a wake does not panic
    have hcall : rt.nextCall (.fiber w) = some c := by simp [nextCall, hw, hc, Control.calls]
    rw [event_run hcall, hother.runs_eq_false] at hevent
    have hwake : c.wakeEvent j = some .wake := by simpa using hevent
    rw [Call.run_wake_goto hwake hr] at hp
    cases hp
  | @settle w k stage _ _ hw hsettle =>
    have hset {state : FiberStatus} (hne : j ≠ k) :
        ((rt.shared.setState k state).ctx j).state = (rt.shared.ctx j).state := by
      rw [rt.shared.setState_ne fun heq => hne (Fin.ext heq)]
    have hevent : rt.event j (.settle w) ≠ some .wake := by
      simp only [event]
      split <;> simp
    cases hsettle with
    | after | inspect | requeue | freePush => exact .keep hevent
    | park hsus =>
      simp only [setWorker]
      rcases eq_or_ne j k with rfl | hne
      · rw [rt.shared.setState_self, hsus]
        exact .park rfl hw
      · rw [hset hne]
        exact .keep hevent
    | freeState =>
      simp only [setWorker]
      rcases eq_or_ne j k with rfl | hne
      · cases hgone (hs.freeing hw (.inl rfl))
      · rw [hset hne]
        exact .keep hevent
    | freeGen =>
      simp only [setWorker]
      rw [rt.shared.setCtx_state (by rfl)]
      exact .keep hevent
  | hostUser => exact .keep (by rintro ⟨⟩)
  | @fiberUser w k u _ _ _ _ _ _ =>
    refine .keep ?_
    simp only [event, UserAct.event]
    split
    · split <;> simp
    · simp
  | dispatch => exact .keep (by rintro ⟨⟩)
  | receive ha _ => exact .keep (by rcases ha with rfl | rfl <;> rintro ⟨⟩)

theorem Sound.step_word (hs : rt.Sound) (hst : Machine.step a rt = some rt')
    (hother : rt.Elsewhere a j) (hu : (rt.shared.fibers j).unfinished) :
    WordStep (rt.shared.ctx j).state (rt'.shared.ctx j).state := by
  have h := hs.step_wordAct hst hother hu
  generalize (rt.shared.ctx j).state = word, (rt'.shared.ctx j).state = word' at h
  cases h with
  | keep _ => exact .keep
  | wake _ => exact .wake
  | park _ _ => exact .park

end Machine

end Dtact.Runtime
