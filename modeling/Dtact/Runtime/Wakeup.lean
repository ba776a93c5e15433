import Dtact.Runtime.FiberView

/-!
# No lost wakeup

In `wait_pinned` the fiber exchanges `Running` for `Suspending` and switches, and the worker
exchanges `Suspending` for `Yielded`. A wake stores `Notified` at any time. The loop clears
`Notified` before it polls, never after.
-/

namespace Dtact.Runtime

open Scheduler Transition

/-! ## Calls -/

/-- The calls that suspend their fiber in the state `Notified` only. -/
def Call.brief : Call → Bool
  | .wake _ _ => true
  | .wakeFiber _ _ _ _ _ => true
  | .spawn _ _ _ => true
  | _ => false

def Call.isWait : Call → Bool
  | .wait _ => true
  | _ => false

/-- The call has stored `Suspending` and is about to switch. -/
def Call.isSwitch : Call → Bool
  | .wait .switch => true
  | .yieldTo .switch => true
  | .await _ _ .switch => true
  | _ => false

/-- The loop has a poll ahead of it that nothing can prevent. -/
def WaitPc.beforePoll : WaitPc → Bool
  | .load => true
  | .store => true
  | .callPoll => true
  | _ => false

def Control.isBody : Control → Bool
  | .body _ => true
  | _ => false

def Control.atSwitch : Control → Bool
  | .body (c :: _) => c.isSwitch
  | _ => false

section

variable {n : Nat} {who : Who n} {sh : Shared n} {c : Call} {next : Next n} {i : Nat}

theorem Shared.setState_cases (sh : Shared n) (self i : Nat) (state : FiberStatus) :
    ((sh.setState self state).ctx i).state = (sh.ctx i).state ∨
      ((sh.setState self state).ctx i).state = state := by
  by_cases hi : i = self
  · subst hi
    exact Or.inr (sh.setState_self i state)
  · exact Or.inl (by rw [sh.setState_ne hi])

theorem Shared.setCtx_state (sh : Shared n) {j : Nat} {x : FiberContext}
    (h : x.state = (sh.ctx j).state) (i : Nat) :
    ((sh.setCtx j x).ctx i).state = (sh.ctx i).state := by
  by_cases hi : i = j
  · subst hi
    rw [sh.setCtx_self, h]
  · rw [sh.setCtx_ne hi]

theorem Shared.setSpin_state (sh : Shared n) (self i cs fc : Nat) :
    ((sh.setSpin self cs fc).ctx i).state = (sh.ctx i).state :=
  sh.setCtx_state (by rfl) i

theorem Next.mem_calls {rest : List Call} (h : c ∈ next.calls rest) : c ∈ next.own ∨ c ∈ rest := by
  cases next with
  | panic sh => exact Or.inr ((List.dropWhile_sublist _).subset h)
  | _ => exact List.mem_append.mp h

/-- What a brief call leaves in the state word and on the stack. -/
def Brief (sh : Shared n) (i : Nat) (next : Next n) : Prop :=
  ((next.shared.ctx i).state = (sh.ctx i).state ∨ (next.shared.ctx i).state = .notified) ∧
    ∀ c ∈ next.own, c.brief

variable [NeZero n]

/-- What a step does to a state word: nothing, or it wakes the fiber, or it is a store of the fiber
itself. -/
theorem Call.run_word (hspawn : i ∉ c.spawns) (hr : c.run who sh = some next) :
    (next.shared.ctx i).state = (sh.ctx i).state ∨ (next.shared.ctx i).state = .notified ∨
      ∃ c' state, c.Stores state c' ∧
        (state = .suspending → c = .yieldTo .store ∨ (sh.ctx i).state = .running) ∧
        next = .goto [c'] (sh.setState i state) := by
  cases Call.run_runs hr with
  | quiet | switch | enqueue | overflow | exhausted => exact .inl rfl
  | spin => exact .inl (sh.setSpin_state _ _ _ _)
  | @store c c' self state hs _ hcas =>
    rcases eq_or_ne i self with rfl | hne
    · exact .inr (.inr ⟨c', state, hs, hcas, rfl⟩)
    · exact .inl (by rw [Next.shared, sh.setState_ne hne])
  | register | unregister => exact .inl (sh.setCtx_state (by rfl) i)
  | wake => exact (sh.setState_cases _ i _).imp_right .inl
  | alloc hsh =>
    rcases hsh with rfl | ⟨_, _, _, rfl⟩
    · exact .inl rfl
    · exact .inl (sh.setSpin_state _ _ _ _)
  | @start l core j =>
    have hne : i ≠ j := by
      rintro rfl
      simp [Call.spawns] at hspawn
    refine .inl ?_
    show ((sh.setCtx j _).ctx i).state = _
    rw [sh.setCtx_ne hne]

theorem Call.run_brief (hc : c.brief) (hspawn : i ∉ c.spawns) (hr : c.run who sh = some next) :
    Brief sh i next := by
  refine ⟨?_, fun c' hc' => ?_⟩
  · rcases Call.run_word hspawn hr with h | h | ⟨c', state, hs, -, rfl⟩
    · exact .inl h
    · exact .inr h
    · cases hs with
      | wakeFiber | spawn => exact .inr (sh.setState_self i _)
      | _ => cases hc
  · cases (Call.run_follows hr).follows hc' with
    | wake | wakeFiber | spawn | start => rfl
    | _ => cases hc

/-- Only the two exchanges and `yield_to` store `Suspending`, right before a switch. -/
theorem Call.run_suspending (hspawn : i ∉ c.spawns) (hr : c.run who sh = some next)
    (hne : (sh.ctx i).state ≠ .suspending) (hs : (next.shared.ctx i).state = .suspending)
    (rest : List Call) : next.stage = .running ∧ (Control.body (next.calls rest)).atSwitch := by
  rcases Call.run_word hspawn hr with h | h | ⟨c', state, hstores, -, rfl⟩
  · exact absurd (h.symm.trans hs) hne
  · cases h.symm.trans hs
  · obtain rfl : state = .suspending := (sh.setState_self i state).symm.trans hs
    cases hstores <;> exact ⟨rfl, rfl⟩

theorem Call.run_switch (hc : c.isSwitch) (hr : c.run who sh = some next) :
    next.stage = .inspect := by
  have hswitches : c.switches = true := by
    unfold isSwitch at hc
    split at hc <;> first | rfl | cases hc
  cases Call.run_runs hr with
  | switch => rfl
  | quiet hm | spin hm _ => cases hswitches.symm.trans hm.switches.1
  | store hs => cases hs <;> cases hc
  | alloc | exhausted => cases hc
  | _ => cases hc

end

/-! ## How a fiber is suspended -/

/-- What the state word says about where the fiber is. -/
structure Discipline (v : View) : Prop where
  suspended : v.word = .suspending →
    v.seat = .on .inspect ∨ v.seat = .on .parkCas ∨ v.seat = .on .running ∧ v.control.atSwitch
  parked : v.word = .yielded → ∀ stage, v.seat ≠ .on stage
  done : v.word = .finished ∨ v.word = .panicked → v.control.isBody = false
  freeing : v.seat = .on .freeState → v.control.isBody = false
  late : ∀ pc calls, v.control = .epilogue pc calls → ∀ c ∈ calls, c.brief

namespace Discipline

variable {n i : Nat} [NeZero n] {v v' : View} {e : Option Event}

theorem not_atSwitch {calls : List Call} (h : inUser calls) :
    (Control.body calls).atSwitch = false := by
  cases calls with
  | nil => rfl
  | cons c rest =>
    simp only [inUser, Control.atSwitch] at h ⊢
    cases c with
    | wait pc => cases pc <;> first | rfl | cases h
    | _ => cases h

variable {word : FiberStatus} {control : Control}

/-- A running fiber that is not about to switch is neither suspended nor parked. -/
theorem running (h : Discipline ⟨word, control, .on .running⟩) (hc : control.atSwitch = false) :
    word ≠ .yielded ∧ word ≠ .suspending := by
  refine ⟨fun hy => h.parked hy _ rfl, fun hs => ?_⟩
  rcases h.suspended hs with h | h | ⟨_, h⟩
  · cases h
  · cases h
  · simp only [hc] at h
    cases h

/-- From the inspection on, the fiber is neither suspended nor parked. -/
theorem inspected {stage : Stage} (h : Discipline ⟨word, control, .on stage⟩)
    (hs : stage = .requeue ∨ stage = .freeGen ∨ stage = .freePush) :
    word ≠ .yielded ∧ word ≠ .suspending := by
  refine ⟨fun hy => h.parked hy _ rfl, fun hsus => ?_⟩
  rcases h.suspended hsus with h | h | ⟨h, _⟩ <;> (cases h; simp at hs)

/-- A fiber that is neither suspended nor parked is taken over. -/
theorem reseat {seat seat' : Seat} (h : Discipline ⟨word, control, seat⟩)
    (hword : word ≠ .yielded ∧ word ≠ .suspending) (hseat : seat' ≠ .on .freeState) :
    Discipline ⟨word, control, seat'⟩ :=
  ⟨fun hs => absurd hs hword.2, fun hy => absurd hy hword.1, h.done, fun hf => absurd hf hseat,
    h.late⟩

theorem body_step {c : Call} {rest : List Call} {who : Who n} {sh : Shared n} {next : Next n}
    (h : Discipline ⟨word, .body (c :: rest), .on .running⟩) (hw : word = (sh.ctx i).state)
    (hspawn : i ∉ c.spawns) (hr : c.run who sh = some next) :
    Discipline ⟨(next.shared.ctx i).state, .body (next.calls rest), .on next.stage⟩ := by
  have hown := (Call.run_does hr).own_state hspawn
  rw [← hw] at hown
  refine ⟨fun hs => ?_, fun hy => ?_, fun hd => ?_, fun hf => ?_, nofun⟩
  · by_cases hsw : c.isSwitch
    · exact Or.inl (congrArg _ (Call.run_switch hsw hr))
    · have hne := (h.running (by simpa [Control.atSwitch] using hsw)).2
      obtain ⟨hstage, hat⟩ := Call.run_suspending hspawn hr (by rwa [← hw]) hs rest
      exact Or.inr (Or.inr ⟨congrArg _ hstage, hat⟩)
  · rcases hown with he | ha
    · exact absurd rfl (h.parked (he.symm.trans hy) .running)
    · exact absurd hy ha.ne_yielded
  · rcases hown with he | ha
    · cases h.done (by rwa [he] at hd)
    · rcases ha with ha | ha | ha <;> rcases hd with hd | hd <;> cases ha.symm.trans hd
  · cases next <;> cases hf

theorem late_step {pc : EpiloguePc} {c : Call} {rest : List Call} {who : Who n} {sh : Shared n}
    {next : Next n} (h : Discipline ⟨word, .epilogue pc (c :: rest), .on .running⟩)
    (hw : word = (sh.ctx i).state) (hspawn : i ∉ c.spawns) (hr : c.run who sh = some next) :
    Discipline ⟨(next.shared.ctx i).state, .epilogue pc (next.calls rest), .on next.stage⟩ := by
  obtain ⟨hstate, hown⟩ := Call.run_brief (h.late _ _ rfl c (by simp)) hspawn hr
  rw [← hw] at hstate
  have hnot := h.running rfl
  refine ⟨fun hs => ?_, fun hy => ?_, fun _ => rfl, fun _ => rfl, ?_⟩
  · rcases hstate with he | he
    · exact absurd (he.symm.trans hs) hnot.2
    · cases he.symm.trans hs
  · rcases hstate with he | he
    · exact absurd (he.symm.trans hy) hnot.1
    · cases he.symm.trans hy
  · rintro _ _ ⟨⟩ c' hc'
    rcases Next.mem_calls hc' with hc' | hc'
    · exact hown c' hc'
    · exact h.late _ _ rfl c' (by simp [hc'])

theorem step (h : Discipline v) (hm : Moves n i v e v') : Discipline v' := by
  cases hm with
  | other => exact h
  | wake => exact ⟨by rintro ⟨⟩, by rintro ⟨⟩, by simp, h.freeing, h.late⟩
  | start _ =>
    exact ⟨by rintro ⟨⟩, by rintro ⟨⟩, by simp, by rintro ⟨⟩, by rintro _ _ ⟨⟩⟩
  | dispatch hy =>
    refine h.reseat ⟨hy, fun hs => ?_⟩ (by rintro ⟨⟩)
    rcases h.suspended hs with h | h | ⟨h, _⟩ <;> cases h
  | user hu hcall =>
    have hnot := h.running (not_atSwitch hu)
    refine ⟨fun hs => absurd hs hnot.2, fun hy => absurd hy hnot.1, fun hd => ?_, by rintro ⟨⟩, ?_⟩
    · cases h.done hd
    · intro pc calls hc c' hc'
      rcases UserAct.onFiber_control hcall with ⟨calls', rfl⟩ | rfl
      · cases hc
      · cases hc
        cases hc'
  | body _ hw hspawn hr => exact h.body_step hw hspawn hr
  | late _ hw hspawn hr _ => exact h.late_step hw hspawn hr
  | finish => exact ⟨by rintro ⟨⟩, by rintro ⟨⟩, fun _ => rfl, by rintro ⟨⟩, by rintro _ _ ⟨⟩; simp⟩
  | waiter packed =>
    have hnot := h.running rfl
    refine ⟨fun hs => absurd hs hnot.2, fun hy => absurd hy hnot.1, fun _ => rfl, by rintro ⟨⟩, ?_⟩
    rintro _ _ ⟨⟩ c hc
    simp only [Machine.waiterCalls] at hc
    split at hc
    · simp at hc
    · rw [List.mem_singleton.mp hc]
      rfl
  | leave =>
    have hnot := h.running rfl
    exact ⟨fun hs => absurd hs hnot.2, fun hy => absurd hy hnot.1, fun _ => rfl, by rintro ⟨⟩,
      by rintro _ _ ⟨⟩; simp⟩
  | inspect => exact ⟨fun _ => Or.inr (Or.inl rfl), by rintro ⟨⟩, h.done, by rintro ⟨⟩, h.late⟩
  | after _ hs =>
    refine ⟨fun hs' => absurd hs' hs, fun hy => absurd rfl (h.parked hy _), h.done, fun hf => ?_,
      h.late⟩
    refine h.done ?_
    by_contra hd
    simp only [Seat.after, hd, if_false] at hf
    split at hf <;> cases hf
  | park =>
    exact ⟨by rintro ⟨⟩, by rintro _ _ ⟨⟩, by simp, by rintro ⟨⟩, h.late⟩
  | requeue => exact h.reseat (h.inspected (Or.inl rfl)) (by rintro ⟨⟩)
  | freeState =>
    exact ⟨by rintro ⟨⟩, by rintro ⟨⟩, by simp, by rintro ⟨⟩, h.late⟩
  | freeGen => exact h.reseat (h.inspected (Or.inr (Or.inl rfl))) (by rintro ⟨⟩)
  | freePush => exact h.reseat (h.inspected (Or.inr (Or.inr rfl))) (by rintro ⟨⟩)

end Discipline

/-! ## One loop -/

/-- Whether a wake has taken effect since the latest poll began. -/
def noteWake (e : Option Event) (woken : Bool) : Bool :=
  match e with
  | some .wake => true
  | some .poll => false
  | _ => woken

/-- The stack of a fiber whose polls do not suspend it: a loop stands at the bottom
of the stack, and above it there are brief calls of its poll. -/
inductive Plain : List Call → Prop
  | free {calls : List Call} : (∀ c ∈ calls, c.isWait = false) → Plain calls
  | wait (pc : WaitPc) : Plain [.wait pc]
  | poll {above : List Call} {pc : WaitPc} : (∀ c ∈ above, c.brief) → (Call.wait pc).isPoll →
      Plain (above ++ [.wait pc])

/-- The fiber is in a `wait_pinned` loop. -/
def Waiting (calls : List Call) : Prop := ∃ pc, Call.wait pc ∈ calls

/-- The wake is still in the state word, or the next poll comes before anything else. -/
def Kept (word : FiberStatus) (calls : List Call) : Prop :=
  word = .notified ∨
    (∃ pc : WaitPc, calls = [.wait pc] ∧ pc.beforePoll) ∧ word ≠ .yielded ∧ word ≠ .suspending

structure Awake (v : View) (woken : Bool) : Prop where
  plain : ∀ calls, v.control = .body calls → Plain calls
  kept : woken = true → ∀ calls, v.control = .body calls → Waiting calls → Kept v.word calls

section

variable {n i : Nat} {who : Who n} {sh : Shared n} {next : Next n} {c : Call} {woken : Bool}

theorem not_waiting {calls : List Call} (h : ∀ c ∈ calls, c.isWait = false) : ¬ Waiting calls := by
  rintro ⟨pc, hpc⟩
  cases h _ hpc

theorem Kept.notified {word : FiberStatus} {calls : List Call} (h : Kept word calls)
    (hcalls : ∀ pc : WaitPc, calls = [.wait pc] → pc.beforePoll = false) : word = .notified := by
  rcases h with h | ⟨⟨pc, hpc, hb⟩, _⟩
  · exact h
  · rw [hcalls pc hpc] at hb
    cases hb

theorem beforePoll_eq_false {pc : WaitPc} (h : (Call.wait pc).isPoll) : pc.beforePoll = false := by
  cases pc <;> first | rfl | cases h

theorem WaitPc.run_kept {pc : WaitPc} (hr : pc.run i sh = some next)
    (hk : woken = true → Kept (sh.ctx i).state [.wait pc]) :
    Plain (next.calls []) ∧
      (noteWake (Call.wait pc).ownEvent woken = true → Waiting (next.calls []) →
        Kept (next.shared.ctx i).state (next.calls [])) := by
  -- past the poll, a wake since then can only be in the state word
  have hword (hpc : pc.beforePoll = false) (hw : woken = true) : (sh.ctx i).state = .notified := by
    refine (hk hw).notified fun pc' h => ?_
    cases h
    exact hpc
  have hfree : Plain [] := .free (by simp)
  have hnil : ¬ Waiting [] := by simp [Waiting]
  cases pc with
  | load =>
    have hnext (pc' : WaitPc) (hb : pc'.beforePoll) (hw : woken = true) :
        Kept (sh.ctx i).state [.wait pc'] :=
      (hk hw).imp_right fun h => ⟨⟨pc', rfl, hb⟩, h.2⟩
    simp only [WaitPc.run] at hr
    split at hr
    · cases hr
      exact ⟨.wait _, fun hw _ => hnext .callPoll rfl hw⟩
    · cases hr
      exact ⟨.wait _, fun hw _ => hnext .store rfl hw⟩
  | store =>
    cases hr
    refine ⟨.wait _, fun _ _ => Or.inr ⟨⟨.callPoll, rfl, rfl⟩, ?_⟩⟩
    simp [Next.shared]
  | callPoll =>
    cases hr
    exact ⟨.wait _, by rintro ⟨⟩⟩
  | polling | spinPolling k cs fc => cases hr
  | reward | spinReward cs fc =>
    cases hr
    exact ⟨hfree, fun _ h => absurd h hnil⟩
  | pending | switch =>
    cases hr
    exact ⟨.wait _, fun hw _ => Or.inl (hword rfl hw)⟩
  | spin k cs fc =>
    simp only [WaitPc.run] at hr
    split at hr
    · next hlt =>
      split at hr
      · next hpoll =>
        cases hr
        refine ⟨.wait _, fun hw => ?_⟩
        simp [Call.ownEvent, noteWake, hlt, hpoll] at hw
      · next hpoll =>
        cases hr
        refine ⟨.wait _, fun hw _ => Or.inl (hword rfl ?_)⟩
        simpa [Call.ownEvent, noteWake, hpoll] using hw
    · next hlt =>
      cases hr
      refine ⟨.wait _, fun hw _ => Or.inl (hword rfl ?_)⟩
      simpa [Call.ownEvent, noteWake, hlt] using hw
  | penalize cs fc =>
    cases hr
    exact ⟨.wait _, fun hw _ => Or.inl ((sh.setSpin_state i i _ _).trans (hword rfl hw))⟩
  | cas =>
    simp only [WaitPc.run] at hr
    split at hr
    · -- the exchange finds no wake
      next hrun =>
      cases hr
      refine ⟨.wait _, fun hw _ => ?_⟩
      cases hrun.symm.trans (hword rfl hw)
    · cases hr
      exact ⟨.wait _, fun hw _ => Or.inl (hword rfl hw)⟩

theorem Call.brief_isWait (h : c.brief) : c.isWait = false := by
  cases c <;> first | rfl | cases h

theorem unwind_brief {above : List Call} {pc : WaitPc} (h : ∀ c ∈ above, c.brief)
    (hpc : (Call.wait pc).isPoll) : unwind (above ++ [.wait pc]) = [.wait pc] := by
  induction above with
  | nil => simp [unwind, hpc]
  | cons c above ih =>
    have hc : c.isPoll = false := by
      have hb := h c (by simp)
      cases c <;> first | rfl | cases hb
    have ih := ih fun c hc => h c (by simp [hc])
    simp only [unwind] at ih ⊢
    rw [List.cons_append, List.dropWhile_cons_of_pos (by simp [hc]), ih]

variable [NeZero n]

theorem Call.run_free (hc : c.isWait = false) (hr : c.run who sh = some next) :
    ∀ c' ∈ next.own, c'.isWait = false := by
  intro c' hc'
  cases (Call.run_follows hr).follows hc' with
  | wait => cases hc
  | _ => rfl

theorem Call.run_poll {above : List Call} {pc : WaitPc} (hc : c.brief) (hspawn : i ∉ c.spawns)
    (hr : c.run who sh = some next) (habove : ∀ c ∈ above, c.brief)
    (hpc : (Call.wait pc).isPoll)
    (hk : woken = true → Kept (sh.ctx i).state (c :: (above ++ [.wait pc]))) :
    Plain (next.calls (above ++ [.wait pc])) ∧
      (noteWake ((c.wakeEvent i).or c.ownEvent) woken = true →
        (next.shared.ctx i).state = .notified) := by
  obtain ⟨hstate, hown⟩ := Call.run_brief hc hspawn hr
  refine ⟨?_, fun hw => ?_⟩
  · have happ (calls : List Call) (h : ∀ c ∈ calls, c.brief) :
        Plain (calls ++ (above ++ [.wait pc])) := by
      rw [← List.append_assoc]
      refine .poll (fun c hc => ?_) hpc
      exact (List.mem_append.mp hc).elim (h c) (habove c)
    cases next with
    | goto calls sh | switch calls sh => exact happ calls hown
    | panic sh =>
      rw [Next.calls, unwind_brief habove hpc]
      exact .wait pc
  · cases hwake : c.wakeEvent i with
    | some e =>
      rw [(Call.run_wake hwake hr).2]
      exact sh.setState_self i _
    | none =>
      have hown : c.ownEvent = none := by cases c <;> first | rfl | cases hc
      rw [hwake, hown] at hw
      have hnot := (hk hw).notified fun pc' h => by simp at h
      rcases hstate with he | he
      · rw [he, hnot]
      · exact he

end

/-! ### User code -/

section

variable {u : UserAct} {c : Control} {calls : List Call}

theorem Plain.inUser (h : Plain calls) (hu : inUser calls) :
    calls = [] ∨ ∃ pc, calls = [.wait pc] ∧ (Call.wait pc).isPoll := by
  have hpoll {c : Call} {rest : List Call} (hc : c.isWait = false)
      (hu : Runtime.inUser (c :: rest)) : False := by
    cases c with
    | wait pc => cases hc
    | _ => cases hu
  cases h with
  | free hfree =>
    cases calls with
    | nil => exact Or.inl rfl
    | cons c rest => exact (hpoll (hfree c (by simp)) hu).elim
  | wait pc => exact Or.inr ⟨pc, rfl, hu⟩
  | @poll above pc habove hpc =>
    cases above with
    | nil => exact Or.inr ⟨pc, rfl, hpc⟩
    | cons c above => exact (hpoll (Call.brief_isWait (habove c (by simp))) hu).elim

theorem UserAct.onFiber_nil (h : u.onFiber [] = some c) :
    c = .body [.wait .load] ∨ ∀ calls, c = .body calls → ∀ c' ∈ calls, c'.isWait = false := by
  cases u with
  | wait =>
    cases h
    exact Or.inl rfl
  | pollReady | pollPending => cases h
  | finish | panic =>
    cases h
    exact Or.inr nofun
  | _ =>
    cases h
    refine Or.inr ?_
    rintro _ ⟨⟩
    simp [Call.isWait]

theorem UserAct.onFiber_poll {pc : WaitPc} (hpc : (Call.wait pc).isPoll) (hu : u.suspends = false)
    (h : u.onFiber [.wait pc] = some c) : ∃ calls, c = .body calls ∧ Plain calls := by
  cases u with
  | wake i route =>
    cases h
    have hplain : Plain ([.wake i route] ++ [.wait pc]) := .poll (by simp [Call.brief]) hpc
    exact ⟨_, rfl, hplain⟩
  | spawn l core =>
    cases h
    have hplain : Plain ([.spawn l core .alloc] ++ [.wait pc]) := .poll (by simp [Call.brief]) hpc
    exact ⟨_, rfl, hplain⟩
  | pollReady | pollPending =>
    simp only [UserAct.onFiber] at h
    split at h <;> cases h <;> (rename_i heq; cases heq; exact ⟨_, rfl, .wait _⟩)
  | finish => cases h
  | panic =>
    cases h
    exact ⟨_, rfl, .free (by simp [unwind])⟩
  | _ => cases hu

theorem noteWake_user (calls : List Call) (u : UserAct) (woken : Bool) :
    noteWake (u.event calls) woken = woken := by
  simp only [UserAct.event]
  split <;> rfl

end

namespace Awake

variable {n i : Nat} [NeZero n] {v v' : View} {e : Option Event} {woken : Bool}

theorem user_step {word : FiberStatus} {calls : List Call} {u : UserAct} {c : Control}
    (hd : Discipline ⟨word, .body calls, .on .running⟩)
    (h : Awake ⟨word, .body calls, .on .running⟩ woken) (hu : inUser calls)
    (hcall : u.onFiber calls = some c) (hnest : u.event calls ≠ some .nest) :
    Awake ⟨word, c, .on .running⟩ woken := by
  rcases (h.plain calls rfl).inUser hu with rfl | ⟨pc, rfl, hpc⟩
  · rcases UserAct.onFiber_nil hcall with rfl | hfree
    · refine ⟨?_, fun _ => ?_⟩
      · rintro _ ⟨⟩
        exact .wait _
      · rintro _ ⟨⟩ _
        exact Or.inr ⟨⟨.load, rfl, rfl⟩, hd.running (Discipline.not_atSwitch hu)⟩
    · exact ⟨fun calls hc => .free (hfree calls hc),
        fun _ calls hc hw => absurd hw (not_waiting (hfree calls hc))⟩
  · have hs : u.suspends = false := by simpa [UserAct.event] using hnest
    obtain ⟨calls, rfl, hplain⟩ := UserAct.onFiber_poll hpc hs hcall
    refine ⟨?_, fun hw => ?_⟩
    · rintro _ ⟨⟩
      exact hplain
    · rintro _ ⟨⟩ _
      refine Or.inl ((h.kept hw _ rfl ⟨pc, by simp⟩).notified fun pc' hpc' => ?_)
      cases hpc'
      exact beforePoll_eq_false hpc

theorem body_step {word : FiberStatus} {c : Call} {rest : List Call} {who : Who n} {sh : Shared n}
    {next : Next n} (h : Awake ⟨word, .body (c :: rest), .on .running⟩ woken)
    (hself : who.fiber = some i) (hw : word = (sh.ctx i).state) (hspawn : i ∉ c.spawns)
    (hr : c.run who sh = some next) :
    Awake ⟨(next.shared.ctx i).state, .body (next.calls rest), .on next.stage⟩
      (noteWake ((c.wakeEvent i).or c.ownEvent) woken) := by
  subst hw
  have hloop (pc : WaitPc) (hc : c = .wait pc) (hrest : rest = []) :
      Awake ⟨(next.shared.ctx i).state, .body (next.calls rest), .on next.stage⟩
        (noteWake ((c.wakeEvent i).or c.ownEvent) woken) := by
    subst hc hrest
    simp only [Call.run, hself, Option.bind_some] at hr
    obtain ⟨hplain, hkept⟩ :=
      WaitPc.run_kept hr fun hw => h.kept hw _ rfl ⟨pc, by simp⟩
    refine ⟨?_, fun hw => ?_⟩
    · rintro _ ⟨⟩
      exact hplain
    · rintro _ ⟨⟩ hwait
      exact hkept hw hwait
  have hkept := fun hw : woken = true => h.kept hw _ rfl
  generalize hcalls : c :: rest = calls at hkept
  have hplain := h.plain _ rfl
  rw [hcalls] at hplain
  cases hplain with
  | free hfree =>
    subst hcalls
    have hnext : ∀ c' ∈ next.calls rest, c'.isWait = false := fun c' hc' =>
      (Next.mem_calls hc').elim (Call.run_free (hfree c (by simp)) hr c')
        fun h => hfree c' (by simp [h])
    refine ⟨?_, fun _ => ?_⟩
    · rintro _ ⟨⟩
      exact .free hnext
    · rintro _ ⟨⟩ hwait
      exact absurd hwait (not_waiting hnext)
  | wait pc =>
    cases hcalls
    exact hloop pc rfl rfl
  | @poll above pc habove hpc =>
    cases above with
    | nil =>
      cases hcalls
      exact hloop pc rfl rfl
    | cons c' above =>
      cases hcalls
      obtain ⟨hplain, hnot⟩ := Call.run_poll (habove _ (by simp)) hspawn hr
        (fun c hc => habove c (by simp [hc])) hpc
        fun hw => hkept hw ⟨pc, by simp⟩
      refine ⟨?_, fun hw => ?_⟩
      · rintro _ ⟨⟩
        exact hplain
      · rintro _ ⟨⟩ _
        exact Or.inl (hnot hw)

/-- The moves of a fiber whose polls do not suspend it lose no wake. -/
theorem step (hd : Discipline v) (h : Awake v woken) (hm : Moves n i v e v')
    (hnest : e ≠ some .nest) : Awake v' (noteWake e woken) := by
  cases hm with
  | other => exact h
  | wake => exact ⟨h.plain, fun _ _ _ _ => Or.inl rfl⟩
  | start _ =>
    refine ⟨?_, fun _ => ?_⟩
    · rintro _ ⟨⟩
      exact .free (by simp)
    · rintro _ ⟨⟩ hw
      exact absurd hw (not_waiting (by simp))
  | user hu hcall =>
    rw [noteWake_user]
    exact user_step hd h hu hcall hnest
  | body hself hw hspawn hr => exact h.body_step hself hw hspawn hr
  | late | finish | waiter | leave => exact ⟨nofun, fun _ => nofun⟩
  | park =>
    -- the worker's exchange finds `Suspending`, so there was no wake
    refine ⟨h.plain, fun hw calls hc hwait => ?_⟩
    rcases h.kept hw calls hc hwait with hk | ⟨_, _, hk⟩
    · cases hk
    · exact absurd rfl hk
  | freeState =>
    refine ⟨h.plain, fun _ calls hc => ?_⟩
    have hbody := hd.freeing rfl
    rw [hc] at hbody
    cases hbody
  | _ => exact ⟨h.plain, h.kept⟩

end Awake

/-! ## Runs -/

namespace Machine

variable {n cap hosts : Nat} [NeZero n] {rt : Machine n cap hosts} {i : Fin cap} {woken : Bool}

/-- **No lost wakeup.** For every interleaving of a `wait_pinned` loop, whose polls
do not suspend the fiber themselves, with the worker, with any number of wakes and
with everything else: if a wake has taken effect since the latest poll of the fiber
began, then the fiber is neither parked nor about to be. -/
theorem no_lost_wakeup {tr : List (Act n hosts)} {calls : List Call}
    (h : Run (initHist Initial false) (recording i noteWake)
      (fun p a => p.1.event i a ≠ some .nest) tr (rt, woken))
    (hloop : rt.shared.fibers i = .body calls) (hwait : Waiting calls) (hwoken : woken = true) :
    (rt.shared.ctx i).state ≠ .yielded ∧ (rt.shared.ctx i).state ≠ .suspending := by
  have hinit : Discipline ⟨.initial, .none, .out⟩ ∧ Awake ⟨.initial, .none, .out⟩ false :=
    ⟨⟨nofun, nofun, nofun, nofun, nofun⟩, ⟨nofun, nofun⟩⟩
  obtain ⟨_, seat, _, _, hJ⟩ := recording_invariant
    (J := fun v woken => Discipline v ∧ Awake v woken) (fun rt a => rt.event i a ≠ some .nest) hinit
    (fun _ _ _ _ _ _ _ hok hJ hm => ⟨hJ.1.step hm, hJ.2.step hJ.1 hm hok⟩) h
  rcases hJ.kept hwoken calls hloop hwait with hk | ⟨_, hk⟩
  · have hk : (rt.shared.ctx i).state = .notified := hk
    simp [hk]
  · exact hk

/-- A host spawns a fiber, which waits for a future that is not ready. -/
def waitPending : List (Act 1 1) :=
  [.user (.host 0) (.spawn .withStack 0), .run (.host 0), .run (.host 0), .run (.host 0), .poll 0,
    .dispatch 0, .user (.fiber 0) .wait, .run (.fiber 0), .run (.fiber 0),
    .user (.fiber 0) .pollPending, .run (.fiber 0)]

/-- The fiber goes through the spin window of a new context in vain. -/
def spinInVain : List (Act 1 1) :=
  (List.range 50).flatMap fun k =>
    if k % 8 = 0 ∨ k = 49 then [.run (.fiber 0), .user (.fiber 0) .pollPending]
    else [.run (.fiber 0)]

/-- The fiber suspends, and the worker is about to park it when the host wakes it. -/
def wakeBeforePark : List (Act 1 1) :=
  waitPending ++ (spinInVain ++ [.run (.fiber 0), .run (.fiber 0), .run (.fiber 0), .run (.fiber 0),
    .settle 0, .user (.host 0) (.wake 0 none), .run (.host 0)])

theorem no_lost_wakeup_before_park : ∃ rt : Machine 1 1 1,
    Run (initHist Initial false) (recording 0 noteWake) (fun p a => p.1.event 0 a ≠ some .nest)
      wakeBeforePark.reverse (rt, true) ∧
    rt.workers 0 = .on .parkCas 0 ∧ (rt.shared.ctx 0).state ≠ .yielded ∧
    (rt.shared.ctx 0).state ≠ .suspending := by
  obtain ⟨⟨rt, woken⟩, h, rfl, hworker, hfiber⟩ : ∃ p : Machine 1 1 1 × Bool,
      Run (initHist Initial false) (recording 0 noteWake) (fun p a => p.1.event 0 a ≠ some .nest)
        wakeBeforePark.reverse p ∧ p.2 = true ∧ p.1.workers 0 = .on .parkCas 0 ∧
        p.1.shared.fibers 0 = .body [.wait .load] :=
    Run.exists_of_guarded wakeBeforePark (new 1 1 1 .p2pMesh, false) ⟨⟨.p2pMesh, rfl⟩, rfl⟩
      (by decide +kernel)
  exact ⟨rt, h, hworker, no_lost_wakeup h hfiber ⟨.load, by simp⟩ rfl⟩

end Machine

end Dtact.Runtime
