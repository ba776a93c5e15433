import Dtact.Runtime.FiberView

/-!
# Reclaiming finished fibers

A fiber that is done stores `Finished`, wakes its waiter and switches away; the worker inspects the
state word and frees the context. Every wake overwrites the word.
-/

namespace Dtact.Runtime

open Scheduler Transition

/-- How often the fibers of a context have stored `Finished` and how often the
context has been freed. -/
structure Counts where
  finished : Nat
  freed : Nat
deriving DecidableEq

def Counts.record (e : Option Event) (k : Counts) : Counts :=
  match e with
  | some .finish => { k with finished := k.finished + 1 }
  | some .free => { k with freed := k.freed + 1 }
  | _ => k

namespace Machine

variable {n cap hosts : Nat}

/-- The action does not overwrite `Finished`: no wake of `i` takes effect between
the store and the call of `free_context`, and the epilogue does not go into
`backpressure_yield`. -/
def Undisturbed (rt : Machine n cap hosts) (i : Fin cap) (a : Act n hosts) : Prop :=
  (rt.event i a = some .wake → (rt.shared.ctx i).state = .finished →
    ∃ w, rt.workers w = .on .freeState i) ∧
  rt.event i a ≠ some .stall

instance (rt : Machine n cap hosts) (i : Fin cap) (a : Act n hosts) :
    Decidable (rt.Undisturbed i a) :=
  inferInstanceAs (Decidable (_ ∧ _))

/-- A finished fiber on its way to the free list: it is in no queue, exactly one
worker has it, the fiber runs nothing but its epilogue, the worker never pushes it
again, and its inspection calls `free_context`. -/
structure Reclaiming (rt : Machine n cap hosts) (i : Fin cap) : Prop where
  unqueued : rt.shared.sched.held.count i.val = 0
  one : executing rt.workers i = 1
  epilogue : ∀ w, rt.workers w = .on .running i →
    ∃ pc calls, rt.shared.fibers i = .epilogue pc calls
  stage : ∀ w stage, rt.workers w = .on stage i → stage ≠ .parkCas ∧ stage ≠ .requeue
  inspected : ∀ w, rt.workers w = .on .inspect i →
    rt.settle w i .inspect = some (rt.setWorker w (.on .freeState i))

end Machine

/-! ## What the moves do -/

/-- The calls the epilogue makes for the waiter. -/
def Call.notifies : Call → Bool
  | .wake _ _ => true
  | .wakeFiber _ _ _ _ pc => pc ≠ .switch
  | _ => false

section

variable {n i : Nat} {who : Who n} {sh : Shared n} {c : Call} {next : Next n}

variable [NeZero n]

/-- A call for the waiter that neither wakes the fiber itself nor goes into
`backpressure_yield` leaves its state word alone and does not switch. -/
theorem Call.run_notifies (hc : c.notifies) (hr : c.run who sh = some next) (hp : ¬ next.isPanic)
    (hwake : c.wakeEvent i = none) {pc : EpiloguePc} {rest : List Call}
    (hstall : (Control.epilogue pc (c :: rest)).ownEvent ≠ some .stall) :
    (next.shared.ctx i).state = (sh.ctx i).state ∧ next.stage = .running ∧
      ∀ c' ∈ next.calls rest, c' ∈ rest ∨ c'.notifies := by
  cases c with
  | wake j route =>
    have hne : i ≠ j := by
      rintro rfl
      simp [Call.wakeEvent] at hwake
    simp only [Call.run] at hr
    split at hr
    · cases hr
      refine ⟨by rw [Next.shared, sh.setState_ne hne], rfl, ?_⟩
      simp only [Next.calls, List.singleton_append, List.mem_cons]
      rintro c' (rfl | hc')
      · exact Or.inr rfl
      · exact Or.inl hc'
    · cases hr
      exact ⟨by rw [Next.shared, sh.setState_ne hne], rfl, fun c' hc' => Or.inl hc'⟩
  | wakeFiber origin j pinned affinity epc =>
    cases epc with
    | enqueue =>
      simp only [Call.run, EnqueuePc.run] at hr
      split at hr
      · cases hr
        exact ⟨rfl, rfl, fun c' hc' => Or.inl hc'⟩
      · cases hr
        refine ⟨rfl, rfl, ?_⟩
        simp only [Next.calls, List.singleton_append, List.mem_cons]
        rintro c' (rfl | hc')
        · refine Or.inr ?_
          simp only [Call.notifies]
          split <;> rfl
        · exact Or.inl hc'
      · cases hr
        exact absurd rfl hp
    | store => cases pc <;> exact absurd rfl hstall
    | switch => cases hc
  | _ => cases hc

end

/-- The fiber has not stored `Finished` yet. -/
def Control.early : Control → Bool
  | .body _ => true
  | .epilogue .finish [] => true
  | _ => false

theorem UserAct.onFiber_early {u : UserAct} {calls : List Call} {c : Control}
    (h : u.onFiber calls = some c) : c.early := by
  rcases UserAct.onFiber_control h with ⟨_, rfl⟩ | rfl <;> rfl

theorem Counts.record_call (k : Counts) (i : Nat) (c : Call) :
    k.record ((c.wakeEvent i).or c.ownEvent) = k := by
  cases c with
  | wake j route =>
    simp only [Call.wakeEvent]
    split <;> rfl
  | wait pc =>
    cases pc with
    | spin m cs fc =>
      simp only [Call.wakeEvent, Call.ownEvent]
      split <;> rfl
    | _ => rfl
  | _ => rfl

theorem Counts.record_late (k : Counts) (pc : EpiloguePc) (c : Call) (rest : List Call) :
    k.record (Control.epilogue pc (c :: rest)).ownEvent = k := by
  simp only [Control.ownEvent]
  split
  · next h => cases h
  · next h => cases h
  · rfl
  · rfl

theorem Counts.record_user (k : Counts) (calls : List Call) (u : UserAct) :
    k.record (u.event calls) = k := by
  simp only [UserAct.event]
  split <;> rfl

/-! ## The phases of a fiber -/

def Seat.freeing : Seat → Bool
  | .on .freeState => true
  | .on .freeGen => true
  | .on .freePush => true
  | _ => false

/-- A fiber that is not done, or one on its way to the free list. -/
inductive Reclaim : View → Counts → Prop
  | alive {word : FiberStatus} {control : Control} {seat : Seat} {k : Counts} :
      word ≠ .finished → word ≠ .panicked → seat.freeing = false →
      seat = .out ∨ control.early → k.finished = k.freed → Reclaim ⟨word, control, seat⟩ k
  | epilogue {pc : EpiloguePc} {calls : List Call} {k : Counts} : pc = .waiter ∨ pc = .switch →
      (∀ c ∈ calls, c.notifies) → k.finished = k.freed + 1 →
      Reclaim ⟨.finished, .epilogue pc calls, .on .running⟩ k
  | returned {k : Counts} : k.finished = k.freed + 1 →
      Reclaim ⟨.finished, .epilogue .returned [], .on .inspect⟩ k
  | freeState {word : FiberStatus} {control : Control} {k : Counts} : k.finished = k.freed + 1 →
      Reclaim ⟨word, control, .on .freeState⟩ k
  | freeing {word : FiberStatus} {control : Control} {stage : Stage} {k : Counts} :
      stage = .freeGen ∨ stage = .freePush → word ≠ .finished → word ≠ .panicked →
      k.finished = k.freed + 1 → Reclaim ⟨word, control, .on stage⟩ k

namespace Reclaim

variable {n i : Nat} [NeZero n] {v v' : View} {e : Option Event} {k : Counts}

theorem alive_step {word : FiberStatus} {control : Control} {seat : Seat} (hf : word ≠ .finished)
    (hp : word ≠ .panicked) (hs : seat.freeing = false)
    (hc : seat = .out ∨ control.early) (hk : k.finished = k.freed)
    (hm : Moves n i ⟨word, control, seat⟩ e v') :
    Reclaim v' (k.record e) := by
  cases hm with
  | other => exact .alive hf hp hs hc hk
  | wake => exact .alive (by simp) (by simp) hs hc hk
  | start _ => exact .alive (by simp) (by simp) rfl (Or.inr rfl) hk
  | dispatch _ | inspect | requeue => exact .alive hf hp rfl (Or.inr (hc.resolve_left nofun)) hk
  | user _ hu =>
    rw [Counts.record_user]
    exact .alive hf hp rfl (Or.inr (UserAct.onFiber_early hu)) hk
  | @body _ c rest who sh next _ hw hspawn hr =>
    rw [Counts.record_call]
    have hstage : (Seat.on next.stage).freeing = false := by cases next <;> rfl
    rcases (Call.run_does hr).own_state hspawn with he | ha
    · rw [he, ← hw]
      exact .alive hf hp hstage (Or.inr rfl) hk
    · refine .alive ?_ ?_ hstage (Or.inr rfl) hk <;> (rcases ha with he | he | he <;> simp [he])
  | @late _ pc _ _ _ _ _ _ _ _ _ _ => cases pc <;> cases hc.resolve_left nofun
  | finish => exact .epilogue (Or.inl rfl) (by simp) (by simp [Counts.record, hk])
  | waiter | leave => cases hc.resolve_left nofun
  | after _ _ =>
    simp only [Seat.after, hf, hp, or_self, if_false]
    split <;> exact .alive hf hp rfl (Or.inr (hc.resolve_left nofun)) hk
  | park => exact .alive (by simp) (by simp) rfl (Or.inr (hc.resolve_left nofun)) hk
  | freeState | freeGen | freePush => cases hs

theorem epilogue_step {pc : EpiloguePc} {calls : List Call} (hpc : pc = .waiter ∨ pc = .switch)
    (hcalls : ∀ c ∈ calls, c.notifies) (hk : k.finished = k.freed + 1)
    (hm : Moves n i ⟨.finished, .epilogue pc calls, .on .running⟩ e v')
    (hwake : e ≠ some .wake) (hstall : e ≠ some .stall) : Reclaim v' (k.record e) := by
  cases hm with
  | other => exact .epilogue hpc hcalls hk
  | wake => exact absurd rfl hwake
  | start h => simp at h
  | @late _ _ c rest who sh next _ hw _ hr hp =>
    have hnone : c.wakeEvent i = none := by
      cases c with
      | wake j route =>
        simp only [Call.wakeEvent] at hwake ⊢
        split
        · next hj => simp [hj] at hwake
        · rfl
      | _ => rfl
    rw [hnone, Option.none_or] at hstall ⊢
    obtain ⟨hstate, hstage, hown⟩ :=
      Call.run_notifies (hcalls c (by simp)) hr hp hnone hstall
    rw [Counts.record_late, hstate, ← hw, hstage]
    refine .epilogue hpc (fun c' hc' => ?_) hk
    rcases hown c' hc' with h | h
    · exact hcalls c' (by simp [h])
    · exact h
  | finish => simp at hpc
  | waiter packed =>
    refine .epilogue (Or.inr rfl) (fun c hc => ?_) hk
    simp only [Machine.waiterCalls] at hc
    split at hc
    · simp at hc
    · simp only [List.mem_singleton] at hc
      rw [hc]
      rfl
  | leave => exact .returned hk
  | after h _ => simp at h

omit [NeZero n] in
theorem counts (h : Reclaim v k) : k.freed ≤ k.finished ∧ k.finished ≤ k.freed + 1 := by
  cases h <;> omega

theorem step (h : Reclaim v k) (hm : Moves n i v e v')
    (hwake : e = some .wake → v.word = .finished → v.seat = .on .freeState)
    (hstall : e ≠ some .stall) : Reclaim v' (k.record e) := by
  cases h with
  | alive hf hp hs hc hk => exact alive_step hf hp hs hc hk hm
  | epilogue hpc hcalls hk =>
    exact epilogue_step hpc hcalls hk hm (fun he => by simpa using hwake he rfl) hstall
  | returned hk =>
    cases hm with
    | other => exact .returned hk
    | wake => simpa using hwake rfl rfl
    | start h => simp at h
    | after _ _ => exact .freeState hk
  | freeState hk =>
    cases hm with
    | other | wake => exact .freeState hk
    | start h | after h _ => simp at h
    | freeState => exact .freeing (Or.inl rfl) (by simp) (by simp) hk
  | freeing hstage hf hp hk =>
    cases hm with
    | other => exact .freeing hstage hf hp hk
    | wake => exact .freeing hstage (by simp) (by simp) hk
    | start h => simp at h
    | freeGen => exact .freeing (Or.inr rfl) hf hp hk
    | freePush => exact .alive hf hp rfl (Or.inl rfl) (by simp [Counts.record, hk])
    | after h _ => rcases hstage with rfl | rfl <;> simp at h
    | _ => simp at hstage

end Reclaim

/-! ## Runs -/

namespace Machine

variable {n cap hosts : Nat} {rt : Machine n cap hosts} {i : Fin cap} {k : Counts}

theorem reclaiming_of_phase {seat : Seat} (hle : rt.live i ≤ 1) (hseat : rt.SeatAt i seat)
    (h : Reclaim (rt.view i seat) k) (hk : k.finished = k.freed + 1) : rt.Reclaiming i := by
  -- the seat is with the worker `w` at some stage, and that is the only claim
  have hof {stage : Stage} (hs : seat = .on stage)
      (hfin : stage = .inspect → (rt.shared.ctx i).state = .finished)
      (hepi : stage = .running → ∃ pc calls, rt.shared.fibers i = .epilogue pc calls)
      (hstage : stage ≠ .parkCas ∧ stage ≠ .requeue) : rt.Reclaiming i := by
    subst hs
    obtain ⟨w, hw⟩ := hseat
    have hpos := executing_pos hw
    have honly {w' : Fin n} {stage' : Stage} (hw' : rt.workers w' = .on stage' i) :
        stage' = stage := by
      rw [worker_unique hle hw hw', hw] at hw'
      cases hw'
      rfl
    simp only [live] at hle
    refine ⟨by omega, by omega, fun w' hw' => hepi (honly hw').symm, fun w' stage' hw' => ?_,
      fun w' hw' => ?_⟩
    · rw [honly hw']
      exact hstage
    · have hword := hfin (honly hw').symm
      simp [Machine.settle, afterSwitch, hword]
  unfold view at h
  generalize hword : (rt.shared.ctx i).state = word at h
  generalize hcontrol : rt.shared.fibers i = control at h
  cases h with
  | alive _ _ _ _ hk' => omega
  | epilogue _ _ _ => exact hof rfl (by rintro ⟨⟩) (fun _ => ⟨_, _, hcontrol⟩) (by simp)
  | returned _ => exact hof rfl (fun _ => hword) (by rintro ⟨⟩) (by simp)
  | freeState _ => exact hof rfl (by rintro ⟨⟩) (by rintro ⟨⟩) (by simp)
  | freeing hstage _ _ _ =>
    rcases hstage with rfl | rfl <;> exact hof rfl (by rintro ⟨⟩) (by rintro ⟨⟩) (by simp)

variable [NeZero n]

/-- **Finished fibers are reclaimed exactly once**, in every run in which nobody
overwrites `Finished` before the worker has called `free_context`: between two
stores of `Finished` the context is freed once, it is never freed otherwise, and
from the store until it is on the free list it is in no queue. -/
theorem finished_reclaimed_once {tr : List (Act n hosts)}
    (h : Run (initHist Initial ⟨0, 0⟩) (recording i Counts.record)
      (fun p a => p.1.Undisturbed i a) tr (rt, k)) :
    k.freed ≤ k.finished ∧ k.finished ≤ k.freed + 1 ∧
    (k.finished = k.freed + 1 → rt.Reclaiming i) := by
  have hinit : Reclaim ⟨.initial, .none, .out⟩ ⟨0, 0⟩ :=
    .alive (by simp) (by simp) rfl (Or.inl rfl) rfl
  have hstep (rt : Machine n cap hosts) (a : Act n hosts) (seat : Seat) (v' : View) (x : Counts)
      (hle : rt.live i ≤ 1) (hseat : rt.SeatAt i seat) (hok : rt.Undisturbed i a)
      (hJ : Reclaim (rt.view i seat) x) (hm : Moves n i (rt.view i seat) (rt.event i a) v') :
      Reclaim v' (x.record (rt.event i a)) := by
    refine hJ.step hm (fun he hword => ?_) hok.2
    obtain ⟨w, hw⟩ := hok.1 he hword
    exact hseat.eq_on hle hw
  obtain ⟨hle, seat, hseat, hJ⟩ :=
    recording_invariant (fun rt a => rt.Undisturbed i a) hinit hstep h
  exact ⟨hJ.counts.1, hJ.counts.2,
    reclaiming_of_phase ((Nat.le_add_right _ _).trans hle) hseat hJ⟩

/-- A host spawns a future that is ready at its first poll, and the fiber returns. -/
def spawnAndReturn : List (Act 1 1) :=
  [.user (.host 0) (.spawn (.builder false .p2pMesh .any .io) 0), .run (.host 0), .run (.host 0),
    .run (.host 0), .poll 0, .dispatch 0, .user (.fiber 0) .wait, .run (.fiber 0),
    .run (.fiber 0), .user (.fiber 0) .pollReady, .run (.fiber 0), .user (.fiber 0) .finish]

/-- The epilogue, and the inspection that calls `free_context`. -/
def returnAndFree : List (Act 1 1) :=
  spawnAndReturn ++ [.run (.fiber 0), .run (.fiber 0), .run (.fiber 0), .settle 0]

theorem finished_reclaimed_once_one : ∃ rt : Machine 1 1 1,
    Run (initHist Initial ⟨0, 0⟩) (recording 0 Counts.record) (fun p a => p.1.Undisturbed 0 a)
      returnAndFree.reverse (rt, ⟨1, 0⟩) ∧ rt.Reclaiming 0 := by
  obtain ⟨⟨rt, k⟩, h, rfl⟩ : ∃ p : Machine 1 1 1 × Counts, Run (initHist Initial ⟨0, 0⟩)
      (recording 0 Counts.record) (fun p a => p.1.Undisturbed 0 a) returnAndFree.reverse p ∧
        p.2 = ⟨1, 0⟩ :=
    Run.exists_of_guarded returnAndFree (new 1 1 1 .p2pMesh, ⟨0, 0⟩) ⟨⟨.p2pMesh, rfl⟩, rfl⟩
      (by decide +kernel)
  exact ⟨rt, h, (finished_reclaimed_once h).2.2 rfl⟩

/-- The fiber returns, and the host uses the waker the future has left it after
`Finished` has been stored and before the worker looks. -/
def staleWake : List (Act 1 1) :=
  spawnAndReturn ++ [.run (.fiber 0), .run (.fiber 0), .user (.host 0) (.wake 0 none),
    .run (.host 0), .run (.fiber 0), .settle 0, .settle 0]

/-- The finished fiber is back in a queue and its context is not freed. -/
theorem stale_wake_requeues : ∃ rt : Machine 1 1 1,
    Run (initHist Initial ⟨0, 0⟩) (recording 0 Counts.record) Free staleWake.reverse
      (rt, ⟨1, 0⟩) ∧ 0 ∈ rt.shared.sched.tasksAt (.queue 0) ∧ ¬ rt.Reclaiming 0 := by
  obtain ⟨⟨rt, k⟩, hrun, rfl, hmem⟩ : ∃ p : Machine 1 1 1 × Counts,
      Run (initHist Initial ⟨0, 0⟩) (recording 0 Counts.record) Free staleWake.reverse p ∧
        p.2 = ⟨1, 0⟩ ∧ 0 ∈ p.1.shared.sched.tasksAt (.queue 0) :=
    Run.exists_of_exec staleWake (new 1 1 1 .p2pMesh, ⟨0, 0⟩) ⟨⟨.p2pMesh, rfl⟩, rfl⟩
      (by decide +kernel)
  refine ⟨rt, hrun, hmem, fun hr => ?_⟩
  exact Multiset.count_eq_zero.mp hr.unqueued (Bags.mem_total hmem)

end Machine

end Dtact.Runtime
