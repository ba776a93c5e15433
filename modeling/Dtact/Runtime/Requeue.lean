import Dtact.Runtime.FiberView

/-!
# A notified fiber goes back to the queue

When a fiber switches back in state `Notified`, `dispatch_loop` pushes it to the local queue again,
and a push that fails loses the fiber. The slot that was freed when it was popped may have been
filled while it ran. What bounds the queue is the pool: no context is twice in a queue
(`claims_le`).
-/

namespace Dtact.Runtime

open Scheduler Transition

namespace Machine

section

variable {n cap hosts : Nat} [NeZero n] {rt : Machine n cap hosts}

/-- The tasks of a local queue and the one in the worker's hand are different contexts. -/
theorem contents_length_lt {tr : List (Act n hosts)} (h : Run Initial step Free tr rt) {w : Fin n}
    {stage : Stage} {i : Fin cap} (hw : rt.workers w = .on stage i) :
    (rt.shared.sched.workers w).localQueueLen < cap := by
  have hsub : (i.val :: (rt.shared.sched.workers w).localQueue.contents).Subperm
      (List.range cap) := by
    refine List.subperm_ext_iff.mpr fun j _ => ?_
    have hle := claims_le h j
    have hheld : (rt.shared.sched.workers w).localQueue.contents.count j ≤
        rt.shared.sched.held.count j := by
      rw [← Multiset.coe_count]
      exact Multiset.count_le_of_le j (Bags.le_total rt.shared.sched.tasksAt (.queue w))
    have hexec : (if i.val = j then 1 else 0) ≤ executing rt.workers j := by
      split
      · next heq =>
        subst heq
        exact executing_pos hw
      · exact Nat.zero_le _
    rw [List.count_cons]
    simp only [beq_iff_eq]
    unfold live at hle
    omega
  have hlen := hsub.length_le
  rw [List.length_cons, List.length_range] at hlen
  rw [DtaScheduler.localQueueLen_eq]
  exact hlen

/-- With a pool of at most 131071 contexts, the push of a fiber that was found in state `Notified`
succeeds. -/
theorem requeue_succeeds (hcap : cap ≤ 131071) {tr : List (Act n hosts)}
    (h : Run Initial step Free tr rt) {w : Fin n} {i : Fin cap}
    (hw : rt.workers w = .on .requeue i) :
    (rt.shared.sched.pushLocal w i).1 = true ∧
      i.val ∈ ((rt.shared.sched.pushLocal w i).2.workers w).localQueue.contents := by
  have hlt := contents_length_lt h hw
  have hroom : (rt.shared.sched.workers w).localQueueLen < localQueueCapacity - 1 :=
    hlt.trans_le hcap
  obtain ⟨sched, hpush, hd⟩ :=
    DtaScheduler.pushLocal_ok (s := rt.shared.sched) (t := i) (Nat.not_le_of_lt hroom)
  have hqueue : (sched.workers w).localQueue.contents = _ := congrFun hd.tasks (.queue w)
  rw [hpush, hqueue, Bags.put, Function.update_self]
  exact ⟨rfl, List.mem_append_right _ (List.mem_singleton_self _)⟩

end

/-! ## A queue that is full -/

section

variable {sh : Shared 1} {free : List Nat}

theorem run_alloc (who : Who 1) {i : Nat} (hfree : sh.free = i :: free) :
    (Call.spawn .fiberLaunch 0 .alloc).run who sh =
      some (.goto [.spawn .fiberLaunch 0 (.init i)] { sh with free }) := by
  simp only [Call.run, SpawnPc.run, hfree]

theorem start_ctx (i : Nat) : (Launch.fiberLaunch.start 0 i sh).ctx i =
    Launch.fiberLaunch.init sh.sched.topology 0 (sh.ctx i) := Function.update_self ..

theorem start_fibers (i : Nat) : (Launch.fiberLaunch.start 0 i sh).fibers i = .body [] :=
  Shared.setFiber_self ..

/-- A new fiber of `dtact_fiber_launch` is one for its own core. -/
theorem run_init (who : Who 1) (i : Nat) :
    (Call.spawn .fiberLaunch 0 (.init i)).run who sh =
      some (.goto [.wakeFiber 0 i true .sameCore .enqueue] (Launch.fiberLaunch.start 0 i sh)) := by
  simp only [Call.run, SpawnPc.run, Launch.core, Shared.wakeFiber, start_ctx]
  rfl

theorem run_enqueue (who : Who 1) {i : Nat} {sched : DtaScheduler 1}
    (hq : sh.sched.enqueuePinned who.current 0 i = (true, sched)) :
    (Call.wakeFiber 0 i true .sameCore .enqueue).run who sh =
      some (.goto [] { sh with sched }) := by
  simp only [Call.run, EnqueuePc.run, Shared.enqueue, if_true, hq]

theorem run_wake (who : Who 1) {i : Nat} {route : Option Nat} (h : (sh.ctx i).state ≠ .yielded) :
    (Call.wake i route).run who sh = some (.goto [] (sh.setState i .notified)) := if_neg h

theorem run_switch (who : Who 1) :
    (Call.yieldTo .switch).run who sh = some (.switch [] sh) := rfl

theorem awake_setState {s : FiberStatus} (hs : s ≠ .yielded)
    (h : ∀ j, (sh.ctx j).state ≠ .yielded) (i j : Nat) :
    ((sh.setState i s).ctx j).state ≠ .yielded := by
  by_cases hj : j = i
  · rwa [hj, sh.setState_self]
  · rw [sh.setState_ne hj]
    exact h j

theorem awake_start (h : ∀ j, (sh.ctx j).state ≠ .yielded) (i j : Nat) :
    ((Launch.fiberLaunch.start 0 i sh).ctx j).state ≠ .yielded := by
  by_cases hj : j = i
  · rw [hj, start_ctx]
    simp [Launch.init]
  · rw [show (Launch.fiberLaunch.start 0 i sh).ctx j = sh.ctx j from Function.update_of_ne hj ..]
    exact h j

end

section

variable {cap : Nat} {hcap : 0 < cap}

/-- Fiber 0 runs on the worker, in the calls `calls`, and `k` others are in the local queue. -/
structure Filled (hcap : 0 < cap) (calls : List Call) (free : List Nat) (k : Nat)
    (rt : Machine 1 cap 1) : Prop where
  alive : rt.aborted = false
  worker : rt.workers 0 = .on .running ⟨0, hcap⟩
  fiber : rt.shared.fibers 0 = .body calls
  host : rt.hosts 0 = []
  free : rt.shared.free = free
  len : (rt.shared.sched.workers 0).localQueueLen = k
  awake : ∀ j, (rt.shared.ctx j).state ≠ .yielded

namespace Filled

variable {calls : List Call} {free : List Nat} {k : Nat} {rt : Machine 1 cap 1}

theorem user (h : Filled hcap [] free k rt) {u : UserAct} (hu : u.onFiber [] = some (.body calls)) :
    ∃ rt', step (.user (.fiber 0) u) rt = some rt' ∧ Filled hcap calls free k rt' := by
  refine ⟨_, step_fiberUser h.alive h.worker h.fiber rfl hu, ?_⟩
  exact ⟨h.alive, h.worker, rt.shared.setFiber_self 0 _, h.host, h.free, h.len, h.awake⟩

theorem goto {c : Call} {rest : List Call} (h : Filled hcap (c :: rest) free k rt)
    (calls : List Call) {free' : List Nat} {k' : Nat} {sh : Shared 1}
    (hr : c.run ⟨some 0, .worker 0⟩ rt.shared = some (.goto calls sh)) (hfree : sh.free = free')
    (hlen : (sh.sched.workers 0).localQueueLen = k') (hawake : ∀ j, (sh.ctx j).state ≠ .yielded) :
    ∃ rt', step (.run (.fiber 0)) rt = some rt' ∧ Filled hcap (calls ++ rest) free' k' rt' := by
  refine ⟨_, step_body h.alive h.worker h.fiber hr, ?_⟩
  exact ⟨h.alive, Function.update_self 0 _ rt.workers, sh.setFiber_self 0 _, h.host, hfree, hlen,
    hawake⟩

theorem alloc {i : Nat} (h : Filled hcap [.spawn .fiberLaunch 0 .alloc] (i :: free) k rt) :
    ∃ rt', step (.run (.fiber 0)) rt = some rt' ∧
      Filled hcap [.spawn .fiberLaunch 0 (.init i)] free k rt' :=
  h.goto [_] (run_alloc _ h.free) rfl h.len h.awake

theorem init {i : Nat} (h : Filled hcap [.spawn .fiberLaunch 0 (.init i)] free k rt) :
    ∃ rt', step (.run (.fiber 0)) rt = some rt' ∧
      Filled hcap [.wakeFiber 0 i true .sameCore .enqueue] free k rt' :=
  h.goto [_] (run_init _ i) h.free h.len (awake_start h.awake i)

theorem enqueue {i : Nat} (h : Filled hcap [.wakeFiber 0 i true .sameCore .enqueue] free k rt)
    (hk : k < 131071) :
    ∃ rt', step (.run (.fiber 0)) rt = some rt' ∧ Filled hcap [] free (k + 1) rt' := by
  have hroom : (rt.shared.sched.workers 0).localQueueLen < localQueueCapacity - 1 := by
    rw [h.len]
    exact hk
  have hpush : rt.shared.sched.enqueuePinned (.worker 0) 0 i =
      (true, rt.shared.sched.setQueue 0 ((rt.shared.sched.workers 0).localQueue.push i)) :=
    DtaScheduler.pushLocal_room (Nat.not_le_of_lt hroom)
  refine h.goto [] (run_enqueue _ hpush) h.free ?_ h.awake
  have hlen := (rt.shared.sched.workers 0).localQueue.len_push i
    (show (rt.shared.sched.workers 0).localQueueLen + 1 < _ by omega)
  show (((rt.shared.sched.setQueue 0 _).workers 0).localQueue).len = _
  rw [DtaScheduler.localQueue_setQueue, hlen]
  exact congrArg (· + 1) h.len

end Filled

variable {free : List Nat} {k : Nat} {rt : Machine 1 cap 1} {tr : List (Act 1 1)}

theorem Filled.launch {i : Nat} (hrun : Run Initial step Free tr rt)
    (h : Filled hcap [] (i :: free) k rt) (hk : k < 131071) :
    ∃ tr rt, Run Initial step Free tr rt ∧ Filled hcap [] free (k + 1) rt := by
  obtain ⟨rt₁, h₁, hf₁⟩ := h.user (u := .spawn .fiberLaunch 0) rfl
  obtain ⟨rt₂, h₂, hf₂⟩ := hf₁.alloc
  obtain ⟨rt₃, h₃, hf₃⟩ := hf₂.init
  obtain ⟨rt₄, h₄, hf₄⟩ := hf₃.enqueue hk
  exact ⟨_, rt₄, (((hrun.next trivial h₁).next trivial h₂).next trivial h₃).next trivial h₄, hf₄⟩

theorem Filled.fill (hrun : Run Initial step Free tr rt) (h : Filled hcap [] free k rt)
    (hk : k ≤ 131071) (hfree : 131071 ≤ k + free.length) :
    ∃ free tr rt, Run Initial step Free tr rt ∧ Filled hcap [] free 131071 rt := by
  induction free generalizing k tr rt with
  | nil =>
    obtain rfl : k = 131071 := Nat.le_antisymm hk hfree
    exact ⟨[], tr, rt, hrun, h⟩
  | cons i free ih =>
    rcases Nat.lt_or_ge k 131071 with hlt | hge
    · obtain ⟨tr', rt', hrun', h'⟩ := h.launch hrun hlt
      rw [List.length_cons] at hfree
      exact ih hrun' h' hlt (by omega)
    · obtain rfl : k = 131071 := Nat.le_antisymm hk hge
      exact ⟨_, tr, rt, hrun, h⟩

/-! ### The first fiber -/

/-- A scheduler with one worker and the task 0 in the external mailbox. -/
def firstQueued : DtaScheduler 1 := ((DtaScheduler.new 1 .p2pMesh).enqueuePinned .host 0 0).2

/-- The worker receives the task and takes it off its queue. -/
theorem firstQueued_received : ∃ b sched sched', firstQueued.pollMailboxes 0 = .ok (b, sched) ∧
    sched.popLocal 0 = (some 0, sched') ∧ (sched'.workers 0).localQueueLen = 0 := by
  have hcheck : (match firstQueued.pollMailboxes 0 with
      | .ok (_, sched) => ((sched.popLocal 0).1, ((sched.popLocal 0).2.workers 0).localQueueLen)
      | .error _ => (none, 1)) = (some 0, 0) := by decide +kernel
  split at hcheck
  · next b sched hpoll =>
    obtain ⟨htask, hlen⟩ := Prod.mk.inj hcheck
    exact ⟨b, sched, _, hpoll, Prod.ext htask rfl, hlen⟩
  · cases hcheck

/-- The worker is idle and the host thread is in the calls `calls`. -/
structure Starting (calls : List Call) (sh : Shared 1) (rt : Machine 1 cap 1) : Prop where
  alive : rt.aborted = false
  worker : rt.workers 0 = .idle
  host : rt.hosts 0 = calls
  shared : rt.shared = sh

theorem Starting.goto {c : Call} {calls : List Call} {sh sh' : Shared 1}
    (h : Starting [c] sh rt) (hr : c.run ⟨none, .host⟩ sh = some (.goto calls sh')) :
    ∃ rt', step (.run (.host 0)) rt = some rt' ∧ Starting calls sh' rt' := by
  refine ⟨_, step_hostRun h.alive h.host (h.shared ▸ hr), ?_⟩
  refine ⟨h.alive, h.worker, ?_, rfl⟩
  show Function.update rt.hosts 0 (calls ++ []) 0 = calls
  rw [Function.update_self, List.append_nil]

theorem range_eq_cons {n : Nat} (hn : 0 < n) : List.range n = 0 :: List.range' 1 (n - 1) := by
  obtain ⟨m, rfl⟩ := Nat.exists_eq_succ_of_ne_zero hn.ne'
  rw [List.range_eq_range', List.range'_succ]
  rfl

/-- A host thread starts a fiber, and the worker receives and dispatches it. -/
theorem first_dispatched (hcap : 0 < cap) : ∃ tr rt, Run Initial step Free tr rt ∧
    Filled hcap [] (List.range' 1 (cap - 1)) 0 rt := by
  have henqueue : (DtaScheduler.new 1 .p2pMesh).enqueuePinned .host 0 0 = (true, firstQueued) :=
    Prod.ext (by decide +kernel) rfl
  obtain ⟨b, sched, sched', hpoll, hpop, hlen⟩ := firstQueued_received
  have h₀ : Run Initial step Free [] (new 1 cap 1 .p2pMesh) := .start ⟨_, rfl⟩
  have h₁ := h₀.next trivial (step_hostUser (k := 0) (u := .spawn .fiberLaunch 0) rfl rfl rfl)
  have hs₁ : Starting [.spawn .fiberLaunch 0 .alloc] _ ((new 1 cap 1 .p2pMesh).setHost 0 [_]) :=
    ⟨rfl, rfl, rfl, rfl⟩
  obtain ⟨rt₂, h₂, hs₂⟩ := hs₁.goto (run_alloc _ (range_eq_cons hcap))
  obtain ⟨rt₃, h₃, hs₃⟩ := hs₂.goto (run_init _ 0)
  obtain ⟨rt₄, h₄, hs₄⟩ := hs₃.goto (run_enqueue _ henqueue)
  have hsched : rt₄.shared.sched = firstQueued := by rw [hs₄.shared]
  have h₅ := step_poll hs₄.alive hs₄.worker (hsched ▸ hpoll)
  have h₆ := step_dispatch (i := ⟨0, hcap⟩)
    (show ({ rt₄ with shared := { rt₄.shared with sched } } : Machine 1 cap 1).aborted = false
      from hs₄.alive) hs₄.worker hpop
  refine ⟨_, _, ((((h₁.next trivial h₂).next trivial h₃).next trivial h₄).next trivial h₅).next
    trivial h₆, ?_⟩
  refine ⟨hs₄.alive, Function.update_self 0 _ rt₄.workers, ?_, hs₄.host, ?_, hlen, fun j => ?_⟩
  · show rt₄.shared.fibers 0 = _
    simp only [hs₄.shared, start_fibers]
  · show rt₄.shared.free = _
    rw [hs₄.shared]
    rfl
  · show (rt₄.shared.ctx j).state ≠ _
    rw [hs₄.shared]
    exact awake_start (fun _ => FiberStatus.noConfusion) 0 j

theorem settle_notified {i : Fin cap} (h : (rt.shared.ctx i).state = .notified) :
    rt.settle 0 i .inspect = some (rt.setWorker 0 (.on .requeue i)) := by
  simp only [settle, h]
  rfl

theorem host_wake {i : Nat} (hrun : Run Initial step Free tr rt) (halive : rt.aborted = false)
    (hhost : rt.hosts 0 = []) (hi : (rt.shared.ctx i).state ≠ .yielded) :
    ∃ (tr : List (Act 1 1)) (rt' : Machine 1 cap 1), Run Initial step Free tr rt' ∧
      rt'.aborted = false ∧ rt'.workers = rt.workers ∧
      rt'.shared = rt.shared.setState i .notified := by
  have h₁ : step (.user (.host 0) (.wake i none)) rt = some (rt.setHost 0 [.wake i none]) :=
    step_hostUser halive (by rw [hhost]; rfl) (by rw [hhost]; rfl)
  have hcalls : (rt.setHost 0 [.wake i none]).hosts 0 = [.wake i none] :=
    Function.update_self 0 _ rt.hosts
  have h₂ := step_hostRun (show (rt.setHost 0 _).aborted = false from halive) hcalls
    (run_wake _ hi)
  exact ⟨_, _, (hrun.next trivial h₁).next trivial h₂, halive, rfl, rfl⟩

/-- The fiber yields, and is woken before the worker has looked at its state. -/
theorem Filled.yield (hrun : Run Initial step Free tr rt) (h : Filled hcap [] free k rt) :
    ∃ (tr : List (Act 1 1)) (rt : Machine 1 cap 1), Run Initial step Free tr rt ∧
      rt.workers 0 = .on .requeue ⟨0, hcap⟩ ∧ (rt.shared.sched.workers 0).localQueueLen = k := by
  obtain ⟨rt₁, h₁, hf₁⟩ := h.user (u := .yieldTo 1 0) rfl
  obtain ⟨rt₂, h₂, hf₂⟩ := hf₁.goto [] (run_wake _ (hf₁.awake 1)) hf₁.free hf₁.len
    (awake_setState (by decide) hf₁.awake 1)
  obtain ⟨rt₃, h₃, hf₃⟩ := hf₂.goto [.yieldTo .switch] rfl hf₂.free hf₂.len
    (awake_setState (by decide) hf₂.awake 0)
  have h₄ := step_body hf₃.alive hf₃.worker hf₃.fiber (run_switch _)
  have hrun₄ := (((hrun.next trivial h₁).next trivial h₂).next trivial h₃).next trivial h₄
  obtain ⟨tr', rt', hrun', halive, hworkers, hshared⟩ :=
    host_wake hrun₄ hf₃.alive hf₃.host (hf₃.awake 0)
  have hw : rt'.workers 0 = .on .inspect ⟨0, hcap⟩ := by
    rw [hworkers]
    exact Function.update_self 0 _ rt₃.workers
  have hstate : (rt'.shared.ctx 0).state = .notified := by
    rw [hshared]
    exact Shared.setState_self _ 0 _
  have h₅ := (step_settle halive hw).trans (settle_notified hstate)
  refine ⟨_, _, hrun'.next trivial h₅, Function.update_self 0 _ rt'.workers, ?_⟩
  show (rt'.shared.sched.workers 0).localQueueLen = k
  rw [hshared]
  exact hf₃.len

/-- With more contexts than the queue has room for, a push may fail. -/
theorem requeue_fails (hcap : 131071 < cap) :
    ∃ (tr : List (Act 1 1)) (rt : Machine 1 cap 1), Run Initial step Free tr rt ∧
      ∃ i, rt.workers 0 = .on .requeue i ∧
        rt.shared.sched.pushLocal 0 i = (false, rt.shared.sched) := by
  obtain ⟨tr₀, rt₀, hrun₀, h₀⟩ := first_dispatched (Nat.zero_lt_of_lt hcap)
  obtain ⟨free, tr₁, rt₁, hrun₁, h₁⟩ := h₀.fill hrun₀ (Nat.zero_le _)
    (by rw [List.length_range']; omega)
  obtain ⟨tr, rt, hrun, hw, hlen⟩ := h₁.yield hrun₁
  exact ⟨tr, rt, hrun, _, hw, DtaScheduler.pushLocal_full (by rw [hlen]; decide)⟩

/-- **When no notified fiber is dropped.** The push of a fiber that was found in state `Notified`
succeeds in every state of every run, and the fiber is in the queue, exactly if the pool has at
most 131071 contexts. -/
theorem requeue_succeeds_iff (cap : Nat) :
    (∀ (n hosts : Nat) [NeZero n] (tr : List (Act n hosts)) (rt : Machine n cap hosts),
      Run Initial step Free tr rt → ∀ (w : Fin n) (i : Fin cap), rt.workers w = .on .requeue i →
        (rt.shared.sched.pushLocal w i).1 = true ∧
          i.val ∈ ((rt.shared.sched.pushLocal w i).2.workers w).localQueue.contents) ↔
      cap ≤ 131071 := by
  refine ⟨fun h => ?_, fun hcap n hosts _ tr rt hrun w i hw => requeue_succeeds hcap hrun hw⟩
  by_contra hcap
  obtain ⟨tr, rt, hrun, i, hw, hpush⟩ := requeue_fails (Nat.lt_of_not_le hcap)
  obtain ⟨hok, -⟩ := h 1 1 tr rt hrun 0 i hw
  rw [hpush] at hok
  cases hok

/-- The only fiber of a pool yields and is woken. -/
theorem requeue_succeeds_iff_one : ∃ (tr : List (Act 1 1)) (rt : Machine 1 1 1),
    Run Initial step Free tr rt ∧ rt.workers 0 = .on .requeue 0 ∧
      (rt.shared.sched.pushLocal 0 0).1 = true := by
  obtain ⟨tr₀, rt₀, hrun₀, h₀⟩ := first_dispatched Nat.one_pos
  obtain ⟨tr, rt, hrun, hw, -⟩ := h₀.yield hrun₀
  exact ⟨tr, rt, hrun, hw, ((requeue_succeeds_iff 1).mpr (by decide) 1 1 tr rt hrun 0 0 hw).1⟩

/-- A fiber in a pool of 131072 contexts starts 131071 others on its own core, yields, and is woken
before the worker looks at its state: the push fails and changes nothing. -/
theorem notified_fiber_lost : ∃ (tr : List (Act 1 1)) (rt : Machine 1 131072 1),
    Run Initial step Free tr rt ∧ ∃ i, rt.workers 0 = .on .requeue i ∧
      rt.shared.sched.pushLocal 0 i = (false, rt.shared.sched) :=
  requeue_fails (by decide)

end

end Machine

end Dtact.Runtime
