import Mathlib.Data.Fintype.Basic
import Dtact.Lib.Transition
import Dtact.Util.WaitQueue

/-!
# `Notify`

A flag holds at most one permit, and a `WaitQueue` holds the waiters. A `Notified` future is ready
when it finds the permit, and only then. `notify_one` stores the permit and wakes one waiter;
`notify_waiters` wakes all and stores none. Each call and each poll is one step.
-/

namespace Dtact

structure Notify (ω : Type) where
  permit : Bool
  wait : WaitQueue ω

namespace Notify

open Transition

variable {ι ω : Type}

def new : Notify ω := ⟨false, .new⟩

/-- `notify_one`, with the waker it invokes. -/
def notifyOne (n : Notify ω) : Option ω × Notify ω :=
  let (waker, wait) := n.wait.wakeOne
  (waker, ⟨true, wait⟩)

/-- `notify_waiters`, with the wakers it invokes. -/
def notifyWaiters (n : Notify ω) : List ω × Notify ω :=
  let (wakers, wait) := n.wait.wakeAll
  (wakers, { n with wait })

/-- `compare_exchange(true, false)` -/
def tryTake (n : Notify ω) : Option (Notify ω) :=
  if n.permit then some { n with permit := false } else none

/-- `Notified::poll`: whether it is ready, and the state after. -/
def poll [DecidableEq ω] (n : Notify ω) (waker : ω) : Bool × Notify ω :=
  match n.tryTake with
  | some n => (true, n)
  | none =>
    let (token, wait) := n.wait.register waker
    match { n with wait }.tryTake with
    | some n => (true, { n with wait := n.wait.cancel token })
    | none => (false, { n with wait })

/-! ## The futures -/

/-- A future, with the waker of its latest poll when that has returned `Pending`. -/
inductive Future (ω : Type)
  | fresh
  | pending (waker : ω)
  | ready
  | dropped
deriving DecidableEq

def Future.isPending : Future ω → Bool
  | .pending _ => true
  | _ => false

def Future.pollable : Future ω → Bool
  | .fresh | .pending _ => true
  | .ready | .dropped => false

structure St (ι ω : Type) where
  notify : Notify ω
  future : ι → Future ω

def St.init : St ι ω := ⟨.new, fun _ => .fresh⟩

inductive Act (ι ω : Type)
  | poll (f : ι) (waker : ω)
  | drop (f : ι)
  | notifyOne
  | notifyWaiters

def Act.touches [DecidableEq ι] (f : ι) : Act ι ω → Bool
  | .poll g _ | .drop g => g = f
  | .notifyOne | .notifyWaiters => false

section

variable [DecidableEq ι] [DecidableEq ω]

def step : Act ι ω → St ι ω → Option (St ι ω)
  | .poll f waker, s =>
    if (s.future f).pollable then
      let (ready, notify) := s.notify.poll waker
      some ⟨notify, Function.update s.future f (if ready then .ready else .pending waker)⟩
    else none
  | .drop f, s => some { s with future := Function.update s.future f .dropped }
  | .notifyOne, s => some { s with notify := s.notify.notifyOne.2 }
  | .notifyWaiters, s => some { s with notify := s.notify.notifyWaiters.2 }

abbrev NotifyRun : List (Act ι ω) → St ι ω → Prop := Run (· = St.init) step Free

/-! ## The permit -/

theorem poll_fst (n : Notify ω) (waker : ω) : (n.poll waker).1 = n.permit := by
  obtain ⟨permit, wait⟩ := n
  cases permit <;> rfl

theorem poll_permit (n : Notify ω) (waker : ω) : (n.poll waker).2.permit = false := by
  obtain ⟨permit, wait⟩ := n
  cases permit <;> rfl

/-- Of all calls, the latest first: the last one that is a poll or a `notify_one` is a
`notify_one`. -/
def stored : List (Act ι ω) → Bool
  | [] => false
  | .notifyOne :: _ => true
  | .poll _ _ :: _ => false
  | .drop _ :: tr | .notifyWaiters :: tr => stored tr

/-- Every poll takes the permit, and only `notify_one` stores one. -/
theorem permit_run {tr : List (Act ι ω)} {s : St ι ω} (h : NotifyRun tr s) :
    s.notify.permit = stored tr := by
  refine h.invariant (I := fun tr s => s.notify.permit = stored tr) ?_ ?_
  · rintro s rfl
    rfl
  · intro tr s a s' hinv _ hst
    cases a with
    | poll f waker =>
      simp only [step] at hst
      split at hst
      · cases hst
        exact poll_permit s.notify waker
      · cases hst
    | drop f =>
      cases hst
      exact hinv
    | notifyOne =>
      cases hst
      rfl
    | notifyWaiters =>
      cases hst
      exact hinv

/-- A future is ready after its poll just when the permit was stored. -/
theorem ready_poll {s s' : St ι ω} {f : ι} {waker : ω} (hst : step (.poll f waker) s = some s') :
    s'.future f = (if s.notify.permit then .ready else .pending waker) ∧
      s'.notify.permit = false ∧ ∀ g ≠ f, s'.future g = s.future g := by
  simp only [step] at hst
  split at hst
  · cases hst
    refine ⟨?_, poll_permit s.notify waker, fun g hne => Function.update_of_ne hne _ _⟩
    rw [← poll_fst s.notify waker]
    exact Function.update_self _ _ _
  · cases hst

/-! ## `notify_waiters` -/

/-- The first call on `f` in `as` is a poll, and `before` are the calls before it. -/
def FirstPoll (as before : List (Act ι ω)) (f : ι) (waker : ω) : Prop :=
  (∃ after, as = before ++ .poll f waker :: after) ∧ ∀ a ∈ before, a.touches f = false

/-- What `notify_waiters` in state `s` should do for the calls `as` after it. -/
structure WaitersReleased (s : St ι ω) (as : List (Act ι ω)) : Prop where
  /-- Every waiter is ready at its first poll. -/
  waiters : ∀ before f waker s', FirstPoll as before f waker → (s.future f).isPending →
    exec step (.notifyWaiters :: before ++ [.poll f waker]) s = some s' → s'.future f = .ready
  /-- A future that is polled for the first time is not ready without a permit. -/
  newcomers : ∀ before f waker s₁ s₂, FirstPoll as before f waker → s.future f = .fresh →
    exec step (.notifyWaiters :: before) s = some s₁ → s₁.notify.permit = false →
    step (.poll f waker) s₁ = some s₂ → s₂.future f ≠ .ready

theorem exec_firstPoll {s s' : St ι ω} {as before : List (Act ι ω)} {f : ι} {waker : ω}
    (hlater : exec step (.notifyWaiters :: as) s = some s') (hfirst : FirstPoll as before f waker) :
    ∃ s₁ s₂, exec step (.notifyWaiters :: before) s = some s₁ ∧
      step (.poll f waker) s₁ = some s₂ := by
  obtain ⟨⟨after, rfl⟩, -⟩ := hfirst
  rw [← List.cons_append, exec_append, Option.bind_eq_some_iff] at hlater
  obtain ⟨s₁, hbefore, hafter⟩ := hlater
  simp only [exec, Option.bind_eq_some_iff] at hafter
  obtain ⟨s₂, hpoll, -⟩ := hafter
  exact ⟨s₁, s₂, hbefore, hpoll⟩

/-- A future is ready at a poll after `notify_waiters` if and only if, of the calls before that
poll, the last one that is a poll or a `notify_one` is a `notify_one`. -/
theorem ready_iff_stored {tr before : List (Act ι ω)} {s s₁ s₂ : St ι ω} {f : ι} {waker : ω}
    (h : NotifyRun tr s) (hbefore : exec step (.notifyWaiters :: before) s = some s₁)
    (hpoll : step (.poll f waker) s₁ = some s₂) :
    s₂.future f = .ready ↔ stored (before.reverse ++ .notifyWaiters :: tr) = true := by
  have hrun : NotifyRun ((.notifyWaiters :: before).reverse ++ tr) s₁ :=
    h.append_exec (fun _ _ => trivial) hbefore
  rw [List.reverse_cons, List.append_assoc, List.singleton_append] at hrun
  rw [(ready_poll hpoll).1, ← permit_run hrun]
  cases s₁.notify.permit <;> simp

/-- `notify_waiters` does what it should if and only if before the first poll of every waiter
the last call that is a poll or a `notify_one` is a `notify_one`. -/
theorem notify_waiters_released_iff (tr as : List (Act ι ω)) (s s' : St ι ω) (h : NotifyRun tr s)
    (hlater : exec step (.notifyWaiters :: as) s = some s') :
    WaitersReleased s as ↔ ∀ before f waker, FirstPoll as before f waker →
      (s.future f).isPending → stored (before.reverse ++ .notifyWaiters :: tr) = true := by
  constructor
  · intro hreleased before f waker hfirst hpending
    obtain ⟨s₁, s₂, hbefore, hpoll⟩ := exec_firstPoll hlater hfirst
    refine (ready_iff_stored h hbefore hpoll).mp (hreleased.waiters before f waker s₂ hfirst
      hpending ?_)
    rw [exec_append, hbefore]
    exact (Option.bind_some _ _).trans (by rw [exec, hpoll]; rfl)
  · intro hstored
    refine ⟨fun before f waker s₂ hfirst hpending hexec => ?_,
      fun before f waker s₁ s₂ _ _ _ hnone hpoll => ?_⟩
    · rw [exec_append, Option.bind_eq_some_iff] at hexec
      obtain ⟨s₁, hbefore, hpoll⟩ := hexec
      simp only [exec, Option.bind_fun_some] at hpoll
      exact (ready_iff_stored h hbefore hpoll).mpr (hstored before f waker hfirst hpending)
    · rw [(ready_poll hpoll).1, hnone]
      simp

end

theorem isRun_pollOnce : NotifyRun [.poll 0 0] (⟨⟨false, ⟨[⟨⟨0, 0⟩, true⟩], [], 1⟩⟩,
    Function.update (fun _ => .fresh) 0 (.pending 0)⟩ : St Nat Nat) :=
  Run.of_exec ([.poll 0 0] : List (Act Nat Nat)) rfl rfl

/-- A `notify_one` after the `notify_waiters` releases the only waiter. -/
theorem notify_waiters_released_iff_notifyOne :
    ∃ (tr : List (Act Nat Nat)) (s s' : St Nat Nat), NotifyRun tr s ∧ (s.future 0).isPending ∧
      exec step [.notifyWaiters, .notifyOne, .poll 0 0] s = some s' ∧
      WaitersReleased s [.notifyOne, .poll 0 0] := by
  refine ⟨_, _, _, isRun_pollOnce, rfl, rfl,
    (notify_waiters_released_iff _ _ _ _ isRun_pollOnce rfl).mpr ?_⟩
  rintro before f waker ⟨⟨after, heq⟩, -⟩ -
  cases before with
  | nil => simp at heq
  | cons a before =>
    obtain ⟨rfl, heq⟩ := List.cons.inj heq
    cases before with
    | nil => rfl
    | cons b before => simp at heq

/-- `notify_waiters` wakes the only waiter, which is not ready when it is polled. -/
theorem woken_waiter_not_ready :
    ∃ (tr : List (Act Nat Nat)) (s s' : St Nat Nat), NotifyRun tr s ∧ (s.future 0).isPending ∧
      exec step [.notifyWaiters, .poll 0 0] s = some s' ∧ ¬ WaitersReleased s [.poll 0 0] := by
  refine ⟨_, _, _, isRun_pollOnce, rfl, rfl, fun hreleased => ?_⟩
  have hready : Future.pending 0 = .ready :=
    hreleased.waiters [] 0 0 _ ⟨⟨[], rfl⟩, by simp⟩ rfl rfl
  cases hready

/-! ## `notify_one` -/

section

variable [DecidableEq ι] [DecidableEq ω]

/-- The wakers that `k` calls of `notify_one` invoke. -/
def invokedBy : Nat → Notify ω → List ω
  | 0, _ => []
  | k + 1, n => n.notifyOne.1.toList ++ invokedBy k n.notifyOne.2

/-- The pending futures whose waker has been invoked by `k` calls, in some order. -/
def IsOrder (s : St ι ω) (k : Nat) (order : List ι) : Prop :=
  order.Nodup ∧ ∀ f, f ∈ order ↔ ∃ waker ∈ invokedBy k s.notify, s.future f = .pending waker

theorem exec_notifyOnes (k : Nat) {s s' : St ι ω}
    (h : exec step (List.replicate k .notifyOne) s = some s') :
    s'.future = s.future ∧ s'.notify.permit = (s.notify.permit || decide (0 < k)) := by
  induction k generalizing s with
  | zero =>
    cases h
    simp
  | succ k ih =>
    obtain ⟨hfuture, hpermit⟩ := ih h
    refine ⟨hfuture, hpermit.trans ?_⟩
    simp [Notify.notifyOne]

/-- Polls of other futures do not change a future. -/
theorem exec_polls_other {order : List ι} {waker : ι → ω} {s s' : St ι ω} {g : ι}
    (hg : g ∉ order) (h : exec step (order.map fun f => .poll f (waker f)) s = some s') :
    s'.future g = s.future g := by
  induction order generalizing s with
  | nil =>
    cases h
    rfl
  | cons f order ih =>
    simp only [List.map_cons, exec, Option.bind_eq_some_iff] at h
    obtain ⟨s₁, hpoll, h⟩ := h
    rw [List.mem_cons, not_or] at hg
    rw [ih hg.2 h, (ready_poll hpoll).2.2 g hg.1]

/-- Of several futures that are polled in turn the first one takes the permit. -/
theorem exec_polls {order : List ι} {waker : ι → ω} {s s' : St ι ω} (hnodup : order.Nodup)
    (h : exec step (order.map fun f => .poll f (waker f)) s = some s') :
    (order.filter fun f => s'.future f = .ready).length =
      if s.notify.permit ∧ order ≠ [] then 1 else 0 := by
  induction order generalizing s with
  | nil => simp
  | cons f order ih =>
    rw [List.nodup_cons] at hnodup
    simp only [List.map_cons, exec, Option.bind_eq_some_iff] at h
    obtain ⟨s₁, hpoll, h⟩ := h
    obtain ⟨hready, htaken, -⟩ := ready_poll hpoll
    have hrest := ih hnodup.2 h
    rw [htaken] at hrest
    rw [List.filter_cons, exec_polls_other hnodup.1 h, hready]
    cases hpermit : s.notify.permit <;> simpa [hpermit] using hrest

/-- After `k` calls of `notify_one` in a row, at least `k` of the futures that are woken are
ready if and only if `k` is 0, or 1 and the registration that is served belongs to a future
that is pending. -/
theorem notify_one_ready_iff (s s' : St ι ω) (k : Nat) (order : List ι) (waker : ι → ω)
    (hnone : s.notify.permit = false) (horder : IsOrder s k order)
    (hexec : exec step (List.replicate k .notifyOne ++ order.map fun f => .poll f (waker f)) s =
      some s') :
    k ≤ (order.filter fun f => s'.future f = .ready).length ↔
      k = 0 ∨ k = 1 ∧ ∃ f w, s.notify.wait.next = some w ∧ s.future f = .pending w := by
  rw [exec_append, Option.bind_eq_some_iff] at hexec
  obtain ⟨s₁, hcalls, hpolls⟩ := hexec
  obtain ⟨-, hpermit⟩ := exec_notifyOnes k hcalls
  rw [exec_polls horder.1 hpolls, hpermit, hnone]
  rcases k with _ | _ | k
  · simp
  · have hserved : order ≠ [] ↔ ∃ f w, s.notify.wait.next = some w ∧ s.future f = .pending w := by
      have hmem : order ≠ [] ↔ ∃ f, f ∈ order :=
        ⟨List.exists_mem_of_ne_nil order, fun ⟨f, hf⟩ => List.ne_nil_of_mem hf⟩
      rw [hmem]
      refine exists_congr fun f => ?_
      rw [horder.2]
      simp [invokedBy, Notify.notifyOne, WaitQueue.wakeOne_fst, Option.mem_toList]
    rw [← hserved]
    by_cases hnil : order = [] <;> simp [hnil]
  · simp only [Nat.add_eq_zero_iff, Nat.add_eq_right]
    split <;> omega

instance [Fintype ι] (s : St ι ω) (k : Nat) (order : List ι) : Decidable (IsOrder s k order) :=
  inferInstanceAs (Decidable (_ ∧ ∀ f, f ∈ order ↔
    ∃ waker ∈ invokedBy k s.notify, s.future f = .pending waker))

end

/-- After the calls `before`, at least `k` futures are pending and no permit is stored; `k`
calls of `notify_one` follow, and a poll of every future that they have woken. -/
def NotifiedBy (before : List (Act (Fin 2) (Fin 2))) (k : Nat) (order : List (Fin 2))
    (s s' : St (Fin 2) (Fin 2)) : Prop :=
  exec step before St.init = some s ∧ s.notify.permit = false ∧ IsOrder s k order ∧
    k ≤ ((List.finRange 2).filter fun f => (s.future f).isPending).length ∧
    exec step (List.replicate k .notifyOne ++ order.map fun f => .poll f f) s = some s'

/-- How many of the futures are ready. -/
def readyOf (order : List (Fin 2)) (s : St (Fin 2) (Fin 2)) : Nat :=
  (order.filter fun f => s.future f = .ready).length

theorem notifiedBy_of_exec (before : List (Act (Fin 2) (Fin 2))) (k : Nat) (order : List (Fin 2))
    (p : St (Fin 2) (Fin 2) → St (Fin 2) (Fin 2) → Bool)
    (h : ((exec step before St.init).bind fun s =>
      (exec step (List.replicate k .notifyOne ++ order.map fun f => .poll f f) s).map fun s' =>
        decide (s.notify.permit = false ∧ IsOrder s k order ∧
          k ≤ ((List.finRange 2).filter fun f => (s.future f).isPending).length) && p s s') =
      some true) :
    ∃ s s', NotifiedBy before k order s s' ∧ p s s' := by
  obtain ⟨s, hbefore, h⟩ := Option.bind_eq_some_iff.mp h
  obtain ⟨s', hexec, h⟩ := Option.map_eq_some_iff.mp h
  rw [Bool.and_eq_true, decide_eq_true_eq] at h
  obtain ⟨⟨hnone, horder, hpending⟩, hp⟩ := h
  exact ⟨s, s', ⟨hbefore, hnone, horder, hpending, hexec⟩, hp⟩

/-- One future is pending and one call is made. -/
theorem notify_one_ready_iff_one :
    ∃ s s', NotifiedBy [.poll 0 0] 1 [0] s s' ∧ 1 ≤ readyOf [0] s' := by
  obtain ⟨s, s', h, hserved⟩ := notifiedBy_of_exec [.poll 0 0] 1 [0]
    (fun s _ => decide (s.notify.wait.next = some 0 ∧ s.future 0 = .pending 0)) (by decide +kernel)
  rw [decide_eq_true_eq] at hserved
  exact ⟨s, s', h, (notify_one_ready_iff s s' 1 [0] _ h.2.1 h.2.2.1 h.2.2.2.2).mpr
    (.inr ⟨rfl, 0, 0, hserved⟩)⟩

/-- Two futures are pending and two calls are made: both futures are woken, and one is ready.
A future that has been polled twice leaves a registration behind when it is ready; the wake of
the next call goes there, and the other future is neither woken nor ready. -/
theorem notify_one_coalesces :
    (∃ s s', NotifiedBy [.poll 0 0, .poll 1 1] 2 [0, 1] s s' ∧ ¬ 2 ≤ readyOf [0, 1] s') ∧
    ∃ s s', NotifiedBy [.poll 0 0, .poll 0 0, .notifyOne, .poll 0 0, .poll 1 1] 1 [] s s' ∧
      ¬ 1 ≤ readyOf [] s' := by
  constructor
  · obtain ⟨s, s', h, hready⟩ := notifiedBy_of_exec [.poll 0 0, .poll 1 1] 2 [0, 1]
      (fun _ s' => decide (readyOf [0, 1] s' < 2)) (by decide +kernel)
    exact ⟨s, s', h, Nat.not_le.mpr (of_decide_eq_true hready)⟩
  · obtain ⟨s, s', h, -⟩ := notifiedBy_of_exec
      [.poll 0 0, .poll 0 0, .notifyOne, .poll 0 0, .poll 1 1] 1 [] (fun _ _ => true)
      (by decide +kernel)
    exact ⟨s, s', h, by simp [readyOf]⟩

end Notify

end Dtact
