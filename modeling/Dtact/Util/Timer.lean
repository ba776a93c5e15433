import Mathlib.Logic.Function.Basic
import Dtact.Lib.Transition
import Dtact.Words

/-!
# The native timer

A hashed timing wheel: a sleep is put into the bucket of its target tick, with the number of full
rotations to wait. The worker visits one bucket per tick, but only while a sleep is pending, so the
counter falls behind the clock whenever the wheel is idle. `register` counts from the counter. A
call of `register` is one step, and so is an iteration of `worker_loop`.
-/

namespace Dtact.Timer

open Transition

def wheelBits : Nat := 8
def wheelSize : Nat := 2 ^ wheelBits
/-- `TICK`, one millisecond. -/
def tick : Nat := 1000000

inductive Status
  | pending
  | done
deriving DecidableEq, Repr

/-- `Node`; `state` is the number of its `SleepState`. -/
structure Node where
  state : Nat
  rounds : Nat
deriving DecidableEq, Repr

/-- `Wheel`. A bucket is a stack, the latest node first. -/
structure Wheel where
  buckets : Nat → List Node
  currentTick : Nat
  pending : Nat
  start : Nat

def Wheel.new (start : Nat) : Wheel := ⟨fun _ => [], 0, 0, start⟩

/-- The sleep states are numbered in the order of their registration. -/
structure St where
  wheel : Wheel
  now : Nat
  registered : Nat
  status : Nat → Status

/-- The first call of `wheel()`. -/
def St.new (now : Nat) : St := ⟨.new now, now, 0, fun _ => .pending⟩

/-! ## The worker -/

/-- What the worker has done so far with the batch of a tick. -/
structure Batch where
  status : Nat → Status
  bucket : List Node
  fired : Nat

/-- One round of the loop over the batch. -/
def Batch.next (b : Batch) (node : Node) : Batch :=
  if node.rounds = 0 then
    { b with status := Function.update b.status node.state .done, fired := b.fired + 1 }
  else { b with bucket := { node with rounds := node.rounds - 1 } :: b.bucket }

/-- `w.start + TICK * (tick as u32 + 1)` -/
def Wheel.tickDeadline (w : Wheel) : Nat :=
  w.start + tick * ((w.currentTick % 2 ^ 32 + 1) % 2 ^ 32)

/-- A tick: the next bucket is drained, oldest node first. -/
def St.fire (s : St) : St :=
  let w := s.wheel
  let currentTick := (w.currentTick + 1) % 2 ^ 64
  let slot := currentTick % wheelSize
  let b := (w.buckets slot).reverse.foldl Batch.next ⟨s.status, [], 0⟩
  { s with
    status := b.status
    wheel :=
      { w with
        buckets := Function.update w.buckets slot b.bucket
        currentTick
        pending := (w.pending + usizeMod - b.fired) % usizeMod } }

/-- One iteration of `worker_loop`. -/
def St.work (s : St) : St :=
  if s.wheel.pending = 0 then s
  else if s.wheel.tickDeadline > s.now then s
  else s.fire

/-! ## Registration -/

/-- `remaining.as_nanos().div_ceil(TICK.as_nanos()) as u64` -/
def ticksFromNow (deadline now : Nat) : Nat := (deadline - now + tick - 1) / tick % 2 ^ 64

/-- `register` -/
def St.register (s : St) (deadline : Nat) : St :=
  if deadline ≤ s.now then
    { s with
      registered := s.registered + 1
      status := Function.update s.status s.registered .done }
  else
    let w := s.wheel
    let ticks := ticksFromNow deadline s.now
    let targetTick := (w.currentTick + ticks) % 2 ^ 64
    let slot := targetTick % wheelSize
    let node := { state := s.registered, rounds := ticks / wheelSize }
    { s with
      registered := s.registered + 1
      status := Function.update s.status s.registered .pending
      wheel :=
        { w with
          buckets := Function.update w.buckets slot (node :: w.buckets slot)
          pending := (w.pending + 1) % usizeMod } }

inductive Act
  | register (deadline : Nat)
  | advance (elapsed : Nat)
  | work
deriving DecidableEq, Repr

def step : Act → St → Option St
  | .register deadline, s => some (s.register deadline)
  | .advance elapsed, s => some { s with now := s.now + elapsed }
  | .work, s => some s.work

def Initial (s : St) : Prop := ∃ now, s = .new now

/-! ## Deadlines -/

/-- The deadlines of the sleeps, in the order of their registration. -/
def record (a : Act) (_ : St) (deadlines : List Nat) : List Nat :=
  match a with
  | .register deadline => deadlines ++ [deadline]
  | _ => deadlines

def NotEarly (s : St) (deadlines : List Nat) : Prop :=
  ∀ k deadline, deadlines[k]? = some deadline → s.status k = .done → deadline ≤ s.now

/-- After how many ticks a sleep fires: one of whole rotations waits for one rotation more. -/
def firesAfter (ticks : Nat) : Nat := if ticks % wheelSize = 0 then ticks + wheelSize else ticks

/-- The tick that fires a sleep is due after its deadline, so that the counter is not behind the
clock by more than the rounding of the duration; and the counter fits into the `u32` the worker
computes with. -/
def InTime (s : St) : Act → Prop
  | .register deadline => deadline ≤ s.now ∨
      deadline ≤ s.wheel.start +
        tick * (s.wheel.currentTick + firesAfter (ticksFromNow deadline s.now))
  | .advance _ => True
  | .work => s.wheel.currentTick + 1 < 2 ^ 32

instance (s : St) : (a : Act) → Decidable (InTime s a)
  | .register _ => inferInstanceAs (Decidable (_ ∨ _))
  | .advance _ => inferInstanceAs (Decidable True)
  | .work => inferInstanceAs (Decidable (_ < _))

abbrev TimerRun (ok : St → Act → Prop) : List Act → St × List Nat → Prop :=
  Run (initHist Initial []) (withHist step record) fun p a => ok p.1 a

/-! ## The wheel keeps its nodes due in time -/

/-- The next tick after `currentTick` that visits the bucket `slot`. -/
def nextVisit (currentTick slot : Nat) : Nat :=
  currentTick + 1 + (slot + wheelSize - (currentTick + 1) % wheelSize) % wheelSize

theorem nextVisit_target (t ticks : Nat) :
    nextVisit t ((t + ticks) % wheelSize) + wheelSize * (ticks / wheelSize) =
      t + firesAfter ticks := by
  unfold firesAfter
  split
  all_goals
    next h =>
      simp only [nextVisit, wheelSize, wheelBits] at h ⊢
      omega

theorem nextVisit_this (t : Nat) : nextVisit t ((t + 1) % wheelSize) = t + 1 := by
  unfold nextVisit
  rw [Nat.add_sub_cancel_left, Nat.mod_self, Nat.add_zero]

theorem nextVisit_again (t : Nat) :
    nextVisit (t + 1) ((t + 1) % wheelSize) = t + 1 + wheelSize := by
  simp only [nextVisit, wheelSize, wheelBits]
  omega

theorem nextVisit_other {t slot : Nat} (hslot : slot < wheelSize)
    (hne : slot ≠ (t + 1) % wheelSize) : nextVisit (t + 1) slot = nextVisit t slot := by
  simp only [nextVisit, wheelSize, wheelBits] at *
  omega

/-- A node that is put back has one round less. -/
def Node.wait (node : Node) : Node := { node with rounds := node.rounds - 1 }

theorem next_status (b : Batch) (node : Node) (k : Nat) :
    (b.next node).status k = .done ↔ b.status k = .done ∨ node.rounds = 0 ∧ node.state = k := by
  unfold Batch.next
  split
  · next hr =>
    rcases eq_or_ne k node.state with rfl | hne
    · simp [hr]
    · simp [hne, hne.symm]
  · next hr => simp [hr]

theorem next_bucket (b : Batch) (node : Node) :
    (b.next node).bucket = if node.rounds = 0 then b.bucket else node.wait :: b.bucket := by
  unfold Batch.next
  split <;> rfl

/-- The loop over a batch marks the nodes that have no round left. -/
theorem foldl_status (batch : List Node) (b : Batch) (k : Nat) :
    (batch.foldl Batch.next b).status k = .done ↔
      b.status k = .done ∨ ∃ node ∈ batch, node.rounds = 0 ∧ node.state = k := by
  induction batch generalizing b with
  | nil => simp
  | cons first batch ih =>
    rw [List.foldl_cons, ih, next_status, or_assoc]
    simp only [List.mem_cons, exists_eq_or_imp]

/-- It puts the others back, in the same order. -/
theorem foldl_bucket (batch : List Node) (b : Batch) :
    (batch.reverse.foldl Batch.next b).bucket =
      (batch.filter fun node => node.rounds ≠ 0).map Node.wait ++ b.bucket := by
  induction batch with
  | nil => rfl
  | cons first batch ih =>
    rw [List.reverse_cons, List.foldl_append, List.foldl_cons, List.foldl_nil, next_bucket, ih,
      List.filter_cons]
    by_cases hr : first.rounds = 0
    · simp [hr]
    · simp [hr]

/-- The tick at which the wheel fires a node of a bucket. -/
def Wheel.firesAt (w : Wheel) (slot : Nat) (node : Node) : Nat :=
  nextVisit w.currentTick slot + wheelSize * node.rounds

/-- A node fires at a tick that is due only after its deadline. -/
def Wheel.Due (w : Wheel) (deadlines : List Nat) (slot : Nat) (node : Node) : Prop :=
  slot < wheelSize ∧
    ∃ d, deadlines[node.state]? = some d ∧ d ≤ w.start + tick * w.firesAt slot node

structure Inv (s : St) (deadlines : List Nat) : Prop where
  length : deadlines.length = s.registered
  notEarly : NotEarly s deadlines
  due : ∀ slot, ∀ node ∈ s.wheel.buckets slot, s.wheel.Due deadlines slot node

variable {deadlines : List Nat} {s : St}

theorem Wheel.Due.append {w : Wheel} {slot : Nat} {node : Node} (h : w.Due deadlines slot node)
    (d : Nat) : w.Due (deadlines ++ [d]) slot node := by
  obtain ⟨hslot, d', hd', hle⟩ := h
  refine ⟨hslot, d', ?_, hle⟩
  rw [List.getElem?_append_left (List.getElem?_eq_some_iff.mp hd').1]
  exact hd'

theorem inv_register {d : Nat} (hi : Inv s deadlines) (hok : InTime s (.register d)) :
    Inv (s.register d) (deadlines ++ [d]) := by
  have hnew : (deadlines ++ [d])[s.registered]? = some d := by
    rw [← hi.length, List.getElem?_concat_length]
  -- The sleeps registered before keep their number and their status.
  have hold {k d' : Nat} (hne : k ≠ s.registered)
      (hk : (deadlines ++ [d])[k]? = some d') : deadlines[k]? = some d' := by
    rw [List.getElem?_append] at hk
    split at hk
    · exact hk
    · have hlt := (List.getElem?_eq_some_iff.mp hk).1
      have := hi.length
      simp only [List.length_singleton] at hlt
      omega
  unfold St.register
  split
  · next hle =>
    refine ⟨by simp [hi.length], fun k d' hk hdone => ?_, fun slot node hn => ?_⟩
    · rcases eq_or_ne k s.registered with rfl | hne
      · rw [hnew] at hk
        cases hk
        exact hle
      · exact hi.notEarly k d' (hold hne hk) (by simpa [hne] using hdone)
    · exact (hi.due slot node hn).append d
  · next hlt =>
    refine ⟨by simp [hi.length], fun k d' hk hdone => ?_, fun slot node hn => ?_⟩
    · rcases eq_or_ne k s.registered with rfl | hne
      · simp at hdone
      · exact hi.notEarly k d' (hold hne hk) (by simpa [hne] using hdone)
    · have hstart := hok.resolve_left hlt
      rw [← nextVisit_target] at hstart
      have hmod : (s.wheel.currentTick + ticksFromNow d s.now) % 2 ^ 64 % wheelSize =
          (s.wheel.currentTick + ticksFromNow d s.now) % wheelSize :=
        Nat.mod_mod_of_dvd _ (by decide)
      simp only [hmod] at hn
      by_cases hs : slot = (s.wheel.currentTick + ticksFromNow d s.now) % wheelSize
      · subst hs
        simp only [Function.update_self, List.mem_cons] at hn
        rcases hn with rfl | hn
        · exact ⟨Nat.mod_lt _ (by decide), d, hnew, hstart⟩
        · exact (hi.due _ node hn).append d
      · rw [Function.update_of_ne hs] at hn
        exact (hi.due slot node hn).append d

theorem inv_fire (hi : Inv s deadlines) (hok : s.wheel.currentTick + 1 < 2 ^ 32)
    (hnow : s.wheel.tickDeadline ≤ s.now) : Inv s.fire deadlines := by
  have hclock : s.wheel.start + tick * (s.wheel.currentTick + 1) ≤ s.now := by
    rw [Wheel.tickDeadline, Nat.mod_eq_of_lt (by omega : s.wheel.currentTick < 2 ^ 32),
      Nat.mod_eq_of_lt hok] at hnow
    exact hnow
  have hlt : (s.wheel.currentTick + 1) % 2 ^ 64 = s.wheel.currentTick + 1 :=
    Nat.mod_eq_of_lt (by omega)
  unfold St.fire
  simp only [hlt]
  refine ⟨hi.length, fun k d hk hdone => ?_, fun slot node hn => ?_⟩
  · rcases (foldl_status _ _ k).mp hdone with hold | ⟨node, hmem, hr, rfl⟩
    · exact hi.notEarly k d hk hold
    · -- A node fired now was due at this very tick.
      obtain ⟨-, d', hd', hle⟩ := hi.due _ node (List.mem_reverse.mp hmem)
      rw [hk] at hd'
      cases hd'
      rw [Wheel.firesAt, nextVisit_this, hr, Nat.mul_zero, Nat.add_zero] at hle
      exact hle.trans hclock
  · change node ∈ Function.update s.wheel.buckets _ _ slot at hn
    by_cases hs : slot = (s.wheel.currentTick + 1) % wheelSize
    · subst hs
      rw [Function.update_self, foldl_bucket, List.append_nil] at hn
      obtain ⟨old, hmem, rfl⟩ := List.mem_map.mp hn
      obtain ⟨hmem, hr⟩ := List.mem_filter.mp hmem
      have hrounds : old.rounds = old.wait.rounds + 1 :=
        (Nat.succ_pred_eq_of_ne_zero (of_decide_eq_true hr)).symm
      -- One rotation later, with one round less.
      obtain ⟨hslot, d, hd, hle⟩ := hi.due _ old hmem
      refine ⟨hslot, d, hd, ?_⟩
      simp only [Wheel.firesAt, nextVisit_this, nextVisit_again, hrounds, Nat.mul_succ] at hle ⊢
      rwa [Nat.add_comm (wheelSize * old.wait.rounds), ← Nat.add_assoc] at hle
    · rw [Function.update_of_ne hs] at hn
      obtain ⟨hslot, d, hd, hle⟩ := hi.due slot node hn
      refine ⟨hslot, d, hd, ?_⟩
      simp only [Wheel.firesAt, nextVisit_other hslot hs]
      exact hle

theorem inv_step {a : Act} {s' : St} (hi : Inv s deadlines) (hok : InTime s a)
    (h : step a s = some s') : Inv s' (record a s deadlines) := by
  cases a with
  | register d =>
    cases h
    exact inv_register hi hok
  | advance elapsed =>
    cases h
    have hle : s.now ≤ s.now + elapsed := Nat.le_add_right ..
    exact ⟨hi.length, fun k d hk hdone => (hi.notEarly k d hk hdone).trans hle, hi.due⟩
  | work =>
    cases h
    unfold St.work
    split
    · exact hi
    · split
      · exact hi
      · next hnow => exact inv_fire hi hok (Nat.le_of_not_lt hnow)

theorem inv_init (now : Nat) : Inv (.new now) [] := by
  refine ⟨rfl, fun _ _ h => ?_, fun _ _ h => ?_⟩
  · cases h
  · cases h

/-! ## No sleep is early while the wheel keeps up with the clock -/

/-- In every run whose registrations find the wheel in time, no sleep is done before
its deadline, in any state reached. -/
theorem sleep_not_early {tr : List Act} {s : St} {deadlines : List Nat}
    (h : TimerRun InTime tr (s, deadlines)) : NotEarly s deadlines := by
  have hinv : Inv s deadlines := by
    refine h.hist_invariant (I := Inv) ?_ (fun _ _ _ _ hi hok hst => inv_step hi hok hst)
    rintro s ⟨now, rfl⟩
    exact inv_init now
  exact hinv.notEarly

/-- Right after the wheel has started a sleep of 3 ms waits for its deadline. -/
theorem sleep_not_early_at_start : ∃ tr s deadlines, TimerRun InTime tr (s, deadlines) ∧
    deadlines = [3000000] ∧ s.status 0 = .done ∧ NotEarly s deadlines := by
  obtain ⟨tr, s, deadlines, hrun, hd, hdone⟩ : ∃ tr s deadlines,
      TimerRun InTime tr (s, deadlines) ∧ deadlines = [3000000] ∧ s.status 0 = .done := by
    exact ⟨_, _, _, Run.of_exec_guarded
      ([.register 3000000, .advance 3000000, .work, .work, .work]) (s := (St.new 0, []))
      ⟨⟨0, rfl⟩, rfl⟩ rfl, rfl, rfl⟩
  exact ⟨tr, s, deadlines, hrun, hd, hdone, sleep_not_early hrun⟩

/-- A sleep of 1 ms fires, and a second passes with nothing pending; then a sleep of 100 ms is
registered and the worker catches up with the clock. -/
def idleSecond : List Act :=
  [.register 1000000, .advance 1000000, .work, .work, .advance 1000000000, .work,
    .register 1101000000] ++ List.replicate 100 .work

/-- The second sleep is done 100 ms before its deadline. -/
theorem idle_wheel_fires_early :
    ∃ tr s deadlines, TimerRun Free tr (s, deadlines) ∧ ¬ NotEarly s deadlines := by
  obtain ⟨⟨s, deadlines⟩, hrun, heq⟩ : ∃ p, TimerRun Free idleSecond.reverse p ∧
      (p.2, p.1.status 1, p.1.now) = ([1000000, 1101000000], .done, 1001000000) :=
    Run.exists_of_exec idleSecond (.new 0, []) ⟨⟨0, rfl⟩, rfl⟩ (by decide +kernel)
  obtain ⟨rfl, hdone, hnow⟩ := by simpa using heq
  refine ⟨_, s, _, hrun, fun hearly => ?_⟩
  have hle := hearly 1 1101000000 rfl hdone
  rw [hnow] at hle
  exact absurd hle (by decide)

end Dtact.Timer
