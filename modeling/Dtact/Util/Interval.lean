import Mathlib.Data.List.Chain
import Mathlib.Order.Bounds.Defs
import Dtact.Lib.Transition

/-!
# `DtactInterval`

`tick` sleeps until the deadline `next`, returns it and sets the next one: `Burst` adds one period
to the old deadline, `Skip` adds periods to it until it is later than the clock, `Delay` adds one
period to the clock. `Instant + Duration` panics if the sum is not below `limit`; a call that
panics, or is dropped while it sleeps, leaves the interval as it was.
-/

namespace Dtact.Interval

open Transition

inductive MissedTickBehavior
  | burst
  | skip
  | delay
deriving DecidableEq, Repr

structure DtactInterval where
  period : Nat
  next : Nat
  missedTickBehavior : MissedTickBehavior
deriving DecidableEq, Repr

/-- `Instant + Duration` -/
def add (limit instant duration : Nat) : Except String Nat :=
  if instant + duration < limit then .ok (instant + duration)
  else .error "overflow when adding duration to instant"

/-- `DtactInterval::new`, which reads `now` from the clock. -/
def new (limit now period : Nat) : Except String DtactInterval :=
  if 0 < period then (add limit now period).map fun next => ⟨period, next, .burst⟩
  else .error "dtact-timer: interval period must be > 0"

/-- `while next <= now`, with at most `fuel` tests. -/
def skipLoop (limit period now : Nat) : Nat → Nat → Option (Except String Nat)
  | 0, _ => none
  | fuel + 1, next =>
    if next ≤ now then
      match add limit next period with
      | .ok next => skipLoop limit period now fuel next
      | .error message => some (.error message)
    else some (.ok next)

/-- What `tick` makes of `next` after its sleep, if it reads `now` from the clock. -/
def advance (limit fuel now : Nat) (i : DtactInterval) : Option (Except String Nat) :=
  match i.missedTickBehavior with
  | .burst => some (add limit i.next i.period)
  | .skip =>
    match add limit i.next i.period with
    | .ok next => skipLoop limit i.period now fuel next
    | .error message => some (.error message)
  | .delay => some (add limit now i.period)

/-! ## Runs -/

structure St where
  interval : DtactInterval
  clock : Nat
deriving DecidableEq, Repr

inductive Act
  | setMissedTickBehavior (behavior : MissedTickBehavior)
  /-- The sleep is done after `sleep`, the clock is read after another `read`, and the call returns
  after another `rest`. -/
  | tick (sleep read rest fuel : Nat)
  | wait (duration : Nat)

def step (limit : Nat) (a : Act) (s : St) : Option St :=
  match a with
  | .setMissedTickBehavior behavior =>
    some { s with interval := { s.interval with missedTickBehavior := behavior } }
  | .tick sleep read rest fuel =>
    let now := s.clock + sleep + read
    (advance limit fuel now s.interval).map fun result =>
      match result with
      | .ok next => ⟨{ s.interval with next }, now + rest⟩
      | .error _ => ⟨s.interval, now + rest⟩
  | .wait duration => some { s with clock := s.clock + duration }

/-- A call of `tick` that has returned `firedAt` at the time `returned`. -/
structure Tick where
  firedAt : Nat
  behavior : MissedTickBehavior
  now : Nat
  next : Nat
  returned : Nat
deriving DecidableEq, Repr

/-- The calls that have returned, the latest first. -/
def upd (limit : Nat) (a : Act) (s : St) (ticks : List Tick) : List Tick :=
  match a with
  | .tick sleep read rest fuel =>
    let now := s.clock + sleep + read
    match advance limit fuel now s.interval with
    | some (.ok next) =>
      ⟨s.interval.next, s.interval.missedTickBehavior, now, next, now + rest⟩ :: ticks
    | _ => ticks
  | .setMissedTickBehavior _ | .wait _ => ticks

/-- A sleep is not done before its deadline. -/
def OnTime (s : St) : Act → Prop
  | .tick sleep _ _ _ => s.interval.next ≤ s.clock + sleep
  | .setMissedTickBehavior _ | .wait _ => True

abbrev IntervalRun (limit period : Nat) : List Act → St × List Tick → Prop :=
  Run (initHist (fun s => new limit s.clock period = .ok s.interval) [])
    (withHist (step limit) (upd limit)) fun p a => OnTime p.1 a

/-! ## The property -/

/-- `instant` is far enough from the one that was returned before. -/
structure Tick.Spaced (period : Nat) (x : Tick) (instant : Nat) : Prop where
  atLeast : x.firedAt + period ≤ instant
  burst : x.behavior = .burst → instant = x.firedAt + period
  skip : x.behavior = .skip → ∃ k, 1 ≤ k ∧ instant = x.firedAt + k * period

/-- The points of the cadence of `x` that are later than what it has read from the clock. -/
def Tick.later (period : Nat) (x : Tick) : Set Nat :=
  {t | x.now < t ∧ ∃ k, 1 ≤ k ∧ t = x.firedAt + k * period}

structure TicksOk (period : Nat) (s : St) (ticks : List Tick) : Prop where
  returned : ∀ x ∈ ticks, x.firedAt ≤ x.returned
  spaced : ticks.IsChain fun y x => x.Spaced period y.firedAt
  /-- The deadline that a call sets is the one that the next call returns. -/
  deadline : ticks.IsChain fun y x => y.firedAt = x.next
  current : ∀ x ∈ ticks.head?, s.interval.next = x.next
  skip : ∀ x ∈ ticks, x.behavior = .skip → IsLeast (x.later period) x.next
  delay : ∀ x ∈ ticks, x.behavior = .delay → x.next = x.now + period

/-! ## One call -/

section

variable {limit period now fuel next t : Nat}

theorem add_ok (h : add limit next period = .ok t) : t = next + period := by
  unfold add at h
  split at h
  · exact (Except.ok.inj h).symm
  · cases h

/-- The loop stops at the first point that is later than the clock. -/
theorem skipLoop_least (h : skipLoop limit period now fuel next = some (.ok t)) :
    now < t ∧ ∃ k, t = next + k * period ∧ ∀ j < k, next + j * period ≤ now := by
  induction fuel generalizing next with
  | zero => cases h
  | succ fuel ih =>
    unfold skipLoop at h
    split at h
    · next hle =>
      cases hadd : add limit next period with
      | error message =>
        rw [hadd] at h
        cases h
      | ok next' =>
        rw [hadd] at h
        obtain ⟨hlt, k, hk, hbefore⟩ := ih h
        rw [add_ok hadd] at hk hbefore
        refine ⟨hlt, k + 1, by rw [hk, Nat.succ_mul]; omega, fun j hj => ?_⟩
        cases j with
        | zero => simpa using hle
        | succ j =>
          have hj' := hbefore j (Nat.lt_of_succ_lt_succ hj)
          rw [Nat.succ_mul]
          omega
    · next hgt =>
      cases h
      exact ⟨Nat.lt_of_not_le hgt, 0, by simp, fun j hj => absurd hj (Nat.not_lt_zero j)⟩

/-- Each round adds at least one nanosecond. -/
theorem skipLoop_finishes (hpos : 0 < period) (hfuel : now < next + fuel) :
    (skipLoop limit period now (fuel + 1) next).isSome := by
  induction fuel generalizing next with
  | zero =>
    have hgt : ¬ next ≤ now := Nat.not_le_of_lt hfuel
    unfold skipLoop
    rw [if_neg hgt]
    rfl
  | succ fuel ih =>
    unfold skipLoop
    split
    · cases hadd : add limit next period with
      | error message => rfl
      | ok next' =>
        refine ih ?_
        rw [add_ok hadd]
        omega
    · rfl

variable {i : DtactInterval}

theorem advance_finishes (hpos : 0 < i.period) (hfuel : now < fuel) :
    (advance limit fuel now i).isSome := by
  unfold advance
  cases i.missedTickBehavior with
  | burst | delay => rfl
  | skip =>
    cases hadd : add limit i.next i.period with
    | error message => rfl
    | ok next =>
      obtain ⟨fuel, rfl⟩ := Nat.exists_eq_add_one_of_ne_zero (Nat.ne_zero_of_lt hfuel)
      refine skipLoop_finishes hpos ?_
      rw [add_ok hadd]
      omega

/-- What a call that returns has done, if its sleep was not done too early. -/
theorem advance_spec (returned : Nat) (hnow : i.next ≤ now)
    (h : advance limit fuel now i = some (.ok next)) :
    let x : Tick := ⟨i.next, i.missedTickBehavior, now, next, returned⟩
    x.Spaced i.period next ∧ (x.behavior = .skip → IsLeast (x.later i.period) x.next) ∧
      (x.behavior = .delay → x.next = x.now + i.period) := by
  unfold advance at h
  cases hb : i.missedTickBehavior with
  | burst =>
    rw [hb] at h
    obtain rfl := add_ok (Option.some.inj h)
    exact ⟨⟨le_rfl, fun _ => rfl, nofun⟩, nofun, nofun⟩
  | delay =>
    rw [hb] at h
    obtain rfl := add_ok (Option.some.inj h)
    exact ⟨⟨Nat.add_le_add_right hnow _, nofun, nofun⟩, nofun, fun _ => rfl⟩
  | skip =>
    rw [hb] at h
    cases hadd : add limit i.next i.period with
    | error message =>
      rw [hadd] at h
      cases h
    | ok first =>
      rw [hadd] at h
      obtain ⟨hlt, k, hk, hbefore⟩ := skipLoop_least h
      have hfirst := add_ok hadd
      have hnext : next = i.next + (k + 1) * i.period := by
        rw [hk, hfirst, Nat.succ_mul]
        omega
      have hspaced : i.next + i.period ≤ next := by
        rw [hk, hfirst]
        exact Nat.le_add_right ..
      refine ⟨⟨hspaced, nofun, fun _ => ⟨k + 1, by omega, hnext⟩⟩, fun _ => ⟨?_, ?_⟩, nofun⟩
      · exact ⟨hlt, k + 1, by omega, hnext⟩
      · rintro t ⟨hlater, j, hj, rfl⟩
        -- a point before that one was passed by the loop
        show next ≤ i.next + j * i.period
        rw [hnext]
        refine Nat.add_le_add_left (Nat.mul_le_mul_right _ (Nat.le_of_not_lt fun hjk => ?_)) _
        obtain ⟨j, rfl⟩ := Nat.exists_eq_add_one_of_ne_zero (Nat.ne_zero_of_lt hj)
        have hpassed := hbefore j (by omega)
        rw [hfirst] at hpassed
        have hlater : now < i.next + (j + 1) * i.period := hlater
        rw [Nat.succ_mul] at hlater
        omega

end

/-! ## Whole runs -/

structure Inv (period : Nat) (s : St) (ticks : List Tick) : Prop extends
    TicksOk period s ticks where
  period_eq : s.interval.period = period
  pos : 0 < period
  follows : ∀ x ∈ ticks.head?, x.Spaced period x.next

section

variable {limit period : Nat} {s s' : St} {ticks : List Tick} {a : Act}

theorem inv_new (h : new limit s.clock period = .ok s.interval) : Inv period s [] := by
  unfold new at h
  split at h
  · next hpos =>
    cases hadd : add limit s.clock period with
    | error message =>
      rw [hadd] at h
      cases h
    | ok next =>
      rw [hadd] at h
      refine ⟨⟨nofun, .nil, .nil, nofun, nofun, nofun⟩, ?_, hpos, nofun⟩
      rw [← Except.ok.inj h]
  · cases h

theorem Inv.step (hinv : Inv period s ticks) (hok : OnTime s a)
    (hst : Interval.step limit a s = some s') : Inv period s' (upd limit a s ticks) := by
  cases a with
  | setMissedTickBehavior behavior | wait duration =>
    cases hst
    exact { hinv with }
  | tick sleep read rest fuel =>
    obtain ⟨result, hresult, rfl⟩ := Option.map_eq_some_iff.mp hst
    simp only [upd, hresult]
    cases result with
    | error message => exact { hinv with }
    | ok next =>
      have hnow : s.interval.next ≤ s.clock + sleep + read := Nat.le_add_right_of_le hok
      obtain ⟨hspaced, hskip, hdelay⟩ :=
        advance_spec (s.clock + sleep + read + rest) hnow hresult
      rw [hinv.period_eq] at hspaced hskip hdelay
      refine ⟨⟨?_, ?_, ?_, ?_, ?_, ?_⟩, hinv.period_eq, hinv.pos, ?_⟩
      · exact List.forall_mem_cons.mpr ⟨Nat.le_add_right_of_le hnow, hinv.returned⟩
      · refine hinv.spaced.cons fun x hx => ?_
        show x.Spaced period s.interval.next
        rw [hinv.current x hx]
        exact hinv.follows x hx
      · exact hinv.deadline.cons hinv.current
      · rintro x ⟨⟩
        rfl
      · exact List.forall_mem_cons.mpr ⟨hskip, hinv.skip⟩
      · exact List.forall_mem_cons.mpr ⟨hdelay, hinv.delay⟩
      · rintro x ⟨⟩
        exact hspaced

/-- The instants are spaced, and a call whose sleep is done comes to an end whatever it reads. -/
theorem ticks_spaced {tr : List Act} (hrun : IntervalRun limit period tr (s, ticks)) :
    TicksOk period s ticks ∧
      ∀ now fuel, now < fuel → (advance limit fuel now s.interval).isSome := by
  have hinv : Inv period s ticks := by
    exact hrun.hist_invariant (I := Inv period) (fun _ => inv_new)
      (fun _ _ _ _ hinv hok hst => hinv.step hok hst)
  refine ⟨hinv.toTicksOk, fun now fuel hfuel => advance_finishes ?_ hfuel⟩
  rw [hinv.period_eq]
  exact hinv.pos

end

instance (s : St) : (a : Act) → Decidable (OnTime s a)
  | .tick sleep _ _ _ => inferInstanceAs (Decidable (s.interval.next ≤ s.clock + sleep))
  | .setMissedTickBehavior _ | .wait _ => .isTrue trivial

/-- A period of 10. The first call is late, the second one skips what was missed, and the third one
starts again from the clock. -/
def lateTicks : List Act :=
  [.wait 34, .tick 0 1 0 0, .setMissedTickBehavior .skip, .tick 0 1 2 40,
    .setMissedTickBehavior .delay, .tick 5 0 1 0]

theorem ticks_spaced_lateTicks : ∃ s ticks, IntervalRun (2 ^ 63 * 10 ^ 9) 10 lateTicks.reverse
    (s, ticks) ∧ ticks.map Tick.firedAt = [140, 120, 110] ∧ s.interval.next = 153 ∧
    TicksOk 10 s ticks ∧
    ∀ now fuel, now < fuel → (advance (2 ^ 63 * 10 ^ 9) fuel now s.interval).isSome := by
  obtain ⟨⟨s, ticks⟩, hrun, heq⟩ : ∃ p, IntervalRun (2 ^ 63 * 10 ^ 9) 10 lateTicks.reverse p ∧
      p.2.map Tick.firedAt = [140, 120, 110] ∧ p.1.interval.next = 153 :=
    Run.exists_of_guarded lateTicks (⟨⟨10, 110, .burst⟩, 100⟩, []) ⟨rfl, rfl⟩ (by decide +kernel)
  exact ⟨s, ticks, hrun, heq.1, heq.2, ticks_spaced hrun⟩

end Dtact.Interval
