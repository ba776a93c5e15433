import Dtact.Lib.Transition

/-!
# `OnceSlot`

`set` boxes the value, swaps the pointer in and wakes; `poll` loads the pointer and swaps it out if
it is there, else it registers its waker and swaps once more. Each operation on the pointer is a
step, and so are `register` and `take_and_wake`. One task polls, each time with another waker, also
after it was ready.
-/

namespace Dtact.OnceSlot

open Transition

variable {T ω : Type}

/-! ## The slot -/

/-- Where the call of `set` is. -/
inductive SetPc (T : Type)
  | unset
  | swap (value : T)
  | wake (value : T)
  | returned (value : T)
deriving DecidableEq

/-- Where the task is in `poll`. -/
inductive PollPc (ω : Type)
  | idle
  | load (waker : ω)
  | swap (waker : ω)
  | register (waker : ω)
  | swapAgain (waker : ω)
deriving DecidableEq

/-- What the latest poll has returned. -/
inductive Last (T ω : Type)
  | unpolled
  | pending (waker : ω)
  | ready (value : T)
deriving DecidableEq

inductive Freer
  | poll
  | drop
deriving DecidableEq

structure St (T ω : Type) where
  ptr : Option T
  waker : Option ω
  setter : SetPc T
  poller : PollPc ω
  dropped : Bool
  last : Last T ω
  /-- For reference: the wakers invoked since the latest poll began. -/
  woken : List ω
  /-- For reference: what polls have been ready with. -/
  results : List T
  /-- For reference: how often the box was freed. -/
  freed : List Freer

def St.new : St T ω := ⟨none, none, .unset, .idle, false, .unpolled, [], [], []⟩

namespace St

/-- One step of `set`. The pointer it swaps out is null, as it is called once. -/
def runSetter (s : St T ω) : Option (St T ω) :=
  match s.setter with
  | .unset | .returned _ => none
  | .swap value => some { s with ptr := some value, setter := .wake value }
  | .wake value =>
    some { s with waker := none, woken := s.waker.toList ++ s.woken, setter := .returned value }

/-- `ptr.swap(null)`: if there is a box, the poll is ready; else it goes on with `orElse`. -/
def swapOut (s orElse : St T ω) : St T ω :=
  match s.ptr with
  | some value =>
    { s with
      ptr := none, poller := .idle, last := .ready value
      results := value :: s.results, freed := .poll :: s.freed }
  | none => orElse

/-- One step of `poll`. -/
def runPoller (s : St T ω) : Option (St T ω) :=
  match s.poller with
  | .idle => none
  | .load waker =>
    some { s with poller := if s.ptr.isSome then .swap waker else .register waker }
  | .swap waker => some (s.swapOut { s with poller := .register waker })
  | .register waker => some { s with waker := some waker, poller := .swapAgain waker }
  | .swapAgain waker => some (s.swapOut { s with poller := .idle, last := .pending waker })

/-- `drop` -/
def drop (s : St T ω) : St T ω :=
  { s with
    ptr := none, waker := none, dropped := true
    freed := if s.ptr.isSome then .drop :: s.freed else s.freed }

end St

/-- `setter` and `poller` are the next steps of the calls. -/
inductive Act (T ω : Type)
  | set (value : T)
  | setter
  | poll (waker : ω)
  | poller
  | drop

def step (a : Act T ω) (s : St T ω) : Option (St T ω) :=
  match a, s.setter, s.poller, s.dropped with
  | .set value, .unset, _, false => some { s with setter := .swap value }
  | .setter, _, _, _ => s.runSetter
  | .poll waker, _, .idle, false => some { s with poller := .load waker, woken := [] }
  | .poller, _, _, _ => s.runPoller
  | .drop, .unset, .idle, false | .drop, .returned _, .idle, false => some s.drop
  | _, _, _, _ => none

abbrev SlotRun : List (Act T ω) → St T ω → Prop := Run (· = St.new) step Free

/-! ## The box -/

def SetPc.stored : SetPc T → Option T
  | .unset | .swap _ => none
  | .wake value | .returned value => some value

/-- Where the box is, by the value stored, the pointer, what polls were ready with, who has freed
the box, and whether the slot was dropped. -/
inductive Holds : Option T → Option T → List T → List Freer → Bool → Prop
  | setter (dropped : Bool) : Holds none none [] [] dropped
  | slot (value : T) : Holds (some value) (some value) [] [] false
  | polled (value : T) (dropped : Bool) : Holds (some value) none [value] [.poll] dropped
  | dropped (value : T) : Holds (some value) none [] [.drop] true

section

variable {stored ptr : Option T} {results : List T} {freed : List Freer} {dropped : Bool}

theorem Holds.not_stored (h : Holds stored none [] freed false) : stored = none := by
  cases h
  rfl

theorem Holds.ready_once (h : Holds stored ptr results freed dropped) :
    results.length ≤ 1 ∧ ∀ value ∈ results, stored = some value := by
  cases h <;> simp

theorem Holds.freed_once (h : Holds stored ptr results freed dropped) :
    freed.length ≤ 1 ∧ (results ≠ [] ↔ freed = [.poll]) := by
  cases h <;> simp

theorem Holds.freed_of_dropped (h : Holds stored ptr results freed true) :
    stored = none ↔ freed = [] := by
  cases h <;> simp

end

/-- A poll that was ready has handed over what it found, and no other one has. A poll that has
returned pending has left its waker in the slot, and once `set` has returned it has been
invoked. -/
structure Inv (s : St T ω) : Prop where
  holds : Holds s.setter.stored s.ptr s.results s.freed s.dropped
  ready : ∀ value, s.last = .ready value → s.results = [value]
  registered : ∀ waker, s.poller = .swapAgain waker → s.setter.stored = none →
    s.waker = some waker
  pending : ∀ waker, s.poller = .idle → s.last = .pending waker → s.results = [] →
    (∀ value, s.setter ≠ .returned value) → s.dropped = false → s.waker = some waker
  woken : ∀ waker, s.poller = .idle → s.last = .pending waker → s.results = [] →
    ∀ value, s.setter = .returned value → waker ∈ s.woken
  calls : s.dropped = true → s.poller = .idle ∧
    ∀ value, s.setter ≠ .swap value ∧ s.setter ≠ .wake value

variable {s s' : St T ω}

theorem inv_new : Inv (St.new : St T ω) := by
  refine ⟨.setter false, ?_, ?_, ?_, ?_, ?_⟩ <;> simp [St.new]

section

variable (hinv : Inv s)

include hinv

theorem Inv.runSetter (hst : s.runSetter = some s') : Inv s' := by
  obtain ⟨ptr, waker, setter, poller, dropped, last, woken, results, freed⟩ := s
  obtain ⟨hholds, hready, hregistered, hpending, hwoken, hcalls⟩ := hinv
  have hopen (hbusy : ∃ value, setter = .swap value ∨ setter = .wake value) : dropped = false := by
    obtain ⟨value, hbusy⟩ := hbusy
    refine Bool.eq_false_iff.mpr fun hdropped => ?_
    exact hbusy.elim ((hcalls hdropped).2 value).1 ((hcalls hdropped).2 value).2
  cases setter with
  | unset | returned value => cases hst
  | swap value =>
    cases hst
    obtain rfl : dropped = false := hopen ⟨value, .inl rfl⟩
    cases hholds with
    | setter =>
      refine ⟨.slot value, hready, by simp [SetPc.stored], fun w hidle hlast _ _ => ?_, by simp,
        by simp⟩
      exact hpending w hidle hlast rfl (by simp)
  | wake value =>
    cases hst
    obtain rfl : dropped = false := hopen ⟨value, .inr rfl⟩
    refine ⟨hholds, hready, by simp [SetPc.stored], fun w _ _ _ hnot => absurd rfl (hnot value),
      fun w hidle hlast hresults _ _ => ?_, by simp⟩
    have hwaker : waker = some w := hpending w hidle hlast hresults (by simp) rfl
    simp [hwaker]

/-- The swap of a poll that is not ready goes on as `orElse`. -/
theorem Inv.swapOut {orElse : St T ω} (hbusy : s.poller ≠ .idle)
    (hnone : s.ptr = none → Inv orElse) : Inv (s.swapOut orElse) := by
  obtain ⟨ptr, waker, setter, poller, dropped, last, woken, results, freed⟩ := s
  cases ptr with
  | none => exact hnone rfl
  | some value =>
    have hholds := hinv.holds
    have hopen : dropped = false := Bool.eq_false_iff.mpr fun h => hbusy (hinv.calls h).1
    simp only at hholds
    generalize hstored : setter.stored = stored at hholds
    cases hholds with
    | slot =>
      refine ⟨?_, by simp [St.swapOut], by simp [St.swapOut], by simp [St.swapOut],
        by simp [St.swapOut], ?_⟩
      · simp only [St.swapOut, hstored]
        exact .polled value false
      · simp [St.swapOut]

/-- Before it registers, a poll owes nothing. -/
theorem Inv.goto {pc : PollPc ω} (hbusy : s.dropped = false) (hpc : pc ≠ .idle)
    (hagain : ∀ waker, pc ≠ .swapAgain waker) : Inv { s with poller := pc } := by
  refine ⟨hinv.holds, hinv.ready, fun waker h => absurd h (hagain waker), fun _ h => absurd h hpc,
    fun _ h => absurd h hpc, fun h => ?_⟩
  cases hbusy.symm.trans h

/-- As long as no poll was ready, a null pointer means that `set` has not stored its own. -/
theorem Inv.not_stored (hptr : s.ptr = none) (hresults : s.results = [])
    (hopen : s.dropped = false) : s.setter.stored = none := by
  have hholds := hinv.holds
  rw [hptr, hresults, hopen] at hholds
  exact hholds.not_stored

theorem Inv.runPoller (hst : s.runPoller = some s') : Inv s' := by
  have hopen (hbusy : s.poller ≠ .idle) : s.dropped = false :=
    Bool.eq_false_iff.mpr fun h => hbusy (hinv.calls h).1
  cases hpc : s.poller with
  | idle =>
    simp only [St.runPoller, hpc] at hst
    cases hst
  | load waker =>
    simp only [St.runPoller, hpc, Option.some.injEq] at hst
    subst hst
    refine hinv.goto (hopen (by simp [hpc])) ?_ fun w => ?_
    all_goals split <;> simp
  | swap waker =>
    simp only [St.runPoller, hpc, Option.some.injEq] at hst
    subst hst
    refine hinv.swapOut (by simp [hpc]) fun _ => ?_
    exact hinv.goto (hopen (by simp [hpc])) (by simp) (by simp)
  | register waker =>
    simp only [St.runPoller, hpc, Option.some.injEq] at hst
    subst hst
    refine ⟨hinv.holds, hinv.ready, by simp, by simp, by simp, fun h => ?_⟩
    cases (hopen (by simp [hpc])).symm.trans h
  | swapAgain waker =>
    simp only [St.runPoller, hpc, Option.some.injEq] at hst
    subst hst
    have hopen := hopen (by simp [hpc])
    refine hinv.swapOut (by simp [hpc]) fun hptr => ?_
    refine ⟨hinv.holds, by simp, by simp, fun w _ hlast hresults _ _ => ?_,
      fun w _ _ hresults value hreturned => ?_, fun h => ?_⟩
    · cases hlast
      exact hinv.registered waker hpc (hinv.not_stored hptr hresults hopen)
    · -- the pointer would have been there
      have hstored := hinv.not_stored hptr hresults hopen
      rw [show s.setter = .returned value from hreturned] at hstored
      cases hstored
    · cases hopen.symm.trans h

theorem Inv.drop (hidle : s.poller = .idle)
    (hsetter : ∀ value, s.setter ≠ .swap value ∧ s.setter ≠ .wake value) : Inv s.drop := by
  refine ⟨?_, hinv.ready, fun waker h => ?_, by simp [St.drop], hinv.woken,
    fun _ => ⟨hidle, hsetter⟩⟩
  · have hholds := hinv.holds
    simp only [St.drop]
    generalize s.setter.stored = stored, s.ptr = ptr, s.results = results, s.freed = freed,
      s.dropped = dropped at hholds
    cases hholds with
    | setter => exact .setter true
    | slot value => exact .dropped value
    | polled value => exact .polled value true
    | dropped value => exact .dropped value
  · cases hidle.symm.trans h

theorem Inv.step {a : Act T ω} (hst : step a s = some s') : Inv s' := by
  unfold OnceSlot.step at hst
  split at hst
  case h_1 value hsetter hopen =>
    cases hst
    have hstored : s.setter.stored = none := by rw [hsetter]; rfl
    refine ⟨?_, hinv.ready, fun w hw _ => hinv.registered w hw hstored,
      fun w hidle hlast hresults _ => ?_, by simp, fun h => ?_⟩
    · have hholds := hinv.holds
      rwa [hstored] at hholds
    · exact hinv.pending w hidle hlast hresults (by simp [hsetter])
    · cases hopen.symm.trans h
  case h_2 => exact hinv.runSetter hst
  case h_3 waker _ hopen =>
    cases hst
    exact ⟨hinv.holds, hinv.ready, by simp, by simp, by simp,
      fun h => by cases hopen.symm.trans h⟩
  case h_4 => exact hinv.runPoller hst
  case h_5 hsetter hidle _ =>
    cases hst
    exact hinv.drop hidle (by simp [hsetter])
  case h_6 hsetter hidle _ =>
    cases hst
    exact hinv.drop hidle (by simp [hsetter])
  case h_7 => cases hst

end

theorem inv_run {tr : List (Act T ω)} (hrun : SlotRun tr s) : Inv s := by
  refine hrun.invariant (I := fun _ s => Inv s) ?_ ?_
  · rintro s rfl
    exact inv_new
  · exact fun _ _ _ _ hinv _ hst => hinv.step hst

/-- At most one poll is ready, and with the value that was set: a poll that has returned ready is
that one. The box is freed at most once, by that poll or by the drop of the slot, and once the slot
is dropped it is freed if there was one. When `set` has returned, no poll was ready and the latest
poll has returned pending, its waker has been invoked since it began. -/
theorem value_handed_over_once {tr : List (Act T ω)} (hrun : SlotRun tr s) :
    s.results.length ≤ 1 ∧ (∀ value ∈ s.results, s.setter.stored = some value) ∧
    (∀ value, s.last = .ready value → s.results = [value] ∧ s.setter.stored = some value) ∧
    s.freed.length ≤ 1 ∧ (s.results ≠ [] ↔ s.freed = [.poll]) ∧
    (s.dropped = true → (s.setter = .unset ↔ s.freed = [])) ∧
    (∀ value, s.setter = .returned value → s.results = [] → s.poller = .idle →
      ∀ waker, s.last = .pending waker → waker ∈ s.woken) := by
  have hinv := inv_run hrun
  obtain ⟨hready, hvalue⟩ := hinv.holds.ready_once
  obtain ⟨hfreed, hpoll⟩ := hinv.holds.freed_once
  refine ⟨hready, hvalue, fun value hlast => ?_, hfreed, hpoll, fun hdropped => ?_,
    fun value hreturned hresults hidle waker hlast =>
      hinv.woken waker hidle hlast hresults value hreturned⟩
  · have hresults := hinv.ready value hlast
    exact ⟨hresults, hvalue value (by simp [hresults])⟩
  have hholds := hinv.holds
  rw [hdropped] at hholds
  rw [← hholds.freed_of_dropped]
  -- a slot is not dropped within `set`
  have hcalls := (hinv.calls hdropped).2
  cases hsetter : s.setter with
  | unset | returned value => simp [SetPc.stored]
  | swap value => exact absurd hsetter (hcalls value).1
  | wake value => exact absurd hsetter (hcalls value).2

/-- Two polls that return pending, with different wakers, and then the value is set. -/
def setAfterPolls : List (Act Nat Nat) :=
  [.poll 3, .poller, .poller, .poller, .poll 4, .set 7, .poller, .poller, .poller, .setter, .setter]

def pollReady : List (Act Nat Nat) := setAfterPolls ++ [.poll 5, .poller, .poller]

/-- The waker of the second poll is invoked, and a third poll is ready. -/
theorem value_handed_over_once_setAfterPolls :
    (∃ s : St Nat Nat, SlotRun setAfterPolls.reverse s ∧
      s.setter = .returned 7 ∧ s.last = .pending 4 ∧ 4 ∈ s.woken) ∧
    ∃ s : St Nat Nat, SlotRun pollReady.reverse s ∧
      s.last = .ready 7 ∧ s.results = [7] ∧ s.freed = [.poll] := by
  constructor
  · obtain ⟨s, hrun, hreturned, hresults, hidle, hlast⟩ : ∃ s : St Nat Nat,
        SlotRun setAfterPolls.reverse s ∧ s.setter = .returned 7 ∧ s.results = [] ∧
          s.poller = .idle ∧ s.last = .pending 4 :=
      Run.exists_of_exec setAfterPolls St.new rfl (by decide +kernel)
    obtain ⟨-, -, -, -, -, -, hwoken⟩ := value_handed_over_once hrun
    exact ⟨s, hrun, hreturned, hlast, hwoken 7 hreturned hresults hidle 4 hlast⟩
  · obtain ⟨s, hrun, hlast⟩ : ∃ s : St Nat Nat, SlotRun pollReady.reverse s ∧ s.last = .ready 7 :=
      Run.exists_of_exec pollReady St.new rfl (by decide +kernel)
    obtain ⟨-, -, hready, -, hfreed, -, -⟩ := value_handed_over_once hrun
    have hresults := (hready 7 hlast).1
    exact ⟨s, hrun, hlast, hresults, hfreed.mp (by simp [hresults])⟩

end Dtact.OnceSlot
